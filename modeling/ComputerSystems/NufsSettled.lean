import ComputerSystems.NufsFolders

/-!
# Runs as FUSE makes them

The kernel walks a path before it calls: parents are directories, and only
names of other inodes are linked, unlinked, written and truncated. Along every
run of clean calls of this kind that enter names of at most 47 bytes, marked
directories stay packed beside the files, entries name marked inodes, and no
directory has two names; so a directory is reached by one path.
-/

namespace ComputerSystems.NufsSettled

open StateProgram ByteMemory DirectoryTree NufsImage NufsInode NufsPath NufsDirectory NufsStorage
  NufsCalls NufsOwnership NufsEntry NufsSound NufsIsolation NufsListing NufsCatalog NufsNamespace
  NufsLifetime NufsRefinement NufsFolders

/-! ## Directories with one name -/

/-- No directory has two names. -/
def Single (c : Catalog) : Prop := ∀ j, c.folder j → nameCount c j≤1

/-- The source of a link is no directory. -/
def LinksFile (c : Catalog) : Operation → Prop
  | .link source _ => ∀ d f, resolveAt c source.parent=some d → childAt c d source.base=some f →
      ¬c.folder f
  | _ => True

section Single

variable {c : Catalog}

/-- Names of a directory with one name are one: the entry left over after
taking one away would count. -/
theorem Single.once (hs : Single c) (hc : Consistent c) {d t j : ℕ} {name label : Component}
    (hj : c.folder j) (h : childAt c d name=some j) (h' : childAt c t label=some j) :
    d=t ∧ name=label := by
  have hd64 := hc.index d (holder_of_child hc h).1
  have hentry := entry_of_child hc h
  have hentry' := entry_of_child hc h'
  obtain ⟨hlt,hget⟩ := List.getElem?_eq_some_iff.mp hentry
  have hcount := nameCount_remove c hd64 hentry j
  have hle := hs j hj
  rw [if_pos rfl] at hcount
  have hnone : nameCount (c.remove d (nameIndex (c.entries d) name.bytes)) j=0 := by omega
  by_contra hne
  have hmem : (⟨label.bytes,j⟩ : Entry)∈
      (c.remove d (nameIndex (c.entries d) name.bytes)).entries t := by
    have hold := List.mem_of_getElem? hentry'
    simp only [Catalog.remove]
    by_cases he : t=d
    · rw [he] at hold ⊢
      rw [Function.update_self]
      have hp := (PackedList.swapRemove_perm hlt).mem_iff.mp hold
      rw [hget,List.mem_cons] at hp
      refine hp.resolve_left (fun hx => hne ⟨he.symm,?_⟩)
      exact Component.ext_bytes (Entry.mk.inj hx).1.symm
    · rw [Function.update_of_ne he]
      exact hold
  have hpos := nameCount_pos (hc.index t (holder_of_child hc h').1) hmem rfl
  omega

/-- Directories are reached by one path. -/
theorem Single.path_unique (hs : Single c) (hc : Consistent c) {path other : List Component} {d : ℕ}
    (hd : c.folder d) (h : resolveAt c path=some d) (h' : resolveAt c other=some d) :
    path=other := by
  have hroot : ∀ parent name, childAt c parent name≠some 0 := fun parent name he =>
    absurd (hc.child_entry he).2.1 (Nat.lt_irrefl 0)
  have honce : ∀ parent other name label next, c.folder next → childAt c parent name=some next →
      childAt c other label=some next → parent=other ∧ name=label :=
    fun _ _ _ _ next hnext hp ho => hs.once hc hnext hp ho
  exact walk_unique hroot honce (fun _ _ _ hp => (holder_of_child hc hp).2) hd h h'

/-- The names after an insertion. -/
theorem nameCount_put (c : Catalog) {d : ℕ} (hd : d<64) (name : List UInt8) (j l : ℕ) :
    nameCount (c.put d name j) l=nameCount c l+if (j : ℤ)=(l : ℤ) then 1 else 0 :=
  nameCount_append (c.count j 1) hd ⟨name,j⟩ l

/-- The names after `directory_delete`. -/
theorem nameCount_delete (c : Catalog) {d ii j : ℕ} (hd : d<64) {name : List UInt8}
    (he : (c.entries d)[ii]?=some ⟨name,j⟩) (l : ℕ) :
    nameCount c l=nameCount (c.delete d ii j) l+if (j : ℤ)=(l : ℤ) then 1 else 0 :=
  nameCount_remove c hd he l

/-- An operation that fits and links no directory keeps directories at one name
each. -/
theorem Single.apply (hs : Single c) (hc : Consistent c) {operation : Operation}
    (hf : Fits c operation) (hl : LinksFile c operation) : Single (applyIn c operation).2 := by
  cases operation with
  | mknod place mode =>
    obtain ⟨d,hp,_⟩ := hf
    simp only [applyIn,mknodIn,hp.resolve]
    cases hf : childAt c d place.base with
    | some j => exact hs
    | none =>
      intro j hj
      have hcount := nameCount_put (c.create (nextFree c) (IsFolder (wrap32 mode)))
        (hc.index d hp.live) place.base.bytes (nextFree c) j
      have hold : nameCount (c.create (nextFree c) (IsFolder (wrap32 mode))) j=nameCount c j := rfl
      rw [hold] at hcount
      refine hcount.le.trans ?_
      by_cases he : j=nextFree c
      · rw [he,nameCount_dead hc (nextFree_spec hc).1,if_pos rfl]
      · have hfolder : c.folder j := by
          simp only [Catalog.put,Catalog.append,Catalog.count,Catalog.create,
            Function.update_of_ne he] at hj
          exact hj
        rw [if_neg (fun hx => he (Int.ofNat_inj.mp hx).symm),Nat.add_zero]
        exact hs j hfolder
  | link source target =>
    obtain ⟨⟨d,hp⟩,t,hp',_⟩ := hf
    simp only [applyIn,linkIn,hp.resolve,hp'.resolve,Option.bind_some]
    cases hf : childAt c d source.base with
    | none => exact hs
    | some f =>
      dsimp only
      cases hg : childAt c t target.base with
      | some j => exact hs
      | none =>
        intro j hj
        have hcount := nameCount_put c (hc.index t hp'.live) target.base.bytes f j
        have hne : f≠j := fun he => hl d f hp.resolve hf (he ▸ hj)
        rw [if_neg (fun hx => hne (Int.ofNat_inj.mp hx)),Nat.add_zero] at hcount
        exact hcount.le.trans (hs j hj)
  | unlink place =>
    obtain ⟨d,hp,_⟩ := hf
    simp only [applyIn,unlinkIn,hp.resolve]
    cases hf : childAt c d place.base with
    | none => exact hs
    | some f =>
      intro j hj
      have hcount := nameCount_delete (c.count f (-1)) (hc.index d hp.live) (entry_of_child hc hf) j
      have hle := hs j hj
      have hold : nameCount (c.count f (-1)) j=nameCount c j := rfl
      rw [hold] at hcount
      exact (Nat.le_of_add_right_le hcount.symm.le).trans hle
  | rename source target =>
    obtain ⟨d,t,hp,hp',_⟩ := hf
    simp only [applyIn,renameIn,hp.resolve,hp'.resolve]
    cases hf : childAt c d source.base with
    | none => exact hs
    | some f =>
      intro j hj
      have hput := nameCount_put c (hc.index t hp'.live) target.base.bytes f j
      have hcount := nameCount_delete (c.put t target.base.bytes f) (hc.index d hp.live)
        (entry_of_moved hc hf target.base.bytes) j
      rw [hput] at hcount
      exact (Nat.add_right_cancel hcount).symm.le.trans (hs j hj)

end Single

/-! ## Conditions on a call -/

/-- The parent of a path resolves to a directory. -/
def Parented (disk : Disk) (place : Location Component) : Prop :=
  ∃ d, Resolves disk place.parent d ∧ Folder disk.bytes d

/-- A path does not lead to a directory. -/
def Undirected (disk : Disk) (path : List UInt8) : Prop :=
  ∀ i : ℕ, treeLookup path disk=.ok (i : ℤ) disk → ¬Directory disk.bytes i

/-- What the kernel's path walk guarantees of a call: parents are directories,
and links, unlinks, writes and truncations are of other inodes. -/
def Walked (disk : Disk) : Call → Prop
  | .mknod path _ => ∃ place, path=pathOf place ∧ Parented disk place
  | .link source dest => ∃ place target, source=pathOf place ∧ dest=pathOf target ∧
      Parented disk place ∧ Parented disk target ∧ Undirected disk source
  | .unlink path => ∃ place, path=pathOf place ∧ Parented disk place ∧ Undirected disk path
  | .rename path dest => ∃ place target, path=pathOf place ∧ dest=pathOf target ∧
      Parented disk place ∧ Parented disk target
  | .write path _ _ _ => Undirected disk path
  | .truncate path _ => Undirected disk path

/-- The name that a call enters has at most 47 bytes. -/
def ShortName : Call → Prop
  | .mknod path _ => (basename path).length≤47
  | .link _ dest => (basename dest).length≤47
  | .rename _ dest => (basename dest).length≤47
  | _ => True

/-- The calls of the runs: they free nothing in use, the kernel makes them, and
they enter short names. -/
structure Regular (disk : Disk) (call : Call) : Prop where
  /-- The call frees nothing in use. -/
  clean : Clean disk call
  /-- The kernel makes it. -/
  walked : Walked disk call
  /-- It enters a short name. -/
  short : ShortName call

/-- The invariant of these runs. -/
structure Settled (memory : Bytes) : Prop where
  /-- The layout. -/
  filed : Filed memory
  /-- The contents of directories. -/
  consistent : Consistent (folders memory)
  /-- Directories have one name. -/
  single : Single (folders memory)

/-! ## Calls -/

section Calls

variable {disk next : Disk} {d t : ℕ}

/-- Paths in the image resolve as in the view. -/
theorem Settled.resolves (h : Settled disk.bytes) {path : List Component} {i : ℕ} :
    Resolves disk path i ↔ resolveAt (folders disk.bytes) path=some i :=
  resolves_iff h.filed h.consistent

/-- The lookups of a path with a parent. -/
theorem Settled.looked (h : Settled disk.bytes) {place : Location Component}
    (hr : Resolves disk place.parent d) (hd : Folder disk.bytes d) :
    Looked disk (folders disk.bytes) place d := looked_of_resolves h.filed h.consistent hr hd

/-- An entry that fits leaves room. -/
theorem room_of_fits (h : Filed disk.bytes) (hd : Folder disk.bytes d) {name : List UInt8}
    (hf : PutFits disk.bytes d name) : ((folders disk.bytes).entries d).length<64 := by
  obtain ⟨count,_,hs⟩ := h.size d hd
  have hroom := hf.room
  rw [folders_entries hd,length_entriesAt hs]
  omega

/-- What is found under a name that leads to no directory. -/
theorem Undirected.child {place : Location Component} (hu : Undirected disk (pathOf place))
    (hp : Looked disk (folders disk.bytes) place d) {f : ℕ}
    (hf : childAt (folders disk.bytes) d place.base=some f) : ¬(folders disk.bytes).folder f := by
  rintro ⟨_,hd⟩
  have hpath := hp.path
  rw [hf] at hpath
  exact hu f hpath hd

/-- A call that refines an operation that fits keeps the invariant. -/
theorem Settled.of_refines (h : Settled disk.bytes) {operation : Operation} {result : ℤ}
    (hf : Fits (folders disk.bytes) operation) (hl : LinksFile (folders disk.bytes) operation)
    (hr : RefinesIn Filed folders disk operation result next) : Settled next.bytes := by
  obtain ⟨hfiled,hcat⟩ := hr
  have hview := (Prod.mk.inj hcat).2
  refine ⟨hfiled,?_,?_⟩
  · rw [hview]
    refine Consistent.apply h.consistent hf (fun i hi => ?_)
    rw [←hview] at hi
    exact hi.1
  · rw [hview]
    exact h.single.apply h.consistent hf hl

/-- A regular `storage_mknod` refines its operation, which fits. -/
theorem Settled.mknod (h : Settled disk.bytes) {place : Location Component} {mode : ℤ}
    (hp : Looked disk (folders disk.bytes) place d)
    (hc : Clean disk (.mknod (pathOf place) mode)) (hs : place.base.bytes.length≤47) :
    Fits (folders disk.bytes) (.mknod place mode) ∧
      Delivers Disk.denied (storageMknod (pathOf place) mode) disk
        (RefinesIn Filed folders disk (.mknod place mode)) := by
  have hd := folder_iff.mp ⟨hp.sited.live,hp.sited.folder⟩
  have hroom : childAt (folders disk.bytes) d place.base=none →
      ((folders disk.bytes).entries d).length<64 := by
    intro hnone
    have hname := hp.name
    rw [hnone] at hname
    exact room_of_fits h.filed hd (hc d noEntry (by decide) hp.parent hname)
  exact ⟨⟨d,hp.sited,hroom⟩,folders_layout.mknod h.filed h.consistent hp hroom hs⟩

/-- A regular `storage_link` refines its operation, which fits. -/
theorem Settled.link (h : Settled disk.bytes) {place target : Location Component}
    (hp : Looked disk (folders disk.bytes) place d) (hp' : Looked disk (folders disk.bytes) target t)
    (hc : Clean disk (.link (pathOf place) (pathOf target))) (hs : target.base.bytes.length≤47) :
    Fits (folders disk.bytes) (.link place target) ∧
      Delivers Disk.denied (storageLink (pathOf place) (pathOf target)) disk
        (RefinesIn Filed folders disk (.link place target)) := by
  have ht := folder_iff.mp ⟨hp'.sited.live,hp'.sited.folder⟩
  have hroom : childAt (folders disk.bytes) t target.base=none →
      ((folders disk.bytes).entries t).length<64 := by
    intro hnone
    have hname := hp'.name
    rw [hnone] at hname
    exact room_of_fits h.filed ht (hc t noEntry (by decide) hp'.parent hname)
  exact ⟨⟨⟨d,hp.sited⟩,t,hp'.sited,hroom⟩,folders_layout.link h.filed h.consistent hp hp' hroom hs⟩

/-- A regular `storage_unlink` refines its operation, which fits. -/
theorem Settled.unlink (h : Settled disk.bytes) {place : Location Component}
    (hp : Looked disk (folders disk.bytes) place d) (hc : Clean disk (.unlink (pathOf place)))
    (hu : Undirected disk (pathOf place)) :
    Fits (folders disk.bytes) (.unlink place) ∧
      Delivers Disk.denied (storageUnlink (pathOf place)) disk
        (RefinesIn Filed folders disk (.unlink place)) := by
  refine ⟨⟨d,hp.sited,fun f hf => hu.child hp hf⟩,
    folders_layout.unlink h.filed h.consistent hp (fun f hf => hu.child hp hf) (fun f hf => ?_)⟩
  obtain ⟨_,_,hlive⟩ := h.consistent.child_entry hf
  have hname := hp.name
  rw [hf] at hname
  have hfit := hc d f (by omega) hp.parent hname
  exact hfit.of_refs h.filed.sound (h.consistent.index f hlive) _

/-- A regular `storage_rename` refines its operation, which fits. -/
theorem Settled.rename (h : Settled disk.bytes) {place target : Location Component}
    (hp : Looked disk (folders disk.bytes) place d) (hp' : Looked disk (folders disk.bytes) target t)
    (hc : Clean disk (.rename (pathOf place) (pathOf target)))
    (hs : target.base.bytes.length≤47) :
    Fits (folders disk.bytes) (.rename place target) ∧
      Delivers Disk.denied (storageRename (pathOf place) (pathOf target)) disk
        (RefinesIn Filed folders disk (.rename place target)) := by
  have hfits : ∀ f, childAt (folders disk.bytes) d place.base=some f →
      directoryLookup (nodeOffset d) (basename (pathOf place)) disk=.ok (f : ℤ) disk ∧
        MoveFits disk.bytes d t target.base.bytes := by
    intro f hf
    have hname := hp.name
    rw [hf] at hname
    have hmove := hc d t f (by omega) hp.parent hname hp'.parent
    rw [pathOf,basename_render] at hmove
    exact ⟨hname,hmove⟩
  have ht := folder_iff.mp ⟨hp'.sited.live,hp'.sited.folder⟩
  have hroom : ∀ f, childAt (folders disk.bytes) d place.base=some f →
      ((folders disk.bytes).entries t).length<64 := fun f hf =>
    room_of_fits h.filed ht (hfits f hf).2.put
  refine ⟨⟨d,t,hp.sited,hp'.sited,hroom⟩,
    folders_layout.rename h.filed h.consistent hp hp' hroom hs (fun f mid hf hput hdenied => ?_)⟩
  obtain ⟨hname,hmove⟩ := hfits f hf
  have hf64 := h.consistent.index f (h.consistent.child_entry hf).2.2
  have hins := inserted_of_returned disk h.filed.sound hmove.put hf64 hput hdenied
  exact hmove.delete hins h.filed.sound hf64
    (size_of_lookup (h.consistent.index d hp.sited.live) hname (by omega))

/-- A write or truncation of an inode that is no directory keeps the layout and
the view. -/
theorem Settled.file (h : Settled disk.bytes) {call : Call} {path : List UInt8}
    {asked result : ℤ} (ht : target call=some (path,asked)) (hc : Clean disk call)
    (hu : Undirected disk path) (hr : exec call disk=.ok result next)
    (hd : next.denied=disk.denied) :
    Filed next.bytes ∧ folders next.bytes=folders disk.bytes := by
  rcases file_effect h.filed.sound ht hc hr hd with rfl|⟨i,_,_,_,hlookup,_⟩
  · exact ⟨h.filed,rfl⟩
  · obtain ⟨hs,hiso⟩ := file_isolated h.filed.sound ht hc hr hd hlookup
    exact filed_of_isolated h.filed hs (hu i hlookup) hiso

/-- A regular call refines an operation that fits, or leaves the view alone. -/
theorem Settled.effect (h : Settled disk.bytes) {call : Call} {result : ℤ} (hc : Regular disk call)
    (hr : exec call disk=.ok result next) (hd : next.denied=disk.denied) :
    (∃ operation, call=Operation.call operation ∧ Fits (folders disk.bytes) operation ∧
      LinksFile (folders disk.bytes) operation ∧
      RefinesIn Filed folders disk operation result next) ∨
    (Filed next.bytes ∧ folders next.bytes=folders disk.bytes) := by
  obtain ⟨hclean,hwalked,hshort⟩ := hc
  cases call with
  | mknod path mode =>
    obtain ⟨place,rfl,d,hres,hfolder⟩ := hwalked
    rw [ShortName,pathOf,basename_render] at hshort
    obtain ⟨hf,hdeliver⟩ := h.mknod (h.looked hres hfolder) hclean hshort
    exact .inl ⟨.mknod place mode,rfl,hf,trivial,hdeliver.of_returned hr hd⟩
  | link source dest =>
    obtain ⟨place,target,rfl,rfl,⟨d,hres,hfolder⟩,⟨t,hres',hfolder'⟩,hu⟩ := hwalked
    rw [ShortName,pathOf,basename_render] at hshort
    have hp := h.looked hres hfolder
    obtain ⟨hf,hdeliver⟩ := h.link hp (h.looked hres' hfolder') hclean hshort
    refine .inl ⟨.link place target,rfl,hf,fun e f he hchild => ?_,hdeliver.of_returned hr hd⟩
    rw [hp.sited.resolve,Option.some.injEq] at he
    exact hu.child hp (he ▸ hchild)
  | unlink path =>
    obtain ⟨place,rfl,⟨d,hres,hfolder⟩,hu⟩ := hwalked
    obtain ⟨hf,hdeliver⟩ := h.unlink (h.looked hres hfolder) hclean hu
    exact .inl ⟨.unlink place,rfl,hf,trivial,hdeliver.of_returned hr hd⟩
  | rename path dest =>
    obtain ⟨place,target,rfl,rfl,⟨d,hres,hfolder⟩,t,hres',hfolder'⟩ := hwalked
    rw [ShortName,pathOf,basename_render] at hshort
    obtain ⟨hf,hdeliver⟩ := h.rename (h.looked hres hfolder) (h.looked hres' hfolder') hclean hshort
    exact .inl ⟨.rename place target,rfl,hf,trivial,hdeliver.of_returned hr hd⟩
  | write path buf size offset => exact .inr (h.file rfl hclean hwalked hr hd)
  | truncate path size => exact .inr (h.file rfl hclean hwalked hr hd)

/-- Every regular call keeps the invariant. -/
theorem Settled.step (h : Settled disk.bytes) {call : Call} {result : ℤ} (hc : Regular disk call)
    (hr : exec call disk=.ok result next) (hd : next.denied=disk.denied) :
    Settled next.bytes := by
  rcases h.effect hc hr hd with ⟨operation,_,hf,hl,hrefines⟩|⟨hfiled,hview⟩
  · exact h.of_refines hf hl hrefines
  · exact ⟨hfiled,hview ▸ h.consistent,hview ▸ h.single⟩

end Calls

/-! ## Runs -/

/-- Shaped images see the same catalogue either way. -/
theorem folders_of_shaped {memory : Bytes} (h : Shaped memory) : folders memory=catalog memory := by
  refine Catalog.ext (funext (fun l => ?_)) rfl rfl rfl
  by_cases hl : Folder memory l
  · rw [folders_entries hl,catalog_entries memory hl.1.1]
  · rw [folders_nil hl]
    by_cases hl64 : l<64
    · rw [catalog_entries memory hl64,entriesAt_zero (h.size_zero hl64 hl)]
    · simp only [catalog,if_neg hl64]

/-- A fresh image is settled. -/
theorem settled_fresh : Settled fresh.bytes := by
  obtain ⟨hshaped,hc⟩ := orderly_fresh
  have hview := folders_of_shaped hshaped
  refine ⟨⟨hshaped.sound,hshaped.number,fun d hd => hshaped.size d hd.1.1,
    fun d hd => hshaped.name d hd.1.1⟩,hview ▸ hc,fun j _ => ?_⟩
  have hzero : nameCount (catalog fresh.bytes) j=0 := by
    refine Finset.sum_eq_zero (fun d hd => ?_)
    have hsize : ∀ i<64, sizeAt fresh.bytes i=0 := by decide +kernel
    rw [catalog_entries fresh.bytes (Finset.mem_range.mp hd),
      entriesAt_zero (hsize d (Finset.mem_range.mp hd))]
    rfl
  rw [hview,hzero]
  exact Nat.zero_le 1

/-- Every state of a run of regular calls is settled. -/
theorem settled_of_reachable {condition : Disk → Call → Prop}
    (hcond : ∀ disk call, condition disk call → Regular disk call) {disk : Disk}
    (h : Reachable condition disk) : Settled disk.bytes := by
  induction h with
  | refl => exact settled_fresh
  | tail _ hstep ih =>
    obtain ⟨call,result,hc,hr,hd⟩ := hstep
    exact ih.step (hcond _ _ hc) hr hd

end ComputerSystems.NufsSettled
