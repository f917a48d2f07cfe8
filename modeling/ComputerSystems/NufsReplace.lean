import ComputerSystems.NufsNames

/-!
# Renaming onto a name

`storage_rename` enters the new name and then takes the old one away; it never
looks whether the new name is there already. Names stay distinct along every
run that renames to absent names only, and then a rename moves the file and
leaves every other path alone. An entry that was there stays beside the new one.
-/

namespace ComputerSystems.NufsReplace

open StateProgram ByteMemory PackedList DirectoryTree NufsImage NufsInode NufsPath NufsDirectory
  NufsStorage NufsCalls NufsOwnership NufsResize NufsEntry NufsSound NufsIsolation NufsExhaustion
  NufsListing NufsCatalog NufsNamespace NufsLifetime NufsRefinement NufsFolders NufsSettled NufsNames

/-! ## Distinct names along runs -/

/-- Names are distinct in catalogues with the same entries. -/
theorem Distinct.of_entries {c other : Catalog} (hn : Distinct c) (he : other.entries=c.entries) :
    Distinct other := by
  intro d
  rw [he]
  exact hn d

/-- The new name of a renaming is absent. -/
def ToAbsent (c : Catalog) : Operation → Prop
  | .rename _ target => ∀ t, resolveAt c target.parent=some t → childAt c t target.base=none
  | _ => True

/-- An operation that fits and renames to an absent name keeps names distinct. -/
theorem Distinct.apply {c : Catalog} (hn : Distinct c) (hc : Consistent c) {operation : Operation}
    (hf : Fits c operation) (ha : ToAbsent c operation) : Distinct (applyIn c operation).2 := by
  cases operation with
  | mknod place mode =>
    obtain ⟨d,hp,_⟩ := hf
    simp only [applyIn,mknodIn,hp.resolve]
    cases hf : childAt c d place.base with
    | some j => exact hn
    | none => exact Distinct.of_entries (distinct_append hn hf) rfl
  | link source target =>
    obtain ⟨⟨d,hp⟩,t,hp',_⟩ := hf
    simp only [applyIn,linkIn,hp.resolve,hp'.resolve,Option.bind_some]
    cases hf : childAt c d source.base with
    | none => exact hn
    | some f =>
      dsimp only
      cases hg : childAt c t target.base with
      | some j => exact hn
      | none => exact Distinct.of_entries (distinct_append (j:=f) hn hg) rfl
  | unlink place =>
    obtain ⟨d,hp,_⟩ := hf
    simp only [applyIn,unlinkIn,hp.resolve]
    cases hf : childAt c d place.base with
    | none => exact hn
    | some f =>
      have hlt := (List.getElem?_eq_some_iff.mp (entry_of_child hc hf)).1
      exact Distinct.of_entries (distinct_remove hn hlt) rfl
  | rename source target =>
    obtain ⟨d,t,hp,hp',_⟩ := hf
    simp only [applyIn,renameIn,hp.resolve,hp'.resolve]
    cases hf : childAt c d source.base with
    | none => exact hn
    | some f =>
      have hput : Distinct (c.put t target.base.bytes f) :=
        Distinct.of_entries (distinct_append (j:=f) hn (ha t hp'.resolve)) rfl
      exact Distinct.of_entries (distinct_remove hput
        (List.getElem?_eq_some_iff.mp (entry_of_moved hc hf target.base.bytes)).1) rfl

/-- A path that `tree_lookup` does not find. -/
def Missing (disk : Disk) (path : List UInt8) : Prop := treeLookup path disk=.ok noEntry disk

/-- The calls of these runs: regular ones that rename to absent names. -/
structure Tidy (disk : Disk) (call : Call) : Prop where
  /-- The call is regular. -/
  regular : Regular disk call
  /-- A new name is absent. -/
  absent : ∀ path dest, call=.rename path dest → Missing disk dest

/-- The invariant of these runs. -/
structure Arranged (memory : Bytes) : Prop where
  /-- The layout and the contents. -/
  settled : Settled memory
  /-- Names are distinct. -/
  distinct : Distinct (folders memory)

section Arranged

variable {disk next : Disk} {d : ℕ}

/-- A path is missing when its name is absent in its directory. -/
theorem missing_iff {c : Catalog} {place : Location Component} (hp : Looked disk c place d) :
    Missing disk (pathOf place) ↔ childAt c d place.base=none := by
  rw [Missing,hp.path]
  cases childAt c d place.base with
  | none => exact ⟨fun _ => rfl,fun _ => rfl⟩
  | some j =>
    refine ⟨fun hx => absurd (EStateM.Result.ok.inj hx).1 ?_,nofun⟩
    simp only [foundCode,noEntry]
    omega

/-- A directory of the view is looked up in the image. -/
theorem Settled.looked_of_sited (h : Settled disk.bytes) {place : Location Component}
    (hp : Sited (folders disk.bytes) place d) : Looked disk (folders disk.bytes) place d :=
  h.looked (h.resolves.mpr hp.resolve) (folder_iff.mp ⟨hp.live,hp.folder⟩)

/-- Every such call keeps the invariant. -/
theorem Arranged.step (h : Arranged disk.bytes) {call : Call} {result : ℤ} (hc : Tidy disk call)
    (hr : exec call disk=.ok result next) (hd : next.denied=disk.denied) : Arranged next.bytes := by
  refine ⟨h.settled.step hc.regular hr hd,?_⟩
  rcases h.settled.effect hc.regular hr hd with ⟨operation,hcall,hf,_,_,hview⟩|⟨_,hview⟩
  · rw [(Prod.mk.inj hview).2]
    refine Distinct.apply h.distinct h.settled.consistent hf ?_
    cases operation with
    | rename source target =>
      obtain ⟨_,t,_,hp',_⟩ := hf
      intro t' ht'
      rw [hp'.resolve,Option.some.injEq] at ht'
      rw [←ht']
      exact (missing_iff (Settled.looked_of_sited h.settled hp')).mp (hc.absent _ _ hcall)
    | _ => trivial
  · rw [hview]
    exact h.distinct

/-- A fresh image has no entries. -/
theorem arranged_fresh : Arranged fresh.bytes := by
  refine ⟨settled_fresh,fun d => ?_⟩
  have hsize : ∀ i<64, sizeAt fresh.bytes i=0 := by decide +kernel
  by_cases hd : Folder fresh.bytes d
  · rw [folders_entries hd,entriesAt_zero (hsize d hd.1.1)]
    exact List.nodup_nil
  · rw [folders_nil hd]
    exact List.nodup_nil

/-- Every state of a run of such calls is arranged. -/
theorem arranged_of_reachable (h : Reachable Tidy disk) : Arranged disk.bytes := by
  induction h with
  | refl => exact arranged_fresh
  | tail _ hstep ih =>
    obtain ⟨call,result,hc,hr,hd⟩ := hstep
    exact ih.step hc hr hd

end Arranged

/-! ## The moved name -/

/-- The catalogue after a renaming. -/
def movedIn (c : Catalog) (d t : ℕ) (source target : Component) (f : ℕ) : Catalog :=
  deleteName (c.put t target.bytes f) d source.bytes f

section Moved

variable {c : Catalog} {d t f : ℕ} {source target : Component}

/-- Children after renaming to an absent name. -/
theorem childAt_moved (hn : Distinct c) (hc : Consistent c) (hf : childAt c d source=some f)
    (ha : childAt c t target=none) (l : ℕ) (label : Component) :
    childAt (movedIn c d t source target f) l label=if l=d ∧ label=source then none
      else if l=t ∧ label=target then some f else childAt c l label := by
  have hput : Distinct (c.put t target.bytes f) :=
    Distinct.of_entries (distinct_append (j:=f) hn ha) rfl
  have hentry := entry_of_moved (t:=t) hc hf target.bytes
  have hremove := childAt_remove hput hentry rfl l label
  rw [show childAt (movedIn c d t source target f) l label=
    childAt ((c.put t target.bytes f).remove d
      (nameIndex ((c.put t target.bytes f).entries d) source.bytes)) l label from rfl,hremove]
  split
  · rfl
  · exact childAt_append ha l label

/-- Names stay distinct. -/
theorem distinct_moved (hn : Distinct c) (hc : Consistent c) (hf : childAt c d source=some f)
    (ha : childAt c t target=none) : Distinct (movedIn c d t source target f) := by
  have hput : Distinct (c.put t target.bytes f) :=
    Distinct.of_entries (distinct_append (j:=f) hn ha) rfl
  exact Distinct.of_entries (distinct_remove hput
    (List.getElem?_eq_some_iff.mp (entry_of_moved hc hf target.bytes)).1) rfl

/-- A name that was there is in its directory twice: the removal counts another
name. -/
theorem moved_twice (hc : Consistent c) (hf : childAt c d source=some f)
    (hne : ¬(d=t ∧ source=target)) {g : ℕ} (hg : childAt c t target=some g) :
    ¬(((movedIn c d t source target f).entries t).map Entry.name).Nodup := by
  have hold := List.mem_of_getElem? (entry_of_child hc hg)
  have htwo : 2≤((c.put t target.bytes f).entries t).countP
      (fun entry => entry.name=target.bytes) := by
    have hpos : 0<(c.entries t).countP (fun entry => entry.name=target.bytes) :=
      List.countP_pos_iff.mpr ⟨_,hold,by simp⟩
    simp only [Catalog.put,Catalog.append,Catalog.count,Function.update_self,List.countP_append,
      List.countP_singleton,decide_true,if_true]
    omega
  have hsame : ((movedIn c d t source target f).entries t).countP
      (fun entry => entry.name=target.bytes)=((c.put t target.bytes f).entries t).countP
        (fun entry => entry.name=target.bytes) := by
    simp only [movedIn,deleteName,Catalog.delete,Catalog.remove,Catalog.release,Catalog.count]
    by_cases he : t=d
    · subst he
      obtain ⟨hlt,hget⟩ := List.getElem?_eq_some_iff.mp (entry_of_moved (t:=t) hc hf target.bytes)
      have hcount := countP_swapRemove hlt (fun entry => decide (entry.name=target.bytes))
      have hother : ¬source.bytes=target.bytes := fun hx => hne ⟨rfl,Component.ext_bytes hx⟩
      rw [hget,if_neg (by simpa using hother),Nat.add_zero] at hcount
      rw [Function.update_self]
      exact hcount.symm
    · rw [Function.update_of_ne he]
  intro hx
  have hle := List.nodup_iff_count_le_one.mp hx target.bytes
  rw [List.count,List.countP_map] at hle
  have hconv : ((movedIn c d t source target f).entries t).countP
      ((fun name => name==target.bytes) ∘ Entry.name)=((movedIn c d t source target f).entries t).countP
        (fun entry => entry.name=target.bytes) :=
    List.countP_congr (fun entry _ => by simp)
  omega

/-- Where paths lead after renaming a file to an absent name. -/
theorem walk_moved (hn : Distinct c) (hs : Single c) (hc : Consistent c)
    {place other : Location Component} (hp : resolveAt c place.parent=some d)
    (hp' : resolveAt c other.parent=some t) (hd : c.folder d) (ht : c.folder t)
    (hf : childAt c d place.base=some f) (hi : ¬c.folder f) (ha : childAt c t other.base=none)
    {path : List Component} (hne : path≠place.parent++[place.base])
    (hne' : path≠other.parent++[other.base]) :
    resolveAt (movedIn c d t place.base other.base f) path=resolveAt c path := by
  have hchild := childAt_moved hn hc hf ha
  have hleaf : ∀ label, childAt c f label=none := by
    intro label
    cases hx : childAt c f label with
    | none => rfl
    | some j => exact absurd (holder_of_child hc hx).2 hi
  have hfd : f≠d := fun he => hi (he ▸ hd)
  have hft : f≠t := fun he => hi (he ▸ ht)
  have hsame : ∀ l label, ¬((l=d ∧ label=place.base) ∨ (l=t ∧ label=other.base)) →
      childAt (movedIn c d t place.base other.base f) l label=childAt c l label := by
    intro l label hedge
    rw [hchild,if_neg (fun hx => hedge (.inl hx)),if_neg (fun hx => hedge (.inr hx))]
  have hbefore : ∀ l label j, ((l=d ∧ label=place.base) ∨ (l=t ∧ label=other.base)) →
      childAt c l label=some j → ∀ label', childAt c j label'=none := by
    rintro l label j (⟨rfl,rfl⟩|⟨rfl,rfl⟩) hx label'
    · rw [hf,Option.some.injEq] at hx
      rw [←hx]
      exact hleaf label'
    · rw [ha] at hx
      cases hx
  have hafter : ∀ l label j, ((l=d ∧ label=place.base) ∨ (l=t ∧ label=other.base)) →
      childAt (movedIn c d t place.base other.base f) l label=some j →
      ∀ label', childAt (movedIn c d t place.base other.base f) j label'=none := by
    intro l label j hedge hx label'
    rw [hchild] at hx
    split at hx
    · cases hx
    · rename_i hnot
      rw [if_pos (hedge.resolve_left hnot),Option.some.injEq] at hx
      rw [←hx,hchild,if_neg (fun hy => hfd hy.1),if_neg (fun hy => hft hy.1)]
      exact hleaf label'
  rcases walk_changed hsame hbefore hafter 0 path with
    he|⟨front,name,parent,hpath,hw,_,⟨rfl,rfl⟩|⟨rfl,rfl⟩⟩
  · exact he
  · rw [hs.path_unique hc hd hw hp] at hpath
    exact absurd hpath hne
  · rw [hs.path_unique hc ht hw hp'] at hpath
    exact absurd hpath hne'

end Moved

/-! ## The call -/

/-- The path of a location. -/
def names (place : Location Component) : List Component := place.parent++[place.base]

/-- What renaming is for: the old path is gone, the new one leads to the inode, no
directory has two entries of one name, and every other path resolves as before. -/
structure Renamed (disk next : Disk) (source target : Location Component) (i : ℕ) : Prop where
  /-- The old path is gone. -/
  gone : treeLookup (pathOf source) next=.ok noEntry next
  /-- The new path leads to the inode. -/
  moved : Resolves next (names target) i
  /-- Names are distinct. -/
  distinct : ∀ d, Folder next.bytes d → ((entriesAt next.bytes d).map Entry.name).Nodup
  /-- The other paths resolve as before. -/
  others : ∀ path, path≠names source → path≠names target →
    ∀ j, Resolves next path j ↔ Resolves disk path j

/-- Whenever `storage_rename` returns 0 it has done this. -/
def RenameReplaces (disk : Disk) (source target : Location Component) (i : ℕ) : Prop :=
  ∀ next, storageRename (pathOf source) (pathOf target) disk=.ok 0 next →
    Renamed disk next source target i

section Call

variable {disk : Disk} {source target : Location Component} {d t i : ℕ}

/-- A clean renaming with enough pages returns, in the catalogue computed above. -/
theorem Settled.rename_returns (h : Settled disk.bytes)
    (hp : Looked disk (folders disk.bytes) source d) (hp' : Looked disk (folders disk.bytes) target t)
    (hf : childAt (folders disk.bytes) d source.base=some i)
    (hclean : Clean disk (.rename (pathOf source) (pathOf target)))
    (hshort : target.base.bytes.length≤47)
    (hpages : ¬PagesShort disk.bytes t (sizeAt disk.bytes t+64)) :
    ∃ next, storageRename (pathOf source) (pathOf target) disk=.ok 0 next ∧ Settled next.bytes ∧
      folders next.bytes=movedIn (folders disk.bytes) d t source.base target.base i := by
  have hsound := h.filed.sound
  obtain ⟨_,hpos,hlive⟩ := h.consistent.child_entry hf
  have hi64 := h.consistent.index i hlive
  have hname : directoryLookup (nodeOffset d) (basename (pathOf source)) disk=.ok (i : ℤ) disk := by
    rw [hp.name,hf]
    rfl
  have hmove := hclean d t i (by omega) hp.parent hname hp'.parent
  rw [pathOf,basename_render] at hmove
  have ht := folder_iff.mp ⟨hp'.sited.live,hp'.sited.folder⟩
  obtain ⟨count,_,hs⟩ := h.filed.size t ht
  have hroom := hmove.put.room
  have hcount : count<64 := by omega
  obtain ⟨mid,hput,hdenied⟩ := directoryPut_returns disk hsound ht.1 hs hcount hpages hi64
    hmove.put.short
  have hentries : ((folders disk.bytes).entries t).length<64 := room_of_fits h.filed ht hmove.put
  have hrange := h.consistent.refs_range hlive hpos
  obtain ⟨_,hgood,hcat⟩ := (folders_layout.put disk t i target.base h.filed hp'.sited.live
    hp'.sited.folder hentries hi64 hshort (by omega)).of_returned hput hdenied
  have hins := inserted_of_returned disk hsound hmove.put hi64 hput hdenied
  have hsafe := hmove.delete hins hsound hi64
    (size_of_lookup (h.consistent.index d hp.sited.live) hname (by omega))
  obtain ⟨next,hrun,_,hview⟩ := folders_layout.moved h.consistent hp hp' hf hput hgood hcat hsafe
  refine ⟨_,hrun,?_,hview⟩
  obtain ⟨hfits,hdeliver⟩ := h.rename hp hp' hclean hshort
  exact h.of_refines hfits trivial (hdeliver.of_returned hrun hdenied)

/-- The inode has the target's name instead of the source's, with names distinct
and every other path as before, exactly when the target was absent. -/
theorem Arranged.renamed_iff (h : Arranged disk.bytes)
    (hp : Looked disk (folders disk.bytes) source d) (hp' : Looked disk (folders disk.bytes) target t)
    (hf : childAt (folders disk.bytes) d source.base=some i) (hi : ¬(folders disk.bytes).folder i)
    (hne : names source≠names target) {next : Disk} (hset : Settled next.bytes)
    (hview : folders next.bytes=movedIn (folders disk.bytes) d t source.base target.base i) :
    Renamed disk next source target i ↔ childAt (folders disk.bytes) t target.base=none := by
  have hc := h.settled.consistent
  have hs := h.settled.single
  have hdiff : ¬(d=t ∧ source.base=target.base) := by
    rintro ⟨rfl,hbase⟩
    have hparent := hs.path_unique hc hp.sited.folder hp.sited.resolve hp'.sited.resolve
    exact hne (by rw [names,names,hparent,hbase])
  have hfolders : ∀ l, (folders disk.bytes).live l → (folders disk.bytes).folder l →
      Folder next.bytes l := by
    intro l hl hfl
    refine folder_iff.mp ?_
    rw [hview]
    have hli : l≠i := fun he => hi (he ▸ hfl)
    refine ⟨?_,hfl⟩
    simp only [movedIn,deleteName,Catalog.delete,Catalog.remove,Catalog.release,Catalog.count,
      Function.update_of_ne hli]
    exact hl
  constructor
  · intro hr
    cases hg : childAt (folders disk.bytes) t target.base with
    | none => rfl
    | some g =>
      have ht := hfolders t hp'.sited.live hp'.sited.folder
      have hnodup := hr.distinct t ht
      rw [←folders_entries ht,hview] at hnodup
      exact absurd hnodup (moved_twice hc hf hdiff hg)
  · intro ha
    have hchild := childAt_moved h.distinct hc hf ha
    have hguide := guide_of_filed hset.filed hset.consistent
    have hwalk : ∀ path, path≠names source → path≠names target →
        resolveAt (folders next.bytes) path=resolveAt (folders disk.bytes) path := by
      intro path hps hpt
      rw [hview]
      exact walk_moved h.distinct hs hc hp.sited.resolve hp'.sited.resolve hp.sited.folder
        hp'.sited.folder hf hi ha hps hpt
    have hleads : ∀ path l, resolveAt (folders disk.bytes) path=some l →
        (folders disk.bytes).folder l → resolveAt (folders next.bytes) path=some l := by
      intro path l hres hfl
      rw [hwalk,hres]
      · intro he
        rw [he,names,resolveAt_concat hp.sited.resolve,hf,Option.some.injEq] at hres
        exact hi (hres ▸ hfl)
      · intro he
        rw [he,names,resolveAt_concat hp'.sited.resolve,ha] at hres
        cases hres
    constructor
    · have hfront := hleads source.parent d hp.sited.resolve hp.sited.folder
      rw [pathOf,hguide.treeLookup (hguide.lookup_of_walk source.parent hfront)
        (hfolders d hp.sited.live hp.sited.folder),hview,hchild,if_pos ⟨rfl,rfl⟩]
      rfl
    · rw [hset.resolves,names,
        resolveAt_concat (hleads target.parent t hp'.sited.resolve hp'.sited.folder),hview,hchild,
        if_neg (fun hx => hdiff ⟨hx.1.symm,hx.2.symm⟩),if_pos ⟨rfl,rfl⟩]
    · intro l hl
      rw [←folders_entries hl,hview]
      exact distinct_moved h.distinct hc hf ha l
    · intro path hps hpt j
      rw [hset.resolves,h.settled.resolves,hwalk path hps hpt]

end Call

/-- A path that resolves leads through its parent. -/
theorem Resolves.parent {disk : Disk} {place : Location Component} {i : ℕ}
    (h : Resolves disk (names place) i) :
    ∃ d, Resolves disk place.parent d ∧ Folder disk.bytes d := by
  have hproper : place.parent≠names place := by simp [names]
  obtain ⟨d,hl,hd⟩ := h.through place.parent (List.prefix_append _ _) hproper
  refine ⟨d,⟨hl,fun front hf hne => h.through front (hf.trans (List.prefix_append _ _)) ?_⟩,hd⟩
  rintro rfl
  have hlen := hf.length_le
  simp [names] at hlen

/-- Along every run that renames to absent names only, a clean renaming of a file
to a short name that has its page returns 0, and replaces its target exactly when
that is absent. -/
theorem rename_replaces_iff {disk : Disk} (h : Reachable Tidy disk)
    {source target : Location Component} {i t : ℕ} (hp : Resolves disk (names source) i)
    (hi : ¬Directory disk.bytes i) (hp' : Resolves disk target.parent t)
    (ht : Folder disk.bytes t) (hne : names source≠names target)
    (hclean : Clean disk (.rename (pathOf source) (pathOf target)))
    (hshort : target.base.bytes.length≤47)
    (hpages : ¬PagesShort disk.bytes t (sizeAt disk.bytes t+64)) :
    (∃ next, storageRename (pathOf source) (pathOf target) disk=.ok 0 next) ∧
      (RenameReplaces disk source target i ↔ Missing disk (pathOf target)) := by
  have harr := arranged_of_reachable h
  obtain ⟨d,hres,hd⟩ := Resolves.parent hp
  have hlook := harr.settled.looked hres hd
  have hlook' := harr.settled.looked hp' ht
  have hf : childAt (folders disk.bytes) d source.base=some i := by
    rw [←resolveAt_concat hlook.sited.resolve]
    exact harr.settled.resolves.mp hp
  obtain ⟨next,hrun,hset,hview⟩ := Settled.rename_returns harr.settled hlook hlook' hf hclean hshort
    hpages
  have hiff := harr.renamed_iff hlook hlook' hf (fun hx => hi hx.2) hne hset hview
  refine ⟨⟨next,hrun⟩,?_⟩
  rw [missing_iff hlook',←hiff]
  constructor
  · exact fun hall => hall next hrun
  · intro hr last hlast
    rw [hrun] at hlast
    obtain ⟨_,rfl⟩ := EStateM.Result.ok.inj hlast
    exact hr

/-! ## Two files -/

/-- The file `/b`. -/
def placeB : Location Component := ⟨[],nameB⟩

/-- A path in the root of an image, looked up by evaluation. -/
theorem resolves_of_passes {disk : Disk} {name : Component} {i : ℕ} (hroot : Folder disk.bytes 0)
    (h : passes (treeLookup (render [name])) disk (fun value _ => decide (value=i))=true) :
    Resolves disk [name] i := by
  refine ⟨(treeLookup_readOnly _).returns h,fun front hf hne => ⟨0,?_,hroot⟩⟩
  have hnil : front=[] := by
    have hlen := hf.length_le
    rcases List.prefix_concat_iff.mp (show front<+:[]++[name] from hf) with he|he
    · exact absurd he hne
    · exact List.prefix_nil.mp he
  rw [hnil]
  rfl

/-- The image with `/a` is reached by such a run. -/
theorem reachable_madeA : Reachable Tidy madeA := by
  have htidy : Tidy fresh makeA.call :=
    ⟨⟨clean_createA,⟨placeA,rfl,0,root_of_fresh.1,root_of_fresh.2.1⟩,
      show (basename (pathOf placeA)).length≤47 by decide +kernel⟩,fun _ _ he => Call.noConfusion he⟩
  exact NufsStorage.Reachable.call .refl htidy (by decide +kernel)

/-- Renaming `/a` to `/b` is clean when there is no `/b`. -/
theorem clean_rename : Clean madeA (.rename (pathOf placeA) (pathOf placeB)) := by
  intro d t inum _ hd _ ht
  have hroot : ∀ place : Location Component, place.parent=[] → ∀ l : ℕ,
      treeLookup (dirname (pathOf place)) madeA=.ok (l : ℤ) madeA → l=0 := by
    intro place hp l hl
    rw [pathOf,dirname_render,hp] at hl
    have hz := (pure_eq_ok.mp (show (pure 0 : Nufs ℤ) madeA=.ok (l : ℤ) madeA from hl)).1
    omega
  rw [hroot placeA rfl d hd,hroot placeB rfl t ht]
  have hshaped := (orderly_of_run (fun _ _ h => h) run_makeA).shaped
  refine ⟨⟨⟨by decide,by decide +kernel⟩,by decide +kernel,by decide +kernel⟩,
    ⟨by decide,by decide +kernel⟩,by decide +kernel,fun _ => ?_,fun hne => absurd rfl hne,
    fun hne => absurd rfl hne⟩
  exact hshaped.shrinkSafe (by decide) (by decide +kernel) (Nat.le_refl 1)

/-- Renaming `/a` to the absent `/b`. -/
theorem rename_to_absent :
    (∃ next, storageRename (pathOf placeA) (pathOf placeB) madeA=.ok 0 next) ∧
      RenameReplaces madeA placeA placeB 1 := by
  have hroot : Folder madeA.bytes 0 := by decide +kernel
  have hfile : ¬Directory madeA.bytes 1 := by
    unfold Directory IsFolder
    decide +kernel
  have ha : Resolves madeA (names placeA) 1 := resolves_of_passes hroot (by decide +kernel)
  have hnil : Resolves madeA placeB.parent 0 :=
    ⟨rfl,fun front hf hne => absurd (List.prefix_nil.mp hf) hne⟩
  have hpages : ¬PagesShort madeA.bytes 0 (sizeAt madeA.bytes 0+64) := by
    unfold PagesShort
    decide +kernel
  have hiff := rename_replaces_iff reachable_madeA ha hfile hnil hroot (by decide) clean_rename
    (by decide) hpages
  refine ⟨hiff.1,hiff.2.mpr ?_⟩
  have hpass : passes (treeLookup (pathOf placeB)) madeA
      (fun value _ => decide (value=noEntry))=true := by decide +kernel
  exact (treeLookup_readOnly _).returns hpass

/-- The image with the files `/a` and `/b`. -/
def withBoth : Disk := execAll [createA,.mknod (pathOf placeB) 33188] fresh

/-- Renaming `/b` to the present `/a` leaves `/a` where it was. -/
theorem rename_keeps_target :
    ¬∀ (disk : Disk) (source target : Location Component) (i t : ℕ),
      Reachable (fun _ _ => True) disk → Resolves disk (names source) i →
      ¬Directory disk.bytes i → Resolves disk target.parent t → Folder disk.bytes t →
      names source≠names target → (∀ j, Resolves disk (names target) j → j≠i ∧
        ¬Directory disk.bytes j) → RenameReplaces disk source target i := by
  intro hall
  have hroot : Folder withBoth.bytes 0 := by decide +kernel
  have hfiles : ¬Directory withBoth.bytes 1 ∧ ¬Directory withBoth.bytes 2 := by
    unfold Directory IsFolder
    decide +kernel
  have ha : Resolves withBoth (names placeA) 1 := resolves_of_passes hroot (by decide +kernel)
  have hb : Resolves withBoth (names placeB) 2 := resolves_of_passes hroot (by decide +kernel)
  have hnil : Resolves withBoth placeA.parent 0 :=
    ⟨rfl,fun front hf hne => absurd (List.prefix_nil.mp hf) hne⟩
  have hother : ∀ j, Resolves withBoth (names placeA) j → j≠2 ∧ ¬Directory withBoth.bytes j := by
    intro j hj
    have hone : j=1 :=
      Int.ofNat_inj.mp (EStateM.Result.ok.inj (hj.lookup.symm.trans ha.lookup)).1
    rw [hone]
    exact ⟨by decide,hfiles.1⟩
  have hpass : passes (storageRename (pathOf placeB) (pathOf placeA)) withBoth
      (fun result next => decide (result=0) && passes (treeLookup (pathOf placeA)) next
        (fun value _ => decide (value=1)))=true := by decide +kernel
  obtain ⟨result,hrun,htest⟩ := returned_of_passes hpass
  obtain ⟨hz,hfound⟩ := Bool.and_eq_true_iff.mp htest
  rw [of_decide_eq_true hz] at hrun
  have hren := hall withBoth placeB placeA 2 0 (reachable_of_calls .refl (by decide +kernel)) hb
    hfiles.2 hnil hroot (by decide) hother _ hrun
  obtain ⟨value,hv,hone⟩ := returned_of_passes hfound
  have htwo := (EStateM.Result.ok.inj (hren.moved.lookup.symm.trans hv)).1
  rw [of_decide_eq_true hone] at htwo
  exact absurd htwo (by decide)

end ComputerSystems.NufsReplace
