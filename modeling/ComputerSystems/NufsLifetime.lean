import ComputerSystems.NufsNamespace
import ComputerSystems.NufsIsolation
import ComputerSystems.UpdateSum

/-!
# The lifetime of inodes

Along every run of permitted namespace calls an inode is marked exactly while
some entry names it, and its reference count is twice the number of its names.
So an inode is freed by the `storage_unlink` that takes its last name away and
by nothing else, and `storage_stat` reports twice the number of names.
-/

namespace ComputerSystems.NufsLifetime

open StateProgram ByteMemory PackedList DirectoryTree NufsImage NufsInode NufsPath NufsDirectory
  NufsStorage NufsCalls NufsOwnership NufsSound NufsIsolation NufsListing NufsCatalog NufsNamespace
  UpdateSum

/-! ## Counting names -/

/-- Counting after replacing the entries of one directory. -/
theorem nameCount_update (c : Catalog) {d : ℕ} (hd : d<64) (list : List Entry) (i : ℕ) :
    nameCount {c with entries := Function.update c.entries d list} i+
        (c.entries d).countP (fun entry => entry.inum=(i : ℤ))=
      nameCount c i+list.countP (fun entry => entry.inum=(i : ℤ)) := by
  have hsum := sum_update_mem (fun entries => entries.countP (fun entry => entry.inum=(i : ℤ)))
    c.entries (Finset.mem_range.mpr hd) list
  rw [nameCount,nameCount]
  exact hsum

/-- One more name. -/
theorem nameCount_append (c : Catalog) {d : ℕ} (hd : d<64) (entry : Entry) (i : ℕ) :
    nameCount (c.append d entry) i=nameCount c i+if entry.inum=(i : ℤ) then 1 else 0 := by
  have hupdate := nameCount_update c hd (c.entries d++[entry]) i
  rw [List.countP_append,List.countP_singleton] at hupdate
  simp only [decide_eq_true_eq] at hupdate
  rw [Catalog.append]
  omega

/-- One name less. -/
theorem nameCount_remove (c : Catalog) {d ii : ℕ} (hd : d<64) {entry : Entry}
    (he : (c.entries d)[ii]?=some entry) (i : ℕ) :
    nameCount c i=nameCount (c.remove d ii) i+if entry.inum=(i : ℤ) then 1 else 0 := by
  obtain ⟨hlt,hget⟩ := List.getElem?_eq_some_iff.mp he
  have hupdate := nameCount_update c hd (swapRemove (c.entries d) ii) i
  rw [countP_swapRemove hlt,hget] at hupdate
  simp only [decide_eq_true_eq] at hupdate
  rw [Catalog.remove]
  omega

/-- An inode that some entry names has a name. -/
theorem nameCount_pos {c : Catalog} {d : ℕ} (hd : d<64) {entry : Entry} {i : ℕ}
    (hm : entry∈c.entries d) (he : entry.inum=(i : ℤ)) : 0<nameCount c i := by
  have hle := Finset.single_le_sum (f:=fun l =>
    (c.entries l).countP (fun entry => entry.inum=(i : ℤ))) (fun _ _ => Nat.zero_le _)
    (Finset.mem_range.mpr hd)
  have hpos : 0<(c.entries d).countP (fun entry => entry.inum=(i : ℤ)) :=
    List.countP_pos_iff.mpr ⟨entry,hm,by simpa using he⟩
  exact Nat.lt_of_lt_of_le hpos hle

/-- An inode with a name is named by some entry. -/
theorem exists_of_nameCount {c : Catalog} {i : ℕ} (h : 0<nameCount c i) :
    ∃ d<64, ∃ entry∈c.entries d, entry.inum=(i : ℤ) := by
  by_contra hn
  have hzero : nameCount c i=0 := by
    refine Finset.sum_eq_zero (fun d hd => ?_)
    refine List.countP_eq_zero.mpr (fun entry hm he => hn ?_)
    exact ⟨d,Finset.mem_range.mp hd,entry,hm,by simpa using he⟩
  omega

/-! ## Consistency -/

section Consistency

variable {c : Catalog} {d j : ℕ} {name : List UInt8}

/-- The next free inode is not marked and not the root. -/
theorem nextFree_spec (hc : Consistent c) : ¬c.live (nextFree c) ∧ 0<nextFree c := by
  have hne : {i | ¬c.live i}.Nonempty :=
    ⟨64,fun hl => absurd (hc.index 64 hl) (Nat.lt_irrefl 64)⟩
  have hmem : ¬c.live (nextFree c) := Nat.sInf_mem hne
  refine ⟨hmem,Nat.pos_of_ne_zero (fun hz => hmem ?_)⟩
  rw [hz]
  exact hc.root.1

/-- Names are only those of marked inodes. -/
theorem nameCount_dead (hc : Consistent c) (hj : ¬c.live j) : nameCount c j=0 := by
  by_contra hne
  obtain ⟨l,_,entry,hm,he⟩ := exists_of_nameCount (Nat.pos_of_ne_zero hne)
  obtain ⟨k,hk,_,hlive⟩ := hc.target l entry hm
  rw [show j=k by omega] at hj
  exact hj hlive

/-- Creating an inode and entering it keeps a catalogue consistent. -/
theorem consistent_mknod (hc : Consistent c) (hd : c.live d) (hf : c.folder d)
    (hroom : (c.entries d).length<64) (hi : nextFree c<64) (folder : Prop) :
    Consistent ((c.create (nextFree c) folder).put d name (nextFree c)) := by
  obtain ⟨hdead,hpos⟩ := nextFree_spec hc
  have hzero := nameCount_dead hc hdead
  generalize nextFree c=i at *
  have hdi : d≠i := fun he => hdead (he ▸ hd)
  have hnames : ∀ l, nameCount ((c.create i folder).put d name i) l=
      nameCount c l+if (i : ℤ)=(l : ℤ) then 1 else 0 := fun l =>
    nameCount_append ((c.create i folder).count i 1) (hc.index d hd) ⟨name,i⟩ l
  have hlive : ∀ l, ((c.create i folder).put d name i).live l ↔ l=i ∨ c.live l := by
    intro l
    simp only [Catalog.put,Catalog.append,Catalog.count,Catalog.create]
    by_cases he : l=i
    · rw [he,Function.update_self]
      simp
    · rw [Function.update_of_ne he]
      simp [he]
  have hkeep : ∀ l, c.live l → c.folder l →
      ((c.create i folder).put d name i).live l ∧ ((c.create i folder).put d name i).folder l := by
    intro l hl hfl
    have hne : l≠i := fun he => hdead (he ▸ hl)
    refine ⟨(hlive l).mpr (.inr hl),?_⟩
    simp only [Catalog.put,Catalog.append,Catalog.count,Catalog.create]
    rw [Function.update_of_ne hne]
    exact hfl
  have hentries : ∀ l, ((c.create i folder).put d name i).entries l=
      if l=d then c.entries d++[⟨name,i⟩] else c.entries l := by
    intro l
    simp only [Catalog.put,Catalog.append,Catalog.count,Catalog.create,Function.update_apply]
  refine ⟨?_,hkeep 0 hc.root.1 hc.root.2,?_,?_,?_,?_⟩
  · intro l hl
    rcases (hlive l).mp hl with he|hl'
    · rw [he]
      exact hi
    · exact hc.index l hl'
  · intro l hl
    by_cases he : l=d
    · rw [he]
      exact hkeep d hd hf
    · rw [hentries,if_neg he] at hl
      obtain ⟨hl',hfl⟩ := hc.holder l hl
      exact hkeep l hl' hfl
  · intro l
    rw [hentries]
    split
    · rw [List.length_append,List.length_singleton]
      omega
    · exact hc.room l
  · intro l entry hm
    have hold : ∀ l, entry∈c.entries l → ∃ k : ℕ, entry.inum=k ∧ 0<k ∧
        ((c.create i folder).put d name i).live k := by
      intro l hm
      obtain ⟨k,hk,hkpos,hklive⟩ := hc.target l entry hm
      exact ⟨k,hk,hkpos,(hlive k).mpr (.inr hklive)⟩
    rw [hentries] at hm
    split at hm
    · rcases List.mem_append.mp hm with hm|hm
      · exact hold d hm
      · rw [List.mem_singleton.mp hm]
        exact ⟨i,rfl,hpos,(hlive i).mpr (.inl rfl)⟩
    · exact hold l hm
  · intro l hl hlpos
    rw [hnames]
    simp only [Catalog.put,Catalog.append,Catalog.count,Catalog.create]
    by_cases he : l=i
    · rw [he,Function.update_self,Function.update_self,hzero,if_pos rfl]
      omega
    · rw [Function.update_of_ne he,Function.update_of_ne he,if_neg (by omega),Nat.add_zero]
      exact hc.refs l (((hlive l).mp hl).resolve_left he) hlpos

/-- A second name with its two references keeps a catalogue consistent. -/
theorem consistent_link (hc : Consistent c) (hd : c.live d) (hf : c.folder d)
    (hroom : (c.entries d).length<64) (hj : c.live j) (hpos : 0<j) :
    Consistent ((c.put d name j).count j 1) := by
  have hnames : ∀ l, nameCount ((c.put d name j).count j 1) l=
      nameCount c l+if (j : ℤ)=(l : ℤ) then 1 else 0 := fun l =>
    nameCount_append (c.count j 1) (hc.index d hd) ⟨name,j⟩ l
  have hentries : ∀ l, ((c.put d name j).count j 1).entries l=
      if l=d then c.entries d++[⟨name,j⟩] else c.entries l := by
    intro l
    simp only [Catalog.put,Catalog.append,Catalog.count,Function.update_apply]
  refine ⟨hc.index,hc.root,?_,?_,?_,?_⟩
  · intro l hl
    by_cases he : l=d
    · rw [he]
      exact ⟨hd,hf⟩
    · rw [hentries,if_neg he] at hl
      exact hc.holder l hl
  · intro l
    rw [hentries]
    split
    · rw [List.length_append,List.length_singleton]
      omega
    · exact hc.room l
  · intro l entry hm
    rw [hentries] at hm
    split at hm
    · rcases List.mem_append.mp hm with hm|hm
      · exact hc.target d entry hm
      · rw [List.mem_singleton.mp hm]
        exact ⟨j,rfl,hpos,hj⟩
    · exact hc.target l entry hm
  · intro l hl hlpos
    have hold := hc.refs l hl hlpos
    rw [hnames]
    simp only [Catalog.put,Catalog.append,Catalog.count]
    by_cases he : l=j
    · rw [he,Function.update_self,Function.update_self,if_pos rfl]
      rw [he] at hold
      omega
    · rw [Function.update_of_ne he,Function.update_of_ne he,if_neg (by omega),Nat.add_zero]
      exact hold

/-- Liveness after a removal. -/
theorem delete_live (c : Catalog) (d ii j l : ℕ) :
    (c.delete d ii j).live l ↔ c.live l ∧ (l=j → 1<c.refs j) := by
  simp only [Catalog.delete,Catalog.remove,Catalog.release,Catalog.count,Function.update_self]
  by_cases he : l=j
  · rw [he,Function.update_self]
    refine and_congr_right (fun _ => ?_)
    simp only [true_imp_iff]
    omega
  · rw [Function.update_of_ne he]
    simp [he]

/-- References after a removal. -/
theorem delete_refs (c : Catalog) (d ii j l : ℕ) :
    (c.delete d ii j).refs l=if l=j then c.refs j-1 else c.refs l := by
  simp only [Catalog.delete,Catalog.remove,Catalog.release,Catalog.count,Function.update_apply]
  rfl

/-- Entries after a removal were there before. -/
theorem mem_of_mem_delete {c : Catalog} {ii l : ℕ} (hii : ii<(c.entries d).length) {entry : Entry}
    (hm : entry∈(c.delete d ii j).entries l) : entry∈c.entries l := by
  simp only [Catalog.delete,Catalog.remove,Catalog.release,Catalog.count] at hm
  by_cases he : l=d
  · rw [he,Function.update_self] at hm
    rw [he]
    exact mem_of_mem_swapRemove hii hm
  · rw [Function.update_of_ne he] at hm
    exact hm

/-- Where one reference is missing to a consistent catalogue, removing one
entry of that inode restores consistency. -/
theorem consistent_delete (hc : Consistent (c.count j 1)) (hd : d<64) {ii : ℕ} {entry : Entry}
    (he : (c.entries d)[ii]?=some entry) (hinum : entry.inum=(j : ℤ)) (hj : c.live j) (hpos : 0<j)
    (hkept : c.folder j → 1<c.refs j) : Consistent (c.delete d ii j) := by
  obtain ⟨hlt,_⟩ := List.getElem?_eq_some_iff.mp he
  have hlive := delete_live c d ii j
  have hnames : ∀ l, nameCount c l=nameCount (c.delete d ii j) l+if (j : ℤ)=(l : ℤ) then 1 else 0 := by
    intro l
    have hcount := nameCount_remove c hd he l
    rw [hinum] at hcount
    exact hcount
  have hrefs : c.refs j+1=2*(nameCount c j : ℤ) := by
    have hx := (hc.refs j hj hpos).1
    simp only [Catalog.count,Function.update_self] at hx
    exact hx
  have hholder : ∀ l, c.live l → c.folder l → (c.delete d ii j).live l ∧ (c.delete d ii j).folder l :=
    fun l hl hf => ⟨(hlive l).mpr ⟨hl,fun heq => hkept (heq ▸ hf)⟩,hf⟩
  refine ⟨fun l hl => hc.index l ((hlive l).mp hl).1,hholder 0 hc.root.1 hc.root.2,?_,?_,?_,?_⟩
  · intro l hl
    obtain ⟨first,hfirst⟩ := List.exists_mem_of_ne_nil _ hl
    have hold := hc.holder l (List.ne_nil_of_mem (mem_of_mem_delete hlt hfirst))
    exact hholder l hold.1 hold.2
  · intro l
    simp only [Catalog.delete,Catalog.remove,Catalog.release,Catalog.count]
    by_cases heq : l=d
    · rw [heq,Function.update_self]
      have hperm := (swapRemove_perm hlt).length_eq
      have hroom := hc.room d
      rw [List.length_cons] at hperm
      simp only [Catalog.count] at hroom
      omega
    · rw [Function.update_of_ne heq]
      exact hc.room l
  · intro l other hm
    obtain ⟨k,hk,hkpos,hklive⟩ := hc.target l other (mem_of_mem_delete hlt hm)
    refine ⟨k,hk,hkpos,(hlive k).mpr ⟨hklive,fun heq => ?_⟩⟩
    rw [heq] at hk
    have hl64 : l<64 := hc.index l (hc.holder l (List.ne_nil_of_mem (mem_of_mem_delete hlt hm))).1
    have hleft := nameCount_pos hl64 hm hk
    have hcount := hnames j
    rw [if_pos rfl] at hcount
    omega
  · intro l hl hlpos
    obtain ⟨hold,hmore⟩ := (hlive l).mp hl
    have hcount := hnames l
    have hx : (c.count j 1).refs l=2*(nameCount c l : ℤ) ∧ 0<nameCount c l := hc.refs l hold hlpos
    rw [delete_refs]
    by_cases heq : l=j
    · subst heq
      have hone := hmore rfl
      rw [if_pos rfl] at hcount
      rw [if_pos rfl]
      omega
    · rw [Catalog.count] at hx
      dsimp only at hx
      rw [Function.update_of_ne heq] at hx
      rw [if_neg (by omega),Nat.add_zero] at hcount
      rw [if_neg heq,←hcount]
      exact hx

end Consistency

/-! ## Operations -/

section Apply

variable {disk : Disk}

/-- Counting a reference down and up again. -/
theorem count_count (c : Catalog) (j : ℕ) : (c.count j (-1)).count j 1=c := by
  simp only [Catalog.count,Function.update_self,Function.update_idem,Int.add_assoc]
  rw [show (-1 : ℤ)+1=0 by rfl,Int.add_zero,Function.update_eq_self]

/-- The entry of a child, at its index. -/
theorem entry_of_child {c : Catalog} (hc : Consistent c) {d j : ℕ} {component : Component}
    (hf : childAt c d component=some j) :
    (c.entries d)[nameIndex (c.entries d) component.bytes]?=some ⟨component.bytes,j⟩ :=
  (nameIndex_of_find (hc.child_entry hf).1).2.1

/-- The entry that `storage_rename` removes, after its insertion. -/
theorem entry_of_moved {c : Catalog} (hc : Consistent c) {d t j : ℕ} {component : Component}
    (hf : childAt c d component=some j) (name : List UInt8) :
    ((c.put t name j).entries d)[nameIndex ((c.put t name j).entries d) component.bytes]?=
      some ⟨component.bytes,j⟩ :=
  (nameIndex_of_find (findName_put (hc.child_entry hf).1)).2.1

/-- The conditions on the catalogue under which the operations are used. -/
def Fits (c : Catalog) : Operation → Prop
  | .mknod place _ => ∃ d, Sited c place d ∧
      (childAt c d place.base=none → (c.entries d).length<64)
  | .link source target => (∃ d, Sited c source d) ∧ ∃ t, Sited c target t ∧
      (childAt c t target.base=none → (c.entries t).length<64)
  | .unlink place => ∃ d, Sited c place d ∧ ∀ f, childAt c d place.base=some f → ¬c.folder f
  | .rename source target => ∃ d t, Sited c source d ∧ Sited c target t ∧
      ∀ f, childAt c d source.base=some f → (c.entries t).length<64

/-- An operation that fits keeps a catalogue consistent, as long as the inode it
takes is a table index. -/
theorem Consistent.apply {c : Catalog} (hc : Consistent c) {operation : Operation}
    (hf : Fits c operation) (hi : ∀ i, (applyIn c operation).2.live i → i<64) :
    Consistent (applyIn c operation).2 := by
  cases operation with
  | mknod place mode =>
    obtain ⟨d,hs,hroom⟩ := hf
    simp only [applyIn,mknodIn,hs.resolve] at hi ⊢
    cases hf : childAt c d place.base with
    | some j => exact hc
    | none =>
      rw [hf] at hi
      refine consistent_mknod hc hs.live hs.folder (hroom hf) (hi _ ?_) _
      simp only [Catalog.put,Catalog.append,Catalog.count,Catalog.create,Function.update_self]
  | link source target =>
    obtain ⟨⟨d,hs⟩,t,hs',hroom⟩ := hf
    simp only [applyIn,linkIn,hs.resolve,hs'.resolve,Option.bind_some]
    cases hf : childAt c d source.base with
    | none => exact hc
    | some f =>
      dsimp only
      cases hg : childAt c t target.base with
      | some j => exact hc
      | none =>
        obtain ⟨_,hpos,hflive⟩ := hc.child_entry hf
        exact consistent_link hc hs'.live hs'.folder (hroom hg) hflive hpos
  | unlink place =>
    obtain ⟨d,hs,hplain⟩ := hf
    simp only [applyIn,unlinkIn,hs.resolve]
    cases hf : childAt c d place.base with
    | none => exact hc
    | some f =>
      obtain ⟨_,hpos,hflive⟩ := hc.child_entry hf
      have hback : Consistent ((c.count f (-1)).count f 1) := by
        rw [count_count]
        exact hc
      exact consistent_delete hback (hc.index d hs.live) (entry_of_child hc hf) rfl hflive hpos
        (fun hfolder => absurd hfolder (hplain f hf))
  | rename source target =>
    obtain ⟨d,t,hs,hs',hroom⟩ := hf
    simp only [applyIn,renameIn,hs.resolve,hs'.resolve]
    cases hf : childAt c d source.base with
    | none => exact hc
    | some f =>
      obtain ⟨_,hpos,hflive⟩ := hc.child_entry hf
      have hrange := hc.refs_range hflive hpos
      refine consistent_delete (consistent_link hc hs'.live hs'.folder (hroom f hf) hflive hpos)
        (hc.index d hs.live) (entry_of_moved hc hf target.base.bytes) rfl hflive hpos (fun _ => ?_)
      rw [refs_put]
      omega

/-- A permitted operation fits the catalogue. -/
theorem fits_of_permitted (h : Shaped disk.bytes) (hc : Consistent (catalog disk.bytes))
    {operation : Operation} (hp : Permitted disk operation) :
    Fits (catalog disk.bytes) operation := by
  cases operation with
  | mknod place mode =>
    obtain ⟨d,hw⟩ := hp
    exact ⟨d,(hw.within.looked h hc).sited,fun _ => hw.entries_lt h hc⟩
  | link source target =>
    obtain ⟨⟨d,hw⟩,t,hw'⟩ := hp
    exact ⟨⟨d,(hw.looked h hc).sited⟩,t,(hw'.within.looked h hc).sited,
      fun _ => hw'.entries_lt h hc⟩
  | unlink place =>
    obtain ⟨⟨d,hw⟩,hplain⟩ := hp
    have hlook := hw.looked h hc
    refine ⟨d,hlook.sited,fun f hf hfolder => ?_⟩
    have hpath := hlook.path
    rw [hf] at hpath
    exact hplain f hpath hfolder.2
  | rename source target =>
    obtain ⟨⟨d,hw⟩,t,hw'⟩ := hp
    exact ⟨d,t,(hw.looked h hc).sited,(hw'.within.looked h hc).sited,
      fun _ _ => hw'.entries_lt h hc⟩

/-- A permitted operation unmarks exactly the inode whose last name
`storage_unlink` takes away. -/
theorem apply_unmarks (h : Shaped disk.bytes) (hc : Consistent (catalog disk.bytes))
    {operation : Operation} (hp : Permitted disk operation) {i : ℕ}
    (hl : (catalog disk.bytes).live i) :
    ¬(applyIn (catalog disk.bytes) operation).2.live i ↔ ∃ place, operation=.unlink place ∧
      treeLookup (pathOf place) disk=.ok (i : ℤ) disk ∧ nameCount (catalog disk.bytes) i=1 := by
  have hnone : (∀ place, operation≠.unlink place) →
      (applyIn (catalog disk.bytes) operation).2.live i →
      (¬(applyIn (catalog disk.bytes) operation).2.live i ↔ ∃ place, operation=.unlink place ∧
        treeLookup (pathOf place) disk=.ok (i : ℤ) disk ∧ nameCount (catalog disk.bytes) i=1) := by
    intro hne hlive
    constructor
    · exact fun hn => absurd hlive hn
    · rintro ⟨place,he,_⟩
      exact absurd he (hne place)
  cases operation with
  | mknod place mode =>
    refine hnone (fun _ => Operation.noConfusion) ?_
    obtain ⟨d,hw,_⟩ := hp
    simp only [applyIn,mknodIn,(hw.resolve h hc).1]
    cases hf : childAt (catalog disk.bytes) d place.base with
    | some j => exact hl
    | none =>
      simp only [Catalog.put,Catalog.append,Catalog.count,Catalog.create]
      by_cases he : i=nextFree (catalog disk.bytes)
      · rw [←he,Function.update_self]
        exact trivial
      · rw [Function.update_of_ne he]
        exact hl
  | link source target =>
    refine hnone (fun _ => Operation.noConfusion) ?_
    obtain ⟨⟨d,hw⟩,t,hw',_⟩ := hp
    simp only [applyIn,linkIn,(hw.resolve h hc).1,(hw'.resolve h hc).1,Option.bind_some]
    cases hf : childAt (catalog disk.bytes) d source.base with
    | none => exact hl
    | some f =>
      dsimp only
      cases hg : childAt (catalog disk.bytes) t target.base with
      | some j => exact hl
      | none => exact hl
  | rename source target =>
    refine hnone (fun _ => Operation.noConfusion) ?_
    obtain ⟨⟨d,hw⟩,t,hw',_⟩ := hp
    simp only [applyIn,renameIn,(hw.resolve h hc).1,(hw'.resolve h hc).1]
    cases hf : childAt (catalog disk.bytes) d source.base with
    | none => exact hl
    | some f =>
      obtain ⟨_,hpos,hflive⟩ := hc.child_entry hf
      have hrange := hc.refs_range hflive hpos
      refine (delete_live _ _ _ _ _).mpr ⟨hl,fun _ => ?_⟩
      simp only [Catalog.put,Catalog.append,Catalog.count,Function.update_self]
      omega
  | unlink place =>
    obtain ⟨⟨d,hw⟩,_⟩ := hp
    have hpath := (hw.looked h hc).path
    simp only [applyIn,unlinkIn,(hw.resolve h hc).1,Operation.unlink.injEq]
    cases hf : childAt (catalog disk.bytes) d place.base with
    | none =>
      rw [hf] at hpath
      constructor
      · exact fun hn => absurd hl hn
      · rintro ⟨_,rfl,hi,_⟩
        rw [hpath] at hi
        exact absurd (EStateM.Result.ok.inj hi).1 (by simp only [foundCode,noEntry]; omega)
    | some f =>
      rw [hf] at hpath
      obtain ⟨_,hpos,hflive⟩ := hc.child_entry hf
      have hrefs := hc.refs f hflive hpos
      dsimp only
      rw [deleteName,delete_live]
      simp only [Catalog.count,Function.update_self]
      constructor
      · intro hn
        have hif : i=f := by
          by_contra hne
          exact hn ⟨hl,fun he => absurd he hne⟩
        refine ⟨place,rfl,by rw [hif]; exact hpath,?_⟩
        by_contra hne
        refine hn ⟨hl,fun _ => ?_⟩
        rw [hif] at hne
        omega
      · rintro ⟨_,rfl,hi,hone⟩ ⟨_,hmore⟩
        rw [hpath] at hi
        have hif : i=f := by
          have hx := (EStateM.Result.ok.inj hi).1
          simp only [foundCode] at hx
          omega
        rw [hif] at hone
        have hx := hmore hif
        omega

end Apply

/-! ## Runs -/

/-- The states of runs of operations under a condition in which no allocation
fails, wherever each call stops. -/
inductive Run (condition : Disk → Operation → Prop) : Disk → Prop
  /-- Runs start from a fresh image. -/
  | start : Run condition fresh
  /-- A call under the condition. -/
  | step {disk : Disk} {operation : Operation} (h : Run condition disk)
      (hc : condition disk operation)
      (hd : (after (exec operation.call) disk).denied=disk.denied) :
      Run condition (after (exec operation.call) disk)

/-- The invariant of the namespace calls. -/
structure Orderly (memory : Bytes) : Prop where
  /-- The layout. -/
  shaped : Shaped memory
  /-- The contents. -/
  consistent : Consistent (catalog memory)

/-- A fresh image is orderly: its only inode is the empty root. -/
theorem orderly_fresh : Orderly fresh.bytes := by
  have hsize : ∀ i<64, sizeAt fresh.bytes i=0 := by decide +kernel
  have hlive : ∀ i<64, inodeBit fresh.bytes i=true → i=0 := by decide +kernel
  have hempty : ∀ d, (catalog fresh.bytes).entries d=[] := by
    intro d
    simp only [catalog]
    split
    · rename_i hd
      exact entriesAt_zero (hsize d hd)
    · rfl
  constructor
  · refine ⟨sound_fresh,by decide +kernel,?_,?_,?_,?_⟩
    · intro i hi
      rw [hlive i hi.1 hi.2]
      decide +kernel
    · intro i hi
      exact ⟨0,by omega,hsize i hi⟩
    · intro i hi hpos
      rw [hsize i hi] at hpos
      exact absurd hpos (by omega)
    · intro d hd entry he
      rw [entriesAt_zero (hsize d hd)] at he
      cases he
  · refine ⟨fun i hi => hi.1,⟨⟨by omega,by decide +kernel⟩,by omega,?_⟩,?_,?_,?_,?_⟩
    · unfold Directory IsFolder
      decide +kernel
    · intro d hd
      exact absurd (hempty d) hd
    · intro d
      rw [hempty d]
      exact Nat.zero_le _
    · intro d entry he
      rw [hempty d] at he
      cases he
    · intro i hi hpos
      exact absurd (hlive i hi.1 hi.2) (by omega)

/-- A permitted call that no allocation fails returns the code of its
operation in an orderly image with the catalogue of its operation. -/
theorem exec_orderly {disk : Disk} (h : Orderly disk.bytes) {operation : Operation}
    (hp : Permitted disk operation)
    (hd : (after (exec operation.call) disk).denied=disk.denied) :
    exec operation.call disk=.ok (outcomeCode (applyIn (catalog disk.bytes) operation).1)
        (after (exec operation.call) disk) ∧
      Orderly (after (exec operation.call) disk).bytes ∧
      catalog (after (exec operation.call) disk).bytes=
        (applyIn (catalog disk.bytes) operation).2 := by
  obtain ⟨result,next,hr,_,hshaped,hrefines⟩ := exec_refines h.shaped h.consistent hp hd
  obtain ⟨hcode,hcat⟩ := Prod.mk.inj hrefines
  rw [after_of_ok hr,←hcode]
  refine ⟨hr,⟨hshaped,?_⟩,hcat⟩
  rw [hcat]
  refine Consistent.apply h.consistent (fits_of_permitted h.shaped h.consistent hp) (fun i hi => ?_)
  rw [←hcat] at hi
  exact hi.1

/-- Every state of a run of permitted calls is orderly. -/
theorem orderly_of_run {condition : Disk → Operation → Prop}
    (hcond : ∀ disk operation, condition disk operation → Permitted disk operation) {disk : Disk}
    (h : Run condition disk) : Orderly disk.bytes := by
  induction h with
  | start => exact orderly_fresh
  | step _ hc hd ih => exact (exec_orderly ih (hcond _ _ hc) hd).2.1

/-! ## Names in the image -/

/-- Some entry of a marked directory names the inode. -/
def HasName (memory : Bytes) (i : ℕ) : Prop :=
  ∃ d, Live memory d ∧ Directory memory d ∧ ∃ entry∈entriesAt memory d, entry.inum=(i : ℤ)

/-- Being a marked directory is decided by one bit and the mode. -/
instance (memory : Bytes) (d : ℕ) : Decidable (Live memory d ∧ Directory memory d) :=
  inferInstanceAs (Decidable ((d<64 ∧ inodeBit memory d=true) ∧ modeAt memory d/4096%16=4))

/-- The number of entries of marked directories that name the inode. -/
def linkCount (memory : Bytes) (i : ℕ) : ℕ :=
  ∑ d∈Finset.range 64, if Live memory d ∧ Directory memory d then
    (entriesAt memory d).countP (fun entry => entry.inum=(i : ℤ)) else 0

/-- Only marked directories have entries, so all names are counted. -/
theorem linkCount_eq {memory : Bytes} (h : Shaped memory) (i : ℕ) :
    linkCount memory i=nameCount (catalog memory) i := by
  refine Finset.sum_congr rfl (fun d hd => ?_)
  have hd64 := Finset.mem_range.mp hd
  rw [catalog_entries memory hd64]
  split
  · rfl
  · rename_i hn
    rw [entriesAt_zero (h.size_zero hd64 hn)]
    rfl

/-- An inode has a name exactly when some name is counted. -/
theorem hasName_iff {memory : Bytes} (h : Orderly memory) (i : ℕ) :
    HasName memory i ↔ 0<nameCount (catalog memory) i := by
  constructor
  · rintro ⟨d,hd,_,entry,hm,he⟩
    rw [←catalog_entries memory hd.1] at hm
    exact nameCount_pos hd.1 hm he
  · intro hpos
    obtain ⟨d,hd,entry,hm,he⟩ := exists_of_nameCount hpos
    have hholder := h.consistent.holder d (List.ne_nil_of_mem hm)
    rw [catalog_entries memory hd] at hm
    exact ⟨d,hholder.1,hholder.2.2,entry,hm,he⟩

/-- The marked inodes of an orderly image. -/
theorem bit_iff_named {memory : Bytes} (h : Orderly memory) {i : ℕ} (hi : i<64) :
    inodeBit memory i=true ↔ i=0 ∨ HasName memory i := by
  rw [hasName_iff h i]
  constructor
  · intro hb
    by_cases hz : i=0
    · exact .inl hz
    · exact .inr (h.consistent.refs i ⟨hi,hb⟩ (by omega)).2
  · rintro (rfl|hpos)
    · exact h.consistent.root.1.2
    · by_contra hb
      have hdead := nameCount_dead h.consistent (fun hl : (catalog memory).live i => hb hl.2)
      omega

/-- In every state of every run of permitted calls the marked inodes are the
root and the named ones. The next permitted call returns, and it unmarks
exactly the inode whose last name it unlinks; and `alloc_inode` returns no
inode that has a name. -/
theorem inode_lifetime {disk : Disk} (h : Run Permitted disk) :
    (∀ i<64, (inodeBit disk.bytes i=true ↔ i=0 ∨ HasName disk.bytes i)) ∧
    (∀ operation, Permitted disk operation →
      (after (exec operation.call) disk).denied=disk.denied →
      (∃ result, exec operation.call disk=.ok result (after (exec operation.call) disk)) ∧
      ∀ i<64, inodeBit disk.bytes i=true →
        (inodeBit (after (exec operation.call) disk).bytes i=false ↔
          ∃ place, operation=.unlink place ∧ treeLookup (pathOf place) disk=.ok (i : ℤ) disk ∧
            linkCount disk.bytes i=1)) ∧
    ∀ (i : ℕ) (next : Disk), allocInode disk=.ok (i : ℤ) next → i≠0 ∧ ¬HasName disk.bytes i := by
  have ho := orderly_of_run (fun _ _ hp => hp) h
  refine ⟨fun i hi => bit_iff_named ho hi,fun operation hp hd => ?_,fun i next ha => ?_⟩
  · obtain ⟨hr,_,hcat⟩ := exec_orderly ho hp hd
    refine ⟨⟨_,hr⟩,fun i hi hb => ?_⟩
    have hunmark := apply_unmarks ho.shaped ho.consistent hp (i:=i) ⟨hi,hb⟩
    rw [←hcat] at hunmark
    rw [linkCount_eq ho.shaped]
    refine Iff.trans ?_ hunmark
    constructor
    · rintro hf ⟨_,ht⟩
      rw [hf] at ht
      cases ht
    · intro hn
      cases hx : inodeBit (after (exec operation.call) disk).bytes i with
      | false => rfl
      | true => exact absurd ⟨hi,hx⟩ hn
  · rcases allocInode_spec disk with ⟨inum,hi,hf,_,hok⟩|⟨_,hok⟩
    · have he : i=inum := by
        have hx := (EStateM.Result.ok.inj (hok.symm.trans ha)).1
        omega
      have hiff := bit_iff_named ho hi
      rw [he]
      constructor
      · rintro hz
        have ht := hiff.mpr (.inl hz)
        rw [hf] at ht
        cases ht
      · intro hn
        have ht := hiff.mpr (.inr hn)
        rw [hf] at ht
        cases ht
    · have hx := (EStateM.Result.ok.inj (hok.symm.trans ha)).1
      omega

/-- Creating the file `/a`. -/
def makeA : Operation := .mknod ⟨[],nameA⟩ 33188

/-- Creating `/a` in a fresh image is permitted. -/
theorem permitted_makeA : Permitted fresh makeA := by
  have hpass : passes (treeLookup (dirname (pathOf ⟨[],nameA⟩))) fresh
      (fun value _ => decide (value=0))=true := by decide +kernel
  refine ⟨0,⟨by decide,(treeLookup_readOnly _).returns hpass,?_⟩,by decide +kernel⟩
  unfold Directory IsFolder
  decide +kernel

/-- The image with the file `/a`. -/
def madeA : Disk := after (exec makeA.call) fresh

/-- The run that creates `/a`. -/
theorem run_makeA : Run Permitted madeA := .step .start permitted_makeA (by decide +kernel)

/-- In the run that creates `/a` inode 1 is marked and named. -/
theorem lifetime_after_makeA : inodeBit madeA.bytes 1=true ∧ HasName madeA.bytes 1 := by
  have hbit : inodeBit madeA.bytes 1=true := by decide +kernel
  have hnamed := ((inode_lifetime run_makeA).1 1 (by omega)).mp hbit
  exact ⟨hbit,hnamed.resolve_left (by omega)⟩

/-! ## The reported link count -/

/-- Reading a `long` inside the mapping returns. -/
theorem readLong_ok {offset : ℕ} (h : offset+8≤1048576) (disk : Disk) :
    ∃ value, readLong offset disk=.ok value disk := by
  rw [readLong,if_pos (by omega)]
  exact ⟨_,rfl⟩

/-- `inode_copy_stats` reports the reference count as the link count. -/
theorem inodeCopyStats_ok (uid : ℕ) {i : ℕ} (hi : i<64) (disk : Disk) :
    ∃ stat, inodeCopyStats uid (nodeOffset i) disk=.ok stat disk ∧
      stat.nlink=refsAt disk.bytes i := by
  have hlong : ∀ field : ℕ, field+8≤64 →
      ∃ value, readLong (nodeOffset i+field) disk=.ok value disk := by
    intro field hf
    obtain ⟨value,hv⟩ := readLong_ok (show 4096+64*i+field+8≤1048576 by omega) disk
    rw [Nat.cast_add] at hv
    exact ⟨value,hv⟩
  obtain ⟨asec,h32⟩ := hlong 32 (by omega)
  obtain ⟨ansec,h40⟩ := hlong 40 (by omega)
  obtain ⟨msec,h48⟩ := hlong 48 (by omega)
  obtain ⟨mnsec,h56⟩ := hlong 56 (by omega)
  refine ⟨⟨modeAt disk.bytes i,sizeAt disk.bytes i,(asec,ansec),(msec,mnsec),uid,
    refsAt disk.bytes i⟩,?_,rfl⟩
  rw [inodeCopyStats]
  refine (bind_of_ok (readField_ok 8 hi (by omega) disk)).trans ?_
  refine (bind_of_ok (readSize_ok hi disk)).trans ?_
  refine (bind_of_ok h32).trans ((bind_of_ok h40).trans ((bind_of_ok h48).trans ?_))
  refine (bind_of_ok h56).trans ((bind_of_ok (readRefs_ok hi disk)).trans ?_)
  rfl

/-- A walk that returned started at a table index. -/
theorem treeWalk_index {curr value : ℤ} {name : List UInt8} {rest : List (List UInt8)}
    {disk next : Disk} (hr : -2147483648≤curr ∧ curr<2147483648)
    (hw : treeWalk curr (name::rest) disk=.ok value next) : ∃ k : ℕ, curr=k := by
  cases rest with
  | nil =>
    obtain ⟨k,hk,_⟩ := located_returned hr hw
    exact ⟨k,hk⟩
  | cons second rest =>
    obtain ⟨k,hk,_⟩ := located_returned hr hw
    exact ⟨k,hk⟩

/-- The walk along any path from a marked inode ends in a marked inode. -/
theorem treeWalk_live {disk : Disk} (h : Orderly disk.bytes) (names : List (List UInt8)) :
    ∀ {curr i : ℕ}, Live disk.bytes curr → treeWalk curr names disk=.ok (i : ℤ) disk →
      Live disk.bytes i := by
  have hfound : ∀ {d i : ℕ} {name : List UInt8}, Live disk.bytes d →
      directoryLookup (nodeOffset d) name disk=.ok (i : ℤ) disk → Live disk.bytes i := by
    intro d i name hd hl
    obtain ⟨ii,hii,he⟩ := entry_of_lookup h.shaped.sound hd (h.shaped.size_range hd.1).2 hl
    have hmem : entryAt disk.bytes (entryStart disk.bytes d ii)∈entriesAt disk.bytes d :=
      List.mem_map.mpr ⟨ii,List.mem_range.mpr hii,rfl⟩
    rw [←catalog_entries disk.bytes hd.1] at hmem
    obtain ⟨j,hj,_,hlive⟩ := h.consistent.target d _ hmem
    rw [show i=j by exact Int.ofNat_inj.mp (he.symm.trans hj)]
    exact hlive
  induction names with
  | nil =>
    intro curr i _ hw
    cases hw
  | cons name rest ih =>
    intro curr i hcurr hw
    cases rest with
    | nil =>
      rw [treeWalk,bind_of_ok (getInode_ok hcurr.1 disk)] at hw
      exact hfound hcurr hw
    | cons second rest =>
      rw [treeWalk,bind_of_ok (getInode_ok hcurr.1 disk)] at hw
      obtain ⟨inum,mid,hl,hrest⟩ := bind_eq_ok.mp hw
      have hmid := (directoryLookup_readOnly _ _).eq_of_ok hl
      rw [hmid] at hl hrest
      obtain ⟨k,rfl⟩ := treeWalk_index (directoryLookup_range hl) hrest
      exact ih (hfound hcurr hl) hrest

/-- What any path leads to is marked. -/
theorem treeLookup_live {disk : Disk} (h : Orderly disk.bytes) {path : List UInt8} {i : ℕ}
    (hl : treeLookup path disk=.ok (i : ℤ) disk) : Live disk.bytes i := by
  unfold treeLookup at hl
  split at hl
  · have hz := (pure_eq_ok.mp hl).1
    rw [show i=0 by omega]
    exact h.consistent.root.1
  · split at hl
    · cases hl
    · have hroot : Live disk.bytes 0 := h.consistent.root.1
      exact treeWalk_live h _ hroot hl

/-- `storage_stat` of a path to an inode other than the root reports twice the
number of its names. -/
theorem nlink_eq {disk : Disk} (h : Orderly disk.bytes) (uid : ℕ) {path : List UInt8} {i : ℕ}
    (hpos : 0 < i) (hl : treeLookup path disk=.ok (i : ℤ) disk) :
    ∃ stat, storageStat uid path disk=.ok (0,some stat) disk ∧
      stat.nlink=2*(linkCount disk.bytes i : ℤ) ∧ 0<linkCount disk.bytes i := by
  have hlive := treeLookup_live h hl
  obtain ⟨stat,hstat,hn⟩ := inodeCopyStats_ok uid hlive.1 disk
  obtain ⟨hrefs,hnames⟩ := h.consistent.refs i hlive hpos
  rw [catalog_refs disk.bytes hlive.1] at hrefs
  rw [linkCount_eq h.shaped]
  refine ⟨stat,?_,hn.trans hrefs,hnames⟩
  rw [storageStat,bind_of_ok hl,if_neg (by omega),bind_of_ok (getInode_ok hlive.1 disk),
    bind_of_ok hstat]
  rfl

/-- In every state of every run, the link count reported for a path to an
inode other than the root is never the number of its names: it is twice that
number, which is not zero. -/
theorem nlink_never_names {disk : Disk} (h : Run Permitted disk) (uid : ℕ) {path : List UInt8}
    {i : ℕ} (hpos : 0 < i) (hl : treeLookup path disk=.ok (i : ℤ) disk) :
    ∃ stat, storageStat uid path disk=.ok (0,some stat) disk ∧
      stat.nlink=2*(linkCount disk.bytes i : ℤ) ∧ stat.nlink≠linkCount disk.bytes i := by
  obtain ⟨stat,hs,hn,hnames⟩ := nlink_eq (orderly_of_run (fun _ _ hp => hp) h) uid hpos hl
  exact ⟨stat,hs,hn,by omega⟩

/-- The file `/a` is inode 1. -/
theorem lookup_madeA : treeLookup (render [nameA]) madeA=.ok ((1 : ℕ) : ℤ) madeA := by
  have hpass : passes (treeLookup (render [nameA])) madeA
      (fun value _ => decide (value=1))=true := by decide +kernel
  exact (treeLookup_readOnly _).returns hpass

/-- The new file `/a` has one name and a link count of two. -/
theorem nlink_madeA : ∃ stat, storageStat 0 (render [nameA]) madeA=.ok (0,some stat) madeA ∧
    stat.nlink=2*(linkCount madeA.bytes 1 : ℤ) ∧ stat.nlink≠linkCount madeA.bytes 1 :=
  nlink_never_names run_makeA 0 Nat.one_pos lookup_madeA

/-- The link count is not the number of names: after creating `/a` it is two,
and one entry names the file. -/
theorem nlink_counts_twice :
    ¬∀ (disk : Disk) (uid : ℕ) (path : List UInt8) (i : ℕ) (stat : Stat), Run Permitted disk →
      0 < i → treeLookup path disk=.ok (i : ℤ) disk →
      storageStat uid path disk=.ok (0,some stat) disk → stat.nlink=linkCount disk.bytes i := by
  intro h
  obtain ⟨stat,hs,hn,_⟩ := nlink_eq (orderly_of_run (fun _ _ hp => hp) run_makeA) 0 Nat.one_pos
    lookup_madeA
  have hone : linkCount madeA.bytes 1=1 := by decide +kernel
  have heq := h madeA 0 (render [nameA]) 1 stat run_makeA Nat.one_pos lookup_madeA hs
  rw [hn,hone] at heq
  exact absurd heq (by decide)

end ComputerSystems.NufsLifetime
