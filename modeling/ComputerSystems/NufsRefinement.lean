import ComputerSystems.NufsLifetime

/-!
# The namespace calls refine a directory tree

The abstract state is a finite map from directory inodes and names to inodes.
Along every run of permitted calls in which `storage_rename` moves to absent
names, each call returns the code of the operation on the map, and
`tree_lookup` returns what the map resolves.
-/

namespace ComputerSystems.NufsRefinement

open StateProgram ByteMemory PackedList DirectoryTree NufsImage NufsInode NufsPath NufsDirectory
  NufsStorage NufsCalls NufsOwnership NufsListing NufsCatalog NufsNamespace NufsLifetime

/-! ## Distinct names -/

/-- Among entries with distinct names a name finds the entry that has it. -/
theorem findName_iff {entries : List Entry} (hn : (entries.map Entry.name).Nodup)
    {name : List UInt8} {entry : Entry} :
    findName entries name=some entry ↔ entry∈entries ∧ entry.name=name := by
  constructor
  · intro hf
    obtain ⟨_,hat,hname⟩ := nameIndex_of_find hf
    exact ⟨List.mem_of_getElem? hat,hname⟩
  · rintro ⟨hm,hname⟩
    cases hf : findName entries name with
    | none =>
      have hx := List.find?_eq_none.mp hf entry hm
      exact absurd hname (by simpa using hx)
    | some other =>
      obtain ⟨_,hat,hother⟩ := nameIndex_of_find hf
      have hinj := List.inj_on_of_nodup_map hn (List.mem_of_getElem? hat) hm (hother.trans hname.symm)
      rw [hinj]

/-- Searching after one entry was taken away. -/
theorem findName_of_perm {entries rest : List Entry} {entry : Entry}
    (hn : (entries.map Entry.name).Nodup) (hp : entries.Perm (entry::rest)) (name : List UInt8) :
    findName rest name=if name=entry.name then none else findName entries name := by
  have hn' := (hp.map Entry.name).nodup_iff.mp hn
  rw [List.map_cons,List.nodup_cons] at hn'
  split
  · rename_i he
    refine List.find?_eq_none.mpr (fun other hm hx => hn'.1 ?_)
    rw [←he,←show other.name=name by simpa using hx]
    exact List.mem_map_of_mem hm
  · rename_i hne
    refine Option.ext (fun other => ?_)
    rw [findName_iff hn'.2,findName_iff hn,hp.mem_iff,List.mem_cons]
    constructor
    · rintro ⟨hm,hname⟩
      exact ⟨.inr hm,hname⟩
    · rintro ⟨hm,hname⟩
      refine ⟨hm.resolve_left (fun he => hne ?_),hname⟩
      rw [←hname,he]

/-- No directory has two entries of one name. -/
def Distinct (c : Catalog) : Prop := ∀ d, ((c.entries d).map Entry.name).Nodup

section Change

variable {c : Catalog} {d j : ℕ} {component : Component}

/-- Entering an absent name keeps names distinct. -/
theorem distinct_append (hn : Distinct c) (ha : childAt c d component=none) :
    Distinct (c.append d ⟨component.bytes,j⟩) := by
  intro l
  simp only [Catalog.append]
  by_cases he : l=d
  · rw [he,Function.update_self,List.map_append,List.map_singleton]
    refine List.nodup_append.mpr ⟨hn d,List.nodup_singleton _,?_⟩
    intro name hm other ho hx
    obtain ⟨entry,hentry,hname⟩ := List.mem_map.mp hm
    have hnone := List.find?_eq_none.mp (child_none ha) entry hentry
    rw [List.mem_singleton.mp ho] at hx
    exact absurd (hname.trans hx) (by simpa using hnone)
  · rw [Function.update_of_ne he]
    exact hn l

/-- Children after entering an absent name. -/
theorem childAt_append (ha : childAt c d component=none) (l : ℕ) (label : Component) :
    childAt (c.append d ⟨component.bytes,j⟩) l label=
      if l=d ∧ label=component then some j else childAt c l label := by
  unfold childAt
  simp only [Catalog.append]
  by_cases he : l=d
  · rw [he,Function.update_self,findName,List.find?_append]
    by_cases hl : label=component
    · have hnone := child_none ha
      rw [findName] at hnone
      rw [hl,hnone,if_pos ⟨rfl,rfl⟩,Option.none_or,List.find?_singleton]
      simp only [decide_true,if_true,Option.map_some,Int.toNat_natCast]
    · have hne : ¬component.bytes=label.bytes := fun hx => hl (Component.ext_bytes hx.symm)
      rw [if_neg (fun hx => hl hx.2),List.find?_singleton]
      simp only [hne,decide_false,Bool.false_eq_true,if_false,Option.or_none]
      rfl
  · rw [Function.update_of_ne he,if_neg (fun hx => he hx.1)]

/-- Taking an entry away keeps names distinct. -/
theorem distinct_remove (hn : Distinct c) {ii : ℕ} (hii : ii<(c.entries d).length) :
    Distinct (c.remove d ii) := by
  intro l
  simp only [Catalog.remove]
  by_cases he : l=d
  · rw [he,Function.update_self]
    have hx := ((swapRemove_perm hii).map Entry.name).nodup_iff.mp (hn d)
    rw [List.map_cons,List.nodup_cons] at hx
    exact hx.2
  · rw [Function.update_of_ne he]
    exact hn l

/-- Children after taking an entry away. -/
theorem childAt_remove (hn : Distinct c) {ii : ℕ} {entry : Entry}
    (hat : (c.entries d)[ii]?=some entry) (hname : entry.name=component.bytes) (l : ℕ)
    (label : Component) :
    childAt (c.remove d ii) l label=
      if l=d ∧ label=component then none else childAt c l label := by
  obtain ⟨hlt,hget⟩ := List.getElem?_eq_some_iff.mp hat
  unfold childAt
  simp only [Catalog.remove]
  by_cases he : l=d
  · have hp := swapRemove_perm hlt
    rw [hget] at hp
    rw [he,Function.update_self,findName_of_perm (hn d) hp,hname]
    by_cases hl : label=component
    · rw [hl,if_pos rfl,if_pos ⟨rfl,rfl⟩]
      rfl
    · rw [if_neg (fun hx => hl (Component.ext_bytes hx)),if_neg (fun hx => hl hx.2)]
  · rw [Function.update_of_ne he,if_neg (fun hx => he hx.1)]

end Change

/-! ## The abstract state -/

/-- The least inode that is neither the root nor named. -/
noncomputable def unused (tree : Tree ℕ Component) : ℕ := sInf {i | i≠0 ∧ ¬Named tree i}

/-- The operations on the finite map. -/
noncomputable def applyTree (tree : Tree ℕ Component) : Operation → Outcome×Tree ℕ Component
  | .mknod place _ => create 0 place (unused tree) tree
  | .link source target => link 0 source target tree
  | .unlink place => unlink 0 place tree
  | .rename source target => rename 0 source target tree

/-- The map holds the children of the catalogue. -/
structure Matches (c : Catalog) (tree : Tree ℕ Component) : Prop where
  /-- Names are distinct. -/
  distinct : Distinct c
  /-- Children agree. -/
  children : ∀ d component, child tree d component=childAt c d component

section Matches

variable {c : Catalog} {tree : Tree ℕ Component}

/-- Matching states resolve every path alike. -/
theorem Matches.resolve (hm : Matches c tree) (path : List Component) :
    resolve tree 0 path=resolveAt c path := walk_congr hm.children 0 path

/-- Named inodes of matching states. -/
theorem Matches.named (hm : Matches c tree) (hc : Consistent c)
    (hname : ∀ d, ∀ entry∈c.entries d, ∃ component : Component, entry.name=component.bytes) (i : ℕ) :
    Named tree i ↔ 0 < i ∧ c.live i := by
  constructor
  · rintro ⟨d,component,he⟩
    rw [hm.children] at he
    exact (hc.child_entry he).2
  · rintro ⟨hpos,hlive⟩
    obtain ⟨d,_,entry,hentry,hinum⟩ := exists_of_nameCount (hc.refs i hlive hpos).2
    obtain ⟨component,hn⟩ := hname d entry hentry
    refine ⟨d,component,?_⟩
    rw [hm.children,childAt,(findName_iff (hm.distinct d)).mpr ⟨hentry,hn⟩,Option.map_some,hinum,
      Int.toNat_natCast]

/-- The inode that `alloc_inode` takes is the least unused one. -/
theorem Matches.unused_eq (hm : Matches c tree) (hc : Consistent c)
    (hname : ∀ d, ∀ entry∈c.entries d, ∃ component : Component, entry.name=component.bytes) :
    unused tree=nextFree c := by
  unfold unused nextFree
  congr 1
  ext i
  simp only [Set.mem_ofPred_eq,hm.named hc hname]
  constructor
  · rintro ⟨hne,hn⟩ hl
    exact hn ⟨Nat.pos_of_ne_zero hne,hl⟩
  · intro hn
    refine ⟨?_,fun hx => hn hx.2⟩
    rintro rfl
    exact hn hc.root.1

/-- Marks, modes and reference counts are not in the map. -/
theorem Matches.of_entries {other : Catalog} (hm : Matches c tree) (he : other.entries=c.entries) :
    Matches other tree where
  distinct := by
    intro d
    rw [he]
    exact hm.distinct d
  children := by
    intro d component
    rw [hm.children,childAt,childAt,he]

/-- Entering an absent name in both states. -/
theorem Matches.append (hm : Matches c tree) {d : ℕ} {component : Component}
    (ha : childAt c d component=none) (j : ℕ) :
    Matches (c.append d ⟨component.bytes,j⟩) (tree.insert (d,component) j) where
  distinct := distinct_append hm.distinct ha
  children := by
    intro l label
    rw [child_insert,childAt_append ha,hm.children]

/-- `directory_put` of an absent name in both states. -/
theorem Matches.put (hm : Matches c tree) {d : ℕ} {component : Component}
    (ha : childAt c d component=none) (j : ℕ) :
    Matches (c.put d component.bytes j) (tree.insert (d,component) j) :=
  (hm.append ha j).of_entries rfl

/-- Taking a name away in both states. -/
theorem Matches.remove (hm : Matches c tree) {d ii : ℕ} {entry : Entry} {component : Component}
    (hat : (c.entries d)[ii]?=some entry) (hname : entry.name=component.bytes) :
    Matches (c.remove d ii) (tree.erase (d,component)) where
  distinct := distinct_remove hm.distinct (List.getElem?_eq_some_iff.mp hat).1
  children := by
    intro l label
    rw [child_erase,childAt_remove hm.distinct hat hname,hm.children]

end Matches

/-- The condition of the runs: permitted operations that rename to names
absent from the target directory. -/
def Admitted (disk : Disk) (operation : Operation) : Prop :=
  Permitted disk operation ∧ ∀ source target, operation=.rename source target →
    ∀ t : ℕ, treeLookup (dirname (pathOf target)) disk=.ok (t : ℤ) disk →
      directoryLookup (nodeOffset t) (basename (pathOf target)) disk=.ok noEntry disk

/-- An admitted operation gives the same outcome on the catalogue and on the
map, and matching states again. -/
theorem apply_matches {disk : Disk} {tree : Tree ℕ Component} (h : Orderly disk.bytes)
    (hm : Matches (catalog disk.bytes) tree) {operation : Operation} (ha : Admitted disk operation) :
    (applyIn (catalog disk.bytes) operation).1=(applyTree tree operation).1 ∧
      Matches (applyIn (catalog disk.bytes) operation).2 (applyTree tree operation).2 := by
  obtain ⟨hshaped,hc⟩ := h
  obtain ⟨hp,habsent⟩ := ha
  cases operation with
  | mknod place mode =>
    obtain ⟨d,hw,_⟩ := hp
    have hname : ∀ d, ∀ entry∈(catalog disk.bytes).entries d,
        ∃ component : Component, entry.name=component.bytes := by
      intro l entry he
      have hl := hc.index l (hc.holder l (List.ne_nil_of_mem he)).1
      rw [catalog_entries disk.bytes hl] at he
      obtain ⟨component,hn,_⟩ := hshaped.name l hl entry he
      exact ⟨component,hn⟩
    have hres := (hw.resolve hshaped hc).1
    simp only [applyIn,applyTree,mknodIn,create,hm.resolve,hres,hm.children,hm.unused_eq hc hname]
    cases hf : childAt (catalog disk.bytes) d place.base with
    | some j => exact ⟨rfl,hm⟩
    | none =>
      exact ⟨rfl,(hm.put hf _).of_entries rfl⟩
  | link source target =>
    obtain ⟨⟨d,hw⟩,t,hw',_⟩ := hp
    have hres := (hw.resolve hshaped hc).1
    have hres' := (hw'.resolve hshaped hc).1
    simp only [applyIn,applyTree,linkIn,link,hm.resolve,hres,hres',hm.children,Option.bind_some]
    cases hf : childAt (catalog disk.bytes) d source.base with
    | none => exact ⟨rfl,hm⟩
    | some f =>
      dsimp only
      cases hg : childAt (catalog disk.bytes) t target.base with
      | some j => exact ⟨rfl,hm⟩
      | none =>
        exact ⟨rfl,(hm.put hg f).of_entries rfl⟩
  | unlink place =>
    obtain ⟨⟨d,hw⟩,_⟩ := hp
    have hres := (hw.resolve hshaped hc).1
    simp only [applyIn,applyTree,unlinkIn,unlink,hm.resolve,hres,hm.children]
    cases hf : childAt (catalog disk.bytes) d place.base with
    | none => exact ⟨rfl,hm⟩
    | some f =>
      refine ⟨rfl,?_⟩
      exact Matches.of_entries (Matches.remove hm (entry_of_child hc hf) rfl) rfl
  | rename source target =>
    obtain ⟨⟨d,hw⟩,t,hw',_⟩ := hp
    have hres := (hw.resolve hshaped hc).1
    have hres' := (hw'.resolve hshaped hc).1
    have hnone : childAt (catalog disk.bytes) t target.base=none := by
      have hlookup := (hw'.looked hshaped hc).name
      rw [habsent source target rfl t hw'.parent] at hlookup
      cases hg : childAt (catalog disk.bytes) t target.base with
      | none => rfl
      | some j =>
        rw [hg] at hlookup
        exact absurd (EStateM.Result.ok.inj hlookup).1 (by simp only [foundCode,noEntry]; omega)
    simp only [applyIn,applyTree,renameIn,rename,hm.resolve,hres,hres',hm.children]
    cases hf : childAt (catalog disk.bytes) d source.base with
    | none => exact ⟨rfl,hm⟩
    | some f =>
      have hput : Matches ((catalog disk.bytes).put t target.base.bytes f)
          (tree.insert (t,target.base) f) := hm.put hnone f
      refine ⟨rfl,?_⟩
      exact Matches.of_entries
        (Matches.remove hput (entry_of_moved hc hf target.base.bytes) rfl) rfl

/-! ## Runs -/

/-- Runs of admitted operations in which no allocation fails, on the image and
on the map together. -/
inductive Paired : Disk → Tree ℕ Component → Prop
  /-- A fresh image and the empty map. -/
  | start : Paired fresh ∅
  /-- One call on the image and its operation on the map. -/
  | step {disk : Disk} {tree : Tree ℕ Component} {operation : Operation} (h : Paired disk tree)
      (ha : Admitted disk operation)
      (hd : (after (exec operation.call) disk).denied=disk.denied) :
      Paired (after (exec operation.call) disk) (applyTree tree operation).2

/-- Paired runs keep the image orderly and the map matching. -/
theorem matches_of_paired {disk : Disk} {tree : Tree ℕ Component} (h : Paired disk tree) :
    Orderly disk.bytes ∧ Matches (catalog disk.bytes) tree := by
  induction h with
  | start =>
    have hempty : ∀ d, (catalog fresh.bytes).entries d=[] := by
      intro d
      by_contra hne
      have hd := orderly_fresh.consistent.index d (orderly_fresh.consistent.holder d hne).1
      have hsize : ∀ i<64, sizeAt fresh.bytes i=0 := by decide +kernel
      rw [catalog_entries fresh.bytes hd] at hne
      exact hne (entriesAt_zero (hsize d hd))
    refine ⟨orderly_fresh,fun d => ?_,fun d component => ?_⟩
    · rw [hempty d]
      exact List.nodup_nil
    · rw [childAt,hempty d]
      rfl
  | step _ ha hd ih =>
    obtain ⟨_,horderly,hcat⟩ := exec_orderly ih.1 ha.1 hd
    rw [hcat]
    exact ⟨horderly,(apply_matches ih.1 ih.2 ha).2⟩

/-- In every run each admitted call returns the code that the operation on the
finite map gives, and `tree_lookup` of a path whose proper prefixes resolve
returns what the map resolves it to. -/
theorem namespace_refines {disk : Disk} {tree : Tree ℕ Component} (h : Paired disk tree) :
    (∀ operation, Admitted disk operation →
      (after (exec operation.call) disk).denied=disk.denied →
      exec operation.call disk=.ok (outcomeCode (applyTree tree operation).1)
        (after (exec operation.call) disk)) ∧
    ∀ path : List Component,
      (∀ front, front<+:path → front≠path → ∃ i, resolve tree 0 front=some i) →
      treeLookup (render path) disk=.ok (foundCode (resolve tree 0 path)) disk := by
  obtain ⟨horderly,hm⟩ := matches_of_paired h
  constructor
  · intro operation ha hd
    rw [←(apply_matches horderly hm ha).1]
    exact (exec_orderly horderly ha.1 hd).1
  · intro path hp
    rw [hm.resolve]
    refine treeLookup_resolve horderly.shaped horderly.consistent path (fun front hf hne => ?_)
    rw [←hm.resolve]
    exact hp front hf hne

/-- Creating `/a` in a fresh image is admitted. -/
theorem admitted_makeA : Admitted fresh makeA :=
  ⟨permitted_makeA,fun _ _ he => Operation.noConfusion he⟩

/-- After creating `/a` its path is looked up as the map resolves it. -/
theorem lookup_after_makeA :
    treeLookup (render [nameA]) madeA=
      .ok (foundCode (resolve (applyTree ∅ makeA).2 0 [nameA])) madeA := by
  refine (namespace_refines (.step .start admitted_makeA (by decide +kernel))).2 [nameA]
    (fun front hf hne => ?_)
  have hnil : front=[] := by
    rcases List.prefix_cons_iff.mp hf with he|⟨rest,he,hrest⟩
    · exact he
    · rw [List.prefix_nil.mp hrest] at he
      exact absurd he hne
  rw [hnil]
  exact ⟨0,rfl⟩

end ComputerSystems.NufsRefinement
