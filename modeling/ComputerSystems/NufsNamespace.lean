import ComputerSystems.NufsCatalog
import ComputerSystems.DirectoryTree
import Mathlib.Algebra.Order.BigOperators.Group.Finset
import Mathlib.Order.Lattice.Nat

/-!
# The namespace calls on the catalogue

`storage_mknod`, `storage_link`, `storage_unlink` and `storage_rename` on
normalized paths, computed on the catalogue of an image. Each call that no
allocation fails returns, with a code and an image whose catalogue are those
of the operation on catalogues.
-/

namespace ComputerSystems.NufsNamespace

open StateProgram ByteMemory PackedList DirectoryTree NufsImage NufsInode NufsPath NufsDirectory
  NufsStorage NufsCalls NufsOwnership NufsResize NufsFrame NufsEntry NufsSound NufsListing
  NufsCatalog

/-! ## Directories -/

/-- The inode entered under a name of a directory. -/
def childAt (c : Catalog) (d : ℕ) (component : Component) : Option ℕ :=
  (findName (c.entries d) component.bytes).map (fun entry => entry.inum.toNat)

/-- The inode a path resolves to. -/
def resolveAt (c : Catalog) (path : List Component) : Option ℕ :=
  walk (childAt c) 0 path

/-- A path with a last name resolves in its parent. -/
theorem resolveAt_concat {c : Catalog} {front : List Component} {d : ℕ}
    (h : resolveAt c front=some d) (last : Component) :
    resolveAt c (front++[last])=childAt c d last := by
  rw [resolveAt] at h
  rw [resolveAt,walk_concat,h,Option.bind_some]

/-- The entries of a catalogue are those of the image. -/
theorem catalog_entries (memory : Bytes) {d : ℕ} (hd : d<64) :
    (catalog memory).entries d=entriesAt memory d := by
  simp only [catalog,if_pos hd]

/-- The reference counts of a catalogue are those of the image. -/
theorem catalog_refs (memory : Bytes) {i : ℕ} (hi : i<64) :
    (catalog memory).refs i=refsAt memory i := by
  simp only [catalog,if_pos hi]

/-- The number of names of an inode. -/
def nameCount (c : Catalog) (i : ℕ) : ℕ :=
  ∑ d∈Finset.range 64, (c.entries d).countP (fun entry => entry.inum=(i : ℤ))

/-- The contents that the namespace calls keep: entries are in marked
directories and name marked inodes, and every marked inode but the root has
two references for each of its names. -/
structure Consistent (c : Catalog) : Prop where
  /-- Marked inodes are table indices. -/
  index : ∀ i, c.live i → i<64
  /-- The root is a marked directory. -/
  root : c.live 0 ∧ c.folder 0
  /-- Only marked directories have entries. -/
  holder : ∀ d, c.entries d≠[] → c.live d ∧ c.folder d
  /-- A directory has at most 64 entries. -/
  room : ∀ d, (c.entries d).length≤64
  /-- Entries name marked inodes other than the root. -/
  target : ∀ d, ∀ entry∈c.entries d, ∃ j : ℕ, entry.inum=j ∧ 0<j ∧ c.live j
  /-- Every name counts for two references, and no marked inode is without. -/
  refs : ∀ i, c.live i → 0 < i → c.refs i=2*(nameCount c i : ℤ) ∧ 0<nameCount c i

section Child

variable {c : Catalog} {d j : ℕ} {component : Component}

/-- The entry behind a child. -/
theorem Consistent.child_entry (hc : Consistent c) (h : childAt c d component=some j) :
    findName (c.entries d) component.bytes=some ⟨component.bytes,j⟩ ∧ 0<j ∧ c.live j := by
  obtain ⟨entry,hf,he⟩ := Option.map_eq_some_iff.mp h
  obtain ⟨_,hat,hname⟩ := nameIndex_of_find hf
  obtain ⟨k,hk,hpos,hlive⟩ := hc.target d entry (List.mem_of_getElem? hat)
  have hjk : j=k := by
    rw [←he,hk,Int.toNat_natCast]
  rw [hjk]
  refine ⟨?_,hpos,hlive⟩
  rw [hf,←hname,←hk]

/-- A child that is not there was not found. -/
theorem child_none (h : childAt c d component=none) :
    findName (c.entries d) component.bytes=none := Option.map_eq_none_iff.mp h

/-- What resolves is marked. -/
theorem Consistent.resolve_live (hc : Consistent c) {path : List Component}
    (h : resolveAt c path=some j) : c.live j := by
  rcases walk_end h with he|⟨parent,name,he⟩
  · rw [he]
    exact hc.root.1
  · exact (hc.child_entry he).2.2

end Child

/-- What `tree_lookup` and `directory_lookup` return for an inode found or not. -/
def foundCode : Option ℕ → ℤ
  | some i => i
  | none => noEntry

/-- Searching the entries of a directory returns the child, or `-ENOENT`. -/
theorem Consistent.lookupCode_child {c : Catalog} (hc : Consistent c) (d : ℕ)
    (component : Component) :
    lookupCode (c.entries d) component.bytes=foundCode (childAt c d component) := by
  rw [lookupCode]
  cases hf : childAt c d component with
  | none =>
    rw [child_none hf]
    rfl
  | some j =>
    rw [(hc.child_entry hf).1]
    rfl

section Lookup

variable {disk : Disk}

/-- `directory_lookup` returns the child, or `-ENOENT`. -/
theorem directoryLookup_child (h : Shaped disk.bytes) (hc : Consistent (catalog disk.bytes)) {d : ℕ}
    (hd : d<64) (component : Component) :
    directoryLookup (nodeOffset d) component.bytes disk=
      .ok (foundCode (childAt (catalog disk.bytes) d component)) disk := by
  rw [directoryLookup_eq (h.listable hd) (fun byte hb => (component.plain byte hb).1),
    ←catalog_entries disk.bytes hd,hc.lookupCode_child]

/-- `tree_lookup` of a path whose parent resolves. -/
theorem treeLookup_resolve (h : Shaped disk.bytes) (hc : Consistent (catalog disk.bytes)) :
    ∀ path : List Component, (∀ front, front<+:path → front≠path →
      ∃ i, resolveAt (catalog disk.bytes) front=some i) →
    treeLookup (render path) disk=
      .ok (foundCode (resolveAt (catalog disk.bytes) path)) disk := by
  intro path
  induction path using List.reverseRecOn with
  | nil =>
    intro _
    rfl
  | append_singleton front last ih =>
    intro hp
    obtain ⟨d,hd⟩ := hp front (List.prefix_append _ _) (by simp)
    have hfront := ih (fun short hs hne => hp short (hs.trans (List.prefix_append _ _)) (by
      rintro rfl
      have hlen := hs.length_le
      simp at hlen))
    have hd64 := hc.index d (hc.resolve_live hd)
    rw [hd] at hfront
    rw [treeLookup_concat,bind_of_ok hfront,foundCode,bind_of_ok (getInode_ok hd64 disk),
      resolveAt_concat hd]
    exact directoryLookup_child h hc hd64 last

/-- A path that `tree_lookup` found resolves. -/
theorem resolve_of_treeLookup (h : Shaped disk.bytes) (hc : Consistent (catalog disk.bytes)) :
    ∀ (path : List Component) {i : ℕ}, treeLookup (render path) disk=.ok (i : ℤ) disk →
      resolveAt (catalog disk.bytes) path=some i := by
  intro path
  induction path using List.reverseRecOn with
  | nil =>
    intro i hl
    have hz := (pure_eq_ok.mp (show (pure 0 : Nufs ℤ) disk=.ok (i : ℤ) disk from hl)).1
    rw [show i=0 by omega]
    rfl
  | append_singleton front last ih =>
    intro i hl
    rw [treeLookup_concat] at hl
    obtain ⟨inum,mid,hfront,hrest⟩ := bind_eq_ok.mp hl
    have hmid := (treeLookup_readOnly _).eq_of_ok hfront
    rw [hmid] at hfront hrest
    obtain ⟨d,rfl,hd64,hrest⟩ := located_returned (treeLookup_range hfront) hrest
    have hres := ih hfront
    rw [directoryLookup_child h hc hd64 last] at hrest
    have hcode := (EStateM.Result.ok.inj hrest).1
    rw [resolveAt_concat hres]
    cases hf : childAt (catalog disk.bytes) d last with
    | none =>
      rw [hf] at hcode
      exact absurd hcode (by simp only [foundCode,noEntry]; omega)
    | some j =>
      rw [hf] at hcode
      simp only [foundCode] at hcode
      rw [show j=i by omega]

end Lookup

/-! ## Insertion and removal -/

section Entries

variable {disk : Disk} {d j count : ℕ} {component : Component} {name : List UInt8}

/-- `directory_put` into a directory with room in its first page. -/
theorem directoryPut_entering (disk : Disk) (h : Sound disk.bytes) (hd : Live disk.bytes d)
    (hs : sizeAt disk.bytes d=((64*count : ℕ) : ℤ)) (hroom : count<64) (hj : j<64)
    (hshort : name.length<64) :
    Delivers Disk.denied (directoryPut (nodeOffset d) name j) disk
      (fun result next => result=0 ∧ ∃ grown, Entering disk.bytes grown d j count name ∧
        next.bytes=entered disk.bytes grown d j (64*count) name) := by
  refine Delivers.weaken (directoryPut_delivers h.owned hd hs (blocksAt_of_size hs)
    (by omega) hshort hj) (fun result next hpost => ?_)
  obtain ⟨hz,grown,hg,hn⟩ := hpost
  exact ⟨hz,grown,⟨⟨h,hd,hs,hroom,hg⟩,hj,hshort⟩,hn⟩

/-- `directory_delete` of a name that is there. -/
theorem directoryDelete_leaving (disk : Disk) (h : Sound disk.bytes) (hd : Live disk.bytes d)
    (hlist : Listable disk.bytes d) (hs : sizeAt disk.bytes d=((64*count : ℕ) : ℤ))
    (hf : findName (entriesAt disk.bytes d) component.bytes=some ⟨component.bytes,j⟩)
    (hj : Live disk.bytes j) (hnumber : inumAt disk.bytes j=j) (hcounted : 0<refsAt disk.bytes j)
    (hsafe : ShrinkSafe disk.bytes (Live disk.bytes) (blocksAt disk.bytes) d
      ((64*count-64+4095)/4096)) :
    Leaving disk.bytes d j count (nameIndex (entriesAt disk.bytes d) component.bytes) ∧
      directoryDelete (nodeOffset d) component.bytes disk=.ok 0 {disk with
        bytes := removed disk.bytes d j (64*count)
          (nameIndex (entriesAt disk.bytes d) component.bytes)} := by
  obtain ⟨hlt,_⟩ := nameIndex_of_find hf
  have hplain : ∀ byte∈component.bytes, byte≠0 := fun byte hb => (component.plain byte hb).1
  have hle : count≤64 := by
    obtain ⟨other,hle,he⟩ := hlist.size
    rw [hs] at he
    omega
  rw [length_entriesAt hs] at hlt
  have hr : Leaving disk.bytes d j count (nameIndex (entriesAt disk.bytes d) component.bytes) :=
    ⟨h,hd,hs,hle,hlt,hj,hnumber,hcounted,hsafe⟩
  exact ⟨hr,directoryDelete_found hlist hs hplain hf hj.1 hr.inum_range hr.shrinkable⟩

end Entries

/-! ## The operations -/

/-- A call on names, on normalized paths with at least one component. -/
inductive Operation
  /-- `storage_mknod(path, mode)`. -/
  | mknod (place : Location Component) (mode : ℤ)
  /-- `storage_link(from, to)`. -/
  | link (source target : Location Component)
  /-- `storage_unlink(path)`. -/
  | unlink (place : Location Component)
  /-- `storage_rename(from, to)`. -/
  | rename (source target : Location Component)

/-- The path of a name in a directory. -/
def pathOf (place : Location Component) : List UInt8 := render (place.parent++[place.base])

/-- The call of an operation. -/
def Operation.call : Operation → Call
  | .mknod place mode => .mknod (pathOf place) mode
  | .link source target => .link (pathOf source) (pathOf target)
  | .unlink place => .unlink (pathOf place)
  | .rename source target => .rename (pathOf source) (pathOf target)

/-- The return value for an outcome. -/
def outcomeCode : Outcome → ℤ
  | .done => 0
  | .missing => noEntry
  | .present => exists_

/-- The least inode that is not marked. -/
noncomputable def nextFree (c : Catalog) : ℕ := sInf {i | ¬c.live i}

/-- `directory_delete` of an inode's entry under a name. -/
def deleteName (c : Catalog) (d : ℕ) (name : List UInt8) (j : ℕ) : Catalog :=
  c.delete d (nameIndex (c.entries d) name) j

/-- `storage_mknod` on a catalogue. -/
noncomputable def mknodIn (c : Catalog) (place : Location Component) (folder : Prop) :
    Outcome×Catalog :=
  match resolveAt c place.parent with
  | none => (.missing,c)
  | some d => match childAt c d place.base with
    | some _ => (.present,c)
    | none => (.done,(c.create (nextFree c) folder).put d place.base.bytes (nextFree c))

/-- `storage_link` on a catalogue. -/
def linkIn (c : Catalog) (source target : Location Component) : Outcome×Catalog :=
  match (resolveAt c source.parent).bind (fun d => childAt c d source.base),
      resolveAt c target.parent with
  | none,_ => (.missing,c)
  | some _,none => (.missing,c)
  | some f,some t => match childAt c t target.base with
    | some _ => (.present,c)
    | none => (.done,(c.put t target.base.bytes f).count f 1)

/-- `storage_unlink` on a catalogue. -/
def unlinkIn (c : Catalog) (place : Location Component) : Outcome×Catalog :=
  match resolveAt c place.parent with
  | none => (.missing,c)
  | some d => match childAt c d place.base with
    | none => (.missing,c)
    | some f => (.done,deleteName (c.count f (-1)) d place.base.bytes f)

/-- `storage_rename` on a catalogue. -/
def renameIn (c : Catalog) (source target : Location Component) : Outcome×Catalog :=
  match resolveAt c source.parent,resolveAt c target.parent with
  | some d,some t => match childAt c d source.base with
    | none => (.missing,c)
    | some f => (.done,deleteName (c.put t target.base.bytes f) d source.base.bytes f)
  | _,_ => (.missing,c)

/-- An operation on a catalogue. -/
noncomputable def applyIn (c : Catalog) : Operation → Outcome×Catalog
  | .mknod place mode => mknodIn c place (IsFolder (wrap32 mode))
  | .link source target => linkIn c source target
  | .unlink place => unlinkIn c place
  | .rename source target => renameIn c source target

/-- The parent of a path is a directory, and no component is too long. -/
structure Within (disk : Disk) (place : Location Component) (d : ℕ) : Prop where
  /-- Components have at most 47 bytes. -/
  short : ∀ component∈place.parent++[place.base], component.bytes.length≤47
  /-- The parent resolves. -/
  parent : treeLookup (dirname (pathOf place)) disk=.ok (d : ℤ) disk
  /-- It is a directory. -/
  folder : Directory disk.bytes d

/-- The parent of a new name has fewer than 64 entries. -/
structure Receives (disk : Disk) (place : Location Component) (d : ℕ) : Prop where
  /-- The parent. -/
  within : Within disk place d
  /-- There is room for an entry. -/
  room : (entriesAt disk.bytes d).length<64

/-- The conditions under which the operations are used. -/
def Permitted (disk : Disk) : Operation → Prop
  | .mknod place _ => ∃ d, Receives disk place d
  | .link source target => (∃ d, Within disk source d) ∧ ∃ t, Receives disk target t
  | .unlink place => (∃ d, Within disk place d) ∧
      ∀ i : ℕ, treeLookup (pathOf place) disk=.ok (i : ℤ) disk → ¬Directory disk.bytes i
  | .rename source target => (∃ d, Within disk source d) ∧ ∃ t, Receives disk target t

/-- No inode has more names than there is room for entries. -/
theorem Consistent.nameCount_le {c : Catalog} (hc : Consistent c) (i : ℕ) : nameCount c i≤4096 := by
  have hsum := Finset.sum_le_card_nsmul (Finset.range 64)
    (fun d => (c.entries d).countP (fun entry => entry.inum=(i : ℤ))) 64
    (fun d _ => List.countP_le_length.trans (hc.room d))
  rw [Finset.card_range] at hsum
  exact hsum.trans (by decide)

/-- The reference counts of named inodes are small and positive. -/
theorem Consistent.refs_range {c : Catalog} (hc : Consistent c) {i : ℕ} (hi : c.live i)
    (hpos : 0 < i) : 2≤c.refs i ∧ c.refs i≤8192 := by
  obtain ⟨hr,hn⟩ := hc.refs i hi hpos
  have hle := hc.nameCount_le i
  omega

/-- The least unmarked inode of an image is the next free one of a catalogue with
its marks. -/
theorem nextFree_eq {c : Catalog} {memory : Bytes} (hlive : c.live=Live memory) {i : ℕ}
    (hf : inodeBit memory i=false) (he : ∀ earlier, earlier < i → inodeBit memory earlier=true)
    (hi : i<64) : nextFree c=i := by
  have hmem : ∀ l, l∈{l | ¬c.live l} ↔ ¬Live memory l := fun l => by
    rw [Set.mem_ofPred_eq,hlive]
  have hfree : ¬Live memory i := by
    rintro ⟨_,hb⟩
    rw [hf] at hb
    cases hb
  refine le_antisymm (Nat.sInf_le ((hmem i).mpr hfree))
    (le_csInf ⟨i,(hmem i).mpr hfree⟩ (fun l hl => ?_))
  by_contra hlt
  exact (hmem l).mp hl ⟨by omega,he l (by omega)⟩

/-! ## Calls on any layout -/

/-- Images on which the building blocks of the calls act as on their catalogues:
`Good` is what they keep, `view` the catalogue of an image, and `Safe` says that
an entry can be taken out of a directory. -/
structure Layout (Good : Bytes → Prop) (view : Bytes → Catalog) (Safe : Bytes → ℕ → Prop) :
    Prop where
  /-- Catalogues have the marks of their images. -/
  marks : ∀ memory, (view memory).live=Live memory
  /-- Creating an inode. -/
  create : ∀ (memory : Bytes) (i : ℕ) (mode : ℤ), Good memory → i<64 → inodeBit memory i=false →
    Good (created memory i mode) ∧
      view (created memory i mode)=(view memory).create i (IsFolder (wrap32 mode))
  /-- Counting a reference. -/
  count : ∀ (memory : Bytes) (i : ℕ) (change : ℤ), Good memory → i<64 →
    -2147483648≤(view memory).refs i+change → (view memory).refs i+change<2147483648 →
    Good (putInt memory (4096+64*i+4) (refsAt memory i+change)) ∧
      view (putInt memory (4096+64*i+4) (refsAt memory i+change))=(view memory).count i change
  /-- `directory_put` into a directory with room. -/
  put : ∀ (disk : Disk) (d j : ℕ) (component : Component), Good disk.bytes →
    (view disk.bytes).live d → (view disk.bytes).folder d →
    ((view disk.bytes).entries d).length<64 → j<64 → component.bytes.length≤47 →
    (view disk.bytes).refs j+1<2147483648 →
    Delivers Disk.denied (directoryPut (nodeOffset d) component.bytes j) disk
      (fun result next => result=0 ∧ Good next.bytes ∧
        view next.bytes=(view disk.bytes).put d component.bytes j)
  /-- `directory_delete` of a name that is there. -/
  delete : ∀ (disk : Disk) (d j : ℕ) (component : Component), Good disk.bytes →
    Safe disk.bytes d →
    findName ((view disk.bytes).entries d) component.bytes=some ⟨component.bytes,j⟩ →
    (view disk.bytes).live j → 0<(view disk.bytes).refs j →
    ((view disk.bytes).folder j → 1<(view disk.bytes).refs j) →
    ∃ next : Bytes, directoryDelete (nodeOffset d) component.bytes disk=
        .ok 0 {disk with bytes := next} ∧ Good next ∧
      view next=deleteName (view disk.bytes) d component.bytes j

/-- The directory of a path is a marked directory of the catalogue. -/
structure Sited (c : Catalog) (place : Location Component) (d : ℕ) : Prop where
  /-- The parent resolves. -/
  resolve : resolveAt c place.parent=some d
  /-- It is marked. -/
  live : c.live d
  /-- It is a directory. -/
  folder : c.folder d

/-- The lookups of a path in an image are those in its catalogue. -/
structure Looked (disk : Disk) (c : Catalog) (place : Location Component) (d : ℕ) : Prop where
  /-- The directory. -/
  sited : Sited c place d
  /-- The lookup of the parent. -/
  parent : treeLookup (dirname (pathOf place)) disk=.ok (d : ℤ) disk
  /-- The lookup of the name in the parent. -/
  name : directoryLookup (nodeOffset d) (basename (pathOf place)) disk=
    .ok (foundCode (childAt c d place.base)) disk
  /-- The lookup of the whole path. -/
  path : treeLookup (pathOf place) disk=.ok (foundCode (childAt c d place.base)) disk

/-- A name already found is found before a further entry. -/
theorem findName_append {entries : List Entry} {name : List UInt8} {entry : Entry}
    (h : findName entries name=some entry) (last : Entry) :
    findName (entries++[last]) name=some entry := by
  rw [findName] at h
  rw [findName,List.find?_append,h,Option.some_or]

/-- A name already found is found after an insertion. -/
theorem findName_put {c : Catalog} {d t j : ℕ} {name label : List UInt8} {entry : Entry}
    (h : findName (c.entries d) name=some entry) :
    findName ((c.put t label j).entries d) name=some entry := by
  simp only [Catalog.put,Catalog.append,Catalog.count]
  by_cases he : d=t
  · rw [he,Function.update_self,←he]
    exact findName_append h _
  · rw [Function.update_of_ne he]
    exact h

/-- The references of the inode entered. -/
theorem refs_put (c : Catalog) (d j : ℕ) (name : List UInt8) :
    (c.put d name j).refs j=c.refs j+1 := by
  simp only [Catalog.put,Catalog.append,Catalog.count,Function.update_self]

section Calls

variable {Good : Bytes → Prop} {view : Bytes → Catalog} {Safe : Bytes → ℕ → Prop} {disk : Disk}
  {d t f : ℕ}

/-- What a call delivers: the code and the catalogue of the operation. -/
def RefinesIn (Good : Bytes → Prop) (view : Bytes → Catalog) (disk : Disk) (operation : Operation)
    (result : ℤ) (next : Disk) : Prop :=
  Good next.bytes ∧
    (result,view next.bytes)=((outcomeCode (applyIn (view disk.bytes) operation).1),
      (applyIn (view disk.bytes) operation).2)

/-- The creating branch of `storage_mknod` on a directory with room. -/
theorem Layout.createNode (L : Layout Good view Safe) (h : Good disk.bytes)
    (hd : (view disk.bytes).live d) (hfolder : (view disk.bytes).folder d)
    (hroom : ((view disk.bytes).entries d).length<64) {component : Component}
    (hshort : component.bytes.length≤47) (mode : ℤ) :
    Delivers Disk.denied (createNode (nodeOffset d) component.bytes mode) disk
      (fun result next => result=0 ∧ Good next.bytes ∧
        view next.bytes=((view disk.bytes).create (nextFree (view disk.bytes))
          (IsFolder (wrap32 mode))).put d component.bytes (nextFree (view disk.bytes))) := by
  rcases createNode_eq (nodeOffset d) component.bytes mode disk with
    ⟨i,hi,hfree,hleast,hput⟩|hnone
  · have hnext := nextFree_eq (L.marks disk.bytes) hfree hleast hi
    have hne : d≠i := by
      rintro rfl
      rw [L.marks] at hd
      rw [hd.2] at hfree
      cases hfree
    obtain ⟨hmid,hcat⟩ := L.create disk.bytes i mode h hi hfree
    refine Delivers.of_eq hput rfl ?_
    have hdeliver := L.put {disk with bytes := created disk.bytes i mode} d i component hmid
    simp only [hcat,Catalog.create,Function.update_of_ne hne,Function.update_self] at hdeliver
    rw [hnext]
    exact hdeliver hd hfolder hroom hi hshort (by omega)
  · refine Delivers.of_rise ?_
    have hafter : after (NufsStorage.createNode (nodeOffset d) component.bytes mode) disk=
        {disk with denied := disk.denied+1} := by
      simp only [after,hnone.2]
    rw [hafter]
    exact Nat.lt_succ_self _

/-- `storage_mknod` refines its operation on catalogues. -/
theorem Layout.mknod (L : Layout Good view Safe) (h : Good disk.bytes)
    (hc : Consistent (view disk.bytes)) {place : Location Component} {mode : ℤ}
    (hp : Looked disk (view disk.bytes) place d)
    (hroom : childAt (view disk.bytes) d place.base=none →
      ((view disk.bytes).entries d).length<64) (hshort : place.base.bytes.length≤47) :
    Delivers Disk.denied (storageMknod (pathOf place) mode) disk
      (RefinesIn Good view disk (.mknod place mode)) := by
  have hhead : (pathOf place).head?=some 47 := render_head _
  have heq := storageMknod_eq hhead (hc.index d hp.sited.live) hp.parent hp.name mode
  cases hf : childAt (view disk.bytes) d place.base with
  | some j =>
    have hpos := (hc.child_entry hf).2.1
    rw [hf,foundCode,if_pos (by omega)] at heq
    refine Delivers.of_ok heq ⟨h,?_⟩
    simp only [applyIn,mknodIn,hp.sited.resolve,hf,outcomeCode]
  | none =>
    rw [hf,foundCode,if_neg (by decide)] at heq
    rw [pathOf,basename_render] at heq
    refine Delivers.of_eq heq rfl ((L.createNode h hp.sited.live hp.sited.folder (hroom hf) hshort
      mode).weaken (fun result next hpost => ?_))
    obtain ⟨hz,hgood,hcat⟩ := hpost
    refine ⟨hgood,?_⟩
    simp only [applyIn,mknodIn,hp.sited.resolve,hf,outcomeCode]
    rw [hz,hcat]

/-- `storage_link` refines its operation on catalogues. -/
theorem Layout.link (L : Layout Good view Safe) (h : Good disk.bytes)
    (hc : Consistent (view disk.bytes)) {source target : Location Component}
    (hp : Looked disk (view disk.bytes) source d) (hp' : Looked disk (view disk.bytes) target t)
    (hroom : childAt (view disk.bytes) t target.base=none →
      ((view disk.bytes).entries t).length<64) (hshort : target.base.bytes.length≤47) :
    Delivers Disk.denied (storageLink (pathOf source) (pathOf target)) disk
      (RefinesIn Good view disk (.link source target)) := by
  have hd64 := hc.index d hp.sited.live
  have ht64 := hc.index t hp'.sited.live
  have hsource := hp.name
  cases hf : childAt (view disk.bytes) d source.base with
  | none =>
    rw [hf] at hsource
    have heq : storageLink (pathOf source) (pathOf target) disk=.ok noEntry disk := by
      refine (found_eq _ hp.parent).trans ?_
      rw [bind_of_ok (getInode_ok hd64 disk)]
      exact missing_eq _ (by decide) hsource
    refine Delivers.of_ok heq ⟨h,?_⟩
    simp only [applyIn,linkIn,hp.sited.resolve,Option.bind_some,hf,outcomeCode]
  | some f =>
    obtain ⟨_,hpos,hflive⟩ := hc.child_entry hf
    have hf64 := hc.index f hflive
    rw [hf] at hsource
    have heq := storageLink_eq hd64 ht64 hp.parent hsource hp'.parent hp'.name
    cases hg : childAt (view disk.bytes) t target.base with
    | some j =>
      rw [hg,foundCode,if_neg (by omega)] at heq
      refine Delivers.of_ok heq ⟨h,?_⟩
      simp only [applyIn,linkIn,hp.sited.resolve,Option.bind_some,hf,hp'.sited.resolve,hg,
        outcomeCode]
    | none =>
      have hrange := hc.refs_range hflive hpos
      rw [hg,foundCode,if_pos (by decide)] at heq
      refine Delivers.of_eq heq rfl ?_
      rw [pathOf,basename_render,addName]
      refine Delivers.bind_ok (getInode_ok ht64 disk) rfl ?_
      refine Delivers.bind (L.put disk t f target.base h hp'.sited.live hp'.sited.folder (hroom hg)
        hf64 hshort (by omega)) (directoryPut_rises _ _ _) (fun _ =>
          moves_bind ((getInode_readOnly _).rises _) (fun _ =>
            moves_bind (addRefs_rises _ _) (fun _ => moves_pure _))) ?_
      rintro result mid _ ⟨hz,hgood,hcat⟩
      have hmidrefs := refs_put (view disk.bytes) t f target.base.bytes
      rw [←hcat] at hmidrefs
      obtain ⟨hlast,hlastcat⟩ := L.count mid.bytes f 1 hgood hf64 (by omega) (by omega)
      refine Delivers.bind_ok (getInode_ok hf64 mid) rfl ?_
      refine Delivers.bind_ok (addRefs_ok hf64 1 mid) rfl ?_
      refine Delivers.ret ⟨hlast,?_⟩
      simp only [applyIn,linkIn,hp.sited.resolve,Option.bind_some,hf,hp'.sited.resolve,hg,
        outcomeCode]
      rw [hlastcat,hz,hcat]

/-- `storage_unlink` refines its operation on catalogues. -/
theorem Layout.unlink (L : Layout Good view Safe) (h : Good disk.bytes)
    (hc : Consistent (view disk.bytes)) {place : Location Component}
    (hp : Looked disk (view disk.bytes) place d)
    (hplain : ∀ f, childAt (view disk.bytes) d place.base=some f → ¬(view disk.bytes).folder f)
    (hsafe : ∀ f, childAt (view disk.bytes) d place.base=some f →
      Safe (putInt disk.bytes (4096+64*f+4) (refsAt disk.bytes f+(-1))) d) :
    Delivers Disk.denied (storageUnlink (pathOf place)) disk
      (RefinesIn Good view disk (.unlink place)) := by
  have hd64 := hc.index d hp.sited.live
  have hfind := hp.name
  have hpath := hp.path
  cases hf : childAt (view disk.bytes) d place.base with
  | none =>
    rw [hf] at hfind
    have heq : storageUnlink (pathOf place) disk=.ok noEntry disk := by
      refine (found_eq _ hp.parent).trans ?_
      rw [bind_of_ok (getInode_ok hd64 disk)]
      exact missing_eq _ (by decide) hfind
    refine Delivers.of_ok heq ⟨h,?_⟩
    simp only [applyIn,unlinkIn,hp.sited.resolve,hf,outcomeCode]
  | some f =>
    obtain ⟨hentry,hpos,hflive⟩ := hc.child_entry hf
    have hf64 := hc.index f hflive
    have hrange := hc.refs_range hflive hpos
    rw [hf] at hfind hpath
    have heq := storageUnlink_eq hd64 hf64 hp.parent hfind hpath
    obtain ⟨hgood,hcat⟩ := L.count disk.bytes f (-1) h hf64 (by omega) (by omega)
    have hdelete := L.delete {disk with
      bytes := putInt disk.bytes (4096+64*f+4) (refsAt disk.bytes f+(-1))} d f place.base hgood
      (hsafe f hf)
    simp only [hcat,Catalog.count,Function.update_self] at hdelete
    obtain ⟨next,hrun,hnext,hnextcat⟩ := hdelete hentry hflive (by omega)
      (fun hx => absurd hx (hplain f hf))
    rw [pathOf,basename_render] at heq
    refine Delivers.of_ok (heq.trans hrun) ⟨hnext,?_⟩
    simp only [applyIn,unlinkIn,hp.sited.resolve,hf,outcomeCode]
    rw [hnextcat]
    rfl

/-- `directory_delete` of the old name once the new one has been entered. -/
theorem Layout.deleteMoved (L : Layout Good view Safe) (hc : Consistent (view disk.bytes))
    {source target : Component} (hf : childAt (view disk.bytes) d source=some f) {mid : Disk}
    (hgood : Good mid.bytes) (hcat : view mid.bytes=(view disk.bytes).put t target.bytes f)
    (hsafe : Safe mid.bytes d) : ∃ next : Bytes,
      directoryDelete (nodeOffset d) source.bytes mid=.ok 0 {mid with bytes := next} ∧ Good next ∧
        view next=deleteName ((view disk.bytes).put t target.bytes f) d source.bytes f := by
  obtain ⟨hentry,hpos,hflive⟩ := hc.child_entry hf
  have hrange := hc.refs_range hflive hpos
  have hmidrefs := refs_put (view disk.bytes) t f target.bytes
  rw [←hcat] at hmidrefs
  have hmidlive : (view mid.bytes).live f := by
    rw [hcat]
    exact hflive
  have hmidentry : findName ((view mid.bytes).entries d) source.bytes=some ⟨source.bytes,f⟩ := by
    rw [hcat]
    exact findName_put hentry
  rw [←hcat]
  exact L.delete mid d f source hgood hsafe hmidentry hmidlive (by omega) (fun _ => by omega)

/-- `storage_rename` refines its operation on catalogues. -/
theorem Layout.rename (L : Layout Good view Safe) (h : Good disk.bytes)
    (hc : Consistent (view disk.bytes)) {source target : Location Component}
    (hp : Looked disk (view disk.bytes) source d) (hp' : Looked disk (view disk.bytes) target t)
    (hroom : ∀ f, childAt (view disk.bytes) d source.base=some f →
      ((view disk.bytes).entries t).length<64) (hshort : target.base.bytes.length≤47)
    (hsafe : ∀ (f : ℕ) (mid : Disk), childAt (view disk.bytes) d source.base=some f →
      directoryPut (nodeOffset t) target.base.bytes f disk=.ok 0 mid →
      mid.denied=disk.denied → Safe mid.bytes d) :
    Delivers Disk.denied (storageRename (pathOf source) (pathOf target)) disk
      (RefinesIn Good view disk (.rename source target)) := by
  have hd64 := hc.index d hp.sited.live
  have ht64 := hc.index t hp'.sited.live
  have hsource := hp.name
  cases hf : childAt (view disk.bytes) d source.base with
  | none =>
    rw [hf] at hsource
    have heq : storageRename (pathOf source) (pathOf target) disk=.ok noEntry disk := by
      refine (found_eq _ hp.parent).trans ?_
      rw [bind_of_ok (getInode_ok hd64 disk)]
      exact missing_eq _ (by decide) hsource
    refine Delivers.of_ok heq ⟨h,?_⟩
    simp only [applyIn,renameIn,hp.sited.resolve,hp'.sited.resolve,hf,outcomeCode]
  | some f =>
    obtain ⟨hentry,hpos,hflive⟩ := hc.child_entry hf
    have hf64 := hc.index f hflive
    have hrange := hc.refs_range hflive hpos
    rw [hf] at hsource
    have heq := storageRename_eq hd64 hp.parent hsource hp'.parent
    refine Delivers.of_eq heq rfl ?_
    rw [pathOf,pathOf,basename_render,basename_render,moveName]
    refine Delivers.bind_ok (getInode_ok ht64 disk) rfl ?_
    refine Delivers.bind (L.put disk t f target.base h hp'.sited.live hp'.sited.folder (hroom f hf)
      hf64 hshort (by omega)).recorded (directoryPut_rises _ _ _) (fun _ =>
        moves_bind ((getInode_readOnly _).rises _) (fun _ =>
          moves_bind (directoryDelete_rises _ _) (fun _ => moves_pure _))) ?_
    rintro result mid hrun ⟨hdenied,hz,hgood,hcat⟩
    rw [hz] at hrun
    obtain ⟨next,hdelete,hnext,hnextcat⟩ := L.deleteMoved hc hf hgood hcat (hsafe f mid hf hrun hdenied)
    refine Delivers.bind_ok (getInode_ok hd64 mid) rfl ?_
    refine Delivers.bind_ok hdelete rfl ?_
    refine Delivers.ret ⟨hnext,?_⟩
    simp only [applyIn,renameIn,hp.sited.resolve,hp'.sited.resolve,hf,outcomeCode]
    rw [hnextcat,hz]

/-- `storage_rename` of a name that is there, once its `directory_put` returns. -/
theorem Layout.moved (L : Layout Good view Safe) (hc : Consistent (view disk.bytes))
    {source target : Location Component}
    (hp : Looked disk (view disk.bytes) source d) (hp' : Looked disk (view disk.bytes) target t)
    (hf : childAt (view disk.bytes) d source.base=some f) {mid : Disk}
    (hput : directoryPut (nodeOffset t) target.base.bytes f disk=.ok 0 mid)
    (hgood : Good mid.bytes) (hcat : view mid.bytes=(view disk.bytes).put t target.base.bytes f)
    (hsafe : Safe mid.bytes d) : ∃ next : Bytes,
      storageRename (pathOf source) (pathOf target) disk=.ok 0 {mid with bytes := next} ∧ Good next ∧
        view next=deleteName ((view disk.bytes).put t target.base.bytes f) d source.base.bytes f := by
  have hd64 := hc.index d hp.sited.live
  have ht64 := hc.index t hp'.sited.live
  have hsource := hp.name
  rw [hf] at hsource
  obtain ⟨next,hdelete,hnext,hnextcat⟩ := L.deleteMoved hc hf hgood hcat hsafe
  refine ⟨next,?_,hnext,hnextcat⟩
  rw [storageRename_eq hd64 hp.parent hsource hp'.parent,pathOf,pathOf,basename_render,
    basename_render,moveName,bind_of_ok (getInode_ok ht64 disk),bind_of_ok hput,
    bind_of_ok (getInode_ok hd64 mid),bind_of_ok hdelete]
  rfl

end Calls

/-! ## Calls on shaped images -/

/-- Shaped images are a layout on which every entry can be taken out. -/
theorem shaped_layout : Layout Shaped catalog (fun _ _ => True) where
  marks := fun _ => rfl
  create := fun _ _ mode h hi hf => ⟨shaped_created mode h hi hf,catalog_created mode h hi hf⟩
  count := by
    intro memory i change h hi hl hr
    rw [catalog_refs memory hi] at hl hr
    exact ⟨shaped_putRefs h hi _,catalog_putRefs h hi ⟨hl,hr⟩⟩
  put := by
    intro disk d j component h hd hfolder hroom hj hshort hrefs
    have hd64 : d<64 := hd.1
    rw [catalog_refs disk.bytes hj] at hrefs
    rw [catalog_entries disk.bytes hd64] at hroom
    obtain ⟨count,_,hs⟩ := h.size d hd64
    rw [length_entriesAt hs] at hroom
    refine (directoryPut_entering disk h.sound hd hs hroom hj (by omega)).weaken
      (fun result next hpost => ?_)
    obtain ⟨hz,grown,he,hn⟩ := hpost
    have hi : Insertion disk.bytes grown d j count component :=
      ⟨h,hd,hfolder.2,hs,hroom,hj,he.grown,hshort⟩
    rw [hn]
    exact ⟨hz,hi.shaped_next,hi.catalog_next hrefs⟩
  delete := by
    intro disk d j component h _ hf hj hcounted hkept
    have hj' : Live disk.bytes j := hj
    have hd : d<64 := by
      by_contra hd
      simp only [catalog,if_neg hd] at hf
      cases hf
    rw [catalog_refs disk.bytes hj'.1] at hcounted hkept
    rw [catalog_entries disk.bytes hd] at hf
    obtain ⟨count,hle,hs⟩ := h.size d hd
    have hlt := (nameIndex_of_find hf).1
    rw [length_entriesAt hs] at hlt
    have hr : Removal disk.bytes d j count (nameIndex (entriesAt disk.bytes d) component.bytes) :=
      ⟨h,hd,hs,hlt,hj,hcounted,fun hx => hkept ⟨hj'.1,hx⟩⟩
    have hdelete := (directoryDelete_leaving disk h.sound hr.leaving.live (h.listable hd) hs hf hj
      hr.leaving.number hcounted hr.leaving.safe).2
    refine ⟨_,hdelete,hr.shaped_next,?_⟩
    rw [hr.catalog_next,deleteName,catalog_entries disk.bytes hd]

section Exec

variable {disk : Disk}

/-- The parent of a path within the image. -/
theorem Within.resolve {place : Location Component} {d : ℕ} (hw : Within disk place d)
    (h : Shaped disk.bytes) (hc : Consistent (catalog disk.bytes)) :
    resolveAt (catalog disk.bytes) place.parent=some d ∧ Live disk.bytes d := by
  have hl := hw.parent
  rw [pathOf,dirname_render] at hl
  have hr := resolve_of_treeLookup h hc place.parent hl
  exact ⟨hr,hc.resolve_live hr⟩

/-- The lookups of a path within the image. -/
theorem Within.looked {place : Location Component} {d : ℕ} (hw : Within disk place d)
    (h : Shaped disk.bytes) (hc : Consistent (catalog disk.bytes)) :
    Looked disk (catalog disk.bytes) place d := by
  obtain ⟨hres,hlive⟩ := hw.resolve h hc
  have hfind := directoryLookup_child h hc hlive.1 place.base
  have hl := hw.parent
  rw [pathOf,dirname_render] at hl
  refine ⟨⟨hres,hlive,hlive.1,hw.folder⟩,hw.parent,?_,?_⟩
  · rw [pathOf,basename_render]
    exact hfind
  · rw [pathOf,treeLookup_concat,bind_of_ok hl,bind_of_ok (getInode_ok hlive.1 disk)]
    exact hfind

/-- The room of a directory that receives a name. -/
theorem Receives.entries_lt {place : Location Component} {d : ℕ} (hr : Receives disk place d)
    (h : Shaped disk.bytes) (hc : Consistent (catalog disk.bytes)) :
    ((catalog disk.bytes).entries d).length<64 := by
  rw [catalog_entries disk.bytes (hr.within.resolve h hc).2.1]
  exact hr.room

/-- What a call delivers: the code and the catalogue of the operation. -/
def Refines (disk : Disk) (operation : Operation) (result : ℤ) (next : Disk) : Prop :=
  Shaped next.bytes ∧
    (result,catalog next.bytes)=((outcomeCode (applyIn (catalog disk.bytes) operation).1),
      (applyIn (catalog disk.bytes) operation).2)

/-- Every permitted call that no allocation fails returns, and refines its
operation on catalogues. -/
theorem exec_refines (h : Shaped disk.bytes) (hc : Consistent (catalog disk.bytes))
    {operation : Operation} (hp : Permitted disk operation) :
    Delivers Disk.denied (exec operation.call) disk (Refines disk operation) := by
  cases operation with
  | mknod place mode =>
    obtain ⟨d,hw⟩ := hp
    exact shaped_layout.mknod h hc (hw.within.looked h hc) (fun _ => hw.entries_lt h hc)
      (hw.within.short place.base (by simp))
  | link source target =>
    obtain ⟨⟨d,hw⟩,t,hw'⟩ := hp
    exact shaped_layout.link h hc (hw.looked h hc) (hw'.within.looked h hc)
      (fun _ => hw'.entries_lt h hc) (hw'.within.short target.base (by simp))
  | unlink place =>
    obtain ⟨⟨d,hw⟩,hplain⟩ := hp
    have hlook := hw.looked h hc
    refine shaped_layout.unlink h hc hlook (fun f hf hfolder => ?_) (fun _ _ => trivial)
    have hpath := hlook.path
    rw [hf] at hpath
    exact hplain f hpath hfolder.2
  | rename source target =>
    obtain ⟨⟨d,hw⟩,t,hw'⟩ := hp
    exact shaped_layout.rename h hc (hw.looked h hc) (hw'.within.looked h hc)
      (fun _ _ => hw'.entries_lt h hc) (hw'.within.short target.base (by simp))
      (fun _ _ _ _ _ => trivial)

end Exec

end ComputerSystems.NufsNamespace
