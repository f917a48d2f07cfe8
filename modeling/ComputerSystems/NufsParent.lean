import ComputerSystems.NufsFailure
import ComputerSystems.NufsListing

/-!
# Whole paths against parent and name

`tree_lookup` walks the list that `s_split` cuts, while `storage_unlink` cuts
the string with `dirname` and `basename` and searches the parent. The two
decompositions find the same inode in every image. `storage_unlink` then
counts a reference down before `directory_delete` searches the parent again;
that search finds the same entry when the count is not among the bytes it
reads, and may find another one in an image whose directory has its entries
in the inode table.
-/

namespace ComputerSystems.NufsParent

open StateProgram ByteMemory NufsImage NufsInode NufsPath NufsDirectory NufsStorage NufsCalls
  NufsFailure NufsEntry NufsListing

/-- The bytes a search of a directory for a name can read: the compared bytes
of every entry, and the rest of the entry with its inode number. -/
def Searched (memory : Bytes) (d : ℕ) (name : List UInt8) (address : ℤ) : Prop :=
  ∃ k n : ℕ, k < (entryCount (sizeAt memory d)).toNat ∧ (n≤name.length ∨ n<64) ∧
    address=pagesGetPage (ptrAt memory d 0)+64*k+n

/-- `directory_delete` finds an entry for the name, and the entry names an inode. -/
def Removes (disk : Disk) (d : ℕ) (name : List UInt8) (inum : ℤ) : Prop :=
  ∃ ii : ℤ, searchDirectory (nodeOffset d) name disk=.ok (some ii) disk ∧
    readInt (pagesGetPage (ptrAt disk.bytes d 0)+64*ii+48) disk=.ok inum disk ∧
    directoryDelete (nodeOffset d) name disk=removeEntry (nodeOffset d)
      (pagesGetPage (ptrAt disk.bytes d 0)) (entryCount (sizeAt disk.bytes d)) ii disk

section Directory

variable {disk : Disk} {d : ℕ} {name : List UInt8}

/-- A successful lookup found an entry with the number it returned. -/
theorem lookup_found (hd : d<64) {i : ℕ}
    (h : directoryLookup (nodeOffset d) name disk=.ok (i : ℤ) disk) :
    ∃ ii : ℤ, searchDirectory (nodeOffset d) name disk=.ok (some ii) disk ∧
      readInt (pagesGetPage (ptrAt disk.bytes d 0)+64*ii+48) disk=.ok (i : ℤ) disk := by
  rw [directoryLookup,bind_of_ok (directoryGetEntries_ok hd disk)] at h
  obtain ⟨found,mid,hs,hr⟩ := bind_eq_ok.mp h
  have hmid := (searchDirectory_readOnly _ _).eq_of_ok hs
  rw [hmid] at hs hr
  cases found with
  | none =>
    have hv := (pure_eq_ok.mp hr).1
    rw [noEntry] at hv
    omega
  | some ii => exact ⟨ii,hs,hr⟩

/-- A search that finds an entry decides what `directory_delete` removes. -/
theorem removes_of_search (hd : d<64) {ii inum : ℤ}
    (hs : searchDirectory (nodeOffset d) name disk=.ok (some ii) disk)
    (hr : readInt (pagesGetPage (ptrAt disk.bytes d 0)+64*ii+48) disk=.ok inum disk) :
    Removes disk d name inum := by
  refine ⟨ii,hs,hr,?_⟩
  rw [directoryDelete,bind_of_ok (directoryGetEntries_ok hd disk),bind_of_ok (readSize_ok hd disk),
    bind_of_ok hs]

/-- Only one inode number can be named by the removed entry. -/
theorem Removes.unique {inum other : ℤ} (h : Removes disk d name inum)
    (h' : Removes disk d name other) : inum=other := by
  obtain ⟨ii,hs,hr,-⟩ := h
  obtain ⟨ii',hs',hr',-⟩ := h'
  rw [hs] at hs'
  cases hs'
  rw [hr] at hr'
  cases hr'
  rfl

/-- A search finds the same entry with the same number after a reference count
outside the bytes it reads has changed. -/
theorem removes_after_count (hd : d<64) {i : ℕ} (value : ℤ)
    (h : directoryLookup (nodeOffset d) name disk=.ok (i : ℤ) disk)
    (hapart : ∀ address, Searched disk.bytes d name address →
      address < 4096+64*i+4 ∨ 4096+64*i+8≤address) :
    Removes {disk with bytes := putInt disk.bytes (4096+64*i+4) value} d name i := by
  have hfirst : ptrAt (putInt disk.bytes (4096+64*i+4) value) d 0=ptrAt disk.bytes d 0 :=
    intAt_putInt_apart _ _ (by omega)
  obtain ⟨ii,hs,hr⟩ := lookup_found hd h
  have hbound : 0 ≤ ii ∧ ii < (entryCount (sizeAt disk.bytes d)).toNat := by
    have hscan := hs
    rw [searchDirectory,bind_of_ok (directoryGetEntries_ok hd disk),
      bind_of_ok (readSize_ok hd disk)] at hscan
    have hb := findEntry_bound _ hscan
    rw [zero_add] at hb
    exact hb
  have hsearch : searchDirectory (nodeOffset d) name
      {disk with bytes := putInt disk.bytes (4096+64*i+4) value}=
        .ok (some ii) {disk with bytes := putInt disk.bytes (4096+64*i+4) value} := by
    refine searchDirectory_agree hd ?_ ?_ ?_ hs
    · exact hfirst
    · exact intAt_putInt_apart _ _ (by omega)
    · intro start hstart k hk n hn
      have ha := hapart _ ⟨k,n,hk,Or.inl hn,rfl⟩
      rw [hstart] at ha
      exact putInt_outside _ _ (by omega)
  refine removes_of_search hd hsearch ?_
  dsimp only
  rw [hfirst]
  obtain ⟨hl,hu,hv,-⟩ := readInt_returned hr
  have hfield : ∀ k<4, ¬(4096+64*i+4≤(pagesGetPage (ptrAt disk.bytes d 0)+64*ii+48).toNat+k ∧
      (pagesGetPage (ptrAt disk.bytes d 0)+64*ii+48).toNat+k < 4096+64*i+8) := by
    intro k hk
    have ha := hapart _ ⟨ii.toNat,48+k,by omega,Or.inr (by omega),rfl⟩
    push_cast at ha
    omega
  have hsame : intAt (putInt disk.bytes (4096+64*i+4) value)
      (pagesGetPage (ptrAt disk.bytes d 0)+64*ii+48).toNat=i := by
    rw [hv]
    refine intAt_putInt_apart _ _ ?_
    have h0 := hfield 0 (by omega)
    have h3 := hfield 3 (by omega)
    omega
  rw [readInt,if_pos ⟨hl,hu⟩,hsame]

end Directory

/-- Whole-path lookup is parent-plus-name lookup in every image, so
`storage_unlink` counts down the inode that the parent's search found; the
entry `directory_delete` then removes names that inode when its reference
count is not among the bytes which that search reads. -/
theorem whole_path_agrees (front : List Component) (last : Component) (disk : Disk) :
    treeLookup (render (front++[last])) disk=
      (treeLookupStopEarly (render (front++[last])) >>= fun inum => getInode inum >>= fun node =>
        directoryLookup node (basename (render (front++[last])))) disk ∧
    ∀ d<64, ∀ i<64, treeLookupStopEarly (render (front++[last])) disk=.ok ((d : ℕ) : ℤ) disk →
      directoryLookup (nodeOffset d) (basename (render (front++[last]))) disk=
        .ok ((i : ℕ) : ℤ) disk →
      storageUnlink (render (front++[last])) disk=
        directoryDelete (nodeOffset d) (basename (render (front++[last])))
          {disk with bytes := dropRef disk.bytes i} ∧
      ((∀ address, Searched disk.bytes d last.bytes address →
          address < 4096+64*i+4 ∨ 4096+64*i+8≤address) →
        Removes {disk with bytes := dropRef disk.bytes i} d
          (basename (render (front++[last]))) i) := by
  have hwhole : treeLookup (render (front++[last])) disk=
      (treeLookupStopEarly (render (front++[last])) >>= fun inum => getInode inum >>= fun node =>
        directoryLookup node (basename (render (front++[last])))) disk := by
    rw [treeLookup_concat,basename_render,treeLookupStopEarly,dirname_render]
  refine ⟨hwhole,fun d hd i hi hl hf => ⟨?_,fun hapart => ?_⟩⟩
  · rw [bind_of_ok hl,bind_of_ok (getInode_ok hd disk),hf] at hwhole
    exact storageUnlink_eq hd hi hl hf hwhole
  · rw [basename_render] at hf ⊢
    exact removes_after_count hd _ hf hapart

/-- The name of five letters that two entries below share. -/
def nameFive : Component := ⟨[97,97,97,97,97],by simp,by decide +kernel⟩

/-- An image whose root directory has three entries in the inode table: the
records 0, 1 and 2. The last two have the same name, and byte 4 of the name is
the low byte of the record's reference count. -/
def overlaid : Disk where
  bytes := fun address => (([(4108,192),(4112,1),(4160,97),(4161,97),(4162,97),(4163,97),(4164,97),
    (4208,1),(4224,97),(4225,97),(4226,97),(4227,97),(4228,97),(4272,2)] :
      List (ℕ×UInt8)).lookup address).getD 0
  denied := 0

/-- In that image the inode counted down is 1, which changes the name of its
entry, and the entry removed is the one that names inode 2. -/
theorem other_entry_removed :
    treeLookup (render [nameFive]) overlaid=.ok 1 overlaid ∧
    storageUnlink (render [nameFive]) overlaid=
      directoryDelete (nodeOffset 0) (basename (render [nameFive]))
        {overlaid with bytes := dropRef overlaid.bytes 1} ∧
    Removes {overlaid with bytes := dropRef overlaid.bytes 1} 0 (basename (render [nameFive])) 2 ∧
    ¬Removes {overlaid with bytes := dropRef overlaid.bytes 1} 0 (basename (render [nameFive])) 1 := by
  have hl : treeLookup (render [nameFive]) overlaid=.ok ((1 : ℕ) : ℤ) overlaid :=
    (treeLookup_readOnly _).returns (by decide +kernel)
  have hparent : treeLookup (dirname (render [nameFive])) overlaid=.ok ((0 : ℕ) : ℤ) overlaid :=
    (treeLookup_readOnly _).returns (by decide +kernel)
  have hf : directoryLookup (nodeOffset 0) (basename (render [nameFive])) overlaid=
      .ok ((1 : ℕ) : ℤ) overlaid := (directoryLookup_readOnly _ _).returns (by decide +kernel)
  have hsearch : searchDirectory (nodeOffset 0) (basename (render [nameFive]))
      {overlaid with bytes := dropRef overlaid.bytes 1}=
        .ok (some 2) {overlaid with bytes := dropRef overlaid.bytes 1} :=
    (searchDirectory_readOnly _ _).returns (by decide +kernel)
  have hread : readInt (pagesGetPage (ptrAt (dropRef overlaid.bytes 1) 0 0)+64*2+48)
      {overlaid with bytes := dropRef overlaid.bytes 1}=
        .ok 2 {overlaid with bytes := dropRef overlaid.bytes 1} :=
    (readInt_readOnly _).returns (by decide +kernel)
  have hremoves := removes_of_search (by decide) hsearch hread
  have hunlink := storageUnlink_eq (show 0<64 by decide) (show 1<64 by decide) hparent hf hl
  refine ⟨hl,hunlink,hremoves,fun h => ?_⟩
  exact absurd (hremoves.unique h) (by decide)

end ComputerSystems.NufsParent
