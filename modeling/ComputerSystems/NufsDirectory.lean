import ComputerSystems.NufsInode
import ComputerSystems.NufsPath

/-!
# Directories of the nufs image

A directory is an inode whose first block is an array of 64-byte entries: a
name of up to 47 bytes and its NUL, the inode number at offset 48, and 12
unused bytes. All functions address the array linearly from the first block,
as `directory.c` does.
-/

namespace ComputerSystems.NufsDirectory

open StateProgram ByteMemory NufsImage NufsInode NufsPath

/-- `streq` between a C string in the image and a given one. -/
def streqAt : ℤ → List UInt8 → Nufs Bool
  | offset,[] => do
    let byte ← readByte offset
    return decide (byte=0)
  | offset,char::rest => do
    let byte ← readByte offset
    if byte=char then streqAt (offset+1) rest else return false

/-- `directory_get_entries`: the offset of the entry array. -/
def directoryGetEntries (dd : ℤ) : Nufs ℤ := do
  let first ← readInt (dd+16)
  return pagesGetPage first

/-- `dd->size / sizeof(ddirent)`: the division is made on a `size_t`. -/
def entryCount (size : ℤ) : ℤ := wrap32 (size%18446744073709551616/64)

/-- The loop shared by `directory_lookup` and `directory_delete`: the index of
the first entry with the name, with the number of entries left. -/
def findEntry (entries : ℤ) (name : List UInt8) : ℕ → ℤ → Nufs (Option ℤ)
  | 0,_ => return none
  | left+1,ii => do
    let same ← streqAt (entries+64*ii) name
    if same=true then return some ii else findEntry entries name left (ii+1)

/-- The search made by `directory_lookup` and `directory_delete`. -/
def searchDirectory (dd : ℤ) (name : List UInt8) : Nufs (Option ℤ) := do
  let entries ← directoryGetEntries dd
  let size ← readInt (dd+12)
  findEntry entries name (entryCount size).toNat 0

/-- `-ENOENT`. -/
def noEntry : ℤ := -2

/-- `-EEXIST`. -/
def exists_ : ℤ := -17

/-- `directory_lookup`. -/
def directoryLookup (dd : ℤ) (name : List UInt8) : Nufs ℤ := do
  let entries ← directoryGetEntries dd
  match ← searchDirectory dd name with
  | some ii => readInt (entries+64*ii+48)
  | none => return noEntry

/-- The loop of `tree_lookup`; an empty list is the null pointer that
`s_split` returns for an empty string. -/
def treeWalk : ℤ → List (List UInt8) → Nufs ℤ
  | _,[] => throw .segv
  | curr,[name] => do
    let dirnode ← getInode curr
    directoryLookup dirnode name
  | curr,name::next::rest => do
    let dirnode ← getInode curr
    let inum ← directoryLookup dirnode name
    treeWalk inum (next::rest)

/-- `tree_lookup`: everything after the first byte is split at slashes; the
first byte of an empty string is its NUL, and the code reads past it. -/
def treeLookup (path : List UInt8) : Nufs ℤ :=
  if path=[47] then return 0
  else if path=[] then throw .segv
  else treeWalk 0 (sSplit path.tail 47)

/-- The last statements of `directory_put`: fill the entry just before the
directory's end. -/
def fillEntry (dd : ℤ) (name : List UInt8) (inum : ℤ) : Nufs ℤ := do
  let first ← readInt (dd+16)
  let size ← readInt (dd+12)
  let slot := pagesGetPage first+size-64
  writeBytes slot (name.length+1) (fun k => name.getD k 0)
  writeInt (slot+48) inum
  return 0

/-- Add to the reference count of a record. -/
def addRefs (node change : ℤ) : Nufs Unit := do
  let refs ← readInt (node+4)
  writeInt (node+4) (refs+change)

/-- `directory_put`. -/
def directoryPut (dd : ℤ) (name : List UInt8) (inum : ℤ) : Nufs ℤ := do
  let size ← readInt (dd+12)
  let _ ← growInode dd (wrap32 (size+64))
  let node ← getInode inum
  addRefs node 1
  fillEntry dd name inum

/-- `memcpy` of one entry over another. -/
def copyEntry (target source : ℤ) : Nufs Unit := fun disk =>
  if 0 ≤ source ∧ source+64≤1048576 then
    writeBytes target 64 (fun k => disk.bytes (source.toNat+k)) disk
  else .error .segv disk

/-- Free an inode whose references are used up, as `directory_delete` does. -/
def freeUnreferenced (node : ℤ) : Nufs Unit := do
  let refs ← readInt (node+4)
  if refs≤0 then freeInode node else return ()

/-- The body of `directory_delete` for the entry it found. -/
def removeEntry (dd entries size ii : ℤ) : Nufs ℤ := do
  let inum ← readInt (entries+64*ii+48)
  let node ← getInode inum
  addRefs node (-1)
  freeUnreferenced node
  copyEntry (entries+64*ii) (entries+64*(size-1))
  let bytes ← readInt (dd+12)
  let _ ← shrinkInode dd (wrap32 (bytes-64))
  return 0

/-- `directory_delete`. -/
def directoryDelete (dd : ℤ) (name : List UInt8) : Nufs ℤ := do
  let entries ← directoryGetEntries dd
  let size ← readInt (dd+12)
  match ← searchDirectory dd name with
  | some ii => removeEntry dd entries (entryCount size) ii
  | none => return noEntry

/-! ## Effects -/

/-- Comparing names changes nothing. -/
theorem streqAt_readOnly (offset : ℤ) (name : List UInt8) : ReadOnly (streqAt offset name) := by
  induction name generalizing offset with
  | nil => exact moves_bind (readByte_readOnly _) (fun _ => moves_pure _)
  | cons char rest ih =>
    exact moves_bind (readByte_readOnly _) (fun _ => moves_ite (ih (offset+1)) (moves_pure _))

/-- Scanning entries changes nothing. -/
theorem findEntry_readOnly (entries : ℤ) (name : List UInt8) (left : ℕ) (ii : ℤ) :
    ReadOnly (findEntry entries name left ii) := by
  induction left generalizing ii with
  | zero => exact moves_pure _
  | succ left ih =>
    exact moves_bind (streqAt_readOnly _ _) (fun _ => moves_ite (moves_pure _) (ih (ii+1)))

/-- Locating the entries changes nothing. -/
theorem directoryGetEntries_readOnly (dd : ℤ) : ReadOnly (directoryGetEntries dd) :=
  moves_bind (readInt_readOnly _) (fun _ => moves_pure _)

/-- Locating the entries reads the first block pointer. -/
theorem directoryGetEntries_ok {d : ℕ} (hd : d<64) (disk : Disk) :
    directoryGetEntries (nodeOffset d) disk=.ok (pagesGetPage (ptrAt disk.bytes d 0)) disk := by
  rw [directoryGetEntries,bind_of_ok (readFirst_ok hd disk)]
  rfl

/-- Searching a directory changes nothing. -/
theorem searchDirectory_readOnly (dd : ℤ) (name : List UInt8) :
    ReadOnly (searchDirectory dd name) :=
  moves_bind (directoryGetEntries_readOnly _) (fun _ =>
    moves_bind (readInt_readOnly _) (fun _ => findEntry_readOnly _ _ _ _))

/-- `directory_lookup` changes nothing. -/
theorem directoryLookup_readOnly (dd : ℤ) (name : List UInt8) :
    ReadOnly (directoryLookup dd name) := by
  refine moves_bind (directoryGetEntries_readOnly _) (fun _ =>
    moves_bind (searchDirectory_readOnly _ _) (fun found => ?_))
  cases found with
  | some ii => exact readInt_readOnly _
  | none => exact moves_pure _

/-- Walking a path changes nothing. -/
theorem treeWalk_readOnly (curr : ℤ) (names : List (List UInt8)) :
    ReadOnly (treeWalk curr names) := by
  induction names generalizing curr with
  | nil => exact moves_throw _
  | cons name rest ih =>
    cases rest with
    | nil => exact moves_bind (getInode_readOnly _) (fun _ => directoryLookup_readOnly _ _)
    | cons next rest =>
      exact moves_bind (getInode_readOnly _) (fun _ =>
        moves_bind (directoryLookup_readOnly _ _) (fun inum => ih inum))

/-- `tree_lookup` changes nothing. -/
theorem treeLookup_readOnly (path : List UInt8) : ReadOnly (treeLookup path) := by
  unfold treeLookup
  exact moves_ite (moves_pure _) (moves_ite (moves_throw _) (treeWalk_readOnly _ _))

/-- Counting references refuses no allocation. -/
theorem addRefs_rises (node change : ℤ) : Rises Disk.denied (addRefs node change) :=
  moves_bind ((readInt_readOnly _).rises _) (fun _ => writeInt_rises _ _)

/-- Filling an entry refuses no allocation. -/
theorem fillEntry_rises (dd : ℤ) (name : List UInt8) (inum : ℤ) :
    Rises Disk.denied (fillEntry dd name inum) :=
  moves_bind ((readInt_readOnly _).rises _) (fun _ =>
    moves_bind ((readInt_readOnly _).rises _) (fun _ =>
      moves_bind (writeBytes_rises _ _ _) (fun _ =>
        moves_bind (writeInt_rises _ _) (fun _ => moves_pure _))))

/-- `directory_put` only adds refusals. -/
theorem directoryPut_rises (dd : ℤ) (name : List UInt8) (inum : ℤ) :
    Rises Disk.denied (directoryPut dd name inum) :=
  moves_bind ((readInt_readOnly _).rises _) (fun _ =>
    moves_bind (growInode_rises _ _) (fun _ =>
      moves_bind ((getInode_readOnly _).rises _) (fun _ =>
        moves_bind (addRefs_rises _ _) (fun _ => fillEntry_rises _ _ _))))

/-- Copying an entry refuses no allocation. -/
theorem copyEntry_rises (target source : ℤ) : Rises Disk.denied (copyEntry target source) := by
  intro disk
  by_cases h : 0 ≤ source ∧ source+64≤1048576
  · simp only [after,copyEntry,if_pos h]
    exact writeBytes_rises target 64 (fun k => disk.bytes (source.toNat+k)) disk
  · simp only [Below,after,copyEntry,if_neg h,Nat.le_refl]

/-- Freeing an unreferenced inode refuses no allocation. -/
theorem freeUnreferenced_rises (node : ℤ) : Rises Disk.denied (freeUnreferenced node) :=
  moves_bind ((readInt_readOnly _).rises _) (fun _ =>
    moves_ite (freeInode_rises _) (moves_pure _))

/-- Removing an entry refuses no allocation. -/
theorem removeEntry_rises (dd entries size ii : ℤ) :
    Rises Disk.denied (removeEntry dd entries size ii) :=
  moves_bind ((readInt_readOnly _).rises _) (fun _ =>
    moves_bind ((getInode_readOnly _).rises _) (fun _ =>
      moves_bind (addRefs_rises _ _) (fun _ =>
        moves_bind (freeUnreferenced_rises _) (fun _ =>
          moves_bind (copyEntry_rises _ _) (fun _ =>
            moves_bind ((readInt_readOnly _).rises _) (fun _ =>
              moves_bind (shrinkInode_rises _ _) (fun _ => moves_pure _)))))))

/-- `directory_delete` refuses no allocation. -/
theorem directoryDelete_rises (dd : ℤ) (name : List UInt8) :
    Rises Disk.denied (directoryDelete dd name) := by
  refine moves_bind ((directoryGetEntries_readOnly _).rises _) (fun _ =>
    moves_bind ((readInt_readOnly _).rises _) (fun _ =>
      moves_bind ((searchDirectory_readOnly _ _).rises _) (fun found => ?_)))
  cases found with
  | some ii => exact removeEntry_rises _ _ _ _
  | none => exact moves_pure _

end ComputerSystems.NufsDirectory
