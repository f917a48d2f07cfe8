import ComputerSystems.NufsDirectory
import Mathlib.Logic.Relation

/-!
# The storage layer of nufs

The calls that `nufsmount` makes, as `storage.c` computes them: `size_t` and
`off_t` arguments are 64-bit, file positions handed to `min` and
`inode_get_pnum` are converted to `int`, and the buffer pointer of
`storage_write` advances by 4096 bytes a round whatever was copied. Runs of
calls start from a fresh image, `storage_init` on a zeroed file.
-/

namespace ComputerSystems.NufsStorage

open StateProgram ByteMemory NufsImage NufsInode NufsPath NufsDirectory

/-- `tree_lookup_stop_early`: look up the parent. -/
def treeLookupStopEarly (path : List UInt8) : Nufs ℤ := treeLookup (dirname path)

/-- `storage_stat`. -/
def storageStat (uid : ℕ) (path : List UInt8) : Nufs (ℤ×Option Stat) := do
  let inum ← treeLookup path
  if inum<0 then return (inum,none)
  else
    let node ← getInode inum
    let stat ← inodeCopyStats uid node
    return (0,some stat)

/-- The end of the piece handled in one round: the next page boundary or the
end of the range, compared as `int` values. -/
def pieceEnd (curr limit : ℤ) : ℤ :=
  min (wrap32 (curr+4096-(curr+4096)%4096)) (wrap32 limit)

/-- One `memcpy` or `memset` into the block that holds a position. -/
def fillPiece (node curr finish : ℤ) (source : ℕ → UInt8) : Nufs Unit :=
  if finish<curr then throw .segv
  else if finish=curr then throw .hang
  else do
    let pnum ← inodeGetPnum node (wrap32 (Int.tdiv curr 4096))
    writeBytes (pagesGetPage pnum+Int.tmod curr 4096) (finish-curr).toNat source

/-- Rounds that suffice for every terminating copy loop: after the first round
positions are `int` values that move to the next page boundary or to the end. -/
def loopRounds : ℕ := 2097152

/-- One `memcpy` out of the image into the caller's buffer. -/
structure Piece where
  /-- The buffer index of the first byte written. -/
  target : ℕ
  /-- The offset of the first byte read, counted from `pages_base`. -/
  source : ℕ
  /-- The number of bytes. -/
  count : ℕ
  deriving DecidableEq

/-- A `memcpy` from an interval of the mapping; the count is a `size_t`. -/
def copyOut (target : ℕ) (offset count : ℤ) : Nufs Piece := fun disk =>
  if 0≤offset ∧ offset+count%18446744073709551616≤1048576 then
    .ok ⟨target,offset.toNat,(count%18446744073709551616).toNat⟩ disk
  else .error .segv disk

/-- One round of `storage_read` before it advances; a round that copies nothing
repeats for ever. -/
def readPiece (node curr finish : ℤ) (target : ℕ) : Nufs Piece := do
  let pnum ← inodeGetPnum node (wrap32 (Int.tdiv curr 4096))
  if finish=curr then throw .hang
  else copyOut target (pagesGetPage pnum+Int.tmod curr 4096) (finish-curr)

/-- The loop of `storage_read`, with the copies it makes; positions are compared
as `size_t`, and the buffer pointer advances by 4096 bytes a round. -/
def readLoop (node total : ℤ) : ℕ → ℤ → ℕ → Nufs (List Piece)
  | 0,_,_ => throw .hang
  | left+1,curr,skipped =>
    if curr%18446744073709551616<total then do
      let piece ← readPiece node curr (pieceEnd curr total) skipped
      let rest ← readLoop node total left (pieceEnd curr total) (skipped+4096)
      return piece::rest
    else return []

/-- The size that `storage_read` goes on with: `node->size - offset` is an
`off_t`, compared and assigned as a `size_t`. -/
def readSize (old offset : ℤ) (size : ℕ) : ℤ :=
  if (old-offset)%18446744073709551616 < size then (old-offset)%18446744073709551616 else size

/-- `storage_read`: the result and the copies into the buffer. -/
def storageRead (path : List UInt8) (size : UInt64) (offset : Int64) : Nufs (ℤ×List Piece) := do
  let inum ← treeLookup path
  if inum<0 then return (inum,[])
  else
    let node ← getInode inum
    let old ← readInt (node+12)
    let count := readSize old offset.toInt size.toNat
    let pieces ← readLoop node ((offset.toInt+count)%18446744073709551616) loopRounds
      offset.toInt 0
    return (wrap32 count,pieces)

/-- The copy loop of `storage_write`; positions are compared as `size_t`. -/
def writeLoop (node : ℤ) (buf : ℕ → UInt8) (total : ℤ) : ℕ → ℤ → ℕ → Nufs Unit
  | 0,_,_ => throw .hang
  | left+1,curr,skipped =>
    if curr%18446744073709551616<total then do
      fillPiece node curr (pieceEnd curr total) (fun k => buf (skipped+k))
      writeLoop node buf total left (pieceEnd curr total) (skipped+4096)
    else return ()

/-- The resizing step of `storage_write`. -/
def resizeForWrite (node size writeSize : ℤ) : Nufs Unit :=
  if size<writeSize then do
    let _ ← growInode node writeSize
    return ()
  else if writeSize < size then do
    let _ ← shrinkInode node writeSize
    return ()
  else return ()

/-- `storage_write`; `buf` is the memory from the buffer pointer on. -/
def storageWrite (path : List UInt8) (buf : ℕ → UInt8) (size : UInt64) (offset : Int64) : Nufs ℤ := do
  let inum ← treeLookup path
  if inum<0 then return inum
  else
    let node ← getInode inum
    let old ← readInt (node+12)
    resizeForWrite node old (wrap32 (offset.toInt+size.toNat))
    writeLoop node buf ((offset.toInt+size.toNat)%18446744073709551616) loopRounds offset.toInt 0
    return wrap32 size.toNat

/-- The clearing loop of `storage_truncate`; positions are signed. -/
def truncateLoop (node size : ℤ) : ℕ → ℤ → Nufs Unit
  | 0,_ => throw .hang
  | left+1,curr =>
    if curr < size then do
      fillPiece node curr (pieceEnd curr size) (fun _ => 0)
      truncateLoop node size left (pieceEnd curr size)
    else return ()

/-- The growing branch of `storage_truncate`. -/
def extendInode (node old size : ℤ) : Nufs ℤ := do
  let _ ← growInode node (wrap32 size)
  truncateLoop node size loopRounds old
  return 0

/-- `storage_truncate`. -/
def storageTruncate (path : List UInt8) (size : Int64) : Nufs ℤ := do
  let inum ← treeLookup path
  if inum<0 then return inum
  else
    let node ← getInode inum
    let old ← readInt (node+12)
    if old < size.toInt then extendInode node old size.toInt
    else if size.toInt<old then do
      let _ ← shrinkInode node (wrap32 size.toInt)
      return 0
    else return 0

/-- The branch of `storage_mknod` for an absent name. -/
def createNode (dd : ℤ) (file : List UInt8) (mode : ℤ) : Nufs ℤ := do
  let inum ← allocInode
  let node ← getInode inum
  writeInt (node+8) mode
  let node ← getInode inum
  writeInt (node+4) 1
  directoryPut dd file inum

/-- `storage_mknod`. -/
def storageMknod (path : List UInt8) (mode : ℤ) : Nufs ℤ :=
  if path.head?≠some 47 then return noEntry
  else do
    let dirInum ← treeLookupStopEarly path
    if dirInum<0 then return dirInum
    else
      let dd ← getInode dirInum
      let found ← directoryLookup dd (basename path)
      if 0<found then return exists_
      else createNode dd (basename path) mode

/-- The branch of `storage_unlink` for a name that was found. -/
def dropName (path : List UInt8) (dirInum : ℤ) : Nufs ℤ := do
  let pathInum ← treeLookup path
  let node ← getInode pathInum
  addRefs node (-1)
  let dd ← getInode dirInum
  directoryDelete dd (basename path)

/-- `storage_unlink`. -/
def storageUnlink (path : List UInt8) : Nufs ℤ := do
  let dirInum ← treeLookupStopEarly path
  if dirInum<0 then return dirInum
  else
    let dd ← getInode dirInum
    let inum ← directoryLookup dd (basename path)
    if inum<0 then return inum else dropName path dirInum

/-- The branch of `storage_link` that adds the new name. -/
def addName (toDir : ℤ) (toFile : List UInt8) (fromInum : ℤ) : Nufs ℤ := do
  let toNode ← getInode toDir
  let rv ← directoryPut toNode toFile fromInum
  let node ← getInode fromInum
  addRefs node 1
  return rv

/-- `storage_link` after its first lookup succeeded. -/
def linkTo (dest : List UInt8) (fromInum : ℤ) : Nufs ℤ := do
  let toDir ← treeLookupStopEarly dest
  if toDir<0 then return toDir
  else
    let toNode ← getInode toDir
    let found ← directoryLookup toNode (basename dest)
    if found<0 then addName toDir (basename dest) fromInum else return exists_

/-- `storage_link`. -/
def storageLink (source dest : List UInt8) : Nufs ℤ := do
  let fromDir ← treeLookupStopEarly source
  if fromDir<0 then return fromDir
  else
    let fromNode ← getInode fromDir
    let fromInum ← directoryLookup fromNode (basename source)
    if fromInum<0 then return fromInum else linkTo dest fromInum

/-- The branch of `storage_rename` that moves the name. -/
def moveName (dirInum dirInumTo : ℤ) (file toFile : List UInt8) (inum : ℤ) : Nufs ℤ := do
  let ddTo ← getInode dirInumTo
  let rv ← directoryPut ddTo toFile inum
  let dd ← getInode dirInum
  let _ ← directoryDelete dd file
  return rv

/-- `storage_rename`. -/
def storageRename (path dest : List UInt8) : Nufs ℤ := do
  let dirInum ← treeLookupStopEarly path
  if dirInum<0 then return dirInum
  else
    let dd ← getInode dirInum
    let inum ← directoryLookup dd (basename path)
    if inum<0 then return inum
    else
      let dirInumTo ← treeLookupStopEarly dest
      if dirInumTo<0 then return dirInumTo
      else moveName dirInum dirInumTo (basename path) (basename dest) inum

/-! ## Effects on the history variable -/

/-- One piece refuses no allocation. -/
theorem fillPiece_rises (node curr finish : ℤ) (source : ℕ → UInt8) :
    Rises Disk.denied (fillPiece node curr finish source) := by
  unfold fillPiece
  exact moves_ite (moves_throw _) (moves_ite (moves_throw _)
    (moves_bind ((inodeGetPnum_readOnly _ _).rises _) (fun _ => writeBytes_rises _ _ _)))

/-- The copy loop refuses no allocation. -/
theorem writeLoop_rises (node : ℤ) (buf : ℕ → UInt8) (total : ℤ) (left : ℕ) :
    ∀ (curr : ℤ) (skipped : ℕ), Rises Disk.denied (writeLoop node buf total left curr skipped) := by
  induction left with
  | zero => exact fun _ _ => moves_throw _
  | succ left ih =>
    intro curr skipped
    unfold writeLoop
    exact moves_ite (moves_bind (fillPiece_rises _ _ _ _) (fun _ => ih _ _)) (moves_pure _)

/-- The clearing loop refuses no allocation. -/
theorem truncateLoop_rises (node size : ℤ) (left : ℕ) :
    ∀ curr : ℤ, Rises Disk.denied (truncateLoop node size left curr) := by
  induction left with
  | zero => exact fun _ => moves_throw _
  | succ left ih =>
    intro curr
    unfold truncateLoop
    exact moves_ite (moves_bind (fillPiece_rises _ _ _ _) (fun _ => ih _)) (moves_pure _)

/-- Resizing only adds refusals. -/
theorem resizeForWrite_rises (node size writeSize : ℤ) :
    Rises Disk.denied (resizeForWrite node size writeSize) := by
  unfold resizeForWrite
  exact moves_ite (moves_bind (growInode_rises _ _) (fun _ => moves_pure _))
    (moves_ite (moves_bind (shrinkInode_rises _ _) (fun _ => moves_pure _)) (moves_pure _))

/-! ## Runs -/

/-- One call of the storage layer that may change the image. -/
inductive Call
  /-- `storage_mknod(path, mode)`. -/
  | mknod (path : List UInt8) (mode : ℤ)
  /-- `storage_link(from, to)`. -/
  | link (source dest : List UInt8)
  /-- `storage_unlink(path)`. -/
  | unlink (path : List UInt8)
  /-- `storage_rename(path, to)`. -/
  | rename (path dest : List UInt8)
  /-- `storage_write(path, buf, size, offset)`. -/
  | write (path : List UInt8) (buf : ℕ → UInt8) (size : UInt64) (offset : Int64)
  /-- `storage_truncate(path, size)`. -/
  | truncate (path : List UInt8) (size : Int64)

/-- Run one call. -/
def exec : Call → Nufs ℤ
  | .mknod path mode => storageMknod path mode
  | .link source dest => storageLink source dest
  | .unlink path => storageUnlink path
  | .rename path dest => storageRename path dest
  | .write path buf size offset => storageWrite path buf size offset
  | .truncate path size => storageTruncate path size

/-- `pages_init` and `inode_init` on a mapped image. -/
def storageInitPages : Nufs Unit := do
  bitmapPut getPagesBitmap 0 1
  let marked ← bitmapGet getPagesBitmap 1
  if marked=0 then
    let page ← allocPage
    if page=1 then return () else throw .abort
  else return ()

/-- The creation of the root inode in `storage_init`. -/
def makeRoot : Nufs Unit := do
  let inum ← allocInode
  if inum=0 then
    let root ← getInode 0
    writeInt (root+8) 16877
  else throw .abort

/-- `storage_init` on a mapped image; the root gets mode 040755. -/
def storageInit : Nufs Unit := do
  storageInitPages
  let marked ← bitmapGet getInodeBitmap 0
  if marked=0 then makeRoot
  else
    let root ← getInode 0
    let mode ← readInt (root+8)
    if mode≠0 then return () else throw .abort

/-- The image of a zeroed file. -/
def zeroed : Disk := ⟨fun _ => 0,0⟩

/-- A fresh image. -/
def fresh : Disk := after storageInit zeroed

/-- One call that returned without any refused allocation, taken under a
condition on the state before it. -/
def Step (condition : Disk → Call → Prop) (disk next : Disk) : Prop :=
  ∃ call result, condition disk call ∧ exec call disk=.ok result next ∧ next.denied=disk.denied

/-- The states reached from a fresh image by such calls. -/
def Reachable (condition : Disk → Call → Prop) (disk : Disk) : Prop :=
  Relation.ReflTransGen (Step condition) fresh disk

/-- The state after a list of calls. -/
def execAll : List Call → Disk → Disk
  | [],disk => disk
  | call::rest,disk => execAll rest (after (exec call) disk)

/-- Every call of a list returns without a refused allocation. -/
def allReturn : List Call → Disk → Bool
  | [],_ => true
  | call::rest,disk => passes (exec call) disk (fun _ next => decide (next.denied=disk.denied)) &&
      allReturn rest (after (exec call) disk)

/-- A run goes on with a call that returns without a refused allocation. -/
theorem Reachable.call {condition : Disk → Call → Prop} {disk : Disk} (h : Reachable condition disk)
    {call : Call} (hc : condition disk call) (hp : passes (exec call) disk
      (fun _ next => decide (next.denied=disk.denied))=true) :
    Reachable condition (after (exec call) disk) := by
  obtain ⟨result,hresult,hd⟩ := returned_of_passes hp
  exact Relation.ReflTransGen.tail h ⟨call,result,hc,hresult,of_decide_eq_true hd⟩

/-- A list of calls that all return is a run. -/
theorem reachable_of_calls {calls : List Call} {disk : Disk} (h : Reachable (fun _ _ => True) disk)
    (hr : allReturn calls disk=true) : Reachable (fun _ _ => True) (execAll calls disk) := by
  induction calls generalizing disk with
  | nil => exact h
  | cons call rest ih =>
    obtain ⟨hfirst,hrest⟩ := Bool.and_eq_true_iff.mp hr
    exact ih (h.call trivial hfirst) hrest

end ComputerSystems.NufsStorage
