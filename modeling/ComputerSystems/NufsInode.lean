import ComputerSystems.NufsImage

/-!
# Inodes of the nufs image

An inode record has 64 bytes: the `int` fields `inum`, `refs`, `mode`, `size`,
two direct block pointers and one indirect pointer at offsets 0 to 24, and two
timestamps from offset 32 on. The functions follow `inode.c`, including the
block index that `shrink_inode` passes to `inode_get_pnum` and its
unconditional release of the indirect page.
-/

namespace ComputerSystems.NufsInode

open StateProgram ByteMemory NufsImage

/-- `bytes_to_pages`, with the truncating division of C. -/
def bytesToPages (bytes : ℤ) : ℤ :=
  if Int.tmod bytes 4096=0 then Int.tdiv bytes 4096 else Int.tdiv bytes 4096+1

/-- `get_inode`: the offset of a record in the table; its index times the
record size must be below 4096 as a `size_t`. -/
def getInode (inum : ℤ) : Nufs ℤ :=
  if inum*64%18446744073709551616<4096 then return pagesGetPage 1+64*inum
  else throw .abort

/-- What `alloc_inode` does with the inode it found: mark it and set its
number and size; every other field keeps its old bytes. -/
def takeInode (ii : ℤ) : Nufs ℤ := do
  bitmapPut getInodeBitmap ii 1
  let node ← getInode ii
  writeInt node ii
  writeInt (node+12) 0
  return ii

/-- `alloc_inode`: the first unmarked inode. -/
def allocInode : Nufs ℤ := allocFrom getInodeBitmap takeInode 64 0

/-- `free_inode`: clear the mark named by the record's own number. -/
def freeInode (node : ℤ) : Nufs Unit := do
  let inum ← readInt node
  bitmapPut getInodeBitmap inum 0

/-- `inode_get_pnum`: block numbers 0 and 1 are direct, the others are entries
of the indirect page. -/
def inodeGetPnum (node fpn : ℤ) : Nufs ℤ :=
  if fpn<2 then readInt (node+16+4*fpn)
  else do
    let iptr ← readInt (node+24)
    readInt (pagesGetPage iptr+4*(fpn-2))

/-- The branch of `grow_inode` that appends an entry to the indirect page. -/
def growIndirect (node blocks : ℤ) : Nufs Unit := do
  let iptr ← readInt (node+24)
  let page ← allocPage
  writeInt (pagesGetPage iptr+4*(blocks-2)) page

/-- The branch of `grow_inode` that first takes the indirect page. -/
def growFirstIndirect (node : ℤ) : Nufs Unit := do
  let page ← allocPage
  writeInt (node+24) page
  growIndirect node 2

/-- One round of the loop of `grow_inode`. -/
def growBlock (node blocks : ℤ) : Nufs Unit :=
  if blocks<2 then do
    let page ← allocPage
    writeInt (node+16+4*blocks) page
  else if blocks=2 then growFirstIndirect node
  else growIndirect node blocks

/-- The loop of `grow_inode`, with the number of rounds left. -/
def growLoop (node : ℤ) : ℕ → ℤ → Nufs Unit
  | 0,_ => return ()
  | left+1,blocks => do
    growBlock node blocks
    growLoop node left (blocks+1)

/-- `grow_inode`. -/
def growInode (node size : ℤ) : Nufs ℤ := do
  let old ← readInt (node+12)
  growLoop node (bytesToPages size-bytesToPages old).toNat (bytesToPages old)
  writeInt (node+12) size
  readInt (node+12)

/-- The loop of `shrink_inode`, with the number of rounds left: each round
frees the page of block `blocks`, counted from the end. -/
def shrinkLoop (node : ℤ) : ℕ → ℤ → Nufs Unit
  | 0,_ => return ()
  | left+1,blocks => do
    let pnum ← inodeGetPnum node blocks
    freePage pnum
    shrinkLoop node left (blocks-1)

/-- The release of the indirect page at the end of `shrink_inode`. -/
def shrinkIndirect (node blocks : ℤ) : Nufs Unit :=
  if blocks≤2 then do
    let iptr ← readInt (node+24)
    freePage iptr
  else return ()

/-- `shrink_inode`. -/
def shrinkInode (node size : ℤ) : Nufs ℤ := do
  let old ← readInt (node+12)
  shrinkLoop node (bytesToPages old-bytesToPages size).toNat (bytesToPages old)
  shrinkIndirect node (bytesToPages size)
  writeInt (node+12) size
  readInt (node+12)

/-- Read a `long` of the mapping. -/
def readLong (offset : ℤ) : Nufs ℤ := fun disk =>
  if 0≤offset ∧ offset+8≤1048576 then
    .ok (Int.bmod (wordAt disk.bytes offset.toNat 8) 18446744073709551616) disk
  else .error .segv disk

/-- The fields of `struct stat` that `inode_copy_stats` fills. -/
structure Stat where
  /-- `st_mode`. -/
  mode : ℤ
  /-- `st_size`. -/
  size : ℤ
  /-- `st_atim`, seconds and nanoseconds. -/
  atim : ℤ×ℤ
  /-- `st_mtim`, seconds and nanoseconds. -/
  mtim : ℤ×ℤ
  /-- `st_uid`. -/
  uid : ℕ
  /-- `st_nlink`. -/
  nlink : ℤ
  deriving DecidableEq

/-- `inode_copy_stats`; the caller's user id is a parameter. -/
def inodeCopyStats (uid : ℕ) (node : ℤ) : Nufs Stat := do
  let mode ← readInt (node+8)
  let size ← readInt (node+12)
  let asec ← readLong (node+32)
  let ansec ← readLong (node+40)
  let msec ← readLong (node+48)
  let mnsec ← readLong (node+56)
  let refs ← readInt (node+4)
  return ⟨mode,size,(asec,ansec),(msec,mnsec),uid,refs⟩

/-! ## Fields of a record -/

/-- The number stored in a record. -/
def inumAt (memory : Bytes) (inum : ℕ) : ℤ := intAt memory (4096+64*inum)

/-- The reference count stored in a record. -/
def refsAt (memory : Bytes) (inum : ℕ) : ℤ := intAt memory (4096+64*inum+4)

/-- The mode stored in a record. -/
def modeAt (memory : Bytes) (inum : ℕ) : ℤ := intAt memory (4096+64*inum+8)

/-- The size stored in a record. -/
def sizeAt (memory : Bytes) (inum : ℕ) : ℤ := intAt memory (4096+64*inum+12)

/-- A direct block pointer stored in a record. -/
def ptrAt (memory : Bytes) (inum k : ℕ) : ℤ := intAt memory (4096+64*inum+16+4*k)

/-- The indirect pointer stored in a record. -/
def iptrAt (memory : Bytes) (inum : ℕ) : ℤ := intAt memory (4096+64*inum+24)

/-- The offset of a record. -/
def nodeOffset (inum : ℕ) : ℤ := ((4096+64*inum : ℕ) : ℤ)

/-- `get_inode` accepts the 64 table indices. -/
theorem getInode_ok {inum : ℕ} (h : inum<64) (disk : Disk) :
    getInode inum disk=.ok (nodeOffset inum) disk := by
  have hp : pagesGetPage 1=4096 := by decide +kernel
  unfold getInode nodeOffset
  rw [if_pos (by omega),hp]
  push_cast
  rfl

/-- `get_inode` returns for table indices only, in the unchanged disk. -/
theorem getInode_returned {inum node : ℤ} {disk next : Disk}
    (hr : -2147483648 ≤ inum ∧ inum<2147483648) (h : getInode inum disk=.ok node next) :
    ∃ i : ℕ, inum=i ∧ i<64 ∧ node=nodeOffset i ∧ next=disk := by
  by_cases hc : inum*64%18446744073709551616<4096
  · have hi : 0 ≤ inum ∧ inum<64 := by omega
    obtain ⟨i,rfl⟩ := Int.eq_ofNat_of_zero_le hi.1
    rw [getInode_ok (by omega)] at h
    cases h
    exact ⟨i,rfl,by omega,rfl,rfl⟩
  · unfold getInode at h
    rw [if_neg hc] at h
    cases h

/-- Fields of a record are read where the table stores them. -/
theorem readField_ok {inum : ℕ} (field : ℕ) (hi : inum<64) (hf : field+4≤64) (disk : Disk) :
    readInt (nodeOffset inum+field) disk=.ok (intAt disk.bytes (4096+64*inum+field)) disk := by
  have h := readInt_ok (show 4096+64*inum+field+4≤1048576 by omega) disk
  rw [Nat.cast_add] at h
  exact h

/-- Fields of a record are written where the table stores them. -/
theorem writeField_ok {inum : ℕ} (field : ℕ) (hi : inum<64) (hf : field+4≤64) (value : ℤ) (disk : Disk) :
    writeInt (nodeOffset inum+field) value disk=
      .ok () {disk with bytes := putInt disk.bytes (4096+64*inum+field) value} := by
  have h := writeInt_ok (show 4096+64*inum+field+4≤1048576 by omega) value disk
  rw [Nat.cast_add] at h
  exact h

/-- The size field is read. -/
theorem readSize_ok {inum : ℕ} (hi : inum<64) (disk : Disk) :
    readInt (nodeOffset inum+12) disk=.ok (sizeAt disk.bytes inum) disk :=
  readField_ok 12 hi (by omega) disk

/-- The size field is written. -/
theorem writeSize_ok {inum : ℕ} (hi : inum<64) (value : ℤ) (disk : Disk) :
    writeInt (nodeOffset inum+12) value disk=
      .ok () {disk with bytes := putInt disk.bytes (4096+64*inum+12) value} :=
  writeField_ok 12 hi (by omega) value disk

/-- The indirect pointer is read. -/
theorem readIptr_ok {inum : ℕ} (hi : inum<64) (disk : Disk) :
    readInt (nodeOffset inum+24) disk=.ok (iptrAt disk.bytes inum) disk :=
  readField_ok 24 hi (by omega) disk

/-- The indirect pointer is written. -/
theorem writeIptr_ok {inum : ℕ} (hi : inum<64) (value : ℤ) (disk : Disk) :
    writeInt (nodeOffset inum+24) value disk=
      .ok () {disk with bytes := putInt disk.bytes (4096+64*inum+24) value} :=
  writeField_ok 24 hi (by omega) value disk

/-- The first block pointer is read. -/
theorem readFirst_ok {inum : ℕ} (hi : inum<64) (disk : Disk) :
    readInt (nodeOffset inum+16) disk=.ok (ptrAt disk.bytes inum 0) disk :=
  readField_ok 16 hi (by omega) disk

/-- The reference count is read. -/
theorem readRefs_ok {inum : ℕ} (hi : inum<64) (disk : Disk) :
    readInt (nodeOffset inum+4) disk=.ok (refsAt disk.bytes inum) disk :=
  readField_ok 4 hi (by omega) disk

/-- The reference count is written. -/
theorem writeRefs_ok {inum : ℕ} (hi : inum<64) (value : ℤ) (disk : Disk) :
    writeInt (nodeOffset inum+4) value disk=
      .ok () {disk with bytes := putInt disk.bytes (4096+64*inum+4) value} :=
  writeField_ok 4 hi (by omega) value disk

/-- For sizes that are not negative `bytes_to_pages` rounds up. -/
theorem bytesToPages_natCast (bytes : ℕ) :
    bytesToPages bytes=(((bytes+4095)/4096 : ℕ) : ℤ) := by
  unfold bytesToPages
  rw [Int.tmod_eq_emod_of_nonneg (by omega),Int.tdiv_eq_ediv_of_nonneg (by omega)]
  split <;> omega

/-! ## Effects on the history variable -/

/-- Locating a record changes nothing. -/
theorem getInode_readOnly (inum : ℤ) : ReadOnly (getInode inum) := by
  unfold getInode
  exact moves_ite (moves_pure _) (moves_throw _)

/-- Freeing an inode refuses nothing. -/
theorem freeInode_rises (node : ℤ) : Rises Disk.denied (freeInode node) :=
  moves_bind ((readInt_readOnly _).rises _) (fun _ => bitmapPut_rises _ _ _)

/-- Reading a block pointer changes nothing. -/
theorem inodeGetPnum_readOnly (node fpn : ℤ) : ReadOnly (inodeGetPnum node fpn) := by
  unfold inodeGetPnum
  exact moves_ite (readInt_readOnly _) (moves_bind (readInt_readOnly _) (fun _ => readInt_readOnly _))

/-- Appending an indirect entry only adds refusals. -/
theorem growIndirect_rises (node blocks : ℤ) : Rises Disk.denied (growIndirect node blocks) :=
  moves_bind ((readInt_readOnly _).rises _) (fun _ =>
    moves_bind allocPage_rises (fun _ => writeInt_rises _ _))

/-- Taking the indirect page only adds refusals. -/
theorem growFirstIndirect_rises (node : ℤ) : Rises Disk.denied (growFirstIndirect node) :=
  moves_bind allocPage_rises (fun _ =>
    moves_bind (writeInt_rises _ _) (fun _ => growIndirect_rises _ _))

/-- A round of growing only adds refusals. -/
theorem growBlock_rises (node blocks : ℤ) : Rises Disk.denied (growBlock node blocks) := by
  unfold growBlock
  exact moves_ite (moves_bind allocPage_rises (fun _ => writeInt_rises _ _))
    (moves_ite (growFirstIndirect_rises _) (growIndirect_rises _ _))

/-- The growing loop only adds refusals. -/
theorem growLoop_rises (node : ℤ) (left : ℕ) (blocks : ℤ) :
    Rises Disk.denied (growLoop node left blocks) := by
  induction left generalizing blocks with
  | zero => exact moves_pure _
  | succ left ih => exact moves_bind (growBlock_rises _ _) (fun _ => ih (blocks+1))

/-- Growing only adds refusals. -/
theorem growInode_rises (node size : ℤ) : Rises Disk.denied (growInode node size) :=
  moves_bind ((readInt_readOnly _).rises _) (fun _ =>
    moves_bind (growLoop_rises _ _ _) (fun _ =>
      moves_bind (writeInt_rises _ _) (fun _ => (readInt_readOnly _).rises _)))

/-- The shrinking loop refuses nothing. -/
theorem shrinkLoop_rises (node : ℤ) (left : ℕ) (blocks : ℤ) :
    Rises Disk.denied (shrinkLoop node left blocks) := by
  induction left generalizing blocks with
  | zero => exact moves_pure _
  | succ left ih =>
    exact moves_bind ((inodeGetPnum_readOnly _ _).rises _) (fun _ =>
      moves_bind (freePage_rises _) (fun _ => ih (blocks-1)))

/-- The release of the indirect page refuses nothing. -/
theorem shrinkIndirect_rises (node blocks : ℤ) : Rises Disk.denied (shrinkIndirect node blocks) := by
  unfold shrinkIndirect
  exact moves_ite (moves_bind ((readInt_readOnly _).rises _) (fun _ => freePage_rises _))
    (moves_pure _)

/-- Shrinking refuses nothing. -/
theorem shrinkInode_rises (node size : ℤ) : Rises Disk.denied (shrinkInode node size) :=
  moves_bind ((readInt_readOnly _).rises _) (fun _ =>
    moves_bind (shrinkLoop_rises _ _ _) (fun _ =>
      moves_bind (shrinkIndirect_rises _ _) (fun _ =>
        moves_bind (writeInt_rises _ _) (fun _ => (readInt_readOnly _).rises _))))

/-! ## The inode allocator -/

/-- The memory after `alloc_inode` took an inode. -/
def withInode (memory : Bytes) (inum : ℕ) : Bytes :=
  putInt (putInt (putBit memory 32 inum true) (4096+64*inum) inum) (4096+64*inum+12) 0

/-- Taking an inode marks it and writes its number and size. -/
theorem takeInode_ok {inum : ℕ} (h : inum<64) (disk : Disk) :
    takeInode inum disk=.ok (inum : ℤ) {disk with bytes := withInode disk.bytes inum} := by
  have hnumber := fun next => writeField_ok 0 h (by omega) inum next
  have hsize := fun next => writeField_ok 12 h (by omega) 0 next
  simp only [Nat.cast_zero,add_zero] at hnumber
  rw [takeInode,getInodeBitmap_eq,bind_of_ok (bitmapPut_ok (by omega) 1 disk),
    bind_of_ok (getInode_ok h _),bind_of_ok (hnumber _)]
  exact bind_of_ok (hsize _)

/-- `alloc_inode` takes the least unmarked inode, or returns -1 when all 64
are marked. -/
theorem allocInode_spec (disk : Disk) :
    (∃ inum, inum<64 ∧ inodeBit disk.bytes inum=false ∧
      (∀ earlier, earlier < inum → inodeBit disk.bytes earlier=true) ∧
      allocInode disk=.ok (inum : ℤ) {disk with bytes := withInode disk.bytes inum}) ∨
    ((∀ inum, inum<64 → inodeBit disk.bytes inum=true) ∧
      allocInode disk=.ok (-1) {disk with denied := disk.denied+1}) := by
  have h := allocFrom_spec 32 takeInode 64 0 (by omega) disk
  rw [allocInode,getInodeBitmap_eq]
  rcases h with ⟨inum,_,hr,hp,he,hd⟩|⟨ha,hd⟩
  · left
    exact ⟨inum,by omega,hp,fun earlier => he earlier (Nat.zero_le _),
      hd.trans (takeInode_ok (by omega) disk)⟩
  · right
    exact ⟨fun inum hi => ha inum (Nat.zero_le _) (by omega),hd⟩

/-- The number of inodes `alloc_inode` can still hand out. -/
def freeInodes (memory : Bytes) : ℕ :=
  ((Finset.range 64).filter (fun inum => inodeBit memory inum=false)).card

/-- Taking an inode writes its record in the table, so every bit of page 0 but
its own mark keeps its value. -/
theorem bitAt_withInode (memory : Bytes) {inum bm ii : ℕ} (hbm : bm+ii/8<4096) :
    bitAt (withInode memory inum) bm ii=bitAt (putBit memory 32 inum true) bm ii := by
  refine bitAt_congr ?_
  rw [withInode,putInt_outside _ _ (by omega),putInt_outside _ _ (by omega)]

/-- Page marks and inode marks lie in different bytes. -/
theorem pageBit_putInodeBit (memory : Bytes) {page inum : ℕ} (value : Bool) (hp : page<256) :
    pageBit (putBit memory 32 inum value) page=pageBit memory page :=
  bitAt_putBit_other memory value (Or.inl (by omega))

/-- Inode marks and page marks lie in different bytes. -/
theorem inodeBit_putPageBit (memory : Bytes) {page inum : ℕ} (value : Bool) (hp : page<256) :
    inodeBit (putBit memory 0 page value) inum=inodeBit memory inum :=
  bitAt_putBit_other memory value (Or.inl (by omega))

/-- Two bits of one bitmap are different bits of the image. -/
theorem bitAt_putBit_ne (memory : Bytes) {bm ii jj : ℕ} (value : Bool) (h : jj≠ii) :
    bitAt (putBit memory bm ii value) bm jj=bitAt memory bm jj :=
  bitAt_putBit_other memory value (by omega)

/-- `free_inode` clears the mark of the number its record holds. -/
theorem freeInode_ok {node : ℤ} {inum : ℕ} {disk : Disk}
    (h : readInt node disk=.ok (inum : ℤ) disk) (hi : inum<64) :
    freeInode node disk=.ok () {disk with bytes := putBit disk.bytes 32 inum false} := by
  rw [freeInode,getInodeBitmap_eq,bind_of_ok h,bitmapPut_ok (by omega)]
  simp only [ne_eq,not_true_eq_false,decide_false]

/-- What a bitmap allocator over the candidates `first` to `stop-1` does:
it takes the least unmarked one and marks that one only, and it refuses,
changing no byte, exactly when all of them are marked. -/
structure TakesLeast (bm first stop : ℕ) (run : Nufs ℤ) (disk : Disk) : Prop where
  /-- The least unmarked candidate is returned, and its mark alone changes. -/
  taken : (∃ ii, first ≤ ii ∧ ii<stop ∧ bitAt disk.bytes bm ii=false) →
    ∃ (found : ℕ) (next : Disk), run disk=.ok (found : ℤ) next ∧ first≤found ∧ found<stop ∧
      bitAt disk.bytes bm found=false ∧
      (∀ earlier, first≤earlier → earlier<found → bitAt disk.bytes bm earlier=true) ∧
      bitAt next.bytes bm found=true ∧
      ∀ other, other<stop → other≠found → bitAt next.bytes bm other=bitAt disk.bytes bm other
  /-- A refusal means that every candidate is marked. -/
  refused : (∀ ii, first ≤ ii → ii<stop → bitAt disk.bytes bm ii=true) ↔
    ∃ next, run disk=.ok (-1) next ∧ next.bytes=disk.bytes
  /-- The allocator returns one of the two ways. -/
  returns : ∃ value next, run disk=.ok value next ∧ (value=-1 → next.bytes=disk.bytes)

/-- An allocator whose scan ends in a mark or in a refusal takes the least
unmarked candidate. -/
theorem TakesLeast.of_spec {bm first stop : ℕ} {run : Nufs ℤ} {disk : Disk} {marked : ℕ → Bytes}
    (hb : ∀ ii jj, jj<stop → bitAt (marked ii) bm jj=bitAt (putBit disk.bytes bm ii true) bm jj)
    (h : (∃ found, first≤found ∧ found<stop ∧ bitAt disk.bytes bm found=false ∧
        (∀ earlier, first≤earlier → earlier<found → bitAt disk.bytes bm earlier=true) ∧
        run disk=.ok (found : ℤ) {disk with bytes := marked found}) ∨
      ((∀ ii, first ≤ ii → ii<stop → bitAt disk.bytes bm ii=true) ∧
        run disk=.ok (-1) {disk with denied := disk.denied+1})) :
    TakesLeast bm first stop run disk := by
  rcases h with ⟨found,hl,hr,hp,he,hd⟩|⟨ha,hd⟩
  · refine ⟨fun _ => ⟨found,_,hd,hl,hr,hp,he,?_,?_⟩,⟨?_,?_⟩,⟨_,_,hd,?_⟩⟩
    · rw [hb _ _ hr,bitAt_putBit]
    · intro other ho hne
      rw [hb _ _ ho,bitAt_putBit_ne _ _ hne]
    · intro hall
      rw [hall found hl hr] at hp
      cases hp
    · rintro ⟨next,hn,_⟩
      rw [hd,EStateM.Result.ok.injEq] at hn
      omega
    · intro hv
      omega
  · refine ⟨?_,⟨fun _ => ⟨_,hd,rfl⟩,fun _ => ha⟩,⟨_,_,hd,fun _ => rfl⟩⟩
    rintro ⟨ii,hl,hr,hp⟩
    rw [ha ii hl hr] at hp
    cases hp

/-- The bitmap operations and allocators, on every image. -/
theorem bitmap_allocators :
    (∀ (bm ii : ℕ) (vv : ℤ) (disk : Disk), bm+ii/8<1048576 →
      ∃ next, bitmapPut bm ii vv disk=.ok () next ∧
        (∃ value, bitmapGet bm ii next=.ok value next ∧ (value≠0 ↔ vv≠0)) ∧
        ∀ jj : ℕ, bm+jj/8<1048576 → jj≠ii → ∃ value,
          bitmapGet bm jj disk=.ok value disk ∧ bitmapGet bm jj next=.ok value next) ∧
    (∀ (bm ii : ℕ) (disk : Disk), bm+ii/8<1048576 →
      ∃ value, bitmapGet bm ii disk=.ok value disk ∧ (value≠0 ↔ bitAt disk.bytes bm ii=true)) ∧
    (∀ disk, TakesLeast 0 1 256 allocPage disk) ∧
    (∀ disk, TakesLeast 32 0 64 allocInode disk) ∧
    (∀ disk, ∀ inum<64, inodeBit (after allocPage disk).bytes inum=inodeBit disk.bytes inum) ∧
    (∀ disk, ∀ page<256, ∀ inum<64,
      inodeBit (after (freePage (page : ℕ)) disk).bytes inum=inodeBit disk.bytes inum) ∧
    (∀ disk, ∀ page<256, pageBit (after allocInode disk).bytes page=pageBit disk.bytes page) ∧
    (∀ (node : ℤ) (disk : Disk), ∀ inum<64, readInt node disk=.ok ((inum : ℕ) : ℤ) disk →
      ∀ page<256, pageBit (after (freeInode node) disk).bytes page=pageBit disk.bytes page) := by
  refine ⟨?_,?_,?_,?_,?_,?_,?_,?_⟩
  · intro bm ii vv disk h
    refine ⟨_,bitmapPut_ok h vv disk,⟨_,bitmapGet_value h _,?_⟩,?_⟩
    · rw [bitAt_putBit]
      exact bitValue_ne_zero.trans decide_eq_true_iff
    · intro jj hj hne
      refine ⟨_,bitmapGet_value hj disk,?_⟩
      rw [bitmapGet_value hj,bitAt_putBit_ne _ _ hne]
  · intro bm ii disk h
    exact ⟨_,bitmapGet_value h disk,bitValue_ne_zero⟩
  · intro disk
    exact TakesLeast.of_spec (fun _ _ _ => rfl) (allocPage_spec disk)
  · intro disk
    have hbits : ∀ ii jj, jj<64 → bitAt (withInode disk.bytes ii) 32 jj=
        bitAt (putBit disk.bytes 32 ii true) 32 jj := fun ii jj hj => bitAt_withInode _ (by omega)
    refine TakesLeast.of_spec hbits ?_
    rcases allocInode_spec disk with ⟨inum,hi,hp,he,hd⟩|⟨ha,hd⟩
    · exact Or.inl ⟨inum,Nat.zero_le _,hi,hp,fun earlier _ => he earlier,hd⟩
    · exact Or.inr ⟨fun inum _ => ha inum,hd⟩
  · intro disk inum _
    rcases allocPage_spec disk with ⟨page,_,hp,_,_,hd⟩|⟨_,hd⟩
    · rw [after_of_ok hd]
      exact inodeBit_putPageBit _ _ hp
    · rw [after_of_ok hd]
  · intro disk page hp inum _
    rw [after_of_ok (freePage_ok (by omega) disk)]
    exact inodeBit_putPageBit _ _ hp
  · intro disk page hp
    rcases allocInode_spec disk with ⟨inum,_,_,_,hd⟩|⟨_,hd⟩
    · rw [after_of_ok hd]
      exact (bitAt_withInode _ (by omega)).trans (pageBit_putInodeBit _ _ hp)
    · rw [after_of_ok hd]
  · intro node disk inum hi hr page hp
    rw [after_of_ok (freeInode_ok hr hi)]
    exact pageBit_putInodeBit _ _ hp

end ComputerSystems.NufsInode
