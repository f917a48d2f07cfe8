import ComputerSystems.StateProgram
import ComputerSystems.ByteMemory
import Mathlib.Data.Nat.Bitwise
import Mathlib.Data.Finset.Card
import Mathlib.Data.Finset.Interval
import Mathlib.Order.Interval.Finset.Nat

/-!
# The nufs image: pages, bitmaps and the page allocator

The image file is mapped shared, so the C code works on its bytes directly:
page 0 starts with the page bitmap and, 32 bytes later, the inode bitmap;
page 1 is the inode table. Offsets are counted from `pages_base`. An access
outside the 1 MB mapping, a failed `assert`, an undefined shift and a loop
that no longer advances are faults. The state keeps one history variable that
no code reads: how many allocator calls have returned -1.
-/

namespace ComputerSystems.NufsImage

open StateProgram ByteMemory

/-- The ways a call can fail to return. -/
inductive Fault
  /-- An access outside the mapped image, or through a null pointer. -/
  | segv
  /-- A failed `assert`. -/
  | abort
  /-- A shift by a negative amount. -/
  | undefined
  /-- A loop whose state repeats for ever. -/
  | hang
  deriving DecidableEq

/-- The mapped image and the history of refused allocations. -/
structure Disk where
  /-- The bytes of the image file, counted from `pages_base`. -/
  bytes : Bytes
  /-- Calls of `alloc_page` and `alloc_inode` that returned -1 so far. -/
  denied : ℕ

/-- Storage code: it returns a value or stops, and keeps the image reached. -/
abbrev Nufs (α : Type) := EStateM Fault Disk α

/-- Read one byte of the mapping. -/
def readByte (offset : ℤ) : Nufs UInt8 := fun disk =>
  if 0≤offset ∧ offset<1048576 then .ok (disk.bytes offset.toNat) disk else .error .segv disk

/-- Read an `int` of the mapping. -/
def readInt (offset : ℤ) : Nufs ℤ := fun disk =>
  if 0≤offset ∧ offset+4≤1048576 then .ok (intAt disk.bytes offset.toNat) disk
  else .error .segv disk

/-- Write an interval of the mapping (`memcpy`, `memset`, `strcpy` and single bytes). -/
def writeBytes (offset : ℤ) (count : ℕ) (source : ℕ → UInt8) : Nufs Unit := fun disk =>
  if 0≤offset ∧ offset+count≤1048576 then
    .ok () {disk with bytes := blit disk.bytes offset.toNat count source}
  else .error .segv disk

/-- Write an `int` of the mapping. -/
def writeInt (offset value : ℤ) : Nufs Unit := fun disk =>
  if 0≤offset ∧ offset+4≤1048576 then
    .ok () {disk with bytes := putInt disk.bytes offset.toNat value}
  else .error .segv disk

/-- Record that an allocator found nothing and return its -1. -/
def deny : Nufs ℤ := fun disk => .ok (-1) {disk with denied := disk.denied+1}

/-- Reading inside the mapping returns the byte stored there. -/
theorem readByte_ok {offset : ℕ} (h : offset<1048576) (disk : Disk) :
    readByte offset disk=.ok (disk.bytes offset) disk := by
  unfold readByte
  rw [if_pos (by omega),Int.toNat_natCast]

/-- Reading inside the mapping returns the `int` stored there. -/
theorem readInt_ok {offset : ℕ} (h : offset+4≤1048576) (disk : Disk) :
    readInt offset disk=.ok (intAt disk.bytes offset) disk := by
  unfold readInt
  rw [if_pos (by omega),Int.toNat_natCast]

/-- Writing inside the mapping replaces the interval. -/
theorem writeBytes_ok {offset count : ℕ} (h : offset+count≤1048576) (source : ℕ → UInt8)
    (disk : Disk) : writeBytes offset count source disk=
      .ok () {disk with bytes := blit disk.bytes offset count source} := by
  unfold writeBytes
  rw [if_pos (by omega),Int.toNat_natCast]

/-- Writing inside the mapping stores the `int`. -/
theorem writeInt_ok {offset : ℕ} (h : offset+4≤1048576) (value : ℤ) (disk : Disk) :
    writeInt offset value disk=.ok () {disk with bytes := putInt disk.bytes offset value} := by
  unfold writeInt
  rw [if_pos (by omega),Int.toNat_natCast]

/-- Reads leave the disk alone. -/
theorem readByte_readOnly (offset : ℤ) : ReadOnly (readByte offset) := by
  intro disk
  by_cases h : 0≤offset ∧ offset<1048576
  · simp only [after,readByte,if_pos h]
  · simp only [after,readByte,if_neg h]

/-- Reads leave the disk alone. -/
theorem readInt_readOnly (offset : ℤ) : ReadOnly (readInt offset) := by
  intro disk
  by_cases h : 0≤offset ∧ offset+4≤1048576
  · simp only [after,readInt,if_pos h]
  · simp only [after,readInt,if_neg h]

/-- Writes refuse no allocation. -/
theorem writeBytes_rises (offset : ℤ) (count : ℕ) (source : ℕ → UInt8) :
    Rises Disk.denied (writeBytes offset count source) := by
  intro disk
  by_cases h : 0≤offset ∧ offset+count≤1048576
  · simp only [Below,after,writeBytes,if_pos h,Nat.le_refl]
  · simp only [Below,after,writeBytes,if_neg h,Nat.le_refl]

/-- Writes refuse no allocation. -/
theorem writeInt_rises (offset value : ℤ) : Rises Disk.denied (writeInt offset value) := by
  intro disk
  by_cases h : 0≤offset ∧ offset+4≤1048576
  · simp only [Below,after,writeInt,if_pos h,Nat.le_refl]
  · simp only [Below,after,writeInt,if_neg h,Nat.le_refl]

/-- A refusal is counted. -/
theorem deny_rises : Rises Disk.denied deny := fun disk => Nat.le_succ disk.denied

/-! ## Bitmaps -/

/-- `bitmap_get`: the selected bit of the selected byte, in place. -/
def bitmapGet (bm ii : ℤ) : Nufs ℤ :=
  if Int.tmod ii 8<0 then throw .undefined
  else do
    let byte ← readByte (bm+Int.tdiv ii 8)
    return ((byte.toNat &&& (1 <<< (Int.tmod ii 8).toNat) : ℕ) : ℤ)

/-- `bitmap_put`: clear the selected bit for 0 and set it for anything else. -/
def bitmapPut (bm ii vv : ℤ) : Nufs Unit :=
  let idx := Int.tdiv ii 8
  let shift := Int.tmod ii 8
  if shift<0 then throw .undefined
  else do
    let byte ← readByte (bm+idx)
    if vv=0 then
      writeBytes (bm+idx) 1 (fun _ => byte &&& ~~~UInt8.ofNat (1 <<<shift.toNat))
    else
      writeBytes (bm+idx) 1 (fun _ => byte ||| UInt8.ofNat (1 <<<shift.toNat))

/-- One bit of a bitmap that starts at a given offset. -/
def bitAt (memory : Bytes) (bm ii : ℕ) : Bool := (memory (bm+ii/8)).toNat.testBit (ii%8)

/-- The memory after one bit of a bitmap was set or cleared. -/
def putBit (memory : Bytes) (bm ii : ℕ) (value : Bool) : Bytes :=
  blit memory (bm+ii/8) 1 (fun _ =>
    if value=true then memory (bm+ii/8) ||| UInt8.ofNat (1 <<< (ii%8))
    else memory (bm+ii/8) &&& ~~~UInt8.ofNat (1 <<< (ii%8)))

/-- Setting a bit of a byte changes that bit only. -/
theorem testBit_set (byte : UInt8) {shift : ℕ} (hs : shift<8) (j : ℕ) :
    (byte ||| UInt8.ofNat (1 <<<shift)).toNat.testBit j=
      (byte.toNat.testBit j || decide (shift=j)) := by
  have hp := Nat.pow_lt_pow_right (a:=2) (by omega) hs
  rw [UInt8.toNat_or,Nat.testBit_or,UInt8.toNat_ofNat',Nat.one_shiftLeft,
    Nat.mod_eq_of_lt (by omega),Nat.testBit_two_pow]

/-- Clearing a bit of a byte changes that bit only. -/
theorem testBit_clear (byte : UInt8) {shift j : ℕ} (hs : shift<8) (hj : j<8) :
    (byte &&& ~~~UInt8.ofNat (1 <<<shift)).toNat.testBit j=
      (byte.toNat.testBit j && !decide (shift=j)) := by
  have hp := Nat.pow_lt_pow_right (a:=2) (by omega) hs
  have hc := Nat.testBit_two_pow_sub_succ (x:=2^shift) (n:=8) (by omega) j
  have he : UInt8.size-1-2^shift=2^8-(2^shift+1) := by
    change 256-1-2^shift=256-(2^shift+1)
    omega
  rw [UInt8.toNat_and,Nat.testBit_and,UInt8.toNat_not,UInt8.toNat_ofNat',Nat.one_shiftLeft,
    Nat.mod_eq_of_lt (by omega),he,hc,Nat.testBit_two_pow]
  simp only [hj,decide_true,Bool.true_and]

/-- A written bit reads back as written. -/
theorem bitAt_putBit (memory : Bytes) (bm ii : ℕ) (value : Bool) :
    bitAt (putBit memory bm ii value) bm ii=value := by
  have hs : ii%8<8 := Nat.mod_lt ii (by omega)
  unfold bitAt putBit
  rw [blit_inside memory _ (by omega) (by omega)]
  cases value with
  | true => simp only [if_true,testBit_set _ hs,decide_true,Bool.or_true]
  | false =>
    simp only [Bool.false_eq_true,if_false,testBit_clear _ hs hs,decide_true,Bool.not_true,
      Bool.and_false]

/-- Every other bit keeps its value. -/
theorem bitAt_putBit_other (memory : Bytes) {bm ii bm' ii' : ℕ} (value : Bool)
    (h : bm+ii/8≠bm'+ii'/8 ∨ ii%8≠ii'%8) :
    bitAt (putBit memory bm ii value) bm' ii'=bitAt memory bm' ii' := by
  have hs : ii%8<8 := Nat.mod_lt ii (by omega)
  have hs' : ii'%8<8 := Nat.mod_lt ii' (by omega)
  unfold bitAt putBit
  by_cases ha : bm+ii/8=bm'+ii'/8
  · have hne : ii%8≠ii'%8 := by
      rcases h with h|h
      · exact absurd ha h
      · exact h
    rw [blit_inside memory _ (by omega) (by omega),ha]
    cases value with
    | true => simp only [if_true,testBit_set _ hs,hne,decide_false,Bool.or_false]
    | false =>
      simp only [Bool.false_eq_true,if_false,testBit_clear _ hs hs',hne,decide_false,
        Bool.not_false,Bool.and_true]
  · rw [blit_outside memory _ (by omega)]

/-- A written bit changes one byte only. -/
theorem putBit_outside (memory : Bytes) {bm ii address : ℕ} (value : Bool)
    (h : address≠bm+ii/8) : putBit memory bm ii value address=memory address :=
  blit_outside memory _ (by omega)

/-- A bit depends only on its own byte. -/
theorem bitAt_congr {memory memory' : Bytes} {bm ii : ℕ}
    (h : memory (bm+ii/8)=memory' (bm+ii/8)) : bitAt memory bm ii=bitAt memory' bm ii := by
  rw [bitAt,h,bitAt]

/-- The value `bitmap_get` returns for a bit. -/
def bitValue (bit : Bool) (ii : ℕ) : ℤ := if bit=true then ((2^(ii%8) : ℕ) : ℤ) else 0

/-- The value of a bit is zero exactly when the bit is clear. -/
theorem bitValue_ne_zero {bit : Bool} {ii : ℕ} : bitValue bit ii≠0 ↔ bit=true := by
  have hp : 0<2^(ii%8) := Nat.two_pow_pos _
  cases bit with
  | false => simp only [bitValue,Bool.false_eq_true,if_false,ne_eq,not_true_eq_false]
  | true =>
    simp only [bitValue,if_true,ne_eq,iff_true]
    omega

/-- `bitmap_get` inside the mapping returns the value of the bit. -/
theorem bitmapGet_value {bm ii : ℕ} (h : bm+ii/8<1048576) (disk : Disk) :
    bitmapGet bm ii disk=.ok (bitValue (bitAt disk.bytes bm ii) ii) disk := by
  have hm : Int.tmod (ii : ℤ) 8=((ii%8 : ℕ) : ℤ) := by
    rw [Int.tmod_eq_emod_of_nonneg (by omega)]
    omega
  have hd : (bm : ℤ)+Int.tdiv (ii : ℤ) 8=((bm+ii/8 : ℕ) : ℤ) := by
    rw [Int.tdiv_eq_ediv_of_nonneg (by omega)]
    omega
  have hv : (((disk.bytes (bm+ii/8)).toNat &&& (1 <<< (ii%8)) : ℕ) : ℤ)=
      bitValue (bitAt disk.bytes bm ii) ii := by
    rw [Nat.one_shiftLeft,Nat.and_two_pow,bitAt]
    cases (disk.bytes (bm+ii/8)).toNat.testBit (ii%8) with
    | false => simp only [bitValue,Bool.toNat_false,Nat.zero_mul,Nat.cast_zero,
        Bool.false_eq_true,if_false]
    | true => simp only [bitValue,Bool.toNat_true,Nat.one_mul,if_true]
  unfold bitmapGet
  rw [hm,hd,if_neg (by omega),bind_of_ok (readByte_ok h disk),Int.toNat_natCast,←hv]
  rfl

/-- `bitmap_get` inside the mapping is zero exactly when the bit is clear. -/
theorem bitmapGet_ok {bm ii : ℕ} (h : bm+ii/8<1048576) (disk : Disk) :
    ∃ value : ℤ, bitmapGet bm ii disk=.ok value disk ∧
      (value=0 ↔ bitAt disk.bytes bm ii=false) := by
  refine ⟨_,bitmapGet_value h disk,?_⟩
  rw [←not_iff_not,Bool.not_eq_false]
  exact bitValue_ne_zero

/-- `bitmap_put` inside the mapping writes the one bit. -/
theorem bitmapPut_ok {bm ii : ℕ} (h : bm+ii/8<1048576) (vv : ℤ) (disk : Disk) :
    bitmapPut bm ii vv disk=
      .ok () {disk with bytes := putBit disk.bytes bm ii (decide (vv≠0))} := by
  have hm : Int.tmod (ii : ℤ) 8=((ii%8 : ℕ) : ℤ) := by
    rw [Int.tmod_eq_emod_of_nonneg (by omega)]
    omega
  have hd : (bm : ℤ)+Int.tdiv (ii : ℤ) 8=((bm+ii/8 : ℕ) : ℤ) := by
    rw [Int.tdiv_eq_ediv_of_nonneg (by omega)]
    omega
  unfold bitmapPut
  rw [hm,hd,if_neg (by omega),bind_of_ok (readByte_ok h disk),Int.toNat_natCast]
  by_cases hv : vv=0
  · rw [if_pos hv,writeBytes_ok (by omega)]
    simp only [putBit,hv,ne_eq,not_true_eq_false,decide_false,Bool.false_eq_true,if_false]
  · rw [if_neg hv,writeBytes_ok (by omega)]
    simp only [putBit,hv,ne_eq,not_false_eq_true,decide_true,if_true]

/-- Testing a bit changes nothing. -/
theorem bitmapGet_readOnly (bm ii : ℤ) : ReadOnly (bitmapGet bm ii) := by
  unfold bitmapGet
  exact moves_ite (moves_throw _)
    (moves_bind (readByte_readOnly _) (fun _ => moves_pure _))

/-- Writing a bit refuses no allocation. -/
theorem bitmapPut_rises (bm ii vv : ℤ) : Rises Disk.denied (bitmapPut bm ii vv) := by
  unfold bitmapPut
  refine moves_ite (moves_throw _) (moves_bind ((readByte_readOnly _).rises _) (fun _ => ?_))
  exact moves_ite (writeBytes_rises _ _ _) (writeBytes_rises _ _ _)

/-! ## Pages -/

/-- `pages_get_page`: the offset of a page; the product is an `int`. -/
def pagesGetPage (pnum : ℤ) : ℤ := wrap32 (4096*pnum)

/-- `get_pages_bitmap`. -/
def getPagesBitmap : ℤ := pagesGetPage 0

/-- `get_inode_bitmap`. -/
def getInodeBitmap : ℤ := pagesGetPage 0+32

/-- The scan of `alloc_page` and `alloc_inode`, with the number of candidates
left: the first candidate with a clear bit is taken. -/
def allocFrom (bm : ℤ) (take : ℤ → Nufs ℤ) : ℕ → ℤ → Nufs ℤ
  | 0,_ => deny
  | left+1,ii => do
    let marked ← bitmapGet bm ii
    if marked=0 then take ii else allocFrom bm take left (ii+1)

/-- What `alloc_page` does with the page it found. -/
def takePage (ii : ℤ) : Nufs ℤ := do
  bitmapPut getPagesBitmap ii 1
  return ii

/-- `alloc_page`: mark and return the first unmarked page from page 1 on. -/
def allocPage : Nufs ℤ := allocFrom getPagesBitmap takePage 255 1

/-- `free_page`. -/
def freePage (pnum : ℤ) : Nufs Unit := bitmapPut getPagesBitmap pnum 0

/-- The mark of a page. -/
abbrev pageBit (memory : Bytes) (page : ℕ) : Bool := bitAt memory 0 page

/-- The mark of an inode. -/
abbrev inodeBit (memory : Bytes) (inum : ℕ) : Bool := bitAt memory 32 inum

/-- Page offsets inside the image are plain products. -/
theorem pagesGetPage_eq {pnum : ℤ} (hl : -524288≤pnum) (hr : pnum<524288) :
    pagesGetPage pnum=4096*pnum := wrap32_of_range (by omega) (by omega)

/-- The page bitmap starts the image. -/
theorem getPagesBitmap_eq : getPagesBitmap=((0 : ℕ) : ℤ) := by decide +kernel

/-- The inode bitmap starts 32 bytes later. -/
theorem getInodeBitmap_eq : getInodeBitmap=((32 : ℕ) : ℤ) := by decide +kernel

/-- The scan takes the least candidate with a clear bit, or refuses when all
of its candidates are marked. -/
theorem allocFrom_spec (bm : ℕ) (take : ℤ → Nufs ℤ) (left start : ℕ)
    (h : bm+(start+left)/8<1048576) (disk : Disk) :
    (∃ found, start≤found ∧ found < start+left ∧ bitAt disk.bytes bm found=false ∧
      (∀ earlier, start≤earlier → earlier<found → bitAt disk.bytes bm earlier=true) ∧
      allocFrom bm take left start disk=take found disk) ∨
    ((∀ found, start≤found → found < start+left → bitAt disk.bytes bm found=true) ∧
      allocFrom bm take left start disk=.ok (-1) {disk with denied := disk.denied+1}) := by
  induction left generalizing start with
  | zero =>
    right
    exact ⟨fun found hl hr => absurd hr (by omega),rfl⟩
  | succ left ih =>
    obtain ⟨value,hv,hz⟩ := bitmapGet_ok (show bm+start/8<1048576 by omega) disk
    cases hb : bitAt disk.bytes bm start with
    | false =>
      left
      refine ⟨start,Nat.le_refl _,by omega,hb,fun earlier hl hr => absurd hr (by omega),?_⟩
      rw [allocFrom,bind_of_ok hv,if_pos (hz.mpr hb)]
    | true =>
      have hne : value≠0 := by
        intro hzero
        have hclear := (hz.mp hzero).symm.trans hb
        cases hclear
      have hstep : allocFrom bm take (left+1) start disk=
          allocFrom bm take left ((start+1 : ℕ) : ℤ) disk := by
        rw [allocFrom,bind_of_ok hv,if_neg hne,Nat.cast_add,Nat.cast_one]
      rw [hstep]
      rcases ih (start+1) (by omega) with ⟨found,hl,hr,hp,he,hd⟩|⟨ha,hd⟩
      · left
        refine ⟨found,by omega,by omega,hp,?_,hd⟩
        intro earlier hel her
        rcases Nat.eq_or_lt_of_le hel with heq|hlt
        · rw [←heq]
          exact hb
        · exact he earlier (by omega) her
      · right
        refine ⟨?_,hd⟩
        intro found hl hr
        rcases Nat.eq_or_lt_of_le hl with heq|hlt
        · rw [←heq]
          exact hb
        · exact ha found (by omega) (by omega)

/-- A scan only ever adds refusals when taking a candidate does. -/
theorem allocFrom_rises (bm : ℤ) {take : ℤ → Nufs ℤ} (ht : ∀ ii, Rises Disk.denied (take ii))
    (left : ℕ) (ii : ℤ) : Rises Disk.denied (allocFrom bm take left ii) := by
  induction left generalizing ii with
  | zero => exact deny_rises
  | succ left ih =>
    exact moves_bind ((bitmapGet_readOnly _ _).rises _) (fun _ => moves_ite (ht ii) (ih (ii+1)))

/-- `alloc_page` returns the least unmarked page of 1..255 and marks it, or
returns -1 when all of them are marked. -/
theorem allocPage_spec (disk : Disk) :
    (∃ page, 1≤page ∧ page<256 ∧ pageBit disk.bytes page=false ∧
      (∀ earlier, 1≤earlier → earlier<page → pageBit disk.bytes earlier=true) ∧
      allocPage disk=.ok (page : ℤ) {disk with bytes := putBit disk.bytes 0 page true}) ∨
    ((∀ page, 1≤page → page<256 → pageBit disk.bytes page=true) ∧
      allocPage disk=.ok (-1) {disk with denied := disk.denied+1}) := by
  have h := allocFrom_spec 0 takePage 255 1 (by omega) disk
  rw [allocPage,getPagesBitmap_eq]
  rcases h with ⟨page,hl,hr,hp,he,hd⟩|h
  · left
    refine ⟨page,hl,hr,hp,he,hd.trans ?_⟩
    rw [takePage,getPagesBitmap_eq,bind_of_ok (bitmapPut_ok (by omega) 1 disk)]
    rfl
  · right
    exact h

/-- `free_page` on a page number that is not negative clears one bit, of the
page bitmap or, past its end, of whatever follows it in the image. -/
theorem freePage_ok {pnum : ℕ} (h : pnum<8388608) (disk : Disk) :
    freePage pnum disk=.ok () {disk with bytes := putBit disk.bytes 0 pnum false} := by
  rw [freePage,getPagesBitmap_eq,bitmapPut_ok (by omega)]
  simp only [ne_eq,not_true_eq_false,decide_false]

/-- The page allocator only ever adds refusals. -/
theorem allocPage_rises : Rises Disk.denied allocPage :=
  allocFrom_rises _ (fun _ => moves_bind (bitmapPut_rises _ _ _) (fun _ => moves_pure _)) 255 1

/-- Freeing a page refuses nothing. -/
theorem freePage_rises (pnum : ℤ) : Rises Disk.denied (freePage pnum) := bitmapPut_rises _ _ _

/-- The number of pages `alloc_page` can still hand out. -/
def freePages (memory : Bytes) : ℕ :=
  ((Finset.Ico 1 256).filter (fun page => pageBit memory page=false)).card

end ComputerSystems.NufsImage
