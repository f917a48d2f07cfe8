import ComputerSystems.NufsInode
import Mathlib.Data.Finset.Card

/-!
# Which inode owns which page

An inode of `n` blocks owns the pages of its blocks and, past two blocks, its
indirect page. The ownership invariant is stated for an arbitrary set of
inodes and an arbitrary block count for each, so that the loops of
`grow_inode` and `shrink_inode` can be followed round by round, before the
size field is written. Each operation gets one specification here.
-/

namespace ComputerSystems.NufsOwnership

open StateProgram ByteMemory NufsImage NufsInode

/-- The page number of a block, as `inode_get_pnum` finds it. -/
def pnumAt (memory : Bytes) (inum k : ℕ) : ℤ :=
  if k<2 then ptrAt memory inum k
  else intAt memory ((4096*iptrAt memory inum).toNat+4*(k-2))

/-- The places of an inode that can hold a page number. -/
inductive Slot
  /-- A block, direct or through the indirect page. -/
  | block (k : ℕ)
  /-- The indirect page itself. -/
  | indirect
  deriving DecidableEq

/-- The slots in use at a number of blocks. -/
def Slot.Used (count : ℕ) : Slot → Prop
  | .block k => k<count
  | .indirect => 2<count

/-- The page number in a slot. -/
def Slot.page (memory : Bytes) (inum : ℕ) : Slot → ℤ
  | .block k => pnumAt memory inum k
  | .indirect => iptrAt memory inum

/-- A slot in use stays in use when blocks are added. -/
theorem Slot.Used.mono {count count' : ℕ} (h : count≤count') {slot : Slot}
    (hu : slot.Used count) : slot.Used count' := by
  cases slot with
  | block k => exact Nat.lt_of_lt_of_le hu h
  | indirect => exact Nat.lt_of_lt_of_le hu h

/-- The ownership invariant: the inode table stays marked, and every page in a
used slot is a marked page of 2..255 that is in no other used slot. -/
structure Owned (memory : Bytes) (live : ℕ → Prop) (blocks : ℕ → ℕ) : Prop where
  /-- Page 1 holds the inode table. -/
  table : pageBit memory 1=true
  /-- Live inodes are table indices. -/
  index : ∀ i, live i → i<64
  /-- Owned pages are data pages. -/
  range : ∀ i, live i → ∀ slot : Slot, slot.Used (blocks i) →
    2 ≤ slot.page memory i ∧ slot.page memory i<256
  /-- Owned pages are marked. -/
  marked : ∀ i, live i → ∀ slot : Slot, slot.Used (blocks i) →
    pageBit memory (slot.page memory i).toNat=true
  /-- Owned pages are owned once. -/
  once : ∀ i j, live i → live j → ∀ slot other : Slot, slot.Used (blocks i) →
    other.Used (blocks j) → slot.page memory i=other.page memory j → i=j ∧ slot=other

/-- Fewer blocks keep the invariant, for fewer inodes and for further ones
without any block. -/
theorem Owned.restrict {memory : Bytes} {live live' : ℕ → Prop} {blocks blocks' : ℕ → ℕ}
    (h : Owned memory live blocks) (hl : ∀ i, live' i → live i ∨ (i<64 ∧ blocks' i=0))
    (hb : ∀ i, live' i → live i → blocks' i≤blocks i) : Owned memory live' blocks' := by
  have hold : ∀ i, live' i → ∀ slot : Slot, slot.Used (blocks' i) →
      live i ∧ slot.Used (blocks i) := by
    intro i hi slot hu
    rcases hl i hi with ho|⟨_,hz⟩
    · exact ⟨ho,hu.mono (hb i hi ho)⟩
    · rw [hz] at hu
      cases slot with
      | block k => exact absurd hu (Nat.not_lt_zero k)
      | indirect => exact absurd hu (Nat.not_lt_zero 2)
  refine ⟨h.table,?_,?_,?_,?_⟩
  · intro i hi
    rcases hl i hi with ho|ho
    · exact h.index i ho
    · exact ho.1
  · intro i hi slot hu
    have ho := hold i hi slot hu
    exact h.range i ho.1 slot ho.2
  · intro i hi slot hu
    have ho := hold i hi slot hu
    exact h.marked i ho.1 slot ho.2
  · intro i j hi hj slot other hu hv
    have ho := hold i hi slot hu
    have ho' := hold j hj other hv
    exact h.once i j ho.1 ho'.1 slot other ho.2 ho'.2

/-- The blocks of a file can be found: its numbers are pages of the image and
fit the direct pointers and one indirect page. -/
structure Mapped (memory : Bytes) (i n : ℕ) : Prop where
  /-- The inode is in the table. -/
  index : i<64
  /-- The numbers fit. -/
  count : n≤1026
  /-- Blocks are pages of the image. -/
  block : ∀ k<n, 0≤pnumAt memory i k ∧ pnumAt memory i k<256
  /-- So is an indirect page in use. -/
  indirect : 2<n → 0 ≤ iptrAt memory i ∧ iptrAt memory i<256

/-- The slots of one inode hold different data pages. -/
structure Placed (memory : Bytes) (i n : ℕ) : Prop where
  /-- The inode is in the table. -/
  index : i<64
  /-- Pages in use are data pages. -/
  range : ∀ slot : Slot, slot.Used n → 2 ≤ slot.page memory i ∧ slot.page memory i<256
  /-- They are in use once. -/
  once : ∀ slot other : Slot, slot.Used n → other.Used n →
    slot.page memory i=other.page memory i → slot=other

/-- Ownership places the pages of every live inode. -/
theorem Owned.placed {memory : Bytes} {live : ℕ → Prop} {blocks : ℕ → ℕ}
    (h : Owned memory live blocks) {i : ℕ} (hi : live i) : Placed memory i (blocks i) where
  index := h.index i hi
  range := h.range i hi
  once := fun slot other hu ho he => (h.once i i hi hi slot other hu ho he).2

/-- Different data pages are at most 254. -/
theorem Placed.blocks_le {memory : Bytes} {i n : ℕ} (h : Placed memory i n) : n≤254 := by
  have hmap : ∀ k∈Finset.range n, (pnumAt memory i k).toNat∈Finset.Ico 2 256 := by
    intro k hk
    have hr := h.range (.block k) (Finset.mem_range.mp hk)
    simp only [Slot.page] at hr
    rw [Finset.mem_Ico]
    omega
  have hinj : Set.InjOn (fun k => (pnumAt memory i k).toNat) (Finset.range n) := by
    intro k hk l hl he
    have hk' : k<n := by simpa using hk
    have hl' : l<n := by simpa using hl
    have hrk := h.range (.block k) hk'
    have hrl := h.range (.block l) hl'
    simp only [Slot.page] at hrk hrl he
    have ho := h.once (.block k) (.block l) hk' hl' (by simp only [Slot.page]; omega)
    exact Slot.block.inj ho
  have hc := Finset.card_le_card_of_injOn _ hmap hinj
  simpa using hc

/-- Placed pages can be found. -/
theorem Placed.mapped {memory : Bytes} {i n : ℕ} (h : Placed memory i n) : Mapped memory i n := by
  have hb := h.blocks_le
  refine ⟨h.index,by omega,fun k hk => ?_,fun hind => ?_⟩
  · have hr := h.range (.block k) hk
    simp only [Slot.page] at hr
    exact ⟨by omega,hr.2⟩
  · have hr := h.range .indirect hind
    simp only [Slot.page] at hr
    exact ⟨by omega,hr.2⟩

/-- Every inode with blocks fits the 254 data pages. -/
theorem Owned.blocks_le {memory : Bytes} {live : ℕ → Prop} {blocks : ℕ → ℕ}
    (h : Owned memory live blocks) {i : ℕ} (hi : live i) : blocks i≤254 :=
  (h.placed hi).blocks_le

/-! ## Writes that leave ownership alone -/

/-- The bytes ownership depends on: the page marks, the block pointers of the
records, and the indirect pages in use. -/
def Guarded (memory : Bytes) (live : ℕ → Prop) (blocks : ℕ → ℕ) (address : ℕ) : Prop :=
  address<32 ∨ (∃ i, live i ∧ 4096+64*i+16≤address ∧ address<4096+64*i+28) ∨
    ∃ i, live i ∧ 2<blocks i ∧ ((address/4096 : ℕ) : ℤ)=iptrAt memory i

/-- A page mark is one bit of the first 32 bytes. -/
theorem pageBit_congr {memory next : Bytes} (h : ∀ address, address<32 → next address=memory address)
    {page : ℕ} (hp : page<256) : pageBit next page=pageBit memory page :=
  bitAt_congr (h _ (by omega))

/-- Slots whose bytes agree hold the same page. -/
theorem Slot.page_congr {memory next : Bytes} {i count : ℕ} {slot : Slot} (hu : slot.Used count)
    (hr : ∀ address, 4096+64*i+16≤address → address<4096+64*i+28 → next address=memory address)
    (hi : 2<count → 0 ≤ iptrAt memory i)
    (hp : 2<count → ∀ address, ((address/4096 : ℕ) : ℤ)=iptrAt memory i →
      next address=memory address) (hc : count≤1026) :
    slot.page next i=slot.page memory i := by
  have hind : iptrAt next i=iptrAt memory i :=
    intAt_congr (fun address hl hr' => hr address (by omega) (by omega))
  cases slot with
  | indirect => exact hind
  | block k =>
    simp only [Slot.Used] at hu
    simp only [Slot.page,pnumAt]
    by_cases hk : k<2
    · rw [if_pos hk,if_pos hk]
      exact intAt_congr (fun address hl hr' => hr address (by omega) (by omega))
    · have hpos := hi (by omega)
      rw [if_neg hk,if_neg hk,hind]
      refine intAt_congr (fun address hl hr' => hp (by omega) address ?_)
      omega

/-- Used slots keep their pages under every write that keeps the guarded bytes. -/
theorem Owned.page_of_agree {memory next : Bytes} {live : ℕ → Prop} {blocks : ℕ → ℕ}
    (h : Owned memory live blocks)
    (ha : ∀ address, Guarded memory live blocks address → next address=memory address)
    {i : ℕ} (hi : live i) {slot : Slot} (hu : slot.Used (blocks i)) :
    slot.page next i=slot.page memory i := by
  refine Slot.page_congr hu (fun address hl hr => ha address (.inr (.inl ⟨i,hi,hl,hr⟩))) ?_
    (fun hb address hp => ha address (.inr (.inr ⟨i,hi,hb,hp⟩))) ?_
  · intro hb
    have hr := h.range i hi .indirect hb
    simp only [Slot.page] at hr
    omega
  · have hb := h.blocks_le hi
    omega

/-- Ownership is about the page marks and the pages in used slots. -/
theorem Owned.of_pages {memory next : Bytes} {live : ℕ → Prop} {blocks : ℕ → ℕ}
    (h : Owned memory live blocks) (ha : ∀ address<32, next address=memory address)
    (hslot : ∀ i, live i → ∀ slot : Slot, slot.Used (blocks i) →
      slot.page next i=slot.page memory i) : Owned next live blocks := by
  have hmark : ∀ page, page<256 → pageBit next page=pageBit memory page :=
    fun page hp => pageBit_congr ha hp
  refine ⟨by rw [hmark 1 (by omega)]; exact h.table,h.index,?_,?_,?_⟩
  · intro i hi slot hu
    rw [hslot i hi slot hu]
    exact h.range i hi slot hu
  · intro i hi slot hu
    have hr := h.range i hi slot hu
    rw [hslot i hi slot hu,hmark _ (by omega)]
    exact h.marked i hi slot hu
  · intro i j hi hj slot other hu ho he
    rw [hslot i hi slot hu,hslot j hj other ho] at he
    exact h.once i j hi hj slot other hu ho he

/-- Ownership survives every write that keeps the guarded bytes. -/
theorem Owned.of_agree {memory next : Bytes} {live : ℕ → Prop} {blocks : ℕ → ℕ}
    (h : Owned memory live blocks)
    (ha : ∀ address, Guarded memory live blocks address → next address=memory address) :
    Owned next live blocks :=
  h.of_pages (fun address hl => ha address (.inl hl))
    (fun _ hi _ hu => h.page_of_agree ha hi hu)

/-- Bytes of a block page are not guarded. -/
theorem Owned.block_not_guarded {memory : Bytes} {live : ℕ → Prop} {blocks : ℕ → ℕ}
    (h : Owned memory live blocks) {i k address : ℕ} (hi : live i) (hk : k<blocks i)
    (hp : ((address/4096 : ℕ) : ℤ)=pnumAt memory i k) : ¬Guarded memory live blocks address := by
  have hr := h.range i hi (.block k) hk
  simp only [Slot.page] at hr
  rintro (hl|⟨j,hj,hl,hr'⟩|⟨j,hj,hb,he⟩)
  · omega
  · have hj64 := h.index j hj
    omega
  · have ho := h.once i j hi hj (.block k) .indirect hk hb (by simp only [Slot.page]; omega)
    cases ho.2

/-- Bytes of the first sixteen of a record are not guarded. -/
theorem Owned.header_not_guarded {memory : Bytes} {live : ℕ → Prop} {blocks : ℕ → ℕ}
    (h : Owned memory live blocks) {j address : ℕ} (hj : j<64) (hl : 4096+64*j≤address)
    (hr : address<4096+64*j+16) : ¬Guarded memory live blocks address := by
  rintro (hlow|⟨i,hi,hl',hr'⟩|⟨i,hi,hb,he⟩)
  · omega
  · omega
  · have hp := h.range i hi .indirect hb
    simp only [Slot.page] at hp
    omega

/-- Bytes of the inode bitmap are not guarded. -/
theorem Owned.inodeBitmap_not_guarded {memory : Bytes} {live : ℕ → Prop} {blocks : ℕ → ℕ}
    (h : Owned memory live blocks) {address : ℕ} (hl : 32≤address) (hr : address<40) :
    ¬Guarded memory live blocks address := by
  rintro (hlow|⟨i,hi,hl',hr'⟩|⟨i,hi,hb,he⟩)
  · omega
  · omega
  · have hp := h.range i hi .indirect hb
    simp only [Slot.page] at hp
    omega

/-! ## The invariant of an image -/

/-- An inode is live when its bit is set. -/
def Live (memory : Bytes) (i : ℕ) : Prop := i<64 ∧ inodeBit memory i=true

/-- The number of blocks of an inode, `bytes_to_pages(node->size)`. -/
def blocksAt (memory : Bytes) (i : ℕ) : ℕ := (bytesToPages (sizeAt memory i)).toNat

/-- A size that is not negative rounds up to its blocks. -/
theorem blocksAt_of_size {memory : Bytes} {i size : ℕ} (h : sizeAt memory i=size) :
    blocksAt memory i=(size+4095)/4096 := by
  rw [blocksAt,h,bytesToPages_natCast,Int.toNat_natCast]

/-- An empty inode has no blocks. -/
theorem blocksAt_zero {memory : Bytes} {i : ℕ} (h : sizeAt memory i=0) : blocksAt memory i=0 := by
  rw [blocksAt,h]
  rfl

/-- The ownership invariant of an image: live inodes own their pages, and the
fields that the operations rely on are in range. -/
structure Sound (memory : Bytes) : Prop where
  /-- Live inodes own the pages of their blocks. -/
  owned : Owned memory (Live memory) (blocksAt memory)
  /-- Sizes of live inodes are not negative. -/
  size : ∀ i, Live memory i → 0 ≤ sizeAt memory i
  /-- Every record holds a table index as its number. -/
  number : ∀ i<64, 0 ≤ inumAt memory i ∧ inumAt memory i<64

/-- The size of a live inode as a natural number. -/
theorem Sound.size_natCast {memory : Bytes} (h : Sound memory) {i : ℕ} (hi : Live memory i) :
    ∃ s : ℕ, sizeAt memory i=s ∧ blocksAt memory i=(s+4095)/4096 := by
  obtain ⟨s,hs⟩ := Int.eq_ofNat_of_zero_le (h.size i hi)
  exact ⟨s,hs,blocksAt_of_size hs⟩

/-- The first block of a live inode that is not empty. -/
theorem Sound.first_page {memory : Bytes} (h : Sound memory) {d : ℕ} (hd : Live memory d)
    (hpos : 0 < sizeAt memory d) :
    0<blocksAt memory d ∧ 2≤ptrAt memory d 0 ∧ ptrAt memory d 0<256 := by
  obtain ⟨s,hs,hb⟩ := h.size_natCast hd
  have hblocks : 0<blocksAt memory d := by omega
  have hr := h.owned.range d hd (.block 0) hblocks
  rw [Slot.page,pnumAt,if_pos (by omega)] at hr
  exact ⟨hblocks,hr⟩

/-- First blocks of different inodes are different. -/
theorem Sound.first_ne {memory : Bytes} (h : Sound memory) {d l : ℕ} (hd : Live memory d)
    (hl : Live memory l) (hpos : 0 < sizeAt memory d) (hpos' : 0 < sizeAt memory l) (hne : l≠d) :
    (ptrAt memory l 0).toNat≠(ptrAt memory d 0).toNat := by
  obtain ⟨hb,hp⟩ := h.first_page hd hpos
  obtain ⟨hb',hp'⟩ := h.first_page hl hpos'
  intro he
  have honce := h.owned.once l d hl hd (.block 0) (.block 0) hb' hb
    (by simp only [Slot.page,pnumAt,if_pos (show 0<2 by omega)]; omega)
  exact hne honce.1

end ComputerSystems.NufsOwnership
