import ComputerSystems.NufsResize
import ComputerSystems.NufsCalls

/-!
# What resizing and filling leave alone

Growing, shrinking and the copy loops work on one inode. The frame has two
parts: the inode bitmap and the headers of the table, where only the size of
that inode changes, and the contents of an inode, the pages in its slots and
the bytes of its blocks. Both parts compose along a sequence of steps.
-/

namespace ComputerSystems.NufsFrame

open StateProgram ByteMemory NufsImage NufsInode NufsStorage NufsCalls NufsOwnership NufsResize

/-- The inode bitmap and the table headers, but for the size of one inode. -/
def Header (i address : ℕ) : Prop :=
  (32≤address ∧ address<40) ∨ ∃ j<64, 4096+64*j≤address ∧ address<4096+64*j+16 ∧
    ¬(j=i ∧ 4096+64*j+12≤address)

/-- Only the size of one inode changed in the bitmap and the headers. -/
def TableKept (memory next : Bytes) (i : ℕ) : Prop :=
  ∀ address, Header i address → next address=memory address

/-- The contents of an inode of `n` blocks are unchanged. -/
structure Kept (memory next : Bytes) (j n : ℕ) : Prop where
  /-- Slots keep their pages. -/
  slots : ∀ slot : Slot, slot.Used n → slot.page next j=slot.page memory j
  /-- Blocks keep their bytes. -/
  bytes : ∀ k<n, ∀ address : ℕ, ((address/4096 : ℕ) : ℤ)=pnumAt memory j k →
    next address=memory address

section TableKept

variable {memory mid next : Bytes} {i j : ℕ}

/-- Table frames compose. -/
theorem TableKept.trans (h : TableKept memory mid i) (h' : TableKept mid next i) :
    TableKept memory next i := fun address ha => (h' address ha).trans (h address ha)

/-- The marks of inodes are kept. -/
theorem TableKept.bit (h : TableKept memory next i) (hj : j<64) :
    inodeBit next j=inodeBit memory j := bitAt_congr (h _ (.inl (by omega)))

/-- Header fields before the size are kept. -/
theorem TableKept.field (h : TableKept memory next i) (field : ℕ) (hj : j<64) (hf : field+4≤12) :
    intAt next (4096+64*j+field)=intAt memory (4096+64*j+field) :=
  intAt_congr (fun address hl hr => h address (.inr ⟨j,hj,by omega,by omega,by omega⟩))

/-- Numbers are kept. -/
theorem TableKept.inum (h : TableKept memory next i) (hj : j<64) : inumAt next j=inumAt memory j :=
  h.field 0 hj (by omega)

/-- Sizes of the other inodes are kept. -/
theorem TableKept.size (h : TableKept memory next i) (hj : j<64) (hne : j≠i) :
    sizeAt next j=sizeAt memory j :=
  intAt_congr (fun address hl hr => h address (.inr ⟨j,hj,by omega,by omega,fun hc => hne hc.1⟩))

/-- Liveness is kept. -/
theorem TableKept.live (h : TableKept memory next i) : Live next j ↔ Live memory j := by
  unfold Live
  constructor
  · rintro ⟨hj,hb⟩
    exact ⟨hj,by rw [←h.bit hj]; exact hb⟩
  · rintro ⟨hj,hb⟩
    exact ⟨hj,by rw [h.bit hj]; exact hb⟩

/-- Writing the size field keeps the rest of the table. -/
theorem tableKept_putSize (memory : Bytes) (i : ℕ) (value : ℤ) :
    TableKept memory (putInt memory (4096+64*i+12) value) i := by
  intro address ha
  refine putInt_outside _ _ ?_
  rcases ha with ha|⟨j,hj,hl,hr,hne⟩
  · omega
  · by_contra hc
    have hji : j=i := by omega
    exact hne ⟨hji,by omega⟩

/-- Header bytes lie between the page bitmap and the data pages. -/
theorem Header.range {address : ℕ} (h : Header i address) : 32≤address ∧ address<8192 := by
  rcases h with h|⟨j,hj,hl,hr,_⟩
  · omega
  · omega

end TableKept

/-- Contents are kept along a sequence of steps. -/
theorem Kept.trans {memory mid next : Bytes} {j n : ℕ} (h : Kept memory mid j n)
    (h' : Kept mid next j n) : Kept memory next j n where
  slots := fun slot hu => (h'.slots slot hu).trans (h.slots slot hu)
  bytes := by
    intro k hk address hp
    have hslot := h.slots (.block k) hk
    simp only [Slot.page] at hslot
    rw [h'.bytes k hk address (hp.trans hslot.symm),h.bytes k hk address hp]

/-- Fewer blocks are kept as well. -/
theorem Kept.mono {memory next : Bytes} {j n n' : ℕ} (h : Kept memory next j n) (hn : n'≤n) :
    Kept memory next j n' where
  slots := fun slot hu => h.slots slot (hu.mono hn)
  bytes := fun k hk => h.bytes k (Nat.lt_of_lt_of_le hk hn)

/-- The byte of a file at a position. -/
def fileByte (memory : Bytes) (j position : ℕ) : UInt8 :=
  memory (4096*(pnumAt memory j (position/4096)).toNat+position%4096)

/-- Kept contents have the same bytes at every position of their blocks. -/
theorem Kept.fileByte {memory next : Bytes} {j n position : ℕ} (h : Kept memory next j n)
    (hp : position/4096<n) (hr : 0≤pnumAt memory j (position/4096)) :
    fileByte next j position=fileByte memory j position := by
  have hslot := h.slots (.block (position/4096)) hp
  simp only [Slot.page] at hslot
  unfold NufsFrame.fileByte
  rw [hslot]
  exact h.bytes _ hp _ (by omega)

section Owned

variable {memory next : Bytes} {live : ℕ → Prop} {blocks : ℕ → ℕ} {i j n m : ℕ}

/-- Contents are kept by writes that keep the guarded bytes and the blocks. -/
theorem Owned.kept (h : Owned memory live blocks) (hj : live j)
    (ha : ∀ address, Guarded memory live blocks address → next address=memory address)
    (hb : ∀ k<blocks j, ∀ address : ℕ, ((address/4096 : ℕ) : ℤ)=pnumAt memory j k →
      next address=memory address) : Kept memory next j (blocks j) where
  slots := fun _ hu => h.page_of_agree ha hj hu
  bytes := hb

/-- Writes below the data pages keep the bytes of every block. -/
theorem Owned.kept_of_high (h : Owned memory live blocks) (hj : live j)
    (ha : ∀ address, Guarded memory live blocks address → next address=memory address)
    (hb : ∀ address, 8192≤address → next address=memory address) :
    Kept memory next j (blocks j) := by
  refine Owned.kept h hj ha (fun k hk address hp => hb address ?_)
  have hr := h.range j hj (.block k) hk
  simp only [Slot.page] at hr
  omega

/-- Writing into the header of a record keeps ownership. -/
theorem owned_putHeader (field : ℕ) (h : Owned memory live blocks) (hi : i<64) (hf : field+4≤16)
    (value : ℤ) : Owned (putInt memory (4096+64*i+field) value) live blocks := by
  refine h.of_agree (fun address hg => putInt_outside _ _ ?_)
  by_contra hin
  exact h.header_not_guarded hi (by omega) (by omega) hg

/-- Writing into the header of a record keeps all contents. -/
theorem kept_putHeader (field : ℕ) (h : Owned memory live blocks) (hi : i<64) (hf : field+4≤16)
    (value : ℤ) (hj : live j) : Kept memory (putInt memory (4096+64*i+field) value) j (blocks j) := by
  refine Owned.kept_of_high h hj (fun address hg => putInt_outside _ _ ?_)
    (fun address ha => putInt_outside _ _ (by omega))
  by_contra hin
  exact h.header_not_guarded hi (by omega) (by omega) hg

/-- Growing keeps the table. -/
theorem Grown.table (hg : Grown memory next i n m) (h : Owned memory live blocks) (hi : live i)
    (hn : blocks i=n) : TableKept memory next i := by
  intro address ha
  have hr := ha.range
  have hi64 := h.index i hi
  refine hg.frame address hr.1 ?_ (fun hx => ?_)
  · rcases ha with ha|⟨j,hj,hl,hr',_⟩ <;> omega
  · have hq := hg.indirect_range h hi hn hx.1
    omega

/-- Growing keeps the contents of every inode. -/
theorem Grown.kept (hg : Grown memory next i n m) (h : Owned memory live blocks) (hi : live i)
    (hn : blocks i=n) (hj : live j) : Kept memory next j (blocks j) where
  slots := by
    intro slot hu
    by_cases hji : j=i
    · subst hji
      rw [hn] at hu
      exact hg.keep slot hu
    · exact hg.other_slot h hi hn hj hji hu
  bytes := by
    intro k hk address hp
    have hr := h.range j hj (.block k) hk
    have hi64 := h.index i hi
    simp only [Slot.page] at hr
    refine hg.frame address (by omega) (by omega) (fun hx => ?_)
    refine hg.page_ne_indirect h hi hn hx.1 hj (show (Slot.block k).Used _ from hk) (fun hc => ?_)
      (hp.symm.trans hx.2)
    cases hc.2

/-- Shrinking keeps the table. -/
theorem tableKept_shrunk (h : Shrinkable memory i n m) (size : ℕ) :
    TableKept memory (shrunk memory i n m size) i := by
  intro address ha
  have hr := ha.range
  have hclear := clearPages_outside memory h.freed_lt hr.1
  rw [←hclear]
  exact tableKept_putSize _ i size address ha

/-- Shrinking keeps the contents of every inode, of its own remaining blocks too. -/
theorem kept_shrunk (h : Owned memory live blocks) (hs : Shrinkable memory i (blocks i) m)
    (hi : live i) (size : ℕ) (hj : live j) :
    Kept memory (shrunk memory i (blocks i) m size) j (blocks j) := by
  have hout : ∀ address, 32≤address → (address<4096+64*i+12 ∨ 4096+64*i+16≤address) →
      shrunk memory i (blocks i) m size address=memory address :=
    fun address hl hr => shrunk_outside hs size hl hr
  have hb := h.blocks_le hj
  have hi64 := h.index i hi
  have hind : 2<blocks j → 2 ≤ iptrAt memory j := fun hb2 => (h.range j hj .indirect hb2).1
  refine ⟨fun slot hu => ?_,fun k hk address hp => ?_⟩
  · refine Slot.page_congr hu (fun address hl hr => hout address (by omega) (by omega)) ?_ ?_ (by omega)
    · intro hb2
      have hx := hind hb2
      omega
    · intro hb2 address he
      have hx := hind hb2
      exact hout address (by omega) (by omega)
  · have hr := h.range j hj (.block k) hk
    simp only [Slot.page] at hr
    exact hout address (by omega) (by omega)

end Owned

/-! ## Filling -/

/-- Only bytes in the block pages of one inode changed. -/
def Filled (memory next : Bytes) (i n : ℕ) : Prop :=
  ∀ address, (∀ k<n, ((address/4096 : ℕ) : ℤ)≠pnumAt memory i k) → next address=memory address

section Filled

variable {memory mid next : Bytes} {live : ℕ → Prop} {blocks : ℕ → ℕ} {i j : ℕ}

/-- Filling keeps the guarded bytes. -/
theorem Filled.agree (hf : Filled memory next i (blocks i)) (h : Owned memory live blocks)
    (hi : live i) : ∀ address, Guarded memory live blocks address → next address=memory address := by
  intro address hg
  exact hf address (fun k hk hp => h.block_not_guarded hi hk hp hg)

/-- Filling keeps ownership. -/
theorem Filled.owned (hf : Filled memory next i (blocks i)) (h : Owned memory live blocks)
    (hi : live i) : Owned next live blocks := h.of_agree (hf.agree h hi)

/-- Filling in two stages. -/
theorem Filled.trans (hf : Filled memory mid i (blocks i)) (hf' : Filled mid next i (blocks i))
    (h : Owned memory live blocks) (hi : live i) : Filled memory next i (blocks i) := by
  intro address hp
  rw [hf' address (fun k hk he => ?_),hf address hp]
  have hslot := h.page_of_agree (hf.agree h hi) hi (show (Slot.block k).Used _ from hk)
  simp only [Slot.page] at hslot
  exact hp k hk (he.trans hslot)

/-- Filling keeps the table. -/
theorem Filled.table (hf : Filled memory next i (blocks i)) (h : Owned memory live blocks)
    (hi : live i) : TableKept memory next i := by
  intro address ha
  have hr := ha.range
  refine hf address (fun k hk hp => ?_)
  have hx := h.range i hi (.block k) hk
  simp only [Slot.page] at hx
  omega

/-- Filling keeps the contents of the other inodes. -/
theorem Filled.kept (hf : Filled memory next i (blocks i)) (h : Owned memory live blocks)
    (hi : live i) (hj : live j) (hne : j≠i) : Kept memory next j (blocks j) := by
  refine Owned.kept h hj (hf.agree h hi) (fun k hk address hp => hf address (fun l hl he => ?_))
  exact hne (h.once j i hj hi (.block k) (.block l) hk hl (hp.symm.trans he)).1

end Filled

/-- The piece of one round, for a position before the end of the range. -/
theorem pieceEnd_eq {curr limit : ℕ} (h : curr<limit) (hr : limit≤1073741824) :
    pieceEnd curr limit=((min ((curr/4096+1)*4096) limit : ℕ) : ℤ) := by
  unfold pieceEnd
  rw [wrap32_of_range (by omega) (by omega),wrap32_of_range (by omega) (by omega)]
  omega

/-- `inode_get_pnum` finds the numbers of the blocks in use. -/
theorem inodeGetPnum_mapped {disk : Disk} {i n : ℕ} (h : Mapped disk.bytes i n) {k : ℕ}
    (hk : k<n) : inodeGetPnum (nodeOffset i) k disk=.ok (pnumAt disk.bytes i k) disk := by
  have hcount := h.count
  refine inodeGetPnum_ok h.index disk ?_
  by_cases hk2 : k<2
  · exact .inl hk2
  · have hx := h.indirect (by omega)
    exact .inr ⟨hx.1,hx.2,by omega⟩

/-- The block that holds a position, as an `int`. -/
theorem blockNumber_eq {curr : ℕ} (h : curr<1073741824) :
    wrap32 (Int.tdiv (curr : ℤ) 4096)=((curr/4096 : ℕ) : ℤ) := by
  rw [Int.tdiv_eq_ediv_of_nonneg (by omega),wrap32_of_range (by omega) (by omega)]
  omega

/-- The place of a position in its block. -/
theorem tmod_natCast (curr : ℕ) : Int.tmod (curr : ℤ) 4096=((curr%4096 : ℕ) : ℤ) := by
  rw [Int.tmod_eq_emod_of_nonneg (by omega)]
  omega

/-- One round writes from its position to the next page boundary or to the end
of the range, into a block that can be found. -/
theorem fillPiece_mapped {disk : Disk} {i n : ℕ} (h : Mapped disk.bytes i n) {curr limit : ℕ}
    (hc : curr<limit) (hl : limit≤4096*n) (source : ℕ → UInt8) :
    fillPiece (nodeOffset i) curr (pieceEnd curr limit) source disk=
      .ok () {disk with
        bytes := blit disk.bytes (4096*(pnumAt disk.bytes i (curr/4096)).toNat+curr%4096)
          (min ((curr/4096+1)*4096) limit-curr) source} := by
  have hcount := h.count
  have hk : curr/4096<n := by omega
  have hp := h.block _ hk
  have haddr : 4096*pnumAt disk.bytes i (curr/4096)+((curr%4096 : ℕ) : ℤ)=
      ((4096*(pnumAt disk.bytes i (curr/4096)).toNat+curr%4096 : ℕ) : ℤ) := by
    push_cast
    omega
  have hsize : (((min ((curr/4096+1)*4096) limit : ℕ) : ℤ)-(curr : ℤ)).toNat=
      min ((curr/4096+1)*4096) limit-curr := by omega
  unfold fillPiece
  rw [pieceEnd_eq hc (by omega),if_neg (by omega),if_neg (by omega),blockNumber_eq (by omega),
    tmod_natCast,bind_of_ok (inodeGetPnum_mapped h hk),pagesGetPage_eq (by omega) (by omega),haddr,
    hsize,writeBytes_ok (by omega)]

/-- One round writes from its position to the next page boundary or to the end
of the range. -/
theorem fillPiece_eq {disk : Disk} {live : ℕ → Prop} {blocks : ℕ → ℕ}
    (h : Owned disk.bytes live blocks) {i : ℕ} (hi : live i) {curr limit : ℕ} (hc : curr<limit)
    (hl : limit≤4096*blocks i) (source : ℕ → UInt8) {bytes : Bytes}
    (hw : bytes=blit disk.bytes (4096*(pnumAt disk.bytes i (curr/4096)).toNat+curr%4096)
      (min ((curr/4096+1)*4096) limit-curr) source) :
    fillPiece (nodeOffset i) curr (pieceEnd curr limit) source disk=
      .ok () {disk with bytes := bytes} := by
  rw [hw]
  exact fillPiece_mapped (h.placed hi).mapped hc hl source

/-- One round fills bytes of one block page. -/
theorem fillPiece_filled {disk next : Disk} {live : ℕ → Prop} {blocks : ℕ → ℕ}
    (h : Owned disk.bytes live blocks) {i : ℕ} (hi : live i) {curr limit : ℕ} (hc : curr<limit)
    (hl : limit≤4096*blocks i) {source : ℕ → UInt8}
    (hr : fillPiece (nodeOffset i) curr (pieceEnd curr limit) source disk=.ok () next) :
    Filled disk.bytes next.bytes i (blocks i) := by
  have hk : curr/4096<blocks i := by omega
  have hp := h.range i hi (.block (curr/4096)) hk
  simp only [Slot.page] at hp
  obtain ⟨_,hnext⟩ := EStateM.Result.ok.inj ((fillPiece_eq h hi hc hl source rfl).symm.trans hr)
  rw [←hnext]
  intro address ha
  refine blit_outside _ _ ?_
  have hne := ha _ hk
  omega

/-- The copy loop of `storage_write` fills block pages of its inode: by
induction on the rounds left. -/
theorem writeLoop_filled {live : ℕ → Prop} {blocks : ℕ → ℕ} {i : ℕ} (hi : live i)
    (buf : ℕ → UInt8) {total : ℕ} (hl : total≤4096*blocks i) (left : ℕ) :
    ∀ {curr skipped : ℕ} {disk next : Disk}, Owned disk.bytes live blocks →
    writeLoop (nodeOffset i) buf total left curr skipped disk=.ok () next →
      Filled disk.bytes next.bytes i (blocks i) := by
  induction left with
  | zero =>
    intro curr skipped disk next _ hr
    cases hr
  | succ left ih =>
    intro curr skipped disk next h hr
    have hb := h.blocks_le hi
    unfold writeLoop at hr
    by_cases hc : (curr : ℤ)%18446744073709551616<total
    · rw [if_pos hc] at hr
      obtain ⟨_,mid,hfill,hrest⟩ := bind_eq_ok.mp hr
      by_cases hcurr : curr<total
      · have hf := fillPiece_filled h hi hcurr hl hfill
        rw [pieceEnd_eq hcurr (by omega)] at hrest
        exact hf.trans (ih (hf.owned h hi) hrest) h hi
      · exact absurd hfill (by
          unfold fillPiece
          have hx : pieceEnd curr total≤total := by
            unfold pieceEnd
            have ht : wrap32 total=total := wrap32_of_range (by omega) (by omega)
            rw [ht]
            exact min_le_right _ _
          by_cases he : pieceEnd curr total<curr
          · rw [if_pos he]
            intro hcontra
            cases hcontra
          · rw [if_neg he,if_pos (by omega)]
            intro hcontra
            cases hcontra)
    · rw [if_neg hc] at hr
      obtain ⟨_,rfl⟩ := pure_eq_ok.mp hr
      exact fun _ _ => rfl

/-- The clearing loop of `storage_truncate` fills block pages of its inode. -/
theorem truncateLoop_filled {live : ℕ → Prop} {blocks : ℕ → ℕ} {i : ℕ} (hi : live i)
    {size : ℕ} (hl : size≤4096*blocks i) (left : ℕ) :
    ∀ {curr : ℕ} {disk next : Disk}, Owned disk.bytes live blocks →
    truncateLoop (nodeOffset i) size left curr disk=.ok () next →
      Filled disk.bytes next.bytes i (blocks i) := by
  induction left with
  | zero =>
    intro curr disk next _ hr
    cases hr
  | succ left ih =>
    intro curr disk next h hr
    have hb := h.blocks_le hi
    unfold truncateLoop at hr
    by_cases hc : (curr : ℤ) < size
    · have hcurr : curr < size := by omega
      rw [if_pos hc] at hr
      obtain ⟨_,mid,hfill,hrest⟩ := bind_eq_ok.mp hr
      have hf := fillPiece_filled h hi hcurr hl hfill
      rw [pieceEnd_eq hcurr (by omega)] at hrest
      exact hf.trans (ih (hf.owned h hi) hrest) h hi
    · rw [if_neg hc] at hr
      obtain ⟨_,rfl⟩ := pure_eq_ok.mp hr
      exact fun _ _ => rfl

end ComputerSystems.NufsFrame
