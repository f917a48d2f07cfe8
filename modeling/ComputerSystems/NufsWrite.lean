import ComputerSystems.NufsExhaustion
import ComputerSystems.NufsContent

/-!
# What a write leaves of its own file

`storage_write` first makes the size of the file the end of the written range
and then copies. When the range reaches the end of the file, only bytes of the
range change; when it ends before, the tail of the file is cut off. Both are
shown for every image that satisfies the ownership invariant and has enough
free pages: the call returns then.
-/

namespace ComputerSystems.NufsWrite

open StateProgram ByteMemory NufsImage NufsInode NufsPath NufsDirectory NufsStorage NufsCalls
  NufsOwnership NufsResize NufsFrame NufsContent NufsSound NufsIsolation NufsExhaustion

/-- After the write the file ends at its old end or at the end of the range,
whichever is later, and its bytes outside the range are the old ones. -/
def WriteConfined (disk : Disk) (i : ℕ) (path : List UInt8) (buf : ℕ → UInt8) (size : UInt64)
    (offset : Int64) : Prop :=
  ∃ result next, storageWrite path buf size offset disk=.ok result next ∧
    sizeAt next.bytes i=max (sizeAt disk.bytes i) (offset.toInt+size.toNat) ∧
    ∀ k : ℕ, (k : ℤ) < sizeAt disk.bytes i →
      ((k : ℤ) < offset.toInt ∨ offset.toInt+size.toNat≤(k : ℤ)) →
      fileByte next.bytes i k=fileByte disk.bytes i k

/-! ## Growing with enough free pages -/

/-- The pages of a number of blocks, with the indirect page. -/
def pagesFor (blocks : ℕ) : ℕ := if 2<blocks then blocks+1 else blocks

/-- More blocks take more pages. -/
theorem pagesFor_mono {n m : ℕ} (h : n ≤ m) : pagesFor n≤pagesFor m := by
  unfold pagesFor
  split <;> split <;> omega

/-- Every block takes a page. -/
theorem pagesFor_lt (n : ℕ) : pagesFor n<pagesFor (n+1) := by
  unfold pagesFor
  split <;> split <;> omega

/-- The free pages, in the order in which `alloc_page` takes them. -/
def freeList (memory : Bytes) : List ℕ :=
  (List.range' 1 255).filter (fun page => decide (pageBit memory page=false))

/-- The free list has the free pages. -/
theorem freePages_eq_length (memory : Bytes) : freePages memory=(freeList memory).length := rfl

/-- Storing outside the bitmap leaves the free pages alone. -/
theorem freeList_putInt (memory : Bytes) (value : ℤ) {start : ℕ} (hs : 32 ≤ start) :
    freeList (putInt memory start value)=freeList memory := by
  refine List.filter_congr (fun page hp => ?_)
  have hlt := List.mem_range'_1.mp hp
  rw [pageBit_putInt _ _ hs (by omega)]

/-- The free list from a page on before which every page is marked. -/
theorem freeList_eq {memory : Bytes} {page : ℕ} (hl : 1≤page) (hr : page<256)
    (he : ∀ earlier, 1≤earlier → earlier<page → pageBit memory earlier=true) :
    freeList memory=(if pageBit memory page=false then [page] else [])++
      (List.range' (page+1) (255-page)).filter (fun other => decide (pageBit memory other=false)) := by
  have hsplit : List.range' 1 255=List.range' 1 (page-1)++page::List.range' (page+1) (255-page) := by
    have hhead := @List.range'_append 1 (page-1) (256-page) 1
    rw [show page-1+(256-page)=255 by omega,show 1+1*(page-1)=page by omega,
      show 256-page=255-page+1 by omega,List.range'_succ] at hhead
    exact hhead.symm
  have hnone : (List.range' 1 (page-1)).filter (fun other => decide (pageBit memory other=false))=
      [] := by
    refine List.filter_eq_nil_iff.mpr (fun other ho => ?_)
    have hlt := List.mem_range'_1.mp ho
    rw [he other (by omega) (by omega)]
    decide
  rw [freeList,hsplit,List.filter_append,hnone,List.nil_append,List.filter_cons]
  by_cases hb : pageBit memory page=false
  · rw [if_pos hb,if_pos (decide_eq_true hb),List.singleton_append]
  · rw [if_neg hb,if_neg (fun hc => hb (of_decide_eq_true hc)),List.nil_append]

/-- While a page is free, `alloc_page` takes the first one, and the others stay
free. -/
theorem allocPage_taken {disk : Disk} {page : ℕ} {rest : List ℕ}
    (h : freeList disk.bytes=page::rest) :
    1≤page ∧ page<256 ∧ pageBit disk.bytes page=false ∧
      allocPage disk=.ok (page : ℤ) {disk with bytes := putBit disk.bytes 0 page true} ∧
      freeList (putBit disk.bytes 0 page true)=rest := by
  rcases allocPage_spec disk with ⟨first,hl,hr,hf,he,hd⟩|⟨hfull,_⟩
  · have hlist := freeList_eq hl hr he
    rw [if_pos hf,List.singleton_append,h] at hlist
    obtain ⟨rfl,hrest⟩ := List.cons.inj hlist
    refine ⟨hl,hr,hf,hd,?_⟩
    have hmarked : ∀ other, pageBit (putBit disk.bytes 0 page true) other=
        if other=page then true else pageBit disk.bytes other := fun other =>
      pageBit_putBit _ _ _ _
    rw [freeList_eq hl hr (fun earlier hle hlt => by
      rw [hmarked,if_neg (by omega)]
      exact he earlier hle hlt),hmarked,if_pos rfl,if_neg (by decide),List.nil_append,hrest]
    refine List.filter_congr (fun other ho => ?_)
    have hlt := List.mem_range'_1.mp ho
    rw [hmarked,if_neg (by omega)]
  · have hmem : page∈freeList disk.bytes := by
      rw [h]
      exact List.mem_cons_self
    obtain ⟨hrange,hf⟩ := List.mem_filter.mp hmem
    have hlt := List.mem_range'_1.mp hrange
    rw [hfull page (by omega) (by omega)] at hf
    exact absurd hf (by decide)

/-- The place in the free list of the page that block `k` gets when an inode of
`n` blocks grows past it. -/
def pageRank (n k : ℕ) : ℕ := pagesFor (k+1)-pagesFor n-1

section Growing

variable {live : ℕ → Prop} {blocks : ℕ → ℕ} {i n : ℕ}

/-- One round of `grow_inode` with enough free pages: it returns, adds a block
and takes the pages of that block from the front of the free list. -/
theorem growBlock_taken {disk : Disk} (h : Owned disk.bytes live blocks) (hi : live i)
    (hn : blocks i=n) (hfree : pagesFor (n+1) ≤ (freeList disk.bytes).length+pagesFor n) :
    ∃ next, growBlock (nodeOffset i) n disk=.ok () next ∧ next.denied=disk.denied ∧
      (freeList disk.bytes)[pageRank n n]?=some (pnumAt next.bytes i n).toNat ∧
      freeList next.bytes=(freeList disk.bytes).drop (pagesFor (n+1)-pagesFor n) := by
  have hi64 := h.index i hi
  have hb := h.blocks_le hi
  have htable : ∀ {page : ℕ}, 1≤page → pageBit disk.bytes page=false → 2≤page := by
    intro page hl hf
    by_contra hp
    obtain rfl : page=1 := by omega
    rw [h.table] at hf
    cases hf
  cases hlist : freeList disk.bytes with
  | nil =>
    have hcost := pagesFor_lt n
    rw [hlist,List.length_nil] at hfree
    omega
  | cons page rest =>
    obtain ⟨hl,hr,hf,halloc,hrest⟩ := allocPage_taken hlist
    have hdata := htable hl hf
    unfold growBlock
    by_cases hdirect : n<2
    · have hcost : pageRank n n=0 ∧ pagesFor (n+1)-pagesFor n=1 := by
        unfold pageRank pagesFor
        rw [if_neg (by omega),if_neg (by omega)]
        omega
      have haddr : nodeOffset i+16+4*(n : ℤ)=((4096+64*i+16+4*n : ℕ) : ℤ) := by
        unfold nodeOffset
        push_cast
        rfl
      rw [if_pos (by omega),bind_of_ok halloc,haddr,hcost.1,hcost.2]
      refine ⟨_,writeInt_ok (by omega) _ _,rfl,?_,?_⟩
      · dsimp only
        rw [pnumAt,if_pos hdirect,ptrAt,intAt_putInt_page _ _ hr]
        rfl
      · dsimp only
        rw [freeList_putInt _ _ (by omega),hrest]
        rfl
    · rw [if_neg (by omega)]
      by_cases hsecond : n=2
      · subst hsecond
        have hcost : pageRank 2 2=1 ∧ pagesFor (2+1)-pagesFor 2=2 := by decide
        rw [hlist,show pagesFor (2+1)=4 from rfl,show pagesFor 2=2 from rfl] at hfree
        cases hrest' : rest with
        | nil =>
          rw [hrest',List.length_singleton] at hfree
          omega
        | cons block rest' =>
          have hmid : freeList (putInt (putBit disk.bytes 0 page true) (4096+64*i+24) page)=
              block::rest' := by rw [freeList_putInt _ _ (by omega),hrest,hrest']
          obtain ⟨hl',hr',hf',halloc',hlast⟩ := allocPage_taken (show freeList
            ({disk with bytes := putInt (putBit disk.bytes 0 page true) (4096+64*i+24) page} :
              Disk).bytes=block::rest' from hmid)
          have haddr : pagesGetPage (page : ℤ)+4*(2-2)=((4096*page : ℕ) : ℤ) := by
            rw [pagesGetPage_eq (by omega) (by omega)]
            push_cast
            omega
          rw [if_pos (by rfl),growFirstIndirect,bind_of_ok halloc,
            bind_of_ok (writeIptr_ok hi64 _ _),growIndirect,bind_of_ok (readIptr_ok hi64 _),
            bind_of_ok halloc',hcost.1,hcost.2]
          dsimp only [iptrAt]
          rw [intAt_putInt_page _ _ hr,haddr]
          refine ⟨_,writeInt_ok (by omega) _ _,rfl,?_,?_⟩
          · have hind : iptrAt (putInt (putBit (putInt (putBit disk.bytes 0 page true)
                (4096+64*i+24) page) 0 block true) (4096*page) block) i=page := by
              rw [iptrAt,intAt_putInt_apart _ _ (by omega),intAt_putBit _ _ hr' (by omega),
                intAt_putInt_page _ _ hr]
            dsimp only
            rw [pnumAt,if_neg (by omega),hind,
              show (4096*(page : ℤ)).toNat+4*(2-2)=4096*page by omega,intAt_putInt_page _ _ hr']
            rfl
          · dsimp only
            dsimp only at hlast
            rw [freeList_putInt _ _ (by omega),hlast]
            rfl
      · have hcost : pageRank n n=0 ∧ pagesFor (n+1)-pagesFor n=1 := by
          unfold pageRank pagesFor
          rw [if_pos (by omega),if_pos (by omega)]
          omega
        have hrange := h.range i hi .indirect (by simp only [Slot.Used]; omega)
        simp only [Slot.page] at hrange
        obtain ⟨indirect,hind⟩ := Int.eq_ofNat_of_zero_le (show 0 ≤ iptrAt disk.bytes i by omega)
        have haddr : pagesGetPage (indirect : ℤ)+4*((n : ℤ)-2)=
            ((4096*indirect+4*(n-2) : ℕ) : ℤ) := by
          rw [pagesGetPage_eq (by omega) (by omega)]
          push_cast
          omega
        rw [if_neg (by omega),growIndirect,bind_of_ok (readIptr_ok hi64 _),bind_of_ok halloc,hind,
          haddr,hcost.1,hcost.2]
        refine ⟨_,writeInt_ok (by omega) _ _,rfl,?_,?_⟩
        · have hkeep : iptrAt (putInt (putBit disk.bytes 0 page true) (4096*indirect+4*(n-2)) page)
              i=indirect := by
            rw [iptrAt,intAt_putInt_apart _ _ (by omega),intAt_putBit _ _ hr (by omega)]
            exact hind
          dsimp only
          rw [pnumAt,if_neg (by omega),hkeep,
            show (4096*(indirect : ℤ)).toNat+4*(n-2)=4096*indirect+4*(n-2) by omega,
            intAt_putInt_page _ _ hr]
          rfl
        · dsimp only
          rw [freeList_putInt _ _ (by omega),hrest]
          rfl

/-- The loop of `grow_inode` with enough free pages: by induction on the rounds
left, carrying ownership and the pages that remain. The new blocks get the free
pages in order, after the indirect page where that is taken first. -/
theorem growLoop_taken (left : ℕ) : ∀ {blocks : ℕ → ℕ} {n : ℕ} (disk : Disk),
    Owned disk.bytes live blocks → live i → blocks i=n →
    pagesFor (n+left) ≤ (freeList disk.bytes).length+pagesFor n →
    ∃ next, growLoop (nodeOffset i) left n disk=.ok () next ∧ next.denied=disk.denied ∧
      ∀ k, n≤k → k<n+left →
        (freeList disk.bytes)[pageRank n k]?=some (pnumAt next.bytes i k).toNat := by
  induction left with
  | zero =>
    intro blocks n disk _ _ _ _
    exact ⟨disk,rfl,rfl,fun k hl hr => absurd hr (by omega)⟩
  | succ left ih =>
    intro blocks n disk h hi hn hfree
    have hmono := pagesFor_mono (show n+1≤n+(left+1) by omega)
    have hfirst := pagesFor_lt n
    obtain ⟨mid,hround,hdenied,hpage,hlist⟩ := growBlock_taken h hi hn (by omega)
    have hgrown := (growBlock_delivers h hi hn).of_returned hround hdenied
    have howned := owned_grow h hi hn hgrown
    have hself : Function.update blocks i (n+1) i=n+1 := Function.update_self i (n+1) blocks
    rw [show n+(left+1)=n+1+left by omega] at hfree hmono
    obtain ⟨next,hrest,hd,hpages⟩ := ih mid howned hi hself (by
      rw [hlist,List.length_drop]
      omega)
    rw [Nat.cast_add,Nat.cast_one] at hrest
    have hgrown' := (growLoop_delivers left mid howned hi hself).of_returned
      (by rw [Nat.cast_add,Nat.cast_one]; exact hrest) hd
    refine ⟨next,?_,hd.trans hdenied,fun k hl hr => ?_⟩
    · rw [growLoop,bind_of_ok hround]
      exact hrest
    · rcases Nat.eq_or_lt_of_le hl with he|hlt
      · subst he
        have hkeep := hgrown'.keep (.block n) (Nat.lt_succ_self n)
        simp only [Slot.page] at hkeep
        rw [hkeep]
        exact hpage
      · have hlater := hpages k hlt (by omega)
        have hstep := pagesFor_mono (show n+1≤k by omega)
        have hcost := pagesFor_lt k
        rw [hlist,List.getElem?_drop] at hlater
        rw [←hlater]
        congr 1
        unfold pageRank
        omega

/-- `grow_inode` with enough free pages. -/
theorem growInode_taken {disk : Disk} (h : Owned disk.bytes live blocks) (hi : live i)
    {old size : ℕ} (hs : sizeAt disk.bytes i=old) (hb : blocks i=(old+4095)/4096)
    (hle : old ≤ size) (hlt : size<2147483648)
    (hfree : pagesFor ((size+4095)/4096) ≤ freePages disk.bytes+pagesFor ((old+4095)/4096)) :
    ∃ next grown, growInode (nodeOffset i) size disk=.ok (size : ℤ) next ∧
      next.denied=disk.denied ∧ Grown disk.bytes grown i ((old+4095)/4096) ((size+4095)/4096) ∧
      next.bytes=putInt grown (4096+64*i+12) size ∧
      ∀ k, (old+4095)/4096≤k → k<(size+4095)/4096 →
        (freeList disk.bytes)[pageRank ((old+4095)/4096) k]?=some (pnumAt grown i k).toNat := by
  have hi64 := h.index i hi
  have hrounds : (bytesToPages size-bytesToPages old).toNat=
      (size+4095)/4096-(old+4095)/4096 := by
    rw [bytesToPages_natCast,bytesToPages_natCast]
    omega
  have hsum : (old+4095)/4096+((size+4095)/4096-(old+4095)/4096)=(size+4095)/4096 := by omega
  obtain ⟨mid,hloop,hdenied,hpages⟩ :=
    growLoop_taken ((size+4095)/4096-(old+4095)/4096) disk h hi hb (by
      rw [hsum]
      exact hfree)
  have hgrown := (growLoop_delivers _ disk h hi hb).of_returned hloop hdenied
  rw [hsum] at hgrown hpages
  have hok : growInode (nodeOffset i) size disk=
      (writeInt (nodeOffset i+12) size >>= fun _ => readInt (nodeOffset i+12)) mid := by
    rw [growInode,bind_of_ok (readSize_ok hi64 disk),hs,hrounds,bytesToPages_natCast,
      bind_of_ok hloop]
  rw [bind_of_ok (writeSize_ok hi64 _ _),readSize_ok hi64 _] at hok
  dsimp only [sizeAt] at hok
  rw [intAt_putInt,wrap32_of_range (by omega) (by omega)] at hok
  exact ⟨_,mid.bytes,hok,hdenied,hgrown,rfl,hpages⟩

/-- `grow_inode` with enough free pages, whatever pages it takes. -/
theorem growInode_granted {disk : Disk} (h : Owned disk.bytes live blocks) (hi : live i)
    {old size : ℕ} (hs : sizeAt disk.bytes i=old) (hb : blocks i=(old+4095)/4096)
    (hle : old ≤ size) (hlt : size<2147483648)
    (hfree : pagesFor ((size+4095)/4096) ≤ freePages disk.bytes+pagesFor ((old+4095)/4096)) :
    ∃ next grown, growInode (nodeOffset i) size disk=.ok (size : ℤ) next ∧
      Grown disk.bytes grown i ((old+4095)/4096) ((size+4095)/4096) ∧
      next.bytes=putInt grown (4096+64*i+12) size := by
  obtain ⟨next,grown,hok,_,hg,hbytes,_⟩ := growInode_taken h hi hs hb hle hlt hfree
  exact ⟨next,grown,hok,hg,hbytes⟩

end Growing

/-! ## Copying -/

section Copying

variable {live : ℕ → Prop} {blocks : ℕ → ℕ} {i : ℕ}

/-- Only bytes of one range of a file changed, and its slots hold the pages
they held. -/
structure RangeFilled (memory next : Bytes) (i n start finish : ℕ) : Prop where
  /-- Only bytes of the file's blocks changed. -/
  filled : Filled memory next i n
  /-- Bytes of the file outside the range are kept. -/
  outside : ∀ k, k/4096<n → (k < start ∨ finish≤k) → fileByte next i k=fileByte memory i k

/-- The copy loop of `storage_write` with rounds enough changes its range only. -/
theorem writeLoop_returns (hi : live i) (buf : ℕ → UInt8) {total : ℕ}
    (hl : total≤4096*blocks i) (left : ℕ) {curr skipped : ℕ} {disk : Disk}
    (h : Owned disk.bytes live blocks) (hc : curr≤total) (hleft : 1≤left)
    (hrounds : curr<total → total/4096+2≤curr/4096+left) :
    ∃ next, writeLoop (nodeOffset i) buf total left curr skipped disk=.ok () next ∧
      RangeFilled disk.bytes next.bytes i (blocks i) curr total := by
  obtain ⟨next,hok,hwritten⟩ := writeLoop_written buf hl left curr skipped (h.placed hi) hc hleft
    hrounds
  exact ⟨next,hok,hwritten.filled,hwritten.outside⟩

end Copying

/-! ## A range that reaches the end of the file -/

/-- Pages in the terms of a size. -/
theorem dataPages_natCast (size : ℕ) : dataPages size=pagesFor ((size+4095)/4096) := rfl

/-- Enough free pages for a size, in natural numbers; such a size is small. -/
theorem granted_of_pages {disk : Disk} {i old total : ℕ}
    (h : Owned disk.bytes (Live disk.bytes) (blocksAt disk.bytes)) (hi : Live disk.bytes i)
    (hs : sizeAt disk.bytes i=old) (hfree : ¬PagesShort disk.bytes i total) :
    total<2147483648 ∧
      pagesFor ((total+4095)/4096) ≤ freePages disk.bytes+pagesFor ((old+4095)/4096) := by
  have hblocks := h.blocks_le hi
  rw [blocksAt_of_size hs] at hblocks
  rw [PagesShort,hs,dataPages_natCast,dataPages_natCast] at hfree
  have hbound : freePages disk.bytes≤255 :=
    (Finset.card_filter_le _ _).trans (by rw [Nat.card_Ico])
  have hold : pagesFor ((old+4095)/4096)≤255 := by
    unfold pagesFor
    split <;> omega
  have hpages : pagesFor ((total+4095)/4096)≤510 := by omega
  refine ⟨?_,by omega⟩
  unfold pagesFor at hpages
  split at hpages <;> omega

/-- A resize to a size that is not smaller, with enough free pages. -/
theorem resizeForWrite_granted {disk : Disk} {i old total : ℕ}
    (h : Owned disk.bytes (Live disk.bytes) (blocksAt disk.bytes)) (hi : Live disk.bytes i)
    (hs : sizeAt disk.bytes i=old) (hle : old≤total) (hlt : total<2147483648)
    (hfree : pagesFor ((total+4095)/4096) ≤ freePages disk.bytes+pagesFor ((old+4095)/4096)) :
    ∃ next, resizeForWrite (nodeOffset i) old total disk=.ok () next ∧
      Owned next.bytes (Live disk.bytes)
        (Function.update (blocksAt disk.bytes) i ((total+4095)/4096)) ∧
      sizeAt next.bytes i=total ∧ Kept disk.bytes next.bytes i ((old+4095)/4096) := by
  have hb := blocksAt_of_size hs
  unfold resizeForWrite
  by_cases hgrow : old<total
  · obtain ⟨next,grown,hok,hg,hbytes⟩ := growInode_granted h hi hs hb hle hlt hfree
    have howned := owned_grow h hi hb hg
    refine ⟨next,?_,?_,?_,?_⟩
    · rw [if_pos (by omega),bind_of_ok hok]
      rfl
    · rw [hbytes]
      exact owned_putHeader 12 howned hi.1 (by omega) total
    · rw [hbytes,sizeAt,intAt_putInt,wrap32_of_range (by omega) (by omega)]
    · rw [hbytes]
      have hkept := Grown.kept hg h hi hb hi
      have hput := kept_putHeader 12 howned hi.1 (by omega) (total : ℤ) hi
      rw [hb] at hkept
      rw [Function.update_self] at hput
      exact hkept.trans (hput.mono (by omega))
  · obtain rfl : old=total := by omega
    refine ⟨disk,?_,?_,hs,fun _ _ => rfl,fun _ _ _ _ => rfl⟩
    · rw [if_neg (by omega),if_neg (by omega)]
      rfl
    · rw [←hb,Function.update_eq_self]
      exact h

/-- A write whose range reaches the end of the file changes only the range. -/
theorem confined_of_reach {disk : Disk} {i : ℕ} {path : List UInt8} {size : UInt64}
    {offset : Int64} (h : Owned disk.bytes (Live disk.bytes) (blocksAt disk.bytes))
    (hl : treeLookup path disk=.ok (i : ℤ) disk) (hi : Live disk.bytes i) (h0 : 0≤offset.toInt)
    (hs : offset.toInt ≤ sizeAt disk.bytes i)
    (hfree : ¬PagesShort disk.bytes i (offset.toInt+size.toNat))
    (hreach : sizeAt disk.bytes i≤offset.toInt+size.toNat) (buf : ℕ → UInt8) :
    WriteConfined disk i path buf size offset := by
  obtain ⟨start,hstart⟩ := Int.eq_ofNat_of_zero_le h0
  obtain ⟨old,hold⟩ := Int.eq_ofNat_of_zero_le (h0.trans hs)
  have hb := blocksAt_of_size hold
  have hsum : offset.toInt+size.toNat=((start+size.toNat : ℕ) : ℤ) := by
    rw [hstart]
    push_cast
    rfl
  rw [hsum] at hfree
  obtain ⟨hsmall,hpages⟩ := granted_of_pages h hi hold hfree
  obtain ⟨mid,hresize,howned,hsize,hkept⟩ := resizeForWrite_granted h hi hold
    (show old ≤ start+size.toNat by omega) hsmall hpages
  have hnew := howned.blocks_le hi
  rw [Function.update_self] at hnew
  obtain ⟨next,hloop,hrange⟩ := writeLoop_returns hi buf
    (show start+size.toNat≤4096*Function.update (blocksAt disk.bytes) i
      ((start+size.toNat+4095)/4096) i by rw [Function.update_self]; omega)
    loopRounds howned (show start ≤ start+size.toNat by omega) (by decide)
    (fun _ => by simp only [loopRounds]; omega)
  have hcall : storageWrite path buf size offset disk=.ok (wrap32 size.toNat) next := by
    rw [storageWrite_eq hi.1 hl,hsum,hold,hstart,wrap32_of_range (by omega) (by omega),
      bind_of_ok hresize,Int.emod_eq_of_lt (by omega) (by omega),bind_of_ok hloop]
    rfl
  refine ⟨_,next,hcall,?_,?_⟩
  · rw [size_filled hrange.filled (howned.placed hi),hsize,hold]
    omega
  · intro k hk hout
    have hblock : k/4096<(old+4095)/4096 := by omega
    have hpage := h.range i hi (.block (k/4096)) (by rw [hb]; exact hblock)
    simp only [Slot.page] at hpage
    rw [hrange.outside k (by rw [Function.update_self]; omega) (by omega),
      hkept.fileByte hblock (by omega)]

/-! ## A range that ends before the file does -/

/-- Every byte is kept or becomes a given one. -/
def KeptOr (byte : UInt8) (disk next : Disk) : Prop :=
  ∀ address, next.bytes address=disk.bytes address ∨ next.bytes address=byte

/-- Keeping bytes or giving them one value is a preorder. -/
instance (byte : UInt8) : IsPreorder Disk (KeptOr byte) where
  refl := fun _ _ => .inl rfl
  trans := by
    intro a b c h h' address
    rcases h' address with hk|hk
    · rw [hk]
      exact h address
    · exact .inr hk

/-- A block write of one byte. -/
theorem writeBytes_keptOr (byte : UInt8) (offset : ℤ) (count : ℕ) :
    Moves (KeptOr byte) (writeBytes offset count (fun _ => byte)) := by
  intro disk address
  by_cases h : 0≤offset ∧ offset+count≤1048576
  · simp only [after,writeBytes,if_pos h,blit]
    split
    · exact .inr rfl
    · exact .inl rfl
  · simp only [after,writeBytes,if_neg h,true_or]

/-- The copy loop on a buffer of one byte value, whatever pages it finds. -/
theorem writeLoop_keptOr (byte : UInt8) (node total : ℤ) (left : ℕ) (curr : ℤ) (skipped : ℕ) :
    Moves (KeptOr byte) (writeLoop node (fun _ => byte) total left curr skipped) := by
  induction left generalizing curr skipped with
  | zero => exact moves_throw _
  | succ left ih =>
    unfold writeLoop
    refine moves_ite (moves_bind ?_ (fun _ => ih _ _)) (moves_pure _)
    unfold fillPiece
    refine moves_ite (moves_throw _) (moves_ite (moves_throw _) (moves_bind ?_ (fun pnum =>
      writeBytes_keptOr byte _ _)))
    intro disk address
    rw [←inodeGetPnum_readOnly node _ disk]
    exact .inl rfl

/-- Equal ints have equal bytes. -/
theorem byte_eq_of_intAt_eq {memory memory' : Bytes} {start : ℕ}
    (h : intAt memory start=intAt memory' start) {k : ℕ} (hk : k<4) :
    memory (start+k)=memory' (start+k) := by
  have hlt := wordAt_lt memory start 4
  have hlt' := wordAt_lt memory' start 4
  have hword : wordAt memory start 4=wordAt memory' start 4 := by
    rw [intAt,intAt,wrap32_eq_bmod,wrap32_eq_bmod] at h
    unfold Int.bmod at h
    dsimp only at h
    split at h <;> split at h <;> omega
  exact byte_eq_of_wordAt_eq hword hk

/-- A write whose range ends before the file does cuts the file: some buffer
shows it. -/
theorem cut_of_short {disk : Disk} {i : ℕ} {path : List UInt8} {size : UInt64} {offset : Int64}
    (hl : treeLookup path disk=.ok (i : ℤ) disk) (hi : i<64) (h0 : 0≤offset.toInt)
    (hshort : offset.toInt+size.toNat < sizeAt disk.bytes i) :
    ∃ buf, ¬WriteConfined disk i path buf size offset := by
  have hrange : sizeAt disk.bytes i<2147483648 := (intAt_range disk.bytes (4096+64*i+12)).2
  cases hresize : resizeForWrite (nodeOffset i) (sizeAt disk.bytes i)
      (wrap32 (offset.toInt+size.toNat)) disk with
  | error fault mid =>
    refine ⟨fun _ => 0,?_⟩
    rintro ⟨result,next,hok,_⟩
    rw [storageWrite_eq hi hl,bind_of_error hresize] at hok
    cases hok
  | ok value mid =>
    have hmid := (size_of_resize hi (wrap32_range _) rfl hresize).1
    rw [wrap32_of_range (by omega) (by omega)] at hmid
    obtain ⟨k,hk,hne⟩ : ∃ k<4, mid.bytes (4096+64*i+12+k)≠disk.bytes (4096+64*i+12+k) := by
      by_contra hall
      have hsame : sizeAt mid.bytes i=sizeAt disk.bytes i :=
        intAt_shift (fun k hk => by
          by_contra hne
          exact hall ⟨k,hk,hne⟩)
      omega
    refine ⟨fun _ => disk.bytes (4096+64*i+12+k)+1,?_⟩
    rintro ⟨result,next,hok,hsize,_⟩
    rw [storageWrite_eq hi hl,bind_of_ok hresize] at hok
    obtain ⟨_,last,hloop,hlast⟩ := bind_eq_ok.mp hok
    obtain ⟨_,rfl⟩ := pure_eq_ok.mp hlast
    have hmoves := writeLoop_keptOr (disk.bytes (4096+64*i+12+k)+1) (nodeOffset i)
      ((offset.toInt+size.toNat)%18446744073709551616) loopRounds offset.toInt 0 mid
      (4096+64*i+12+k)
    rw [after_of_ok hloop] at hmoves
    rw [max_eq_left hshort.le] at hsize
    have hbyte := byte_eq_of_intAt_eq hsize hk
    rcases hmoves with hkept|hset
    · exact hne (hkept.symm.trans hbyte)
    · have hnat := congrArg UInt8.toNat (hset.symm.trans hbyte)
      have hlt := (disk.bytes (4096+64*i+12+k)).toNat_lt
      rw [UInt8.toNat_add] at hnat
      change ((disk.bytes (4096+64*i+12+k)).toNat+1)%256=_ at hnat
      omega

/-- Under the ownership invariant and with enough free pages, a write into a
file confines itself to the written range, whatever the buffer, exactly when
the range reaches the end of the file. -/
theorem write_confined_iff {disk : Disk} {i : ℕ} {path : List UInt8} {size : UInt64}
    {offset : Int64} (h : Owned disk.bytes (Live disk.bytes) (blocksAt disk.bytes))
    (hl : treeLookup path disk=.ok (i : ℤ) disk) (hi : Live disk.bytes i) (h0 : 0≤offset.toInt)
    (hs : offset.toInt ≤ sizeAt disk.bytes i)
    (hfree : ¬PagesShort disk.bytes i (offset.toInt+size.toNat)) :
    (∀ buf, WriteConfined disk i path buf size offset) ↔
      sizeAt disk.bytes i≤offset.toInt+size.toNat := by
  constructor
  · intro hall
    by_contra hshort
    obtain ⟨buf,hbuf⟩ := cut_of_short hl hi.1 h0 (not_le.mp hshort)
    exact hbuf (hall buf)
  · intro hreach buf
    exact confined_of_reach h hl hi h0 hs hfree hreach buf

/-- Writing two bytes into `/a`. -/
def writeTwo : Call := .write (render [nameA]) (fun _ => 7) 2 0

/-- The image with the file `/a` of two bytes. -/
def withTwoBytes : Disk := after (exec writeTwo) withA

/-- A lookup of `/a` whose value was evaluated. -/
theorem lookup_of_passes {disk : Disk} (h : passes (treeLookup (render [nameA])) disk
    (fun value _ => decide (value=1))=true) :
    treeLookup (render [nameA]) disk=.ok (1 : ℤ) disk := (treeLookup_readOnly _).returns h

/-- The file `/a` is inode 1, before and after the two bytes are written. -/
theorem lookup_a : treeLookup (render [nameA]) withA=.ok (1 : ℤ) withA ∧
    treeLookup (render [nameA]) withTwoBytes=.ok (1 : ℤ) withTwoBytes :=
  ⟨lookup_of_passes (by decide +kernel),lookup_of_passes (by decide +kernel)⟩

/-- Resizing the empty file to a size that is an `int` fits. -/
theorem resizeFits_withA {size : ℤ} (hl : 0 ≤ size) (hr : size<2147483648) :
    ∀ i : ℕ, treeLookup (render [nameA]) withA=.ok (i : ℤ) withA →
      ResizeFits withA.bytes i size := by
  intro i hlookup
  have hone : i=1 := by
    rw [lookup_a.1] at hlookup
    exact (Int.ofNat_inj.mp (EStateM.Result.ok.inj hlookup).1).symm
  subst hone
  refine ⟨⟨by decide,by decide +kernel⟩,hl,hr,fun hlt => ?_⟩
  have hz : sizeAt withA.bytes 1=0 := by decide +kernel
  omega

/-- The image with `/a` is reached by a clean run. -/
theorem reachable_withA : NufsStorage.Reachable Clean withA :=
  NufsStorage.Reachable.call Relation.ReflTransGen.refl clean_createA (by decide +kernel)

/-- The image with a file of two bytes is sound. -/
theorem sound_withTwoBytes : Sound withTwoBytes.bytes :=
  sound_of_reachable (NufsStorage.Reachable.call reachable_withA
    (show Clean withA writeTwo from resizeFits_withA (by decide +kernel) (by decide +kernel))
    (by decide +kernel))

/-- Ownership holds in the image with a file of two bytes. -/
theorem owned_withTwoBytes : Owned withTwoBytes.bytes (Live withTwoBytes.bytes)
    (blocksAt withTwoBytes.bytes) := sound_withTwoBytes.owned

/-- Appending two bytes at offset 1 of the file of two bytes confines itself to
bytes 1 and 2, whatever the buffer. -/
theorem append_confined : sizeAt withTwoBytes.bytes 1=2 ∧
    ∀ buf, WriteConfined withTwoBytes 1 (render [nameA]) buf 2 1 := by
  have hsize : sizeAt withTwoBytes.bytes 1=2 := by decide +kernel
  refine ⟨hsize,(write_confined_iff owned_withTwoBytes lookup_a.2 ⟨by decide,by decide +kernel⟩
    (by decide +kernel) (by rw [hsize]; decide +kernel) ?_).mpr (by rw [hsize]; decide +kernel)⟩
  unfold PagesShort
  decide +kernel

/-- Overwriting the first byte of the file of two bytes cuts the second one
off. -/
theorem overwrite_cuts : Owned withTwoBytes.bytes (Live withTwoBytes.bytes)
      (blocksAt withTwoBytes.bytes) ∧ Live withTwoBytes.bytes 1 ∧
    sizeAt withTwoBytes.bytes 1=2 ∧ ¬PagesShort withTwoBytes.bytes 1 1 ∧
    ¬WriteConfined withTwoBytes 1 (render [nameA]) (fun _ => 9) 1 0 := by
  have hsize : sizeAt withTwoBytes.bytes 1=2 := by decide +kernel
  refine ⟨owned_withTwoBytes,⟨by decide,by decide +kernel⟩,hsize,?_,?_⟩
  · unfold PagesShort
    decide +kernel
  · rintro ⟨result,next,hok,hnext,_⟩
    have hpass : passes (storageWrite (render [nameA]) (fun _ => 9) 1 0) withTwoBytes
        (fun _ next => decide (sizeAt next.bytes 1=1))=true := by decide +kernel
    have hone := test_of_passes hpass hok
    rw [of_decide_eq_true hone,hsize] at hnext
    exact absurd hnext (by decide +kernel)

end ComputerSystems.NufsWrite
