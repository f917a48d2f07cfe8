import ComputerSystems.NufsStored

/-!
# The gap that a write leaves

A write past the end of a file grows the file and copies its own range; the
bytes between the old end and the range are what the pages held before. They
are zero exactly when the gap falls on zero bytes, and they always are in runs
that take nothing away: then every byte of a data page that is not zero belongs
to a file.
-/

namespace ComputerSystems.NufsGap

open StateProgram ByteMemory NufsImage NufsInode NufsPath NufsDirectory NufsStorage NufsCalls
  NufsOwnership NufsResize NufsFrame NufsEntry NufsContent NufsSound NufsIsolation NufsExhaustion
  NufsWrite NufsRead NufsAccounting NufsStored

/-! ## What the gap falls on -/

/-- The page that a block will have once the inode has grown past it: its own,
or the page that `alloc_page` will have come to by then. -/
def comingPage (memory : Bytes) (i block : ℕ) : ℕ :=
  if block<blocksAt memory i then (pnumAt memory i block).toNat
  else (freeList memory).getD (pageRank (blocksAt memory i) block) 0

/-- Between the end of the file and the offset lie zero bytes only. -/
def GapBlank (memory : Bytes) (i offset : ℕ) : Prop :=
  ∀ position : ℕ, sizeAt memory i≤position → position<offset →
    memory (4096*comingPage memory i (position/4096)+position%4096)=0

/-- The write returns its size, and the file reads as zeros between its old end
and the offset. -/
def GapZero (disk : Disk) (i : ℕ) (path : List UInt8) (buf : ℕ → UInt8) (size : UInt64)
    (offset : Int64) : Prop :=
  ∃ next, storageWrite path buf size offset disk=.ok (size.toNat : ℤ) next ∧
    ∀ position : ℕ, sizeAt disk.bytes i≤position → (position : ℤ)<offset.toInt →
      fileByte next.bytes i position=0

/-- Growing gives every new block the page it was coming to. -/
theorem comingPage_grown {disk : Disk} {i old size : ℕ} (hs : sizeAt disk.bytes i=old)
    {grown : Bytes} (hg : Grown disk.bytes grown i ((old+4095)/4096) ((size+4095)/4096))
    (hpages : ∀ k, (old+4095)/4096≤k → k<(size+4095)/4096 →
      (freeList disk.bytes)[pageRank ((old+4095)/4096) k]?=some (pnumAt grown i k).toNat)
    {block : ℕ} (hb : block<(size+4095)/4096) :
    comingPage disk.bytes i block=(pnumAt grown i block).toNat := by
  rw [comingPage,blocksAt_of_size hs]
  by_cases hk : block<(old+4095)/4096
  · have hkeep := hg.keep (.block block) hk
    simp only [Slot.page] at hkeep
    rw [if_pos hk,hkeep]
  · rw [if_neg hk,List.getD_eq_getElem?_getD,hpages block (by omega) hb,Option.getD_some]

/-- Bytes of blocks are not written while an inode grows. -/
theorem grown_block_byte {memory grown : Bytes} {live : ℕ → Prop} {blocks : ℕ → ℕ} {i n m : ℕ}
    (h : Owned memory live blocks) (hi : live i) (hn : blocks i=n) (hg : Grown memory grown i n m)
    {block inner : ℕ} (hb : block < m) (hin : inner<4096) :
    grown (4096*(pnumAt grown i block).toNat+inner)=
      memory (4096*(pnumAt grown i block).toNat+inner) := by
  have howned := owned_grow h hi hn hg
  have hi64 := h.index i hi
  have hused : (Slot.block block).Used (Function.update blocks i m i) := by
    rw [Function.update_self]
    exact hb
  have hr := howned.range i hi (.block block) hused
  simp only [Slot.page] at hr
  refine hg.frame _ (by omega) (by omega) (fun hind => ?_)
  have honce := howned.once i i hi hi (.block block) .indirect hused
    (by rw [Function.update_self]; exact hind.1) (by simp only [Slot.page]; omega)
  cases honce.2

/-- A write past the end of a file leaves the bytes of the gap as its pages held
them. -/
theorem storageWrite_gap {disk : Disk} {i : ℕ} {path : List UInt8} {size : UInt64} {offset : Int64}
    (h : Owned disk.bytes (Live disk.bytes) (blocksAt disk.bytes))
    (hl : treeLookup path disk=.ok (i : ℤ) disk) (hi : Live disk.bytes i) {old start : ℕ}
    (hs : sizeAt disk.bytes i=old) (ho : offset.toInt=start) (hlt : old < start)
    (hfree : ¬PagesShort disk.bytes i (offset.toInt+size.toNat)) (buf : ℕ → UInt8) :
    ∃ next, storageWrite path buf size offset disk=.ok (size.toNat : ℤ) next ∧
      ∀ position, position < start → old≤position → fileByte next.bytes i position=
        disk.bytes (4096*comingPage disk.bytes i (position/4096)+position%4096) := by
  have hsum : offset.toInt+size.toNat=((start+size.toNat : ℕ) : ℤ) := by
    rw [ho]
    push_cast
    rfl
  rw [hsum] at hfree
  have hb := blocksAt_of_size hs
  have hi64 := hi.1
  obtain ⟨hsmall,hpages⟩ := granted_of_pages h hi hs hfree
  obtain ⟨mid,grown,hgrow,_,hg,hbytes,htaken⟩ :=
    growInode_taken h hi hs hb (show old ≤ start+size.toNat by omega) hsmall hpages
  have hext := extended_of_grown h hi hs hsmall hg (by omega) hbytes
  have hlive : Live mid.bytes i := ⟨hi64,by rw [hext.inodes i hi64]; exact hi.2⟩
  have hplaced : Placed mid.bytes i ((start+size.toNat+4095)/4096) := by
    rw [←blocksAt_of_size hext.size]
    exact hext.owned.placed hlive
  have hblocks := hplaced.blocks_le
  obtain ⟨next,hloop,hwritten⟩ := writeLoop_written buf
    (show start+size.toNat≤4096*((start+size.toNat+4095)/4096) by omega) loopRounds start 0
    hplaced (by omega) (by decide) (fun _ => by simp only [loopRounds]; omega)
  refine ⟨next,?_,fun position hr hle => ?_⟩
  · have hresize : resizeForWrite (nodeOffset i) old ((start+size.toNat : ℕ) : ℤ) disk=
        .ok () mid := by
      unfold resizeForWrite
      rw [if_pos (by omega),bind_of_ok hgrow]
      rfl
    rw [storageWrite_eq hi64 hl,hsum,hs,ho,wrap32_of_range (by omega) (by omega),
      bind_of_ok hresize,Int.emod_eq_of_lt (by omega) (by omega),bind_of_ok hloop,
      wrap32_of_range (by omega) (by omega)]
    rfl
  · have hblock : position/4096<(start+size.toNat+4095)/4096 := by omega
    have hslot := page_putSize (owned_grow h hi hb hg) hi ((start+size.toNat : ℕ) : ℤ)
      (show (Slot.block (position/4096)).Used _ by rw [Function.update_self]; exact hblock)
    have hr2 := hplaced.range (.block (position/4096)) hblock
    rw [←hbytes] at hslot
    simp only [Slot.page] at hslot hr2
    rw [hwritten.outside position hblock (.inl hr),fileByte,hslot,comingPage_grown hs hg htaken
      hblock,hbytes,putInt_outside _ _ (by omega),
      grown_block_byte h hi hb hg hblock (Nat.mod_lt _ (by decide))]

/-- Under the ownership invariant and with enough free pages, the gap of a write
past the end of a file reads as zeros exactly when it falls on zero bytes. -/
theorem gapZero_iff {disk : Disk} {i : ℕ} {path : List UInt8} {size : UInt64} {offset : Int64}
    (h : Owned disk.bytes (Live disk.bytes) (blocksAt disk.bytes))
    (hl : treeLookup path disk=.ok (i : ℤ) disk) (hi : Live disk.bytes i)
    (hs : 0 ≤ sizeAt disk.bytes i) (hlt : sizeAt disk.bytes i<offset.toInt)
    (hfree : ¬PagesShort disk.bytes i (offset.toInt+size.toNat)) (buf : ℕ → UInt8) :
    GapZero disk i path buf size offset ↔ GapBlank disk.bytes i offset.toInt.toNat := by
  obtain ⟨old,hold⟩ := Int.eq_ofNat_of_zero_le hs
  obtain ⟨start,hstart⟩ := Int.eq_ofNat_of_zero_le (hs.trans hlt.le)
  obtain ⟨next,hok,hgap⟩ := storageWrite_gap h hl hi hold hstart (by omega) hfree buf
  unfold GapZero GapBlank
  rw [hold,hstart,Int.toNat_natCast]
  constructor
  · rintro ⟨next',hok',hzero⟩ position hle hlt'
    obtain ⟨_,rfl⟩ := EStateM.Result.ok.inj (hok.symm.trans hok')
    rw [←hgap position hlt' (by omega)]
    exact hzero position hle (by omega)
  · intro hblank
    refine ⟨next,hok,fun position hle hlt' => ?_⟩
    rw [hgap position (by omega) (by omega)]
    exact hblank position hle (by omega)

/-! ## Images without left-over bytes -/

/-- A byte of the data pages that belongs to a live inode, to its content or to
its indirect page. -/
def InUse (memory : Bytes) (address : ℕ) : Prop :=
  ∃ j, Live memory j ∧ ((∃ k<blocksAt memory j, ((address/4096 : ℕ) : ℤ)=pnumAt memory j k ∧
      ((4096*k+address%4096 : ℕ) : ℤ) < sizeAt memory j) ∨
    (2<blocksAt memory j ∧ ((address/4096 : ℕ) : ℤ)=iptrAt memory j))

/-- Every byte of a data page that is not zero is in use. -/
def Scrubbed (memory : Bytes) : Prop :=
  ∀ address, 8192≤address → memory address≠0 → InUse memory address

/-- Live inodes stay, do not get smaller and keep their pages. -/
structure Extends (memory next : Bytes) : Prop where
  /-- Live inodes stay live. -/
  live : ∀ j, Live memory j → Live next j
  /-- They do not get smaller. -/
  size : ∀ j, Live memory j → sizeAt memory j ≤ sizeAt next j
  /-- Their slots keep their pages. -/
  slots : ∀ j, Live memory j → ∀ slot : Slot, slot.Used (blocksAt memory j) →
    slot.page next j=slot.page memory j

section Scrubbed

variable {memory next : Bytes} {i : ℕ}

/-- Live inodes keep their blocks. -/
theorem Extends.blocks (he : Extends memory next) (hs : Sound memory) {j : ℕ}
    (hj : Live memory j) : blocksAt memory j≤blocksAt next j := by
  obtain ⟨s,hsize,hb⟩ := hs.size_natCast hj
  have hle := he.size j hj
  obtain ⟨s',hsize'⟩ := Int.eq_ofNat_of_zero_le (show 0 ≤ sizeAt next j by omega)
  rw [hb,blocksAt_of_size hsize']
  omega

/-- Bytes in use stay in use. -/
theorem InUse.mono {address : ℕ} (hu : InUse memory address) (hs : Sound memory)
    (he : Extends memory next) : InUse next address := by
  obtain ⟨j,hj,hu⟩ := hu
  have hb := he.blocks hs hj
  have hsize := he.size j hj
  refine ⟨j,he.live j hj,?_⟩
  rcases hu with ⟨k,hk,hp,hlt⟩|⟨hk,hp⟩
  · have hslot := he.slots j hj (.block k) hk
    simp only [Slot.page] at hslot
    exact .inl ⟨k,by omega,by rw [hslot]; exact hp,by omega⟩
  · have hslot := he.slots j hj .indirect hk
    simp only [Slot.page] at hslot
    exact .inr ⟨by omega,by rw [hslot]; exact hp⟩

/-- A step that keeps what there is and leaves no byte but zeros outside. -/
theorem scrubbed_of_extends (h : Scrubbed memory) (hs : Sound memory) (he : Extends memory next)
    (hn : ∀ address, 8192≤address → next address≠memory address → InUse next address) :
    Scrubbed next := by
  intro address ha hne
  by_cases hsame : next address=memory address
  · exact (h address ha (by rw [←hsame]; exact hne)).mono hs he
  · exact hn address ha hsame

/-- A step that writes below the data pages only. -/
theorem scrubbed_of_low (h : Scrubbed memory) (hs : Sound memory) (he : Extends memory next)
    (hn : ∀ address, 8192≤address → next address=memory address) : Scrubbed next :=
  scrubbed_of_extends h hs he (fun address ha hne => absurd (hn address ha) hne)

/-- The bytes of a fresh image: two marks, and the root inode with its mode. -/
theorem fresh_bytes : fresh.bytes=
    putInt (withInode (putBit (putBit zeroed.bytes 0 0 true) 0 1 true) 0) 4104 16877 := by
  with_unfolding_all rfl

/-- In a fresh image the data pages are zero. -/
theorem scrubbed_fresh : Scrubbed fresh.bytes := by
  intro address ha hne
  refine absurd ?_ hne
  rw [fresh_bytes,putInt_outside _ _ (by omega),withInode,putInt_outside _ _ (by omega),
    putInt_outside _ _ (by omega),putBit_outside _ _ (by omega),putBit_outside _ _ (by omega),
    putBit_outside _ _ (by omega)]
  rfl

/-- Creating an inode. -/
theorem scrubbed_created (h : Scrubbed memory) (hs : Sound memory) (hi : i<64)
    (hf : inodeBit memory i=false) (mode : ℤ) : Scrubbed (created memory i mode) := by
  have hne : ∀ {j}, Live memory j → j≠i := by
    rintro j hj rfl
    rw [hj.2] at hf
    cases hf
  refine scrubbed_of_low h hs ⟨?_,?_,?_⟩ (fun address ha =>
    created_outside mode memory hi (by omega) (by omega))
  · rintro j hj
    exact ⟨hj.1,by rw [created_bit mode memory hj.1,if_neg (hne hj)]; exact hj.2⟩
  · intro j hj
    rw [show sizeAt (created memory i mode) j=sizeAt memory j from
      created_field_other mode memory hi 12 (hne hj) (by omega)]
  · exact fun j hj slot hu => hs.owned.page_of_agree (created_agree mode hs.owned hi) hj hu

/-- Rewriting a reference count. -/
theorem scrubbed_refs (h : Scrubbed memory) (hs : Sound memory) (hi : i<64) (value : ℤ) :
    Scrubbed (putInt memory (4096+64*i+4) value) := by
  refine scrubbed_of_low h hs ⟨?_,?_,?_⟩ (fun address ha => putInt_outside _ _ (by omega))
  · exact fun j hj => (live_putRefs memory i j value).mpr hj
  · exact fun j _ => (size_putRefs memory i j value).ge
  · exact fun j hj => (kept_putHeader 4 hs.owned hi (by omega) value hj).slots

/-- Inserting a name. -/
theorem scrubbed_inserted {d j : ℕ} {name : List UInt8} (h : Scrubbed memory) (hs : Sound memory)
    (hd : Live memory d) (hj : j<64) (hins : Inserted memory next d j name) : Scrubbed next := by
  have hlive : ∀ {l}, Live next l ↔ Live memory l := hins.live_iff hs hd
  have hsize := fun {l : ℕ} (hl : l<64) => hins.size_eq hs hd hl
  have hblocks := fun {l : ℕ} (hl : l<64) => hins.blocks_eq hs hd hl
  refine scrubbed_of_extends h hs ⟨fun l hl => hlive.mpr hl,?_,?_⟩ ?_
  · intro l hl
    rw [hsize hl.1]
    split
    · rename_i he
      rw [he]
      omega
    · exact le_refl _
  · intro l hl slot hu
    have hnew : slot.Used (blocksAt next l) := by
      rw [hblocks hl.1]
      split
      · rename_i he
        obtain ⟨s,_,hsd,hfit,_⟩ := hins
        have hb := blocksAt_of_size hsd
        rw [he] at hu
        exact hu.mono (by omega)
      · exact hu
    rcases hins.slot_page hs hd hj hl hnew with hold|⟨rfl,hz,_⟩
    · exact hold.2
    · rw [hz] at hu
      cases slot with
      | block k => exact absurd hu (Nat.not_lt_zero k)
      | indirect => exact absurd hu (Nat.not_lt_zero 2)
  · intro address ha hne
    have hsized := hsize hd.1
    have hblock := hblocks hd.1
    rw [if_pos rfl] at hsized hblock
    obtain ⟨s,grown,hsd,hfit,hname,hg,rfl⟩ := hins
    have hb := blocksAt_of_size hsd
    have hd64 := hd.1
    have hpage := Grown.first_page hg hs.owned hd hb
    have hslot := entered_slot (j:=j) hs.owned hd hj hfit hb hg hname hd
      (show (Slot.block 0).Used _ by rw [Function.update_self]; exact Nat.one_pos)
    simp only [Slot.page,pnumAt,if_pos (show 0<2 by decide)] at hslot
    by_cases hin : address<4096*(ptrAt grown d 0).toNat+s ∨ 4096*(ptrAt grown d 0).toNat+s+64≤address
    · rw [entered_outside hname (by omega) (by omega) hin,
        hg.frame address (by omega) (by omega) (by omega)] at hne
      exact absurd rfl hne
    · refine ⟨d,hlive.mpr hd,.inl ⟨0,by rw [hblock]; exact Nat.one_pos,?_,?_⟩⟩
      · rw [pnumAt,if_pos (by decide),hslot]
        omega
      · rw [hsized,hsd]
        push_cast
        omega

/-- Growing an inode. -/
theorem scrubbed_grown (h : Scrubbed memory) (hs : Sound memory) (hi : Live memory i)
    {old size : ℕ} (hold : sizeAt memory i=old) (hle : old ≤ size) (hlt : size<2147483648)
    {grown : Bytes}
    (hg : Grown memory grown i ((old+4095)/4096) (max ((old+4095)/4096) ((size+4095)/4096))) :
    Scrubbed (putInt grown (4096+64*i+12) size) := by
  have hb := blocksAt_of_size hold
  have hi64 := hi.1
  obtain ⟨htable,hkept⟩ := kept_grown hs hi hold hg
  have hsize : sizeAt (putInt grown (4096+64*i+12) size) i=size := by
    rw [sizeAt,intAt_putInt,wrap32_of_range (by omega) (by omega)]
  refine scrubbed_of_extends h hs ⟨fun j hj => htable.live.mpr hj,?_,
    fun j hj => (hkept j hj).slots⟩ ?_
  · intro j hj
    by_cases he : j=i
    · rw [he,hsize]
      omega
    · exact (htable.size hj.1 he).ge
  · intro address ha hne
    rw [putInt_outside _ _ (by omega)] at hne
    by_cases hind : 2 < max ((old+4095)/4096) ((size+4095)/4096) ∧
        ((address/4096 : ℕ) : ℤ)=iptrAt grown i
    · refine ⟨i,htable.live.mpr hi,.inr ⟨?_,?_⟩⟩
      · rw [blocksAt_of_size hsize]
        omega
      · rw [iptrAt,intAt_putInt_apart _ _ (by omega)]
        exact hind.2
    · exact absurd (hg.frame address (by omega) (by omega) hind) hne

/-- Writing a range below the size of a file. -/
theorem scrubbed_written (h : Scrubbed memory) (hs : Sound memory) (hi : Live memory i)
    {start finish : ℕ} {source : ℕ → UInt8}
    (hw : Written memory next i (blocksAt memory i) start finish source)
    (hsize : finish ≤ sizeAt memory i) : Scrubbed next := by
  have hplaced := hs.owned.placed hi
  have htable := hw.filled.table hs.owned hi
  have hsame := size_filled hw.filled hplaced
  refine scrubbed_of_extends h hs ⟨fun j hj => htable.live.mpr hj,?_,?_⟩ ?_
  · intro j hj
    by_cases he : j=i
    · rw [he,hsame]
    · exact (htable.size hj.1 he).ge
  · intro j hj slot hu
    by_cases he : j=i
    · subst he
      exact slot_filled hw.filled hplaced hu
    · exact (hw.filled.kept hs.owned hi hj he).slots slot hu
  · intro address ha hne
    obtain ⟨k,hk,hp⟩ : ∃ k<blocksAt memory i, ((address/4096 : ℕ) : ℤ)=pnumAt memory i k := by
      by_contra hnone
      refine hne (hw.filled address (fun k hk hp => hnone ⟨k,hk,hp⟩))
    have hslot := slot_filled hw.filled hplaced (show (Slot.block k).Used _ from hk)
    simp only [Slot.page] at hslot
    have hbyte : ∀ bytes : Bytes, pnumAt bytes i k=pnumAt memory i k →
        fileByte bytes i (4096*k+address%4096)=bytes address := by
      intro bytes hnum
      rw [fileByte,show (4096*k+address%4096)/4096=k by omega,hnum,←hp]
      congr 1
      omega
    refine ⟨i,htable.live.mpr hi,.inl ⟨k,?_,by rw [hslot]; exact hp,?_⟩⟩
    · rw [blocksAt,hsame]
      exact hk
    · rw [hsame]
      by_contra hge
      refine hne ?_
      rw [←hbyte next hslot,←hbyte memory rfl]
      exact hw.outside _ (by omega) (.inr (by omega))

end Scrubbed

/-! ## Runs that take nothing away -/

/-- A clean call that removes no name and cuts no file. -/
def Extending (disk : Disk) (call : Call) : Prop :=
  Clean disk call ∧ match call with
    | .mknod _ _ => True
    | .link _ _ => True
    | .unlink _ => False
    | .rename _ _ => False
    | .write path _ size offset => ∀ i : ℕ, treeLookup path disk=.ok (i : ℤ) disk →
        sizeAt disk.bytes i≤offset.toInt+size.toNat
    | .truncate path size => ∀ i : ℕ, treeLookup path disk=.ok (i : ℤ) disk →
        sizeAt disk.bytes i ≤ size.toInt

section Runs

variable {disk mid next : Disk} {i : ℕ}

/-- A resize that does not cut. -/
theorem scrubbed_resized {size : ℕ} {after : Bytes} (h : Scrubbed disk.bytes)
    (hs : Sound disk.bytes) (hf : ResizeFits disk.bytes i size)
    (hle : sizeAt disk.bytes i ≤ size) (hr : Resized disk.bytes i size after) :
    Scrubbed after := by
  have hupper := hf.upper
  cases hr with
  | grown old grown hold hle' hg =>
    exact scrubbed_grown h hs hf.live hold hle' (by omega) hg
  | shrunk old hold hlt => omega
  | same => exact h

/-- The copy loop that follows a resize; from a negative offset it does not
start. -/
theorem scrubbed_writeLoop {total : ℕ} {offset : ℤ} {buf : ℕ → UInt8} (h : Scrubbed disk.bytes)
    (hs : Sound disk.bytes) (hi : Live disk.bytes i) (hsize : sizeAt disk.bytes i=total)
    (ho : -9223372036854775808≤offset) (hle : offset≤total)
    (hr : writeLoop (nodeOffset i) buf total loopRounds offset 0 disk=.ok () next) :
    Scrubbed next.bytes := by
  have hb := blocksAt_of_size hsize
  have hplaced := hs.owned.placed hi
  have hblocks := hplaced.blocks_le
  by_cases hneg : offset<0
  · rw [loopRounds,writeLoop,if_neg (by omega)] at hr
    obtain ⟨_,rfl⟩ := pure_eq_ok.mp hr
    exact h
  · obtain ⟨start,rfl⟩ := Int.eq_ofNat_of_zero_le (show 0≤offset by omega)
    obtain ⟨last,hok,hwritten⟩ := writeLoop_written buf (show total≤4096*blocksAt disk.bytes i by
      omega) loopRounds start 0 hplaced (by omega) (by decide)
      (fun _ => by simp only [loopRounds]; omega)
    obtain ⟨_,rfl⟩ := EStateM.Result.ok.inj (hok.symm.trans hr)
    exact scrubbed_written h hs hi hwritten hsize.ge

/-- The clearing loop that follows a growth. -/
theorem scrubbed_truncateLoop {total start : ℕ} (h : Scrubbed disk.bytes) (hs : Sound disk.bytes)
    (hi : Live disk.bytes i) (hsize : sizeAt disk.bytes i=total) (hle : start≤total)
    (hr : truncateLoop (nodeOffset i) total loopRounds start disk=.ok () next) :
    Scrubbed next.bytes := by
  have hb := blocksAt_of_size hsize
  have hplaced := hs.owned.placed hi
  have hblocks := hplaced.blocks_le
  obtain ⟨last,hok,hwritten⟩ := truncateLoop_written (show total≤4096*blocksAt disk.bytes i by
    omega) loopRounds start hplaced hle (by decide) (fun _ => by simp only [loopRounds]; omega)
  obtain ⟨_,rfl⟩ := EStateM.Result.ok.inj (hok.symm.trans hr)
  exact scrubbed_written h hs hi hwritten hsize.ge

/-- A call that takes nothing away leaves no byte outside the files. -/
theorem scrubbed_step {call : Call} {result : ℤ} (h : Scrubbed disk.bytes) (hs : Sound disk.bytes)
    (hc : Extending disk call) (hr : exec call disk=.ok result next)
    (hd : next.denied=disk.denied) : Scrubbed next.bytes := by
  obtain ⟨hclean,hkeep⟩ := hc
  cases call with
  | mknod path mode =>
    rcases mknod_effect hs hclean hr hd with rfl|⟨d,i,hi,hfree,_,_,hlive,hins⟩
    · exact h
    · exact scrubbed_inserted (scrubbed_created h hs hi hfree mode) (sound_created mode hs hi hfree)
        hlive hi hins
  | link source dest =>
    rcases link_effect hs hclean hr hd with rfl|⟨d,f,mid,hf,hlive,hins,hn⟩
    · exact h
    · rw [hn]
      exact scrubbed_refs (scrubbed_inserted h hs hlive hf hins) (hins.sound hs hlive hf) hf _
  | unlink path => exact absurd hkeep id
  | rename path dest => exact absurd hkeep id
  | write path buf size offset =>
    rcases write_returned hr with hfail|⟨i,hi,hlookup,_,mid,hresize,hloop⟩
    · rw [hfail.2]
      exact h
    · have hf := hclean i hlookup
      have hle := hkeep i hlookup
      obtain ⟨total,htotal⟩ := Int.eq_ofNat_of_zero_le hf.lower
      rw [htotal] at hf hresize hloop hle
      have hupper := hf.upper
      rw [wrap32_of_range (by omega) (by omega)] at hresize
      rw [Int.emod_eq_of_lt (by omega) (by omega)] at hloop
      obtain ⟨hd1,_⟩ := denied_between hresize hloop (resizeForWrite_rises _ _ _)
        (writeLoop_rises _ _ _ _ _ _) hd
      have hmid := resized_of_returned hs hf hresize hd1
      obtain ⟨hs1,hsize,hiso⟩ := hmid.isolated hs hf
      have hrange := offset.le_toInt
      exact scrubbed_writeLoop (scrubbed_resized h hs hf hle hmid) hs1 (hiso.1.live.mpr hf.live)
        hsize (by omega) (by omega) hloop
  | truncate path size =>
    rcases truncate_returned hr with hfail|⟨i,hi,hlookup,_,hbranch⟩
    · rw [hfail.2]
      exact h
    · have hf := hclean i hlookup
      have hle := hkeep i hlookup
      obtain ⟨total,htotal⟩ := Int.eq_ofNat_of_zero_le hf.lower
      rw [htotal] at hf hbranch hle
      have hupper := hf.upper
      rw [wrap32_of_range (by omega) (by omega)] at hbranch
      rcases hbranch with ⟨hlt,value,mid,hgrow,hloop⟩|⟨hlt,_⟩|⟨_,rfl⟩
      · obtain ⟨hd1,_⟩ := denied_between hgrow hloop (growInode_rises _ _)
          (truncateLoop_rises _ _ _ _) hd
        have hmid := resized_of_grow hs hf.live (by omega) (by omega) hgrow hd1
        obtain ⟨hs1,hsize,hiso⟩ := hmid.isolated hs hf
        obtain ⟨old,hold⟩ := Int.eq_ofNat_of_zero_le (hs.size i hf.live)
        rw [hold] at hloop
        exact scrubbed_truncateLoop (scrubbed_resized h hs hf hle hmid) hs1
          (hiso.1.live.mpr hf.live) hsize (by omega) hloop
      · omega
      · exact h

/-- Every state of a run that takes nothing away is sound, and every byte of its
data pages that is not zero is in use. -/
theorem scrubbed_of_reachable (h : Reachable Extending disk) :
    Sound disk.bytes ∧ Scrubbed disk.bytes := by
  induction h with
  | refl => exact ⟨sound_fresh,scrubbed_fresh⟩
  | tail _ hstep ih =>
    obtain ⟨call,result,hc,hr,hd⟩ := hstep
    exact ⟨sound_step ih.1 hc.1 hr hd,scrubbed_step ih.2 ih.1 hc hr hd⟩

end Runs

/-- A page of the free list is an unmarked page. -/
theorem mem_freeList {memory : Bytes} {page : ℕ} :
    page∈freeList memory ↔ (1≤page ∧ page<256) ∧ pageBit memory page=false := by
  rw [freeList,List.mem_filter,List.mem_range'_1,decide_eq_true_iff]

/-- Where no bytes are left over, every gap falls on zero bytes, as long as the
pages it needs are free. -/
theorem gapBlank_of_scrubbed {memory : Bytes} {i start total : ℕ} (h : Scrubbed memory)
    (hs : Sound memory) (hi : Live memory i) (hle : start≤total)
    (hfree : pagesFor ((total+4095)/4096) ≤ freePages memory+pagesFor (blocksAt memory i)) :
    GapBlank memory i start := by
  intro position hl hr
  by_contra hne
  have hown : ∀ page : ℕ, 2≤page → memory (4096*page+position%4096)≠0 →
      ∃ j, Live memory j ∧ ∃ slot : Slot, slot.Used (blocksAt memory j) ∧
        slot.page memory j=page ∧
        ∀ k, slot=.block k → ((4096*k+position%4096 : ℕ) : ℤ) < sizeAt memory j := by
    intro page hp hbyte
    obtain ⟨j,hj,hu⟩ := h _ (by omega) hbyte
    rw [show (4096*page+position%4096)/4096=page by omega,
      show (4096*page+position%4096)%4096=position%4096 by omega] at hu
    rcases hu with ⟨k,hk,he,hlt⟩|⟨hk,he⟩
    · refine ⟨j,hj,.block k,hk,he.symm,fun k' hk' => ?_⟩
      rw [←Slot.block.inj hk']
      exact hlt
    · exact ⟨j,hj,.indirect,hk,he.symm,nofun⟩
  unfold comingPage at hne
  by_cases hb : position/4096<blocksAt memory i
  · have hrange := hs.owned.range i hi (.block (position/4096)) hb
    simp only [Slot.page] at hrange
    rw [if_pos hb] at hne
    obtain ⟨j,hj,slot,hu,hp,hlt⟩ := hown _ (by omega) hne
    obtain ⟨rfl,hslot⟩ := hs.owned.once j i hj hi slot (.block (position/4096)) hu hb (by
      rw [hp]
      simp only [Slot.page]
      omega)
    have hpos := hlt _ hslot
    rw [show 4096*(position/4096)+position%4096=position by omega] at hpos
    omega
  · have hrank : pageRank (blocksAt memory i) (position/4096)<(freeList memory).length := by
      have hmono := pagesFor_mono (show position/4096+1≤(total+4095)/4096 by omega)
      have hold := pagesFor_mono (show blocksAt memory i≤position/4096 by omega)
      have hlt := pagesFor_lt (position/4096)
      rw [freePages_eq_length] at hfree
      unfold pageRank
      omega
    have hpage := List.getElem_mem hrank
    rw [←List.getD_eq_getElem (freeList memory) 0 hrank] at hpage
    obtain ⟨hrange,hunmarked⟩ := mem_freeList.mp hpage
    rw [if_neg hb] at hne
    have hdata : (freeList memory).getD (pageRank (blocksAt memory i) (position/4096)) 0≠1 := by
      intro hone
      rw [hone,hs.owned.table] at hunmarked
      cases hunmarked
    obtain ⟨j,hj,slot,hu,hp,_⟩ := hown _ (by omega) hne
    have hmark := hs.owned.marked j hj slot hu
    rw [hp,Int.toNat_natCast,hunmarked] at hmark
    cases hmark

/-- In every state of a clean run, the gap of a write past the end of a file
reads as zeros exactly when it falls on zero bytes; and in every state of a run
that takes nothing away it does. -/
theorem gap_reads_zero (disk : Disk) (i : ℕ) (path : List UInt8) (buf : ℕ → UInt8) (size : UInt64)
    (offset : Int64) (hl : treeLookup path disk=.ok (i : ℤ) disk) (hi : Live disk.bytes i)
    (hlt : sizeAt disk.bytes i<offset.toInt)
    (hfree : ¬PagesShort disk.bytes i (offset.toInt+size.toNat)) :
    (Reachable Clean disk →
      (GapZero disk i path buf size offset ↔ GapBlank disk.bytes i offset.toInt.toNat)) ∧
    (Reachable Extending disk → GapZero disk i path buf size offset) := by
  constructor
  · intro h
    have hs := sound_of_reachable h
    exact gapZero_iff hs.owned hl hi (hs.size i hi) hlt hfree buf
  · intro h
    obtain ⟨hs,hscrubbed⟩ := scrubbed_of_reachable h
    refine (gapZero_iff hs.owned hl hi (hs.size i hi) hlt hfree buf).mpr ?_
    obtain ⟨old,hold⟩ := Int.eq_ofNat_of_zero_le (hs.size i hi)
    obtain ⟨start,hstart⟩ := Int.eq_ofNat_of_zero_le ((hs.size i hi).trans hlt.le)
    rw [hstart,←Nat.cast_add] at hfree
    obtain ⟨_,hpages⟩ := granted_of_pages hs.owned hi hold hfree
    rw [←blocksAt_of_size hold] at hpages
    rw [hstart,Int.toNat_natCast]
    exact gapBlank_of_scrubbed hscrubbed hs hi (Nat.le_add_right start size.toNat) hpages

/-- The file of two bytes is reached by a run that takes nothing away. -/
theorem extending_withTwoBytes : Reachable Extending withTwoBytes := by
  have hfirst : Reachable Extending withA :=
    NufsStorage.Reachable.call Relation.ReflTransGen.refl
      (show Extending fresh createA from ⟨clean_createA,trivial⟩) (by decide +kernel)
  refine hfirst.call (show Extending withA writeTwo from
    ⟨resizeFits_withA (by decide +kernel) (by decide +kernel),fun i hl => ?_⟩) (by decide +kernel)
  have hone : (i : ℤ)=1 := by
    rw [lookup_a.1] at hl
    exact (EStateM.Result.ok.inj hl).1.symm
  obtain rfl : i=1 := by omega
  decide +kernel

/-- Writing one byte at offset 5000 of the file of two bytes leaves zeros in
between. -/
theorem gap_after_two_bytes : sizeAt withTwoBytes.bytes 1=2 ∧
    GapZero withTwoBytes 1 (render [nameA]) (fun _ => 9) 1 5000 := by
  have hsize : sizeAt withTwoBytes.bytes 1=2 := by decide +kernel
  refine ⟨hsize,(gap_reads_zero withTwoBytes 1 _ _ 1 5000 lookup_a.2 ⟨by decide,by decide +kernel⟩
    (by rw [hsize]; decide +kernel) ?_).2 extending_withTwoBytes⟩
  unfold PagesShort
  decide +kernel

/-- Two bytes are written into `/a` and the second one is cut off. -/
def cutRun : List Call := [createA,writeTwo,.truncate (render [nameA]) 1]

/-- Writing one byte at offset 3 then brings the second byte back. -/
theorem gap_shows_cut_byte : Reachable (fun _ _ => True) (execAll cutRun fresh) ∧
    treeLookup (render [nameA]) (execAll cutRun fresh)=.ok (1 : ℤ) (execAll cutRun fresh) ∧
    Live (execAll cutRun fresh).bytes 1 ∧ sizeAt (execAll cutRun fresh).bytes 1=1 ∧
    ¬PagesShort (execAll cutRun fresh).bytes 1 4 ∧
    ¬GapZero (execAll cutRun fresh) 1 (render [nameA]) (fun _ => 9) 1 3 := by
  have hsize : sizeAt (execAll cutRun fresh).bytes 1=1 := by decide +kernel
  refine ⟨reachable_of_calls .refl (by decide +kernel),lookup_of_passes (by decide +kernel),
    ⟨by decide,by decide +kernel⟩,hsize,by unfold PagesShort; decide +kernel,?_⟩
  rintro ⟨next,hok,hzero⟩
  have hpass : passes (storageWrite (render [nameA]) (fun _ => 9) 1 3) (execAll cutRun fresh)
      (fun _ last => decide (fileByte last.bytes 1 1=7))=true := by decide +kernel
  have hseven := test_of_passes hpass hok
  have hgap := hzero 1 (by rw [hsize]; decide) (by decide +kernel)
  rw [of_decide_eq_true hseven] at hgap
  exact absurd hgap (by decide)

end ComputerSystems.NufsGap
