import ComputerSystems.NufsRead

/-!
# What resizing does to the page bitmap

`grow_inode` with enough free pages keeps the blocks of the inode and adds
pages that were free. `shrink_inode` is meant to release the pages of the
blocks it drops, but it counts one block too far and releases the indirect
pointer whether it is in use or not: it releases exactly the dropped pages only
when the numbers it finds there happen to make up for it.
-/

namespace ComputerSystems.NufsAccounting

open StateProgram ByteMemory NufsImage NufsInode NufsPath NufsDirectory NufsStorage NufsCalls
  NufsOwnership NufsResize NufsFrame NufsContent NufsSound NufsIsolation NufsExhaustion NufsWrite NufsRead

/-! ## Growing -/

/-- The data pages, 2 to 255, that are free. -/
def freeDataPages (memory : Bytes) : ℕ :=
  ((Finset.Ico 2 256).filter (fun page => pageBit memory page=false)).card

/-- When the page of the inode table is marked, every free page is a data page. -/
theorem freeDataPages_eq {memory : Bytes} (h : pageBit memory 1=true) :
    freeDataPages memory=freePages memory := by
  rw [freeDataPages,freePages]
  congr 1
  ext page
  rw [Finset.mem_filter,Finset.mem_filter,Finset.mem_Ico,Finset.mem_Ico]
  constructor
  · rintro ⟨hr,hf⟩
    exact ⟨by omega,hf⟩
  · rintro ⟨hr,hf⟩
    refine ⟨⟨?_,hr.2⟩,hf⟩
    by_contra hlt
    obtain rfl : page=1 := by omega
    rw [h] at hf
    cases hf

/-- What growing an inode from `n` to `m` blocks is meant to do. -/
structure Extended (disk next : Disk) (i n m : ℕ) (size : ℤ) : Prop where
  /-- The size is set. -/
  size : sizeAt next.bytes i=size
  /-- The old blocks keep their pages. -/
  kept : ∀ k<n, pnumAt next.bytes i k=pnumAt disk.bytes i k
  /-- New blocks, and a new indirect page, are data pages that were free and are
  marked now. -/
  fresh : ∀ slot : Slot, slot.Used m → ¬slot.Used n → 2 ≤ slot.page next.bytes i ∧
    slot.page next.bytes i<256 ∧ pageBit disk.bytes (slot.page next.bytes i).toNat=false ∧
    pageBit next.bytes (slot.page next.bytes i).toNat=true
  /-- They are different pages. -/
  distinct : ∀ slot other : Slot, slot.Used m → ¬slot.Used n → other.Used m → ¬other.Used n →
    slot.page next.bytes i=other.page next.bytes i → slot=other
  /-- No other page mark changed. -/
  marks : ∀ page : ℕ, page<256 → (∀ slot : Slot, slot.Used m → ¬slot.Used n →
    slot.page next.bytes i≠page) → pageBit next.bytes page=pageBit disk.bytes page
  /-- No inode mark changed. -/
  inodes : ∀ j<64, inodeBit next.bytes j=inodeBit disk.bytes j
  /-- Ownership holds afterwards. -/
  owned : Owned next.bytes (Live next.bytes) (blocksAt next.bytes)
  /-- Past page 0 only the record and the indirect page are written. -/
  bytes : ∀ address, 4096≤address → ¬(4096+64*i≤address ∧ address<4096+64*i+64) →
    ¬(2 < m ∧ ((address/4096 : ℕ) : ℤ)=iptrAt next.bytes i) →
    next.bytes address=disk.bytes address

/-- The size field of an inode is no part of its slots. -/
theorem page_putSize {memory : Bytes} {live : ℕ → Prop} {blocks : ℕ → ℕ} {i : ℕ}
    (h : Owned memory live blocks) (hi : live i) (size : ℤ) {slot : Slot}
    (hu : slot.Used (blocks i)) :
    slot.page (putInt memory (4096+64*i+12) size) i=slot.page memory i :=
  (kept_putHeader 12 h (h.index i hi) (by omega) size hi).slots slot hu

/-- Growing followed by the store of the size. -/
theorem extended_of_grown {disk next : Disk} {i old size : ℕ}
    (h : Owned disk.bytes (Live disk.bytes) (blocksAt disk.bytes)) (hi : Live disk.bytes i)
    (hs : sizeAt disk.bytes i=old) (hlt : size<2147483648) {grown : Bytes}
    (hg : Grown disk.bytes grown i ((old+4095)/4096) ((size+4095)/4096)) (hle : old ≤ size)
    (hbytes : next.bytes=putInt grown (4096+64*i+12) size) :
    Extended disk next i ((old+4095)/4096) ((size+4095)/4096) size := by
  have hb := blocksAt_of_size hs
  have howned := owned_grow h hi hb hg
  have htable : TableKept disk.bytes next.bytes i := by
    rw [hbytes]
    exact (Grown.table hg h hi hb).trans (tableKept_putSize grown i size)
  have hslot : ∀ slot : Slot, slot.Used ((size+4095)/4096) →
      slot.page next.bytes i=slot.page grown i := by
    intro slot hu
    rw [hbytes]
    exact page_putSize howned hi size (by rw [Function.update_self]; exact hu)
  have hbit : ∀ page<256, pageBit next.bytes page=pageBit grown page := fun page hp => by
    rw [hbytes,pageBit_putInt _ _ (by omega) hp]
  have hsize : sizeAt next.bytes i=(size : ℤ) := by
    rw [hbytes,sizeAt,intAt_putInt,wrap32_of_range (by omega) (by omega)]
  refine ⟨hsize,?_,?_,?_,?_,fun j hj => htable.bit hj,?_,?_⟩
  · intro k hk
    have hkeep := hg.keep (.block k) hk
    have hsame := hslot (.block k) (show k<(size+4095)/4096 by omega)
    simp only [Slot.page] at hkeep hsame
    rw [hsame,hkeep]
  · intro slot hu hn
    obtain ⟨hl,hr,hf⟩ := hg.new slot hu hn
    rw [hslot slot hu]
    refine ⟨hl,hr,hf,?_⟩
    rw [hbit _ (by omega),hg.marks _ (by omega)]
    exact .inr ⟨slot,hu,hn,by omega⟩
  · intro slot other hu hn hu' hn' he
    rw [hslot slot hu,hslot other hu'] at he
    exact hg.distinct slot other hu hn hu' hn' he
  · intro page hp hnone
    rw [hbit page hp,Bool.eq_iff_iff,hg.marks page hp]
    refine or_iff_left ?_
    rintro ⟨slot,hu,hn,he⟩
    exact hnone slot hu hn (by rw [hslot slot hu,he])
  · refine owned_of_table htable hsize ?_
    rw [hbytes]
    exact owned_putHeader 12 howned hi.1 (by omega) size
  · intro address hl hr hind
    rw [hbytes,putInt_outside _ _ (by omega)]
    refine hg.frame address (by omega) (by omega) (fun hc => hind ⟨hc.1,?_⟩)
    have hsame := hslot .indirect hc.1
    simp only [Slot.page] at hsame
    rw [hsame]
    exact hc.2

/-- With enough free data pages `grow_inode` sets the size, keeps the old
blocks and adds pages that were free, and nothing else of the image changes. -/
theorem growInode_extends {disk : Disk} {i : ℕ} {size : ℤ}
    (h : Owned disk.bytes (Live disk.bytes) (blocksAt disk.bytes)) (hi : Live disk.bytes i)
    (h0 : 0 ≤ sizeAt disk.bytes i) (hle : sizeAt disk.bytes i ≤ size) (hlt : size<2147483648)
    {n m : ℕ} (hn : bytesToPages (sizeAt disk.bytes i)=n) (hm : bytesToPages size=m)
    (hfree : m-n+(if n≤2 ∧ 2 < m then 1 else 0) ≤ freeDataPages disk.bytes) :
    ∃ next, growInode (nodeOffset i) size disk=.ok size next ∧ Extended disk next i n m size := by
  obtain ⟨old,hold⟩ := Int.eq_ofNat_of_zero_le h0
  obtain ⟨total,rfl⟩ := Int.eq_ofNat_of_zero_le (h0.trans hle)
  rw [hold,bytesToPages_natCast] at hn
  rw [bytesToPages_natCast] at hm
  obtain rfl : (old+4095)/4096=n := by omega
  obtain rfl : (total+4095)/4096=m := by omega
  have hpages : pagesFor ((total+4095)/4096)≤freePages disk.bytes+pagesFor ((old+4095)/4096) := by
    rw [freeDataPages_eq h.table] at hfree
    unfold pagesFor
    split at hfree <;> split <;> split <;> omega
  obtain ⟨next,grown,hok,hg,hbytes⟩ := growInode_granted h hi hold (blocksAt_of_size hold)
    (by omega) (by omega) hpages
  exact ⟨next,hok,extended_of_grown h hi hold (by omega) hg (by omega) hbytes⟩

/-- Ownership holds in the image with the empty file `/a`. -/
theorem owned_withA : Owned withA.bytes (Live withA.bytes) (blocksAt withA.bytes) :=
  (sound_of_reachable reachable_withA).owned

/-- The empty file `/a` grows to three blocks, the third one behind an indirect
page. -/
theorem grows_to_three_blocks : sizeAt withA.bytes 1=0 ∧
    ∃ next, growInode (nodeOffset 1) 12288 withA=.ok 12288 next ∧
      Extended withA next 1 0 3 12288 := by
  have hsize : sizeAt withA.bytes 1=0 := by decide +kernel
  refine ⟨hsize,growInode_extends owned_withA ⟨by decide,by decide +kernel⟩ (by rw [hsize])
    (by rw [hsize]; decide) (by decide) (by rw [hsize]; decide) (by decide) ?_⟩
  decide +kernel

/-! ## Shrinking -/

section Shrinking

variable {memory : Bytes} {live : ℕ → Prop} {blocks : ℕ → ℕ} {i n m : ℕ}

/-- A page of a slot that going from `n` to `m` blocks drops. -/
def Dropped (memory : Bytes) (i n m : ℕ) (page : ℤ) : Prop :=
  ∃ slot : Slot, slot.Used n ∧ ¬slot.Used m ∧ slot.page memory i=page

/-- A number that may be released beside the dropped pages: an unmarked page, or
one of them. -/
def Spare (memory : Bytes) (i n m : ℕ) (page : ℤ) : Prop :=
  0≤page ∧ page<256 ∧ (pageBit memory page.toNat=false ∨ Dropped memory i n m page)

/-- The numbers that `shrink_inode` finds one past the last block and in an
indirect pointer out of use: they may be released, and when blocks are dropped
one of them is the page of the first dropped block, which the loop leaves out. -/
structure StaleFits (memory : Bytes) (i n m : ℕ) : Prop where
  /-- The first dropped block is released through a stale number. -/
  first : m<n → pnumAt memory i n=pnumAt memory i m ∨
    (n≤2 ∧ iptrAt memory i=pnumAt memory i m)
  /-- The number one past the last block may be released. -/
  last : m<n → Spare memory i n m (pnumAt memory i n)
  /-- So may an indirect pointer out of use. -/
  indirect : n≤2 → Spare memory i n m (iptrAt memory i)

/-- The numbers that `shrink_inode` releases. -/
theorem mem_freedPages {page : ℕ} : page∈freedPages memory i n m ↔
    (∃ k, m<k ∧ k≤n ∧ (pnumAt memory i k).toNat=page) ∨
      (m≤2 ∧ (iptrAt memory i).toNat=page) := by
  rw [freedPages,List.mem_append,List.mem_map]
  refine or_congr ?_ ?_
  · constructor
    · rintro ⟨round,hround,he⟩
      have hlt := List.mem_range.mp hround
      exact ⟨n-round,by omega,by omega,he⟩
    · rintro ⟨k,hl,hr,he⟩
      refine ⟨n-k,List.mem_range.mpr (by omega),?_⟩
      rw [show n-(n-k)=k by omega]
      exact he
  · split
    · rename_i hm
      rw [List.mem_singleton]
      constructor
      · exact fun he => ⟨hm,he.symm⟩
      · exact fun he => he.2.symm
    · rename_i hm
      constructor
      · exact fun hmem => absurd hmem List.not_mem_nil
      · exact fun hc => absurd hc.1 hm

/-- Fitting stale numbers keep the reads and releases inside the image. -/
theorem StaleFits.shrinkable (hf : StaleFits memory i (blocks i) m) (h : Owned memory live blocks)
    (hi : live i) : Shrinkable memory i (blocks i) m :=
  shrinkable_of_stale h hi (fun hm => ⟨(hf.last hm).1,(hf.last hm).2.1⟩)
    (fun _ hb => ⟨(hf.indirect hb).1,(hf.indirect hb).2.1⟩)

/-- A spare number that is marked is a dropped page. -/
theorem Spare.dropped {number : ℤ} {page : ℕ} (h : Spare memory i n m number)
    (hm : pageBit memory page=true) (he : number.toNat=page) : Dropped memory i n m page := by
  obtain ⟨hl,_,hfree|hdrop⟩ := h
  · rw [he,hm] at hfree
    cases hfree
  · rw [show (page : ℤ)=number by omega]
    exact hdrop

/-- With fitting stale numbers the marked pages that are released are the
dropped ones. -/
theorem StaleFits.mem_freed (hf : StaleFits memory i (blocks i) m) (h : Owned memory live blocks)
    (hi : live i) {page : ℕ} (hm : pageBit memory page=true) :
    page∈freedPages memory i (blocks i) m ↔ Dropped memory i (blocks i) m page := by
  rw [mem_freedPages]
  constructor
  · rintro (⟨k,hl,hr,he⟩|⟨hm2,he⟩)
    · rcases Nat.eq_or_lt_of_le hr with hk|hk
      · subst hk
        exact (hf.last hl).dropped hm he
      · have hrange := h.range i hi (.block k) hk
        simp only [Slot.page] at hrange
        exact ⟨.block k,hk,by simp only [Slot.Used]; omega,by simp only [Slot.page]; omega⟩
    · by_cases hb : 2<blocks i
      · have hrange := h.range i hi .indirect hb
        simp only [Slot.page] at hrange
        exact ⟨.indirect,hb,by simp only [Slot.Used]; omega,by simp only [Slot.page]; omega⟩
      · exact (hf.indirect (by omega)).dropped hm he
  · rintro ⟨slot,hu,hn,he⟩
    cases slot with
    | block k =>
      simp only [Slot.Used,Slot.page] at hu hn he
      by_cases hk : m<k
      · exact .inl ⟨k,hk,hu.le,by omega⟩
      · obtain rfl : k=m := by omega
        rcases hf.first hu with hl|⟨hb,hl⟩
        · exact .inl ⟨blocks i,hu,Nat.le_refl _,by omega⟩
        · exact .inr ⟨by omega,by omega⟩
    | indirect =>
      simp only [Slot.Used,Slot.page] at hu hn he
      exact .inr ⟨by omega,by omega⟩

/-- Stale numbers that are pages fit as soon as the released pages that are
marked are the dropped ones. -/
theorem staleFits_of_freed (h : Owned memory live blocks) (hi : live i) (hle : m≤blocks i)
    (hs : Shrinkable memory i (blocks i) m)
    (hfreed : ∀ page<256, pageBit memory page=true →
      (page∈freedPages memory i (blocks i) m ↔ Dropped memory i (blocks i) m page)) :
    StaleFits memory i (blocks i) m := by
  have hspare : ∀ {number : ℤ}, 0≤number → number<256 →
      number.toNat∈freedPages memory i (blocks i) m → Spare memory i (blocks i) m number := by
    intro number hl hr hmem
    refine ⟨hl,hr,?_⟩
    cases hbit : pageBit memory number.toNat with
    | false => exact .inl rfl
    | true =>
      have hdrop := (hfreed number.toNat (by omega) hbit).mp hmem
      rw [Int.toNat_of_nonneg hl] at hdrop
      exact .inr hdrop
  refine ⟨?_,?_,?_⟩
  · intro hm
    have hrange := h.range i hi (.block m) hm
    have hmark := h.marked i hi (.block m) hm
    simp only [Slot.page] at hrange hmark
    have hmem := (hfreed _ (by omega) hmark).mpr
      ⟨.block m,hm,Nat.lt_irrefl m,by simp only [Slot.page]; omega⟩
    rcases mem_freedPages.mp hmem with ⟨k,hl,hr,he⟩|⟨hm2,he⟩
    · rcases Nat.eq_or_lt_of_le hr with hk|hk
      · subst hk
        have hlast := hs.last hm
        exact .inl (by omega)
      · have hrk := h.range i hi (.block k) hk
        simp only [Slot.page] at hrk
        have honce := h.once i i hi hi (.block k) (.block m) hk hm (by simp only [Slot.page]; omega)
        have heq := Slot.block.inj honce.2
        omega
    · by_cases hb : 2<blocks i
      · have hri := h.range i hi .indirect hb
        simp only [Slot.page] at hri
        have honce := h.once i i hi hi .indirect (.block m) hb hm (by simp only [Slot.page]; omega)
        exact absurd honce.2 (by simp)
      · have hind := hs.indirect hm2
        exact .inr ⟨by omega,by omega⟩
  · intro hm
    have hlast := hs.last hm
    exact hspare hlast.1 hlast.2.1 (mem_freedPages.mpr (.inl ⟨blocks i,hm,Nat.le_refl _,rfl⟩))
  · intro hb
    have hind := hs.indirect (hle.trans hb)
    exact hspare hind.1 hind.2 (mem_freedPages.mpr (.inr ⟨hle.trans hb,rfl⟩))

end Shrinking

/-- What shrinking an inode from `n` to `m` blocks is meant to do: release the
dropped pages, keep every other mark, every byte past page 0 outside the record
and the pages of the remaining blocks. -/
structure Cut (disk next : Disk) (i n m : ℕ) : Prop where
  /-- Exactly the dropped pages lose their marks. -/
  marks : ∀ page : ℕ, page<256 → (pageBit next.bytes page=true ↔
    pageBit disk.bytes page=true ∧ ¬Dropped disk.bytes i n m page)
  /-- Inode marks are kept. -/
  inodes : ∀ j<64, inodeBit next.bytes j=inodeBit disk.bytes j
  /-- Past page 0 only the record is written. -/
  bytes : ∀ address, 4096≤address → ¬(4096+64*i≤address ∧ address<4096+64*i+64) →
    next.bytes address=disk.bytes address
  /-- The remaining blocks keep their pages. -/
  kept : ∀ k < m, pnumAt next.bytes i k=pnumAt disk.bytes i k

/-- `shrink_inode` returns and releases exactly the dropped pages. -/
def ReleasesDropped (disk : Disk) (i n m : ℕ) (size : ℤ) : Prop :=
  ∃ next, shrinkInode (nodeOffset i) size disk=.ok size next ∧ Cut disk next i n m

/-- A shrink inside the image cuts as meant exactly when the marked pages it
releases are the dropped ones. -/
theorem cut_shrunk_iff {disk : Disk} {live : ℕ → Prop} {blocks : ℕ → ℕ} {i m size : ℕ}
    (h : Owned disk.bytes live blocks) (hi : live i) (hle : m≤blocks i)
    (hs : Shrinkable disk.bytes i (blocks i) m) :
    Cut disk {disk with bytes := shrunk disk.bytes i (blocks i) m size} i (blocks i) m ↔
      ∀ page<256, pageBit disk.bytes page=true →
        (page∈freedPages disk.bytes i (blocks i) m ↔ Dropped disk.bytes i (blocks i) m page) := by
  have hi64 := h.index i hi
  have hmarks : ∀ page<256, (pageBit (shrunk disk.bytes i (blocks i) m size) page=true ↔
      pageBit disk.bytes page=true ∧ page∉freedPages disk.bytes i (blocks i) m) := by
    intro page hp
    rw [pageBit_shrunk _ _ _ _ _ hp,Bool.and_eq_true,Bool.not_eq_true',decide_eq_false_iff_not]
  constructor
  · intro hcut page hp hbit
    have hwant := hcut.marks page hp
    rw [hmarks page hp] at hwant
    exact not_iff_not.mp ((and_congr_right_iff.mp hwant) hbit)
  · intro hfreed
    refine ⟨?_,?_,?_,?_⟩
    · intro page hp
      rw [hmarks page hp]
      exact and_congr_right (fun hbit => not_congr (hfreed page hp hbit))
    · exact fun j hj => bitAt_congr (shrunk_outside hs size (by omega) (by omega))
    · exact fun address hl hr => shrunk_outside hs size (by omega) (by omega)
    · intro k hk
      exact (kept_shrunk h hs hi size hi).slots (.block k) (Nat.lt_of_lt_of_le hk hle)

/-- Under the ownership invariant `shrink_inode` releases exactly the dropped
blocks when the stale numbers it finds fit; and where those numbers are pages
at all, only then. -/
theorem shrink_releases_dropped {disk : Disk} {i : ℕ} {size : ℤ}
    (h : Owned disk.bytes (Live disk.bytes) (blocksAt disk.bytes)) (hi : Live disk.bytes i)
    (h0 : 0 ≤ size) (hle : size ≤ sizeAt disk.bytes i) {n m : ℕ}
    (hn : bytesToPages (sizeAt disk.bytes i)=n) (hm : bytesToPages size=m) :
    (StaleFits disk.bytes i n m → ReleasesDropped disk i n m size) ∧
      (Shrinkable disk.bytes i n m → ReleasesDropped disk i n m size →
        StaleFits disk.bytes i n m) := by
  obtain ⟨total,rfl⟩ := Int.eq_ofNat_of_zero_le h0
  obtain ⟨old,hold⟩ := Int.eq_ofNat_of_zero_le (h0.trans hle)
  have hb := blocksAt_of_size hold
  have hblocks := h.blocks_le hi
  rw [hold,bytesToPages_natCast] at hn
  rw [bytesToPages_natCast] at hm
  obtain rfl : blocksAt disk.bytes i=n := by omega
  obtain rfl : (total+4095)/4096=m := by omega
  have hmn : (total+4095)/4096≤blocksAt disk.bytes i := by omega
  have hok : Shrinkable disk.bytes i (blocksAt disk.bytes i) ((total+4095)/4096) →
      shrinkInode (nodeOffset i) total disk=.ok (total : ℤ) {disk with
        bytes := shrunk disk.bytes i (blocksAt disk.bytes i) ((total+4095)/4096) total} := by
    intro hs
    rw [hb] at hs ⊢
    exact shrinkInode_ok total hi.1 disk hold (by omega) (by omega) hs
  constructor
  · intro hfits
    have hs := hfits.shrinkable h hi
    exact ⟨_,hok hs,(cut_shrunk_iff h hi hmn hs).mpr (fun page _ hbit =>
      hfits.mem_freed h hi hbit)⟩
  · rintro hs ⟨next,hnext,hcut⟩
    obtain ⟨_,rfl⟩ := EStateM.Result.ok.inj ((hok hs).symm.trans hnext)
    exact staleFits_of_freed h hi hmn hs ((cut_shrunk_iff h hi hmn hs).mp hcut)

/-- The image with `/a` in two blocks and with the indirect pointer of a longer
file left in its record: page 5 is unmarked, and its first word is the number of
the second block, page 4. -/
def withStale : Disk :=
  {withPages with bytes := Function.update (Function.update withPages.bytes 4184 5) 20480 4}

/-- The leftovers are at two addresses. -/
theorem bytes_withStale {address : ℕ} (h : address≠4184) (h' : address≠20480) :
    withStale.bytes address=withPages.bytes address := by
  unfold withStale
  dsimp only
  rw [Function.update_of_ne h',Function.update_of_ne h]

/-- Ownership does not depend on an indirect pointer out of use. -/
theorem owned_withStale : Owned withStale.bytes (Live withStale.bytes)
    (blocksAt withStale.bytes) := by
  have hsize : ∀ i, sizeAt withStale.bytes i=sizeAt withPages.bytes i := fun i =>
    intAt_congr (fun address hl hr => bytes_withStale (by omega) (by omega))
  have hlive : Live withStale.bytes=Live withPages.bytes := by
    funext i
    refine propext (and_congr_right (fun hi => ?_))
    rw [show inodeBit withStale.bytes i=inodeBit withPages.bytes i from
      bitAt_congr (bytes_withStale (by omega) (by omega))]
  have hblocks : blocksAt withStale.bytes=blocksAt withPages.bytes :=
    funext (fun i => by rw [blocksAt,blocksAt,hsize i])
  have hfew : ∀ i<64, inodeBit withPages.bytes i=true → blocksAt withPages.bytes i≤2 := by
    decide +kernel
  rw [hlive,hblocks]
  refine owned_withPages.of_pages (fun address hl => bytes_withStale (by omega) (by omega)) ?_
  rintro i ⟨hi,hbit⟩ slot hu
  have htwo := hfew i hi hbit
  cases slot with
  | block k =>
    simp only [Slot.Used] at hu
    simp only [Slot.page,pnumAt]
    rw [if_pos (by omega),if_pos (by omega)]
    exact intAt_congr (fun address hl hr => bytes_withStale (by omega) (by omega))
  | indirect =>
    simp only [Slot.Used] at hu
    omega

/-- With these leftovers the second block is released: the loop finds its page
in the stale slot one past the last block. -/
theorem stale_block_released : sizeAt withStale.bytes 1=4098 ∧
    pnumAt withStale.bytes 1 1=4 ∧ pageBit withStale.bytes 4=true ∧
    ReleasesDropped withStale 1 2 1 4096 := by
  have hsize : sizeAt withStale.bytes 1=4098 := by decide +kernel
  have hpage : pnumAt withStale.bytes 1 1=4 := by decide +kernel
  have hlast : pnumAt withStale.bytes 1 2=4 := by decide +kernel
  have hiptr : iptrAt withStale.bytes 1=5 := by decide +kernel
  refine ⟨hsize,hpage,by decide +kernel,(shrink_releases_dropped owned_withStale
    ⟨by decide,by decide +kernel⟩ (by decide) (by rw [hsize]; decide) (by rw [hsize]; decide)
    (by decide)).1 ⟨fun _ => .inl (hlast.trans hpage.symm),fun _ => ?_,fun _ => ?_⟩⟩
  · rw [hlast]
    exact ⟨by decide,by decide,.inr ⟨.block 1,Nat.lt_succ_self 1,Nat.lt_irrefl 1,hpage⟩⟩
  · rw [hiptr]
    exact ⟨by decide,by decide,.inl (by decide +kernel)⟩

/-- Cutting `/a` from 4098 to 4096 bytes drops its second block, page 4, and
leaves that page marked. -/
theorem dropped_page_stays_marked : Owned withPages.bytes (Live withPages.bytes)
      (blocksAt withPages.bytes) ∧ Live withPages.bytes 1 ∧
    sizeAt withPages.bytes 1=4098 ∧ bytesToPages 4098=2 ∧ bytesToPages 4096=1 ∧
    ¬ReleasesDropped withPages 1 2 1 4096 := by
  refine ⟨owned_withPages,⟨by decide,by decide +kernel⟩,by decide +kernel,by decide,by decide,?_⟩
  rintro ⟨next,hnext,hcut⟩
  have hpass : passes (shrinkInode (nodeOffset 1) 4096) withPages
      (fun _ last => pageBit last.bytes 4)=true := by decide +kernel
  have hbit := test_of_passes hpass hnext
  refine ((hcut.marks 4 (by decide)).mp hbit).2 ⟨.block 1,Nat.lt_succ_self 1,Nat.lt_irrefl 1,?_⟩
  decide +kernel

end ComputerSystems.NufsAccounting
