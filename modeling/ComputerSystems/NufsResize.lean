import ComputerSystems.NufsOwnership

/-!
# Growing and shrinking an inode

The loops of `grow_inode` and `shrink_inode` under the ownership invariant.
Growing adds slots whose pages were unmarked before and keeps every slot in
use. Shrinking from `n` to `m` blocks clears the marks of the pages found in
blocks `m+1` to `n`, one past the blocks it drops, and of the indirect pointer
whenever at most two blocks remain; the specification says exactly that.
-/

namespace ComputerSystems.NufsResize

open StateProgram ByteMemory NufsImage NufsInode NufsOwnership

/-! ## Single writes -/

/-- A mark is set or cleared alone. -/
theorem pageBit_putBit (memory : Bytes) (page other : ℕ) (value : Bool) :
    pageBit (putBit memory 0 page value) other=
      if other=page then value else pageBit memory other := by
  split
  · rename_i h
    subst h
    exact bitAt_putBit memory 0 other value
  · exact bitAt_putBit_other memory value (by omega)

/-- Writes past the page bitmap keep the marks. -/
theorem pageBit_putInt (memory : Bytes) (value : ℤ) {start page : ℕ} (hs : 32 ≤ start)
    (hp : page<256) : pageBit (putInt memory start value) page=pageBit memory page :=
  pageBit_congr (fun _ hl => putInt_outside memory value (by omega)) hp

/-- Marks of data pages are stored below every `int` of the table and of the
data pages. -/
theorem intAt_putBit (memory : Bytes) (value : Bool) {page start : ℕ} (hp : page<256)
    (hs : 32 ≤ start) : intAt (putBit memory 0 page value) start=intAt memory start :=
  intAt_congr (fun _ hl _ => putBit_outside memory value (by omega))

/-- A page number stored as an `int` reads back unchanged. -/
theorem intAt_putInt_page (memory : Bytes) (start : ℕ) {page : ℕ} (h : page<256) :
    intAt (putInt memory start page) start=page := by
  rw [intAt_putInt,wrap32_of_range (by omega) (by omega)]

/-- The page that the next `alloc_page` takes: the least unmarked one. -/
structure NextPage (memory : Bytes) (page : ℤ) : Prop where
  /-- The scan starts at page 1. -/
  lower : 1≤page
  /-- The scan ends at page 255. -/
  upper : page<256
  /-- The page is unmarked. -/
  unmarked : pageBit memory page.toNat=false
  /-- Every page before it is marked. -/
  least : ∀ earlier : ℕ, 1≤earlier → earlier<page.toNat → pageBit memory earlier=true

/-- The next page depends on the marks only. -/
theorem NextPage.congr {memory next : Bytes} {page : ℤ} (h : NextPage memory page)
    (hm : ∀ other, other<256 → pageBit next other=pageBit memory other) : NextPage next page := by
  have hu := h.upper
  refine ⟨h.lower,h.upper,?_,?_⟩
  · rw [hm _ (by omega)]
    exact h.unmarked
  · intro earlier hl hr
    rw [hm _ (by omega)]
    exact h.least earlier hl hr

/-- A successful `alloc_page` marks the next page. -/
theorem allocPage_delivers (disk : Disk) :
    Delivers Disk.denied allocPage disk (fun result next => ∃ page : ℕ, result=page ∧ 1≤page ∧
      page<256 ∧ pageBit disk.bytes page=false ∧ NextPage disk.bytes page ∧
      next={disk with bytes := putBit disk.bytes 0 page true}) := by
  rcases allocPage_spec disk with ⟨page,hl,hr,hf,he,hd⟩|⟨_,hd⟩
  · exact Delivers.of_ok hd ⟨page,rfl,hl,hr,hf,⟨by omega,by omega,hf,he⟩,rfl⟩
  · apply Delivers.of_rise
    rw [after_of_ok hd]
    exact Nat.lt_succ_self _

/-! ## Growing -/

/-- What growing from `n` to `m` blocks does to the image. -/
structure Grown (memory next : Bytes) (i n m : ℕ) : Prop where
  /-- Slots already in use keep their pages. -/
  keep : ∀ slot : Slot, slot.Used n → slot.page next i=slot.page memory i
  /-- Only marks, the record's pointers and the indirect page are written. -/
  frame : ∀ address, 32≤address → ¬(4096+64*i+16≤address ∧ address<4096+64*i+28) →
    ¬(2 < m ∧ ((address/4096 : ℕ) : ℤ)=iptrAt next i) → next address=memory address
  /-- Exactly the pages of the new slots become marked. -/
  marks : ∀ page, page<256 → (pageBit next page=true ↔ pageBit memory page=true ∨
    ∃ slot : Slot, slot.Used m ∧ ¬slot.Used n ∧ slot.page next i=page)
  /-- New slots hold data pages that were unmarked. -/
  new : ∀ slot : Slot, slot.Used m → ¬slot.Used n → 2 ≤ slot.page next i ∧
    slot.page next i<256 ∧ pageBit memory (slot.page next i).toNat=false
  /-- New slots hold different pages. -/
  distinct : ∀ slot other : Slot, slot.Used m → ¬slot.Used n → other.Used m → ¬other.Used n →
    slot.page next i=other.page next i → slot=other
  /-- A first new block that is direct takes the next page. -/
  first : n < m → n<2 → NextPage memory (pnumAt next i n)
  /-- Direct pointers out of use keep their values. -/
  direct : ∀ k, m≤k → k<2 → ptrAt next i k=ptrAt memory i k
  /-- An indirect pointer out of use keeps its value. -/
  indirect : m≤2 → iptrAt next i=iptrAt memory i

/-- Growing by nothing. -/
theorem Grown.refl (memory : Bytes) (i n : ℕ) : Grown memory memory i n n where
  keep := fun _ _ => rfl
  frame := fun _ _ _ _ => rfl
  marks := fun page _ => by
    constructor
    · exact fun h => .inl h
    · rintro (h|⟨slot,hu,hn,_⟩)
      · exact h
      · exact absurd hu hn
  new := fun slot hu hn => absurd hu hn
  distinct := fun slot other hu hn _ _ _ => absurd hu hn
  first := fun h _ => absurd h (Nat.lt_irrefl n)
  direct := fun _ _ _ => rfl
  indirect := fun _ => rfl

/-- Growing in two stages. -/
theorem Grown.trans {memory mid next : Bytes} {i n k m : ℕ} (hnk : n≤k) (hkm : k ≤ m)
    (h : Grown memory mid i n k) (h' : Grown mid next i k m) : Grown memory next i n m where
  keep := fun slot hu => (h'.keep slot (hu.mono hnk)).trans (h.keep slot hu)
  frame := by
    intro address hl hr hp
    rw [h'.frame address hl hr hp]
    refine h.frame address hl hr (fun hk => hp ⟨by omega,?_⟩)
    have hi := h'.keep .indirect hk.1
    simp only [Slot.page] at hi
    rw [hi]
    exact hk.2
  marks := by
    intro page hp
    rw [h'.marks page hp,h.marks page hp]
    constructor
    · rintro ((hm|⟨slot,hu,hn,he⟩)|⟨slot,hu,hn,he⟩)
      · exact .inl hm
      · exact .inr ⟨slot,hu.mono hkm,hn,by rw [h'.keep slot hu,he]⟩
      · exact .inr ⟨slot,hu,fun hu' => hn (hu'.mono hnk),he⟩
    · rintro (hm|⟨slot,hu,hn,he⟩)
      · exact .inl (.inl hm)
      · by_cases hk : slot.Used k
        · exact .inl (.inr ⟨slot,hk,hn,by rw [←h'.keep slot hk,he]⟩)
        · exact .inr ⟨slot,hu,hk,he⟩
  new := by
    intro slot hu hn
    by_cases hk : slot.Used k
    · rw [h'.keep slot hk]
      exact h.new slot hk hn
    · obtain ⟨hl,hr,hc⟩ := h'.new slot hu hk
      refine ⟨hl,hr,?_⟩
      cases hb : pageBit memory (slot.page next i).toNat with
      | false => rfl
      | true =>
        have hmid := (h.marks _ (by omega)).mpr (.inl hb)
        rw [hc] at hmid
        cases hmid
  distinct := by
    have hcross : ∀ slot other : Slot, slot.Used k → ¬slot.Used n → other.Used m →
        ¬other.Used k → slot.page next i≠other.page next i := by
      intro slot other hu hn ho hk he
      obtain ⟨hl,hr,hc⟩ := h'.new other ho hk
      rw [h'.keep slot hu] at he
      have hmid := (h.marks (other.page next i).toNat (by omega)).mpr
        (.inr ⟨slot,hu,hn,by rw [he]; omega⟩)
      rw [hc] at hmid
      cases hmid
    intro slot other hu hn ho hn' he
    by_cases hk : slot.Used k
    · by_cases hk' : other.Used k
      · rw [h'.keep slot hk,h'.keep other hk'] at he
        exact h.distinct slot other hk hn hk' hn' he
      · exact absurd he (hcross slot other hk hn ho hk')
    · by_cases hk' : other.Used k
      · exact absurd he.symm (hcross other slot hk' hn' hu hk)
      · exact h'.distinct slot other hu hk ho hk' he
  first := by
    intro hnm hn2
    rcases Nat.eq_or_lt_of_le hnk with he|hlt
    · subst he
      refine (h'.first hnm hn2).congr (fun other ho => ?_)
      have hmarks := h.marks other ho
      have hnone : ¬∃ slot : Slot, slot.Used n ∧ ¬slot.Used n ∧ slot.page mid i=other := by
        rintro ⟨slot,hu,hn,_⟩
        exact hn hu
      rw [Bool.eq_iff_iff,hmarks,or_iff_left hnone]
    · have hkeep := h'.keep (.block n) hlt
      simp only [Slot.page] at hkeep
      rw [hkeep]
      exact h.first hlt hn2
  direct := fun l hm hl => (h'.direct l hm hl).trans (h.direct l (Nat.le_trans hkm hm) hl)
  indirect := fun hm => (h'.indirect hm).trans (h.indirect (Nat.le_trans hkm hm))

section Owned

variable {memory next : Bytes} {live : ℕ → Prop} {blocks : ℕ → ℕ} {i n m : ℕ}

/-- The indirect pointer after growing past two blocks is a data page that no
other inode uses for its own pointers. -/
theorem Grown.indirect_range (hg : Grown memory next i n m) (h : Owned memory live blocks)
    (hi : live i) (hn : blocks i=n) (hm : 2 < m) :
    2 ≤ iptrAt next i ∧ iptrAt next i<256 := by
  by_cases hk : 2<n
  · have hr := h.range i hi .indirect (by rw [hn]; exact hk)
    have he := hg.keep .indirect hk
    simp only [Slot.page] at hr he
    rw [he]
    exact hr
  · have hnew := hg.new .indirect hm hk
    simp only [Slot.page] at hnew
    exact ⟨hnew.1,hnew.2.1⟩

/-- The indirect page after growing is in no slot that was in use, other than
the inode's own indirect one. -/
theorem Grown.page_ne_indirect (hg : Grown memory next i n m) (h : Owned memory live blocks)
    (hi : live i) (hn : blocks i=n) (hm : 2 < m) {j : ℕ} (hj : live j) {slot : Slot}
    (hu : slot.Used (blocks j)) (hne : ¬(j=i ∧ slot=.indirect)) :
    slot.page memory j≠iptrAt next i := by
  intro he
  by_cases hk : 2<n
  · have hkeep := hg.keep .indirect hk
    simp only [Slot.page] at hkeep
    exact hne (h.once j i hj hi slot .indirect hu (by rw [hn]; exact hk) (he.trans hkeep))
  · have hnew := hg.new .indirect hm hk
    have hmark := h.marked j hj slot hu
    simp only [Slot.page] at hnew
    rw [he,hnew.2.2] at hmark
    cases hmark

/-- Growing one inode keeps the slots of the others. -/
theorem Grown.other_slot (hg : Grown memory next i n m) (h : Owned memory live blocks)
    (hi : live i) (hn : blocks i=n) {j : ℕ} (hj : live j) (hne : j≠i) {slot : Slot}
    (hu : slot.Used (blocks j)) : slot.page next j=slot.page memory j := by
  have hj64 := h.index j hj
  have hi64 := h.index i hi
  have hb := h.blocks_le hj
  refine Slot.page_congr hu ?_ ?_ ?_ (by omega)
  · intro address hl hr
    refine hg.frame address (by omega) (by omega) (fun hx => ?_)
    have hrange := hg.indirect_range h hi hn hx.1
    omega
  · intro hb2
    have hr := h.range j hj .indirect hb2
    simp only [Slot.page] at hr
    omega
  · intro hb2 address hp
    have hr := h.range j hj .indirect hb2
    simp only [Slot.page] at hr
    refine hg.frame address (by omega) (by omega) (fun hx => ?_)
    exact hg.page_ne_indirect h hi hn hx.1 hj (show Slot.indirect.Used _ from hb2) (fun hc => hne hc.1)
      (hp.symm.trans hx.2)

/-- Growing keeps the ownership invariant for the larger block count. -/
theorem owned_grow (h : Owned memory live blocks) (hi : live i) (hn : blocks i=n)
    (hg : Grown memory next i n m) : Owned next live (Function.update blocks i m) := by
  have hcases : ∀ j, live j → ∀ slot : Slot, slot.Used (Function.update blocks i m j) →
      (slot.Used (blocks j) ∧ slot.page next j=slot.page memory j) ∨
        (j=i ∧ slot.Used m ∧ ¬slot.Used n) := by
    intro j hj slot hu
    by_cases hne : j=i
    · subst hne
      rw [Function.update_self] at hu
      by_cases hk : slot.Used n
      · left
        exact ⟨by rw [hn]; exact hk,hg.keep slot hk⟩
      · right
        exact ⟨rfl,hu,hk⟩
    · rw [Function.update_of_ne hne] at hu
      left
      exact ⟨hu,hg.other_slot h hi hn hj hne hu⟩
  have hkept : ∀ page, page<256 → pageBit memory page=true → pageBit next page=true :=
    fun page hp hb => (hg.marks page hp).mpr (.inl hb)
  refine ⟨hkept 1 (by omega) h.table,h.index,?_,?_,?_⟩
  · intro j hj slot hu
    rcases hcases j hj slot hu with ⟨ho,he⟩|⟨rfl,hm,hk⟩
    · rw [he]
      exact h.range j hj slot ho
    · obtain ⟨hl,hr,_⟩ := hg.new slot hm hk
      exact ⟨hl,hr⟩
  · intro j hj slot hu
    rcases hcases j hj slot hu with ⟨ho,he⟩|⟨rfl,hm,hk⟩
    · have hr := h.range j hj slot ho
      rw [he]
      exact hkept _ (by omega) (h.marked j hj slot ho)
    · obtain ⟨hl,hr,_⟩ := hg.new slot hm hk
      exact (hg.marks _ (by omega)).mpr (.inr ⟨slot,hm,hk,by omega⟩)
  · have hcross : ∀ j, live j → ∀ slot other : Slot, slot.Used (blocks j) →
        slot.page next j=slot.page memory j → other.Used m → ¬other.Used n →
        slot.page next j≠other.page next i := by
      intro j hj slot other ho he hm hk heq
      obtain ⟨_,_,hc⟩ := hg.new other hm hk
      have hmark := h.marked j hj slot ho
      rw [←he,heq,hc] at hmark
      cases hmark
    intro j l hj hl slot other hu hu' heq
    rcases hcases j hj slot hu with ⟨ho,he⟩|⟨rfl,hm,hk⟩
    · rcases hcases l hl other hu' with ⟨ho',he'⟩|⟨rfl,hm',hk'⟩
      · rw [he,he'] at heq
        exact h.once j l hj hl slot other ho ho' heq
      · exact absurd heq (hcross j hj slot other ho he hm' hk')
    · rcases hcases l hl other hu' with ⟨ho',he'⟩|⟨rfl,hm',hk'⟩
      · exact absurd heq.symm (hcross l hl other slot ho' he' hm hk)
      · exact ⟨rfl,hg.distinct slot other hm hk hm' hk' heq⟩

end Owned

/-! ## The rounds of `grow_inode` -/

/-- A round that marks one page and stores it for the next block; the round
that also takes the indirect page is separate. -/
theorem grown_of_store {memory next : Bytes} {i n start page : ℕ} (hn : n≠2) (hs : 32 ≤ start)
    (hl : 2≤page) (hr : page<256) (hf : pageBit memory page=false)
    (he : next=putInt (putBit memory 0 page true) start page)
    (hpage : pnumAt next i n=page) (hnext : n<2 → NextPage memory page)
    (hkeep : ∀ slot : Slot, slot.Used n → slot.page next i=slot.page memory i)
    (hdirect : ∀ k, n+1≤k → k<2 → ptrAt next i k=ptrAt memory i k)
    (hindirect : n+1≤2 → iptrAt next i=iptrAt memory i)
    (hframe : ∀ address, 32≤address → ¬(4096+64*i+16≤address ∧ address<4096+64*i+28) →
      ¬(2<n+1 ∧ ((address/4096 : ℕ) : ℤ)=iptrAt next i) → next address=memory address) :
    Grown memory next i n (n+1) := by
  have hone : ∀ slot : Slot, slot.Used (n+1) → ¬slot.Used n → slot=.block n := by
    intro slot hu hk
    cases slot with
    | block k =>
      simp only [Slot.Used] at hu hk
      rw [show k=n by omega]
    | indirect =>
      simp only [Slot.Used] at hu hk
      omega
  refine ⟨hkeep,hframe,?_,?_,?_,fun _ hn2 => by rw [hpage]; exact hnext hn2,hdirect,hindirect⟩
  · intro other hother
    rw [he,pageBit_putInt _ _ hs hother,pageBit_putBit,←he]
    by_cases ho : other=page
    · rw [if_pos ho]
      constructor
      · intro _
        exact .inr ⟨.block n,Nat.lt_succ_self n,Nat.lt_irrefl n,by rw [ho]; exact hpage⟩
      · intro _
        rfl
    · rw [if_neg ho]
      constructor
      · exact fun hm => .inl hm
      · rintro (hm|⟨slot,hu,hk,hp⟩)
        · exact hm
        · rw [hone slot hu hk] at hp
          simp only [Slot.page] at hp
          omega
  · intro slot hu hk
    rw [hone slot hu hk]
    simp only [Slot.page,hpage,Int.toNat_natCast]
    exact ⟨by omega,by omega,hf⟩
  · intro slot other hu hk hu' hk' _
    rw [hone slot hu hk,hone other hu' hk']

/-- A direct round stores the new page in its own pointer. -/
theorem grown_direct (memory : Bytes) {i n page : ℕ} (hn : n<2) (hl : 2≤page) (hr : page<256)
    (hf : pageBit memory page=false) (hnext : NextPage memory page) :
    Grown memory (putInt (putBit memory 0 page true) (4096+64*i+16+4*n) page) i n (n+1) := by
  refine grown_of_store (by omega) (by omega) hl hr hf rfl ?_ (fun _ => hnext) ?_ ?_ ?_ ?_
  · rw [pnumAt,if_pos hn,ptrAt,intAt_putInt_page _ _ hr]
  · intro slot hu
    cases slot with
    | block k =>
      simp only [Slot.Used] at hu
      simp only [Slot.page,pnumAt]
      rw [if_pos (by omega),if_pos (by omega),ptrAt,intAt_putInt_apart _ _ (by omega),
        intAt_putBit _ _ hr (by omega),ptrAt]
    | indirect =>
      simp only [Slot.Used] at hu
      omega
  · intro k hk hk2
    rw [ptrAt,intAt_putInt_apart _ _ (by omega),intAt_putBit _ _ hr (by omega),ptrAt]
  · intro _
    rw [iptrAt,intAt_putInt_apart _ _ (by omega),intAt_putBit _ _ hr (by omega),iptrAt]
  · intro address hlow hrec _
    rw [putInt_outside _ _ (by omega),putBit_outside _ _ (by omega)]

/-- An indirect round stores the new page in the next entry of the indirect
page. -/
theorem grown_indirect (memory : Bytes) {i n page indirect : ℕ} (hi : i<64) (hn : 2<n)
    (hb : n≤1025) (hind : iptrAt memory i=indirect) (hq : 2 ≤ indirect) (hl : 2≤page)
    (hr : page<256) (hf : pageBit memory page=false) :
    Grown memory (putInt (putBit memory 0 page true) (4096*indirect+4*(n-2)) page) i n (n+1) := by
  have hkeep : iptrAt (putInt (putBit memory 0 page true) (4096*indirect+4*(n-2)) page) i=
      indirect := by
    rw [iptrAt,intAt_putInt_apart _ _ (by omega),intAt_putBit _ _ hr (by omega)]
    exact hind
  have haddr : ∀ k, (4096*(indirect : ℤ)).toNat+4*(k-2)=4096*indirect+4*(k-2) := by
    intro k
    omega
  refine grown_of_store (by omega) (by omega) hl hr hf rfl ?_ (fun hn2 => absurd hn2 (by omega))
    ?_ (fun k hk hk2 => by omega) (fun hm => by omega) ?_
  · rw [pnumAt,if_neg (by omega),hkeep,haddr,intAt_putInt_page _ _ hr]
  · intro slot hu
    cases slot with
    | block k =>
      simp only [Slot.Used] at hu
      simp only [Slot.page,pnumAt]
      by_cases hk : k<2
      · rw [if_pos hk,if_pos hk,ptrAt,intAt_putInt_apart _ _ (by omega),
          intAt_putBit _ _ hr (by omega),ptrAt]
      · rw [if_neg hk,if_neg hk,hkeep,hind,haddr,intAt_putInt_apart _ _ (by omega),
          intAt_putBit _ _ hr (by omega)]
    | indirect => exact hkeep.trans hind.symm
  · intro address hlow hrec hpg
    have hne : address/4096≠indirect := by
      intro he
      exact hpg ⟨by omega,by rw [hkeep]; omega⟩
    rw [putInt_outside _ _ (by omega),putBit_outside _ _ (by omega)]

/-- The memory after the round that takes the indirect page and its first entry. -/
def withIndirect (memory : Bytes) (i indirect page : ℕ) : Bytes :=
  putInt (putBit (putInt (putBit memory 0 indirect true) (4096+64*i+24) indirect) 0 page true)
    (4096*indirect) page

/-- The third block takes the indirect page and its first entry. -/
theorem grown_first (memory : Bytes) {i page indirect : ℕ} (hi : i<64) (hq : 2 ≤ indirect)
    (hq' : indirect<256) (hfq : pageBit memory indirect=false) (hl : 2≤page) (hr : page<256)
    (hf : pageBit memory page=false) (hne : page≠indirect) :
    Grown memory (withIndirect memory i indirect page) i 2 3 := by
  have hind : iptrAt (withIndirect memory i indirect page) i=indirect := by
    rw [iptrAt,withIndirect,intAt_putInt_apart _ _ (by omega),intAt_putBit _ _ hr (by omega),
      intAt_putInt_page _ _ hq']
  have hpage : pnumAt (withIndirect memory i indirect page) i 2=page := by
    rw [pnumAt,if_neg (by omega),hind,show (4096*(indirect : ℤ)).toNat+4*(2-2)=4096*indirect by omega,
      withIndirect,intAt_putInt_page _ _ hr]
  have htwo : ∀ slot : Slot, slot.Used 3 → ¬slot.Used 2 → slot=.block 2 ∨ slot=.indirect := by
    intro slot hu hk
    cases slot with
    | block k =>
      simp only [Slot.Used] at hu hk
      exact .inl (by rw [show k=2 by omega])
    | indirect => exact .inr rfl
  refine ⟨?_,?_,?_,?_,?_,fun _ hn2 => absurd hn2 (by omega),fun k hk hk2 => by omega,
    fun hm => by omega⟩
  · intro slot hu
    cases slot with
    | block k =>
      simp only [Slot.Used] at hu
      simp only [Slot.page,pnumAt]
      rw [if_pos hu,if_pos hu,ptrAt,withIndirect,intAt_putInt_apart _ _ (by omega),
        intAt_putBit _ _ hr (by omega),intAt_putInt_apart _ _ (by omega),
        intAt_putBit _ _ hq' (by omega),ptrAt]
    | indirect =>
      simp only [Slot.Used] at hu
      omega
  · intro address hlow hrec hpg
    have hpg' : address/4096≠indirect := by
      intro he
      exact hpg ⟨by omega,by rw [hind]; omega⟩
    rw [withIndirect,putInt_outside _ _ (by omega),putBit_outside _ _ (by omega),
      putInt_outside _ _ (by omega),putBit_outside _ _ (by omega)]
  · intro other hother
    rw [show pageBit (withIndirect memory i indirect page) other=
        (if other=page then true else if other=indirect then true else pageBit memory other) by
      rw [withIndirect,pageBit_putInt _ _ (by omega) hother,pageBit_putBit,
        pageBit_putInt _ _ (by omega) hother,pageBit_putBit]]
    constructor
    · intro hm
      by_cases ho : other=page
      · exact .inr ⟨.block 2,by simp only [Slot.Used]; omega,by simp only [Slot.Used]; omega,
          by rw [ho]; exact hpage⟩
      · by_cases ho' : other=indirect
        · exact .inr ⟨.indirect,by simp only [Slot.Used]; omega,by simp only [Slot.Used]; omega,
            by rw [ho']; exact hind⟩
        · rw [if_neg ho,if_neg ho'] at hm
          exact .inl hm
    · rintro (hm|⟨slot,hu,hk,hp⟩)
      · rw [hm]
        simp only [ite_self]
      · rcases htwo slot hu hk with rfl|rfl
        · simp only [Slot.page,hpage] at hp
          rw [if_pos (by omega)]
        · simp only [Slot.page,hind] at hp
          rw [if_pos (show other=indirect by omega),ite_self]
  · intro slot hu hk
    rcases htwo slot hu hk with rfl|rfl
    · simp only [Slot.page,hpage,Int.toNat_natCast]
      exact ⟨by omega,by omega,hf⟩
    · simp only [Slot.page,hind,Int.toNat_natCast]
      exact ⟨by omega,by omega,hfq⟩
  · intro slot other hu hk hu' hk' he
    rcases htwo slot hu hk with rfl|rfl <;> rcases htwo other hu' hk' with rfl|rfl
    · rfl
    · simp only [Slot.page,hpage,hind] at he
      omega
    · simp only [Slot.page,hpage,hind] at he
      omega
    · rfl

section Delivers

variable {live : ℕ → Prop} {blocks : ℕ → ℕ} {i n : ℕ}

/-- One round of `grow_inode` under the ownership invariant. -/
theorem growBlock_delivers {disk : Disk} (h : Owned disk.bytes live blocks) (hi : live i)
    (hn : blocks i=n) : Delivers Disk.denied (growBlock (nodeOffset i) n) disk
      (fun _ next => Grown disk.bytes next.bytes i n (n+1)) := by
  have hi64 := h.index i hi
  have hb := h.blocks_le hi
  have hpage : ∀ {memory : Bytes} {page : ℕ}, pageBit memory 1=true → pageBit memory page=false →
      1≤page → 2≤page := by
    intro memory page ht hf hl
    rcases Nat.eq_or_lt_of_le hl with he|hlt
    · subst he
      rw [ht] at hf
      cases hf
    · omega
  unfold growBlock
  by_cases hdirect : n<2
  · rw [if_pos (by omega)]
    refine Delivers.bind (allocPage_delivers disk) allocPage_rises (fun _ => writeInt_rises _ _) ?_
    rintro _ _ _ ⟨page,rfl,hl,hr,hf,hnext,rfl⟩
    have haddr : nodeOffset i+16+4*(n : ℤ)=((4096+64*i+16+4*n : ℕ) : ℤ) := by
      unfold nodeOffset
      push_cast
      rfl
    rw [haddr]
    exact Delivers.of_ok (writeInt_ok (by omega) _ _)
      (grown_direct disk.bytes hdirect (hpage h.table hf hl) hr hf hnext)
  · rw [if_neg (by omega)]
    by_cases hfirst : n=2
    · subst hfirst
      rw [if_pos (by rfl)]
      refine Delivers.bind (allocPage_delivers disk) allocPage_rises (fun _ =>
        moves_bind (writeInt_rises _ _) (fun _ => growIndirect_rises _ _)) ?_
      rintro _ _ _ ⟨indirect,rfl,hl,hr,hf,_,rfl⟩
      have hq := hpage h.table hf hl
      refine Delivers.bind_ok (writeIptr_ok hi64 _ _) rfl ?_
      refine Delivers.bind_ok (readIptr_ok hi64 _) rfl ?_
      refine Delivers.bind (allocPage_delivers _) allocPage_rises (fun _ => writeInt_rises _ _) ?_
      rintro _ _ _ ⟨page,rfl,hl',hr',hf',_,rfl⟩
      dsimp only [iptrAt] at hf' ⊢
      rw [pageBit_putInt _ _ (by omega) hr',pageBit_putBit] at hf'
      have hne : page≠indirect := by
        intro he
        rw [if_pos he] at hf'
        cases hf'
      rw [if_neg hne] at hf'
      rw [intAt_putInt_page _ _ hr,pagesGetPage_eq (by omega) (by omega)]
      have haddr : 4096*(indirect : ℤ)+4*(2-2)=((4096*indirect : ℕ) : ℤ) := by
        push_cast
        omega
      rw [haddr]
      exact Delivers.of_ok (writeInt_ok (by omega) _ _)
        (grown_first disk.bytes hi64 hq hr hf (hpage h.table hf' hl') hr' hf' hne)
    · rw [if_neg (by omega)]
      have hrange := h.range i hi .indirect (by simp only [Slot.Used]; omega)
      simp only [Slot.page] at hrange
      obtain ⟨indirect,hind⟩ := Int.eq_ofNat_of_zero_le (show 0 ≤ iptrAt disk.bytes i by omega)
      refine Delivers.bind_ok (readIptr_ok hi64 _) rfl ?_
      refine Delivers.bind (allocPage_delivers _) allocPage_rises (fun _ => writeInt_rises _ _) ?_
      rintro _ _ _ ⟨page,rfl,hl,hr,hf,_,rfl⟩
      rw [hind,pagesGetPage_eq (by omega) (by omega)]
      have haddr : 4096*(indirect : ℤ)+4*((n : ℤ)-2)=((4096*indirect+4*(n-2) : ℕ) : ℤ) := by
        push_cast
        omega
      rw [haddr]
      exact Delivers.of_ok (writeInt_ok (by omega) _ _)
        (grown_indirect disk.bytes hi64 (by omega) (by omega) hind (by omega)
          (hpage h.table hf hl) hr hf)

/-- The loop of `grow_inode`: by induction on the rounds left, carrying the
invariant for the block count reached. -/
theorem growLoop_delivers (left : ℕ) : ∀ {blocks : ℕ → ℕ} {n : ℕ} (disk : Disk),
    Owned disk.bytes live blocks → live i → blocks i=n →
    Delivers Disk.denied (growLoop (nodeOffset i) left n) disk
      (fun _ next => Grown disk.bytes next.bytes i n (n+left)) := by
  induction left with
  | zero =>
    intro blocks n disk _ _ _
    exact Delivers.ret (Grown.refl disk.bytes i n)
  | succ left ih =>
    intro blocks n disk h hi hn
    refine Delivers.bind (growBlock_delivers h hi hn) (growBlock_rises _ _)
      (fun _ => growLoop_rises _ _ _) ?_
    intro _ mid _ hg
    have ho := owned_grow h hi hn hg
    have hloop := ih mid ho hi (Function.update_self i (n+1) blocks)
    rw [Nat.cast_add,Nat.cast_one] at hloop
    refine hloop.weaken (fun _ next hg' => ?_)
    rw [show n+(left+1)=n+1+left by omega]
    exact hg.trans (by omega) (by omega) hg'

/-- `grow_inode` on a live inode: growing by whole blocks, then the size. -/
theorem growInode_delivers {disk : Disk} (h : Owned disk.bytes live blocks) (hi : live i)
    {old size : ℕ} (hs : sizeAt disk.bytes i=old) (hb : blocks i=(old+4095)/4096)
    (hlt : size<2147483648) : Delivers Disk.denied (growInode (nodeOffset i) size) disk
      (fun result next => result=size ∧ ∃ grown, Grown disk.bytes grown i ((old+4095)/4096)
        (max ((old+4095)/4096) ((size+4095)/4096)) ∧
        next.bytes=putInt grown (4096+64*i+12) size) := by
  have hi64 := h.index i hi
  have hrounds : (bytesToPages size-bytesToPages old).toNat=
      (size+4095)/4096-(old+4095)/4096 := by
    rw [bytesToPages_natCast,bytesToPages_natCast]
    omega
  have hmax : (old+4095)/4096+((size+4095)/4096-(old+4095)/4096)=
      max ((old+4095)/4096) ((size+4095)/4096) := by omega
  refine Delivers.bind_ok (readSize_ok hi64 _) rfl ?_
  rw [hs,hrounds,bytesToPages_natCast]
  refine Delivers.bind (growLoop_delivers _ _ h hi hb) (growLoop_rises _ _ _) (fun _ =>
    moves_bind (writeInt_rises _ _) (fun _ => (readInt_readOnly _).rises _)) ?_
  intro _ mid _ hg
  rw [hmax] at hg
  refine Delivers.bind_ok (writeSize_ok hi64 _ _) rfl ?_
  refine Delivers.of_ok (readSize_ok hi64 _) ⟨?_,mid.bytes,hg,rfl⟩
  dsimp only [sizeAt]
  rw [intAt_putInt,wrap32_of_range (by omega) (by omega)]

end Delivers

/-! ## Shrinking -/

/-- Clear the marks of a list of pages. -/
def clearPages (memory : Bytes) (pages : List ℕ) : Bytes :=
  pages.foldl (fun bytes page => putBit bytes 0 page false) memory

/-- Exactly the listed pages lose their marks. -/
theorem pageBit_clearPages (memory : Bytes) (pages : List ℕ) (page : ℕ) :
    pageBit (clearPages memory pages) page=(pageBit memory page && !decide (page∈pages)) := by
  induction pages generalizing memory with
  | nil => simp [clearPages]
  | cons first rest ih =>
    have hr := ih (putBit memory 0 first false)
    simp only [clearPages,List.foldl_cons] at hr ⊢
    rw [hr,pageBit_putBit]
    by_cases he : page=first
    · simp [he]
    · simp [he]

/-- Clearing marks of pages below 256 stays in the page bitmap. -/
theorem clearPages_outside (memory : Bytes) {pages : List ℕ} (h : ∀ page∈pages, page<256)
    {address : ℕ} (ha : 32≤address) : clearPages memory pages address=memory address := by
  induction pages generalizing memory with
  | nil => rfl
  | cons first rest ih =>
    have hf := h first (by simp)
    have hr := ih (putBit memory 0 first false) (fun page hp => h page (by simp [hp]))
    simp only [clearPages,List.foldl_cons] at hr ⊢
    rw [hr,putBit_outside _ _ (by omega)]

/-- The pages whose numbers `shrink_inode` passes to `free_page` when it goes
from `n` to `m` blocks. -/
def freedPages (memory : Bytes) (i n m : ℕ) : List ℕ :=
  (List.range (n-m)).map (fun round => (pnumAt memory i (n-round)).toNat)++
    if m≤2 then [(iptrAt memory i).toNat] else []

/-- The pages freed depend on the pointers to them only. -/
theorem freedPages_congr {memory next : Bytes} {i n m : ℕ}
    (hblocks : ∀ k, m<k → k≤n → pnumAt next i k=pnumAt memory i k)
    (hind : iptrAt next i=iptrAt memory i) : freedPages next i n m=freedPages memory i n m := by
  have hrounds : (List.range (n-m)).map (fun round => (pnumAt next i (n-round)).toNat)=
      (List.range (n-m)).map (fun round => (pnumAt memory i (n-round)).toNat) := by
    refine List.map_congr_left (fun round hround => ?_)
    have hlt := List.mem_range.mp hround
    rw [hblocks (n-round) (by omega) (by omega)]
  rw [freedPages,freedPages,hrounds,hind]

/-- `inode_get_pnum` finds the number of a block whose pointer is in the image. -/
theorem inodeGetPnum_ok {i k : ℕ} (hi : i<64) (disk : Disk)
    (h : k<2 ∨ (0 ≤ iptrAt disk.bytes i ∧ iptrAt disk.bytes i<256 ∧ k<1026)) :
    inodeGetPnum (nodeOffset i) k disk=.ok (pnumAt disk.bytes i k) disk := by
  unfold inodeGetPnum pnumAt
  by_cases hk : k<2
  · have haddr : nodeOffset i+16+4*(k : ℤ)=((4096+64*i+16+4*k : ℕ) : ℤ) := by
      unfold nodeOffset
      push_cast
      rfl
    rw [if_pos (by omega),if_pos hk,haddr,readInt_ok (by omega),ptrAt]
  · obtain ⟨hl,hr,hk'⟩ : 0 ≤ iptrAt disk.bytes i ∧ iptrAt disk.bytes i<256 ∧ k<1026 := by
      rcases h with h|h
      · omega
      · exact h
    rw [if_neg (by omega),if_neg hk,bind_of_ok (readIptr_ok hi disk),
      pagesGetPage_eq (by omega) (by omega)]
    have haddr : 4096*iptrAt disk.bytes i+4*((k : ℤ)-2)=
        (((4096*iptrAt disk.bytes i).toNat+4*(k-2) : ℕ) : ℤ) := by
      push_cast
      omega
    rw [haddr,readInt_ok (by omega)]

/-- Block numbers are read past the page bitmap, so marks do not move them. -/
theorem pnumAt_putBit (memory : Bytes) (value : Bool) {i k page : ℕ} (hp : page<256)
    (h : k<2 ∨ 1 ≤ iptrAt memory i) :
    pnumAt (putBit memory 0 page value) i k=pnumAt memory i k := by
  have hind : iptrAt (putBit memory 0 page value) i=iptrAt memory i :=
    intAt_putBit memory value hp (by omega)
  unfold pnumAt
  by_cases hk : k<2
  · rw [if_pos hk,if_pos hk]
    exact intAt_putBit memory value hp (by omega)
  · rw [if_neg hk,if_neg hk,hind]
    exact intAt_putBit memory value hp (by omega)

/-- The loop of `shrink_inode`, from the top block down. Only the first round
may read its number from a place that the later rounds change. -/
theorem shrinkLoop_ok {i : ℕ} (hi : i<64) (left : ℕ) : ∀ (top : ℕ) (disk : Disk), left≤top →
    (∀ k, top<k+left → k≤top → 0≤pnumAt disk.bytes i k ∧ pnumAt disk.bytes i k<256 ∧
      (k<2 ∨ (0 ≤ iptrAt disk.bytes i ∧ iptrAt disk.bytes i<256 ∧ k<1026))) →
    (∀ k, top<k+left → k<top → k<2 ∨ 1 ≤ iptrAt disk.bytes i) →
    shrinkLoop (nodeOffset i) left top disk=.ok () {disk with
      bytes := clearPages disk.bytes
        ((List.range left).map (fun round => (pnumAt disk.bytes i (top-round)).toNat))} := by
  induction left with
  | zero =>
    intro top disk _ _ _
    rfl
  | succ left ih =>
    intro top disk hle hval hstable
    obtain ⟨hl,hr,hread⟩ := hval top (by omega) (Nat.le_refl _)
    obtain ⟨page,hpage⟩ := Int.eq_ofNat_of_zero_le hl
    have hp : page<256 := by omega
    have hind : iptrAt (putBit disk.bytes 0 page false) i=iptrAt disk.bytes i :=
      intAt_putBit disk.bytes false hp (by omega)
    have hsame : ∀ k, top<k+(left+1) → k<top →
        pnumAt (putBit disk.bytes 0 page false) i k=pnumAt disk.bytes i k :=
      fun k hk hk' => pnumAt_putBit disk.bytes false hp (hstable k hk hk')
    have hrest := ih (top-1) {disk with bytes := putBit disk.bytes 0 page false} (by omega)
      (fun k hk hk' => by
        dsimp only
        rw [hsame k (by omega) (by omega),hind]
        exact hval k (by omega) (by omega))
      (fun k hk hk' => by
        dsimp only
        rw [hind]
        exact hstable k (by omega) (by omega))
    rw [shrinkLoop,bind_of_ok (inodeGetPnum_ok hi disk hread),hpage,
      bind_of_ok (freePage_ok (by omega) disk),show (top : ℤ)-1=((top-1 : ℕ) : ℤ) by omega,hrest]
    have hlist : (List.range (left+1)).map (fun round => (pnumAt disk.bytes i (top-round)).toNat)=
        page::(List.range left).map (fun round =>
          (pnumAt (putBit disk.bytes 0 page false) i (top-1-round)).toNat) := by
      rw [List.range_succ_eq_map,List.map_cons,List.map_map,Nat.sub_zero,hpage,Int.toNat_natCast]
      refine congrArg (List.cons page) (List.map_congr_left (fun round hround => ?_))
      have hlt := List.mem_range.mp hround
      have hround' : top-round.succ=top-1-round := by omega
      rw [Function.comp_apply,hsame (top-1-round) (by omega) (by omega),hround']
    simp only [hlist,clearPages,List.foldl_cons]

/-- What the operation needs to run through: every number it reads and frees
lies in the image. -/
structure Shrinkable (memory : Bytes) (i n m : ℕ) : Prop where
  /-- The block past the last one, read by the first round. -/
  last : m<n → 0≤pnumAt memory i n ∧ pnumAt memory i n<256 ∧
    (n<2 ∨ (0 ≤ iptrAt memory i ∧ iptrAt memory i<256))
  /-- The blocks that really are dropped, read by the other rounds. -/
  inner : ∀ k, m<k → k<n → 0≤pnumAt memory i k ∧ pnumAt memory i k<256 ∧
    (k<2 ∨ (1 ≤ iptrAt memory i ∧ iptrAt memory i<256))
  /-- The indirect pointer, freed whenever at most two blocks remain. -/
  indirect : m≤2 → 0 ≤ iptrAt memory i ∧ iptrAt memory i<256

/-- Every freed number is a page of the image. -/
theorem Shrinkable.freed_lt {memory : Bytes} {i n m : ℕ} (h : Shrinkable memory i n m) :
    ∀ page∈freedPages memory i n m, page<256 := by
  intro page hp
  rcases List.mem_append.mp hp with hp|hp
  · obtain ⟨round,hround,rfl⟩ := List.mem_map.mp hp
    have hlt := List.mem_range.mp hround
    by_cases hz : round=0
    · have hl := h.last (by omega)
      rw [hz,Nat.sub_zero]
      omega
    · have hin := h.inner (n-round) (by omega) (by omega)
      omega
  · split at hp
    · rename_i hm
      have hi := h.indirect hm
      rw [List.mem_singleton] at hp
      omega
    · cases hp

/-- The memory after `shrink_inode`. -/
def shrunk (memory : Bytes) (i n m size : ℕ) : Bytes :=
  putInt (clearPages memory (freedPages memory i n m)) (4096+64*i+12) size

/-- `shrink_inode` clears exactly the marks it frees and sets the size. -/
theorem shrinkInode_ok {i old : ℕ} (size : ℕ) (hi : i<64) (disk : Disk) (hs : sizeAt disk.bytes i=old)
    (hold : (old+4095)/4096<1026) (hle : (size+4095)/4096≤(old+4095)/4096)
    (h : Shrinkable disk.bytes i ((old+4095)/4096) ((size+4095)/4096)) :
    shrinkInode (nodeOffset i) size disk=.ok (size : ℤ) {disk with
      bytes := shrunk disk.bytes i ((old+4095)/4096) ((size+4095)/4096) size} := by
  generalize hn : (old+4095)/4096=n at *
  generalize hm : (size+4095)/4096=m at *
  have hrounds : (bytesToPages old-bytesToPages size).toNat=n-m := by
    rw [bytesToPages_natCast,bytesToPages_natCast]
    omega
  have hloop := shrinkLoop_ok hi (n-m) n disk (by omega)
    (fun k hk hk' => by
      rcases Nat.eq_or_lt_of_le hk' with he|hlt
      · rw [he]
        obtain ⟨hl,hr,hx⟩ := h.last (by omega)
        exact ⟨hl,hr,hx.imp_right (fun hy => ⟨hy.1,hy.2,hold⟩)⟩
      · obtain ⟨hl,hr,hx⟩ := h.inner k (by omega) hlt
        exact ⟨hl,hr,hx.imp_right (fun hy =>
          ⟨Int.le_trans Int.one_nonneg hy.1,hy.2,Nat.lt_trans hlt hold⟩)⟩)
    (fun k hk hk' => by
      obtain ⟨_,_,hx⟩ := h.inner k (by omega) hk'
      exact hx.imp_right (fun hy => hy.1))
  have hpages : ∀ page∈(List.range (n-m)).map (fun round => (pnumAt disk.bytes i (n-round)).toNat),
      page<256 := fun page hp => h.freed_lt page (List.mem_append_left _ hp)
  have hkeep : ∀ {start}, 32 ≤ start → intAt (clearPages disk.bytes ((List.range (n-m)).map
      (fun round => (pnumAt disk.bytes i (n-round)).toNat))) start=intAt disk.bytes start :=
    fun hstart => intAt_congr (fun _ _ _ => clearPages_outside _ hpages (by omega))
  have hind : shrinkIndirect (nodeOffset i) m {disk with
        bytes := clearPages disk.bytes
          ((List.range (n-m)).map (fun round => (pnumAt disk.bytes i (n-round)).toNat))}=
      .ok () {disk with bytes := clearPages disk.bytes (freedPages disk.bytes i n m)} := by
    unfold shrinkIndirect freedPages
    by_cases hm2 : m≤2
    · obtain ⟨hl,hr⟩ := h.indirect hm2
      obtain ⟨page,hpage⟩ := Int.eq_ofNat_of_zero_le hl
      have hp : page<256 := by
        rw [hpage] at hr
        exact Int.ofNat_lt.mp hr
      rw [if_pos (by omega),if_pos hm2,bind_of_ok (readIptr_ok hi _),iptrAt]
      dsimp only
      rw [hkeep (by omega),show intAt disk.bytes (4096+64*i+24)=(page : ℤ) from hpage,
        freePage_ok (Nat.lt_trans hp (by decide))]
      simp only [clearPages,List.foldl_append,hpage,Int.toNat_natCast,List.foldl_cons,
        List.foldl_nil]
    · rw [if_neg (by omega),if_neg hm2,List.append_nil]
      rfl
  rw [shrinkInode,bind_of_ok (readSize_ok hi disk),hs,hrounds,bytesToPages_natCast,
    bytesToPages_natCast,hn,hm,bind_of_ok hloop,bind_of_ok hind,bind_of_ok (writeSize_ok hi _ _)]
  have hlast := readSize_ok hi {disk with bytes := shrunk disk.bytes i n m size}
  rw [sizeAt,shrunk,intAt_putInt,wrap32_of_range (by omega) (by omega)] at hlast
  exact hlast

/-- A page number that may be freed without taking a page in use: a page of
the image other than page 1 that no used slot holds. -/
def Harmless (memory : Bytes) (live : ℕ → Prop) (blocks : ℕ → ℕ) (page : ℤ) : Prop :=
  0≤page ∧ page<256 ∧ page≠1 ∧
    ∀ j, live j → ∀ slot : Slot, slot.Used (blocks j) → slot.page memory j≠page

/-- Shrinking to `m` blocks frees nothing in use by mistake: neither through
the block past the last one nor through an indirect pointer out of use. -/
def ShrinkSafe (memory : Bytes) (live : ℕ → Prop) (blocks : ℕ → ℕ) (i m : ℕ) : Prop :=
  (m<blocks i → Harmless memory live (Function.update blocks i m) (pnumAt memory i (blocks i))) ∧
  (m≤2 → blocks i≤2 → Harmless memory live (Function.update blocks i m) (iptrAt memory i))

section Shrink

variable {memory : Bytes} {live : ℕ → Prop} {blocks : ℕ → ℕ} {i m : ℕ}

/-- A slot that the smaller block count drops is harmless to free. -/
theorem harmless_of_dropped (h : Owned memory live blocks) (hi : live i) (hm : m≤blocks i)
    {slot : Slot} (hu : slot.Used (blocks i)) (hk : ¬slot.Used m) :
    Harmless memory live (Function.update blocks i m) (slot.page memory i) := by
  obtain ⟨hl,hr⟩ := h.range i hi slot hu
  refine ⟨by omega,hr,by omega,?_⟩
  intro j hj other ho he
  have hle : Function.update blocks i m j≤blocks j := by
    by_cases hji : j=i
    · subst hji
      rw [Function.update_self]
      exact hm
    · rw [Function.update_of_ne hji]
  obtain ⟨rfl,rfl⟩ := h.once j i hj hi other slot (ho.mono hle) hu he
  rw [Function.update_self] at ho
  exact hk ho

/-- Everything a safe shrink frees is harmless. -/
theorem harmless_of_freed (h : Owned memory live blocks) (hi : live i) (hm : m≤blocks i)
    (hs : ShrinkSafe memory live blocks i m) :
    ∀ page∈freedPages memory i (blocks i) m,
      Harmless memory live (Function.update blocks i m) page := by
  have hnat : ∀ {value : ℤ}, Harmless memory live (Function.update blocks i m) value →
      Harmless memory live (Function.update blocks i m) (value.toNat : ℤ) := by
    intro value hv
    rw [Int.toNat_of_nonneg hv.1]
    exact hv
  intro page hp
  rcases List.mem_append.mp hp with hp|hp
  · obtain ⟨round,hround,rfl⟩ := List.mem_map.mp hp
    have hlt := List.mem_range.mp hround
    apply hnat
    by_cases hz : round=0
    · rw [hz,Nat.sub_zero]
      exact hs.1 (by omega)
    · have hdrop := @harmless_of_dropped _ _ _ _ _ h hi hm (.block (blocks i-round))
        (by simp only [Slot.Used]; omega) (by simp only [Slot.Used]; omega)
      rw [Slot.page] at hdrop
      exact hdrop
  · split at hp
    · rename_i hm2
      rw [List.mem_singleton.mp hp]
      apply hnat
      by_cases hn2 : blocks i≤2
      · exact hs.2 hm2 hn2
      · have hdrop := @harmless_of_dropped _ _ _ _ _ h hi hm .indirect
          (by simp only [Slot.Used]; omega) (by simp only [Slot.Used]; omega)
        rw [Slot.page] at hdrop
        exact hdrop
    · cases hp

/-- Shrinking an owned inode reads and frees inside the image when the number
one past the last block and an indirect pointer out of use are pages. -/
theorem shrinkable_of_stale (h : Owned memory live blocks) (hi : live i)
    (hlast : m<blocks i → 0≤pnumAt memory i (blocks i) ∧ pnumAt memory i (blocks i)<256)
    (hstale : m≤2 → blocks i≤2 → 0 ≤ iptrAt memory i ∧ iptrAt memory i<256) :
    Shrinkable memory i (blocks i) m := by
  have hind : 2<blocks i → 2 ≤ iptrAt memory i ∧ iptrAt memory i<256 := fun hb =>
    h.range i hi .indirect hb
  refine ⟨?_,?_,?_⟩
  · intro hm
    obtain ⟨hl,hr⟩ := hlast hm
    refine ⟨hl,hr,?_⟩
    by_cases hb : 2<blocks i
    · have hx := hind hb
      exact .inr ⟨by omega,hx.2⟩
    · exact .inr (hstale (by omega) (by omega))
  · intro k hmk hk
    have hr := h.range i hi (.block k) hk
    simp only [Slot.page] at hr
    refine ⟨by omega,hr.2,?_⟩
    by_cases hk2 : k<2
    · exact .inl hk2
    · have hx := hind (by omega)
      exact .inr ⟨by omega,hx.2⟩
  · intro hm2
    by_cases hb : 2<blocks i
    · have hx := hind hb
      exact ⟨by omega,hx.2⟩
    · exact hstale hm2 (by omega)

/-- A safe shrink reads and frees inside the image. -/
theorem shrinkable_of_safe (h : Owned memory live blocks) (hi : live i)
    (hs : ShrinkSafe memory live blocks i m) : Shrinkable memory i (blocks i) m :=
  shrinkable_of_stale h hi (fun hm => ⟨(hs.1 hm).1,(hs.1 hm).2.1⟩)
    (fun hm hb => ⟨(hs.2 hm hb).1,(hs.2 hm hb).2.1⟩)

/-- Freeing harmless pages keeps the ownership invariant. -/
theorem owned_clear (h : Owned memory live blocks) {pages : List ℕ}
    (hp : ∀ page∈pages, Harmless memory live blocks page) :
    Owned (clearPages memory pages) live blocks := by
  have hout : ∀ address, 32≤address → clearPages memory pages address=memory address :=
    fun address ha => clearPages_outside _ (fun page hpage => by
      have hx := (hp page hpage).2.1
      omega) ha
  have hslot : ∀ j, live j → ∀ slot : Slot, slot.Used (blocks j) →
      slot.page (clearPages memory pages) j=slot.page memory j := by
    intro j hj slot hu
    have hb := h.blocks_le hj
    have hind : 2<blocks j → 2 ≤ iptrAt memory j := fun hb2 => (h.range j hj .indirect hb2).1
    refine Slot.page_congr hu (fun address hl _ => hout address (by omega)) ?_ ?_ (by omega)
    · intro hb2
      have hx := hind hb2
      omega
    · intro hb2 address he
      have hx := hind hb2
      exact hout address (by omega)
  refine ⟨?_,h.index,?_,?_,?_⟩
  · have hne : 1∉pages := fun hmem => (hp 1 hmem).2.2.1 rfl
    rw [pageBit_clearPages,h.table,decide_eq_false hne]
    rfl
  · intro j hj slot hu
    rw [hslot j hj slot hu]
    exact h.range j hj slot hu
  · intro j hj slot hu
    have hr := h.range j hj slot hu
    have hne : (slot.page memory j).toNat∉pages := by
      intro hmem
      refine (hp _ hmem).2.2.2 j hj slot hu ?_
      omega
    rw [hslot j hj slot hu,pageBit_clearPages,h.marked j hj slot hu,decide_eq_false hne]
    rfl
  · intro j l hj hl slot other hu ho he
    rw [hslot j hj slot hu,hslot l hl other ho] at he
    exact h.once j l hj hl slot other hu ho he

/-- A safe shrink keeps the ownership invariant for the smaller block count. -/
theorem owned_shrink (h : Owned memory live blocks) (hi : live i) (hm : m≤blocks i)
    (hs : ShrinkSafe memory live blocks i m) (size : ℕ) :
    Owned (shrunk memory i (blocks i) m size) live (Function.update blocks i m) := by
  have hi64 := h.index i hi
  have hless : Owned memory live (Function.update blocks i m) := by
    refine h.restrict (fun _ hj => .inl hj) (fun j _ _ => ?_)
    by_cases hji : j=i
    · subst hji
      rw [Function.update_self]
      exact hm
    · rw [Function.update_of_ne hji]
  have hclear := owned_clear hless (harmless_of_freed h hi hm hs)
  refine hclear.of_agree (fun address hg => putInt_outside _ _ ?_)
  by_contra hin
  exact hclear.header_not_guarded hi64 (by omega) (by omega) hg

/-- Past the bitmap, shrinking writes only the size field. -/
theorem shrunk_outside (h : Shrinkable memory i n m) (size : ℕ) {address : ℕ}
    (hl : 32≤address) (hr : address<4096+64*i+12 ∨ 4096+64*i+16≤address) :
    shrunk memory i n m size address=memory address := by
  rw [shrunk,putInt_outside _ _ hr,clearPages_outside _ h.freed_lt hl]

/-- The marks left by shrinking. -/
theorem pageBit_shrunk (memory : Bytes) (i n m size : ℕ) {page : ℕ} (hp : page<256) :
    pageBit (shrunk memory i n m size) page=
      (pageBit memory page && !decide (page∈freedPages memory i n m)) := by
  rw [shrunk,pageBit_putInt _ _ (by omega) hp,pageBit_clearPages]

end Shrink

end ComputerSystems.NufsResize
