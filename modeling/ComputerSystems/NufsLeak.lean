import ComputerSystems.NufsIsolation

/-!
# Pages that nobody owns

A shrink from `n` to `m` blocks frees blocks `m+1` to `n`, so the page of
block `m` stays marked with no owner unless it happens to be freed under
another number, and `free_inode` returns no page at all. `Tidy` adds to `Clean`
that every dropped slot is really freed and that an inode losing its last name
is empty. Along tidy runs every marked data page has an owner.
-/

namespace ComputerSystems.NufsLeak

open StateProgram ByteMemory NufsImage NufsInode NufsPath NufsDirectory NufsStorage NufsCalls
  NufsOwnership NufsResize NufsFrame NufsEntry NufsSound NufsIsolation

/-- Every marked data page is owned by a live inode. -/
def NoLeak (memory : Bytes) : Prop :=
  ∀ page : ℕ, 2≤page → page<256 → pageBit memory page=true →
    ∃ (i : ℕ) (slot : Slot), Live memory i ∧ slot.Used (blocksAt memory i) ∧ slot.page memory i=page

/-- A step leaks nothing when every page marked after it was marked before or
is owned now, and owners of pages that stay marked remain owners. -/
theorem NoLeak.step {memory next : Bytes} (h : NoLeak memory)
    (hmarks : ∀ page : ℕ, 2≤page → page<256 → pageBit next page=true → pageBit memory page=true ∨
      ∃ (i : ℕ) (slot : Slot), Live next i ∧ slot.Used (blocksAt next i) ∧ slot.page next i=page)
    (hkeep : ∀ (page : ℕ) (i : ℕ) (slot : Slot), page<256 → Live memory i →
      slot.Used (blocksAt memory i) → slot.page memory i=page → pageBit next page=true →
      Live next i ∧ slot.Used (blocksAt next i) ∧ slot.page next i=page) : NoLeak next := by
  intro page hl hr hm
  rcases hmarks page hl hr hm with hold|hnew
  · obtain ⟨i,slot,hi,hu,he⟩ := h page hl hr hold
    exact ⟨i,slot,hkeep page i slot hr hi hu he hm⟩
  · exact hnew

/-! ## Conditions on a call -/

/-- Every slot dropped on the way to `m` blocks is freed. -/
def ShrinkTidy (memory : Bytes) (i m : ℕ) : Prop :=
  ∀ slot : Slot, slot.Used (blocksAt memory i) → ¬slot.Used m →
    (slot.page memory i).toNat∈freedPages memory i (blocksAt memory i) m

/-- No entry of the directory names an inode with blocks that one name less
would free; counts and blocks are those that the removal finds. -/
def LastNameEmpty (memory : Bytes) (d : ℕ) (count : ℕ → ℤ) (blocks : ℕ → ℕ) : Prop :=
  ∀ ii j : ℕ, ii<(sizeAt memory d).toNat/64 → j<64 →
    intAt memory (4096*(ptrAt memory d 0).toNat+64*ii+48)=j → count j≤1 →
    Live memory (inumAt memory j).toNat → blocks (inumAt memory j).toNat=0

/-- The part of `Tidy` that goes beyond `Clean`. -/
def LeavesNothing (disk : Disk) : Call → Prop
  | .mknod _ _ => True
  | .link _ _ => True
  | .unlink path => ∀ d i : ℕ, treeLookup (dirname path) disk=.ok (d : ℤ) disk →
      treeLookup path disk=.ok (i : ℤ) disk →
      ShrinkTidy disk.bytes d (((sizeAt disk.bytes d).toNat-64+4095)/4096) ∧
      LastNameEmpty disk.bytes d
        (fun j => if j=i then wrap32 (refsAt disk.bytes j-1) else refsAt disk.bytes j)
        (blocksAt disk.bytes)
  | .rename path dest => ∀ d t f : ℕ, treeLookup (dirname path) disk=.ok (d : ℤ) disk →
      directoryLookup (nodeOffset d) (basename path) disk=.ok (f : ℤ) disk →
      treeLookup (dirname dest) disk=.ok (t : ℤ) disk →
      (t=d → sizeAt disk.bytes d%64=0) ∧
      (t≠d → ShrinkTidy disk.bytes d (((sizeAt disk.bytes d).toNat-64+4095)/4096)) ∧
      LastNameEmpty disk.bytes d
        (fun j => if j=f then wrap32 (refsAt disk.bytes j+1) else refsAt disk.bytes j)
        (Function.update (blocksAt disk.bytes) t 1)
  | .write path _ size offset => ∀ i : ℕ, treeLookup path disk=.ok (i : ℤ) disk →
      offset.toInt+size.toNat < sizeAt disk.bytes i →
      ShrinkTidy disk.bytes i (((offset.toInt+size.toNat).toNat+4095)/4096)
  | .truncate path size => ∀ i : ℕ, treeLookup path disk=.ok (i : ℤ) disk →
      size.toInt < sizeAt disk.bytes i → ShrinkTidy disk.bytes i ((size.toInt.toNat+4095)/4096)

/-- A clean call that leaves no page without an owner. -/
def Tidy (disk : Disk) (call : Call) : Prop := Clean disk call ∧ LeavesNothing disk call

/-! ## Steps -/

section Steps

variable {memory next : Bytes} {i : ℕ}

/-- Growing leaks nothing. -/
theorem noLeak_grown (hn : NoLeak memory) (h : Sound memory) (hi : Live memory i) {old size : ℕ}
    (hs : sizeAt memory i=old) (hle : old ≤ size) (hlt : size<2147483648) {grown : Bytes}
    (hg : Grown memory grown i ((old+4095)/4096) (max ((old+4095)/4096) ((size+4095)/4096))) :
    NoLeak (putInt grown (4096+64*i+12) size) := by
  have hb := blocksAt_of_size hs
  have hmax : max ((old+4095)/4096) ((size+4095)/4096)=(size+4095)/4096 := by omega
  obtain ⟨htable,hkept⟩ := kept_grown h hi hs hg
  have hsize : sizeAt (putInt grown (4096+64*i+12) size) i=size := by
    rw [sizeAt,intAt_putInt,wrap32_of_range (by omega) (by omega)]
  have hbnew := blocksAt_of_size hsize
  have ho := owned_grow h.owned hi hb hg
  refine hn.step ?_ ?_
  · intro page hl hr hm
    rw [pageBit_putInt _ _ (by omega) hr,hg.marks page hr] at hm
    rcases hm with hm|⟨slot,hu,_,he⟩
    · exact .inl hm
    · right
      have hu' : slot.Used (Function.update (blocksAt memory) i
          (max ((old+4095)/4096) ((size+4095)/4096)) i) := by
        rw [Function.update_self]
        exact hu
      have hsame := (kept_putHeader 12 ho hi.1 (by omega) size hi).slots slot hu'
      rw [hmax] at hu
      exact ⟨i,slot,htable.live.mpr hi,by rw [hbnew]; exact hu,hsame.trans he⟩
  · intro page l slot _ hlive hu he _
    refine ⟨htable.live.mpr hlive,?_,((hkept l hlive).slots slot hu).trans he⟩
    by_cases hli : l=i
    · rw [hli] at hu ⊢
      rw [hbnew]
      exact hu.mono (by omega)
    · rw [blocksAt,htable.size hlive.1 hli]
      exact hu

/-- A tidy shrink leaks nothing. -/
theorem noLeak_shrunk (hn : NoLeak memory) (h : Sound memory) (hi : Live memory i) {old size : ℕ}
    (hs : sizeAt memory i=old) (hle : size≤old) (hlt : old<2147483648)
    (hsafe : ShrinkSafe memory (Live memory) (blocksAt memory) i ((size+4095)/4096))
    (ht : ShrinkTidy memory i ((size+4095)/4096)) :
    NoLeak (shrunk memory i (blocksAt memory i) ((size+4095)/4096) size) := by
  have hshrink := shrinkable_of_safe h.owned hi hsafe
  have htable := tableKept_shrunk hshrink size
  have hsize : sizeAt (shrunk memory i (blocksAt memory i) ((size+4095)/4096) size) i=size := by
    rw [shrunk,sizeAt,intAt_putInt,wrap32_of_range (by omega) (by omega)]
  have hbnew := blocksAt_of_size hsize
  refine hn.step ?_ ?_
  · intro page hl hr hm
    rw [pageBit_shrunk _ _ _ _ _ hr] at hm
    exact .inl (Bool.and_eq_true_iff.mp hm).1
  · intro page l slot hr hlive hu he hm
    rw [pageBit_shrunk _ _ _ _ _ hr] at hm
    have hfree := (Bool.and_eq_true_iff.mp hm).2
    refine ⟨htable.live.mpr hlive,?_,
      ((kept_shrunk h.owned hshrink hi size hlive).slots slot hu).trans he⟩
    by_cases hli : l=i
    · subst hli
      rw [hbnew]
      by_contra hdrop
      have hmem := ht slot hu hdrop
      rw [he,Int.toNat_natCast] at hmem
      rw [decide_eq_true hmem] at hfree
      cases hfree
    · rw [blocksAt,htable.size hlive.1 hli]
      exact hu

/-- Filling leaks nothing. -/
theorem noLeak_filled (hn : NoLeak memory) (h : Sound memory) (hi : Live memory i)
    (hf : Filled memory next i (blocksAt memory i)) : NoLeak next := by
  have hagree := hf.agree h.owned hi
  have htable := hf.table h.owned hi
  have hsize : ∀ l, l<64 → sizeAt next l=sizeAt memory l := by
    intro l hl
    refine intAt_congr (fun address hlow hhigh => hf address (fun k hk hp => ?_))
    have hrange := h.owned.range i hi (.block k) hk
    simp only [Slot.page] at hrange
    omega
  refine hn.step ?_ ?_
  · intro page hl hr hm
    rw [pageBit_congr (fun address ha => hagree address (.inl ha)) hr] at hm
    exact .inl hm
  · intro page l slot _ hlive hu he _
    refine ⟨htable.live.mpr hlive,?_,(h.owned.page_of_agree hagree hlive hu).trans he⟩
    rw [blocksAt,hsize l hlive.1]
    exact hu

/-- Rewriting a reference count leaks nothing. -/
theorem noLeak_refs (hn : NoLeak memory) (h : Sound memory) (hi : i<64) (value : ℤ) :
    NoLeak (putInt memory (4096+64*i+4) value) := by
  refine hn.step ?_ ?_
  · intro page hl hr hm
    rw [pageBit_putInt _ _ (by omega) hr] at hm
    exact .inl hm
  · intro page l slot _ hlive hu he _
    have hbit : inodeBit (putInt memory (4096+64*i+4) value) l=inodeBit memory l :=
      bitAt_congr (putInt_outside _ _ (by have := hlive.1; omega))
    have hsize : sizeAt (putInt memory (4096+64*i+4) value) l=sizeAt memory l :=
      intAt_putInt_apart _ _ (by omega)
    refine ⟨⟨hlive.1,by rw [hbit]; exact hlive.2⟩,by rw [blocksAt,hsize]; exact hu,?_⟩
    exact ((kept_putHeader 4 h.owned hi (by omega) value hlive).slots slot hu).trans he

/-- Creating an inode keeps the marks of pages. -/
theorem created_marks (mode : ℤ) (memory : Bytes) (hi : i<64) {page : ℕ} (hp : page<256) :
    pageBit (created memory i mode) page=pageBit memory page :=
  pageBit_congr (fun address ha => created_outside mode memory hi (by omega) (by omega)) hp

/-- Creating an inode keeps the other inodes and what they own. -/
theorem created_owner (mode : ℤ) (h : Sound memory) (hi : i<64) (hfree : inodeBit memory i=false)
    {l : ℕ} (hl : Live memory l) :
    l≠i ∧ Live (created memory i mode) l ∧ sizeAt (created memory i mode) l=sizeAt memory l ∧
      ∀ slot : Slot, slot.Used (blocksAt memory l) →
        slot.page (created memory i mode) l=slot.page memory l := by
  have hne : l≠i := by
    rintro rfl
    have hb := hl.2
    rw [hfree] at hb
    cases hb
  refine ⟨hne,⟨hl.1,?_⟩,created_field_other mode memory hi 12 hne (by omega),
    fun slot hu => h.owned.page_of_agree (fun address hg => ?_) hl hu⟩
  · rw [created_bit mode memory hl.1,if_neg hne]
    exact hl.2
  · refine created_outside mode memory hi ?_ ?_
    · by_contra hc
      exact h.owned.inodeBitmap_not_guarded (by omega) (by omega) hg
    · by_contra hc
      exact h.owned.header_not_guarded hi (by omega) (by omega) hg

/-- Creating an inode leaks nothing. -/
theorem noLeak_created (mode : ℤ) (hn : NoLeak memory) (h : Sound memory) (hi : i<64)
    (hfree : inodeBit memory i=false) : NoLeak (created memory i mode) := by
  refine hn.step ?_ ?_
  · intro page hl hr hm
    rw [created_marks mode memory hi hr] at hm
    exact .inl hm
  · intro page l slot _ hlive hu he _
    obtain ⟨_,hlive',hsize,hslot⟩ := created_owner mode h hi hfree hlive
    exact ⟨hlive',by rw [blocksAt,hsize]; exact hu,(hslot slot hu).trans he⟩

/-- A tidy resize leaks nothing. -/
theorem Resized.noLeak {size : ℕ} (hr : Resized memory i size next) (hn : NoLeak memory)
    (h : Sound memory) (hf : ResizeFits memory i size)
    (ht : (size : ℤ) < sizeAt memory i → ShrinkTidy memory i ((size+4095)/4096)) : NoLeak next := by
  have hupper := hf.upper
  cases hr with
  | grown old grown hs hle hg => exact noLeak_grown hn h hf.live hs hle (by omega) hg
  | shrunk old hs hlt =>
    have hsafe := hf.safe (by omega)
    rw [Int.toNat_natCast] at hsafe
    have hrange := intAt_range memory (4096+64*i+12)
    have hold : old<2147483648 := by
      have hx : sizeAt memory i<2147483648 := hrange.2
      omega
    exact noLeak_shrunk hn h hf.live hs (by omega) hold hsafe (ht (by omega))
  | same hs => exact hn

end Steps

/-! ## Entries -/

section Entries

variable {memory next : Bytes} {d t j : ℕ} {name : List UInt8}

/-- Marks after an insertion: the old ones and those of the directory's slots. -/
theorem Inserted.marks (hi : Inserted memory next t j name) (h : Sound memory)
    (ht : Live memory t) (hj : j<64) {page : ℕ} (hp : page<256) :
    pageBit next page=true ↔ pageBit memory page=true ∨
      (blocksAt memory t=0 ∧ pnumAt next t 0=page) := by
  have hslots := fun (slot : Slot) hu => hi.slot_page h ht hj ht (show slot.Used _ from hu)
  have hblocks := hi.blocks_eq h ht ht.1
  rw [if_pos rfl] at hblocks
  obtain ⟨s,grown,hs,hfit,hname,hg,rfl⟩ := hi
  have hb := blocksAt_of_size hs
  have hpage := Grown.first_page hg h.owned ht hb
  have ht64 := ht.1
  have hlow : pageBit (entered memory grown t j s name) page=pageBit grown page :=
    pageBit_congr (fun address ha => entered_outside hname (by omega) (by omega) (by omega)) hp
  have hsame : ∀ slot : Slot, slot.Used 1 →
      slot.page (entered memory grown t j s name) t=slot.page grown t := fun slot hu =>
    entered_slot h.owned ht hj hfit hb hg hname ht (by rw [Function.update_self]; exact hu)
  rw [hlow,hg.marks page hp]
  constructor
  · rintro (hm|⟨slot,hu,hn,he⟩)
    · exact .inl hm
    · right
      have hslot : slot=.block 0 ∧ (s+4095)/4096=0 := by
        cases slot with
        | block k =>
          simp only [Slot.Used] at hu hn
          exact ⟨by rw [show k=0 by omega],by omega⟩
        | indirect =>
          simp only [Slot.Used] at hu
          omega
      refine ⟨by rw [hb]; exact hslot.2,?_⟩
      have hsame0 := hsame (.block 0) Nat.one_pos
      rw [hslot.1] at he
      exact hsame0.trans he
  · rintro (hm|⟨hz,he⟩)
    · exact .inl hm
    · right
      have hsame0 := hsame (.block 0) Nat.one_pos
      refine ⟨.block 0,Nat.one_pos,?_,hsame0.symm.trans he⟩
      rw [hb] at hz
      rw [hz]
      exact Nat.lt_irrefl 0

/-- Owners before an insertion are owners after it. -/
theorem Inserted.owner (hi : Inserted memory next t j name) (h : Sound memory)
    (ht : Live memory t) (hj : j<64) {l : ℕ} (hl : Live memory l) {slot : Slot}
    (hu : slot.Used (blocksAt memory l)) :
    Live next l ∧ slot.Used (blocksAt next l) ∧ slot.page next l=slot.page memory l := by
  have hused : slot.Used (blocksAt next l) := by
    rw [hi.blocks_eq h ht hl.1]
    split
    · rename_i he
      obtain ⟨s,_,hs,hfit,_⟩ := hi
      have hb := blocksAt_of_size hs
      rw [he,hb] at hu
      exact hu.mono (by omega)
    · exact hu
  refine ⟨(hi.live_iff h ht).mpr hl,hused,?_⟩
  rcases hi.slot_page h ht hj hl hused with ⟨_,he⟩|⟨he,hz,_⟩
  · exact he
  · rw [he,hz] at hu
    cases slot with
    | block k => exact absurd hu (Nat.not_lt_zero k)
    | indirect => exact absurd hu (Nat.not_lt_zero 2)

/-- Reference counts after an insertion. -/
theorem Inserted.refs_eq (hi : Inserted memory next t j name) (h : Sound memory)
    (ht : Live memory t) {l : ℕ} (hl : l<64) :
    refsAt next l=if l=j then wrap32 (refsAt memory j+1) else refsAt memory l := by
  obtain ⟨s,grown,hs,hfit,hname,hg,rfl⟩ := hi
  have hb := blocksAt_of_size hs
  have hpage := Grown.first_page hg h.owned ht hb
  split
  · rename_i he
    have hkeep : refsAt (entered memory grown t j s name) l=
        refsAt (prepared memory grown t j s) l :=
      intAt_congr (fun address hlow hhigh => putEntry_outside _ hname _ (by omega))
    rw [hkeep,he,prepared,refsAt,intAt_putInt]
  · rename_i hne
    exact intAt_congr (fun address hlow hhigh => entered_header h.owned ht hb hg hname
      (.inr ⟨l,hl,by omega,by omega,by omega⟩) (by omega))

/-- Numbers are kept by an insertion. -/
theorem Inserted.inum_eq (hi : Inserted memory next t j name) (h : Sound memory)
    (ht : Live memory t) {l : ℕ} (hl : l<64) : inumAt next l=inumAt memory l := by
  obtain ⟨s,grown,hs,hfit,hname,hg,rfl⟩ := hi
  exact intAt_congr (fun address hlow hhigh => entered_header h.owned ht (blocksAt_of_size hs) hg
    hname (.inr ⟨l,hl,by omega,by omega,by omega⟩) (by omega))

/-- The first block of a directory keeps its place and its bytes, up to the
new entry. -/
theorem Inserted.first_block (hi : Inserted memory next t j name) (h : Sound memory)
    (ht : Live memory t) (hj : j<64) (hd : Live memory d) (hb : 0<blocksAt memory d) :
    ptrAt next d 0=ptrAt memory d 0 ∧ ∀ address : ℕ,
      ((address/4096 : ℕ) : ℤ)=ptrAt memory d 0 →
      (d=t → ((address%4096 : ℕ) : ℤ) < sizeAt memory t) → next address=memory address := by
  have hpnum : ∀ bytes, pnumAt bytes d 0=ptrAt bytes d 0 := fun bytes => by
    rw [pnumAt,if_pos (by omega)]
  have howner := Inserted.owner hi h ht hj hd (show (Slot.block 0).Used _ from hb)
  have hptr := howner.2.2
  simp only [Slot.page,hpnum] at hptr
  have hrange := h.owned.range d hd (.block 0) hb
  simp only [Slot.page,hpnum] at hrange
  refine ⟨hptr,fun address hp hlt => ?_⟩
  obtain ⟨s,grown,hs,hfit,hname,hg,rfl⟩ := hi
  have hbt := blocksAt_of_size hs
  have hkept := Grown.kept hg h.owned ht hbt hd
  have hsame : grown address=memory address := hkept.bytes 0 hb address (by rw [hpnum]; exact hp)
  have ht64 := ht.1
  rw [←hsame]
  refine entered_outside hname (by omega) (by omega) ?_
  have hpage := Grown.first_page hg h.owned ht hbt
  by_cases he : d=t
  · have hold := hkept.slots (.block 0) hb
    simp only [Slot.page,hpnum] at hold
    have hx := hlt he
    rw [he] at hold hp
    rw [hs] at hx
    omega
  · have ho := owned_grow h.owned ht hbt hg
    have hne : ptrAt grown t 0≠ptrAt memory d 0 := by
      intro hc
      have hold := hkept.slots (.block 0) hb
      have honce := ho.once t d ht hd (.block 0) (.block 0)
        (by rw [Function.update_self]; exact Nat.one_pos)
        (by rw [Function.update_of_ne he]; exact hb)
        (by
          rw [hold]
          simp only [Slot.page,pnumAt]
          rw [if_pos (by omega),if_pos (by omega)]
          exact hc)
      exact he honce.1.symm
    omega

/-- The inode number stored in a new entry. -/
theorem Inserted.new_entry (hi : Inserted memory next t j name) (h : Sound memory)
    (ht : Live memory t) (hj : j<64) {s : ℕ} (hs : sizeAt memory t=s) :
    intAt next (4096*(ptrAt next t 0).toNat+s+48)=j := by
  have hblocks := hi.blocks_eq h ht ht.1
  obtain ⟨s',grown,hs',hfit,hname,hg,rfl⟩ := hi
  have he : s'=s := by omega
  subst he
  have hb := blocksAt_of_size hs
  have hsame := entered_slot (j:=j) h.owned ht hj hfit hb hg hname ht
    (show (Slot.block 0).Used _ by rw [Function.update_self]; exact Nat.one_pos)
  simp only [Slot.page,pnumAt] at hsame
  rw [if_pos (by omega),if_pos (by omega)] at hsame
  rw [hsame,entered,putEntry,intAt_putInt,wrap32_of_range (by omega) (by omega)]

/-- An insertion leaks nothing. -/
theorem Inserted.noLeak (hi : Inserted memory next t j name) (hn : NoLeak memory)
    (h : Sound memory) (ht : Live memory t) (hj : j<64) : NoLeak next := by
  refine hn.step ?_ ?_
  · intro page hl hr hm
    rcases (Inserted.marks hi h ht hj hr).mp hm with hm|⟨_,he⟩
    · exact .inl hm
    · right
      refine ⟨t,.block 0,(hi.live_iff h ht).mpr ht,?_,he⟩
      rw [hi.blocks_eq h ht ht.1,if_pos rfl]
      exact Nat.one_pos
  · intro page l slot _ hlive hu he _
    obtain ⟨hl',hu',he'⟩ := Inserted.owner hi h ht hj hlive hu
    exact ⟨hl',hu',he'.trans he⟩

end Entries

section Removal

variable {memory : Bytes} {d j s ii : ℕ}

/-- Slots that stay in use keep their pages through a removal. -/
theorem removed_slot (h : Sound memory) (hd : Live memory d) (hb : blocksAt memory d=1) (hj : j<64)
    (hii : ii<64) (hshrink : Shrinkable memory d 1 ((s-64+4095)/4096)) {l : ℕ} (hl : Live memory l)
    {slot : Slot} (hu : slot.Used (blocksAt memory l)) :
    slot.page (removed memory d j s ii) l=slot.page memory l := by
  have hp := h.owned.range d hd (.block 0) (by rw [hb]; exact Nat.one_pos)
  rw [Slot.page,pnumAt,if_pos (by omega)] at hp
  have hq := h.number j hj
  have hagree := edited_agree (s:=s) h.owned hd (by omega) hj hq.2 hii
  have hshrink' := Shrinkable.edited (s:=s) hq.2 hii hp.1 hd.1 hshrink
  rw [←hb] at hshrink'
  have hkept := kept_shrunk (h.owned.of_agree hagree) hshrink' hd (s-64) hl
  rw [hb] at hkept
  exact (hkept.slots slot hu).trans (h.owned.page_of_agree hagree hl hu)

/-- A count that one name less uses up is at most 1. -/
theorem refs_of_dropRef (h : refsAt (dropRef memory j) j≤0) : refsAt memory j≤1 := by
  have hrange : -2147483648≤refsAt memory j ∧ refsAt memory j<2147483648 := intAt_range _ _
  rw [dropRef,refsAt,intAt_putInt] at h
  by_contra hc
  rw [wrap32_of_range (by omega) (by omega)] at h
  omega

/-- A tidy removal leaks nothing. -/
theorem noLeak_removed (hn : NoLeak memory) (h : Sound memory) (hd : Live memory d)
    (hs : sizeAt memory d=s) (h64 : 64 ≤ s) (h4096 : s≤4096) (hj : j<64) (hii : ii < s/64)
    (hentry : intAt memory (4096*(ptrAt memory d 0).toNat+64*ii+48)=j)
    (hsafe : ShrinkSafe memory (Live memory) (blocksAt memory) d ((s-64+4095)/4096))
    (htidy : ShrinkTidy memory d ((s-64+4095)/4096))
    (hlast : LastNameEmpty memory d (refsAt memory) (blocksAt memory)) :
    NoLeak (removed memory d j s ii) := by
  have hb : blocksAt memory d=1 := by
    rw [blocksAt_of_size hs]
    omega
  have hshrink := shrinkable_of_safe h.owned hd hsafe
  rw [hb] at hshrink
  have hp := h.owned.range d hd (.block 0) (by rw [hb]; exact Nat.one_pos)
  rw [Slot.page,pnumAt,if_pos (by omega)] at hp
  have hq := h.number j hj
  have hii64 : ii<64 := by omega
  have hbits : ∀ {page : ℕ}, page<256 → pageBit (removed memory d j s ii) page=
      (pageBit memory page && !decide (page∈freedPages memory d 1 ((s-64+4095)/4096))) :=
    fun hpage => pageBit_removed hq.2 hii64 hp.1 hp.2 hd.1 hpage
  have hsize := removed_size memory d j ii h4096
  have hother : ∀ l, l<64 → l≠d → sizeAt (removed memory d j s ii) l=sizeAt memory l :=
    fun l hl hne => intAt_congr (fun address hlow hhigh => removed_outside hq.2 hii64 hshrink hd.1
      hp.1 (by omega) (by omega) (by omega) (by omega))
  refine hn.step ?_ ?_
  · intro page hl hr hm
    rw [hbits hr] at hm
    exact .inl (Bool.and_eq_true_iff.mp hm).1
  · intro page l slot hr hlive hu he hm
    rw [hbits hr] at hm
    have hfree := (Bool.and_eq_true_iff.mp hm).2
    refine ⟨⟨hlive.1,?_⟩,?_,(removed_slot h hd hb hj hii64 hshrink hlive hu).trans he⟩
    · rw [removed_bit hq hii64 hd.1 hshrink hp.1 hlive.1]
      split
      · rename_i hc
        have hnat : (inumAt memory j).toNat=l := by
          rw [hc.2,Int.toNat_natCast]
        have hz := hlast ii j (by rw [hs,Int.toNat_natCast]; exact hii) hj hentry
          (refs_of_dropRef hc.1)
          (by rw [hnat]; exact hlive)
        rw [hnat] at hz
        rw [hz] at hu
        cases slot with
        | block k => exact absurd hu (Nat.not_lt_zero k)
        | indirect => exact absurd hu (Nat.not_lt_zero 2)
      · exact hlive.2
    · by_cases hld : l=d
      · subst hld
        rw [blocksAt_of_size hsize]
        by_contra hdrop
        have hmem := htidy slot hu hdrop
        rw [hb,he,Int.toNat_natCast] at hmem
        rw [decide_eq_true hmem] at hfree
        cases hfree
      · rw [blocksAt,hother l hlive.1 hld]
        exact hu

end Removal

/-! ## Transport of the conditions -/

section Transport

variable {memory next : Bytes} {d t j i : ℕ} {name : List UInt8}

/-- Freed pages and dropped slots of a directory of at most one block depend on
its pointers and size only. -/
theorem ShrinkTidy.of_pointers {m : ℕ} (h : ShrinkTidy memory d m) (hb : blocksAt memory d≤1)
    (hblocks : blocksAt next d=blocksAt memory d)
    (hp0 : 0<blocksAt memory d → ptrAt next d 0=ptrAt memory d 0)
    (hp1 : blocksAt memory d=1 → ptrAt next d 1=ptrAt memory d 1)
    (hind : iptrAt next d=iptrAt memory d) : ShrinkTidy next d m := by
  have hpnum : ∀ k, k<2 → ∀ bytes, pnumAt bytes d k=ptrAt bytes d k := fun k hk bytes => by
    rw [pnumAt,if_pos hk]
  intro slot hu hdrop
  rw [hblocks] at hu ⊢
  have hslot : slot=.block 0 ∧ blocksAt memory d=1 := by
    cases slot with
    | block k =>
      simp only [Slot.Used] at hu
      exact ⟨by rw [show k=0 by omega],by omega⟩
    | indirect =>
      simp only [Slot.Used] at hu
      omega
  have hmem := h slot hu hdrop
  have hlist : freedPages next d 1 m=freedPages memory d 1 m := by
    refine freedPages_congr (fun k hlow hk => ?_) hind
    rw [show k=1 by omega,hpnum 1 (by omega),hpnum 1 (by omega),hp1 hslot.2]
  rw [hslot.2] at hmem ⊢
  rw [hlist]
  rw [hslot.1] at hmem ⊢
  simp only [Slot.page,hpnum 0 (by omega)] at hmem ⊢
  rw [hp0 (by omega)]
  exact hmem

/-- Counting one reference down keeps the conditions of a removal. -/
theorem tidy_of_refs (h : Sound memory) (hf : DeleteFits memory d) (hi : i<64)
    (ht : ShrinkTidy memory d (((sizeAt memory d).toNat-64+4095)/4096))
    (hl : LastNameEmpty memory d
      (fun j => if j=i then wrap32 (refsAt memory j-1) else refsAt memory j) (blocksAt memory)) :
    ShrinkTidy (putInt memory (4096+64*i+4) (refsAt memory i-1)) d
        (((sizeAt memory d).toNat-64+4095)/4096) ∧
      LastNameEmpty (putInt memory (4096+64*i+4) (refsAt memory i-1)) d
        (refsAt (putInt memory (4096+64*i+4) (refsAt memory i-1)))
        (blocksAt (putInt memory (4096+64*i+4) (refsAt memory i-1))) := by
  obtain ⟨s,hs,hb⟩ := h.size_natCast hf.live
  have hroom := hf.room
  have hfield : ∀ l field, field+4≤64 → field≠4 → field%4=0 →
      intAt (putInt memory (4096+64*i+4) (refsAt memory i-1)) (4096+64*l+field)=
        intAt memory (4096+64*l+field) :=
    fun l field _ _ _ => intAt_putInt_apart _ _ (by omega)
  have hsize : ∀ l, sizeAt (putInt memory (4096+64*i+4) (refsAt memory i-1)) l=sizeAt memory l :=
    fun l => hfield l 12 (by omega) (by omega) (by omega)
  have hnum : ∀ l, inumAt (putInt memory (4096+64*i+4) (refsAt memory i-1)) l=inumAt memory l :=
    fun l => hfield l 0 (by omega) (by omega) (by omega)
  have hptr : ∀ k, k<2 →
      ptrAt (putInt memory (4096+64*i+4) (refsAt memory i-1)) d k=ptrAt memory d k :=
    fun k hk => intAt_putInt_apart _ _ (by omega)
  have hrefs : ∀ l, refsAt (putInt memory (4096+64*i+4) (refsAt memory i-1)) l=
      if l=i then wrap32 (refsAt memory l-1) else refsAt memory l := by
    intro l
    split
    · rename_i he
      rw [he,refsAt,intAt_putInt]
    · exact intAt_putInt_apart _ _ (by omega)
  refine ⟨ht.of_pointers (by omega) ?_ (fun _ => hptr 0 (by omega)) (fun _ => hptr 1 (by omega))
    (hfield d 24 (by omega) (by omega) (by omega)),?_⟩
  · rw [blocksAt,hsize,blocksAt]
  · intro ii j hii hj hentry hcount hlive
    rw [hsize,hs,Int.toNat_natCast] at hii
    have hp := h.owned.range d hf.live (.block 0) (by rw [hb]; simp only [Slot.Used]; omega)
    rw [Slot.page,pnumAt,if_pos (by omega)] at hp
    rw [hptr 0 (by omega),intAt_putInt_apart _ _ (by omega)] at hentry
    rw [hrefs] at hcount
    rw [hnum] at hlive ⊢
    rw [blocksAt,hsize,←blocksAt]
    refine hl ii j (by rw [hs,Int.toNat_natCast]; exact hii) hj hentry hcount ⟨hlive.1,?_⟩
    rw [←hlive.2]
    exact (bitAt_congr (putInt_outside _ _ (by have := hlive.1; omega))).symm

/-- The insertion of a move keeps the conditions of its removal. -/
theorem tidy_of_inserted (h : Sound memory) (hf : MoveFits memory d t name)
    (hi : Inserted memory next t j name) (hj : j<64) (h64 : 64 ≤ sizeAt memory d)
    (haligned : t=d → sizeAt memory d%64=0)
    (ht : t≠d → ShrinkTidy memory d (((sizeAt memory d).toNat-64+4095)/4096))
    (hlookup : ∃ ii : ℕ, ii<(sizeAt memory d).toNat/64 ∧
      intAt memory (4096*(ptrAt memory d 0).toNat+64*ii+48)=j)
    (hl : LastNameEmpty memory d
      (fun l => if l=j then wrap32 (refsAt memory l+1) else refsAt memory l)
      (Function.update (blocksAt memory) t 1)) :
    ShrinkTidy next d (((sizeAt next d).toNat-64+4095)/4096) ∧
      LastNameEmpty next d (refsAt next) (blocksAt next) := by
  have htlive := hf.put.live
  obtain ⟨s,hs,hb⟩ := h.size_natCast hf.live
  have hroom := hf.room
  have hone : blocksAt memory d=1 := by omega
  have hsize := hi.size_eq h htlive hf.live.1
  have hbnext : blocksAt next d=1 := by
    rw [hi.blocks_eq h htlive hf.live.1,hone]
    split <;> rfl
  obtain ⟨hfirst,hbytes⟩ := Inserted.first_block hi h htlive hj hf.live (by omega)
  have hptr := hi.pointers h htlive hf.live
  have hp := h.owned.range d hf.live (.block 0) (by rw [hone]; exact Nat.one_pos)
  rw [Slot.page,pnumAt,if_pos (by omega)] at hp
  have hold : ∀ ii l : ℕ, ii < s/64 →
      intAt next (4096*(ptrAt memory d 0).toNat+64*ii+48)=l →
      intAt memory (4096*(ptrAt memory d 0).toNat+64*ii+48)=l := by
    intro ii l hii he
    rw [←he]
    refine intAt_congr (fun address hlow hhigh => (hbytes address (by omega) (fun hdt => ?_)).symm)
    rw [←hdt,hs]
    omega
  have hempty : ∀ l : ℕ, l<64 → (∃ ii : ℕ, ii<(sizeAt memory d).toNat/64 ∧
      intAt memory (4096*(ptrAt memory d 0).toNat+64*ii+48)=l) → refsAt next l≤1 →
      Live next (inumAt next l).toNat → blocksAt next (inumAt next l).toNat=0 := by
    rintro l hl64 ⟨ii,hii,hentry⟩ hcount hlive
    rw [Inserted.refs_eq hi h htlive hl64] at hcount
    have hcount' : (if l=j then wrap32 (refsAt memory l+1) else refsAt memory l)≤1 := by
      split
      · rename_i he
        rw [if_pos he,←he] at hcount
        exact hcount
      · rename_i hne
        rw [if_neg hne] at hcount
        exact hcount
    rw [Inserted.inum_eq hi h htlive hl64] at hlive ⊢
    have hz := hl ii l hii hl64 hentry hcount' ((hi.live_iff h htlive).mp hlive)
    rw [hi.blocks_eq h htlive hlive.1,←Function.update_apply]
    exact hz
  by_cases he : t=d
  · have hput := hf.put.room
    rw [he,hs] at hput
    have hmod := haligned he
    rw [hs] at hmod
    have hnew : sizeAt next d=((s+64 : ℕ) : ℤ) := by
      rw [hsize,if_pos he.symm,he,hs]
      push_cast
      rfl
    refine ⟨?_,?_⟩
    · intro slot hu hdrop
      rw [hbnext] at hu
      rw [hnew,Int.toNat_natCast,show (s+64-64+4095)/4096=1 by omega] at hdrop
      exact absurd hu hdrop
    · intro ii l hii hl64 hentry hcount hlive
      rw [hnew,Int.toNat_natCast] at hii
      rw [hfirst] at hentry
      by_cases hlast : ii < s/64
      · exact hempty l hl64 ⟨ii,by rw [hs,Int.toNat_natCast]; exact hlast,hold ii l hlast hentry⟩
          hcount hlive
      · have hentry' := Inserted.new_entry hi h htlive hj (s:=s) (by rw [he]; exact hs)
        rw [he,hfirst,show s=64*ii by omega] at hentry'
        have hlj : l=j := Int.ofNat_inj.mp (hentry.symm.trans hentry')
        exact hempty l hl64 (hlj ▸ hlookup) hcount hlive
  · have hnew : sizeAt next d=sizeAt memory d := by
      rw [hsize,if_neg (fun hc => he hc.symm)]
    refine ⟨?_,?_⟩
    · rw [hnew]
      exact (ht he).of_pointers (by omega) (by omega) (fun _ => hfirst) (fun _ => hptr.1) hptr.2
    · intro ii l hii hl64 hentry hcount hlive
      rw [hnew,hs,Int.toNat_natCast] at hii
      rw [hfirst] at hentry
      exact hempty l hl64 ⟨ii,by rw [hs,Int.toNat_natCast]; exact hii,hold ii l hii hentry⟩
        hcount hlive

end Transport

/-! ## Runs -/

/-- A removal under the conditions of a tidy call leaks nothing. -/
theorem Removed.noLeak {memory next : Bytes} {d : ℕ} (hr : Removed memory next d)
    (hn : NoLeak memory) (h : Sound memory) (hf : DeleteFits memory d)
    (ht : ShrinkTidy memory d (((sizeAt memory d).toNat-64+4095)/4096))
    (hl : LastNameEmpty memory d (refsAt memory) (blocksAt memory)) : NoLeak next := by
  obtain ⟨s,ii,j,hs,h64,h4096,hii,hj,hentry,rfl⟩ := hr
  have hsafe := hf.safe
  rw [hs,Int.toNat_natCast] at hsafe ht
  exact noLeak_removed hn h hf.live hs h64 h4096 hj hii hentry hsafe ht hl

/-- A tidy call that returned without a refused allocation leaks nothing. -/
theorem noLeak_step {disk next : Disk} {call : Call} {result : ℤ} (hn : NoLeak disk.bytes)
    (h : Sound disk.bytes) (hc : Tidy disk call) (hr : exec call disk=.ok result next)
    (hd : next.denied=disk.denied) : NoLeak next.bytes := by
  obtain ⟨hclean,htidy⟩ := hc
  have hfile : ∀ path asked, target call=some (path,asked) →
      (∀ i : ℕ, treeLookup path disk=.ok (i : ℤ) disk → asked < sizeAt disk.bytes i →
        ShrinkTidy disk.bytes i ((asked.toNat+4095)/4096)) → NoLeak next.bytes := by
    intro path asked ht hshrink
    rcases file_effect h ht hclean hr hd with rfl|⟨i,total,mid,rfl,hlookup,hf,hresized,hfilled⟩
    · exact hn
    · obtain ⟨hs1,_,hiso⟩ := hresized.isolated h hf
      exact noLeak_filled (Resized.noLeak hresized hn h hf (hshrink i hlookup)) hs1
        (hiso.1.live.mpr hf.live) hfilled
  cases call with
  | mknod path mode =>
    rcases mknod_effect h hclean hr hd with rfl|⟨d,i,hi,hfree,_,_,hlive,hins⟩
    · exact hn
    · exact Inserted.noLeak hins (noLeak_created mode hn h hi hfree) (sound_created mode h hi hfree)
        hlive hi
  | link source dest =>
    rcases link_effect h hclean hr hd with rfl|⟨d,f,mid,hf,hlive,hins,hnext⟩
    · exact hn
    · rw [hnext]
      exact noLeak_refs (Inserted.noLeak hins hn h hlive hf) (hins.sound h hlive hf) hf _
  | unlink path =>
    rcases unlink_effect h hclean hr with rfl|⟨d,i,hi,hl,hp,hfit,hfit',hnext|hnext⟩
    · exact hn
    · rw [hnext]
      exact noLeak_refs hn h hi _
    · obtain ⟨hshrink,hlast⟩ := htidy d i hl hp
      obtain ⟨hshrink',hlast'⟩ := tidy_of_refs h hfit hi hshrink hlast
      have hsize : sizeAt (putInt disk.bytes (4096+64*i+4) (refsAt disk.bytes i-1)) d=
          sizeAt disk.bytes d := intAt_putInt_apart _ _ (by omega)
      rw [←hsize] at hshrink'
      exact Removed.noLeak hnext (noLeak_refs hn h hi _) (sound_refs h hi _) hfit' hshrink' hlast'
  | rename path dest =>
    rcases rename_effect h hclean hr hd with
      rfl|⟨d,t,f,mid,hf,hl,hlookup,hl',hfit,hins,hdel,hnext|hnext⟩
    · exact hn
    · rw [hnext]
      exact Inserted.noLeak hins hn h hfit.put.live hf
    · obtain ⟨haligned,hshrink,hlast⟩ := htidy d t f hl hlookup hl'
      obtain ⟨hshrink',hlast'⟩ := tidy_of_inserted h hfit hins hf
        (size_of_lookup hfit.live.1 hlookup (by omega)) haligned hshrink
        (entry_of_lookup h hfit.live hfit.room hlookup) hlast
      exact Removed.noLeak hnext (Inserted.noLeak hins hn h hfit.put.live hf)
        (hins.sound h hfit.put.live hf) hdel hshrink' hlast'
  | write path buf size offset => exact hfile _ _ rfl htidy
  | truncate path size => exact hfile _ _ rfl htidy

/-- A fresh image has no marked data page. -/
theorem noLeak_fresh : NoLeak fresh.bytes := by
  have hclear : ∀ page<256, 2≤page → pageBit fresh.bytes page=false := by decide +kernel
  intro page hl hr hm
  rw [hclear page hr hl] at hm
  cases hm

/-- Every state of a tidy run is sound and leak-free. -/
theorem noLeak_of_reachable {disk : Disk} (h : Reachable Tidy disk) :
    Sound disk.bytes ∧ NoLeak disk.bytes := by
  induction h with
  | refl => exact ⟨sound_fresh,noLeak_fresh⟩
  | tail _ hstep ih =>
    obtain ⟨call,result,hc,hr,hd⟩ := hstep
    exact ⟨sound_step ih.1 hc.1 hr hd,noLeak_step ih.2 ih.1 hc hr hd⟩

/-! ## The life of one file -/

/-- A file is created in a directory, written, and loses its last name, each
by a tidy call. Tidiness of the removal leaves only empty files: `free_inode`
returns no page, so the pages of a file that has any at its removal leak. -/
structure Lifecycle (path : List UInt8) (d i : ℕ) (first made written gone : Disk) : Prop where
  /-- The file is created. -/
  create : ∃ mode result, Tidy first (.mknod path mode) ∧
    exec (.mknod path mode) first=.ok result made ∧ made.denied=first.denied
  /-- It is written to; since it is empty when it is removed, no byte. -/
  write : ∃ buf size offset result, Tidy made (.write path buf size offset) ∧
    exec (.write path buf size offset) made=.ok result written ∧ written.denied=made.denied
  /-- The name is removed. -/
  unlink : ∃ result, Tidy written (.unlink path) ∧ exec (.unlink path) written=.ok result gone ∧
    gone.denied=written.denied
  /-- The parent directory. -/
  parent : treeLookup (dirname path) first=.ok (d : ℤ) first ∧
    treeLookup (dirname path) written=.ok (d : ℤ) written
  /-- The new inode. -/
  fresh : ¬Live first.bytes i ∧ Live made.bytes i
  /-- The write goes to the new inode. -/
  file : treeLookup path made=.ok (i : ℤ) made
  /-- The removed name was its last. -/
  last : ¬Live gone.bytes i

/-- Growing by no block keeps the marks. -/
theorem Grown.marks_same {memory grown : Bytes} {i n : ℕ} (hg : Grown memory grown i n n)
    {page : ℕ} (hp : page<256) : pageBit grown page=pageBit memory page := by
  rw [Bool.eq_iff_iff,hg.marks page hp,or_iff_left]
  rintro ⟨slot,hu,hn,_⟩
  exact hn hu

/-- A removal that frees an inode: the inode had no block, and apart from the
pages of an emptied directory every owned page stays marked. -/
theorem Removed.frees {memory next : Bytes} {d i : ℕ} (hr : Removed memory next d)
    (h : Sound memory) (hf : DeleteFits memory d)
    (hlast : LastNameEmpty memory d (refsAt memory) (blocksAt memory)) (hi : Live memory i)
    (hgone : ¬Live next i) :
    blocksAt memory i=0 ∧
      (∀ page, page<256 → pageBit next page=true → pageBit memory page=true) ∧
      ∀ page : ℕ, page<256 → pageBit memory page=true →
        (∃ (l : ℕ) (slot : Slot), Live memory l ∧ slot.Used (blocksAt memory l) ∧
          slot.page memory l=page ∧ (l=d → 64 < sizeAt memory d)) → pageBit next page=true := by
  obtain ⟨s,ii,j,hs,h64,h4096,hii,hj,hentry,rfl⟩ := hr
  have hb : blocksAt memory d=1 := by
    rw [blocksAt_of_size hs]
    omega
  have hsafe := hf.safe
  rw [hs,Int.toNat_natCast] at hsafe
  have hshrink := shrinkable_of_safe h.owned hf.live hsafe
  rw [hb] at hshrink
  have hp := h.owned.range d hf.live (.block 0) (by rw [hb]; exact Nat.one_pos)
  rw [Slot.page,pnumAt,if_pos (by omega)] at hp
  have hq := h.number j hj
  have hbits : ∀ {page : ℕ}, page<256 → pageBit (removed memory d j s ii) page=
      (pageBit memory page && !decide (page∈freedPages memory d 1 ((s-64+4095)/4096))) :=
    fun hpage => pageBit_removed hq.2 (by omega) hp.1 hp.2 hf.live.1 hpage
  have hfreed : refsAt (dropRef memory j) j≤0 ∧ inumAt memory j=i := by
    by_contra hcond
    refine hgone ⟨hi.1,?_⟩
    rw [removed_bit hq (by omega) hf.live.1 hshrink hp.1 hi.1,if_neg hcond]
    exact hi.2
  have hnat : (inumAt memory j).toNat=i := by
    rw [hfreed.2,Int.toNat_natCast]
  refine ⟨?_,?_,?_⟩
  · have hz := hlast ii j (by rw [hs,Int.toNat_natCast]; exact hii) hj hentry
      (refs_of_dropRef hfreed.1) (by rw [hnat]; exact hi)
    rw [hnat] at hz
    exact hz
  · intro page hpage hm
    rw [hbits hpage] at hm
    exact (Bool.and_eq_true_iff.mp hm).1
  · rintro page hpage hm ⟨l,slot,hl,hu,he,hbig⟩
    rw [hbits hpage,hm,Bool.true_and]
    have hnot : page∉freedPages memory d 1 ((s-64+4095)/4096) := by
      intro hmem
      rw [←hb] at hmem
      have hharmless := harmless_of_freed h.owned hf.live (by omega) hsafe page hmem
      refine hharmless.2.2.2 l hl slot ?_ he
      by_cases hld : l=d
      · rw [hld,Function.update_self]
        rw [hld,hb] at hu
        have hx := hbig hld
        exact hu.mono (by omega)
      · rw [Function.update_of_ne hld]
        exact hu
    rw [decide_eq_false hnot]
    rfl

section Lifecycle

variable {path : List UInt8} {d i : ℕ} {first made written gone : Disk}

/-- After creation: the new inode is empty, and the other inodes, their sizes
and their slots are as before, but for the parent. -/
theorem Lifecycle.created (hl : Lifecycle path d i first made written gone)
    (h : Sound first.bytes) :
    Live first.bytes d ∧ d≠i ∧ sizeAt made.bytes i=0 ∧
      sizeAt made.bytes d=sizeAt first.bytes d+64 ∧
      (∀ page, page<256 → (pageBit made.bytes page=true ↔ pageBit first.bytes page=true ∨
        (blocksAt first.bytes d=0 ∧ ptrAt made.bytes d 0=page))) ∧
      ∀ l, Live first.bytes l → l≠i ∧ Live made.bytes l ∧
        ∀ slot : Slot, slot.Used (blocksAt first.bytes l) →
          slot.Used (blocksAt made.bytes l) ∧ slot.page made.bytes l=slot.page first.bytes l := by
  obtain ⟨mode,result,hc,hr,hd⟩ := hl.create
  rcases mknod_effect h hc.1 hr hd with he|⟨d',i',hi',hfree,hparent,hlive,hlive',hins⟩
  · exact absurd (he ▸ hl.fresh.2) hl.fresh.1
  have hdd : d'=d := by
    have hx := hparent.symm.trans hl.parent.1
    exact Int.ofNat_inj.mp (EStateM.Result.ok.inj hx).1
  subst hdd
  have hs := sound_created mode h hi' hfree
  have hii : i=i' := by
    by_contra hne
    have hlive1 := (hins.live_iff hs hlive').mp hl.fresh.2
    have hb := hlive1.2
    rw [created_bit mode first.bytes hlive1.1,if_neg hne] at hb
    exact hl.fresh.1 ⟨hlive1.1,hb⟩
  subst hii
  obtain ⟨hne,_,hsized,_⟩ := created_owner mode h hi' hfree hlive
  have hsized' : sizeAt (NufsSound.created first.bytes i mode) d'=sizeAt first.bytes d' := hsized
  have hpnum : ∀ bytes, pnumAt bytes d' 0=ptrAt bytes d' 0 := fun bytes => by
    rw [pnumAt,if_pos (by omega)]
  refine ⟨hlive,hne,?_,?_,?_,?_⟩
  · rw [hins.size_eq hs hlive' hi',if_neg (fun hc => hne hc.symm)]
    exact (created_fields mode first.bytes hi').2.2.2
  · rw [hins.size_eq hs hlive' hlive.1,if_pos rfl,hsized']
  · intro page hp
    rw [Inserted.marks hins hs hlive' hi' hp,created_marks mode first.bytes hi' hp,hpnum,
      blocksAt,hsized',blocksAt]
  · intro l hlivel
    obtain ⟨hnel,hlivel',hsizel,hslotl⟩ := created_owner mode h hi' hfree hlivel
    refine ⟨hnel,(hins.live_iff hs hlive').mpr hlivel',fun slot hu => ?_⟩
    obtain ⟨_,hu',he'⟩ := Inserted.owner hins hs hlive' hi' hlivel'
      (show slot.Used (blocksAt (NufsSound.created first.bytes i mode) l) by
        rw [blocksAt,hsizel]
        exact hu)
    exact ⟨hu',he'.trans (hslotl slot hu)⟩

/-- The removed inode had no block, so the write had nothing to write. -/
theorem Lifecycle.written_empty (hl : Lifecycle path d i first made written gone)
    (h : Sound made.bytes) (hs : sizeAt made.bytes i=0) (hz : blocksAt written.bytes i=0) :
    ∀ page, page<256 → pageBit written.bytes page=pageBit made.bytes page := by
  obtain ⟨buf,size,offset,result,hc,hr,hd⟩ := hl.write
  intro page hp
  rcases file_effect h rfl hc.1 hr hd with he|⟨i',total,mid,_,hlookup,hf,hresized,hfilled⟩
  · rw [he]
  · have hii : i'=i := by
      have hx := hlookup.symm.trans hl.file
      exact Int.ofNat_inj.mp (EStateM.Result.ok.inj hx).1
    subst hii
    obtain ⟨hs1,hsize,hiso⟩ := hresized.isolated h hf
    have hlive := hiso.1.live.mpr hf.live
    have hsame : pageBit written.bytes page=pageBit mid page :=
      pageBit_congr (fun address ha => hfilled.agree hs1.owned hlive address (.inl ha)) hp
    have hkeep : sizeAt written.bytes i'=total := by
      rw [←hsize]
      refine intAt_congr (fun address hlow hhigh => hfilled address (fun k hk he => ?_))
      have hrange := hs1.owned.range i' hlive (.block k) hk
      have hi64 := hf.live.1
      simp only [Slot.page] at hrange
      omega
    have htotal : total=0 := by
      rw [blocksAt_of_size hkeep] at hz
      omega
    rw [hsame]
    cases hresized with
    | grown old grown hs' hle hg =>
      have hold : old=0 := by omega
      rw [hold,htotal] at hg
      rw [pageBit_putInt _ _ (by omega) hp]
      exact Grown.marks_same hg hp
    | shrunk old hs' hlt => omega
    | same hs' => rfl

/-- The marks of data pages come back to what they were, but for a page newly
taken by the parent directory. -/
theorem Lifecycle.marks (hl : Lifecycle path d i first made written gone) (h : Sound first.bytes)
    (hn : NoLeak first.bytes) {page : ℕ} (h2 : 2≤page) (h256 : page<256) :
    (pageBit first.bytes page=true → pageBit gone.bytes page=true) ∧
      (pageBit gone.bytes page=true → pageBit first.bytes page=true ∨
        (blocksAt first.bytes d=0 ∧ ptrAt made.bytes d 0=page)) := by
  obtain ⟨hlive,hne,hsi,hsd,hmarks,howner⟩ := hl.created h
  obtain ⟨mode,_,hc1,hr1,hd1⟩ := hl.create
  obtain ⟨buf,size,offset,_,hc2,hr2,hd2⟩ := hl.write
  obtain ⟨_,hc3,hr3,hd3⟩ := hl.unlink
  have hs1 := sound_step h hc1.1 hr1 hd1
  have hs2 := sound_step hs1 hc2.1 hr2 hd2
  have hiso := (file_isolated hs1 rfl hc2.1 hr2 hd2 hl.file).2
  have hlive2 : Live written.bytes i := hiso.1.live.mpr hl.fresh.2
  rcases unlink_effect hs2 hc3.1 hr3 with he|⟨d',i',hi',hparent,hp,hfit,hfit',hgone⟩
  · exact absurd (he ▸ hlive2) hl.last
  have hdd : d'=d := by
    have hx := hparent.symm.trans hl.parent.2
    exact Int.ofNat_inj.mp (EStateM.Result.ok.inj hx).1
  subst hdd
  have hlast := (tidy_of_refs hs2 hfit hi' (hc3.2 d' i' hparent hp).1 (hc3.2 d' i' hparent hp).2).2
  have hkept := fun l => kept_putHeader 4 (j:=l) hs2.owned hi' (by omega)
    (refsAt written.bytes i'-1)
  have hsame := fun l => size_putRefs written.bytes i' l (refsAt written.bytes i'-1)
  have hlivec := fun l => live_putRefs written.bytes i' l (refsAt written.bytes i'-1)
  have hmarksc := fun page (hp : page<256) =>
    pageBit_putInt written.bytes (refsAt written.bytes i'-1) (show 32≤4096+64*i'+4 by omega) hp
  have hsc := sound_refs hs2 hi' (refsAt written.bytes i'-1)
  generalize putInt written.bytes (4096+64*i'+4) (refsAt written.bytes i'-1)=counted at *
  rcases hgone with hgone|hgone
  · refine absurd ?_ hl.last
    rw [hgone]
    exact (hlivec i).mpr hlive2
  obtain ⟨hz,hfewer,hstay⟩ := Removed.frees hgone hsc hfit' hlast ((hlivec i).mpr hlive2) hl.last
  have hzero : blocksAt written.bytes i=0 := by
    rw [blocksAt,←hsame,←blocksAt]
    exact hz
  have hmarks2 := hl.written_empty hs1 hsi hzero
  refine ⟨fun hm => ?_,fun hm => ?_⟩
  · obtain ⟨l,slot,hl0,hu0,he0⟩ := hn page h2 h256 hm
    obtain ⟨hnel,hl1,hslot1⟩ := howner l hl0
    obtain ⟨hu1,he1⟩ := hslot1 slot hu0
    have hl2 : Live written.bytes l := hiso.1.live.mpr hl1
    have hb2 : blocksAt written.bytes l=blocksAt made.bytes l := by
      rw [blocksAt,hiso.1.size hl1.1 hnel,blocksAt]
    have he2 := (hiso.2 l hl1 hnel).slots slot hu1
    have hu2 : slot.Used (blocksAt written.bytes l) := by
      rw [hb2]
      exact hu1
    have he3 := (hkept l hl2).slots slot hu2
    refine hstay page h256 ?_ ⟨l,slot,(hlivec l).mpr hl2,by rw [blocksAt,hsame]; exact hu2,
      he3.trans (he2.trans (he1.trans he0)),fun hld => ?_⟩
    · rw [hmarksc page h256,hmarks2 page h256,hmarks page h256]
      exact .inl hm
    · rw [hsame,hiso.1.size hlive.1 hne,hsd]
      have hpos : 0 < sizeAt first.bytes d' := by
        by_contra hc
        have hsize := h.size d' hlive
        rw [hld,blocksAt_zero (by omega)] at hu0
        cases slot with
        | block k => exact absurd hu0 (Nat.not_lt_zero k)
        | indirect => exact absurd hu0 (Nat.not_lt_zero 2)
      omega
  · have hm' := hfewer page h256 hm
    rw [hmarksc page h256,hmarks2 page h256] at hm'
    exact (hmarks page h256).mp hm'

end Lifecycle

/-- In every state of a tidy run each marked data page has an owner, and
creating a file, writing to it and removing its last name by tidy calls, which
leave it empty at its removal, brings the marks of the data pages back, but for
a page newly taken by the parent. -/
theorem tidy_run_no_leak {disk : Disk} (h : Reachable Tidy disk) :
    NoLeak disk.bytes ∧
      ∀ (path : List UInt8) (d i : ℕ) (made written gone : Disk),
        Lifecycle path d i disk made written gone → ∀ page : ℕ, 2≤page → page<256 →
          (pageBit disk.bytes page=true → pageBit gone.bytes page=true) ∧
          (pageBit gone.bytes page=true → pageBit disk.bytes page=true ∨
            (blocksAt disk.bytes d=0 ∧ ptrAt made.bytes d 0=page)) := by
  obtain ⟨hs,hn⟩ := noLeak_of_reachable h
  exact ⟨hn,fun path d i made written gone hl page h2 h256 => hl.marks hs hn h2 h256⟩

/-- Creating the file `/b`. -/
def createB : Call := .mknod (render [nameB]) 33188

/-- Writing no byte to `/a`. -/
def writeNothing : Call := .write (render [nameA]) (fun _ => 0) 0 0

/-- Removing `/a`. -/
def unlinkA : Call := .unlink (render [nameA])

/-- The image with the file `/b`, inode 1. -/
def withB : Disk := after (exec createB) fresh

/-- The image in which `/a`, inode 2, is created beside it. -/
def besideB : Disk := after (exec createA) withB

/-- The image after the write. -/
def stillEmpty : Disk := after (exec writeNothing) besideB

/-- The image after the removal. -/
def removedA : Disk := after (exec unlinkA) stillEmpty

/-- A lookup that returns one inode returns no other. -/
theorem lookup_unique {path : List UInt8} {disk : Disk} {i d : ℕ}
    (h : treeLookup path disk=.ok (i : ℤ) disk) (hl : treeLookup path disk=.ok (d : ℤ) disk) :
    d=i := Int.ofNat_inj.mp (EStateM.Result.ok.inj (hl.symm.trans h)).1

/-- A creation in the root of an image is tidy when the root has room. -/
theorem tidy_create {disk : Disk} {name : Component} {mode : ℤ}
    (hroot : treeLookup (dirname (render [name])) disk=.ok (0 : ℕ) disk)
    (hf : PutFits disk.bytes 0 (basename (render [name]))) :
    Tidy disk (.mknod (render [name]) mode) := by
  refine ⟨fun d found _ hl _ => ?_,trivial⟩
  rw [lookup_unique hroot hl]
  exact hf

/-- What the fresh image and the one with `/b` hold, and what calls and lookups
return there. -/
theorem evaluated_withB :
    (passes (treeLookup (dirname (render [nameB]))) fresh
        (fun result _ => decide (result=((0 : ℕ) : ℤ)))=true ∧
      inodeBit fresh.bytes 0=true ∧ sizeAt fresh.bytes 0+64≤4096 ∧
      passes (exec createB) fresh (fun _ next => decide (next.denied=fresh.denied))=true) ∧
    passes (treeLookup (dirname (render [nameA]))) withB
      (fun result _ => decide (result=((0 : ℕ) : ℤ)))=true ∧
    inodeBit withB.bytes 0=true ∧ inodeBit withB.bytes 2=false ∧ sizeAt withB.bytes 0+64≤4096 ∧
    passes (exec createA) withB (fun _ next => decide (next.denied=withB.denied))=true := by
  decide +kernel

/-- The same of the image in which `/a` is created. -/
theorem evaluated_besideB :
    passes (treeLookup (render [nameA])) besideB
      (fun result _ => decide (result=((2 : ℕ) : ℤ)))=true ∧
    inodeBit besideB.bytes 2=true ∧ sizeAt besideB.bytes 2=0 ∧
    passes (exec writeNothing) besideB (fun _ next => decide (next.denied=besideB.denied))=true := by
  decide +kernel

/-- The same of the image after the write, and what the removal leaves. -/
theorem evaluated_stillEmpty :
    (passes (treeLookup (dirname (render [nameA]))) stillEmpty
        (fun result _ => decide (result=((0 : ℕ) : ℤ)))=true ∧
      passes (exec unlinkA) stillEmpty
        (fun _ next => decide (next.denied=stillEmpty.denied))=true ∧
      inodeBit removedA.bytes 2=false) ∧
    (inodeBit stillEmpty.bytes 0=true ∧ sizeAt stillEmpty.bytes 0=128 ∧
      blocksAt stillEmpty.bytes 0=1 ∧ iptrAt stillEmpty.bytes 0=0) ∧
    (intAt stillEmpty.bytes (4096*(ptrAt stillEmpty.bytes 0 0).toNat+64*0+48)=1 ∧
      blocksAt stillEmpty.bytes (inumAt stillEmpty.bytes 1).toNat=0) ∧
    intAt stillEmpty.bytes (4096*(ptrAt stillEmpty.bytes 0 0).toNat+64*1+48)=2 ∧
    blocksAt stillEmpty.bytes (inumAt stillEmpty.bytes 2).toNat=0 := by
  decide +kernel

/-- The image with `/b` is reached by a tidy call. -/
theorem reachable_withB : Reachable Tidy withB := by
  obtain ⟨⟨hroot,hlive,hroom,hpass⟩,-⟩ := evaluated_withB
  exact NufsStorage.Reachable.call .refl (tidy_create ((treeLookup_readOnly _).returns hroot)
    ⟨⟨by decide,hlive⟩,hroom,by decide⟩) hpass

/-- The file `/a` is inode 2 in the root. -/
theorem lookup_besideB : treeLookup (render [nameA]) besideB=.ok (2 : ℕ) besideB :=
  (treeLookup_readOnly _).returns evaluated_besideB.1

/-- Its parent is the root. -/
theorem lookup_root : treeLookup (dirname (render [nameA])) withB=.ok (0 : ℕ) withB ∧
    treeLookup (dirname (render [nameA])) stillEmpty=.ok (0 : ℕ) stillEmpty :=
  ⟨(treeLookup_readOnly _).returns evaluated_withB.2.1,
    (treeLookup_readOnly _).returns evaluated_stillEmpty.1.1⟩

/-- The creation beside `/b` is tidy. -/
theorem tidy_createA : Tidy withB createA := by
  obtain ⟨-,-,hlive,-,hroom,-⟩ := evaluated_withB
  exact tidy_create lookup_root.1 ⟨⟨by decide,hlive⟩,hroom,by decide⟩

/-- So is a write that leaves the new file empty. -/
theorem tidy_writeNothing : Tidy besideB writeNothing := by
  obtain ⟨-,hlive,hempty,-⟩ := evaluated_besideB
  refine ⟨fun i hl => ?_,fun i hl hlt => ?_⟩
  · rw [lookup_unique lookup_besideB hl]
    refine ⟨⟨by decide,hlive⟩,by decide,by decide,fun hlt => ?_⟩
    rw [hempty] at hlt
    exact absurd hlt (by decide)
  · rw [lookup_unique lookup_besideB hl,hempty] at hlt
    exact absurd hlt (by decide)

/-- The image after the write is reached by tidy calls. -/
theorem reachable_stillEmpty : Reachable Tidy stillEmpty := by
  obtain ⟨-,-,-,-,-,hcreate⟩ := evaluated_withB
  obtain ⟨-,-,-,hwrite⟩ := evaluated_besideB
  exact (reachable_withB.call tidy_createA hcreate).call tidy_writeNothing hwrite

/-- Page 0 may be released beside the pages of a sound image. -/
theorem harmless_zero {memory : Bytes} (h : Sound memory) {blocks : ℕ → ℕ}
    (hle : ∀ j, blocks j≤blocksAt memory j) : Harmless memory (Live memory) blocks 0 := by
  refine ⟨by decide,by decide,by decide,fun j hj slot hu he => ?_⟩
  have hrange := h.owned.range j hj slot (hu.mono (hle j))
  omega

/-- The removal is tidy: the root keeps its block, and the files that it names
have none. -/
theorem tidy_unlinkA : Tidy stillEmpty unlinkA := by
  obtain ⟨-,⟨hlive,hsize,hblocks,hiptr⟩,⟨hfirst,hnone⟩,hsecond,hnone'⟩ := evaluated_stillEmpty
  refine ⟨fun d inum _ hl _ => ?_,fun d i hl _ => ?_⟩
  · rw [lookup_unique lookup_root.2 hl]
    refine ⟨⟨by decide,hlive⟩,by rw [hsize]; decide,?_⟩
    rw [hsize,ShrinkSafe,hblocks]
    refine ⟨fun hlt => absurd hlt (by decide),fun _ _ => ?_⟩
    rw [hiptr]
    refine harmless_zero (noLeak_of_reachable reachable_stillEmpty).1 (fun j => ?_)
    by_cases hzero : j=0
    · rw [hzero,Function.update_self,hblocks]
      decide
    · rw [Function.update_of_ne hzero]
  · rw [lookup_unique lookup_root.2 hl]
    refine ⟨fun slot hu hn => ?_,fun ii j hii hj hentry _ _ => ?_⟩
    · rw [hblocks] at hu
      rw [hsize] at hn
      exact absurd hu hn
    · rw [hsize] at hii
      have hcases : ii=0 ∨ ii=1 := by
        change ii<2 at hii
        omega
      rcases hcases with rfl|rfl
      · rw [hfirst] at hentry
        obtain rfl : j=1 := by omega
        exact hnone
      · rw [hsecond] at hentry
        obtain rfl : j=2 := by omega
        exact hnone'

/-- The life of `/a` beside `/b`. -/
theorem lifecycle_a : Lifecycle (render [nameA]) 0 2 withB besideB stillEmpty removedA := by
  obtain ⟨-,-,-,hfree,-,hcreate⟩ := evaluated_withB
  obtain ⟨-,hlive,-,hwrite⟩ := evaluated_besideB
  obtain ⟨⟨-,hunlink,hgone⟩,-⟩ := evaluated_stillEmpty
  obtain ⟨result,hr,hd⟩ := returned_of_passes hcreate
  obtain ⟨result',hr',hd'⟩ := returned_of_passes hwrite
  obtain ⟨result'',hr'',hd''⟩ := returned_of_passes hunlink
  exact {
    create := ⟨_,result,tidy_createA,hr,of_decide_eq_true hd⟩
    write := ⟨_,_,_,result',tidy_writeNothing,hr',of_decide_eq_true hd'⟩
    unlink := ⟨result'',tidy_unlinkA,hr'',of_decide_eq_true hd''⟩
    parent := lookup_root
    fresh := ⟨fun h => absurd (hfree.symm.trans h.2) Bool.noConfusion,by decide,hlive⟩
    file := lookup_besideB
    last := fun h => absurd (hgone.symm.trans h.2) Bool.noConfusion}

/-- The file `/a` comes and goes beside `/b`: the marks are as before, and every
marked page has an owner. -/
theorem marks_back_after_a : NoLeak withB.bytes ∧ ∀ page : ℕ, 2≤page → page<256 →
    (pageBit withB.bytes page=true → pageBit removedA.bytes page=true) ∧
      (pageBit removedA.bytes page=true → pageBit withB.bytes page=true ∨
        (blocksAt withB.bytes 0=0 ∧ ptrAt besideB.bytes 0 0=page)) := by
  obtain ⟨hn,hlife⟩ := tidy_run_no_leak reachable_withB
  exact ⟨hn,hlife _ _ _ _ _ _ lifecycle_a⟩

/-- Without a condition on the calls pages leak: creating and removing `/a`
leaves the root empty and its page, number 2, marked. -/
theorem create_unlink_leaks : ¬∀ disk, Reachable (fun _ _ => True) disk → NoLeak disk.bytes := by
  intro h
  have hn := h (execAll [createA,.unlink (render [nameA])] fresh)
    (reachable_of_calls .refl (by decide +kernel))
  obtain ⟨i,slot,hi,hu,_⟩ := hn 2 (by decide) (by decide) (by decide +kernel)
  have hempty : ∀ i<64, inodeBit (execAll [createA,.unlink (render [nameA])] fresh).bytes i=true →
      sizeAt (execAll [createA,.unlink (render [nameA])] fresh).bytes i=0 := by decide +kernel
  rw [blocksAt_zero (hempty i hi.1 hi.2)] at hu
  cases slot with
  | block k => exact absurd hu (Nat.not_lt_zero k)
  | indirect => exact absurd hu (Nat.not_lt_zero 2)

end ComputerSystems.NufsLeak
