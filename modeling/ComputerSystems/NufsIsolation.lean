import ComputerSystems.NufsSound

/-!
# Page ownership and file isolation along runs

`shrink_inode` frees block `n`, one past the last, where it should free block
`m`, the first one dropped, and it frees the indirect pointer whenever at most
two blocks remain, used or not. Stale pointers left in those places take pages
away from their owners. The condition `Clean` on a call says that this does
not happen, that directories stay within their first block, and that lookups
lead to live inodes; along every run of clean calls the image stays sound and
files stay isolated.
-/

namespace ComputerSystems.NufsIsolation

open StateProgram ByteMemory NufsImage NufsInode NufsPath NufsDirectory NufsStorage NufsCalls
  NufsOwnership NufsResize NufsFrame NufsEntry NufsSound

/-! ## Conditions on a call -/

/-- The new entry lies within the first block of a live directory. -/
structure PutFits (memory : Bytes) (d : ℕ) (name : List UInt8) : Prop where
  /-- The directory is live. -/
  live : Live memory d
  /-- The entry ends in the first block. -/
  room : sizeAt memory d+64≤4096
  /-- The name and its NUL fit the entry. -/
  short : name.length<64

/-- The directory is live, its entries lie in its first block, and freeing
pages on the way to a smaller size takes no page in use. -/
structure DeleteFits (memory : Bytes) (d : ℕ) : Prop where
  /-- The directory is live. -/
  live : Live memory d
  /-- The entries lie in the first block. -/
  room : sizeAt memory d≤4096
  /-- Shrinking by one entry is safe. -/
  safe : ShrinkSafe memory (Live memory) (blocksAt memory) d
    (((sizeAt memory d).toNat-64+4095)/4096)

/-- A move between directories: one insertion, then one removal that sees the
page which the insertion may have taken. -/
structure MoveFits (memory : Bytes) (d t : ℕ) (name : List UInt8) : Prop where
  /-- The insertion fits. -/
  put : PutFits memory t name
  /-- The source directory is live. -/
  live : Live memory d
  /-- Its entries lie in the first block. -/
  room : sizeAt memory d≤4096
  /-- Within one directory the size comes back to what it was. -/
  within : t=d → ShrinkSafe memory (Live memory) (blocksAt memory) d 1
  /-- Between two directories the source shrinks by one entry. -/
  across : t≠d → ShrinkSafe memory (Live memory) (blocksAt memory) d
    (((sizeAt memory d).toNat-64+4095)/4096)
  /-- The page an empty target takes is not one that the removal frees. -/
  fresh : t≠d → blocksAt memory t=0 →
    ¬NextPage memory (ptrAt memory d 1) ∧ ¬NextPage memory (iptrAt memory d)

/-- The inode is live, the new size is an `int` that is not negative, and
shrinking to it is safe. -/
structure ResizeFits (memory : Bytes) (i : ℕ) (size : ℤ) : Prop where
  /-- The inode is live. -/
  live : Live memory i
  /-- Sizes are not negative. -/
  lower : 0 ≤ size
  /-- Sizes are below 2^31. -/
  upper : size<2147483648
  /-- A smaller size is reached safely. -/
  safe : size < sizeAt memory i → ShrinkSafe memory (Live memory) (blocksAt memory) i
    ((size.toNat+4095)/4096)

/-- A call that frees nothing in use, stated on the image before it. Each
requirement applies only when the lookups of the call lead to it. -/
def Clean (disk : Disk) : Call → Prop
  | .mknod path _ => ∀ d : ℕ, ∀ found≤0, treeLookup (dirname path) disk=.ok (d : ℤ) disk →
      directoryLookup (nodeOffset d) (basename path) disk=.ok found disk →
      PutFits disk.bytes d (basename path)
  | .link _ dest => ∀ d : ℕ, ∀ found<0, treeLookup (dirname dest) disk=.ok (d : ℤ) disk →
      directoryLookup (nodeOffset d) (basename dest) disk=.ok found disk →
      PutFits disk.bytes d (basename dest)
  | .unlink path => ∀ d : ℕ, ∀ inum≥0, treeLookup (dirname path) disk=.ok (d : ℤ) disk →
      directoryLookup (nodeOffset d) (basename path) disk=.ok inum disk → DeleteFits disk.bytes d
  | .rename path dest => ∀ d t : ℕ, ∀ inum≥0, treeLookup (dirname path) disk=.ok (d : ℤ) disk →
      directoryLookup (nodeOffset d) (basename path) disk=.ok inum disk →
      treeLookup (dirname dest) disk=.ok (t : ℤ) disk → MoveFits disk.bytes d t (basename dest)
  | .write path _ size offset => ∀ i : ℕ, treeLookup path disk=.ok (i : ℤ) disk →
      ResizeFits disk.bytes i (offset.toInt+size.toNat)
  | .truncate path size => ∀ i : ℕ, treeLookup path disk=.ok (i : ℤ) disk →
      ResizeFits disk.bytes i size.toInt

/-! ## Effects of the building blocks -/

/-- What an insertion did. -/
def Inserted (memory next : Bytes) (d j : ℕ) (name : List UInt8) : Prop :=
  ∃ (s : ℕ) (grown : Bytes), sizeAt memory d=s ∧ s+64≤4096 ∧ name.length<64 ∧
    Grown memory grown d ((s+4095)/4096) 1 ∧ next=entered memory grown d j s name

/-- What a removal did. -/
def Removed (memory next : Bytes) (d : ℕ) : Prop :=
  ∃ s ii j : ℕ, sizeAt memory d=s ∧ 64 ≤ s ∧ s≤4096 ∧ ii < s/64 ∧ j<64 ∧
    intAt memory (4096*(ptrAt memory d 0).toNat+64*ii+48)=j ∧ next=removed memory d j s ii

/-- A returned insertion without refused allocation. -/
theorem inserted_of_returned (disk : Disk) {next : Disk} {d j : ℕ} {name : List UInt8}
    {result : ℤ}
    (h : Sound disk.bytes) (hf : PutFits disk.bytes d name) (hj : j<64)
    (hr : directoryPut (nodeOffset d) name j disk=.ok result next)
    (hd : next.denied=disk.denied) : Inserted disk.bytes next.bytes d j name := by
  obtain ⟨s,hs,hb⟩ := h.size_natCast hf.live
  have hroom := hf.room
  obtain ⟨_,grown,hg,hn⟩ := (directoryPut_delivers h.owned hf.live hs hb (by omega) hf.short
    hj).of_returned hr hd
  exact ⟨s,grown,hs,by omega,hf.short,hg,hn⟩

/-- An insertion keeps an image sound. -/
theorem Inserted.sound {memory next : Bytes} {d j : ℕ} {name : List UInt8}
    (hi : Inserted memory next d j name) (h : Sound memory) (hd : Live memory d) (hj : j<64) :
    Sound next := by
  obtain ⟨s,grown,hs,hfit,hname,hg,rfl⟩ := hi
  exact sound_entered h hd hs hfit hj hg hname

/-- A returned removal found nothing or removed an entry. -/
theorem removed_of_returned (disk : Disk) {next : Disk} {d : ℕ} {name : List UInt8}
    {result : ℤ}
    (h : Sound disk.bytes) (hf : DeleteFits disk.bytes d)
    (hr : directoryDelete (nodeOffset d) name disk=.ok result next) :
    next=disk ∨ Removed disk.bytes next.bytes d := by
  obtain ⟨s,hs,hb⟩ := h.size_natCast hf.live
  have hroom := hf.room
  have hsafe := hf.safe
  rw [hs,Int.toNat_natCast] at hsafe
  have hshrink : 64 ≤ s → Shrinkable disk.bytes d 1 ((s-64+4095)/4096) := by
    intro h64
    have hx := shrinkable_of_safe h.owned hf.live hsafe
    rw [hb,show (s+4095)/4096=1 by omega] at hx
    exact hx
  rcases directoryDelete_returned h.owned hf.live hs hb (by omega) h.number hshrink hr with
    he|⟨ii,j,h64,hii,hj,hentry,hn⟩
  · exact .inl he
  · rw [hn]
    exact .inr ⟨s,ii,j,hs,h64,by omega,hii,hj,hentry,rfl⟩

/-- A removal keeps an image sound. -/
theorem Removed.sound {memory next : Bytes} {d : ℕ} (hr : Removed memory next d)
    (h : Sound memory) (hf : DeleteFits memory d) : Sound next := by
  obtain ⟨s,ii,j,hs,h64,h4096,hii,hj,_,rfl⟩ := hr
  have hsafe := hf.safe
  rw [hs,Int.toNat_natCast] at hsafe
  exact sound_removed h hf.live hs h64 h4096 hj (by omega) hsafe

/-- Counting references does not change whether a removal fits. -/
theorem DeleteFits.of_refs {memory : Bytes} {d i : ℕ} (hf : DeleteFits memory d) (h : Sound memory)
    (hi : i<64) (value : ℤ) : DeleteFits (putInt memory (4096+64*i+4) value) d := by
  have hsize : ∀ l, sizeAt (putInt memory (4096+64*i+4) value) l=sizeAt memory l :=
    fun l => intAt_putInt_apart _ _ (by omega)
  have hblocks : blocksAt (putInt memory (4096+64*i+4) value)=blocksAt memory := by
    funext l
    rw [blocksAt,hsize l,blocksAt]
  have hlive : Live (putInt memory (4096+64*i+4) value)=Live memory := by
    funext l
    unfold Live
    by_cases hl : l<64
    · have hbit : inodeBit (putInt memory (4096+64*i+4) value) l=inodeBit memory l :=
        bitAt_congr (putInt_outside _ _ (by omega))
      rw [hbit]
    · simp only [hl,false_and]
  have hptr : ∀ k, k<2 →
      ptrAt (putInt memory (4096+64*i+4) value) d k=ptrAt memory d k := fun k hk =>
    intAt_putInt_apart _ _ (by omega)
  have hind : iptrAt (putInt memory (4096+64*i+4) value) d=iptrAt memory d :=
    intAt_putInt_apart _ _ (by omega)
  obtain ⟨s,hs,hb⟩ := h.size_natCast hf.live
  have hroom := hf.room
  have hpnum : pnumAt (putInt memory (4096+64*i+4) value) d (blocksAt memory d)=
      pnumAt memory d (blocksAt memory d) := by
    rw [pnumAt,if_pos (by omega),pnumAt,if_pos (by omega),hptr _ (by omega)]
  have hagree : ∀ address, Guarded memory (Live memory) (blocksAt memory) address →
      putInt memory (4096+64*i+4) value address=memory address := by
    intro address hg
    refine putInt_outside _ _ ?_
    by_contra hc
    exact h.owned.header_not_guarded hi (by omega) (by omega) hg
  refine ⟨by rw [hlive]; exact hf.live,by rw [hsize]; exact hf.room,?_⟩
  have hsafe := hf.safe
  have hfewer : ∀ l, Live memory l →
      Function.update (blocksAt memory) d (((sizeAt memory d).toNat-64+4095)/4096) l≤
        blocksAt memory l := by
    intro l _
    by_cases hl : l=d
    · rw [hl,Function.update_self]
      omega
    · rw [Function.update_of_ne hl]
  unfold ShrinkSafe
  rw [hlive,hblocks,hsize,hpnum,hind]
  exact ⟨fun hm => Harmless.of_agree h.owned hagree hfewer (hsafe.1 hm),
    fun hm hb' => Harmless.of_agree h.owned hagree hfewer (hsafe.2 hm hb')⟩

/-- Two parts of a run without refusals are without refusals. -/
theorem denied_between {α β : Type} {first : Nufs α} {second : Nufs β} {disk mid next : Disk}
    {value : α} {result : β} (h1 : first disk=.ok value mid) (h2 : second mid=.ok result next)
    (hr1 : Rises Disk.denied first) (hr2 : Rises Disk.denied second)
    (hd : next.denied=disk.denied) : mid.denied=disk.denied ∧ next.denied=mid.denied := by
  have hx := hr1 disk
  have hy := hr2 mid
  simp only [Below,after_of_ok h1] at hx
  simp only [Below,after_of_ok h2] at hy
  omega

/-! ## Moves between directories -/

section Move

variable {memory next : Bytes} {d t j : ℕ} {name : List UInt8}

/-- Liveness before an insertion. -/
theorem Inserted.live_iff (hi : Inserted memory next t j name) (h : Sound memory)
    (ht : Live memory t) {l : ℕ} : Live next l ↔ Live memory l := by
  obtain ⟨s,grown,hs,hfit,hname,hg,rfl⟩ := hi
  have hbit : ∀ {l : ℕ}, l<64 →
      inodeBit (entered memory grown t j s name) l=inodeBit memory l := fun hl =>
    bitAt_congr (entered_header h.owned ht (blocksAt_of_size hs) hg hname (.inl (by omega))
      (by omega))
  constructor
  · rintro ⟨hl,hb⟩
    exact ⟨hl,by rw [←hbit hl]; exact hb⟩
  · rintro ⟨hl,hb⟩
    exact ⟨hl,by rw [hbit hl]; exact hb⟩

/-- Sizes after an insertion. -/
theorem Inserted.size_eq (hi : Inserted memory next t j name) (h : Sound memory)
    (ht : Live memory t) {l : ℕ} (hl : l<64) :
    sizeAt next l=if l=t then sizeAt memory t+64 else sizeAt memory l := by
  obtain ⟨s,grown,hs,hfit,hname,hg,rfl⟩ := hi
  have hb := blocksAt_of_size hs
  split
  · rename_i he
    rw [he,entered_size h.owned ht hfit hb hg hname,hs]
    push_cast
    rfl
  · rename_i hne
    exact intAt_congr (fun address hlow hhigh => entered_header h.owned ht hb hg hname
      (.inr ⟨l,hl,by omega,by omega,fun hc => hne hc.1⟩) (by omega))

/-- An insertion fills at most the first block. -/
theorem Inserted.blocks_eq (hi : Inserted memory next t j name) (h : Sound memory)
    (ht : Live memory t) {l : ℕ} (hl : l<64) :
    blocksAt next l=if l=t then 1 else blocksAt memory l := by
  have hsize := hi.size_eq h ht hl
  obtain ⟨s,grown,hs,hfit,hname,hg,hn⟩ := hi
  split
  · rename_i he
    rw [if_pos he,hs] at hsize
    have hnew : sizeAt next l=((s+64 : ℕ) : ℤ) := by rw [hsize]; push_cast; rfl
    rw [blocksAt_of_size hnew]
    omega
  · rename_i hne
    rw [blocksAt,hsize,if_neg hne,blocksAt]

/-- Pages of used slots after an insertion: the old ones, or the next page. -/
theorem Inserted.slot_page (hi : Inserted memory next t j name) (h : Sound memory)
    (ht : Live memory t) (hj : j<64) {l : ℕ} (hl : Live memory l) {slot : Slot}
    (hu : slot.Used (blocksAt next l)) :
    (slot.Used (blocksAt memory l) ∧ slot.page next l=slot.page memory l) ∨
      (l=t ∧ blocksAt memory t=0 ∧ NextPage memory (slot.page next l)) := by
  rw [hi.blocks_eq h ht hl.1] at hu
  obtain ⟨s,grown,hs,hfit,hname,hg,rfl⟩ := hi
  have hb := blocksAt_of_size hs
  have hupdate : ∀ m, (if m=t then 1 else blocksAt memory m)=
      Function.update (blocksAt memory) t 1 m := by
    intro m
    rw [Function.update_apply]
  rw [hupdate] at hu
  have hpage := entered_slot (j:=j) h.owned ht hj hfit hb hg hname hl hu
  by_cases hold : slot.Used (blocksAt memory l)
  · left
    exact ⟨hold,hpage.trans ((Grown.kept hg h.owned ht hb hl).slots slot hold)⟩
  · right
    by_cases he : l=t
    · subst he
      rw [Function.update_self] at hu
      have hz : blocksAt memory l=0 := by
        cases slot with
        | block k =>
          simp only [Slot.Used] at hu hold
          omega
        | indirect =>
          simp only [Slot.Used] at hu
          omega
      have hslot : slot=.block 0 := by
        cases slot with
        | block k =>
          simp only [Slot.Used] at hu
          rw [show k=0 by omega]
        | indirect =>
          simp only [Slot.Used] at hu
          omega
      refine ⟨rfl,hz,?_⟩
      rw [hpage,hslot]
      have hn : (s+4095)/4096=0 := by omega
      rw [hn] at hg
      exact hg.first Nat.one_pos (by omega)
    · rw [Function.update_of_ne he] at hu
      exact absurd hu hold

/-- Pointers out of use survive an insertion. -/
theorem Inserted.pointers (hi : Inserted memory next t j name) (h : Sound memory)
    (ht : Live memory t) (hd : Live memory d) :
    ptrAt next d 1=ptrAt memory d 1 ∧ iptrAt next d=iptrAt memory d := by
  obtain ⟨s,grown,hs,hfit,hname,hg,rfl⟩ := hi
  have hb := blocksAt_of_size hs
  have hpage := Grown.first_page hg h.owned ht hb
  have ht64 := ht.1
  have hd64 := hd.1
  have hstep : ∀ start, 4096+64*d+16 ≤ start → start+4≤4096+64*d+28 →
      intAt (entered memory grown t j s name) start=intAt grown start :=
    fun start hl hr => intAt_congr (fun address hlow hhigh =>
      entered_outside hname (by omega) (by omega) (by omega))
  by_cases he : d=t
  · subst he
    exact ⟨(hstep _ (by omega) (by omega)).trans (hg.direct 1 (by omega) (by omega)),
      (hstep _ (by omega) (by omega)).trans (hg.indirect (by omega))⟩
  · have hkeep : ∀ start, 4096+64*d+16 ≤ start → start+4≤4096+64*d+28 →
        intAt grown start=intAt memory start :=
      fun start hl hr => intAt_congr (fun address hlow hhigh =>
        hg.frame address (by omega) (by omega) (by omega))
    exact ⟨(hstep _ (by omega) (by omega)).trans (hkeep _ (by omega) (by omega)),
      (hstep _ (by omega) (by omega)).trans (hkeep _ (by omega) (by omega))⟩

/-- A number that is harmless to free stays so across an insertion that did
not take it. -/
theorem Inserted.harmless (hi : Inserted memory next t j name) (h : Sound memory)
    (ht : Live memory t) (hj : j<64) {m : ℕ} (hm : m≤blocksAt memory d) {page : ℤ}
    (hp : Harmless memory (Live memory) (Function.update (blocksAt memory) d m) page)
    (hn : t≠d → blocksAt memory t=0 → ¬NextPage memory page) :
    Harmless next (Live next) (Function.update (blocksAt next) d m) page := by
  refine ⟨hp.1,hp.2.1,hp.2.2.1,?_⟩
  intro l hl slot hu he
  have hl' := (hi.live_iff h ht).mp hl
  by_cases hld : l=d
  · subst hld
    rw [Function.update_self] at hu
    have hused : slot.Used (blocksAt next l) := by
      rw [hi.blocks_eq h ht hl.1]
      split
      · rename_i heq
        obtain ⟨s,_,hs,hfit,_⟩ := hi
        have hb := blocksAt_of_size hs
        rw [heq] at hm
        exact hu.mono (by omega)
      · exact hu.mono hm
    rcases hi.slot_page h ht hj hl' hused with ⟨_,hsame⟩|⟨heq,hz,_⟩
    · exact hp.2.2.2 l hl' slot (by rw [Function.update_self]; exact hu) (hsame.symm.trans he)
    · rw [heq,hz] at hm
      rw [Nat.le_zero.mp hm] at hu
      cases slot with
      | block k => exact absurd hu (Nat.not_lt_zero k)
      | indirect => exact absurd hu (Nat.not_lt_zero 2)
  · rw [Function.update_of_ne hld] at hu
    rcases hi.slot_page h ht hj hl' hu with ⟨hold,hsame⟩|⟨heq,hz,hnext⟩
    · exact hp.2.2.2 l hl' slot (by rw [Function.update_of_ne hld]; exact hold) (hsame.symm.trans he)
    · rw [he] at hnext
      exact hn (fun hc => hld (heq.trans hc)) hz hnext

/-- After the insertion of a move that fits, the removal fits. -/
theorem MoveFits.delete (hf : MoveFits memory d t name) (hi : Inserted memory next t j name)
    (h : Sound memory) (hj : j<64) (h64 : 64 ≤ sizeAt memory d) : DeleteFits next d := by
  have ht := hf.put.live
  obtain ⟨sd,hsd,hbd⟩ := h.size_natCast hf.live
  have hroom := hf.room
  have hput := hf.put.room
  have hone : blocksAt memory d=1 := by omega
  have hsize := hi.size_eq h ht hf.live.1
  have hptr := hi.pointers h ht hf.live
  have hbnext : blocksAt next d=1 := by
    rw [hi.blocks_eq h ht hf.live.1,hone]
    split <;> rfl
  have hpnum : pnumAt next d 1=ptrAt memory d 1 := by
    rw [pnumAt,if_pos (by omega),hptr.1]
  have hpnum' : pnumAt memory d 1=ptrAt memory d 1 := by
    rw [pnumAt,if_pos (by omega)]
  refine ⟨(hi.live_iff h ht).mpr hf.live,?_,?_⟩
  · rw [hsize]
    split
    · exact hput
    · exact hroom
  · by_cases he : t=d
    · have hm : ((sizeAt next d).toNat-64+4095)/4096=1 := by
        rw [hsize,if_pos he.symm,he,hsd]
        rw [he,hsd] at hput
        omega
      have hsafe := hf.within he
      rw [hm]
      refine ⟨fun hlt => by omega,fun hm2 hb2 => ?_⟩
      rw [hptr.2]
      exact hi.harmless h ht hj (by omega) (hsafe.2 (by omega) (by omega)) (fun hc => absurd he hc)
    · have hm : ((sizeAt next d).toNat-64+4095)/4096=(sd-64+4095)/4096 := by
        rw [hsize,if_neg (fun hc => he hc.symm),hsd,Int.toNat_natCast]
      have hsafe := hf.across he
      have hfresh := hf.fresh he
      rw [hsd,Int.toNat_natCast] at hsafe
      rw [hm]
      refine ⟨fun hlt => ?_,fun hm2 hb2 => ?_⟩
      · rw [hbnext,hpnum]
        have hlast := hsafe.1 (by omega)
        rw [hone,hpnum'] at hlast
        exact hi.harmless h ht hj (by omega) hlast (fun _ hz => (hfresh hz).1)
      · rw [hptr.2]
        exact hi.harmless h ht hj (by omega) (hsafe.2 (by omega) (by omega))
          (fun _ hz => (hfresh hz).2)

end Move

/-! ## Resizing and filling -/

section Resize

variable {disk next : Disk} {memory after : Bytes} {i size : ℕ}

/-- What a resize to a given size did. -/
inductive Resized (memory : Bytes) (i size : ℕ) : Bytes → Prop
  /-- The inode has grown by whole blocks. -/
  | grown (old : ℕ) (grown : Bytes) (hs : sizeAt memory i=old) (hle : old ≤ size)
      (hg : Grown memory grown i ((old+4095)/4096) (max ((old+4095)/4096) ((size+4095)/4096))) :
      Resized memory i size (putInt grown (4096+64*i+12) size)
  /-- The inode has shrunk. -/
  | shrunk (old : ℕ) (hs : sizeAt memory i=old) (hlt : size<old) :
      Resized memory i size (shrunk memory i (blocksAt memory i) ((size+4095)/4096) size)
  /-- The inode had the size already. -/
  | same (hs : sizeAt memory i=size) : Resized memory i size memory

/-- A grown inode without refused allocation. -/
theorem resized_of_grow {value : ℤ} (h : Sound disk.bytes) (hi : Live disk.bytes i)
    (hle : sizeAt disk.bytes i ≤ size) (hlt : size<2147483648)
    (hr : growInode (nodeOffset i) size disk=.ok value next) (hd : next.denied=disk.denied) :
    Resized disk.bytes i size next.bytes := by
  obtain ⟨old,hs,hb⟩ := h.size_natCast hi
  obtain ⟨_,grown,hg,hn⟩ := (growInode_delivers h.owned hi hs hb hlt).of_returned hr hd
  rw [hn]
  exact .grown old grown hs (by omega) hg

/-- A safely shrunk inode. -/
theorem resized_of_shrink {value : ℤ} (h : Sound disk.bytes) (hi : Live disk.bytes i)
    (hlt : (size : ℤ) < sizeAt disk.bytes i)
    (hsafe : ShrinkSafe disk.bytes (Live disk.bytes) (blocksAt disk.bytes) i ((size+4095)/4096))
    (hr : shrinkInode (nodeOffset i) size disk=.ok value next) :
    Resized disk.bytes i size next.bytes := by
  obtain ⟨old,hs,hb⟩ := h.size_natCast hi
  have hle := h.owned.blocks_le hi
  have hshrink := shrinkable_of_safe h.owned hi hsafe
  rw [hb] at hshrink hle
  have hok := shrinkInode_ok size hi.1 disk hs (by omega) (by omega) hshrink
  obtain ⟨_,hn⟩ := EStateM.Result.ok.inj (hok.symm.trans hr)
  rw [←hn,←hb]
  exact .shrunk old hs (by omega)

/-- The resizing step of `storage_write`. -/
theorem resized_of_returned (h : Sound disk.bytes) (hf : ResizeFits disk.bytes i size)
    (hr : resizeForWrite (nodeOffset i) (sizeAt disk.bytes i) size disk=.ok () next)
    (hd : next.denied=disk.denied) : Resized disk.bytes i size next.bytes := by
  have hupper := hf.upper
  unfold resizeForWrite at hr
  by_cases hgrow : sizeAt disk.bytes i < size
  · rw [if_pos hgrow] at hr
    obtain ⟨value,mid,hg,hp⟩ := bind_eq_ok.mp hr
    obtain ⟨_,rfl⟩ := pure_eq_ok.mp hp
    exact resized_of_grow h hf.live (by omega) (by omega) hg hd
  · rw [if_neg hgrow] at hr
    by_cases hshrink : (size : ℤ) < sizeAt disk.bytes i
    · rw [if_pos hshrink] at hr
      obtain ⟨value,mid,hg,hp⟩ := bind_eq_ok.mp hr
      obtain ⟨_,rfl⟩ := pure_eq_ok.mp hp
      exact resized_of_shrink h hf.live hshrink (hf.safe hshrink) hg
    · rw [if_neg hshrink] at hr
      obtain ⟨_,rfl⟩ := pure_eq_ok.mp hr
      exact .same (by omega)

/-- What a step on one inode leaves of the others: the headers but for one
size, and the contents of every other live inode. -/
def Isolated (memory next : Bytes) (i : ℕ) : Prop :=
  TableKept memory next i ∧
    ∀ j, Live memory j → j≠i → Kept memory next j (blocksAt memory j)

/-- A step that does nothing is isolated. -/
theorem Isolated.refl (memory : Bytes) (i : ℕ) : Isolated memory memory i :=
  ⟨fun _ _ => rfl,fun _ _ _ => ⟨fun _ _ => rfl,fun _ _ _ _ => rfl⟩⟩

/-- Isolation composes. -/
theorem Isolated.trans {memory mid next : Bytes} (h : Isolated memory mid i)
    (h' : Isolated mid next i) : Isolated memory next i := by
  refine ⟨h.1.trans h'.1,fun j hj hne => (h.2 j hj hne).trans ?_⟩
  have hb : blocksAt mid j=blocksAt memory j := by
    rw [blocksAt,h.1.size hj.1 hne,blocksAt]
  rw [←hb]
  exact h'.2 j (h.1.live.mpr hj) hne

/-- A safe resize works on one inode. -/
theorem Resized.isolated (hr : Resized memory i size after) (h : Sound memory)
    (hf : ResizeFits memory i size) :
    Sound after ∧ sizeAt after i=size ∧ Isolated memory after i := by
  have hupper := hf.upper
  cases hr with
  | grown old grown hs hle hg =>
    obtain ⟨ht,hk⟩ := kept_grown h hf.live hs hg
    refine ⟨sound_grown h hf.live hs hle (by omega) hg,?_,ht,fun j hj _ => hk j hj⟩
    rw [sizeAt,intAt_putInt,wrap32_of_range (by omega) (by omega)]
  | shrunk old hs hlt =>
    have hsafe := hf.safe (by omega)
    rw [Int.toNat_natCast] at hsafe
    have hrange := intAt_range memory (4096+64*i+12)
    have hold : old<2147483648 := by
      have hx : sizeAt memory i<2147483648 := hrange.2
      omega
    have hshrink := shrinkable_of_safe h.owned hf.live hsafe
    refine ⟨sound_shrunk h hf.live hs (by omega) hold hsafe,?_,tableKept_shrunk hshrink size,
      fun j hj _ => kept_shrunk h.owned hshrink hf.live size hj⟩
    rw [NufsResize.shrunk,sizeAt,intAt_putInt,wrap32_of_range (by omega) (by omega)]
  | same hs => exact ⟨h,hs,Isolated.refl memory i⟩

/-- Filling blocks of a live inode. -/
theorem fill_isolated {memory next : Bytes} (h : Sound memory) (hi : Live memory i)
    (hf : Filled memory next i (blocksAt memory i)) : Sound next ∧ Isolated memory next i :=
  ⟨sound_filled h hi hf,hf.table h.owned hi,fun _ hj hne => hf.kept h.owned hi hj hne⟩

/-- The copy loop of `storage_write` after resizing; from a negative offset it
does not start. -/
theorem writeLoop_effect {total : ℕ} {offset : ℤ} {buf : ℕ → UInt8} (h : Sound disk.bytes)
    (hi : Live disk.bytes i) (hs : sizeAt disk.bytes i=total) (ho : -9223372036854775808≤offset)
    (hlt : total<2147483648)
    (hr : writeLoop (nodeOffset i) buf total loopRounds offset 0 disk=.ok () next) :
    Filled disk.bytes next.bytes i (blocksAt disk.bytes i) := by
  have hb := blocksAt_of_size hs
  by_cases hneg : offset<0
  · have hrounds : loopRounds=2097151+1 := rfl
    rw [hrounds,writeLoop,if_neg (by omega)] at hr
    obtain ⟨_,rfl⟩ := pure_eq_ok.mp hr
    exact fun _ _ => rfl
  · obtain ⟨curr,rfl⟩ := Int.eq_ofNat_of_zero_le (show 0≤offset by omega)
    exact writeLoop_filled hi buf (by omega) loopRounds h.owned hr

/-- The file that a write or a truncation works on, and the size it asks for. -/
def target : Call → Option (List UInt8×ℤ)
  | .write path _ size offset => some (path,offset.toInt+size.toNat)
  | .truncate path size => some (path,size.toInt)
  | _ => none

/-- A clean write or truncation that did not fail at its lookup resized the
inode and then filled some of its blocks. -/
theorem file_effect {call : Call} {path : List UInt8} {asked result : ℤ} (h : Sound disk.bytes)
    (ht : target call=some (path,asked)) (hc : Clean disk call)
    (hr : exec call disk=.ok result next) (hd : next.denied=disk.denied) :
    next=disk ∨ ∃ (i total : ℕ) (mid : Bytes), asked=total ∧
      treeLookup path disk=.ok (i : ℤ) disk ∧ ResizeFits disk.bytes i total ∧
      Resized disk.bytes i total mid ∧ Filled mid next.bytes i (blocksAt mid i) := by
  cases call with
  | write path' buf size offset =>
    cases ht
    rcases write_returned hr with hfail|⟨i,hi,hlookup,_,mid,hresize,hloop⟩
    · exact .inl hfail.2
    · have hf := hc i hlookup
      obtain ⟨total,htotal⟩ := Int.eq_ofNat_of_zero_le hf.lower
      rw [htotal] at hf hresize hloop
      have hupper := hf.upper
      rw [wrap32_of_range (by omega) (by omega)] at hresize
      rw [Int.emod_eq_of_lt (by omega) (by omega)] at hloop
      obtain ⟨hd1,_⟩ := denied_between hresize hloop (resizeForWrite_rises _ _ _)
        (writeLoop_rises _ _ _ _ _ _) hd
      have hmid := resized_of_returned h hf hresize hd1
      obtain ⟨hs1,hsize,hiso⟩ := hmid.isolated h hf
      have hrange := offset.le_toInt
      exact .inr ⟨i,total,mid.bytes,htotal,hlookup,hf,hmid,
        writeLoop_effect hs1 (hiso.1.live.mpr hf.live) hsize (by omega) (by omega) hloop⟩
  | truncate path' size =>
    cases ht
    rcases truncate_returned hr with hfail|⟨i,hi,hlookup,_,hbranch⟩
    · exact .inl hfail.2
    · have hf := hc i hlookup
      obtain ⟨total,htotal⟩ := Int.eq_ofNat_of_zero_le hf.lower
      rw [htotal] at hf hbranch
      have hupper := hf.upper
      rw [wrap32_of_range (by omega) (by omega)] at hbranch
      rcases hbranch with ⟨hlt,value,mid,hgrow,hloop⟩|⟨hlt,value,hshrink⟩|⟨_,rfl⟩
      · obtain ⟨hd1,_⟩ := denied_between hgrow hloop (growInode_rises _ _)
          (truncateLoop_rises _ _ _ _) hd
        have hmid := resized_of_grow h hf.live (by omega) (by omega) hgrow hd1
        obtain ⟨hs1,hsize,hiso⟩ := hmid.isolated h hf
        have hlive := hiso.1.live.mpr hf.live
        obtain ⟨old,hold⟩ := Int.eq_ofNat_of_zero_le (h.size i hf.live)
        rw [hold] at hloop
        have hb := blocksAt_of_size hsize
        exact .inr ⟨i,total,mid.bytes,htotal,hlookup,hf,hmid,
          truncateLoop_filled hlive (by omega) loopRounds hs1.owned hloop⟩
      · exact .inr ⟨i,total,next.bytes,htotal,hlookup,hf,
          resized_of_shrink h hf.live hlt (hf.safe hlt) hshrink,fun _ _ => rfl⟩
      · exact .inl rfl
  | mknod path' mode => cases ht
  | link source dest => cases ht
  | unlink path' => cases ht
  | rename path' dest => cases ht

/-- A clean write or truncation works on one inode. -/
theorem file_isolated {call : Call} {path : List UInt8} {asked result : ℤ} (h : Sound disk.bytes)
    (ht : target call=some (path,asked)) (hc : Clean disk call)
    (hr : exec call disk=.ok result next) (hd : next.denied=disk.denied)
    (hi : treeLookup path disk=.ok (i : ℤ) disk) :
    Sound next.bytes ∧ Isolated disk.bytes next.bytes i := by
  rcases file_effect h ht hc hr hd with rfl|⟨i',total,mid,_,hlookup,hf,hresized,hfilled⟩
  · exact ⟨h,Isolated.refl _ _⟩
  · have he : i'=i := by
      rw [hlookup] at hi
      exact Int.ofNat_inj.mp (EStateM.Result.ok.inj hi).1
    subst he
    obtain ⟨hs1,_,hiso1⟩ := hresized.isolated h hf
    obtain ⟨hs2,hiso2⟩ := fill_isolated hs1 (hiso1.1.live.mpr hf.live) hfilled
    exact ⟨hs2,hiso1.trans hiso2⟩

end Resize

/-! ## Names -/

section Names

variable {disk next : Disk} {result : ℤ}

/-- A clean `storage_mknod` that did not fail created an inode and inserted
its name. -/
theorem mknod_effect {path : List UInt8} {mode : ℤ} (h : Sound disk.bytes)
    (hc : Clean disk (.mknod path mode)) (hr : exec (.mknod path mode) disk=.ok result next)
    (hd : next.denied=disk.denied) :
    next=disk ∨ ∃ d i : ℕ, i<64 ∧ inodeBit disk.bytes i=false ∧
      treeLookup (dirname path) disk=.ok (d : ℤ) disk ∧ Live disk.bytes d ∧
      Live (created disk.bytes i mode) d ∧
      Inserted (created disk.bytes i mode) next.bytes d i (basename path) := by
  rcases mknod_returned hr with hfail|⟨d,_,hl,found,hle,hlookup,hcreate⟩
  · exact .inl hfail.2
  · have hf := hc d found hle hl hlookup
    rcases createNode_eq (nodeOffset d) (basename path) mode disk with
      ⟨i,hi,hfree,_,heq⟩|⟨_,heq⟩
    · rw [heq] at hcreate
      have hne : d≠i := by
        rintro rfl
        have hlive := hf.live.2
        rw [hfree] at hlive
        cases hlive
      have hlive : Live (created disk.bytes i mode) d :=
        ⟨hf.live.1,by rw [created_bit mode disk.bytes hf.live.1,if_neg hne]; exact hf.live.2⟩
      have hsize : sizeAt (created disk.bytes i mode) d=sizeAt disk.bytes d :=
        created_field_other mode disk.bytes hi 12 hne (by omega)
      have hfit : PutFits (created disk.bytes i mode) d (basename path) :=
        ⟨hlive,by rw [hsize]; exact hf.room,hf.short⟩
      exact .inr ⟨d,i,hi,hfree,hl,hf.live,hlive,
        inserted_of_returned {disk with bytes := created disk.bytes i mode}
          (sound_created mode h hi hfree) hfit hi hcreate hd⟩
    · rw [heq] at hcreate
      cases hcreate

/-- A clean `storage_link` that did not fail inserted a name and counted it
once more. -/
theorem link_effect {source dest : List UInt8} (h : Sound disk.bytes)
    (hc : Clean disk (.link source dest)) (hr : exec (.link source dest) disk=.ok result next)
    (hd : next.denied=disk.denied) :
    next=disk ∨ ∃ (d f : ℕ) (mid : Bytes), f<64 ∧ Live disk.bytes d ∧
      Inserted disk.bytes mid d f (basename dest) ∧
      next.bytes=putInt mid (4096+64*f+4) (refsAt mid f+1) := by
  rcases link_returned hr with hfail|⟨s,d,f,_,_,hf64,_,_,hl,⟨found,hneg,hlookup⟩,mid,hput,hn⟩
  · exact .inl hfail.2
  · have hf := hc d found hneg hl hlookup
    have hmid : mid.denied=disk.denied := by
      rw [←hd,hn]
    rw [hn]
    exact .inr ⟨d,f,mid.bytes,hf64,hf.live,inserted_of_returned disk h hf hf64 hput hmid,rfl⟩

/-- A clean `storage_unlink` that did not fail counted a reference down and
removed an entry, if it still found one. -/
theorem unlink_effect {path : List UInt8} (h : Sound disk.bytes)
    (hc : Clean disk (.unlink path)) (hr : exec (.unlink path) disk=.ok result next) :
    next=disk ∨ ∃ d i : ℕ, i<64 ∧ treeLookup (dirname path) disk=.ok (d : ℤ) disk ∧
      treeLookup path disk=.ok (i : ℤ) disk ∧ DeleteFits disk.bytes d ∧
      DeleteFits (putInt disk.bytes (4096+64*i+4) (refsAt disk.bytes i-1)) d ∧
      (next.bytes=putInt disk.bytes (4096+64*i+4) (refsAt disk.bytes i-1) ∨
        Removed (putInt disk.bytes (4096+64*i+4) (refsAt disk.bytes i-1)) next.bytes d) := by
  rcases unlink_returned hr with hfail|⟨d,i,_,hi,hl,hp,⟨inum,hpos,hlookup⟩,hdel⟩
  · exact .inl hfail.2
  · have hf := hc d inum hpos hl hlookup
    have hs := sound_refs h hi (refsAt disk.bytes i-1)
    have hf' := hf.of_refs h hi (refsAt disk.bytes i-1)
    refine .inr ⟨d,i,hi,hl,hp,hf,hf',?_⟩
    rcases removed_of_returned {disk with
        bytes := putInt disk.bytes (4096+64*i+4) (refsAt disk.bytes i-1)} hs hf' hdel with hn|hn
    · left
      rw [hn]
    · exact .inr hn

/-- A clean `storage_rename` that did not fail inserted the new name and
removed an entry of the old directory. -/
theorem rename_effect {path dest : List UInt8} (h : Sound disk.bytes)
    (hc : Clean disk (.rename path dest)) (hr : exec (.rename path dest) disk=.ok result next)
    (hd : next.denied=disk.denied) :
    next=disk ∨ ∃ (d t f : ℕ) (mid : Bytes), f<64 ∧
      treeLookup (dirname path) disk=.ok (d : ℤ) disk ∧
      directoryLookup (nodeOffset d) (basename path) disk=.ok (f : ℤ) disk ∧
      treeLookup (dirname dest) disk=.ok (t : ℤ) disk ∧
      MoveFits disk.bytes d t (basename dest) ∧ Inserted disk.bytes mid t f (basename dest) ∧
      DeleteFits mid d ∧ (next.bytes=mid ∨ Removed mid next.bytes d) := by
  rcases rename_returned hr with
    hfail|⟨d,t,hd64,_,hl,hl',inum,hpos,hlookup,mid,hput,code,hdel⟩
  · exact .inl hfail.2
  · have hf := hc d t inum hpos hl hlookup hl'
    obtain ⟨j,rfl,hj64⟩ := directoryPut_index (directoryLookup_range hlookup) hput
    obtain ⟨hd1,_⟩ := denied_between hput hdel (directoryPut_rises _ _ _)
      (directoryDelete_rises _ _) hd
    have hins := inserted_of_returned disk h hf.put hj64 hput hd1
    have hs := hins.sound h hf.put.live hj64
    have hdelete := hf.delete hins h hj64 (size_of_lookup hd64 hlookup hpos)
    refine .inr ⟨d,t,j,mid.bytes,hj64,hl,hlookup,hl',hf,hins,hdelete,?_⟩
    rcases removed_of_returned _ hs hdelete hdel with hn|hn
    · left
      rw [hn]
    · exact .inr hn

end Names

/-! ## Runs -/

/-- A fresh image is sound: its only live inode is empty. -/
theorem sound_fresh : Sound fresh.bytes := by
  have hempty : ∀ i<64, inodeBit fresh.bytes i=true → sizeAt fresh.bytes i=0 := by decide +kernel
  have hnone : ∀ i, Live fresh.bytes i → ∀ slot : Slot, ¬slot.Used (blocksAt fresh.bytes i) := by
    rintro i ⟨hi,hb⟩ slot hu
    rw [blocksAt_zero (hempty i hi hb)] at hu
    cases slot with
    | block k => exact absurd hu (Nat.not_lt_zero k)
    | indirect => exact absurd hu (Nat.not_lt_zero 2)
  refine ⟨⟨by decide +kernel,fun i hi => hi.1,?_,?_,?_⟩,?_,by decide +kernel⟩
  · exact fun i hi slot hu => absurd hu (hnone i hi slot)
  · exact fun i hi slot hu => absurd hu (hnone i hi slot)
  · exact fun i _ hi _ slot _ hu _ _ => absurd hu (hnone i hi slot)
  · rintro i ⟨hi,hb⟩
    rw [hempty i hi hb]

/-- A clean call that returned without a refused allocation keeps an image
sound. -/
theorem sound_step {disk next : Disk} {call : Call} {result : ℤ} (h : Sound disk.bytes)
    (hc : Clean disk call) (hr : exec call disk=.ok result next) (hd : next.denied=disk.denied) :
    Sound next.bytes := by
  cases call with
  | mknod path mode =>
    rcases mknod_effect h hc hr hd with rfl|⟨d,i,hi,hfree,_,_,hlive,hins⟩
    · exact h
    · exact hins.sound (sound_created mode h hi hfree) hlive hi
  | link source dest =>
    rcases link_effect h hc hr hd with rfl|⟨d,f,mid,hf,hlive,hins,hn⟩
    · exact h
    · rw [hn]
      exact sound_refs (hins.sound h hlive hf) hf _
  | unlink path =>
    rcases unlink_effect h hc hr with rfl|⟨d,i,hi,_,_,_,hfit,hn|hn⟩
    · exact h
    · rw [hn]
      exact sound_refs h hi _
    · exact hn.sound (sound_refs h hi _) hfit
  | rename path dest =>
    rcases rename_effect h hc hr hd with rfl|⟨d,t,f,mid,hf,_,_,_,hfit,hins,hdel,hn|hn⟩
    · exact h
    · rw [hn]
      exact hins.sound h hfit.put.live hf
    · exact hn.sound (hins.sound h hfit.put.live hf) hdel
  | write path buf size offset =>
    rcases file_effect h rfl hc hr hd with rfl|⟨i,total,mid,_,hlookup,_⟩
    · exact h
    · exact (file_isolated h rfl hc hr hd hlookup).1
  | truncate path size =>
    rcases file_effect h rfl hc hr hd with rfl|⟨i,total,mid,_,hlookup,_⟩
    · exact h
    · exact (file_isolated h rfl hc hr hd hlookup).1

/-- Every state of a clean run is sound. -/
theorem sound_of_reachable {disk : Disk} (h : Reachable Clean disk) : Sound disk.bytes := by
  induction h with
  | refl => exact sound_fresh
  | tail _ hstep ih =>
    obtain ⟨call,result,hc,hr,hd⟩ := hstep
    exact sound_step ih hc hr hd

/-- In every state of a clean run live inodes own their pages alone, and a
clean write or truncation leaves the size and the bytes of every other live
inode as they were. -/
theorem clean_run_ownership {disk : Disk} (h : Reachable Clean disk) :
    Owned disk.bytes (Live disk.bytes) (blocksAt disk.bytes) ∧
      ∀ (call : Call) (path : List UInt8) (asked : ℤ) (i : ℕ) (result : ℤ) (next : Disk),
        target call=some (path,asked) → Clean disk call → treeLookup path disk=.ok (i : ℤ) disk →
        exec call disk=.ok result next → next.denied=disk.denied →
        ∀ j, Live disk.bytes j → j≠i → sizeAt next.bytes j=sizeAt disk.bytes j ∧
          ∀ position : ℕ, position < sizeAt disk.bytes j →
            fileByte next.bytes j position=fileByte disk.bytes j position := by
  have hs := sound_of_reachable h
  refine ⟨hs.owned,?_⟩
  intro call path asked i result next ht hc hi hr hd j hj hne
  have hiso := (file_isolated hs ht hc hr hd hi).2
  refine ⟨hiso.1.size hj.1 hne,fun position hp => ?_⟩
  obtain ⟨s,hsize,hb⟩ := hs.size_natCast hj
  have hk : position/4096<blocksAt disk.bytes j := by omega
  have hrange := hs.owned.range j hj (.block (position/4096)) hk
  simp only [Slot.page] at hrange
  exact (hiso.2 j hj hne).fileByte hk (by omega)

/-- Creating `/a` in a fresh image. -/
def createA : Call := .mknod (render [nameA]) 33188

/-- Creating `/a` in a fresh image is clean. -/
theorem clean_createA : Clean fresh createA := by
  intro d found _ hl _
  have hpass : passes (treeLookup (dirname (render [nameA]))) fresh
      (fun value _ => decide (value=0))=true := by decide +kernel
  have hz := test_of_passes hpass hl
  have hd : d=0 := Int.ofNat_inj.mp (of_decide_eq_true hz)
  subst hd
  exact ⟨⟨by decide,by decide +kernel⟩,by decide +kernel,by decide⟩

/-- After creating `/a` the root owns its page. -/
theorem ownership_after_createA :
    Owned (after (exec createA) fresh).bytes (Live (after (exec createA) fresh).bytes)
      (blocksAt (after (exec createA) fresh).bytes) := by
  have hpass : passes (exec createA) fresh
      (fun _ next => decide (next.denied=fresh.denied))=true := by decide +kernel
  obtain ⟨result,hr,hd⟩ := returned_of_passes hpass
  exact (clean_run_ownership (Relation.ReflTransGen.refl.tail
    ⟨createA,result,clean_createA,hr,of_decide_eq_true hd⟩)).1

/-- Two files whose pointers go stale: shrinking `/a` from two blocks leaves
its second pointer behind, `/b` takes that page, and shrinking `/a` from one
block frees it. -/
def staleRun : List Call :=
  [.mknod (render [nameA]) 33188,.truncate (render [nameA]) 8192,.truncate (render [nameA]) 0,
    .mknod (render [nameB]) 33188,.truncate (render [nameB]) 1,.truncate (render [nameA]) 1,
    .truncate (render [nameA]) 0]

/-- Without a condition on the calls ownership is lost: after the run above
the page of `/b`, inode 2, is unmarked. -/
theorem stale_run_loses_page :
    ¬∀ disk, Reachable (fun _ _ => True) disk →
      Owned disk.bytes (Live disk.bytes) (blocksAt disk.bytes) := by
  intro h
  have howned := h (execAll staleRun fresh) (reachable_of_calls .refl (by decide +kernel))
  have hused : Slot.Used (blocksAt (execAll staleRun fresh).bytes 2) (.block 0) := by
    change 0<blocksAt (execAll staleRun fresh).bytes 2
    decide +kernel
  have hmarked := howned.marked 2 ⟨by decide,by decide +kernel⟩ (.block 0) hused
  have hclear : pageBit (execAll staleRun fresh).bytes
      (Slot.page (execAll staleRun fresh).bytes 2 (.block 0)).toNat=false := by decide +kernel
  rw [hclear] at hmarked
  cases hmarked

end ComputerSystems.NufsIsolation
