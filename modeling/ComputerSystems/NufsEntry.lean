import ComputerSystems.NufsFrame

/-!
# Inserting and removing entries of a one-page directory

`directory_put` and `directory_delete` on a live directory whose entries lie
in its first block. Both are computed exactly: the image after an insertion is
the grown image with three fields written, and the image after a removal is
the shrunk image of an edited one.
-/

namespace ComputerSystems.NufsEntry

open StateProgram ByteMemory NufsImage NufsInode NufsDirectory NufsCalls NufsOwnership NufsResize
  NufsFrame

/-! ## Insertion -/

/-- The first block of a directory after growing. -/
theorem Grown.first_block {memory grown : Bytes} {live : ℕ → Prop} {blocks : ℕ → ℕ} {d n m : ℕ}
    (hg : Grown memory grown d n m) (h : Owned memory live blocks) (hd : live d) (hb : blocks d=n)
    (hm : 0 < m) : 2≤ptrAt grown d 0 ∧ ptrAt grown d 0<256 := by
  have hr := (owned_grow h hd hb hg).range d hd (.block 0)
    (by rw [Function.update_self]; exact hm)
  rw [Slot.page,pnumAt,if_pos (by omega)] at hr
  exact hr

/-- The first block of a directory after growing to one block. -/
theorem Grown.first_page {memory grown : Bytes} {live : ℕ → Prop} {blocks : ℕ → ℕ} {d s : ℕ}
    (hg : Grown memory grown d ((s+4095)/4096) 1)
    (h : Owned memory live blocks) (hd : live d) (hb : blocks d=(s+4095)/4096) :
    2≤ptrAt grown d 0 ∧ ptrAt grown d 0<256 :=
  Grown.first_block hg h hd hb Nat.one_pos

/-- Store one entry: the name with its NUL, then the inode number over it. -/
def putEntry (memory : Bytes) (start : ℕ) (name : List UInt8) (inum : ℤ) : Bytes :=
  putInt (blit memory start (name.length+1) (fun k => name.getD k 0)) (start+48) inum

/-- An entry with a name of less than 64 bytes is written inside its place. -/
theorem putEntry_outside (memory : Bytes) {start address : ℕ} {name : List UInt8}
    (hn : name.length<64) (inum : ℤ) (h : address < start ∨ start+64≤address) :
    putEntry memory start name inum address=memory address := by
  rw [putEntry,putInt_outside _ _ (by omega),blit_outside _ _ (by omega)]

/-- The image before the entry itself is stored: the new size and one more
reference. -/
def prepared (memory grown : Bytes) (d j s : ℕ) : Bytes :=
  putInt (putInt grown (4096+64*d+12) (s+64 : ℕ)) (4096+64*j+4) (refsAt memory j+1)

/-- The image after `directory_put`. -/
def entered (memory grown : Bytes) (d j s : ℕ) (name : List UInt8) : Bytes :=
  putEntry (prepared memory grown d j s) (4096*(ptrAt grown d 0).toNat+s) name j

/-- The two stores of `directory_put`: the name with its NUL, then the number. -/
def storeEntry (slot : ℤ) (name : List UInt8) (inum : ℤ) : Nufs ℤ := do
  writeBytes slot (name.length+1) (fun k => name.getD k 0)
  writeInt (slot+48) inum
  return 0

/-- Storing an entry inside the mapping. -/
theorem storeEntry_ok {start : ℕ} {name : List UInt8} (hname : start+(name.length+1)≤1048576)
    (hinum : start+52≤1048576) (inum : ℤ) (disk : Disk) :
    storeEntry start name inum disk=
      .ok 0 {disk with bytes := putEntry disk.bytes start name inum} := by
  have hoffset : (start : ℤ)+48=((start+48 : ℕ) : ℤ) := by
    push_cast
    rfl
  rw [storeEntry,bind_of_ok (writeBytes_ok hname _ disk),hoffset,
    bind_of_ok (writeInt_ok (by omega) inum _)]
  rfl

/-- A stored entry lies inside the mapping. -/
theorem storeEntry_returned {start : ℕ} {name : List UInt8} {inum result : ℤ} {disk next : Disk}
    (hinum : start+52≤1048576) (h : storeEntry start name inum disk=.ok result next) :
    start+(name.length+1)≤1048576 ∧ result=0 ∧
      next={disk with bytes := putEntry disk.bytes start name inum} := by
  have hname : start+(name.length+1)≤1048576 := by
    obtain ⟨_,mid,hw,_⟩ := bind_eq_ok.mp h
    unfold writeBytes at hw
    split at hw
    · rename_i hc
      have hle := hc.2
      omega
    · cases hw
  rw [storeEntry_ok hname hinum] at h
  injection h with hz hn
  exact ⟨hname,hz.symm,hn.symm⟩

/-- `directory_put` after its growth, whatever the image: the reference is counted and
the entry stored in front of the new end. -/
theorem directoryPut_counted {mid : Disk} {d j p s : ℕ} (hd : d<64) (hj : j<64)
    (hp : ptrAt mid.bytes d 0=p) (hp256 : p<256) (hs : sizeAt mid.bytes d=((s+64 : ℕ) : ℤ))
    (name : List UInt8) :
    (getInode j >>= fun node => addRefs node 1 >>= fun _ => fillEntry (nodeOffset d) name j) mid=
      storeEntry ((4096*p+s : ℕ) : ℤ) name j
        {mid with bytes := putInt mid.bytes (4096+64*j+4) (refsAt mid.bytes j+1)} := by
  have hfirst : ptrAt (putInt mid.bytes (4096+64*j+4) (refsAt mid.bytes j+1)) d 0=p :=
    (intAt_putInt_apart _ _ (by omega)).trans hp
  have hlen : sizeAt (putInt mid.bytes (4096+64*j+4) (refsAt mid.bytes j+1)) d=((s+64 : ℕ) : ℤ) :=
    (intAt_putInt_apart _ _ (by omega)).trans hs
  have haddr : 4096*(p : ℤ)+((s+64 : ℕ) : ℤ)-64=((4096*p+s : ℕ) : ℤ) := by
    push_cast
    omega
  rw [bind_of_ok (getInode_ok hj mid),bind_of_ok (addRefs_ok hj 1 mid),fillEntry,
    bind_of_ok (readFirst_ok hd _),bind_of_ok (readSize_ok hd _)]
  dsimp only
  rw [hfirst,hlen,pagesGetPage_eq (by omega) (by omega),haddr]
  rfl

/-- `directory_put` after its growth counts the reference and stores the entry. -/
theorem directoryPut_filled {live : ℕ → Prop} {blocks : ℕ → ℕ} {memory grown : Bytes} {mid : Disk}
    {d j s m : ℕ} (h : Owned memory live blocks) (hd : live d) (hb : blocks d=(s+4095)/4096)
    (hg : Grown memory grown d ((s+4095)/4096) m) (hm : 0 < m)
    (hmid : mid.bytes=putInt grown (4096+64*d+12) (s+64 : ℕ)) (hsmall : s+64<2147483648)
    (hj : j<64) (name : List UInt8) :
    (getInode j >>= fun node => addRefs node 1 >>= fun _ => fillEntry (nodeOffset d) name j) mid=
      storeEntry ((4096*(ptrAt grown d 0).toNat+s : ℕ) : ℤ) name j
        {mid with bytes := prepared memory grown d j s} := by
  have hd64 := h.index d hd
  have hpage := Grown.first_block hg h hd hb hm
  have hrefs : refsAt mid.bytes j=refsAt memory j := by
    rw [hmid]
    exact ((Grown.table hg h hd hb).trans (tableKept_putSize grown d _)).field 4 hj (by omega)
  have hprep : putInt mid.bytes (4096+64*j+4) (refsAt mid.bytes j+1)=
      prepared memory grown d j s := by
    rw [hrefs,hmid,prepared]
  have hfirst : ptrAt mid.bytes d 0=((ptrAt grown d 0).toNat : ℤ) := by
    rw [hmid,ptrAt,intAt_putInt_apart _ _ (by omega),←ptrAt,Int.toNat_of_nonneg (by omega)]
  have hlen : sizeAt mid.bytes d=((s+64 : ℕ) : ℤ) := by
    rw [hmid,sizeAt,intAt_putInt,wrap32_of_range (by omega) (by omega)]
  rw [directoryPut_counted hd64 hj hfirst (by omega) hlen name,hprep]

/-- `directory_put` into a directory with room in its first block. -/
theorem directoryPut_delivers {live : ℕ → Prop} {blocks : ℕ → ℕ} {disk : Disk} {d j s : ℕ}
    {name : List UInt8} (h : Owned disk.bytes live blocks) (hd : live d)
    (hs : sizeAt disk.bytes d=s) (hb : blocks d=(s+4095)/4096) (hfit : s+64≤4096)
    (hname : name.length<64) (hj : j<64) :
    Delivers Disk.denied (directoryPut (nodeOffset d) name j) disk (fun result next => result=0 ∧
      ∃ grown, Grown disk.bytes grown d ((s+4095)/4096) 1 ∧
        next.bytes=entered disk.bytes grown d j s name) := by
  have hd64 := h.index d hd
  have hmax : max ((s+4095)/4096) ((s+64+4095)/4096)=1 := by omega
  refine Delivers.bind_ok (readSize_ok hd64 disk) rfl ?_
  have hsize : wrap32 (sizeAt disk.bytes d+64)=((s+64 : ℕ) : ℤ) := by
    rw [hs,wrap32_of_range (by omega) (by omega)]
    push_cast
    rfl
  rw [hsize]
  refine Delivers.bind (growInode_delivers h hd hs hb (by omega)) (growInode_rises _ _) (fun _ =>
    moves_bind ((getInode_readOnly _).rises _) (fun _ =>
      moves_bind (addRefs_rises _ _) (fun _ => fillEntry_rises _ _ _))) ?_
  rintro _ mid _ ⟨_,grown,hg,hmid⟩
  rw [hmax] at hg
  have hpage := Grown.first_page hg h hd hb
  refine Delivers.of_eq (directoryPut_filled h hd hb hg Nat.one_pos hmid (by omega) hj name) rfl ?_
  exact Delivers.of_ok (storeEntry_ok (by omega) (by omega) _ _) ⟨rfl,grown,hg,rfl⟩

/-- A returned `directory_put` had a table index as its inode number. -/
theorem directoryPut_index {dd inum result : ℤ} {name : List UInt8} {disk next : Disk}
    (hr : -2147483648 ≤ inum ∧ inum<2147483648)
    (h : directoryPut dd name inum disk=.ok result next) : ∃ j : ℕ, inum=j ∧ j<64 := by
  obtain ⟨size,d1,_,h⟩ := bind_eq_ok.mp h
  obtain ⟨grown,d2,_,h⟩ := bind_eq_ok.mp h
  obtain ⟨j,hj,hj64,_⟩ := located_returned hr h
  exact ⟨j,hj,hj64⟩

/-! ## Removal -/

/-- One reference less. -/
def dropRef (memory : Bytes) (j : ℕ) : Bytes := putInt memory (4096+64*j+4) (refsAt memory j+(-1))

/-- The mark cleared when the references are used up. -/
def freeIfUnused (memory : Bytes) (j : ℕ) : Bytes :=
  if refsAt memory j≤0 then putBit memory 32 (inumAt memory j).toNat false else memory

/-- The image after `directory_delete` has moved its last entry into the hole. -/
def edited (memory : Bytes) (d j s ii : ℕ) : Bytes :=
  let counted := freeIfUnused (dropRef memory j) j
  let start := 4096*(ptrAt memory d 0).toNat
  blit counted (start+64*ii) 64 (fun k => counted (start+64*(s/64-1)+k))

/-- The image after `directory_delete`. -/
def removed (memory : Bytes) (d j s ii : ℕ) : Bytes :=
  shrunk (edited memory d j s ii) d 1 ((s-64+4095)/4096) (s-64)

/-- Counting and freeing write the reference count and the inode bitmap. -/
theorem freeIfUnused_outside {memory : Bytes} {j : ℕ} (hq : inumAt memory j<64)
    {address : ℕ} (hr : address<4096+64*j+4 ∨ 4096+64*j+8≤address)
    (hb : address<32 ∨ 40≤address) : freeIfUnused (dropRef memory j) j address=memory address := by
  have hnum : inumAt (dropRef memory j) j=inumAt memory j := intAt_putInt_apart _ _ (by omega)
  have hdrop : dropRef memory j address=memory address := putInt_outside _ _ (by omega)
  unfold freeIfUnused
  split
  · rw [putBit_outside _ _ (by omega),hdrop]
  · exact hdrop

/-- Besides, the edit writes one entry of the directory's first block. -/
theorem edited_outside {memory : Bytes} {d j s ii : ℕ} (hq : inumAt memory j<64) (hii : ii<64)
    {address : ℕ} (hr : address<4096+64*j+4 ∨ 4096+64*j+8≤address)
    (hb : address<32 ∨ 40≤address) (hp : address/4096≠(ptrAt memory d 0).toNat) :
    edited memory d j s ii address=memory address := by
  rw [edited,blit_outside _ _ (by omega),freeIfUnused_outside hq hr hb]

/-- A shrink from one block reads the record's pointers only. -/
theorem Shrinkable.of_pointers {memory next : Bytes} {i m : ℕ} (h : Shrinkable memory i 1 m)
    (hp : ptrAt next i 1=ptrAt memory i 1) (hi : iptrAt next i=iptrAt memory i) :
    Shrinkable next i 1 m := by
  have hpnum : pnumAt next i 1=pnumAt memory i 1 := by
    rw [pnumAt,if_pos (by omega),hp,pnumAt,if_pos (by omega)]
  refine ⟨?_,?_,?_⟩
  · rw [hpnum,hi]
    exact h.last
  · intro k hm hk
    omega
  · rw [hi]
    exact h.indirect

section Remove

variable {disk : Disk} {d j s ii p : ℕ}

/-- `removeEntry` on a directory of one block. -/
theorem removeEntry_ok (hd : d<64) (hp : ptrAt disk.bytes d 0=p) (hp2 : 2≤p) (hp256 : p<256)
    (hs : sizeAt disk.bytes d=s) (h64 : 64 ≤ s) (h4096 : s≤4096) (hii : ii < s/64)
    (hj : intAt disk.bytes (4096*p+64*ii+48)=j) (hj64 : j<64)
    (hq : 0 ≤ inumAt disk.bytes j ∧ inumAt disk.bytes j<64)
    (hshrink : Shrinkable disk.bytes d 1 ((s-64+4095)/4096)) :
    removeEntry (nodeOffset d) ((4096*p : ℕ) : ℤ) ((s/64 : ℕ) : ℤ) ii disk=
      .ok 0 {disk with bytes := removed disk.bytes d j s ii} := by
  have hread : ((4096*p : ℕ) : ℤ)+64*(ii : ℤ)+48=((4096*p+64*ii+48 : ℕ) : ℤ) := by
    push_cast
    rfl
  have htarget : ((4096*p : ℕ) : ℤ)+64*(ii : ℤ)=((4096*p+64*ii : ℕ) : ℤ) := by
    push_cast
    rfl
  have hsource : ((4096*p : ℕ) : ℤ)+64*(((s/64 : ℕ) : ℤ)-1)=((4096*p+64*(s/64-1) : ℕ) : ℤ) := by
    push_cast
    omega
  have hptr : (ptrAt disk.bytes d 0).toNat=p := by
    rw [hp,Int.toNat_natCast]
  have hnum : inumAt (dropRef disk.bytes j) j=inumAt disk.bytes j := intAt_putInt_apart _ _ (by omega)
  have hfree : freeUnreferenced (nodeOffset j) {disk with bytes := dropRef disk.bytes j}=
      .ok () {disk with bytes := freeIfUnused (dropRef disk.bytes j) j} := by
    rw [freeUnreferenced,bind_of_ok (readRefs_ok hj64 _)]
    unfold freeIfUnused
    dsimp only
    by_cases hr : refsAt (dropRef disk.bytes j) j≤0
    · obtain ⟨q,hqn⟩ := Int.eq_ofNat_of_zero_le hq.1
      have hfield := readField_ok 0 hj64 (by omega) {disk with bytes := dropRef disk.bytes j}
      simp only [Nat.cast_zero,add_zero] at hfield
      have hvalue : intAt (dropRef disk.bytes j) (4096+64*j)=(q : ℤ) := hnum.trans hqn
      have hq64 : q<64 := by
        have hlt := hq.2
        rw [hqn] at hlt
        exact Int.ofNat_lt.mp hlt
      rw [if_pos hr,if_pos hr,freeInode,bind_of_ok hfield,hvalue,getInodeBitmap_eq,
        bitmapPut_ok (by omega),hnum,hqn,Int.toNat_natCast]
      simp only [ne_eq,not_true_eq_false,decide_false]
    · rw [if_neg hr,if_neg hr]
      rfl
  have hcopy : copyEntry ((4096*p+64*ii : ℕ) : ℤ) ((4096*p+64*(s/64-1) : ℕ) : ℤ)
      {disk with bytes := freeIfUnused (dropRef disk.bytes j) j}=
      .ok () {disk with bytes := edited disk.bytes d j s ii} := by
    rw [copyEntry,if_pos (by omega),writeBytes_ok (by omega),Int.toNat_natCast,edited,hptr]
  have hout : ∀ address, 4096≤address → address<8192 →
      (address<4096+64*j+4 ∨ 4096+64*j+8≤address) →
      edited disk.bytes d j s ii address=disk.bytes address := by
    intro address hl hr hrefs
    exact edited_outside hq.2 (by omega) hrefs (by omega) (by omega)
  have hsize : sizeAt (edited disk.bytes d j s ii) d=s := by
    rw [←hs]
    exact intAt_congr (fun address hl hr => hout address (by omega) (by omega) (by omega))
  have hfirst : ptrAt (edited disk.bytes d j s ii) d 1=ptrAt disk.bytes d 1 :=
    intAt_congr (fun address hl hr => hout address (by omega) (by omega) (by omega))
  have hind : iptrAt (edited disk.bytes d j s ii) d=iptrAt disk.bytes d :=
    intAt_congr (fun address hl hr => hout address (by omega) (by omega) (by omega))
  have hone : (s+4095)/4096=1 := by omega
  have hlast := shrinkInode_ok (s-64) hd {disk with bytes := edited disk.bytes d j s ii} hsize
    (by omega) (by omega) (by rw [hone]; exact Shrinkable.of_pointers hshrink hfirst hind)
  rw [hone] at hlast
  have hnew : wrap32 (sizeAt (edited disk.bytes d j s ii) d-64)=((s-64 : ℕ) : ℤ) := by
    rw [hsize,wrap32_of_range (by omega) (by omega)]
    omega
  rw [removeEntry,hread,bind_of_ok (readInt_ok (by omega) disk),hj,bind_of_ok (getInode_ok hj64 disk),
    bind_of_ok (addRefs_ok hj64 (-1) disk)]
  change (freeUnreferenced (nodeOffset j) >>= _) {disk with bytes := dropRef disk.bytes j}=_
  rw [bind_of_ok hfree,htarget,hsource,bind_of_ok hcopy,
    bind_of_ok (readSize_ok hd _)]
  dsimp only
  rw [hnew,bind_of_ok hlast]
  rfl

end Remove

/-- A scan returns an index inside its range. -/
theorem findEntry_bound {entries : ℤ} {name : List UInt8} (left : ℕ) :
    ∀ {ii found : ℤ} {disk next : Disk}, findEntry entries name left ii disk=.ok (some found) next →
      ii≤found ∧ found < ii+left := by
  induction left with
  | zero =>
    intro ii found disk next h
    cases (pure_eq_ok.mp h).1
  | succ left ih =>
    intro ii found disk next h
    obtain ⟨same,mid,_,h⟩ := bind_eq_ok.mp h
    by_cases hs : same=true
    · rw [if_pos hs] at h
      have he := (pure_eq_ok.mp h).1
      simp only [Option.some.injEq] at he
      omega
    · rw [if_neg hs] at h
      have hx := ih h
      omega

/-- The entry count of a size that is not negative. -/
theorem entryCount_natCast {s : ℕ} (h : s<2147483648) : entryCount s=((s/64 : ℕ) : ℤ) := by
  unfold entryCount
  rw [wrap32_of_range (by omega) (by omega)]
  omega

/-- A returned `directory_delete` on a directory of at most one block found
nothing, or removed one entry of the block. -/
theorem directoryDelete_returned {disk next : Disk} {live : ℕ → Prop} {blocks : ℕ → ℕ} {d s : ℕ}
    {name : List UInt8} {result : ℤ} (h : Owned disk.bytes live blocks) (hd : live d)
    (hs : sizeAt disk.bytes d=s) (hb : blocks d=(s+4095)/4096) (h4096 : s≤4096)
    (hq : ∀ j<64, 0 ≤ inumAt disk.bytes j ∧ inumAt disk.bytes j<64)
    (hshrink : 64 ≤ s → Shrinkable disk.bytes d 1 ((s-64+4095)/4096))
    (hr : directoryDelete (nodeOffset d) name disk=.ok result next) :
    next=disk ∨ ∃ ii j : ℕ, 64 ≤ s ∧ ii < s/64 ∧ j<64 ∧
      intAt disk.bytes (4096*(ptrAt disk.bytes d 0).toNat+64*ii+48)=j ∧
      next={disk with bytes := removed disk.bytes d j s ii} := by
  have hd64 := h.index d hd
  have hentries := directoryGetEntries_ok hd64 disk
  unfold directoryDelete at hr
  rw [bind_of_ok hentries,bind_of_ok (readSize_ok hd64 disk),hs,entryCount_natCast (by omega)] at hr
  obtain ⟨found,mid,hsearch,hrest⟩ := bind_eq_ok.mp hr
  have hmid := (searchDirectory_readOnly _ _).eq_of_ok hsearch
  rw [hmid] at hrest
  cases found with
  | none => exact .inl (pure_eq_ok.mp hrest).2
  | some index =>
    right
    unfold searchDirectory at hsearch
    rw [bind_of_ok hentries,bind_of_ok (readSize_ok hd64 disk),hs,entryCount_natCast (by omega),
      Int.toNat_natCast] at hsearch
    have hbound := findEntry_bound _ hsearch
    obtain ⟨ii,rfl⟩ := Int.eq_ofNat_of_zero_le hbound.1
    have hii : ii < s/64 := by omega
    have hpage := h.range d hd (.block 0) (by simp only [Slot.Used]; omega)
    have hpnum : pnumAt disk.bytes d 0=ptrAt disk.bytes d 0 := by
      rw [pnumAt,if_pos (by omega)]
    simp only [Slot.page,hpnum] at hpage
    obtain ⟨p,hp⟩ := Int.eq_ofNat_of_zero_le (show 0≤ptrAt disk.bytes d 0 by omega)
    have haddr : pagesGetPage (ptrAt disk.bytes d 0)=((4096*p : ℕ) : ℤ) := by
      rw [pagesGetPage_eq (by omega) (by omega),hp]
      push_cast
      rfl
    rw [haddr] at hrest
    have hfield : ∃ j : ℕ, j<64 ∧ intAt disk.bytes (4096*p+64*ii+48)=j := by
      obtain ⟨inum,d1,hread,hnode⟩ := bind_eq_ok.mp hrest
      have hoffset : ((4096*p : ℕ) : ℤ)+64*(ii : ℤ)+48=((4096*p+64*ii+48 : ℕ) : ℤ) := by
        push_cast
        rfl
      rw [hoffset,readInt_ok (by omega)] at hread
      cases hread
      obtain ⟨j,hj,hj64,_⟩ := located_returned (intAt_range _ _) hnode
      exact ⟨j,hj64,hj⟩
    obtain ⟨j,hj64,hj⟩ := hfield
    have hok := removeEntry_ok hd64 hp (by omega) (by omega) hs (by omega) h4096 hii hj hj64
      (hq j hj64) (hshrink (by omega))
    injection hok.symm.trans hrest with _ hnext
    rw [hp,Int.toNat_natCast]
    exact ⟨ii,j,by omega,hii,hj64,hj,hnext.symm⟩

/-! ## Frames -/

section Frames

variable {memory grown : Bytes} {live : ℕ → Prop} {blocks : ℕ → ℕ} {d j s ii : ℕ}

/-- After growing, an insertion writes the size, one reference count and one
entry. -/
theorem entered_outside {name : List UInt8} (hname : name.length<64) {address : ℕ}
    (hs : address<4096+64*d+12 ∨ 4096+64*d+16≤address)
    (hr : address<4096+64*j+4 ∨ 4096+64*j+8≤address)
    (he : address<4096*(ptrAt grown d 0).toNat+s ∨ 4096*(ptrAt grown d 0).toNat+s+64≤address) :
    entered memory grown d j s name address=grown address := by
  rw [entered,putEntry_outside _ hname _ he,prepared,putInt_outside _ _ hr,putInt_outside _ _ hs]

/-- In the bitmap and the headers an insertion changes the size of the
directory and one reference count. -/
theorem entered_header (h : Owned memory live blocks) (hd : live d)
    (hb : blocks d=(s+4095)/4096) (hg : Grown memory grown d ((s+4095)/4096) 1)
    {name : List UInt8} (hname : name.length<64) {address : ℕ} (ha : Header d address)
    (hr : address<4096+64*j+4 ∨ 4096+64*j+8≤address) :
    entered memory grown d j s name address=memory address := by
  have hpage := Grown.first_page hg h hd hb
  have hrange := ha.range
  rw [←Grown.table hg h hd hb address ha]
  refine entered_outside hname ?_ hr (by omega)
  rcases ha with ha|⟨l,hl,hlow,hhigh,hne⟩
  · omega
  · by_contra hc
    have hld : l=d := by omega
    exact hne ⟨hld,by omega⟩

/-- The size of the directory after an insertion. -/
theorem entered_size (h : Owned memory live blocks) (hd : live d) (hfit : s+64≤4096)
    (hb : blocks d=(s+4095)/4096) (hg : Grown memory grown d ((s+4095)/4096) 1)
    {name : List UInt8} (hname : name.length<64) :
    sizeAt (entered memory grown d j s name) d=((s+64 : ℕ) : ℤ) := by
  have hpage := Grown.first_page hg h hd hb
  have hd64 := h.index d hd
  have hkeep : sizeAt (entered memory grown d j s name) d=
      sizeAt (prepared memory grown d j s) d :=
    intAt_congr (fun address hl hr => putEntry_outside _ hname _ (by omega))
  rw [hkeep,prepared,sizeAt,intAt_putInt_apart _ _ (by omega),intAt_putInt,
    wrap32_of_range (by omega) (by omega)]

/-- After growing, an insertion keeps the guarded bytes. -/
theorem entered_agree (h : Owned memory live blocks) (hd : live d) (hj : j<64) (hfit : s+64≤4096)
    (hb : blocks d=(s+4095)/4096) (hg : Grown memory grown d ((s+4095)/4096) 1)
    {name : List UInt8} (hname : name.length<64) :
    ∀ address, Guarded grown live (Function.update blocks d 1) address →
      entered memory grown d j s name address=grown address := by
  have ho := owned_grow h hd hb hg
  have hd64 := h.index d hd
  have hrange := Grown.first_page hg h hd hb
  have hpnum : pnumAt grown d 0=ptrAt grown d 0 := by
    rw [pnumAt,if_pos (by omega)]
  intro address hguard
  refine entered_outside hname ?_ ?_ ?_
  · by_contra hc
    exact ho.header_not_guarded hd64 (by omega) (by omega) hguard
  · by_contra hc
    exact ho.header_not_guarded hj (by omega) (by omega) hguard
  · by_contra hc
    refine ho.block_not_guarded (k:=0) hd (by rw [Function.update_self]; exact Nat.one_pos) ?_ hguard
    rw [hpnum]
    omega

/-- An insertion keeps the ownership invariant. -/
theorem owned_entered (h : Owned memory live blocks) (hd : live d) (hj : j<64) (hfit : s+64≤4096)
    (hb : blocks d=(s+4095)/4096) (hg : Grown memory grown d ((s+4095)/4096) 1)
    {name : List UInt8} (hname : name.length<64) :
    Owned (entered memory grown d j s name) live (Function.update blocks d 1) :=
  (owned_grow h hd hb hg).of_agree (entered_agree h hd hj hfit hb hg hname)

/-- An insertion keeps the pages of every slot, the new one included. -/
theorem entered_slot (h : Owned memory live blocks) (hd : live d) (hj : j<64) (hfit : s+64≤4096)
    (hb : blocks d=(s+4095)/4096) (hg : Grown memory grown d ((s+4095)/4096) 1)
    {name : List UInt8} (hname : name.length<64) {l : ℕ} (hl : live l) {slot : Slot}
    (hu : slot.Used (Function.update blocks d 1 l)) :
    slot.page (entered memory grown d j s name) l=slot.page grown l :=
  (owned_grow h hd hb hg).page_of_agree (entered_agree h hd hj hfit hb hg hname) hl hu

/-- The edit of a removal keeps the guarded bytes. -/
theorem edited_agree (h : Owned memory live blocks) (hd : live d) (hb : 0<blocks d) (hj : j<64)
    (hq : inumAt memory j<64) (hii : ii<64) :
    ∀ address, Guarded memory live blocks address → edited memory d j s ii address=memory address := by
  intro address hg
  have hrange := h.range d hd (.block 0) hb
  have hpnum : pnumAt memory d 0=ptrAt memory d 0 := by
    rw [pnumAt,if_pos (by omega)]
  simp only [Slot.page,hpnum] at hrange
  refine edited_outside hq hii ?_ ?_ ?_
  · by_contra hc
    exact h.header_not_guarded hj (by omega) (by omega) hg
  · by_contra hc
    exact h.inodeBitmap_not_guarded (by omega) (by omega) hg
  · intro hp
    refine h.block_not_guarded (k:=0) hd hb ?_ hg
    rw [hpnum]
    omega

/-- Harmlessness depends on the guarded bytes only. -/
theorem Harmless.of_agree {next : Bytes} {fewer : ℕ → ℕ} (h : Owned memory live blocks)
    (ha : ∀ address, Guarded memory live blocks address → next address=memory address)
    (hf : ∀ l, live l → fewer l≤blocks l) {page : ℤ} (hp : Harmless memory live fewer page) :
    Harmless next live fewer page := by
  refine ⟨hp.1,hp.2.1,hp.2.2.1,?_⟩
  intro l hl slot hu
  rw [h.page_of_agree ha hl (hu.mono (hf l hl))]
  exact hp.2.2.2 l hl slot hu

/-- A safe shrink from one block stays safe when the guarded bytes are kept. -/
theorem ShrinkSafe.of_agree {next : Bytes} {m : ℕ} (h : Owned memory live blocks) (hd : live d)
    (hb : blocks d=1) (hm : m≤1)
    (ha : ∀ address, Guarded memory live blocks address → next address=memory address)
    (hs : ShrinkSafe memory live blocks d m) : ShrinkSafe next live blocks d m := by
  have hrecord : ∀ address, 4096+64*d+16≤address → address<4096+64*d+28 →
      next address=memory address := fun address hl hr => ha address (.inr (.inl ⟨d,hd,hl,hr⟩))
  have hpnum : pnumAt next d (blocks d)=pnumAt memory d (blocks d) := by
    rw [hb,pnumAt,if_pos (by omega),pnumAt,if_pos (by omega)]
    exact intAt_congr (fun address hl hr => hrecord address (by omega) (by omega))
  have hind : iptrAt next d=iptrAt memory d :=
    intAt_congr (fun address hl hr => hrecord address (by omega) (by omega))
  have hfewer : ∀ l, live l → Function.update blocks d m l≤blocks l := by
    intro l _
    by_cases hl : l=d
    · subst hl
      rw [Function.update_self]
      omega
    · rw [Function.update_of_ne hl]
  unfold ShrinkSafe
  rw [hpnum,hind]
  exact ⟨fun hm' => Harmless.of_agree h ha hfewer (hs.1 hm'),
    fun hm' hb' => Harmless.of_agree h ha hfewer (hs.2 hm' hb')⟩

/-- A removal that shrinks safely keeps the ownership invariant. -/
theorem owned_removed (h : Owned memory live blocks) (hd : live d) (hb : blocks d=1) (hj : j<64)
    (hq : inumAt memory j<64) (hii : ii<64) (hs4096 : s≤4096)
    (hs : ShrinkSafe memory live blocks d ((s-64+4095)/4096)) :
    Owned (removed memory d j s ii) live (Function.update blocks d ((s-64+4095)/4096)) := by
  have ha := edited_agree (s:=s) h hd (by omega) hj hq hii
  have hsafe := ShrinkSafe.of_agree h hd hb (by omega) ha hs
  have ho := owned_shrink (h.of_agree ha) hd (by omega) hsafe (s-64)
  rw [hb] at ho
  exact ho

/-- The edit keeps the pointers of the directory. -/
theorem edited_pointer (hq : inumAt memory j<64) (hii : ii<64) (hp2 : 2≤ptrAt memory d 0)
    (hd : d<64) {start : ℕ} (hlow : 4096+64*d+16 ≤ start) (hhigh : start+4≤4096+64*d+28) :
    intAt (edited memory d j s ii) start=intAt memory start := by
  refine intAt_congr (fun address hl hr => edited_outside hq hii ?_ (by omega) (by omega))
  omega

/-- After the edit the directory still shrinks. -/
theorem Shrinkable.edited (hq : inumAt memory j<64) (hii : ii<64) (hp2 : 2≤ptrAt memory d 0)
    (hd : d<64) {m : ℕ} (hshrink : Shrinkable memory d 1 m) :
    Shrinkable (edited memory d j s ii) d 1 m :=
  Shrinkable.of_pointers hshrink (edited_pointer hq hii hp2 hd (by omega) (by omega))
    (edited_pointer hq hii hp2 hd (by omega) (by omega))

/-- A shrink from one block frees the same pages after the edit. -/
theorem freedPages_edited (hq : inumAt memory j<64) (hii : ii<64) (hp2 : 2≤ptrAt memory d 0)
    (hd : d<64) (m : ℕ) :
    freedPages (edited memory d j s ii) d 1 m=freedPages memory d 1 m := by
  refine freedPages_congr (fun k _ hk => ?_) (edited_pointer hq hii hp2 hd (by omega) (by omega))
  rw [pnumAt,if_pos (by omega),pnumAt,if_pos (by omega)]
  exact edited_pointer hq hii hp2 hd (by omega) (by omega)

/-- The marks after a removal. -/
theorem pageBit_removed (hq : inumAt memory j<64) (hii : ii<64) (hp2 : 2≤ptrAt memory d 0)
    (hp256 : ptrAt memory d 0<256) (hd : d<64) {page : ℕ} (hp : page<256) :
    pageBit (removed memory d j s ii) page=
      (pageBit memory page && !decide (page∈freedPages memory d 1 ((s-64+4095)/4096))) := by
  have hlow : pageBit (edited memory d j s ii) page=pageBit memory page :=
    pageBit_congr (fun address ha => edited_outside hq hii (by omega) (by omega) (by omega)) hp
  rw [removed,pageBit_shrunk _ _ _ _ _ hp,hlow,freedPages_edited hq hii hp2 hd]

/-- A removal writes the marks, the inode bitmap, the size of the directory,
one reference count and the directory's first block. -/
theorem removed_outside (hq : inumAt memory j<64) (hii : ii<64)
    (hshrink : Shrinkable memory d 1 ((s-64+4095)/4096)) (hd : d<64) (hp2 : 2≤ptrAt memory d 0)
    {address : ℕ} (hl : 40≤address) (hs : address<4096+64*d+12 ∨ 4096+64*d+16≤address)
    (hr : address<4096+64*j+4 ∨ 4096+64*j+8≤address)
    (hp : address/4096≠(ptrAt memory d 0).toNat) :
    removed memory d j s ii address=memory address := by
  rw [removed,shrunk_outside (Shrinkable.edited hq hii hp2 hd hshrink) _
    (by omega) hs,edited_outside hq hii hr (by omega) hp]

/-- The size of the directory after a removal. -/
theorem removed_size (memory : Bytes) (d j ii : ℕ) (h4096 : s≤4096) :
    sizeAt (removed memory d j s ii) d=((s-64 : ℕ) : ℤ) := by
  rw [removed,shrunk,sizeAt,intAt_putInt,wrap32_of_range (by omega) (by omega)]

/-- The inode bitmap after a removal: the inode numbered in the record loses
its mark when no reference is left. -/
theorem removed_bit (hq : 0 ≤ inumAt memory j ∧ inumAt memory j<64) (hii : ii<64) (hd : d<64)
    (hshrink : Shrinkable memory d 1 ((s-64+4095)/4096)) (hp2 : 2≤ptrAt memory d 0)
    {l : ℕ} (hl : l<64) :
    inodeBit (removed memory d j s ii) l=
      if refsAt (dropRef memory j) j≤0 ∧ inumAt memory j=l then false else inodeBit memory l := by
  have hbyte : inodeBit (removed memory d j s ii) l=
      inodeBit (freeIfUnused (dropRef memory j) j) l := by
    refine bitAt_congr ?_
    rw [removed,shrunk_outside (Shrinkable.edited hq.2 hii hp2 hd hshrink) _
      (by omega) (by omega),edited,blit_outside _ _ (by omega)]
  have hnum : inumAt (dropRef memory j) j=inumAt memory j := intAt_putInt_apart _ _ (by omega)
  have hdrop : inodeBit (dropRef memory j) l=inodeBit memory l :=
    bitAt_congr (putInt_outside _ _ (by omega))
  rw [hbyte,freeIfUnused,hnum]
  by_cases hr : refsAt (dropRef memory j) j≤0
  · rw [if_pos hr]
    by_cases he : inumAt memory j=l
    · rw [if_pos ⟨hr,he⟩,he,Int.toNat_natCast]
      exact bitAt_putBit _ _ _ _
    · rw [if_neg (fun hc => he hc.2)]
      exact (bitAt_putBit_other _ _ (by omega)).trans hdrop
  · rw [if_neg hr,if_neg (fun hc => hr hc.1)]
    exact hdrop

end Frames

end ComputerSystems.NufsEntry
