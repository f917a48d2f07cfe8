import ComputerSystems.NufsEntry

/-!
# Steps that keep an image sound

Each building block of the storage calls, creating an inode, inserting and
removing an entry, resizing and filling, takes a sound image to a sound image
as long as a shrink frees nothing in use.
-/

namespace ComputerSystems.NufsSound

open StateProgram ByteMemory NufsImage NufsInode NufsDirectory NufsStorage NufsCalls NufsOwnership
  NufsResize NufsFrame NufsEntry

/-! ## Creating an inode -/

/-- The image after `storage_mknod` has set up a new inode. -/
def created (memory : Bytes) (i : ℕ) (mode : ℤ) : Bytes :=
  putInt (putInt (withInode memory i) (4096+64*i+8) mode) (4096+64*i+4) 1

/-- The creating branch of `storage_mknod` inserts the least free inode, or
fails an assertion when there is none. -/
theorem createNode_eq (dd : ℤ) (file : List UInt8) (mode : ℤ) (disk : Disk) :
    (∃ i, i<64 ∧ inodeBit disk.bytes i=false ∧
      (∀ earlier, earlier < i → inodeBit disk.bytes earlier=true) ∧
      createNode dd file mode disk=
        directoryPut dd file i {disk with bytes := created disk.bytes i mode}) ∨
    ((∀ i<64, inodeBit disk.bytes i=true) ∧
      createNode dd file mode disk=.error .abort {disk with denied := disk.denied+1}) := by
  rcases allocInode_spec disk with ⟨i,hi,hf,he,ha⟩|⟨hall,ha⟩
  · left
    refine ⟨i,hi,hf,he,?_⟩
    have hmode := writeField_ok 8 hi (by omega) mode
      {disk with bytes := withInode disk.bytes i}
    have hrefs := writeRefs_ok hi 1
      {disk with bytes := putInt (withInode disk.bytes i) (4096+64*i+8) mode}
    rw [createNode,bind_of_ok ha,bind_of_ok (getInode_ok hi _)]
    exact (bind_of_ok hmode).trans ((bind_of_ok (getInode_ok hi _)).trans (bind_of_ok hrefs))
  · right
    refine ⟨hall,?_⟩
    rw [createNode,bind_of_ok ha]
    rfl

section Created

variable {memory : Bytes} {i : ℕ} (mode : ℤ)

/-- Creating an inode writes its mark and its header. -/
theorem created_outside (memory : Bytes) (hi : i<64) {address : ℕ} (hb : address<32 ∨ 40≤address)
    (hr : address<4096+64*i ∨ 4096+64*i+16≤address) :
    created memory i mode address=memory address := by
  rw [created,putInt_outside _ _ (by omega),putInt_outside _ _ (by omega),withInode,
    putInt_outside _ _ (by omega),putInt_outside _ _ (by omega),putBit_outside _ _ (by omega)]

/-- A new inode is marked; the other marks stay. -/
theorem created_bit (memory : Bytes) {l : ℕ} (hl : l<64) :
    inodeBit (created memory i mode) l=if l=i then true else inodeBit memory l := by
  have hput : inodeBit (created memory i mode) l=inodeBit (putBit memory 32 i true) l := by
    refine bitAt_congr ?_
    rw [created,putInt_outside _ _ (by omega),putInt_outside _ _ (by omega),withInode,
      putInt_outside _ _ (by omega),putInt_outside _ _ (by omega)]
  rw [hput]
  split
  · rename_i he
    rw [he]
    exact bitAt_putBit _ _ _ _
  · exact bitAt_putBit_other _ _ (by omega)

/-- The header of a new inode: its number, one reference, the mode, size 0. -/
theorem created_fields (memory : Bytes) (hi : i<64) :
    inumAt (created memory i mode) i=i ∧ refsAt (created memory i mode) i=1 ∧
      modeAt (created memory i mode) i=wrap32 mode ∧ sizeAt (created memory i mode) i=0 := by
  refine ⟨?_,?_,?_,?_⟩
  · rw [created,inumAt,intAt_putInt_apart _ _ (by omega),intAt_putInt_apart _ _ (by omega),withInode,
      intAt_putInt_apart _ _ (by omega),intAt_putInt,wrap32_of_range (by omega) (by omega)]
  · rw [created,refsAt,intAt_putInt]
    decide +kernel
  · rw [created,modeAt,intAt_putInt_apart _ _ (by omega),intAt_putInt]
  · rw [created,sizeAt,intAt_putInt_apart _ _ (by omega),intAt_putInt_apart _ _ (by omega),withInode,
      intAt_putInt]
    decide +kernel

/-- The headers of the other inodes are kept. -/
theorem created_field_other (memory : Bytes) (hi : i<64) (field : ℕ) {l : ℕ} (hne : l≠i)
    (hf : field+4≤64) :
    intAt (created memory i mode) (4096+64*l+field)=intAt memory (4096+64*l+field) :=
  intAt_congr (fun _ hl hr => created_outside mode memory hi (by omega) (by omega))

/-- Creating an inode keeps the bytes that ownership depends on. -/
theorem created_agree {live : ℕ → Prop} {blocks : ℕ → ℕ} (h : Owned memory live blocks)
    (hi : i<64) : ∀ address, Guarded memory live blocks address →
      created memory i mode address=memory address := by
  intro address hg
  refine created_outside mode memory hi ?_ ?_
  · by_contra hc
    exact h.inodeBitmap_not_guarded (by omega) (by omega) hg
  · by_contra hc
    exact h.header_not_guarded hi (by omega) (by omega) hg

/-- Creating an inode keeps an image sound. -/
theorem sound_created (h : Sound memory) (hi : i<64) (hf : inodeBit memory i=false) :
    Sound (created memory i mode) := by
  have hsize : ∀ l, l≠i → sizeAt (created memory i mode) l=sizeAt memory l := fun l hne =>
    created_field_other mode memory hi 12 hne (by omega)
  have hold : ∀ l, Live (created memory i mode) l → l≠i → Live memory l := by
    rintro l ⟨hl,hb⟩ hne
    rw [created_bit mode memory hl,if_neg hne] at hb
    exact ⟨hl,hb⟩
  have hnot : ¬Live memory i := by
    rintro ⟨_,hb⟩
    rw [hf] at hb
    cases hb
  have howned : Owned (created memory i mode) (Live memory) (blocksAt memory) :=
    h.owned.of_agree (created_agree mode h.owned hi)
  refine ⟨howned.restrict ?_ ?_,?_,?_⟩
  · intro l hl
    by_cases he : l=i
    · right
      rw [he]
      exact ⟨hi,blocksAt_zero (created_fields mode memory hi).2.2.2⟩
    · exact .inl (hold l hl he)
  · intro l _ hlive
    have hne : l≠i := fun he => hnot (he ▸ hlive)
    rw [blocksAt,hsize l hne,blocksAt]
  · intro l hl
    by_cases he : l=i
    · rw [he,(created_fields mode memory hi).2.2.2]
    · rw [hsize l he]
      exact h.size l (hold l hl he)
  · intro l hl
    by_cases he : l=i
    · rw [he,(created_fields mode memory hi).1]
      omega
    · have hkeep : inumAt (created memory i mode) l=inumAt memory l :=
        created_field_other mode memory hi 0 he (by omega)
      rw [hkeep]
      exact h.number l hl

end Created

/-! ## Resizing and filling -/

section Resize

variable {memory next : Bytes} {i : ℕ}

/-- A step that changes at most the size in the table, and that owns the pages
for the new size, keeps ownership. -/
theorem owned_of_table {size : ℕ} (ht : TableKept memory next i) (hs : sizeAt next i=size)
    (ho : Owned next (Live memory) (Function.update (blocksAt memory) i ((size+4095)/4096))) :
    Owned next (Live next) (blocksAt next) := by
  refine ho.restrict (fun l hl => .inl (ht.live.mp hl)) (fun l hl _ => ?_)
  by_cases he : l=i
  · rw [he,Function.update_self,blocksAt_of_size hs]
  · rw [Function.update_of_ne he,blocksAt,ht.size hl.1 he,blocksAt]

/-- Such a step keeps an image sound. -/
theorem sound_of_table (h : Sound memory) {size : ℕ} (ht : TableKept memory next i)
    (hs : sizeAt next i=size)
    (ho : Owned next (Live memory) (Function.update (blocksAt memory) i ((size+4095)/4096))) :
    Sound next := by
  refine ⟨owned_of_table ht hs ho,?_,?_⟩
  · intro l hl
    by_cases he : l=i
    · rw [he,hs]
      omega
    · rw [ht.size hl.1 he]
      exact h.size l (ht.live.mp hl)
  · intro l hl
    rw [ht.inum hl]
    exact h.number l hl

/-- Growing keeps an image sound. -/
theorem sound_grown (h : Sound memory) (hi : Live memory i) {old size : ℕ}
    (hs : sizeAt memory i=old) (hle : old ≤ size) (hlt : size<2147483648) {grown : Bytes}
    (hg : Grown memory grown i ((old+4095)/4096) (max ((old+4095)/4096) ((size+4095)/4096))) :
    Sound (putInt grown (4096+64*i+12) size) := by
  have hb := blocksAt_of_size hs
  have ho := owned_grow h.owned hi hb hg
  rw [show max ((old+4095)/4096) ((size+4095)/4096)=(size+4095)/4096 by omega] at ho
  refine sound_of_table h ((Grown.table hg h.owned hi hb).trans (tableKept_putSize grown i size)) ?_
    (owned_putHeader 12 ho hi.1 (by omega) size)
  rw [sizeAt,intAt_putInt,wrap32_of_range (by omega) (by omega)]

/-- Growing and storing a size keep the table and the contents of every live
inode. -/
theorem kept_grow (h : Owned memory (Live memory) (blocksAt memory)) (hi : Live memory i) {n m : ℕ}
    (hn : blocksAt memory i=n) (hnm : n ≤ m) {grown : Bytes} (hg : Grown memory grown i n m)
    (size : ℤ) : TableKept memory (putInt grown (4096+64*i+12) size) i ∧
      ∀ j, Live memory j → Kept memory (putInt grown (4096+64*i+12) size) j (blocksAt memory j) := by
  refine ⟨(Grown.table hg h hi hn).trans (tableKept_putSize grown i size),fun j hj => ?_⟩
  have hkept := Grown.kept hg h hi hn hj
  have ho := owned_grow h hi hn hg
  refine hkept.trans ((kept_putHeader 12 ho hi.1 (by omega) size hj).mono ?_)
  by_cases he : j=i
  · rw [he,Function.update_self,hn]
    exact hnm
  · rw [Function.update_of_ne he]

/-- Growing keeps the table and the contents of every live inode. -/
theorem kept_grown (h : Sound memory) (hi : Live memory i) {old size : ℕ}
    (hs : sizeAt memory i=old) {grown : Bytes}
    (hg : Grown memory grown i ((old+4095)/4096) (max ((old+4095)/4096) ((size+4095)/4096))) :
    TableKept memory (putInt grown (4096+64*i+12) size) i ∧
      ∀ j, Live memory j → Kept memory (putInt grown (4096+64*i+12) size) j (blocksAt memory j) :=
  kept_grow h.owned hi (blocksAt_of_size hs) (le_max_left _ _) hg size

/-- Shrinking safely keeps an image sound. -/
theorem sound_shrunk (h : Sound memory) (hi : Live memory i) {old size : ℕ}
    (hs : sizeAt memory i=old) (hle : size≤old) (hlt : old<2147483648)
    (hsafe : ShrinkSafe memory (Live memory) (blocksAt memory) i ((size+4095)/4096)) :
    Sound (shrunk memory i (blocksAt memory i) ((size+4095)/4096) size) := by
  have hb := blocksAt_of_size hs
  refine sound_of_table h (tableKept_shrunk (shrinkable_of_safe h.owned hi hsafe) size) ?_
    (owned_shrink h.owned hi (by omega) hsafe size)
  rw [shrunk,sizeAt,intAt_putInt,wrap32_of_range (by omega) (by omega)]

/-- Filling keeps an image sound. -/
theorem sound_filled (h : Sound memory) (hi : Live memory i)
    (hf : Filled memory next i (blocksAt memory i)) : Sound next := by
  obtain ⟨s,hs,hb⟩ := h.size_natCast hi
  have ht := hf.table h.owned hi
  have hsize : sizeAt next i=s := by
    rw [←hs]
    refine intAt_congr (fun address hl hr => hf address (fun k hk hp => ?_))
    have hrange := h.owned.range i hi (.block k) hk
    have hi64 := hi.1
    simp only [Slot.page] at hrange
    omega
  refine sound_of_table h ht hsize ?_
  rw [←hb,Function.update_eq_self]
  exact hf.owned h.owned hi

/-- Sizes are apart from reference counts. -/
theorem size_putRefs (memory : Bytes) (i l : ℕ) (value : ℤ) :
    sizeAt (putInt memory (4096+64*i+4) value) l=sizeAt memory l :=
  intAt_putInt_apart _ _ (by omega)

/-- Liveness is apart from reference counts. -/
theorem live_putRefs (memory : Bytes) (i l : ℕ) (value : ℤ) :
    Live (putInt memory (4096+64*i+4) value) l ↔ Live memory l := by
  unfold Live
  refine and_congr_right (fun hl => ?_)
  rw [show inodeBit (putInt memory (4096+64*i+4) value) l=inodeBit memory l from
    bitAt_congr (putInt_outside _ _ (by omega))]

/-- Rewriting a reference count keeps an image sound. -/
theorem sound_refs (h : Sound memory) (hi : i<64) (value : ℤ) :
    Sound (putInt memory (4096+64*i+4) value) := by
  have hlive : ∀ l, Live (putInt memory (4096+64*i+4) value) l → Live memory l :=
    fun l => (live_putRefs memory i l value).mp
  have hsize := fun l => size_putRefs memory i l value
  have hnum : ∀ l, inumAt (putInt memory (4096+64*i+4) value) l=inumAt memory l :=
    fun l => intAt_putInt_apart _ _ (by omega)
  refine ⟨(owned_putHeader 4 h.owned hi (by omega) value).restrict
    (fun l hl => .inl (hlive l hl)) (fun l _ _ => ?_),?_,?_⟩
  · rw [blocksAt,hsize l,blocksAt]
  · intro l hl
    rw [hsize l]
    exact h.size l (hlive l hl)
  · intro l hl
    rw [hnum l]
    exact h.number l hl

end Resize

/-! ## Entries -/

section Entry

variable {memory grown : Bytes} {d j s ii : ℕ}

/-- Inserting an entry keeps an image sound. -/
theorem sound_entered (h : Sound memory) (hd : Live memory d) (hs : sizeAt memory d=s)
    (hfit : s+64≤4096) (hj : j<64) (hg : Grown memory grown d ((s+4095)/4096) 1)
    {name : List UInt8} (hname : name.length<64) : Sound (entered memory grown d j s name) := by
  have hb := blocksAt_of_size hs
  have hsize := entered_size (j:=j) h.owned hd hfit hb hg hname
  have hheader : ∀ address, Header d address → (address<4096+64*j+4 ∨ 4096+64*j+8≤address) →
      entered memory grown d j s name address=memory address :=
    fun address ha hr => entered_header h.owned hd hb hg hname ha hr
  have hlive : ∀ l, Live (entered memory grown d j s name) l → Live memory l := by
    rintro l ⟨hl,hbit⟩
    refine ⟨hl,?_⟩
    rw [←hbit]
    exact (bitAt_congr (hheader _ (.inl (by omega)) (by omega))).symm
  have hother : ∀ l, l<64 → l≠d → sizeAt (entered memory grown d j s name) l=sizeAt memory l :=
    fun l hl hne => intAt_congr (fun address hlow hhigh =>
      hheader address (.inr ⟨l,hl,by omega,by omega,fun hc => hne hc.1⟩) (by omega))
  refine ⟨(owned_entered h.owned hd hj hfit hb hg hname).restrict (fun l hl => .inl (hlive l hl))
    (fun l hl _ => ?_),?_,?_⟩
  · by_cases he : l=d
    · rw [he,Function.update_self,blocksAt_of_size hsize]
      omega
    · rw [Function.update_of_ne he,blocksAt,hother l hl.1 he,blocksAt]
  · intro l hl
    by_cases he : l=d
    · rw [he,hsize]
      omega
    · rw [hother l hl.1 he]
      exact h.size l (hlive l hl)
  · intro l hl
    have hnum : inumAt (entered memory grown d j s name) l=inumAt memory l :=
      intAt_congr (fun address hlow hhigh =>
        hheader address (.inr ⟨l,hl,by omega,by omega,by omega⟩) (by omega))
    rw [hnum]
    exact h.number l hl

/-- The marks of inodes after a removal were there before. -/
theorem live_of_removed (h : Sound memory) (hd : Live memory d) (hj : j<64) (hii : ii<64)
    (hb : blocksAt memory d=1) (hshrink : Shrinkable memory d 1 ((s-64+4095)/4096)) {l : ℕ}
    (hl : Live (removed memory d j s ii) l) : Live memory l := by
  obtain ⟨hl64,hbit⟩ := hl
  have hp := h.owned.range d hd (.block 0) (by rw [hb]; exact Nat.one_pos)
  rw [Slot.page,pnumAt,if_pos (by omega)] at hp
  rw [removed_bit (h.number j hj) hii hd.1 hshrink hp.1 hl64] at hbit
  split at hbit
  · cases hbit
  · exact ⟨hl64,hbit⟩

/-- Removing an entry keeps an image sound when the shrink is safe. -/
theorem sound_removed (h : Sound memory) (hd : Live memory d) (hs : sizeAt memory d=s)
    (h64 : 64 ≤ s) (h4096 : s≤4096) (hj : j<64) (hii : ii<64)
    (hsafe : ShrinkSafe memory (Live memory) (blocksAt memory) d ((s-64+4095)/4096)) :
    Sound (removed memory d j s ii) := by
  have hb : blocksAt memory d=1 := by
    rw [blocksAt_of_size hs]
    omega
  have hshrink := shrinkable_of_safe h.owned hd hsafe
  rw [hb] at hshrink
  have hp := h.owned.range d hd (.block 0) (by rw [hb]; exact Nat.one_pos)
  rw [Slot.page,pnumAt,if_pos (by omega)] at hp
  have hlive : ∀ l, Live (removed memory d j s ii) l → Live memory l :=
    fun l hl => live_of_removed h hd hj hii hb hshrink hl
  have hout : ∀ address, 4096≤address → address<8192 →
      (address<4096+64*d+12 ∨ 4096+64*d+16≤address) →
      (address<4096+64*j+4 ∨ 4096+64*j+8≤address) →
      removed memory d j s ii address=memory address :=
    fun address hl hr hsz hrefs => removed_outside (h.number j hj).2 hii hshrink hd.1 hp.1
      (by omega) hsz hrefs (by omega)
  have hsize := removed_size memory d j ii h4096
  have hother : ∀ l, l<64 → l≠d → sizeAt (removed memory d j s ii) l=sizeAt memory l :=
    fun l hl hne => intAt_congr (fun address hlow hhigh =>
      hout address (by omega) (by omega) (by omega) (by omega))
  have howned := owned_removed h.owned hd hb hj (h.number j hj).2 hii h4096 hsafe
  refine ⟨howned.restrict (fun l hl => .inl (hlive l hl)) (fun l hl _ => ?_),?_,?_⟩
  · by_cases he : l=d
    · rw [he,Function.update_self,blocksAt_of_size hsize]
    · rw [Function.update_of_ne he,blocksAt,hother l hl.1 he,blocksAt]
  · intro l hl
    by_cases he : l=d
    · rw [he,hsize]
      omega
    · rw [hother l hl.1 he]
      exact h.size l (hlive l hl)
  · intro l hl
    have hnum : inumAt (removed memory d j s ii) l=inumAt memory l :=
      intAt_congr (fun address hlow hhigh =>
        hout address (by omega) (by omega) (by omega) (by omega))
    rw [hnum]
    exact h.number l hl

end Entry

/-- The entry behind a successful `directory_lookup`. -/
theorem entry_of_lookup {disk : Disk} {d f : ℕ} {name : List UInt8} (h : Sound disk.bytes)
    (hd : Live disk.bytes d) (h4096 : sizeAt disk.bytes d≤4096)
    (hl : directoryLookup (nodeOffset d) name disk=.ok (f : ℤ) disk) :
    ∃ ii : ℕ, ii<(sizeAt disk.bytes d).toNat/64 ∧
      intAt disk.bytes (4096*(ptrAt disk.bytes d 0).toNat+64*ii+48)=f := by
  obtain ⟨s,hs,hb⟩ := h.size_natCast hd
  have hentries := directoryGetEntries_ok hd.1 disk
  unfold directoryLookup at hl
  rw [bind_of_ok hentries] at hl
  obtain ⟨found,mid,hsearch,hrest⟩ := bind_eq_ok.mp hl
  have hmid := (searchDirectory_readOnly _ _).eq_of_ok hsearch
  rw [hmid] at hrest
  unfold searchDirectory at hsearch
  rw [bind_of_ok hentries,bind_of_ok (readSize_ok hd.1 disk),hs,entryCount_natCast (by omega),
    Int.toNat_natCast] at hsearch
  cases found with
  | none =>
    have hf := (pure_eq_ok.mp hrest).1
    exact absurd hf (by simp only [noEntry]; omega)
  | some index =>
    have hbound := findEntry_bound _ hsearch
    obtain ⟨ii,rfl⟩ := Int.eq_ofNat_of_zero_le hbound.1
    have hp := h.owned.range d hd (.block 0) (by simp only [Slot.Used]; omega)
    rw [Slot.page,pnumAt,if_pos (by omega)] at hp
    rw [pagesGetPage_eq (by omega) (by omega)] at hrest
    obtain ⟨_,_,hvalue,_⟩ := readInt_returned hrest
    have haddr : (4096*ptrAt disk.bytes d 0+64*(ii : ℤ)+48).toNat=
        4096*(ptrAt disk.bytes d 0).toNat+64*ii+48 := by omega
    exact ⟨ii,by rw [hs,Int.toNat_natCast]; omega,by rw [hvalue,haddr]⟩

end ComputerSystems.NufsSound
