import ComputerSystems.NufsListing
import ComputerSystems.NufsSound
import Mathlib.Algebra.BigOperators.Group.Finset.Basic

/-!
# The catalogue of an image

The namespace calls see an image as a catalogue: the entries of every
directory, the marked inodes, which of them are directories, and the reference
counts. This module computes the catalogue after each building block of the
calls, on images whose directories are packed in one page each.
-/

namespace ComputerSystems.NufsCatalog

open StateProgram ByteMemory PackedList NufsImage NufsInode NufsPath NufsDirectory NufsStorage
  NufsCalls NufsOwnership NufsResize NufsFrame NufsEntry NufsSound NufsListing

/-- `S_ISDIR` of a mode. -/
def IsFolder (mode : ℤ) : Prop := mode/4096%16=4

/-- An inode whose mode is that of a directory. -/
def Directory (memory : Bytes) (i : ℕ) : Prop := IsFolder (modeAt memory i)

/-- What the namespace calls see of an image. -/
@[ext]
structure Catalog where
  /-- The entries of each directory. -/
  entries : ℕ → List Entry
  /-- The marked inodes. -/
  live : ℕ → Prop
  /-- The directories. -/
  folder : ℕ → Prop
  /-- The reference counts. -/
  refs : ℕ → ℤ

/-- The catalogue of an image. -/
def catalog (memory : Bytes) : Catalog where
  entries := fun l => if l<64 then entriesAt memory l else []
  live := Live memory
  folder := fun l => l<64 ∧ Directory memory l
  refs := fun l => if l<64 then refsAt memory l else 0

/-- A new inode with one reference. -/
def Catalog.create (c : Catalog) (i : ℕ) (folder : Prop) : Catalog :=
  {c with live := Function.update c.live i True
          folder := Function.update c.folder i folder
          refs := Function.update c.refs i 1}

/-- A change of a reference count. -/
def Catalog.count (c : Catalog) (i : ℕ) (change : ℤ) : Catalog :=
  {c with refs := Function.update c.refs i (c.refs i+change)}

/-- A further entry at the end of a directory. -/
def Catalog.append (c : Catalog) (d : ℕ) (entry : Entry) : Catalog :=
  {c with entries := Function.update c.entries d (c.entries d++[entry])}

/-- One entry less, the last one in its place. -/
def Catalog.remove (c : Catalog) (d ii : ℕ) : Catalog :=
  {c with entries := Function.update c.entries d (swapRemove (c.entries d) ii)}

/-- The mark cleared of an inode without references. -/
def Catalog.release (c : Catalog) (j : ℕ) : Catalog :=
  {c with live := Function.update c.live j (c.live j ∧ 0<c.refs j)}

/-- The effect of `directory_put`. -/
def Catalog.put (c : Catalog) (d : ℕ) (name : List UInt8) (j : ℕ) : Catalog :=
  (c.count j 1).append d ⟨name,j⟩

/-- The effect of `directory_delete` on the entry at an index. -/
def Catalog.delete (c : Catalog) (d ii j : ℕ) : Catalog :=
  ((c.count j (-1)).release j).remove d ii

/-- Catalogues with the same marks, directories and reference counts. -/
structure Catalog.Alike (c other : Catalog) : Prop where
  /-- The same marks. -/
  live : c.live=other.live
  /-- The same directories. -/
  folder : c.folder=other.folder
  /-- The same reference counts. -/
  refs : c.refs=other.refs

/-- Alike catalogues with the same entries are equal. -/
theorem Catalog.Alike.eq_of_entries {c other : Catalog} (h : c.Alike other)
    (he : c.entries=other.entries) : c=other := Catalog.ext he h.live h.folder h.refs

/-- The layout that the namespace calls keep: every directory is packed in one
page, no inode has a second block, and inodes know their numbers. -/
structure Shaped (memory : Bytes) : Prop where
  /-- The ownership invariant. -/
  sound : Sound memory
  /-- Second block and indirect pointers are zero. -/
  direct : ∀ i<64, ptrAt memory i 1=0 ∧ iptrAt memory i=0
  /-- Marked inodes hold their own numbers. -/
  number : ∀ i, Live memory i → inumAt memory i=i
  /-- Sizes are those of at most 64 entries. -/
  size : ∀ i<64, ∃ count≤64, sizeAt memory i=((64*count : ℕ) : ℤ)
  /-- Only marked directories have entries. -/
  holder : ∀ i<64, 0 < sizeAt memory i → Live memory i ∧ Directory memory i
  /-- Names are components of at most 47 bytes. -/
  name : ∀ d<64, ∀ entry∈entriesAt memory d,
    ∃ component : Component, entry.name=component.bytes ∧ component.bytes.length≤47

section Shaped

variable {memory : Bytes} {d : ℕ}

/-- Sizes are between 0 and one page. -/
theorem Shaped.size_range (h : Shaped memory) (hd : d<64) :
    0 ≤ sizeAt memory d ∧ sizeAt memory d≤4096 := by
  obtain ⟨count,hle,hs⟩ := h.size d hd
  rw [hs]
  omega

/-- An inode without entries. -/
theorem Shaped.size_zero (h : Shaped memory) (hd : d<64)
    (hn : ¬(Live memory d ∧ Directory memory d)) : sizeAt memory d=0 := by
  have hr := h.size_range hd
  by_contra hne
  exact hn (h.holder d hd (by omega))

/-- The first block of a directory with entries. -/
theorem Shaped.first_page (h : Shaped memory) (hd : d<64) (hpos : 0 < sizeAt memory d) :
    blocksAt memory d=1 ∧ 2≤ptrAt memory d 0 ∧ ptrAt memory d 0<256 := by
  obtain ⟨count,hle,hs⟩ := h.size d hd
  refine ⟨?_,(h.sound.first_page (h.holder d hd hpos).1 hpos).2⟩
  rw [blocksAt_of_size hs]
  omega

/-- Every directory of a shaped image can be listed. -/
theorem Shaped.listable (h : Shaped memory) (hd : d<64) : Listable memory d where
  index := hd
  size := h.size d hd
  page := fun hpos => (h.first_page hd hpos).2
  names := by
    intro entry he
    obtain ⟨component,hn,hl⟩ := h.name d hd entry he
    rw [hn]
    omega

/-- Shrinking a directory of one block is safe: the numbers it frees are zero. -/
theorem Shaped.shrinkSafe (h : Shaped memory) (hd : d<64) (hb : blocksAt memory d=1) {m : ℕ}
    (hm : m≤1) : ShrinkSafe memory (Live memory) (blocksAt memory) d m := by
  obtain ⟨hptr,hind⟩ := h.direct d hd
  have hzero : Harmless memory (Live memory) (Function.update (blocksAt memory) d m) 0 := by
    refine ⟨Int.le_refl 0,by omega,by omega,fun j hj slot hu => ?_⟩
    have hused : slot.Used (blocksAt memory j) := by
      by_cases he : j=d
      · rw [he,Function.update_self] at hu
        rw [he]
        exact hu.mono (by omega)
      · rw [Function.update_of_ne he] at hu
        exact hu
    have hr := h.sound.owned.range j hj slot hused
    omega
  constructor
  · intro _
    rw [hb,pnumAt,if_pos (by omega),hptr]
    exact hzero
  · intro _ _
    rw [hind]
    exact hzero

end Shaped

/-! ## Reference counts -/

section Refs

variable {memory : Bytes} {i : ℕ}

/-- Writing a reference count leaves the listings in one page alone. -/
theorem putRefs_listing (h : Sound memory) (hi : i<64) (value : ℤ) {l : ℕ}
    (hfit : sizeAt memory l≤4096) (hlive : 0 < sizeAt memory l → Live memory l) :
    entriesAt (putInt memory (4096+64*i+4) value) l=entriesAt memory l := by
  refine entriesAt_congr hfit (size_putRefs memory i l value)
    (fun hpos => ⟨?_,fun address ha => ?_⟩)
  · exact intAt_putInt_apart _ _ (by omega)
  · have hp := h.first_page (hlive hpos) hpos
    exact putInt_outside _ _ (by omega)

/-- Writing a reference count leaves the listings of a shaped image alone. -/
theorem putRefs_entries (h : Shaped memory) (hi : i<64) (value : ℤ) {l : ℕ} (hl : l<64) :
    entriesAt (putInt memory (4096+64*i+4) value) l=entriesAt memory l :=
  putRefs_listing h.sound hi value (h.size_range hl).2 (fun hpos => (h.holder l hl hpos).1)

/-- Writing a reference count keeps the layout. -/
theorem shaped_putRefs (h : Shaped memory) (hi : i<64) (value : ℤ) :
    Shaped (putInt memory (4096+64*i+4) value) := by
  have hlive := fun l => live_putRefs memory i l value
  have hsize := fun l => size_putRefs memory i l value
  refine ⟨sound_refs h.sound hi value,?_,?_,?_,?_,?_⟩
  · intro l hl
    have hd := h.direct l hl
    exact ⟨(intAt_putInt_apart _ _ (by omega)).trans hd.1,
      (intAt_putInt_apart _ _ (by omega)).trans hd.2⟩
  · intro l hl
    exact (intAt_putInt_apart _ _ (by omega)).trans (h.number l ((hlive l).mp hl))
  · intro l hl
    rw [hsize l]
    exact h.size l hl
  · intro l hl hpos
    rw [hsize l] at hpos
    have hh := h.holder l hl hpos
    refine ⟨(hlive l).mpr hh.1,?_⟩
    rw [Directory,modeAt,intAt_putInt_apart _ _ (by omega)]
    exact hh.2
  · intro l hl
    rw [putRefs_entries h hi value hl]
    exact h.name l hl

/-- Marks, directories and counts after writing a reference count. -/
theorem putRefs_alike (memory : Bytes) (hi : i<64) {change : ℤ}
    (hr : -2147483648≤refsAt memory i+change ∧ refsAt memory i+change<2147483648) :
    (catalog (putInt memory (4096+64*i+4) (refsAt memory i+change))).Alike
      ((catalog memory).count i change) where
  live := funext (fun l => propext (live_putRefs memory i l _))
  folder := by
    funext l
    simp only [catalog,Catalog.count,Directory,modeAt]
    rw [intAt_putInt_apart _ _ (by omega)]
  refs := by
    funext l
    simp only [catalog,Catalog.count]
    by_cases he : l=i
    · rw [he,Function.update_self,if_pos hi,if_pos hi,refsAt,intAt_putInt,
        wrap32_of_range hr.1 hr.2]
    · rw [Function.update_of_ne he,refsAt,intAt_putInt_apart _ _ (by omega),refsAt]

/-- The catalogue after writing a reference count. -/
theorem catalog_putRefs (h : Shaped memory) (hi : i<64) {change : ℤ}
    (hr : -2147483648≤refsAt memory i+change ∧ refsAt memory i+change<2147483648) :
    catalog (putInt memory (4096+64*i+4) (refsAt memory i+change))=(catalog memory).count i change := by
  refine (putRefs_alike memory hi hr).eq_of_entries (funext (fun l => ?_))
  simp only [catalog,Catalog.count]
  split
  · rename_i hl
    exact putRefs_entries h hi _ hl
  · rfl

end Refs

/-! ## New inodes -/

section Created

variable {memory : Bytes} {i : ℕ} (mode : ℤ)

/-- Liveness after creating an inode. -/
theorem created_live (memory : Bytes) (hi : i<64) (l : ℕ) :
    Live (created memory i mode) l ↔ l=i ∨ Live memory l := by
  unfold Live
  by_cases hl : l<64
  · rw [created_bit mode memory hl]
    by_cases he : l=i
    · simp [he,hi]
    · simp [he]
  · have hne : l≠i := by omega
    simp [hl,hne]

/-- Creating an inode leaves the listings of the others alone. -/
theorem created_listing (h : Sound memory) (hi : i<64) {l : ℕ} (hne : l≠i)
    (hfit : sizeAt memory l≤4096) (hlive : 0 < sizeAt memory l → Live memory l) :
    entriesAt (created memory i mode) l=entriesAt memory l := by
  refine entriesAt_congr hfit (created_field_other mode memory hi 12 hne (by omega))
    (fun hpos => ⟨created_field_other mode memory hi 16 hne (by omega),fun address ha => ?_⟩)
  have hp := h.first_page (hlive hpos) hpos
  exact created_outside mode memory hi (by omega) (by omega)

/-- A new inode has no entries. -/
theorem created_empty (memory : Bytes) (hi : i<64) : entriesAt (created memory i mode) i=[] :=
  entriesAt_zero (created_fields mode memory hi).2.2.2

/-- Creating an inode leaves the listings of a shaped image alone. -/
theorem created_entries (h : Shaped memory) (hi : i<64) (hf : inodeBit memory i=false) {l : ℕ}
    (hl : l<64) : entriesAt (created memory i mode) l=entriesAt memory l := by
  by_cases he : l=i
  · have hdead : ¬(Live memory l ∧ Directory memory l) := by
      rintro ⟨⟨_,hb⟩,_⟩
      rw [he,hf] at hb
      cases hb
    rw [entriesAt_zero (h.size_zero hl hdead),he]
    exact created_empty mode memory hi
  · exact created_listing mode h.sound hi he (h.size_range hl).2 (fun hpos => (h.holder l hl hpos).1)

/-- Creating an inode keeps the layout. -/
theorem shaped_created (h : Shaped memory) (hi : i<64) (hf : inodeBit memory i=false) :
    Shaped (created memory i mode) := by
  have hfields := created_fields mode memory hi
  refine ⟨sound_created mode h.sound hi hf,?_,?_,?_,?_,?_⟩
  · intro l hl
    have hd := h.direct l hl
    exact ⟨(intAt_congr (fun _ hlow hhigh => created_outside mode memory hi (by omega)
        (by omega))).trans hd.1,
      (intAt_congr (fun _ hlow hhigh => created_outside mode memory hi (by omega)
        (by omega))).trans hd.2⟩
  · intro l hl
    by_cases he : l=i
    · rw [he]
      exact hfields.1
    · have hold := ((created_live mode memory hi l).mp hl).resolve_left he
      exact (created_field_other mode memory hi 0 he (by omega)).trans (h.number l hold)
  · intro l hl
    by_cases he : l=i
    · rw [he,hfields.2.2.2]
      exact ⟨0,by omega,rfl⟩
    · have hs : sizeAt (created memory i mode) l=sizeAt memory l :=
        created_field_other mode memory hi 12 he (by omega)
      rw [hs]
      exact h.size l hl
  · intro l hl hpos
    by_cases he : l=i
    · rw [he,hfields.2.2.2] at hpos
      exact absurd hpos (by omega)
    · have hs : sizeAt (created memory i mode) l=sizeAt memory l :=
        created_field_other mode memory hi 12 he (by omega)
      have hm : modeAt (created memory i mode) l=modeAt memory l :=
        created_field_other mode memory hi 8 he (by omega)
      rw [hs] at hpos
      have hh := h.holder l hl hpos
      refine ⟨(created_live mode memory hi l).mpr (.inr hh.1),?_⟩
      rw [Directory,hm]
      exact hh.2
  · intro l hl
    rw [created_entries mode h hi hf hl]
    exact h.name l hl

/-- Marks, directories and counts after creating an inode. -/
theorem created_alike (memory : Bytes) (hi : i<64) : (catalog (created memory i mode)).Alike
    ((catalog memory).create i (IsFolder (wrap32 mode))) where
  live := by
    funext l
    simp only [catalog,Catalog.create]
    refine propext ((created_live mode memory hi l).trans ?_)
    by_cases he : l=i
    · rw [he,Function.update_self]
      simp
    · rw [Function.update_of_ne he]
      simp [he]
  folder := by
    funext l
    simp only [catalog,Catalog.create,Directory]
    by_cases he : l=i
    · rw [he,Function.update_self,(created_fields mode memory hi).2.2.1]
      simp [hi]
    · have hm : modeAt (created memory i mode) l=modeAt memory l :=
        created_field_other mode memory hi 8 he (by omega)
      rw [Function.update_of_ne he,hm]
  refs := by
    funext l
    simp only [catalog,Catalog.create]
    by_cases he : l=i
    · rw [he,Function.update_self,if_pos hi,(created_fields mode memory hi).2.1]
    · have hr : refsAt (created memory i mode) l=refsAt memory l :=
        created_field_other mode memory hi 4 he (by omega)
      rw [Function.update_of_ne he,hr]

/-- The catalogue after creating an inode. -/
theorem catalog_created (h : Shaped memory) (hi : i<64) (hf : inodeBit memory i=false) :
    catalog (created memory i mode)=(catalog memory).create i (IsFolder (wrap32 mode)) := by
  refine (created_alike mode memory hi).eq_of_entries (funext (fun l => ?_))
  simp only [catalog,Catalog.create]
  split
  · rename_i hl
    exact created_entries mode h hi hf hl
  · rfl

end Created

/-! ## Insertion -/

section Entered

variable {memory grown : Bytes} {d j count : ℕ} {component : Component} {name : List UInt8}

/-- Together with its growth an insertion writes the page marks, the size and
the pointers of the directory, one reference count and one entry. -/
theorem entered_elsewhere {n s : ℕ} {name : List UInt8} (hg : Grown memory grown d n 1)
    (hname : name.length<64) {address : ℕ} (h32 : 32≤address)
    (hs : address<4096+64*d+12 ∨ 4096+64*d+28≤address)
    (hr : address<4096+64*j+4 ∨ 4096+64*j+8≤address)
    (he : address<4096*(ptrAt grown d 0).toNat+s ∨ 4096*(ptrAt grown d 0).toNat+s+64≤address) :
    entered memory grown d j s name address=memory address := by
  rw [entered_outside hname (by omega) hr he]
  exact hg.frame address h32 (by omega) (by omega)

/-- A directory with room in its first page and its growth by one entry, on an
image that may hold files of any size. -/
structure Enlarged (memory grown : Bytes) (d count : ℕ) : Prop where
  /-- The ownership invariant before. -/
  sound : Sound memory
  /-- The directory is marked. -/
  live : Live memory d
  /-- Its entries. -/
  size : sizeAt memory d=((64*count : ℕ) : ℤ)
  /-- There is room for one more. -/
  room : count<64
  /-- The growth of the directory. -/
  grown : Grown memory grown d ((64*count+4095)/4096) 1

/-- The first block after the growth. -/
theorem Enlarged.page (hi : Enlarged memory grown d count) :
    2≤ptrAt grown d 0 ∧ ptrAt grown d 0<256 :=
  Grown.first_page hi.grown hi.sound.owned hi.live (blocksAt_of_size hi.size)

/-- A directory with entries keeps its first block. -/
theorem Enlarged.first (hi : Enlarged memory grown d count) (hpos : 0<count) :
    ptrAt grown d 0=ptrAt memory d 0 := by
  have hkeep := hi.grown.keep (.block 0) (by simp only [Slot.Used]; omega)
  simp only [Slot.page,pnumAt,if_pos (show 0<2 by omega)] at hkeep
  exact hkeep

/-- Entering a name of less than 64 bytes in such a directory. -/
structure Entering (memory grown : Bytes) (d j count : ℕ) (name : List UInt8) : Prop
    extends Enlarged memory grown d count where
  /-- The inode entered is a table index. -/
  index : j<64
  /-- The name and its NUL fit the entry. -/
  short : name.length<64

/-- The bytes an insertion leaves alone. -/
theorem Entering.elsewhere (hi : Entering memory grown d j count name) {address : ℕ}
    (h32 : 32≤address) (hs : address<4096+64*d+12 ∨ 4096+64*d+28≤address)
    (hr : address<4096+64*j+4 ∨ 4096+64*j+8≤address)
    (he : address<4096*(ptrAt grown d 0).toNat+64*count ∨
      4096*(ptrAt grown d 0).toNat+64*count+64≤address) :
    entered memory grown d j (64*count) name address=memory address := by
  have hshort := hi.short
  exact entered_elsewhere hi.grown (by omega) h32 hs hr he

/-- Header fields before the size are kept, but for the reference count. -/
theorem Entering.field (hi : Entering memory grown d j count name) {l : ℕ} (field : ℕ)
    (hl : l<64) (hf : field+4≤12) (hr : l≠j ∨ field+4≤4 ∨ 8≤field) :
    intAt (entered memory grown d j (64*count) name) (4096+64*l+field)=
      intAt memory (4096+64*l+field) := by
  have hp := hi.page
  have hj := hi.index
  refine intAt_congr (fun address hlow hhigh => hi.elsewhere (by omega) (by omega) ?_ (by omega))
  omega

/-- Sizes after an insertion. -/
theorem Entering.sizes (hi : Entering memory grown d j count name) {l : ℕ} (hl : l<64) :
    sizeAt (entered memory grown d j (64*count) name) l=
      if l=d then ((64*(count+1) : ℕ) : ℤ) else sizeAt memory l := by
  have hp := hi.page
  have hroom := hi.room
  have hshort := hi.short
  split
  · rename_i he
    rw [he,entered_size hi.sound.owned hi.live (by omega) (blocksAt_of_size hi.size) hi.grown
      (by omega),Nat.mul_add]
  · rename_i hne
    exact intAt_congr (fun address hlow hhigh => hi.elsewhere (by omega) (by omega) (by omega)
      (by omega))

/-- Liveness after an insertion. -/
theorem Entering.lives (hi : Entering memory grown d j count name) (l : ℕ) :
    Live (entered memory grown d j (64*count) name) l ↔ Live memory l := by
  have hp := hi.page
  unfold Live
  refine and_congr_right (fun hl => ?_)
  rw [show inodeBit (entered memory grown d j (64*count) name) l=inodeBit memory l from
    bitAt_congr (hi.elsewhere (by omega) (by omega) (by omega) (by omega))]

/-- The first block pointer after an insertion. -/
theorem Entering.pointer (hi : Entering memory grown d j count name) (k : ℕ) (hk : k<3) :
    intAt (entered memory grown d j (64*count) name) (4096+64*d+16+4*k)=
      intAt grown (4096+64*d+16+4*k) := by
  have hp := hi.page
  have hd := hi.live.1
  have hshort := hi.short
  exact intAt_congr (fun address hlow hhigh => entered_outside (by omega) (by omega) (by omega)
    (by omega))

/-- The directory lists one entry more. -/
theorem Entering.listing (hi : Entering memory grown d j count name) (hlen : name.length<48)
    (hplain : ∀ byte∈name, byte≠0) :
    entriesAt (entered memory grown d j (64*count) name) d=
      entriesAt memory d++[⟨name,j⟩] := by
  have hp := hi.page
  have hd := hi.live.1
  have hj := hi.index
  have hroom := hi.room
  have hshort := hi.short
  have hsize := hi.sizes hd
  rw [if_pos rfl] at hsize
  have hptr : ptrAt (entered memory grown d j (64*count) name) d 0=ptrAt grown d 0 :=
    hi.pointer 0 (by omega)
  refine entriesAt_append hi.size hsize (fun ii hii k hk => ?_) ?_
  · have hfirst := hi.first (by omega)
    rw [entryStart,entryStart,hptr,hfirst]
    refine hi.elsewhere (by omega) (by omega) (by omega) ?_
    rw [hfirst]
    omega
  · rw [entryStart,hptr]
    exact entryAt_putEntry _ _ hlen hplain (by omega)

/-- The reference count of the inode entered. -/
theorem Entering.refs (hi : Entering memory grown d j count name)
    (hr : refsAt memory j+1<2147483648) :
    refsAt (entered memory grown d j (64*count) name) j=refsAt memory j+1 := by
  have hp := hi.page
  have hj := hi.index
  have hshort := hi.short
  have hlow : -2147483648≤refsAt memory j := (intAt_range _ _).1
  have hrefs : refsAt (entered memory grown d j (64*count) name) j=
      refsAt (prepared memory grown d j (64*count)) j :=
    intAt_congr (fun address hlow hhigh => putEntry_outside _ (by omega) _ (by omega))
  rw [hrefs,prepared,refsAt,intAt_putInt,wrap32_of_range (by omega) hr]

/-- The other directories list what they did. -/
theorem Entering.others (hi : Entering memory grown d j count name) {l : ℕ} (hl : l<64)
    (hne : l≠d) (hfit : sizeAt memory l≤4096) (hlive : 0 < sizeAt memory l → Live memory l) :
    entriesAt (entered memory grown d j (64*count) name) l=entriesAt memory l := by
  have hp := hi.page
  have hj := hi.index
  have hd := hi.live.1
  have hroom := hi.room
  have hsize := hi.sizes hl
  rw [if_neg hne] at hsize
  refine entriesAt_congr hfit hsize (fun hpos => ⟨?_,fun address ha => ?_⟩)
  · exact intAt_congr (fun address hlow hhigh => hi.elsewhere (by omega) (by omega) (by omega)
      (by omega))
  · obtain ⟨hb,hpage⟩ := hi.sound.first_page (hlive hpos) hpos
    have hdiff : (ptrAt memory l 0).toNat≠(ptrAt grown d 0).toNat := by
      by_cases hc : 0<count
      · rw [hi.first hc]
        exact hi.sound.first_ne hi.live (hlive hpos) (by rw [hi.size]; omega) hpos hne
      · intro he
        have hnew := hi.grown.new (.block 0) Nat.one_pos (by simp only [Slot.Used]; omega)
        have hmark := hi.sound.owned.marked l (hlive hpos) (.block 0) hb
        simp only [Slot.page,pnumAt,if_pos (show 0<2 by omega)] at hnew hmark
        rw [he,hnew.2.2] at hmark
        cases hmark
    exact hi.elsewhere (by omega) (by omega) (by omega) (by omega)

/-- Marks, directories and counts after an insertion. -/
theorem Entering.alike (hi : Entering memory grown d j count name)
    (hr : refsAt memory j+1<2147483648) :
    (catalog (entered memory grown d j (64*count) name)).Alike
      ((catalog memory).put d name j) where
  live := funext (fun l => propext (hi.lives l))
  folder := by
    funext l
    simp only [catalog,Catalog.put,Catalog.count,Catalog.append,Directory,modeAt,eq_iff_iff]
    refine and_congr_right (fun hl => ?_)
    rw [hi.field 8 hl (by omega) (by omega)]
  refs := by
    have hj := hi.index
    funext l
    simp only [catalog,Catalog.put,Catalog.count,Catalog.append]
    by_cases he : l=j
    · rw [he,Function.update_self,if_pos hj,if_pos hj,hi.refs hr]
    · rw [Function.update_of_ne he]
      split
      · rename_i hl
        exact hi.field 4 hl (by omega) (.inl he)
      · rfl

/-- Growing a directory within its first page. -/
structure Insertion (memory grown : Bytes) (d j count : ℕ) (component : Component) : Prop where
  /-- The layout before. -/
  shaped : Shaped memory
  /-- The directory is marked. -/
  live : Live memory d
  /-- The directory is one. -/
  folder : Directory memory d
  /-- Its entries. -/
  size : sizeAt memory d=((64*count : ℕ) : ℤ)
  /-- There is room for one more. -/
  room : count<64
  /-- The inode entered is a table index. -/
  index : j<64
  /-- The growth of the directory. -/
  grown : Grown memory grown d ((64*count+4095)/4096) 1
  /-- The name fits its field. -/
  short : component.bytes.length≤47

/-- Insertions on shaped images are insertions on sound ones. -/
theorem Insertion.entering (hi : Insertion memory grown d j count component) :
    Entering memory grown d j count component.bytes :=
  ⟨⟨hi.shaped.sound,hi.live,hi.size,hi.room,hi.grown⟩,hi.index,
    Nat.lt_of_le_of_lt hi.short (by omega)⟩

/-- The directory lists one entry more. -/
theorem Insertion.listing (hi : Insertion memory grown d j count component) :
    entriesAt (entered memory grown d j (64*count) component.bytes) d=
      entriesAt memory d++[⟨component.bytes,j⟩] :=
  hi.entering.listing (Nat.lt_succ_of_le hi.short) (fun byte hb => (component.plain byte hb).1)

/-- Inserting leaves the listings of other inodes of a shaped image alone. -/
theorem Insertion.others (hi : Insertion memory grown d j count component) {l : ℕ} (hl : l<64)
    (hne : l≠d) : entriesAt (entered memory grown d j (64*count) component.bytes) l=
      entriesAt memory l :=
  hi.entering.others hl hne (hi.shaped.size_range hl).2 (fun hpos => (hi.shaped.holder l hl hpos).1)

/-- An insertion keeps the layout. -/
theorem Insertion.shaped_next (hi : Insertion memory grown d j count component) :
    Shaped (entered memory grown d j (64*count) component.bytes) := by
  have h := hi.shaped
  have hp := hi.entering.page
  have hroom := hi.room
  have hshort := hi.short
  have hj := hi.index
  refine ⟨sound_entered h.sound hi.live hi.size (by omega) hi.index hi.grown (by omega),
    ?_,?_,?_,?_,?_⟩
  · intro l hl
    have hdirect := h.direct l hl
    by_cases he : l=d
    · subst he
      exact ⟨((hi.entering.pointer 1 (by omega)).trans (hi.grown.direct 1 (by omega) (by omega))).trans
          hdirect.1,
        ((hi.entering.pointer 2 (by omega)).trans (hi.grown.indirect (by omega))).trans hdirect.2⟩
    · exact ⟨(intAt_congr (fun address hlow hhigh => hi.entering.elsewhere (by omega) (by omega) (by omega)
          (by omega))).trans hdirect.1,
        (intAt_congr (fun address hlow hhigh => hi.entering.elsewhere (by omega) (by omega) (by omega)
          (by omega))).trans hdirect.2⟩
  · intro l hl
    exact (hi.entering.field 0 hl.1 (by omega) (by omega)).trans (h.number l ((hi.entering.lives l).mp hl))
  · intro l hl
    rw [hi.entering.sizes hl]
    split
    · exact ⟨count+1,by omega,rfl⟩
    · exact h.size l hl
  · intro l hl hpos
    have hholder : Live memory l ∧ Directory memory l := by
      rw [hi.entering.sizes hl] at hpos
      split at hpos
      · rename_i he
        rw [he]
        exact ⟨hi.live,hi.folder⟩
      · exact h.holder l hl hpos
    refine ⟨(hi.entering.lives l).mpr hholder.1,?_⟩
    rw [Directory,modeAt,hi.entering.field 8 hl (by omega) (by omega)]
    exact hholder.2
  · intro l hl entry he
    by_cases hld : l=d
    · rw [hld,hi.listing,List.mem_append,List.mem_singleton] at he
      rcases he with he|he
      · exact h.name d hi.live.1 entry he
      · rw [he]
        exact ⟨component,rfl,hi.short⟩
    · rw [hi.others hl hld] at he
      exact h.name l hl entry he

/-- The catalogue after an insertion. -/
theorem Insertion.catalog_next (hi : Insertion memory grown d j count component)
    (hr : refsAt memory j+1<2147483648) :
    catalog (entered memory grown d j (64*count) component.bytes)=
      (catalog memory).put d component.bytes j := by
  have hd := hi.live.1
  refine (hi.entering.alike hr).eq_of_entries (funext (fun l => ?_))
  simp only [catalog,Catalog.put,Catalog.count,Catalog.append]
  by_cases he : l=d
  · rw [he,Function.update_self,if_pos hd,if_pos hd,hi.listing]
  · rw [Function.update_of_ne he]
    split
    · rename_i hl
      exact hi.others hl he
    · rfl

end Entered

/-! ## Removal -/

/-- The removal of one entry of a directory in its first page, on an image that
may hold files of any size. -/
structure Leaving (memory : Bytes) (d j count ii : ℕ) : Prop where
  /-- The ownership invariant before. -/
  sound : Sound memory
  /-- The directory is marked. -/
  live : Live memory d
  /-- Its entries. -/
  size : sizeAt memory d=((64*count : ℕ) : ℤ)
  /-- They lie in one page. -/
  full : count≤64
  /-- The entry is one of them. -/
  bound : ii<count
  /-- The inode it names is marked. -/
  target : Live memory j
  /-- That inode knows its number. -/
  number : inumAt memory j=j
  /-- That inode has references. -/
  counted : 0<refsAt memory j
  /-- The shrink frees nothing in use. -/
  safe : ShrinkSafe memory (Live memory) (blocksAt memory) d ((64*count-64+4095)/4096)

section Removed

variable {memory : Bytes} {d j count ii : ℕ}

/-- The directory has entries. -/
theorem Leaving.size_pos (hr : Leaving memory d j count ii) : 0 < sizeAt memory d := by
  have hbound := hr.bound
  rw [hr.size]
  omega

/-- The directory has one block, and the page of it. -/
theorem Leaving.basics (hr : Leaving memory d j count ii) :
    blocksAt memory d=1 ∧ 2≤ptrAt memory d 0 ∧ ptrAt memory d 0<256 := by
  have hbound := hr.bound
  have hfull := hr.full
  refine ⟨?_,(hr.sound.first_page hr.live hr.size_pos).2⟩
  rw [blocksAt_of_size hr.size]
  omega

/-- The shrink of the directory runs through. -/
theorem Leaving.shrinkable (hr : Leaving memory d j count ii) :
    Shrinkable memory d 1 ((64*count-64+4095)/4096) := by
  have hs := shrinkable_of_safe hr.sound.owned hr.live hr.safe
  rw [hr.basics.1] at hs
  exact hs

/-- The number of the inode is a table index. -/
theorem Leaving.inum_range (hr : Leaving memory d j count ii) :
    0 ≤ inumAt memory j ∧ inumAt memory j<64 := hr.sound.number j hr.target.1

/-- The bytes a removal leaves alone. -/
theorem Leaving.elsewhere (hr : Leaving memory d j count ii) {address : ℕ} (hl : 40≤address)
    (hs : address<4096+64*d+12 ∨ 4096+64*d+16≤address)
    (hj : address<4096+64*j+4 ∨ 4096+64*j+8≤address)
    (hp : address/4096≠(ptrAt memory d 0).toNat) :
    removed memory d j (64*count) ii address=memory address := by
  obtain ⟨_,hpage⟩ := hr.basics
  have hcount := hr.full
  have hbound := hr.bound
  exact removed_outside hr.inum_range.2 (by omega) hr.shrinkable hr.live.1 hpage.1 hl hs hj hp

/-- Header fields are kept, but for the reference count and the size. -/
theorem Leaving.field (hr : Leaving memory d j count ii) {l : ℕ} (field : ℕ) (hl : l<64)
    (hf : field+4≤64) (hs : l≠d ∨ field+4≤12 ∨ 16≤field) (hj : l≠j ∨ field+4≤4 ∨ 8≤field) :
    intAt (removed memory d j (64*count) ii) (4096+64*l+field)=intAt memory (4096+64*l+field) := by
  obtain ⟨_,hpage⟩ := hr.basics
  have hcount := hr.full
  have hd := hr.live.1
  have hj64 := hr.target.1
  exact intAt_congr (fun address hlow hhigh => hr.elsewhere (by omega) (by omega) (by omega)
    (by omega))

/-- Sizes after a removal. -/
theorem Leaving.sizes (hr : Leaving memory d j count ii) {l : ℕ} (hl : l<64) :
    sizeAt (removed memory d j (64*count) ii) l=
      if l=d then ((64*(count-1) : ℕ) : ℤ) else sizeAt memory l := by
  have hcount := hr.full
  split
  · rename_i he
    rw [he,removed_size memory d j ii (by omega),Nat.mul_sub]
  · rename_i hne
    exact hr.field 12 hl (by omega) (.inl hne) (by omega)

/-- The reference count after a removal. -/
theorem Leaving.dropped (hr : Leaving memory d j count ii) :
    refsAt (dropRef memory j) j=refsAt memory j-1 := by
  have hc := hr.counted
  have hrange : -2147483648≤refsAt memory j ∧ refsAt memory j<2147483648 := intAt_range _ _
  rw [dropRef,refsAt,intAt_putInt,wrap32_of_range (by omega) (by omega)]
  rfl

/-- Liveness after a removal. -/
theorem Leaving.lives (hr : Leaving memory d j count ii) (l : ℕ) :
    Live (removed memory d j (64*count) ii) l ↔
      Live memory l ∧ (l=j → 1<refsAt memory j) := by
  obtain ⟨_,hpage⟩ := hr.basics
  have hcount := hr.full
  have hbound := hr.bound
  have hnum := hr.number
  unfold Live
  by_cases hl : l<64
  · rw [removed_bit hr.inum_range (by omega) hr.live.1 hr.shrinkable hpage.1 hl,hr.dropped,hnum]
    by_cases hc : refsAt memory j-1≤0 ∧ (j : ℤ)=l
    · rw [if_pos hc]
      have he : l=j := by omega
      simp only [hl,Bool.false_eq_true,and_false,true_and,false_iff,not_and]
      exact fun _ hx => absurd (hx he) (by omega)
    · rw [if_neg hc]
      simp only [hl,true_and,iff_self_and]
      intro _ he
      omega
  · simp only [hl,false_and]

/-- The references of the other inodes are kept. -/
theorem Leaving.refs (hr : Leaving memory d j count ii) {l : ℕ} (hl : l<64) :
    refsAt (removed memory d j (64*count) ii) l=
      if l=j then refsAt memory j-1 else refsAt memory l := by
  obtain ⟨_,hpage⟩ := hr.basics
  have hcount := hr.full
  have hbound := hr.bound
  have hj64 := hr.target.1
  have hd := hr.live.1
  have hnum := hr.number
  split
  · rename_i he
    rw [he,←hr.dropped]
    have hinum : inumAt (dropRef memory j) j=j := (intAt_putInt_apart _ _ (by omega)).trans hnum
    refine intAt_congr (fun address hlow hhigh => ?_)
    rw [removed,shrunk_outside (Shrinkable.edited hr.inum_range.2 (by omega) hpage.1 hd hr.shrinkable) _
      (by omega) (by omega),edited,blit_outside _ _ (by omega),freeIfUnused,hinum]
    split
    · exact putBit_outside _ _ (by omega)
    · rfl
  · rename_i hne
    exact hr.field 4 hl (by omega) (by omega) (.inl hne)

/-- The directory lists its entries without the removed one, packed. -/
theorem Leaving.listing (hr : Leaving memory d j count ii) :
    entriesAt (removed memory d j (64*count) ii) d=swapRemove (entriesAt memory d) ii :=
  removed_listing hr.live.1 hr.target.1 hr.size hr.basics.2.1 hr.full hr.bound hr.inum_range.2
    hr.shrinkable

/-- The other directories list what they did. -/
theorem Leaving.others (hr : Leaving memory d j count ii) {l : ℕ} (hl : l<64) (hne : l≠d)
    (hfit : sizeAt memory l≤4096) (hlive : 0 < sizeAt memory l → Live memory l) :
    entriesAt (removed memory d j (64*count) ii) l=entriesAt memory l := by
  obtain ⟨_,hpage⟩ := hr.basics
  have hd := hr.live.1
  have hj64 := hr.target.1
  have hsize := hr.sizes hl
  rw [if_neg hne] at hsize
  refine entriesAt_congr hfit hsize (fun hpos => ⟨?_,fun address ha => ?_⟩)
  · exact hr.field 16 hl (by omega) (by omega) (by omega)
  · have hdiff := hr.sound.first_ne hr.live (hlive hpos) hr.size_pos hpos hne
    have hp := hr.sound.first_page (hlive hpos) hpos
    exact hr.elsewhere (by omega) (by omega) (by omega) (by omega)

/-- A removal keeps an image sound. -/
theorem Leaving.sound_next (hr : Leaving memory d j count ii) :
    Sound (removed memory d j (64*count) ii) := by
  have hbound := hr.bound
  have hfull := hr.full
  exact sound_removed hr.sound hr.live hr.size (by omega) (by omega) hr.target.1 (by omega) hr.safe

/-- Marks, directories and counts after a removal. -/
theorem Leaving.alike (hr : Leaving memory d j count ii) :
    (catalog (removed memory d j (64*count) ii)).Alike ((catalog memory).delete d ii j) where
  live := by
    have hj64 := hr.target.1
    funext l
    simp only [catalog,Catalog.delete,Catalog.count,Catalog.release,Catalog.remove,
      Function.update_self,if_pos hj64]
    refine propext ((hr.lives l).trans ?_)
    by_cases he : l=j
    · rw [he,Function.update_self]
      refine and_congr_right (fun _ => ?_)
      simp only [true_imp_iff]
      omega
    · rw [Function.update_of_ne he]
      simp [he]
  folder := by
    funext l
    simp only [catalog,Catalog.delete,Catalog.count,Catalog.release,Catalog.remove,Directory,modeAt,
      eq_iff_iff]
    refine and_congr_right (fun hl => ?_)
    rw [hr.field 8 hl (by omega) (by omega) (by omega)]
  refs := by
    have hj64 := hr.target.1
    funext l
    simp only [catalog,Catalog.delete,Catalog.count,Catalog.release,Catalog.remove]
    by_cases he : l=j
    · rw [he,Function.update_self,if_pos hj64,if_pos hj64,hr.refs hj64,if_pos rfl]
      rfl
    · rw [Function.update_of_ne he]
      split
      · rename_i hl
        rw [hr.refs hl,if_neg he]
      · rfl

/-- The removal of one entry of a directory in its first page. -/
structure Removal (memory : Bytes) (d j count ii : ℕ) : Prop where
  /-- The layout before. -/
  shaped : Shaped memory
  /-- The directory is a table index. -/
  index : d<64
  /-- Its entries. -/
  size : sizeAt memory d=((64*count : ℕ) : ℤ)
  /-- The entry is one of them. -/
  bound : ii<count
  /-- The inode it names is marked. -/
  target : Live memory j
  /-- That inode has references. -/
  counted : 0<refsAt memory j
  /-- A directory is not at its last reference. -/
  kept : Directory memory j → 1<refsAt memory j

/-- Removals on shaped images are removals on sound ones. -/
theorem Removal.leaving (hr : Removal memory d j count ii) : Leaving memory d j count ii := by
  have hbound := hr.bound
  have hrange := hr.shaped.size_range hr.index
  rw [hr.size] at hrange
  have hpos : 0 < sizeAt memory d := by
    rw [hr.size]
    omega
  exact ⟨hr.shaped.sound,(hr.shaped.holder d hr.index hpos).1,hr.size,by omega,hr.bound,hr.target,
    hr.shaped.number j hr.target,hr.counted,
    hr.shaped.shrinkSafe hr.index (hr.shaped.first_page hr.index hpos).1 (by omega)⟩

/-- Removing leaves the listings of other inodes of a shaped image alone. -/
theorem Removal.others (hr : Removal memory d j count ii) {l : ℕ} (hl : l<64) (hne : l≠d) :
    entriesAt (removed memory d j (64*count) ii) l=entriesAt memory l :=
  hr.leaving.others hl hne (hr.shaped.size_range hl).2 (fun hpos => (hr.shaped.holder l hl hpos).1)

/-- A removal keeps the layout. -/
theorem Removal.shaped_next (hr : Removal memory d j count ii) :
    Shaped (removed memory d j (64*count) ii) := by
  have h := hr.shaped
  have hcount := hr.leaving.full
  have hbound := hr.bound
  have hlen : ii<(entriesAt memory d).length := by
    rw [length_entriesAt hr.size]
    exact hbound
  refine ⟨hr.leaving.sound_next,?_,?_,?_,?_,?_⟩
  · intro l hl
    have hdirect := h.direct l hl
    exact ⟨(hr.leaving.field 20 hl (by omega) (by omega) (by omega)).trans hdirect.1,
      (hr.leaving.field 24 hl (by omega) (by omega) (by omega)).trans hdirect.2⟩
  · intro l hl
    exact (hr.leaving.field 0 hl.1 (by omega) (by omega) (by omega)).trans
      (h.number l ((hr.leaving.lives l).mp hl).1)
  · intro l hl
    rw [hr.leaving.sizes hl]
    split
    · exact ⟨count-1,by omega,rfl⟩
    · exact h.size l hl
  · intro l hl hpos
    have hold : 0 < sizeAt memory l := by
      rw [hr.leaving.sizes hl] at hpos
      split at hpos
      · rename_i he
        rw [he]
        exact hr.leaving.size_pos
      · exact hpos
    have hh := h.holder l hl hold
    refine ⟨(hr.leaving.lives l).mpr ⟨hh.1,fun he => hr.kept (he ▸ hh.2)⟩,?_⟩
    rw [Directory,modeAt,hr.leaving.field 8 hl (by omega) (by omega) (by omega)]
    exact hh.2
  · intro l hl entry he
    by_cases hld : l=d
    · rw [hld,hr.leaving.listing] at he
      exact h.name d hr.index entry (mem_of_mem_swapRemove hlen he)
    · rw [hr.others hl hld] at he
      exact h.name l hl entry he

/-- The catalogue after a removal. -/
theorem Removal.catalog_next (hr : Removal memory d j count ii) :
    catalog (removed memory d j (64*count) ii)=(catalog memory).delete d ii j := by
  have hd := hr.index
  refine hr.leaving.alike.eq_of_entries (funext (fun l => ?_))
  simp only [catalog,Catalog.delete,Catalog.count,Catalog.release,Catalog.remove]
  by_cases he : l=d
  · rw [he,Function.update_self,if_pos hd,if_pos hd,hr.leaving.listing]
  · rw [Function.update_of_ne he]
    split
    · rename_i hl
      exact hr.others hl he
    · rfl

end Removed

end ComputerSystems.NufsCatalog
