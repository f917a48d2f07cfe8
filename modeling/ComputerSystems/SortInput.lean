import ComputerSystems.ByteFile
import Mathlib.Data.List.Forall2

/-!
# Reading the sorter's input file

`tools/gen-input` writes the count as an 8-byte long and then the 4-byte
patterns of the floats. The sorter maps the first 4096 bytes of that file as
an array of 4-byte ints, takes the first as the count and converts the
following ones, as numbers, to floats. Only files of zeros that fit the
mapping are read back as they were written.
-/

namespace ComputerSystems.SortInput

open ByteMemory ByteFile

/-- The file `tools/gen-input` writes for a list of float patterns. -/
def genInput (patterns : List UInt32) : File :=
  leBytes 8 patterns.length++records 4 (patterns.map UInt32.toNat)

/-- The significand of a conversion: the leading 24 bits of a positive
magnitude, rounded to nearest and to even in a tie. -/
def significand (magnitude exponent : ℕ) : ℕ :=
  if exponent≤23 then magnitude*2^(23-exponent)
  else
    let unit := 2^(exponent-23)
    let quotient := magnitude/unit
    let rest := magnitude%unit
    if unit<2*rest ∨ (unit=2*rest ∧ quotient%2=1) then quotient+1 else quotient

/-- The pattern of `(float) value` for an int: sign, biased exponent, fraction.
A significand that rounds up to the next power of two carries into the
exponent. -/
def floatOfInt (value : ℤ) : UInt32 :=
  if value=0 then 0
  else
    let exponent := value.natAbs.log2
    UInt32.ofNat ((if value<0 then 2^31 else 0)+(127+exponent)*2^23+
      (significand value.natAbs exponent-2^23))

/-- An access outside the 4096 mapped bytes. -/
inductive Fault
  /-- The offset of the int that was read. -/
  | unmapped (offset : ℕ)
  deriving DecidableEq

/-- What the loading code leaves in memory. -/
structure Loaded where
  /-- The global `count`. -/
  count : ℤ
  /-- The patterns of the array `input`. -/
  input : List UInt32
  /-- The offsets of the ints that were read from the mapping. -/
  reads : List ℕ
  deriving DecidableEq

/-- `f_read[ii]` of the mapping `mmap(0, 4096, …)` of the file as ints. -/
def readInt (file : File) (ii : ℕ) : Except Fault ℤ :=
  if 4*ii+4≤4096 then .ok (intAt (fileMemory file) (4*ii)) else .error (.unmapped (4*ii))

/-- One turn of the loading loop: the offset read and the float stored. -/
def loadElement (file : File) (ii : ℕ) : Except Fault (ℕ × UInt32) :=
  (readInt file ii).map (fun idata => (4*ii,floatOfInt idata))

/-- The loading code of `main`; `none` is the exit on a file that is too small,
its size taken as an int. -/
def load (file : File) : Except Fault (Option Loaded) :=
  if wrap32 file.length<8 then .ok none
  else do
    let count ← readInt file 0
    let elements ← (List.range' 1 count.toNat).mapM (loadElement file)
    .ok (some {count := count,input := elements.map Prod.snd,reads := 0::elements.map Prod.fst})

/-- The sorter gets the count and the patterns that were written, reading only
bytes of the file that are mapped. -/
def ReadsBack (patterns : List UInt32) : Prop :=
  ∃ loaded, load (genInput patterns)=.ok (some loaded) ∧ loaded.count=(patterns.length : ℤ) ∧
    (∀ offset∈loaded.reads, offset+4≤4096 ∧ offset+4≤(genInput patterns).length) ∧
    loaded.input=patterns

/-! ## The words of a generated file -/

theorem length_genInput (patterns : List UInt32) :
    (genInput patterns).length=8+4*patterns.length := by
  rw [genInput,List.length_append,length_leBytes,length_records,List.length_map]

/-- The halves of the header, as ints. -/
theorem readInt_header (patterns : List UInt32) {half : ℕ} (hh : half<2) :
    readInt (genInput patterns) half=
      .ok (wrap32 ((patterns.length/256^(4*half)%256^4 : ℕ) : ℤ)) := by
  have hword := wordAt_leBytes [] (records 4 (patterns.map UInt32.toNat)) patterns.length
    (show 4*half+4≤8 by omega)
  rw [List.nil_append,List.length_nil,Nat.zero_add] at hword
  rw [readInt,if_pos (by omega),intAt,genInput,hword]

/-- The int after the header that an element occupies. -/
theorem readInt_element (patterns : List UInt32) {k : ℕ} (hk : k<patterns.length)
    (hm : 4*(k+2)+4≤4096) :
    readInt (genInput patterns) (k+2)=.ok (wrap32 ((patterns.get ⟨k,hk⟩).toNat : ℤ)) := by
  have hk' : k<(patterns.map UInt32.toNat).length := by
    rw [List.length_map]
    exact hk
  have hsplit : genInput patterns=
      (leBytes 8 patterns.length++records 4 ((patterns.map UInt32.toNat).take k))++
        leBytes 4 ((patterns.map UInt32.toNat).get ⟨k,hk'⟩)++
          records 4 ((patterns.map UInt32.toNat).drop (k+1)) := by
    rw [genInput,records_split 4 (patterns.map UInt32.toNat) hk',List.append_assoc,
      List.append_assoc,List.append_assoc]
  have hfront : (leBytes 8 patterns.length++
      records 4 ((patterns.map UInt32.toNat).take k)).length+0=4*(k+2) := by
    rw [List.length_append,length_leBytes,length_records,List.length_take]
    omega
  have hword := wordAt_leBytes (leBytes 8 patterns.length++
    records 4 ((patterns.map UInt32.toNat).take k))
    (records 4 ((patterns.map UInt32.toNat).drop (k+1)))
    ((patterns.map UInt32.toNat).get ⟨k,hk'⟩) (show 0+4≤4 by omega)
  rw [←hsplit,hfront] at hword
  have hvalue : (patterns.map UInt32.toNat).get ⟨k,hk'⟩=(patterns.get ⟨k,hk⟩).toNat := by
    simp only [List.get_eq_getElem,List.getElem_map]
  have hlt : (patterns.get ⟨k,hk⟩).toNat<256^4 := UInt32.toNat_lt _
  rw [readInt,if_pos hm,intAt,hword,hvalue,pow_zero,Nat.div_one,Nat.mod_eq_of_lt hlt]

/-! ## What the loop stores -/

/-- A loop over a list returns exactly the values its turns return. -/
theorem mapM_ok_iff {ε α β : Type} {f : α → Except ε β} {list : List α} {values : List β} :
    list.mapM f=.ok values ↔ List.Forall₂ (fun x y => f x=.ok y) list values := by
  induction list generalizing values with
  | nil =>
    rw [List.mapM_nil,List.forall₂_nil_left_iff]
    constructor
    · intro h
      cases h
      rfl
    · intro h
      rw [h]
      rfl
  | cons x rest ih =>
    rw [List.mapM_cons,List.forall₂_cons_left_iff]
    constructor
    · intro h
      cases hx : f x with
      | error fault =>
        rw [hx] at h
        cases h
      | ok y =>
        cases hr : rest.mapM f with
        | error fault =>
          rw [hx,hr] at h
          cases h
        | ok ys =>
          rw [hx,hr] at h
          cases h
          exact ⟨y,ys,rfl,ih.mp hr,rfl⟩
    · rintro ⟨y,ys,hy,hys,rfl⟩
      rw [hy,ih.mpr hys]
      rfl

/-- A turn that reads the upper half of the count or a zero pattern stores a
zero. -/
theorem loadElement_zero {patterns : List UInt32} {k : ℕ} (hk : k<patterns.length)
    (hm : patterns.length≤1023)
    (hz : ∀ j (hj : j<patterns.length), j+1=k → patterns.get ⟨j,hj⟩=0) :
    loadElement (genInput patterns) (k+1)=.ok (4*(k+1),0) := by
  cases k with
  | zero =>
    have hupper : patterns.length/256^(4*1)%256^4=0 := by omega
    rw [loadElement,readInt_header patterns (by omega),Nat.zero_add,hupper,Nat.cast_zero,
      wrap32_zero]
    rfl
  | succ j =>
    rw [loadElement,readInt_element patterns (by omega) (by omega),hz j (by omega) rfl,
      UInt32.toNat_zero,Nat.cast_zero,wrap32_zero]
    rfl

/-- The count of a file that fits the mapping. -/
theorem readInt_count {patterns : List UInt32} (hm : patterns.length≤1023) :
    readInt (genInput patterns) 0=.ok (patterns.length : ℤ) := by
  have hlow : patterns.length/256^(4*0)%256^4=patterns.length := by omega
  rw [readInt_header patterns (by omega),hlow,wrap32_of_range (by omega) (by omega)]

/-- What a returned load has read and stored. -/
theorem load_eq_some {file : File} {loaded : Loaded} (h : load file=.ok (some loaded)) :
    readInt file 0=.ok loaded.count ∧ ∃ elements,
      List.Forall₂ (fun ii element => loadElement file ii=.ok element)
        (List.range' 1 loaded.count.toNat) elements ∧
      loaded.input=elements.map Prod.snd ∧ loaded.reads=0::elements.map Prod.fst := by
  rw [load] at h
  split_ifs at h with hsize
  · cases h
  cases hc : readInt file 0 with
  | error fault =>
    rw [hc] at h
    cases h
  | ok count =>
    rw [hc] at h
    change ((List.range' 1 count.toNat).mapM (loadElement file) >>= _)=_ at h
    cases he : (List.range' 1 count.toNat).mapM (loadElement file) with
    | error fault =>
      rw [he] at h
      cases h
    | ok elements =>
      rw [he] at h
      cases h
      exact ⟨rfl,elements,mapM_ok_iff.mp he,rfl,rfl⟩

/-- A count past the mapping makes the loop fault. -/
theorem count_fits {file : File} {n : ℕ} {elements : List (ℕ × UInt32)}
    (h : List.Forall₂ (fun ii element => loadElement file ii=.ok element)
      (List.range' 1 n) elements) : n≤1023 := by
  by_contra hn
  have hmem : 1024∈List.range' 1 n := by
    rw [List.mem_range'_1]
    omega
  obtain ⟨k,hk,hget⟩ := List.getElem_of_mem hmem
  have hturn := h.get hk (by rw [←h.length_eq]; exact hk)
  rw [List.get_eq_getElem,hget] at hturn
  cases hturn

/-- A file is read back exactly when its elements fit the mapping after one
half of the header and all of them are zero. -/
theorem reads_back_iff (patterns : List UInt32) :
    ReadsBack patterns ↔ patterns.length≤1023 ∧ ∀ pattern∈patterns, pattern=0 := by
  constructor
  · rintro ⟨loaded,hload,hcount,-,hinput⟩
    obtain ⟨-,elements,helements,hstored,-⟩ := load_eq_some hload
    rw [hcount,Int.toNat_natCast] at helements
    have hfits : patterns.length≤1023 := count_fits helements
    have hlen : patterns.length=elements.length := by
      have hl := helements.length_eq
      rwa [List.length_range'] at hl
    have hturn : ∀ k (hk : k<patterns.length), (∀ j (hj : j<patterns.length), j+1=k →
        patterns.get ⟨j,hj⟩=0) → patterns.get ⟨k,hk⟩=0 := by
      intro k hk hbefore
      have hk' : k<elements.length := by omega
      have hread := helements.get (by rw [List.length_range']; exact hk) hk'
      rw [List.get_eq_getElem,List.getElem_range',Nat.one_mul,Nat.add_comm 1 k,
        loadElement_zero hk hfits hbefore] at hread
      have hvalue : patterns.get ⟨k,hk⟩=(elements.get ⟨k,hk'⟩).2 := by
        have hget : patterns[k]?=(elements.map Prod.snd)[k]? := by rw [←hstored,hinput]
        rw [List.getElem?_map,List.getElem?_eq_getElem hk,List.getElem?_eq_getElem hk'] at hget
        exact Option.some.inj hget
      rw [hvalue,←Except.ok.inj hread]
    have hzero : ∀ k (hk : k<patterns.length), patterns.get ⟨k,hk⟩=0 := by
      intro k
      induction k with
      | zero =>
        intro hk
        exact hturn 0 hk (fun j _ hj => absurd hj (Nat.succ_ne_zero j))
      | succ k ih =>
        intro hk
        refine hturn (k+1) hk (fun j hj hjk => ?_)
        obtain rfl : j=k := Nat.succ.inj hjk
        exact ih hj
    refine ⟨hfits,fun pattern hp => ?_⟩
    obtain ⟨k,hk,hget⟩ := List.getElem_of_mem hp
    rw [←hget]
    exact hzero k hk
  · rintro ⟨hfits,hzero⟩
    have hturns : List.Forall₂ (fun ii element => loadElement (genInput patterns) ii=.ok element)
        (List.range' 1 patterns.length)
        ((List.range' 1 patterns.length).map (fun ii => (4*ii,(0 : UInt32)))) := by
      rw [List.forall₂_map_right_iff,List.forall₂_same]
      intro ii hii
      rw [List.mem_range'_1] at hii
      obtain ⟨k,rfl⟩ : ∃ k, ii=k+1 := ⟨ii-1,by omega⟩
      exact loadElement_zero (by omega) hfits (fun j hj _ => hzero _ (List.get_mem _ _))
    have hlarge : ¬wrap32 ((genInput patterns).length : ℤ)<8 := by
      rw [length_genInput,wrap32_of_range (by omega) (by omega)]
      omega
    refine ⟨⟨patterns.length,patterns,0::(List.range' 1 patterns.length).map (fun ii => 4*ii)⟩,
      ?_,rfl,?_,rfl⟩
    · have hzeros : (List.range' 1 patterns.length).map (fun _ => (0 : UInt32))=patterns := by
        rw [List.map_const',List.length_range']
        exact (List.eq_replicate_of_mem hzero).symm
      rw [load,if_neg hlarge,readInt_count hfits]
      change ((List.range' 1 (patterns.length : ℤ).toNat).mapM (loadElement _) >>= _)=_
      rw [Int.toNat_natCast,mapM_ok_iff.mpr hturns]
      change Except.ok (some _)=_
      rw [List.map_map,List.map_map]
      exact congrArg (fun input => Except.ok (some (Loaded.mk patterns.length input
        (0::(List.range' 1 patterns.length).map (fun ii => 4*ii))))) hzeros
    · intro offset hoffset
      rw [length_genInput]
      rcases List.mem_cons.mp hoffset with rfl | hmem
      · omega
      · obtain ⟨ii,hii,rfl⟩ := List.mem_map.mp hmem
        rw [List.mem_range'_1] at hii
        omega

/-- The one float 1.0 is read back as the upper half of the count. -/
theorem one_not_read_back : ¬ReadsBack [0x3f800000] := by
  rintro ⟨loaded,hload,-,-,hinput⟩
  have heval : load (genInput [0x3f800000])=.ok (some ⟨1,[0],[0,4]⟩) := by decide +kernel
  rw [heval] at hload
  cases hload
  cases hinput

end ComputerSystems.SortInput
