import Mathlib.Tactic.Ring
import Mathlib.Tactic.Linarith
import Mathlib.Data.Nat.Init

/-!
# Byte memory with little-endian words

Memory is a function from addresses to bytes. A block write replaces one
interval and nothing else; machine words are read and written least
significant byte first, and signed C integers are the two's-complement reading
of four bytes. The module names no particular program.
-/

namespace ComputerSystems.ByteMemory

/-- Every address holds one byte. -/
abbrev Bytes := ℕ → UInt8

/-- Replace the bytes of one interval by those of a source, counted from the
start of the interval. -/
def blit (memory : Bytes) (start count : ℕ) (source : ℕ → UInt8) : Bytes := fun address =>
  if start≤address ∧ address < start+count then source (address-start) else memory address

/-- Inside its interval a block write stores the source. -/
theorem blit_inside (memory : Bytes) (source : ℕ → UInt8) {start count address : ℕ}
    (hl : start≤address) (hr : address < start+count) :
    blit memory start count source address=source (address-start) := if_pos ⟨hl,hr⟩

/-- Outside its interval a block write changes nothing. -/
theorem blit_outside (memory : Bytes) (source : ℕ → UInt8) {start count address : ℕ}
    (h : address < start ∨ start+count≤address) :
    blit memory start count source address=memory address := if_neg (by omega)

/-- The little-endian word of a given number of bytes. -/
def wordAt (memory : Bytes) : ℕ → ℕ → ℕ
  | _,0 => 0
  | start,count+1 => (memory start).toNat+256*wordAt memory (start+1) count

/-- Equal bytes at two places make equal words. -/
theorem wordAt_shift {memory memory' : Bytes} {start start' count : ℕ}
    (h : ∀ k<count, memory (start+k)=memory' (start'+k)) :
    wordAt memory start count=wordAt memory' start' count := by
  induction count generalizing start start' with
  | zero => rfl
  | succ count ih =>
    have hfirst : memory start=memory' start' := h 0 (by omega)
    have hrest : wordAt memory (start+1) count=wordAt memory' (start'+1) count := by
      refine ih (fun k hk => ?_)
      have hnext := h (k+1) (by omega)
      rw [Nat.add_comm k 1,←Nat.add_assoc,←Nat.add_assoc] at hnext
      exact hnext
    simp only [wordAt,hfirst,hrest]

/-- A word depends only on its own bytes. -/
theorem wordAt_congr {memory memory' : Bytes} {start count : ℕ}
    (h : ∀ address, start ≤ address → address < start+count → memory address=memory' address) :
    wordAt memory start count=wordAt memory' start count :=
  wordAt_shift (fun k hk => h (start+k) (by omega) (by omega))

/-- A word fits its number of bytes. -/
theorem wordAt_lt (memory : Bytes) (start count : ℕ) : wordAt memory start count<256^count := by
  induction count generalizing start with
  | zero => simp only [wordAt,pow_zero,Nat.lt_one_iff]
  | succ count ih =>
    have ht := ih (start+1)
    have hb := (memory start).toNat_lt
    simp only [wordAt,pow_succ]
    omega

/-- Equal words of equal length have the same bytes. -/
theorem byte_eq_of_wordAt_eq {memory memory' : Bytes} {start start' count : ℕ}
    (h : wordAt memory start count=wordAt memory' start' count) {k : ℕ} (hk : k<count) :
    memory (start+k)=memory' (start'+k) := by
  induction count generalizing start start' k with
  | zero => omega
  | succ count ih =>
    have hb := (memory start).toNat_lt
    have hb' := (memory' start').toNat_lt
    simp only [wordAt] at h
    cases k with
    | zero =>
      apply UInt8.toNat_inj.mp
      simp only [Nat.add_zero]
      omega
    | succ k =>
      have hw : wordAt memory (start+1) count=wordAt memory' (start'+1) count := by omega
      have ht := ih hw (Nat.lt_of_succ_lt_succ hk)
      simpa only [Nat.add_assoc,Nat.add_comm 1 k] using ht

/-- Store a word least significant byte first. -/
def putWord (memory : Bytes) (start count value : ℕ) : Bytes :=
  blit memory start count (fun k => UInt8.ofNat (value/256^k))

/-- A stored word changes only its own bytes. -/
theorem putWord_outside (memory : Bytes) (value : ℕ) {start count address : ℕ}
    (h : address < start ∨ start+count≤address) :
    putWord memory start count value address=memory address := blit_outside memory _ h

/-- The digits written from a suffix position spell the remaining quotient. -/
theorem wordAt_digits (memory : Bytes) (start value : ℕ) :
    ∀ count offset, (∀ k, k<count → memory (start+offset+k)=UInt8.ofNat (value/256^(offset+k))) →
      wordAt memory (start+offset) count=value/256^offset%256^count := by
  intro count
  induction count with
  | zero =>
    intro offset _
    simp only [wordAt,pow_zero,Nat.mod_one]
  | succ count ih =>
    intro offset hd
    have hfirst := hd 0 (by omega)
    have hrest := ih (offset+1) (fun k hk => by
      have hk' := hd (k+1) (by omega)
      simpa only [Nat.add_assoc,Nat.add_comm 1 k] using hk')
    simp only [Nat.add_zero] at hfirst
    simp only [wordAt]
    rw [Nat.add_assoc,hrest,hfirst,UInt8.toNat_ofNat',pow_succ 256 offset,←Nat.div_div_eq_div_mul,
      pow_succ 256 count,Nat.mul_comm (256^count) 256,Nat.mod_mul]

/-- Reading back a stored word gives its value modulo the word size. -/
theorem wordAt_putWord (memory : Bytes) (start count value : ℕ) :
    wordAt (putWord memory start count value) start count=value%256^count := by
  have hd := wordAt_digits (putWord memory start count value) start value count 0
    (fun k hk => by
      simp only [Nat.add_zero,Nat.zero_add]
      rw [putWord,blit_inside memory _ (by omega) (by omega),Nat.add_sub_cancel_left])
  simpa only [Nat.add_zero,pow_zero,Nat.div_one] using hd

/-- A word apart from a block write is read unchanged. -/
theorem wordAt_blit_apart (memory : Bytes) (source : ℕ → UInt8) {start count other length : ℕ}
    (h : other+length ≤ start ∨ start+count≤other) :
    wordAt (blit memory start count source) other length=wordAt memory other length :=
  wordAt_congr (fun _ hl hr => blit_outside memory source (by omega))

/-- Conversion to a 32-bit C `int`: the residue modulo 2^32, read as two's
complement. -/
def wrap32 (value : ℤ) : ℤ :=
  let residue := (value%4294967296).toNat
  if residue<2147483648 then (residue : ℤ) else Int.negSucc (4294967295-residue)

/-- The conversion is the residue of least absolute value. -/
theorem wrap32_eq_bmod (value : ℤ) : wrap32 value=Int.bmod value 4294967296 := by
  unfold wrap32 Int.bmod
  dsimp only
  split <;> split <;> omega

/-- Values of an `int` are kept by the conversion. -/
theorem wrap32_of_range {value : ℤ} (hl : -2147483648≤value) (hr : value<2147483648) :
    wrap32 value=value := by
  rw [wrap32_eq_bmod,Int.bmod_eq_of_le] <;> omega

/-- Zero is kept. -/
theorem wrap32_zero : wrap32 0=0 := wrap32_of_range (by decide) (by decide)

/-- The conversion lands in the range of an `int`. -/
theorem wrap32_range (value : ℤ) : -2147483648≤wrap32 value ∧ wrap32 value<2147483648 := by
  have hl := Int.le_bmod (x:=value) (m:=4294967296) (by omega)
  have hr := Int.bmod_lt (x:=value) (m:=4294967296) (by omega)
  rw [wrap32_eq_bmod]
  omega

/-- The conversion never exceeds the residue. -/
theorem wrap32_le_emod (value : ℤ) : wrap32 value≤value%4294967296 := by
  unfold wrap32
  dsimp only
  split <;> omega

/-- The conversion gives zero for the multiples of 2^32 only. -/
theorem wrap32_eq_zero_iff (value : ℤ) : wrap32 value=0 ↔ 4294967296∣value := by
  unfold wrap32
  dsimp only
  split <;> omega

/-- The `int` stored in four bytes. -/
def intAt (memory : Bytes) (start : ℕ) : ℤ := wrap32 (wordAt memory start 4)

/-- Store an `int`, its two's complement in four bytes. -/
def putInt (memory : Bytes) (start : ℕ) (value : ℤ) : Bytes :=
  putWord memory start 4 (value%4294967296).toNat

/-- An `int` depends only on its own four bytes. -/
theorem intAt_congr {memory memory' : Bytes} {start : ℕ}
    (h : ∀ address, start≤address → address < start+4 → memory address=memory' address) :
    intAt memory start=intAt memory' start := by
  rw [intAt,wordAt_congr h,intAt]

/-- Equal bytes at two places make equal `int` values. -/
theorem intAt_shift {memory memory' : Bytes} {start start' : ℕ}
    (h : ∀ k<4, memory (start+k)=memory' (start'+k)) : intAt memory start=intAt memory' start' := by
  rw [intAt,wordAt_shift h,intAt]

/-- Reading back a stored `int` gives its conversion. -/
theorem intAt_putInt (memory : Bytes) (start : ℕ) (value : ℤ) :
    intAt (putInt memory start value) start=wrap32 value := by
  have hm : 0≤value%4294967296 := Int.emod_nonneg value (by omega)
  have hlt : value%4294967296<4294967296 := Int.emod_lt_of_pos value (by omega)
  rw [intAt,putInt,wordAt_putWord,Nat.mod_eq_of_lt (by omega),Int.toNat_of_nonneg hm]
  rw [wrap32_eq_bmod,wrap32_eq_bmod]
  exact Int.emod_bmod value 4294967296

/-- An `int` apart from a stored one is read unchanged. -/
theorem intAt_putInt_apart (memory : Bytes) (value : ℤ) {start other : ℕ}
    (h : other+4 ≤ start ∨ start+4≤other) :
    intAt (putInt memory start value) other=intAt memory other :=
  intAt_congr (fun _ hl hr => putWord_outside memory _ (by omega))

/-- A stored `int` changes only its own bytes. -/
theorem putInt_outside (memory : Bytes) (value : ℤ) {start address : ℕ}
    (h : address < start ∨ start+4≤address) :
    putInt memory start value address=memory address := putWord_outside memory _ h

/-- Every stored `int` is in range. -/
theorem intAt_range (memory : Bytes) (start : ℕ) :
    -2147483648 ≤ intAt memory start ∧ intAt memory start<2147483648 := wrap32_range _

/-! ## C strings -/

/-- The bytes of a C string before its NUL, at most a number of them. -/
def cStringAt (memory : Bytes) : ℕ → ℕ → List UInt8
  | _,0 => []
  | start,limit+1 =>
    if memory start=0 then [] else memory start::cStringAt memory (start+1) limit

/-- Equal bytes at two places make equal C strings. -/
theorem cStringAt_shift {memory next : Bytes} {start other limit : ℕ}
    (h : ∀ k<limit, next (start+k)=memory (other+k)) :
    cStringAt next start limit=cStringAt memory other limit := by
  induction limit generalizing start other with
  | zero => rfl
  | succ limit ih =>
    have hfirst : next start=memory other := h 0 (by omega)
    have hrest : cStringAt next (start+1) limit=cStringAt memory (other+1) limit := by
      refine ih (fun k hk => ?_)
      have hnext := h (k+1) (by omega)
      rw [Nat.add_comm k 1,←Nat.add_assoc,←Nat.add_assoc] at hnext
      exact hnext
    simp only [cStringAt,hfirst,hrest]

/-- A C string that ends before a limit is read alike up to every later limit. -/
theorem cStringAt_of_ended {memory : Bytes} {limit : ℕ} : ∀ {start later : ℕ},
    (cStringAt memory start limit).length<limit → limit≤later →
    cStringAt memory start later=cStringAt memory start limit := by
  induction limit with
  | zero =>
    intro start later hl _
    exact absurd hl (Nat.not_lt_zero _)
  | succ limit ih =>
    intro start later hl hle
    obtain ⟨rest,rfl⟩ : ∃ rest, later=rest+1 := ⟨later-1,by omega⟩
    rw [cStringAt] at hl
    rw [cStringAt,cStringAt]
    by_cases hz : memory start=0
    · rw [if_pos hz,if_pos hz]
    · rw [if_neg hz,List.length_cons] at hl
      rw [if_neg hz,if_neg hz,ih (by omega) (by omega)]

/-- Bytes that spell a text and its NUL are read back as the text. -/
theorem cStringAt_of_bytes {memory : Bytes} {text : List UInt8} {start limit : ℕ}
    (hl : text.length<limit) (hn : ∀ byte∈text, byte≠0)
    (h : ∀ k≤text.length, memory (start+k)=text.getD k 0) :
    cStringAt memory start limit=text := by
  induction text generalizing start limit with
  | nil =>
    obtain ⟨rest,rfl⟩ : ∃ rest, limit=rest+1 := ⟨limit-1,by simp only [List.length_nil] at hl; omega⟩
    have hz : memory start=0 := h 0 (Nat.le_refl _)
    rw [cStringAt,if_pos hz]
  | cons byte text ih =>
    simp only [List.length_cons] at hl h
    obtain ⟨rest,rfl⟩ : ∃ rest, limit=rest+1 := ⟨limit-1,by omega⟩
    have hfirst : memory start=byte := h 0 (by omega)
    have hne : byte≠0 := hn byte (by simp)
    have hrest : cStringAt memory (start+1) rest=text := by
      refine ih (by omega) (fun other ho => hn other (by simp [ho])) (fun k hk => ?_)
      have hnext := h (k+1) (by omega)
      rw [List.getD_cons_succ] at hnext
      rw [←hnext]
      congr 1
      omega
    rw [cStringAt,hfirst,if_neg hne,hrest]

attribute [irreducible] wrap32

end ComputerSystems.ByteMemory
