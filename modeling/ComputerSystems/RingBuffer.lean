import Mathlib.Data.List.Basic
import Mathlib.Data.Nat.ModEq
import Mathlib.Logic.Function.Basic

/-!
# Ring buffers with wrapping counters

A ring buffer counts the items put in and taken out. The counters of the machine
wrap at a modulus, and an item lies in the cell given by the remainder of its
number by the number of cells. When the number of cells divides the modulus, the
wrapped counters still find the cells, and when it is smaller than the modulus
they still tell an empty buffer from a full one. This module names no particular
buffer.
-/

namespace ComputerSystems.RingBuffer

variable {α : Type*}

/-- So many items from a number on. -/
def held (cells : ℕ → α) (size first count : ℕ) : List α :=
  (List.range count).map (fun i => cells ((first+i)%size))

/-- An item for every number. -/
theorem length_held (cells : ℕ → α) (size first count : ℕ) :
    (held cells size first count).length=count := by
  rw [held,List.length_map,List.length_range]

/-- Numbers closer than the number of cells have different cells. -/
theorem cell_ne {size first i count : ℕ} (hi : i<count) (hcount : count<size) :
    (first+i)%size≠(first+count)%size := by
  intro h
  have hmod : i≡count [MOD size] := Nat.ModEq.add_left_cancel' first h
  have heq : i=count := hmod.eq_of_lt_of_lt (by omega) hcount
  omega

/-- The next item goes behind those held. -/
theorem held_put {cells : ℕ → α} {size first count : ℕ} (h : count<size) (x : α) :
    held (Function.update cells ((first+count)%size) x) size first (count+1)=
      held cells size first count++[x] := by
  rw [held,List.range_succ,List.map_append,List.map_singleton,Function.update_self]
  congr 1
  refine List.map_congr_left ?_
  intro i hi
  exact Function.update_of_ne (cell_ne (List.mem_range.mp hi) h) x cells

/-- The first of the items held is the next one to be taken. -/
theorem held_take (cells : ℕ → α) (size first count : ℕ) :
    held cells size first (count+1)=cells (first%size)::held cells size (first+1) count := by
  rw [held,List.range_succ_eq_map,List.map_cons,List.map_map]
  congr 1
  refine List.map_congr_left ?_
  intro i _
  change cells ((first+(i+1))%size)=cells ((first+1+i)%size)
  congr 2
  omega

/-! ## Wrapped counters -/

variable {size modulus taken put : ℕ}

/-- A wrapped counter finds the same cell. -/
theorem wrapped_cell (hdvd : size∣modulus) (n : ℕ) : n%modulus%size=n%size :=
  Nat.mod_mod_of_dvd n hdvd

/-- Equal wrapped counters mean an empty buffer. -/
theorem wrapped_empty_iff (hsize : size < modulus) (hle : taken≤put) (hroom : put≤taken+size) :
    taken%modulus=put%modulus ↔ taken=put := by
  constructor
  · intro h
    have hmod : taken+0≡taken+(put-taken) [MOD modulus] := by
      rw [Nat.add_zero,Nat.add_sub_cancel' hle]
      exact h
    have hzero : 0=put-taken :=
      (Nat.ModEq.add_left_cancel' taken hmod).eq_of_lt_of_lt (by omega) (by omega)
    omega
  · intro h
    rw [h]

/-- Wrapped counters that lie the number of cells apart mean a full buffer. -/
theorem wrapped_full_iff (hsize : size < modulus) (hle : taken≤put) (hroom : put≤taken+size) :
    put%modulus=(taken%modulus+size)%modulus ↔ put=taken+size := by
  rw [Nat.mod_add_mod]
  exact wrapped_empty_iff hsize hroom (by omega)

end ComputerSystems.RingBuffer
