import Mathlib.Algebra.BigOperators.Group.Finset.Basic
import Mathlib.Data.Fintype.BigOperators

/-!
# Sums over a family with one member changed

Values are summed over the members of a family. When one member changes, the sum
with the old value added is the former sum with the new one added; no subtraction is
needed, so the rule also holds of natural numbers. The module names no particular
program.
-/

namespace ComputerSystems.UpdateSum

variable {κ β M : Type*} [DecidableEq κ] [AddCommMonoid M]

/-- A sum over some members after one of them has changed. -/
theorem sum_update_mem (g : β → M) (f : κ → β) {members : Finset κ} {k : κ} (hk : k∈members)
    (value : β) :
    (∑ j∈members, g (Function.update f k value j))+g (f k)=(∑ j∈members, g (f j))+g value := by
  have hrest : ∑ j∈members.erase k, g (Function.update f k value j)=
      ∑ j∈members.erase k, g (f j) := by
    refine Finset.sum_congr rfl (fun j hj => ?_)
    rw [Function.update_of_ne (Finset.ne_of_mem_erase hj)]
  rw [←Finset.add_sum_erase members (fun j => g (Function.update f k value j)) hk,
    ←Finset.add_sum_erase members (fun j => g (f j)) hk,hrest,Function.update_self]
  ac_rfl

/-- A sum over a whole family after one member has changed. -/
theorem sum_update_add [Fintype κ] (g : β → M) (f : κ → β) (k : κ) (value : β) :
    (∑ j, g (Function.update f k value j))+g (f k)=(∑ j, g (f j))+g value :=
  sum_update_mem g f (Finset.mem_univ k) value

end ComputerSystems.UpdateSum
