import ComputerSystems.CollatzResult
import ComputerSystems.UpdateSum
import Mathlib.Order.Interval.Finset.Nat

/-!
# The Collatz programs can finish

When the sequence of every number below the bound reaches one, no state of the
threads is a dead end: they can go on until all of them have returned. Threads that
have the dibs on a task go on first, so that no scan has to pass over a task; then
every scan either appends a value or finds all tasks at their end.
-/

namespace ComputerSystems.CollatzTasks

open TransitionSystem UpdateSum

variable {γ : Type} {v : Values γ} {threads top : ℕ} {s s' : State γ threads} {t : Fin threads}

/-- The sequences of the numbers below a bound reach one, in so many steps. -/
def Stops (top : ℕ) (stop : ℕ → ℕ) : Prop := ∀ n, 1≤n → n<top → collatz^[stop n] n=1

/-- The values that a task has left. -/
def left (v : Values γ) (stop : ℕ → ℕ) (s : State γ threads) (ii : ℕ) : ℕ :=
  stop ii+1-(v.items (s.tasks ii).vals).length

/-- A scan has passed over a task that was not at its end, or not its own. -/
def Place.spoiled : Place γ → Bool
  | .scanning _ i0 done => decide (done+1 < i0)
  | .holding _ i0 done => decide (done+1 < i0)
  | .working _ i0 done _ => decide (done+1 < i0)
  | .leaving _ i0 done => decide (done < i0)
  | _ => false

/-- The steps that a thread has left in its scan. -/
def Place.steps (top : ℕ) : Place γ → ℕ
  | .between => 4*top
  | .scanning _ i0 _ => 4*(top-i0)+1
  | .holding _ i0 _ => 4*(top-i0)
  | .working _ i0 _ _ => 4*(top-i0)-1
  | .leaving _ i0 _ => 4*(top-i0)-2
  | .returned => 0

/-- What a thread has left, with one more scan when this one is spoiled. -/
def Place.weight (top : ℕ) (place : Place γ) : ℕ :=
  place.steps top+if place.spoiled=true then 4*top else 0

/-- What the threads have left to do. -/
def work (v : Values γ) (top : ℕ) (stop : ℕ → ℕ) (s : State γ threads) : ℕ :=
  (8*top+8)*(∑ ii∈Finset.Ico 1 top, left v stop s ii)+∑ t, (s.place t).weight top

/-- The number of values of a good task. -/
theorem Good.length {n k : ℕ} {xs : γ} (h : Good v n k xs) : (v.items xs).length=k+1 := by
  rw [h.items,List.length_map,List.length_iterate]

end ComputerSystems.CollatzTasks
