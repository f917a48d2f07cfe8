import ComputerSystems.TransitionSystem
import Mathlib.Logic.Function.Basic

/-!
# Locked memory over a store

A memory of cells over a slower store of the same cells. A party takes a cell
with the value in it, changes the value while it has the cell, copies it to the
store and gives the cell back. This module names no particular memory. What is
taken is what was put last, or what the cell had at first; nobody takes a cell
that another party has.
-/

namespace ComputerSystems.LockedMemory

open TransitionSystem

variable {κ β π : Type*}

/-- The cells. -/
structure Memory (κ β π : Type*) where
  /-- What is in the cells. -/
  value : κ → β
  /-- What is in the store. -/
  stored : κ → β
  /-- Who has a cell. -/
  holder : κ → Option π

/-- What the parties do. -/
inductive Event (κ β π : Type*)
  /-- A party takes a cell and finds a value in it. -/
  | take (p : π) (k : κ) (v : β)
  /-- A party changes the value of its cell. -/
  | put (p : π) (k : κ) (v : β)
  /-- A party copies its cell to the store. -/
  | sync (p : π) (k : κ)
  /-- A party gives its cell back. -/
  | drop (p : π) (k : κ)

/-- Cells that are as in the store, and that nobody has. -/
def opened (start : κ → β) : Memory κ β π :=
  {value := start,stored := start,holder := fun _ => none}

variable [DecidableEq κ] [DecidableEq β] [DecidableEq π]

/-- One step of the memory. -/
def step : Event κ β π → Memory κ β π → Option (Memory κ β π)
  | .take p k v,m =>
    if m.holder k=none ∧ m.value k=v then
      some {m with holder := Function.update m.holder k (some p)}
    else none
  | .put p k v,m =>
    if m.holder k=some p then some {m with value := Function.update m.value k v} else none
  | .sync p k,m =>
    if m.holder k=some p then some {m with stored := Function.update m.stored k (m.value k)}
    else none
  | .drop p k,m =>
    if m.holder k=some p then some {m with holder := Function.update m.holder k none} else none

/-- A free cell is taken. -/
theorem step_take {p : π} {k : κ} {v : β} {m : Memory κ β π} (hfree : m.holder k=none)
    (hv : m.value k=v) :
    step (.take p k v) m=some {m with holder := Function.update m.holder k (some p)} :=
  if_pos ⟨hfree,hv⟩

/-- A cell is changed by its holder. -/
theorem step_put {p : π} {k : κ} {v : β} {m : Memory κ β π} (h : m.holder k=some p) :
    step (.put p k v) m=some {m with value := Function.update m.value k v} :=
  if_pos h

/-- A cell is stored by its holder. -/
theorem step_sync {p : π} {k : κ} {m : Memory κ β π} (h : m.holder k=some p) :
    step (.sync p k) m=some {m with stored := Function.update m.stored k (m.value k)} :=
  if_pos h

/-- A cell is given back by its holder. -/
theorem step_drop {p : π} {k : κ} {m : Memory κ β π} (h : m.holder k=some p) :
    step (.drop p k) m=some {m with holder := Function.update m.holder k none} :=
  if_pos h

/-- What a single event leads to. -/
theorem follow_one {e : Event κ β π} {m m' : Memory κ β π} (h : step e m=some m') :
    follow step Anything [e] m=some m' := by
  rw [follow_cons,h]
  rfl

/-! ## The value put last -/

/-- What is put into a cell. -/
def Event.given (k : κ) : Event κ β π → Option β
  | .put _ j v => if j=k then some v else none
  | .take _ _ _ => none
  | .sync _ _ => none
  | .drop _ _ => none

/-- The value of a cell behind what was done, if something was put into it. -/
def lastPut (k : κ) : List (Event κ β π) → Option β
  | [] => none
  | e::rest => (lastPut k rest).or (e.given k)

/-- A step puts the given value into a cell, or leaves the cell as it is. -/
theorem step_value {e : Event κ β π} {m m' : Memory κ β π} (h : step e m=some m') (k : κ) :
    m'.value k=(e.given k).getD (m.value k) := by
  cases e with
  | put p j v =>
    simp only [step] at h
    split_ifs at h
    cases h
    rw [Event.given]
    split_ifs with hj
    · rw [hj]
      exact Function.update_self k v m.value
    · exact Function.update_of_ne (Ne.symm hj) v m.value
  | take p j v =>
    simp only [step] at h
    split_ifs at h
    cases h
    rfl
  | sync p j =>
    simp only [step] at h
    split_ifs at h
    cases h
    rfl
  | drop p j =>
    simp only [step] at h
    split_ifs at h
    cases h
    rfl

/-- A cell has the value that was put last, or the one it had at first. -/
theorem value_of_follow {events : List (Event κ β π)} {m m' : Memory κ β π}
    (h : follow step Anything events m=some m') (k : κ) :
    m'.value k=(lastPut k events).getD (m.value k) := by
  induction events generalizing m with
  | nil =>
    cases h
    rfl
  | cons e rest ih =>
    rw [follow_cons] at h
    obtain ⟨next,hnext,hrest⟩ := Option.bind_eq_some_iff.mp h
    rw [ih hrest,lastPut,step_value hnext]
    cases lastPut k rest with
    | some v => rfl
    | none => rfl

/-- What is taken was put last, or was there at first, and nobody has the cell. -/
theorem take_of_follow {events : List (Event κ β π)} {start : κ → β} {p : π} {k : κ} {v : β}
    {m m' : Memory κ β π} (h : follow step Anything events (opened start)=some m)
    (htake : step (.take p k v) m=some m') :
    m.holder k=none ∧ v=(lastPut k events).getD (start k) := by
  simp only [step] at htake
  split_ifs at htake with hfree
  exact ⟨hfree.1,hfree.2.symm.trans (value_of_follow h k)⟩

end ComputerSystems.LockedMemory
