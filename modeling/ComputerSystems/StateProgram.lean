import Mathlib.Order.Defs.Unbundled
import Mathlib.Tactic.Common

/-!
# Programs that pass a state and may stop

The C functions of the development are embedded as `EStateM` programs: each
returns a value or stops with a fault, and both outcomes keep the state that
was reached. This module names no particular program. It holds the rules the
later proofs use: inversion of a sequence that returned, effects that every
run respects whichever way it ends, and total specifications that may excuse
a run whose measure moved.
-/

namespace ComputerSystems.StateProgram

variable {ε σ α β : Type}

/-- The state a run reaches, whether it returned or stopped. -/
def after (program : EStateM ε σ α) (state : σ) : σ :=
  match program state with
  | .ok _ next => next
  | .error _ next => next

/-- A returned run reaches its returned state. -/
theorem after_of_ok {program : EStateM ε σ α} {state next : σ} {value : α}
    (h : program state=.ok value next) : after program state=next := by
  simp only [after,h]

/-- A sequence whose first part returned continues from the returned state. -/
theorem bind_of_ok {program : EStateM ε σ α} {rest : α → EStateM ε σ β} {state next : σ}
    {value : α} (h : program state=.ok value next) :
    (program >>= rest) state=rest value next := by
  change EStateM.bind program rest state=_
  simp only [EStateM.bind,h]

/-- A sequence whose first part stopped stops there. -/
theorem bind_of_error {program : EStateM ε σ α} {rest : α → EStateM ε σ β} {state next : σ}
    {fault : ε} (h : program state=.error fault next) :
    (program >>= rest) state=.error fault next := by
  change EStateM.bind program rest state=_
  simp only [EStateM.bind,h]

/-- A sequence returns exactly when both of its parts do. -/
theorem bind_eq_ok {program : EStateM ε σ α} {rest : α → EStateM ε σ β} {state last : σ}
    {result : β} : (program >>= rest) state=.ok result last ↔
      ∃ value next, program state=.ok value next ∧ rest value next=.ok result last := by
  cases h : program state with
  | ok value next =>
    rw [bind_of_ok h]
    constructor
    · intro hr
      exact ⟨value,next,rfl,hr⟩
    · rintro ⟨value',next',he,hr⟩
      cases he
      exact hr
  | error fault next =>
    rw [bind_of_error h]
    constructor
    · intro hr
      cases hr
    · rintro ⟨value',next',he,_⟩
      cases he

/-- Run the program and test what it returned; a run that stopped fails the test. -/
def passes (program : EStateM ε σ α) (state : σ) (test : α → σ → Bool) : Bool :=
  match program state with
  | .ok value next => test value next
  | .error _ _ => false

/-- A passed test is about a run that returned. -/
theorem returned_of_passes {program : EStateM ε σ α} {state : σ} {test : α → σ → Bool}
    (h : passes program state test=true) :
    ∃ value, program state=.ok value (after program state) ∧
      test value (after program state)=true := by
  unfold passes at h
  cases hr : program state with
  | ok value next =>
    rw [hr] at h
    rw [after_of_ok hr]
    exact ⟨value,rfl,h⟩
  | error fault next =>
    rw [hr] at h
    cases h

/-- Every run, returned or stopped, moves the state along the relation. -/
def Moves (relation : σ → σ → Prop) (program : EStateM ε σ α) : Prop :=
  ∀ state, relation state (after program state)

/-- A branch has an effect that both of its sides have. -/
theorem moves_ite {relation : σ → σ → Prop} {condition : Prop} [Decidable condition]
    {yes no : EStateM ε σ α}
    (hy : Moves relation yes) (hn : Moves relation no) :
    Moves relation (if condition then yes else no) := by
  split
  · exact hy
  · exact hn

section Moves

variable {relation : σ → σ → Prop} [IsPreorder σ relation]

/-- Returning a value leaves the state where it was. -/
theorem moves_pure (value : α) : Moves relation (pure value : EStateM ε σ α) :=
  fun state => refl_of relation state

/-- Stopping leaves the state where it was. -/
theorem moves_throw (fault : ε) : Moves relation (throw fault : EStateM ε σ α) :=
  fun state => refl_of relation state

/-- Sequencing composes effects, also when the first part stops. -/
theorem moves_bind {program : EStateM ε σ α} {rest : α → EStateM ε σ β}
    (hp : Moves relation program) (hr : ∀ value, Moves relation (rest value)) :
    Moves relation (program >>= rest) := by
  intro state
  have hfirst := hp state
  cases h : program state with
  | ok value next =>
    have hsecond := hr value next
    rw [after_of_ok h] at hfirst
    simp only [after,bind_of_ok h] at hsecond ⊢
    exact trans_of relation hfirst hsecond
  | error fault next =>
    simp only [after,h] at hfirst
    simpa only [after,bind_of_error h] using hfirst

end Moves

/-- The run changes nothing, returned or stopped. -/
abbrev ReadOnly (program : EStateM ε σ α) : Prop := Moves Eq program

/-- A read-only run returns in the state it started from. -/
theorem ReadOnly.eq_of_ok {program : EStateM ε σ α} (h : ReadOnly program) {state next : σ}
    {value : α} (hr : program state=.ok value next) : next=state := by
  have hs := h state
  rw [after_of_ok hr] at hs
  exact hs.symm

/-- A read-only run that passes the test for a value returns it in the state it
started from. -/
theorem ReadOnly.returns [DecidableEq α] {program : EStateM ε σ α} (h : ReadOnly program)
    {state : σ} {value : α}
    (hp : passes program state (fun result _ => decide (result=value))=true) :
    program state=.ok value state := by
  obtain ⟨result,hr,ht⟩ := returned_of_passes hp
  rw [h.eq_of_ok hr,of_decide_eq_true ht] at hr
  exact hr

/-- A run that passes a test and returns meets the test with what it returns. -/
theorem test_of_passes {program : EStateM ε σ α} {state next : σ} {value : α}
    {test : α → σ → Bool} (hp : passes program state test=true)
    (hr : program state=.ok value next) : test value next=true := by
  unfold passes at hp
  rw [hr] at hp
  exact hp

/-- The order of states along a natural measure. -/
def Below (measure : σ → ℕ) (state next : σ) : Prop := measure state ≤ measure next

/-- Measures order the states as a preorder. -/
instance (measure : σ → ℕ) : IsPreorder σ (Below measure) where
  refl := fun state => Nat.le_refl (measure state)
  trans := fun _ _ _ h k => Nat.le_trans h k

/-- Every run, returned or stopped, keeps the measure or raises it. -/
abbrev Rises (measure : σ → ℕ) (program : EStateM ε σ α) : Prop := Moves (Below measure) program

/-- A read-only run keeps every measure. -/
theorem ReadOnly.rises {program : EStateM ε σ α} (h : ReadOnly program) (measure : σ → ℕ) :
    Rises measure program := by
  intro state
  exact Nat.le_of_eq (congrArg measure (h state))

/-- The run returns with the postcondition, unless it raised the measure.
A constant measure makes this plain total correctness. -/
def Delivers (measure : σ → ℕ) (program : EStateM ε σ α) (state : σ)
    (post : α → σ → Prop) : Prop :=
  measure (after program state)=measure state →
    ∃ value next, program state=.ok value next ∧ measure next=measure state ∧ post value next

section Delivers

variable {measure : σ → ℕ}

/-- A run known to return delivers what holds of its result. -/
theorem Delivers.of_ok {program : EStateM ε σ α} {state next : σ} {value : α}
    {post : α → σ → Prop} (h : program state=.ok value next) (hp : post value next) :
    Delivers measure program state post := by
  intro hm
  rw [after_of_ok h] at hm
  exact ⟨value,next,h,hm,hp⟩

/-- Returning a value delivers what already holds. -/
theorem Delivers.ret {state : σ} {value : α} {post : α → σ → Prop} (hp : post value state) :
    Delivers measure (pure value : EStateM ε σ α) state post := Delivers.of_ok rfl hp

/-- A weaker postcondition is delivered as well. -/
theorem Delivers.weaken {program : EStateM ε σ α} {state : σ} {post post' : α → σ → Prop}
    (h : Delivers measure program state post)
    (hw : ∀ value next, post value next → post' value next) :
    Delivers measure program state post' := by
  intro hm
  obtain ⟨value,next,hr,hn,hp⟩ := h hm
  exact ⟨value,next,hr,hn,hw value next hp⟩

/-- What is delivered, together with the measure that was kept. -/
theorem Delivers.recorded {program : EStateM ε σ α} {state : σ} {post : α → σ → Prop}
    (h : Delivers measure program state post) :
    Delivers measure program state
      (fun value next => measure next=measure state ∧ post value next) := by
  intro hm
  obtain ⟨value,next,hr,hn,hp⟩ := h hm
  exact ⟨value,next,hr,hn,hn,hp⟩

/-- A run whose measure certainly moved delivers anything. -/
theorem Delivers.of_rise {program : EStateM ε σ α} {state : σ} {post : α → σ → Prop}
    (h : measure state < measure (after program state)) : Delivers measure program state post := by
  intro hm
  omega

/-- Sequencing: the continuation is specified from whatever the first part
delivers, and an excused first part stays excused because measures only rise. -/
theorem Delivers.bind {program : EStateM ε σ α} {rest : α → EStateM ε σ β} {state : σ}
    {mid : α → σ → Prop} {post : β → σ → Prop} (hx : Delivers measure program state mid)
    (hp : Rises measure program) (hr : ∀ value, Rises measure (rest value))
    (hf : ∀ value next, program state=.ok value next → mid value next →
      Delivers measure (rest value) next post) :
    Delivers measure (program >>= rest) state post := by
  intro hm
  have hrise := hp state
  have hkeep : measure (after program state)=measure state := by
    cases h : program state with
    | ok value next =>
      have hlast := hr value next
      simp only [after,bind_of_ok h] at hm
      simp only [Below,after,h] at hrise hlast ⊢
      omega
    | error fault next =>
      simp only [after,bind_of_error h] at hm
      simpa only [after,h] using hm
  obtain ⟨value,next,hv,hn,hmid⟩ := hx hkeep
  have hrest := hf value next hv hmid
  simp only [after,bind_of_ok hv] at hm
  rw [bind_of_ok hv]
  obtain ⟨result,last,hr',hl,hpost⟩ := hrest (by simpa only [after,hn] using hm)
  exact ⟨result,last,hr',hl.trans hn,hpost⟩

/-- A continuation after a part known to return. -/
theorem Delivers.bind_ok {program : EStateM ε σ α} {rest : α → EStateM ε σ β} {state next : σ}
    {value : α} {post : β → σ → Prop} (h : program state=.ok value next)
    (hm : measure next=measure state) (hf : Delivers measure (rest value) next post) :
    Delivers measure (program >>= rest) state post := by
  intro hk
  have he : after (program >>= rest) state=after (rest value) next := by
    simp only [after,bind_of_ok h]
  rw [he,←hm] at hk
  obtain ⟨result,last,hr,hl,hp⟩ := hf hk
  exact ⟨result,last,(bind_of_ok h).trans hr,hl.trans hm,hp⟩

/-- A run that is another run delivers the same. -/
theorem Delivers.of_eq {program other : EStateM ε σ α} {state start : σ} {post : α → σ → Prop}
    (he : program state=other start) (hm : measure start=measure state)
    (h : Delivers measure other start post) : Delivers measure program state post := by
  intro hk
  have ha : after program state=after other start := by simp only [after,he]
  rw [ha,←hm] at hk
  obtain ⟨value,next,hr,hn,hp⟩ := h hk
  exact ⟨value,next,he.trans hr,hn.trans hm,hp⟩

/-- What was delivered holds of the result actually returned. -/
theorem Delivers.of_returned {program : EStateM ε σ α} {state next : σ} {value : α}
    {post : α → σ → Prop} (h : Delivers measure program state post)
    (hr : program state=.ok value next) (hm : measure next=measure state) : post value next := by
  obtain ⟨value',next',hr',_,hp⟩ := h (by rw [after_of_ok hr]; exact hm)
  rw [hr] at hr'
  cases hr'
  exact hp

end Delivers

end ComputerSystems.StateProgram
