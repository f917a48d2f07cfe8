import Mathlib.Logic.Relation
import Mathlib.Tactic.Common

/-!
# Transition systems with a step function

A system is a partial step function over labelled actions: a label that is not
enabled in a state has no successor. This module names no particular system.
Reachability is taken relative to a condition on the state before a step and
on its label, so that one rule covers both all runs and the runs whose steps
meet a condition.
-/

namespace ComputerSystems.TransitionSystem

variable {σ ι : Type*}

/-- One step of the system under a label that meets the condition. -/
def Next (step : ι → σ → Option σ) (allowed : σ → ι → Prop) (before next : σ) : Prop :=
  ∃ label, allowed before label ∧ step label before=some next

/-- The condition that every step meets. -/
def Anything (_ : σ) (_ : ι) : Prop := True

instance (state : σ) (label : ι) : Decidable (Anything state label) :=
  inferInstanceAs (Decidable True)

/-- The states reached by runs whose every step meets the condition. -/
def Reachable (step : ι → σ → Option σ) (allowed : σ → ι → Prop) (start state : σ) : Prop :=
  Relation.ReflTransGen (Next step allowed) start state

/-- A run may stay where it starts. -/
theorem Reachable.start {step : ι → σ → Option σ} {allowed : σ → ι → Prop} (start : σ) :
    Reachable step allowed start start :=
  Relation.ReflTransGen.refl

/-- What holds at the start and survives every allowed step holds in every
reachable state. -/
theorem Reachable.invariant {step : ι → σ → Option σ} {allowed : σ → ι → Prop}
    {start state : σ} (h : Reachable step allowed start state) (property : σ → Prop)
    (hstart : property start)
    (hstep : ∀ label before next, property before → allowed before label →
      step label before=some next → property next) : property state := by
  induction h with
  | refl => exact hstart
  | tail _ hnext ih =>
    obtain ⟨label,hallowed,hs⟩ := hnext
    exact hstep label _ _ ih hallowed hs

/-- An allowed step leads from a reachable state to a reachable state. -/
theorem Reachable.step {step : ι → σ → Option σ} {allowed : σ → ι → Prop}
    {start state next : σ} {label : ι} (h : Reachable step allowed start state)
    (ha : allowed state label) (hs : step label state=some next) :
    Reachable step allowed start next :=
  Relation.ReflTransGen.tail h ⟨label,ha,hs⟩

/-- Runs whose steps meet a condition are runs whose steps meet a wider one. -/
theorem Reachable.mono {step : ι → σ → Option σ} {allowed wider : σ → ι → Prop}
    {start state : σ} (h : Reachable step allowed start state)
    (hwider : ∀ state label, allowed state label → wider state label) :
    Reachable step wider start state := by
  refine Relation.ReflTransGen.mono ?_ start state h
  rintro before next ⟨label,ha,hs⟩
  exact ⟨label,hwider _ _ ha,hs⟩

/-- A system that can decrease a measure until it is done can be driven to the
end from every state that meets an invariant. -/
theorem exists_done_of {step : ι → σ → Option σ} {allowed : σ → ι → Prop} {inv done : σ → Prop}
    (measure : σ → ℕ)
    (hinv : ∀ label before next, inv before → allowed before label →
      step label before=some next → inv next)
    (hprogress : ∀ state, inv state → ¬done state → ∃ label next, allowed state label ∧
      step label state=some next ∧ measure next < measure state) :
    ∀ state, inv state → ∃ last, Reachable step allowed state last ∧ done last := by
  have hdrive : ∀ bound state, inv state → measure state ≤ bound →
      ∃ last, Reachable step allowed state last ∧ done last := by
    intro bound
    induction bound with
    | zero =>
      intro state hi hm
      by_cases hd : done state
      · exact ⟨state,Reachable.start state,hd⟩
      · obtain ⟨label,next,-,-,hlt⟩ := hprogress state hi hd
        omega
    | succ bound ih =>
      intro state hi hm
      by_cases hd : done state
      · exact ⟨state,Reachable.start state,hd⟩
      · obtain ⟨label,next,ha,hs,hlt⟩ := hprogress state hi hd
        obtain ⟨last,hlast,hdone⟩ := ih next (hinv label state next hi ha hs) (by omega)
        exact ⟨last,Relation.ReflTransGen.head ⟨label,ha,hs⟩ hlast,hdone⟩
  exact fun state hi => hdrive (measure state) state hi (Nat.le_refl _)

/-- A system that can decrease a measure until it is done can be driven to the
end. -/
theorem Reachable.exists_done {step : ι → σ → Option σ} {allowed : σ → ι → Prop}
    {start : σ} (done : σ → Prop) (measure : σ → ℕ)
    (hprogress : ∀ state, ¬done state → ∃ label next, allowed state label ∧
      step label state=some next ∧ measure next < measure state) :
    ∃ state, Reachable step allowed start state ∧ done state :=
  exists_done_of measure (fun _ _ _ _ _ _ => trivial) (fun state (_ : True) => hprogress state)
    start trivial

/-- Follow a list of labels, checking the condition before each step. -/
def follow (step : ι → σ → Option σ) (allowed : σ → ι → Prop)
    [∀ state label, Decidable (allowed state label)] : List ι → σ → Option σ
  | [], state => some state
  | label :: rest, state =>
    if allowed state label then (step label state).bind (follow step allowed rest) else none

/-- Following a list of labels, one step at a time. -/
theorem follow_cons {step : ι → σ → Option σ} {label : ι} {rest : List ι} {state : σ} :
    follow step Anything (label::rest) state=(step label state).bind (follow step Anything rest) :=
  if_pos trivial

/-- Following a list of labels from the state behind its first one. -/
theorem follow_cons_of {step : ι → σ → Option σ} {allowed : σ → ι → Prop}
    [∀ state label, Decidable (allowed state label)] {label : ι} {rest : List ι}
    {state next : σ} (ha : allowed state label) (hs : step label state=some next) :
    follow step allowed (label::rest) state=follow step allowed rest next := by
  rw [follow,if_pos ha,hs,Option.bind_some]

/-- What a list of labels leads to is reachable. -/
theorem reachable_of_follow {step : ι → σ → Option σ} {allowed : σ → ι → Prop}
    [∀ state label, Decidable (allowed state label)] {labels : List ι} {start state : σ}
    (h : follow step allowed labels start=some state) : Reachable step allowed start state := by
  induction labels generalizing start with
  | nil =>
    cases h
    exact Reachable.start _
  | cons label rest ih =>
    simp only [follow] at h
    split_ifs at h with hallowed
    obtain ⟨next,hnext,hrest⟩ := Option.bind_eq_some_iff.mp h
    exact Relation.ReflTransGen.head ⟨label,hallowed,hnext⟩ (ih hrest)

/-- What is reachable is reached along some list of labels. -/
theorem Reachable.exists_follow {step : ι → σ → Option σ} {start state : σ}
    (h : Reachable step Anything start state) :
    ∃ labels, follow step Anything labels start=some state := by
  induction h using Relation.ReflTransGen.head_induction_on with
  | refl => exact ⟨[],rfl⟩
  | head hnext _ ih =>
    obtain ⟨label,_,hs⟩ := hnext
    obtain ⟨labels,hl⟩ := ih
    refine ⟨label::labels,?_⟩
    rw [follow_cons,hs,Option.bind_some,hl]

/-! ## Simulation -/

/-- What an observer sees along a list of labels. -/
def observations {ε : Type*} (step : ι → σ → Option σ) (observe : σ → ι → Option ε) :
    List ι → σ → List ε
  | [],_ => []
  | label :: rest,state =>
    (observe state label).toList++
      ((step label state).map (observations step observe rest)).getD []

/-- Following two lists of labels one after the other. -/
theorem follow_append {step : ι → σ → Option σ} {first second : List ι} {state : σ} :
    follow step Anything (first++second) state=
      (follow step Anything first state).bind (follow step Anything second) := by
  induction first generalizing state with
  | nil => rfl
  | cons label rest ih =>
    rw [List.cons_append,follow_cons,follow_cons]
    cases step label state with
    | none => rfl
    | some next => exact ih

/-- When every step is matched by what is observed of it, so is every run. -/
theorem follow_simulates {ε τ : Type*} {step : ι → σ → Option σ} {allowed : σ → ι → Prop}
    [∀ state label, Decidable (allowed state label)] {spec : ε → τ → Option τ}
    {observe : σ → ι → Option ε} (matched : σ → τ → Prop)
    (hstep : ∀ label before next a, matched before a → allowed before label →
      step label before=some next →
      ∃ a', follow spec Anything (observe before label).toList a=some a' ∧ matched next a') :
    ∀ {labels : List ι} {start last : σ} {a : τ}, matched start a →
      follow step allowed labels start=some last →
      ∃ a', follow spec Anything (observations step observe labels start) a=some a' ∧
        matched last a' := by
  intro labels
  induction labels with
  | nil =>
    intro start last a hm h
    cases h
    exact ⟨a,rfl,hm⟩
  | cons label rest ih =>
    intro start last a hm h
    simp only [follow] at h
    split_ifs at h with hallowed
    obtain ⟨next,hnext,hrest⟩ := Option.bind_eq_some_iff.mp h
    obtain ⟨a',hfirst,hm'⟩ := hstep label start next a hm hallowed hnext
    obtain ⟨a'',hlater,hm''⟩ := ih hm' hrest
    refine ⟨a'',?_,hm''⟩
    rw [observations,hnext,Option.map_some,Option.getD_some,follow_append,hfirst,Option.bind_some,
      hlater]

end ComputerSystems.TransitionSystem
