import ComputerSystems.TransitionSystem
import Mathlib.Data.Fintype.Card
import Mathlib.Data.Fintype.Basic

/-!
# The reusable barrier of the sample sort

`barrier_wait` counts arrivals under a mutex; the last arrival resets the
count and broadcasts, every other one sleeps in a single
`pthread_cond_wait` that no loop surrounds. The threads are a step relation:
the mutex-protected section of an arrival is one step, a broadcast wakes all
current waiters, a woken thread returns later, and a waiter may wake without
a broadcast. As long as no waiter does, no thread gets through early.
-/

namespace ComputerSystems.SortBarrier

open TransitionSystem

/-- The fields of a `barrier` that its code reads. -/
structure Barrier where
  /-- Arrivals since the last broadcast. -/
  count : ℤ
  /-- The number of threads to wait for. -/
  seen : ℤ
  deriving DecidableEq

/-- `make_barrier`; zero threads fail its assertion. -/
def makeBarrier (nn : ℤ) : Option Barrier :=
  if nn≠0 then some {count := 0,seen := nn} else none

/-- Where a thread stands with respect to `barrier_wait`. -/
inductive Place
  /-- Not inside a call. -/
  | outside
  /-- Asleep in `pthread_cond_wait`, in the wait set of the condition variable. -/
  | waiting
  /-- Past the wait or the broadcast, about to unlock the mutex and return. -/
  | leaving
  deriving DecidableEq

/-- One thread with the history of its calls. -/
structure Thread where
  /-- Where it stands. -/
  place : Place
  /-- Calls of `barrier_wait` it has entered. -/
  entered : ℕ
  /-- Calls of `barrier_wait` it has returned from. -/
  returned : ℕ
  deriving DecidableEq

/-- The barrier and the threads that share it. -/
structure State (nn : ℕ) where
  /-- The shared barrier. -/
  barrier : Barrier
  /-- The threads. -/
  threads : Fin nn → Thread
  deriving DecidableEq

/-- The steps a run is made of. -/
inductive Action (nn : ℕ)
  /-- A call's section from taking the mutex to sleeping or broadcasting. -/
  | enter (thread : Fin nn)
  /-- A waiter wakes without a broadcast. -/
  | spurious (thread : Fin nn)
  /-- A woken thread retakes the mutex, unlocks it and returns. -/
  | leave (thread : Fin nn)
  deriving DecidableEq

variable {nn : ℕ}

/-- The thread enters a call and ends up sleeping or leaving. -/
def Thread.arrive (thread : Thread) (place : Place) : Thread :=
  {thread with place := place,entered := thread.entered+1}

/-- The thread returns from its call. -/
def Thread.depart (thread : Thread) : Thread :=
  {thread with place := .outside,returned := thread.returned+1}

/-- `pthread_cond_broadcast` wakes the waiters and nobody else. -/
def Thread.wake (thread : Thread) : Thread :=
  if thread.place=.waiting then {thread with place := .leaving} else thread

/-- The section of `barrier_wait` that holds the mutex on arrival. -/
def barrierWait (s : State nn) (t : Fin nn) : State nn :=
  let count := s.barrier.count+1
  if count≥s.barrier.seen then
    {barrier := {s.barrier with count := 0},
     threads := Function.update (fun u => (s.threads u).wake) t ((s.threads t).arrive .leaving)}
  else
    {barrier := {s.barrier with count := count},
     threads := Function.update s.threads t ((s.threads t).arrive .waiting)}

/-- One step of the system. -/
def step : Action nn → State nn → Option (State nn)
  | .enter t,s => if (s.threads t).place=.outside then some (barrierWait s t) else none
  | .spurious t,s =>
    if (s.threads t).place=.waiting then
      some {s with threads := Function.update s.threads t {s.threads t with place := .leaving}}
    else none
  | .leave t,s =>
    if (s.threads t).place=.leaving then
      some {s with threads := Function.update s.threads t (s.threads t).depart}
    else none

/-- Threads that have not called `barrier_wait` yet, sharing a barrier. -/
def begin (nn : ℕ) (b : Barrier) : State nn :=
  {barrier := b,threads := fun _ => {place := .outside,entered := 0,returned := 0}}

/-- Nobody has returned from a call that some thread has not entered. -/
def NoneEarly (s : State nn) : Prop :=
  ∀ k t, k ≤ (s.threads t).returned → ∀ u, k ≤ (s.threads u).entered

/-- The step is not a wake-up without a broadcast. -/
def Signalled (_ : State nn) : Action nn → Prop
  | .spurious _ => False
  | _ => True

instance (s : State nn) (a : Action nn) : Decidable (Signalled s a) :=
  match a with
  | .enter _ => inferInstanceAs (Decidable True)
  | .spurious _ => inferInstanceAs (Decidable False)
  | .leave _ => inferInstanceAs (Decidable True)

/-! ## The rounds of the barrier -/

/-- The sleeping threads. -/
def waiters (s : State nn) : Finset (Fin nn) :=
  Finset.univ.filter (fun t => (s.threads t).place=.waiting)

/-- A thread is among the sleeping ones when it waits. -/
@[simp] theorem mem_waiters {s : State nn} {t : Fin nn} :
    t∈waiters s ↔ (s.threads t).place=.waiting := by
  rw [waiters,Finset.mem_filter]
  exact and_iff_right (Finset.mem_univ t)

/-- What one thread's history looks like after a number of broadcasts. -/
def InRound (rounds : ℕ) (thread : Thread) : Prop :=
  match thread.place with
  | .outside => thread.entered=rounds ∧ thread.returned=rounds
  | .waiting => thread.entered=rounds+1 ∧ thread.returned=rounds
  | .leaving => thread.entered=rounds ∧ thread.returned+1=rounds

/-- After some number of broadcasts every thread is in the same round, and the
count is the number of sleeping threads. -/
structure Rounds (s : State nn) (rounds : ℕ) : Prop where
  /-- Every thread's history fits the number of broadcasts. -/
  inRound : ∀ t, InRound rounds (s.threads t)
  /-- Arrivals since the last broadcast are all asleep. -/
  counted : s.barrier.count=((waiters s).card : ℤ)
  /-- The barrier waits for all threads. -/
  seen : s.barrier.seen=(nn : ℤ)
  /-- Not everybody is asleep. -/
  open_ : (waiters s).card<nn

/-- In a common round nobody is early. -/
theorem Rounds.noneEarly {s : State nn} {rounds : ℕ} (h : Rounds s rounds) : NoneEarly s := by
  intro k t hk u
  have hreturned : (s.threads t).returned ≤ rounds := by
    have ht := h.inRound t
    simp only [InRound] at ht
    split at ht <;> omega
  have hentered : rounds ≤ (s.threads u).entered := by
    have hu := h.inRound u
    simp only [InRound] at hu
    split at hu <;> omega
  omega

/-- Threads that start together are in round zero. -/
theorem rounds_begin {b : Barrier} (h : makeBarrier (nn : ℤ)=some b) : Rounds (begin nn b) 0 := by
  simp only [makeBarrier] at h
  split_ifs at h with hn
  have hempty : waiters (begin nn b)=∅ := by
    simp only [waiters,begin,reduceCtorEq,Finset.filter_false]
  cases h
  constructor
  · intro t
    exact ⟨rfl,rfl⟩
  · rw [hempty]
    rfl
  · rfl
  · rw [hempty]
    simpa using Nat.pos_of_ne_zero (fun h0 => hn (by rw [h0]; rfl))

/-- An arrival that is not the last joins the sleeping threads. -/
theorem waiters_sleep {s : State nn} {t : Fin nn} {thread : Thread}
    (ht : thread.place=.waiting) {b : Barrier} :
    waiters {barrier := b,threads := Function.update s.threads t thread}=
      insert t (waiters s) := by
  ext u
  by_cases hu : u=t
  · subst hu
    simp [ht]
  · simp [hu]

/-- A thread that is not asleep afterwards does not count. -/
theorem waiters_awake {s : State nn} {t : Fin nn} {thread : Thread}
    (ht : thread.place≠.waiting) (hs : (s.threads t).place≠.waiting) {b : Barrier} :
    waiters {barrier := b,threads := Function.update s.threads t thread}=waiters s := by
  ext u
  by_cases hu : u=t
  · subst hu
    simp [ht,hs]
  · simp [hu]

/-- A broadcast leaves nobody asleep. -/
theorem waiters_broadcast {s : State nn} {t : Fin nn} {thread : Thread}
    (ht : thread.place≠.waiting) {b : Barrier} :
    waiters {barrier := b,threads := Function.update (fun u => (s.threads u).wake) t thread}=
      ∅ := by
  ext u
  by_cases hu : u=t
  · subst hu
    simp [ht]
  · by_cases hw : (s.threads u).place=.waiting
    · simp [hu,Thread.wake,hw]
    · simp [hu,Thread.wake,hw]

/-- When the last thread arrives all the others are asleep. -/
theorem others_waiting {s : State nn} {t : Fin nn} (ht : (s.threads t).place=.outside)
    (hcard : (nn : ℤ) ≤ ((waiters s).card : ℤ)+1) {u : Fin nn} (hu : u≠t) :
    (s.threads u).place=.waiting := by
  have hsub : waiters s⊆Finset.univ.erase t := by
    intro v hv
    rw [Finset.mem_erase]
    refine ⟨?_,Finset.mem_univ v⟩
    intro hvt
    rw [mem_waiters,hvt,ht] at hv
    exact Place.noConfusion hv
  have hcard' : (Finset.univ.erase t).card=nn-1 := by
    rw [Finset.card_erase_of_mem (Finset.mem_univ t),Finset.card_univ,Fintype.card_fin]
  have hle : (Finset.univ.erase t).card ≤ (waiters s).card := by omega
  have heq := Finset.eq_of_subset_of_card_le hsub hle
  have hmem : u∈waiters s := by
    rw [heq,Finset.mem_erase]
    exact ⟨hu,Finset.mem_univ u⟩
  exact mem_waiters.mp hmem

/-- An arrival keeps all threads in a common round, the next one if it is the
last. -/
theorem rounds_enter {s : State nn} {rounds : ℕ} (h : Rounds s rounds) {t : Fin nn}
    (ht : (s.threads t).place=.outside) : ∃ rounds', Rounds (barrierWait s t) rounds' := by
  have hout := h.inRound t
  simp only [InRound,ht] at hout
  have hpos : 0<nn := Nat.lt_of_le_of_lt (Nat.zero_le _) t.isLt
  by_cases hlast : s.barrier.count+1≥s.barrier.seen
  · have hcard : (nn : ℤ) ≤ ((waiters s).card : ℤ)+1 := by
      rw [←h.counted,←h.seen]
      exact hlast
    refine ⟨rounds+1,?_⟩
    simp only [barrierWait,if_pos hlast]
    constructor
    · intro u
      by_cases hu : u=t
      · subst hu
        simp only [Function.update_self,InRound,Thread.arrive]
        omega
      · have hw := others_waiting ht hcard hu
        have hround := h.inRound u
        simp only [InRound,hw] at hround
        simp only [Function.update_of_ne hu,InRound,Thread.wake,hw,if_true]
        omega
    · rw [waiters_broadcast (by simp [Thread.arrive])]
      rfl
    · exact h.seen
    · rw [waiters_broadcast (by simp [Thread.arrive])]
      exact hpos
  · have hfresh : t∉waiters s := by
      rw [mem_waiters,ht]
      exact Place.noConfusion
    have hcard : (insert t (waiters s)).card=(waiters s).card+1 :=
      Finset.card_insert_of_notMem hfresh
    have hcounted := h.counted
    have hseen := h.seen
    refine ⟨rounds,?_⟩
    simp only [barrierWait,if_neg hlast]
    constructor
    · intro u
      by_cases hu : u=t
      · subst hu
        simp only [Function.update_self,InRound,Thread.arrive]
        omega
      · simpa only [Function.update_of_ne hu] using h.inRound u
    · rw [waiters_sleep rfl,hcard]
      push_cast
      omega
    · exact hseen
    · rw [waiters_sleep rfl,hcard]
      omega

/-- A return keeps all threads in the round. -/
theorem rounds_leave {s : State nn} {rounds : ℕ} (h : Rounds s rounds) {t : Fin nn}
    (ht : (s.threads t).place=.leaving) :
    Rounds {s with threads := Function.update s.threads t (s.threads t).depart} rounds := by
  have hleaving := h.inRound t
  simp only [InRound,ht] at hleaving
  have hsame : waiters {s with threads := Function.update s.threads t (s.threads t).depart}=
      waiters s := waiters_awake (by simp [Thread.depart]) (by simp [ht])
  constructor
  · intro u
    by_cases hu : u=t
    · subst hu
      simp only [Function.update_self,InRound,Thread.depart]
      omega
    · simpa only [Function.update_of_ne hu] using h.inRound u
  · rw [hsame]
    exact h.counted
  · exact h.seen
  · rw [hsame]
    exact h.open_

/-- Every step other than a spurious wake-up keeps all threads in a common
round. -/
theorem rounds_step {s next : State nn} {a : Action nn} (h : ∃ rounds, Rounds s rounds)
    (ha : Signalled s a) (hs : step a s=some next) : ∃ rounds, Rounds next rounds := by
  obtain ⟨rounds,hr⟩ := h
  cases a with
  | enter t =>
    simp only [step] at hs
    split_ifs at hs with ht
    cases hs
    exact rounds_enter hr ht
  | spurious t => exact absurd ha id
  | leave t =>
    simp only [step] at hs
    split_ifs at hs with ht
    cases hs
    exact ⟨rounds,rounds_leave hr ht⟩

/-- In every run without spurious wake-ups, over any number of threads and
calls, a thread has returned from its `k`-th call only when all threads have
entered theirs. -/
theorem signalled_none_early (nn : ℕ) {b : Barrier} {s : State nn}
    (hb : makeBarrier (nn : ℤ)=some b) (hs : Reachable step Signalled (begin nn b) s) :
    NoneEarly s := by
  have hrounds : ∃ rounds, Rounds s rounds :=
    hs.invariant (fun s => ∃ rounds, Rounds s rounds) ⟨0,rounds_begin hb⟩
      (fun _ _ _ h ha hstep => rounds_step h ha hstep)
  obtain ⟨rounds,hr⟩ := hrounds
  exact hr.noneEarly

/-- Two threads that meet once: the first sleeps, the second wakes it, and it
returns. -/
theorem none_early_meeting :
    ∃ s, follow step Signalled [.enter (0 : Fin 2),.enter 1,.leave 0] (begin 2 ⟨0,2⟩)=some s ∧
      (s.threads 0).returned=1 ∧ NoneEarly s := by
  have hrun : ∃ s, follow step Signalled [.enter (0 : Fin 2),.enter 1,.leave 0]
      (begin 2 ⟨0,2⟩)=some s ∧ (s.threads 0).returned=1 := ⟨_,rfl,by decide⟩
  obtain ⟨s,hs,hreturned⟩ := hrun
  exact ⟨s,hs,hreturned,signalled_none_early 2 rfl (reachable_of_follow hs)⟩

/-- A waiter that wakes without a broadcast returns from its first call while
the other thread has not called `barrier_wait` at all. -/
theorem spurious_wake_early :
    ∃ s : State 2, Reachable step Anything (begin 2 ⟨0,2⟩) s ∧ makeBarrier 2=some ⟨0,2⟩ ∧
      (s.threads 0).returned=1 ∧ (s.threads 1).entered=0 ∧ ¬NoneEarly s := by
  have hrun : ∃ s, follow step Anything [.enter (0 : Fin 2),.spurious 0,.leave 0]
      (begin 2 ⟨0,2⟩)=some s ∧ (s.threads 0).returned=1 ∧ (s.threads 1).entered=0 :=
    ⟨_,rfl,by decide,by decide⟩
  obtain ⟨s,hs,hreturned,hentered⟩ := hrun
  refine ⟨s,reachable_of_follow hs,rfl,hreturned,hentered,?_⟩
  intro hearly
  have hone := hearly 1 0 (by rw [hreturned]) 1
  omega

end ComputerSystems.SortBarrier
