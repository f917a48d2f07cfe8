import Mathlib.Data.Multiset.AddSub
import ComputerSystems.ProcessTree

/-!
# The calls that the processes of a tree make

A step of a process that stands before `execvp` or a request is a call of it,
whatever the answer. An observer notes what it wants of each call, and the notes
along a run are counted with their number. Fates that agree with the code say which
calls a process and its children can still make; what was noted and what can still
be noted stays the same in every step, so a run makes no other calls, and one that
goes on until no process can move makes all of them. Without any fates, code that
holds certain calls only makes no others. This module names no particular program.
-/

namespace ComputerSystems.ProcessCalls

open ProcessTree TransitionSystem

variable {ι κ ω : Type} {note : ι ⊕ κ → Multiset ω} {world : World ι κ} {fate : Pid → Fate}

/-- The note on the next step of a process, by the program it asks for or by its
request. -/
def asked (note : ι ⊕ κ → Multiset ω) (s : State ι κ) (p : Pid) : Multiset ω :=
  match s p with
  | some ⟨.inside (.execvp image _),_⟩ => note (.inl image)
  | some ⟨.inside (.request call _),_⟩ => note (.inr call)
  | _ => 0

/-- The notes along a run. -/
def noted (note : ι ⊕ κ → Multiset ω) (world : World ι κ) : List Pid → State ι κ → Multiset ω
  | [],_ => 0
  | p::moves,s =>
    asked note s p+match step world p s with
      | some next => noted note world moves next
      | none => 0

/-- The notes that a process and the children it will fork can still cause inside a
piece of code. -/
def asks (note : ι ⊕ κ → Multiset ω) (world : World ι κ) (fate : Pid → Fate) :
    Pid → ℕ → Code ι κ Unit → Multiset ω
  | _,_,.done _ => 0
  | _,_,.exit _ => 0
  | _,_,.abort => 0
  | _,_,.undefined => 0
  | p,forks,.fork next =>
    asks note world fate p (forks+1) (next (some forks))+
      asks note world fate (p++[forks]) 0 (next none)
  | p,forks,.waitpid child next =>
    match (fate (p++[child])).status world (p++[child]) with
    | some status => asks note world fate p forks (next status)
    | none => 0
  | p,forks,.execvp image next =>
    note (.inl image)+match world.execvp p image with
      | some _ => 0
      | none => asks note world fate p forks next
  | p,forks,.request call next =>
    note (.inr call)+asks note world fate p forks (next (world.request p call))

/-- The notes that a process can still cause. -/
def pending (note : ι ⊕ κ → Multiset ω) (world : World ι κ) (fate : Pid → Fate) (p : Pid) :
    Option (Process ι κ) → Multiset ω
  | some ⟨.inside code,forks⟩ => asks note world fate p forks code
  | _ => 0

/-- The observer that notes every program that is asked for. -/
def programs : ι ⊕ κ → Multiset ι := Sum.elim (fun image => {image}) (fun _ => 0)

/-- The calls of `execvp` along a run. -/
abbrev callsAlong (world : World ι κ) : List Pid → State ι κ → Multiset ι := noted programs world

/-! ## Calls that the fates name -/

/-- A move makes the call that it is. -/
theorem asked_moves {s : State ι κ} (h : Sound world fate s) {p : Pid}
    {before after : Activity ι κ} {forks : ℕ} (hp : s p=some ⟨before,forks⟩)
    (hm : Moves world s p before after) :
    asked note s p+pending note world fate p (some ⟨after,forks⟩)=
      pending note world fate p (some ⟨before,forks⟩) := by
  unfold asked
  rw [hp]
  cases hm with
  | done result => exact zero_add _
  | exit code => exact zero_add _
  | abort => exact zero_add _
  | waitpid hchild hstatus =>
    have hfate := (h.follows _ _ hchild).status hstatus
    simp only [pending,asks,hfate,zero_add]
  | replace hexec => simp only [pending,asks,hexec]
  | refuse hexec => simp only [pending,asks,hexec]
  | request call next => rfl
  | leave hroot => exact zero_add _
  | finish status => exact zero_add _

/-- What was noted and what can still be noted stays the same in every step. -/
theorem calls_step {s next : State ι κ} {p : Pid} (h : Sound world fate s)
    (hs : step world p s=some next) {pids : Finset Pid} (hcovers : Covers pids s) :
    ∃ more, Covers more next ∧ asked note s p+account (pending note world fate) next more=
      account (pending note world fate) s pids := by
  refine h.account_step hs hcovers (fun _ => rfl) (fun before after forks hp hm => ?_)
    (fun code forks hp => ?_)
  · exact asked_moves h hp hm
  · unfold asked
    rw [hp]
    exact zero_add _

/-- What is noted along a run: by induction on the run. -/
theorem calls_run (moves : List Pid) : ∀ {s last : State ι κ} {pids : Finset Pid},
    Sound world fate s → Covers pids s → follow (step world) Anything moves s=some last →
    ∃ more, Sound world fate last ∧ Covers more last ∧
      noted note world moves s+account (pending note world fate) last more=
        account (pending note world fate) s pids := by
  induction moves with
  | nil =>
    intro s last pids hsound hcovers hrun
    cases hrun
    exact ⟨pids,hsound,hcovers,zero_add _⟩
  | cons p moves ih =>
    intro s last pids hsound hcovers hrun
    rw [follow_cons] at hrun
    obtain ⟨next,hnext,hrest⟩ := Option.bind_eq_some_iff.mp hrun
    obtain ⟨middle,hmiddle,hstep⟩ := calls_step hsound hnext hcovers
    obtain ⟨more,hlast,hmore,hcalls⟩ := ih (hsound.step hnext) hmiddle hrest
    refine ⟨more,hlast,hmore,?_⟩
    rw [noted,hnext,add_assoc,hcalls,hstep]

/-- A process that is stuck inside its code can make no call. -/
theorem asks_of_stuck {p : Pid} {forks : ℕ} {code : Code ι κ Unit}
    (h : Stuck world fate p code) : asks note world fate p forks code=0 := by
  rcases h with rfl|⟨child,next,rfl,hstatus⟩
  · rfl
  · simp only [asks,hstatus]

section Runs

variable {code : Code ι κ Unit}

/-- Where no process can move, no call is left. -/
theorem pending_of_still (h : Agrees world fate [] 0 code) {s : State ι κ}
    (hs : Reachable (step world) Anything (start code) s) (hstill : ∀ p, step world p s=none)
    (p : Pid) : pending note world fate p (s p)=0 := by
  cases hp : s p with
  | none => rfl
  | some process =>
    obtain ⟨activity,forks⟩ := process
    cases activity with
    | inside code =>
      refine asks_of_stuck ((sound_of_reachable h hs).stuck_of_children hstill hp ?_)
      exact fun child below hbelow => met_of_still h hs hstill hbelow
    | returned => rfl
    | left status => rfl
    | replaced status => rfl
    | finished status => rfl
    | ended status => rfl

/-- A run makes calls that the fates name, and a run to the end makes all of them. -/
theorem calls_of_fate (h : Agrees world fate [] 0 code) {moves : List Pid} {last : State ι κ}
    (hrun : follow (step world) Anything moves (start code)=some last) :
    noted note world moves (start code)≤asks note world fate [] 0 code ∧
      ((∀ p, step world p last=none) →
        noted note world moves (start code)=asks note world fate [] 0 code) := by
  obtain ⟨more,hsound,hcovers,hcalls⟩ := calls_run moves (sound_start h) (covers_start code) hrun
  have hstart : account (pending note world fate) (start code) {[]}=
      asks note world fate [] 0 code := by
    rw [account,Finset.sum_singleton,start,put_same]
    rfl
  rw [hstart] at hcalls
  refine ⟨Multiset.le_iff_exists_add.mpr ⟨_,hcalls.symm⟩,fun hstill => ?_⟩
  have hnone : account (pending note world fate) last more=0 :=
    Finset.sum_eq_zero (fun p _ => pending_of_still h (reachable_of_follow hrun) hstill p)
  rw [hnone,add_zero] at hcalls
  exact hcalls

/-- Some run goes on to the end, and makes these calls. -/
theorem exists_complete (note : ι ⊕ κ → Multiset ω) (h : Agrees world fate [] 0 code) :
    ∃ moves last, follow (step world) Anything moves (start code)=some last ∧
      (∀ p, step world p last=none) ∧
      noted note world moves (start code)=asks note world fate [] 0 code := by
  obtain ⟨last,hlast,hstill⟩ := exists_still h
  obtain ⟨moves,hrun⟩ := hlast.exists_follow
  exact ⟨moves,last,hrun,hstill,(calls_of_fate h hrun).2 hstill⟩

/-- What holds of the calls that the fates name holds of all calls of all runs, and
the other way round. -/
theorem forall_calls_iff (h : Agrees world fate [] 0 code) (property : ω → Prop) :
    (∀ moves last, follow (step world) Anything moves (start code)=some last →
      ∀ item∈noted note world moves (start code), property item) ↔
      ∀ item∈asks note world fate [] 0 code, property item := by
  constructor
  · intro hall item hitem
    obtain ⟨moves,last,hrun,_,hcalls⟩ := exists_complete note h
    refine hall moves last hrun item ?_
    rwa [hcalls]
  · intro hall moves last hrun item hitem
    exact hall item (Multiset.mem_of_le (calls_of_fate h hrun).1 hitem)

/-- What holds of the calls that the fates name holds of the calls of every run to
the end, and the other way round. -/
theorem complete_calls_iff (h : Agrees world fate [] 0 code) (property : Multiset ω → Prop) :
    (∀ moves last, follow (step world) Anything moves (start code)=some last →
      (∀ p, step world p last=none) → property (noted note world moves (start code))) ↔
      property (asks note world fate [] 0 code) := by
  constructor
  · intro hall
    obtain ⟨moves,last,hrun,hstill,hcalls⟩ := exists_complete note h
    have hprop := hall moves last hrun hstill
    rwa [hcalls] at hprop
  · intro hprop moves last hrun hstill
    rw [(calls_of_fate h hrun).2 hstill]
    exact hprop

end Runs

/-! ## Calls that the code holds -/

/-- Whatever is answered, the code makes allowed calls only, all its effects are
known, and what it returns has a property. -/
def Only {α : Type} (allowed : ι ⊕ κ → Prop) (result : α → Prop) : Code ι κ α → Prop
  | .done value => result value
  | .exit _ => True
  | .abort => True
  | .undefined => False
  | .fork next => ∀ child, Only allowed result (next child)
  | .waitpid _ next => ∀ status, Only allowed result (next status)
  | .execvp image next => allowed (.inl image) ∧ Only allowed result next
  | .request call next => allowed (.inr call) ∧ ∀ answer, Only allowed result (next answer)

/-- One piece of code after the other: by induction on the first. -/
theorem only_bind {α β : Type} {allowed : ι ⊕ κ → Prop} {result : β → Prop}
    {f : α → Code ι κ β} {code : Code ι κ α}
    (h : Only allowed (fun value => Only allowed result (f value)) code) :
    Only allowed result (code >>= f) := by
  induction code with
  | done value => exact h
  | exit code => trivial
  | abort => trivial
  | undefined => exact h
  | fork next ih => exact fun child => ih child (h child)
  | waitpid child next ih => exact fun status => ih status (h status)
  | execvp image next ih => exact ⟨h.1,ih h.2⟩
  | request call next ih => exact ⟨h.1,fun answer => ih answer (h.2 answer)⟩

/-- Every process that runs its code will make allowed calls only. -/
def AllOnly (allowed : ι ⊕ κ → Prop) (s : State ι κ) : Prop :=
  ∀ p code forks, s p=some ⟨.inside code,forks⟩ → Only allowed (fun _ => True) code

/-- Changing one process. -/
theorem AllOnly.put {allowed : ι ⊕ κ → Prop} {s : State ι κ} (h : AllOnly allowed s) (p : Pid)
    {activity : Activity ι κ} {forks : ℕ}
    (hnew : ∀ code, activity=.inside code → Only allowed (fun _ => True) code) :
    AllOnly allowed (put s p ⟨activity,forks⟩) := by
  intro q code number hq
  by_cases hpq : q=p
  · subst hpq
    rw [put_same] at hq
    cases hq
    exact hnew code rfl
  · rw [put_other s _ hpq] at hq
    exact h q code number hq

/-- A step keeps to the allowed calls, and what it notes is one of them. -/
theorem AllOnly.step {allowed : ι ⊕ κ → Prop} {s next : State ι κ} {p : Pid}
    (h : AllOnly allowed s) (hs : ProcessTree.step world p s=some next) :
    AllOnly allowed next ∧ ∀ item∈asked note s p, ∃ call, allowed call ∧ item∈note call := by
  unfold asked
  rcases step_cases hs with ⟨before,after,forks,hp,hm,rfl⟩|⟨code,forks,hp,rfl⟩
  · rw [hp]
    cases hm with
    | done result => exact ⟨h.put p (fun _ hc => by cases hc),fun _ hi => absurd hi (by simp)⟩
    | exit code => exact ⟨h.put p (fun _ hc => by cases hc),fun _ hi => absurd hi (by simp)⟩
    | abort => exact ⟨h.put p (fun _ hc => by cases hc),fun _ hi => absurd hi (by simp)⟩
    | waitpid hchild hstatus =>
      have hnext := h _ _ _ hp
      exact ⟨h.put p (fun _ hc => by cases hc; exact hnext _),fun _ hi => absurd hi (by simp)⟩
    | replace hexec =>
      have hnext := h _ _ _ hp
      exact ⟨h.put p (fun _ hc => by cases hc),fun _ hi => ⟨_,hnext.1,hi⟩⟩
    | refuse hexec =>
      have hnext := h _ _ _ hp
      exact ⟨h.put p (fun _ hc => by cases hc; exact hnext.2),fun _ hi => ⟨_,hnext.1,hi⟩⟩
    | request call next =>
      have hnext := h _ _ _ hp
      exact ⟨h.put p (fun _ hc => by cases hc; exact hnext.2 _),fun _ hi => ⟨_,hnext.1,hi⟩⟩
    | leave hroot => exact ⟨h.put p (fun _ hc => by cases hc),fun _ hi => absurd hi (by simp)⟩
    | finish status => exact ⟨h.put p (fun _ hc => by cases hc),fun _ hi => absurd hi (by simp)⟩
  · rw [hp]
    have hnext := h _ _ _ hp
    refine ⟨?_,fun _ hi => absurd hi (by simp)⟩
    exact (h.put _ (fun _ hc => by cases hc; exact hnext none)).put p
      (fun _ hc => by cases hc; exact hnext (some forks))

/-- So does a run: by induction on it. -/
theorem AllOnly.run {allowed : ι ⊕ κ → Prop} (moves : List Pid) : ∀ {s last : State ι κ},
    AllOnly allowed s → follow (ProcessTree.step world) Anything moves s=some last →
    AllOnly allowed last ∧
      ∀ item∈noted note world moves s, ∃ call, allowed call ∧ item∈note call := by
  induction moves with
  | nil =>
    intro s last h hrun
    cases hrun
    exact ⟨h,fun item hitem => absurd hitem (Multiset.notMem_zero item)⟩
  | cons p moves ih =>
    intro s last h hrun
    rw [follow_cons] at hrun
    obtain ⟨next,hnext,hrest⟩ := Option.bind_eq_some_iff.mp hrun
    have hstep : AllOnly allowed next ∧
        ∀ item∈asked note s p, ∃ call, allowed call ∧ item∈note call := h.step hnext
    obtain ⟨hkeeps,hasked⟩ := hstep
    obtain ⟨hlast,hlater⟩ := ih hkeeps hrest
    refine ⟨hlast,fun item hitem => ?_⟩
    rw [noted,hnext] at hitem
    rcases Multiset.mem_add.mp hitem with hfirst|hrest
    · exact hasked item hfirst
    · exact hlater item hrest

/-- Code that makes allowed calls only makes no others in any run, and no process
gets where nothing is known of it. -/
theorem only_run {allowed : ι ⊕ κ → Prop} {code : Code ι κ Unit}
    (h : Only allowed (fun _ => True) code) {moves : List Pid} {last : State ι κ}
    (hrun : follow (step world) Anything moves (start code)=some last) :
    (∀ item∈noted note world moves (start code), ∃ call, allowed call ∧ item∈note call) ∧
      ∀ p forks, last p≠some ⟨.inside .undefined,forks⟩ := by
  have hstart : AllOnly allowed (start code) := by
    have hnone : AllOnly allowed (fun _ => none : State ι κ) := fun _ _ _ hp => by cases hp
    exact hnone.put [] (fun _ hc => by cases hc; exact h)
  obtain ⟨hlast,hnoted⟩ := hstart.run moves hrun
  exact ⟨hnoted,fun p forks hp => hlast p _ forks hp⟩

end ComputerSystems.ProcessCalls
