import Mathlib.Algebra.BigOperators.Group.Finset.Basic
import Mathlib.Data.Finset.Lattice.Fold
import ComputerSystems.TransitionSystem

/-!
# Process trees

The code of a process is a tree of system calls: forking, waiting for a child,
replacing the program, ending, and other requests. Processes are named by
their place below the root and move one at a time in any order; the world
answers their calls. This module names no particular program. An assignment
of a fate to every process that agrees with the code decides every run: runs
have bounded length, and where no process can move each has met its fate.
-/

namespace ComputerSystems.ProcessTree

open TransitionSystem

/-- How a process ended: by its own exit code or by a signal. -/
inductive Status
  /-- The process ended with this code. -/
  | exited (code : UInt8)
  /-- The process was killed by a signal. -/
  | signaled
deriving DecidableEq

/-- The place of a process below the root: the root is `[]`, its first child
`[0]`. -/
abbrev Pid := List ℕ

/-- The code of a process, up to the return from it; `ι` are the programs it
can be replaced by and `κ` the other requests. -/
inductive Code (ι κ α : Type)
  /-- The code returns. -/
  | done (result : α)
  /-- The process ends. -/
  | exit (code : UInt8)
  /-- The process kills itself. -/
  | abort
  /-- Nothing is known of what the process does from here on. -/
  | undefined
  /-- A new process goes on with `none`, the old one with the number of the child. -/
  | fork (next : Option ℕ → Code ι κ α)
  /-- The process blocks until a child has ended. -/
  | waitpid (child : ℕ) (next : Status → Code ι κ α)
  /-- The process is replaced by a program; it goes on where this fails. -/
  | execvp (image : ι) (next : Code ι κ α)
  /-- A request that succeeds or fails. -/
  | request (call : κ) (next : Bool → Code ι κ α)

variable {ι κ α β : Type}

/-- One piece of code after the other. -/
def Code.bind : Code ι κ α → (α → Code ι κ β) → Code ι κ β
  | .done result,f => f result
  | .exit code,_ => .exit code
  | .abort,_ => .abort
  | .undefined,_ => .undefined
  | .fork next,f => .fork (fun child => (next child).bind f)
  | .waitpid child next,f => .waitpid child (fun status => (next status).bind f)
  | .execvp image next,f => .execvp image (next.bind f)
  | .request call next,f => .request call (fun answer => (next answer).bind f)

instance : Monad (Code ι κ) where
  pure := Code.done
  bind := Code.bind

/-- `fork`: the number of the child, or nothing in the child. -/
def fork : Code ι κ (Option ℕ) := .fork .done

/-- `waitpid` for one child. -/
def waitpid (child : ℕ) : Code ι κ Status := .waitpid child .done

/-- `execvp`, which returns only where it fails. -/
def execvp (image : ι) : Code ι κ Unit := .execvp image (.done ())

/-- A request and whether it succeeded. -/
def request (call : κ) : Code ι κ Bool := .request call .done

/-- `exit`. -/
def exit (code : UInt8) : Code ι κ α := .exit code

/-- `abort`. -/
def abort : Code ι κ α := .abort

/-- A result is handed on. -/
@[simp] theorem pure_bind_code (result : α) (f : α → Code ι κ β) : (pure result >>= f)=f result := rfl

/-- Code is run from left to right: by induction on the first piece. -/
theorem code_bind_assoc {γ : Type} (code : Code ι κ α) (f : α → Code ι κ β) (g : β → Code ι κ γ) :
    (code >>= f >>= g)=code >>= fun result => f result >>= g := by
  induction code with
  | done result => rfl
  | exit code => rfl
  | abort => rfl
  | undefined => rfl
  | fork next ih => exact congrArg Code.fork (funext ih)
  | waitpid child next ih => exact congrArg (Code.waitpid child) (funext ih)
  | execvp image next ih => exact congrArg (Code.execvp image) ih
  | request call next ih => exact congrArg (Code.request call) (funext ih)

/-- Both processes go on. -/
@[simp] theorem fork_bind (f : Option ℕ → Code ι κ β) : (fork >>= f)=.fork f := rfl

/-- The process goes on with the status. -/
@[simp] theorem waitpid_bind (child : ℕ) (f : Status → Code ι κ β) :
    (waitpid child >>= f)=.waitpid child f := rfl

/-- The process goes on where the program cannot be started. -/
@[simp] theorem execvp_bind (image : ι) (f : Unit → Code ι κ β) :
    (execvp image >>= f)=.execvp image (f ()) := rfl

/-- The process goes on with the answer. -/
@[simp] theorem request_bind (call : κ) (f : Bool → Code ι κ β) :
    (request call >>= f)=.request call f := rfl

/-- Nothing follows `abort`. -/
@[simp] theorem abort_bind (f : α → Code ι κ β) : (abort >>= f)=.abort := rfl

/-- The answers that processes get. -/
structure World (ι κ : Type) where
  /-- How the program that a process is replaced by ends; nothing where it
  cannot be started. -/
  execvp : Pid → ι → Option Status
  /-- Whether a request succeeds. -/
  request : Pid → κ → Bool
  /-- How a child ends that has returned from its code. -/
  leave : Pid → Status

/-- What a process is doing. -/
inductive Activity (ι κ : Type)
  /-- It runs its code. -/
  | inside (code : Code ι κ Unit)
  /-- It has returned from its code. -/
  | returned
  /-- It has ended after returning. -/
  | left (status : Status)
  /-- It runs another program. -/
  | replaced (status : Status)
  /-- The other program has ended. -/
  | finished (status : Status)
  /-- It has ended inside its code. -/
  | ended (status : Status)

/-- The status that can be waited for. -/
def Activity.status : Activity ι κ → Option Status
  | .left status => some status
  | .finished status => some status
  | .ended status => some status
  | _ => none

/-- A process: what it does and how many children it has forked. -/
structure Process (ι κ : Type) where
  /-- What the process is doing. -/
  activity : Activity ι κ
  /-- The number of children. -/
  forks : ℕ

/-- All processes. -/
abbrev State (ι κ : Type) := Pid → Option (Process ι κ)

/-- Change one process. -/
def put (s : State ι κ) (p : Pid) (process : Process ι κ) : State ι κ :=
  Function.update s p (some process)

/-- One process alone, at the beginning of its code. -/
def start (code : Code ι κ Unit) : State ι κ :=
  put (fun _ => none) [] ⟨.inside code,0⟩

/-- One move of a process; processes that have ended, or must wait, cannot move. -/
def step (world : World ι κ) (p : Pid) (s : State ι κ) : Option (State ι κ) :=
  match s p with
  | none => none
  | some ⟨activity,forks⟩ =>
    match activity with
    | .inside (.done _) => some (put s p ⟨.returned,forks⟩)
    | .inside (.exit code) => some (put s p ⟨.ended (.exited code),forks⟩)
    | .inside .abort => some (put s p ⟨.ended .signaled,forks⟩)
    | .inside .undefined => none
    | .inside (.fork next) =>
      some (put (put s (p++[forks]) ⟨.inside (next none),0⟩) p ⟨.inside (next (some forks)),forks+1⟩)
    | .inside (.waitpid child next) =>
      ((s (p++[child])).bind (fun process => process.activity.status)).map
        (fun status => put s p ⟨.inside (next status),forks⟩)
    | .inside (.execvp image next) =>
      match world.execvp p image with
      | some status => some (put s p ⟨.replaced status,forks⟩)
      | none => some (put s p ⟨.inside next,forks⟩)
    | .inside (.request call next) =>
      some (put s p ⟨.inside (next (world.request p call)),forks⟩)
    | .returned => if p=[] then none else some (put s p ⟨.left (world.leave p),forks⟩)
    | .replaced status => some (put s p ⟨.finished status,forks⟩)
    | _ => none

/-! ## What is asked of a program -/

/-- A process that has returned from its code. -/
def Returned (s : State ι κ) (p : Pid) : Prop :=
  ∃ process, s p=some process ∧ (process.activity=.returned ∨ ∃ status, process.activity=.left status)

/-- The root ends itself in some run. -/
def Exits (world : World ι κ) (code : Code ι κ Unit) : Prop :=
  ∃ s, Reachable (step world) Anything (start code) s ∧
    ∃ result forks, s []=some ⟨.ended (.exited result),forks⟩

/-- No child ever returns, and the root returns in every run unless it exits. -/
structure OnlyRootReturns (world : World ι κ) (code : Code ι κ Unit) : Prop where
  /-- No other process than the root has returned. -/
  children : ∀ s, Reachable (step world) Anything (start code) s → ∀ p≠[], ¬Returned s p
  /-- Runs do not go on for ever. -/
  bounded : ∃ bound, ∀ moves s, follow (step world) Anything moves (start code)=some s →
    moves.length≤bound
  /-- Where no process can move, the root has returned. -/
  root : ¬Exits world code → ∀ s, Reachable (step world) Anything (start code) s →
    (∀ p, step world p s=none) → ∃ forks, s []=some ⟨.returned,forks⟩

/-! ## Moves -/

/-- Moves of a process that leave the others alone. -/
inductive Moves (world : World ι κ) (s : State ι κ) (p : Pid) : Activity ι κ → Activity ι κ → Prop
  /-- The code returns. -/
  | done (result : Unit) : Moves world s p (.inside (.done result)) .returned
  /-- The process ends. -/
  | exit (code : UInt8) : Moves world s p (.inside (.exit code)) (.ended (.exited code))
  /-- The process kills itself. -/
  | abort : Moves world s p (.inside .abort) (.ended .signaled)
  /-- A child has ended. -/
  | waitpid {child : ℕ} {next : Status → Code ι κ Unit} {process : Process ι κ} {status : Status}
      (hchild : s (p++[child])=some process) (hstatus : process.activity.status=some status) :
      Moves world s p (.inside (.waitpid child next)) (.inside (next status))
  /-- The process is replaced. -/
  | replace {image : ι} {next : Code ι κ Unit} {status : Status}
      (h : world.execvp p image=some status) :
      Moves world s p (.inside (.execvp image next)) (.replaced status)
  /-- The program cannot be started. -/
  | refuse {image : ι} {next : Code ι κ Unit} (h : world.execvp p image=none) :
      Moves world s p (.inside (.execvp image next)) (.inside next)
  /-- A request is answered. -/
  | request (call : κ) (next : Bool → Code ι κ Unit) :
      Moves world s p (.inside (.request call next)) (.inside (next (world.request p call)))
  /-- A child that has returned ends. -/
  | leave (h : p≠[]) : Moves world s p .returned (.left (world.leave p))
  /-- The other program ends. -/
  | finish (status : Status) : Moves world s p (.replaced status) (.finished status)

/-- The two kinds of steps: a move of one process, or a fork. -/
theorem step_cases {world : World ι κ} {s next : State ι κ} {p : Pid} (h : step world p s=some next) :
    (∃ before after forks, s p=some ⟨before,forks⟩ ∧ Moves world s p before after ∧
      next=put s p ⟨after,forks⟩) ∨
    (∃ code forks, s p=some ⟨.inside (.fork code),forks⟩ ∧
      next=put (put s (p++[forks]) ⟨.inside (code none),0⟩) p
        ⟨.inside (code (some forks)),forks+1⟩) := by
  unfold step at h
  split at h
  · cases h
  · rename_i activity forks hp
    split at h
    · cases h
      exact Or.inl ⟨_,_,forks,hp,Moves.done _,rfl⟩
    · cases h
      exact Or.inl ⟨_,_,forks,hp,Moves.exit _,rfl⟩
    · cases h
      exact Or.inl ⟨_,_,forks,hp,Moves.abort,rfl⟩
    · cases h
    · cases h
      exact Or.inr ⟨_,forks,hp,rfl⟩
    · obtain ⟨status,hstatus,rfl⟩ := Option.map_eq_some_iff.mp h
      obtain ⟨process,hchild,hs⟩ := Option.bind_eq_some_iff.mp hstatus
      exact Or.inl ⟨_,_,forks,hp,Moves.waitpid hchild hs,rfl⟩
    · split at h
      · rename_i status hexec
        cases h
        exact Or.inl ⟨_,_,forks,hp,Moves.replace hexec,rfl⟩
      · rename_i hexec
        cases h
        exact Or.inl ⟨_,_,forks,hp,Moves.refuse hexec,rfl⟩
    · cases h
      exact Or.inl ⟨_,_,forks,hp,Moves.request _ _,rfl⟩
    · split_ifs at h with hroot
      cases h
      exact Or.inl ⟨_,_,forks,hp,Moves.leave hroot,rfl⟩
    · cases h
      exact Or.inl ⟨_,_,forks,hp,Moves.finish _,rfl⟩
    · cases h

/-- A process that has a move can step. -/
theorem step_of_moves {world : World ι κ} {s : State ι κ} {p : Pid} {before after : Activity ι κ}
    {forks : ℕ} (hp : s p=some ⟨before,forks⟩) (h : Moves world s p before after) :
    step world p s=some (put s p ⟨after,forks⟩) := by
  unfold step
  rw [hp]
  cases h with
  | done result => rfl
  | exit code => rfl
  | abort => rfl
  | waitpid hchild hstatus =>
    dsimp only
    rw [hchild,Option.bind_some,hstatus]
    rfl
  | replace h =>
    dsimp only
    rw [h]
  | refuse h =>
    dsimp only
    rw [h]
  | request call next => rfl
  | leave h => exact if_neg h
  | finish status => rfl

/-! ## Fates -/

/-- What becomes of a process. -/
inductive Fate
  /-- It returns from its code. -/
  | returns
  /-- It is replaced by a program that ends so. -/
  | runs (status : Status)
  /-- It ends inside its code. -/
  | ends (status : Status)
  /-- It stays inside its code. -/
  | hangs
deriving DecidableEq

/-- The status that a waiting parent gets in the end. -/
def Fate.status (world : World ι κ) (p : Pid) : Fate → Option Status
  | .returns => some (world.leave p)
  | .runs status => some status
  | .ends status => some status
  | .hangs => none

/-- The fates of a process and of the children it will fork agree with its
code. -/
def Agrees (world : World ι κ) (fate : Pid → Fate) : Pid → ℕ → Code ι κ Unit → Prop
  | p,_,.done _ => fate p=.returns
  | p,_,.exit code => fate p=.ends (.exited code)
  | p,_,.abort => fate p=.ends .signaled
  | p,_,.undefined => fate p=.hangs
  | p,forks,.fork next =>
    Agrees world fate (p++[forks]) 0 (next none) ∧ Agrees world fate p (forks+1) (next (some forks))
  | p,forks,.waitpid child next =>
    child<forks ∧
      match (fate (p++[child])).status world (p++[child]) with
      | some status => Agrees world fate p forks (next status)
      | none => fate p=.hangs
  | p,forks,.execvp image next =>
    match world.execvp p image with
    | some status => fate p=.runs status
    | none => Agrees world fate p forks next
  | p,forks,.request call next => Agrees world fate p forks (next (world.request p call))

/-- What a process does agrees with its fate. -/
def Follows (world : World ι κ) (fate : Pid → Fate) (p : Pid) (forks : ℕ) : Activity ι κ → Prop
  | .inside code => Agrees world fate p forks code
  | .returned => fate p=.returns
  | .left status => p≠[] ∧ fate p=.returns ∧ status=world.leave p
  | .replaced status => fate p=.runs status
  | .finished status => fate p=.runs status
  | .ended status => fate p=.ends status

/-- A status that can be waited for is the one fated. -/
theorem Follows.status {world : World ι κ} {fate : Pid → Fate} {p : Pid} {forks : ℕ}
    {activity : Activity ι κ} {status : Status} (h : Follows world fate p forks activity)
    (hs : activity.status=some status) : (fate p).status world p=some status := by
  cases activity with
  | inside code => cases hs
  | returned => cases hs
  | replaced st => cases hs
  | left st =>
    cases hs
    rw [h.2.1,h.2.2]
    rfl
  | finished st =>
    cases hs
    rw [show fate p=.runs status from h]
    rfl
  | ended st =>
    cases hs
    rw [show fate p=.ends status from h]
    rfl

/-- What holds of every reachable state: processes follow their fates, and the
children of a process are those it has forked. -/
structure Sound (world : World ι κ) (fate : Pid → Fate) (s : State ι κ) : Prop where
  /-- Processes follow their fates. -/
  follows : ∀ p process, s p=some process → Follows world fate p process.forks process.activity
  /-- Every child was forked. -/
  parent : ∀ p child, s (p++[child])≠none → ∃ process, s p=some process ∧ child<process.forks
  /-- Every forked child is there. -/
  forked : ∀ p process, s p=some process → ∀ child<process.forks, s (p++[child])≠none

/-- A move keeps to the fate. -/
theorem Sound.moves {world : World ι κ} {fate : Pid → Fate} {s : State ι κ} (h : Sound world fate s)
    {p : Pid} {before after : Activity ι κ} {forks : ℕ} (hp : s p=some ⟨before,forks⟩)
    (hm : Moves world s p before after) : Follows world fate p forks after := by
  have hbefore := h.follows p _ hp
  cases hm with
  | done result => exact hbefore
  | exit code => exact hbefore
  | abort => exact hbefore
  | waitpid hchild hstatus =>
    have hfate := (h.follows _ _ hchild).status hstatus
    simp only [Follows,Agrees,hfate] at hbefore
    exact hbefore.2
  | replace hexec =>
    simp only [Follows,Agrees,hexec] at hbefore
    exact hbefore
  | refuse hexec =>
    simp only [Follows,Agrees,hexec] at hbefore
    exact hbefore
  | request call next => exact hbefore
  | leave hroot => exact ⟨hroot,hbefore,rfl⟩
  | finish status => exact hbefore

/-- The process that was changed. -/
@[simp] theorem put_same (s : State ι κ) (p : Pid) (process : Process ι κ) :
    put s p process p=some process := by
  unfold put
  rw [Function.update_self]

/-- The other processes. -/
theorem put_other (s : State ι κ) {p q : Pid} (process : Process ι κ) (h : q≠p) :
    put s p process q=s q := by
  unfold put
  rw [Function.update_of_ne h]

/-- Processes are never lost. -/
theorem put_ne_none {s : State ι κ} {p q : Pid} (process : Process ι κ) (h : s q≠none) :
    put s p process q≠none := by
  by_cases hq : q=p
  · subst hq
    rw [put_same]
    exact Option.some_ne_none _
  · rwa [put_other s process hq]

/-- A child is not its parent. -/
theorem child_ne (p : Pid) (k : ℕ) : p++[k]≠p := by
  intro h
  have hlength := congrArg List.length h
  rw [List.length_append,List.length_singleton] at hlength
  omega

/-- Children of one process have different numbers. -/
theorem child_inj {p q : Pid} {j k : ℕ} (h : p++[j]=q++[k]) : p=q ∧ j=k := by
  have hboth := List.append_inj' h rfl
  exact ⟨hboth.1,List.singleton_inj.mp hboth.2⟩

/-- A move of one process keeps the state sound. -/
theorem Sound.put {world : World ι κ} {fate : Pid → Fate} {s : State ι κ} (h : Sound world fate s)
    {p : Pid} {before after : Activity ι κ} {forks : ℕ} (hp : s p=some ⟨before,forks⟩)
    (hm : Moves world s p before after) : Sound world fate (put s p ⟨after,forks⟩) := by
  refine ⟨?_,?_,?_⟩
  · intro q process hq
    by_cases hqp : q=p
    · subst hqp
      rw [put_same] at hq
      cases hq
      exact h.moves hp hm
    · rw [put_other s _ hqp] at hq
      exact h.follows q process hq
  · intro q child hchild
    have hold : s (q++[child])≠none := by
      by_cases hqp : q++[child]=p
      · rw [hqp,hp]
        exact Option.some_ne_none _
      · rwa [put_other s _ hqp] at hchild
    obtain ⟨process,hq,hlt⟩ := h.parent q child hold
    by_cases hqp : q=p
    · subst hqp
      rw [hp] at hq
      cases hq
      exact ⟨_,put_same _ _ _,hlt⟩
    · exact ⟨process,by rw [put_other s _ hqp,hq],hlt⟩
  · intro q process hq child hlt
    refine put_ne_none _ ?_
    by_cases hqp : q=p
    · subst hqp
      rw [put_same] at hq
      cases hq
      exact h.forked q _ hp child hlt
    · rw [put_other s _ hqp] at hq
      exact h.forked q process hq child hlt

/-- The next child of a process is not there yet. -/
theorem Sound.fresh {world : World ι κ} {fate : Pid → Fate} {s : State ι κ} (h : Sound world fate s)
    {p : Pid} {activity : Activity ι κ} {forks : ℕ} (hp : s p=some ⟨activity,forks⟩) :
    s (p++[forks])=none := by
  by_contra hthere
  obtain ⟨process,hprocess,hlt⟩ := h.parent p forks hthere
  rw [hp] at hprocess
  cases hprocess
  exact Nat.lt_irrefl _ hlt

/-- A fork keeps the state sound. -/
theorem Sound.fork {world : World ι κ} {fate : Pid → Fate} {s : State ι κ} (h : Sound world fate s)
    {p : Pid} {code : Option ℕ → Code ι κ Unit} {forks : ℕ}
    (hp : s p=some ⟨.inside (.fork code),forks⟩) :
    Sound world fate (ProcessTree.put (ProcessTree.put s (p++[forks]) ⟨.inside (code none),0⟩) p
      ⟨.inside (code (some forks)),forks+1⟩) := by
  have hboth := h.follows p _ hp
  simp only [Follows,Agrees] at hboth
  have hfresh := h.fresh hp
  have hne := child_ne p forks
  refine ⟨?_,?_,?_⟩
  · intro q process hq
    by_cases hqp : q=p
    · subst hqp
      rw [put_same] at hq
      cases hq
      exact hboth.2
    · rw [put_other _ _ hqp] at hq
      by_cases hqc : q=p++[forks]
      · subst hqc
        rw [put_same] at hq
        cases hq
        exact hboth.1
      · rw [put_other _ _ hqc] at hq
        exact h.follows q process hq
  · intro q child hchild
    by_cases hqp : q=p
    · subst hqp
      refine ⟨_,put_same _ _ _,?_⟩
      by_cases hlast : child=forks
      · exact hlast ▸ Nat.lt_succ_self _
      · have hother : q++[child]≠q++[forks] := fun he => hlast (child_inj he).2
        rw [put_other _ _ (child_ne q child),put_other _ _ hother] at hchild
        obtain ⟨process,hq,hlt⟩ := h.parent q child hchild
        rw [hp] at hq
        cases hq
        exact Nat.lt_succ_of_lt hlt
    · have hold : s (q++[child])≠none := by
        by_cases hc : q++[child]=p
        · rw [hc,hp]
          exact Option.some_ne_none _
        · have hother : q++[child]≠p++[forks] := fun he => hqp (child_inj he).1
          rwa [put_other _ _ hc,put_other _ _ hother] at hchild
      obtain ⟨process,hq,hlt⟩ := h.parent q child hold
      have hqc : q≠p++[forks] := by
        rintro rfl
        rw [hfresh] at hq
        cases hq
      exact ⟨process,by rw [put_other _ _ hqp,put_other _ _ hqc,hq],hlt⟩
  · intro q process hq child hlt
    by_cases hqp : q=p
    · subst hqp
      rw [put_same] at hq
      cases hq
      refine put_ne_none _ ?_
      by_cases hlast : child=forks
      · rw [hlast,put_same]
        exact Option.some_ne_none _
      · refine put_ne_none _ (h.forked q _ hp child ?_)
        exact Nat.lt_of_le_of_ne (Nat.le_of_lt_succ hlt) hlast
    · rw [put_other _ _ hqp] at hq
      by_cases hqc : q=p++[forks]
      · subst hqc
        rw [put_same] at hq
        cases hq
        exact absurd hlt (Nat.not_lt_zero child)
      · rw [put_other _ _ hqc] at hq
        exact put_ne_none _ (put_ne_none _ (h.forked q process hq child hlt))

/-- Every step keeps the state sound. -/
theorem Sound.step {world : World ι κ} {fate : Pid → Fate} {s next : State ι κ} {p : Pid}
    (h : Sound world fate s) (hs : ProcessTree.step world p s=some next) : Sound world fate next := by
  rcases step_cases hs with ⟨before,after,forks,hp,hm,rfl⟩|⟨code,forks,hp,rfl⟩
  · exact h.put hp hm
  · exact h.fork hp

/-- One process alone is sound when its fates agree with its code. -/
theorem sound_start {world : World ι κ} {fate : Pid → Fate} {code : Code ι κ Unit}
    (h : Agrees world fate [] 0 code) : Sound world fate (start code) := by
  refine ⟨?_,?_,?_⟩
  · intro p process hp
    by_cases hroot : p=[]
    · subst hroot
      rw [start,put_same] at hp
      cases hp
      exact h
    · rw [start,put_other _ _ hroot] at hp
      cases hp
  · intro p child hchild
    have hne : p++[child]≠[] := List.append_ne_nil_of_right_ne_nil p (List.cons_ne_nil _ _)
    rw [start,put_other _ _ hne] at hchild
    exact absurd rfl hchild
  · intro p process hp child hlt
    by_cases hroot : p=[]
    · subst hroot
      rw [start,put_same] at hp
      cases hp
      exact absurd hlt (Nat.not_lt_zero child)
    · rw [start,put_other _ _ hroot] at hp
      cases hp

/-- Every reachable state is sound. -/
theorem sound_of_reachable {world : World ι κ} {fate : Pid → Fate} {code : Code ι κ Unit}
    {s : State ι κ} (h : Agrees world fate [] 0 code)
    (hs : Reachable (step world) Anything (start code) s) : Sound world fate s :=
  hs.invariant (Sound world fate) (sound_start h) (fun _ _ _ hbefore _ hnext => hbefore.step hnext)

/-! ## Where no process can move -/

/-- A process has met its fate. -/
def Met (fate : Fate) (activity : Activity ι κ) : Prop :=
  match fate with
  | .returns => activity=.returned ∨ ∃ status, activity=.left status
  | .runs status => activity=.finished status
  | .ends status => activity=.ended status
  | .hangs => True

/-- A child that cannot move and has met its fate can be waited for. -/
theorem status_of_met {world : World ι κ} {fate : Pid → Fate} {s : State ι κ} {p : Pid}
    {process : Process ι κ} {status : Status} (hp : s p=some process) (hroot : p≠[])
    (hstill : step world p s=none) (hmet : Met (fate p) process.activity)
    (hstatus : (fate p).status world p=some status) :
    ∃ got, process.activity.status=some got := by
  obtain ⟨activity,forks⟩ := process
  cases hfate : fate p with
  | returns =>
    rw [hfate] at hmet
    rcases hmet with hreturned|⟨got,hleft⟩
    · dsimp only at hreturned
      rw [hreturned] at hp
      rw [step_of_moves hp (Moves.leave hroot)] at hstill
      cases hstill
    · exact ⟨got,by rw [hleft]; rfl⟩
  | runs got =>
    rw [hfate] at hmet
    exact ⟨got,by rw [show activity=.finished got from hmet]; rfl⟩
  | ends got =>
    rw [hfate] at hmet
    exact ⟨got,by rw [show activity=.ended got from hmet]; rfl⟩
  | hangs =>
    rw [hfate] at hstatus
    cases hstatus

/-- Code that cannot go on: nothing is known of it, or it waits for a child that
never ends. -/
def Stuck (world : World ι κ) (fate : Pid → Fate) (p : Pid) (code : Code ι κ Unit) : Prop :=
  code=.undefined ∨ ∃ child next, code=.waitpid child next ∧
    (fate (p++[child])).status world (p++[child])=none

/-- A process that cannot move inside its code is stuck there, once its children
have met their fates. -/
theorem Sound.stuck_of_children {world : World ι κ} {fate : Pid → Fate} {s : State ι κ}
    (h : Sound world fate s) (hstill : ∀ p, ProcessTree.step world p s=none) {p : Pid}
    {code : Code ι κ Unit} {forks : ℕ} (hp : s p=some ⟨.inside code,forks⟩)
    (hchildren : ∀ child below, s (p++[child])=some below → Met (fate (p++[child])) below.activity) :
    Stuck world fate p code := by
  have hnone : ∀ after, ¬Moves world s p (.inside code) after := by
    intro after hm
    have hs := hstill p
    rw [step_of_moves hp hm] at hs
    cases hs
  cases code with
  | done result => exact absurd (Moves.done result) (hnone _)
  | exit code => exact absurd (Moves.exit code) (hnone _)
  | abort => exact absurd Moves.abort (hnone _)
  | undefined => exact Or.inl rfl
  | fork next =>
    have hs := hstill p
    unfold ProcessTree.step at hs
    rw [hp] at hs
    cases hs
  | execvp image next =>
    cases hexec : world.execvp p image with
    | none => exact absurd (Moves.refuse hexec) (hnone _)
    | some status => exact absurd (Moves.replace hexec) (hnone _)
  | request call next => exact absurd (Moves.request call next) (hnone _)
  | waitpid child next =>
    have hfollows := h.follows p _ hp
    simp only [Follows,Agrees] at hfollows
    obtain ⟨below,hbelow⟩ := Option.ne_none_iff_exists'.mp (h.forked p _ hp child hfollows.1)
    cases hstatus : (fate (p++[child])).status world (p++[child]) with
    | none => exact Or.inr ⟨child,next,rfl,hstatus⟩
    | some status =>
      have hne : p++[child]≠[] := List.append_ne_nil_of_right_ne_nil p (List.cons_ne_nil _ _)
      obtain ⟨got,hgot⟩ := status_of_met hbelow hne (hstill _) (hchildren child below hbelow) hstatus
      exact absurd (Moves.waitpid hbelow hgot) (hnone _)

/-- A process that cannot move has met its fate, once its children have. -/
theorem Sound.met_of_children {world : World ι κ} {fate : Pid → Fate} {s : State ι κ}
    (h : Sound world fate s) (hstill : ∀ p, ProcessTree.step world p s=none) {p : Pid}
    {process : Process ι κ} (hp : s p=some process)
    (hchildren : ∀ child below, s (p++[child])=some below → Met (fate (p++[child])) below.activity) :
    Met (fate p) process.activity := by
  obtain ⟨activity,forks⟩ := process
  have hfollows := h.follows p _ hp
  cases activity with
  | returned =>
    rw [show fate p=.returns from hfollows]
    exact Or.inl rfl
  | left status =>
    rw [hfollows.2.1]
    exact Or.inr ⟨status,rfl⟩
  | replaced status =>
    have hs := hstill p
    rw [step_of_moves hp (Moves.finish status)] at hs
    cases hs
  | finished status =>
    rw [show fate p=.runs status from hfollows]
    rfl
  | ended status =>
    rw [show fate p=.ends status from hfollows]
    rfl
  | inside code =>
    rcases h.stuck_of_children hstill hp hchildren with rfl|⟨child,next,rfl,hstatus⟩
    · rw [show fate p=.hangs from hfollows]
      trivial
    · simp only [Follows,Agrees,hstatus] at hfollows
      rw [hfollows.2]
      trivial

/-- Children stand deeper than their parents, so a chain of waiting processes
ends: by induction on the depth left. -/
theorem Sound.met_below {world : World ι κ} {fate : Pid → Fate} {s : State ι κ}
    (h : Sound world fate s) (hstill : ∀ p, ProcessTree.step world p s=none) {depth : ℕ}
    (hdepth : ∀ p, s p≠none → p.length≤depth) (left : ℕ) :
    ∀ (p : Pid) (process : Process ι κ), s p=some process → depth-p.length≤left →
      Met (fate p) process.activity := by
  have hdeeper : ∀ (p : Pid) child below, s (p++[child])=some below → p.length+1≤depth := by
    intro p child below hbelow
    have hlength := hdepth (p++[child]) (by rw [hbelow]; exact Option.some_ne_none _)
    rwa [List.length_append,List.length_singleton] at hlength
  induction left with
  | zero =>
    intro p process hp hleft
    refine h.met_of_children hstill hp (fun child below hbelow => ?_)
    have hlength := hdeeper p child below hbelow
    omega
  | succ left ih =>
    intro p process hp hleft
    refine h.met_of_children hstill hp (fun child below hbelow => ?_)
    refine ih (p++[child]) below hbelow ?_
    rw [List.length_append,List.length_singleton]
    omega

/-! ## Runs are bounded -/

/-- The steps that a process and the children it will fork can still take inside
a piece of code. -/
def work (world : World ι κ) (fate : Pid → Fate) : Pid → ℕ → Code ι κ Unit → ℕ
  | _,_,.done _ => 2
  | _,_,.exit _ => 1
  | _,_,.abort => 1
  | _,_,.undefined => 0
  | p,forks,.fork next =>
    work world fate (p++[forks]) 0 (next none)+work world fate p (forks+1) (next (some forks))+1
  | p,forks,.waitpid child next =>
    match (fate (p++[child])).status world (p++[child]) with
    | some status => work world fate p forks (next status)+1
    | none => 0
  | p,forks,.execvp image next =>
    match world.execvp p image with
    | some _ => 2
    | none => work world fate p forks next+1
  | p,forks,.request call next => work world fate p forks (next (world.request p call))+1

/-- The steps that a process can still take. -/
def load (world : World ι κ) (fate : Pid → Fate) (p : Pid) : Option (Process ι κ) → ℕ
  | none => 0
  | some ⟨.inside code,forks⟩ => work world fate p forks code
  | some ⟨.returned,_⟩ => 1
  | some ⟨.replaced _,_⟩ => 1
  | some _ => 0

/-- The steps that the processes of a set can still take. -/
def total (world : World ι κ) (fate : Pid → Fate) (s : State ι κ) (pids : Finset Pid) : ℕ :=
  ∑ p∈pids, load world fate p (s p)

/-- A set that holds all processes. -/
def Covers (pids : Finset Pid) (s : State ι κ) : Prop := ∀ p, s p≠none → p∈pids

/-- Every move takes one of the steps left. -/
theorem Sound.load_moves {world : World ι κ} {fate : Pid → Fate} {s : State ι κ}
    (h : Sound world fate s) {p : Pid} {before after : Activity ι κ} {forks : ℕ}
    (hm : Moves world s p before after) :
    load world fate p (some ⟨after,forks⟩)+1=load world fate p (some ⟨before,forks⟩) := by
  cases hm with
  | done result => rfl
  | exit code => rfl
  | abort => rfl
  | waitpid hchild hstatus =>
    have hfate := (h.follows _ _ hchild).status hstatus
    simp only [load,work,hfate]
  | replace hexec => simp only [load,work,hexec]
  | refuse hexec => simp only [load,work,hexec]
  | request call next => rfl
  | leave hroot => rfl
  | finish status => rfl

/-- What is left of the processes of a set, added up. -/
def account {M : Type} [AddCommMonoid M] (left : Pid → Option (Process ι κ) → M) (s : State ι κ)
    (pids : Finset Pid) : M := ∑ p∈pids, left p (s p)

/-- A step that takes a cost from what is left of the process that makes it, and
shares the rest with a child it forks, takes that cost from the account. -/
theorem Sound.account_step {M : Type} [AddCommMonoid M] {world : World ι κ} {fate : Pid → Fate}
    {s next : State ι κ} {p : Pid} {left : Pid → Option (Process ι κ) → M} {cost : M}
    (h : Sound world fate s) (hs : ProcessTree.step world p s=some next) {pids : Finset Pid}
    (hcovers : Covers pids s) (hnone : ∀ q, left q none=0)
    (hmoves : ∀ before after forks, s p=some ⟨before,forks⟩ → Moves world s p before after →
      cost+left p (some ⟨after,forks⟩)=left p (some ⟨before,forks⟩))
    (hfork : ∀ code forks, s p=some ⟨.inside (.fork code),forks⟩ →
      cost+(left p (some ⟨.inside (code (some forks)),forks+1⟩)+
        left (p++[forks]) (some ⟨.inside (code none),0⟩))=left p (some ⟨.inside (.fork code),forks⟩)) :
    ∃ more, Covers more next ∧ cost+account left next more=account left s pids := by
  have hmem : p∈pids := by
    refine hcovers p (fun hp => ?_)
    unfold ProcessTree.step at hs
    rw [hp] at hs
    cases hs
  rcases step_cases hs with ⟨before,after,forks,hp,hm,rfl⟩|⟨code,forks,hp,rfl⟩
  · refine ⟨pids,?_,?_⟩
    · intro q hq
      by_cases hqp : q=p
      · exact hqp ▸ hmem
      · rw [put_other s _ hqp] at hq
        exact hcovers q hq
    · have hrest : ∑ q∈pids.erase p, left q (ProcessTree.put s p ⟨after,forks⟩ q)=
          ∑ q∈pids.erase p, left q (s q) := by
        refine Finset.sum_congr rfl (fun q hq => ?_)
        rw [put_other s _ (Finset.ne_of_mem_erase hq)]
      unfold account
      rw [←Finset.add_sum_erase pids _ hmem,←Finset.add_sum_erase pids (fun q => left q (s q)) hmem,
        hrest,put_same,hp,←add_assoc,hmoves before after forks hp hm]
  · have hfresh := h.fresh hp
    have hne := child_ne p forks
    refine ⟨insert (p++[forks]) pids,?_,?_⟩
    · intro q hq
      by_cases hqp : q=p
      · rw [hqp]
        exact Finset.mem_insert_of_mem hmem
      · by_cases hqc : q=p++[forks]
        · exact hqc ▸ Finset.mem_insert_self _ _
        · rw [put_other _ _ hqp,put_other _ _ hqc] at hq
          exact Finset.mem_insert_of_mem (hcovers q hq)
    · have hgrown : account left s (insert (p++[forks]) pids)=account left s pids := by
        refine Finset.sum_insert_of_eq_zero_if_notMem (fun _ => ?_)
        rw [hfresh,hnone]
      have hparent : p∈insert (p++[forks]) pids := Finset.mem_insert_of_mem hmem
      have hchild : p++[forks]∈(insert (p++[forks]) pids).erase p :=
        Finset.mem_erase.mpr ⟨hne,Finset.mem_insert_self _ _⟩
      have hrest : ∑ q∈((insert (p++[forks]) pids).erase p).erase (p++[forks]),
            left q (ProcessTree.put (ProcessTree.put s (p++[forks]) ⟨.inside (code none),0⟩) p
              ⟨.inside (code (some forks)),forks+1⟩ q)=
          ∑ q∈((insert (p++[forks]) pids).erase p).erase (p++[forks]), left q (s q) := by
        refine Finset.sum_congr rfl (fun q hq => ?_)
        obtain ⟨hqc,hq⟩ := Finset.mem_erase.mp hq
        rw [put_other _ _ (Finset.ne_of_mem_erase hq),put_other _ _ hqc]
      rw [←hgrown]
      unfold account
      rw [←Finset.add_sum_erase _ _ hparent,←Finset.add_sum_erase _ _ hchild,
        ←Finset.add_sum_erase _ (fun q => left q (s q)) hparent,
        ←Finset.add_sum_erase _ (fun q => left q (s q)) hchild,hrest,put_same,
        put_other _ _ hne,put_same,hfresh,hnone,hp,zero_add,←add_assoc,←add_assoc,
        add_assoc cost,hfork code forks hp]

/-- Every step takes one of the steps left. -/
theorem Sound.total_step {world : World ι κ} {fate : Pid → Fate} {s next : State ι κ} {p : Pid}
    (h : Sound world fate s) (hs : ProcessTree.step world p s=some next) {pids : Finset Pid}
    (hcovers : Covers pids s) :
    ∃ more, Covers more next ∧ 1+total world fate next more=total world fate s pids := by
  change ∃ more, Covers more next ∧
    1+account (load world fate) next more=account (load world fate) s pids
  refine h.account_step hs hcovers (fun _ => rfl) (fun before after forks hp hm => ?_)
    (fun code forks hp => ?_)
  · have hload : load world fate p (some ⟨after,forks⟩)+1=load world fate p (some ⟨before,forks⟩) :=
      h.load_moves hm
    omega
  · simp only [load,work]
    omega

/-- A run takes no more steps than are left: by induction on the run. -/
theorem Sound.length_le {world : World ι κ} {fate : Pid → Fate} (moves : List Pid) :
    ∀ {s last : State ι κ} {pids : Finset Pid}, Sound world fate s → Covers pids s →
      follow (ProcessTree.step world) Anything moves s=some last →
      moves.length≤total world fate s pids := by
  induction moves with
  | nil =>
    intro s last pids _ _ _
    exact Nat.zero_le _
  | cons p moves ih =>
    intro s last pids hsound hcovers hrun
    rw [follow_cons] at hrun
    obtain ⟨next,hnext,hrest⟩ := Option.bind_eq_some_iff.mp hrun
    obtain ⟨more,hmore,htotal⟩ := hsound.total_step hnext hcovers
    have hlength := ih (hsound.step hnext) hmore hrest
    rw [List.length_cons]
    omega

/-- Any run can be continued until no process can move: by induction on a bound
of the steps left. -/
theorem Sound.exists_still {world : World ι κ} {fate : Pid → Fate} (bound : ℕ) :
    ∀ {s : State ι κ} {pids : Finset Pid}, Sound world fate s → Covers pids s →
      total world fate s pids≤bound →
      ∃ last, Reachable (ProcessTree.step world) Anything s last ∧
        ∀ p, ProcessTree.step world p last=none := by
  induction bound with
  | zero =>
    intro s pids hsound hcovers hbound
    refine ⟨s,Reachable.start s,fun p => ?_⟩
    by_contra hmoves
    obtain ⟨next,hnext⟩ := Option.ne_none_iff_exists'.mp hmoves
    obtain ⟨more,-,htotal⟩ := hsound.total_step hnext hcovers
    omega
  | succ bound ih =>
    intro s pids hsound hcovers hbound
    by_cases hstill : ∀ p, ProcessTree.step world p s=none
    · exact ⟨s,Reachable.start s,hstill⟩
    · obtain ⟨p,hmoves⟩ := not_forall.mp hstill
      obtain ⟨next,hnext⟩ := Option.ne_none_iff_exists'.mp hmoves
      obtain ⟨more,hmore,htotal⟩ := hsound.total_step hnext hcovers
      obtain ⟨last,hlast,hend⟩ := ih (hsound.step hnext) hmore (by omega)
      exact ⟨last,Relation.ReflTransGen.head ⟨p,trivial,hnext⟩ hlast,hend⟩

/-! ## Fates decide every run -/

section Decided

variable {world : World ι κ} {fate : Pid → Fate} {code : Code ι κ Unit}

/-- The root alone covers the beginning. -/
theorem covers_start (code : Code ι κ Unit) : Covers {[]} (start code) := by
  intro p hp
  by_cases hroot : p=[]
  · exact Finset.mem_singleton.mpr hroot
  · rw [start,put_other _ _ hroot] at hp
    exact absurd rfl hp

/-- Finitely many processes are there at any time. -/
theorem covers_of_reachable (h : Agrees world fate [] 0 code) {s : State ι κ}
    (hs : Reachable (step world) Anything (start code) s) : ∃ pids, Covers pids s := by
  have hboth := hs.invariant (fun s => Sound world fate s ∧ ∃ pids, Covers pids s)
    ⟨sound_start h,_,covers_start code⟩ (by
      intro p before next hbefore _ hnext
      obtain ⟨hsound,pids,hcovers⟩ := hbefore
      obtain ⟨more,hmore,-⟩ := hsound.total_step hnext hcovers
      exact ⟨hsound.step hnext,more,hmore⟩)
  exact hboth.2

/-- Where no process can move, every process has met its fate. -/
theorem met_of_still (h : Agrees world fate [] 0 code) {s : State ι κ}
    (hs : Reachable (step world) Anything (start code) s) (hstill : ∀ p, step world p s=none)
    {p : Pid} {process : Process ι κ} (hp : s p=some process) : Met (fate p) process.activity := by
  obtain ⟨pids,hcovers⟩ := covers_of_reachable h hs
  have hdepth : ∀ q, s q≠none → q.length≤pids.sup List.length :=
    fun q hq => Finset.le_sup (f:=List.length) (hcovers q hq)
  exact (sound_of_reachable h hs).met_below hstill hdepth _ p process hp (Nat.le_refl _)

/-- Some run ends with no process able to move. -/
theorem exists_still (h : Agrees world fate [] 0 code) :
    ∃ s, Reachable (step world) Anything (start code) s ∧ ∀ p, step world p s=none :=
  Sound.exists_still _ (sound_start h) (covers_start code) (Nat.le_refl _)

/-- Processes stay. -/
theorem ne_none_of_step {s next : State ι κ} {p q : Pid} (hs : step world p s=some next)
    (hq : s q≠none) : next q≠none := by
  rcases step_cases hs with ⟨before,after,forks,_,_,rfl⟩|⟨code,forks,_,rfl⟩
  · exact put_ne_none _ hq
  · exact put_ne_none _ (put_ne_none _ hq)

/-- The root is always there. -/
theorem root_ne_none {s : State ι κ} (hs : Reachable (step world) Anything (start code) s) :
    s []≠none := by
  refine hs.invariant (fun s => s []≠none) ?_ ?_
  · rw [start,put_same]
    exact Option.some_ne_none _
  · intro p before next hbefore _ hnext
    exact ne_none_of_step hnext hbefore

/-- A process that has returned was fated to. -/
theorem Sound.returns {s : State ι κ} (h : Sound world fate s) {p : Pid} (hp : Returned s p) :
    fate p=.returns := by
  obtain ⟨process,hprocess,hactivity⟩ := hp
  have hfollows := h.follows p process hprocess
  rcases hactivity with hactivity|⟨status,hactivity⟩
  · rw [hactivity] at hfollows
    exact hfollows
  · rw [hactivity] at hfollows
    exact hfollows.2.1

/-- The root exits exactly when it is fated to. -/
theorem exits_iff (h : Agrees world fate [] 0 code) :
    Exits world code ↔ ∃ result, fate []=.ends (.exited result) := by
  constructor
  · rintro ⟨s,hs,result,forks,hroot⟩
    exact ⟨result,(sound_of_reachable h hs).follows [] _ hroot⟩
  · rintro ⟨result,hfate⟩
    obtain ⟨s,hs,hstill⟩ := exists_still h
    obtain ⟨⟨activity,forks⟩,hroot⟩ := Option.ne_none_iff_exists'.mp (root_ne_none hs)
    have hmet := met_of_still h hs hstill hroot
    rw [hfate] at hmet
    exact ⟨s,hs,result,forks,by rw [hroot,show activity=_ from hmet]⟩

/-- A root that returns or exits, with no child that returns. -/
theorem onlyRootReturns_of_fate (h : Agrees world fate [] 0 code)
    (hroot : fate []=.returns ∨ ∃ result, fate []=.ends (.exited result))
    (hchildren : ∀ p≠[], fate p≠.returns) : OnlyRootReturns world code := by
  refine ⟨?_,?_,?_⟩
  · intro s hs p hp hreturned
    exact hchildren p hp ((sound_of_reachable h hs).returns hreturned)
  · exact ⟨_,fun moves s hrun => Sound.length_le moves (sound_start h) (covers_start code) hrun⟩
  · intro hexits s hs hstill
    have hreturns : fate []=.returns := by
      rcases hroot with hroot|hroot
      · exact hroot
      · exact absurd ((exits_iff h).mpr hroot) hexits
    obtain ⟨⟨activity,forks⟩,hp⟩ := Option.ne_none_iff_exists'.mp (root_ne_none hs)
    have hmet := met_of_still h hs hstill hp
    rw [hreturns] at hmet
    rcases hmet with hactivity|⟨status,hactivity⟩
    · exact ⟨forks,by rw [hp,show activity=_ from hactivity]⟩
    · have hfollows := (sound_of_reachable h hs).follows [] _ hp
      rw [show activity=_ from hactivity] at hfollows
      exact absurd rfl hfollows.1

/-- A root that neither returns nor exits. -/
theorem not_onlyRootReturns_of_root (h : Agrees world fate [] 0 code) (hreturns : fate []≠.returns)
    (hexits : ∀ result, fate []≠.ends (.exited result)) : ¬OnlyRootReturns world code := by
  intro honly
  obtain ⟨s,hs,hstill⟩ := exists_still h
  have hno : ¬Exits world code := by
    rw [exits_iff h]
    rintro ⟨result,hfate⟩
    exact hexits result hfate
  obtain ⟨forks,hroot⟩ := honly.root hno s hs hstill
  exact hreturns ((sound_of_reachable h hs).follows [] _ hroot)

/-- After the first step of code that begins with a fork the child is there. -/
theorem first_child {next : Option ℕ → Code ι κ Unit} {s : State ι κ}
    (hs : Reachable (step world) Anything (start (.fork next)) s) :
    s=start (.fork next) ∨ s [0]≠none := by
  refine hs.invariant (fun s => s=start (.fork next) ∨ s [0]≠none) (Or.inl rfl) ?_
  rintro p before after (rfl|hchild) _ hnext
  · right
    rcases step_cases hnext with ⟨act,act',forks,hp,hm,rfl⟩|⟨code,forks,hp,rfl⟩
    · by_cases hroot : p=[]
      · subst hroot
        rw [start,put_same] at hp
        cases hp
        cases hm
      · rw [start,put_other _ _ hroot] at hp
        cases hp
    · by_cases hroot : p=[]
      · subst hroot
        rw [start,put_same] at hp
        cases hp
        refine put_ne_none _ ?_
        rw [List.nil_append,put_same]
        exact Option.some_ne_none _
      · rw [start,put_other _ _ hroot] at hp
        cases hp
  · exact Or.inr (ne_none_of_step hnext hchild)

/-- A first child that returns. -/
theorem not_onlyRootReturns_of_child {next : Option ℕ → Code ι κ Unit}
    (h : Agrees world fate [] 0 (.fork next)) (hreturns : fate [0]=.returns) :
    ¬OnlyRootReturns world (.fork next) := by
  intro honly
  obtain ⟨s,hs,hstill⟩ := exists_still h
  rcases first_child hs with rfl|hchild
  · have hmoves := hstill []
    unfold step at hmoves
    rw [start,put_same] at hmoves
    cases hmoves
  · obtain ⟨process,hprocess⟩ := Option.ne_none_iff_exists'.mp hchild
    have hmet := met_of_still h hs hstill hprocess
    rw [hreturns] at hmet
    exact honly.children s hs [0] (List.cons_ne_nil _ _) ⟨process,hprocess,hmet⟩

end Decided

end ComputerSystems.ProcessTree
