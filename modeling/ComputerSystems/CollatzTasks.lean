import ComputerSystems.TransitionSystem
import Mathlib.Data.Int.Init
import Mathlib.Data.List.Iterate
import Mathlib.Logic.Function.Iterate

/-!
# The Collatz programs

Both programs give every number below a bound a task, with the values of its
Collatz sequence so far, and let threads scan the tasks over and over: a thread
that gets the dibs on a task appends at most fifty values, or finds the sequence
at its end and notes its length. A thread returns after a scan in which it found
every task at its end. The programs differ in how they keep the values: one in a
vector that doubles, the other in a list of cells with the newest value first.
The lock of a task is held only to test and set its dibs, or to reset it, and so
each of these is one step; what a thread does with its dibs is two more.
-/

namespace ComputerSystems.CollatzTasks

open TransitionSystem

/-! ## The values of a task -/

/-- What the programs do with the values of a task. -/
structure Values (γ : Type) where
  /-- The values of a new task. -/
  single : ℤ → γ
  /-- The newest value. -/
  last : γ → ℤ
  /-- With one more value. -/
  push : γ → ℤ → γ
  /-- A copy. -/
  copy : γ → γ
  /-- The number of values. -/
  size : γ → ℤ
  /-- The values, the oldest one first. -/
  items : γ → List ℤ
  /-- A new task has one value. -/
  items_single : ∀ item, items (single item)=[item]
  /-- A value is appended. -/
  items_push : ∀ xs item, items (push xs item)=items xs++[item]
  /-- A copy has the same values. -/
  items_copy : ∀ xs, items (copy xs)=items xs
  /-- The newest value is the last one. -/
  last_eq : ∀ xs front item, items xs=front++[item] → last xs=item
  /-- The size is the number of values. -/
  size_eq : ∀ xs, size xs=(items xs).length

/-- `count_list`. -/
def countList : List ℤ → ℤ
  | [] => 0
  | _::rest => 1+countList rest

/-- `copy_list`. -/
def copyList : List ℤ → List ℤ
  | [] => []
  | item::rest => item::copyList rest

/-- `count_list` counts the cells. -/
theorem countList_eq (xs : List ℤ) : countList xs=xs.length := by
  induction xs with
  | nil => rfl
  | cons item rest ih =>
    rw [countList,ih,List.length_cons]
    omega

/-- `copy_list` makes an equal list. -/
theorem copyList_eq (xs : List ℤ) : copyList xs=xs := by
  induction xs with
  | nil => rfl
  | cons item rest ih => rw [copyList,ih]

/-- The values as cells, the newest one first. -/
def cells : Values (List ℤ) where
  single item := [item]
  last xs := xs.headD 0
  push xs item := item::xs
  copy := copyList
  size := countList
  items := List.reverse
  items_single _ := rfl
  items_push xs item := List.reverse_cons
  items_copy xs := congrArg List.reverse (copyList_eq xs)
  last_eq xs front item h := by
    have hxs : xs=item::front.reverse := by
      rw [←List.reverse_reverse xs,h,List.reverse_append]
      rfl
    rw [hxs,List.headD_cons]
  size_eq xs := by rw [countList_eq,List.length_reverse]

/-- `ivec`. -/
structure Ivec where
  /-- The longs of `data`. -/
  cap : ℕ
  /-- The values. -/
  size : ℕ
  /-- The vector. -/
  data : ℕ → ℤ
  /-- Space was allocated. -/
  pos : 0<cap
  /-- The values fit. -/
  fits : size≤cap

/-- `make_ivec`. What the memory holds before it is written is not read. -/
def makeIvec (cap0 : ℕ) (h : 0<cap0) : Ivec :=
  {cap := cap0,size := 0,data := fun _ => 0,pos := h,fits := Nat.zero_le _}

/-- `ivec_push`. -/
def Ivec.push (xs : Ivec) (item : ℤ) : Ivec :=
  {cap := if xs.size≥xs.cap then xs.cap*2 else xs.cap
   size := xs.size+1
   data := Function.update xs.data xs.size item
   pos := by
    have := xs.pos
    split_ifs <;> omega
   fits := by
    have := xs.pos
    have := xs.fits
    split_ifs <;> omega}

/-- `ivec_last`. -/
def Ivec.last (xs : Ivec) : ℤ := xs.data (xs.size-1)

/-- The loop of `ivec_copy`, with the items left. -/
def copyLoop (xs : Ivec) : ℕ → Ivec → Ivec
  | 0,ys => ys
  | left+1,ys => copyLoop xs left (ys.push (xs.data (xs.size-(left+1))))

/-- `ivec_copy`. -/
def Ivec.copy (xs : Ivec) : Ivec := copyLoop xs xs.size (makeIvec xs.cap xs.pos)

/-- The values of a vector. -/
def Ivec.items (xs : Ivec) : List ℤ := (List.range xs.size).map xs.data

/-- `ivec_push` appends. -/
theorem Ivec.items_push (xs : Ivec) (item : ℤ) : (xs.push item).items=xs.items++[item] := by
  change (List.range (xs.size+1)).map (Function.update xs.data xs.size item)=_
  rw [List.range_succ,List.map_append,List.map_singleton,Function.update_self]
  refine congrArg (·++[item]) ?_
  refine List.map_congr_left ?_
  intro i hi
  exact Function.update_of_ne (Nat.ne_of_lt (List.mem_range.mp hi)) item xs.data

/-- Arithmetic on longs. -/
def wrap64 (value : ℤ) : ℤ := (value+9223372036854775808)%18446744073709551616-9223372036854775808

/-- `collatz_step`. -/
def collatzStep (n : ℤ) : ℤ := if n.tmod 2=0 then n.tdiv 2 else wrap64 (3*n+1)

/-- `num_task` without its lock. -/
structure Task (γ : Type) where
  /-- The values of the sequence so far. -/
  vals : γ
  /-- The steps to the end, or -1. -/
  steps : ℤ
  /-- A thread is at work on the task. -/
  dibs : Bool

/-- Where a thread stands in `scan_and_iterate`, with its `base`, `i0` and
`done_count`. -/
inductive Place (γ : Type)
  /-- In `worker`, before a scan. -/
  | between
  /-- Before the test of the loop. -/
  | scanning (base i0 done : ℕ)
  /-- With the dibs on the task. -/
  | holding (base i0 done : ℕ)
  /-- With the values of the task read. -/
  | working (base i0 done : ℕ) (xs : γ)
  /-- Before the dibs are given back. -/
  | leaving (base i0 done : ℕ)
  /-- Returned from `worker`. -/
  | returned

/-- The tasks and the threads. -/
structure State (γ : Type) (threads : ℕ) where
  /-- `tasks`. -/
  tasks : ℕ → Task γ
  /-- Where the threads stand. -/
  place : Fin threads → Place γ

variable {γ : Type} {threads : ℕ}

/-- The loop of `iterate`, with the rounds left. -/
def iterateLoop (v : Values γ) : ℕ → γ → γ
  | 0,xs => xs
  | rounds+1,xs =>
    let vv := collatzStep (v.last xs)
    if vv≠1 then iterateLoop v rounds (v.push xs vv) else v.push xs vv

/-- `iterate`. -/
def iterate (v : Values γ) (xs : γ) : γ := iterateLoop v 50 xs

/-- The task that a scan comes to. -/
def taskOf (top base i0 : ℕ) : ℕ := 1+(base+i0)%(top-1)

/-- The tasks that `main` makes. -/
def started (v : Values γ) (threads : ℕ) : State γ threads :=
  {tasks := fun ii => {vals := v.single ii,steps := -1,dibs := false},place := fun _ => .between}

/-- Change a task and let a thread go on. -/
def State.put (s : State γ threads) (ii : ℕ) (task : Task γ) (t : Fin threads) (place : Place γ) :
    State γ threads :=
  {tasks := Function.update s.tasks ii task,place := Function.update s.place t place}

/-- What a thread does with the values of a task that it has the dibs on. -/
def visit (v : Values γ) (top : ℕ) (t : Fin threads) (base i0 done : ℕ) (xs : γ)
    (s : State γ threads) : State γ threads :=
  let ii := taskOf top base i0
  let task := s.tasks ii
  if v.last xs>1 then s.put ii {task with vals := iterate v (v.copy xs)} t (.leaving base i0 done)
  else
    s.put ii {task with steps := if task.steps= -1 then v.size task.vals-1 else task.steps} t
      (.leaving base i0 (done+1))

/-- The next step of a thread in `scan_and_iterate`. -/
def scan (v : Values γ) (top : ℕ) (t : Fin threads) (s : State γ threads) :
    Place γ → Option (State γ threads)
  | .scanning base i0 done =>
    let ii := taskOf top base i0
    let task := s.tasks ii
    if i0<top then
      if task.dibs=true then
        some {s with place := Function.update s.place t (.scanning base (i0+1) done)}
      else some (s.put ii {task with dibs := true} t (.holding base i0 done))
    else if done=top-1 then some {s with place := Function.update s.place t .returned}
    else some {s with place := Function.update s.place t .between}
  | .holding base i0 done =>
    some {s with
      place := Function.update s.place t
        (.working base i0 done (s.tasks (taskOf top base i0)).vals)}
  | .working base i0 done xs => some (visit v top t base i0 done xs s)
  | .leaving base i0 done =>
    let ii := taskOf top base i0
    some (s.put ii {s.tasks ii with dibs := false} t (.scanning base (i0+1) done))
  | _ => none

/-- The steps a run is made of. -/
inductive Action (threads : ℕ)
  /-- A thread begins a scan with a random number. -/
  | start (t : Fin threads) (base : ℕ)
  /-- A thread goes on. -/
  | go (t : Fin threads)

/-- One step of the threads. -/
def step (v : Values γ) (top : ℕ) : Action threads → State γ threads → Option (State γ threads)
  | .start t base,s =>
    match s.place t with
    | .between =>
      if base<top then some {s with place := Function.update s.place t (.scanning base 1 0)}
      else none
    | _ => none
  | .go t,s => scan v top t s (s.place t)

end ComputerSystems.CollatzTasks
