import ComputerSystems.RingBuffer
import ComputerSystems.TransitionSystem
import Mathlib.Data.Fintype.BigOperators

/-!
# The pipes of xv6

A pipe is a ring of `PIPESIZE` bytes with two wrapping counters, one file for
each end, and a lock. Processes read and write it, duplicate and pass on its
descriptors, close them and are killed, in any order. What a process does under
the lock of the pipe is one step, with two exceptions: between its look at
`killed` and its sleep a process holds the lock over a step, for `kill` does not
take it, and `fileclose` drops the last reference before `pipeclose` takes the
lock. The bytes stored and taken are recorded beside the state.
-/

namespace ComputerSystems.Xv6Pipe

open TransitionSystem

/-- `PIPESIZE`. -/
def pipeSize : ℕ := 512

/-- `struct pipe` without its lock. -/
structure Pipe where
  /-- The ring. -/
  data : ℕ → UInt8
  /-- Bytes read. -/
  nread : UInt32
  /-- Bytes written. -/
  nwrite : UInt32
  /-- The read end is open. -/
  readopen : Bool
  /-- The write end is open. -/
  writeopen : Bool

/-- The pipe of `pipealloc`, in a page that holds anything. -/
def pipealloc (page : ℕ → UInt8) : Pipe :=
  {data := page,nread := 0,nwrite := 0,readopen := true,writeopen := true}

/-- `p->nwrite == p->nread + PIPESIZE`. -/
def Pipe.Full (p : Pipe) : Prop := p.nwrite=p.nread+512

/-- `p->nread == p->nwrite`. -/
def Pipe.Empty (p : Pipe) : Prop := p.nread=p.nwrite

instance (p : Pipe) : Decidable p.Full := inferInstanceAs (Decidable (_=_))

instance (p : Pipe) : Decidable p.Empty := inferInstanceAs (Decidable (_=_))

/-- `p->data[p->nwrite++ % PIPESIZE] = byte`. -/
def Pipe.put (p : Pipe) (byte : UInt8) : Pipe :=
  {p with
    data := Function.update p.data (p.nwrite%512).toNat byte
    nwrite := p.nwrite+1}

/-- `p->data[p->nread % PIPESIZE]`. -/
def Pipe.next (p : Pipe) : UInt8 := p.data (p.nread%512).toNat

/-- `p->nread++`. -/
def Pipe.drop (p : Pipe) : Pipe := {p with nread := p.nread+1}

/-- How a section under the lock ends. -/
inductive Outcome
  /-- The call returns a number of bytes. -/
  | returned (n : ℕ)
  /-- The call returns -1. -/
  | failed
  /-- The call goes to sleep, with these bytes still to be written. -/
  | sleeps (rest : List UInt8)
  deriving DecidableEq

/-- The loop of `pipewrite` from the next byte on, up to its sleep or its return:
the pipe, the bytes it stored, and how it ends. -/
def pipewrite (killed : Bool) (n : ℕ) : Pipe → List UInt8 → Pipe × List UInt8 × Outcome
  | p,[] => (p,[],.returned n)
  | p,byte::rest =>
    if p.Full then
      if p.readopen=false ∨ killed=true then (p,[],.failed) else (p,[],.sleeps (byte::rest))
    else
      let later := pipewrite killed n (p.put byte) rest
      (later.1,byte::later.2.1,later.2.2)

/-- The copying loop of `piperead`: the pipe and the bytes it took. -/
def readLoop : ℕ → Pipe → Pipe × List UInt8
  | 0,p => (p,[])
  | n+1,p =>
    if p.Empty then (p,[])
    else
      let later := readLoop n p.drop
      (later.1,p.next::later.2)

/-- `piperead` up to its sleep or its return: the pipe, the bytes it took, and how
it ends. -/
def piperead (killed : Bool) (n : ℕ) (p : Pipe) : Pipe × List UInt8 × Outcome :=
  if p.Empty ∧ p.writeopen=true then
    if killed=true then (p,[],.failed) else (p,[],.sleeps [])
  else
    let copied := readLoop n p
    (copied.1,copied.2,.returned copied.2.length)

/-! ## The state -/

/-- The two ends of a pipe. -/
inductive Side
  /-- The read end. -/
  | read
  /-- The write end. -/
  | write
  deriving DecidableEq

/-- Where a process stands. -/
inductive Place
  /-- In no call on the pipe. -/
  | idle
  /-- In `pipewrite` of `n` bytes, before it takes the lock, with these left. -/
  | write (n : ℕ) (rest : List UInt8)
  /-- In `pipewrite`, with the lock, about to sleep. -/
  | writeDoze (n : ℕ) (rest : List UInt8)
  /-- In `pipewrite`, asleep on `nwrite`. -/
  | writeAsleep (n : ℕ) (rest : List UInt8)
  /-- In `piperead`, before it takes the lock. -/
  | read (n : ℕ)
  /-- In `piperead`, with the lock, about to sleep. -/
  | readDoze (n : ℕ)
  /-- In `piperead`, asleep on `nread`. -/
  | readAsleep (n : ℕ)
  /-- In `fileclose`, before `pipeclose` of the end. -/
  | closing (side : Side)
  deriving DecidableEq

/-- A process that `wakeup(&p->nread)` wakes goes on. -/
def Place.wakeReader : Place → Place
  | .readAsleep n => .read n
  | place => place

/-- A process that `wakeup(&p->nwrite)` wakes goes on. -/
def Place.wakeWriter : Place → Place
  | .writeAsleep n rest => .write n rest
  | place => place

/-- A pipe and the processes that use it. -/
structure State (np : ℕ) where
  /-- The pipe. -/
  pipe : Pipe
  /-- The page of the pipe was given back. -/
  freed : Bool
  /-- The pipe was used or given back after its page was given back. -/
  fault : Bool
  /-- `filedup` or `fileclose` panicked. -/
  panicked : Bool
  /-- The process that holds the lock of the pipe over a step. -/
  lock : Option (Fin np)
  /-- `ref` of the file of an end. -/
  ref : Side → ℕ
  /-- The descriptors of a process for an end. -/
  fds : Side → Fin np → ℕ
  /-- Where the processes stand. -/
  place : Fin np → Place
  /-- `killed` of the processes. -/
  killed : Fin np → Bool
  /-- What the last call of a process returned. -/
  result : Fin np → ℤ
  /-- The bytes stored so far, with the process that wrote them. -/
  stored : List (Fin np × UInt8)
  /-- The bytes taken so far. -/
  taken : List UInt8
  /-- The bytes a process asked to write so far, less what failed calls left. -/
  asked : Fin np → List UInt8

variable {np : ℕ}

/-- The state behind `sys_pipe` of a process. -/
def opened (page : ℕ → UInt8) (p : Fin np) : State np :=
  {pipe := pipealloc page,freed := false,fault := false,panicked := false,lock := none,
   ref := fun _ => 1,fds := fun _ => Pi.single p 1,place := fun _ => .idle,
   killed := fun _ => false,result := fun _ => 0,stored := [],taken := [],asked := fun _ => []}

/-- A process goes somewhere. -/
def State.moved (s : State np) (p : Fin np) (place : Place) : State np :=
  {s with place := Function.update s.place p place}

/-- A call returns. -/
def State.returns (s : State np) (p : Fin np) (value : ℤ) : State np :=
  {s with
    place := Function.update s.place p .idle
    result := Function.update s.result p value}

/-- `wakeup(&p->nread)`. -/
def State.wakeReaders (s : State np) : State np :=
  {s with place := fun q => (s.place q).wakeReader}

/-- `wakeup(&p->nwrite)`. -/
def State.wakeWriters (s : State np) : State np :=
  {s with place := fun q => (s.place q).wakeWriter}

/-- The section of `pipewrite`. A call that fails does not wake the readers. -/
def writeSection (p : Fin np) (n : ℕ) (rest : List UInt8) (s : State np) : State np :=
  let w := pipewrite (s.killed p) n s.pipe rest
  let t := {s with pipe := w.1,stored := s.stored++w.2.1.map (fun byte => (p,byte))}
  match w.2.2 with
  | .sleeps left => {t.wakeReaders.moved p (.writeDoze n left) with lock := some p}
  | .returned m => t.wakeReaders.returns p m
  | .failed =>
    {t.returns p (-1) with
      asked := Function.update s.asked p
        ((s.asked p).take ((s.asked p).length-(rest.length-w.2.1.length)))}

/-- The section of `piperead`. -/
def readSection (p : Fin np) (n : ℕ) (s : State np) : State np :=
  let r := piperead (s.killed p) n s.pipe
  let t := {s with pipe := r.1,taken := s.taken++r.2.1}
  match r.2.2 with
  | .sleeps _ => {t.moved p (.readDoze n) with lock := some p}
  | .returned m => t.wakeWriters.returns p m
  | .failed => t.returns p (-1)

/-- `pipeclose`. -/
def pipeclose (p : Fin np) (side : Side) (s : State np) : State np :=
  let t :=
    match side with
    | .write => {s with pipe := {s.pipe with writeopen := false}}.wakeReaders.moved p .idle
    | .read => {s with pipe := {s.pipe with readopen := false}}.wakeWriters.moved p .idle
  if t.pipe.readopen=false ∧ t.pipe.writeopen=false then {t with freed := true} else t

/-- `fileclose` of a descriptor, up to `pipeclose`. -/
def fileclose (p : Fin np) (side : Side) (s : State np) : State np :=
  let t := {s with fds := Function.update s.fds side (Function.update (s.fds side) p (s.fds side p-1))}
  if s.ref side<1 then {t with panicked := true}
  else if 0<s.ref side-1 then {t with ref := Function.update s.ref side (s.ref side-1)}
  else {t with ref := Function.update s.ref side 0}.moved p (.closing side)

/-- `filedup` of a descriptor of a process into the table of a process: `dup` when
both are the same, `fork` when not. -/
def filedup (q : Fin np) (side : Side) (s : State np) : State np :=
  if s.ref side<1 then {s with panicked := true}
  else
    {s with
      ref := Function.update s.ref side (s.ref side+1)
      fds := Function.update s.fds side (Function.update (s.fds side) q (s.fds side q+1))}

/-- `kill`. -/
def kill (p : Fin np) (s : State np) : State np :=
  {s with
    killed := Function.update s.killed p true
    place := Function.update s.place p ((s.place p).wakeReader.wakeWriter)}

/-- A process goes on from where it stands under the lock of the pipe. -/
def runSection (p : Fin np) (s : State np) : Option (State np) :=
  match s.place p with
  | .write n rest =>
    if s.lock=none then
      some (if s.freed=true then {s with fault := true} else writeSection p n rest s)
    else none
  | .read n =>
    if s.lock=none then
      some (if s.freed=true then {s with fault := true} else readSection p n s)
    else none
  | .closing side =>
    if s.lock=none then
      some (if s.freed=true then {s with fault := true} else pipeclose p side s)
    else none
  | .writeDoze n rest => some {s.moved p (.writeAsleep n rest) with lock := none}
  | .readDoze n => some {s.moved p (.readAsleep n) with lock := none}
  | _ => none

/-- The steps a run is made of. -/
inductive Action (np : ℕ)
  /-- A process calls `pipewrite` on its write end. -/
  | write (p : Fin np) (bytes : List UInt8)
  /-- A process calls `piperead` on its read end. -/
  | read (p : Fin np) (n : ℕ)
  /-- A process goes on under the lock. -/
  | run (p : Fin np)
  /-- A process closes a descriptor. -/
  | close (p : Fin np) (side : Side)
  /-- A descriptor of a process is duplicated, for itself or for another one. -/
  | dup (p q : Fin np) (side : Side)
  /-- A process is killed. -/
  | kill (p : Fin np)
  /-- The entry of a process that has gone is used for a new one. -/
  | reap (p : Fin np)

/-- One step of the system. -/
def step : Action np → State np → Option (State np)
  | .write p bytes,s =>
    if s.place p=.idle ∧ 0<s.fds .write p then
      some {s.moved p (.write bytes.length bytes) with
        asked := Function.update s.asked p (s.asked p++bytes)}
    else none
  | .read p n,s => if s.place p=.idle ∧ 0<s.fds .read p then some (s.moved p (.read n)) else none
  | .run p,s => runSection p s
  | .close p side,s => if s.place p=.idle ∧ 0<s.fds side p then some (fileclose p side s) else none
  | .dup p q side,s =>
    if s.place p=.idle ∧ s.place q=.idle ∧ 0<s.fds side p then some (filedup q side s) else none
  | .kill p,s => some (kill p s)
  | .reap p,s =>
    if s.place p=.idle ∧ s.fds .read p=0 ∧ s.fds .write p=0 then
      some {s with killed := Function.update s.killed p false}
    else none

end ComputerSystems.Xv6Pipe
