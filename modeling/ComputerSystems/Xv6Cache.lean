import ComputerSystems.LinkedRing
import ComputerSystems.TransitionSystem
import Mathlib.Data.Fintype.BigOperators

/-!
# The buffer cache and the disk of xv6

`bread` finds the buffer of a block or recycles one, takes its sleep lock and
has the block read if the buffer does not hold it. `bwrite` has the buffer
written, `log_write` pins it, and `brelse` gives the lock and the reference
back; a buffer that nobody refers to goes to the front of the list. The driver
keeps a queue of buffers whose first one is at the disk, and goes on with the
next one when the disk interrupts. Processes run in any order and are woken by
`kill` at any time. A section under `bcache.lock`, under `idelock` or under the
spin lock of a sleep lock is one step. What a process does to the flags and the
data of a buffer, it does while it has the buffer.
-/

namespace ComputerSystems.Xv6Cache

open LinkedRing TransitionSystem

/-- The `BSIZE` bytes of a disk block. -/
abbrev Block := Fin 512 → UInt8

/-- `FSSIZE`. -/
def fsSize : ℕ := 1000

/-- `struct buf` without its links. -/
structure Buf (np : ℕ) where
  /-- `B_VALID`: the data were read from the disk. -/
  valid : Bool
  /-- `B_DIRTY`: the data are to be written to the disk. -/
  dirty : Bool
  /-- The device. -/
  dev : ℕ
  /-- The block. -/
  blockno : ℕ
  /-- The references. -/
  refcnt : ℕ
  /-- The process that has the sleep lock. -/
  lock : Option (Fin np)
  /-- The data. -/
  data : Block

variable {np nb : ℕ}

/-- The buffer holds a block. -/
def Buf.names (x : Buf np) (dev blockno : ℕ) : Bool := x.dev=dev ∧ x.blockno=blockno

/-- The buffer can be recycled. -/
def Buf.unused (x : Buf np) : Bool := x.refcnt=0 ∧ x.dirty=false

/-- The flags are `B_VALID` alone. -/
def Buf.synced (x : Buf np) : Bool := x.valid=true ∧ x.dirty=false

/-- The caller of `iderw`. -/
inductive Caller
  /-- A buffer is read. -/
  | bread
  /-- A buffer is written. -/
  | bwrite
  deriving DecidableEq

/-- Where a process stands. -/
inductive Place (nb : ℕ)
  /-- In no call of the cache. -/
  | idle
  /-- In `acquiresleep` for a buffer of `bget`, before it looks at the lock. -/
  | reading (b : Fin nb)
  /-- In `acquiresleep`, asleep. -/
  | readAsleep (b : Fin nb)
  /-- In `bread` with the lock, before it looks at `B_VALID`. -/
  | checking (b : Fin nb)
  /-- In `iderw`, before its checks. -/
  | syncing (call : Caller) (b : Fin nb)
  /-- In `iderw`, before it takes `idelock`. -/
  | queueing (call : Caller) (b : Fin nb)
  /-- In `iderw`, asleep. -/
  | waiting (call : Caller) (b : Fin nb)
  /-- In `iderw`, woken, before it looks at the flags. -/
  | woken (call : Caller) (b : Fin nb)
  /-- In `brelse`, behind `releasesleep`. -/
  | releasing (b : Fin nb)
  deriving DecidableEq

/-- What the disk was told to do. -/
inductive Command
  /-- Read a sector of a drive. -/
  | read (drive sector : ℕ)
  /-- Write a sector of a drive. -/
  | write (drive sector : ℕ) (data : Block)

/-- The cache, the driver and the disk. -/
structure State (np nb : ℕ) where
  /-- `bcache.buf`. -/
  buf : Fin nb → Buf np
  /-- The links of the buffers, and of `bcache.head`, which is `none`. -/
  links : Links (Option (Fin nb))
  /-- `idequeue` and what follows it through `qnext`. -/
  queue : List (Fin nb)
  /-- The command that the disk works on. -/
  command : Option Command
  /-- The sectors of the drives. -/
  disk : ℕ → ℕ → Block
  /-- The processes. -/
  place : Fin np → Place nb
  /-- The text of the `panic` that stopped the kernel. -/
  panic : Option String

/-- A process goes somewhere. -/
def State.moved (s : State np nb) (p : Fin np) (place : Place nb) : State np nb :=
  {s with place := Function.update s.place p place}

/-- A buffer is changed. -/
def State.put (s : State np nb) (b : Fin nb) (x : Buf np) : State np nb :=
  {s with buf := Function.update s.buf b x}

@[simp] theorem moved_self (s : State np nb) (p : Fin np) (place : Place nb) :
    (s.moved p place).place p=place := by
  unfold State.moved
  exact Function.update_self p place s.place

theorem moved_other (s : State np nb) {p q : Fin np} (place : Place nb) (h : q≠p) :
    (s.moved p place).place q=s.place q := by
  unfold State.moved
  exact Function.update_of_ne h place s.place

@[simp] theorem put_self (s : State np nb) (b : Fin nb) (x : Buf np) : (s.put b x).buf b=x := by
  unfold State.put
  exact Function.update_self b x s.buf

theorem put_other (s : State np nb) {b c : Fin nb} (x : Buf np) (h : c≠b) :
    (s.put b x).buf c=s.buf c := by
  unfold State.put
  exact Function.update_of_ne h x s.buf

/-- `panic`. -/
def State.stopped (s : State np nb) (text : String) : State np nb := {s with panic := some text}

/-! ## The cache -/

/-- The links that `binit` sets: every buffer is put in front of the list. -/
def binit (nb : ℕ) : Links (Option (Fin nb)) :=
  (List.finRange nb).foldl (fun r b => r.push none (some b))
    {next := fun _ => none,prev := fun _ => none}

/-- A loop over the list stops at its head, or at a buffer. -/
def State.stops (s : State np nb) (test : Buf np → Bool) : Option (Fin nb) → Bool
  | none => true
  | some b => test (s.buf b)

/-- `bget` up to its `acquiresleep`; `none` if a loop over the list does not end. -/
def bget (p : Fin np) (dev blockno : ℕ) (s : State np nb) : Option (State np nb) :=
  match walk s.links.next (s.stops (fun x => x.names dev blockno)) (nb+1) (s.links.next none) with
  | none => none
  | some (some b) =>
    some ((s.put b {s.buf b with refcnt := (s.buf b).refcnt+1}).moved p (.reading b))
  | some none =>
    match walk s.links.prev (s.stops Buf.unused) (nb+1) (s.links.prev none) with
    | none => none
    | some (some b) =>
      some ((s.put b
        {s.buf b with dev,blockno,valid := false,dirty := false,refcnt := 1}).moved p (.reading b))
    | some none => some (s.stopped "bget: no buffers")

/-- One look of `acquiresleep` at the lock. -/
def acquiresleep (p : Fin np) (b : Fin nb) (s : State np nb) : State np nb :=
  if (s.buf b).lock=none then
    (s.put b {s.buf b with lock := some p}).moved p (.checking b)
  else s.moved p (.readAsleep b)

/-- `bread` behind `bget`. -/
def breadCheck (p : Fin np) (b : Fin nb) (s : State np nb) : State np nb :=
  if (s.buf b).valid=true then s.moved p .idle else s.moved p (.syncing .bread b)

/-- `bwrite` up to its `iderw`. -/
def bwrite (p : Fin np) (b : Fin nb) (s : State np nb) : State np nb :=
  if (s.buf b).lock=some p then
    (s.put b {s.buf b with dirty := true}).moved p (.syncing .bwrite b)
  else s.stopped "bwrite"

/-- A process in `acquiresleep` that is woken looks at the lock again. -/
def Place.wakeReader (b : Fin nb) : Place nb → Place nb
  | .readAsleep c => if c=b then .reading c else .readAsleep c
  | place => place

/-- `brelse` up to the end of its `releasesleep`. -/
def brelse (p : Fin np) (b : Fin nb) (s : State np nb) : State np nb :=
  if (s.buf b).lock=some p then
    {s.put b {s.buf b with lock := none} with
      place := Function.update (fun q => (s.place q).wakeReader b) p (.releasing b)}
  else s.stopped "brelse"

/-- `brelse` under `bcache.lock`. -/
def brelseList (p : Fin np) (b : Fin nb) (s : State np nb) : State np nb :=
  let x := {s.buf b with refcnt := (s.buf b).refcnt-1}
  let s := (s.put b x).moved p .idle
  if x.refcnt=0 then {s with links := (s.links.unlink (some b)).push none (some b)} else s

/-! ## The driver -/

/-- The command for a buffer. -/
def Buf.command (x : Buf np) : Command :=
  if x.dirty=true then .write (x.dev%2) x.blockno x.data else .read (x.dev%2) x.blockno

/-- `idestart`. -/
def idestart (b : Fin nb) (s : State np nb) : State np nb :=
  if fsSize ≤ (s.buf b).blockno then s.stopped "incorrect blockno"
  else {s with command := some (s.buf b).command}

/-- The checks of `iderw`. -/
def iderwCheck (havedisk1 : Bool) (p : Fin np) (call : Caller) (b : Fin nb) (s : State np nb) :
    State np nb :=
  if (s.buf b).lock≠some p then s.stopped "iderw: buf not locked"
  else if (s.buf b).synced=true then s.stopped "iderw: nothing to do"
  else if (s.buf b).dev≠0 ∧ havedisk1=false then s.stopped "iderw: ide disk 1 not present"
  else s.moved p (.queueing call b)

/-- One look of `iderw` at the flags. -/
def iderwWait (p : Fin np) (call : Caller) (b : Fin nb) (s : State np nb) : State np nb :=
  if (s.buf b).synced=true then s.moved p .idle else s.moved p (.waiting call b)

/-- `iderw` under `idelock`, up to its sleep. -/
def iderwQueue (p : Fin np) (call : Caller) (b : Fin nb) (s : State np nb) : State np nb :=
  let s := {s with queue := s.queue++[b]}
  let s := if s.queue.head?=some b then idestart b s else s
  iderwWait p call b s

/-- The disk after a command. -/
def carriedOut (disk : ℕ → ℕ → Block) : Option Command → ℕ → ℕ → Block
  | some (.write drive sector data) =>
    Function.update disk drive (Function.update (disk drive) sector data)
  | some (.read _ _) => disk
  | none => disk

/-- What is read from the disk after a command, over other data. -/
def received (disk : ℕ → ℕ → Block) (data : Block) : Option Command → Block
  | some (.read drive sector) => disk drive sector
  | some (.write _ _ _) => data
  | none => data

/-- A process in `iderw` that is woken looks at the flags again. -/
def Place.wakeWaiter (b : Fin nb) : Place nb → Place nb
  | .waiting call c => if c=b then .woken call c else .waiting call c
  | place => place

/-- A buffer whose command is done, with or without an error of the disk. -/
def Buf.done (x : Buf np) (ok : Bool) (disk : ℕ → ℕ → Block) (command : Option Command) : Buf np :=
  {x with
    data := if x.dirty=false ∧ ok=true then received disk x.data command else x.data
    valid := true
    dirty := false}

/-- `ideintr`, when the disk is done with its command or has failed. -/
def ideintr (ok : Bool) (s : State np nb) : State np nb :=
  match s.queue with
  | [] => s
  | b::rest =>
    let disk := if ok=true then carriedOut s.disk s.command else s.disk
    let s : State np nb :=
      {s.put b ((s.buf b).done ok disk s.command) with
        disk
        queue := rest
        command := none
        place := fun q => (s.place q).wakeWaiter b}
    match rest with
    | [] => s
    | c::_ => idestart c s

/-! ## Runs -/

/-- What happens in a run. -/
inductive Action (np nb : ℕ)
  /-- A process calls `bread`. -/
  | bread (p : Fin np) (dev blockno : ℕ)
  /-- A process calls `bwrite`. -/
  | bwrite (p : Fin np) (b : Fin nb)
  /-- A process calls `brelse`. -/
  | brelse (p : Fin np) (b : Fin nb)
  /-- A process changes the data of a buffer that it has. -/
  | store (p : Fin np) (b : Fin nb) (data : Block)
  /-- `log_write` pins a buffer that the process has. -/
  | pin (p : Fin np) (b : Fin nb)
  /-- A process goes on in its call. -/
  | go (p : Fin np)
  /-- A sleeping process is woken by `kill`. -/
  | kill (p : Fin np)
  /-- The disk interrupts. -/
  | ideintr (ok : Bool)

/-- A process goes on. -/
def goOn (havedisk1 : Bool) (p : Fin np) (s : State np nb) : Place nb → Option (State np nb)
  | .reading b => some (acquiresleep p b s)
  | .checking b => some (breadCheck p b s)
  | .syncing call b => some (iderwCheck havedisk1 p call b s)
  | .queueing call b => some (iderwQueue p call b s)
  | .woken call b => some (iderwWait p call b s)
  | .releasing b => some (brelseList p b s)
  | .idle => none
  | .readAsleep _ => none
  | .waiting _ _ => none

/-- A sleeping process is woken. -/
def Place.killed : Place nb → Option (Place nb)
  | .readAsleep b => some (.reading b)
  | .waiting call b => some (.woken call b)
  | _ => none

/-- One step of a kernel that was not stopped. -/
def stepOn (havedisk1 : Bool) : Action np nb → State np nb → Option (State np nb)
  | .bread p dev blockno,s => if s.place p=.idle then bget p dev blockno s else none
  | .bwrite p b,s => if s.place p=.idle then some (bwrite p b s) else none
  | .brelse p b,s => if s.place p=.idle then some (brelse p b s) else none
  | .store p b data,s =>
    if s.place p=.idle ∧ (s.buf b).lock=some p then some (s.put b {s.buf b with data}) else none
  | .pin p b,s =>
    if s.place p=.idle ∧ (s.buf b).lock=some p then some (s.put b {s.buf b with dirty := true})
    else none
  | .go p,s => goOn havedisk1 p s (s.place p)
  | .kill p,s => (s.place p).killed.map (s.moved p)
  | .ideintr ok,s => some (ideintr ok s)

/-- One step of the system. -/
def step (havedisk1 : Bool) (act : Action np nb) (s : State np nb) : Option (State np nb) :=
  if s.panic=none then stepOn havedisk1 act s else none

/-- The kernel after `binit` and `ideinit`. -/
def booted (np nb : ℕ) (disk : ℕ → ℕ → Block) : State np nb :=
  {buf := fun _ =>
      {valid := false,dirty := false,dev := 0,blockno := 0,refcnt := 0,lock := none,
       data := fun _ => 0}
   links := binit nb,queue := [],command := none,disk,place := fun _ => .idle,panic := none}

end ComputerSystems.Xv6Cache
