import ComputerSystems.ByteMemory
import ComputerSystems.RedoLog
import ComputerSystems.TransitionSystem
import Mathlib.Data.Fintype.BigOperators

/-!
# The log of xv6

File system calls bracket their changes with `begin_op` and `end_op` and hand
every changed block to `log_write`. The last call to end commits: it copies the
changed blocks to the log, writes the header, copies the log to the home blocks
and writes an empty header, one disk block at a time. After a crash the kernel
comes up through `initlog`, which copies a committed log to the home blocks
again. Processes run in any order; a section that holds `log.lock` is one step,
every disk write is a step of its own, and a crash may happen between any two
steps. The buffer cache holds a block as it was last written or logged; a
cached block that is not dirty may be recycled at any time.
-/

namespace ComputerSystems.Xv6Log

open ByteMemory RedoLog TransitionSystem

/-- The `BSIZE` bytes of a disk block. -/
abbrev Block := Fin 512 → UInt8

/-- `MAXOPBLOCKS`. -/
def maxOpBlocks : ℕ := 10

/-- `LOGSIZE`. -/
def logSize : ℕ := 30

/-- The place of the log on the disk, from the superblock. -/
structure Layout where
  /-- `log.start`, the block of the header. -/
  start : ℕ
  /-- `log.size`, the blocks of the log with its header. -/
  size : ℕ

/-- A block outside the log, of a disk whose block numbers are unsigned ints. -/
def Layout.Home (c : Layout) (b : ℕ) : Prop := (b<c.start ∨ c.start+c.size≤b) ∧ b<4294967296

instance (c : Layout) (b : ℕ) : Decidable (c.Home b) :=
  inferInstanceAs (Decidable (_ ∧ _))

/-! ## The header block -/

/-- A block as memory. -/
def Block.bytes (b : Block) : Bytes := fun k => if h : k<512 then b ⟨k,h⟩ else 0

/-- Store an int in a block. -/
def Block.putInt (b : Block) (offset : ℕ) (value : ℤ) : Block :=
  fun k => ByteMemory.putInt b.bytes offset value k

/-- Store `lh.block` from an index on. -/
def putBlocks (hb : Block) : ℕ → List ℕ → Block
  | _,[] => hb
  | i,b::rest => putBlocks (hb.putInt (4*(i+1)) b) (i+1) rest

/-- The header block that `write_head` writes over another one. -/
def putHead (hb : Block) (lh : List ℕ) : Block := putBlocks (hb.putInt 0 lh.length) 0 lh

/-- The block numbers that `read_head` reads from a header block. -/
def headOf (hb : Block) : List ℕ :=
  (List.range (intAt hb.bytes 0).toNat).map
    (fun i => (intAt hb.bytes (4*(i+1))%4294967296).toNat)

/-! ## The state -/

/-- How far a `commit` has come. -/
inductive Stage
  /-- In `write_log`, before the block with this index. -/
  | writeLog (tail : ℕ)
  /-- Before `write_head`. -/
  | writeHead
  /-- In `install_trans`, before the block with this index. -/
  | install (tail : ℕ)
  /-- Before the header is written empty. -/
  | clear
  /-- After `commit`, before `log.committing` is reset. -/
  | finish
  deriving DecidableEq

/-- Where a process stands. -/
inductive Place
  /-- Outside of `begin_op`, the operation and `end_op`. -/
  | outside
  /-- Asleep in `begin_op`. -/
  | asleep
  /-- Woken in `begin_op`, before it looks again. -/
  | awake
  /-- In an operation that has added this many blocks to the log. -/
  | inOp (used : ℕ)
  /-- In `log_write` of a block with new contents, behind the checks. -/
  | logging (used : ℕ) (block : ℕ) (data : Block)
  /-- In the `commit` of `end_op`. -/
  | commit (stage : Stage)
  deriving DecidableEq

/-- How far the kernel has come. -/
inductive Phase
  /-- In `recover_from_log`, before `read_head`. -/
  | readHead
  /-- In `install_trans` of `recover_from_log`, before the block with this index. -/
  | install (tail : ℕ)
  /-- In `recover_from_log`, before the header is written empty. -/
  | clear
  /-- Serving file system calls. -/
  | running
  /-- Stopped by `panic`. -/
  | panicked
  /-- `log.lh.block` was written behind its end. -/
  | overrun
  deriving DecidableEq

/-- The disk and the kernel. -/
structure State (np : ℕ) where
  /-- The disk. -/
  disk : ℕ → Block
  /-- The blocks in the buffer cache. -/
  cache : ℕ → Option Block
  /-- The `B_DIRTY` flags of cached blocks. -/
  dirty : ℕ → Bool
  /-- `log.lh`, its `n` blocks. -/
  lh : List ℕ
  /-- `log.outstanding`. -/
  outstanding : ℤ
  /-- `log.committing`. -/
  committing : Bool
  /-- The processes. -/
  place : Fin np → Place
  /-- How far the kernel has come. -/
  phase : Phase

variable {np : ℕ}

/-- The data that `bread` returns. -/
def State.view (s : State np) (b : ℕ) : Block := (s.cache b).getD (s.disk b)

/-- `bread`: the block is in the cache afterwards. -/
def State.bread (s : State np) (b : ℕ) : State np :=
  {s with cache := Function.update s.cache b (some (s.view b))}

/-- `bwrite` of a block with new data: to the disk, and no longer dirty. -/
def State.bwrite (s : State np) (b : ℕ) (data : Block) : State np :=
  {s with
    disk := Function.update s.disk b data
    cache := Function.update s.cache b (some data)
    dirty := Function.update s.dirty b false}

/-- A process goes somewhere. -/
def State.moved (s : State np) (p : Fin np) (place : Place) : State np :=
  {s with place := Function.update s.place p place}

/-- `wakeup(&log)`. -/
def State.wakeup (s : State np) : State np :=
  {s with place := fun p => if s.place p=.asleep then .awake else s.place p}

/-- Memory after a crash: everything but the disk is lost. -/
def booted (np : ℕ) (disk : ℕ → Block) : State np :=
  {disk := disk,cache := fun _ => none,dirty := fun _ => false,lh := [],outstanding := 0,
   committing := false,place := fun _ => .outside,phase := .readHead}

/-! ## The functions of log.c -/

/-- One round of `write_log`: the cached block goes to the log. -/
def writeLog (c : Layout) (tail : ℕ) (s : State np) : State np :=
  let b := s.lh.getD tail 0
  (s.bread b).bwrite (c.start+tail+1) (s.view b)

/-- One round of `install_trans`: the log block goes to its home. -/
def installTrans (c : Layout) (tail : ℕ) (s : State np) : State np :=
  (s.bread (c.start+tail+1)).bwrite (s.lh.getD tail 0) (s.view (c.start+tail+1))

/-- `write_head`. -/
def writeHead (c : Layout) (s : State np) : State np :=
  s.bwrite c.start (putHead (s.view c.start) s.lh)

/-- One look of `begin_op` at the log, which may put the process to sleep. -/
def beginOp (p : Fin np) (s : State np) : State np :=
  if s.committing=true then s.moved p .asleep
  else if (s.lh.length : ℤ)+(s.outstanding+1)*maxOpBlocks>logSize then s.moved p .asleep
  else {s with outstanding := s.outstanding+1}.moved p (.inOp 0)

/-- The checks of `log_write`, which hold no lock. -/
def logCheck (c : Layout) (p : Fin np) (used block : ℕ) (data : Block) (s : State np) : State np :=
  if logSize ≤ s.lh.length ∨ (c.size : ℤ)-1 ≤ s.lh.length then {s with phase := .panicked}
  else if s.outstanding<1 then {s with phase := .panicked}
  else s.moved p (.logging used block data)

/-- The rest of `log_write`: the block is added to `log.lh` unless it is there,
and pinned in the cache with its new contents. -/
def logAppend (p : Fin np) (used block : ℕ) (data : Block) (s : State np) : State np :=
  let pinned : State np :=
    {s with
      cache := Function.update s.cache block (some data)
      dirty := Function.update s.dirty block true}
  if block∈s.lh then pinned.moved p (.inOp used)
  else if logSize ≤ s.lh.length then {s with phase := .overrun}
  else {pinned with lh := s.lh++[block]}.moved p (.inOp (used+1))

/-- `end_op` up to its commit. -/
def endOp (p : Fin np) (s : State np) : State np :=
  let left := s.outstanding-1
  if s.committing=true then {s with outstanding := left,phase := .panicked}
  else if left=0 then
    {s with outstanding := left,committing := true}.moved p
      (.commit (if s.lh=[] then .finish else .writeLog 0))
  else (({s with outstanding := left}).moved p .outside).wakeup

/-- One disk write of `commit`, or the end of `end_op` behind it. -/
def commitStep (c : Layout) (p : Fin np) (s : State np) : Stage → State np
  | .writeLog tail =>
    if tail<s.lh.length then (writeLog c tail s).moved p (.commit (.writeLog (tail+1)))
    else s.moved p (.commit .writeHead)
  | .writeHead => (writeHead c s).moved p (.commit (.install 0))
  | .install tail =>
    if tail<s.lh.length then (installTrans c tail s).moved p (.commit (.install (tail+1)))
    else s.moved p (.commit .clear)
  | .clear => (writeHead c {s with lh := []}).moved p (.commit .finish)
  | .finish => ({s with committing := false}.moved p .outside).wakeup

/-- One disk write of `recover_from_log`. -/
def recoverStep (c : Layout) (s : State np) : Phase → Option (State np)
  | .readHead =>
    let b := s.bread c.start
    some {b with lh := headOf (s.view c.start),phase := .install 0}
  | .install tail =>
    if tail<s.lh.length then some {installTrans c tail s with phase := .install (tail+1)}
    else some {s with phase := .clear}
  | .clear => some {writeHead c {s with lh := []} with phase := .running}
  | _ => none

/-- The steps a run is made of. -/
inductive Action (np : ℕ)
  /-- A process enters `begin_op`, or looks at the log again. -/
  | beginOp (p : Fin np)
  /-- An operation hands a block with new contents to `log_write`. -/
  | logCheck (p : Fin np) (block : ℕ) (data : Block)
  /-- `log_write` takes the lock and adds the block. -/
  | logAppend (p : Fin np)
  /-- An operation ends. -/
  | endOp (p : Fin np)
  /-- The next step of a commit. -/
  | commit (p : Fin np)
  /-- A sleeping process is woken by `kill`. -/
  | kill (p : Fin np)
  /-- The buffer cache recycles a buffer. -/
  | evict (block : ℕ)
  /-- The machine stops and comes up again. -/
  | crash
  /-- The next step of the recovery. -/
  | recover

/-- One step of the system. -/
def step (c : Layout) : Action np → State np → Option (State np)
  | .beginOp p,s =>
    if s.phase=.running ∧ (s.place p=.outside ∨ s.place p=.awake) then some (beginOp p s) else none
  | .logCheck p block data,s =>
    match s.place p with
    | .inOp used => if s.phase=.running then some (logCheck c p used block data s) else none
    | _ => none
  | .logAppend p,s =>
    match s.place p with
    | .logging used block data =>
      if s.phase=.running then some (logAppend p used block data s) else none
    | _ => none
  | .endOp p,s =>
    match s.place p with
    | .inOp _ => if s.phase=.running then some (endOp p s) else none
    | _ => none
  | .commit p,s =>
    match s.place p with
    | .commit stage => if s.phase=.running then some (commitStep c p s stage) else none
    | _ => none
  | .kill p,s =>
    if s.phase=.running ∧ s.place p=.asleep then some (s.moved p .awake) else none
  | .evict block,s =>
    if s.dirty block=false then some {s with cache := Function.update s.cache block none} else none
  | .crash,s => some (booted np s.disk)
  | .recover,s => recoverStep c s s.phase

/-! ## What a step does -/

section Inversion

variable {c : Layout} {s s' : State np} {p : Fin np}

/-- `begin_op` is entered from outside or after a wake-up. -/
theorem step_beginOp (h : step c (.beginOp p) s=some s') :
    s.phase=.running ∧ (s.place p=.outside ∨ s.place p=.awake) ∧ s'=beginOp p s := by
  simp only [step] at h
  split_ifs at h with hp
  cases h
  exact ⟨hp.1,hp.2,rfl⟩

/-- `log_write` is called in an operation. -/
theorem step_logCheck {block : ℕ} {data : Block} (h : step c (.logCheck p block data) s=some s') :
    ∃ used, s.phase=.running ∧ s.place p=.inOp used ∧ s'=logCheck c p used block data s := by
  simp only [step] at h
  split at h
  case h_1 used hp =>
    split_ifs at h with hrun
    cases h
    exact ⟨used,hrun,hp,rfl⟩
  case h_2 => cases h

/-- `log_write` goes on behind its checks. -/
theorem step_logAppend (h : step c (.logAppend p) s=some s') :
    ∃ used block data, s.phase=.running ∧ s.place p=.logging used block data ∧
      s'=logAppend p used block data s := by
  simp only [step] at h
  split at h
  case h_1 used block data hp =>
    split_ifs at h with hrun
    cases h
    exact ⟨used,block,data,hrun,hp,rfl⟩
  case h_2 => cases h

/-- `end_op` is called in an operation. -/
theorem step_endOp (h : step c (.endOp p) s=some s') :
    ∃ used, s.phase=.running ∧ s.place p=.inOp used ∧ s'=endOp p s := by
  simp only [step] at h
  split at h
  case h_1 used hp =>
    split_ifs at h with hrun
    cases h
    exact ⟨used,hrun,hp,rfl⟩
  case h_2 => cases h

/-- A commit goes on from its stage. -/
theorem step_commit (h : step c (.commit p) s=some s') :
    ∃ k, s.phase=.running ∧ s.place p=.commit k ∧ s'=commitStep c p s k := by
  simp only [step] at h
  split at h
  case h_1 k hp =>
    split_ifs at h with hrun
    cases h
    exact ⟨k,hrun,hp,rfl⟩
  case h_2 => cases h

/-- A sleeping process is woken. -/
theorem step_kill (h : step c (.kill p) s=some s') :
    s.phase=.running ∧ s.place p=.asleep ∧ s'=s.moved p .awake := by
  simp only [step] at h
  split_ifs at h with hp
  cases h
  exact ⟨hp.1,hp.2,rfl⟩

/-- A clean buffer is recycled. -/
theorem step_evict {block : ℕ} (h : step c (.evict block) s=some s') :
    s.dirty block=false ∧ s'={s with cache := Function.update s.cache block none} := by
  simp only [step] at h
  split_ifs at h with hb
  cases h
  exact ⟨hb,rfl⟩

end Inversion

/-! ## The sizes of operations -/

/-- A process may hand over a block: the block is in the log, or the operation
has added less than a number of blocks to it. -/
def Place.MayLog (lh : List ℕ) (most block : ℕ) : Place → Prop
  | .inOp used => block∈lh ∨ used < most
  | _ => True

instance (lh : List ℕ) (most block : ℕ) (place : Place) :
    Decidable (place.MayLog lh most block) :=
  match place with
  | .inOp used => inferInstanceAs (Decidable (block∈lh ∨ used < most))
  | .outside => inferInstanceAs (Decidable True)
  | .asleep => inferInstanceAs (Decidable True)
  | .awake => inferInstanceAs (Decidable True)
  | .logging _ _ _ => inferInstanceAs (Decidable True)
  | .commit _ => inferInstanceAs (Decidable True)

/-- Callers log blocks outside the log, and no operation adds more than a number
of blocks to it. -/
def Modest (c : Layout) (most : ℕ) (s : State np) : Action np → Prop
  | .logCheck p block _ => c.Home block ∧ (s.place p).MayLog s.lh most block
  | _ => True

instance (c : Layout) (most : ℕ) (s : State np) (act : Action np) :
    Decidable (Modest c most s act) :=
  match act with
  | .logCheck p block _ =>
    inferInstanceAs (Decidable (c.Home block ∧ (s.place p).MayLog s.lh most block))
  | .logAppend _ => inferInstanceAs (Decidable True)
  | .beginOp _ => inferInstanceAs (Decidable True)
  | .endOp _ => inferInstanceAs (Decidable True)
  | .commit _ => inferInstanceAs (Decidable True)
  | .kill _ => inferInstanceAs (Decidable True)
  | .evict _ => inferInstanceAs (Decidable True)
  | .crash => inferInstanceAs (Decidable True)
  | .recover => inferInstanceAs (Decidable True)

end ComputerSystems.Xv6Log
