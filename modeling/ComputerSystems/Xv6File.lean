import ComputerSystems.ByteMemory
import Mathlib.Logic.Function.Basic
import Mathlib.Data.List.FinRange

/-!
# The xv6 file table and its byte counters

Every entry of the system-wide file table points to an `iostats` pair of
unsigned counters, placed behind the table by pointer arithmetic: at the entry
`k+136` of an array of a hundred entries, that is in the data of other parts of
the kernel. Reading and writing through an entry updates the counters, and so
does every other part of the kernel that stores there. What the pipe and inode
layers return, and what they store in the memory of the counters, is a parameter
of each call, so that every outcome is covered; the pointers handed to those
layers are left out.
-/

namespace ComputerSystems.Xv6File

open ByteMemory

/-- The kinds of a `struct file`. -/
inductive FileType
  /-- `FD_NONE`. -/
  | none
  /-- `FD_PIPE`. -/
  | pipe
  /-- `FD_INODE`, a regular file, a directory or a device. -/
  | inode
  deriving DecidableEq

/-- The `struct file` of the table. -/
structure File where
  /-- What the entry is open on. -/
  type : FileType
  /-- The reference count. -/
  ref : ℤ
  /-- Whether reads are permitted. -/
  readable : Bool
  /-- Whether writes are permitted. -/
  writable : Bool
  /-- The position of an inode file, an unsigned int. -/
  off : ℤ
  /-- The pointer to the counters, counted in entries from the start of the
  table; `none` is the null pointer of an entry never allocated. -/
  byteMem : Option ℕ
  deriving DecidableEq

/-- `struct iostats`, two unsigned ints. -/
structure Iostats where
  /-- Bytes read. -/
  readBytes : ℤ
  /-- Bytes written. -/
  writeBytes : ℤ
  deriving DecidableEq

/-- The counters after `iostats_clear`. -/
def Iostats.zero : Iostats := {readBytes := 0,writeBytes := 0}

/-- What code of the kernel other than this stores at the places of counters,
where it stores anything. -/
abbrev Stores : Type := ℕ → Option Iostats

/-- Nothing is stored. -/
def Stores.nothing : Stores := fun _ => none

/-- The file table and the kernel memory it points into. -/
structure Ftable where
  /-- The `NFILE` entries. -/
  file : Fin 100 → File
  /-- The two words that counters take at each place, in entries from the start
  of the table. The table has the places below 100, and no pointer leads there;
  the places behind it are memory of other kernel data (in the order in which
  the files are linked, of the inode cache), which `Ftable.stored` changes.
  Places are 28 bytes apart, a pair of counters has 8, so different places do
  not overlap. -/
  cell : ℕ → Iostats

/-- Conversion to an unsigned int. -/
def uint (value : ℤ) : ℤ := value%4294967296

/-- Replace one entry. -/
def Ftable.put (t : Ftable) (k : Fin 100) (f : File) : Ftable :=
  {t with file := Function.update t.file k f}

/-- Change the counters a pointer points to; through the null pointer nothing
of the table or the counters is reached. -/
def Ftable.update (t : Ftable) (is : Option ℕ) (change : Iostats → Iostats) : Ftable :=
  match is with
  | some place => {t with cell := Function.update t.cell place (change (t.cell place))}
  | none => t

/-- Other code of the kernel stores in the memory behind the table. -/
def Ftable.stored (t : Ftable) (stores : Stores) : Ftable :=
  {t with cell := fun place => (stores place).getD (t.cell place)}

/-- `iostats_incr_read`. -/
def iostatsIncrRead (t : Ftable) (is : Option ℕ) (n : ℤ) : Ftable :=
  t.update is (fun st => {st with readBytes := uint (st.readBytes+n)})

/-- `iostats_incr_write`. -/
def iostatsIncrWrite (t : Ftable) (is : Option ℕ) (n : ℤ) : Ftable :=
  t.update is (fun st => {st with writeBytes := uint (st.writeBytes+n)})

/-- `iostats_clear`. -/
def iostatsClear (t : Ftable) (is : Option ℕ) : Ftable :=
  t.update is (fun _ => Iostats.zero)

/-- `iostats_alloc`: the pointer is `f + sizeof(f) + 0x84`, in entries of the
table, so it never points into the table, and the two words there are set to
zero, whatever they belong to. -/
def iostatsAlloc (t : Ftable) (k : Fin 100) : Ftable :=
  let is := some (k.val+4+0x84)
  (iostatsClear t is).put k {t.file k with byteMem := is}

/-- `filecleariostats`: clear the counters of every entry of the table. -/
def filecleariostats (t : Ftable) : Ftable :=
  (List.finRange 100).foldl (fun t k => iostatsClear t (t.file k).byteMem) t

/-- `filealloc`: the first entry without references. -/
def filealloc (t : Ftable) : Option (Fin 100 × Ftable) :=
  match (List.finRange 100).find? (fun k => (t.file k).ref=0) with
  | some k => some (k,iostatsAlloc (t.put k {t.file k with ref := 1}) k)
  | none => none

/-- `filedup`; `none` is its panic. -/
def filedup (t : Ftable) (k : Fin 100) : Option Ftable :=
  if (t.file k).ref<1 then none else some (t.put k {t.file k with ref := (t.file k).ref+1})

/-- `fileclose`; `none` is its panic. Only the last reference is given back to
the pipe or the inode, which then stores what it stores. -/
def fileclose (t : Ftable) (k : Fin 100) (stores : Stores) : Option Ftable :=
  if (t.file k).ref<1 then none
  else if (t.file k).ref-1>0 then some (t.put k {t.file k with ref := (t.file k).ref-1})
  else
    let closed := t.put k {t.file k with ref := 0,type := .none}
    some (if (t.file k).type=.none then closed else closed.stored stores)

/-- What the layers below do for one `fileread`. -/
structure ReadOutcome where
  /-- The return value of `piperead`. -/
  piperead : Int32
  /-- The return value of `readi`. -/
  readi : Int32
  /-- What is stored meanwhile. -/
  stores : Stores

/-- What the layers below do for one `filewrite`. -/
structure WriteOutcome where
  /-- The return value of `pipewrite`. -/
  pipewrite : Int32
  /-- The return values of the successive `writei`. -/
  writei : ℕ → Int32
  /-- What is stored meanwhile. -/
  stores : Stores

/-- The bytes transferred by `fileread`, before their conversion to unsigned. -/
def readCount (f : File) (n : Int32) (outcome : ReadOutcome) : ℤ :=
  match f.type with
  | .none => n.toInt
  | .pipe => outcome.piperead.toInt
  | .inode => outcome.readi.toInt

/-- The position after `fileread`. -/
def readOff (f : File) (outcome : ReadOutcome) : ℤ :=
  if f.type=.inode ∧ 0<outcome.readi.toInt then uint (f.off+outcome.readi.toInt) else f.off

/-- `fileread`: the value it returns and the table after it. The layer below
has returned when the counter is increased. -/
def fileread (t : Ftable) (k : Fin 100) (n : Int32) (outcome : ReadOutcome) : ℤ × Ftable :=
  let f := t.file k
  if f.readable=false then (-1,t)
  else
    let rv := uint (readCount f n outcome)
    let below := if f.type=.none then t else t.stored outcome.stores
    (wrap32 rv,iostatsIncrRead (below.put k {f with off := readOff f outcome}) f.byteMem rv)

/-- The loop of `filewrite` over pieces of at most 1536 bytes, with a bound on
its rounds: the bytes written and the position, or `none` for the panic on a
short write. -/
def writeChunks (writei : ℕ → Int32) (n : ℤ) : ℕ → ℕ → ℤ → ℤ → Option (ℤ × ℤ)
  | 0,_,i,off => some (i,off)
  | left+1,round,i,off =>
    if i < n then
      let n1 := min (n-i) 1536
      let r := (writei round).toInt
      let next := if 0<r then uint (off+r) else off
      if r<0 then some (i,next)
      else if r≠n1 then none
      else writeChunks writei n left (round+1) (i+r) next
    else some (i,off)

/-- `filewrite`: the value it returns and the table after it, or `none` for a
panic. The counter is increased before the layer below is called. -/
def filewrite (t : Ftable) (k : Fin 100) (n : Int32) (outcome : WriteOutcome) :
    Option (ℤ × Ftable) :=
  let f := t.file k
  if f.writable=false then some (-1,t)
  else
    let counted := iostatsIncrWrite t f.byteMem (uint n.toInt)
    match f.type with
    | .none => none
    | .pipe => some (outcome.pipewrite.toInt,counted.stored outcome.stores)
    | .inode =>
      match writeChunks outcome.writei n.toInt (n.toInt.toNat+1) 0 0 f.off with
      | none => none
      | some (i,off) =>
        some (if i=n.toInt then n.toInt else -1,
          (counted.stored outcome.stores).put k {f with off := off})

/-- `sys_read` after its descriptor was found; `pointer` says whether the
buffer lies in the process. -/
def sysRead (t : Ftable) (k : Fin 100) (n : Int32) (pointer : Bool) (outcome : ReadOutcome) :
    ℤ × Ftable :=
  if n.toInt<0 ∨ pointer=false then (-1,t) else fileread t k n outcome

/-- `sys_write` after its descriptor was found. -/
def sysWrite (t : Ftable) (k : Fin 100) (n : Int32) (pointer : Bool) (outcome : WriteOutcome) :
    Option (ℤ × Ftable) :=
  if n.toInt<0 ∨ pointer=false then some (-1,t) else filewrite t k n outcome

/-! ## What the operations leave alone -/

variable {t : Ftable} {k : Fin 100} {f : File}

@[simp] theorem put_cell : (t.put k f).cell=t.cell := rfl

@[simp] theorem put_file_self : (t.put k f).file k=f := by
  simp only [Ftable.put,Function.update_self]

theorem put_file_ne {j : Fin 100} (h : j≠k) : (t.put k f).file j=t.file j := by
  simp only [Ftable.put,Function.update_of_ne h]

@[simp] theorem stored_file (stores : Stores) : (t.stored stores).file=t.file := rfl

/-- A place where nothing is stored keeps its two words. -/
theorem stored_cell {stores : Stores} {place : ℕ} (h : stores place=none) :
    (t.stored stores).cell place=t.cell place := by
  simp only [Ftable.stored,h,Option.getD_none]

@[simp] theorem update_file (is : Option ℕ) (change : Iostats → Iostats) :
    (t.update is change).file=t.file := by
  cases is <;> rfl

theorem update_cell (place : ℕ) (change : Iostats → Iostats) :
    (t.update (some place) change).cell place=change (t.cell place) :=
  Function.update_self place _ t.cell

theorem update_cell_ne {place other : ℕ} (change : Iostats → Iostats) (h : other≠place) :
    (t.update (some place) change).cell other=t.cell other :=
  Function.update_of_ne h _ t.cell

end ComputerSystems.Xv6File
