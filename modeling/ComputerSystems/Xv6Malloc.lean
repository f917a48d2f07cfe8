import ComputerSystems.OrderedCycle
import ComputerSystems.TransitionSystem

/-!
# The allocator of xv6 over mmap

Free blocks form a circle ordered by address, with the static `base` of size zero
as one of them. `xmalloc` walks around from `freep` until a block is large enough
and cuts the request off its end; when it is back at `freep` it maps at least 4096
units and frees them. `xfree` finds the place of a block in the circle and merges
it with the neighbours that it touches. Addresses are counted in units of a
`Header`, 16 bytes. The walks are given a bound on their rounds; the call that maps
memory is a step of its own, with whatever the mapping returns, and so is a write
of the program to memory that it was given. What was handed out, asked for, written
and mapped is recorded beside the state.
-/

namespace ComputerSystems.Xv6Malloc

open TransitionSystem

/-- `Header`. -/
structure Header where
  /-- `s.ptr`, a unit. -/
  ptr : ℕ
  /-- `s.size`, in units with the header. -/
  size : ℕ
  deriving DecidableEq

/-- Conversion to an unsigned int. -/
def uint (n : ℕ) : ℕ := n%4294967296

/-- The allocator, its memory, and what happened to it. -/
structure State where
  /-- The memory, by units. -/
  cell : ℕ → Header
  /-- `freep`; `none` is null. -/
  freep : Option ℕ
  /-- The bytes that a call asks for while it maps memory. -/
  pending : Option ℕ
  /-- What the last call of `xmalloc` returned; `none` is null. -/
  result : Option ℕ
  /-- The headers of the blocks that the program has. -/
  live : Finset ℕ
  /-- The bytes that were asked for. -/
  asked : ℕ → ℕ
  /-- What the program wrote to units of its blocks. -/
  written : ℕ → Option Header
  /-- The units that were mapped. -/
  mapped : ℕ → Bool
  /-- Their number. -/
  total : ℕ

/-- The start of a program, with memory that holds anything. -/
def booted (cell : ℕ → Header) : State :=
  {cell := cell,freep := none,pending := none,result := none,live := ∅,asked := fun _ => 0,
   written := fun _ => none,mapped := fun _ => false,total := 0}

/-! ## Freeing -/

/-- The loop of `xfree_helper` that finds the place of a block. -/
def findSlot (cell : ℕ → Header) (bp : ℕ) : ℕ → ℕ → Option ℕ
  | 0,_ => none
  | rounds+1,p =>
    if bp>p ∧ bp<(cell p).ptr then some p
    else if p≥(cell p).ptr ∧ (bp>p ∨ bp<(cell p).ptr) then some p
    else findSlot cell bp rounds (cell p).ptr

/-- `xfree_helper` from the place on: the block is joined with the next one. -/
def joinUpper (cell : ℕ → Header) (bp p : ℕ) : ℕ → Header :=
  let next := (cell p).ptr
  if bp+(cell bp).size=next then
    Function.update cell bp
      {ptr := (cell next).ptr,size := uint ((cell bp).size+(cell next).size)}
  else Function.update cell bp {cell bp with ptr := next}

/-- `xfree_helper` at its end: the block is joined with the one before, or linked
behind it. -/
def joinLower (cell : ℕ → Header) (bp p : ℕ) : ℕ → Header :=
  if p+(cell p).size=bp then
    Function.update cell p {ptr := (cell bp).ptr,size := uint ((cell p).size+(cell bp).size)}
  else Function.update cell p {cell p with ptr := bp}

/-- `xfree_helper` of a block: the memory and `freep`. -/
def xfreeHelper (rounds : ℕ) (cell : ℕ → Header) (freep bp : ℕ) : Option ((ℕ → Header) × ℕ) :=
  match findSlot cell bp rounds freep with
  | some p => some (joinLower (joinUpper cell bp p) bp p,p)
  | none => none

/-- `xfree`. -/
def xfree (rounds ap : ℕ) (s : State) : Option State :=
  match s.freep with
  | some freep =>
    match xfreeHelper rounds s.cell freep (ap-1) with
    | some (cell,freep') =>
      some {s with cell := cell,freep := some freep',live := s.live.erase (ap-1)}
    | none => none
  | none => none

/-! ## Allocating -/

/-- `nunits`, from an address-sized number of bytes. -/
def nunits (nbytes : ℕ) : ℕ := uint ((nbytes+16-1)%18446744073709551616/16+1)

/-- How a walk of `xmalloc` ends. -/
inductive Search
  /-- At a block that is large enough, behind another one. -/
  | found (prevp p : ℕ)
  /-- Back at `freep`. -/
  | core
  deriving DecidableEq

/-- The loop of `xmalloc`. -/
def search (cell : ℕ → Header) (freep units : ℕ) : ℕ → ℕ → ℕ → Option Search
  | 0,_,_ => none
  | rounds+1,prevp,p =>
    if (cell p).size≥units then some (.found prevp p)
    else if p=freep then some .core
    else search cell freep units rounds p (cell p).ptr

/-- `xmalloc` hands out a block that is large enough, or its end. -/
def handOut (nbytes prevp p : ℕ) (s : State) : State :=
  let units := nunits nbytes
  let rest := (s.cell p).size-units
  let block := if (s.cell p).size=units then p else p+rest
  let cell :=
    if (s.cell p).size=units then
      Function.update s.cell prevp {s.cell prevp with ptr := (s.cell p).ptr}
    else
      Function.update (Function.update s.cell p {s.cell p with size := rest}) (p+rest)
        {s.cell (p+rest) with size := units}
  {s with
    cell := cell
    freep := some prevp
    pending := none
    result := some (block+1)
    live := insert block s.live
    asked := Function.update s.asked block nbytes
    written := fun u => if block≤u ∧ u<block+units then none else s.written u}

/-- `xmalloc` walks around from `freep`. -/
def walk (rounds nbytes freep : ℕ) (s : State) : Option State :=
  match search s.cell freep (nunits nbytes) rounds freep (s.cell freep).ptr with
  | some (.found prevp p) => some (handOut nbytes prevp p s)
  | some .core => some {s with pending := some nbytes}
  | none => none

/-- `xmalloc` up to its return or its mapping of memory. -/
def xmalloc (base rounds nbytes : ℕ) (s : State) : Option State :=
  match s.freep with
  | some freep => walk rounds nbytes freep s
  | none =>
    walk rounds nbytes base
      {s with cell := Function.update s.cell base {ptr := base,size := 0},freep := some base}

/-- The units that `morecore` maps. -/
def coreUnits (nbytes : ℕ) : ℕ := if nunits nbytes<4096 then 4096 else nunits nbytes

/-- The mapping of `morecore` succeeds: its units hold zeros. -/
def mapUnits (a nu : ℕ) (s : State) : State :=
  {s with
    cell := fun u => if a≤u ∧ u<a+nu then {ptr := 0,size := 0} else s.cell u
    mapped := fun u => s.mapped u || decide (a≤u ∧ u<a+nu)
    total := s.total+nu}

/-- `morecore` behind its mapping, and the walk of `xmalloc` that goes on. -/
def morecore (rounds nbytes a freep : ℕ) (s : State) : Option State :=
  let m := mapUnits a (coreUnits nbytes) s
  let cell := Function.update m.cell a {m.cell a with size := uint (coreUnits nbytes)}
  match xfreeHelper rounds cell freep a with
  | some (cell',freep') => walk rounds nbytes freep' {m with cell := cell',freep := some freep'}
  | none => none

/-- The steps a run is made of. -/
inductive Action
  /-- The program calls `xmalloc`. -/
  | malloc (rounds nbytes : ℕ)
  /-- The mapping of `morecore` returns an address or fails. -/
  | mmap (rounds : ℕ) (a : Option ℕ)
  /-- The program calls `xfree`. -/
  | free (rounds ap : ℕ)
  /-- The program writes to a unit. -/
  | write (u : ℕ) (value : Header)

/-- One step; `base` is the address of the static header. -/
def step (base : ℕ) : Action → State → Option State
  | .malloc rounds nbytes,s => if s.pending=none then xmalloc base rounds nbytes s else none
  | .mmap rounds a,s =>
    match s.pending,s.freep,a with
    | some _,some _,none => some {s with pending := none,result := none}
    | some nbytes,some freep,some a => morecore rounds nbytes a freep s
    | _,_,_ => none
  | .free rounds ap,s => if s.pending=none then xfree rounds ap s else none
  | .write u value,s =>
    some {s with
      cell := Function.update s.cell u value
      written := Function.update s.written u (some value)}

/-! ## What the program and the mapping do -/

/-- Mapped units are new and lie apart from the static header, and no 2^32 units are
mapped in all. -/
def Fresh (base a nu : ℕ) (s : State) : Prop :=
  (∀ u<a+nu, a≤u → s.mapped u=false ∧ u≠base) ∧ a+nu≠base ∧ s.total+nu<4294967296

/-- A unit belongs to what the program asked for. -/
def Given (u : ℕ) (s : State) : Prop := ∃ b∈s.live, b<u ∧ u≤b+(s.asked b+15)/16

/-- Requests stay below 2^32 units, the program frees and writes what it has, and
mappings are new. -/
def Careful (base : ℕ) (s : State) : Action → Prop
  | .malloc _ nbytes => (nbytes+15)/16+1<4294967296
  | .mmap _ (some a) => Fresh base a (coreUnits (s.pending.getD 0)) s
  | .mmap _ none => True
  | .free _ ap => 0<ap ∧ ap-1∈s.live
  | .write u _ => Given u s

end ComputerSystems.Xv6Malloc
