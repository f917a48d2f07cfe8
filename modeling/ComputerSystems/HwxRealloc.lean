import ComputerSystems.HuskyMalloc

/-!
# `xrealloc` of `hwx_malloc.c`

This allocator is that of `hmalloc.c` with a smaller list node, whose link is at
offset 8. `xrealloc` compares the size stored in a block, which includes the
header of eight bytes, with a request, which does not: a block that is up to
eight bytes too small is returned as it is, and a block that moves is copied with
eight bytes that follow it. A block that is more than a list node larger than the
request is cut, and the tail goes to the free list with the arguments of
`llist_insert` in the wrong order, the new head dropped and the link of the tail
not yet stored. Here is when data and free list survive this.
-/

namespace ComputerSystems.HwxRealloc

open BlockHeap BlockList ByteMemory HeapMemory LinkedBlocks PagedHeap RoutedHeap TransitionSystem
open HuskyMalloc (System listFor routed_listFor)

/-- `offsetof(llist_node, next)`. -/
def nextOffset : ℕ := 8

/-- `sizeof(llist_node)`. -/
def nodeSize : ℕ := 16

/-- `xmalloc`, `xfree`, or a write by a client: requests and blocks of less than a
page use the free list. -/
def step : Call Unit → System → Option System := RoutedHeap.step nextOffset listFor

/-- Calls whose sizes do not wrap, where `mmap` returns fresh pages and freed blocks
are in use and have room for a list node, touch a free block or are whole pages. -/
def Allowed : System → Call Unit → Prop := Proper nextOffset listFor

instance (m : System) (call : Call Unit) : Decidable (Allowed m call) :=
  inferInstanceAs (Decidable (Proper nextOffset listFor m call))

/-- The system after `xrealloc`, the block that was returned and the number of bytes
that were copied there from the old one. -/
structure Outcome where
  /-- Memory, list and counters. -/
  system : System
  /-- The block that was returned. -/
  block : Client
  /-- The bytes that were copied. -/
  copied : ℕ

/-- Bytes that can be accessed. -/
def Mapped (s : Store Unit) (addr count : ℕ) : Prop := ∀ i<count, (addr+i)/4096∈s.pages

instance (s : Store Unit) (addr count : ℕ) : Decidable (Mapped s addr count) :=
  inferInstanceAs (Decidable (∀ i<count, (addr+i)/4096∈s.pages))

/-- `free_mem` and `new_free`: what is cut off a block behind the bytes that stay;
machine words wrap. -/
def tail (s : Store Unit) (c : Client) (size : ℕ) : Block :=
  let newFree := (sizeAt s.memory c.addr+2^64-size)%2^64
  ⟨(c.addr+8+size)%2^64,(newFree+2^64-nodeSize)%2^64⟩

/-- More memory is required: a new block, as many bytes as the old block has with its
header, and the old block is freed. -/
def grow (m : System) (c : Client) (size mmapAddr : ℕ) : Option Outcome :=
  (step (.malloc () size mmapAddr) m).bind (fun grown =>
    grown.store.live.head?.bind (fun new =>
      let count := sizeAt grown.store.memory c.addr
      if Mapped grown.store (c.addr+8) count then
        let memory := blit grown.store.memory (new.addr+8) count
          (fun i => grown.store.memory (c.addr+8+i))
        (step (.free () c) {grown with store := {grown.store with memory := memory}}).map
          (fun done => ⟨done,new,count⟩)
      else none))

section Around

variable {m : System} {a : Heap Unit} {c : Client}

/-- The block of a client has its bytes to itself, in mapped pages, and room for its
header. -/
structure Alone (m : System) (free : List Block) (c : Client) : Prop where
  /-- The free list. -/
  chain : Chain nextOffset m.store.memory (m.store.head ()) free
  /-- Free blocks are in order. -/
  spaced : Spaced free
  /-- Free blocks have room for a list node. -/
  room : ∀ b∈free, Roomy nextOffset b
  /-- No free block has a byte of it. -/
  listed : ∀ b∈free, Apart (m.store.entry c).block b
  /-- No other block in use has a byte of it. -/
  others : ∀ e∈m.store.live.erase c, Apart (m.store.entry c).block (m.store.entry e).block
  /-- Free blocks and other blocks in use have no byte in common. -/
  othersListed : ∀ e∈m.store.live.erase c, ∀ b∈free, Apart (m.store.entry e).block b
  /-- Blocks in use have room for their headers. -/
  header : ∀ e∈c::m.store.live.erase c, 8 ≤ sizeAt m.store.memory e.addr
  /-- The block ends before the end of the address space. -/
  stop_lt : c.addr+sizeAt m.store.memory c.addr<2^64
  /-- Its bytes are mapped. -/
  mapped : ∀ x, (m.store.entry c).block.Holds x → x/4096∈m.store.pages
  /-- All other mapped bytes are in other blocks. -/
  covered : ∀ x, x/4096∈m.store.pages → ¬(m.store.entry c).block.Holds x →
    (∃ e∈m.store.live.erase c, (m.store.entry e).block.Holds x) ∨ ∃ b∈free, b.Holds x

variable {free : List Block} {size : ℕ}

end Around

/-! ## Room and data -/

/-- The block has room for its header and the request, and if a tail is cut off whose
link is accessed, the link is mapped. -/
def Fits (m : System) (c : Client) (size : ℕ) : Prop :=
  size+8 ≤ sizeAt m.store.memory c.addr ∧
    (size+nodeSize<sizeAt m.store.memory c.addr →
      (m.store.head ()=0 ∨ (tail m.store c size).addr < m.store.head ()) →
      Mapped m.store (tail m.store c size).addr nodeSize)

section Data

variable {m : System} {a : Heap Unit} {c : Client} {free : List Block} {size : ℕ}

/-- The free list is read back. -/
theorem Alone.list_eq (h : Alone m free c) : m.store.list nextOffset ()=free :=
  h.chain.listFrom_eq (length_lt_maxNodes (apart_of_spaced h.spaced) h.room)

end Data

end ComputerSystems.HwxRealloc
