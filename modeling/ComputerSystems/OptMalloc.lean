import ComputerSystems.RoutedHeap
import Mathlib.Data.Fintype.Prod

/-!
# The allocator of `opt_malloc.c`

Every thread has two free lists, for blocks of less than half a page and for
larger ones, each with eight-byte size and link fields inside the blocks.
`xmalloc` serves a request from one of its thread's lists or maps pages, and
`xfree` puts a block, also one of another thread, on a list of its own thread
or unmaps it. Whatever the interleaving of the threads, no byte is in two
places.
-/

namespace ComputerSystems.OptMalloc

open BlockHeap BlockList ByteMemory HeapMemory LinkedBlocks PagedHeap RoutedHeap TransitionSystem

/-- The two lists of a thread: `free_list_head_2048` and `free_list_head_4096`. -/
inductive Bucket
  /-- Blocks of less than half a page. -/
  | list2048
  /-- Larger blocks. -/
  | list4096
deriving DecidableEq

instance : Fintype Bucket := ⟨{.list2048,.list4096},fun b => by cases b <;> decide⟩

variable {ι : Type} [DecidableEq ι]

/-- Memory, the lists of all threads and their `stats`. -/
abbrev System (ι : Type) := Machine ι (ι × Bucket)

/-- `offsetof(llist_node, next)`. -/
def nextOffset : ℕ := 8

/-- `xmalloc` by a thread; `mmapAddr` is what `mmap` returns if it is called, and
the number of mapped pages comes back. -/
def xmalloc (s : Store (ι × Bucket)) (t : ι) (request mmapAddr : ℕ) :
    Option (Store (ι × Bucket) × ℕ) :=
  let size := blockSize request
  if size<2048 then s.allocFrom nextOffset (t,.list2048) size request mmapAddr
  else if size<4096 then s.allocFrom nextOffset (t,.list4096) size request mmapAddr
  else (s.allocPages (divUp size 4096) request mmapAddr).map (fun done => (done,divUp size 4096))

/-- `xfree` by a thread: the number of unmapped pages comes back. -/
def xfree (s : Store (ι × Bucket)) (t : ι) (c : Client) : Option (Store (ι × Bucket) × ℕ) :=
  let bsize := sizeAt s.memory c.addr
  if bsize<2048 then (s.release nextOffset (t,.list2048) c).map (fun done => (done,0))
  else if bsize<4096 then (s.release nextOffset (t,.list4096) c).map (fun done => (done,0))
  else (s.unmap c).map (fun done => (done,bsize/4096))

/-- One call by a thread, or a write by a client. -/
def step : Call ι → System ι → Option (System ι)
  | .malloc t request mmapAddr,m => (xmalloc m.store t request mmapAddr).map (m.afterMalloc t)
  | .free t c,m => (xfree m.store t c).map (m.afterFree t)
  | .write x byte,m => some {m with store := m.store.write x byte}

/-- The list of a thread for a size. -/
def bucket (t : ι) (size : ℕ) : Option (ι × Bucket) :=
  if size<2048 then some (t,.list2048) else if size<4096 then some (t,.list4096) else none

/-- Calls with requests of at least 8 and less than 2^63 bytes, of blocks in use,
where `mmap` returns fresh pages that touch no mapped one. -/
def Allowed (m : System ι) (call : Call ι) : Prop := Separate nextOffset bucket m call

omit [DecidableEq ι] in
/-- Sizes of a page and more have no list. -/
theorem routed_bucket (t : ι) : Routed (bucket t) := by
  intro size
  unfold bucket
  split_ifs with hhalf hpage
  · exact ⟨nofun,fun h => by omega⟩
  · exact ⟨nofun,fun h => by omega⟩
  · exact ⟨fun _ => by omega,fun _ => rfl⟩

/-- `xmalloc` chooses its list by the size of the block. -/
theorem xmalloc_eq (s : Store (ι × Bucket)) (t : ι) (request mmapAddr : ℕ) :
    xmalloc s t request mmapAddr=alloc nextOffset (bucket t) s request mmapAddr := by
  unfold xmalloc alloc bucket
  dsimp only
  split_ifs with hhalf hpage <;> rfl

/-- `xfree` chooses its list by the stored size. -/
theorem xfree_eq (s : Store (ι × Bucket)) (t : ι) (c : Client) :
    xfree s t c=RoutedHeap.free nextOffset (bucket t) s c := by
  unfold xfree RoutedHeap.free bucket
  dsimp only
  split_ifs with hhalf hpage <;> rfl

/-- The calls are those of an allocator that chooses lists by size. -/
theorem step_eq : (step : Call ι → System ι → Option (System ι))=
    RoutedHeap.step nextOffset bucket := by
  funext call m
  cases call with
  | malloc t request mmapAddr => rw [step,RoutedHeap.step,xmalloc_eq]
  | free t c => rw [step,RoutedHeap.step,xfree_eq]
  | write x byte => rfl

/-- In every state that any interleaving of the threads reaches, every byte of the
mapped pages is in one place: blocks in use and blocks of all lists of all
threads have no byte in common, blocks in use hold what was asked for, lists
are in order without touching blocks, and the counters of the threads add up to
the bytes of all blocks; and every call succeeds. -/
theorem no_byte_in_two_places [Fintype ι] {memory : Bytes} {m : System ι}
    (h : Reachable step Allowed (start memory) m) :
    (∃ lists, Accounted nextOffset m lists) ∧
      ∀ call, Allowed m call → ∃ m', step call m=some m' := by
  rw [step_eq] at h ⊢
  obtain ⟨a,ha⟩ := reachable_tidy (by decide) routed_bucket h
  refine ⟨⟨a.free,ha.accounted⟩,fun call hcall => ?_⟩
  obtain ⟨m',-,hstep,-⟩ := step_tidy (by decide) routed_bucket ha hcall
  exact ⟨m',hstep⟩

/-- A block of the first thread is freed by the second one: its page is then on
lists of both threads, and the account is right. -/
theorem freed_by_other_thread : ∃ m : System (Fin 2),
    Reachable step Allowed (start (fun _ => 0)) m ∧
      (m.store.head (0,.list2048),m.store.head (1,.list2048))=(65644,65536) ∧
      ∃ lists, Accounted nextOffset m lists := by
  have hfirst : (step (.malloc 0 100 65536) (start (fun _ => 0) : System (Fin 2))).map
      (fun m => m.store.live)=some [⟨65536,100⟩] := by decide +kernel
  have hsecond : ((step (.malloc 0 100 65536) (start (fun _ => 0) : System (Fin 2))).bind
      (step (.free 1 ⟨65536,100⟩))).map
      (fun m => (m.store.head (0,.list2048),m.store.head (1,.list2048)))=some (65644,65536) := by
    decide +kernel
  obtain ⟨m₁,hm₁,hlive⟩ := Option.map_eq_some_iff.mp hfirst
  rw [hm₁,Option.bind_some] at hsecond
  obtain ⟨m₂,hm₂,hheads⟩ := Option.map_eq_some_iff.mp hsecond
  have hmalloc : Allowed (start (fun _ => 0) : System (Fin 2)) (.malloc 0 100 65536) := by
    have hneeded : needed nextOffset (bucket 0) (start (fun _ => 0) : System (Fin 2)).store 100=1 := by
      decide +kernel
    refine ⟨by decide,by decide,fun _ => ?_⟩
    rw [hneeded]
    refine ⟨⟨by decide,by decide,by decide,Finset.disjoint_empty_left _⟩,
      Finset.disjoint_empty_left _,Finset.notMem_empty _,fun j hj => ?_⟩
    exact absurd hj (Finset.notMem_empty j)
  have hfree : Allowed m₁ (.free 1 ⟨65536,100⟩) := by
    show (⟨65536,100⟩ : Client)∈m₁.store.live
    rw [hlive]
    exact List.mem_singleton.mpr rfl
  have hreach := ((Reachable.start _).step hmalloc hm₁).step hfree hm₂
  exact ⟨m₂,hreach,hheads,(no_byte_in_two_places hreach).1⟩

end ComputerSystems.OptMalloc
