import ComputerSystems.BlockHeap
import ComputerSystems.LinkedBlocks

/-!
# Allocators in byte memory

The allocators of this repository keep their free lists inside the free
blocks and the size of a block in its first eight bytes. Here are the steps
they share, as functions on memory, with the offset of the link field as a
parameter. Each one is shown to do what the abstract allocator does to its
lists, and to leave the bytes of every other block in use alone.
-/

namespace ComputerSystems.HeapMemory

open BlockHeap BlockList ByteMemory LinkedBlocks PagedHeap

variable {κ : Type}

/-- A block that a client holds: the address of its header and the request. -/
structure Client where
  /-- The address of the header. -/
  addr : ℕ
  /-- The bytes that were asked for. -/
  request : ℕ
deriving DecidableEq

/-- Memory, the heads of the free lists, the mapped pages and what clients hold. -/
structure Store (κ : Type) where
  /-- The bytes of memory. -/
  memory : Bytes
  /-- The heads of the free lists. -/
  head : κ → ℕ
  /-- The mapped pages. -/
  pages : Finset ℕ
  /-- The blocks that clients hold. -/
  live : List Client

/-- A bound on the walks along free lists: there are fewer blocks than addresses. -/
def maxNodes : ℕ := 2^64

/-- The block of a client, with the size stored in its header. -/
def Store.entry (s : Store κ) (c : Client) : Entry := ⟨⟨c.addr,sizeAt s.memory c.addr⟩,c.request⟩

/-- The blocks of a free list. -/
def Store.list (s : Store κ) (link : ℕ) (k : κ) : List Block :=
  listFrom link maxNodes s.memory (s.head k)

/-- Insert a block, whose size is stored in it, into a free list. -/
def Store.insertFree [DecidableEq κ] (s : Store κ) (link : ℕ) (k : κ) (node : ℕ) :
    Option (Store κ) :=
  (insertNode link maxNodes s.memory node (s.head k)).map (fun done =>
    {s with memory := done.1,head := Function.update s.head k done.2})

/-- `mmap` of fresh pages, all bytes zero. -/
def Store.mmap (s : Store κ) (fresh count : ℕ) : Store κ :=
  {s with memory := blit s.memory fresh (4096*count) (fun _ => 0),
          pages := s.pages∪pageRun (fresh/4096) count}

/-- `munmap`, which fails unless the address is that of a page; the length is
rounded up to pages. -/
def Store.munmap (s : Store κ) (addr length : ℕ) : Option (Store κ) :=
  if addr%4096=0 ∧ length≠0 then
    some {s with pages := s.pages \ pageRun (addr/4096) ((length+4095)/4096)}
  else none

/-- A block for a small request: the first fit of a list, or else a fresh page.
The address, the size and the number of mapped pages come back. -/
def Store.getBlock [DecidableEq κ] (s : Store κ) (link : ℕ) (k : κ) (size fresh : ℕ) :
    Option (Store κ × ℕ × ℕ × ℕ) :=
  (takeNode link size maxNodes s.memory (s.head k)).map (fun done =>
    if done.2.2≠0 then
      ({s with memory := done.1,head := Function.update s.head k done.2.1},
        done.2.2,sizeAt done.1 done.2.2,0)
    else (s.mmap fresh 1,fresh,4096,1))

/-- Return what is left of a block to a list when it is larger than a node; the
size that is kept comes back. -/
def Store.splitBlock [DecidableEq κ] (s : Store κ) (link : ℕ) (k : κ) (bstart bsize size : ℕ) :
    Option (Store κ × ℕ) :=
  if bsize-size>link+8 then
    (Store.insertFree {s with memory := setSize s.memory (bstart+size) (bsize-size)} link k
      (bstart+size)).map (fun done => (done,size))
  else some (s,bsize)

/-- Store the size of a block in its header and hand it to the client. -/
def Store.give (s : Store κ) (bstart bsize request : ℕ) : Store κ :=
  {s with memory := setSize s.memory bstart bsize,live := ⟨bstart,request⟩::s.live}

/-- A small request: the number of mapped pages comes back. -/
def Store.allocFrom [DecidableEq κ] (s : Store κ) (link : ℕ) (k : κ) (size request fresh : ℕ) :
    Option (Store κ × ℕ) :=
  (s.getBlock link k size fresh).bind (fun got =>
    (got.1.splitBlock link k got.2.1 got.2.2.1 size).map (fun cut =>
      (cut.1.give got.2.1 cut.2 request,got.2.2.2)))

/-- A request of whole pages; `mmap` fails for no bytes at all, and then the header
cannot be stored. -/
def Store.allocPages (s : Store κ) (count request fresh : ℕ) : Option (Store κ) :=
  let bsize := 4096*count%2^64
  if bsize=0 then none else some ((s.mmap fresh (bsize/4096)).give fresh bsize request)

/-- A block of a client goes back to a list. -/
def Store.release [DecidableEq κ] (s : Store κ) (link : ℕ) (k : κ) (c : Client) :
    Option (Store κ) :=
  Store.insertFree {s with live := s.live.erase c} link k c.addr

/-- A block of a client is unmapped. -/
def Store.unmap (s : Store κ) (c : Client) : Option (Store κ) :=
  Store.munmap {s with live := s.live.erase c} c.addr (sizeAt s.memory c.addr)

/-- A client writes a byte. -/
def Store.write (s : Store κ) (x : ℕ) (byte : UInt8) : Store κ :=
  {s with memory := fun y => if y=x then byte else s.memory y}

/-! ## The abstract heap -/

/-- The lists in memory are those of the abstract heap, and so are the blocks in
use and the pages. -/
structure Holds (link : ℕ) (s : Store κ) (a : Heap κ) : Prop where
  /-- The free lists. -/
  chains : ∀ k, Chain link s.memory (s.head k) (a.free k)
  /-- The blocks in use. -/
  live : a.live=s.live.map s.entry
  /-- The mapped pages. -/
  pages : a.pages=s.pages

section Rooms

variable [Fintype κ] {link : ℕ} {free : κ → List Block} {live : List Block} {pages : Finset ℕ}

/-- Blocks are not empty. -/
theorem pos_of_covered (h : Covered (link+8) free live pages) {b : Block}
    (hb : b∈live ∨ ∃ k, b∈free k) : 0<b.size := by
  rcases hb with hb|⟨k,hb⟩
  · exact h.live_pos hb
  · have hsize := h.freeSize k b hb
    omega

/-- Blocks of mapped pages fit into the address space. -/
theorem stop_lt_of_covered (h : Covered (link+8) free live pages)
    (hhigh : ∀ j∈pages, 4096*(j+1)<2^64) {b : Block} (hb : b∈live ∨ ∃ k, b∈free k) :
    b.stop<2^64 := by
  have hpos := pos_of_covered h hb
  have hlast : b.Holds (b.stop-1) := by
    unfold Block.Holds Block.stop
    omega
  have hpage := hhigh _ (h.mapped hb hlast)
  omega

/-- Free blocks have room for a node. -/
theorem free_roomy (h : Covered (link+8) free live pages) (hhigh : ∀ j∈pages, 4096*(j+1)<2^64)
    {k : κ} {b : Block} (hb : b∈free k) : Roomy link b :=
  ⟨h.freeSize k b hb,stop_lt_of_covered h hhigh (Or.inr ⟨k,hb⟩)⟩

/-- Blocks in use have room for their size. -/
theorem live_roomy (h : Covered (link+8) free live pages) (hhigh : ∀ j∈pages, 4096*(j+1)<2^64)
    {b : Block} (hb : b∈live) : Roomy 0 b :=
  ⟨h.liveSize b hb,stop_lt_of_covered h hhigh (Or.inl hb)⟩

/-- No block lies at address 0. -/
theorem addr_ne_zero (h : Covered (link+8) free live pages) (hlow : 0∉pages) {b : Block}
    (hb : b∈live ∨ ∃ k, b∈free k) : b.addr≠0 := by
  have hpos := pos_of_covered h hb
  have hfirst : b.Holds b.addr := by
    unfold Block.Holds Block.stop
    omega
  intro hzero
  have hpage := h.mapped hb hfirst
  rw [hzero] at hpage
  exact hlow hpage

end Rooms

/-- Blocks whose fields do not overlap are fewer than the rounds of a walk. -/
theorem length_lt_of_cells {link : ℕ} {l : List Block} (h : Cells link l) :
    l.length < maxNodes := by
  have hne : l.Pairwise (fun a b => a.addr/2≠b.addr/2) := by
    refine h.apart.imp (fun hapart heq => ?_)
    unfold Apart cellOf Block.stop at hapart
    dsimp only at hapart
    omega
  have hnodup : (l.map (fun b => b.addr/2)).Nodup := List.pairwise_map.mpr hne
  have hsub : (l.map (fun b => b.addr/2)).toFinset⊆Finset.range (2^63) := by
    intro x hx
    obtain ⟨b,hb,rfl⟩ := List.mem_map.mp (List.mem_toFinset.mp hx)
    have hlow := h.low b hb
    exact Finset.mem_range.mpr (by omega)
  calc l.length=(l.map (fun b => b.addr/2)).toFinset.card := by
        rw [List.toFinset_card_of_nodup hnodup,List.length_map]
    _≤2^63 := by
        have hcard := Finset.card_le_card hsub
        rwa [Finset.card_range] at hcard
    _ < maxNodes := by decide

/-- So are blocks with room that are apart. -/
theorem length_lt_maxNodes {link : ℕ} {l : List Block} (h : l.Pairwise Apart)
    (hroom : ∀ b∈l, Roomy link b) : l.length < maxNodes :=
  length_lt_of_cells (Cells.of_roomy hroom h)

section Frames

variable {link : ℕ}

/-- Blocks in use keep their entries where their bytes are kept. -/
theorem entries_congr {s s' : Store κ} {a : Heap κ} (hlive : a.live=s.live.map s.entry)
    (hroom : ∀ e∈a.live, Roomy 0 e.block)
    (hsame : ∀ e∈a.live, ∀ x, e.block.Holds x → s'.memory x=s.memory x) :
    s.live.map s'.entry=a.live := by
  rw [hlive]
  refine List.map_congr_left (fun c hc => ?_)
  have he : s.entry c∈a.live := by
    rw [hlive]
    exact List.mem_map_of_mem hc
  have hsize := sizeAt_congr (hroom _ he) (hsame _ he)
  unfold Store.entry at hsize ⊢
  dsimp only at hsize
  rw [hsize]

/-- Fresh pages hold no byte of a mapped page. -/
theorem mmap_outside {s : Store κ} {pages : Finset ℕ} {fresh count x : ℕ}
    (hfresh : Fresh pages fresh count) (hx : x/4096∈pages) :
    (s.mmap fresh count).memory x=s.memory x := by
  have hnot : x/4096∉pageRun (fresh/4096) count :=
    fun hin => Finset.disjoint_left.mp hfresh.unmapped hx hin
  rw [←holds_runBlock,←hfresh.block_eq] at hnot
  unfold Block.Holds Block.stop at hnot
  dsimp only at hnot
  show blit s.memory fresh (4096*count) (fun _ => 0) x=s.memory x
  exact blit_outside s.memory _ (by omega)

end Frames

section Refinement

variable [Fintype κ] [DecidableEq κ] {link : ℕ}

omit [DecidableEq κ] in
/-- The lists in memory are those of the abstract heap. -/
theorem Holds.list_eq {s : Store κ} {a : Heap κ} (hholds : Holds link s a) (hgood : Good (link+8) a)
    (k : κ) : s.list link k=a.free k :=
  (hholds.chains k).listFrom_eq (length_lt_maxNodes (apart_of_spaced (hgood.covered.spaced k))
    (fun _ hb => free_roomy hgood.covered hgood.high hb))

/-- Inserting a block that no other block overlaps. -/
theorem insertFree_spec (hlink : 8≤link) {s : Store κ} {free : κ → List Block} {blocks : List Block}
    {pages : Finset ℕ} {node : Block} (k : κ)
    (hchains : ∀ j, Chain link s.memory (s.head j) (free j))
    (hcovered : Covered (link+8) free (node::blocks) pages) (hlow : 0∉pages)
    (hhigh : ∀ j∈pages, 4096*(j+1)<2^64) (hsize : sizeAt s.memory node.addr=node.size)
    (hjoins : Joins (link+8) node (free k)) :
    ∃ s', s.insertFree link k node.addr=some s' ∧ s'.live=s.live ∧ s'.pages=s.pages ∧
      (∀ j, Chain link s'.memory (s'.head j)
        (Function.update free k (BlockList.insert node (free k)) j)) ∧
      ∀ b∈blocks, ∀ x, b.Holds x → s'.memory x=s.memory x := by
  have hleast : 0<link+8 := by omega
  have hnode : node∈node::blocks ∨ ∃ j, node∈free j := Or.inl List.mem_cons_self
  have hroom : ∀ j, ∀ b∈free j, Roomy link b :=
    fun j b hb => free_roomy hcovered hhigh hb
  have hapart : ∀ j, ∀ b∈free j, Apart node b :=
    fun j b hb => hcovered.live_free hleast List.mem_cons_self hb
  obtain ⟨m,p,hrun,hchain,hframe⟩ := insertNode_spec hlink (free k) maxNodes s.memory node (s.head k)
    (length_lt_maxNodes (apart_of_spaced (hcovered.spaced k)) (hroom k))
    (live_roomy hcovered hhigh List.mem_cons_self) hjoins (addr_ne_zero hcovered hlow hnode) hsize
    (hroom k) (hapart k) (hcovered.spaced k) (hchains k)
  refine ⟨{s with memory := m,head := Function.update s.head k p},?_,rfl,rfl,?_,?_⟩
  · rw [Store.insertFree,hrun]
    rfl
  · intro j
    by_cases hj : j=k
    · subst hj
      dsimp only
      rw [Function.update_self,Function.update_self]
      exact hchain
    · dsimp only
      rw [Function.update_of_ne hj,Function.update_of_ne hj]
      refine (hchains j).congr (hroom j) (fun b hb x hx => hframe x (fun c hc => ?_))
      rcases List.mem_cons.mp hc with rfl|hc
      · exact not_holds_of_apart (hapart j b hb) hx
      · exact not_holds_of_apart (hcovered.free_apart hleast (Ne.symm hj) hc hb) hx
  · intro b hb x hx
    have hpair := hcovered.live_apart
    refine hframe x (fun c hc => ?_)
    rcases List.mem_cons.mp hc with rfl|hc
    · exact not_holds_of_apart ((List.pairwise_cons.mp hpair).1 b hb) hx
    · exact not_holds_of_apart
        (hcovered.live_free hleast (List.mem_cons_of_mem node hb) hc).symm hx

omit [DecidableEq κ] in
/-- Mapping fresh pages leaves every block alone. -/
theorem mmap_spec {s : Store κ} {a : Heap κ} (hholds : Holds link s a) (hgood : Good (link+8) a)
    {fresh count : ℕ} (hfresh : Fresh a.pages fresh count) :
    Holds link (s.mmap fresh count) {a with pages := a.pages∪pageRun (fresh/4096) count} ∧
      ∀ e∈a.live, ∀ x, e.block.Holds x → (s.mmap fresh count).memory x=s.memory x := by
  have hkeep : ∀ b, (b∈a.blocks ∨ ∃ j, b∈a.free j) → ∀ x, b.Holds x →
      (s.mmap fresh count).memory x=s.memory x :=
    fun b hb x hx => mmap_outside hfresh (hgood.covered.mapped hb hx)
  have hlivekeep : ∀ e∈a.live, ∀ x, e.block.Holds x → (s.mmap fresh count).memory x=s.memory x :=
    fun e he => hkeep e.block (Or.inl (List.mem_map_of_mem he))
  have hlroom : ∀ e∈a.live, Roomy 0 e.block :=
    fun e he => live_roomy hgood.covered hgood.high (List.mem_map_of_mem he)
  refine ⟨⟨fun j => ?_,(entries_congr hholds.live hlroom hlivekeep).symm,?_⟩,hlivekeep⟩
  · exact (hholds.chains j).congr
      (fun b hb => free_roomy hgood.covered hgood.high hb)
      (fun b hb => hkeep b (Or.inr ⟨j,hb⟩))
  · dsimp only
    rw [hholds.pages]
    rfl

/-- Getting a block from memory is obtaining one from the lists; blocks in use
are left alone. -/
theorem getBlock_spec (hlink : 8≤link) {s : Store κ} {a : Heap κ} (hholds : Holds link s a)
    (hgood : Good (link+8) a) (k : κ) (size fresh : ℕ)
    (hfresh : takeFit size (a.free k)=none → Fresh a.pages fresh 1) :
    ∃ s', s.getBlock link k size fresh=some (s',(a.obtain k size fresh).2.1.addr,
        (a.obtain k size fresh).2.1.size,(a.obtain k size fresh).2.2) ∧
      Holds link s' (a.obtain k size fresh).1 ∧
      ∀ e∈a.live, ∀ x, e.block.Holds x → s'.memory x=s.memory x := by
  have hleast : 0<link+8 := by omega
  have hcovered := hgood.covered
  have hroom : ∀ j, ∀ b∈a.free j, Roomy link b :=
    fun j b hb => free_roomy hcovered hgood.high hb
  have hne : ∀ b∈a.free k, b.addr≠0 :=
    fun b hb => addr_ne_zero hcovered hgood.low (Or.inr ⟨k,hb⟩)
  obtain ⟨hnone,hsome⟩ := takeNode_spec hlink size maxNodes
    (length_lt_maxNodes (apart_of_spaced (hcovered.spaced k)) (hroom k)) (hroom k)
    (apart_of_spaced (hcovered.spaced k)) (hholds.chains k)
  unfold Store.getBlock Heap.obtain
  cases htake : takeFit size (a.free k) with
  | none =>
    obtain ⟨hmapped,hkeep⟩ := mmap_spec hholds hgood (hfresh htake)
    refine ⟨s.mmap fresh 1,?_,hmapped,hkeep⟩
    rw [hnone htake]
    rfl
  | some found =>
    obtain ⟨b,left⟩ := found
    obtain ⟨m,p,hrun,hchain,hframe⟩ := hsome b left htake
    obtain ⟨before,after,hk,rfl,-⟩ := takeFit_eq_some htake
    have hbmem : b∈a.free k := by
      rw [hk]
      exact List.mem_append_right before List.mem_cons_self
    have hleft : ∀ c∈before++after, c∈a.free k := by
      intro c hc
      rw [hk]
      exact (taken_perm before after b).mem_iff.mpr (List.mem_cons_of_mem b hc)
    have hafter := hcovered.take (by omega) hk
    have hbleft : ∀ c∈before++after, Apart b c := by
      intro c hc
      refine hafter.live_free hleast (k:=k) List.mem_cons_self ?_
      rw [Function.update_self]
      exact hc
    have hbsize : sizeAt m b.addr=b.size := by
      rw [←(hholds.chains k).size_eq hbmem]
      refine sizeAt_congr (hroom k b hbmem) (fun x hx => hframe x (fun c hc => ?_))
      exact not_holds_of_apart (hbleft c hc).symm hx
    have hlivekeep : ∀ e∈a.live, ∀ x, e.block.Holds x → m x=s.memory x := by
      intro e he x hx
      refine hframe x (fun c hc => ?_)
      exact not_holds_of_apart
        (hcovered.live_free hleast (List.mem_map_of_mem he) (hleft c hc)).symm hx
    refine ⟨{s with memory := m,head := Function.update s.head k p},?_,⟨?_,?_,hholds.pages⟩,hlivekeep⟩
    · rw [hrun,Option.map_some]
      dsimp only
      rw [if_pos (hne b hbmem),hbsize]
    · intro j
      dsimp only
      by_cases hj : j=k
      · subst hj
        rw [Function.update_self,Function.update_self]
        exact hchain
      · rw [Function.update_of_ne hj,Function.update_of_ne hj]
        refine (hholds.chains j).congr (hroom j) (fun c hc x hx => hframe x (fun d hd => ?_))
        exact not_holds_of_apart (hcovered.free_apart hleast (Ne.symm hj) (hleft d hd) hc) hx
    · have hlroom : ∀ e∈a.live, Roomy 0 e.block :=
        fun e he => live_roomy hcovered hgood.high (List.mem_map_of_mem he)
      exact (entries_congr hholds.live hlroom hlivekeep).symm

omit [DecidableEq κ] in
/-- Storing the size of a block and handing it out leaves every other block alone. -/
theorem give_spec {s : Store κ} {a : Heap κ} (hholds : Holds link s a) {b : Block}
    (hcovered : Covered (link+8) a.free (b::a.blocks) a.pages)
    (hhigh : ∀ j∈a.pages, 4096*(j+1)<2^64) (request : ℕ) :
    Holds link (s.give b.addr b.size request) {a with live := ⟨b,request⟩::a.live} ∧
      ∀ e∈a.live, ∀ x, e.block.Holds x → (s.give b.addr b.size request).memory x=s.memory x := by
  have hleast : 0<link+8 := by omega
  have hb : Roomy 0 b := live_roomy hcovered hhigh List.mem_cons_self
  have hbsize : b.size<2^64 := by
    unfold Roomy Block.stop at hb
    omega
  have hpair := (List.pairwise_cons.mp (hcovered.live_apart)).1
  have hkeep : ∀ c, Apart b c → ∀ x, c.Holds x →
      (s.give b.addr b.size request).memory x=s.memory x :=
    fun c hc x hx => setSize_outside hb (not_holds_of_apart hc hx)
  have hlivekeep : ∀ e∈a.live, ∀ x, e.block.Holds x →
      (s.give b.addr b.size request).memory x=s.memory x :=
    fun e he => hkeep e.block (hpair e.block (List.mem_map_of_mem he))
  have hlroom : ∀ e∈a.live, Roomy 0 e.block := fun e he =>
    live_roomy hcovered hhigh (List.mem_cons_of_mem b (List.mem_map_of_mem he))
  refine ⟨⟨fun j => ?_,?_,hholds.pages⟩,hlivekeep⟩
  · exact (hholds.chains j).congr
      (fun c hc => free_roomy hcovered hhigh hc)
      (fun c hc => hkeep c (hcovered.live_free hleast List.mem_cons_self hc))
  · have hentries := entries_congr hholds.live hlroom hlivekeep
    have hsize : sizeAt (setSize s.memory b.addr b.size) b.addr=b.size := sizeAt_setSize hbsize
    dsimp only
    rw [Store.give,List.map_cons,←hentries]
    unfold Store.entry Store.give
    dsimp only
    rw [hsize]

/-- Putting a block to use in memory is placing it in the lists; the other blocks
in use are left alone. -/
theorem place_spec (hlink : 8≤link) {s : Store κ} {a : Heap κ} (hholds : Holds link s a) {b : Block}
    (hcovered : Covered (link+8) a.free (b::a.blocks) a.pages) (hlow : 0∉a.pages)
    (hhigh : ∀ j∈a.pages, 4096*(j+1)<2^64) (k : κ) {size : ℕ} (hsize : 8 ≤ size)
    (hle : size≤b.size) (request : ℕ) :
    ∃ s' kept, s.splitBlock link k b.addr b.size size=some (s',kept) ∧
      Holds link (s'.give b.addr kept request) (a.place (link+8) k b size request) ∧
      ∀ e∈a.live, ∀ x, e.block.Holds x → (s'.give b.addr kept request).memory x=s.memory x := by
  have hleast : 0<link+8 := by omega
  unfold Store.splitBlock Heap.place
  by_cases hsplit : link+8<b.size-size
  · rw [if_pos hsplit,if_pos hsplit]
    have hcut := hcovered.cut hsize (by omega) hle
    have hrest : Roomy 0 ⟨b.addr+size,b.size-size⟩ :=
      live_roomy hcut hhigh List.mem_cons_self
    have hrestsize : b.size-size<2^64 := by
      unfold Roomy Block.stop at hrest
      dsimp only at hrest
      omega
    have hpair := (List.pairwise_cons.mp (hcut.live_apart)).1
    have hkeep : ∀ c, Apart ⟨b.addr+size,b.size-size⟩ c → ∀ x, c.Holds x →
        setSize s.memory (b.addr+size) (b.size-size) x=s.memory x :=
      fun c hc x hx => setSize_outside hrest (not_holds_of_apart hc hx)
    have hchains : ∀ j, Chain link (setSize s.memory (b.addr+size) (b.size-size)) (s.head j)
        (a.free j) := fun j => (hholds.chains j).congr
      (fun c hc => free_roomy hcut hhigh hc)
      (fun c hc => hkeep c (hcut.live_free hleast List.mem_cons_self hc))
    obtain ⟨s',hrun,hlive,hpages,hchains',hframe⟩ := insertFree_spec
      (s:={s with memory := setSize s.memory (b.addr+size) (b.size-size)}) hlink k hchains hcut hlow
      hhigh (sizeAt_setSize hrestsize) (Or.inl hsplit.le)
    have hlivekeep : ∀ e∈a.live, ∀ x, e.block.Holds x → s'.memory x=s.memory x := by
      intro e he x hx
      have hmem : e.block∈⟨b.addr,size⟩::a.blocks :=
        List.mem_cons_of_mem _ (List.mem_map_of_mem he)
      rw [hframe e.block hmem x hx]
      exact hkeep e.block (hpair e.block hmem) x hx
    have hlroom : ∀ e∈a.live, Roomy 0 e.block := fun e he =>
      live_roomy hcovered hhigh (List.mem_cons_of_mem b (List.mem_map_of_mem he))
    have hholds' : Holds link s' ⟨Function.update a.free k
        (BlockList.insert ⟨b.addr+size,b.size-size⟩ (a.free k)),a.live,a.pages⟩ := by
      refine ⟨hchains',?_,?_⟩
      · dsimp only
        rw [hlive]
        exact (entries_congr hholds.live hlroom hlivekeep).symm
      · dsimp only
        rw [hpages]
        exact hholds.pages
    obtain ⟨hgiven,hgivekeep⟩ := give_spec (b:=⟨b.addr,size⟩) hholds'
      (hcut.release hleast (Or.inl hsplit.le)) hhigh
      request
    refine ⟨s',size,?_,hgiven,?_⟩
    · rw [hrun]
      rfl
    · intro e he x hx
      rw [hgivekeep e he x hx,hlivekeep e he x hx]
  · rw [if_neg hsplit,if_neg hsplit]
    obtain ⟨hgiven,hgivekeep⟩ := give_spec hholds hcovered hhigh request
    exact ⟨s,b.size,rfl,hgiven,hgivekeep⟩

/-- A small request in memory is a small request to the lists. -/
theorem allocFrom_spec (hlink : 8≤link) {s : Store κ} {a : Heap κ} (hholds : Holds link s a)
    (hgood : Good (link+8) a) (k : κ) {size fresh : ℕ} (request : ℕ)
    (hfresh : takeFit size (a.free k)=none → Fresh a.pages fresh 1) (hsize : 8 ≤ size)
    (hpage : size≤4096) :
    ∃ s', s.allocFrom link k size request fresh=some (s',(a.obtain k size fresh).2.2) ∧
      Holds link s' (a.allocFrom (link+8) k size request fresh) ∧
      ∀ e∈a.live, ∀ x, e.block.Holds x → s'.memory x=s.memory x := by
  obtain ⟨hcovered,hlow,hhigh,hlive,hle,-⟩ := hgood.obtained (by omega) hfresh
  obtain ⟨s₁,hget,hholds₁,hkeep₁⟩ := getBlock_spec hlink hholds hgood k size fresh hfresh
  have hblocks : (a.obtain k size fresh).1.blocks=a.blocks := by
    unfold Heap.blocks
    rw [hlive]
  rw [←hblocks] at hcovered
  obtain ⟨s₂,kept,hsplit,hholds₂,hkeep₂⟩ := place_spec hlink hholds₁ hcovered hlow hhigh k hsize
    (hle hpage) request
  refine ⟨s₂.give (a.obtain k size fresh).2.1.addr kept request,?_,hholds₂,?_⟩
  · rw [Store.allocFrom,hget,Option.bind_some,hsplit,Option.map_some]
  · intro e he x hx
    rw [hkeep₂ e (hlive.symm ▸ he) x hx,hkeep₁ e he x hx]

omit [DecidableEq κ] in
/-- A request of whole pages in memory is one to the lists. -/
theorem allocPages_spec {s : Store κ} {a : Heap κ} (hholds : Holds link s a)
    (hgood : Good (link+8) a) {count fresh : ℕ} (request : ℕ) (hfresh : Fresh a.pages fresh count)
    (hroom : 8≤4096*count) :
    ∃ s', s.allocPages count request fresh=some s' ∧
      Holds link s' (a.allocPages count request fresh) ∧
      ∀ e∈a.live, ∀ x, e.block.Holds x → s'.memory x=s.memory x := by
  obtain ⟨hmapped,hmapkeep⟩ := mmap_spec hholds hgood hfresh
  have hcovered := hgood.covered.map hfresh.unmapped hroom
  rw [←hfresh.block_eq] at hcovered
  have hhigh : ∀ j∈a.pages∪pageRun (fresh/4096) count, 4096*(j+1)<2^64 := by
    intro j hj
    rcases Finset.mem_union.mp hj with hold|hin
    · exact hgood.high j hold
    · exact (hfresh.bounds hin).2
  have hcount : 4096*count%2^64=4096*count := by
    have hfits := hfresh.fits
    exact Nat.mod_eq_of_lt (by omega)
  obtain ⟨hgiven,hgivekeep⟩ := give_spec (b:=⟨fresh,4096*count⟩) hmapped hcovered hhigh request
  have hrun : s.allocPages count request fresh=
      some ((s.mmap fresh count).give fresh (4096*count) request) := by
    unfold Store.allocPages
    dsimp only
    rw [hcount,if_neg (by omega),Nat.mul_div_cancel_left count (by decide)]
  refine ⟨_,hrun,hgiven,fun e he x hx => ?_⟩
  rw [hgivekeep e he x hx,hmapkeep e he x hx]

omit [Fintype κ] [DecidableEq κ] in
/-- Different blocks of clients have different entries. -/
theorem entry_injective (s : Store κ) : Function.Injective s.entry := by
  intro c d h
  obtain ⟨caddr,crequest⟩ := c
  obtain ⟨daddr,drequest⟩ := d
  unfold Store.entry at h
  rw [Entry.mk.injEq,Block.mk.injEq] at h
  rw [Client.mk.injEq]
  exact ⟨h.1.1,h.2⟩

omit [Fintype κ] [DecidableEq κ] in
/-- The blocks of clients that are left. -/
theorem live_erase {s : Store κ} {a : Heap κ} (hholds : Holds link s a) (c : Client) :
    a.live.erase (s.entry c)=(s.live.erase c).map s.entry := by
  rw [hholds.live,List.map_erase (entry_injective s)]

omit [Fintype κ] [DecidableEq κ] in
/-- The block of a client is in use. -/
theorem entry_mem {s : Store κ} {a : Heap κ} (hholds : Holds link s a) {c : Client} (hc : c∈s.live) :
    s.entry c∈a.live := by
  rw [hholds.live]
  exact List.mem_map_of_mem hc

/-- Releasing a block in memory is releasing it to the lists. -/
theorem release_spec (hlink : 8≤link) {s : Store κ} {a : Heap κ} (hholds : Holds link s a)
    (hgood : Good (link+8) a) {k : κ} {c : Client} (hc : c∈s.live)
    (hjoins : Joins (link+8) (s.entry c).block (a.free k)) :
    ∃ s', s.release link k c=some s' ∧ Holds link s' (a.release k (s.entry c)) ∧
      ∀ e∈a.live.erase (s.entry c), ∀ x, e.block.Holds x → s'.memory x=s.memory x := by
  have hcovered := hgood.covered.perm (blocks_perm (entry_mem hholds hc))
  obtain ⟨s',hrun,hlive,hpages,hchains,hframe⟩ := insertFree_spec
    (s:={s with live := s.live.erase c}) hlink k hholds.chains hcovered hgood.low hgood.high rfl hjoins
  have hkeep : ∀ e∈a.live.erase (s.entry c), ∀ x, e.block.Holds x → s'.memory x=s.memory x :=
    fun e he => hframe e.block (List.mem_map_of_mem he)
  have hroom : ∀ e∈a.live.erase (s.entry c), Roomy 0 e.block := fun e he =>
    live_roomy hgood.covered hgood.high (List.mem_map_of_mem (List.mem_of_mem_erase he))
  refine ⟨s',hrun,⟨hchains,?_,?_⟩,hkeep⟩
  · have hentries : (s.live.erase c).map s'.entry=a.live.erase (s.entry c) :=
      entries_congr (s:={s with live := s.live.erase c})
        (a:={a with live := a.live.erase (s.entry c)}) (live_erase hholds c) hroom hkeep
    rw [hlive]
    exact hentries.symm
  · rw [hpages]
    exact hholds.pages

omit [Fintype κ] [DecidableEq κ] in
/-- Unmapping whole pages succeeds. -/
theorem munmap_eq (s : Store κ) {addr length : ℕ} (haddr : addr=4096*(addr/4096))
    (hlength : length=4096*(length/4096)) (hpos : 0<length) :
    s.munmap addr length=some {s with pages := s.pages \ pageRun (addr/4096) (length/4096)} := by
  have hcount : (length+4095)/4096=length/4096 := by omega
  rw [Store.munmap,if_pos ⟨by omega,by omega⟩,hcount]

omit [Fintype κ] [DecidableEq κ] in
/-- Unmapping a block of whole pages in memory is unmapping it in the lists. -/
theorem unmap_spec {s : Store κ} {a : Heap κ} (hholds : Holds link s a) {c : Client}
    (hrun : (s.entry c).block=runBlock ((s.entry c).block.addr/4096) ((s.entry c).block.size/4096))
    (hsize : 0<(s.entry c).block.size) :
    ∃ s', s.unmap c=some s' ∧ Holds link s' (a.unmap (s.entry c)) ∧ s'.memory=s.memory := by
  have hdone := munmap_eq {s with live := s.live.erase c} (congrArg Block.addr hrun)
    (congrArg Block.size hrun) hsize
  refine ⟨_,hdone,⟨hholds.chains,live_erase hholds c,?_⟩,rfl⟩
  exact congrArg (fun pages => pages \ _) hholds.pages

omit [DecidableEq κ] in
/-- A client that writes behind the header of its block changes no list and no
size. -/
theorem write_spec {s : Store κ} {a : Heap κ} (hlink : 8≤link) (hholds : Holds link s a)
    (hgood : Good (link+8) a) {c : Client} (hc : c∈s.live) {x : ℕ} (byte : UInt8)
    (hlow : c.addr+8≤x) (hhigh : x<c.addr+sizeAt s.memory c.addr) :
    Holds link (s.write x byte) a := by
  have hleast : 0<link+8 := by omega
  have hentry := entry_mem hholds hc
  have hblock : (s.entry c).block∈a.blocks := List.mem_map_of_mem hentry
  have hheld : (s.entry c).block.Holds x := by
    unfold Block.Holds Block.stop Store.entry
    dsimp only
    omega
  have hother : ∀ y, y≠x → (s.write x byte).memory y=s.memory y :=
    fun y hy => if_neg hy
  refine ⟨fun j => ?_,?_,hholds.pages⟩
  · refine (hholds.chains j).congr
      (fun b hb => free_roomy hgood.covered hgood.high hb) (fun b hb y hy => ?_)
    refine hother y ?_
    rintro rfl
    exact not_holds_of_apart (hgood.covered.live_free hleast hblock hb) hy hheld
  · rw [hholds.live]
    refine List.map_congr_left (fun d hd => ?_)
    have hsize : sizeAt (s.write x byte).memory d.addr=sizeAt s.memory d.addr := by
      refine wordAt_congr (fun y hl hr => hother y ?_)
      rintro rfl
      have hdblock : (s.entry d).block∈a.blocks := List.mem_map_of_mem (entry_mem hholds hd)
      have hdsize : 8≤(s.entry d).block.size := hgood.covered.liveSize _ hdblock
      have hdheld : (s.entry d).block.Holds y := by
        unfold Block.Holds Block.stop
        exact ⟨hl,lt_of_lt_of_le hr (Nat.add_le_add_left (by omega) _)⟩
      have hne : (s.entry c).block≠(s.entry d).block := by
        intro heq
        have haddr : c.addr=d.addr := congrArg Block.addr heq
        omega
      have hsymm : Std.Symm Apart := ⟨fun _ _ h => h.symm⟩
      have hapart := (hgood.covered.live_apart).forall hblock hdblock hne
      exact not_holds_of_apart hapart hdheld hheld
    unfold Store.entry
    rw [hsize]

end Refinement

end ComputerSystems.HeapMemory
