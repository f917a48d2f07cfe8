import ComputerSystems.PagedHeap

/-!
# An allocator over lists of blocks

The abstract allocator: requests are served from a free list by first fit, or
from a fresh page, and what is left of the block goes back to the list when it
is larger than a list node; larger requests get pages of their own. Released
blocks go to a list, whole runs of pages are unmapped. Each operation keeps
the account of all bytes. This module names no particular allocator.
-/

namespace ComputerSystems.BlockHeap

open BlockList PagedHeap

variable {κ : Type} [Fintype κ]

/-- A block in use, with the bytes that were asked for. -/
structure Entry where
  /-- The block, its header included. -/
  block : Block
  /-- The bytes that were asked for. -/
  request : ℕ
deriving DecidableEq

/-- The free lists, the blocks in use and the mapped pages. -/
structure Heap (κ : Type) where
  /-- The free lists. -/
  free : κ → List Block
  /-- The blocks in use. -/
  live : List Entry
  /-- The mapped pages. -/
  pages : Finset ℕ

/-- The blocks in use. -/
def Heap.blocks (a : Heap κ) : List Block := a.live.map Entry.block

/-- A block for a request: the first fit of a list, or else a fresh page; the
number of pages that were mapped comes with it. -/
def Heap.obtain [DecidableEq κ] (a : Heap κ) (k : κ) (size fresh : ℕ) : Heap κ × Block × ℕ :=
  match takeFit size (a.free k) with
  | some (b,left) => ({a with free := Function.update a.free k left},b,0)
  | none => ({a with pages := a.pages∪pageRun (fresh/4096) 1},⟨fresh,4096⟩,1)

/-- Put a block to use; a rest larger than a list node goes back to the list. -/
def Heap.place [DecidableEq κ] (a : Heap κ) (node : ℕ) (k : κ) (b : Block) (size request : ℕ) : Heap κ :=
  if node<b.size-size then
    {a with free := Function.update a.free k
              (BlockList.insert ⟨b.addr+size,b.size-size⟩ (a.free k)),
            live := ⟨⟨b.addr,size⟩,request⟩::a.live}
  else {a with live := ⟨b,request⟩::a.live}

/-- A small request. -/
def Heap.allocFrom [DecidableEq κ] (a : Heap κ) (node : ℕ) (k : κ) (size request fresh : ℕ) : Heap κ :=
  (a.obtain k size fresh).1.place node k (a.obtain k size fresh).2.1 size request

/-- A request of whole pages. -/
def Heap.allocPages (a : Heap κ) (count request fresh : ℕ) : Heap κ :=
  {a with live := ⟨⟨fresh,4096*count⟩,request⟩::a.live,
          pages := a.pages∪pageRun (fresh/4096) count}

/-- A block goes back to a list. -/
def Heap.release [DecidableEq κ] (a : Heap κ) (k : κ) (e : Entry) : Heap κ :=
  {a with free := Function.update a.free k (BlockList.insert e.block (a.free k)),
          live := a.live.erase e}

/-- A block is unmapped. -/
def Heap.unmap (a : Heap κ) (e : Entry) : Heap κ :=
  {a with live := a.live.erase e,
          pages := a.pages \ pageRun (e.block.addr/4096) (e.block.size/4096)}

/-- The account of the heap. -/
structure Good (least : ℕ) (a : Heap κ) : Prop where
  /-- Every byte of a mapped page is in one block. -/
  covered : Covered least a.free a.blocks a.pages
  /-- Blocks in use hold their header and what was asked for. -/
  enough : ∀ e∈a.live, e.request+8≤e.block.size
  /-- The first page is never mapped. -/
  low : 0∉a.pages
  /-- Mapped pages end before the end of the address space. -/
  high : ∀ j∈a.pages, 4096*(j+1)<2^64

/-- All bytes of the heap. -/
def Heap.bytes (a : Heap κ) : ℕ := allBytes a.free a.blocks

/-- Fresh pages: aligned, not the first page, inside the address space, and none
of them mapped. -/
structure Fresh (pages : Finset ℕ) (addr count : ℕ) : Prop where
  /-- The address is that of a page. -/
  aligned : addr%4096=0
  /-- The first page is never mapped. -/
  ne_zero : addr≠0
  /-- The pages end before the end of the address space. -/
  fits : addr+4096*count<2^64
  /-- None of the pages is mapped. -/
  unmapped : Disjoint pages (pageRun (addr/4096) count)

instance (pages : Finset ℕ) (addr count : ℕ) : Decidable (Fresh pages addr count) :=
  decidable_of_iff (addr%4096=0 ∧ addr≠0 ∧ addr+4096*count<2^64 ∧
      Disjoint pages (pageRun (addr/4096) count))
    ⟨fun h => ⟨h.1,h.2.1,h.2.2.1,h.2.2.2⟩,fun h => ⟨h.aligned,h.ne_zero,h.fits,h.unmapped⟩⟩

section Keeping

variable {least node : ℕ} {a : Heap κ}

omit [Fintype κ] in
/-- The block of fresh pages. -/
theorem Fresh.block_eq {pages : Finset ℕ} {addr count : ℕ} (h : Fresh pages addr count) :
    (⟨addr,4096*count⟩ : Block)=runBlock (addr/4096) count := by
  have haligned := h.aligned
  unfold runBlock
  rw [Block.mk.injEq]
  omega

omit [Fintype κ] in
/-- Fresh pages are neither the first page nor behind the end. -/
theorem Fresh.bounds {pages : Finset ℕ} {addr count j : ℕ} (h : Fresh pages addr count)
    (hj : j∈pageRun (addr/4096) count) : j≠0 ∧ 4096*(j+1)<2^64 := by
  have haligned := h.aligned
  have hne := h.ne_zero
  have hfits := h.fits
  unfold pageRun at hj
  rw [Finset.mem_Ico] at hj
  omega

/-- A block that was obtained is accounted for as if it were in use. -/
theorem Good.obtained [DecidableEq κ] (h : Good least a) (hleast : 8≤least) {k : κ} {size fresh : ℕ}
    (hfresh : takeFit size (a.free k)=none → Fresh a.pages fresh 1) :
    Covered least (a.obtain k size fresh).1.free
        ((a.obtain k size fresh).2.1::a.blocks) (a.obtain k size fresh).1.pages ∧
      0∉(a.obtain k size fresh).1.pages ∧
      (∀ j∈(a.obtain k size fresh).1.pages, 4096*(j+1)<2^64) ∧
      (a.obtain k size fresh).1.live=a.live ∧
      (size≤4096 → size≤(a.obtain k size fresh).2.1.size) ∧
      allBytes (a.obtain k size fresh).1.free ((a.obtain k size fresh).2.1::a.blocks)=
        a.bytes+4096*(a.obtain k size fresh).2.2 := by
  unfold Heap.obtain
  cases htake : takeFit size (a.free k) with
  | none =>
    have hnew := hfresh htake
    have hblock : (⟨fresh,4096⟩ : Block)=runBlock (fresh/4096) 1 := hnew.block_eq
    dsimp only
    rw [hblock]
    refine ⟨h.covered.map hnew.unmapped (by decide),?_,?_,rfl,fun hs => hs,?_⟩
    · intro hzero
      rcases Finset.mem_union.mp hzero with hold|hin
      · exact h.low hold
      · exact (hnew.bounds hin).1 rfl
    · intro j hj
      rcases Finset.mem_union.mp hj with hold|hin
      · exact h.high j hold
      · exact (hnew.bounds hin).2
    · unfold Heap.bytes allBytes
      rw [total_cons]
      unfold runBlock
      dsimp only
      omega
  | some found =>
    obtain ⟨b,left⟩ := found
    obtain ⟨before,after,hk,rfl,hsize⟩ := takeFit_eq_some htake
    dsimp only
    refine ⟨h.covered.take hleast hk,h.low,h.high,rfl,fun _ => hsize,?_⟩
    have hbytes := allBytes_update a.free a.blocks (b::a.blocks) k (before++after)
    rw [hk,total_perm (taken_perm before after b),total_cons,total_cons] at hbytes
    unfold Heap.bytes
    omega

omit [Fintype κ] in
/-- Both outcomes of placing a block. -/
theorem place_cases [DecidableEq κ] (a : Heap κ) (node : ℕ) (k : κ) (b : Block) (size request : ℕ) :
    (node<b.size-size ∧ a.place node k b size request=
      {a with free := Function.update a.free k
                (BlockList.insert ⟨b.addr+size,b.size-size⟩ (a.free k)),
              live := ⟨⟨b.addr,size⟩,request⟩::a.live}) ∨
    (¬node<b.size-size ∧ a.place node k b size request=
      {a with live := ⟨b,request⟩::a.live}) := by
  unfold Heap.place
  split_ifs with hrest
  · exact Or.inl ⟨hrest,rfl⟩
  · exact Or.inr ⟨hrest,rfl⟩

/-- Placing a block keeps the account. -/
theorem Good.place [DecidableEq κ] {b : Block} {k : κ} {size request : ℕ}
    (hcovered : Covered node a.free (b::a.blocks) a.pages)
    (henough : ∀ e∈a.live, e.request+8≤e.block.size) (hlow : 0∉a.pages)
    (hhigh : ∀ j∈a.pages, 4096*(j+1)<2^64) (hnode : 8≤node) (hsize : 8 ≤ size) (hle : size≤b.size)
    (hrequest : request+8 ≤ size) :
    Good node (a.place node k b size request) ∧
      (a.place node k b size request).bytes=allBytes a.free (b::a.blocks) := by
  rcases place_cases a node k b size request with ⟨hrest,heq⟩|⟨hrest,heq⟩
  · rw [heq]
    have hcut := hcovered.cut hsize (hnode.trans hrest.le) hle
    refine ⟨⟨hcut.release (by omega) (Or.inl hrest.le),?_,hlow,hhigh⟩,?_⟩
    · intro e he
      rcases List.mem_cons.mp he with rfl|he
      · exact hrequest
      · exact henough e he
    · have hbytes := allBytes_update a.free (b::a.blocks) (⟨b.addr,size⟩::a.blocks) k
        (BlockList.insert ⟨b.addr+size,b.size-size⟩ (a.free k))
      rw [total_insert,total_cons,total_cons] at hbytes
      dsimp only at hbytes
      unfold Heap.bytes Heap.blocks
      rw [List.map_cons]
      unfold Heap.blocks at hbytes
      dsimp only
      omega
  · rw [heq]
    refine ⟨⟨hcovered,?_,hlow,hhigh⟩,rfl⟩
    intro e he
    rcases List.mem_cons.mp he with rfl|he
    · exact hrequest.trans hle
    · exact henough e he

/-- A small request keeps the account. -/
theorem Good.allocFrom [DecidableEq κ] (h : Good node a) (hnode : 8≤node) {k : κ} {size request fresh : ℕ}
    (hfresh : takeFit size (a.free k)=none → Fresh a.pages fresh 1) (hsize : 8 ≤ size)
    (hpage : size≤4096) (hrequest : request+8 ≤ size) :
    Good node (a.allocFrom node k size request fresh) ∧
      (a.allocFrom node k size request fresh).bytes=a.bytes+4096*(a.obtain k size fresh).2.2 := by
  obtain ⟨hcovered,hlow,hhigh,hlive,hle,hbytes⟩ := h.obtained hnode hfresh
  have hblocks : (a.obtain k size fresh).1.blocks=a.blocks := by
    unfold Heap.blocks
    rw [hlive]
  rw [←hblocks] at hcovered hbytes
  have henough : ∀ e∈(a.obtain k size fresh).1.live, e.request+8≤e.block.size := by
    rw [hlive]
    exact h.enough
  obtain ⟨hgood,hsame⟩ := Good.place (k:=k) hcovered henough hlow hhigh hnode hsize (hle hpage) hrequest
  exact ⟨hgood,hsame.trans hbytes⟩

/-- A request of whole pages keeps the account. -/
theorem Good.allocPages (h : Good least a) {count request fresh : ℕ}
    (hfresh : Fresh a.pages fresh count)
    (hrequest : request+8≤4096*count) :
    Good least (a.allocPages count request fresh) ∧
      (a.allocPages count request fresh).bytes=a.bytes+4096*count := by
  have hcovered := h.covered.map hfresh.unmapped (by omega)
  rw [←hfresh.block_eq] at hcovered
  refine ⟨⟨hcovered,?_,?_,?_⟩,?_⟩
  · intro e he
    rcases List.mem_cons.mp he with rfl|he
    · exact hrequest
    · exact h.enough e he
  · intro hzero
    rcases Finset.mem_union.mp hzero with hold|hin
    · exact h.low hold
    · exact (hfresh.bounds hin).1 rfl
  · intro j hj
    rcases Finset.mem_union.mp hj with hold|hin
    · exact h.high j hold
    · exact (hfresh.bounds hin).2
  · unfold Heap.bytes Heap.blocks Heap.allocPages allBytes
    rw [List.map_cons,total_cons]
    dsimp only
    omega

omit [Fintype κ] in
/-- A block in use, and the others. -/
theorem blocks_perm {e : Entry} (he : e∈a.live) :
    a.blocks.Perm (e.block::(a.live.erase e).map Entry.block) := (List.perm_cons_erase he).map _

/-- Releasing a block keeps the account. -/
theorem Good.release [DecidableEq κ] (h : Good least a) (hleast : 0<least) {k : κ} {e : Entry}
    (he : e∈a.live)
    (hjoins : Joins least e.block (a.free k)) :
    Good least (a.release k e) ∧ (a.release k e).bytes=a.bytes := by
  have hcovered := h.covered.perm (blocks_perm he)
  refine ⟨⟨hcovered.release hleast hjoins,?_,h.low,h.high⟩,?_⟩
  · exact fun d hd => h.enough d (List.mem_of_mem_erase hd)
  · have hbytes := allBytes_update a.free a.blocks ((a.live.erase e).map Entry.block) k
      (BlockList.insert e.block (a.free k))
    rw [total_insert,total_perm (blocks_perm he),total_cons] at hbytes
    unfold Heap.bytes
    unfold Heap.release Heap.blocks
    unfold Heap.blocks at hbytes
    dsimp only
    omega

/-- Unmapping a block of whole pages keeps the account. -/
theorem Good.unmap (h : Good least a) {e : Entry} (he : e∈a.live)
    (hrun : e.block=runBlock (e.block.addr/4096) (e.block.size/4096)) :
    Good least (a.unmap e) ∧ (a.unmap e).bytes+4096*(e.block.size/4096)=a.bytes := by
  have hcovered := h.covered.perm (blocks_perm he)
  have hsize : e.block.size=4096*(e.block.size/4096) := congrArg Block.size hrun
  rw [hrun] at hcovered
  refine ⟨⟨hcovered.unmap,?_,?_,?_⟩,?_⟩
  · exact fun d hd => h.enough d (List.mem_of_mem_erase hd)
  · exact fun hzero => h.low (Finset.mem_sdiff.mp hzero).1
  · exact fun j hj => h.high j (Finset.mem_sdiff.mp hj).1
  · unfold Heap.bytes allBytes
    rw [total_perm (blocks_perm he),total_cons]
    unfold Heap.unmap Heap.blocks
    dsimp only
    omega

end Keeping

/-! ## Runs of pages that do not touch -/

/-- How the blocks of a heap lie in the pages. -/
def Heap.Laid (a : Heap κ) : Prop := Paged a.free a.blocks a.pages

section Laying

variable {node : ℕ} {a : Heap κ}

/-- A small request keeps blocks within their pages. -/
theorem Good.laid_allocFrom [DecidableEq κ] (h : Good node a) (hlaid : a.Laid) (hnode : 8≤node) {k : κ}
    {size request fresh : ℕ}
    (hfresh : takeFit size (a.free k)=none → Fresh a.pages fresh 1 ∧ Untouched a.pages (fresh/4096) 1)
    (hsize : 8 ≤ size) (hpage : size≤4096) :
    (a.allocFrom node k size request fresh).Laid := by
  obtain ⟨hcovered,-,-,hlive,hle,-⟩ := h.obtained hnode
    (fun hnone => (hfresh hnone).1)
  have hblocks : (a.obtain k size fresh).1.blocks=a.blocks := by
    unfold Heap.blocks
    rw [hlive]
  have hobtained : Paged (a.obtain k size fresh).1.free ((a.obtain k size fresh).2.1::a.blocks)
      (a.obtain k size fresh).1.pages ∧ OnePage (a.obtain k size fresh).2.1 := by
    unfold Heap.obtain
    cases htake : takeFit size (a.free k) with
    | none =>
      obtain ⟨hnew,huntouched⟩ := hfresh htake
      have hblock : (⟨fresh,4096⟩ : Block)=runBlock (fresh/4096) 1 := hnew.block_eq
      have haligned := hnew.aligned
      dsimp only
      rw [hblock]
      refine ⟨Paged.map hlaid huntouched,?_⟩
      unfold OnePage runBlock Block.stop
      dsimp only
      omega
    | some found =>
      obtain ⟨b,left⟩ := found
      obtain ⟨before,after,hk,rfl,-⟩ := takeFit_eq_some htake
      refine ⟨Paged.take hlaid hk,hlaid.onePage k b ?_⟩
      rw [hk]
      exact List.mem_append_right before List.mem_cons_self
  obtain ⟨hpaged,hone⟩ := hobtained
  unfold Heap.allocFrom
  rw [←hblocks] at hcovered hpaged
  rcases place_cases (a.obtain k size fresh).1 node k (a.obtain k size fresh).2.1 size request with
    ⟨hrest,heq⟩|⟨hrest,heq⟩
  · rw [heq]
    have hcut := hcovered.cut hsize (hnode.trans hrest.le) (hle hpage)
    have hpcut := hpaged.cut hone (hle hpage)
    have hrestone : OnePage ⟨(a.obtain k size fresh).2.1.addr+size,
        (a.obtain k size fresh).2.1.size-size⟩ := by
      have hle' := hle hpage
      unfold OnePage Block.stop at hone ⊢
      dsimp only
      omega
    exact Paged.release hcut hpcut (by omega) hrestone k
  · rw [heq]
    exact hpaged

omit [Fintype κ] in
/-- A request of whole pages keeps blocks within their pages. -/
theorem laid_allocPages (hlaid : a.Laid) {count request fresh : ℕ} (hfresh : Fresh a.pages fresh count)
    (huntouched : Untouched a.pages (fresh/4096) count) :
    (a.allocPages count request fresh).Laid := by
  have hpaged := Paged.map hlaid huntouched
  rw [←hfresh.block_eq] at hpaged
  exact hpaged

/-- Releasing a block of less than a page keeps blocks within their pages. -/
theorem Good.laid_release [DecidableEq κ] (h : Good node a) (hlaid : a.Laid) (hnode : 0<node)
    {k : κ} {e : Entry}
    (he : e∈a.live) (hsize : e.block.size<4096) : (a.release k e).Laid := by
  have hmem : e.block∈a.blocks := List.mem_map_of_mem he
  have hone := onePage_of_lt (hlaid.shape e.block hmem) (h.covered.live_pos hmem) hsize
  exact Paged.release (h.covered.perm (blocks_perm he)) (hlaid.perm (blocks_perm he)) hnode hone k

omit [Fintype κ] in
/-- Blocks of a page or more are whole runs of pages. -/
theorem Heap.Laid.run (hlaid : a.Laid) {e : Entry} (he : e∈a.live) (hsize : 4096≤e.block.size) :
    e.block=runBlock (e.block.addr/4096) (e.block.size/4096) :=
  eq_runBlock (hlaid.shape e.block (List.mem_map_of_mem he)) hsize

omit [Fintype κ] in
/-- Unmapping keeps blocks within their pages. -/
theorem laid_unmap (hlaid : a.Laid) {e : Entry} (he : e∈a.live)
    (hrun : e.block=runBlock (e.block.addr/4096) (e.block.size/4096)) : (a.unmap e).Laid := by
  have hpaged := hlaid.perm (blocks_perm he)
  rw [hrun] at hpaged
  exact hpaged.unmap

end Laying

end ComputerSystems.BlockHeap
