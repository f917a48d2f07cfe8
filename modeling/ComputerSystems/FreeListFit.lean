import ComputerSystems.LinkedBlocks

/-!
# First fit in the free lists

`xmallocHlp_get_free_block` is the same code in `hmalloc.c` and `hwx_malloc.c`,
over nodes that differ in where the link lies. The head is tested apart from
the loop that walks with a trailing pointer; both relink the list so that it
loses the first block that is large enough and nothing else.
-/

namespace ComputerSystems.FreeListFit

open BlockList ByteMemory LinkedBlocks

/-- `xmallocHlp_get_free_block` of `hmalloc.c`, with a bound on the rounds of its
loop: the memory, the new `free_list_head` and the block, or 0 for none. -/
def hmallocGetFreeBlock (minSize fuel : ℕ) (m : Bytes) (freeListHead : ℕ) :
    Option (Bytes × ℕ × ℕ) := takeNode 16 minSize fuel m freeListHead

/-- `xmallocHlp_get_free_block` of `hwx_malloc.c`, in the same form. -/
def hwxGetFreeBlock (minSize fuel : ℕ) (m : Bytes) (freeListHead : ℕ) :
    Option (Bytes × ℕ × ℕ) := takeNode 8 minSize fuel m freeListHead

/-- A run on the free list of some blocks takes the first one that fits. -/
structure FirstFit (link minSize : ℕ) (m : Bytes) (head : ℕ) (l : List Block)
    (run : Option (Bytes × ℕ × ℕ)) : Prop where
  /-- The first block that is large enough comes back; the list keeps the others in
  their order, and only fields of theirs change. -/
  taken : ∀ before found after, l=before++found::after → (∀ b∈before, b.size < minSize) →
    minSize≤found.size → ∃ m' p, run=some (m',p,found.addr) ∧ Chain link m' p (before++after) ∧
      ∀ x, (∀ b∈before++after, ¬(cellOf link b).Holds x) → m' x=m x
  /-- Where every block is too small, 0 comes back and nothing changes. -/
  missing : (∀ b∈l, b.size < minSize) → run=some (m,head,0)
  /-- 0 comes back only then. -/
  null : ∀ m' p, run=some (m',p,0) → ∀ b∈l, b.size < minSize

/-- A list with a block that is large enough has a first one. -/
theorem exists_first {minSize : ℕ} {l : List Block} (h : ¬∀ b∈l, b.size < minSize) :
    ∃ found left, takeFit minSize l=some (found,left) := by
  rw [←takeFit_eq_none] at h
  obtain ⟨⟨found,left⟩,ht⟩ := Option.ne_none_iff_exists'.mp h
  exact ⟨found,left,ht⟩

/-- First fit on any chain whose fields do not overlap. -/
theorem firstFit_takeNode {link minSize fuel head : ℕ} {m : Bytes} {l : List Block}
    (hlink : 8≤link) (hcells : Cells link l) (hchain : Chain link m head l)
    (hfuel : l.length<fuel) :
    FirstFit link minSize m head l (takeNode link minSize fuel m head) := by
  obtain ⟨hnone,hsome⟩ := takeNode_cells hlink minSize fuel hfuel hcells hchain
  refine ⟨?_,fun h => hnone (takeFit_eq_none.mpr h),?_⟩
  · rintro before found after rfl hsmall hfits
    exact hsome found (before++after) (takeFit_first hsmall hfits after)
  · intro m' p hrun
    by_contra hlarge
    obtain ⟨found,left,ht⟩ := exists_first hlarge
    obtain ⟨m'',p',hrun',-⟩ := hsome found left ht
    have hzero : found.addr=0 := by
      rw [hrun] at hrun'
      exact (congrArg (fun done => done.2.2) (Option.some.inj hrun')).symm
    exact hchain.addr_ne_zero (mem_of_takeFit ht).1 hzero

/-- In both allocators the function takes the first block of at least the asked
size out of the free list and only that one, and returns `NULL` with the list as it
was exactly when every block is smaller; the loop makes fewer rounds than the list
has blocks. -/
theorem get_free_block_first_fit :
    (∀ (minSize fuel : ℕ) (m : Bytes) (head : ℕ) (l : List Block), Cells 16 l → Chain 16 m head l →
      l.length<fuel → FirstFit 16 minSize m head l (hmallocGetFreeBlock minSize fuel m head)) ∧
    (∀ (minSize fuel : ℕ) (m : Bytes) (head : ℕ) (l : List Block), Cells 8 l → Chain 8 m head l →
      l.length<fuel → FirstFit 8 minSize m head l (hwxGetFreeBlock minSize fuel m head)) := by
  constructor
  · exact fun minSize fuel m head l hcells hchain hfuel =>
      firstFit_takeNode (by decide) hcells hchain hfuel
  · exact fun minSize fuel m head l hcells hchain hfuel =>
      firstFit_takeNode (by decide) hcells hchain hfuel

/-- A memory with two free blocks, of 16 bytes at 32 and of 64 bytes at 96. -/
def twoBlocks : Bytes := fun address =>
  (([(32,16),(48,96),(96,64)] : List (ℕ×UInt8)).lookup address).getD 0

/-- A request for 32 bytes takes the second of the two blocks. -/
theorem second_block_taken :
    FirstFit 16 32 twoBlocks 32 [⟨32,16⟩,⟨96,64⟩] (hmallocGetFreeBlock 32 3 twoBlocks 32) :=
  get_free_block_first_fit.1 32 3 twoBlocks 32 [⟨32,16⟩,⟨96,64⟩]
    ⟨by decide,List.pairwise_pair.mpr (by unfold Apart; decide)⟩
    ⟨rfl,by decide,by decide +kernel,by decide +kernel,by decide,by decide +kernel,
      by unfold Chain; decide +kernel⟩ (by decide)

end ComputerSystems.FreeListFit
