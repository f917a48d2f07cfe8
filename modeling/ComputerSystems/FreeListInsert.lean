import ComputerSystems.BlockCover
import ComputerSystems.LinkedBlocks

/-!
# Insertion into the free lists

`llist_insert` and `cell_insert_block` are one recursion over nodes that differ
in where the link lies. On lists of blocks it is `BlockList.insert`: the result is
in order, with gaps, and covers the addresses of the list and of the block, so it
does not depend on the order of insertions. In memory it ends after at most one
call for each block, with the chain of that list.
-/

namespace ComputerSystems.FreeListInsert

open BlockCover BlockList ByteMemory LinkedBlocks

/-- The list after the insertion of a block. -/
structure Inserted (l : List Block) (node : Block) (result : List Block) : Prop where
  /-- It is in order, with gaps. -/
  canonical : Canonical result
  /-- It covers the addresses of the list and of the block, and no others. -/
  covers : ∀ x, Covers result x ↔ Covers l x ∨ node.Holds x
  /-- It is a block longer, less one for each side on which the block touches. -/
  length : result.length=l.length+1-touchedSides node l

/-- A list and a block in memory, all with room for a node. -/
structure Stored (link : ℕ) (m : Bytes) (head : ℕ) (l : List Block) (node : Block) : Prop where
  /-- The chain of the list. -/
  chain : Chain link m head l
  /-- Blocks have room for a node. -/
  room : ∀ b∈node::l, Roomy link b
  /-- The block is not at address 0. -/
  addr : node.addr≠0
  /-- The block begins with its size. -/
  size : sizeAt m node.addr=node.size

/-- Insertion in memory is insertion into the list. -/
theorem Stored.insert {link fuel head : ℕ} {m : Bytes} {l : List Block} {node : Block}
    (h : Stored link m head l node) (hlink : 8≤link) (hl : Canonical l) (hapart : ∀ b∈l, Apart node b)
    (hfuel : l.length<fuel) : ∃ m' p, insertNode link fuel m node.addr head=some (m',p) ∧
      Chain link m' p (BlockList.insert node l) := by
  have hnode := h.room node List.mem_cons_self
  have hroom : ∀ b∈l, Roomy link b := fun b hb => h.room b (List.mem_cons_of_mem node hb)
  obtain ⟨m',p,hrun,hchain,-⟩ := insertNode_spec hlink l fuel m node head hfuel hnode.size
    (Or.inl hnode.1) h.addr h.size hroom hapart hl.spaced h.chain
  exact ⟨m',p,hrun,hchain⟩

end ComputerSystems.FreeListInsert
