import ComputerSystems.BlockList

/-!
# What a list of blocks covers

A list of blocks in order, with gaps, is determined by the addresses it covers.
Inserting a block adds its addresses; the list grows by one block, less one for
each side on which the block touches one of the list. So blocks that overlap
nothing may be inserted in any order. This module names no particular allocator.
-/

namespace ComputerSystems.BlockCover

open BlockList

/-- A block of the list holds the address. -/
def Covers (l : List Block) (x : ℕ) : Prop := ∃ b∈l, b.Holds x

/-- On how many sides a block touches one of a list. -/
def touchedSides (node : Block) (l : List Block) : ℕ :=
  (if ∃ b∈l, b.stop=node.addr then 1 else 0)+if ∃ b∈l, node.stop=b.addr then 1 else 0

/-- A list in order, with gaps, without empty blocks. -/
structure Canonical (l : List Block) : Prop where
  /-- In order, with gaps. -/
  spaced : Spaced l
  /-- No block is empty. -/
  pos : ∀ b∈l, 0<b.size

/-- An address is covered when it counts. -/
theorem covers_iff {l : List Block} {x : ℕ} : Covers l x ↔ weight l x≠0 := by
  constructor
  · rintro ⟨b,hb,hx⟩
    have hone := one_le_weight hb hx
    omega
  · exact exists_holds

/-- Inserting a block adds its addresses. -/
theorem covers_insert {node : Block} {l : List Block} {x : ℕ} :
    Covers (BlockList.insert node l) x ↔ Covers l x ∨ node.Holds x := by
  rw [covers_iff,covers_iff,weight_insert,weight_cons]
  by_cases hx : node.Holds x
  · rw [if_pos hx]
    exact ⟨fun _ => Or.inr hx,fun _ => by omega⟩
  · rw [if_neg hx,Nat.zero_add]
    exact ⟨Or.inl,fun h => h.resolve_right hx⟩

/-! ## Lists with one cover -/

/-- The first address of a block that is not empty is in it. -/
theorem holds_addr {b : Block} (h : 0<b.size) : b.Holds b.addr := by
  unfold Block.Holds Block.stop
  omega

/-- A block of one list that reaches over an end of a block of the other is met by a
second block there. -/
theorem le_of_covered {l l' : List Block} (h : Spaced l) (hsame : ∀ x, Covers l' x → Covers l x)
    {b b' : Block} (hb : b∈l) (hb' : b'∈l') (hmeet : b'.Holds b.addr) :
    b.addr≤b'.addr ∧ b'.stop≤b.stop := by
  have hother : ∀ x, b'.Holds x → (x+1=b.addr ∨ x=b.stop) → False := by
    intro x hx hend
    have hstop : b.addr≤b.stop := Nat.le_add_right _ _
    obtain ⟨d,hd,hdx⟩ := hsame x ⟨b',hb',hx⟩
    by_cases hsame : d=b
    · rw [hsame] at hdx
      unfold Block.Holds at hdx
      omega
    · have hgap := h.gap hd hb hsame
      unfold Block.Holds at hdx
      omega
  constructor
  · by_contra hless
    refine hother (b.addr-1) ?_ (Or.inl (by omega))
    unfold Block.Holds at hmeet ⊢
    omega
  · by_contra hless
    refine hother b.stop ?_ (Or.inr rfl)
    unfold Block.Holds at hmeet ⊢
    have hstop : b.addr≤b.stop := Nat.le_add_right _ _
    omega

/-- Every block of one list is one of the other. -/
theorem mem_of_covers {l l' : List Block} (h : Canonical l) (h' : Canonical l')
    (hsame : ∀ x, Covers l x ↔ Covers l' x) {b : Block} (hb : b∈l) : b∈l' := by
  have hpos := h.pos b hb
  obtain ⟨b',hb',hmeet⟩ := (hsame b.addr).mp ⟨b,hb,holds_addr hpos⟩
  obtain ⟨hlow,hhigh⟩ := le_of_covered h.spaced (fun x hx => (hsame x).mpr hx) hb hb' hmeet
  have hfirst : b.addr=b'.addr := Nat.le_antisymm hlow hmeet.1
  have hback : b.Holds b'.addr := hfirst ▸ holds_addr hpos
  obtain ⟨-,hhigh'⟩ := le_of_covered h'.spaced (fun x hx => (hsame x).mp hx) hb' hb hback
  have hsize : b.size=b'.size := by
    unfold Block.stop at hhigh hhigh'
    omega
  obtain ⟨addr,size⟩ := b
  obtain ⟨addr',size'⟩ := b'
  dsimp only at hfirst hsize
  rw [hfirst,hsize]
  exact hb'

/-- Canonical lists that cover the same addresses are the same. -/
theorem Canonical.ext {l l' : List Block} (h : Canonical l) (h' : Canonical l')
    (hsame : ∀ x, Covers l x ↔ Covers l' x) : l=l' := by
  have hrising : ∀ {list : List Block}, Spaced list → list.Pairwise (fun a b => a.addr<b.addr) := by
    refine fun hspaced => List.Pairwise.imp (fun {a b} hgap => ?_) hspaced
    unfold Block.stop at hgap
    omega
  have hnodup : ∀ {list : List Block}, Spaced list → list.Nodup :=
    fun hspaced => List.Pairwise.imp (fun {a b} hlt heq => by rw [heq] at hlt; omega)
      (hrising hspaced)
  refine List.Perm.eq_of_pairwise (fun a b _ _ hab hba => absurd hab (by omega))
    (hrising h.spaced) (hrising h'.spaced) ?_
  refine (List.perm_ext_iff_of_nodup (hnodup h.spaced) (hnodup h'.spaced)).mpr (fun b => ?_)
  exact ⟨mem_of_covers h h' hsame,mem_of_covers h' h (fun x => (hsame x).symm)⟩

/-! ## Insertion -/

/-- Inserting a block keeps a list canonical. -/
theorem Canonical.insert {l : List Block} (h : Canonical l) {node : Block} (hnode : 0<node.size)
    (hapart : ∀ b∈l, Apart node b) : Canonical (BlockList.insert node l) :=
  ⟨spaced_insert hnode h.pos hapart h.spaced,
    fun _ hb => size_of_mem_insert hnode (Or.inl hnode) h.pos hapart h.spaced hb⟩

/-- What is apart from a block and from a list is apart from the list with the block. -/
theorem apart_insert {l : List Block} (h : Canonical l) {node other : Block} (hnode : 0<node.size)
    (hapart : ∀ b∈l, Apart node b) (hother : 0<other.size) (hon : Apart other node)
    (hol : ∀ b∈l, Apart other b) : ∀ b∈BlockList.insert node l, Apart other b := by
  intro b hb
  refine apart_of_weight hother ((h.insert hnode hapart).pos b hb) ?_
  rintro x ⟨hox,hbx⟩
  rcases covers_insert.mp ⟨b,hb,hbx⟩ with ⟨c,hc,hcx⟩|hnx
  · exact (hol c hc).not_both x ⟨hox,hcx⟩
  · exact hon.not_both x ⟨hox,hnx⟩

/-! ## Many insertions -/

/-- Blocks that are not empty and overlap neither each other nor a list. -/
structure Loose (blocks l : List Block) : Prop where
  /-- No block is empty. -/
  pos : ∀ b∈blocks, 0<b.size
  /-- They overlap nothing in the list. -/
  outside : ∀ b∈blocks, ∀ c∈l, Apart b c
  /-- They do not overlap each other. -/
  apart : blocks.Pairwise Apart

/-- The other blocks are loose when the first is in the list. -/
theorem Loose.next {l rest : List Block} {node : Block} (h : Loose (node::rest) l) (hl : Canonical l) :
    Loose rest (BlockList.insert node l) := by
  obtain ⟨hfirst,hapart⟩ := List.pairwise_cons.mp h.apart
  refine ⟨fun b hb => h.pos b (List.mem_cons_of_mem node hb),fun b hb => ?_,hapart⟩
  exact apart_insert hl (h.pos node List.mem_cons_self) (h.outside node List.mem_cons_self)
    (h.pos b (List.mem_cons_of_mem node hb)) (hfirst b hb).symm
    (h.outside b (List.mem_cons_of_mem node hb))

end ComputerSystems.BlockCover
