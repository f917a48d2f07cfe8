import Mathlib.Algebra.BigOperators.Group.Finset.Basic
import Mathlib.Algebra.GroupWithZero.Nat
import Mathlib.Data.Fintype.BigOperators
import Mathlib.Data.List.Pairwise
import Mathlib.Data.List.Perm.Basic

/-!
# Lists of memory blocks

A free list is a list of blocks in the order of their addresses, with a gap
between any two. Inserting a block joins it with the blocks it touches; taking
the first block that is large enough leaves the others. How many blocks of a
list hold a given address is additive under joining and cutting, which is what
makes blocks that are spread over many lists easy to account for. This module
names no particular allocator.
-/

namespace ComputerSystems.BlockList

/-- A block of memory. -/
structure Block where
  /-- Its first address. -/
  addr : ℕ
  /-- Its number of bytes. -/
  size : ℕ
deriving DecidableEq

/-- The first address behind a block. -/
def Block.stop (b : Block) : ℕ := b.addr+b.size

/-- A block holds an address. -/
def Block.Holds (b : Block) (x : ℕ) : Prop := b.addr≤x ∧ x<b.stop

instance (b : Block) (x : ℕ) : Decidable (b.Holds x) := inferInstanceAs (Decidable (_ ∧ _))

/-- Blocks without a common address. -/
def Apart (a b : Block) : Prop := a.stop≤b.addr ∨ b.stop≤a.addr

/-- Blocks in the order of their addresses, with a gap between any two. -/
def Spaced (l : List Block) : Prop := l.Pairwise (fun a b => a.stop<b.addr)

/-- How many blocks of a list hold an address. -/
def weight (l : List Block) (x : ℕ) : ℕ := l.countP (fun b => b.Holds x)

/-- The bytes of all blocks of a list. -/
def total (l : List Block) : ℕ := (l.map Block.size).sum

/-- Insert a block in order and join it with the blocks it touches. -/
def insert (node : Block) : List Block → List Block
  | [] => [node]
  | head::rest =>
    if node.addr<head.addr then
      if node.stop=head.addr then {node with size := node.size+head.size}::rest
      else node::head::rest
    else if head.stop=node.addr then insert {head with size := head.size+node.size} rest
    else head::insert node rest

/-- Take the first block of at least a given size. -/
def takeFit (minSize : ℕ) : List Block → Option (Block × List Block)
  | [] => none
  | head::rest =>
    if minSize≤head.size then some (head,rest)
    else (takeFit minSize rest).map (fun found => (found.1,head::found.2))

/-! ## Counting -/

/-- Counting block by block. -/
theorem weight_cons (b : Block) (l : List Block) (x : ℕ) :
    weight (b::l) x=(if b.Holds x then 1 else 0)+weight l x := by
  unfold weight
  rw [List.countP_cons,Nat.add_comm]
  simp only [decide_eq_true_eq]

/-- An empty list holds nothing. -/
@[simp] theorem weight_nil (x : ℕ) : weight [] x=0 := rfl

/-- Adding up block by block. -/
theorem total_cons (b : Block) (l : List Block) : total (b::l)=b.size+total l := by
  rw [total,List.map_cons,List.sum_cons]
  rfl

/-- Two blocks that touch hold what the joined block holds. -/
theorem holds_joined {a b : Block} (h : a.stop=b.addr) (x : ℕ) :
    (if Block.Holds ⟨a.addr,a.size+b.size⟩ x then 1 else 0)=
      (if a.Holds x then 1 else 0)+(if b.Holds x then 1 else 0) := by
  have hiff : Block.Holds ⟨a.addr,a.size+b.size⟩ x ↔ a.Holds x ∨ b.Holds x := by
    unfold Block.Holds Block.stop at *
    dsimp only
    omega
  have hone : ¬(a.Holds x ∧ b.Holds x) := by
    unfold Block.Holds
    omega
  by_cases ha : a.Holds x
  · rw [if_pos (hiff.mpr (Or.inl ha)),if_pos ha,if_neg (fun hb => hone ⟨ha,hb⟩)]
  · by_cases hb : b.Holds x
    · rw [if_pos (hiff.mpr (Or.inr hb)),if_neg ha,if_pos hb]
    · rw [if_neg (fun hab => (hiff.mp hab).elim ha hb),if_neg ha,if_neg hb]

/-- Inserting adds the addresses of the block: by induction on the list. -/
theorem weight_insert (node : Block) (l : List Block) (x : ℕ) :
    weight (insert node l) x=weight (node::l) x := by
  induction l generalizing node with
  | nil => rfl
  | cons head rest ih =>
    unfold insert
    split_ifs with hbefore hjoin hjoin
    · have hjoined := holds_joined hjoin x
      rw [weight_cons,weight_cons,weight_cons,hjoined]
      omega
    · rfl
    · have hjoined := holds_joined hjoin x
      rw [ih,weight_cons,weight_cons,weight_cons,hjoined]
      omega
    · rw [weight_cons,ih,weight_cons,weight_cons,weight_cons]
      omega

/-- Inserting adds the bytes of the block: by induction on the list. -/
theorem total_insert (node : Block) (l : List Block) : total (insert node l)=node.size+total l := by
  induction l generalizing node with
  | nil => rfl
  | cons head rest ih =>
    unfold insert
    split_ifs with hbefore hjoin hjoin
    · rw [total_cons,total_cons]
      dsimp only
      omega
    · rw [total_cons]
    · rw [ih,total_cons]
      dsimp only
      omega
    · rw [total_cons,ih,total_cons]
      omega

/-- Lists with the same blocks count the same. -/
theorem weight_perm {l l' : List Block} (h : l.Perm l') (x : ℕ) : weight l x=weight l' x :=
  h.countP_eq _

/-- Lists with the same blocks have the same bytes. -/
theorem total_perm {l l' : List Block} (h : l.Perm l') : total l=total l' := (h.map _).sum_eq

/-- A block of a list counts. -/
theorem one_le_weight {b : Block} {l : List Block} (h : b∈l) {x : ℕ} (hx : b.Holds x) :
    1≤weight l x := by
  unfold weight
  exact List.countP_pos_iff.mpr ⟨b,h,decide_eq_true hx⟩

/-- An address that counts is held by a block. -/
theorem exists_holds {l : List Block} {x : ℕ} (h : weight l x≠0) : ∃ b∈l, b.Holds x := by
  obtain ⟨b,hb,hx⟩ := List.countP_pos_iff.mp (Nat.pos_of_ne_zero h)
  exact ⟨b,hb,of_decide_eq_true hx⟩

/-- Blocks that are not empty and never count twice are apart. -/
theorem apart_of_weight {a b : Block} (ha : 0<a.size) (hb : 0<b.size)
    (h : ∀ x, ¬(a.Holds x ∧ b.Holds x)) : Apart a b := by
  by_contra hover
  have hx := h (max a.addr b.addr)
  unfold Apart Block.stop at hover
  unfold Block.Holds Block.stop at hx
  omega

/-- Blocks that are apart have no address in common. -/
theorem Apart.not_both {a b : Block} (h : Apart a b) (x : ℕ) : ¬(a.Holds x ∧ b.Holds x) := by
  unfold Apart at h
  unfold Block.Holds
  omega

/-- Being apart is symmetric. -/
theorem Apart.symm {a b : Block} (h : Apart a b) : Apart b a := Or.symm h

/-- Where no address counts twice, the blocks of a list are apart from each
other: by induction on the list. -/
theorem pairwise_apart {l : List Block} (hpos : ∀ b∈l, 0<b.size) (h : ∀ x, weight l x≤1) :
    l.Pairwise Apart := by
  induction l with
  | nil => exact List.Pairwise.nil
  | cons b rest ih =>
    refine List.Pairwise.cons ?_ (ih (fun c hc => hpos c (List.mem_cons_of_mem b hc)) ?_)
    · intro c hc
      refine apart_of_weight (hpos b List.mem_cons_self) (hpos c (List.mem_cons_of_mem b hc)) ?_
      rintro x ⟨hbx,hcx⟩
      have hone := one_le_weight hc hcx
      have hx := h x
      rw [weight_cons,if_pos hbx] at hx
      omega
    · intro x
      have hx := h x
      rw [weight_cons] at hx
      omega

/-! ## Inserting -/

/-- Blocks of the new list begin where a block began: by induction on the list. -/
theorem addr_of_mem_insert {node b : Block} {l : List Block} (h : b∈insert node l) :
    b.addr=node.addr ∨ ∃ c∈l, b.addr=c.addr := by
  induction l generalizing node with
  | nil =>
    rw [List.mem_singleton.mp h]
    exact Or.inl rfl
  | cons head rest ih =>
    unfold insert at h
    split_ifs at h with hbefore hjoin hjoin
    · rcases List.mem_cons.mp h with rfl|hrest
      · exact Or.inl rfl
      · exact Or.inr ⟨b,List.mem_cons_of_mem head hrest,rfl⟩
    · rcases List.mem_cons.mp h with rfl|hrest
      · exact Or.inl rfl
      · exact Or.inr ⟨b,hrest,rfl⟩
    · rcases ih h with heq|⟨c,hc,heq⟩
      · exact Or.inr ⟨head,List.mem_cons_self,heq⟩
      · exact Or.inr ⟨c,List.mem_cons_of_mem head hc,heq⟩
    · rcases List.mem_cons.mp h with rfl|hrest
      · exact Or.inr ⟨b,List.mem_cons_self,rfl⟩
      · rcases ih hrest with heq|⟨c,hc,heq⟩
        · exact Or.inl heq
        · exact Or.inr ⟨c,List.mem_cons_of_mem head hc,heq⟩

/-- A joined block is apart from what comes behind its first part. -/
theorem apart_joined {head node c : Block} (hjoin : head.stop=node.addr) (hgap : head.stop<c.addr)
    (h : Apart node c) : Apart ⟨head.addr,head.size+node.size⟩ c := by
  unfold Apart at h ⊢
  unfold Block.stop at hjoin hgap h ⊢
  dsimp only
  omega

/-- A block touches one of a list. -/
def Touches (node : Block) (l : List Block) : Prop := ∃ b∈l, node.stop=b.addr ∨ b.stop=node.addr

instance (node : Block) (l : List Block) : Decidable (Touches node l) :=
  inferInstanceAs (Decidable (∃ b∈l, node.stop=b.addr ∨ b.stop=node.addr))

/-- A block can join a list whose blocks have a least size: it has that size
itself, or it touches one of them. -/
def Joins (least : ℕ) (node : Block) (l : List Block) : Prop := least≤node.size ∨ Touches node l

instance (least : ℕ) (node : Block) (l : List Block) : Decidable (Joins least node l) :=
  inferInstanceAs (Decidable (_ ∨ _))

/-- A block that goes in front of a list without touching its head has the least
size itself. -/
theorem Joins.front {least : ℕ} {node head : Block} {rest : List Block}
    (h : Joins least node (head::rest)) (hspaced : Spaced (head::rest)) (hapart : Apart node head)
    (hbefore : node.addr<head.addr) (hjoin : node.stop≠head.addr) : least≤node.size := by
  rcases h with h|⟨b,hb,htouch⟩
  · exact h
  · unfold Apart at hapart
    unfold Block.stop at hapart hjoin htouch
    rcases List.mem_cons.mp hb with rfl|hb
    · omega
    · have hgap := (List.pairwise_cons.mp hspaced).1 b hb
      unfold Block.stop at hgap
      omega

/-- A block that goes behind the head of a list without touching it joins the
rest. -/
theorem Joins.rest {least : ℕ} {node head : Block} {rest : List Block}
    (h : Joins least node (head::rest)) (hpos : 0<node.size) (hbefore : ¬node.addr<head.addr)
    (hjoin : head.stop≠node.addr) : Joins least node rest := by
  rcases h with h|⟨b,hb,htouch⟩
  · exact Or.inl h
  · rcases List.mem_cons.mp hb with rfl|hb
    · unfold Block.stop at htouch hjoin
      omega
    · exact Or.inr ⟨b,hb,htouch⟩

/-- Blocks of the new list have the least size: by induction on the list. -/
theorem size_of_mem_insert {node b : Block} {l : List Block} {least : ℕ} (hpos : 0<node.size)
    (hnode : Joins least node l) (hl : ∀ c∈l, least≤c.size) (hapart : ∀ c∈l, Apart node c)
    (hspaced : Spaced l) (h : b∈insert node l) : least≤b.size := by
  induction l generalizing node with
  | nil =>
    rw [List.mem_singleton.mp h]
    rcases hnode with hnode|⟨c,hc,-⟩
    · exact hnode
    · exact absurd hc List.not_mem_nil
  | cons head rest ih =>
    have hhead := hl head List.mem_cons_self
    have hrest : ∀ c∈rest, least≤c.size := fun c hc => hl c (List.mem_cons_of_mem head hc)
    have hrestapart : ∀ c∈rest, Apart node c := fun c hc => hapart c (List.mem_cons_of_mem head hc)
    obtain ⟨hgap,hspacedrest⟩ := List.pairwise_cons.mp hspaced
    unfold insert at h
    split_ifs at h with hbefore hjoin hjoin
    · rcases List.mem_cons.mp h with rfl|hmem
      · exact Nat.le_add_left_of_le hhead
      · exact hrest b hmem
    · rcases List.mem_cons.mp h with rfl|hmem
      · exact hnode.front hspaced (hapart head List.mem_cons_self) hbefore hjoin
      · exact hl b hmem
    · have hjoined : Joins least ⟨head.addr,head.size+node.size⟩ rest :=
        Or.inl (Nat.le_add_right_of_le hhead)
      refine ih (Nat.add_pos_right head.size hpos) hjoined hrest ?_ hspacedrest h
      intro c hc
      exact apart_joined hjoin (hgap c hc) (hrestapart c hc)
    · rcases List.mem_cons.mp h with rfl|hmem
      · exact hhead
      · exact ih hpos (hnode.rest hpos hbefore hjoin) hrest hrestapart hspacedrest hmem

/-- Inserting a block keeps the list in order, with gaps: by induction on the
list. -/
theorem spaced_insert {node : Block} {l : List Block} (hnode : 0<node.size)
    (hpos : ∀ b∈l, 0<b.size) (hapart : ∀ b∈l, Apart node b) (h : Spaced l) :
    Spaced (insert node l) := by
  induction l generalizing node with
  | nil => exact List.pairwise_singleton _ _
  | cons head rest ih =>
    obtain ⟨hgap,hrest⟩ := List.pairwise_cons.mp h
    have hhead := hpos head List.mem_cons_self
    have hposrest : ∀ b∈rest, 0<b.size := fun b hb => hpos b (List.mem_cons_of_mem head hb)
    have hfirst := hapart head List.mem_cons_self
    unfold Apart Block.stop at hfirst
    unfold insert
    split_ifs with hbefore hjoin hjoin
    · refine List.pairwise_cons.mpr ⟨fun b hb => ?_,hrest⟩
      have hb' := hgap b hb
      unfold Block.stop at hb' hjoin ⊢
      dsimp only
      omega
    · refine List.pairwise_cons.mpr ⟨fun b hb => ?_,h⟩
      rcases List.mem_cons.mp hb with rfl|hmem
      · unfold Block.stop at hjoin ⊢
        omega
      · have hb' := hgap b hmem
        unfold Block.stop at hjoin hb' ⊢
        omega
    · have hjoined : 0<(Block.mk head.addr (head.size+node.size)).size := Nat.add_pos_left hhead _
      refine ih hjoined hposrest ?_ hrest
      intro b hb
      exact apart_joined hjoin (hgap b hb) (hapart b (List.mem_cons_of_mem head hb))
    · refine List.pairwise_cons.mpr ⟨fun b hb => ?_,
        ih hnode hposrest (fun b hb => hapart b (List.mem_cons_of_mem head hb)) hrest⟩
      unfold Block.stop at hjoin ⊢
      rcases addr_of_mem_insert hb with heq|⟨c,hc,heq⟩
      · rw [heq]
        omega
      · rw [heq]
        exact hgap c hc

/-- Different blocks of a list in order have a gap between them. -/
theorem Spaced.gap {l : List Block} (h : Spaced l) {a b : Block} (ha : a∈l) (hb : b∈l) (hne : a≠b) :
    a.stop<b.addr ∨ b.stop<a.addr := by
  have hsymm : Std.Symm (fun a b : Block => a.stop<b.addr ∨ b.stop<a.addr) := ⟨fun _ _ => Or.symm⟩
  have hpair : l.Pairwise (fun a b => a.stop<b.addr ∨ b.stop<a.addr) :=
    List.Pairwise.imp Or.inl h
  exact hpair.forall ha hb hne

/-! ## Taking -/

/-- The block that is taken and the list around it: by induction on the list. -/
theorem takeFit_eq_some {minSize : ℕ} {l left : List Block} {found : Block}
    (h : takeFit minSize l=some (found,left)) :
    ∃ before after, l=before++found::after ∧ left=before++after ∧ minSize≤found.size := by
  induction l generalizing left with
  | nil => cases h
  | cons head rest ih =>
    unfold takeFit at h
    split_ifs at h with hfits
    · cases h
      exact ⟨[],rest,rfl,rfl,hfits⟩
    · obtain ⟨⟨block,others⟩,hrest,heq⟩ := Option.map_eq_some_iff.mp h
      cases heq
      obtain ⟨before,after,rfl,rfl,hsize⟩ := ih hrest
      exact ⟨head::before,after,rfl,rfl,hsize⟩

/-- The first block that is large enough is taken, and the others stay in their
order: by induction on the blocks before it. -/
theorem takeFit_first {minSize : ℕ} {before : List Block} (h : ∀ b∈before, b.size < minSize)
    {found : Block} (hfits : minSize≤found.size) (after : List Block) :
    takeFit minSize (before++found::after)=some (found,before++after) := by
  induction before with
  | nil => rw [List.nil_append,takeFit,if_pos hfits,List.nil_append]
  | cons head rest ih =>
    have hhead := h head List.mem_cons_self
    rw [List.cons_append,takeFit,if_neg (by omega),
      ih (fun b hb => h b (List.mem_cons_of_mem head hb))]
    rfl

/-- Nothing is taken exactly from a list of blocks that are too small: by induction
on the list. -/
theorem takeFit_eq_none {minSize : ℕ} {l : List Block} :
    takeFit minSize l=none ↔ ∀ b∈l, b.size < minSize := by
  induction l with
  | nil => exact ⟨fun _ _ hb => absurd hb List.not_mem_nil,fun _ => rfl⟩
  | cons head rest ih =>
    rw [takeFit,List.forall_mem_cons]
    split_ifs with hfits
    · exact ⟨nofun,fun h => absurd h.1 (by omega)⟩
    · rw [Option.map_eq_none_iff,ih]
      exact ⟨fun h => ⟨by omega,h⟩,fun h => h.2⟩

/-- What is left of a list in order is in order. -/
theorem spaced_left {before after : List Block} {found : Block}
    (h : Spaced (before++found::after)) : Spaced (before++after) :=
  h.sublist (List.Sublist.append_left (List.sublist_cons_self found after) before)

/-- Taking a block out moves it to the front of the count. -/
theorem taken_perm (before after : List Block) (found : Block) :
    (before++found::after).Perm (found::(before++after)) := List.perm_middle

end ComputerSystems.BlockList
