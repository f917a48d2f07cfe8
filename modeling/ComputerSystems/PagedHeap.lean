import ComputerSystems.BlockList
import ComputerSystems.UpdateSum
import Mathlib.Algebra.Order.BigOperators.Group.Finset
import Mathlib.Data.Finset.Sort
import Mathlib.Order.Interval.Finset.Nat

/-!
# Blocks over mapped pages

Pages of 4096 bytes are mapped and unmapped; their bytes are spread over live
blocks and over a family of free lists. Every byte of a mapped page belongs to
exactly one block. Taking a block from a list, mapping a run of pages, cutting
a block, releasing it to a list and unmapping it keep this account. Where runs
of pages never touch, free blocks stay within one page and what is unmapped is
always a whole run. This module names no particular allocator.
-/

namespace ComputerSystems.PagedHeap

open BlockList UpdateSum

variable {κ : Type} [Fintype κ]

/-- A run of pages. -/
def pageRun (first count : ℕ) : Finset ℕ := Finset.Ico first (first+count)

/-- The block that a run of pages makes up. -/
def runBlock (first count : ℕ) : Block := ⟨4096*first,4096*count⟩

/-- The account of the bytes: those of mapped pages belong to exactly one block. -/
structure Covered (least : ℕ) (free : κ → List Block) (live : List Block) (pages : Finset ℕ) :
    Prop where
  /-- Blocks count once, in mapped pages only. -/
  cover : ∀ x, (∑ k, weight (free k) x)+weight live x=if x/4096∈pages then 1 else 0
  /-- Free lists are in order, with gaps. -/
  spaced : ∀ k, Spaced (free k)
  /-- Free blocks have a least size. -/
  freeSize : ∀ k, ∀ b∈free k, least≤b.size
  /-- Live blocks have room for their size in eight bytes. -/
  liveSize : ∀ b∈live, 8≤b.size

/-- All bytes in blocks. -/
def allBytes (free : κ → List Block) (live : List Block) : ℕ := (∑ k, total (free k))+total live

section Account

variable {least : ℕ} {free : κ → List Block} {live : List Block} {pages : Finset ℕ}

/-- One list counts no more than all. -/
theorem weight_le_sum (free : κ → List Block) (k : κ) (x : ℕ) :
    weight (free k) x≤∑ j, weight (free j) x :=
  Finset.single_le_sum (f:=fun j => weight (free j) x) (fun _ _ => Nat.zero_le _) (Finset.mem_univ k)

/-- Two lists count no more than all. -/
theorem weight_add_le_sum [DecidableEq κ] (free : κ → List Block) {j k : κ} (h : j≠k) (x : ℕ) :
    weight (free j) x+weight (free k) x≤∑ i, weight (free i) x := by
  rw [←Finset.add_sum_erase Finset.univ (fun i => weight (free i) x) (Finset.mem_univ j)]
  have hmem : k∈Finset.univ.erase j := Finset.mem_erase.mpr ⟨h.symm,Finset.mem_univ k⟩
  exact Nat.add_le_add_left (Finset.single_le_sum (f:=fun i => weight (free i) x)
    (fun _ _ => Nat.zero_le _) hmem) _

/-- No address counts twice. -/
theorem Covered.le_one (h : Covered least free live pages) (x : ℕ) :
    (∑ k, weight (free k) x)+weight live x≤1 := by
  rw [h.cover x]
  split_ifs <;> omega

/-- Live blocks are not empty. -/
theorem Covered.live_pos (h : Covered least free live pages) {b : Block} (hb : b∈live) :
    0<b.size := Nat.lt_of_lt_of_le (by decide) (h.liveSize b hb)

/-- Live blocks are apart from free ones. -/
theorem Covered.live_free (h : Covered least free live pages) (hleast : 0<least) {b c : Block} {k : κ}
    (hb : b∈live) (hc : c∈free k) : Apart b c := by
  refine apart_of_weight (h.live_pos hb) (hleast.trans_le (h.freeSize k c hc)) ?_
  rintro x ⟨hbx,hcx⟩
  have hone := h.le_one x
  have hlive := one_le_weight hb hbx
  have hfree := one_le_weight hc hcx
  have hsum := weight_le_sum free k x
  omega

/-- Live blocks are apart from each other. -/
theorem Covered.live_apart (h : Covered least free live pages) : live.Pairwise Apart := by
  refine pairwise_apart (fun b hb => h.live_pos hb) (fun x => ?_)
  have hone := h.le_one x
  omega

/-- Blocks of different lists are apart. -/
theorem Covered.free_apart [DecidableEq κ] (h : Covered least free live pages) (hleast : 0<least)
    {b c : Block}
    {j k : κ} (hjk : j≠k) (hb : b∈free j) (hc : c∈free k) : Apart b c := by
  refine apart_of_weight (hleast.trans_le (h.freeSize j b hb)) (hleast.trans_le (h.freeSize k c hc)) ?_
  rintro x ⟨hbx,hcx⟩
  have hone := h.le_one x
  have hfirst := one_le_weight hb hbx
  have hsecond := one_le_weight hc hcx
  have hsum := weight_add_le_sum free hjk x
  omega

/-- Blocks lie in mapped pages. -/
theorem Covered.mapped (h : Covered least free live pages) {b : Block} {x : ℕ}
    (hb : b∈live ∨ ∃ k, b∈free k) (hx : b.Holds x) : x/4096∈pages := by
  by_contra hnot
  have hcover := h.cover x
  rw [if_neg hnot] at hcover
  rcases hb with hb|⟨k,hb⟩
  · have hone := one_le_weight hb hx
    omega
  · have hone := one_le_weight hb hx
    have hsum := weight_le_sum free k x
    omega

/-- The order of the live blocks does not matter. -/
theorem Covered.perm (h : Covered least free live pages) {live' : List Block} (hp : live.Perm live') :
    Covered least free live' pages where
  cover := fun x => by rw [←weight_perm hp x,h.cover x]
  spaced := h.spaced
  freeSize := h.freeSize
  liveSize := fun b hb => h.liveSize b (hp.mem_iff.mpr hb)

/-- A block is taken from a list. -/
theorem Covered.take [DecidableEq κ] (h : Covered least free live pages) (hleast : 8≤least) {k : κ}
    {before after : List Block} {b : Block} (hk : free k=before++b::after) :
    Covered least (Function.update free k (before++after)) (b::live) pages := by
  have hspaced := h.spaced k
  rw [hk] at hspaced
  have hmem : ∀ c∈before++after, c∈free k := by
    intro c hc
    rw [hk]
    exact (taken_perm before after b).mem_iff.mpr (List.mem_cons_of_mem b hc)
  refine ⟨fun x => ?_,fun j => ?_,fun j c hc => ?_,fun c hc => ?_⟩
  · have hsum := sum_update_add (fun l => weight l x) free k (before++after)
    have hcover := h.cover x
    rw [hk,weight_perm (taken_perm before after b),weight_cons] at hsum
    rw [weight_cons,←hcover]
    omega
  · by_cases hj : j=k
    · subst hj
      rw [Function.update_self]
      exact spaced_left hspaced
    · rw [Function.update_of_ne hj]
      exact h.spaced j
  · by_cases hj : j=k
    · subst hj
      rw [Function.update_self] at hc
      exact h.freeSize j c (hmem c hc)
    · rw [Function.update_of_ne hj] at hc
      exact h.freeSize j c hc
  · rcases List.mem_cons.mp hc with rfl|hc
    · refine hleast.trans (h.freeSize k c ?_)
      rw [hk]
      exact List.mem_append_right before List.mem_cons_self
    · exact h.liveSize c hc

/-- The addresses of a run of pages. -/
theorem holds_runBlock {first count x : ℕ} :
    (runBlock first count).Holds x ↔ x/4096∈pageRun first count := by
  unfold runBlock Block.Holds Block.stop pageRun
  rw [Finset.mem_Ico]
  dsimp only
  omega

/-- A run of pages is mapped. -/
theorem Covered.map (h : Covered least free live pages) {first count : ℕ}
    (hfresh : Disjoint pages (pageRun first count)) (hsize : 8≤4096*count) :
    Covered least free (runBlock first count::live) (pages∪pageRun first count) := by
  refine ⟨fun x => ?_,h.spaced,h.freeSize,fun b hb => ?_⟩
  · have hcover := h.cover x
    rw [weight_cons]
    by_cases hnew : x/4096∈pageRun first count
    · have hold : x/4096∉pages := fun hold => Finset.disjoint_left.mp hfresh hold hnew
      rw [if_neg hold] at hcover
      rw [if_pos (holds_runBlock.mpr hnew),if_pos (Finset.mem_union_right _ hnew)]
      omega
    · rw [if_neg (fun hx => hnew (holds_runBlock.mp hx)),Nat.zero_add,hcover]
      simp only [Finset.mem_union,hnew,or_false]
  · rcases List.mem_cons.mp hb with rfl|hb
    · exact hsize
    · exact h.liveSize b hb

/-- The parts of a block hold what the block holds. -/
theorem holds_cut (b : Block) {size : ℕ} (h : size≤b.size) (x : ℕ) :
    (if b.Holds x then 1 else 0)=(if Block.Holds ⟨b.addr,size⟩ x then 1 else 0)+
      (if Block.Holds ⟨b.addr+size,b.size-size⟩ x then 1 else 0) := by
  have hjoined : Block.stop ⟨b.addr,size⟩=Block.addr ⟨b.addr+size,b.size-size⟩ := rfl
  rw [←holds_joined hjoined x]
  dsimp only
  rw [Nat.add_sub_cancel' h]

/-- A block is cut in two. -/
theorem Covered.cut {b : Block} (h : Covered least free (b::live) pages) {size : ℕ}
    (hsize : 8 ≤ size) (hrest : 8≤b.size-size) (hle : size≤b.size) :
    Covered least free (⟨b.addr+size,b.size-size⟩::⟨b.addr,size⟩::live) pages := by
  refine ⟨fun x => ?_,h.spaced,h.freeSize,fun c hc => ?_⟩
  · have hcover := h.cover x
    have hcut := holds_cut b hle x
    rw [weight_cons] at hcover
    rw [weight_cons,weight_cons,←hcover]
    omega
  · rcases List.mem_cons.mp hc with rfl|hc
    · exact hrest
    · rcases List.mem_cons.mp hc with rfl|hc
      · exact hsize
      · exact h.liveSize c (List.mem_cons_of_mem b hc)

/-- A block is released to a list. -/
theorem Covered.release [DecidableEq κ] {b : Block} (h : Covered least free (b::live) pages)
    (hleast : 0<least) {k : κ} (hjoins : Joins least b (free k)) :
    Covered least (Function.update free k (BlockList.insert b (free k))) live pages := by
  have hb := h.live_pos List.mem_cons_self
  have hapart : ∀ c∈free k, Apart b c := fun c hc => h.live_free hleast List.mem_cons_self hc
  refine ⟨fun x => ?_,fun j => ?_,fun j c hc => ?_,fun c hc => ?_⟩
  · have hsum := sum_update_add (fun l => weight l x) free k (BlockList.insert b (free k))
    have hcover := h.cover x
    rw [weight_insert,weight_cons] at hsum
    rw [weight_cons] at hcover
    rw [←hcover]
    omega
  · by_cases hj : j=k
    · subst hj
      rw [Function.update_self]
      exact spaced_insert hb (fun c hc => hleast.trans_le (h.freeSize j c hc)) hapart (h.spaced j)
    · rw [Function.update_of_ne hj]
      exact h.spaced j
  · by_cases hj : j=k
    · subst hj
      rw [Function.update_self] at hc
      exact size_of_mem_insert hb hjoins (h.freeSize j) hapart (h.spaced j) hc
    · rw [Function.update_of_ne hj] at hc
      exact h.freeSize j c hc
  · exact h.liveSize c (List.mem_cons_of_mem b hc)

/-- A run of pages is unmapped. -/
theorem Covered.unmap {first count : ℕ} (h : Covered least free (runBlock first count::live) pages) :
    Covered least free live (pages \ pageRun first count) := by
  refine ⟨fun x => ?_,h.spaced,h.freeSize,fun b hb => h.liveSize b (List.mem_cons_of_mem _ hb)⟩
  have hcover := h.cover x
  rw [weight_cons] at hcover
  by_cases hgone : x/4096∈pageRun first count
  · have hheld := holds_runBlock.mpr hgone
    have hnot : x/4096∉pages \ pageRun first count := fun hx => (Finset.mem_sdiff.mp hx).2 hgone
    rw [if_pos hheld] at hcover
    rw [if_neg hnot]
    split_ifs at hcover <;> omega
  · rw [if_neg (fun hx => hgone (holds_runBlock.mp hx)),Nat.zero_add] at hcover
    rw [hcover]
    simp only [Finset.mem_sdiff,hgone,not_false_eq_true,and_true]

/-- The bytes after a list and the live blocks have changed. -/
theorem allBytes_update [DecidableEq κ] (free : κ → List Block) (live live' : List Block) (k : κ)
    (l : List Block) :
    allBytes (Function.update free k l) live'+total (free k)+total live=
      allBytes free live+total l+total live' := by
  have hsum := sum_update_add total free k l
  unfold allBytes
  omega

end Account

/-! ## Runs of pages that do not touch -/

/-- A block within one page. -/
def OnePage (b : Block) : Prop := b.stop≤4096*(b.addr/4096+1)

/-- A block of whole pages. -/
def WholePages (b : Block) : Prop := b.addr%4096=0 ∧ b.size%4096=0

/-- How blocks lie in the pages where runs do not touch: neighbouring pages belong
to one live block. -/
structure Paged (free : κ → List Block) (live : List Block) (pages : Finset ℕ) : Prop where
  /-- Free blocks stay within one page. -/
  onePage : ∀ k, ∀ b∈free k, OnePage b
  /-- Live blocks stay within one page or are made of whole pages. -/
  shape : ∀ b∈live, OnePage b ∨ WholePages b
  /-- Neighbouring pages belong to one live block. -/
  joined : ∀ j∈pages, j+1∈pages → ∃ b∈live, b.addr≤4096*j ∧ 4096*(j+2)≤b.stop

/-- A run of pages that touches no mapped page. -/
def Untouched (pages : Finset ℕ) (first count : ℕ) : Prop :=
  Disjoint pages (pageRun first count) ∧ first+count∉pages ∧ ∀ j∈pages, j+1≠first

instance (pages : Finset ℕ) (first count : ℕ) : Decidable (Untouched pages first count) :=
  inferInstanceAs (Decidable (_ ∧ _ ∧ _))

section Paging

variable {least : ℕ} {free : κ → List Block} {live : List Block} {pages : Finset ℕ}

omit [Fintype κ] in
/-- The order of the live blocks does not matter. -/
theorem Paged.perm (h : Paged free live pages) {live' : List Block} (hp : live.Perm live') :
    Paged free live' pages where
  onePage := h.onePage
  shape := fun b hb => h.shape b (hp.mem_iff.mpr hb)
  joined := fun j hj hnext => by
    obtain ⟨b,hb,hspan⟩ := h.joined j hj hnext
    exact ⟨b,hp.mem_iff.mp hb,hspan⟩

omit [Fintype κ] in
/-- A block is taken from a list. -/
theorem Paged.take [DecidableEq κ] (h : Paged free live pages) {k : κ} {before after : List Block}
    {b : Block} (hk : free k=before++b::after) :
    Paged (Function.update free k (before++after)) (b::live) pages := by
  refine ⟨fun j c hc => ?_,fun c hc => ?_,fun j hj hnext => ?_⟩
  · by_cases hjk : j=k
    · subst hjk
      rw [Function.update_self] at hc
      refine h.onePage j c ?_
      rw [hk]
      exact (taken_perm before after b).mem_iff.mpr (List.mem_cons_of_mem b hc)
    · rw [Function.update_of_ne hjk] at hc
      exact h.onePage j c hc
  · rcases List.mem_cons.mp hc with rfl|hc
    · refine Or.inl (h.onePage k c ?_)
      rw [hk]
      exact List.mem_append_right before List.mem_cons_self
    · exact h.shape c hc
  · obtain ⟨c,hc,hspan⟩ := h.joined j hj hnext
    exact ⟨c,List.mem_cons_of_mem b hc,hspan⟩

omit [Fintype κ] in
/-- A run of pages is mapped. -/
theorem Paged.map (h : Paged free live pages) {first count : ℕ}
    (hfresh : Untouched pages first count) :
    Paged free (runBlock first count::live) (pages∪pageRun first count) := by
  refine ⟨h.onePage,fun b hb => ?_,fun j hj hnext => ?_⟩
  · rcases List.mem_cons.mp hb with rfl|hb
    · exact Or.inr ⟨Nat.mul_mod_right 4096 first,Nat.mul_mod_right 4096 count⟩
    · exact h.shape b hb
  · obtain ⟨hdisjoint,hafter,hbefore⟩ := hfresh
    rcases Finset.mem_union.mp hj with hj|hj
    · rcases Finset.mem_union.mp hnext with hnext|hnext
      · obtain ⟨b,hb,hspan⟩ := h.joined j hj hnext
        exact ⟨b,List.mem_cons_of_mem _ hb,hspan⟩
      · have hnot : j∉pageRun first count := fun hin => Finset.disjoint_left.mp hdisjoint hj hin
        have hfirst := hbefore j hj
        unfold pageRun at hnext hnot
        rw [Finset.mem_Ico] at hnext hnot
        omega
    · rcases Finset.mem_union.mp hnext with hnext|hnext
      · have hnot : j+1∉pageRun first count := fun hin => Finset.disjoint_left.mp hdisjoint hnext hin
        unfold pageRun at hj hnot
        rw [Finset.mem_Ico] at hj hnot
        have hend : j+1=first+count := by omega
        exact absurd (hend ▸ hnext) hafter
      · refine ⟨_,List.mem_cons_self,?_⟩
        unfold pageRun at hj hnext
        rw [Finset.mem_Ico] at hj hnext
        unfold runBlock Block.stop
        dsimp only
        omega

/-- A block within one page does not span two. -/
theorem OnePage.not_span {b : Block} (h : OnePage b) {j : ℕ} (hspan : b.addr≤4096*j ∧ 4096*(j+2)≤b.stop) :
    False := by
  unfold OnePage at h
  omega

omit [Fintype κ] in
/-- A block within one page is cut in two. -/
theorem Paged.cut {b : Block} (h : Paged free (b::live) pages) (hb : OnePage b) {size : ℕ}
    (hle : size≤b.size) :
    Paged free (⟨b.addr+size,b.size-size⟩::⟨b.addr,size⟩::live) pages := by
  refine ⟨h.onePage,fun c hc => ?_,fun j hj hnext => ?_⟩
  · unfold OnePage Block.stop at hb
    rcases List.mem_cons.mp hc with rfl|hc
    · left
      unfold OnePage Block.stop
      dsimp only
      omega
    · rcases List.mem_cons.mp hc with rfl|hc
      · left
        unfold OnePage Block.stop
        dsimp only
        omega
      · exact h.shape c (List.mem_cons_of_mem b hc)
  · obtain ⟨c,hc,hspan⟩ := h.joined j hj hnext
    rcases List.mem_cons.mp hc with rfl|hc
    · exact absurd hspan (fun hspan => hb.not_span hspan)
    · exact ⟨c,List.mem_cons_of_mem _ (List.mem_cons_of_mem _ hc),hspan⟩

/-- Joining within one page stays within one page: by induction on the list. -/
theorem onePage_insert {node : Block} {l : List Block} (hnode : OnePage node) (hpos : 0<node.size)
    (hl : ∀ b∈l, OnePage b) (hlpos : ∀ b∈l, 0<b.size) (hspaced : Spaced l)
    (hsame : ∀ b∈l, node.stop=b.addr ∨ b.stop=node.addr → b.addr/4096=node.addr/4096) :
    ∀ c∈BlockList.insert node l, OnePage c := by
  induction l generalizing node with
  | nil =>
    intro c hc
    rw [List.mem_singleton.mp hc]
    exact hnode
  | cons head rest ih =>
    intro c hc
    obtain ⟨hgap,hspacedrest⟩ := List.pairwise_cons.mp hspaced
    have hhead := hl head List.mem_cons_self
    have hheadpos := hlpos head List.mem_cons_self
    have hrest : ∀ b∈rest, OnePage b := fun b hb => hl b (List.mem_cons_of_mem head hb)
    have hrestpos : ∀ b∈rest, 0<b.size := fun b hb => hlpos b (List.mem_cons_of_mem head hb)
    have hfirst := hsame head List.mem_cons_self
    unfold BlockList.insert at hc
    split_ifs at hc with hbefore hjoin hjoin
    · rcases List.mem_cons.mp hc with rfl|hmem
      · have hpage := hfirst (Or.inl hjoin)
        unfold OnePage at hhead ⊢
        unfold Block.stop at hhead hjoin ⊢
        dsimp only
        omega
      · exact hrest c hmem
    · rcases List.mem_cons.mp hc with rfl|hmem
      · exact hnode
      · exact hl c hmem
    · have hpage := hfirst (Or.inr hjoin)
      have hjoined : OnePage ⟨head.addr,head.size+node.size⟩ := by
        unfold OnePage at hnode ⊢
        unfold Block.stop at hnode hjoin ⊢
        dsimp only
        omega
      refine ih hjoined (Nat.add_pos_left hheadpos _) hrest hrestpos hspacedrest ?_ c hc
      intro b hb htouch
      have hgapb := hgap b hb
      have hbpos := hrestpos b hb
      have hsameb := hsame b (List.mem_cons_of_mem head hb)
      unfold Block.stop at htouch hjoin hgapb hsameb
      dsimp only at htouch ⊢
      rcases htouch with htouch|htouch
      · rw [hsameb (Or.inl (by omega)),hpage]
      · omega
    · rcases List.mem_cons.mp hc with rfl|hmem
      · exact hhead
      · exact ih hnode hpos hrest hrestpos hspacedrest
          (fun b hb => hsame b (List.mem_cons_of_mem head hb)) c hmem

/-- Blocks that touch lie in one page, unless a live block spans both pages. -/
theorem same_page_of_touch {b : Block} (h : Covered least free (b::live) pages)
    (hp : Paged free (b::live) pages) (hleast : 0<least) (hb : OnePage b) {k : κ} {c : Block}
    (hc : c∈free k) (htouch : b.stop=c.addr ∨ c.stop=b.addr) : c.addr/4096=b.addr/4096 := by
  have hbpos := h.live_pos List.mem_cons_self
  have hcpos := hleast.trans_le (h.freeSize k c hc)
  have hconepage := hp.onePage k c hc
  have hbpage : b.addr/4096∈pages := h.mapped (Or.inl List.mem_cons_self)
    (show b.Holds b.addr from ⟨Nat.le_refl _,by unfold Block.stop; omega⟩)
  have hcpage : c.addr/4096∈pages := h.mapped (Or.inr ⟨k,hc⟩)
    (show c.Holds c.addr from ⟨Nat.le_refl _,by unfold Block.stop; omega⟩)
  have hnospan : ∀ j, j∈pages → j+1∈pages → 4096*j≤c.addr → c.addr<4096*(j+2) → False := by
    intro j hj hnext hlow hhigh
    obtain ⟨d,hd,hspan⟩ := hp.joined j hj hnext
    rcases List.mem_cons.mp hd with rfl|hmem
    · exact hb.not_span hspan
    · have hapart := h.live_free hleast hd hc
      unfold Apart at hapart
      unfold Block.stop at hapart hspan
      omega
  by_contra hdiffer
  unfold OnePage at hb hconepage
  unfold Block.stop at htouch hb hconepage
  rcases htouch with htouch|htouch
  · have hstep : c.addr/4096=b.addr/4096+1 := by omega
    exact hnospan (b.addr/4096) hbpage (hstep ▸ hcpage) (by omega) (by omega)
  · have hstep : b.addr/4096=c.addr/4096+1 := by omega
    exact hnospan (c.addr/4096) hcpage (hstep ▸ hbpage) (by omega) (by omega)

/-- A block within one page is released to a list. -/
theorem Paged.release [DecidableEq κ] {b : Block} (h : Covered least free (b::live) pages)
    (hp : Paged free (b::live) pages) (hleast : 0<least) (hb : OnePage b) (k : κ) :
    Paged (Function.update free k (BlockList.insert b (free k))) live pages := by
  refine ⟨fun j c hc => ?_,fun c hc => hp.shape c (List.mem_cons_of_mem b hc),fun j hj hnext => ?_⟩
  · by_cases hjk : j=k
    · subst hjk
      rw [Function.update_self] at hc
      exact onePage_insert hb (h.live_pos List.mem_cons_self) (hp.onePage j)
        (fun d hd => hleast.trans_le (h.freeSize j d hd)) (h.spaced j)
        (fun d hd htouch => same_page_of_touch h hp hleast hb hd htouch) c hc
    · rw [Function.update_of_ne hjk] at hc
      exact hp.onePage j c hc
  · obtain ⟨c,hc,hspan⟩ := hp.joined j hj hnext
    rcases List.mem_cons.mp hc with rfl|hmem
    · exact absurd hspan (fun hspan => hb.not_span hspan)
    · exact ⟨c,hmem,hspan⟩

omit [Fintype κ] in
/-- A run of pages is unmapped. -/
theorem Paged.unmap {first count : ℕ} (h : Paged free (runBlock first count::live) pages) :
    Paged free live (pages \ pageRun first count) := by
  refine ⟨h.onePage,fun b hb => h.shape b (List.mem_cons_of_mem _ hb),fun j hj hnext => ?_⟩
  obtain ⟨hjpages,hjout⟩ := Finset.mem_sdiff.mp hj
  obtain ⟨b,hb,hspan⟩ := h.joined j hjpages (Finset.mem_sdiff.mp hnext).1
  rcases List.mem_cons.mp hb with rfl|hmem
  · unfold pageRun at hjout
    rw [Finset.mem_Ico] at hjout
    unfold runBlock Block.stop at hspan
    dsimp only at hspan
    omega
  · exact ⟨b,hmem,hspan⟩

/-- A live block of a page or more is a run of pages. -/
theorem eq_runBlock {b : Block} (h : OnePage b ∨ WholePages b) (hsize : 4096≤b.size) :
    b=runBlock (b.addr/4096) (b.size/4096) := by
  obtain ⟨addr,size⟩ := b
  unfold OnePage WholePages Block.stop at h
  unfold runBlock
  dsimp only at h hsize ⊢
  rw [Block.mk.injEq]
  omega

/-- A live block of less than a page lies within one. -/
theorem onePage_of_lt {b : Block} (h : OnePage b ∨ WholePages b) (hpos : 0<b.size)
    (hsize : b.size<4096) : OnePage b := by
  rcases h with h|h
  · exact h
  · unfold WholePages at h
    omega

end Paging

/-! ## Nothing in use -/

section Idle

variable {least : ℕ} {list : List Block} {pages : Finset ℕ}

/-- Where nothing is in use and there is one list, it holds every mapped address. -/
theorem exists_free (h : Covered least (fun _ : Unit => list) [] pages) {x : ℕ}
    (hx : x/4096∈pages) : ∃ b∈list, b.Holds x := by
  have hcover := h.cover x
  rw [if_pos hx,Finset.univ_unique,Finset.sum_singleton,weight_nil] at hcover
  exact exists_holds (by omega)

/-- Where nothing is in use, every mapped page is one free block: what holds its
first address begins there, and no block can follow within the page. -/
theorem page_mem (h : Covered least (fun _ : Unit => list) [] pages)
    (hp : Paged (fun _ : Unit => list) [] pages) {j : ℕ} (hj : j∈pages) : runBlock j 1∈list := by
  obtain ⟨b,hb,hheld⟩ := exists_free (x:=4096*j) h (by rwa [Nat.mul_div_cancel_left j (by decide)])
  have hone : OnePage b := hp.onePage () b hb
  unfold OnePage at hone
  unfold Block.Holds at hheld
  have haddr : b.addr=4096*j := by omega
  have hstop : b.stop=4096*(j+1) := by
    by_contra hne
    have hpage : b.stop/4096=j := by omega
    obtain ⟨c,hc,hcheld⟩ := exists_free (x:=b.stop) h (by rwa [hpage])
    unfold Block.Holds at hcheld
    have hdiffer : b≠c := by
      rintro rfl
      omega
    have hgap := (h.spaced ()).gap hb hc hdiffer
    unfold Block.stop at hcheld hgap hheld
    omega
  have heq : b=runBlock j 1 := by
    obtain ⟨addr,size⟩ := b
    unfold Block.stop at hstop
    unfold runBlock
    dsimp only at haddr hstop
    rw [Block.mk.injEq]
    omega
  rw [←heq]
  exact hb

/-- Where nothing is in use, free blocks are mapped pages. -/
theorem exists_page (h : Covered least (fun _ : Unit => list) [] pages)
    (hp : Paged (fun _ : Unit => list) [] pages) (hleast : 0<least) {b : Block} (hb : b∈list) :
    ∃ j∈pages, b=runBlock j 1 := by
  have hpos := hleast.trans_le (h.freeSize () b hb)
  have hfirst : b.Holds b.addr := by
    unfold Block.Holds Block.stop
    omega
  have hmapped : b.addr/4096∈pages := h.mapped (Or.inr ⟨(),hb⟩) hfirst
  refine ⟨b.addr/4096,hmapped,?_⟩
  by_contra hdiffer
  have hgap := (h.spaced ()).gap hb (page_mem h hp hmapped) hdiffer
  unfold runBlock Block.stop at hgap
  dsimp only at hgap
  omega

/-- Where nothing is in use, the free list is the list of mapped pages. -/
theorem free_eq_pages (h : Covered least (fun _ : Unit => list) [] pages)
    (hp : Paged (fun _ : Unit => list) [] pages) (hleast : 0<least) :
    list=pages.sort.map (fun j => runBlock j 1) := by
  have hspaced : list.Pairwise (fun a b => a.addr<b.addr) := by
    refine List.Pairwise.imp (fun {a b} hgap => ?_) (h.spaced ())
    unfold Block.stop at hgap
    omega
  have hsorted : (pages.sort.map (fun j => runBlock j 1)).Pairwise (fun a b => a.addr<b.addr) := by
    rw [List.pairwise_map]
    refine List.Pairwise.imp (fun {a b} hlt => ?_) (Finset.sortedLT_sort pages).pairwise
    unfold runBlock
    dsimp only
    omega
  have hirrefl : ∀ l : List Block, l.Pairwise (fun a b => a.addr<b.addr) → l.Nodup :=
    fun l hl => List.Pairwise.imp (fun {a b} hlt heq => by rw [heq] at hlt; omega) hl
  refine List.Perm.eq_of_pairwise (fun a b _ _ hab hba => absurd hab (by omega)) hspaced hsorted ?_
  rw [List.perm_ext_iff_of_nodup (hirrefl _ hspaced) (hirrefl _ hsorted)]
  intro b
  rw [List.mem_map]
  refine ⟨fun hb => ?_,?_⟩
  · obtain ⟨j,hj,heq⟩ := exists_page h hp hleast hb
    exact ⟨j,(Finset.mem_sort _).mpr hj,heq.symm⟩
  · rintro ⟨j,hj,rfl⟩
    exact page_mem h hp ((Finset.mem_sort _).mp hj)

end Idle

end ComputerSystems.PagedHeap
