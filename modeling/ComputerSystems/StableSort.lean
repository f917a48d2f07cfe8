import Mathlib.Data.List.Perm.Basic
import Mathlib.Data.List.Pairwise
import Mathlib.Data.List.Sort
import Mathlib.Order.Basic

/-!
# Stable sorting by a key

A list is the stable sort of another by a key when it has the same elements, in
the order of their keys, and elements of one key in the order they had. Swapping
two neighbours that are out of order takes away one inversion and moves no two
elements of one key. Sorting by one key is sorting by another exactly when the
keys agree on how to order any two elements of the list. This module names no
particular program.
-/

namespace ComputerSystems.StableSort

variable {α β γ : Type} [LinearOrder β] [LinearOrder γ]

/-- The elements of one list in another order that keeps those of one key. -/
structure Rearranged (key : α → β) (xs ys : List α) : Prop where
  /-- The elements are the same. -/
  perm : ys.Perm xs
  /-- Elements of one key are in the order they had. -/
  stable : ∀ c, ys.filter (fun a => key a=c)=xs.filter (fun a => key a=c)

/-- A list is the stable sort of another. -/
structure StableSorted (key : α → β) (xs ys : List α) : Prop extends Rearranged key xs ys where
  /-- Keys do not decrease. -/
  sorted : ys.Pairwise (fun a b => key a≤key b)

/-- Pairs of elements whose keys are out of order. -/
def inversions (key : α → β) : List α → ℕ
  | [] => 0
  | a::rest => rest.countP (fun b => key b<key a)+inversions key rest

variable {key : α → β} {xs ys : List α} {a b : α}

/-- A list is a rearrangement of itself. -/
theorem Rearranged.refl (key : α → β) (xs : List α) : Rearranged key xs xs :=
  ⟨List.Perm.refl xs,fun _ => rfl⟩

/-- Neighbours of different keys may be swapped. -/
theorem Rearranged.swap {before after : List α} (h : Rearranged key xs (before++a::b::after))
    (hne : key a≠key b) : Rearranged key xs (before++b::a::after) := by
  constructor
  · exact ((List.Perm.swap a b after).append_left before).trans h.perm
  · intro c
    rw [←h.stable c]
    simp only [List.filter_append,List.filter_cons]
    by_cases ha : key a=c
    · have hb : key b≠c := fun hb => hne (ha.trans hb.symm)
      simp only [ha,hb,decide_true,decide_false,if_true,Bool.false_eq_true,if_false]
    · simp only [ha,decide_false,Bool.false_eq_true,if_false]

/-- Swapping neighbours that are out of order takes one inversion away: by induction
on what is before them. -/
theorem inversions_swap (before after : List α) (h : key b<key a) :
    inversions key (before++a::b::after)=inversions key (before++b::a::after)+1 := by
  induction before with
  | nil =>
    have hnot : ¬key a<key b := not_lt_of_gt h
    simp only [List.nil_append,inversions,List.countP_cons,h,hnot,decide_true,decide_false,if_true,
      Bool.false_eq_true,if_false]
    omega
  | cons first before ih =>
    have hperm : (before++a::b::after).Perm (before++b::a::after) :=
      (List.Perm.swap b a after).append_left before
    simp only [List.cons_append,inversions,ih,hperm.countP_eq]
    omega

/-- Elements of one key keep their order. -/
theorem Rearranged.pair_iff (h : Rearranged key xs ys) (hkey : key a=key b) :
    [a,b].Sublist ys ↔ [a,b].Sublist xs := by
  have hpair : ∀ list : List α, [a,b].Sublist list ↔
      [a,b].Sublist (list.filter (fun e => key e=key b)) := by
    intro list
    refine ⟨fun hsub => ?_,fun hsub => hsub.trans List.filter_sublist⟩
    have hfilter := hsub.filter (fun e => decide (key e=key b))
    simpa only [List.filter_cons,List.filter_nil,hkey,decide_true,if_true] using hfilter
  rw [hpair ys,hpair xs,h.stable]

/-- Stable sorts of one list are equal: by induction on one of them. -/
theorem StableSorted.unique {zs : List α} (hy : StableSorted key xs ys)
    (hz : StableSorted key xs zs) : ys=zs := by
  have hperm := hy.perm.trans hz.perm.symm
  have hstable : ∀ c, ys.filter (fun a => key a=c)=zs.filter (fun a => key a=c) :=
    fun c => (hy.stable c).trans (hz.stable c).symm
  have hys := hy.sorted
  have hzs := hz.sorted
  clear hy hz
  induction ys generalizing zs with
  | nil => exact hperm.nil_eq
  | cons a ys ih =>
    cases zs with
    | nil => exact hperm.eq_nil
    | cons b zs =>
      obtain ⟨hamin,hys'⟩ := List.pairwise_cons.mp hys
      obtain ⟨hbmin,hzs'⟩ := List.pairwise_cons.mp hzs
      have hab : key a≤key b := by
        rcases List.mem_cons.mp (hperm.mem_iff.mpr List.mem_cons_self) with he|hmem
        · rw [he]
        · exact hamin b hmem
      have hba : key b≤key a := by
        rcases List.mem_cons.mp (hperm.mem_iff.mp List.mem_cons_self) with he|hmem
        · rw [he]
        · exact hbmin a hmem
      have hfirst := hstable (key a)
      rw [List.filter_cons_of_pos (by simp),
        List.filter_cons_of_pos (by simpa using le_antisymm hba hab),List.cons.injEq] at hfirst
      obtain ⟨rfl,-⟩ := hfirst
      refine congrArg (List.cons a) (ih hperm.cons_inv (fun c => ?_) hys' hzs')
      have hc := hstable c
      by_cases hk : key a=c
      · simpa only [List.filter_cons,hk,decide_true,if_true,List.cons.injEq,true_and] using hc
      · simpa only [List.filter_cons,hk,decide_false,Bool.false_eq_true,if_false] using hc

/-- The sort of the library is the stable sort. -/
theorem stableSorted_mergeSort (key : α → β) (xs : List α) :
    StableSorted key xs (xs.mergeSort (fun a b => decide (key a≤key b))) := by
  have htrans : ∀ a b c : α, decide (key a≤key b)=true → decide (key b≤key c)=true →
      decide (key a≤key c)=true := by
    intro a b c hab hbc
    exact decide_eq_true (le_trans (of_decide_eq_true hab) (of_decide_eq_true hbc))
  have htotal : ∀ a b : α, (decide (key a≤key b) || decide (key b≤key a))=true := by
    intro a b
    rw [Bool.or_eq_true,decide_eq_true_eq,decide_eq_true_eq]
    exact le_total (key a) (key b)
  have hperm := List.mergeSort_perm xs (fun a b => decide (key a≤key b))
  refine ⟨⟨hperm,fun c => ?_⟩,?_⟩
  · have hequal : (xs.filter (fun a => key a=c)).Pairwise
        (fun a b => decide (key a≤key b)=true) := by
      refine List.pairwise_of_forall_mem_list (fun a ha b hb => ?_)
      have hka := of_decide_eq_true (List.mem_filter.mp ha).2
      have hkb := of_decide_eq_true (List.mem_filter.mp hb).2
      exact decide_eq_true (hka.trans hkb.symm).le
    have hsub := (List.sublist_mergeSort htrans htotal hequal List.filter_sublist).filter
      (fun a => decide (key a=c))
    rw [List.filter_filter] at hsub
    simp only [Bool.and_self] at hsub
    exact (hsub.eq_of_length (hperm.filter _).length_eq.symm).symm
  · exact (List.pairwise_mergeSort htrans htotal xs).imp of_decide_eq_true

/-- Insert an element behind all elements of its key and of smaller keys. -/
def insertBehind (key : α → β) (a : α) : List α → List α
  | [] => [a]
  | b::rest => if key a<key b then a::b::rest else b::insertBehind key a rest

/-- The elements after an insertion: by induction on the list. -/
theorem insertBehind_perm (key : α → β) (a : α) (ys : List α) :
    (insertBehind key a ys).Perm (a::ys) := by
  induction ys with
  | nil => exact List.Perm.refl _
  | cons b rest ih =>
    unfold insertBehind
    split_ifs with h
    · exact List.Perm.refl _
    · exact (ih.cons b).trans (List.Perm.swap a b rest)

/-- Insertion into a sorted list puts the element behind those of its key: by
induction on the list. -/
theorem filter_insertBehind (hs : ys.Pairwise (fun a b => key a≤key b)) (a : α) (c : β) :
    (insertBehind key a ys).filter (fun e => key e=c)=
      ys.filter (fun e => key e=c)++[a].filter (fun e => key e=c) := by
  induction ys with
  | nil => rfl
  | cons b rest ih =>
    obtain ⟨hmin,hrest⟩ := List.pairwise_cons.mp hs
    unfold insertBehind
    split_ifs with h
    · by_cases ha : key a=c
      · have hnone : (b::rest).filter (fun e => key e=c)=[] := by
          refine List.filter_eq_nil_iff.mpr (fun e he hk => ?_)
          have hlt : key a<key e := by
            rcases List.mem_cons.mp he with rfl|he
            · exact h
            · exact lt_of_lt_of_le h (hmin e he)
          exact absurd (ha.trans (of_decide_eq_true hk).symm) hlt.ne
        rw [List.filter_cons_of_pos (by simpa using ha),hnone,List.nil_append,
          List.filter_cons_of_pos (by simpa using ha),List.filter_nil]
      · have hlast : [a].filter (fun e => key e=c)=[] := List.filter_cons_of_neg (by simpa using ha)
        rw [hlast,List.append_nil]
        exact List.filter_cons_of_neg (by simpa using ha)
    · rw [List.filter_cons,List.filter_cons,ih hrest]
      split
      · rfl
      · rfl

/-- Insertion keeps a list sorted: by induction on the list. -/
theorem pairwise_insertBehind (hs : ys.Pairwise (fun a b => key a≤key b)) (a : α) :
    (insertBehind key a ys).Pairwise (fun a b => key a≤key b) := by
  induction ys with
  | nil => exact List.pairwise_singleton _ _
  | cons b rest ih =>
    obtain ⟨hmin,hrest⟩ := List.pairwise_cons.mp hs
    unfold insertBehind
    split_ifs with h
    · refine List.pairwise_cons.mpr ⟨fun e he => ?_,hs⟩
      rcases List.mem_cons.mp he with rfl|he
      · exact h.le
      · exact h.le.trans (hmin e he)
    · refine List.pairwise_cons.mpr ⟨fun e he => ?_,ih hrest⟩
      rcases List.mem_cons.mp ((insertBehind_perm key a rest).mem_iff.mp he) with rfl|he
      · exact not_lt.mp h
      · exact hmin e he

/-- Inserting the elements one after the other sorts stably. -/
theorem StableSorted.insertBehind (h : StableSorted key xs ys) (a : α) :
    StableSorted key (xs++[a]) (insertBehind key a ys) := by
  refine ⟨⟨?_,fun c => ?_⟩,pairwise_insertBehind h.sorted a⟩
  · exact (insertBehind_perm key a ys).trans ((h.perm.cons a).trans
      (List.perm_append_singleton a xs).symm)
  · rw [filter_insertBehind h.sorted,h.stable,List.filter_append]

/-- Two elements of a list are related one way or the other. -/
theorem related {R : α → α → Prop} {list : List α} (h : list.Pairwise R) (ha : a∈list) (hb : b∈list)
    (hne : a≠b) : R a b ∨ R b a := by
  have hsymm : Std.Symm (fun a b : α => R a b ∨ R b a) := ⟨fun _ _ => Or.symm⟩
  have hpair : list.Pairwise (fun a b => R a b ∨ R b a) := h.imp Or.inl
  exact hpair.forall ha hb hne

/-- The elements of a pair. -/
theorem mem_of_pair {list : List α} (h : [a,b].Sublist list) : a∈list ∧ b∈list :=
  ⟨h.subset List.mem_cons_self,h.subset (List.mem_cons_of_mem a List.mem_cons_self)⟩

section Keys

variable {other : α → γ}

/-- Keys that agree on any two elements have the same stable sort. -/
theorem StableSorted.of_agree (hsame : ∀ a b, other a=other b → key a=key b)
    (h : StableSorted key xs ys)
    (hagree : xs.Pairwise (fun a b => key a≤key b ↔ other a≤other b)) : StableSorted other xs ys := by
  refine ⟨⟨h.perm,fun c => ?_⟩,?_⟩
  · by_cases hnone : ∃ e, other e=c
    · obtain ⟨e,rfl⟩ := hnone
      have hfilter : ∀ list : List α, list.filter (fun a => other a=other e)=
          (list.filter (fun a => key a=key e)).filter (fun a => other a=other e) := by
        intro list
        rw [List.filter_filter]
        refine List.filter_congr (fun a _ => ?_)
        by_cases ha : other a=other e
        · rw [decide_eq_true ha,decide_eq_true (hsame a e ha),Bool.and_self]
        · rw [decide_eq_false ha,Bool.false_and]
      rw [hfilter ys,hfilter xs,h.stable]
    · have hempty : ∀ list : List α, list.filter (fun a => other a=c)=[] :=
        fun list => List.filter_eq_nil_iff.mpr
          (fun a _ ha => hnone ⟨a,of_decide_eq_true ha⟩)
      rw [hempty,hempty]
  · refine List.pairwise_iff_forall_sublist.mpr (fun {a b} hpair => ?_)
    have hle := List.pairwise_iff_forall_sublist.mp h.sorted hpair
    obtain ⟨ha,hb⟩ := mem_of_pair hpair
    rcases hle.eq_or_lt with heq|hlt
    · exact (List.pairwise_iff_forall_sublist.mp hagree ((h.pair_iff heq).mp hpair)).mp hle
    · have hne : a≠b := fun hab => absurd hlt (by rw [hab]; exact lt_irrefl _)
      rcases related hagree (h.perm.mem_iff.mp ha) (h.perm.mem_iff.mp hb) hne with hab|hba
      · exact hab.mp hle
      · exact (not_le.mp (fun hother => absurd (hba.mpr hother) (not_le.mpr hlt))).le

/-- Keys with the same stable sort agree on any two elements. -/
theorem StableSorted.agree (hsame : ∀ a b, other a=other b → key a=key b)
    (h : StableSorted key xs ys) (hother : StableSorted other xs ys) :
    xs.Pairwise (fun a b => key a≤key b ↔ other a≤other b) := by
  refine List.pairwise_iff_forall_sublist.mpr (fun {a b} hpair => ?_)
  obtain ⟨ha,hb⟩ := mem_of_pair hpair
  have hboth : ys.Pairwise (fun a b => key a≤key b ∧ other a≤other b) :=
    h.sorted.and hother.sorted
  have hplace := fun hne : a≠b =>
    related hboth (h.perm.mem_iff.mpr ha) (h.perm.mem_iff.mpr hb) hne
  constructor
  · intro hle
    rcases hle.eq_or_lt with heq|hlt
    · exact List.pairwise_iff_forall_sublist.mp hother.sorted ((h.pair_iff heq).mpr hpair)
    · rcases hplace (fun hab => absurd hlt (by rw [hab]; exact lt_irrefl _)) with hab|hba
      · exact hab.2
      · exact absurd hba.1 (not_le.mpr hlt)
  · intro hle
    by_contra hlt
    rw [not_le] at hlt
    rcases hplace (fun hab => absurd hlt (by rw [hab]; exact lt_irrefl _)) with hab|hba
    · exact absurd hab.1 (not_le.mpr hlt)
    · exact absurd (hsame a b (le_antisymm hle hba.2)) hlt.ne'

end Keys

end ComputerSystems.StableSort
