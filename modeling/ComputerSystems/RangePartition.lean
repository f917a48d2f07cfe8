import Mathlib.Data.List.Perm.Basic
import Mathlib.Data.List.Range
import Mathlib.Order.Lattice
import Mathlib.Tactic.Common

/-!
# Cutting a list at rising bounds

Bounds that do not fall cut a linear order into half-open cells, some of them
empty. Every value between the first and the last bound lies in exactly one
cell, and sorting the cells one by one and putting them together sorts the
list. This module names no particular program.
-/

namespace ComputerSystems.RangePartition

variable {α : Type*} [LinearOrder α]

/-- A value lies between a bound and the next one. -/
def InCell (bound : ℕ → α) (p : ℕ) (x : α) : Prop := bound p≤x ∧ x<bound (p+1)

instance (bound : ℕ → α) (p : ℕ) (x : α) : Decidable (InCell bound p x) :=
  inferInstanceAs (Decidable (_ ∧ _))

/-- The bounds do not fall up to a number of cells. -/
def Rising (bound : ℕ → α) (n : ℕ) : Prop := ∀ p<n, bound p≤bound (p+1)

/-- Fewer cells are rising as well. -/
theorem Rising.mono {bound : ℕ → α} {m n : ℕ} (h : Rising bound n) (hmn : m≤n) : Rising bound m :=
  fun p hp => h p (lt_of_lt_of_le hp hmn)

/-- A later bound is not smaller: by induction on the later one. -/
theorem Rising.le {bound : ℕ → α} {n p : ℕ} (h : Rising bound n) :
    ∀ q, p≤q → q≤n → bound p≤bound q := by
  intro q hpq
  induction q,hpq using Nat.le_induction with
  | base => exact fun _ => le_refl _
  | succ q hpq ih =>
    intro hq
    exact (ih (Nat.le_of_succ_le hq)).trans (h q hq)

/-- A value below the last bound lies in some cell: by induction on the cells. -/
theorem exists_inCell {bound : ℕ → α} {x : α} (h0 : bound 0≤x) :
    ∀ n, x<bound n → ∃ p<n, InCell bound p x := by
  intro n
  induction n with
  | zero => exact fun hx => absurd h0 (not_le_of_gt hx)
  | succ n ih =>
    intro hx
    by_cases hlast : bound n≤x
    · exact ⟨n,Nat.lt_succ_self n,hlast,hx⟩
    · obtain ⟨p,hp,hcell⟩ := ih (lt_of_not_ge hlast)
      exact ⟨p,Nat.lt_succ_of_lt hp,hcell⟩

/-- Different cells have nothing in common. -/
theorem inCell_unique {bound : ℕ → α} {n p q : ℕ} {x : α} (h : Rising bound n) (hp : p<n) (hq : q<n)
    (hpx : InCell bound p x) (hqx : InCell bound q x) : p=q := by
  rcases Nat.lt_trichotomy p q with hlt|heq|hgt
  · exact absurd (hpx.2.trans_le (h.le q hlt (Nat.le_of_lt hq))) (not_lt_of_ge hqx.1)
  · exact heq
  · exact absurd (hqx.2.trans_le (h.le p hgt (Nat.le_of_lt hp))) (not_lt_of_ge hpx.1)

section Sorting

variable {bound : ℕ → α} {part : ℕ → List α} {values : List α}

/-- The parts up to a bound are the values below it: by induction on the parts. -/
theorem parts_perm (hlow : ∀ x∈values, bound 0≤x) :
    ∀ n, Rising bound n →
      (∀ p<n, (part p).Perm (values.filter (fun x => InCell bound p x))) →
      (((List.range n).map part).flatten).Perm (values.filter (fun x => x<bound n)) := by
  intro n
  induction n with
  | zero =>
    intro _ _
    have hnone : values.filter (fun x => decide (x<bound 0))=[] := by
      refine List.filter_eq_nil_iff.mpr (fun x hx => ?_)
      rw [decide_eq_true_eq]
      exact not_lt_of_ge (hlow x hx)
    rw [hnone]
    exact List.Perm.refl _
  | succ n ih =>
    intro hrising hparts
    have hbefore := ih (hrising.mono (Nat.le_succ n)) (fun p hp => hparts p (Nat.lt_succ_of_lt hp))
    have hlast := hparts n (Nat.lt_succ_self n)
    rw [List.range_succ,List.map_append,List.flatten_append,List.map_singleton,
      List.flatten_singleton]
    refine (hbefore.append hlast).trans ?_
    have hsplit := List.filter_append_perm (fun x => decide (x<bound n))
      (values.filter (fun x => decide (x<bound (n+1))))
    rw [List.filter_filter,List.filter_filter] at hsplit
    refine List.Perm.trans (List.Perm.of_eq ?_) hsplit
    congr 1
    · refine List.filter_congr (fun x _ => ?_)
      by_cases hx : x<bound n
      · have hnext : x<bound (n+1) := hx.trans_le (hrising n (Nat.lt_succ_self n))
        simp only [hx,hnext,decide_true,Bool.and_self]
      · simp only [hx,decide_false,Bool.false_and]
    · refine List.filter_congr (fun x _ => ?_)
      by_cases hx : x<bound n
      · simp only [InCell,hx,not_le_of_gt hx,false_and,decide_false,decide_true,Bool.not_true,
          Bool.false_and]
      · simp only [InCell,hx,le_of_not_gt hx,true_and,decide_false,Bool.not_false,Bool.true_and]

/-- Parts that are sorted one by one are sorted together: by induction on the
parts. -/
theorem parts_sorted (hlow : ∀ x∈values, bound 0≤x) :
    ∀ n, Rising bound n →
      (∀ p<n, (part p).Perm (values.filter (fun x => InCell bound p x))) →
      (∀ p<n, (part p).Pairwise (fun x y => x≤y)) →
      ((List.range n).map part).flatten.Pairwise (fun x y => x≤y) := by
  intro n
  induction n with
  | zero =>
    intro _ _ _
    exact List.Pairwise.nil
  | succ n ih =>
    intro hrising hparts hsorted
    have hrising' := hrising.mono (Nat.le_succ n)
    have hparts' : ∀ p<n, (part p).Perm (values.filter (fun x => InCell bound p x)) :=
      fun p hp => hparts p (Nat.lt_succ_of_lt hp)
    rw [List.range_succ,List.map_append,List.flatten_append,List.map_singleton,
      List.flatten_singleton]
    refine List.pairwise_append.mpr
      ⟨ih hrising' hparts' (fun p hp => hsorted p (Nat.lt_succ_of_lt hp)),
        hsorted n (Nat.lt_succ_self n),?_⟩
    intro x hx y hy
    have hxlt : x<bound n :=
      of_decide_eq_true (List.mem_filter.mp ((parts_perm hlow n hrising' hparts').mem_iff.mp hx)).2
    have hyle : InCell bound n y :=
      of_decide_eq_true (List.mem_filter.mp ((hparts n (Nat.lt_succ_self n)).mem_iff.mp hy)).2
    exact (hxlt.trans_le hyle.1).le

end Sorting

end ComputerSystems.RangePartition
