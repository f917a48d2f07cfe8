import Mathlib.Data.Int.Order.Basic
import Mathlib.Data.List.Nodup
import Mathlib.Data.List.Perm.Basic
import Mathlib.Data.List.Range
import Mathlib.Logic.Equiv.Basic
import Mathlib.Order.Basic
import Mathlib.Tactic.Common

/-!
# Rearranging a range of an array

An array is the value at each index. Rearranging a range takes the values of the
range to other indices of it and leaves all others where they are; so what holds
of all values of the range still does, and the list of its values is a
permutation of what it was. This module names no particular program.
-/

namespace ComputerSystems.ArrayRange

variable {α : Type}

/-- The values at the indices from one to before another, in order. -/
def segment (xs : ℤ → α) (lo hi : ℤ) : List α :=
  (List.range (hi-lo).toNat).map (fun k : ℕ => xs (lo+k))

/-- An index of a range. -/
def Within (lo hi i : ℤ) : Prop := lo ≤ i ∧ i<hi

/-- The values of a range in another order, all other values where they were. -/
def Shuffled (lo hi : ℤ) (xs ys : ℤ → α) : Prop :=
  ∃ order : Equiv.Perm ℤ, (∀ i, ¬Within lo hi i → order i=i) ∧ ∀ i, ys i=xs (order i)

variable {lo hi : ℤ} {xs ys zs : ℤ → α}

/-- Nothing moves. -/
theorem Shuffled.refl (lo hi : ℤ) (xs : ℤ → α) : Shuffled lo hi xs xs :=
  ⟨Equiv.refl ℤ,fun _ _ => rfl,fun _ => rfl⟩

/-- One rearrangement after the other. -/
theorem Shuffled.trans (h : Shuffled lo hi xs ys) (h' : Shuffled lo hi ys zs) :
    Shuffled lo hi xs zs := by
  obtain ⟨order,hfix,hys⟩ := h
  obtain ⟨order',hfix',hzs⟩ := h'
  refine ⟨order'.trans order,fun i hout => ?_,fun i => ?_⟩
  · rw [Equiv.trans_apply,hfix' i hout,hfix i hout]
  · rw [hzs,hys,Equiv.trans_apply]

/-- A rearrangement of a range is one of any larger range. -/
theorem Shuffled.widen {low high : ℤ} (h : Shuffled lo hi xs ys) (hlow : low≤lo) (hhigh : hi≤high) :
    Shuffled low high xs ys := by
  obtain ⟨order,hfix,hys⟩ := h
  refine ⟨order,fun i hout => hfix i (fun hin => hout ?_),hys⟩
  exact ⟨Int.le_trans hlow hin.1,Int.lt_of_lt_of_le hin.2 hhigh⟩

/-- Two values of the range trade places. -/
theorem Shuffled.swap {ii jj : ℤ} (hii : Within lo hi ii) (hjj : Within lo hi jj) (xs : ℤ → α) :
    Shuffled lo hi xs (Function.update (Function.update xs ii (xs jj)) jj (xs ii)) := by
  refine ⟨Equiv.swap ii jj,fun i hout => ?_,fun i => ?_⟩
  · exact Equiv.swap_apply_of_ne_of_ne (fun h => hout (h ▸ hii)) (fun h => hout (h ▸ hjj))
  · by_cases hj : i=jj
    · rw [hj,Function.update_self,Equiv.swap_apply_right]
    · rw [Function.update_of_ne hj]
      by_cases hsame : i=ii
      · rw [hsame,Function.update_self,Equiv.swap_apply_left]
      · rw [Function.update_of_ne hsame,Equiv.swap_apply_of_ne_of_ne hsame hj]

/-- Values outside the range stay. -/
theorem Shuffled.outside (h : Shuffled lo hi xs ys) {i : ℤ} (hout : ¬Within lo hi i) :
    ys i=xs i := by
  obtain ⟨order,hfix,hys⟩ := h
  rw [hys,hfix i hout]

/-- The order takes indices of the range to such indices. -/
theorem within_order {order : Equiv.Perm ℤ} (hfix : ∀ i, ¬Within lo hi i → order i=i) {i : ℤ}
    (hin : Within lo hi i) : Within lo hi (order i) := by
  by_contra hout
  have hsame := order.injective (hfix (order i) hout)
  rw [hsame] at hout
  exact hout hin

/-- What holds of all values of the range still does. -/
theorem Shuffled.forall (h : Shuffled lo hi xs ys) (property : α → Prop)
    (hall : ∀ i, Within lo hi i → property (xs i)) (i : ℤ) (hin : Within lo hi i) :
    property (ys i) := by
  obtain ⟨order,hfix,hys⟩ := h
  rw [hys]
  exact hall (order i) (within_order hfix hin)

/-- The values of the range are a permutation of what they were. -/
theorem Shuffled.segment_perm (h : Shuffled lo hi xs ys) :
    (segment ys lo hi).Perm (segment xs lo hi) := by
  obtain ⟨order,hfix,hys⟩ := h
  let indices : List ℤ := (List.range (hi-lo).toNat).map (fun k : ℕ => lo+k)
  have hmem : ∀ i, i∈indices ↔ Within lo hi i := by
    intro i
    unfold Within
    constructor
    · intro hin
      obtain ⟨k,hk,rfl⟩ := List.mem_map.mp hin
      have hk' := List.mem_range.mp hk
      omega
    · intro hin
      exact List.mem_map.mpr ⟨(i-lo).toNat,List.mem_range.mpr (by omega),by omega⟩
  have hnodup : indices.Nodup :=
    List.Nodup.map (fun a b hab => by omega) List.nodup_range
  have horder : (indices.map order).Perm indices := by
    refine (List.perm_ext_iff_of_nodup (List.Nodup.map order.injective hnodup) hnodup).mpr (fun i => ?_)
    rw [List.mem_map,hmem]
    constructor
    · rintro ⟨j,hj,rfl⟩
      exact within_order hfix ((hmem j).mp hj)
    · intro hin
      refine ⟨order.symm i,(hmem _).mpr ?_,order.apply_symm_apply i⟩
      by_contra hout
      have hsame := hfix _ hout
      rw [order.apply_symm_apply] at hsame
      rw [←hsame] at hout
      exact hout hin
  have hxs : segment xs lo hi=indices.map xs := by
    rw [segment,List.map_map]
    rfl
  have hyss : segment ys lo hi=(indices.map order).map xs := by
    rw [segment,List.map_map,List.map_map]
    exact List.map_congr_left (fun k _ => hys _)
  rw [hxs,hyss]
  exact horder.map xs

/-- Values in order make a list in order. -/
theorem segment_sorted [LE α] (h : ∀ i j, lo ≤ i → i<j → j<hi → ys i≤ys j) :
    (segment ys lo hi).Pairwise (fun a b => a≤b) := by
  refine List.pairwise_map.mpr ?_
  refine List.pairwise_lt_range.imp_of_mem (fun {i j} _ hj hij => ?_)
  have hj' := List.mem_range.mp hj
  exact h (lo+i) (lo+j) (by omega) (by omega) (by omega)

end ComputerSystems.ArrayRange
