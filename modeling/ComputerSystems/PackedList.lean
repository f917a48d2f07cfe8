import Mathlib.Data.List.Perm.Basic
import Mathlib.Data.List.Count
import Mathlib.Data.List.Nodup
import Mathlib.Tactic.Common

/-!
# Packed lists

Removal from an array that stays packed: the last element moves into the hole
and the array gets one shorter. Up to order this erases one occurrence of the
element at the hole. The module names no particular program.
-/

namespace ComputerSystems.PackedList

variable {α β : Type}

/-- Move the last element to the given index and drop the end. -/
def swapRemove (list : List α) (index : ℕ) : List α :=
  match list.getLast? with
  | none => []
  | some last => (list.set index last).dropLast

/-- The removal on a list with a known end. -/
theorem swapRemove_concat (front : List α) (last : α) (index : ℕ) :
    swapRemove (front++[last]) index=front.set index last := by
  rw [swapRemove,List.getLast?_concat]
  dsimp only
  by_cases h : index<front.length
  · rw [List.set_append_left _ _ h,List.dropLast_concat]
  · rw [List.set_eq_of_length_le (by omega : front.length ≤ index)]
    rcases Nat.eq_or_lt_of_le (Nat.le_of_not_lt h) with he|hlt
    · rw [List.set_append_right _ _ (by omega),he,Nat.sub_self,List.set_cons_zero,
        List.dropLast_concat]
    · rw [List.set_eq_of_length_le (by simp only [List.length_append,List.length_singleton]; omega),
        List.dropLast_concat]

/-- Overwriting one element of a list erases it up to order. -/
theorem cons_set_perm (front : List α) (last : α) {index : ℕ} (h : index<front.length) :
    (front++[last]).Perm (front[index]::front.set index last) := by
  have hsplit : front=front.take index++front[index]::front.drop (index+1) := by
    rw [List.getElem_cons_drop h,List.take_append_drop]
  have hold : front.Perm (front[index]::(front.take index++front.drop (index+1))) := by
    refine List.Perm.trans (List.Perm.of_eq hsplit) ?_
    exact List.perm_middle
  have hnew : (front.set index last).Perm (last::(front.take index++front.drop (index+1))) := by
    rw [List.set_eq_take_append_cons_drop,if_pos h]
    exact List.perm_middle
  have hend : (front++[last]).Perm (last::front) := List.perm_append_singleton last front
  refine (hend.trans (hold.cons last)).trans ?_
  exact (List.Perm.swap _ _ _).trans (hnew.symm.cons _)

/-- A packed removal erases the element at the index up to order. -/
theorem swapRemove_perm {list : List α} {index : ℕ} (h : index<list.length) :
    list.Perm (list[index]::swapRemove list index) := by
  obtain ⟨front,last,rfl⟩ : ∃ front last, list=front++[last] := by
    have hne : list≠[] := List.ne_nil_of_length_pos (by omega)
    exact ⟨list.dropLast,list.getLast hne,(List.dropLast_append_getLast hne).symm⟩
  rw [swapRemove_concat]
  rw [List.length_append,List.length_singleton] at h
  by_cases hi : index<front.length
  · rw [List.getElem_append_left hi]
    exact cons_set_perm front last hi
  · have he : index=front.length := by omega
    subst he
    rw [List.getElem_concat_length rfl,List.set_eq_of_length_le (Nat.le_refl _)]
    exact List.perm_append_singleton last front

/-- What remains was in the list. -/
theorem mem_of_mem_swapRemove {list : List α} {index : ℕ} (h : index<list.length) {element : α}
    (hm : element∈swapRemove list index) : element∈list :=
  (swapRemove_perm h).mem_iff.mpr (List.mem_cons_of_mem _ hm)

/-- Counting after a packed removal. -/
theorem countP_swapRemove {list : List α} {index : ℕ} (h : index<list.length)
    (test : α → Bool) : list.countP test=
      (swapRemove list index).countP test+if test list[index]=true then 1 else 0 := by
  rw [(swapRemove_perm h).countP_eq test,List.countP_cons]

/-- A packed removal of an array given by its index function. -/
theorem swapRemove_map_range (entry : ℕ → α) {count index : ℕ} (h : index<count) :
    swapRemove ((List.range count).map entry) index=
      (List.range (count-1)).map (fun k => if k=index then entry (count-1) else entry k) := by
  obtain ⟨rest,rfl⟩ : ∃ rest, count=rest+1 := ⟨count-1,by omega⟩
  rw [List.range_succ,List.map_append,List.map_singleton,swapRemove_concat,Nat.add_sub_cancel]
  refine List.ext_getElem (by simp) (fun k hk hk' => ?_)
  rw [List.getElem_set,List.getElem_map,List.getElem_map,List.getElem_range]
  by_cases he : index=k
  · rw [if_pos he,if_pos he.symm]
  · rw [if_neg he,if_neg (fun hc => he hc.symm)]

end ComputerSystems.PackedList
