import ComputerSystems.PackedList
import Mathlib.Data.Finmap

/-!
# Lists with distinct keys as finite maps

A list whose elements have keys and values stands for the finite map that sends
the key of each element to its value. As long as the keys are distinct, a further
element inserts its key and a packed removal erases the key at the hole. The
module names no particular program.
-/

namespace ComputerSystems.KeyedList

open PackedList

variable {α κ β : Type} [DecidableEq κ] (key : α → κ) (value : α → β)

/-- The finite map of a list. -/
def mapOf (list : List α) : Finmap (fun _ : κ => β) :=
  (list.map (fun a => (⟨key a,value a⟩ : Σ _ : κ, β))).toFinmap

variable {key value}

/-- One element in front. -/
theorem mapOf_cons (a : α) (list : List α) :
    mapOf key value (a::list)=(mapOf key value list).insert (key a) (value a) :=
  Finmap.toFinmap_cons _ _ _

/-- A lookup gives the value of the first element with the key. -/
theorem lookup_mapOf (list : List α) (k : κ) :
    (mapOf key value list).lookup k=(list.find? (fun a => key a=k)).map value := by
  induction list with
  | nil => rfl
  | cons a rest ih =>
    rw [mapOf_cons,List.find?_cons]
    by_cases hk : key a=k
    · subst hk
      simp only [decide_true,Finmap.lookup_insert,Option.map_some]
    · rw [Finmap.lookup_insert_of_ne _ (Ne.symm hk),ih,decide_eq_false hk]

/-- The keys of the map are those of the list. -/
theorem mem_mapOf {list : List α} {k : κ} : k∈mapOf key value list ↔ k∈list.map key := by
  induction list with
  | nil =>
    show k∈(∅ : Finmap (fun _ : κ => β)) ↔ _
    simp only [Finmap.notMem_empty,List.map_nil,List.not_mem_nil]
  | cons a rest ih => rw [mapOf_cons,Finmap.mem_insert,ih,List.map_cons,List.mem_cons]

/-- A further element with a new key inserts it. -/
theorem mapOf_concat {list : List α} {a : α} (h : key a∉list.map key) :
    mapOf key value (list++[a])=(mapOf key value list).insert (key a) (value a) := by
  refine Finmap.ext_lookup (fun k => ?_)
  rw [lookup_mapOf,List.find?_append,List.find?_singleton]
  by_cases hk : key a=k
  · subst hk
    have hnone : list.find? (fun b => key b=key a)=none := by
      refine List.find?_eq_none.mpr (fun b hb hsame => h ?_)
      exact List.mem_map.mpr ⟨b,hb,of_decide_eq_true hsame⟩
    rw [hnone,Finmap.lookup_insert,Option.none_or,decide_eq_true rfl]
    rfl
  · rw [Finmap.lookup_insert_of_ne _ (Ne.symm hk),lookup_mapOf,decide_eq_false hk]
    simp only [Bool.false_eq_true,if_false,Option.or_none]

/-- With distinct keys a lookup finds every element. -/
theorem lookup_eq_some_iff {list : List α} (h : (list.map key).Nodup) {k : κ} {v : β} :
    (mapOf key value list).lookup k=some v ↔ ∃ a∈list, key a=k ∧ value a=v := by
  induction list with
  | nil =>
    rw [lookup_mapOf]
    simp only [List.find?_nil,Option.map_none,reduceCtorEq,List.not_mem_nil,false_and,exists_false]
  | cons a rest ih =>
    rw [List.map_cons,List.nodup_cons] at h
    rw [mapOf_cons]
    by_cases hk : k=key a
    · subst hk
      rw [Finmap.lookup_insert]
      refine ⟨fun hv => ⟨a,List.mem_cons_self,rfl,Option.some.inj hv⟩,?_⟩
      rintro ⟨b,hb,hkey,rfl⟩
      rcases List.mem_cons.mp hb with rfl|hb
      · rfl
      · exact absurd (List.mem_map.mpr ⟨b,hb,hkey⟩) h.1
    · rw [Finmap.lookup_insert_of_ne _ hk,ih h.2]
      constructor
      · rintro ⟨b,hb,hpair⟩
        exact ⟨b,List.mem_cons_of_mem a hb,hpair⟩
      · rintro ⟨b,hb,hpair⟩
        rcases List.mem_cons.mp hb with rfl|hb
        · exact absurd hpair.1.symm hk
        · exact ⟨b,hb,hpair⟩

/-- With distinct keys the order does not matter. -/
theorem mapOf_perm {list other : List α} (h : (list.map key).Nodup) (hperm : list.Perm other) :
    mapOf key value list=mapOf key value other := by
  have hother : (other.map key).Nodup := (hperm.map key).nodup_iff.mp h
  refine Finmap.ext_lookup (fun k => Option.ext (fun v => ?_))
  rw [lookup_eq_some_iff h,lookup_eq_some_iff hother]
  exact exists_congr (fun a => and_congr_left (fun _ => hperm.mem_iff))

/-- With distinct keys a packed removal erases the key at its index. -/
theorem mapOf_swapRemove {list : List α} (h : (list.map key).Nodup) {index : ℕ}
    (hindex : index<list.length) :
    ((swapRemove list index).map key).Nodup ∧
      mapOf key value (swapRemove list index)=
        (mapOf key value list).erase (key list[index]) := by
  have hperm := swapRemove_perm hindex
  have hnodup := (hperm.map key).nodup_iff.mp h
  rw [List.map_cons,List.nodup_cons] at hnodup
  refine ⟨hnodup.2,?_⟩
  rw [mapOf_perm h hperm,mapOf_cons]
  refine Finmap.ext_lookup (fun k => ?_)
  by_cases hk : k=key list[index]
  · subst hk
    rw [Finmap.lookup_erase,Finmap.lookup_eq_none,mem_mapOf]
    exact hnodup.1
  · rw [Finmap.lookup_erase_ne hk,Finmap.lookup_insert_of_ne _ hk]

end ComputerSystems.KeyedList
