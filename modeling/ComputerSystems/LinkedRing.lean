import Mathlib.Data.List.Nodup
import Mathlib.Logic.Function.Basic

/-!
# Doubly linked rings

The nodes of a ring are linked in both directions, through a node of its own
that is its head. This module names no particular list. A node is linked out of
its place and linked in behind the head by assigning to four links each; the
ring then holds the list without the node, or with the node in front. A walk
from the head in either direction finds the first node that it looks for, or
comes back to the head.
-/

namespace ComputerSystems.LinkedRing

variable {ι : Type*} {next : ι → ι} {a b y z : ι} {u v l : List ι}

/-- The links lead from a node along others to an end. -/
def Chain (next : ι → ι) : ι → List ι → ι → Prop
  | a,[],z => next a=z
  | a,b::rest,z => next a=b ∧ Chain next b rest z

/-- A chain goes on behind each of its nodes. -/
theorem chain_append : Chain next a (u++b::v) z ↔ Chain next a u b ∧ Chain next b v z := by
  induction u generalizing a with
  | nil => exact Iff.rfl
  | cons c rest ih =>
    rw [List.cons_append]
    exact (and_congr_right fun _ => ih).trans and_assoc.symm

/-- A chain depends on the links of its nodes only. -/
theorem Chain.congr {next' : ι → ι} (h : Chain next a l z) (heq : ∀ c∈a::l, next' c=next c) :
    Chain next' a l z := by
  induction l generalizing a with
  | nil => exact (heq a List.mem_cons_self).trans h
  | cons b rest ih =>
    exact ⟨(heq a List.mem_cons_self).trans h.1,
      ih h.2 (fun c hc => heq c (List.mem_cons_of_mem a hc))⟩

/-- The first link of a chain. -/
theorem Chain.first (h : Chain next a l z) : next a=l.headD z := by
  cases l with
  | nil => exact h
  | cons b rest => exact h.1

section Decidable

variable [DecidableEq ι]

/-- The last node of a chain is linked to another end. -/
theorem Chain.redirect (h : Chain next a l z) (hnodup : (a::l).Nodup) :
    Chain (Function.update next (l.getLastD a) y) a l y := by
  induction l generalizing a with
  | nil => exact Function.update_self a y next
  | cons b rest ih =>
    rw [List.getLastD_cons]
    refine ⟨?_,ih h.2 (List.nodup_cons.mp hnodup).2⟩
    have hlast : a≠rest.getLastD b := by
      intro heq
      refine (List.nodup_cons.mp hnodup).1 ?_
      rw [heq,List.getLastD_eq_getLast?]
      cases hrest : rest.getLast? with
      | none => exact List.mem_cons_self
      | some c => exact List.mem_cons_of_mem b (List.mem_of_getLast? hrest)
    exact (Function.update_of_ne hlast y next).trans h.1

/-- A node is left out of a chain. -/
theorem Chain.bypass (hleft : Chain next a u b) (hright : Chain next b v z)
    (hnodup : (a::(u++v)).Nodup) :
    Chain (Function.update next (u.getLastD a) (next b)) a (u++v) z := by
  have hu : (a::u).Nodup := (List.nodup_append.mp (List.cons_append ▸ hnodup)).1
  cases v with
  | nil =>
    rw [List.append_nil,show next b=z from hright]
    exact hleft.redirect hu
  | cons c rest =>
    rw [hright.1]
    refine chain_append.mpr ⟨hleft.redirect hu,hright.2.congr ?_⟩
    intro d hd
    refine Function.update_of_ne ?_ c next
    rintro rfl
    have hmem : u.getLastD a∈a::u := by
      rw [List.getLastD_eq_getLast?]
      cases hlast : u.getLast? with
      | none => exact List.mem_cons_self
      | some e => exact List.mem_cons_of_mem a (List.mem_of_getLast? hlast)
    exact (List.nodup_append.mp (List.cons_append ▸ hnodup)).2.2 _ hmem _ hd rfl

end Decidable

/-! ## Rings -/

/-- The links of nodes in both directions. -/
structure Links (ι : Type*) where
  /-- The node behind a node. -/
  next : ι → ι
  /-- The node before a node. -/
  prev : ι → ι

/-- From its head around, a ring holds a list of nodes. -/
structure Ring (r : Links ι) (head : ι) (l : List ι) : Prop where
  /-- The links lead around. -/
  forth : Chain r.next head l head
  /-- The links lead around in the other direction. -/
  back : Chain r.prev head l.reverse head
  /-- No node comes twice. -/
  nodup : (head::l).Nodup

variable {r : Links ι} {head : ι}

/-- A head that is linked to itself is an empty ring. -/
theorem ring_nil (hnext : r.next head=head) (hprev : r.prev head=head) : Ring r head [] :=
  ⟨hnext,hprev,List.nodup_singleton head⟩

section Edits

variable [DecidableEq ι]

/-- Link a node out of its place. -/
def Links.unlink (r : Links ι) (b : ι) : Links ι :=
  let r := {r with prev := Function.update r.prev (r.next b) (r.prev b)}
  {r with next := Function.update r.next (r.prev b) (r.next b)}

/-- Link a node in behind the head. -/
def Links.push (r : Links ι) (head b : ι) : Links ι :=
  let r := {r with next := Function.update r.next b (r.next head)}
  let r := {r with prev := Function.update r.prev b head}
  let r := {r with prev := Function.update r.prev (r.next head) b}
  {r with next := Function.update r.next head b}

/-- A node that is linked out leaves the others in their order. -/
theorem Ring.unlink (h : Ring r head (u++b::v)) : Ring (r.unlink b) head (u++v) := by
  obtain ⟨hforth,hback,hnodup⟩ := h
  rw [List.reverse_append,List.reverse_cons,List.append_assoc,List.singleton_append] at hback
  obtain ⟨hbefore,hafter⟩ := chain_append.mp hforth
  obtain ⟨hafter',hbefore'⟩ := chain_append.mp hback
  have hrest : (head::(u++v)).Nodup :=
    hnodup.sublist ((List.Sublist.append_left (List.sublist_cons_self b v) u).cons_cons head)
  have hprev : r.prev b=u.getLastD head := by
    rw [hbefore'.first,List.getLastD_eq_getLast?,List.headD_eq_head?_getD,List.head?_reverse]
  have hnext : r.next b=v.reverse.getLastD head := by
    rw [hafter.first,List.getLastD_eq_getLast?,List.headD_eq_head?_getD,List.getLast?_reverse]
  have hsame : Function.update r.prev (r.next b) (r.prev b) b=r.prev b := by
    by_cases heq : b=r.next b
    · rw [←heq,Function.update_self]
    · exact Function.update_of_ne heq _ _
  refine ⟨?_,?_,hrest⟩
  · rw [Links.unlink]
    simp only [hsame]
    rw [hprev]
    exact hbefore.bypass hafter hrest
  · rw [Links.unlink]
    simp only
    rw [hnext,List.reverse_append]
    refine hafter'.bypass hbefore' ?_
    rw [←List.reverse_append]
    exact List.nodup_cons.mpr ⟨fun hmem => (List.nodup_cons.mp hrest).1 (List.mem_reverse.mp hmem),
      List.nodup_reverse.mpr (List.nodup_cons.mp hrest).2⟩

/-- A node that is linked in is the first one. -/
theorem Ring.push (h : Ring r head l) (hb : b∉head::l) : Ring (r.push head b) head (b::l) := by
  obtain ⟨hforth,hback,hnodup⟩ := h
  have hhead : head≠b := fun heq => hb (heq ▸ List.mem_cons_self)
  have hfirst := hforth.first
  have hfar : b≠r.next head := by
    rw [hfirst]
    rintro rfl
    cases l with
    | nil => exact hhead rfl
    | cons c rest => exact hb (List.mem_cons_of_mem head List.mem_cons_self)
  refine ⟨⟨Function.update_self _ _ _,?_⟩,?_,?_⟩
  · have hlink : (r.push head b).next b=r.next head :=
      (Function.update_of_ne hhead.symm _ _).trans (Function.update_self _ _ _)
    cases l with
    | nil => exact hlink.trans hfirst
    | cons c rest =>
      refine ⟨hlink.trans hfirst,hforth.2.congr ?_⟩
      intro d hd
      have hdh : d≠head := fun heq => (List.nodup_cons.mp hnodup).1 (heq ▸ hd)
      have hdb : d≠b := fun heq => hb (List.mem_cons_of_mem head (heq ▸ hd))
      exact (Function.update_of_ne hdh _ _).trans (Function.update_of_ne hdb _ _)
  · rw [List.reverse_cons]
    have hlast : l.reverse.getLastD head=r.next head := by
      rw [hfirst,List.getLastD_eq_getLast?,List.headD_eq_head?_getD,List.getLast?_reverse]
    have hnext : Function.update r.next b (r.next head) head=r.next head :=
      Function.update_of_ne hhead _ _
    refine chain_append.mpr ⟨?_,?_⟩
    · have hback' : Chain (Function.update r.prev b head) head l.reverse head := by
        refine hback.congr fun d hd => Function.update_of_ne ?_ _ _
        rintro rfl
        rcases List.mem_cons.mp hd with rfl|hd
        · exact hhead rfl
        · exact hb (List.mem_cons_of_mem head (List.mem_reverse.mp hd))
      have hredirect := hback'.redirect (y := b) (List.nodup_cons.mpr
        ⟨fun hmem => (List.nodup_cons.mp hnodup).1 (List.mem_reverse.mp hmem),
          List.nodup_reverse.mpr (List.nodup_cons.mp hnodup).2⟩)
      rw [hlast,←hnext] at hredirect
      exact hredirect
    · have hprev : (r.push head b).prev b=head := by
        refine (Function.update_of_ne ?_ _ _).trans (Function.update_self _ _ _)
        exact fun heq => hfar (heq.trans hnext)
      exact hprev
  · refine List.nodup_cons.mpr ⟨?_,List.nodup_cons.mpr
      ⟨fun hmem => hb (List.mem_cons_of_mem head hmem),(List.nodup_cons.mp hnodup).2⟩⟩
    intro hmem
    rcases List.mem_cons.mp hmem with heq|hmem
    · exact hhead heq
    · exact (List.nodup_cons.mp hnodup).1 hmem

end Edits

/-! ## Walks -/

/-- Walk along the links to the first node to stop at; `none` if the rounds do not
suffice. -/
def walk (next : ι → ι) (stop : ι → Bool) : ℕ → ι → Option ι
  | 0,_ => none
  | rounds+1,a => if stop a=true then some a else walk next stop rounds (next a)

/-- A walk along a chain ends at the first node to stop at, at last at its end. -/
theorem Chain.walk {stop : ι → Bool} {rounds : ℕ} (h : Chain next a l z) (hz : stop z=true)
    (hrounds : l.length<rounds) : walk next stop rounds (next a)=some ((l.find? stop).getD z) := by
  induction l generalizing a rounds with
  | nil =>
    obtain ⟨rounds,rfl⟩ := Nat.exists_eq_succ_of_ne_zero (Nat.ne_of_gt hrounds)
    rw [show next a=z from h,LinkedRing.walk,if_pos hz]
    rfl
  | cons b rest ih =>
    obtain ⟨rounds,rfl⟩ := Nat.exists_eq_succ_of_ne_zero (Nat.ne_of_gt (Nat.zero_lt_of_lt hrounds))
    rw [h.1,LinkedRing.walk]
    cases hb : stop b with
    | true => rw [if_pos rfl,List.find?_cons_of_pos hb,Option.getD_some]
    | false =>
      rw [if_neg Bool.false_ne_true,List.find?_cons_of_neg (by rw [hb]; exact Bool.false_ne_true)]
      exact ih h.2 (Nat.lt_of_succ_lt_succ hrounds)

end ComputerSystems.LinkedRing
