import ComputerSystems.UpdateSum
import ComputerSystems.Xv6Cache
import Mathlib.Algebra.Order.BigOperators.Group.Finset
import Mathlib.Data.List.FinRange

/-!
# The list of buffers

The list of the buffer cache holds every buffer once, whatever was moved to its
front. Of several buffers with the number of one block only the first one in the
list was ever used for it: the others are as `binit` left them. The references
to a buffer are the processes in a call for it and the process that has it.
-/

namespace ComputerSystems.Xv6Cache

open LinkedRing TransitionSystem

variable {np nb : ℕ} {s s' : State np nb} {l u v : List (Fin nb)} {b c : Fin nb} {p : Fin np}

/-- Two buffers hold the same block. -/
def Buf.SameBlock (x y : Buf np) : Prop := x.dev=y.dev ∧ x.blockno=y.blockno

/-- A buffer that was never used, or is not used any more and holds nothing. -/
def Buf.Blank (x : Buf np) : Prop := x.refcnt=0 ∧ x.valid=false ∧ x.dirty=false

/-- The list holds all buffers, and of those for one block only the first is used. -/
structure Listed (s : State np nb) (l : List (Fin nb)) : Prop where
  /-- The links lead through the list. -/
  ring : Ring s.links none (l.map some)
  /-- Every buffer is in it once. -/
  perm : l.Perm (List.finRange nb)
  /-- A second buffer for a block is blank. -/
  single : l.Pairwise (fun b c => (s.buf b).SameBlock (s.buf c) → (s.buf c).Blank)

theorem Listed.mem (h : Listed s l) (b : Fin nb) : b∈l := h.perm.mem_iff.mpr (List.mem_finRange b)

theorem Listed.nodup (h : Listed s l) : l.Nodup := h.perm.nodup_iff.mpr (List.nodup_finRange nb)

theorem Listed.length (h : Listed s l) : l.length=nb :=
  h.perm.length_eq.trans List.length_finRange

/-- Of two buffers for one block, one is blank. -/
theorem Listed.one (h : Listed s l) (hne : b≠c) (hsame : (s.buf b).SameBlock (s.buf c)) :
    (s.buf b).Blank ∨ (s.buf c).Blank := by
  obtain ⟨u,v,rfl⟩ := List.append_of_mem (h.mem b)
  obtain ⟨-,hbehind,hacross⟩ := List.pairwise_append.mp h.single
  rcases List.mem_append.mp (h.mem c) with hc|hc
  · exact Or.inl (hacross c hc b List.mem_cons_self ⟨hsame.1.symm,hsame.2.symm⟩)
  · rcases List.mem_cons.mp hc with heq|hc
    · exact absurd heq.symm hne
    · exact Or.inr ((List.pairwise_cons.mp hbehind).1 c hc hsame)

/-! ## The loops of `bget` -/

/-- A search among the linked buffers is one in the list. -/
theorem find_stops (s : State np nb) (test : Buf np → Bool) (l : List (Fin nb)) :
    ((l.map some).find? (s.stops test)).getD none=l.find? (fun b => test (s.buf b)) := by
  rw [List.find?_map]
  have htest : s.stops test∘some=fun b => test (s.buf b) := rfl
  rw [htest]
  cases l.find? (fun b => test (s.buf b)) <;> rfl

/-- The loop from the front ends at the first buffer that it looks for. -/
theorem Listed.walk_next (h : Listed s l) (test : Buf np → Bool) :
    walk s.links.next (s.stops test) (nb+1) (s.links.next none)=
      some (l.find? (fun b => test (s.buf b))) := by
  rw [h.ring.forth.walk rfl (by rw [List.length_map,h.length]; exact Nat.lt_succ_self nb),
    find_stops]

/-- The loop from the end ends at the last buffer that it looks for. -/
theorem Listed.walk_prev (h : Listed s l) (test : Buf np → Bool) :
    walk s.links.prev (s.stops test) (nb+1) (s.links.prev none)=
      some (l.reverse.find? (fun b => test (s.buf b))) := by
  have hback := h.ring.back
  rw [←List.map_reverse] at hback
  rw [hback.walk rfl (by rw [List.length_map,List.length_reverse,h.length]; exact Nat.lt_succ_self nb),
    find_stops]

/-- What `bget` does: it takes the first buffer for the block; or the last one that is
unused, if no buffer holds the block; or it stops the kernel. -/
theorem Listed.bget_cases (h : Listed s l) (p : Fin np) (dev blockno : ℕ) :
    (∃ b u v, l=u++b::v ∧ (s.buf b).names dev blockno=true ∧
      (∀ c∈u, (s.buf c).names dev blockno=false) ∧
      bget p dev blockno s=
        some ((s.put b {s.buf b with refcnt := (s.buf b).refcnt+1}).moved p (.reading b))) ∨
    (∃ b, (∀ c, (s.buf c).names dev blockno=false) ∧ (s.buf b).unused=true ∧
      bget p dev blockno s=
        some ((s.put b
          {s.buf b with dev,blockno,valid := false,dirty := false,refcnt := 1}).moved p
            (.reading b))) ∨
    ((∀ c, (s.buf c).names dev blockno=false) ∧ (∀ c, (s.buf c).unused=false) ∧
      bget p dev blockno s=some (s.stopped "bget: no buffers")) := by
  unfold bget
  rw [h.walk_next,h.walk_prev]
  cases hfound : l.find? (fun b => (s.buf b).names dev blockno) with
  | some b =>
    obtain ⟨hb,u,v,hl,hu⟩ := List.find?_eq_some_iff_append.mp hfound
    refine Or.inl ⟨b,u,v,hl,hb,?_,rfl⟩
    intro c hc
    exact Bool.not_eq_true' _ ▸ hu c hc
  | none =>
    have hnone : ∀ c, (s.buf c).names dev blockno=false := fun c =>
      Bool.not_eq_true _ ▸ List.find?_eq_none.mp hfound c (h.mem c)
    cases hunused : l.reverse.find? (fun b => (s.buf b).unused) with
    | some b =>
      have hb := List.find?_some (p := fun b => (s.buf b).unused) hunused
      exact Or.inr (Or.inl ⟨b,hnone,hb,rfl⟩)
    | none =>
      refine Or.inr (Or.inr ⟨hnone,fun c => ?_,rfl⟩)
      exact Bool.not_eq_true _ ▸ List.find?_eq_none.mp hunused c (List.mem_reverse.mpr (h.mem c))

/-! ## What keeps the list -/

/-- Buffers may be changed while they keep their blocks, unless they were blank. -/
theorem Listed.keep (h : Listed s l) (hlinks : s'.links=s.links)
    (hblock : ∀ b, (s'.buf b).SameBlock (s.buf b))
    (hblank : ∀ b, (s.buf b).Blank → (s'.buf b).Blank) : Listed s' l := by
  refine ⟨hlinks ▸ h.ring,h.perm,h.single.imp fun {b c} hsingle hsame => ?_⟩
  refine hblank c (hsingle ⟨?_,?_⟩)
  · exact (hblock b).1.symm.trans (hsame.1.trans (hblock c).1)
  · exact (hblock b).2.symm.trans (hsame.2.trans (hblock c).2)

/-- Only what is in the buffers matters, and the links. -/
theorem Listed.congr (h : Listed s l) (hlinks : s'.links=s.links) (hbuf : s'.buf=s.buf) :
    Listed s' l :=
  h.keep hlinks (fun _ => hbuf ▸ ⟨rfl,rfl⟩) (fun _ hblank => hbuf ▸ hblank)

/-- One buffer may be changed when no other one that is used holds its new block. -/
theorem Listed.change {x : Buf np} (h : Listed s (u++b::v))
    (hbefore : ∀ c∈u, (s.buf c).SameBlock x → x.Blank)
    (hbehind : ∀ c∈v, x.SameBlock (s.buf c) → (s.buf c).Blank) :
    Listed (s.put b x) (u++b::v) := by
  have hnodup := h.nodup
  rw [List.nodup_append,List.nodup_cons] at hnodup
  obtain ⟨-,⟨hbv,-⟩,hacross⟩ := hnodup
  have hu : ∀ c∈u, (s.put b x).buf c=s.buf c := fun c hc =>
    put_other s x (hacross c hc b List.mem_cons_self)
  have hv : ∀ c∈v, (s.put b x).buf c=s.buf c := fun c hc =>
    put_other s x (fun heq => hbv (heq ▸ hc))
  obtain ⟨hsu,hsv,hsuv⟩ := List.pairwise_append.mp h.single
  refine ⟨h.ring,h.perm,List.pairwise_append.mpr ⟨?_,List.pairwise_cons.mpr ⟨?_,?_⟩,?_⟩⟩
  · refine hsu.imp_of_mem fun {c d} hc hd hsingle => ?_
    rw [hu c hc,hu d hd]
    exact hsingle
  · intro c hc
    rw [hv c hc,put_self]
    exact hbehind c hc
  · refine (List.pairwise_cons.mp hsv).2.imp_of_mem fun {c d} hc hd hsingle => ?_
    rw [hv c hc,hv d hd]
    exact hsingle
  · intro c hc d hd
    rw [hu c hc]
    rcases List.mem_cons.mp hd with rfl|hd
    · rw [put_self]
      exact hbefore c hc
    · rw [hv d hd]
      exact hsuv c hc d (List.mem_cons_of_mem b hd)

/-- A buffer that was in use is moved to the front. -/
theorem Listed.toFront (h : Listed s (u++b::v)) (hused : ¬(s.buf b).Blank) :
    Listed {s with links := (s.links.unlink (some b)).push none (some b)} (b::(u++v)) := by
  have hnodup := h.nodup
  have hring : Ring (s.links.unlink (some b)) none ((u++v).map some) := by
    have hring := h.ring
    rw [List.map_append,List.map_cons] at hring
    rw [List.map_append]
    exact hring.unlink
  obtain ⟨hsu,hsv,hsuv⟩ := List.pairwise_append.mp h.single
  refine ⟨hring.push ?_,List.perm_middle.symm.trans h.perm,List.pairwise_cons.mpr ⟨?_,?_⟩⟩
  · intro hmem
    obtain ⟨c,hc,heq⟩ := List.mem_map.mp ((List.mem_cons.mp hmem).resolve_left (by rintro ⟨⟩))
    cases heq
    exact (List.nodup_cons.mp (List.nodup_middle.mp hnodup)).1 hc
  · intro c hc hsame
    rcases List.mem_append.mp hc with hc|hc
    · exact absurd (hsuv c hc b List.mem_cons_self ⟨hsame.1.symm,hsame.2.symm⟩) hused
    · exact (List.pairwise_cons.mp hsv).1 c hc hsame
  · exact List.pairwise_append.mpr ⟨hsu,(List.pairwise_cons.mp hsv).2,
      fun c hc d hd => hsuv c hc d (List.mem_cons_of_mem b hd)⟩

/-- `binit` puts every buffer into the list. -/
theorem ring_binit (nb : ℕ) : Ring (binit nb) none ((List.finRange nb).reverse.map some) := by
  have hpush : ∀ (todo l : List (Fin nb)) (r : Links (Option (Fin nb))), (todo.reverse++l).Nodup →
      Ring r none (l.map some) →
      Ring (todo.foldl (fun r b => r.push none (some b)) r) none ((todo.reverse++l).map some) := by
    intro todo
    induction todo with
    | nil => exact fun l r _ hr => hr
    | cons b rest ih =>
      intro l r hnodup hr
      rw [List.reverse_cons,List.append_assoc,List.singleton_append] at hnodup ⊢
      refine ih (b::l) _ hnodup (hr.push ?_)
      intro hmem
      obtain ⟨c,hc,heq⟩ := List.mem_map.mp ((List.mem_cons.mp hmem).resolve_left (by rintro ⟨⟩))
      cases heq
      exact (List.nodup_cons.mp (List.nodup_append.mp hnodup).2.1).1 hc
  have hall := hpush (List.finRange nb) [] {next := fun _ => none,prev := fun _ => none}
    (by rw [List.append_nil]; exact List.nodup_reverse.mpr (List.nodup_finRange nb))
    (ring_nil rfl rfl)
  rw [List.append_nil] at hall
  exact hall

/-- The list at the beginning. -/
theorem listed_booted (disk : ℕ → ℕ → Block) :
    Listed (booted np nb disk) (List.finRange nb).reverse :=
  ⟨ring_binit nb,List.reverse_perm _,
    List.pairwise_iff_forall_sublist.mpr (fun _ _ => ⟨rfl,rfl,rfl⟩)⟩

/-! ## References -/

/-- The references of a process in a call for a buffer that it does not have. -/
def Place.refs (b : Fin nb) : Place nb → ℕ
  | .reading c => if c=b then 1 else 0
  | .readAsleep c => if c=b then 1 else 0
  | .releasing c => if c=b then 1 else 0
  | _ => 0

/-- The references of processes in calls. -/
def State.refs (s : State np nb) (b : Fin nb) : ℕ := ∑ q, (s.place q).refs b

/-- The reference of the process that has the buffer. -/
def Buf.taken (x : Buf np) : ℕ := if x.lock=none then 0 else 1

/-- Every reference belongs to a process. -/
def Counted (s : State np nb) : Prop := ∀ b, (s.buf b).refcnt=s.refs b+(s.buf b).taken

/-- A process that moves takes its reference with it. -/
theorem refs_moved (s : State np nb) (p : Fin np) (place : Place nb) (b : Fin nb) :
    (s.moved p place).refs b+(s.place p).refs b=s.refs b+place.refs b :=
  UpdateSum.sum_update_add (fun place : Place nb => place.refs b) s.place p place

/-- A process woken in `acquiresleep` keeps its reference. -/
theorem refs_wakeReader (c b : Fin nb) (place : Place nb) :
    (place.wakeReader c).refs b=place.refs b := by
  cases place with
  | readAsleep d =>
    rw [Place.wakeReader]
    split_ifs <;> rfl
  | _ => rfl

/-- A process woken in `iderw` keeps its reference. -/
theorem refs_wakeWaiter (c b : Fin nb) (place : Place nb) :
    (place.wakeWaiter c).refs b=place.refs b := by
  cases place with
  | waiting call d =>
    rw [Place.wakeWaiter]
    split_ifs <;> rfl
  | _ => rfl

/-- A buffer that a process refers to is not blank. -/
theorem Counted.used (h : Counted s) (hp : (s.place p).refs b≠0) : (s.buf b).refcnt≠0 := by
  have hone : (s.place p).refs b ≤ s.refs b :=
    Finset.single_le_sum (f := fun q => (s.place q).refs b) (fun _ _ => Nat.zero_le _)
      (Finset.mem_univ p)
  rw [h b]
  omega

/-- A buffer that a process has is not blank. -/
theorem Counted.had (h : Counted s) (hb : (s.buf b).lock=some p) : (s.buf b).refcnt≠0 := by
  rw [h b,Buf.taken,if_neg (by rw [hb]; rintro ⟨⟩)]
  exact Nat.succ_ne_zero _

/-- Nobody has a buffer without references. -/
theorem Counted.free (h : Counted s) (hb : (s.buf b).refcnt=0) : (s.buf b).lock=none := by
  cases hlock : (s.buf b).lock with
  | none => rfl
  | some q => exact absurd hb (h.had hlock)

/-- The references at the beginning. -/
theorem counted_booted (disk : ℕ → ℕ → Block) : Counted (booted np nb disk) := by
  intro b
  have hnone : (booted np nb disk).refs b=0 := Finset.sum_eq_zero (fun _ _ => rfl)
  rw [hnone]
  rfl

end ComputerSystems.Xv6Cache
