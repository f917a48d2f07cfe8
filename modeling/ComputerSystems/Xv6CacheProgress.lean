import ComputerSystems.Xv6CachePanics

/-!
# No call of the buffer cache waits in vain

Who sleeps in `acquiresleep` sleeps for a buffer that somebody has; who sleeps in
`iderw` sleeps for a buffer in the queue of the driver, and the disk works on the
first one of it. Without new calls the calls in progress come to an end, up to
those that wait for a buffer that is not given back.
-/

namespace ComputerSystems.Xv6Cache

open LinkedRing TransitionSystem

variable {np nb : ℕ} {s s' : State np nb} {b : Fin nb} {p : Fin np} {havedisk1 : Bool}
  {act : Action np nb}

/-- Calls go on and the disk works, but no process begins a call or is killed. -/
def Undisturbed (_ : State np nb) : Action np nb → Prop
  | .go _ => True
  | .ideintr ok => ok=true
  | _ => False

/-- What a process has before it until its call ends. -/
def Place.weight : Place nb → ℕ
  | .idle => 0
  | .readAsleep _ => 0
  | .releasing _ => 1
  | .woken _ _ => 1
  | .waiting _ _ => 2
  | .queueing _ _ => 4
  | .syncing _ _ => 5
  | .checking _ => 6
  | .reading _ => 7

/-- What all processes have before them, and the disk. -/
def State.weight (s : State np nb) : ℕ := ∑ q, (s.place q).weight+s.queue.length

/-- A process that moves makes the sum smaller. -/
theorem weight_moved {place : Place nb} (hless : place.weight<(s.place p).weight) :
    (s.moved p place).weight<s.weight := by
  have hsum : ∑ q, ((s.moved p place).place q).weight+(s.place p).weight=
      ∑ q, (s.place q).weight+place.weight :=
    UpdateSum.sum_update_add Place.weight s.place p place
  have hqueue : (s.moved p place).queue=s.queue := rfl
  unfold State.weight
  rw [hqueue]
  omega

/-- A woken process has no more before it. -/
theorem weight_wakeWaiter (b : Fin nb) (place : Place nb) :
    (place.wakeWaiter b).weight≤place.weight := by
  cases place with
  | waiting call c =>
    rw [Place.wakeWaiter]
    split_ifs
    · exact Nat.le_succ 1
    · exact Nat.le_refl 2
  | _ => exact Nat.le_refl _

/-- An interrupt for a queue that is not empty makes the sum smaller. -/
theorem weight_ideintr {ok : Bool} (hq : s.queue≠[]) : (ideintr ok s).weight<s.weight := by
  obtain ⟨b,rest,hq⟩ := List.exists_cons_of_ne_nil hq
  have hless : (interrupted ok b rest s).weight<s.weight := by
    have hsum : ∑ q, ((s.place q).wakeWaiter b).weight≤∑ q, (s.place q).weight :=
      Finset.sum_le_sum (fun q _ => weight_wakeWaiter b (s.place q))
    change ∑ q, ((s.place q).wakeWaiter b).weight+rest.length<_
    unfold State.weight
    rw [hq,List.length_cons]
    omega
  cases rest with
  | nil =>
    rw [ideintr_one hq]
    exact hless
  | cons c rest =>
    rw [ideintr_more hq]
    unfold State.weight
    rw [idestart_place,idestart_queue]
    exact hless

/-- A process that does not sleep goes on, and has less before it, when the disk has
nothing to do. -/
theorem weight_goOn (h : Kept havedisk1 s) (hrun : s.panic=none) (hempty : s.queue=[])
    (hbusy : s.place p≠.idle ∧ ∀ b, s.place p≠.readAsleep b) :
    ∃ s', goOn havedisk1 p s (s.place p)=some s' ∧ s'.weight<s.weight := by
  have hgood := h.synced.good p
  have hsame : ∀ (x : Buf np) (b : Fin nb), (s.put b x).weight=s.weight := fun _ _ => rfl
  cases hp : s.place p with
  | idle => exact absurd hp hbusy.1
  | readAsleep b => exact absurd hp (hbusy.2 b)
  | reading b =>
    refine ⟨_,rfl,?_⟩
    unfold acquiresleep
    split_ifs
    · rw [←hsame {s.buf b with lock := some p} b]
      exact weight_moved (s := s.put b _) (by
        change 6<(s.place p).weight
        rw [hp]
        exact Nat.lt_succ_self 6)
    · exact weight_moved (by
        rw [hp]
        exact Nat.zero_lt_succ 6)
  | checking b =>
    refine ⟨_,rfl,?_⟩
    unfold breadCheck
    split_ifs
    · exact weight_moved (by
        rw [hp]
        exact Nat.zero_lt_succ 5)
    · exact weight_moved (by
        rw [hp]
        exact Nat.lt_succ_self 5)
  | syncing call b =>
    refine ⟨_,rfl,?_⟩
    have hgo : goOn havedisk1 p s (s.place p)=some (iderwCheck havedisk1 p call b s) := by
      rw [hp]
      rfl
    have hnext := goOn_runs h.toSound h.proper hrun hgo
    unfold iderwCheck at hnext ⊢
    split_ifs at hnext ⊢
    · cases hnext
    · cases hnext
    · cases hnext
    · exact weight_moved (by
        rw [hp]
        exact Nat.lt_succ_self 4)
  | queueing call b =>
    rw [hp] at hgood
    refine ⟨_,rfl,?_⟩
    have hnew : b∉s.queue := h.synced.not_queued (Or.inr ⟨hgood.1,by rw [hp]; rintro ⟨⟩⟩)
    rw [iderwQueue_eq hnew hgood.2,if_pos hempty]
    have hsum : ∑ q, ((s.moved p (.waiting call b)).place q).weight+(s.place p).weight=
        ∑ q, (s.place q).weight+2 := UpdateSum.sum_update_add Place.weight s.place p (.waiting call b)
    have hfour : (s.place p).weight=4 := by rw [hp]; rfl
    have hnext : ((idestart b {s with queue := s.queue++[b]}).moved p (.waiting call b)).weight=
        ∑ q, ((s.moved p (.waiting call b)).place q).weight+(s.queue.length+1) := by
      unfold State.weight State.moved
      simp only [idestart_place,idestart_queue,List.length_append,List.length_singleton]
    rw [hnext,State.weight]
    omega
  | waiting call b =>
    rw [hp] at hgood
    exact absurd (hempty ▸ hgood.2.1) List.not_mem_nil
  | woken call b =>
    rw [hp] at hgood
    refine ⟨_,rfl,?_⟩
    unfold iderwWait
    rw [if_pos (hgood.2.2 (by rw [hempty]; exact List.not_mem_nil))]
    exact weight_moved (by
      rw [hp]
      exact Nat.zero_lt_succ 0)
  | releasing b =>
    refine ⟨_,rfl,?_⟩
    have hless : ((s.put b {s.buf b with refcnt := (s.buf b).refcnt-1}).moved p .idle).weight<
        s.weight := by
      rw [←hsame {s.buf b with refcnt := (s.buf b).refcnt-1} b]
      exact weight_moved (s := s.put b _) (by
        change 0<(s.place p).weight
        rw [hp]
        exact Nat.zero_lt_succ 0)
    unfold brelseList
    simp only
    split_ifs
    · exact hless
    · exact hless

/-- Undisturbed steps are careful. -/
theorem careful_of_undisturbed (h : Undisturbed s act) : Careful havedisk1 s act := by
  cases act with
  | go p => trivial
  | ideintr ok => trivial
  | _ => exact h.elim

/-- Undisturbed steps do not stop the kernel. -/
theorem undisturbed_runs (h : Kept havedisk1 s) (hact : Undisturbed s act)
    (hs : step havedisk1 act s=some s') : s'.panic=none := by
  obtain ⟨hrun,hs'⟩ := step_eq hs
  by_contra hpanic
  obtain ⟨p,dev,blockno,heq,-⟩ := (stepOn_stops_iff h.toSound h.proper hrun
    (careful_of_undisturbed hact) hs').mp hpanic
  rw [heq] at hact
  exact hact

/-- A run of careful callers that was not stopped. -/
def Running (havedisk1 : Bool) (s : State np nb) : Prop := Kept havedisk1 s ∧ s.panic=none

/-- Undisturbed steps go on with such a run. -/
theorem running_step (h : Running havedisk1 s) (hact : Undisturbed s act)
    (hs : step havedisk1 act s=some s') : Running havedisk1 s' := by
  have hnext := undisturbed_runs h.1 hact hs
  exact ⟨kept_step h.1 (careful_of_undisturbed hact) hs hnext,hnext⟩

/-- No process has anything before it but the lock of a buffer. -/
def Settled (s : State np nb) : Prop := ∀ p, s.place p=.idle ∨ ∃ b, s.place p=.readAsleep b

/-- A process or the disk has something to do, or every process is idle or waits for a
lock. -/
theorem running_progress (h : Running havedisk1 s) (hnot : ¬Settled s) :
    ∃ act next, Undisturbed s act ∧ step havedisk1 act s=some next ∧ next.weight<s.weight := by
  have hstep : ∀ act : Action np nb, step havedisk1 act s=stepOn havedisk1 act s :=
    fun act => if_pos h.2
  by_cases hempty : s.queue=[]
  · obtain ⟨p,hp⟩ := not_forall.mp hnot
    have hbusy : s.place p≠.idle ∧ ∀ b, s.place p≠.readAsleep b :=
      ⟨fun heq => hp (Or.inl heq),fun b heq => hp (Or.inr ⟨b,heq⟩)⟩
    obtain ⟨next,hnext,hless⟩ := weight_goOn h.1 h.2 hempty hbusy
    exact ⟨.go p,next,trivial,(hstep _).trans hnext,hless⟩
  · exact ⟨.ideintr true,ideintr true s,rfl,hstep _,weight_ideintr hempty⟩

/-- In every run of careful callers that was not stopped, somebody has the buffer that a
process in `acquiresleep` sleeps for, and the disk works on the first buffer of the
queue when a process sleeps in `iderw`; and without new calls every call comes to its
end, or to a sleep for a buffer that is not given back. -/
theorem calls_finish {disk : ℕ → ℕ → Block}
    (hs : Reachable (step havedisk1) (Careful havedisk1) (booted np nb disk) s)
    (hrun : s.panic=none) :
    (∀ p b, s.place p=.readAsleep b → ∃ q, (s.buf b).lock=some q) ∧
      (∀ p call b, s.place p=.waiting call b → b∈s.queue ∧
        ∃ first, s.queue.head?=some first ∧ s.command=some (s.buf first).command) ∧
      ∃ last, Reachable (step havedisk1) Undisturbed s last ∧ last.panic=none ∧
        ∀ p, last.place p=.idle ∨ ∃ b q, last.place p=.readAsleep b ∧ (last.buf b).lock=some q := by
  have h := kept_reachable hs hrun
  refine ⟨fun p b hp => Option.ne_none_iff_exists'.mp (h.synced.lock_asleep hp),
    fun p call b hp => ?_,?_⟩
  · have hgood := h.synced.good p
    rw [hp] at hgood
    obtain ⟨first,rest,hq⟩ := List.exists_cons_of_ne_nil (List.ne_nil_of_mem hgood.2.1)
    refine ⟨hgood.2.1,first,by rw [hq]; rfl,?_⟩
    rw [h.synced.command,hq]
    rfl
  · have hinv : ∀ (act : Action np nb) before next, Running havedisk1 before →
        Undisturbed before act → step havedisk1 act before=some next → Running havedisk1 next :=
      fun _ _ _ hbefore hact hstep => running_step hbefore hact hstep
    obtain ⟨last,hreach,hdone⟩ := exists_done_of State.weight hinv
      (fun _ hrunning hnot => running_progress hrunning hnot) s ⟨h,hrun⟩
    have hlast := hreach.invariant (Running havedisk1) ⟨h,hrun⟩ hinv
    refine ⟨last,hreach,hlast.2,fun p => (hdone p).imp_right ?_⟩
    rintro ⟨b,hb⟩
    obtain ⟨q,hq⟩ := Option.ne_none_iff_exists'.mp (hlast.1.synced.lock_asleep hb)
    exact ⟨b,q,hb,hq⟩

/-- A process reads a block and another one asks for it; the first one waits for the disk. -/
def twoReaders (p q : Fin np) : List (Action np nb) :=
  [.bread p 1 7,.go p,.go p,.go p,.go p,.bread q 1 7,.go q]

/-- The second reader sleeps for the buffer, the first one for the disk, and the calls
come to their ends. -/
theorem readers_wait :
    ∃ s : State 2 1, follow (step true) (Careful true) (twoReaders 0 1)
        (booted 2 1 (fun _ _ _ => 0))=some s ∧
      (s.place 0=.waiting .bread 0 ∧ s.place 1=.readAsleep 0) ∧
      (∀ p b, s.place p=.readAsleep b → ∃ q, (s.buf b).lock=some q) ∧
      (∀ p call b, s.place p=.waiting call b → b∈s.queue ∧
        ∃ first, s.queue.head?=some first ∧ s.command=some (s.buf first).command) ∧
      ∃ last, Reachable (step true) Undisturbed s last ∧ last.panic=none ∧
        ∀ p, last.place p=.idle ∨ ∃ b q, last.place p=.readAsleep b ∧ (last.buf b).lock=some q := by
  have hrun : ∃ s : State 2 1, follow (step true) (Careful true) (twoReaders 0 1)
      (booted 2 1 (fun _ _ _ => 0))=some s ∧
      (s.place 0=.waiting .bread 0 ∧ s.place 1=.readAsleep 0) ∧ s.panic=none :=
    ⟨_,rfl,⟨rfl,rfl⟩,rfl⟩
  obtain ⟨s,hs,hplaces,hpanic⟩ := hrun
  exact ⟨s,hs,hplaces,calls_finish (reachable_of_follow hs) hpanic⟩

end ComputerSystems.Xv6Cache
