import ComputerSystems.Xv6CacheExclusion

/-!
# What stops the buffer cache

The callers of the cache ask for blocks that the disks have, and write and give
back the buffers that they have. Then nothing but `bget` calls `panic`: it does
so exactly when no buffer holds the block and every buffer is referred to or
pinned.
-/

namespace ComputerSystems.Xv6Cache

open LinkedRing TransitionSystem

variable {np nb : ℕ} {s s' : State np nb} {b c : Fin nb} {p q : Fin np} {havedisk1 : Bool}
  {act : Action np nb} {x : Buf np}

/-- A block that the disks have. -/
def OnDisk (havedisk1 : Bool) (dev blockno : ℕ) : Prop :=
  dev<2 ∧ blockno<fsSize ∧ (dev=0 ∨ havedisk1=true)

instance (havedisk1 : Bool) (dev blockno : ℕ) : Decidable (OnDisk havedisk1 dev blockno) :=
  inferInstanceAs (Decidable (_ ∧ _))

/-- Callers ask for blocks that the disks have, and write and give back what they have. -/
def Careful (havedisk1 : Bool) (s : State np nb) : Action np nb → Prop
  | .bread _ dev blockno => OnDisk havedisk1 dev blockno
  | .bwrite p b => (s.buf b).lock=some p
  | .brelse p b => (s.buf b).lock=some p
  | .ideintr _ => True
  | .store _ _ _ => True
  | .pin _ _ => True
  | .go _ => True
  | .kill _ => True

instance (havedisk1 : Bool) (s : State np nb) (act : Action np nb) :
    Decidable (Careful havedisk1 s act) :=
  match act with
  | .bread _ dev blockno => inferInstanceAs (Decidable (OnDisk havedisk1 dev blockno))
  | .bwrite p b => inferInstanceAs (Decidable ((s.buf b).lock=some p))
  | .brelse p b => inferInstanceAs (Decidable ((s.buf b).lock=some p))
  | .ideintr _ => inferInstanceAs (Decidable True)
  | .store _ _ _ => inferInstanceAs (Decidable True)
  | .pin _ _ => inferInstanceAs (Decidable True)
  | .go _ => inferInstanceAs (Decidable True)
  | .kill _ => inferInstanceAs (Decidable True)

/-- The buffers are for blocks that the disks have. -/
def Proper (havedisk1 : Bool) (s : State np nb) : Prop :=
  ∀ b, OnDisk havedisk1 (s.buf b).dev (s.buf b).blockno

/-- The buffers stay with blocks that the disks have. -/
theorem proper_stepOn (h : Sound s) (hproper : Proper havedisk1 s)
    (hcareful : Careful havedisk1 s act) (hs : stepOn havedisk1 act s=some s') :
    Proper havedisk1 s' := by
  intro c
  rcases block_stepOn h hs c with ⟨hdev,hblockno⟩|⟨-,p,dev,blockno,rfl,hdev,hblockno⟩
  · rw [hdev,hblockno]
    exact hproper c
  · rw [hdev,hblockno]
    exact hcareful

/-! ## Stopping -/

/-- The disk can be started for a block that it has. -/
theorem idestart_runs (hb : (s.buf b).blockno<fsSize) (hrun : s.panic=none) :
    (idestart b s).panic=none := by
  unfold idestart
  rw [if_neg (Nat.not_le_of_lt hb)]
  exact hrun

/-- A process does not stop the kernel when it goes on in its call. -/
theorem goOn_runs (h : Sound s) (hproper : Proper havedisk1 s) (hrun : s.panic=none)
    (hs : goOn havedisk1 p s (s.place p)=some s') : s'.panic=none := by
  have hgood := h.synced.good p
  cases hp : s.place p with
  | reading b =>
    rw [hp] at hs
    cases hs
    unfold acquiresleep
    split_ifs
    · exact hrun
    · exact hrun
  | checking b =>
    rw [hp] at hs
    cases hs
    unfold breadCheck
    split_ifs
    · exact hrun
    · exact hrun
  | syncing call b =>
    rw [hp] at hs hgood
    cases hs
    obtain ⟨-,-,hdrive⟩ := hproper b
    unfold iderwCheck
    rw [if_neg (not_not.mpr hgood.1),if_neg (by rw [hgood.2.not_synced]; exact Bool.false_ne_true),
      if_neg]
    · exact hrun
    · rintro ⟨hdev,hnone⟩
      rcases hdrive with hzero|hdisk1
      · exact hdev hzero
      · rw [hdisk1] at hnone
        cases hnone
  | queueing call b =>
    rw [hp] at hs hgood
    cases hs
    have hnew : b∉s.queue := h.synced.not_queued (Or.inr ⟨hgood.1,by rw [hp]; rintro ⟨⟩⟩)
    rw [iderwQueue_eq hnew hgood.2]
    split_ifs
    · exact idestart_runs (s := {s with queue := s.queue++[b]}) (hproper b).2.1 hrun
    · exact hrun
  | woken call b =>
    rw [hp] at hs
    cases hs
    unfold iderwWait
    split_ifs
    · exact hrun
    · exact hrun
  | releasing b =>
    rw [hp] at hs
    cases hs
    unfold brelseList
    simp only
    split_ifs
    · exact hrun
    · exact hrun
  | idle =>
    rw [hp] at hs
    cases hs
  | readAsleep b =>
    rw [hp] at hs
    cases hs
  | waiting call b =>
    rw [hp] at hs
    cases hs

/-- An interrupt does not stop the kernel. -/
theorem ideintr_runs {ok : Bool} (hproper : Proper havedisk1 s) (hrun : s.panic=none) :
    (ideintr ok s).panic=none := by
  cases hq : s.queue with
  | nil =>
    rw [ideintr_nil hq]
    exact hrun
  | cons b rest =>
    cases rest with
    | nil =>
      rw [ideintr_one hq]
      exact hrun
    | cons c rest =>
      rw [ideintr_more hq]
      refine idestart_runs ?_ hrun
      have hblock : ((interrupted ok b (c::rest) s).buf c).SameBlock (s.buf c) :=
        sameBlock_put (x := (s.buf b).done ok
          (if ok=true then carriedOut s.disk s.command else s.disk) s.command) ⟨rfl,rfl⟩ c
      rw [hblock.2]
      exact (hproper c).2.1

/-- A step of careful callers stops the kernel exactly when it is a `bread` of a block that
no buffer holds, while every buffer is referred to or pinned. -/
theorem stepOn_stops_iff (h : Sound s) (hproper : Proper havedisk1 s) (hrun : s.panic=none)
    (hcareful : Careful havedisk1 s act) (hs : stepOn havedisk1 act s=some s') :
    s'.panic≠none ↔ ∃ p dev blockno, act=.bread p dev blockno ∧
      ∀ c, ¬((s.buf c).dev=dev ∧ (s.buf c).blockno=blockno) ∧
        ((s.buf c).refcnt≠0 ∨ (s.buf c).dirty=true) := by
  have hnever : (∀ p dev blockno, act≠.bread p dev blockno) → s'.panic=none →
      (s'.panic≠none ↔ ∃ p dev blockno, act=.bread p dev blockno ∧
        ∀ c, ¬((s.buf c).dev=dev ∧ (s.buf c).blockno=blockno) ∧
          ((s.buf c).refcnt≠0 ∨ (s.buf c).dirty=true)) := by
    intro hact hnone
    refine ⟨fun hpanic => absurd hnone hpanic,?_⟩
    rintro ⟨p,dev,blockno,heq,-⟩
    exact absurd heq (hact p dev blockno)
  cases act with
  | bread p dev blockno =>
    simp only [stepOn] at hs
    split_ifs at hs
    obtain ⟨l,hl⟩ := h.listed
    rcases hl.bget_cases p dev blockno with ⟨b,u,v,-,hb,-,heq⟩|⟨b,hnone,hb,heq⟩|⟨hnone,hunused,heq⟩
    · cases heq.symm.trans hs
      refine ⟨fun hpanic => absurd hrun hpanic,?_⟩
      rintro ⟨p,dev,blockno,hact,hall⟩
      cases hact
      exact absurd (of_decide_eq_true hb) (hall b).1
    · cases heq.symm.trans hs
      refine ⟨fun hpanic => absurd hrun hpanic,?_⟩
      rintro ⟨p,dev,blockno,hact,hall⟩
      have hunused : (s.buf b).refcnt=0 ∧ (s.buf b).dirty=false := of_decide_eq_true hb
      rcases (hall b).2 with hrefcnt|hdirty
      · exact absurd hunused.1 hrefcnt
      · exact absurd (hdirty.symm.trans hunused.2) (by rintro ⟨⟩)
    · cases heq.symm.trans hs
      refine ⟨fun _ => ⟨p,dev,blockno,rfl,fun c => ⟨of_decide_eq_false (hnone c),?_⟩⟩,
        fun _ => by rintro ⟨⟩⟩
      have hused : ¬((s.buf c).refcnt=0 ∧ (s.buf c).dirty=false) := of_decide_eq_false (hunused c)
      by_cases hzero : (s.buf c).refcnt=0
      · exact Or.inr (Bool.not_eq_false _ ▸ fun hclean => hused ⟨hzero,hclean⟩)
      · exact Or.inl hzero
  | bwrite p b =>
    simp only [stepOn] at hs
    split_ifs at hs
    cases hs
    refine hnever (by rintro q dev blockno ⟨⟩) ?_
    unfold bwrite
    rw [if_pos (show (s.buf b).lock=some p from hcareful)]
    exact hrun
  | brelse p b =>
    simp only [stepOn] at hs
    split_ifs at hs
    cases hs
    refine hnever (by rintro q dev blockno ⟨⟩) ?_
    unfold brelse
    rw [if_pos (show (s.buf b).lock=some p from hcareful)]
    exact hrun
  | store p b data =>
    simp only [stepOn] at hs
    split_ifs at hs
    cases hs
    exact hnever (by rintro q dev blockno ⟨⟩) hrun
  | pin p b =>
    simp only [stepOn] at hs
    split_ifs at hs
    cases hs
    exact hnever (by rintro q dev blockno ⟨⟩) hrun
  | go p => exact hnever (by rintro q dev blockno ⟨⟩) (goOn_runs h hproper hrun hs)
  | kill p =>
    obtain ⟨place,-,heq⟩ := Option.map_eq_some_iff.mp hs
    cases heq
    exact hnever (by rintro q dev blockno ⟨⟩) hrun
  | ideintr ok =>
    cases hs
    exact hnever (by rintro q dev blockno ⟨⟩) (ideintr_runs hproper hrun)

/-- The state of a run of careful callers that was not stopped. -/
structure Kept (havedisk1 : Bool) (s : State np nb) : Prop extends Sound s where
  /-- The buffers are for blocks that the disks have. -/
  proper : Proper havedisk1 s

/-- The kernel when it comes up. -/
theorem kept_booted (disk : ℕ → ℕ → Block) : Kept havedisk1 (booted np nb disk) :=
  ⟨sound_booted disk,fun _ => ⟨Nat.zero_lt_succ 1,Nat.zero_lt_succ 999,Or.inl rfl⟩⟩

/-- Careful callers keep the state. -/
theorem kept_step (h : Kept havedisk1 s) (hcareful : Careful havedisk1 s act)
    (hs : step havedisk1 act s=some s') (hpanic : s'.panic=none) : Kept havedisk1 s' :=
  ⟨sound_step h.toSound hs hpanic,proper_stepOn h.toSound h.proper hcareful (step_eq hs).2⟩

/-- Runs of careful callers keep the state. -/
theorem kept_reachable {disk : ℕ → ℕ → Block}
    (hs : Reachable (step havedisk1) (Careful havedisk1) (booted np nb disk) s)
    (hrun : s.panic=none) : Kept havedisk1 s := by
  refine hs.invariant (fun s => s.panic=none → Kept havedisk1 s) (fun _ => kept_booted disk) ?_ hrun
  exact fun act before next h hcareful hstep hnext =>
    kept_step (h (step_eq hstep).1) hcareful hstep hnext

/-- In every run of careful callers a step stops the kernel exactly when it is a `bread` of
a block that no buffer holds, while every buffer is referred to or pinned. -/
theorem bget_stops_iff {disk : ℕ → ℕ → Block}
    (hs : Reachable (step havedisk1) (Careful havedisk1) (booted np nb disk) s)
    (hcareful : Careful havedisk1 s act) (hstep : step havedisk1 act s=some s') :
    s'.panic≠none ↔ ∃ p dev blockno, act=.bread p dev blockno ∧
      ∀ c, ¬((s.buf c).dev=dev ∧ (s.buf c).blockno=blockno) ∧
        ((s.buf c).refcnt≠0 ∨ (s.buf c).dirty=true) := by
  obtain ⟨hrun,hstep'⟩ := step_eq hstep
  have h := kept_reachable hs hrun
  exact stepOn_stops_iff h.toSound h.proper hrun hcareful hstep'

/-- With one buffer, a process that refers to it makes the next `bread` stop the kernel. -/
theorem second_block_stops :
    ∃ s s' : State 2 1, follow (step true) (Careful true) [.bread 0 1 7]
        (booted 2 1 (fun _ _ _ => 0))=some s ∧ step true (.bread 1 1 8) s=some s' ∧
      s'.panic=some "bget: no buffers" ∧
      ∃ p dev blockno, (Action.bread 1 1 8 : Action 2 1)=.bread p dev blockno ∧
        ∀ c, ¬((s.buf c).dev=dev ∧ (s.buf c).blockno=blockno) ∧
          ((s.buf c).refcnt≠0 ∨ (s.buf c).dirty=true) := by
  have hrun : ∃ s s' : State 2 1, follow (step true) (Careful true) [.bread 0 1 7]
      (booted 2 1 (fun _ _ _ => 0))=some s ∧ step true (.bread 1 1 8) s=some s' ∧
      s'.panic=some "bget: no buffers" := ⟨_,_,rfl,rfl,rfl⟩
  obtain ⟨s,s',hs,hstep,hpanic⟩ := hrun
  have hcareful : Careful true s (.bread 1 1 8) := (by decide : OnDisk true 1 8)
  exact ⟨s,s',hs,hstep,hpanic,
    (bget_stops_iff (reachable_of_follow hs) hcareful hstep).mp (by rw [hpanic]; rintro ⟨⟩)⟩

end ComputerSystems.Xv6Cache
