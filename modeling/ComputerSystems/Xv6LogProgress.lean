import ComputerSystems.Xv6LogRefinement

/-!
# Nobody sleeps in vain in front of the log

A process that sleeps in `begin_op` sleeps while an operation is under way or a
commit is running, and both end with a wake-up. So from every state of a running
kernel the operations under way can be ended, without a crash, until every
process has gone through: the log can neither lose a wake-up nor lock up.
-/

namespace ComputerSystems.Xv6Log

open RedoLog TransitionSystem UpdateSum

variable {np : ℕ} {c : Layout} {most : ℕ} {s s' : State np} {a : Store ℕ Block}

/-! ## Sleeping processes -/

/-- Whoever sleeps waits for an operation or a commit to end. -/
def Sleepers (s : State np) : Prop :=
  ∀ p, s.place p=.asleep → s.committing=true ∨ 0<s.outstanding

/-- After a wake-up nobody sleeps. -/
theorem sleepers_wakeup (s : State np) : Sleepers s.wakeup := by
  intro p hp
  unfold State.wakeup at hp
  dsimp only at hp
  split_ifs at hp with hsleep
  exact absurd hp hsleep

/-- A process that does not fall asleep leaves the others waiting as before. -/
theorem Sleepers.moved (h : Sleepers s) {p : Fin np} {place : Place} (hplace : place≠.asleep) :
    Sleepers (s.moved p place) := by
  intro q hq
  unfold State.moved at hq
  dsimp only at hq
  by_cases hqp : q=p
  · subst hqp
    rw [Function.update_self] at hq
    exact absurd hq hplace
  · rw [Function.update_of_ne hqp] at hq
    exact h q hq

/-- `begin_op` puts a process to sleep only when somebody will wake it. -/
theorem sleepers_beginOp (h : Running c most s a) (p : Fin np) :
    Sleepers (beginOp p s) := by
  have hactive := h.accounts.active
  by_cases hcommitting : s.committing=true
  · rw [beginOp,if_pos hcommitting]
    exact fun _ _ => Or.inl hcommitting
  by_cases hfull : (s.lh.length : ℤ)+(s.outstanding+1)*maxOpBlocks>logSize
  · rw [beginOp,if_neg hcommitting,if_pos hfull]
    refine fun _ _ => Or.inr ?_
    -- with nothing under way the log would be empty
    by_contra hnone
    change ¬0<s.outstanding at hnone
    have hempty : s.lh=[] := by
      cases h.commit with
      | idle flag nobody head pinned quiet => exact (quiet (by omega)).1
      | busy q k flag => exact absurd flag hcommitting
    rw [hempty] at hfull
    unfold maxOpBlocks logSize at hfull
    rw [List.length_nil] at hfull
    omega
  · rw [beginOp,if_neg hcommitting,if_neg hfull]
    refine Sleepers.moved (fun q hq => Or.inr ?_) Place.noConfusion
    change 0<s.outstanding+1
    omega

/-- Ending an operation wakes the sleeping processes or starts a commit. -/
theorem sleepers_endOp (p : Fin np) (hflag : s.committing=false) : Sleepers (endOp p s) := by
  have hflag' : ¬s.committing=true := by
    rw [hflag]
    exact Bool.noConfusion
  by_cases hlast : s.outstanding-1=0
  · rw [endOp,if_neg hflag',if_pos hlast]
    exact fun _ _ => Or.inl rfl
  · rw [endOp,if_neg hflag',if_neg hlast]
    exact sleepers_wakeup _

/-- A commit keeps its flag until its wake-up. -/
theorem sleepers_commit (h : Running c most s a) {p : Fin np} {k : Stage}
    (hp : s.place p=.commit k) : Sleepers (commitStep c p s k) := by
  have hflag := (h.committer hp).1
  cases k with
  | writeLog tail =>
    unfold commitStep
    dsimp only
    split_ifs
    · exact fun _ _ => Or.inl hflag
    · exact fun _ _ => Or.inl hflag
  | writeHead => exact fun _ _ => Or.inl hflag
  | install tail =>
    unfold commitStep
    dsimp only
    split_ifs
    · exact fun _ _ => Or.inl hflag
    · exact fun _ _ => Or.inl hflag
  | clear => exact fun _ _ => Or.inl hflag
  | finish => exact sleepers_wakeup _

/-- `log_write` puts nobody to sleep. -/
theorem sleepers_logAppend (hw : Sleepers s) (p : Fin np) (used block : ℕ) (data : Block) :
    Sleepers (logAppend p used block data s) := by
  unfold logAppend
  dsimp only
  split_ifs
  · exact Sleepers.moved (fun q hq => hw q hq) Place.noConfusion
  · exact fun q hq => hw q hq
  · exact Sleepers.moved (fun q hq => hw q hq) Place.noConfusion

/-- Neither do its checks. -/
theorem sleepers_logCheck (hw : Sleepers s) (p : Fin np) (used block : ℕ) (data : Block) :
    Sleepers (logCheck c p used block data s) := by
  unfold logCheck
  split_ifs
  · exact fun q hq => hw q hq
  · exact fun q hq => hw q hq
  · exact hw.moved Place.noConfusion

/-- Recovery leaves the processes alone. -/
theorem recoverStep_place {phase : Phase} (h : recoverStep c s phase=some s') :
    s'.place=s.place := by
  cases phase with
  | install tail =>
    simp only [recoverStep] at h
    split_ifs at h
    · cases h
      rfl
    · cases h
      rfl
  | readHead => cases h; rfl
  | clear => cases h; rfl
  | running => cases h
  | panicked => cases h
  | overrun => cases h

/-- Processes are at rest in recovery. -/
theorem Simulates.resting (h : Simulates c most s a) (hs : recoverStep c s s.phase=some s') :
    Resting s a := by
  have hphase := h.phase
  cases hp : s.phase with
  | readHead => rw [hp] at hphase; exact hphase
  | install tail => rw [hp] at hphase; exact hphase.1
  | clear => rw [hp] at hphase; exact hphase.1
  | running => rw [hp] at hs; cases hs
  | panicked => rw [hp] at hs; cases hs
  | overrun => rw [hp] at hs; cases hs

/-- Every step keeps sleepers waiting for something that will end. -/
theorem sleepers_step {act : Action np} (h : Simulates c most s a) (hw : Sleepers s)
    (hstep : step c act s=some s') : Sleepers s' := by
  cases act with
  | beginOp p =>
    obtain ⟨hrun,-,rfl⟩ := step_beginOp hstep
    exact sleepers_beginOp (h.running hrun) p
  | logCheck p block data =>
    obtain ⟨used,-,-,rfl⟩ := step_logCheck hstep
    exact sleepers_logCheck hw p used block data
  | logAppend p =>
    obtain ⟨used,block,data,-,-,rfl⟩ := step_logAppend hstep
    exact sleepers_logAppend hw p used block data
  | endOp p =>
    obtain ⟨used,hrun,hp,rfl⟩ := step_endOp hstep
    have hbusy : (s.place p).busy=1 := by rw [hp]; rfl
    exact sleepers_endOp p ((h.running hrun).not_committing hbusy).1
  | commit p =>
    obtain ⟨k,hrun,hp,rfl⟩ := step_commit hstep
    exact sleepers_commit (h.running hrun) hp
  | kill p =>
    obtain ⟨-,-,rfl⟩ := step_kill hstep
    exact hw.moved Place.noConfusion
  | evict block =>
    obtain ⟨-,rfl⟩ := step_evict hstep
    exact fun q hq => hw q hq
  | crash =>
    cases hstep
    intro p hp
    cases hp
  | recover =>
    intro p hp
    rw [recoverStep_place hstep,(h.resting hstep).place p] at hp
    cases hp

/-! ## The way out -/

/-- How far a commit is from its end. -/
def Stage.weight : Stage → ℕ
  | .writeLog tail => 72+(logSize-tail)
  | .writeHead => 71
  | .install tail => 38+(logSize-tail)
  | .clear => 37
  | .finish => 36

/-- How far a process is from being outside. -/
def Place.weight : Place → ℕ
  | .outside => 0
  | .asleep => 202
  | .awake => 201
  | .inOp _ => 120
  | .logging _ _ _ => 121
  | .commit k => k.weight

/-- How far the processes are from being outside. -/
def weight (s : State np) : ℕ := ∑ p, (s.place p).weight

/-- A process that comes closer to being outside. -/
theorem weight_moved {p : Fin np} {place : Place} (h : place.weight<(s.place p).weight) :
    weight (s.moved p place)<weight s := by
  have hsum := sum_update_add Place.weight s.place p place
  change ∑ q, (Function.update s.place p place q).weight<∑ q, (s.place q).weight
  omega

/-- A wake-up brings nobody further from being outside. -/
theorem weight_wakeup (s : State np) : weight s.wakeup≤weight s := by
  refine Finset.sum_le_sum (fun p _ => ?_)
  unfold State.wakeup
  dsimp only
  split_ifs with hp
  · rw [hp]
    decide
  · exact Nat.le_refl _

/-- The processes alone count. -/
theorem weight_congr (h : s'.place=s.place) : weight s'=weight s := by
  unfold weight
  rw [h]

/-- A step that is allowed and no crash. -/
def Undisturbed (c : Layout) (most : ℕ) (s : State np) (act : Action np) : Prop :=
  Modest c most s act ∧ act≠.crash

/-- A step of a commit brings its process closer to the end. -/
theorem weight_commitStep (h : Running c most s a) (hmost : most < maxOpBlocks) {p : Fin np}
    {k : Stage} (hp : s.place p=.commit k) : weight (commitStep c p s k)<weight s := by
  have hshort := h.accounts.short
  have hlimit := roomFor_lt hmost
  have hweight : (s.place p).weight=k.weight := by
    rw [hp]
    rfl
  -- disk writes leave the processes alone
  have hmoved : ∀ (t : State np) (place : Place), t.place=s.place → place.weight<k.weight →
      weight (t.moved p place)<weight s := by
    intro t place ht hl
    rw [←weight_congr ht]
    refine weight_moved ?_
    rw [ht,hweight]
    exact hl
  cases k with
  | writeLog tail =>
    unfold commitStep
    dsimp only
    split_ifs with ht
    · refine hmoved _ _ rfl ?_
      change 72+(logSize-(tail+1))<72+(logSize-tail)
      omega
    · refine hmoved _ _ rfl ?_
      change 71<72+(logSize-tail)
      omega
  | writeHead =>
    refine hmoved _ _ rfl ?_
    decide
  | install tail =>
    unfold commitStep
    dsimp only
    split_ifs with ht
    · refine hmoved _ _ rfl ?_
      change 38+(logSize-(tail+1))<38+(logSize-tail)
      omega
    · refine hmoved _ _ rfl ?_
      change 37<38+(logSize-tail)
      omega
  | clear =>
    refine hmoved _ _ rfl ?_
    decide
  | finish =>
    refine Nat.lt_of_le_of_lt (weight_wakeup _) (hmoved _ _ rfl ?_)
    decide

/-- `log_write` and `end_op` bring their process closer to the end. -/
theorem weight_logAppend (hshort : ¬logSize ≤ s.lh.length) {p : Fin np} {used block : ℕ}
    {data : Block} (hp : s.place p=.logging used block data) :
    weight (logAppend p used block data s)<weight s := by
  have hmoved : ∀ (t : State np) (used' : ℕ), t.place=s.place →
      weight (t.moved p (.inOp used'))<weight s := by
    intro t used' ht
    rw [←weight_congr ht]
    refine weight_moved ?_
    rw [ht,hp]
    change 120<121
    decide
  unfold logAppend
  dsimp only
  by_cases hin : block∈s.lh
  · rw [if_pos hin]
    exact hmoved _ _ rfl
  · rw [if_neg hin,if_neg hshort]
    exact hmoved _ _ rfl

/-- `end_op` brings its process closer to the end. -/
theorem weight_endOp (hflag : s.committing=false) {p : Fin np} {used : ℕ}
    (hp : s.place p=.inOp used) : weight (endOp p s)<weight s := by
  have hflag' : ¬s.committing=true := by
    rw [hflag]
    exact Bool.noConfusion
  have hmoved : ∀ (t : State np) (place : Place), t.place=s.place → place.weight<120 →
      weight (t.moved p place)<weight s := by
    intro t place ht hl
    rw [←weight_congr ht]
    refine weight_moved ?_
    rw [ht,hp]
    exact hl
  by_cases hlast : s.outstanding-1=0
  · rw [endOp,if_neg hflag',if_pos hlast]
    refine hmoved _ _ rfl ?_
    split_ifs
    · decide
    · decide
  · rw [endOp,if_neg hflag',if_neg hlast]
    refine Nat.lt_of_le_of_lt (weight_wakeup _) (hmoved _ _ rfl ?_)
    decide

/-- An awake process gets into its operation when nothing is under way. -/
theorem weight_beginOp (hlh : s.lh=[]) (hflag : s.committing=false) (hout : s.outstanding=0)
    {p : Fin np} (hp : s.place p=.awake) : weight (beginOp p s)<weight s := by
  have hflag' : ¬s.committing=true := by
    rw [hflag]
    exact Bool.noConfusion
  have hroom : ¬((s.lh.length : ℤ)+(s.outstanding+1)*maxOpBlocks>logSize) := by
    rw [hlh,hout]
    decide
  rw [beginOp,if_neg hflag',if_neg hroom]
  have hsame : ({s with outstanding := s.outstanding+1} : State np).place=s.place := rfl
  rw [←weight_congr hsame]
  refine weight_moved ?_
  rw [hsame,hp]
  decide

/-- In every state some process can come closer to being outside. -/
theorem progress (h : Simulates c most s a) (hmost : most < maxOpBlocks) (hrun : s.phase=.running)
    (hw : Sleepers s) (hinside : ¬∀ p, s.place p=.outside) :
    ∃ act next, Undisturbed c most s act ∧ step c act s=some next ∧ weight next<weight s := by
  have hrunning := h.running hrun
  by_cases hcommit : ∃ p k, s.place p=.commit k
  · obtain ⟨p,k,hp⟩ := hcommit
    refine ⟨.commit p,commitStep c p s k,⟨trivial,fun h => by cases h⟩,?_,
      weight_commitStep hrunning hmost hp⟩
    simp only [step,hp,hrun,if_true]
  by_cases hlogging : ∃ p used block data, s.place p=.logging used block data
  · obtain ⟨p,used,block,data,hp⟩ := hlogging
    have hshort := hrunning.accounts.short
    have hlimit := roomFor_lt hmost
    refine ⟨.logAppend p,logAppend p used block data s,⟨trivial,fun h => by cases h⟩,?_,
      weight_logAppend (by omega) hp⟩
    simp only [step,hp,hrun,if_true]
  by_cases hin : ∃ p used, s.place p=.inOp used
  · obtain ⟨p,used,hp⟩ := hin
    have hbusy : (s.place p).busy=1 := by rw [hp]; rfl
    refine ⟨.endOp p,endOp p s,⟨trivial,fun h => by cases h⟩,?_,
      weight_endOp (hrunning.not_committing hbusy).1 hp⟩
    simp only [step,hp,hrun,if_true]
  -- nobody is in an operation, so the log is empty and nobody sleeps
  obtain ⟨p,hp⟩ := not_forall.mp hinside
  have hidle : s.committing=false ∧ s.outstanding=0 ∧ s.lh=[] := by
    have hzero : a.active=0 := by
      rw [hrunning.accounts.counted]
      refine Finset.sum_eq_zero (fun q _ => ?_)
      cases hq : s.place q with
      | inOp used => exact absurd ⟨q,used,hq⟩ hin
      | logging used block data => exact absurd ⟨q,used,block,data,hq⟩ hlogging
      | outside => rfl
      | asleep => rfl
      | awake => rfl
      | commit k => rfl
    have hout : s.outstanding=0 := by
      rw [hrunning.accounts.active,hzero]
      rfl
    cases hrunning.commit with
    | idle flag nobody head pinned quiet => exact ⟨flag,hout,(quiet hout).1⟩
    | busy q k flag none here => exact absurd ⟨q,k,here⟩ hcommit
  obtain ⟨hflag,hout,hlh⟩ := hidle
  cases hplace : s.place p with
  | outside => exact absurd hplace hp
  | asleep =>
    rcases hw p hplace with hflag'|hout'
    · exact absurd (hflag.symm.trans hflag') Bool.noConfusion
    · omega
  | awake =>
    refine ⟨.beginOp p,beginOp p s,⟨trivial,fun h => by cases h⟩,?_,
      weight_beginOp hlh hflag hout hplace⟩
    simp only [step,hplace,hrun,or_true,and_self,if_true]
  | inOp used => exact absurd ⟨p,used,hplace⟩ hin
  | logging used block data => exact absurd ⟨p,used,block,data,hplace⟩ hlogging
  | commit k => exact absurd ⟨p,k,hplace⟩ hcommit

/-- Only a crash makes a running kernel recover. -/
theorem phase_of_step {act : Action np} (hact : act≠.crash) (hrun : s.phase=.running)
    (hs : step c act s=some s') :
    s'.phase=.running ∨ s'.phase=.panicked ∨ s'.phase=.overrun := by
  cases act with
  | beginOp p =>
    obtain ⟨-,-,rfl⟩ := step_beginOp hs
    rcases beginOp_cases p s with heq|heq <;> rw [heq] <;> exact Or.inl hrun
  | logCheck p block data =>
    obtain ⟨used,-,-,rfl⟩ := step_logCheck hs
    unfold logCheck
    split_ifs
    · exact Or.inr (Or.inl rfl)
    · exact Or.inr (Or.inl rfl)
    · exact Or.inl hrun
  | logAppend p =>
    obtain ⟨used,block,data,-,-,rfl⟩ := step_logAppend hs
    unfold logAppend
    dsimp only
    split_ifs
    · exact Or.inl hrun
    · exact Or.inr (Or.inr rfl)
    · exact Or.inl hrun
  | endOp p =>
    obtain ⟨used,-,-,rfl⟩ := step_endOp hs
    unfold endOp
    dsimp only
    split_ifs
    · exact Or.inr (Or.inl rfl)
    all_goals exact Or.inl hrun
  | commit p =>
    obtain ⟨k,-,-,rfl⟩ := step_commit hs
    cases k with
    | writeLog tail =>
      unfold commitStep
      dsimp only
      split_ifs <;> exact Or.inl hrun
    | writeHead => exact Or.inl hrun
    | install tail =>
      unfold commitStep
      dsimp only
      split_ifs <;> exact Or.inl hrun
    | clear => exact Or.inl hrun
    | finish => exact Or.inl hrun
  | kill p =>
    obtain ⟨-,-,rfl⟩ := step_kill hs
    exact Or.inl hrun
  | evict block =>
    obtain ⟨-,rfl⟩ := step_evict hs
    exact Or.inl hrun
  | crash => exact absurd rfl hact
  | recover =>
    rw [step,hrun] at hs
    cases hs

/-- What holds of every state that the kernel reaches. -/
theorem reachable_simulates {disk : ℕ → Block} (hempty : headOf (disk c.start)=[])
    (hmost : most < maxOpBlocks) (hsize : logSize≤c.size)
    (hs : Reachable (step c) (Modest c most) (booted np disk) s) :
    (∃ a, Simulates c most s a) ∧ Sleepers s := by
  refine hs.invariant (fun s => (∃ a, Simulates c most s a) ∧ Sleepers s)
    ⟨⟨Store.opened disk,?_⟩,?_⟩ ?_
  · exact simulates_booted hempty (Nat.lt_of_lt_of_le (by decide) hsize)
  · intro p hp
    cases hp
  · intro act before next h hallowed hstep
    obtain ⟨⟨a,ha⟩,hw⟩ := h
    obtain ⟨a',-,ha'⟩ := simulates_step hmost hsize ha hallowed hstep
    exact ⟨⟨a',ha'⟩,sleepers_step ha hw hstep⟩

/-- In every state of a running kernel whoever sleeps in `begin_op` waits for an
operation under way or for a running commit, and the processes can go through
without a crash until all of them are outside. -/
theorem no_sleep_in_vain (np : ℕ) {c : Layout} {most : ℕ} {disk : ℕ → Block} {s : State np}
    (hempty : headOf (disk c.start)=[]) (hmost : most < maxOpBlocks) (hsize : logSize≤c.size)
    (hs : Reachable (step c) (Modest c most) (booted np disk) s) (hrun : s.phase=.running) :
    (∀ p, s.place p=.asleep → (∃ q, (s.place q).busy=1) ∨ ∃ q k, s.place q=.commit k) ∧
      ∃ last, Reachable (step c) (Undisturbed c most) s last ∧ last.phase=.running ∧
        ∀ p, last.place p=.outside := by
  obtain ⟨⟨a,ha⟩,hw⟩ := reachable_simulates hempty hmost hsize hs
  constructor
  · intro p hp
    have hrunning := ha.running hrun
    cases hrunning.commit with
    | idle flag nobody head pinned quiet =>
      left
      have hactive := hrunning.accounts.active
      have hcounted := hrunning.accounts.counted
      have hpos : 0<s.outstanding :=
        (hw p hp).resolve_left (by rw [flag]; exact Bool.noConfusion)
      have hsum : ∑ q, (s.place q).busy≠0 := by omega
      obtain ⟨q,-,hq⟩ := Finset.exists_ne_zero_of_sum_ne_zero hsum
      refine ⟨q,?_⟩
      cases hplace : s.place q with
      | inOp used => rfl
      | logging used block data => rfl
      | outside => rw [hplace] at hq; exact absurd rfl hq
      | asleep => rw [hplace] at hq; exact absurd rfl hq
      | awake => rw [hplace] at hq; exact absurd rfl hq
      | commit k => rw [hplace] at hq; exact absurd rfl hq
    | busy q k flag none here => exact Or.inr ⟨q,k,here⟩
  · have hserving : ∀ s : State np, ((∃ a, Simulates c most s a) ∧ s.phase=.running ∧ Sleepers s) →
        ∃ last, Reachable (step c) (Undisturbed c most) s last ∧
          last.phase=.running ∧ ∀ p, last.place p=.outside := by
      refine exists_done_of weight ?_ ?_
      · intro act before next h hallowed hstep
        obtain ⟨⟨a,ha⟩,hrun,hw⟩ := h
        obtain ⟨a',-,ha'⟩ := simulates_step hmost hsize ha hallowed.1 hstep
        refine ⟨⟨a',ha'⟩,?_,sleepers_step ha hw hstep⟩
        rcases phase_of_step hallowed.2 hrun hstep with hphase|hphase|hphase
        · exact hphase
        · exact absurd hphase ha'.represents.alive.1
        · exact absurd hphase ha'.represents.alive.2
      · intro state h hnot
        obtain ⟨⟨a,ha⟩,hrun,hw⟩ := h
        exact progress ha hmost hrun hw (fun hall => hnot ⟨hrun,hall⟩)
    exact hserving s ⟨⟨a,ha⟩,hrun,hw⟩

/-- The kernel comes up, and four processes want to begin an operation. -/
def fourBegin (p q r t : Fin np) : List (Action np) :=
  [.recover,.recover,.recover,.beginOp p,.beginOp q,.beginOp r,.beginOp t]

/-- The fourth of four operations sleeps, and is not forgotten. -/
theorem fourth_operation_waits :
    ∃ s, follow (step ⟨2,30⟩) (Modest ⟨2,30⟩ 9) (fourBegin 0 1 2 3) (booted 4 (fun _ _ => 0))=some s ∧
      s.phase=.running ∧ s.place 3=.asleep ∧
      ((∀ p, s.place p=.asleep → (∃ q, (s.place q).busy=1) ∨ ∃ q k, s.place q=.commit k) ∧
        ∃ last, Reachable (step ⟨2,30⟩) (Undisturbed ⟨2,30⟩ 9) s last ∧ last.phase=.running ∧
          ∀ p, last.place p=.outside) := by
  have hrun : ∃ s, follow (step ⟨2,30⟩) (Modest ⟨2,30⟩ 9) (fourBegin 0 1 2 3)
      (booted 4 (fun _ _ => 0))=some s ∧ s.phase=.running ∧ s.place 3=.asleep := by
    rw [fourBegin,@follow_recovered 4 ⟨2,30⟩ 9 (fun _ _ => 0) headOf_zeros]
    exact ⟨_,rfl,rfl,rfl⟩
  obtain ⟨s,hs,hphase,hasleep⟩ := hrun
  exact ⟨s,hs,hphase,hasleep,@no_sleep_in_vain 4 ⟨2,30⟩ 9 (fun _ _ => 0) s headOf_zeros (by decide)
    (by decide) (reachable_of_follow hs) hphase⟩

/-! ## Operations of `MAXOPBLOCKS` blocks -/

/-- So many home blocks from a first one on. -/
def blocksFrom (first n : ℕ) : List ℕ := (List.range n).map (first+·)

/-- One more block. -/
theorem blocksFrom_succ (first n : ℕ) : blocksFrom first (n+1)=blocksFrom first n++[first+n] := by
  rw [blocksFrom,List.range_succ,List.map_append]
  rfl

/-- The next block is a new one. -/
theorem not_mem_blocksFrom (first n : ℕ) : first+n∉blocksFrom first n := by
  intro h
  obtain ⟨i,hi,heq⟩ := List.mem_map.mp h
  have := List.mem_range.mp hi
  omega

/-- So many blocks are logged in a running kernel. -/
structure Logged (first n : ℕ) (place : Fin np → Place) (s : State np) : Prop where
  /-- The kernel is running. -/
  phase : s.phase=.running
  /-- The blocks from the first one on are logged. -/
  lh : s.lh=blocksFrom first n
  /-- Operations are under way. -/
  outstanding : 1 ≤ s.outstanding
  /-- The processes stand there. -/
  place : s.place=place

/-- An operation logs one more block. -/
theorem reaches_logged {start : State np} {first n : ℕ} {place : Fin np → Place}
    {p : Fin np} {used : ℕ} (hs : Reachable (step c) (Modest c most) start s)
    (h : Logged first n place s) (hp : place p=.inOp used) (hused : used < most)
    (hhome : c.Home (first+n)) (hroom : n<logSize) (hsize : n+1<c.size) :
    ∃ t, Reachable (step c) (Modest c most) start t ∧
      Logged first (n+1) (Function.update place p (.inOp (used+1))) t := by
  have hlength : s.lh.length=n := by
    rw [h.lh,blocksFrom,List.length_map,List.length_range]
  have hplace : s.place p=.inOp used := by
    rw [h.place]
    exact hp
  have hnew : first+n∉s.lh := by
    rw [h.lh]
    exact not_mem_blocksFrom first n
  have hout := h.outstanding
  have hchecked : logCheck c p used (first+n) (fun _ => 0) s=
      s.moved p (.logging used (first+n) (fun _ => 0)) := by
    rw [logCheck,if_neg (by omega),if_neg (by omega)]
  have hcheck : step c (.logCheck p (first+n) (fun _ => 0)) s=
      some (s.moved p (.logging used (first+n) (fun _ => 0))) := by
    rw [←hchecked]
    simp only [step,hplace,h.phase,if_true]
  have hmodest : Modest c most s (.logCheck p (first+n) (fun _ => 0)) := by
    refine ⟨hhome,?_⟩
    rw [hplace]
    exact Or.inr hused
  have hthere : (s.moved p (.logging used (first+n) (fun _ => 0))).place p=
      .logging used (first+n) (fun _ => 0) := Function.update_self p _ s.place
  have happend : step c (.logAppend p) (s.moved p (.logging used (first+n) (fun _ => 0)))=
      some (logAppend p used (first+n) (fun _ => 0)
        (s.moved p (.logging used (first+n) (fun _ => 0)))) := by
    have hphase : (s.moved p (.logging used (first+n) (fun _ => 0))).phase=.running := h.phase
    simp only [step,hthere,hphase,if_true]
  have hmodest' : Modest c most (s.moved p (.logging used (first+n) (fun _ => 0)))
      (.logAppend p) := trivial
  refine ⟨_,(hs.step hmodest hcheck).step hmodest' happend,?_⟩
  have hnew' : first+n∉(s.moved p (.logging used (first+n) (fun _ => 0))).lh := hnew
  have hfits : ¬logSize≤(s.moved p (.logging used (first+n) (fun _ => 0))).lh.length := by
    change ¬logSize ≤ s.lh.length
    omega
  rw [logAppend,if_neg hnew',if_neg hfits]
  refine ⟨h.phase,?_,hout,?_⟩
  · change s.lh++[first+n]=blocksFrom first (n+1)
    rw [h.lh,blocksFrom_succ]
  · change Function.update (Function.update s.place p _) p (.inOp (used+1))=_
    rw [Function.update_idem,h.place]

/-- An operation logs several blocks, by induction on their number. -/
theorem reaches_logged_many {start : State np} {first : ℕ} {p : Fin np}
    (hhome : ∀ i<logSize, c.Home (first+i)) (k : ℕ) : ∀ {s : State np} {n used : ℕ}
    {place : Fin np → Place}, Reachable (step c) (Modest c most) start s →
    Logged first n place s → place p=.inOp used → used+k ≤ most → n+k≤logSize → n+k<c.size →
    ∃ t, Reachable (step c) (Modest c most) start t ∧
      Logged first (n+k) (Function.update place p (.inOp (used+k))) t := by
  induction k with
  | zero =>
    intro s n used place hs h hp _ _ _
    refine ⟨s,hs,?_⟩
    rw [Nat.add_zero,Nat.add_zero,←hp,Function.update_eq_self]
    exact h
  | succ k ih =>
    intro s n used place hs h hp hmost hn hsize
    obtain ⟨t,ht,hone⟩ := reaches_logged hs h hp (by omega) (hhome n (by omega)) (by omega) (by omega)
    obtain ⟨u,hu,hmany⟩ := ih ht hone (Function.update_self p _ place) (by omega) (by omega)
      (by omega)
    refine ⟨u,hu,?_⟩
    rw [Function.update_idem] at hmany
    rw [show n+(k+1)=n+1+k by omega,show used+(k+1)=used+1+k by omega]
    exact hmany

/-- `log_write` panics when the log is full. -/
theorem reaches_panic {start : State np} {first n : ℕ} {place : Fin np → Place}
    {p : Fin np} {used : ℕ} (hs : Reachable (step c) (Modest c most) start s)
    (h : Logged first n place s) (hp : place p=.inOp used) (hn : 0<n) (hhome : c.Home first)
    (hfull : logSize≤n ∨ c.size≤n+1) :
    ∃ t, Reachable (step c) (Modest c most) start t ∧ t.phase=.panicked := by
  have hlength : s.lh.length=n := by
    rw [h.lh,blocksFrom,List.length_map,List.length_range]
  have hplace : s.place p=.inOp used := by
    rw [h.place]
    exact hp
  have hthere : first∈s.lh := by
    rw [h.lh]
    exact List.mem_map.mpr ⟨0,List.mem_range.mpr hn,Nat.add_zero first⟩
  have hmodest : Modest c most s (.logCheck p first (fun _ => 0)) := by
    refine ⟨hhome,?_⟩
    rw [hplace]
    exact Or.inl hthere
  have hchecked : logCheck c p used first (fun _ => 0) s={s with phase := .panicked} := by
    rw [logCheck,if_pos (by omega)]
  have hcheck : step c (.logCheck p first (fun _ => 0)) s=some {s with phase := .panicked} := by
    rw [←hchecked]
    simp only [step,hplace,h.phase,if_true]
  exact ⟨_,hs.step hmodest hcheck,rfl⟩

/-- A further operation begins while there is room for it. -/
theorem reaches_begun {start : State np} {place : Fin np → Place} {p : Fin np} {n : ℕ}
    (hs : Reachable (step c) (Modest c most) start s) (hphase : s.phase=.running)
    (hlh : s.lh=[]) (hidle : s.committing=false) (hout : s.outstanding=n) (hn : n<3)
    (hplace : s.place=place) (hp : place p=.outside) :
    ∃ t, Reachable (step c) (Modest c most) start t ∧ t.phase=.running ∧ t.lh=[] ∧
      t.committing=false ∧ t.outstanding=(n+1 : ℕ) ∧
      t.place=Function.update place p (.inOp 0) := by
  have hroom : ¬((s.lh.length : ℤ)+(s.outstanding+1)*maxOpBlocks>logSize) := by
    rw [hlh,hout]
    simp only [List.length_nil,maxOpBlocks,logSize]
    omega
  have hidle' : ¬s.committing=true := by
    rw [hidle]
    exact Bool.noConfusion
  have hbegun : beginOp p s={s with outstanding := s.outstanding+1}.moved p (.inOp 0) := by
    rw [beginOp,if_neg hidle',if_neg hroom]
  have houtside : s.place p=.outside := by
    rw [hplace]
    exact hp
  have hstep : step c (.beginOp p) s=
      some ({s with outstanding := s.outstanding+1}.moved p (.inOp 0)) := by
    rw [←hbegun]
    exact if_pos ⟨hphase,Or.inl houtside⟩
  have hmodest : Modest c most s (.beginOp p) := trivial
  refine ⟨_,hs.step hmodest hstep,hphase,hlh,hidle,?_,?_⟩
  · change s.outstanding+1=_
    rw [hout]
    omega
  · change Function.update s.place p (.inOp 0)=_
    rw [hplace]

/-- Three operations begin in a kernel that has just come up. -/
theorem reaches_three {disk : ℕ → Block} (first : ℕ) (hempty : headOf (disk c.start)=[])
    {p q r : Fin np} (hpq : p≠q) (hpr : p≠r) (hqr : q≠r) :
    ∃ t place, Reachable (step c) (Modest c most) (booted np disk) t ∧ Logged first 0 place t ∧
      place p=.inOp 0 ∧ place q=.inOp 0 ∧ place r=.inOp 0 := by
  have hup : Reachable (step c) (Modest c most) (booted np disk) (recovered c np disk) :=
    reachable_of_follow (follow_recovered hempty [])
  obtain ⟨t₁,h₁,hphase₁,hlh₁,hidle₁,hout₁,hplace₁⟩ :=
    @reaches_begun np c most _ _ _ p 0 hup rfl rfl rfl rfl (by omega) rfl rfl
  have hq : Function.update (recovered c np disk).place p (.inOp 0) q=.outside := by
    rw [Function.update_of_ne hpq.symm]
    rfl
  obtain ⟨t₂,h₂,hphase₂,hlh₂,hidle₂,hout₂,hplace₂⟩ :=
    reaches_begun h₁ hphase₁ hlh₁ hidle₁ hout₁ (by omega) hplace₁ hq
  have hr : Function.update (Function.update (recovered c np disk).place p (.inOp 0)) q (.inOp 0) r=
      .outside := by
    rw [Function.update_of_ne hqr.symm,Function.update_of_ne hpr.symm]
    rfl
  obtain ⟨t₃,h₃,hphase₃,hlh₃,-,hout₃,hplace₃⟩ :=
    reaches_begun h₂ hphase₂ hlh₂ hidle₂ hout₂ (by omega) hplace₂ hr
  refine ⟨t₃,_,h₃,⟨hphase₃,hlh₃,?_,hplace₃⟩,?_,?_,?_⟩
  · rw [hout₃]
    omega
  · rw [Function.update_of_ne hpr,Function.update_of_ne hpq,Function.update_self]
  · rw [Function.update_of_ne hqr,Function.update_self]
  · rw [Function.update_self]

/-- With three processes the kernel panics in no run exactly when every operation
adds less than `MAXOPBLOCKS` blocks: `begin_op` lets three operations in, and
`log_write` has no room for three times as many. -/
theorem never_panics_iff (np : ℕ) {c : Layout} {most : ℕ} {disk : ℕ → Block}
    (hempty : headOf (disk c.start)=[]) (hprocs : 3≤np) (hsize : logSize≤c.size)
    (hdisk : c.start+c.size+logSize≤4294967296) :
    (∀ s, Reachable (step c) (Modest c most) (booted np disk) s → s.phase≠.panicked) ↔
      most < maxOpBlocks := by
  constructor
  · intro hnever
    by_contra hmost
    have hten : maxOpBlocks=10 := rfl
    have hthirty : logSize=30 := rfl
    let p : Fin np := ⟨0,by omega⟩
    let q : Fin np := ⟨1,by omega⟩
    let r : Fin np := ⟨2,by omega⟩
    have hpq : p≠q := by simp [p,q]
    have hpr : p≠r := by simp [p,r]
    have hqr : q≠r := by simp [q,r]
    have hhome : ∀ i<logSize, c.Home (c.start+c.size+i) :=
      fun i hi => ⟨Or.inr (by omega),by omega⟩
    obtain ⟨s₀,place,hs₀,h₀,hp₀,hq₀,hr₀⟩ :=
      @reaches_three np c most disk (c.start+c.size) hempty p q r hpq hpr hqr
    obtain ⟨s₁,hs₁,h₁⟩ := reaches_logged_many hhome 10 hs₀ h₀ hp₀ (by omega) (by omega) (by omega)
    have hq₁ : Function.update place p (.inOp (0+10)) q=.inOp 0 := by
      rw [Function.update_of_ne hpq.symm,hq₀]
    obtain ⟨s₂,hs₂,h₂⟩ := reaches_logged_many hhome 10 hs₁ h₁ hq₁ (by omega) (by omega) (by omega)
    have hr₂ : Function.update (Function.update place p (.inOp (0+10))) q (.inOp (0+10)) r=
        .inOp 0 := by
      rw [Function.update_of_ne hqr.symm,Function.update_of_ne hpr.symm,hr₀]
    have hfirst : c.Home (c.start+c.size) := hhome 0 (by omega)
    have hpanic : ∃ t, Reachable (step c) (Modest c most) (booted np disk) t ∧
        t.phase=.panicked := by
      -- with a log of `LOGSIZE` blocks the header takes the place of the last one
      rcases Nat.lt_or_ge logSize c.size with hlarge|hsmall
      · obtain ⟨s₃,hs₃,h₃⟩ :=
          reaches_logged_many hhome 10 hs₂ h₂ hr₂ (by omega) (by omega) (by omega)
        exact reaches_panic hs₃ h₃ (Function.update_self r _ _) (by omega) hfirst (by omega)
      · obtain ⟨s₃,hs₃,h₃⟩ :=
          reaches_logged_many hhome 9 hs₂ h₂ hr₂ (by omega) (by omega) (by omega)
        exact reaches_panic hs₃ h₃ (Function.update_self r _ _) (by omega) hfirst (by omega)
    obtain ⟨t,ht,hphase⟩ := hpanic
    exact hnever t ht hphase
  · intro hmost s hs
    obtain ⟨⟨a,ha⟩,-⟩ := reachable_simulates hempty hmost hsize hs
    exact ha.represents.alive.1

/-- Three processes with operations of `MAXOPBLOCKS` blocks panic the kernel that
mkfs lays out. -/
theorem ten_blocks_panic :
    ¬∀ s, Reachable (step ⟨2,30⟩) (Modest ⟨2,30⟩ 10) (booted 3 (fun _ _ => 0)) s →
      s.phase≠.panicked := by
  intro h
  exact absurd ((@never_panics_iff 3 ⟨2,30⟩ 10 (fun _ _ => 0) headOf_zeros (by decide) (by decide)
    (by decide)).mp h) (by decide)

end ComputerSystems.Xv6Log
