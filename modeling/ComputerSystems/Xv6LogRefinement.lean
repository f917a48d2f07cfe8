import ComputerSystems.Xv6LogInvariant
import Mathlib.Tactic.IntervalCases

/-!
# Operations on the log are transactions

The disk and the cache together behave like a store with transactions: between
`begin_op` and `end_op` changes go to the current values, the first `write_head`
of a commit makes them durable all at once, and a crash at any moment followed
by recovery, itself interrupted any number of times, brings back the durable
values. This holds for any number of processes in any order as long as every
operation adds less than `MAXOPBLOCKS` blocks to the log.
-/

namespace ComputerSystems.Xv6Log

open ByteMemory RedoLog TransitionSystem UpdateSum

variable {np : ℕ} {c : Layout} {most : ℕ} {s s' : State np} {a : Store ℕ Block}

/-! ## Operations -/

/-- A block that is not pinned has its current value on the disk. -/
theorem Running.disk (h : Running c most s a) (hs : Sound c s a) {b : ℕ} (hb : c.Home b)
    (hclean : s.dirty b=false) : s.disk b=a.current b := by
  rw [←hs.coherent.view hclean]
  exact h.view b hb

/-- With nothing logged the current values are durable. -/
theorem settled_of_empty (h : Running c most s a) (hs : Sound c s a)
    (hhead : headOf (s.disk c.start)=[]) (hpinned : Pinned s 0) (hlh : s.lh=[]) : Settled c a := by
  intro b hb
  have hclean : s.dirty b=false := by
    have hnot : ¬s.dirty b=true := by
      rw [hpinned b,hlh]
      exact List.not_mem_nil
    exact Bool.eq_false_of_not_eq_true hnot
  rw [←hs.durable b hb,Image.logical_empty hhead]
  exact h.disk hs hb hclean

/-- While an operation is under way nobody commits. -/
theorem Running.not_committing (h : Running c most s a) {p : Fin np} (hp : (s.place p).busy=1) :
    s.committing=false ∧ (∀ q k, s.place q≠.commit k) ∧ headOf (s.disk c.start)=[] ∧ Pinned s 0 ∧
      1 ≤ s.outstanding := by
  have hactive := h.accounts.active
  have hle := h.accounts.busy_le p
  cases h.commit with
  | idle flag nobody head pinned quiet => exact ⟨flag,nobody,head,pinned,by omega⟩
  | busy q k flag none here only stage => omega

/-- A place that is no commit. -/
def Place.Apart (place : Place) : Prop := ∀ k, place≠.commit k

/-- A process that neither commits nor begins to leaves the commit alone. -/
theorem Committing.moved (h : Committing c s a) {p : Fin np} {place : Place}
    (hp : (s.place p).Apart) (hplace : place.Apart) : Committing c (s.moved p place) a := by
  have hother : ∀ q k, (s.moved p place).place q=.commit k → q≠p ∧ s.place q=.commit k := by
    intro q k hq
    unfold State.moved at hq
    dsimp only at hq
    by_cases hqp : q=p
    · subst hqp
      rw [Function.update_self] at hq
      exact absurd hq (hplace k)
    · rw [Function.update_of_ne hqp] at hq
      exact ⟨hqp,hq⟩
  cases h with
  | idle flag nobody head pinned quiet =>
    exact .idle flag (fun q k hq => nobody q k (hother q k hq).2) head pinned quiet
  | busy q k flag none here only stage =>
    have hqp : q≠p := by
      intro heq
      subst heq
      exact hp k here
    refine .busy q k flag none ?_ (fun r hr l hl => only r hr l (hother r l hl).2) ?_
    · unfold State.moved
      dsimp only
      rw [Function.update_of_ne hqp]
      exact here
    · cases k <;> exact stage

/-- A process that stays out of operations goes to another place. -/
theorem Running.moved (h : Running c most s a) {p : Fin np} {place : Place}
    (hp : (s.place p).Apart) (hplace : place.Apart) (hgood : place.Good c most s.lh)
    (hbusy : place.busy=(s.place p).busy)
    (hreserve : place.reserve most≤(s.place p).reserve most) :
    Running c most (s.moved p place) a := by
  refine ⟨h.view,h.nodup,h.home,?_,h.commit.moved hp hplace⟩
  refine h.accounts.moved p rfl hgood (Or.inl (List.Subset.refl _)) h.accounts.active
    (by omega) ?_
  change s.lh.length+place.reserve most ≤ s.lh.length+(s.place p).reserve most
  omega

/-- A wake-up is one of nobody who commits or is in an operation. -/
theorem Running.wakeup (h : Running c most s a) : Running c most s.wakeup a := by
  have hplace : ∀ q k, s.wakeup.place q=.commit k ↔ s.place q=.commit k := by
    intro q k
    unfold State.wakeup
    dsimp only
    by_cases hq : s.place q=.asleep
    · rw [if_pos hq,hq]
      exact iff_of_false (fun heq => Place.noConfusion heq) (fun heq => Place.noConfusion heq)
    · rw [if_neg hq]
  refine ⟨h.view,h.nodup,h.home,h.accounts.wakeup,?_⟩
  cases h.commit with
  | idle flag nobody head pinned quiet =>
    exact .idle flag (fun q k hq => nobody q k ((hplace q k).mp hq)) head pinned quiet
  | busy q k flag none here only stage =>
    refine .busy q k flag none ((hplace q k).mpr here)
      (fun r hr l hl => only r hr l ((hplace r l).mp hl)) ?_
    cases k <;> exact stage

/-- What the store sees of a step. -/
def observed (s : State np) : Action np → Option (Event ℕ Block)
  | .beginOp p => if (beginOp p s).outstanding=s.outstanding then none else some .begin
  | .logAppend p =>
    match s.place p with
    | .logging _ block data => some (.write block data)
    | _ => none
  | .endOp _ => some .finish
  | .commit p => if s.place p=.commit .writeHead then some .commit else none
  | .crash => some .crash
  | _ => none

/-- What `begin_op` does. -/
theorem beginOp_cases (p : Fin np) (s : State np) : beginOp p s=s.moved p .asleep ∨
    beginOp p s={s with outstanding := s.outstanding+1}.moved p (.inOp 0) := by
  unfold beginOp
  split_ifs
  · exact Or.inl rfl
  · exact Or.inl rfl
  · exact Or.inr rfl

/-- An operation that `begin_op` lets in finds room for its blocks. -/
theorem room_admitted {logged reserved active : ℕ} (hmost : most < maxOpBlocks)
    (hroom : logged+(active+1)*maxOpBlocks≤logSize) (hreserved : reserved ≤ most*active)
    (hidle : active=0 → logged=0) : logged+(reserved+most)≤roomFor most := by
  unfold roomFor maxOpBlocks logSize at *
  have hfew : active≤2 := by omega
  interval_cases active
  · omega
  · omega
  · omega

/-- `begin_op` either puts the process to sleep or begins an operation with room
for its blocks. -/
theorem running_beginOp (h : Running c most s a) (hmost : most < maxOpBlocks) {p : Fin np}
    (hp : s.place p=.outside ∨ s.place p=.awake) :
    ∃ a', follow Store.step Anything (observed s (.beginOp p)).toList a=some a' ∧
      a'.durable=a.durable ∧ Running c most (beginOp p s) a' := by
  have hapart : (s.place p).Apart := by
    rcases hp with hp|hp
    · rw [hp]; exact fun _ => Place.noConfusion
    · rw [hp]; exact fun _ => Place.noConfusion
  have hbusy : (s.place p).busy=0 := by
    rcases hp with hp|hp <;> rw [hp] <;> rfl
  have hasleep : Running c most (s.moved p .asleep) a := by
    refine h.moved hapart (fun _ => Place.noConfusion) trivial hbusy.symm ?_
    exact Nat.zero_le _
  have hstay : ∀ hsame : beginOp p s=s.moved p .asleep,
      ∃ a', follow Store.step Anything (observed s (.beginOp p)).toList a=some a' ∧
        a'.durable=a.durable ∧ Running c most (beginOp p s) a' := by
    intro hsame
    refine ⟨a,?_,rfl,hsame▸hasleep⟩
    have hkept : (s.moved p .asleep).outstanding=s.outstanding := rfl
    rw [observed,hsame,if_pos hkept]
    rfl
  by_cases hcommitting : s.committing=true
  · exact hstay (if_pos hcommitting)
  by_cases hfull : (s.lh.length : ℤ)+(s.outstanding+1)*maxOpBlocks>logSize
  · refine hstay ?_
    rw [beginOp,if_neg hcommitting,if_pos hfull]
  have hbegin : beginOp p s={s with outstanding := s.outstanding+1}.moved p (.inOp 0) := by
    rw [beginOp,if_neg hcommitting,if_neg hfull]
  refine ⟨{a with active := a.active+1},?_,rfl,?_⟩
  · have hchanged : (beginOp p s).outstanding≠s.outstanding := by
      rw [hbegin]
      change s.outstanding+1≠s.outstanding
      omega
    rw [observed,if_neg hchanged]
    rfl
  · rw [hbegin]
    refine ⟨h.view,h.nodup,h.home,?_,?_⟩
    · have hactive := h.accounts.active
      have hcounted := h.accounts.counted
      have hb := sum_update_add Place.busy s.place p (.inOp 0)
      have hr := sum_update_add (Place.reserve most) s.place p (.inOp 0)
      have hidle : a.active=0 → s.lh.length=0 := by
        intro hzero
        cases h.commit with
        | idle flag nobody head pinned quiet =>
          rw [(quiet (by omega)).1]
          rfl
        | busy q k flag => exact absurd flag hcommitting
      have hspare : s.lh.length+(a.active+1)*maxOpBlocks≤logSize := by
        unfold maxOpBlocks logSize at *
        omega
      have hadmitted := room_admitted hmost hspare h.accounts.reserve_le hidle
      refine ⟨?_,?_,?_,fun q => ?_⟩
      · change s.outstanding+1=((a.active+1 : ℕ) : ℤ)
        push_cast
        omega
      · change a.active+1=∑ q, (Function.update s.place p (.inOp 0) q).busy
        change _=_+1 at hb
        omega
      · change s.lh.length+∑ q, (Function.update s.place p (.inOp 0) q).reserve most≤roomFor most
        change _=_+most at hr
        omega
      · change (Function.update s.place p (.inOp 0) q).Good c most s.lh
        by_cases hq : q=p
        · subst hq
          rw [Function.update_self]
          exact Nat.zero_le _
        · rw [Function.update_of_ne hq]
          exact h.accounts.good q
    · cases h.commit with
      | idle flag nobody head pinned quiet =>
        have hmoved : Committing c (s.moved p (.inOp 0)) a :=
          (Committing.idle flag nobody head pinned quiet).moved hapart (fun _ => Place.noConfusion)
        cases hmoved with
        | idle flag nobody head pinned _ =>
          refine .idle flag nobody head pinned (fun hzero => ?_)
          change s.outstanding+1=0 at hzero
          have hactive := h.accounts.active
          omega
        | busy q k flag' => exact absurd flag' hcommitting
      | busy q k flag => exact absurd flag hcommitting

/-- The room that operations of less than `MAXOPBLOCKS` blocks need. -/
theorem roomFor_lt (hmost : most < maxOpBlocks) : roomFor most+1<logSize := by
  unfold roomFor maxOpBlocks logSize at *
  omega

/-- The checks of `log_write` pass. -/
theorem running_logCheck (h : Running c most s a) (hmost : most < maxOpBlocks)
    (hfit : roomFor most+1<c.size) {p : Fin np} {used block : ℕ} {data : Block}
    (hp : s.place p=.inOp used) (hblock : c.Home block) (hmay : block∈s.lh ∨ used < most) :
    (logCheck c p used block data s).phase=s.phase ∧
      Running c most (logCheck c p used block data s) a ∧
      (logCheck c p used block data s).disk=s.disk ∧
      (logCheck c p used block data s).cache=s.cache ∧
      (logCheck c p used block data s).dirty=s.dirty := by
  have hbusy : (s.place p).busy=1 := by rw [hp]; rfl
  have hgood := h.accounts.good p
  rw [hp] at hgood
  have hused : used ≤ most := hgood
  have hshort := h.accounts.short
  have hlimit := roomFor_lt hmost
  obtain ⟨-,-,-,-,hout⟩ := h.not_committing hbusy
  have hspace : ¬(logSize ≤ s.lh.length ∨ (c.size : ℤ)-1 ≤ s.lh.length) := by
    omega
  have hchecked : logCheck c p used block data s=s.moved p (.logging used block data) := by
    rw [logCheck,if_neg hspace,if_neg (by omega)]
  rw [hchecked]
  refine ⟨rfl,h.moved ?_ (fun _ => Place.noConfusion) ⟨hused,hblock,hmay⟩ ?_ ?_,rfl,
    rfl,rfl⟩
  · rw [hp]
    exact fun _ => Place.noConfusion
  · rw [hp]
    rfl
  · rw [hp]
    exact Nat.le_refl _

/-- A pinned block is read with its new contents, any other as before. -/
theorem view_pin (block : ℕ) (data : Block) (b : ℕ) :
    ({s with cache := Function.update s.cache block (some data),
             dirty := Function.update s.dirty block true} : State np).view b=
      Function.update s.view block data b := by
  unfold State.view
  dsimp only
  by_cases hb : b=block
  · subst hb
    rw [Function.update_self,Function.update_self,Option.getD_some]
  · rw [Function.update_of_ne hb,Function.update_of_ne hb]

/-- `log_write` changes the block in the store, and adds it to the log with room
to spare. -/
theorem running_logAppend (h : Running c most s a) (hs : Sound c s a) (hmost : most < maxOpBlocks)
    {p : Fin np} {used block : ℕ} {data : Block} (hp : s.place p=.logging used block data) :
    ∃ a', follow Store.step Anything (observed s (.logAppend p)).toList a=some a' ∧
      Sound c (logAppend p used block data s) a' ∧
      (logAppend p used block data s).phase=s.phase ∧
      Running c most (logAppend p used block data s) a' := by
  have hbusy : (s.place p).busy=1 := by rw [hp]; rfl
  have hgood := h.accounts.good p
  rw [hp] at hgood
  obtain ⟨hused,hhome,hmodest⟩ := hgood
  have hshort := h.accounts.short
  have hlimit := roomFor_lt hmost
  obtain ⟨hflag,hnobody,hhead,hpinned,hout⟩ := h.not_committing hbusy
  have hactive := h.accounts.active
  have hpos : 0<a.active := by omega
  -- what holds of the state with the block pinned, whether or not it is new in the log
  have hsound : ∀ lh : List ℕ, ∀ place : Place, Sound c
      (({s with cache := Function.update s.cache block (some data),
                dirty := Function.update s.dirty block true,lh := lh} : State np).moved p place)
      {a with current := Function.update a.current block data} := fun lh place =>
    ⟨hs.durable,hs.headNodup,hs.headHome,hs.headRoom,hs.coherent.pin block data⟩
  have hview : ∀ b, c.Home b → Function.update s.view block data b=
      Function.update a.current block data b := by
    intro b hb
    by_cases hbb : b=block
    · subst hbb
      rw [Function.update_self,Function.update_self]
    · rw [Function.update_of_ne hbb,Function.update_of_ne hbb]
      exact h.view b hb
  have hdirty : ∀ lh : List ℕ, (∀ b, b∈lh ↔ b∈s.lh ∨ b=block) →
      ∀ b, Function.update s.dirty block true b=true ↔ b∈lh := by
    intro lh hlh b
    rw [hlh b]
    by_cases hbb : b=block
    · subst hbb
      rw [Function.update_self]
      exact iff_of_true rfl (Or.inr rfl)
    · rw [Function.update_of_ne hbb,hpinned b]
      exact ⟨Or.inl,fun hb => hb.resolve_right hbb⟩
  have hidle : ∀ lh : List ℕ, ∀ used', (∀ b, b∈lh ↔ b∈s.lh ∨ b=block) → Committing c
      (({s with cache := Function.update s.cache block (some data),
                dirty := Function.update s.dirty block true,lh := lh} : State np).moved p
        (.inOp used'))
      {a with current := Function.update a.current block data} := by
    intro lh used' hlh
    refine .idle hflag (fun q k hq => ?_) hhead (hdirty lh hlh) (fun hzero => ?_)
    · unfold State.moved at hq
      dsimp only at hq
      by_cases hqp : q=p
      · subst hqp
        rw [Function.update_self] at hq
        cases hq
      · rw [Function.update_of_ne hqp] at hq
        exact hnobody q k hq
    · change s.outstanding=0 at hzero
      omega
  refine ⟨{a with current := Function.update a.current block data},?_,?_⟩
  · rw [observed,hp]
    change follow Store.step Anything [.write block data] a=_
    rw [follow_cons,Store.step,if_pos hpos]
    rfl
  by_cases hin : block∈s.lh
  · rw [logAppend,if_pos hin]
    have hlh : ∀ b, b∈s.lh ↔ b∈s.lh ∨ b=block :=
      fun b => ⟨Or.inl,fun hb => hb.elim id (fun heq => heq▸hin)⟩
    refine ⟨hsound s.lh _,rfl,?_,h.nodup,h.home,?_,hidle s.lh used hlh⟩
    · exact fun b hb => (view_pin block data b).trans (hview b hb)
    · refine h.accounts.moved p rfl hused (Or.inl (List.Subset.refl _)) hactive ?_ ?_
      · rw [hbusy]
        rfl
      · rw [hp]
        exact Nat.le_refl _
  · have hless : used < most := hmodest.resolve_left hin
    rw [logAppend,if_neg hin,if_neg (by omega)]
    have hlh : ∀ b, b∈s.lh++[block] ↔ b∈s.lh ∨ b=block := by
      intro b
      rw [List.mem_append,List.mem_singleton]
    refine ⟨hsound (s.lh++[block]) _,rfl,?_,?_,?_,?_,hidle (s.lh++[block]) (used+1) hlh⟩
    · exact fun b hb => (view_pin block data b).trans (hview b hb)
    · change (s.lh++[block]).Nodup
      rw [List.nodup_append]
      refine ⟨h.nodup,List.nodup_singleton block,fun b hb k hk heq => ?_⟩
      rw [List.mem_singleton] at hk
      subst hk heq
      exact hin hb
    · intro b hb
      rcases (hlh b).mp hb with hb|rfl
      · exact h.home b hb
      · exact hhome
    · refine h.accounts.moved p rfl hless (Or.inl (List.subset_append_left _ _)) hactive ?_ ?_
      · rw [hbusy]
        rfl
      · rw [hp]
        change (s.lh++[block]).length+(most-(used+1)) ≤ s.lh.length+(most-used)
        rw [List.length_append,List.length_singleton]
        omega

/-- Ending an operation starts the commit if it is the last one, and wakes the
sleeping processes otherwise. -/
theorem running_endOp (h : Running c most s a) (hs : Sound c s a) {p : Fin np} {used : ℕ}
    (hp : s.place p=.inOp used) :
    ∃ a', follow Store.step Anything (observed s (.endOp p)).toList a=some a' ∧
      a'.durable=a.durable ∧ (endOp p s).phase=s.phase ∧ (endOp p s).disk=s.disk ∧
      (endOp p s).cache=s.cache ∧ (endOp p s).dirty=s.dirty ∧ Running c most (endOp p s) a' := by
  have hbusy : (s.place p).busy=1 := by rw [hp]; rfl
  obtain ⟨hflag,hnobody,hhead,hpinned,hout⟩ := h.not_committing hbusy
  have hactive := h.accounts.active
  have hpos : 0<a.active := by omega
  refine ⟨{a with active := a.active-1},?_,rfl,?_⟩
  · change follow Store.step Anything [.finish] a=_
    rw [follow_cons,Store.step,if_pos hpos]
    rfl
  have haccounts : ∀ (t : State np) (place : Place), t.place=Function.update s.place p place →
      place.Good c most s.lh → t.outstanding=s.outstanding-1 → place.busy=0 → place.reserve most=0 →
      t.lh=s.lh → Accounts c most t {a with active := a.active-1} := by
    intro t place hplace hgood ht hb hr hlh
    refine h.accounts.moved p hplace (by rw [hlh]; exact hgood)
      (Or.inl (by rw [hlh]; exact List.Subset.refl _)) ?_ ?_ ?_
    · rw [ht,hactive]
      change (a.active : ℤ)-1=((a.active-1 : ℕ) : ℤ)
      omega
    · rw [hb,hbusy]
      change a.active-1+1=a.active+0
      omega
    · rw [hr,hlh]
      omega
  have hflag' : ¬s.committing=true := by rw [hflag]; exact Bool.noConfusion
  by_cases hlast : s.outstanding-1=0
  · -- the last operation commits
    rw [endOp,if_neg hflag',if_pos hlast]
    refine ⟨rfl,rfl,rfl,rfl,h.view,h.nodup,h.home,?_,?_⟩
    · refine haccounts _ _ rfl ?_ rfl ?_ ?_ rfl
      · trivial
      · rfl
      · rfl
    · refine .busy p (if s.lh=[] then .finish else .writeLog 0) rfl hlast ?_ ?_ ?_
      · exact Function.update_self p _ s.place
      · intro q hq l hl
        change Function.update s.place p _ q=.commit l at hl
        rw [Function.update_of_ne hq] at hl
        exact hnobody q l hl
      · by_cases hempty : s.lh=[]
        · rw [if_pos hempty]
          have hsettled : Settled c a := settled_of_empty h hs hhead hpinned hempty
          exact ⟨hhead,hempty,hpinned,hsettled⟩
        · rw [if_neg hempty]
          exact ⟨hhead,hpinned,fun i _ hi => absurd hi (Nat.not_lt_zero i)⟩
  · -- others are still under way
    rw [endOp,if_neg hflag',if_neg hlast]
    have hleft : Running c most (({s with outstanding := s.outstanding-1} : State np).moved p
        .outside) {a with active := a.active-1} := by
      refine ⟨h.view,h.nodup,h.home,?_,?_⟩
      · exact haccounts _ .outside rfl trivial rfl rfl rfl rfl
      · have hmoved : Committing c (s.moved p .outside) a := by
          refine (Committing.idle hflag hnobody hhead hpinned (fun hz => ?_)).moved
            (hnobody p) (fun _ => Place.noConfusion)
          omega
        cases hmoved with
        | idle flag nobody head pinned quiet =>
          refine .idle flag nobody head pinned (fun hz => absurd hz hlast)
        | busy q k flag => exact absurd flag hflag'
    exact ⟨rfl,rfl,rfl,rfl,hleft.wakeup⟩

/-! ## The commit -/

/-- The process that commits. -/
theorem Running.committer (h : Running c most s a) {p : Fin np} {k : Stage}
    (hp : s.place p=.commit k) :
    s.committing=true ∧ s.outstanding=0 ∧ (∀ q≠p, ∀ l, s.place q≠.commit l) ∧ StageOk c s a k := by
  cases h.commit with
  | idle flag nobody head pinned quiet => exact absurd hp (nobody p k)
  | busy q l flag none here only stage =>
    by_cases hpq : p=q
    · subst hpq
      rw [hp] at here
      cases here
      exact ⟨flag,none,only,stage⟩
    · exact absurd hp (only p hpq k)

/-- The committing process goes from one stage to another. -/
theorem Running.staged (h : Running c most s a) {p : Fin np} {k l : Stage}
    (hp : s.place p=.commit k) {t : State np} {a' : Store ℕ Block}
    (hplace : t.place=Function.update s.place p (.commit l)) (hout : t.outstanding=s.outstanding)
    (hflag : t.committing=s.committing) (hlh : t.lh.Sublist s.lh) (hactive : a'.active=a.active)
    (hview : ∀ b, c.Home b → t.view b=a'.current b) (hstage : StageOk c t a' l) :
    Running c most t a' := by
  obtain ⟨hcommitting,hnone,honly,-⟩ := h.committer hp
  refine ⟨hview,h.nodup.sublist hlh,fun b hb => h.home b (hlh.subset hb),
    ?_,?_⟩
  · have hzero : a.active=0 := by
      have := h.accounts.active
      omega
    refine h.accounts.moved p hplace trivial (Or.inr hzero) ?_ ?_ ?_
    · rw [hout,hactive]
      exact h.accounts.active
    · rw [hp,hactive]
      rfl
    · rw [hp]
      exact Nat.add_le_add_right hlh.length_le 0
  · refine .busy p l (hflag.trans hcommitting) (hout.trans hnone) ?_ ?_ hstage
    · rw [hplace]
      exact Function.update_self p _ s.place
    · intro q hq m hm
      rw [hplace,Function.update_of_ne hq] at hm
      exact honly q hq m hm

/-- Copying a logged block to its slot leaves the store alone. -/
theorem running_writeLog (h : Running c most s a) (hs : Sound c s a)
    (hfit : roomFor most+1<c.size) {p : Fin np} {tail : ℕ}
    (hp : s.place p=.commit (.writeLog tail)) :
    Sound c (commitStep c p s (.writeLog tail)) a ∧ (commitStep c p s (.writeLog tail)).phase=s.phase ∧
      Running c most (commitStep c p s (.writeLog tail)) a := by
  obtain ⟨-,-,-,hstage⟩ := h.committer hp
  obtain ⟨hhead,hpinned,hcopied⟩ := hstage
  have hshort := h.accounts.short
  by_cases ht : tail<s.lh.length
  · rw [commitStep,if_pos ht]
    have hblock : s.lh.getD tail 0=s.lh.get ⟨tail,ht⟩ := List.getD_eq_getElem _ _ ht
    have hfill : Sound c (writeLog c tail s) a := (hs.bread _).fill hhead (by omega) _
    have hview : ∀ b, c.Home b → (writeLog c tail s).view b=s.view b := by
      intro b hb
      rw [writeLog,view_bwrite,if_neg (not_home_slot (by omega) hb),view_bread]
    refine ⟨hfill.same rfl rfl rfl rfl,rfl,?_⟩
    refine h.staged hp rfl rfl rfl (List.Sublist.refl _) rfl
      (fun b hb => (hview b hb).trans (h.view b hb)) ⟨?_,?_,?_⟩
    · change headOf ((writeLog c tail s).disk c.start)=[]
      rw [writeLog,disk_bwrite,if_neg (by omega)]
      exact hhead
    · intro b
      change (writeLog c tail s).dirty b=true ↔ b∈s.lh.drop 0
      rw [writeLog,dirty_bwrite]
      split_ifs with hb
      · refine iff_of_false not_false (fun hin => ?_)
        exact not_home_slot (by omega) (h.home b hin) hb
      · exact hpinned b
    · intro i hi hlt
      change i<s.lh.length at hi
      change (writeLog c tail s).disk (c.start+i+1)=
        (writeLog c tail s).view (s.lh.get ⟨i,hi⟩)
      rw [hview _ (h.home _ (List.get_mem s.lh ⟨i,hi⟩)),writeLog,disk_bwrite]
      by_cases hit : i=tail
      · subst hit
        rw [if_pos rfl,hblock]
      · rw [if_neg (by omega)]
        exact hcopied i hi (by omega)
  · rw [commitStep,if_neg ht]
    refine ⟨hs.same rfl rfl rfl rfl,rfl,?_⟩
    refine h.staged hp rfl rfl rfl (List.Sublist.refl _) rfl h.view ⟨hhead,hpinned,?_⟩
    exact fun i (hi : i<s.lh.length) _ =>
      hcopied i hi (Nat.lt_of_lt_of_le hi (Nat.not_lt.mp ht))

/-- Copying a slot to its home block leaves the store alone. -/
theorem running_install (h : Running c most s a) (hs : Sound c s a)
    (hfit : roomFor most+1<c.size) {p : Fin np} {tail : ℕ}
    (hp : s.place p=.commit (.install tail)) :
    Sound c (commitStep c p s (.install tail)) a ∧ (commitStep c p s (.install tail)).phase=s.phase ∧
      Running c most (commitStep c p s (.install tail)) a := by
  obtain ⟨-,-,-,hstage⟩ := h.committer hp
  obtain ⟨hhead,hpinned,hsettled⟩ := hstage
  have hshort := h.accounts.short
  by_cases ht : tail<s.lh.length
  · rw [commitStep,if_pos ht]
    have hblock : s.lh.getD tail 0=s.lh[tail] := List.getD_eq_getElem _ _ ht
    have hlisted : s.lh[tail]∈s.lh := List.getElem_mem ht
    have hhome := h.home _ hlisted
    have hslot : s.view (c.start+tail+1)=a.current s.lh[tail] := by
      have hclean : s.dirty (c.start+tail+1)=false := by
        refine Bool.eq_false_of_not_eq_true (fun hd => ?_)
        have hin := List.mem_of_mem_drop ((hpinned _).mp hd)
        exact not_home_slot (by omega) (h.home _ hin) rfl
      have hin : tail<(imageOf c s.disk).head.length := by
        change tail<(headOf (s.disk c.start)).length
        rw [hhead]
        exact ht
      have hlogical := Image.logical_listed hs.headNodup hin
      have hsame : (imageOf c s.disk).head.get ⟨tail,hin⟩=s.lh[tail] :=
        List.getElem_of_eq hhead hin
      rw [hsame,hs.durable _ hhome,hsettled _ hhome] at hlogical
      rw [hs.coherent.view hclean,hlogical]
      rfl
    have hinstall : Sound c (installTrans c tail s) a := by
      refine (hs.bread _).install ?_ _
      change s.lh.getD tail 0∈headOf (s.disk c.start)
      rw [hhead,hblock]
      exact hlisted
    refine ⟨hinstall.same rfl rfl rfl rfl,rfl,?_⟩
    refine h.staged hp rfl rfl rfl (List.Sublist.refl _) rfl (fun b hb => ?_) ⟨?_,?_,hsettled⟩
    · change (installTrans c tail s).view b=a.current b
      rw [installTrans,view_bwrite,view_bread,hblock]
      split_ifs with hb'
      · rw [hslot,hb']
      · exact h.view b hb
    · change headOf ((installTrans c tail s).disk c.start)=s.lh
      rw [installTrans,disk_bwrite,hblock,if_neg (not_home_start (by omega) hhome).symm]
      exact hhead
    · intro b
      change (installTrans c tail s).dirty b=true ↔ b∈s.lh.drop (tail+1)
      rw [installTrans,dirty_bwrite,hblock]
      have hdrop : s.lh.drop tail=s.lh[tail]::s.lh.drop (tail+1) := List.drop_eq_getElem_cons ht
      have hnodup : (s.lh.drop tail).Nodup := h.nodup.sublist (List.drop_sublist tail s.lh)
      rw [hdrop,List.nodup_cons] at hnodup
      have hbefore : s.dirty b=true ↔ b∈s.lh[tail]::s.lh.drop (tail+1) := by
        rw [←hdrop]
        exact hpinned b
      split_ifs with hb
      · rw [hb]
        exact iff_of_false not_false hnodup.1
      · change s.dirty b=true ↔ _
        rw [hbefore,List.mem_cons]
        exact or_iff_right hb
  · rw [commitStep,if_neg ht]
    refine ⟨hs.same rfl rfl rfl rfl,rfl,?_⟩
    refine h.staged hp rfl rfl rfl (List.Sublist.refl _) rfl h.view ⟨hhead,?_,hsettled⟩
    intro b
    change s.dirty b=true ↔ b∈s.lh.drop s.lh.length
    rw [hpinned b,List.drop_eq_nil_of_le (Nat.not_lt.mp ht),List.drop_length]

/-- Writing an empty header leaves the store alone. -/
theorem running_clear (h : Running c most s a) (hs : Sound c s a)
    (hfit : roomFor most+1<c.size) {p : Fin np}
    (hp : s.place p=.commit (.clear)) :
    Sound c (commitStep c p s (.clear)) a ∧ (commitStep c p s (.clear)).phase=s.phase ∧
      Running c most (commitStep c p s (.clear)) a := by
  obtain ⟨-,-,-,hstage⟩ := h.committer hp
  obtain ⟨hhead,hpinned,hsettled⟩ := hstage
  have hshort := h.accounts.short
  have hclean : ∀ b, s.dirty b=false := by
    intro b
    refine Bool.eq_false_of_not_eq_true (fun hd => ?_)
    have hin := (hpinned b).mp hd
    rw [List.drop_length] at hin
    exact List.not_mem_nil hin
  have hstart : 0<c.size := by omega
  have hemptied : Sound c ({s with lh := []} : State np) a := hs.same rfl rfl rfl rfl
  obtain ⟨hhead',hsound⟩ := hemptied.clear rfl (fun b hb => by
    change b∈headOf (s.disk c.start) at hb
    rw [hhead] at hb
    rw [hsettled b (h.home b hb)]
    exact h.disk hs (h.home b hb) (hclean b))
  refine ⟨hsound.same rfl rfl rfl rfl,rfl,?_⟩
  refine h.staged hp rfl rfl rfl (List.nil_sublist _) rfl (fun b hb => ?_)
    ⟨hhead',rfl,fun b => ?_,hsettled⟩
  · change (writeHead c {s with lh := []}).view b=a.current b
    rw [writeHead,view_bwrite,if_neg (not_home_start hstart hb)]
    exact h.view b hb
  · change (writeHead c {s with lh := []}).dirty b=true ↔ b∈[]
    rw [writeHead,dirty_bwrite]
    refine iff_of_false (fun hd => ?_) List.not_mem_nil
    split_ifs at hd with hb
    exact Bool.noConfusion ((hclean b).symm.trans hd)

/-- Writing the header makes the current values durable. -/
theorem running_writeHead (h : Running c most s a) (hs : Sound c s a) (hmost : most < maxOpBlocks)
    (hfit : roomFor most+1<c.size) {p : Fin np} (hp : s.place p=.commit .writeHead) :
    Sound c (commitStep c p s .writeHead) {a with durable := a.current} ∧
      (commitStep c p s .writeHead).phase=s.phase ∧
      Running c most (commitStep c p s .writeHead) {a with durable := a.current} := by
  obtain ⟨-,-,-,hstage⟩ := h.committer hp
  obtain ⟨hhead,hpinned,hcopied⟩ := hstage
  have hshort := h.accounts.short
  have hcopied' : ∀ i (hi : i<s.lh.length),
      s.disk (c.start+i+1)=a.current (s.lh.get ⟨i,hi⟩) := by
    intro i hi
    rw [hcopied i hi hi]
    exact h.view _ (h.home _ (List.get_mem s.lh ⟨i,hi⟩))
  have hrest : ∀ b, c.Home b → b∉s.lh → s.disk b=a.current b := by
    intro b hb hout
    refine h.disk hs hb (Bool.eq_false_of_not_eq_true (fun hd => hout ?_))
    exact (hpinned b).mp hd
  have hlimit := roomFor_lt hmost
  obtain ⟨hhead',hsound⟩ := hs.commit h.nodup h.home (by omega) (by omega) hcopied' hrest
  have hstart : 0<c.size := by omega
  refine ⟨hsound.same rfl rfl rfl rfl,rfl,?_⟩
  refine h.staged hp rfl rfl rfl (List.Sublist.refl _) rfl (fun b hb => ?_)
    ⟨hhead',?_,fun _ _ => rfl⟩
  · change (writeHead c s).view b=a.current b
    rw [writeHead,view_bwrite,if_neg (not_home_start hstart hb)]
    exact h.view b hb
  · intro b
    change (writeHead c s).dirty b=true ↔ b∈s.lh.drop 0
    rw [writeHead,dirty_bwrite]
    split_ifs with hb
    · refine iff_of_false not_false (fun hin => ?_)
      exact not_home_start hstart (h.home b hin) hb
    · exact hpinned b

/-- The end of the last `end_op` wakes the sleeping processes. -/
theorem running_finish (h : Running c most s a) (hs : Sound c s a) {p : Fin np}
    (hp : s.place p=.commit .finish) :
    Sound c (commitStep c p s .finish) a ∧ (commitStep c p s .finish).phase=s.phase ∧
      Running c most (commitStep c p s .finish) a := by
  obtain ⟨-,-,honly,hstage⟩ := h.committer hp
  obtain ⟨hhead,hlh,hpinned,hsettled⟩ := hstage
  refine ⟨?_,rfl,?_⟩
  · exact hs.same rfl rfl rfl rfl
  · have hdone : Running c most (({s with committing := false} : State np).moved p .outside) a := by
      refine ⟨h.view,h.nodup,h.home,?_,?_⟩
      · refine h.accounts.moved p rfl trivial (Or.inl (List.Subset.refl _)) h.accounts.active ?_ ?_
        · rw [hp]
          rfl
        · rw [hp]
          exact Nat.le_refl _
      · refine .idle rfl (fun q l hq => ?_) hhead hpinned (fun _ => ⟨hlh,hsettled⟩)
        change Function.update s.place p .outside q=.commit l at hq
        by_cases hqp : q=p
        · subst hqp
          rw [Function.update_self] at hq
          cases hq
        · rw [Function.update_of_ne hqp] at hq
          exact honly q hqp l hq
    exact hdone.wakeup

/-- One step of a commit. Writing the header makes the current values durable;
every other step leaves the store alone. -/
theorem running_commit (h : Running c most s a) (hs : Sound c s a) (hmost : most < maxOpBlocks)
    (hfit : roomFor most+1<c.size) {p : Fin np} {k : Stage}
    (hp : s.place p=.commit k) :
    ∃ a', follow Store.step Anything (observed s (.commit p)).toList a=some a' ∧
      Sound c (commitStep c p s k) a' ∧ (commitStep c p s k).phase=s.phase ∧
      Running c most (commitStep c p s k) a' := by
  have hunseen : k≠.writeHead → observed s (.commit p)=none := by
    intro hk
    refine if_neg (fun heq => ?_)
    rw [hp] at heq
    exact hk (Place.commit.inj heq)
  cases k with
  | writeLog tail =>
    exact ⟨a,by rw [hunseen Stage.noConfusion]; rfl,running_writeLog h hs hfit hp⟩
  | writeHead =>
    refine ⟨{a with durable := a.current},?_,running_writeHead h hs hmost hfit hp⟩
    have hactive : a.active=0 := by
      have hcounted := h.accounts.active
      have hnone := (h.committer hp).2.1
      omega
    rw [observed,if_pos hp]
    change follow Store.step Anything [.commit] a=_
    rw [follow_cons,Store.step,if_pos hactive]
    rfl
  | install tail =>
    exact ⟨a,by rw [hunseen Stage.noConfusion]; rfl,running_install h hs hfit hp⟩
  | clear => exact ⟨a,by rw [hunseen Stage.noConfusion]; rfl,running_clear h hs hfit hp⟩
  | finish => exact ⟨a,by rw [hunseen Stage.noConfusion]; rfl,running_finish h hs hp⟩

/-! ## Runs -/

/-- Recycling a clean buffer changes nothing. -/
theorem running_evict (h : Running c most s a) (hs : Sound c s a) {b : ℕ}
    (hb : s.dirty b=false) :
    Running c most {s with cache := Function.update s.cache b none} a := by
  refine ⟨fun k hk => (view_evict hs.coherent hb k).trans (h.view k hk),h.nodup,h.home,
    ⟨h.accounts.active,h.accounts.counted,h.accounts.reserved,h.accounts.good⟩,?_⟩
  cases h.commit with
  | idle flag nobody head pinned quiet => exact .idle flag nobody head pinned quiet
  | busy q k flag none here only stage =>
    refine .busy q k flag none here only ?_
    cases k with
    | writeLog tail =>
      obtain ⟨hhead,hpinned,hcopied⟩ := stage
      exact ⟨hhead,hpinned,fun i hi hlt =>
        (hcopied i hi hlt).trans (view_evict hs.coherent hb _).symm⟩
    | writeHead =>
      obtain ⟨hhead,hpinned,hcopied⟩ := stage
      exact ⟨hhead,hpinned,fun i hi hlt =>
        (hcopied i hi hlt).trans (view_evict hs.coherent hb _).symm⟩
    | install tail => exact stage
    | clear => exact stage
    | finish => exact stage

/-- In a running kernel the phase is the running one. -/
theorem Simulates.running (h : Simulates c most s a) (hp : s.phase=.running) :
    Running c most s a := by
  have hphase := h.phase
  rw [hp] at hphase
  exact hphase

/-- A running kernel that is sound simulates. -/
theorem Running.simulates (h : Running c most s a) (hs : Sound c s a) (hp : s.phase=.running) :
    Simulates c most s a := by
  refine ⟨hs,?_⟩
  rw [hp]
  exact h

/-- Recycling a clean buffer matters in no phase. -/
theorem phaseOk_evict (h : Simulates c most s a) {b : ℕ} (hb : s.dirty b=false) {phase : Phase}
    (hp : s.phase=phase) :
    PhaseOk c most {s with cache := Function.update s.cache b none} a phase := by
  have hphase := h.phase
  rw [hp] at hphase
  cases phase with
  | readHead => exact hphase.same rfl rfl rfl rfl
  | install tail =>
    obtain ⟨hrest,hrecover⟩ := hphase
    exact ⟨hrest.same rfl rfl rfl rfl,hrecover.lh,hrecover.installed⟩
  | clear =>
    obtain ⟨hrest,hrecover⟩ := hphase
    exact ⟨hrest.same rfl rfl rfl rfl,hrecover.lh,hrecover.installed⟩
  | running => exact running_evict hphase h.sound hb
  | panicked => exact hphase
  | overrun => exact hphase

/-- Every step of the system is a step of the store or none. -/
theorem simulates_step (hmost : most < maxOpBlocks) (hsize : logSize≤c.size)
    {act : Action np} (h : Simulates c most s a) (hallowed : Modest c most s act)
    (hstep : step c act s=some s') :
    ∃ a', follow Store.step Anything (observed s act).toList a=some a' ∧
      Simulates c most s' a' := by
  have hfit : roomFor most+1<c.size := Nat.lt_of_lt_of_le (roomFor_lt hmost) hsize
  cases act with
  | beginOp p =>
    obtain ⟨hrun,hp,rfl⟩ := step_beginOp hstep
    obtain ⟨a',hfollow,hdurable,hrunning⟩ := running_beginOp (h.running hrun) hmost hp
    refine ⟨a',hfollow,hrunning.simulates ?_ ?_⟩
    · rcases beginOp_cases p s with heq|heq <;> rw [heq]
      all_goals exact h.sound.same hdurable rfl rfl rfl
    · rcases beginOp_cases p s with heq|heq <;> rw [heq]
      all_goals exact hrun
  | logCheck p block data =>
    obtain ⟨used,hrun,hp,rfl⟩ := step_logCheck hstep
    obtain ⟨hblock,hmay⟩ := hallowed
    rw [hp] at hmay
    obtain ⟨hphase,hrunning,hdisk,hcache,hdirty⟩ :=
      running_logCheck (h.running hrun) hmost hfit hp hblock hmay
    exact ⟨a,rfl,hrunning.simulates (h.sound.same rfl hdisk hcache hdirty) (hphase.trans hrun)⟩
  | logAppend p =>
    obtain ⟨used,block,data,hrun,hp,rfl⟩ := step_logAppend hstep
    obtain ⟨a',hfollow,hsound,hphase,hrunning⟩ :=
      running_logAppend (h.running hrun) h.sound hmost hp
    exact ⟨a',hfollow,hrunning.simulates hsound (hphase.trans hrun)⟩
  | endOp p =>
    obtain ⟨used,hrun,hp,rfl⟩ := step_endOp hstep
    obtain ⟨a',hfollow,hdurable,hphase,hdisk,hcache,hdirty,hrunning⟩ :=
      running_endOp (h.running hrun) h.sound hp
    exact ⟨a',hfollow,
      hrunning.simulates (h.sound.same hdurable hdisk hcache hdirty) (hphase.trans hrun)⟩
  | commit p =>
    obtain ⟨k,hrun,hp,rfl⟩ := step_commit hstep
    obtain ⟨a',hfollow,hsound,hphase,hrunning⟩ :=
      running_commit (h.running hrun) h.sound hmost hfit hp
    exact ⟨a',hfollow,hrunning.simulates hsound (hphase.trans hrun)⟩
  | kill p =>
    obtain ⟨hrun,hp,rfl⟩ := step_kill hstep
    have hrunning : Running c most (s.moved p .awake) a := by
      refine (h.running hrun).moved ?_ (fun _ => Place.noConfusion) trivial ?_ (Nat.zero_le _)
      · rw [hp]
        exact fun _ => Place.noConfusion
      · rw [hp]
        rfl
    exact ⟨a,rfl,hrunning.simulates (h.sound.same rfl rfl rfl rfl) hrun⟩
  | evict block =>
    obtain ⟨hb,rfl⟩ := step_evict hstep
    exact ⟨a,rfl,⟨h.sound.durable,h.sound.headNodup,h.sound.headHome,h.sound.headRoom,
      h.sound.coherent.evict block⟩,phaseOk_evict h hb rfl⟩
  | crash =>
    cases hstep
    exact ⟨_,rfl,simulates_crash h⟩
  | recover => exact ⟨a,rfl,simulates_recover h hstep⟩

/-- What the store has in common with the system. -/
structure Represents (c : Layout) (s : State np) (a : Store ℕ Block) : Prop where
  /-- The kernel has not stopped, and has not written behind `log.lh.block`. -/
  alive : s.phase≠.panicked ∧ s.phase≠.overrun
  /-- Blocks that the header lists stand for their slots, all others for themselves. -/
  durable : ∀ b, c.Home b → (imageOf c s.disk).logical b=a.durable b
  /-- A running kernel reads the current values. -/
  current : s.phase=.running → ∀ b, c.Home b → s.view b=a.current b
  /-- A running kernel counts the operations under way. -/
  active : s.phase=.running → s.outstanding=(a.active : ℤ)
  /-- When no operation is under way and nobody commits, all changes are durable. -/
  settled : s.phase=.running → s.outstanding=0 → s.committing=false →
    ∀ b, c.Home b → a.durable b=a.current b

/-- A state that simulates a store represents it. -/
theorem Simulates.represents (h : Simulates c most s a) : Represents c s a := by
  have hphase := h.phase
  refine ⟨⟨fun hp => ?_,fun hp => ?_⟩,h.sound.durable,fun hp => (h.running hp).view,
    fun hp => (h.running hp).accounts.active,fun hp hout hflag => ?_⟩
  · rw [hp] at hphase
    exact hphase
  · rw [hp] at hphase
    exact hphase
  · cases (h.running hp).commit with
    | idle flag nobody head pinned quiet => exact (quiet hout).2
    | busy q k flag => exact absurd (hflag.symm.trans flag) Bool.noConfusion

/-- Before the first recovery the store holds what is on the disk. -/
theorem simulates_booted {disk : ℕ → Block} (hempty : headOf (disk c.start)=[])
    (hsize : 0<c.size) : Simulates c most (booted np disk) (Store.opened disk) := by
  refine ⟨⟨fun b _ => Image.logical_empty hempty b,?_,?_,?_,fun b data hc => ?_⟩,
    ⟨fun _ => rfl,rfl,rfl,fun _ => rfl,rfl,rfl⟩⟩
  · change (headOf (disk c.start)).Nodup
    rw [hempty]
    exact List.nodup_nil
  · change ∀ b∈headOf (disk c.start), c.Home b
    rw [hempty]
    exact fun b hb => absurd hb List.not_mem_nil
  · change (headOf (disk c.start)).length<c.size
    rw [hempty]
    exact hsize
  · cases hc

/-- The system is a store with transactions: along every run from a disk with an
empty log, over any number of processes, recycled buffers, crashes and
interrupted recoveries, what the store sees leads to a store that the system
represents, as long as every operation adds less than `MAXOPBLOCKS` blocks to the
log. -/
theorem log_refines (np : ℕ) {c : Layout} {most : ℕ} {disk : ℕ → Block} {acts : List (Action np)}
    {s : State np} (hempty : headOf (disk c.start)=[]) (hmost : most < maxOpBlocks)
    (hsize : logSize≤c.size)
    (hrun : follow (step c) (Modest c most) acts (booted np disk)=some s) :
    ∃ a, follow Store.step Anything (observations (step c) observed acts (booted np disk))
      (Store.opened disk)=some a ∧ Represents c s a := by
  have hstart : Simulates c most (booted np disk) (Store.opened disk) :=
    simulates_booted hempty (Nat.lt_of_lt_of_le (by decide) hsize)
  obtain ⟨a,hfollow,h⟩ := follow_simulates (Simulates c most)
    (fun _ _ _ _ h ha hs => simulates_step hmost hsize h ha hs) hstart hrun
  exact ⟨a,hfollow,h.represents⟩

/-- The kernel behind the recovery of an empty log. -/
def recovered (c : Layout) (np : ℕ) (disk : ℕ → Block) : State np :=
  {writeHead c {(booted np disk).bread c.start with lh := []} with phase := .running}

/-- Recovering an empty log takes three steps. -/
theorem follow_recovered {disk : ℕ → Block} (hempty : headOf (disk c.start)=[])
    (rest : List (Action np)) :
    follow (step c) (Modest c most) (.recover::.recover::.recover::rest) (booted np disk)=
      follow (step c) (Modest c most) rest (recovered c np disk) := by
  let first : State np :=
    {(booted np disk).bread c.start with lh := headOf (disk c.start),phase := .install 0}
  have hfirst : step c .recover (booted np disk)=some first := rfl
  have hsecond : step c .recover first=some {first with phase := .clear} := by
    refine if_neg ?_
    change ¬0<(headOf (disk c.start)).length
    rw [hempty]
    exact Nat.lt_irrefl 0
  have hthird : step c .recover {first with phase := .clear}=some (recovered c np disk) := rfl
  rw [follow_cons_of trivial hfirst,follow_cons_of trivial hsecond,follow_cons_of trivial hthird]

/-- The header of a block of zeros lists nothing. -/
theorem headOf_zeros : headOf (fun _ => 0)=[] := by
  have hbytes : Block.bytes (fun _ => 0)=fun _ => 0 := by
    funext k
    unfold Block.bytes
    split <;> rfl
  have hcount : intAt (Block.bytes (fun _ => 0)) 0=0 := by
    rw [hbytes]
    exact wrap32_zero
  rw [headOf,hcount]
  rfl

/-- The kernel comes up, and an operation logs a block and commits it before the
machine crashes. -/
def commitThenCrash (p : Fin np) : List (Action np) :=
  [.recover,.recover,.recover,.beginOp p,.logCheck p 40 (fun _ => 1),.logAppend p,.endOp p,
   .commit p,.commit p,.commit p,.crash]

/-- A disk of zeros, with a log of `LOGSIZE` blocks from block 2 on, is a store
along a run that commits a block. -/
theorem committed_block_stored :
    ∃ s a, follow (step ⟨2,30⟩) (Modest ⟨2,30⟩ 9) (commitThenCrash 0)
        (booted 1 (fun _ _ => 0))=some s ∧
      follow Store.step Anything
        (observations (step ⟨2,30⟩) observed (commitThenCrash 0) (booted 1 (fun _ _ => 0)))
        (Store.opened (fun _ _ => 0))=some a ∧ Represents ⟨2,30⟩ s a := by
  have hrun : ∃ s, follow (step ⟨2,30⟩) (Modest ⟨2,30⟩ 9) (commitThenCrash 0)
      (booted 1 (fun _ _ => 0))=some s := by
    rw [commitThenCrash,@follow_recovered 1 ⟨2,30⟩ 9 (fun _ _ => 0) headOf_zeros]
    exact ⟨_,rfl⟩
  obtain ⟨s,hs⟩ := hrun
  obtain ⟨a,ha,hrep⟩ := @log_refines 1 ⟨2,30⟩ 9 (fun _ _ => 0) (commitThenCrash 0) s headOf_zeros
    (by decide) (by decide) hs
  exact ⟨s,a,hs,ha,hrep⟩

end ComputerSystems.Xv6Log
