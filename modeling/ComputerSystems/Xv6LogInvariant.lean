import ComputerSystems.Xv6LogHead
import ComputerSystems.UpdateSum
import Mathlib.Algebra.BigOperators.Ring.Finset
import Mathlib.Algebra.Order.BigOperators.Group.Finset
import Mathlib.Data.List.GetD

/-!
# What holds of the log in every state

The disk and the cache are related to a store with transactions: the header and
its slots say what the durable values are, the cache what the current values are.
The space of the log is accounted for by the processes in operations, and a
commit or a recovery that has come some way has written the blocks up to there.
Recovery is shown here to keep all this.
-/

namespace ComputerSystems.Xv6Log

open ByteMemory RedoLog TransitionSystem UpdateSum

variable {np : ℕ} {c : Layout} {most : ℕ} {s s' : State np} {a : Store ℕ Block}

/-! ## What the disk stands for -/

/-- The log and the home blocks of a disk. -/
def imageOf (c : Layout) (disk : ℕ → Block) : Image ℕ Block :=
  {head := headOf (disk c.start),slot := fun i => disk (c.start+i+1),home := disk}

/-- The disk stands for the durable values and the cache agrees with it. -/
structure Sound (c : Layout) (s : State np) (a : Store ℕ Block) : Prop where
  /-- Home blocks stand for their durable values. -/
  durable : ∀ b, c.Home b → (imageOf c s.disk).logical b=a.durable b
  /-- The header lists each block once. -/
  headNodup : (headOf (s.disk c.start)).Nodup
  /-- The header lists home blocks. -/
  headHome : ∀ b∈headOf (s.disk c.start), c.Home b
  /-- The slots of the header lie in the log. -/
  headRoom : (headOf (s.disk c.start)).length<c.size
  /-- Clean cached blocks agree with the disk. -/
  coherent : Coherent s

/-- Only the disk and the cache matter. -/
theorem Sound.same (h : Sound c s a) {a' : Store ℕ Block} (ha : a'.durable=a.durable)
    (hdisk : s'.disk=s.disk) (hcache : s'.cache=s.cache) (hdirty : s'.dirty=s.dirty) :
    Sound c s' a' := by
  constructor
  · rw [hdisk,ha]
    exact h.durable
  · rw [hdisk]
    exact h.headNodup
  · rw [hdisk]
    exact h.headHome
  · rw [hdisk]
    exact h.headRoom
  · unfold Coherent
    rw [hdisk,hcache,hdirty]
    exact h.coherent

/-- A slot of the log is no home block. -/
theorem not_home_slot {i b : ℕ} (hi : i+1<c.size) (hb : c.Home b) : b≠c.start+i+1 := by
  have := hb.1
  omega

/-- The header is no home block. -/
theorem not_home_start (hsize : 0<c.size) {b : ℕ} (hb : c.Home b) : b≠c.start := by
  have := hb.1
  omega

/-- `bread` keeps the disk and the agreement of the cache. -/
theorem Sound.bread (h : Sound c s a) (b : ℕ) : Sound c (s.bread b) a :=
  ⟨h.durable,h.headNodup,h.headHome,h.headRoom,h.coherent.bread b⟩

/-- Writing to a slot while the header is empty. -/
theorem Sound.fill (h : Sound c s a) (hempty : headOf (s.disk c.start)=[]) {i : ℕ}
    (hi : i+1<c.size) (data : Block) : Sound c (s.bwrite (c.start+i+1) data) a := by
  have hhead : (s.bwrite (c.start+i+1) data).disk c.start=s.disk c.start := by
    rw [disk_bwrite,if_neg (by omega)]
  constructor
  · intro b hb
    rw [←h.durable b hb]
    refine logical_fill hempty (congrArg headOf hhead) ?_
    change (s.bwrite (c.start+i+1) data).disk b=s.disk b
    rw [disk_bwrite,if_neg (not_home_slot hi hb)]
  · rw [hhead]
    exact h.headNodup
  · rw [hhead]
    exact h.headHome
  · rw [hhead]
    exact h.headRoom
  · exact h.coherent.bwrite _ data

/-- Writing to a block that the header lists. -/
theorem Sound.install (h : Sound c s a) {b : ℕ} (hb : b∈headOf (s.disk c.start)) (data : Block) :
    Sound c (s.bwrite b data) a := by
  have hhome := h.headHome b hb
  have hsize : 0<c.size := Nat.zero_lt_of_lt h.headRoom
  have hhead : (s.bwrite b data).disk c.start=s.disk c.start := by
    rw [disk_bwrite,if_neg (not_home_start hsize hhome).symm]
  constructor
  · intro k hk
    rw [←h.durable k hk]
    refine logical_install (congrArg headOf hhead) (fun j hj => ?_) (fun hout => ?_)
    · have hroom : j+1<c.size := Nat.lt_of_le_of_lt hj h.headRoom
      change (s.bwrite b data).disk (c.start+j+1)=s.disk (c.start+j+1)
      rw [disk_bwrite,if_neg (not_home_slot hroom hhome).symm]
    · have hne : k≠b := by
        intro heq
        rw [heq] at hout
        exact hout hb
      change (s.bwrite b data).disk k=s.disk k
      rw [disk_bwrite,if_neg hne]
  · rw [hhead]
    exact h.headNodup
  · rw [hhead]
    exact h.headHome
  · rw [hhead]
    exact h.headRoom
  · exact h.coherent.bwrite b data

/-- The disk behind a written header. -/
theorem disk_writeHead (k : ℕ) :
    (writeHead c s).disk k=if k=c.start then putHead (s.view c.start) s.lh else s.disk k :=
  disk_bwrite c.start _ k

/-- The commit: with the logged values in their slots, a header that lists the
logged blocks makes the current values durable. -/
theorem Sound.commit (h : Sound c s a) (hnodup : s.lh.Nodup) (hhome : ∀ b∈s.lh, c.Home b)
    (hshort : s.lh.length≤logSize) (hroom : s.lh.length<c.size)
    (hcopied : ∀ i (hi : i<s.lh.length), s.disk (c.start+i+1)=a.current (s.lh.get ⟨i,hi⟩))
    (hrest : ∀ b, c.Home b → b∉s.lh → s.disk b=a.current b) :
    headOf ((writeHead c s).disk c.start)=s.lh ∧
      Sound c (writeHead c s) {a with durable := a.current} := by
  have hsize : 0<c.size := Nat.zero_lt_of_lt h.headRoom
  have hhead : headOf ((writeHead c s).disk c.start)=s.lh := by
    rw [disk_writeHead,if_pos rfl]
    exact headOf_putHead _ (Nat.le_trans hshort (by decide)) (fun b hb => (hhome b hb).2)
  refine ⟨hhead,?_,?_,?_,?_,h.coherent.bwrite _ _⟩
  · intro b hb
    refine logical_commit (fun i hi => ?_) (fun hout => ?_)
    · change i<(headOf ((writeHead c s).disk c.start)).length at hi
      change (writeHead c s).disk (c.start+i+1)=
        a.current ((headOf ((writeHead c s).disk c.start)).get ⟨i,hi⟩)
      have hi' : i<s.lh.length := by rw [←hhead]; exact hi
      rw [disk_writeHead,if_neg (by omega),hcopied i hi']
      congr 1
      exact (List.getElem_of_eq hhead hi).symm
    · change b∉headOf ((writeHead c s).disk c.start) at hout
      rw [hhead] at hout
      change (writeHead c s).disk b=a.current b
      rw [disk_writeHead,if_neg (not_home_start hsize hb),hrest b hb hout]
  · rw [hhead]
    exact hnodup
  · rw [hhead]
    exact hhome
  · rw [hhead]
    exact hroom

/-- Writing an empty header once the listed blocks hold their durable values. -/
theorem Sound.clear (h : Sound c s a) (hlh : s.lh=[])
    (hinstalled : ∀ b∈headOf (s.disk c.start), s.disk b=a.durable b) :
    headOf ((writeHead c s).disk c.start)=[] ∧ Sound c (writeHead c s) a := by
  have hsize : 0<c.size := Nat.zero_lt_of_lt h.headRoom
  have hhead : headOf ((writeHead c s).disk c.start)=[] := by
    rw [disk_writeHead,if_pos rfl,hlh]
    exact headOf_putHead_nil _
  refine ⟨hhead,?_,?_,?_,?_,h.coherent.bwrite _ _⟩
  · intro b hb
    rw [←h.durable b hb]
    refine logical_clear hhead ?_ (fun hin => ?_)
    · change (writeHead c s).disk b=s.disk b
      rw [disk_writeHead,if_neg (not_home_start hsize hb)]
    · rw [h.durable b hb]
      exact hinstalled b hin
  · rw [hhead]
    exact List.nodup_nil
  · rw [hhead]
    exact fun b hb => absurd hb List.not_mem_nil
  · rw [hhead]
    exact hsize

/-! ## The processes -/

/-- Whether a process is between `begin_op` and `end_op`. -/
def Place.busy : Place → ℕ
  | .inOp _ => 1
  | .logging _ _ _ => 1
  | _ => 0

/-- The blocks a process may still add to the log. -/
def Place.reserve (most : ℕ) : Place → ℕ
  | .inOp used => most-used
  | .logging used _ _ => most-used
  | _ => 0

/-- The most blocks that operations of this size can log before a commit:
`begin_op` lets an operation in beside another one only with `MAXOPBLOCKS` blocks
to spare for both. -/
def roomFor (most : ℕ) : ℕ := logSize-2*(maxOpBlocks-most)

/-- What is known of a process in an operation. -/
def Place.Good (c : Layout) (most : ℕ) (lh : List ℕ) : Place → Prop
  | .inOp used => used ≤ most
  | .logging used block _ => used ≤ most ∧ c.Home block ∧ (block∈lh ∨ used < most)
  | _ => True

/-- More logged blocks do no harm. -/
theorem Place.Good.mono {place : Place} {lh lh' : List ℕ} (h : place.Good c most lh)
    (hsub : lh⊆lh') : place.Good c most lh' := by
  cases place with
  | inOp used => exact h
  | logging used block data =>
    obtain ⟨hused,hhome,hmay⟩ := h
    exact ⟨hused,hhome,hmay.imp_left (fun hin => hsub hin)⟩
  | outside => trivial
  | asleep => trivial
  | awake => trivial
  | commit k => trivial

/-- Nothing is required outside of operations. -/
theorem Place.good_of_idle {place : Place} (h : place.busy=0) (lh : List ℕ) :
    place.Good c most lh := by
  cases place with
  | inOp used => cases h
  | logging used block data => cases h
  | outside => trivial
  | asleep => trivial
  | awake => trivial
  | commit k => trivial

/-- The space of the log is accounted for. -/
structure Accounts (c : Layout) (most : ℕ) (s : State np) (a : Store ℕ Block) : Prop where
  /-- `log.outstanding` counts the operations under way. -/
  active : s.outstanding=(a.active : ℤ)
  /-- So do the processes. -/
  counted : a.active=∑ p, (s.place p).busy
  /-- What is logged and what is reserved fits into the log. -/
  reserved : s.lh.length+∑ p, (s.place p).reserve most≤roomFor most
  /-- Each process is within its number of blocks. -/
  good : ∀ p, (s.place p).Good c most s.lh

/-- A process that goes somewhere else changes the sums by its own share. -/
theorem Accounts.moved (h : Accounts c most s a) (p : Fin np) {place : Place}
    {a' : Store ℕ Block} (hplace : s'.place=Function.update s.place p place)
    (hgood : place.Good c most s'.lh) (hlh : s.lh⊆s'.lh ∨ a.active=0)
    (hactive : s'.outstanding=(a'.active : ℤ))
    (hbusy : a'.active+(s.place p).busy=a.active+place.busy)
    (hreserve : s'.lh.length+place.reserve most ≤ s.lh.length+(s.place p).reserve most) :
    Accounts c most s' a' := by
  have hb := sum_update_add Place.busy s.place p place
  have hr := sum_update_add (Place.reserve most) s.place p place
  have hcounted := h.counted
  have hreserved := h.reserved
  refine ⟨hactive,?_,?_,?_⟩
  · rw [hplace]
    omega
  · rw [hplace]
    omega
  · intro q
    rw [hplace]
    by_cases hq : q=p
    · subst hq
      rw [Function.update_self]
      exact hgood
    · rw [Function.update_of_ne hq]
      rcases hlh with hlh|hzero
      · exact (h.good q).mono hlh
      · refine Place.good_of_idle ?_ _
        have hle : (s.place q).busy≤∑ r, (s.place r).busy :=
          Finset.single_le_sum (fun r _ => Nat.zero_le (s.place r).busy) (Finset.mem_univ q)
        omega

/-- A wake-up keeps the accounts. -/
theorem Accounts.wakeup (h : Accounts c most s a) : Accounts c most s.wakeup a := by
  have hsame : ∀ p, (s.wakeup.place p).busy=(s.place p).busy ∧
      (s.wakeup.place p).reserve most=(s.place p).reserve most ∧
      ((s.place p).Good c most s.lh → (s.wakeup.place p).Good c most s.lh) := by
    intro p
    unfold State.wakeup
    dsimp only
    split_ifs with hp
    · rw [hp]
      exact ⟨rfl,rfl,id⟩
    · exact ⟨rfl,rfl,id⟩
  refine ⟨h.active,?_,?_,fun p => (hsame p).2.2 (h.good p)⟩
  · rw [h.counted]
    exact Finset.sum_congr rfl (fun p _ => (hsame p).1.symm)
  · have hsum : ∑ p, (s.wakeup.place p).reserve most=∑ p, (s.place p).reserve most :=
      Finset.sum_congr rfl (fun p _ => (hsame p).2.1)
    rw [hsum]
    exact h.reserved

/-- Each operation under way may add a number of blocks at most. -/
theorem Accounts.reserve_le (h : Accounts c most s a) :
    ∑ p, (s.place p).reserve most ≤ most*a.active := by
  rw [h.counted,Finset.mul_sum]
  refine Finset.sum_le_sum (fun p _ => ?_)
  unfold Place.reserve Place.busy
  split <;> omega

/-- What is logged leaves room for what a process may still add. -/
theorem Accounts.room (h : Accounts c most s a) (p : Fin np) :
    s.lh.length+(s.place p).reserve most≤roomFor most := by
  have hone : (s.place p).reserve most≤∑ q, (s.place q).reserve most :=
    Finset.single_le_sum (fun q _ => Nat.zero_le ((s.place q).reserve most)) (Finset.mem_univ p)
  have := h.reserved
  omega

/-- What is logged has room. -/
theorem Accounts.short (h : Accounts c most s a) : s.lh.length≤roomFor most :=
  Nat.le_trans (Nat.le_add_right _ _) h.reserved

/-- A process in an operation is one of those under way. -/
theorem Accounts.busy_le (h : Accounts c most s a) (p : Fin np) :
    (s.place p).busy≤a.active := by
  rw [h.counted]
  exact Finset.single_le_sum (fun q _ => Nat.zero_le (s.place q).busy) (Finset.mem_univ p)

/-! ## The course of a commit -/

/-- The logged blocks from an index on are pinned, and no others. -/
def Pinned (s : State np) (tail : ℕ) : Prop := ∀ b, s.dirty b=true ↔ b∈s.lh.drop tail

/-- The current values are durable. -/
def Settled (c : Layout) (a : Store ℕ Block) : Prop := ∀ b, c.Home b → a.durable b=a.current b

/-- The logged blocks before an index are in their slots. -/
def Copied (c : Layout) (s : State np) (tail : ℕ) : Prop :=
  ∀ i (h : i<s.lh.length), i<tail → s.disk (c.start+i+1)=s.view (s.lh.get ⟨i,h⟩)

/-- The header, the slots and the pinned blocks at a stage of a commit. -/
def StageOk (c : Layout) (s : State np) (a : Store ℕ Block) : Stage → Prop
  | .writeLog tail => headOf (s.disk c.start)=[] ∧ Pinned s 0 ∧ Copied c s tail
  | .writeHead => headOf (s.disk c.start)=[] ∧ Pinned s 0 ∧ Copied c s s.lh.length
  | .install tail => headOf (s.disk c.start)=s.lh ∧ Pinned s tail ∧ Settled c a
  | .clear => headOf (s.disk c.start)=s.lh ∧ Pinned s s.lh.length ∧ Settled c a
  | .finish => headOf (s.disk c.start)=[] ∧ s.lh=[] ∧ Pinned s 0 ∧ Settled c a

/-- Either nobody commits, or one process does and nobody is in an operation. -/
inductive Committing (c : Layout) (s : State np) (a : Store ℕ Block) : Prop
  /-- Nobody commits. -/
  | idle (flag : s.committing=false) (nobody : ∀ p k, s.place p≠.commit k)
      (head : headOf (s.disk c.start)=[]) (pinned : Pinned s 0)
      (quiet : s.outstanding=0 → s.lh=[] ∧ Settled c a)
  /-- One process commits. -/
  | busy (p : Fin np) (k : Stage) (flag : s.committing=true) (none : s.outstanding=0)
      (here : s.place p=.commit k) (only : ∀ q≠p, ∀ l, s.place q≠.commit l)
      (stage : StageOk c s a k)

/-- A kernel that serves file system calls. -/
structure Running (c : Layout) (most : ℕ) (s : State np) (a : Store ℕ Block) : Prop where
  /-- Home blocks are read as the store has them. -/
  view : ∀ b, c.Home b → s.view b=a.current b
  /-- Each block is logged once. -/
  nodup : s.lh.Nodup
  /-- Home blocks are logged. -/
  home : ∀ b∈s.lh, c.Home b
  /-- Each process fits its reservation. -/
  accounts : Accounts c most s a
  /-- The commit, if there is one. -/
  commit : Committing c s a

/-- A kernel before its first file system call. -/
structure Resting (s : State np) (a : Store ℕ Block) : Prop where
  /-- No process has called. -/
  place : ∀ p, s.place p=.outside
  /-- No operation is under way. -/
  outstanding : s.outstanding=0
  /-- Nobody commits. -/
  committing : s.committing=false
  /-- Nothing is pinned. -/
  clean : ∀ b, s.dirty b=false
  /-- What was not committed is lost. -/
  lost : a.current=a.durable
  /-- No operation is under way. -/
  active : a.active=0

/-- The recovery has copied the log up to an index. -/
structure Recovering (c : Layout) (s : State np) (tail : ℕ) : Prop where
  /-- The header in memory is the one on the disk. -/
  lh : s.lh=headOf (s.disk c.start)
  /-- The blocks before the index are installed. -/
  installed : ∀ i (h : i<s.lh.length), i<tail → s.disk (s.lh.get ⟨i,h⟩)=s.disk (c.start+i+1)

/-- The state of the kernel in each of its phases. -/
def PhaseOk (c : Layout) (most : ℕ) (s : State np) (a : Store ℕ Block) : Phase → Prop
  | .readHead => Resting s a
  | .install tail => Resting s a ∧ Recovering c s tail
  | .clear => Resting s a ∧ Recovering c s s.lh.length
  | .running => Running c most s a
  | .panicked => False
  | .overrun => False

/-- How the system and the store are related. -/
structure Simulates (c : Layout) (most : ℕ) (s : State np) (a : Store ℕ Block) : Prop where
  /-- The disk and the cache. -/
  sound : Sound c s a
  /-- The kernel. -/
  phase : PhaseOk c most s a s.phase

/-! ## Recovery -/

/-- A crash keeps the durable values only. -/
theorem simulates_crash (h : Simulates c most s a) :
    Simulates c most (booted np s.disk) {a with current := a.durable,active := 0} := by
  refine ⟨⟨h.sound.durable,h.sound.headNodup,h.sound.headHome,h.sound.headRoom,?_⟩,?_⟩
  · intro b data hc
    cases hc
  · exact ⟨fun _ => rfl,rfl,rfl,fun _ => rfl,rfl,rfl⟩

/-- Only the processes and the flags matter. -/
theorem Resting.same (h : Resting s a) (hplace : s'.place=s.place)
    (hout : s'.outstanding=s.outstanding) (hflag : s'.committing=s.committing)
    (hdirty : s'.dirty=s.dirty) : Resting s' a := by
  refine ⟨?_,hout.trans h.outstanding,hflag.trans h.committing,?_,h.lost,h.active⟩
  · rw [hplace]
    exact h.place
  · rw [hdirty]
    exact h.clean

/-- A kernel at rest stays at rest when blocks are written. -/
theorem Resting.bwrite (h : Resting s a) (b : ℕ) (data : Block) : Resting (s.bwrite b data) a := by
  refine ⟨h.place,h.outstanding,h.committing,fun k => ?_,h.lost,h.active⟩
  rw [dirty_bwrite]
  split_ifs
  · rfl
  · exact h.clean k

/-- In recovery a block of the header is copied from its slot. -/
theorem recovering_install (hs : Sound c s a) (hrest : Resting s a) {tail : ℕ}
    (h : Recovering c s tail) (ht : tail<s.lh.length) :
    Sound c (installTrans c tail s) a ∧ Resting (installTrans c tail s) a ∧
      Recovering c (installTrans c tail s) (tail+1) := by
  have hmem : s.lh.getD tail 0∈headOf (s.disk c.start) := by
    rw [←h.lh,List.getD_eq_getElem _ _ ht]
    exact List.getElem_mem ht
  have hhome := hs.headHome _ hmem
  have hsize : 0<c.size := Nat.zero_lt_of_lt hs.headRoom
  have hroom : s.lh.length<c.size := by
    rw [h.lh]
    exact hs.headRoom
  have hview : s.view (c.start+tail+1)=s.disk (c.start+tail+1) :=
    hs.coherent.view (hrest.clean _)
  have hdisk : ∀ k, (installTrans c tail s).disk k=
      if k=s.lh.getD tail 0 then s.disk (c.start+tail+1) else s.disk k := by
    intro k
    rw [installTrans,disk_bwrite,hview]
    rfl
  have hrested : Resting (s.bread (c.start+tail+1)) a := hrest.same rfl rfl rfl rfl
  refine ⟨(hs.bread _).install hmem _,hrested.bwrite _ _,?_,?_⟩
  · change s.lh=headOf ((installTrans c tail s).disk c.start)
    rw [hdisk,if_neg (not_home_start hsize hhome).symm]
    exact h.lh
  · intro i hi hlt
    change i<s.lh.length at hi
    change (installTrans c tail s).disk (s.lh.get ⟨i,hi⟩)=
      (installTrans c tail s).disk (c.start+i+1)
    rw [hdisk,hdisk,if_neg (not_home_slot (by omega) hhome).symm]
    by_cases hi' : i=tail
    · subst hi'
      rw [List.getD_eq_getElem _ _ hi]
      exact if_pos rfl
    · by_cases hsame : s.lh.get ⟨i,hi⟩=s.lh.getD tail 0
      · -- a block is listed once, so this is the block of the index itself
        rw [List.getD_eq_getElem _ _ ht] at hsame
        have hnodup : s.lh.Nodup := by
          rw [h.lh]
          exact hs.headNodup
        exact absurd ((List.Nodup.getElem_inj_iff hnodup).mp hsame) hi'
      · rw [if_neg hsame]
        exact h.installed i hi (by omega)

/-- The end of the recovery: the log is empty and every home block holds its
durable value. -/
theorem simulates_recovered (hs : Sound c s a) (hrest : Resting s a)
    (h : Recovering c s s.lh.length) :
    Simulates c most {writeHead c {s with lh := []} with phase := .running} a := by
  have hinstalled : ∀ b∈headOf (s.disk c.start), s.disk b=a.durable b := by
    intro b hb
    have hlisted := hb
    rw [←h.lh] at hlisted
    obtain ⟨i,hi,rfl⟩ := List.mem_iff_getElem.mp hlisted
    have hhead : i<(imageOf c s.disk).head.length := by
      change i<(headOf (s.disk c.start)).length
      rw [←h.lh]
      exact hi
    have hlogical := Image.logical_listed hs.headNodup hhead
    have hsame : (imageOf c s.disk).head.get ⟨i,hhead⟩=s.lh[i] :=
      (List.getElem_of_eq h.lh hi).symm
    rw [hsame] at hlogical
    rw [←hs.durable _ (hs.headHome _ hb),hlogical]
    exact h.installed i hi hi
  have hsound : Sound c {s with lh := []} a := hs.same rfl rfl rfl rfl
  obtain ⟨hhead,hclear⟩ := hsound.clear rfl hinstalled
  have hemptied : Resting ({s with lh := []} : State np) a := hrest.same rfl rfl rfl rfl
  have hrested : Resting (writeHead c {s with lh := []}) a := hemptied.bwrite c.start _
  refine ⟨hclear.same rfl rfl rfl rfl,?_,List.nodup_nil,fun b hb => absurd hb List.not_mem_nil,
    ?_,?_⟩
  · intro b hb
    have hclean : (writeHead c {s with lh := []}).dirty b=false := hrested.clean b
    have hdurable := hclear.durable b hb
    rw [Image.logical_empty hhead] at hdurable
    change (writeHead c {s with lh := []}).view b=a.current b
    rw [hclear.coherent.view hclean,hrest.lost]
    exact hdurable
  · have hzero : ∀ f : Place → ℕ, f .outside=0 → ∑ p, f (s.place p)=0 := by
      intro f hf
      refine Finset.sum_eq_zero (fun p _ => ?_)
      rw [hrest.place p]
      exact hf
    refine ⟨?_,?_,?_,fun p => ?_⟩
    · change s.outstanding=(a.active : ℤ)
      rw [hrest.outstanding,hrest.active]
      rfl
    · rw [hrest.active]
      exact (hzero Place.busy rfl).symm
    · change 0+∑ p, (s.place p).reserve most≤roomFor most
      rw [hzero (Place.reserve most) rfl]
      exact Nat.zero_le _
    · change (s.place p).Good c most []
      rw [hrest.place p]
      trivial
  · refine .idle hrest.committing (fun p k => ?_) hhead (fun b => ?_)
      (fun _ => ⟨rfl,fun b _ => by rw [hrest.lost]⟩)
    · change s.place p≠.commit k
      rw [hrest.place p]
      exact Place.noConfusion
    · have hclean : (writeHead c {s with lh := []}).dirty b=false := hrested.clean b
      change (writeHead c {s with lh := []}).dirty b=true ↔ b∈[]
      rw [hclean]
      exact iff_of_false Bool.noConfusion List.not_mem_nil

/-- Each step of the recovery keeps the durable values. -/
theorem simulates_recover (h : Simulates c most s a) (hs : recoverStep c s s.phase=some s') :
    Simulates c most s' a := by
  obtain ⟨hsound,hphase⟩ := h
  cases hp : s.phase with
  | readHead =>
    rw [hp] at hs hphase
    cases hs
    have hview : s.view c.start=s.disk c.start := hsound.coherent.view (hphase.clean _)
    refine ⟨(hsound.bread c.start).same rfl rfl rfl rfl,?_,?_,?_⟩
    · exact hphase.same rfl rfl rfl rfl
    · change headOf (s.view c.start)=headOf (s.disk c.start)
      rw [hview]
    · exact fun i _ hi => absurd hi (Nat.not_lt_zero i)
  | install tail =>
    rw [hp] at hs hphase
    obtain ⟨hrest,hrecover⟩ := hphase
    simp only [recoverStep] at hs
    split_ifs at hs with ht
    · cases hs
      obtain ⟨hsound',hrest',hrecover'⟩ := recovering_install hsound hrest hrecover ht
      exact ⟨hsound'.same rfl rfl rfl rfl,hrest'.same rfl rfl rfl rfl,hrecover'.lh,
        hrecover'.installed⟩
    · cases hs
      refine ⟨hsound.same rfl rfl rfl rfl,hrest.same rfl rfl rfl rfl,hrecover.lh,?_⟩
      exact fun i hi _ => hrecover.installed i hi (Nat.lt_of_lt_of_le hi (Nat.not_lt.mp ht))
  | clear =>
    rw [hp] at hs hphase
    cases hs
    exact simulates_recovered hsound hphase.1 hphase.2
  | running =>
    rw [hp] at hs
    cases hs
  | panicked =>
    rw [hp] at hs
    cases hs
  | overrun =>
    rw [hp] at hs
    cases hs

end ComputerSystems.Xv6Log
