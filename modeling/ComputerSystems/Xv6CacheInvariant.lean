import ComputerSystems.Xv6CacheList

/-!
# The invariant of the buffer cache

Whoever waits in `iderw` waits for a buffer in the queue of the driver that it
has, with the flags of its request; the first one in the queue is at the disk.
Whoever sleeps in `acquiresleep` waits for a buffer that somebody has. Every
step keeps this, with the list and the references, unless it stops the kernel.
-/

namespace ComputerSystems.Xv6Cache

open LinkedRing TransitionSystem

variable {np nb : ℕ} {s s' : State np nb} {b c : Fin nb} {p q : Fin np} {call : Caller}
  {place : Place nb} {x : Buf np}

/-- The flags of a buffer to be read or written. -/
def Buf.Asks (x : Buf np) : Caller → Prop
  | .bread => x.valid=false ∧ x.dirty=false
  | .bwrite => x.valid=true ∧ x.dirty=true

/-- A buffer with a request is not done. -/
theorem Buf.Asks.not_synced (h : x.Asks call) : x.synced=false := by
  unfold Buf.synced
  cases call with
  | bread => rw [h.1]; rfl
  | bwrite => rw [h.2]; simp

/-- The buffer that the process waits for in `iderw`. -/
def Place.atDisk : Place nb → Option (Fin nb)
  | .waiting _ b => some b
  | .woken _ b => some b
  | _ => none

/-- The buffer that the process has, in a call that has not returned. -/
def Place.inCall : Place nb → Option (Fin nb)
  | .checking b => some b
  | .syncing _ b => some b
  | .queueing _ b => some b
  | .waiting _ b => some b
  | .woken _ b => some b
  | _ => none

/-- What a process relies on. -/
def Place.Good (s : State np nb) (p : Fin np) : Place nb → Prop
  | .idle => True
  | .reading _ => True
  | .readAsleep b => (s.buf b).lock≠none
  | .checking b => (s.buf b).lock=some p
  | .syncing call b => (s.buf b).lock=some p ∧ (s.buf b).Asks call
  | .queueing call b => (s.buf b).lock=some p ∧ (s.buf b).Asks call
  | .waiting call b => (s.buf b).lock=some p ∧ b∈s.queue ∧ (s.buf b).Asks call
  | .woken call b => (s.buf b).lock=some p ∧ (b∈s.queue → (s.buf b).Asks call) ∧
      (b∉s.queue → (s.buf b).synced=true)
  | .releasing _ => True

/-- The driver and the processes agree. -/
structure Synced (s : State np nb) : Prop where
  /-- Every process has what it relies on. -/
  good : ∀ p, (s.place p).Good s p
  /-- A buffer that was returned holds its block. -/
  returned : ∀ p b, (s.buf b).lock=some p → (s.place p).inCall=some b ∨ (s.buf b).valid=true
  /-- So does a pinned one. -/
  pinned : ∀ b, (s.buf b).dirty=true → (s.buf b).valid=true
  /-- A process waits for every buffer in the queue. -/
  queued : ∀ b∈s.queue, ∃ p, (s.place p).atDisk=some b
  /-- No buffer is in the queue twice. -/
  nodup : s.queue.Nodup
  /-- The first buffer in the queue is at the disk. -/
  command : s.command=s.queue.head?.map (fun b => (s.buf b).command)

/-- A process has the buffer of its call. -/
theorem Place.Good.lock (h : place.Good s p) (hb : place.inCall=some b) :
    (s.buf b).lock=some p := by
  cases place with
  | checking c =>
    cases hb
    exact h
  | syncing call c =>
    cases hb
    exact h.1
  | queueing call c =>
    cases hb
    exact h.1
  | waiting call c =>
    cases hb
    exact h.1
  | woken call c =>
    cases hb
    exact h.1
  | idle => cases hb
  | reading c => cases hb
  | readAsleep c => cases hb
  | releasing c => cases hb

/-- Who waits for the disk is in a call. -/
theorem Place.inCall_of_atDisk (h : place.atDisk=some b) : place.inCall=some b := by
  cases place with
  | waiting call c => exact h
  | woken call c => exact h
  | _ => cases h

/-- The process that has a queued buffer waits for it. -/
theorem Synced.owner (h : Synced s) (hb : b∈s.queue) (hp : (s.buf b).lock=some p) :
    (s.place p).atDisk=some b := by
  obtain ⟨q,hq⟩ := h.queued b hb
  have hlock := (h.good q).lock (Place.inCall_of_atDisk hq)
  cases hp.symm.trans hlock
  exact hq

/-- Somebody has every queued buffer. -/
theorem Synced.lock_queued (h : Synced s) (hb : b∈s.queue) : (s.buf b).lock≠none := by
  obtain ⟨q,hq⟩ := h.queued b hb
  rw [(h.good q).lock (Place.inCall_of_atDisk hq)]
  rintro ⟨⟩

/-- Somebody has the buffer that a process in `acquiresleep` waits for. -/
theorem Synced.lock_asleep (h : Synced s) (hp : s.place p=.readAsleep b) :
    (s.buf b).lock≠none := by
  have hgood := h.good p
  rw [hp] at hgood
  exact hgood

/-- A buffer that nobody has, or that an idle process has, is not in the queue. -/
theorem Synced.not_queued (h : Synced s)
    (hb : (s.buf b).lock=none ∨ ((s.buf b).lock=some p ∧ (s.place p).atDisk≠some b)) :
    b∉s.queue := by
  intro hmem
  rcases hb with hb|⟨hb,hp⟩
  · exact h.lock_queued hmem hb
  · exact hp (h.owner hmem hb)

/-! ## Frames -/

/-- Buffers that differ in their references only. -/
structure Buf.Alike (x y : Buf np) : Prop where
  /-- The same `B_VALID`. -/
  valid : x.valid=y.valid
  /-- The same `B_DIRTY`. -/
  dirty : x.dirty=y.dirty
  /-- The same lock. -/
  lock : x.lock=y.lock
  /-- The same block and data. -/
  command : x.command=y.command

theorem Buf.Alike.refl (x : Buf np) : x.Alike x := ⟨rfl,rfl,rfl,rfl⟩

theorem Buf.Alike.asks {y : Buf np} (h : x.Alike y) (hy : y.Asks call) : x.Asks call := by
  cases call with
  | bread => exact ⟨h.valid.trans hy.1,h.dirty.trans hy.2⟩
  | bwrite => exact ⟨h.valid.trans hy.1,h.dirty.trans hy.2⟩

theorem Buf.Alike.synced {y : Buf np} (h : x.Alike y) : x.synced=y.synced := by
  rw [Buf.synced,Buf.synced,h.valid,h.dirty]

/-- What a process relies on lasts while its buffer does. -/
theorem Place.Good.keep (h : place.Good s p)
    (hbuf : ∀ b, place.inCall=some b → (s'.buf b).Alike (s.buf b))
    (hqueue : ∀ b, place.inCall=some b → (b∈s'.queue ↔ b∈s.queue))
    (hlock : ∀ b, place=.readAsleep b → (s.buf b).lock≠none → (s'.buf b).lock≠none) :
    place.Good s' p := by
  cases place with
  | idle => trivial
  | reading b => trivial
  | readAsleep b => exact hlock b rfl h
  | checking b => exact (hbuf b rfl).lock.trans h
  | syncing call b => exact ⟨(hbuf b rfl).lock.trans h.1,(hbuf b rfl).asks h.2⟩
  | queueing call b => exact ⟨(hbuf b rfl).lock.trans h.1,(hbuf b rfl).asks h.2⟩
  | waiting call b =>
    exact ⟨(hbuf b rfl).lock.trans h.1,(hqueue b rfl).mpr h.2.1,(hbuf b rfl).asks h.2.2⟩
  | woken call b =>
    refine ⟨(hbuf b rfl).lock.trans h.1,fun hb => ?_,fun hb => ?_⟩
    · exact (hbuf b rfl).asks (h.2.1 ((hqueue b rfl).mp hb))
    · exact (hbuf b rfl).synced.trans (h.2.2 (fun hmem => hb ((hqueue b rfl).mpr hmem)))
  | releasing b => trivial

/-- References do not matter to the driver. -/
theorem Synced.congr (h : Synced s) (hbuf : ∀ b, (s'.buf b).Alike (s.buf b))
    (hqueue : s'.queue=s.queue) (hcommand : s'.command=s.command) (hplace : s'.place=s.place) :
    Synced s' := by
  refine ⟨fun p => ?_,fun p b hb => ?_,fun b hb => ?_,?_,hqueue ▸ h.nodup,?_⟩
  · rw [hplace]
    exact (h.good p).keep (fun b _ => hbuf b) (fun b _ => by rw [hqueue])
      (fun b _ hb => by rw [(hbuf b).lock]; exact hb)
  · rw [hplace,(hbuf b).valid]
    exact h.returned p b ((hbuf b).lock.symm.trans hb)
  · exact (hbuf b).valid.trans (h.pinned b ((hbuf b).dirty.symm.trans hb))
  · rw [hqueue,hplace]
    exact h.queued
  · have hsame : (fun b => (s'.buf b).command)=fun b => (s.buf b).command :=
      funext fun b => (hbuf b).command
    rw [hcommand,hqueue,hsame]
    exact h.command

/-- A process moves. -/
theorem Synced.move (h : Synced s) (hgood : place.Good s p)
    (hdisk : ∀ c∈s.queue, (s.place p).atDisk=some c → place.atDisk=some c)
    (hcall : ∀ c, (s.place p).inCall=some c → place.inCall=some c ∨ (s.buf c).valid=true) :
    Synced (s.moved p place) := by
  refine ⟨fun q => ?_,fun q b hb => ?_,h.pinned,fun b hb => ?_,h.nodup,h.command⟩
  · have hkept : ∀ place' : Place nb, place'.Good s q → place'.Good (s.moved p place) q :=
      fun _ hq => hq.keep (fun b _ => Buf.Alike.refl _) (fun _ _ => Iff.rfl) (fun _ _ hb => hb)
    by_cases hq : q=p
    · subst hq
      rw [moved_self]
      exact hkept place hgood
    · rw [moved_other s place hq]
      exact hkept _ (h.good q)
  · by_cases hq : q=p
    · subst hq
      rw [moved_self]
      rcases h.returned q b hb with hin|hvalid
      · exact hcall b hin
      · exact Or.inr hvalid
    · rw [moved_other s place hq]
      exact h.returned q b hb
  · obtain ⟨q,hq⟩ := h.queued b hb
    refine ⟨q,?_⟩
    by_cases hqp : q=p
    · subst hqp
      rw [moved_self]
      exact hdisk b hb hq
    · rw [moved_other s place hqp]
      exact hq

/-- A process changes a buffer that is not in the queue, and that no other process has in
a call, and moves. -/
theorem Synced.act (h : Synced s) (hb : b∉s.queue) (hmine : ∀ q, q≠p → (s.place q).inCall≠some b)
    (hlock : ∀ q, q≠p → s.place q=.readAsleep b → x.lock≠none)
    (hpin : x.dirty=true → x.valid=true) (hgood : place.Good ((s.put b x).moved p place) p)
    (hret : ∀ q, x.lock=some q → (q=p ∧ place.inCall=some b) ∨ x.valid=true)
    (hcall : ∀ c, c≠b → (s.place p).inCall=some c → place.inCall=some c)
    (hdisk : ∀ c∈s.queue, (s.place p).atDisk=some c → place.atDisk=some c) :
    Synced ((s.put b x).moved p place) := by
  have hself : ((s.put b x).moved p place).buf b=x := put_self s b x
  have hrest : ∀ c, c≠b → ((s.put b x).moved p place).buf c=s.buf c := fun c hc => put_other s x hc
  have hplace : ∀ q, q≠p → ((s.put b x).moved p place).place q=s.place q :=
    fun q hq => moved_other (s.put b x) place hq
  refine ⟨fun q => ?_,fun q c hc => ?_,fun c hc => ?_,fun c hc => ?_,h.nodup,?_⟩
  · by_cases hq : q=p
    · subst hq
      rw [moved_self]
      exact hgood
    · rw [hplace q hq]
      refine (h.good q).keep (fun c hc => ?_) (fun _ _ => Iff.rfl) (fun c hc hheld => ?_)
      · rw [hrest c (fun heq => hmine q hq (heq ▸ hc))]
        exact Buf.Alike.refl _
      · by_cases hcb : c=b
        · rw [hcb,hself]
          exact hlock q hq (hcb ▸ hc)
        · rw [hrest c hcb]
          exact hheld
  · by_cases hcb : c=b
    · subst hcb
      rw [hself] at hc ⊢
      rcases hret q hc with ⟨rfl,hin⟩|hvalid
      · rw [moved_self]
        exact Or.inl hin
      · exact Or.inr hvalid
    · rw [hrest c hcb] at hc ⊢
      refine (h.returned q c hc).imp_left fun hin => ?_
      by_cases hq : q=p
      · subst hq
        rw [moved_self]
        exact hcall c hcb hin
      · rw [hplace q hq]
        exact hin
  · by_cases hcb : c=b
    · rw [hcb,hself] at hc ⊢
      exact hpin hc
    · rw [hrest c hcb] at hc ⊢
      exact h.pinned c hc
  · obtain ⟨q,hq⟩ := h.queued c hc
    refine ⟨q,?_⟩
    by_cases hqp : q=p
    · subst hqp
      rw [moved_self]
      exact hdisk c hc hq
    · rw [hplace q hqp]
      exact hq
  · have hqueue : ((s.put b x).moved p place).queue=s.queue := rfl
    refine h.command.trans ?_
    rw [hqueue]
    cases hhead : s.queue.head? with
    | none => rfl
    | some c =>
      rw [Option.map_some,Option.map_some,hrest c (fun heq => hb (heq ▸ List.mem_of_head? hhead))]

/-! ## References and steps -/

/-- References of a process and of a buffer change together. -/
theorem Counted.act (h : Counted s)
    (hb : x.refcnt+(s.place p).refs b+(s.buf b).taken=(s.buf b).refcnt+place.refs b+x.taken)
    (hrest : ∀ c, c≠b → place.refs c=(s.place p).refs c) : Counted ((s.put b x).moved p place) := by
  intro c
  have hrefs : ((s.put b x).moved p place).refs c+(s.place p).refs c=s.refs c+place.refs c :=
    refs_moved (s.put b x) p place c
  have hc := h c
  by_cases hcb : c=b
  · subst hcb
    have hself : ((s.put c x).moved p place).buf c=x := put_self s c x
    rw [hself]
    omega
  · have hother : ((s.put b x).moved p place).buf c=s.buf c := put_other s x hcb
    rw [hother]
    have hsame := hrest c hcb
    omega

/-- A process moves and keeps its references. -/
theorem Counted.move (h : Counted s) (hrefs : ∀ c, place.refs c=(s.place p).refs c) :
    Counted (s.moved p place) := by
  intro c
  have hmoved := refs_moved s p place c
  have hsame := hrefs c
  have hc : ((s.moved p place).buf c).refcnt=s.refs c+((s.moved p place).buf c).taken := h c
  omega

/-- References are counted alike. -/
theorem Counted.congr (h : Counted s) (hrefs : ∀ q c, (s'.place q).refs c=(s.place q).refs c)
    (hbuf : ∀ c, (s'.buf c).refcnt=(s.buf c).refcnt ∧ (s'.buf c).taken=(s.buf c).taken) :
    Counted s' := by
  intro c
  have hsum : s'.refs c=s.refs c := Finset.sum_congr rfl (fun q _ => hrefs q c)
  rw [(hbuf c).1,(hbuf c).2,hsum]
  exact h c

/-- The invariant. -/
structure Sound (s : State np nb) : Prop where
  /-- The list holds all buffers. -/
  listed : ∃ l, Listed s l
  /-- Every reference belongs to a process. -/
  counted : Counted s
  /-- The driver and the processes agree. -/
  synced : Synced s

/-- The kernel is sound when it comes up. -/
theorem sound_booted (disk : ℕ → ℕ → Block) : Sound (booted np nb disk) := by
  refine ⟨⟨_,listed_booted disk⟩,counted_booted disk,fun p => trivial,?_,?_,?_,List.nodup_nil,rfl⟩
  · rintro p b ⟨⟩
  · rintro b ⟨⟩
  · exact fun b hb => absurd hb List.not_mem_nil

/-- An idle process is in no call. -/
theorem not_inCall (hp : s.place p=.idle) (b : Fin nb) : (s.place p).inCall≠some b := by
  rw [hp]
  rintro ⟨⟩

theorem not_atDisk (hp : s.place p=.idle) (b : Fin nb) : (s.place p).atDisk≠some b := by
  rw [hp]
  rintro ⟨⟩

/-- An idle process begins a call that needs no buffer. -/
theorem Synced.begin (h : Synced s) (hp : s.place p=.idle) (hgood : place.Good s p) :
    Synced (s.moved p place) :=
  h.move hgood (fun c _ hc => absurd hc (not_atDisk hp c)) (fun c hc => absurd hc (not_inCall hp c))

/-- `bget` keeps the invariant. -/
theorem sound_bget {dev blockno : ℕ} (h : Sound s) (hp : s.place p=.idle)
    (hs : bget p dev blockno s=some s') (hpanic : s'.panic=none) : Sound s' := by
  obtain ⟨⟨l,hl⟩,hcounted,hsynced⟩ := h
  have hnames : ∀ x y : Buf np, x.SameBlock y → y.dev=dev → y.blockno=blockno →
      x.names dev blockno=true := by
    intro x y hsame hdev hblockno
    exact decide_eq_true ⟨hsame.1.trans hdev,hsame.2.trans hblockno⟩
  have hrefs : ∀ b c, c≠b → (Place.reading b : Place nb).refs c=(s.place p).refs c := by
    intro b c hc
    rw [hp,Place.refs,if_neg (Ne.symm hc)]
    rfl
  rcases hl.bget_cases p dev blockno with ⟨b,u,v,rfl,hb,hu,heq⟩|⟨b,hnone,hb,heq⟩|⟨-,-,heq⟩
  · -- the buffer is found
    cases heq.symm.trans hs
    refine ⟨⟨_,(hl.change ?_ ?_).congr rfl rfl⟩,hcounted.act ?_ (hrefs b),?_⟩
    · intro c hc hsame
      have hkey : (s.buf b).dev=dev ∧ (s.buf b).blockno=blockno := of_decide_eq_true hb
      exact absurd (hnames _ _ hsame hkey.1 hkey.2) (by rw [hu c hc]; exact Bool.false_ne_true)
    · exact (List.pairwise_cons.mp (List.pairwise_append.mp hl.single).2.1).1
    · rw [hp,Place.refs,if_pos rfl]
      rfl
    · have hput : Synced (s.put b {s.buf b with refcnt := (s.buf b).refcnt+1}) := by
        refine hsynced.congr (fun c => ?_) rfl rfl rfl
        by_cases hc : c=b
        · rw [hc,put_self]
          exact ⟨rfl,rfl,rfl,rfl⟩
        · rw [put_other s _ hc]
          exact Buf.Alike.refl _
      exact hput.begin hp trivial
  · -- an unused buffer is recycled
    cases heq.symm.trans hs
    have hunused : (s.buf b).refcnt=0 ∧ (s.buf b).dirty=false := of_decide_eq_true hb
    have hfree := hcounted.free hunused.1
    obtain ⟨u,v,rfl⟩ := List.append_of_mem (hl.mem b)
    have hother : ∀ c, ¬(s.buf c).SameBlock
        {s.buf b with dev,blockno,valid := false,dirty := false,refcnt := 1} := by
      intro c hsame
      exact absurd (hnames _ _ hsame rfl rfl) (by rw [hnone c]; exact Bool.false_ne_true)
    refine ⟨⟨_,(hl.change ?_ ?_).congr rfl rfl⟩,hcounted.act ?_ (hrefs b),?_⟩
    · exact fun c _ hsame => absurd hsame (hother c)
    · exact fun c _ hsame => absurd ⟨hsame.1.symm,hsame.2.symm⟩ (hother c)
    · rw [hp,Place.refs,if_pos rfl,Buf.taken,Buf.taken,if_pos hfree,hunused.1]
      rfl
    · refine hsynced.act (hsynced.not_queued (p := p) (Or.inl hfree)) ?_
        (fun q _ hq => absurd hfree (hsynced.lock_asleep hq)) (by rintro ⟨⟩) trivial ?_
        (fun c _ hc => absurd hc (not_inCall hp c)) (fun c _ hc => absurd hc (not_atDisk hp c))
      · intro q _ hq
        cases hfree.symm.trans ((hsynced.good q).lock hq)
      · intro q hq
        have hq' : (s.buf b).lock=some q := hq
        cases hfree.symm.trans hq'
  · cases heq.symm.trans hs
    cases hpanic

/-! ## The other calls -/

/-- A buffer is changed, but not its block, and not when it is blank. -/
theorem Listed.put {l : List (Fin nb)} (h : Listed s l) (hblock : x.SameBlock (s.buf b))
    (hblank : (s.buf b).Blank → x.Blank) : Listed (s.put b x) l := by
  refine h.keep rfl (fun c => ?_) (fun c hc => ?_)
  · by_cases hcb : c=b
    · rw [hcb,put_self]
      exact hblock
    · rw [put_other s x hcb]
      exact ⟨rfl,rfl⟩
  · by_cases hcb : c=b
    · rw [hcb,put_self]
      exact hblank (hcb ▸ hc)
    · rw [put_other s x hcb]
      exact hc

/-- A process in no call for a buffer that it refers to moves on. -/
theorem Sound.move (h : Sound s) (hgood : place.Good s p)
    (hrefs : ∀ c, place.refs c=(s.place p).refs c)
    (hdisk : ∀ c∈s.queue, (s.place p).atDisk=some c → place.atDisk=some c)
    (hcall : ∀ c, (s.place p).inCall=some c → place.inCall=some c ∨ (s.buf c).valid=true) :
    Sound (s.moved p place) := by
  obtain ⟨l,hl⟩ := h.listed
  exact ⟨⟨l,hl.congr rfl rfl⟩,h.counted.move hrefs,h.synced.move hgood hdisk hcall⟩

/-- `acquiresleep` keeps the invariant. -/
theorem sound_acquiresleep (h : Sound s) (hp : s.place p=.reading b) :
    Sound (acquiresleep p b s) := by
  have hcall : ∀ c, (s.place p).inCall≠some c := fun c => by rw [hp]; rintro ⟨⟩
  have hdisk : ∀ c, (s.place p).atDisk≠some c := fun c => by rw [hp]; rintro ⟨⟩
  unfold acquiresleep
  split_ifs with hfree
  · obtain ⟨l,hl⟩ := h.listed
    have hlisted := hl.put (b := b) (x := {s.buf b with lock := some p}) ⟨rfl,rfl⟩ id
    refine ⟨⟨l,hlisted.congr rfl rfl⟩,h.counted.act ?_ ?_,?_⟩
    · rw [hp,Place.refs,if_pos rfl,Buf.taken,if_pos hfree]
      rfl
    · intro c hc
      rw [hp,Place.refs,Place.refs,if_neg (Ne.symm hc)]
      all_goals rintro d heq
      all_goals cases heq
    · refine h.synced.act (h.synced.not_queued (p := p) (Or.inl hfree)) ?_
        (fun q _ hq => absurd hfree (h.synced.lock_asleep hq)) (h.synced.pinned b) ?_ ?_
        (fun c _ hc => absurd hc (hcall c))
        (fun c _ hc => absurd hc (hdisk c))
      · intro q _ hq
        cases hfree.symm.trans ((h.synced.good q).lock hq)
      · exact congrArg Buf.lock (put_self s b _)
      · intro q hq
        cases hq
        exact Or.inl ⟨rfl,rfl⟩
  · refine h.move hfree (fun c => ?_) (fun c _ hc => absurd hc (hdisk c))
      (fun c hc => absurd hc (hcall c))
    rw [hp]
    rfl

/-- `bread` keeps the invariant when it looks at `B_VALID`. -/
theorem sound_breadCheck (h : Sound s) (hp : s.place p=.checking b) : Sound (breadCheck p b s) := by
  have hgood := h.synced.good p
  rw [hp] at hgood
  have hrefs : ∀ c, (s.place p).refs c=0 := fun c => by rw [hp]; rfl
  have hdisk : ∀ c, (s.place p).atDisk≠some c := fun c => by rw [hp]; rintro ⟨⟩
  unfold breadCheck
  split_ifs with hvalid
  · refine h.move trivial (fun c => (hrefs c).symm) (fun c _ hc => absurd hc (hdisk c)) ?_
    intro c hc
    rw [hp] at hc
    cases hc
    exact Or.inr hvalid
  · have hclean : (s.buf b).dirty=false :=
      Bool.eq_false_iff.mpr (fun hdirty => hvalid (h.synced.pinned b hdirty))
    refine h.move ⟨hgood,Bool.eq_false_iff.mpr hvalid,hclean⟩ (fun c => (hrefs c).symm)
      (fun c _ hc => absurd hc (hdisk c)) ?_
    intro c hc
    rw [hp] at hc
    exact Or.inl hc

/-- An idle process changes a buffer that it has. -/
theorem sound_held (h : Sound s) (hp : s.place p=.idle) (hb : (s.buf b).lock=some p)
    (hblock : x.SameBlock (s.buf b)) (hrefcnt : x.refcnt=(s.buf b).refcnt)
    (hlock : x.lock=(s.buf b).lock) (hvalid : x.valid=true)
    (hgood : place.Good ((s.put b x).moved p place) p) (hrefs : ∀ c, place.refs c=0) :
    Sound ((s.put b x).moved p place) := by
  obtain ⟨l,hl⟩ := h.listed
  have hidle : ∀ c, (s.place p).refs c=0 := fun c => by rw [hp]; rfl
  refine ⟨⟨l,(hl.put hblock ?_).congr rfl rfl⟩,h.counted.act ?_ ?_,?_⟩
  · exact fun hblank => absurd hblank.1 (h.counted.had hb)
  · rw [hidle,hrefs,hrefcnt,Buf.taken,Buf.taken,hlock]
  · exact fun c _ => (hrefs c).trans (hidle c).symm
  · refine h.synced.act (h.synced.not_queued (Or.inr ⟨hb,not_atDisk hp b⟩)) ?_ ?_ (fun _ => hvalid)
      hgood (fun _ _ => Or.inr hvalid) (fun c _ hc => absurd hc (not_inCall hp c))
      (fun c _ hc => absurd hc (not_atDisk hp c))
    · intro q hq hin
      cases hb.symm.trans ((h.synced.good q).lock hin)
      exact hq rfl
    · rw [hlock,hb]
      rintro _ _ _ ⟨⟩

/-- A buffer of an idle process holds its block. -/
theorem valid_held (h : Sound s) (hp : s.place p=.idle) (hb : (s.buf b).lock=some p) :
    (s.buf b).valid=true :=
  (h.synced.returned p b hb).resolve_left (not_inCall hp b)

/-- A process that stays where it is. -/
theorem moved_same (s : State np nb) (p : Fin np) : s.moved p (s.place p)=s := by
  unfold State.moved
  rw [Function.update_eq_self]

/-- An idle process changes data or pins them. -/
theorem sound_put (h : Sound s) (hp : s.place p=.idle) (hb : (s.buf b).lock=some p)
    (hblock : x.SameBlock (s.buf b)) (hrefcnt : x.refcnt=(s.buf b).refcnt)
    (hlock : x.lock=(s.buf b).lock) (hvalid : x.valid=(s.buf b).valid) : Sound (s.put b x) := by
  have hgood : Place.idle.Good ((s.put b x).moved p .idle) p := trivial
  have hsound := sound_held h hp hb hblock hrefcnt hlock (hvalid.trans (valid_held h hp hb)) hgood
    (fun _ => rfl)
  have hsame : (s.put b x).moved p .idle=s.put b x := by
    rw [←hp]
    exact moved_same (s.put b x) p
  rw [←hsame]
  exact hsound

/-- `bwrite` keeps the invariant. -/
theorem sound_bwrite (h : Sound s) (hp : s.place p=.idle) (hpanic : (bwrite p b s).panic=none) :
    Sound (bwrite p b s) := by
  unfold bwrite at hpanic ⊢
  split_ifs at hpanic ⊢ with hb
  · have hvalid := valid_held h hp hb
    refine sound_held h hp hb ⟨rfl,rfl⟩ rfl rfl hvalid ?_ (fun _ => rfl)
    have hself : ((s.put b {s.buf b with dirty := true}).moved p (.syncing .bwrite b)).buf b=
        {s.buf b with dirty := true} := put_self s b _
    rw [Place.Good,hself]
    exact ⟨hb,hvalid,rfl⟩
  · cases hpanic

/-- `iderw` keeps the invariant when it checks the buffer. -/
theorem sound_iderwCheck {havedisk1 : Bool} {call : Caller} (h : Sound s)
    (hp : s.place p=.syncing call b) (hpanic : (iderwCheck havedisk1 p call b s).panic=none) :
    Sound (iderwCheck havedisk1 p call b s) := by
  have hgood := h.synced.good p
  rw [hp] at hgood
  unfold iderwCheck at hpanic ⊢
  split_ifs at hpanic ⊢
  · cases hpanic
  · cases hpanic
  · cases hpanic
  · refine h.move hgood (fun c => by rw [hp]; rfl) (fun c _ hc => ?_) (fun c hc => ?_)
    · rw [hp] at hc
      cases hc
    · rw [hp] at hc
      exact Or.inl hc

/-- `iderw` keeps the invariant when it looks at the flags. -/
theorem sound_iderwWait {call : Caller} (h : Sound s) (hp : s.place p=.woken call b) :
    Sound (iderwWait p call b s) := by
  have hgood := h.synced.good p
  rw [hp] at hgood
  have hrefs : ∀ c, (s.place p).refs c=0 := fun c => by rw [hp]; rfl
  unfold iderwWait
  split_ifs with hdone
  · have hout : b∉s.queue := fun hmem => by
      have hasks := (hgood.2.1 hmem).not_synced
      rw [hdone] at hasks
      cases hasks
    refine h.move trivial (fun c => (hrefs c).symm) (fun c hmem hc => ?_) (fun c hc => ?_)
    · rw [hp] at hc
      cases hc
      exact absurd hmem hout
    · rw [hp] at hc
      cases hc
      have hflags : (s.buf b).valid=true ∧ (s.buf b).dirty=false := of_decide_eq_true hdone
      exact Or.inr hflags.1
  · have hin : b∈s.queue := by
      by_contra hout
      exact hdone (hgood.2.2 hout)
    refine h.move ⟨hgood.1,hin,hgood.2.1 hin⟩ (fun c => (hrefs c).symm) (fun c _ hc => ?_)
      (fun c hc => ?_)
    · rw [hp] at hc
      exact hc
    · rw [hp] at hc
      exact Or.inl hc

end ComputerSystems.Xv6Cache
