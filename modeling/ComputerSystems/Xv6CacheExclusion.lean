import ComputerSystems.Xv6CacheInvariant

/-!
# One buffer for a block

The rest of the steps that keep the invariant: `brelse`, the queue of the driver
and its interrupts. In every run the loops of `bget` end, at most one buffer is
used for a block, and at most one process has it.
-/

namespace ComputerSystems.Xv6Cache

open LinkedRing TransitionSystem

variable {np nb : ℕ} {s s' : State np nb} {b c : Fin nb} {p q : Fin np} {call : Caller}
  {havedisk1 : Bool} {act : Action np nb} {x : Buf np}

/-! ## Giving a buffer back -/

/-- A woken process is in its call as before. -/
theorem inCall_wakeReader (b : Fin nb) (place : Place nb) :
    (place.wakeReader b).inCall=place.inCall := by
  cases place with
  | readAsleep c =>
    rw [Place.wakeReader]
    split_ifs <;> rfl
  | _ => rfl

/-- Who is at the disk is not asleep in `acquiresleep`. -/
theorem atDisk_wakeReader (b : Fin nb) (place : Place nb) :
    (place.wakeReader b).atDisk=place.atDisk := by
  cases place with
  | readAsleep c =>
    rw [Place.wakeReader]
    split_ifs <;> rfl
  | _ => rfl

/-- Nobody sleeps for a buffer whose sleepers were woken. -/
theorem wakeReader_ne (b : Fin nb) (place : Place nb) : place.wakeReader b≠.readAsleep b := by
  cases place with
  | readAsleep c =>
    rw [Place.wakeReader]
    split_ifs with hc
    · rintro ⟨⟩
    · rintro heq
      cases heq
      exact hc rfl
  | _ => rintro ⟨⟩

/-- `wakeup` of the processes in `acquiresleep`. -/
theorem Sound.wakeReaders (h : Sound s) (b : Fin nb) :
    Sound {s with place := fun q => (s.place q).wakeReader b} := by
  obtain ⟨l,hl⟩ := h.listed
  refine ⟨⟨l,hl.congr rfl rfl⟩,
    h.counted.congr (fun q c => refs_wakeReader b c (s.place q)) (fun c => ⟨rfl,rfl⟩),
    fun q => ?_,fun q c hc => ?_,h.synced.pinned,fun c hc => ?_,h.synced.nodup,h.synced.command⟩
  · have hgood := h.synced.good q
    change ((s.place q).wakeReader b).Good _ q
    cases hq : s.place q with
    | readAsleep c =>
      rw [hq] at hgood
      rw [Place.wakeReader]
      split_ifs
      · trivial
      · exact hgood
    | _ =>
      rw [hq] at hgood
      exact hgood
  · change ((s.place q).wakeReader b).inCall=some c ∨ _
    rw [inCall_wakeReader]
    exact h.synced.returned q c hc
  · obtain ⟨q,hq⟩ := h.synced.queued c hc
    exact ⟨q,(atDisk_wakeReader b (s.place q)).trans hq⟩

/-- `brelse` keeps the invariant when it gives the lock back. -/
theorem sound_brelse (h : Sound s) (hp : s.place p=.idle) (hpanic : (brelse p b s).panic=none) :
    Sound (brelse p b s) := by
  unfold brelse at hpanic ⊢
  split_ifs at hpanic ⊢ with hb
  · have hvalid := valid_held h hp hb
    have hwoken := h.wakeReaders b
    have hidle : (s.place p).wakeReader b=.idle := by rw [hp]; rfl
    obtain ⟨l,hl⟩ := hwoken.listed
    have hnotBlank : ¬(s.buf b).Blank := fun hblank => absurd hblank.1 (h.counted.had hb)
    have hlisted := hl.put (b := b) (x := {s.buf b with lock := none}) ⟨rfl,rfl⟩
      (fun hblank => absurd hblank hnotBlank)
    refine ⟨⟨l,hlisted.congr rfl rfl⟩,?_,?_⟩
    · change Counted ((({s with place := fun q => (s.place q).wakeReader b} : State np nb).put b
        {s.buf b with lock := none}).moved p (.releasing b))
      refine hwoken.counted.act ?_ ?_
      · change _+((s.place p).wakeReader b).refs b+(s.buf b).taken=_
        rw [hidle,Place.refs,if_pos rfl,Buf.taken,if_neg (by rw [hb]; rintro ⟨⟩)]
        rfl
      · intro c hc
        change _=((s.place p).wakeReader b).refs c
        rw [hidle,Place.refs,if_neg (Ne.symm hc)]
        rfl
    · change Synced ((({s with place := fun q => (s.place q).wakeReader b} : State np nb).put b
        {s.buf b with lock := none}).moved p (.releasing b))
      refine hwoken.synced.act ?_ ?_ ?_ ?_ trivial (by rintro q ⟨⟩) ?_ ?_
      · exact h.synced.not_queued (Or.inr ⟨hb,not_atDisk hp b⟩)
      · intro q hq hin
        have hin' : ((s.place q).wakeReader b).inCall=some b := hin
        rw [inCall_wakeReader] at hin'
        cases hb.symm.trans ((h.synced.good q).lock hin')
        exact hq rfl
      · exact fun q _ hq => absurd hq (wakeReader_ne b (s.place q))
      · exact fun _ => hvalid
      · intro c _ hc
        have hc' : ((s.place p).wakeReader b).inCall=some c := hc
        rw [hidle] at hc'
        cases hc'
      · intro c _ hc
        have hc' : ((s.place p).wakeReader b).atDisk=some c := hc
        rw [hidle] at hc'
        cases hc'
  · cases hpanic

/-- `brelse` keeps the invariant when it gives the reference back. -/
theorem sound_brelseList (h : Sound s) (hp : s.place p=.releasing b) :
    Sound (brelseList p b s) := by
  have hused : (s.buf b).refcnt≠0 := h.counted.used (p := p) (by
    rw [hp,Place.refs,if_pos rfl]
    exact Nat.one_ne_zero)
  have hnotBlank : ¬(s.buf b).Blank := fun hblank => hused hblank.1
  have hcounted : Counted ((s.put b {s.buf b with refcnt := (s.buf b).refcnt-1}).moved p .idle) := by
    refine h.counted.act ?_ ?_
    · rw [hp,Place.refs,if_pos rfl]
      change (s.buf b).refcnt-1+1+(s.buf b).taken=(s.buf b).refcnt+0+(s.buf b).taken
      omega
    · intro c hc
      rw [hp,Place.refs,Place.refs,if_neg (Ne.symm hc)]
      all_goals rintro d heq
      all_goals cases heq
  have hsynced : Synced ((s.put b {s.buf b with refcnt := (s.buf b).refcnt-1}).moved p .idle) := by
    have hput : Synced (s.put b {s.buf b with refcnt := (s.buf b).refcnt-1}) := by
      refine h.synced.congr (fun c => ?_) rfl rfl rfl
      by_cases hc : c=b
      · rw [hc,put_self]
        exact ⟨rfl,rfl,rfl,rfl⟩
      · rw [put_other s _ hc]
        exact Buf.Alike.refl _
    have hp' : (s.put b {s.buf b with refcnt := (s.buf b).refcnt-1}).place p=.releasing b := hp
    refine hput.move trivial (fun c _ hc => ?_) (fun c hc => ?_)
    · rw [hp'] at hc
      cases hc
    · rw [hp'] at hc
      cases hc
  obtain ⟨l,hl⟩ := h.listed
  unfold brelseList
  simp only
  split_ifs with hlast
  · obtain ⟨u,v,rfl⟩ := List.append_of_mem (hl.mem b)
    have hlisted := (hl.toFront hnotBlank).put (b := b)
      (x := {s.buf b with refcnt := (s.buf b).refcnt-1}) ⟨rfl,rfl⟩
      (fun hblank => absurd hblank hnotBlank)
    exact ⟨⟨_,hlisted.congr rfl rfl⟩,
      hcounted.congr (fun _ _ => rfl) (fun _ => ⟨rfl,rfl⟩),
      hsynced.congr (fun _ => Buf.Alike.refl _) rfl rfl rfl⟩
  · have hlisted := hl.put (b := b) (x := {s.buf b with refcnt := (s.buf b).refcnt-1}) ⟨rfl,rfl⟩
      (fun hblank => absurd hblank hnotBlank)
    exact ⟨⟨l,hlisted.congr rfl rfl⟩,hcounted,hsynced⟩

/-! ## The queue of the driver -/

@[simp] theorem idestart_buf (b : Fin nb) (s : State np nb) : (idestart b s).buf=s.buf := by
  unfold idestart
  split_ifs <;> rfl

@[simp] theorem idestart_links (b : Fin nb) (s : State np nb) : (idestart b s).links=s.links := by
  unfold idestart
  split_ifs <;> rfl

@[simp] theorem idestart_queue (b : Fin nb) (s : State np nb) : (idestart b s).queue=s.queue := by
  unfold idestart
  split_ifs <;> rfl

@[simp] theorem idestart_place (b : Fin nb) (s : State np nb) : (idestart b s).place=s.place := by
  unfold idestart
  split_ifs <;> rfl

@[simp] theorem idestart_disk (b : Fin nb) (s : State np nb) : (idestart b s).disk=s.disk := by
  unfold idestart
  split_ifs <;> rfl

/-- The command for the first buffer, unless the kernel stops. -/
theorem idestart_command (h : (idestart b s).panic=none) :
    (idestart b s).command=some (s.buf b).command := by
  unfold idestart at h ⊢
  split_ifs at h ⊢
  · cases h
  · rfl

/-- A queue that goes from another buffer on. -/
theorem head_append (hb : b∉s.queue) : (s.queue++[b]).head?=some b ↔ s.queue=[] := by
  cases hqueue : s.queue with
  | nil => simp
  | cons c rest =>
    rw [List.cons_append,List.head?_cons,Option.some_inj]
    refine ⟨fun heq => ?_,(by rintro ⟨⟩)⟩
    rw [hqueue] at hb
    exact absurd (heq ▸ List.mem_cons_self) hb

/-- What `iderw` does under `idelock`: the buffer is put behind the queue, and its
process waits. -/
theorem iderwQueue_eq (hqueue : b∉s.queue) (hasks : (s.buf b).Asks call) :
    iderwQueue p call b s=
      (if s.queue=[] then idestart b {s with queue := s.queue++[b]}
        else {s with queue := s.queue++[b]}).moved p (.waiting call b) := by
  have hflags := hasks.not_synced
  unfold iderwQueue iderwWait
  simp only [head_append hqueue]
  by_cases hempty : s.queue=[]
  · rw [if_pos hempty,idestart_buf,if_neg (by rw [hflags]; exact Bool.false_ne_true)]
  · rw [if_neg hempty,if_neg (by rw [hflags]; exact Bool.false_ne_true)]

/-- `iderw` keeps the invariant when it queues a buffer. -/
theorem sound_iderwQueue (h : Sound s) (hp : s.place p=.queueing call b)
    (hpanic : (iderwQueue p call b s).panic=none) : Sound (iderwQueue p call b s) := by
  have hgood := h.synced.good p
  rw [hp] at hgood
  obtain ⟨hlock,hasks⟩ := hgood
  have hnew : b∉s.queue :=
    h.synced.not_queued (Or.inr ⟨hlock,by rw [hp]; rintro ⟨⟩⟩)
  rw [iderwQueue_eq hnew hasks] at hpanic ⊢
  generalize hnext : (if s.queue=[] then idestart b {s with queue := s.queue++[b]}
    else {s with queue := s.queue++[b]})=t at hpanic ⊢
  have hbuf : t.buf=s.buf := by
    rw [←hnext]
    split_ifs
    · exact idestart_buf _ _
    · rfl
  have hlinks : t.links=s.links := by
    rw [←hnext]
    split_ifs
    · exact idestart_links _ _
    · rfl
  have hqueue : t.queue=s.queue++[b] := by
    rw [←hnext]
    split_ifs
    · exact idestart_queue _ _
    · rfl
  have hplace : t.place=s.place := by
    rw [←hnext]
    split_ifs
    · exact idestart_place _ _
    · rfl
  have hcommand : t.command=(s.queue++[b]).head?.map (fun b => (s.buf b).command) := by
    have htpanic : t.panic=none := hpanic
    rw [←hnext] at htpanic ⊢
    by_cases hempty : s.queue=[]
    · rw [if_pos hempty] at htpanic ⊢
      rw [idestart_command htpanic,hempty]
      rfl
    · rw [if_neg hempty]
      refine h.synced.command.trans ?_
      obtain ⟨c,rest,hcase⟩ := List.exists_cons_of_ne_nil hempty
      rw [hcase]
      rfl
  have hmoved : ∀ q, q≠p → (t.moved p (.waiting call b)).place q=s.place q := by
    intro q hq
    rw [moved_other t _ hq,hplace]
  obtain ⟨l,hl⟩ := h.listed
  refine ⟨⟨l,hl.congr hlinks hbuf⟩,?_,fun q => ?_,fun q c hc => ?_,?_,fun c hc => ?_,?_,?_⟩
  · have hcounted : Counted t :=
      h.counted.congr (fun q c => by rw [hplace]) (fun c => by rw [hbuf]; exact ⟨rfl,rfl⟩)
    exact hcounted.move (fun c => by rw [hplace,hp]; rfl)
  · by_cases hq : q=p
    · subst hq
      rw [moved_self]
      refine ⟨?_,?_,?_⟩
      · exact (congrFun hbuf b ▸ hlock : (t.buf b).lock=some q)
      · exact (hqueue ▸ List.mem_append_right _ (List.mem_singleton_self b) : b∈t.queue)
      · exact (congrFun hbuf b ▸ hasks : (t.buf b).Asks call)
    · rw [hmoved q hq]
      refine (h.synced.good q).keep (fun c _ => ?_) (fun c hc => ?_) (fun c _ hc => ?_)
      · exact (hbuf ▸ Buf.Alike.refl _ : (t.buf c).Alike (s.buf c))
      · change c∈t.queue ↔ c∈s.queue
        rw [hqueue,List.mem_append,List.mem_singleton]
        refine or_iff_left ?_
        rintro rfl
        cases hlock.symm.trans ((h.synced.good q).lock hc)
        exact hq rfl
      · exact (hbuf ▸ hc : (t.buf c).lock≠none)
  · have hc' : (s.buf c).lock=some q := hbuf ▸ hc
    have hret : _ ∨ (t.buf c).valid=true := (hbuf ▸ h.synced.returned q c hc')
    refine hret.imp_left fun hin => ?_
    by_cases hq : q=p
    · subst hq
      rw [hp] at hin
      rw [moved_self]
      exact hin
    · rw [hmoved q hq]
      exact hin
  · intro c
    change (t.buf c).dirty=true → (t.buf c).valid=true
    rw [hbuf]
    exact h.synced.pinned c
  · have hc' : c∈s.queue++[b] := hqueue ▸ hc
    rcases List.mem_append.mp hc' with hc'|hc'
    · obtain ⟨q,hq⟩ := h.synced.queued c hc'
      refine ⟨q,?_⟩
      have hqp : q≠p := by
        rintro rfl
        rw [hp] at hq
        cases hq
      rw [hmoved q hqp]
      exact hq
    · rw [List.mem_singleton] at hc'
      refine ⟨p,?_⟩
      rw [moved_self,hc']
      rfl
  · change t.queue.Nodup
    rw [hqueue]
    exact List.nodup_append.mpr ⟨h.synced.nodup,List.nodup_singleton b,
      fun c hc d hd heq => hnew (List.mem_singleton.mp hd ▸ heq ▸ hc)⟩
  · change t.command=t.queue.head?.map (fun b => (t.buf b).command)
    rw [hcommand,hqueue,hbuf]

/-! ## Interrupts -/

/-- A process that is woken in `iderw` stays in its call. -/
theorem inCall_wakeWaiter (b : Fin nb) (place : Place nb) :
    (place.wakeWaiter b).inCall=place.inCall := by
  cases place with
  | waiting call c =>
    rw [Place.wakeWaiter]
    split_ifs <;> rfl
  | _ => rfl

/-- It still waits for the disk. -/
theorem atDisk_wakeWaiter (b : Fin nb) (place : Place nb) :
    (place.wakeWaiter b).atDisk=place.atDisk := by
  cases place with
  | waiting call c =>
    rw [Place.wakeWaiter]
    split_ifs <;> rfl
  | _ => rfl

/-- The interrupt for the first buffer of the queue, before the disk is started again. -/
def interrupted (ok : Bool) (b : Fin nb) (rest : List (Fin nb)) (s : State np nb) : State np nb :=
  let disk := if ok=true then carriedOut s.disk s.command else s.disk
  {s.put b ((s.buf b).done ok disk s.command) with
    disk
    queue := rest
    command := none
    place := fun q => (s.place q).wakeWaiter b}

/-- An interrupt with nothing in the queue does nothing. -/
theorem ideintr_nil {ok : Bool} (h : s.queue=[]) : ideintr ok s=s := by
  unfold ideintr
  rw [h]

/-- An interrupt ends the only command. -/
theorem ideintr_one {ok : Bool} (h : s.queue=[b]) : ideintr ok s=interrupted ok b [] s := by
  unfold ideintr
  rw [h]
  rfl

/-- An interrupt ends the command for the first buffer and starts the next one. -/
theorem ideintr_more {ok : Bool} {rest : List (Fin nb)} (h : s.queue=b::c::rest) :
    ideintr ok s=idestart c (interrupted ok b (c::rest) s) := by
  unfold ideintr
  rw [h]
  rfl

/-- The processes behind an interrupt have what they rely on. -/
theorem good_interrupted {ok : Bool} {rest : List (Fin nb)} (h : Synced s) (hq : s.queue=b::rest)
    (q : Fin np) : ((s.place q).wakeWaiter b).Good (interrupted ok b rest s) q := by
  have hgood := h.good q
  have hfirst : b∈s.queue := hq ▸ List.mem_cons_self
  have hout : b∉rest := (List.nodup_cons.mp (hq ▸ h.nodup)).1
  have hself : (interrupted ok b rest s).buf b=
      (s.buf b).done ok (if ok=true then carriedOut s.disk s.command else s.disk) s.command :=
    put_self s b _
  by_cases hdisk : (s.place q).atDisk=some b
  · have hlock : ((interrupted ok b rest s).buf b).lock=some q := by
      rw [hself]
      exact hgood.lock (Place.inCall_of_atDisk hdisk)
    have hdone : ((interrupted ok b rest s).buf b).synced=true := by
      rw [hself]
      rfl
    have hwoken : ∀ call : Caller, (Place.woken call b).Good (interrupted ok b rest s) q :=
      fun call => ⟨hlock,fun hmem => absurd hmem hout,fun _ => hdone⟩
    cases hplace : s.place q with
    | waiting call c =>
      rw [hplace] at hdisk
      cases hdisk
      rw [Place.wakeWaiter,if_pos rfl]
      exact hwoken call
    | woken call c =>
      rw [hplace] at hdisk
      cases hdisk
      exact hwoken call
    | _ =>
      rw [hplace] at hdisk
      cases hdisk
  · have hsame : (s.place q).wakeWaiter b=s.place q := by
      cases hplace : s.place q with
      | waiting call c =>
        rw [Place.wakeWaiter,if_neg]
        rintro rfl
        exact hdisk (by rw [hplace]; rfl)
      | _ => rfl
    have hcall : ∀ c, (s.place q).inCall=some c → c≠b := by
      rintro c hc rfl
      exact hdisk (h.owner hfirst (hgood.lock hc))
    rw [hsame]
    refine hgood.keep (fun c hc => ?_) (fun c hc => ?_) (fun c _ hc => ?_)
    · rw [show (interrupted ok b rest s).buf c=s.buf c from put_other s _ (hcall c hc)]
      exact Buf.Alike.refl _
    · change c∈rest ↔ c∈s.queue
      rw [hq,List.mem_cons]
      exact (or_iff_right (hcall c hc)).symm
    · by_cases hcb : c=b
      · rw [hcb,hself]
        exact h.lock_queued hfirst
      · rw [show (interrupted ok b rest s).buf c=s.buf c from put_other s _ hcb]
        exact hc

/-- `ideintr` keeps the invariant. -/
theorem sound_ideintr {ok : Bool} (h : Sound s) (hpanic : (ideintr ok s).panic=none) :
    Sound (ideintr ok s) := by
  cases hq : s.queue with
  | nil =>
    rw [ideintr_nil hq]
    exact h
  | cons b rest =>
    have hfirst : b∈s.queue := hq ▸ List.mem_cons_self
    have hnodup := List.nodup_cons.mp (hq ▸ h.synced.nodup)
    have hself : (interrupted ok b rest s).buf b=
        (s.buf b).done ok (if ok=true then carriedOut s.disk s.command else s.disk) s.command :=
      put_self s b _
    have hother : ∀ c, c≠b → (interrupted ok b rest s).buf c=s.buf c :=
      fun c hc => put_other s _ hc
    -- what holds before the disk is started again
    have hlisted : ∃ l, Listed (interrupted ok b rest s) l := by
      obtain ⟨l,hl⟩ := h.listed
      obtain ⟨q,hlock⟩ := Option.ne_none_iff_exists'.mp (h.synced.lock_queued hfirst)
      have hput := hl.put (b := b) (x := (s.buf b).done ok
          (if ok=true then carriedOut s.disk s.command else s.disk) s.command) ⟨rfl,rfl⟩
        (fun hblank => absurd hblank.1 (h.counted.had hlock))
      exact ⟨l,hput.congr rfl rfl⟩
    have hcounted : Counted (interrupted ok b rest s) := by
      refine h.counted.congr (fun q c => refs_wakeWaiter b c (s.place q)) (fun c => ?_)
      by_cases hcb : c=b
      · rw [hcb,hself]
        exact ⟨rfl,rfl⟩
      · rw [hother c hcb]
        exact ⟨rfl,rfl⟩
    have hreturned : ∀ q c, ((interrupted ok b rest s).buf c).lock=some q →
        ((s.place q).wakeWaiter b).inCall=some c ∨ ((interrupted ok b rest s).buf c).valid=true := by
      intro q c hc
      rw [inCall_wakeWaiter]
      by_cases hcb : c=b
      · rw [hcb,hself]
        exact Or.inr rfl
      · rw [hother c hcb] at hc ⊢
        exact h.synced.returned q c hc
    have hpinned : ∀ c, ((interrupted ok b rest s).buf c).dirty=true →
        ((interrupted ok b rest s).buf c).valid=true := by
      intro c hc
      by_cases hcb : c=b
      · rw [hcb,hself]
        rfl
      · rw [hother c hcb] at hc ⊢
        exact h.synced.pinned c hc
    have hqueued : ∀ c∈rest, ∃ q, ((s.place q).wakeWaiter b).atDisk=some c := by
      intro c hc
      obtain ⟨q,hq'⟩ := h.synced.queued c (hq ▸ List.mem_cons_of_mem b hc)
      exact ⟨q,(atDisk_wakeWaiter b (s.place q)).trans hq'⟩
    cases rest with
    | nil =>
      rw [ideintr_one hq]
      exact ⟨hlisted,hcounted,good_interrupted h.synced hq,hreturned,hpinned,hqueued,List.nodup_nil,
        rfl⟩
    | cons c rest =>
      rw [ideintr_more hq] at hpanic ⊢
      have hcommand := idestart_command hpanic
      obtain ⟨l,hl⟩ := hlisted
      refine ⟨⟨l,hl.congr (idestart_links _ _) (idestart_buf _ _)⟩,
        hcounted.congr (fun q d => by rw [idestart_place])
          (fun d => by rw [idestart_buf]; exact ⟨rfl,rfl⟩),
        fun q => ?_,?_,?_,?_,?_,?_⟩
      · rw [idestart_place]
        exact (good_interrupted h.synced hq q).keep
          (fun d _ => by rw [idestart_buf]; exact Buf.Alike.refl _)
          (fun d _ => by rw [idestart_queue]) (fun d _ hd => by rw [idestart_buf]; exact hd)
      · rw [idestart_place,idestart_buf]
        exact hreturned
      · rw [idestart_buf]
        exact hpinned
      · rw [idestart_queue,idestart_place]
        exact hqueued
      · rw [idestart_queue]
        exact hnodup.2
      · rw [hcommand,idestart_queue,idestart_buf]
        rfl

/-! ## Blocks of buffers -/

/-- A buffer that is changed may keep its block. -/
theorem sameBlock_put (hx : x.SameBlock (s.buf b)) (c : Fin nb) :
    ((s.put b x).buf c).SameBlock (s.buf c) := by
  by_cases hcb : c=b
  · rw [hcb,put_self]
    exact hx
  · rw [put_other s x hcb]
    exact ⟨rfl,rfl⟩

/-- `iderw` keeps the block of every buffer. -/
theorem sameBlock_iderwQueue (call : Caller) (p : Fin np) (b c : Fin nb) (s : State np nb) :
    ((iderwQueue p call b s).buf c).SameBlock (s.buf c) := by
  have hwait : ∀ t : State np nb, (iderwWait p call b t).buf=t.buf := by
    intro t
    unfold iderwWait
    split_ifs <;> rfl
  unfold iderwQueue
  simp only
  rw [hwait]
  split_ifs
  · rw [idestart_buf]
    exact ⟨rfl,rfl⟩
  · exact ⟨rfl,rfl⟩

/-- `ideintr` keeps the block of every buffer. -/
theorem sameBlock_ideintr (ok : Bool) (c : Fin nb) (s : State np nb) :
    ((ideintr ok s).buf c).SameBlock (s.buf c) := by
  have hfirst : ∀ b rest, ((interrupted ok b rest s).buf c).SameBlock (s.buf c) :=
    fun b rest => sameBlock_put (x := (s.buf b).done ok
      (if ok=true then carriedOut s.disk s.command else s.disk) s.command) ⟨rfl,rfl⟩ c
  cases hq : s.queue with
  | nil =>
    rw [ideintr_nil hq]
    exact ⟨rfl,rfl⟩
  | cons b rest =>
    cases rest with
    | nil =>
      rw [ideintr_one hq]
      exact hfirst b []
    | cons d rest =>
      rw [ideintr_more hq,idestart_buf]
      exact hfirst b (d::rest)

/-- A process that goes on keeps the block of every buffer. -/
theorem sameBlock_goOn (hs : goOn havedisk1 p s (s.place p)=some s') (c : Fin nb) :
    (s'.buf c).SameBlock (s.buf c) := by
  cases hp : s.place p with
  | reading b =>
    rw [hp] at hs
    cases hs
    unfold acquiresleep
    split_ifs
    · exact sameBlock_put (x := {s.buf b with lock := some p}) ⟨rfl,rfl⟩ c
    · exact ⟨rfl,rfl⟩
  | checking b =>
    rw [hp] at hs
    cases hs
    unfold breadCheck
    split_ifs
    · exact ⟨rfl,rfl⟩
    · exact ⟨rfl,rfl⟩
  | syncing call b =>
    rw [hp] at hs
    cases hs
    unfold iderwCheck
    split_ifs
    all_goals exact ⟨rfl,rfl⟩
  | queueing call b =>
    rw [hp] at hs
    cases hs
    exact sameBlock_iderwQueue call p b c s
  | woken call b =>
    rw [hp] at hs
    cases hs
    unfold iderwWait
    split_ifs
    · exact ⟨rfl,rfl⟩
    · exact ⟨rfl,rfl⟩
  | releasing b =>
    rw [hp] at hs
    cases hs
    have hput := sameBlock_put (s := s) (b := b) (x := {s.buf b with refcnt := (s.buf b).refcnt-1})
      ⟨rfl,rfl⟩ c
    unfold brelseList
    simp only
    split_ifs
    · exact hput
    · exact hput
  | idle =>
    rw [hp] at hs
    cases hs
  | readAsleep b =>
    rw [hp] at hs
    cases hs
  | waiting call b =>
    rw [hp] at hs
    cases hs

/-- Only `bget` gives a buffer another block, and only one that nobody refers to. -/
theorem block_stepOn (h : Sound s) (hs : stepOn havedisk1 act s=some s') (c : Fin nb) :
    (s'.buf c).SameBlock (s.buf c) ∨ (s.buf c).refcnt=0 ∧
      ∃ p dev blockno, act=.bread p dev blockno ∧ (s'.buf c).dev=dev ∧
        (s'.buf c).blockno=blockno := by
  cases act with
  | bread p dev blockno =>
    simp only [stepOn] at hs
    split_ifs at hs
    obtain ⟨l,hl⟩ := h.listed
    rcases hl.bget_cases p dev blockno with ⟨b,u,v,-,-,-,heq⟩|⟨b,-,hb,heq⟩|⟨-,-,heq⟩
    · cases heq.symm.trans hs
      exact Or.inl (sameBlock_put (x := {s.buf b with refcnt := (s.buf b).refcnt+1}) ⟨rfl,rfl⟩ c)
    · cases heq.symm.trans hs
      by_cases hcb : c=b
      · have hunused : (s.buf b).refcnt=0 ∧ (s.buf b).dirty=false := of_decide_eq_true hb
        refine Or.inr ⟨hcb ▸ hunused.1,p,dev,blockno,rfl,?_⟩
        rw [hcb]
        exact ⟨congrArg Buf.dev (put_self s b _),congrArg Buf.blockno (put_self s b _)⟩
      · rw [show ((s.put b _).moved p _).buf c=s.buf c from put_other s _ hcb]
        exact Or.inl ⟨rfl,rfl⟩
    · cases heq.symm.trans hs
      exact Or.inl ⟨rfl,rfl⟩
  | bwrite p b =>
    simp only [stepOn] at hs
    split_ifs at hs
    cases hs
    unfold bwrite
    split_ifs
    · exact Or.inl (sameBlock_put (x := {s.buf b with dirty := true}) ⟨rfl,rfl⟩ c)
    · exact Or.inl ⟨rfl,rfl⟩
  | brelse p b =>
    simp only [stepOn] at hs
    split_ifs at hs
    cases hs
    unfold brelse
    split_ifs
    · exact Or.inl (sameBlock_put (x := {s.buf b with lock := none}) ⟨rfl,rfl⟩ c)
    · exact Or.inl ⟨rfl,rfl⟩
  | store p b data =>
    simp only [stepOn] at hs
    split_ifs at hs
    cases hs
    exact Or.inl (sameBlock_put (x := {s.buf b with data}) ⟨rfl,rfl⟩ c)
  | pin p b =>
    simp only [stepOn] at hs
    split_ifs at hs
    cases hs
    exact Or.inl (sameBlock_put (x := {s.buf b with dirty := true}) ⟨rfl,rfl⟩ c)
  | go p => exact Or.inl (sameBlock_goOn hs c)
  | kill p =>
    obtain ⟨place,-,heq⟩ := Option.map_eq_some_iff.mp hs
    cases heq
    exact Or.inl ⟨rfl,rfl⟩
  | ideintr ok =>
    cases hs
    exact Or.inl (sameBlock_ideintr ok c s)

/-! ## Every run -/

/-- `kill` keeps the invariant. -/
theorem sound_kill {place : Place nb} (h : Sound s) (hplace : (s.place p).killed=some place) :
    Sound (s.moved p place) := by
  have hgood := h.synced.good p
  cases hp : s.place p with
  | readAsleep b =>
    rw [hp] at hplace
    cases hplace
    refine h.move trivial (fun c => by rw [hp]; rfl) (fun c _ hc => ?_) (fun c hc => ?_)
    · rw [hp] at hc
      cases hc
    · rw [hp] at hc
      cases hc
  | waiting call b =>
    rw [hp] at hplace hgood
    cases hplace
    refine h.move ⟨hgood.1,fun _ => hgood.2.2,fun hout => absurd hgood.2.1 hout⟩
      (fun c => by rw [hp]; rfl) (fun c _ hc => ?_) (fun c hc => ?_)
    · rw [hp] at hc
      exact hc
    · rw [hp] at hc
      exact Or.inl hc
  | _ =>
    rw [hp] at hplace
    cases hplace

/-- A process that goes on in its call keeps the invariant. -/
theorem sound_goOn (h : Sound s) (hs : goOn havedisk1 p s (s.place p)=some s')
    (hpanic : s'.panic=none) : Sound s' := by
  cases hp : s.place p with
  | reading b =>
    rw [hp] at hs
    cases hs
    exact sound_acquiresleep h hp
  | checking b =>
    rw [hp] at hs
    cases hs
    exact sound_breadCheck h hp
  | syncing call b =>
    rw [hp] at hs
    cases hs
    exact sound_iderwCheck h hp hpanic
  | queueing call b =>
    rw [hp] at hs
    cases hs
    exact sound_iderwQueue h hp hpanic
  | woken call b =>
    rw [hp] at hs
    cases hs
    exact sound_iderwWait h hp
  | releasing b =>
    rw [hp] at hs
    cases hs
    exact sound_brelseList h hp
  | idle =>
    rw [hp] at hs
    cases hs
  | readAsleep b =>
    rw [hp] at hs
    cases hs
  | waiting call b =>
    rw [hp] at hs
    cases hs

/-- What a step of an unstopped kernel is. -/
theorem step_eq (hs : step havedisk1 act s=some s') :
    s.panic=none ∧ stepOn havedisk1 act s=some s' := by
  unfold step at hs
  split_ifs at hs with hrun
  exact ⟨hrun,hs⟩

/-- Every step keeps the invariant, unless it stops the kernel. -/
theorem sound_step (h : Sound s) (hs : step havedisk1 act s=some s') (hpanic : s'.panic=none) :
    Sound s' := by
  replace hs := (step_eq hs).2
  cases act with
  | bread p dev blockno =>
    simp only [stepOn] at hs
    split_ifs at hs with hp
    exact sound_bget h hp hs hpanic
  | bwrite p b =>
    simp only [stepOn] at hs
    split_ifs at hs with hp
    cases hs
    exact sound_bwrite h hp hpanic
  | brelse p b =>
    simp only [stepOn] at hs
    split_ifs at hs with hp
    cases hs
    exact sound_brelse h hp hpanic
  | store p b data =>
    simp only [stepOn] at hs
    split_ifs at hs with hp
    cases hs
    exact sound_put h hp.1 hp.2 ⟨rfl,rfl⟩ rfl rfl rfl
  | pin p b =>
    simp only [stepOn] at hs
    split_ifs at hs with hp
    cases hs
    exact sound_put h hp.1 hp.2 ⟨rfl,rfl⟩ rfl rfl rfl
  | go p => exact sound_goOn h hs hpanic
  | kill p =>
    obtain ⟨place,hplace,heq⟩ := Option.map_eq_some_iff.mp hs
    cases heq
    exact sound_kill h hplace
  | ideintr ok =>
    cases hs
    exact sound_ideintr h hpanic

/-- The invariant holds in every run while the kernel is not stopped. -/
theorem sound_reachable {allowed : State np nb → Action np nb → Prop}
    {disk : ℕ → ℕ → Block} (hs : Reachable (step havedisk1) allowed (booted np nb disk) s)
    (hrun : s.panic=none) : Sound s := by
  refine hs.invariant (fun s => s.panic=none → Sound s) (fun _ => sound_booted disk) ?_ hrun
  exact fun act before next h _ hstep hnext => sound_step (h (step_eq hstep).1) hstep hnext

/-- In every run that did not stop the kernel, the list has every buffer once in both
directions and the loops of `bget` end; of two buffers for one block one is blank, so
that no two processes have a block; the references to a buffer are the processes in a
call for it and the one that has it, and no step gives it another block while there is
one. -/
theorem cache_exclusive {disk : ℕ → ℕ → Block}
    (hs : Reachable (step havedisk1) Anything (booted np nb disk) s) (hrun : s.panic=none) :
    (∃ l : List (Fin nb), Ring s.links none (l.map some) ∧ l.Perm (List.finRange nb)) ∧
      (∀ p dev blockno, (bget p dev blockno s).isSome=true) ∧
      (∀ b c, b≠c → (s.buf b).SameBlock (s.buf c) → (s.buf b).Blank ∨ (s.buf c).Blank) ∧
      (∀ p q b c, (s.buf b).lock=some p → (s.buf c).lock=some q →
        (s.buf b).SameBlock (s.buf c) → b=c ∧ p=q) ∧
      (∀ b, (s.buf b).refcnt=s.refs b+(s.buf b).taken) ∧
      ∀ b act s', (s.buf b).refcnt≠0 → step havedisk1 act s=some s' →
        (s'.buf b).SameBlock (s.buf b) := by
  have h := sound_reachable hs hrun
  obtain ⟨l,hl⟩ := h.listed
  refine ⟨⟨l,hl.ring,hl.perm⟩,fun p dev blockno => ?_,fun b c => hl.one,?_,h.counted,?_⟩
  · rcases hl.bget_cases p dev blockno with ⟨b,u,v,-,-,-,heq⟩|⟨b,-,-,heq⟩|⟨-,-,heq⟩
    all_goals rw [heq]
    all_goals rfl
  · intro p q b c hb hc hsame
    have heq : b=c := by
      by_contra hne
      rcases hl.one hne hsame with hblank|hblank
      · exact h.counted.had hb hblank.1
      · exact h.counted.had hc hblank.1
    subst heq
    exact ⟨rfl,Option.some_inj.mp (hb.symm.trans hc)⟩
  · intro b act s' hb hstep
    exact (block_stepOn h (step_eq hstep).2 b).resolve_right (fun hnew => hb hnew.1)

/-- Two processes ask for one block: both refer to its buffer, and one has it. -/
theorem one_reader_has_it :
    ∃ s : State 2 2, follow (step true) Anything [.bread 0 1 7,.bread 1 1 7,.go 0,.go 1]
        (booted 2 2 (fun _ _ _ => 0))=some s ∧ (s.buf 0).refcnt=2 ∧ (s.buf 0).lock=some 0 ∧
      ∀ p q b c, (s.buf b).lock=some p → (s.buf c).lock=some q →
        (s.buf b).SameBlock (s.buf c) → b=c ∧ p=q := by
  have hrun : ∃ s : State 2 2, follow (step true) Anything [.bread 0 1 7,.bread 1 1 7,.go 0,.go 1]
      (booted 2 2 (fun _ _ _ => 0))=some s ∧ (s.buf 0).refcnt=2 ∧ (s.buf 0).lock=some 0 ∧
      s.panic=none := ⟨_,rfl,rfl,rfl,rfl⟩
  obtain ⟨s,hs,hrefcnt,hlock,hpanic⟩ := hrun
  exact ⟨s,hs,hrefcnt,hlock,(cache_exclusive (reachable_of_follow hs) hpanic).2.2.2.1⟩

end ComputerSystems.Xv6Cache
