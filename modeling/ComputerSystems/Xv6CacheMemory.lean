import ComputerSystems.LockedMemory
import ComputerSystems.Xv6CachePanics

/-!
# The buffer cache is a memory

To its callers the cache is a memory of blocks: `bread` takes a block with the
data that were put into it last, or that the disk had at first, `brelse` gives it
back, and what the driver writes is what is in a block while its holder waits.
Buffers that are found, recycled, read from the disk or queued do not show. A
change lasts when it is pinned or written before the block is given back, and
while the disks do not fail.
-/

namespace ComputerSystems.Xv6Cache

open LinkedRing TransitionSystem LockedMemory

variable {np nb : ℕ} {s s' : State np nb} {b c : Fin nb} {p q : Fin np} {havedisk1 : Bool}
  {act : Action np nb} {x : Buf np} {a : Memory (ℕ × ℕ) Block (Fin np)} {call : Caller}

/-- No change is given back that is neither pinned nor written, and the disks do not
fail. -/
def Retained (s : State np nb) : Action np nb → Prop
  | .brelse _ b => (s.buf b).dirty=true ∨ (s.buf b).data=s.disk (s.buf b).dev (s.buf b).blockno
  | .ideintr ok => ok=true
  | .bread _ _ _ => True
  | .bwrite _ _ => True
  | .store _ _ _ => True
  | .pin _ _ => True
  | .go _ => True
  | .kill _ => True

instance (s : State np nb) (act : Action np nb) : Decidable (Retained s act) :=
  match act with
  | .brelse _ b => inferInstanceAs (Decidable ((s.buf b).dirty=true ∨
      (s.buf b).data=s.disk (s.buf b).dev (s.buf b).blockno))
  | .ideintr ok => inferInstanceAs (Decidable (ok=true))
  | .bread _ _ _ => inferInstanceAs (Decidable True)
  | .bwrite _ _ => inferInstanceAs (Decidable True)
  | .store _ _ _ => inferInstanceAs (Decidable True)
  | .pin _ _ => inferInstanceAs (Decidable True)
  | .go _ => inferInstanceAs (Decidable True)
  | .kill _ => inferInstanceAs (Decidable True)

/-- Callers are careful and lose no change of theirs. -/
def Lossless (havedisk1 : Bool) (s : State np nb) (act : Action np nb) : Prop :=
  Careful havedisk1 s act ∧ Retained s act

instance (havedisk1 : Bool) (s : State np nb) (act : Action np nb) :
    Decidable (Lossless havedisk1 s act) :=
  inferInstanceAs (Decidable (_ ∧ _))

/-- The block of a buffer. -/
def Buf.key (x : Buf np) : ℕ × ℕ := (x.dev,x.blockno)

/-- The buffer that a `bread` in progress will return. -/
def Place.reads : Place nb → Option (Fin nb)
  | .checking b => some b
  | .syncing .bread b => some b
  | .queueing .bread b => some b
  | .waiting .bread b => some b
  | .woken .bread b => some b
  | _ => none

/-- A process has a buffer that `bread` returned to it. -/
def State.Holds (s : State np nb) (b : Fin nb) (p : Fin np) : Prop :=
  (s.buf b).lock=some p ∧ (s.place p).reads≠some b

/-- What the callers and the disk see of a step. -/
def observe (s : State np nb) : Action np nb → Option (Event (ℕ × ℕ) Block (Fin np))
  | .go p =>
    match s.place p with
    | .checking b =>
      if (s.buf b).valid=true then some (.take p (s.buf b).key (s.buf b).data) else none
    | .woken .bread b =>
      if (s.buf b).synced=true then some (.take p (s.buf b).key (s.buf b).data) else none
    | _ => none
  | .store p b data => some (.put p (s.buf b).key data)
  | .brelse p b => some (.drop p (s.buf b).key)
  | .ideintr _ =>
    match s.queue with
    | [] => none
    | b::_ =>
      if (s.buf b).dirty=true then (s.buf b).lock.map (fun p => .sync p (s.buf b).key) else none
  | _ => none

/-- The cache stands for a memory. -/
structure Represents (s : State np nb) (a : Memory (ℕ × ℕ) Block (Fin np)) : Prop where
  /-- What is stored is on the disks. -/
  stored : ∀ k : ℕ × ℕ, k.1<2 → a.stored k=s.disk k.1 k.2
  /-- A buffer that was read holds the value of its block. -/
  cached : ∀ b, (s.buf b).valid=true → a.value (s.buf b).key=(s.buf b).data
  /-- The other blocks have their values on the disks. -/
  uncached : ∀ k : ℕ × ℕ, k.1<2 → (∀ b, (s.buf b).valid=true → (s.buf b).key≠k) →
    a.value k=s.disk k.1 k.2
  /-- Who has a buffer has its block. -/
  taken : ∀ b p, s.Holds b p → a.holder (s.buf b).key=some p
  /-- Nobody has another block. -/
  free : ∀ k, (∀ b p, s.Holds b p → (s.buf b).key≠k) → a.holder k=none
  /-- A buffer that nobody has is as on the disk, unless it is pinned. -/
  clean : ∀ b, (s.buf b).valid=true → (s.buf b).dirty=false → (s.buf b).lock=none →
    (s.buf b).data=s.disk (s.buf b).dev (s.buf b).blockno

/-- A process that reads has the buffer. -/
theorem Place.inCall_of_reads {place : Place nb} (h : place.reads=some b) :
    place.inCall=some b := by
  cases place with
  | checking c => exact h
  | syncing call c =>
    cases call with
    | bread => exact h
    | bwrite => cases h
  | queueing call c =>
    cases call with
    | bread => exact h
    | bwrite => cases h
  | waiting call c =>
    cases call with
    | bread => exact h
    | bwrite => cases h
  | woken call c =>
    cases call with
    | bread => exact h
    | bwrite => cases h
  | idle => cases h
  | reading c => cases h
  | readAsleep c => cases h
  | releasing c => cases h

/-! ## Blocks and buffers -/

/-- A buffer that holds a block is not blank. -/
theorem not_blank_of_valid (h : x.valid=true) : ¬x.Blank := fun hblank => by
  rw [hblank.2.1] at h
  cases h

/-- A buffer that somebody has is not blank. -/
theorem Sound.not_blank (h : Sound s) (hb : (s.buf b).lock=some p) : ¬(s.buf b).Blank :=
  fun hblank => h.counted.had hb hblank.1

/-- One block has one buffer. -/
theorem Sound.unique (h : Sound s) (hb : ¬(s.buf b).Blank) (hc : ¬(s.buf c).Blank)
    (hkey : (s.buf b).key=(s.buf c).key) : b=c := by
  obtain ⟨l,hl⟩ := h.listed
  by_contra hne
  rcases hl.one hne (Prod.mk.inj hkey) with hblank|hblank
  · exact hb hblank
  · exact hc hblank

/-- A process that holds a buffer holds no other one for the block. -/
theorem Sound.key_ne (h : Sound s) (hb : ¬(s.buf b).Blank) (hc : ¬(s.buf c).Blank) (hne : c≠b) :
    (s.buf c).key≠(s.buf b).key :=
  fun hkey => hne (h.unique hc hb hkey)

/-- What a step keeps of the one buffer that it changes, it keeps of all buffers. -/
theorem kept_of_other {α : Type} (f : Buf np → α) (hother : ∀ c, c≠b → s'.buf c=s.buf c)
    (hself : f (s'.buf b)=f (s.buf b)) (c : Fin nb) : f (s'.buf c)=f (s.buf c) := by
  by_cases hcb : c=b
  · rw [hcb,hself]
  · rw [hother c hcb]

/-- Who has a buffer depends on its lock and on what the process reads. -/
theorem holds_iff (hlock : (s'.buf b).lock=(s.buf b).lock)
    (hreads : (s'.place p).reads=(s.place p).reads) : s'.Holds b p ↔ s.Holds b p := by
  unfold State.Holds
  rw [hlock,hreads]

/-! ## What does not show -/

/-- Steps that leave data, blocks, holders and disks do not show. -/
theorem Represents.frame (h : Represents s a) (hdisk : s'.disk=s.disk)
    (hkey : ∀ b, (s'.buf b).key=(s.buf b).key) (hvalid : ∀ b, (s'.buf b).valid=(s.buf b).valid)
    (hdata : ∀ b, (s'.buf b).data=(s.buf b).data) (hholds : ∀ b p, s'.Holds b p ↔ s.Holds b p)
    (hclean : ∀ b, (s'.buf b).dirty=false → (s'.buf b).lock=none →
      (s.buf b).dirty=false ∧ (s.buf b).lock=none) : Represents s' a := by
  refine ⟨fun k hk => ?_,fun b hb => ?_,fun k hk hnone => ?_,fun b p hb => ?_,fun k hnone => ?_,
    fun b hvalid' hdirty hlock => ?_⟩
  · rw [hdisk]
    exact h.stored k hk
  · rw [hkey,hdata]
    exact h.cached b (hvalid b ▸ hb)
  · rw [hdisk]
    exact h.uncached k hk (fun b hb => hkey b ▸ hnone b ((hvalid b).trans hb))
  · rw [hkey]
    exact h.taken b p ((hholds b p).mp hb)
  · exact h.free k (fun b p hb => hkey b ▸ hnone b p ((hholds b p).mpr hb))
  · obtain ⟨hdirty',hlock'⟩ := hclean b hdirty hlock
    have hblock := Prod.mk.inj (hkey b)
    rw [hdata,hdisk,hblock.1,hblock.2]
    exact h.clean b ((hvalid b).symm.trans hvalid') hdirty' hlock'

/-- Only the buffers, the processes and the disks matter. -/
theorem Represents.congr (h : Represents s a) (hdisk : s'.disk=s.disk) (hbuf : s'.buf=s.buf)
    (hplace : s'.place=s.place) : Represents s' a := by
  refine h.frame hdisk (fun b => by rw [hbuf]) (fun b => by rw [hbuf]) (fun b => by rw [hbuf])
    (fun b p => holds_iff (by rw [hbuf]) (by rw [hplace])) (fun b hdirty hlock => ?_)
  rw [hbuf] at hdirty hlock
  exact ⟨hdirty,hlock⟩

/-- A process moves, and reads what it read before. -/
theorem Represents.move {place : Place nb} (h : Represents s a)
    (hreads : place.reads=(s.place p).reads) : Represents (s.moved p place) a := by
  refine h.frame rfl (fun _ => rfl) (fun _ => rfl) (fun _ => rfl) (fun b q => holds_iff rfl ?_)
    (fun _ hdirty hlock => ⟨hdirty,hlock⟩)
  by_cases hq : q=p
  · rw [hq,moved_self,hreads]
  · rw [moved_other s place hq]

/-- A kernel that stops stays as it is. -/
theorem Represents.stopped (h : Represents s a) (text : String) : Represents (s.stopped text) a :=
  h.congr rfl rfl rfl

/-- A buffer is changed, but not its block or its data, nor who holds it. -/
theorem Represents.put (h : Represents s a) (hkey : x.key=(s.buf b).key)
    (hvalid : x.valid=(s.buf b).valid) (hdata : x.data=(s.buf b).data)
    (hlock : x.lock=(s.buf b).lock) (hdirty : x.dirty=false → (s.buf b).dirty=false) :
    Represents (s.put b x) a := by
  have hother : ∀ c, c≠b → (s.put b x).buf c=s.buf c := fun c hc => put_other s x hc
  have hself : (s.put b x).buf b=x := put_self s b x
  have hkept : ∀ c, ((s.put b x).buf c).lock=(s.buf c).lock :=
    kept_of_other Buf.lock hother (by rw [hself,hlock])
  refine h.frame rfl (kept_of_other Buf.key hother (by rw [hself,hkey]))
    (kept_of_other Buf.valid hother (by rw [hself,hvalid]))
    (kept_of_other Buf.data hother (by rw [hself,hdata]))
    (fun c q => holds_iff (hkept c) rfl) (fun c hd hl => ⟨?_,hkept c ▸ hl⟩)
  by_cases hcb : c=b
  · subst hcb
    exact hdirty (by rw [←hself]; exact hd)
  · exact hother c hcb ▸ hd

/-! ## What shows -/

/-- `bread` returns: a block is taken. -/
theorem represents_take (hs : Sound s) (h : Represents s a) (hreads : (s.place p).reads=some b)
    (hvalid : (s.buf b).valid=true) :
    ∃ a', LockedMemory.step (.take p (s.buf b).key (s.buf b).data) a=some a' ∧
      Represents (s.moved p .idle) a' := by
  have hlock := (hs.synced.good p).lock (Place.inCall_of_reads hreads)
  have hblank := hs.not_blank hlock
  have hfree : a.holder (s.buf b).key=none := by
    refine h.free _ fun c q hc hkey => ?_
    have hcb := hs.unique (hs.not_blank hc.1) hblank hkey
    subst hcb
    cases hlock.symm.trans hc.1
    exact hc.2 hreads
  have hplace : ∀ q, q≠p → (s.moved p .idle).place q=s.place q := fun q hq => moved_other s _ hq
  refine ⟨_,step_take hfree (h.cached b hvalid),h.stored,h.cached,h.uncached,fun c q hc => ?_,
    fun k hnone => ?_,h.clean⟩
  · by_cases hcb : c=b
    · subst hcb
      cases hlock.symm.trans hc.1
      exact Function.update_self _ _ _
    · refine (Function.update_of_ne ?_ _ _).trans (h.taken c q ⟨hc.1,?_⟩)
      · exact hs.key_ne hblank (hs.not_blank hc.1) hcb
      · by_cases hq : q=p
        · subst hq
          rw [hreads]
          exact fun heq => hcb (Option.some_inj.mp heq).symm
        · exact hplace q hq ▸ hc.2
  · have hk : k≠(s.buf b).key := by
      rintro rfl
      refine hnone b p ⟨hlock,?_⟩ rfl
      rw [moved_self]
      rintro ⟨⟩
    refine (Function.update_of_ne hk _ _).trans (h.free k fun c q hc => hnone c q ⟨hc.1,?_⟩)
    by_cases hq : q=p
    · subst hq
      rw [moved_self]
      rintro ⟨⟩
    · rw [hplace q hq]
      exact hc.2

/-- A holder changes its block. -/
theorem represents_put {data : Block} (hs : Sound s) (h : Represents s a) (hp : s.place p=.idle)
    (hlock : (s.buf b).lock=some p) :
    ∃ a', LockedMemory.step (.put p (s.buf b).key data) a=some a' ∧
      Represents (s.put b {s.buf b with data}) a' := by
  have hblank := hs.not_blank hlock
  have hvalid := valid_held hs hp hlock
  have hholds : s.Holds b p := ⟨hlock,by rw [hp]; rintro ⟨⟩⟩
  have hother : ∀ c, c≠b → (s.put b {s.buf b with data}).buf c=s.buf c :=
    fun c hc => put_other s _ hc
  have hself : (s.put b {s.buf b with data}).buf b={s.buf b with data} := put_self s b _
  have hkey : ∀ c, ((s.put b {s.buf b with data}).buf c).key=(s.buf c).key :=
    kept_of_other Buf.key hother (by rw [hself]; rfl)
  have hkeptValid : ∀ c, ((s.put b {s.buf b with data}).buf c).valid=(s.buf c).valid :=
    kept_of_other Buf.valid hother (by rw [hself])
  have hsame : ∀ c q, (s.put b {s.buf b with data}).Holds c q ↔ s.Holds c q :=
    fun c q => holds_iff (kept_of_other Buf.lock hother (by rw [hself]) c) rfl
  refine ⟨_,step_put (h.taken b p hholds),h.stored,fun c hc => ?_,fun k hk hnone => ?_,
    fun c q hc => ?_,fun k hnone => ?_,fun c hc hdirty hfree => ?_⟩
  · by_cases hcb : c=b
    · subst hcb
      rw [put_self]
      exact Function.update_self _ _ _
    · rw [hother c hcb] at hc ⊢
      refine (Function.update_of_ne ?_ _ _).trans (h.cached c hc)
      exact hs.key_ne hblank (not_blank_of_valid hc) hcb
  · have hkb : k≠(s.buf b).key := by
      rintro rfl
      exact hnone b ((hkeptValid b).trans hvalid) (hkey b)
    refine (Function.update_of_ne hkb _ _).trans (h.uncached k hk fun c hc => ?_)
    exact hkey c ▸ hnone c ((hkeptValid c).trans hc)
  · rw [hkey]
    exact h.taken c q ((hsame c q).mp hc)
  · exact h.free k fun c q hc => hkey c ▸ hnone c q ((hsame c q).mpr hc)
  · have hcb : c≠b := by
      rintro rfl
      rw [put_self] at hfree
      cases hlock.symm.trans hfree
    rw [hother c hcb] at hc hdirty hfree ⊢
    exact h.clean c hc hdirty hfree

/-- `brelse` gives a block back, with no change that would be lost. -/
theorem represents_drop (hs : Sound s) (h : Represents s a) (hp : s.place p=.idle)
    (hlock : (s.buf b).lock=some p)
    (hkept : (s.buf b).dirty=true ∨ (s.buf b).data=s.disk (s.buf b).dev (s.buf b).blockno) :
    ∃ a', LockedMemory.step (.drop p (s.buf b).key) a=some a' ∧
      Represents (brelse p b s) a' := by
  have hblank := hs.not_blank hlock
  have hholds : s.Holds b p := ⟨hlock,by rw [hp]; rintro ⟨⟩⟩
  have hself : (brelse p b s).buf b={s.buf b with lock := none} := by
    unfold brelse
    rw [if_pos hlock]
    exact put_self s b _
  have hother : ∀ c, c≠b → (brelse p b s).buf c=s.buf c := by
    intro c hc
    unfold brelse
    rw [if_pos hlock]
    exact put_other s _ hc
  have hdisk : (brelse p b s).disk=s.disk := by
    unfold brelse
    rw [if_pos hlock]
    rfl
  have hreads : ∀ q, ((brelse p b s).place q).reads=(s.place q).reads := by
    intro q
    have hplace : (brelse p b s).place=
        Function.update (fun q => (s.place q).wakeReader b) p (.releasing b) := by
      unfold brelse
      rw [if_pos hlock]
    rw [hplace]
    by_cases hq : q=p
    · subst hq
      rw [Function.update_self,hp]
      rfl
    · rw [Function.update_of_ne hq]
      cases hqplace : s.place q with
      | readAsleep c =>
        rw [Place.wakeReader]
        split_ifs <;> rfl
      | _ => rfl
  have hkey : ∀ c, ((brelse p b s).buf c).key=(s.buf c).key :=
    kept_of_other Buf.key hother (by rw [hself]; rfl)
  have hvalid : ∀ c, ((brelse p b s).buf c).valid=(s.buf c).valid :=
    kept_of_other Buf.valid hother (by rw [hself])
  have hdata : ∀ c, ((brelse p b s).buf c).data=(s.buf c).data :=
    kept_of_other Buf.data hother (by rw [hself])
  have hsame : ∀ c q, (brelse p b s).Holds c q ↔ c≠b ∧ s.Holds c q := by
    intro c q
    by_cases hcb : c=b
    · unfold State.Holds
      rw [hcb,hself]
      exact ⟨fun hc => absurd hc.1 (by rintro ⟨⟩),fun hc => absurd rfl hc.1⟩
    · exact (holds_iff (by rw [hother c hcb]) (hreads q)).trans (and_iff_right hcb).symm
  refine ⟨_,step_drop (h.taken b p hholds),fun k hk => ?_,fun c hc => ?_,fun k hk hnone => ?_,
    fun c q hc => ?_,fun k hnone => ?_,fun c hc hdirty hfree => ?_⟩
  · rw [hdisk]
    exact h.stored k hk
  · rw [hkey,hdata]
    exact h.cached c (hvalid c ▸ hc)
  · rw [hdisk]
    exact h.uncached k hk fun c hc => hkey c ▸ hnone c ((hvalid c).trans hc)
  · obtain ⟨hcb,hc⟩ := (hsame c q).mp hc
    rw [hkey]
    refine (Function.update_of_ne ?_ _ _).trans (h.taken c q hc)
    exact hs.key_ne hblank (hs.not_blank hc.1) hcb
  · by_cases hk : k=(s.buf b).key
    · rw [hk]
      exact Function.update_self _ _ _
    · refine (Function.update_of_ne hk _ _).trans (h.free k fun c q hc => ?_)
      by_cases hcb : c=b
      · subst hcb
        exact fun heq => hk heq.symm
      · exact hkey c ▸ hnone c q ((hsame c q).mpr ⟨hcb,hc⟩)
  · by_cases hcb : c=b
    · subst hcb
      rw [hself] at hdirty ⊢
      rw [hdisk]
      refine hkept.resolve_left fun hpinned => ?_
      cases hdirty.symm.trans hpinned
    · rw [hother c hcb] at hc hdirty hfree ⊢
      rw [hdisk]
      exact h.clean c hc hdirty hfree

/-! ## The disks -/

/-- The disks after a write. -/
theorem carriedOut_write (disk : ℕ → ℕ → Block) (drive sector i j : ℕ) (data : Block) :
    carriedOut disk (some (.write drive sector data)) i j=
      if i=drive ∧ j=sector then data else disk i j := by
  unfold carriedOut
  simp only
  by_cases hi : i=drive
  · subst hi
    rw [Function.update_self]
    by_cases hj : j=sector
    · rw [hj,Function.update_self,if_pos ⟨rfl,rfl⟩]
    · rw [Function.update_of_ne hj,if_neg (fun heq => hj heq.2)]
  · rw [Function.update_of_ne hi,if_neg (fun heq => hi heq.1)]

/-- A process that the driver wakes reads what it read before. -/
theorem reads_wakeWaiter (b : Fin nb) (place : Place nb) :
    (place.wakeWaiter b).reads=place.reads := by
  cases place with
  | waiting call c =>
    cases call with
    | bread =>
      rw [Place.wakeWaiter]
      split_ifs <;> rfl
    | bwrite =>
      rw [Place.wakeWaiter]
      split_ifs <;> rfl
  | _ => rfl

/-- A buffer is read from the disk. -/
theorem represents_read {rest : List (Fin nb)} (hs : Sound s) (hproper : Proper havedisk1 s)
    (h : Represents s a) (hq : s.queue=b::rest) (hlock : (s.buf b).lock=some p)
    (hasks : (s.buf b).Asks .bread) : Represents (interrupted true b rest s) a := by
  have hblank := hs.not_blank hlock
  have hcommand : s.command=some (.read (s.buf b).dev (s.buf b).blockno) := by
    rw [hs.synced.command,hq]
    change some (s.buf b).command=_
    rw [Buf.command,if_neg (by rw [hasks.2]; exact Bool.false_ne_true),
      Nat.mod_eq_of_lt (hproper b).1]
  have hdisk : (interrupted true b rest s).disk=s.disk := by
    change carriedOut s.disk s.command=s.disk
    rw [hcommand]
    rfl
  have hself : (interrupted true b rest s).buf b=
      {s.buf b with
        data := s.disk (s.buf b).dev (s.buf b).blockno,valid := true,dirty := false} := by
    refine (put_self s b _).trans ?_
    rw [Buf.done,if_pos ⟨hasks.2,rfl⟩,if_pos rfl,hcommand]
    rfl
  have hother : ∀ c, c≠b → (interrupted true b rest s).buf c=s.buf c :=
    fun c hc => put_other s _ hc
  have hkey : ∀ c, ((interrupted true b rest s).buf c).key=(s.buf c).key :=
    kept_of_other Buf.key hother (by rw [hself]; rfl)
  have hsame : ∀ c q, (interrupted true b rest s).Holds c q ↔ s.Holds c q :=
    fun c q => holds_iff (kept_of_other Buf.lock hother (by rw [hself]) c)
      (reads_wakeWaiter b (s.place q))
  refine ⟨fun k hk => ?_,fun c hc => ?_,fun k hk hnone => ?_,fun c q hc => ?_,fun k hnone => ?_,
    fun c hc hdirty hfree => ?_⟩
  · rw [hdisk]
    exact h.stored k hk
  · by_cases hcb : c=b
    · subst hcb
      rw [hself]
      refine h.uncached (s.buf c).key (hproper c).1 fun d hd hkey' => ?_
      have hdc := hs.unique (not_blank_of_valid hd) hblank hkey'
      subst hdc
      cases hasks.1.symm.trans hd
    · rw [hother c hcb] at hc ⊢
      exact h.cached c hc
  · rw [hdisk]
    refine h.uncached k hk fun c hc => hkey c ▸ hnone c ?_
    by_cases hcb : c=b
    · rw [hcb,hself]
    · rw [hother c hcb]
      exact hc
  · rw [hkey]
    exact h.taken c q ((hsame c q).mp hc)
  · exact h.free k fun c q hc => hkey c ▸ hnone c q ((hsame c q).mpr hc)
  · have hcb : c≠b := by
      rintro rfl
      rw [hself] at hfree
      cases hlock.symm.trans hfree
    rw [hother c hcb] at hc hdirty hfree ⊢
    rw [hdisk]
    exact h.clean c hc hdirty hfree

/-- A buffer is written to the disk. -/
theorem represents_sync {rest : List (Fin nb)} (hs : Sound s) (hproper : Proper havedisk1 s)
    (h : Represents s a) (hq : s.queue=b::rest) (hholds : s.Holds b p)
    (hasks : (s.buf b).Asks .bwrite) :
    ∃ a', LockedMemory.step (.sync p (s.buf b).key) a=some a' ∧
      Represents (interrupted true b rest s) a' := by
  have hblank := hs.not_blank hholds.1
  have hcommand : s.command=some (.write (s.buf b).dev (s.buf b).blockno (s.buf b).data) := by
    rw [hs.synced.command,hq]
    change some (s.buf b).command=_
    rw [Buf.command,if_pos hasks.2,Nat.mod_eq_of_lt (hproper b).1]
  have hdisk : ∀ i j, (interrupted true b rest s).disk i j=
      if i=(s.buf b).dev ∧ j=(s.buf b).blockno then (s.buf b).data else s.disk i j := by
    intro i j
    change carriedOut s.disk s.command i j=_
    rw [hcommand,carriedOut_write]
  have hdiskOther : ∀ k : ℕ × ℕ, k≠(s.buf b).key →
      (interrupted true b rest s).disk k.1 k.2=s.disk k.1 k.2 := by
    intro k hk
    rw [hdisk,if_neg (fun heq => hk (Prod.ext heq.1 heq.2))]
  have hself : (interrupted true b rest s).buf b={s.buf b with valid := true,dirty := false} := by
    refine (put_self s b _).trans ?_
    have hwrite : ¬((s.buf b).dirty=false ∧ true=true) := by
      rw [hasks.2]
      exact fun hclean => absurd hclean.1 (by rintro ⟨⟩)
    rw [Buf.done,if_neg hwrite]
  have hother : ∀ c, c≠b → (interrupted true b rest s).buf c=s.buf c :=
    fun c hc => put_other s _ hc
  have hkey : ∀ c, ((interrupted true b rest s).buf c).key=(s.buf c).key :=
    kept_of_other Buf.key hother (by rw [hself]; rfl)
  have hsame : ∀ c q, (interrupted true b rest s).Holds c q ↔ s.Holds c q :=
    fun c q => holds_iff (kept_of_other Buf.lock hother (by rw [hself]) c)
      (reads_wakeWaiter b (s.place q))
  refine ⟨_,step_sync (h.taken b p hholds),fun k hk => ?_,fun c hc => ?_,fun k hk hnone => ?_,
    fun c q hc => ?_,fun k hnone => ?_,fun c hc hdirty hfree => ?_⟩
  · by_cases hkb : k=(s.buf b).key
    · rw [hkb]
      refine (Function.update_self _ _ _).trans ((h.cached b hasks.1).trans ?_)
      rw [hdisk,if_pos ⟨rfl,rfl⟩]
    · rw [hdiskOther k hkb]
      exact (Function.update_of_ne hkb _ _).trans (h.stored k hk)
  · by_cases hcb : c=b
    · subst hcb
      rw [hself]
      exact h.cached c hasks.1
    · rw [hother c hcb] at hc ⊢
      exact h.cached c hc
  · have hkb : k≠(s.buf b).key := by
      rintro rfl
      exact hnone b (by rw [hself]) (hkey b)
    rw [hdiskOther k hkb]
    refine h.uncached k hk fun c hc => hkey c ▸ hnone c ?_
    by_cases hcb : c=b
    · rw [hcb,hself]
    · rw [hother c hcb]
      exact hc
  · rw [hkey]
    exact h.taken c q ((hsame c q).mp hc)
  · exact h.free k fun c q hc => hkey c ▸ hnone c q ((hsame c q).mpr hc)
  · have hcb : c≠b := by
      rintro rfl
      rw [hself] at hfree
      cases hholds.1.symm.trans hfree
    rw [hother c hcb] at hc hdirty hfree ⊢
    have hne := hs.key_ne hblank (not_blank_of_valid hc) hcb
    exact (h.clean c hc hdirty hfree).trans (hdiskOther (s.buf c).key hne).symm

/-- `bget` recycles a buffer. -/
theorem represents_recycle {dev blockno : ℕ} (hs : Sound s) (h : Represents s a)
    (hp : s.place p=.idle) (hunused : (s.buf b).unused=true) :
    Represents ((s.put b
      {s.buf b with dev,blockno,valid := false,dirty := false,refcnt := 1}).moved p (.reading b))
      a := by
  have hflags : (s.buf b).refcnt=0 ∧ (s.buf b).dirty=false := of_decide_eq_true hunused
  have hfree := hs.counted.free hflags.1
  have hput : Represents (s.put b
      {s.buf b with dev,blockno,valid := false,dirty := false,refcnt := 1}) a := by
    have hother : ∀ c, c≠b → (s.put b
        {s.buf b with dev,blockno,valid := false,dirty := false,refcnt := 1}).buf c=s.buf c :=
      fun c hc => put_other s _ hc
    have hnew : ∀ c, ((s.put b
        {s.buf b with dev,blockno,valid := false,dirty := false,refcnt := 1}).buf c).valid=true →
        c≠b := by
      rintro c hc rfl
      rw [put_self] at hc
      cases hc
    have hheld : ∀ c q, (s.put b
        {s.buf b with dev,blockno,valid := false,dirty := false,refcnt := 1}).Holds c q →
        c≠b := by
      rintro c q hc rfl
      unfold State.Holds at hc
      rw [put_self] at hc
      cases hfree.symm.trans hc.1
    refine ⟨h.stored,fun c hc => ?_,fun k hk hout => ?_,fun c q hc => ?_,fun k hout => ?_,
      fun c hc hdirty hlock => ?_⟩
    · have hcb := hnew c hc
      rw [hother c hcb] at hc ⊢
      exact h.cached c hc
    · by_cases hold : (s.buf b).valid=true ∧ (s.buf b).key=k
      · -- the recycled buffer is as on the disk
        obtain ⟨hvalid,rfl⟩ := hold
        exact (h.cached b hvalid).trans (h.clean b hvalid hflags.2 hfree)
      · refine h.uncached k hk fun c hc hkey => ?_
        by_cases hcb : c=b
        · exact hold ⟨hcb ▸ hc,hcb ▸ hkey⟩
        · exact hout c (by rw [hother c hcb]; exact hc) (by rw [hother c hcb]; exact hkey)
    · have hcb := hheld c q hc
      unfold State.Holds at hc
      rw [hother c hcb] at hc ⊢
      exact h.taken c q hc
    · refine h.free k fun c q hc hkey => ?_
      have hcb : c≠b := by
        rintro rfl
        cases hfree.symm.trans hc.1
      refine hout c q ?_ (by rw [hother c hcb]; exact hkey)
      unfold State.Holds
      rw [hother c hcb]
      exact hc
    · have hcb := hnew c hc
      rw [hother c hcb] at hc hdirty hlock ⊢
      exact h.clean c hc hdirty hlock
  refine hput.move ?_
  have hidle : ((s.put b
      {s.buf b with dev,blockno,valid := false,dirty := false,refcnt := 1}).place p)=.idle := hp
  rw [hidle]
  rfl

/-! ## Every step -/

/-- A step is matched by what is observed of it. -/
def Matched (s s' : State np nb) (act : Action np nb) (a : Memory (ℕ × ℕ) Block (Fin np)) : Prop :=
  ∃ a', follow LockedMemory.step Anything (observe s act).toList a=some a' ∧ Represents s' a'

/-- A step that does not show. -/
theorem Represents.unseen (h : Represents s' a) (hsee : observe s act=none) :
    Matched s s' act a := by
  unfold Matched
  rw [hsee]
  exact ⟨a,rfl,h⟩

/-- A step that shows as one event. -/
theorem matched_of_seen {e : Event (ℕ × ℕ) Block (Fin np)} (hsee : observe s act=some e)
    (h : ∃ a', LockedMemory.step e a=some a' ∧ Represents s' a') : Matched s s' act a := by
  obtain ⟨a',hstep,hrep⟩ := h
  unfold Matched
  rw [hsee]
  exact ⟨a',follow_one hstep,hrep⟩

/-- `bget` does not show. -/
theorem represents_bget {dev blockno : ℕ} (hs : Sound s) (h : Represents s a)
    (hp : s.place p=.idle) (hstep : bget p dev blockno s=some s') : Represents s' a := by
  obtain ⟨l,hl⟩ := hs.listed
  rcases hl.bget_cases p dev blockno with ⟨b,u,v,-,-,-,heq⟩|⟨b,-,hb,heq⟩|⟨-,-,heq⟩
  · cases heq.symm.trans hstep
    have hput : Represents (s.put b {s.buf b with refcnt := (s.buf b).refcnt+1}) a :=
      h.put rfl rfl rfl rfl id
    refine hput.move ?_
    have hidle : (s.put b {s.buf b with refcnt := (s.buf b).refcnt+1}).place p=.idle := hp
    rw [hidle]
    rfl
  · cases heq.symm.trans hstep
    exact represents_recycle hs h hp hb
  · cases heq.symm.trans hstep
    exact h.stopped _

/-- A process takes a lock while it reads. -/
theorem represents_acquiresleep (h : Represents s a) (hp : s.place p=.reading b) :
    Represents (acquiresleep p b s) a := by
  unfold acquiresleep
  split_ifs with hfree
  · have hself : ((s.put b {s.buf b with lock := some p}).moved p (.checking b)).buf b=
        {s.buf b with lock := some p} := put_self s b _
    have hother : ∀ c, c≠b →
        ((s.put b {s.buf b with lock := some p}).moved p (.checking b)).buf c=s.buf c :=
      fun c hc => put_other s _ hc
    refine h.frame rfl (kept_of_other Buf.key hother (by rw [hself]; rfl))
      (kept_of_other Buf.valid hother (by rw [hself]))
      (kept_of_other Buf.data hother (by rw [hself])) (fun c q => ?_) (fun c => ?_)
    all_goals
      by_cases hcb : c=b
    · -- the process that takes the lock is still reading
      unfold State.Holds
      rw [hcb,hself,hfree]
      refine ⟨fun hc => ?_,fun hc => absurd hc.1 (by rintro ⟨⟩)⟩
      cases hc.1
      have hreads := hc.2
      rw [moved_self] at hreads
      exact absurd rfl hreads
    · unfold State.Holds
      rw [hother c hcb]
      refine and_congr_right fun _ => not_congr ?_
      by_cases hq : q=p
      · subst hq
        rw [moved_self,hp]
        exact ⟨fun heq => absurd (Option.some_inj.mp heq).symm hcb,(by rintro ⟨⟩)⟩
      · rw [moved_other _ _ hq]
        exact Iff.rfl
    · rw [hcb,hself]
      exact fun _ hlock => absurd hlock (by rintro ⟨⟩)
    · rw [hother c hcb]
      exact fun hdirty hlock => ⟨hdirty,hlock⟩
  · exact h.move (by rw [hp]; rfl)

/-- `iderw` does not show when it queues a buffer. -/
theorem represents_iderwQueue (hs : Sound s) (h : Represents s a)
    (hp : s.place p=.queueing call b) : Represents (iderwQueue p call b s) a := by
  have hgood := hs.synced.good p
  rw [hp] at hgood
  have hnew : b∉s.queue := hs.synced.not_queued (Or.inr ⟨hgood.1,by rw [hp]; rintro ⟨⟩⟩)
  have hreads : (Place.waiting call b).reads=(s.place p).reads := by
    rw [hp]
    cases call <;> rfl
  have hqueued : Represents {s with queue := s.queue++[b]} a := h.congr rfl rfl rfl
  have hstarted : Represents (idestart b {s with queue := s.queue++[b]}) a :=
    hqueued.congr (idestart_disk _ _) (idestart_buf _ _) (idestart_place _ _)
  rw [iderwQueue_eq hnew hgood.2]
  split_ifs
  · exact hstarted.move (by rw [idestart_place]; exact hreads)
  · exact hqueued.move hreads

/-- A process goes on in its call. -/
theorem matched_goOn (hs : Sound s) (h : Represents s a)
    (hstep : goOn havedisk1 p s (s.place p)=some s') : Matched s s' (.go p) a := by
  cases hp : s.place p with
  | reading b =>
    rw [hp] at hstep
    cases hstep
    exact (represents_acquiresleep h hp).unseen (by rw [observe,hp])
  | checking b =>
    rw [hp] at hstep
    cases hstep
    unfold breadCheck
    split_ifs with hvalid
    · exact matched_of_seen (by rw [observe,hp]; exact if_pos hvalid)
        (represents_take hs h (by rw [hp]; rfl) hvalid)
    · exact (h.move (by rw [hp]; rfl)).unseen (by rw [observe,hp]; exact if_neg hvalid)
  | syncing call b =>
    rw [hp] at hstep
    cases hstep
    have hsee : observe s (.go p)=none := by rw [observe,hp]
    unfold iderwCheck
    split_ifs
    · exact (h.stopped _).unseen hsee
    · exact (h.stopped _).unseen hsee
    · exact (h.stopped _).unseen hsee
    · exact (h.move (by rw [hp]; cases call <;> rfl)).unseen hsee
  | queueing call b =>
    rw [hp] at hstep
    cases hstep
    exact (represents_iderwQueue hs h hp).unseen (by rw [observe,hp])
  | woken call b =>
    rw [hp] at hstep
    cases hstep
    unfold iderwWait
    cases call with
    | bread =>
      split_ifs with hdone
      · have hflags : (s.buf b).valid=true ∧ (s.buf b).dirty=false := of_decide_eq_true hdone
        exact matched_of_seen (by rw [observe,hp]; exact if_pos hdone)
          (represents_take hs h (by rw [hp]; rfl) hflags.1)
      · exact (h.move (by rw [hp]; rfl)).unseen (by rw [observe,hp]; exact if_neg hdone)
    | bwrite =>
      have hsee : observe s (.go p)=none := by rw [observe,hp]
      split_ifs
      · exact (h.move (by rw [hp]; rfl)).unseen hsee
      · exact (h.move (by rw [hp]; rfl)).unseen hsee
  | releasing b =>
    rw [hp] at hstep
    cases hstep
    have hput : Represents (s.put b {s.buf b with refcnt := (s.buf b).refcnt-1}) a :=
      h.put rfl rfl rfl rfl id
    have hidle : Represents ((s.put b {s.buf b with refcnt := (s.buf b).refcnt-1}).moved p .idle)
        a :=
      hput.move (congrArg Place.reads hp).symm
    refine Represents.unseen ?_ (by rw [observe,hp])
    unfold brelseList
    simp only
    split_ifs
    · exact hidle.congr rfl rfl rfl
    · exact hidle
  | idle =>
    rw [hp] at hstep
    cases hstep
  | readAsleep b =>
    rw [hp] at hstep
    cases hstep
  | waiting call b =>
    rw [hp] at hstep
    cases hstep

/-- A disk that does not fail interrupts. -/
theorem matched_ideintr (hs : Sound s) (hproper : Proper havedisk1 s) (h : Represents s a) :
    Matched s (ideintr true s) (.ideintr true) a := by
  cases hq : s.queue with
  | nil =>
    rw [ideintr_nil hq]
    exact h.unseen (by rw [observe,hq])
  | cons b rest =>
    -- the first buffer of the queue is read or written
    have hfirst : Matched s (interrupted true b rest s) (.ideintr true) a := by
      obtain ⟨p,hp⟩ := hs.synced.queued b (hq ▸ List.mem_cons_self)
      have hgood := hs.synced.good p
      have hlock := hgood.lock (Place.inCall_of_atDisk hp)
      have hasks : ∃ call, (s.buf b).Asks call ∧ (call=.bwrite → (s.place p).reads≠some b) := by
        have hmem : b∈s.queue := hq ▸ List.mem_cons_self
        cases hplace : s.place p with
        | waiting call c =>
          rw [hplace] at hp hgood
          cases hp
          refine ⟨call,hgood.2.2,?_⟩
          rintro rfl ⟨⟩
        | woken call c =>
          rw [hplace] at hp hgood
          cases hp
          refine ⟨call,hgood.2.1 hmem,?_⟩
          rintro rfl ⟨⟩
        | _ =>
          rw [hplace] at hp
          cases hp
      obtain ⟨call,hasks,hreads⟩ := hasks
      cases call with
      | bread =>
        refine (represents_read hs hproper h hq hlock hasks).unseen ?_
        rw [observe,hq]
        exact if_neg (by rw [hasks.2]; exact Bool.false_ne_true)
      | bwrite =>
        refine matched_of_seen ?_ (represents_sync hs hproper h hq ⟨hlock,hreads rfl⟩ hasks)
        rw [observe,hq]
        refine (if_pos hasks.2).trans ?_
        rw [hlock]
        rfl
    cases rest with
    | nil =>
      rw [ideintr_one hq]
      exact hfirst
    | cons c rest =>
      rw [ideintr_more hq]
      obtain ⟨a',hfollow,hrep⟩ := hfirst
      exact ⟨a',hfollow,hrep.congr (idestart_disk _ _) (idestart_buf _ _) (idestart_place _ _)⟩

/-- Every step that loses no change is matched. -/
theorem matched_stepOn (hs : Sound s) (hproper : Proper havedisk1 s) (h : Represents s a)
    (hlossless : Lossless havedisk1 s act) (hstep : stepOn havedisk1 act s=some s') :
    Matched s s' act a := by
  cases act with
  | bread p dev blockno =>
    simp only [stepOn] at hstep
    split_ifs at hstep with hp
    exact (represents_bget hs h hp hstep).unseen rfl
  | bwrite p b =>
    simp only [stepOn] at hstep
    split_ifs at hstep with hp
    cases hstep
    unfold bwrite
    rw [if_pos (show (s.buf b).lock=some p from hlossless.1)]
    have hput : Represents (s.put b {s.buf b with dirty := true}) a :=
      h.put rfl rfl rfl rfl (by rintro ⟨⟩)
    have hsee : observe s (.bwrite p b)=none := rfl
    refine Represents.unseen (hput.move ?_) hsee
    exact (congrArg Place.reads hp).symm
  | brelse p b =>
    simp only [stepOn] at hstep
    split_ifs at hstep with hp
    cases hstep
    exact matched_of_seen rfl (represents_drop hs h hp hlossless.1 hlossless.2)
  | store p b data =>
    simp only [stepOn] at hstep
    split_ifs at hstep with hp
    cases hstep
    exact matched_of_seen rfl (represents_put hs h hp.1 hp.2)
  | pin p b =>
    simp only [stepOn] at hstep
    split_ifs at hstep with hp
    cases hstep
    have hput : Represents (s.put b {s.buf b with dirty := true}) a :=
      h.put rfl rfl rfl rfl (by rintro ⟨⟩)
    have hsee : observe s (.pin p b)=none := rfl
    exact hput.unseen hsee
  | go p => exact matched_goOn hs h hstep
  | kill p =>
    obtain ⟨place,hplace,heq⟩ := Option.map_eq_some_iff.mp hstep
    cases heq
    refine Represents.unseen (h.move ?_) rfl
    cases hp : s.place p with
    | readAsleep b =>
      rw [hp] at hplace
      cases hplace
      rfl
    | waiting call b =>
      rw [hp] at hplace
      cases hplace
      cases call <;> rfl
    | _ =>
      rw [hp] at hplace
      cases hplace
  | ideintr ok =>
    cases hstep
    cases show ok=true from hlossless.2
    exact matched_ideintr hs hproper h

/-- Empty buffers stand for the disks. -/
theorem represents_booted (disk : ℕ → ℕ → Block) :
    Represents (booted np nb disk) (opened (fun k => disk k.1 k.2)) :=
  ⟨fun _ _ => rfl,fun _ hb => absurd hb (by rintro ⟨⟩),fun _ _ _ => rfl,
    fun _ _ hb => absurd hb.1 (by rintro ⟨⟩),
    fun _ _ => rfl,fun _ hb => absurd hb (by rintro ⟨⟩)⟩

/-- Every run that loses no change is a run of a memory that starts with what is on the
disks. -/
theorem cache_refines {disk : ℕ → ℕ → Block} {acts : List (Action np nb)}
    (hrun : follow (step havedisk1) (Lossless havedisk1) acts (booted np nb disk)=some s) :
    ∃ a, follow LockedMemory.step Anything
        (observations (step havedisk1) observe acts (booted np nb disk))
        (opened (fun k => disk k.1 k.2))=some a ∧ Represents s a := by
  obtain ⟨a,hfollow,-,hrep⟩ := follow_simulates
    (fun s a => (s.panic=none → Kept havedisk1 s) ∧ Represents s a)
    (fun act before next a hbefore hlossless hstep => by
      obtain ⟨hpanic,hstep'⟩ := step_eq hstep
      have hkept := hbefore.1 hpanic
      obtain ⟨a',hfollow,hrep⟩ :=
        matched_stepOn hkept.toSound hkept.proper hbefore.2 hlossless hstep'
      exact ⟨a',hfollow,fun hnext => kept_step hkept hlossless.1 hstep hnext,hrep⟩)
    ⟨fun _ => kept_booted disk,represents_booted disk⟩ hrun
  exact ⟨a,hfollow,hrep⟩

/-- A process changes a block that was read, pins it and gives it back; another process
asks for the block. -/
def changeThenRead (p q : Fin np) (b : Fin nb) (data : Block) : List (Action np nb) :=
  [.bread p 1 7,.go p,.go p,.go p,.go p,.ideintr true,.go p,.store p b data,.pin p b,.brelse p b,
   .go p,.bread q 1 7,.go q]

/-- The run is a run of a memory. -/
theorem changed_block_kept :
    ∃ s a, follow (step true) (Lossless true) (changeThenRead 0 1 0 (fun _ => 5))
        (booted 2 1 (fun _ _ _ => 0))=some s ∧
      follow LockedMemory.step Anything (observations (step true) observe
        (changeThenRead 0 1 0 (fun _ => 5)) (booted 2 1 (fun _ _ _ => 0)))
        (opened (fun _ _ => 0))=some a ∧ Represents s a := by
  have hrun : ∃ s, follow (step true) (Lossless true) (changeThenRead 0 1 0 (fun _ => 5))
      (booted 2 1 (fun _ _ _ => 0))=some s := ⟨_,rfl⟩
  obtain ⟨s,hs⟩ := hrun
  obtain ⟨a,ha,hrep⟩ := cache_refines hs
  exact ⟨s,a,hs,ha,hrep⟩

/-! ## What `bread` returns -/

/-- A `bread` that returns shows as the taking of its block. -/
theorem observe_return (hs : Sound s) (hreads : (s.place p).reads=some b)
    (hstep : goOn havedisk1 p s (s.place p)=some s') (hidle : s'.place p=.idle) :
    observe s (.go p)=some (.take p (s.buf b).key (s.buf b).data) ∧ s'=s.moved p .idle := by
  have hgood := hs.synced.good p
  cases hp : s.place p with
  | checking c =>
    rw [hp] at hreads hstep
    cases hreads
    cases hstep
    rw [observe,hp]
    unfold breadCheck at hidle ⊢
    split_ifs at hidle ⊢ with hvalid
    · exact ⟨if_pos hvalid,rfl⟩
    · rw [moved_self] at hidle
      cases hidle
  | woken call c =>
    cases call with
    | bread =>
      rw [hp] at hreads hstep
      cases hreads
      cases hstep
      rw [observe,hp]
      unfold iderwWait at hidle ⊢
      split_ifs at hidle ⊢ with hdone
      · exact ⟨if_pos hdone,rfl⟩
      · rw [moved_self] at hidle
        cases hidle
    | bwrite =>
      rw [hp] at hreads
      cases hreads
  | syncing call c =>
    rw [hp] at hstep
    cases hstep
    unfold iderwCheck at hidle
    split_ifs at hidle
    · cases hp.symm.trans hidle
    · cases hp.symm.trans hidle
    · cases hp.symm.trans hidle
    · rw [moved_self] at hidle
      cases hidle
  | queueing call c =>
    rw [hp] at hstep hgood
    cases hstep
    rw [iderwQueue_eq (hs.synced.not_queued (Or.inr ⟨hgood.1,by rw [hp]; rintro ⟨⟩⟩)) hgood.2,
      moved_self] at hidle
    cases hidle
  | idle =>
    rw [hp] at hstep
    cases hstep
  | readAsleep c =>
    rw [hp] at hstep
    cases hstep
  | waiting call c =>
    rw [hp] at hstep
    cases hstep
  | reading c =>
    rw [hp] at hreads
    cases hreads
  | releasing c =>
    rw [hp] at hreads
    cases hreads

/-- In every run that loses no change a `bread` that returns finds the data that were put
into the block last, by whichever process, or what was on the disk at first; and nobody
else holds the block. -/
theorem bread_finds_last {disk : ℕ → ℕ → Block} {acts : List (Action np nb)}
    (hrun : follow (step havedisk1) (Lossless havedisk1) acts (booted np nb disk)=some s)
    (hreads : (s.place p).reads=some b) (hstep : step havedisk1 (.go p) s=some s')
    (hidle : s'.place p=.idle) :
    s'.Holds b p ∧ (∀ c q, s'.Holds c q → (s'.buf c).key=(s'.buf b).key → q=p) ∧
      (s'.buf b).data=
        (lastPut (s'.buf b).key
          (observations (step havedisk1) observe acts (booted np nb disk))).getD
            (disk (s'.buf b).dev (s'.buf b).blockno) := by
  obtain ⟨hpanic,hstep'⟩ := step_eq hstep
  have hs := (kept_reachable ((reachable_of_follow hrun).mono (fun _ _ h => h.1)) hpanic).toSound
  have hlock := (hs.synced.good p).lock (Place.inCall_of_reads hreads)
  obtain ⟨hsee,rfl⟩ := observe_return hs hreads hstep' hidle
  obtain ⟨a,hfollow,hrep⟩ := cache_refines hrun
  obtain ⟨a',htake,-⟩ := matched_goOn hs hrep hstep'
  rw [hsee] at htake
  rw [Option.toList_some,follow_cons] at htake
  obtain ⟨next,hnext,-⟩ := Option.bind_eq_some_iff.mp htake
  refine ⟨⟨hlock,?_⟩,fun c q hc hkey => ?_,(take_of_follow hfollow hnext).2⟩
  · rw [moved_self]
    rintro ⟨⟩
  · have hcb := hs.unique (hs.not_blank hc.1) (hs.not_blank hlock) hkey
    subst hcb
    exact Option.some_inj.mp (hc.1.symm.trans hlock)

/-- The second process finds the change of the first one, which is not on the disk. -/
theorem change_is_found :
    ∃ s s', follow (step true) (Lossless true) (changeThenRead 0 1 0 (fun _ => 5))
        (booted 2 1 (fun _ _ _ => 0))=some s ∧ step true (.go 1) s=some s' ∧
      (s'.disk 1 7 0=0 ∧ (s'.buf 0).data 0=5) ∧
      (s'.Holds 0 1 ∧ (∀ c q, s'.Holds c q → (s'.buf c).key=(s'.buf 0).key → q=1) ∧
        (s'.buf 0).data=
          (lastPut (s'.buf 0).key (observations (step true) observe
            (changeThenRead 0 1 0 (fun _ => 5)) (booted 2 1 (fun _ _ _ => 0)))).getD
              ((fun _ _ _ => 0) (s'.buf 0).dev (s'.buf 0).blockno)) := by
  have hrun : ∃ s s', follow (step true) (Lossless true) (changeThenRead 0 1 0 (fun _ => 5))
      (booted 2 1 (fun _ _ _ => 0))=some s ∧ step true (.go 1) s=some s' ∧
      (s.place 1).reads=some 0 ∧ s'.place 1=.idle ∧ s'.disk 1 7 0=0 ∧ (s'.buf 0).data 0=5 :=
    ⟨_,_,rfl,rfl,rfl,rfl,rfl,rfl⟩
  obtain ⟨s,s',hs,hstep,hreads,hidle,hdisk,hdata⟩ := hrun
  exact ⟨s,s',hs,hstep,⟨hdisk,hdata⟩,bread_finds_last hs hreads hstep hidle⟩

end ComputerSystems.Xv6Cache
