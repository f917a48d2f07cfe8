import ComputerSystems.Xv6PipeInvariant

/-!
# Sleeping on a pipe

Whoever sleeps on a pipe has nothing to do: a writer sleeps on a full pipe, a
reader on an empty one, and the other end is open. For readers this holds as long
as no killed process runs into a full pipe in the middle of a write: such a call
returns without waking the readers of the bytes it stored.
-/

namespace ComputerSystems.Xv6Pipe

open TransitionSystem

variable {np : ℕ} {s t : State np}

/-- Whether a process sleeps, or is about to, until there is room. -/
def Place.waitsWrite : Place → Bool
  | .writeDoze _ _ => true
  | .writeAsleep _ _ => true
  | _ => false

/-- Whether a process sleeps, or is about to, until there is a byte. -/
def Place.waitsRead : Place → Bool
  | .readDoze _ => true
  | .readAsleep _ => true
  | _ => false

/-- A process does not run into a full pipe in the middle of a write after it was
killed. -/
def State.Fits (s : State np) (p : Fin np) : Place → Prop
  | .write _ rest =>
    s.killed p=false ∨ s.pipe.Full ∨ rest.length+(s.pipe.nwrite-s.pipe.nread).toNat≤pipeSize
  | _ => True

instance (s : State np) (p : Fin np) (place : Place) : Decidable (s.Fits p place) :=
  match place with
  | .write _ rest => inferInstanceAs (Decidable (s.killed p=false ∨ s.pipe.Full ∨
      rest.length+(s.pipe.nwrite-s.pipe.nread).toNat≤pipeSize))
  | .idle => inferInstanceAs (Decidable True)
  | .writeDoze _ _ => inferInstanceAs (Decidable True)
  | .writeAsleep _ _ => inferInstanceAs (Decidable True)
  | .read _ => inferInstanceAs (Decidable True)
  | .readDoze _ => inferInstanceAs (Decidable True)
  | .readAsleep _ => inferInstanceAs (Decidable True)
  | .closing _ => inferInstanceAs (Decidable True)

/-- No killed process runs into a full pipe in the middle of a write. -/
def Patient (s : State np) : Action np → Prop
  | .run p => s.Fits p (s.place p)
  | _ => True

instance (s : State np) (act : Action np) : Decidable (Patient s act) :=
  match act with
  | .run p => inferInstanceAs (Decidable (s.Fits p (s.place p)))
  | .write _ _ => inferInstanceAs (Decidable True)
  | .read _ _ => inferInstanceAs (Decidable True)
  | .close _ _ => inferInstanceAs (Decidable True)
  | .dup _ _ _ => inferInstanceAs (Decidable True)
  | .kill _ => inferInstanceAs (Decidable True)
  | .reap _ => inferInstanceAs (Decidable True)

/-- Whoever sleeps, or is about to, has nothing to do. -/
structure Waits (s : State np) : Prop where
  /-- A writer waits for room in a full pipe that somebody may read. -/
  writer : ∀ q, (s.place q).waitsWrite=true → s.pipe.Full ∧ s.pipe.readopen=true
  /-- A reader waits for a byte in an empty pipe that somebody may write. -/
  reader : ∀ q, (s.place q).waitsRead=true → s.pipe.Empty ∧ s.pipe.writeopen=true

/-- A full pipe takes no byte. -/
theorem pipewrite_full {p : Pipe} (h : p.Full) (killed : Bool) (n : ℕ) (rest : List UInt8) :
    (pipewrite killed n p rest).1=p := by
  cases rest with
  | nil => rfl
  | cons byte rest =>
    rw [pipewrite,if_pos h]
    split_ifs <;> rfl

/-- A step that leaves the pipe alone and lets one process go on, without more of
them waiting. -/
theorem Waits.moved (h : Waits s) (hpipe : t.pipe=s.pipe) {p : Fin np} {next : Place}
    (hplace : t.place=Function.update s.place p next)
    (hwrite : next.waitsWrite=true → s.pipe.Full ∧ s.pipe.readopen=true)
    (hread : next.waitsRead=true → s.pipe.Empty ∧ s.pipe.writeopen=true) : Waits t := by
  constructor
  · intro q hq
    rw [hplace] at hq
    rw [hpipe]
    by_cases hqp : q=p
    · rw [hqp,Function.update_self] at hq
      exact hwrite hq
    · rw [Function.update_of_ne hqp] at hq
      exact h.writer q hq
  · intro q hq
    rw [hplace] at hq
    rw [hpipe]
    by_cases hqp : q=p
    · rw [hqp,Function.update_self] at hq
      exact hread hq
    · rw [Function.update_of_ne hqp] at hq
      exact h.reader q hq

/-- While the lock is free, no reader waits once the readers are woken. -/
theorem Held.no_reader_waits (h : Held s) (hfree : s.lock=none) (q : Fin np) :
    (s.place q).wakeReader.waitsRead=false := by
  cases hq : s.place q with
  | readDoze n =>
    have hlock := h.lock q (by rw [hq]; rfl)
    rw [hfree] at hlock
    cases hlock
  | _ => rfl

/-- While the lock is free, no writer waits once the writers are woken. -/
theorem Held.no_writer_waits (h : Held s) (hfree : s.lock=none) (q : Fin np) :
    (s.place q).wakeWriter.waitsWrite=false := by
  cases hq : s.place q with
  | writeDoze n rest =>
    have hlock := h.lock q (by rw [hq]; rfl)
    rw [hfree] at hlock
    cases hlock
  | _ => rfl

/-- Waking the readers changes no writer. -/
theorem Place.waitsWrite_wakeReader (place : Place) :
    place.wakeReader.waitsWrite=place.waitsWrite := by
  cases place <;> rfl

/-- Waking the writers changes no reader. -/
theorem Place.waitsRead_wakeWriter (place : Place) :
    place.wakeWriter.waitsRead=place.waitsRead := by
  cases place <;> rfl

/-- A waiting reader keeps the read end open. -/
theorem waiting_reader_open (h : Sound s) {q : Fin np} (hq : (s.place q).waitsRead=true) :
    s.pipe.readopen=true := by
  have hside : (s.place q).side=some .read := by
    cases hplace : s.place q with
    | readDoze n => rfl
    | readAsleep n => rfl
    | _ => rw [hplace] at hq; cases hq
  exact (h.isOpen (h.uses q .read hside)).2

/-- The bytes in the pipe by its counters. -/
theorem Ring.count {p : Pipe} {stored taken : List UInt8} (h : Ring p stored taken) :
    (p.nwrite-p.nread).toNat+taken.length=stored.length := by
  have hle := h.le
  have hroom := h.room
  have hwrite := h.nwrite
  have hread := h.nread
  rw [UInt32.toNat_sub]
  omega

/-- With the read end open, a call gives up exactly when its process was killed and
its bytes do not fit. -/
theorem gives_up_iff (h : Sound s) {p : Fin np} {n : ℕ} {rest : List UInt8}
    (hopen : s.pipe.readopen=true) :
    (pipewrite (s.killed p) n s.pipe rest).2.2=.failed ↔
      s.killed p=true ∧ pipeSize < rest.length+(s.pipe.nwrite-s.pipe.nread).toNat := by
  have hwrote := pipewrite_wrote (s.killed p) n rest s.pipe
  constructor
  · intro hend
    obtain ⟨-,-,hstop⟩ := hwrote.failed hend
    constructor
    · rcases hstop with hclosed|hkilled
      · rw [hopen] at hclosed
        cases hclosed
      · exact hkilled
    · by_contra hroom
      have hcount := h.ring.count
      rw [pipeSize] at hroom
      have hdone := @pipewrite_fits s.taken (s.killed p) n rest _ _ h.ring (by omega)
      rw [hdone] at hend
      cases hend
  rintro ⟨hkilled,hlong⟩
  cases hend : (pipewrite (s.killed p) n s.pipe rest).2.2 with
  | failed => rfl
  | returned m =>
    have hring := ring_pipewrite (s.killed p) n rest h.ring
    rw [(hwrote.returned m hend).2] at hring
    have hroom := hring.room
    have hcount := h.ring.count
    rw [List.length_append] at hroom
    rw [pipeSize] at hlong
    omega
  | sleeps left =>
    have hnot := (hwrote.sleeps left hend).2.2.2
    rw [hkilled] at hnot
    cases hnot

/-- With the read end open, a call that does not run into a full pipe in its middle
stores nothing when it fails. -/
theorem gives_up_unchanged (h : Sound s) {p : Fin np} {n : ℕ} {rest : List UInt8}
    (hfits : s.Fits p (.write n rest))
    (hend : (pipewrite (s.killed p) n s.pipe rest).2.2=.failed) (hopen : s.pipe.readopen=true) :
    (pipewrite (s.killed p) n s.pipe rest).1=s.pipe := by
  obtain ⟨hkilled,hlong⟩ := (gives_up_iff h hopen).mp hend
  rcases hfits with hnot|hfull|hroom
  · rw [hkilled] at hnot
    cases hnot
  · exact pipewrite_full hfull (s.killed p) n rest
  · exact absurd hroom (Nat.not_le.mpr hlong)

/-- Whoever is asleep on bytes after a section of `pipewrite` was asleep before, and
the call failed. -/
theorem asleep_before {p q : Fin np} {n m : ℕ} {rest : List UInt8}
    (ht : t=writeSection p n rest s) (hq : t.place q=.readAsleep m) :
    s.place q=.readAsleep m ∧ (pipewrite (s.killed p) n s.pipe rest).2.2=.failed := by
  have hwoken : ∀ place : Place, place.wakeReader≠.readAsleep m := by
    intro place h
    cases place <;> cases h
  rw [ht] at hq
  rcases writeSection_cases p n rest s with ⟨-,-,heq⟩|⟨left,-,-,heq⟩|⟨hend,-,heq⟩
  · rw [heq] at hq
    change Function.update (fun r => (s.place r).wakeReader) p .idle q=_ at hq
    by_cases hqp : q=p
    · rw [hqp,Function.update_self] at hq
      cases hq
    · rw [Function.update_of_ne hqp] at hq
      exact absurd hq (hwoken _)
  · rw [heq] at hq
    change Function.update (fun r => (s.place r).wakeReader) p (.writeDoze n left) q=_ at hq
    by_cases hqp : q=p
    · rw [hqp,Function.update_self] at hq
      cases hq
    · rw [Function.update_of_ne hqp] at hq
      exact absurd hq (hwoken _)
  · rw [heq] at hq
    change Function.update s.place p .idle q=_ at hq
    by_cases hqp : q=p
    · rw [hqp,Function.update_self] at hq
      cases hq
    · rw [Function.update_of_ne hqp] at hq
      exact ⟨hq,hend⟩

/-- A section of `pipewrite` leaves nobody asleep who has something to do, unless
it fails after storing bytes. -/
theorem waits_writeSection (hs : Sound s) (h : Waits s) {p : Fin np} {n : ℕ} {rest : List UInt8}
    (hfree : s.lock=none) (hfits : s.Fits p (.write n rest)) :
    Waits (writeSection p n rest s) := by
  have hwrote := pipewrite_wrote (s.killed p) n rest s.pipe
  have hstill : ∀ q, (s.place q).waitsWrite=true → (s.wrote p n rest).pipe.Full ∧
      (s.wrote p n rest).pipe.readopen=true := by
    intro q hq
    obtain ⟨hfull,hopen⟩ := h.writer q hq
    have hsame : (s.wrote p n rest).pipe=s.pipe := pipewrite_full hfull (s.killed p) n rest
    rw [hsame]
    exact ⟨hfull,hopen⟩
  rcases writeSection_cases p n rest s with ⟨-,-,heq⟩|⟨left,hend,-,heq⟩|⟨hend,-,heq⟩
  · rw [heq]
    constructor
    · intro q hq
      change (Function.update (fun q => (s.place q).wakeReader) p .idle q).waitsWrite=true at hq
      by_cases hqp : q=p
      · rw [hqp,Function.update_self] at hq
        cases hq
      · rw [Function.update_of_ne hqp,Place.waitsWrite_wakeReader] at hq
        exact hstill q hq
    · intro q hq
      change (Function.update (fun q => (s.place q).wakeReader) p .idle q).waitsRead=true at hq
      by_cases hqp : q=p
      · rw [hqp,Function.update_self] at hq
        cases hq
      · rw [Function.update_of_ne hqp,hs.no_reader_waits hfree q] at hq
        cases hq
  · obtain ⟨-,hfull,hopen,-⟩ := hwrote.sleeps left hend
    rw [heq]
    constructor
    · intro q hq
      change (Function.update (fun q => (s.place q).wakeReader) p (.writeDoze n left) q).waitsWrite=
        true at hq
      by_cases hqp : q=p
      · exact ⟨hfull,hwrote.readopen.trans hopen⟩
      · rw [Function.update_of_ne hqp,Place.waitsWrite_wakeReader] at hq
        exact hstill q hq
    · intro q hq
      change (Function.update (fun q => (s.place q).wakeReader) p (.writeDoze n left) q).waitsRead=
        true at hq
      by_cases hqp : q=p
      · rw [hqp,Function.update_self] at hq
        cases hq
      · rw [Function.update_of_ne hqp,hs.no_reader_waits hfree q] at hq
        cases hq
  · rw [heq]
    constructor
    · intro q hq
      change (Function.update s.place p .idle q).waitsWrite=true at hq
      by_cases hqp : q=p
      · rw [hqp,Function.update_self] at hq
        cases hq
      · rw [Function.update_of_ne hqp] at hq
        exact hstill q hq
    · intro q hq
      change (Function.update s.place p .idle q).waitsRead=true at hq
      by_cases hqp : q=p
      · rw [hqp,Function.update_self] at hq
        cases hq
      · rw [Function.update_of_ne hqp] at hq
        have hsame := gives_up_unchanged hs hfits hend (waiting_reader_open hs hq)
        change (pipewrite (s.killed p) n s.pipe rest).1.Empty ∧
          (pipewrite (s.killed p) n s.pipe rest).1.writeopen=true
        rw [hsame]
        exact h.reader q hq

/-- A section of `piperead` leaves nobody asleep who has something to do. -/
theorem waits_readSection (hs : Sound s) (h : Waits s) {p : Fin np} {n : ℕ} (hfree : s.lock=none) :
    Waits (readSection p n s) := by
  rcases readSection_cases p n s with ⟨-,-,heq⟩|⟨hempty,hopen,heq⟩|⟨hsome,heq⟩
  · rw [heq]
    refine h.moved rfl rfl ?_ ?_
    · intro hwaits
      cases hwaits
    · intro hwaits
      cases hwaits
  · rw [heq]
    refine h.moved rfl rfl ?_ (fun _ => ⟨hempty,hopen⟩)
    intro hwaits
    cases hwaits
  · rw [heq]
    constructor
    · intro q hq
      change (Function.update (fun q => (s.place q).wakeWriter) p .idle q).waitsWrite=true at hq
      by_cases hqp : q=p
      · rw [hqp,Function.update_self] at hq
        cases hq
      · rw [Function.update_of_ne hqp,hs.no_writer_waits hfree q] at hq
        cases hq
    · intro q hq
      change (Function.update (fun q => (s.place q).wakeWriter) p .idle q).waitsRead=true at hq
      by_cases hqp : q=p
      · rw [hqp,Function.update_self] at hq
        cases hq
      · rw [Function.update_of_ne hqp,Place.waitsRead_wakeWriter] at hq
        exact absurd (h.reader q hq) hsome

/-- `pipeclose` leaves nobody asleep who has something to do. -/
theorem waits_pipeclose (hs : Sound s) (h : Waits s) {p : Fin np} {side : Side}
    (hfree : s.lock=none) : Waits (pipeclose p side s) := by
  obtain ⟨-,-,-,-,-,-,-,-,-,hnread,hnwrite⟩ := pipeclose_kept p side s
  have hfull : (pipeclose p side s).pipe.Full ↔ s.pipe.Full := by
    rw [Pipe.Full,Pipe.Full,hnread,hnwrite]
  have hempty : (pipeclose p side s).pipe.Empty ↔ s.pipe.Empty := by
    rw [Pipe.Empty,Pipe.Empty,hnread,hnwrite]
  have hreadopen : (pipeclose p side s).pipe.readopen=
      if Side.read=side then false else s.pipe.readopen := pipeclose_isOpen p side .read s
  have hwriteopen : (pipeclose p side s).pipe.writeopen=
      if Side.write=side then false else s.pipe.writeopen := pipeclose_isOpen p side .write s
  have hplace : (pipeclose p side s).place=Function.update
      (fun q => if side=.write then (s.place q).wakeReader else (s.place q).wakeWriter) p .idle := by
    unfold pipeclose
    cases side <;> dsimp only <;> split_ifs <;> first | rfl | contradiction
  constructor
  · intro q hq
    rw [hplace] at hq
    by_cases hqp : q=p
    · rw [hqp,Function.update_self] at hq
      cases hq
    · rw [Function.update_of_ne hqp] at hq
      cases side with
      | read =>
        rw [if_neg (by decide),hs.no_writer_waits hfree q] at hq
        cases hq
      | write =>
        rw [if_pos rfl,Place.waitsWrite_wakeReader] at hq
        rw [hfull,hreadopen,if_neg (by decide)]
        exact h.writer q hq
  · intro q hq
    rw [hplace] at hq
    by_cases hqp : q=p
    · rw [hqp,Function.update_self] at hq
      cases hq
    · rw [Function.update_of_ne hqp] at hq
      cases side with
      | read =>
        rw [if_neg (by decide),Place.waitsRead_wakeWriter] at hq
        rw [hempty,hwriteopen,if_neg (by decide)]
        exact h.reader q hq
      | write =>
        rw [if_pos rfl,hs.no_reader_waits hfree q] at hq
        cases hq

/-- A killed process waits for no more than before. -/
theorem Place.waits_killed (place : Place) :
    (place.wakeReader.wakeWriter.waitsWrite=true → place.waitsWrite=true) ∧
      (place.wakeReader.wakeWriter.waitsRead=true → place.waitsRead=true) := by
  cases place <;> constructor <;> intro h <;> first | exact h | cases h

/-- Every step leaves nobody asleep who has something to do. -/
theorem waits_step {act : Action np} (hsound : Sound s) (h : Waits s) (ha : Patient s act)
    (hs : step act s=some t) : Waits t := by
  cases act with
  | write p bytes =>
    simp only [step] at hs
    split_ifs at hs
    cases hs
    refine h.moved rfl rfl ?_ ?_ <;> intro hwaits <;> cases hwaits
  | read p n =>
    simp only [step] at hs
    split_ifs at hs
    cases hs
    refine h.moved rfl rfl ?_ ?_ <;> intro hwaits <;> cases hwaits
  | run p =>
    rcases hsound.run_cases hs with ⟨n,rest,hp,hfree,rfl⟩|⟨n,hp,hfree,rfl⟩|⟨side,hp,hfree,rfl⟩|
      ⟨n,rest,hp,rfl⟩|⟨n,hp,rfl⟩
    · rw [Patient,hp] at ha
      exact waits_writeSection hsound h hfree ha
    · exact waits_readSection hsound h hfree
    · exact waits_pipeclose hsound h hfree
    · refine h.moved rfl rfl (fun _ => h.writer p (by rw [hp]; rfl)) ?_
      intro hwaits
      cases hwaits
    · refine h.moved rfl rfl ?_ (fun _ => h.reader p (by rw [hp]; rfl))
      intro hwaits
      cases hwaits
  | close p side =>
    simp only [step] at hs
    split_ifs at hs with hp
    cases hs
    have hstay : s.place=Function.update s.place p .idle := by
      rw [←hp.1,Function.update_eq_self]
    unfold fileclose
    dsimp only
    split_ifs
    · refine h.moved rfl hstay ?_ ?_ <;> intro hwaits <;> cases hwaits
    · refine h.moved rfl hstay ?_ ?_ <;> intro hwaits <;> cases hwaits
    · refine h.moved rfl rfl ?_ ?_ <;> intro hwaits <;> cases hwaits
  | dup p q side =>
    simp only [step] at hs
    split_ifs at hs
    cases hs
    unfold filedup
    split_ifs <;> exact ⟨h.writer,h.reader⟩
  | kill p =>
    cases hs
    obtain ⟨hwrite,hread⟩ := (s.place p).waits_killed
    exact h.moved rfl rfl (fun hw => h.writer p (hwrite hw)) (fun hr => h.reader p (hread hr))
  | reap p =>
    simp only [step] at hs
    split_ifs at hs
    cases hs
    exact ⟨h.writer,h.reader⟩

/-- What holds of every state of a run without a killed writer that gives up. -/
theorem waits_reachable {page : ℕ → UInt8} {p : Fin np}
    (hs : Reachable step Patient (opened page p) s) : Sound s ∧ Waits s := by
  refine hs.invariant (fun s => Sound s ∧ Waits s) ⟨sound_opened page p,?_⟩ ?_
  · constructor <;> intro q hq <;> cases hq
  · intro act before next h ha hstep
    exact ⟨sound_step h.1 hstep,waits_step h.1 h.2 ha hstep⟩

/-- In every run in which no killed process runs into a full pipe in the middle of a
write, a sleeping writer finds the pipe full and its read end open, a sleeping
reader has taken every byte stored and finds the write end open, and so never do a
reader and a writer sleep at the same time. -/
theorem sleepers_wait {page : ℕ → UInt8} {p : Fin np}
    (hs : Reachable step Patient (opened page p) s) :
    (∀ q n rest, s.place q=.writeAsleep n rest →
      s.stored.length=s.taken.length+pipeSize ∧ s.pipe.readopen=true) ∧
    (∀ q n, s.place q=.readAsleep n →
      s.stored.map Prod.snd=s.taken ∧ s.pipe.writeopen=true) ∧
    ∀ q r n m rest, s.place q=.writeAsleep n rest → s.place r≠.readAsleep m := by
  obtain ⟨hsound,hwaits⟩ := waits_reachable hs
  have hwriter : ∀ q n rest, s.place q=.writeAsleep n rest →
      s.stored.length=s.taken.length+pipeSize ∧ s.pipe.readopen=true := by
    intro q n rest hq
    obtain ⟨hfull,hopen⟩ := hwaits.writer q (by rw [hq]; rfl)
    rw [hsound.ring.full_iff,List.length_map] at hfull
    exact ⟨hfull,hopen⟩
  have hreader : ∀ q n, s.place q=.readAsleep n →
      s.stored.map Prod.snd=s.taken ∧ s.pipe.writeopen=true := by
    intro q n hq
    obtain ⟨hempty,hopen⟩ := hwaits.reader q (by rw [hq]; rfl)
    exact ⟨hsound.ring.empty_iff.mp hempty,hopen⟩
  refine ⟨hwriter,hreader,?_⟩
  intro q r n m rest hq hr
  have hfull := (hwriter q n rest hq).1
  have hlength := congrArg List.length (hreader r m hr).1
  rw [List.length_map] at hlength
  rw [pipeSize] at hfull
  omega

/-- A process reads from a new pipe. -/
def readFirst (p q : Fin np) : List (Action np) :=
  [.dup p q .read,.dup p q .write,.read q 4,.run q,.run q]

/-- A reader of a new pipe sleeps, with nothing stored. -/
theorem first_reader_sleeps :
    ∃ s, follow step Patient (readFirst 0 1) (opened (fun _ => 0) (0 : Fin 2))=some s ∧
      s.place 1=.readAsleep 4 ∧ s.stored.map Prod.snd=s.taken ∧ s.pipe.writeopen=true := by
  have hrun : ∃ s, follow step Patient (readFirst 0 1) (opened (fun _ => 0) (0 : Fin 2))=some s ∧
      s.place 1=.readAsleep 4 := ⟨_,rfl,by decide⟩
  obtain ⟨s,hs,hplace⟩ := hrun
  exact ⟨s,hs,hplace,(sleepers_wait (reachable_of_follow hs)).2.1 1 4 hplace⟩

/-- In every run a step of a writer leaves a reader asleep while bytes wait exactly
when the writer was killed, what it has left to write does not fit into the pipe, and
a reader sleeps. -/
theorem sleeps_in_vain_iff {page : ℕ → UInt8} {p q : Fin np} {n : ℕ} {rest : List UInt8}
    (hs : Reachable step Anything (opened page p) s) (hq : s.place q=.write n rest)
    (hstep : step (.run q) s=some t) :
    (∃ r m, t.place r=.readAsleep m ∧ t.stored.map Prod.snd≠t.taken) ↔
      s.killed q=true ∧ pipeSize < rest.length+(s.pipe.nwrite-s.pipe.nread).toNat ∧
        ∃ r m, s.place r=.readAsleep m := by
  have hsound := sound_reachable hs
  have ht := sound_step hsound hstep
  have hsection : t=writeSection q n rest s := by
    rcases hsound.run_cases hstep with ⟨_,_,hp,-,hwrite⟩|⟨m,hp,-⟩|⟨_,hp,-⟩|⟨_,_,hp,-⟩|⟨_,hp,-⟩
    all_goals rw [hq] at hp
    all_goals cases hp
    exact hwrite
  constructor
  · rintro ⟨r,m,hr,-⟩
    obtain ⟨hasleep,hend⟩ := asleep_before hsection hr
    have hopen := waiting_reader_open hsound (show (s.place r).waitsRead=true by rw [hasleep]; rfl)
    obtain ⟨hkilled,hlong⟩ := (gives_up_iff hsound hopen).mp hend
    exact ⟨hkilled,hlong,r,m,hasleep⟩
  · rintro ⟨hkilled,hlong,r,m,hr⟩
    have hopen := waiting_reader_open hsound (show (s.place r).waitsRead=true by rw [hr]; rfl)
    have hgives := (gives_up_iff (n := n) hsound hopen).mpr ⟨hkilled,hlong⟩
    rcases writeSection_cases q n rest s with ⟨hend,-⟩|⟨left,hend,-⟩|⟨hend,-,heq⟩
    · rw [hgives] at hend
      cases hend
    · rw [hgives] at hend
      cases hend
    · refine ⟨r,m,?_,?_⟩
      · have hrq : r≠q := by
          rintro rfl
          rw [hq] at hr
          cases hr
        rw [hsection,heq]
        exact (Function.update_of_ne hrq _ s.place).trans hr
      · -- the call failed because the pipe was full
        intro hall
        have hfull := ((pipewrite_wrote (s.killed q) n rest s.pipe).failed hend).2.1
        have hpipe : t.pipe=(pipewrite (s.killed q) n s.pipe rest).1 := by
          rw [hsection,heq]
          rfl
        rw [←hpipe,ht.ring.full_iff,hall] at hfull
        omega

/-- A reader sleeps, and a process with one byte more than the pipe holds is
killed. -/
def killedWriter (p q : Fin np) : List (Action np) :=
  readFirst p q++[.write p (List.replicate 513 0),.kill p]

/-- The reader goes on sleeping while the pipe is full. -/
theorem reader_sleeps_in_vain :
    ∃ s t, follow step Anything (killedWriter 0 1) (opened (fun _ => 0) (0 : Fin 2))=some s ∧
      step (.run 0) s=some t ∧ ∃ r m, t.place r=.readAsleep m ∧ t.stored.map Prod.snd≠t.taken := by
  have hrun : ∃ s t, follow step Anything (killedWriter 0 1) (opened (fun _ => 0) (0 : Fin 2))=some s ∧
      step (.run 0) s=some t ∧
      s.place 0=.write (List.replicate 513 (0 : UInt8)).length (List.replicate 513 0) ∧
      s.killed 0=true ∧ s.place 1=.readAsleep 4 := ⟨_,_,rfl,rfl,rfl,rfl,rfl⟩
  obtain ⟨s,t,hs,ht,hplace,hkilled,hasleep⟩ := hrun
  refine ⟨s,t,hs,ht,(sleeps_in_vain_iff (reachable_of_follow hs) hplace ht).mpr
    ⟨hkilled,?_,1,4,hasleep⟩⟩
  rw [List.length_replicate,pipeSize]
  omega

end ComputerSystems.Xv6Pipe
