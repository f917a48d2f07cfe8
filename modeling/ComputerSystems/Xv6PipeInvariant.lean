import ComputerSystems.UpdateSum
import ComputerSystems.Xv6Pipe
import Mathlib.Algebra.Order.BigOperators.Group.Finset

/-!
# What every run of a pipe keeps

The ring holds the bytes stored and not yet taken, whatever the counters have
wrapped around to. Every descriptor is counted in the reference count of its
file, a call holds a descriptor of its end, and an end is closed by the one
process that dropped the last reference, so that nobody is left to use the page
that `pipeclose` gives back.
-/

namespace ComputerSystems.Xv6Pipe

open RingBuffer TransitionSystem UpdateSum

/-! ## The ring -/

/-- The pipe holds the bytes that were stored and not taken. -/
structure Ring (p : Pipe) (stored taken : List UInt8) : Prop where
  /-- No more than `PIPESIZE` bytes wait. -/
  room : stored.length≤taken.length+512
  /-- `nread` counts the bytes taken. -/
  nread : p.nread.toNat=taken.length%4294967296
  /-- `nwrite` counts the bytes stored. -/
  nwrite : p.nwrite.toNat=stored.length%4294967296
  /-- The bytes taken are the first ones stored, the others are in the ring. -/
  bytes : stored=taken++held p.data 512 taken.length (stored.length-taken.length)

variable {p : Pipe} {stored taken : List UInt8}

/-- No more bytes are taken than stored. -/
theorem Ring.le (h : Ring p stored taken) : taken.length ≤ stored.length := by
  have hlength := congrArg List.length h.bytes
  rw [List.length_append,length_held] at hlength
  omega

/-- The full test is right. -/
theorem Ring.full_iff (h : Ring p stored taken) : p.Full ↔ stored.length=taken.length+512 := by
  rw [Pipe.Full,←UInt32.toNat_inj,UInt32.toNat_add,h.nread,h.nwrite]
  exact wrapped_full_iff (by decide) h.le h.room

/-- The empty test is right. -/
theorem Ring.empty_iff (h : Ring p stored taken) : p.Empty ↔ stored=taken := by
  rw [Pipe.Empty,←UInt32.toNat_inj,h.nread,h.nwrite,wrapped_empty_iff (by decide) h.le h.room]
  constructor
  · intro hlength
    have hbytes := h.bytes
    rw [hlength,Nat.sub_self] at hbytes
    rw [hbytes]
    exact List.append_nil taken
  · intro heq
    rw [heq]

/-- A new pipe is empty. -/
theorem ring_pipealloc (page : ℕ → UInt8) : Ring (pipealloc page) [] [] :=
  ⟨Nat.zero_le _,rfl,rfl,rfl⟩

/-- A byte is stored. -/
theorem Ring.put (h : Ring p stored taken) (hroom : ¬p.Full) (byte : UInt8) :
    Ring (p.put byte) (stored++[byte]) taken := by
  have hle := h.le
  have hroom' : stored.length<taken.length+512 :=
    Nat.lt_of_le_of_ne h.room (fun heq => hroom (h.full_iff.mpr heq))
  have hcell : (p.nwrite%512).toNat=(taken.length+(stored.length-taken.length))%512 := by
    rw [UInt32.toNat_mod,h.nwrite,Nat.add_sub_cancel' hle]
    exact wrapped_cell (by decide) stored.length
  refine ⟨?_,h.nread,?_,?_⟩
  · rw [List.length_append,List.length_singleton]
    omega
  · rw [List.length_append,List.length_singleton,Pipe.put,UInt32.toNat_add,h.nwrite]
    exact Nat.mod_add_mod stored.length 4294967296 1
  · have hcount : (stored++[byte]).length-taken.length=stored.length-taken.length+1 := by
      rw [List.length_append,List.length_singleton]
      omega
    rw [hcount,Pipe.put,hcell,held_put (by omega),←List.append_assoc,←h.bytes]

/-- A byte is taken. -/
theorem Ring.drop (h : Ring p stored taken) (hbytes : ¬p.Empty) :
    Ring p.drop stored (taken++[p.next]) := by
  have hle := h.le
  have hlt : taken.length<stored.length := by
    refine Nat.lt_of_le_of_ne hle (fun heq => hbytes ?_)
    rw [Pipe.Empty,←UInt32.toNat_inj,h.nread,h.nwrite,heq]
  have hcell : (p.nread%512).toNat=taken.length%512 := by
    rw [UInt32.toNat_mod,h.nread]
    exact wrapped_cell (by decide) taken.length
  have hroom := h.room
  refine ⟨?_,?_,h.nwrite,?_⟩
  · rw [List.length_append,List.length_singleton]
    omega
  · rw [List.length_append,List.length_singleton,Pipe.drop,UInt32.toNat_add,h.nread]
    exact Nat.mod_add_mod taken.length 4294967296 1
  · have hcount : stored.length-taken.length=
        stored.length-(taken++[p.next]).length+1 := by
      rw [List.length_append,List.length_singleton]
      omega
    have hwhole := h.bytes
    rw [hcount,held_take,←hcell] at hwhole
    rw [List.append_assoc,List.length_append,List.length_singleton]
    rw [List.length_append,List.length_singleton] at hwhole
    exact hwhole

/-! ## The sections -/

/-- What a section of `pipewrite` has done when it ends. -/
structure Wrote (killed : Bool) (n : ℕ) (p : Pipe) (rest : List UInt8)
    (w : Pipe × List UInt8 × Outcome) : Prop where
  /-- The read end is as it was. -/
  readopen : w.1.readopen=p.readopen
  /-- The write end is as it was. -/
  writeopen : w.1.writeopen=p.writeopen
  /-- A call that returns has stored all of its bytes. -/
  returned : ∀ m, w.2.2=.returned m → m=n ∧ w.2.1=rest
  /-- A call that sleeps has filled the pipe, and has a byte left. -/
  sleeps : ∀ left, w.2.2=.sleeps left →
    w.2.1++left=rest ∧ w.1.Full ∧ p.readopen=true ∧ killed=false
  /-- A call that fails has filled the pipe. -/
  failed : w.2.2=.failed → w.2.1<+:rest ∧ w.1.Full ∧ (p.readopen=false ∨ killed=true)

/-- What `pipewrite` does, by induction on the bytes. -/
theorem pipewrite_wrote (killed : Bool) (n : ℕ) (rest : List UInt8) : ∀ p : Pipe,
    Wrote killed n p rest (pipewrite killed n p rest) := by
  induction rest with
  | nil =>
    intro p
    refine ⟨rfl,rfl,?_,?_,?_⟩
    · intro m h
      cases h
      exact ⟨rfl,rfl⟩
    · intro left h
      cases h
    · intro h
      cases h
  | cons byte rest ih =>
    intro p
    by_cases hfull : p.Full
    · by_cases hstop : p.readopen=false ∨ killed=true
      · have heq : pipewrite killed n p (byte::rest)=(p,[],.failed) := by
          rw [pipewrite,if_pos hfull,if_pos hstop]
        rw [heq]
        refine ⟨rfl,rfl,?_,?_,fun _ => ⟨List.nil_prefix,hfull,hstop⟩⟩
        · intro m h
          cases h
        · intro left h
          cases h
      · have heq : pipewrite killed n p (byte::rest)=(p,[],.sleeps (byte::rest)) := by
          rw [pipewrite,if_pos hfull,if_neg hstop]
        rw [heq]
        rw [not_or,Bool.not_eq_false,Bool.not_eq_true] at hstop
        refine ⟨rfl,rfl,?_,?_,?_⟩
        · intro m h
          cases h
        · intro left h
          cases h
          exact ⟨rfl,hfull,hstop⟩
        · intro h
          cases h
    · have heq : pipewrite killed n p (byte::rest)=
          ((pipewrite killed n (p.put byte) rest).1,
            byte::(pipewrite killed n (p.put byte) rest).2.1,
            (pipewrite killed n (p.put byte) rest).2.2) := by
        rw [pipewrite,if_neg hfull]
      rw [heq]
      obtain ⟨hread,hwrite,hreturned,hsleeps,hfailed⟩ := ih (p.put byte)
      refine ⟨hread,hwrite,?_,?_,?_⟩
      · intro m h
        obtain ⟨hm,hall⟩ := hreturned m h
        exact ⟨hm,congrArg (byte::·) hall⟩
      · intro left h
        obtain ⟨hall,hthen⟩ := hsleeps left h
        exact ⟨congrArg (byte::·) hall,hthen⟩
      · intro h
        obtain ⟨hall,hthen⟩ := hfailed h
        exact ⟨List.cons_prefix_cons.mpr ⟨rfl,hall⟩,hthen⟩

/-- `pipewrite` stores its bytes behind those in the pipe, by induction on them. -/
theorem ring_pipewrite (killed : Bool) (n : ℕ) (rest : List UInt8) :
    ∀ {p : Pipe} {stored : List UInt8}, Ring p stored taken →
    Ring (pipewrite killed n p rest).1 (stored++(pipewrite killed n p rest).2.1) taken := by
  induction rest with
  | nil =>
    intro p stored h
    rw [pipewrite,List.append_nil]
    exact h
  | cons byte rest ih =>
    intro p stored h
    rw [pipewrite]
    split_ifs with hfull hstop
    · rw [List.append_nil]
      exact h
    · rw [List.append_nil]
      exact h
    · have hlater := ih (h.put hfull byte)
      rw [List.append_assoc] at hlater
      exact hlater

/-- A call whose bytes fit does not fill the pipe before it is done. -/
theorem pipewrite_fits {killed : Bool} {n : ℕ} (rest : List UInt8) :
    ∀ {p : Pipe} {stored : List UInt8}, Ring p stored taken →
    stored.length+rest.length≤taken.length+512 → (pipewrite killed n p rest).2.2=.returned n := by
  induction rest with
  | nil =>
    intro p stored _ _
    rfl
  | cons byte rest ih =>
    intro p stored h hfits
    rw [List.length_cons] at hfits
    have hfull : ¬p.Full := by
      rw [h.full_iff]
      omega
    rw [pipewrite,if_neg hfull]
    refine ih (h.put hfull byte) ?_
    rw [List.length_append,List.length_singleton]
    omega

/-- What the copying loop of `piperead` does, by induction on its rounds. -/
theorem readLoop_took (n : ℕ) : ∀ {p : Pipe} {taken : List UInt8}, Ring p stored taken →
    Ring (readLoop n p).1 stored (taken++(readLoop n p).2) ∧
      (readLoop n p).1.readopen=p.readopen ∧ (readLoop n p).1.writeopen=p.writeopen ∧
      (0<n → ¬p.Empty → (readLoop n p).2≠[]) := by
  induction n with
  | zero =>
    intro p taken h
    rw [readLoop,List.append_nil]
    exact ⟨h,rfl,rfl,fun hpos => absurd hpos (Nat.lt_irrefl 0)⟩
  | succ n ih =>
    intro p taken h
    rw [readLoop]
    split_ifs with hempty
    · rw [List.append_nil]
      exact ⟨h,rfl,rfl,fun _ hnot => absurd hempty hnot⟩
    · obtain ⟨hring,hread,hwrite,-⟩ := ih (h.drop hempty)
      rw [List.append_assoc] at hring
      exact ⟨hring,hread,hwrite,fun _ _ => List.cons_ne_nil _ _⟩

/-- The ways `piperead` ends. -/
theorem piperead_cases (killed : Bool) (n : ℕ) (p : Pipe) :
    (p.Empty ∧ p.writeopen=true ∧ killed=true ∧ piperead killed n p=(p,[],.failed)) ∨
    (p.Empty ∧ p.writeopen=true ∧ killed=false ∧ piperead killed n p=(p,[],.sleeps [])) ∨
    (¬(p.Empty ∧ p.writeopen=true) ∧
      piperead killed n p=((readLoop n p).1,(readLoop n p).2,.returned (readLoop n p).2.length)) := by
  unfold piperead
  split_ifs with hwait hkilled
  · exact Or.inl ⟨hwait.1,hwait.2,hkilled,rfl⟩
  · exact Or.inr (Or.inl ⟨hwait.1,hwait.2,Bool.not_eq_true _ ▸ hkilled,rfl⟩)
  · exact Or.inr (Or.inr ⟨hwait,rfl⟩)

/-! ## The descriptors -/

/-- Whether an end is open. -/
def Pipe.isOpen (p : Pipe) : Side → Bool
  | .read => p.readopen
  | .write => p.writeopen

/-- The end that a call uses. -/
def Place.side : Place → Option Side
  | .write _ _ => some .write
  | .writeDoze _ _ => some .write
  | .writeAsleep _ _ => some .write
  | .read _ => some .read
  | .readDoze _ => some .read
  | .readAsleep _ => some .read
  | _ => none

/-- The end that a process is about to close. -/
def Place.closes : Place → Option Side
  | .closing side => some side
  | _ => none

/-- Whether a process holds the lock over a step. -/
def Place.dozes : Place → Bool
  | .writeDoze _ _ => true
  | .readDoze _ => true
  | _ => false

/-- The bytes a call has left to write. -/
def Place.left : Place → List UInt8
  | .write _ rest => rest
  | .writeDoze _ rest => rest
  | .writeAsleep _ rest => rest
  | _ => []

/-- A process goes on in its call, or stays where it is. -/
structure Place.GoesOn (place next : Place) : Prop where
  /-- It uses the same end. -/
  side : next.side=place.side
  /-- It is about to close the same end. -/
  closes : next.closes=place.closes
  /-- It holds the lock as before. -/
  dozes : next.dozes=place.dozes
  /-- It has the same bytes left. -/
  left : next.left=place.left

/-- A woken reader goes on. -/
theorem Place.goesOn_wakeReader (place : Place) : place.GoesOn place.wakeReader := by
  cases place <;> exact ⟨rfl,rfl,rfl,rfl⟩

/-- A woken writer goes on. -/
theorem Place.goesOn_wakeWriter (place : Place) : place.GoesOn place.wakeWriter := by
  cases place <;> exact ⟨rfl,rfl,rfl,rfl⟩

/-- A killed process goes on. -/
theorem Place.goesOn_killed (place : Place) : place.GoesOn place.wakeReader.wakeWriter := by
  cases place <;> exact ⟨rfl,rfl,rfl,rfl⟩

variable {np : ℕ} {s t : State np}

/-- The references of a pipe are in order. -/
structure Held (s : State np) : Prop where
  /-- A reference count counts the descriptors. -/
  refs : ∀ side, s.ref side=∑ q, s.fds side q
  /-- A call uses an end that its process has a descriptor for. -/
  uses : ∀ q side, (s.place q).side=some side → 0<s.fds side q
  /-- Only one process is about to close an end, without a descriptor left. -/
  closes : ∀ q side, (s.place q).closes=some side → s.ref side=0 ∧ s.pipe.isOpen side=true ∧
    ∀ r, (s.place r).closes=some side → r=q
  /-- A closed end has no descriptors. -/
  shut : ∀ side, s.pipe.isOpen side=false → s.ref side=0
  /-- The page was given back only after both ends were closed. -/
  freed : s.freed=true → ∀ side, s.pipe.isOpen side=false
  /-- Whoever is about to sleep holds the lock. -/
  lock : ∀ q, (s.place q).dozes=true → s.lock=some q
  /-- The page was not used after it was given back. -/
  fault : s.fault=false
  /-- Nothing panicked. -/
  panicked : s.panicked=false

/-- A process with a descriptor finds the end open and referenced. -/
theorem Held.isOpen (h : Held s) {side : Side} {q : Fin np} (hq : 0<s.fds side q) :
    0<s.ref side ∧ s.pipe.isOpen side=true := by
  have hle : s.fds side q≤∑ r, s.fds side r :=
    Finset.single_le_sum (fun r _ => Nat.zero_le (s.fds side r)) (Finset.mem_univ q)
  have href := h.refs side
  refine ⟨by omega,?_⟩
  by_contra hshut
  have := h.shut side (Bool.not_eq_true _ ▸ hshut)
  omega

/-- While an end is open the page is there. -/
theorem Held.not_freed (h : Held s) {side : Side} (hopen : s.pipe.isOpen side=true) :
    s.freed=false := by
  by_contra hfreed
  have hshut := h.freed (Bool.not_eq_false _ ▸ hfreed) side
  rw [hopen] at hshut
  cases hshut

/-- A step that leaves the references, the ends and the page alone. -/
structure Kept (s t : State np) : Prop where
  /-- The ends are open as before. -/
  isOpen : ∀ side, t.pipe.isOpen side=s.pipe.isOpen side
  /-- The page is there as before. -/
  freed : t.freed=s.freed
  /-- It was not used after it was given back. -/
  fault : t.fault=s.fault
  /-- Nothing panicked. -/
  panicked : t.panicked=s.panicked
  /-- The reference counts. -/
  ref : t.ref=s.ref
  /-- The descriptors. -/
  fds : t.fds=s.fds

/-- A step that leaves the references alone and moves one process, with others
woken, keeps them in order. -/
theorem Held.advance (h : Held s) (hkept : Kept s t) {p : Fin np} {woken : Fin np → Place}
    {next : Place} (hplace : t.place=Function.update woken p next)
    (hwoken : ∀ q, (s.place q).GoesOn (woken q))
    (hside : ∀ side, next.side=some side → 0<s.fds side p)
    (hcloses : ∀ side, next.closes=some side → (s.place p).closes=some side)
    (hlock : next.dozes=true → t.lock=some p)
    (hothers : ∀ q, q≠p → (s.place q).dozes=true → t.lock=some q) : Held t := by
  have hcloses' : ∀ q side, (t.place q).closes=some side → (s.place q).closes=some side := by
    intro q side hq
    rw [hplace] at hq
    by_cases hqp : q=p
    · rw [hqp,Function.update_self] at hq
      rw [hqp]
      exact hcloses side hq
    · rw [Function.update_of_ne hqp,(hwoken q).closes] at hq
      exact hq
  refine ⟨?_,?_,?_,?_,?_,?_,hkept.fault.trans h.fault,hkept.panicked.trans h.panicked⟩
  · intro side
    rw [hkept.ref,hkept.fds]
    exact h.refs side
  · intro q side hq
    rw [hkept.fds]
    rw [hplace] at hq
    by_cases hqp : q=p
    · rw [hqp,Function.update_self] at hq
      rw [hqp]
      exact hside side hq
    · rw [Function.update_of_ne hqp,(hwoken q).side] at hq
      exact h.uses q side hq
  · intro q side hq
    obtain ⟨hzero,hstill,hone⟩ := h.closes q side (hcloses' q side hq)
    rw [hkept.ref,hkept.isOpen]
    exact ⟨hzero,hstill,fun r hr => hone r (hcloses' r side hr)⟩
  · intro side hshut
    rw [hkept.isOpen] at hshut
    rw [hkept.ref]
    exact h.shut side hshut
  · intro hfreed side
    rw [hkept.freed] at hfreed
    rw [hkept.isOpen]
    exact h.freed hfreed side
  · intro q hq
    rw [hplace] at hq
    by_cases hqp : q=p
    · rw [hqp,Function.update_self] at hq
      rw [hqp]
      exact hlock hq
    · rw [Function.update_of_ne hqp,(hwoken q).dozes] at hq
      exact hothers q hqp hq

/-- Every place goes on where it is. -/
theorem Place.goesOn_refl (place : Place) : place.GoesOn place := ⟨rfl,rfl,rfl,rfl⟩

/-! ## The ways a step goes -/

/-- A process that goes on under the lock finds the page there. -/
theorem Held.run_cases (h : Held s) {p : Fin np} (hs : step (.run p) s=some t) :
    (∃ n rest, s.place p=.write n rest ∧ s.lock=none ∧ t=writeSection p n rest s) ∨
    (∃ n, s.place p=.read n ∧ s.lock=none ∧ t=readSection p n s) ∨
    (∃ side, s.place p=.closing side ∧ s.lock=none ∧ t=pipeclose p side s) ∨
    (∃ n rest, s.place p=.writeDoze n rest ∧
      t={s.moved p (.writeAsleep n rest) with lock := none}) ∨
    (∃ n, s.place p=.readDoze n ∧ t={s.moved p (.readAsleep n) with lock := none}) := by
  have hthere : ∀ side, (s.place p).side=some side ∨ (s.place p).closes=some side →
      ¬s.freed=true := by
    intro side hside
    rw [Bool.not_eq_true]
    rcases hside with huses|hcloses
    · exact h.not_freed (h.isOpen (h.uses p side huses)).2
    · exact h.not_freed (h.closes p side hcloses).2.1
  rw [step,runSection] at hs
  cases hplace : s.place p with
  | idle => simp only [hplace] at hs; cases hs
  | write n rest =>
    have hpage := hthere .write (Or.inl (by rw [hplace]; rfl))
    simp only [hplace] at hs
    split_ifs at hs with hlock
    cases hs
    exact Or.inl ⟨n,rest,rfl,hlock,rfl⟩
  | read n =>
    have hpage := hthere .read (Or.inl (by rw [hplace]; rfl))
    simp only [hplace] at hs
    split_ifs at hs with hlock
    cases hs
    exact Or.inr (Or.inl ⟨n,rfl,hlock,rfl⟩)
  | closing side =>
    have hpage := hthere side (Or.inr (by rw [hplace]; rfl))
    simp only [hplace] at hs
    split_ifs at hs with hlock
    cases hs
    exact Or.inr (Or.inr (Or.inl ⟨side,rfl,hlock,rfl⟩))
  | writeDoze n rest =>
    simp only [hplace] at hs
    cases hs
    exact Or.inr (Or.inr (Or.inr (Or.inl ⟨n,rest,rfl,rfl⟩)))
  | readDoze n =>
    simp only [hplace] at hs
    cases hs
    exact Or.inr (Or.inr (Or.inr (Or.inr ⟨n,rfl,rfl⟩)))
  | writeAsleep n rest => simp only [hplace] at hs; cases hs
  | readAsleep n => simp only [hplace] at hs; cases hs

/-- The pipe after a section of `pipewrite`, before anybody is woken. -/
def State.wrote (s : State np) (p : Fin np) (n : ℕ) (rest : List UInt8) : State np :=
  {s with
    pipe := (pipewrite (s.killed p) n s.pipe rest).1
    stored := s.stored++
      (pipewrite (s.killed p) n s.pipe rest).2.1.map (fun byte => (p,byte))}

/-- The ways a section of `pipewrite` ends. -/
theorem writeSection_cases (p : Fin np) (n : ℕ) (rest : List UInt8) (s : State np) :
    ((pipewrite (s.killed p) n s.pipe rest).2.2=.returned n ∧
      (pipewrite (s.killed p) n s.pipe rest).2.1=rest ∧
      writeSection p n rest s=(s.wrote p n rest).wakeReaders.returns p n) ∨
    (∃ left, (pipewrite (s.killed p) n s.pipe rest).2.2=.sleeps left ∧
      (pipewrite (s.killed p) n s.pipe rest).2.1++left=rest ∧
      writeSection p n rest s=
        {(s.wrote p n rest).wakeReaders.moved p (.writeDoze n left) with lock := some p}) ∨
    ((pipewrite (s.killed p) n s.pipe rest).2.2=.failed ∧
      (pipewrite (s.killed p) n s.pipe rest).2.1<+:rest ∧
      writeSection p n rest s=
        {(s.wrote p n rest).returns p (-1) with
          asked := Function.update s.asked p ((s.asked p).take ((s.asked p).length-
            (rest.length-(pipewrite (s.killed p) n s.pipe rest).2.1.length)))}) := by
  have hwrote := pipewrite_wrote (s.killed p) n rest s.pipe
  cases hw : (pipewrite (s.killed p) n s.pipe rest).2.2 with
  | returned m =>
    obtain ⟨rfl,hall⟩ := hwrote.returned m hw
    refine Or.inl ⟨rfl,hall,?_⟩
    simp only [writeSection,hw]
    rfl
  | sleeps left =>
    refine Or.inr (Or.inl ⟨left,rfl,(hwrote.sleeps left hw).1,?_⟩)
    simp only [writeSection,hw]
    rfl
  | failed =>
    refine Or.inr (Or.inr ⟨rfl,(hwrote.failed hw).1,?_⟩)
    simp only [writeSection,hw]
    rfl

/-- The pipe after the copying of `piperead`, before anybody is woken. -/
def State.read (s : State np) (n : ℕ) : State np :=
  {s with pipe := (readLoop n s.pipe).1,taken := s.taken++(readLoop n s.pipe).2}

/-- The ways a section of `piperead` ends. -/
theorem readSection_cases (p : Fin np) (n : ℕ) (s : State np) :
    (s.pipe.Empty ∧ s.pipe.writeopen=true ∧ readSection p n s=s.returns p (-1)) ∨
    (s.pipe.Empty ∧ s.pipe.writeopen=true ∧
      readSection p n s={s.moved p (.readDoze n) with lock := some p}) ∨
    (¬(s.pipe.Empty ∧ s.pipe.writeopen=true) ∧
      readSection p n s=(s.read n).wakeWriters.returns p (readLoop n s.pipe).2.length) := by
  have hsame : {s with pipe := s.pipe,taken := s.taken++[]}=s := by
    rw [List.append_nil]
  rcases piperead_cases (s.killed p) n s.pipe with ⟨he,hw,-,heq⟩|⟨he,hw,-,heq⟩|⟨hwait,heq⟩
  · refine Or.inl ⟨he,hw,?_⟩
    simp only [readSection,heq]
    rw [hsame]
  · refine Or.inr (Or.inl ⟨he,hw,?_⟩)
    simp only [readSection,heq]
    rw [hsame]
  · refine Or.inr (Or.inr ⟨hwait,?_⟩)
    simp only [readSection,heq]
    rfl

/-! ## The bytes of a process -/

/-- The bytes that a process has stored. -/
def State.writtenBy (s : State np) (q : Fin np) : List UInt8 :=
  (s.stored.filter (fun x => decide (x.1=q))).map Prod.snd

/-- A process has stored the bytes of its section. -/
theorem writtenBy_wrote_self (s : State np) (p : Fin np) (n : ℕ) (rest : List UInt8) :
    (s.wrote p n rest).writtenBy p=
      s.writtenBy p++(pipewrite (s.killed p) n s.pipe rest).2.1 := by
  have hall : ∀ bytes : List UInt8, ((bytes.map (fun byte => (p,byte))).filter
      (fun x => decide (x.1=p))).map Prod.snd=bytes := by
    intro bytes
    rw [List.filter_eq_self.mpr,List.map_map]
    · exact List.map_id bytes
    · intro x hx
      obtain ⟨byte,-,rfl⟩ := List.mem_map.mp hx
      exact decide_eq_true rfl
  simp only [State.writtenBy,State.wrote,List.filter_append,List.map_append,hall]

/-- The other processes have stored what they had. -/
theorem writtenBy_wrote_ne (s : State np) {p q : Fin np} (hqp : q≠p) (n : ℕ) (rest : List UInt8) :
    (s.wrote p n rest).writtenBy q=s.writtenBy q := by
  have hnone : ∀ bytes : List UInt8, (bytes.map (fun byte => (p,byte))).filter
      (fun x => decide (x.1=q))=[] := by
    intro bytes
    refine List.filter_eq_nil_iff.mpr ?_
    intro x hx
    obtain ⟨byte,-,rfl⟩ := List.mem_map.mp hx
    exact fun h => hqp (of_decide_eq_true h).symm
  simp only [State.writtenBy,State.wrote,List.filter_append,hnone,List.append_nil]

/-- All bytes stored after a section. -/
theorem stored_wrote (s : State np) (p : Fin np) (n : ℕ) (rest : List UInt8) :
    (s.wrote p n rest).stored.map Prod.snd=
      s.stored.map Prod.snd++(pipewrite (s.killed p) n s.pipe rest).2.1 := by
  rw [State.wrote,List.map_append,List.map_map]
  exact congrArg (s.stored.map Prod.snd++·) (List.map_id _)

/-- What holds of every reachable state. -/
structure Sound (s : State np) : Prop extends Held s where
  /-- The ring holds what was stored and not taken. -/
  ring : Ring s.pipe (s.stored.map Prod.snd) s.taken
  /-- A process has stored what it asked to write, up to what its call has left. -/
  asked : ∀ q, s.writtenBy q++(s.place q).left=s.asked q

/-- A step that leaves the references alone and moves one process keeps what holds
of every reachable state. -/
theorem Sound.advance (h : Sound s) (hkept : Kept s t) {p : Fin np} {woken : Fin np → Place}
    {next : Place} (hplace : t.place=Function.update woken p next)
    (hwoken : ∀ q, (s.place q).GoesOn (woken q))
    (hside : ∀ side, next.side=some side → 0<s.fds side p)
    (hcloses : ∀ side, next.closes=some side → (s.place p).closes=some side)
    (hlock : next.dozes=true → t.lock=some p)
    (hothers : ∀ q, q≠p → (s.place q).dozes=true → t.lock=some q)
    (hring : Ring t.pipe (t.stored.map Prod.snd) t.taken)
    (hrest : ∀ q, q≠p → t.writtenBy q=s.writtenBy q ∧ t.asked q=s.asked q)
    (hself : t.writtenBy p++next.left=t.asked p) : Sound t := by
  refine ⟨h.toHeld.advance hkept hplace hwoken hside hcloses hlock hothers,hring,?_⟩
  intro q
  rw [hplace]
  by_cases hqp : q=p
  · rw [hqp,Function.update_self]
    exact hself
  · rw [Function.update_of_ne hqp,(hwoken q).left,(hrest q hqp).1,(hrest q hqp).2]
    exact h.asked q

/-- What a failed call leaves is cut off. -/
theorem take_but_left {before bytes rest : List UInt8} (h : bytes<+:rest) :
    (before++rest).take ((before++rest).length-(rest.length-bytes.length))=before++bytes := by
  obtain ⟨left,rfl⟩ := h
  have hcount : (before++(bytes++left)).length-((bytes++left).length-bytes.length)=
      (before++bytes).length := by
    simp only [List.length_append]
    omega
  rw [hcount,←List.append_assoc,List.take_left]

/-- While the lock is free nobody is about to sleep. -/
theorem Held.nobody_dozes (h : Held s) (hfree : s.lock=none) {q : Fin np} {lock : Option (Fin np)}
    (hq : (s.place q).dozes=true) : lock=some q := by
  have hheld := h.lock q hq
  rw [hfree] at hheld
  cases hheld

/-- A section of `pipewrite` keeps the ends as they are. -/
theorem kept_wrote (s : State np) (p : Fin np) (n : ℕ) (rest : List UInt8) :
    ∀ side, (s.wrote p n rest).pipe.isOpen side=s.pipe.isOpen side := by
  have hwrote := pipewrite_wrote (s.killed p) n rest s.pipe
  intro side
  cases side with
  | read => exact hwrote.readopen
  | write => exact hwrote.writeopen

/-- A section of `pipewrite` stores bytes of its process. -/
theorem sound_writeSection (h : Sound s) {p : Fin np} {n : ℕ} {rest : List UInt8}
    (hp : s.place p=.write n rest) (hfree : s.lock=none) : Sound (writeSection p n rest s) := by
  have hfd : 0<s.fds .write p := h.uses p .write (by rw [hp]; rfl)
  have hring : Ring (s.wrote p n rest).pipe ((s.wrote p n rest).stored.map Prod.snd) s.taken := by
    rw [stored_wrote]
    exact ring_pipewrite (s.killed p) n rest h.ring
  have hopen := kept_wrote s p n rest
  have hasked := h.asked p
  have hself := writtenBy_wrote_self s p n rest
  rw [hp] at hasked
  change s.writtenBy p++rest=s.asked p at hasked
  rcases writeSection_cases p n rest s with ⟨-,hall,heq⟩|⟨left,-,hall,heq⟩|⟨-,hall,heq⟩
  · rw [heq]
    refine h.advance ⟨hopen,rfl,rfl,rfl,rfl,rfl⟩ rfl (fun q => (s.place q).goesOn_wakeReader)
      ?_ ?_ ?_ (fun q _ hq => h.nobody_dozes hfree hq) hring
      (fun q hq => ⟨writtenBy_wrote_ne s hq n rest,rfl⟩) ?_
    · intro side hside
      cases hside
    · intro side hcloses
      cases hcloses
    · intro hdozes
      cases hdozes
    · change (s.wrote p n rest).writtenBy p++[]=s.asked p
      rw [hself,List.append_nil,hall,hasked]
  · rw [heq]
    refine h.advance ⟨hopen,rfl,rfl,rfl,rfl,rfl⟩ rfl (fun q => (s.place q).goesOn_wakeReader)
      ?_ ?_ (fun _ => rfl) (fun q _ hq => h.nobody_dozes hfree hq) hring
      (fun q hq => ⟨writtenBy_wrote_ne s hq n rest,rfl⟩) ?_
    · intro side hside
      cases hside
      exact hfd
    · intro side hcloses
      cases hcloses
    · change (s.wrote p n rest).writtenBy p++left=s.asked p
      rw [hself,List.append_assoc,hall,hasked]
  · rw [heq]
    refine h.advance ⟨hopen,rfl,rfl,rfl,rfl,rfl⟩ rfl (fun q => (s.place q).goesOn_refl)
      ?_ ?_ ?_ (fun q _ hq => h.nobody_dozes hfree hq) hring
      (fun q hq => ⟨writtenBy_wrote_ne s hq n rest,Function.update_of_ne hq _ _⟩) ?_
    · intro side hside
      cases hside
    · intro side hcloses
      cases hcloses
    · intro hdozes
      cases hdozes
    · change (s.wrote p n rest).writtenBy p++[]=Function.update s.asked p _ p
      rw [hself,List.append_nil,Function.update_self,←hasked,take_but_left hall]

/-- A section of `piperead` takes the next bytes. -/
theorem sound_readSection (h : Sound s) {p : Fin np} {n : ℕ} (hp : s.place p=.read n)
    (hfree : s.lock=none) : Sound (readSection p n s) := by
  have hfd : 0<s.fds .read p := h.uses p .read (by rw [hp]; rfl)
  have hasked := h.asked p
  rw [hp] at hasked
  rcases readSection_cases p n s with ⟨-,-,heq⟩|⟨-,-,heq⟩|⟨-,heq⟩
  · rw [heq]
    refine h.advance ⟨fun _ => rfl,rfl,rfl,rfl,rfl,rfl⟩ rfl (fun q => (s.place q).goesOn_refl)
      ?_ ?_ ?_ (fun q _ hq => h.nobody_dozes hfree hq) h.ring (fun q hq => ⟨rfl,rfl⟩) hasked
    · intro side hside
      cases hside
    · intro side hcloses
      cases hcloses
    · intro hdozes
      cases hdozes
  · rw [heq]
    refine h.advance ⟨fun _ => rfl,rfl,rfl,rfl,rfl,rfl⟩ rfl (fun q => (s.place q).goesOn_refl)
      ?_ ?_ (fun _ => rfl) (fun q _ hq => h.nobody_dozes hfree hq) h.ring (fun q hq => ⟨rfl,rfl⟩)
      hasked
    · intro side hside
      cases hside
      exact hfd
    · intro side hcloses
      cases hcloses
  · obtain ⟨hring,hread,hwrite,-⟩ := readLoop_took n h.ring
    have hopen : ∀ side, (s.read n).pipe.isOpen side=s.pipe.isOpen side := by
      intro side
      cases side with
      | read => exact hread
      | write => exact hwrite
    rw [heq]
    refine h.advance ⟨hopen,rfl,rfl,rfl,rfl,rfl⟩ rfl (fun q => (s.place q).goesOn_wakeWriter)
      ?_ ?_ ?_ (fun q _ hq => h.nobody_dozes hfree hq) hring (fun q hq => ⟨rfl,rfl⟩) hasked
    · intro side hside
      cases hside
    · intro side hcloses
      cases hcloses
    · intro hdozes
      cases hdozes

/-- A process that holds the lock goes to sleep. -/
theorem sound_sleep (h : Sound s) {p : Fin np} {next : Place} (hdoze : (s.place p).dozes=true)
    (hside : next.side=(s.place p).side) (hcloses : next.closes=none) (hawake : next.dozes=false)
    (hleft : next.left=(s.place p).left) : Sound {s.moved p next with lock := none} := by
  refine h.advance ⟨fun _ => rfl,rfl,rfl,rfl,rfl,rfl⟩ rfl (fun q => (s.place q).goesOn_refl)
    ?_ ?_ ?_ ?_ h.ring (fun q hq => ⟨rfl,rfl⟩) ?_
  · intro side hs
    rw [hside] at hs
    exact h.uses p side hs
  · intro side hs
    rw [hcloses] at hs
    cases hs
  · intro hs
    rw [hawake] at hs
    cases hs
  · intro q hqp hq
    have hsame := (h.lock q hq).symm.trans (h.lock p hdoze)
    cases hsame
    exact absurd rfl hqp
  · rw [hleft]
    exact h.asked p

/-- `pipeclose` wakes the other side and ends. -/
theorem pipeclose_place (p : Fin np) (side : Side) (s : State np) :
    ∃ woken : Fin np → Place, (∀ q, (s.place q).GoesOn (woken q)) ∧
      (pipeclose p side s).place=Function.update woken p .idle := by
  unfold pipeclose
  cases side with
  | read =>
    refine ⟨_,fun q => (s.place q).goesOn_wakeWriter,?_⟩
    dsimp only
    split_ifs <;> rfl
  | write =>
    refine ⟨_,fun q => (s.place q).goesOn_wakeReader,?_⟩
    dsimp only
    split_ifs <;> rfl

/-- `pipeclose` closes its end and no other. -/
theorem pipeclose_isOpen (p : Fin np) (side other : Side) (s : State np) :
    (pipeclose p side s).pipe.isOpen other=
      if other=side then false else s.pipe.isOpen other := by
  unfold pipeclose
  cases side <;> cases other <;> dsimp only <;> split_ifs <;> first | rfl | contradiction

/-- `pipeclose` gives the page back when both ends are closed. -/
theorem pipeclose_freed {p : Fin np} {side : Side} (h : (pipeclose p side s).freed=true) :
    s.freed=true ∨ ∀ other, (pipeclose p side s).pipe.isOpen other=false := by
  unfold pipeclose at h ⊢
  cases side <;> dsimp only at h ⊢ <;> split_ifs at h ⊢ with hboth
  · refine Or.inr (fun other => ?_)
    cases other
    · exact hboth.1
    · exact hboth.2
  · exact Or.inl h
  · refine Or.inr (fun other => ?_)
    cases other
    · exact hboth.1
    · exact hboth.2
  · exact Or.inl h

/-- What `pipeclose` leaves alone. -/
theorem pipeclose_kept (p : Fin np) (side : Side) (s : State np) :
    (pipeclose p side s).ref=s.ref ∧ (pipeclose p side s).fds=s.fds ∧
      (pipeclose p side s).lock=s.lock ∧ (pipeclose p side s).fault=s.fault ∧
      (pipeclose p side s).panicked=s.panicked ∧ (pipeclose p side s).stored=s.stored ∧
      (pipeclose p side s).taken=s.taken ∧ (pipeclose p side s).asked=s.asked ∧
      (pipeclose p side s).pipe.data=s.pipe.data ∧ (pipeclose p side s).pipe.nread=s.pipe.nread ∧
      (pipeclose p side s).pipe.nwrite=s.pipe.nwrite := by
  unfold pipeclose
  cases side <;> dsimp only <;> split_ifs <;> exact ⟨rfl,rfl,rfl,rfl,rfl,rfl,rfl,rfl,rfl,rfl,rfl⟩

/-- `pipeclose` closes the end that its process dropped. -/
theorem sound_pipeclose (h : Sound s) {p : Fin np} {side : Side} (hp : s.place p=.closing side)
    (hfree : s.lock=none) : Sound (pipeclose p side s) := by
  obtain ⟨woken,hwoken,hplace⟩ := pipeclose_place p side s
  obtain ⟨href,hfds,-,hfault,hpanicked,hstored,htaken,hasked,hdata,hnread,hnwrite⟩ :=
    pipeclose_kept p side s
  have hopen := fun other => pipeclose_isOpen p side other s
  obtain ⟨hzero,hwas,hone⟩ := h.closes p side (by rw [hp]; rfl)
  have hothers : ∀ q other, ((pipeclose p side s).place q).closes=some other →
      q≠p ∧ (s.place q).closes=some other := by
    intro q other hq
    rw [hplace] at hq
    by_cases hqp : q=p
    · rw [hqp,Function.update_self] at hq
      cases hq
    · rw [Function.update_of_ne hqp,(hwoken q).closes] at hq
      exact ⟨hqp,hq⟩
  refine ⟨⟨?_,?_,?_,?_,?_,?_,hfault.trans h.fault,hpanicked.trans h.panicked⟩,?_,?_⟩
  · intro other
    rw [href,hfds]
    exact h.refs other
  · intro q other hq
    rw [hplace] at hq
    rw [hfds]
    by_cases hqp : q=p
    · rw [hqp,Function.update_self] at hq
      cases hq
    · rw [Function.update_of_ne hqp,(hwoken q).side] at hq
      exact h.uses q other hq
  · intro q other hq
    obtain ⟨hqp,hq'⟩ := hothers q other hq
    obtain ⟨hnone,hstill,honly⟩ := h.closes q other hq'
    have hne : other≠side := by
      rintro rfl
      exact hqp (hone q hq')
    rw [href,hopen,if_neg hne]
    exact ⟨hnone,hstill,fun r hr => honly r (hothers r other hr).2⟩
  · intro other hshut
    rw [href]
    by_cases hother : other=side
    · rw [hother]
      exact hzero
    · rw [hopen,if_neg hother] at hshut
      exact h.shut other hshut
  · intro hfreed
    rcases pipeclose_freed hfreed with hwasFreed|hboth
    · have hshut := h.freed hwasFreed side
      rw [hwas] at hshut
      cases hshut
    · exact hboth
  · intro q hq
    rw [hplace] at hq
    by_cases hqp : q=p
    · rw [hqp,Function.update_self] at hq
      cases hq
    · rw [Function.update_of_ne hqp,(hwoken q).dozes] at hq
      exact h.nobody_dozes hfree hq
  · rw [hstored,htaken]
    obtain ⟨hroom,hr,hw,hbytes⟩ := h.ring
    refine ⟨hroom,?_,?_,?_⟩
    · rw [hnread]
      exact hr
    · rw [hnwrite]
      exact hw
    · rw [hdata]
      exact hbytes
  · intro q
    rw [State.writtenBy,hstored,hasked,hplace]
    have hq := h.asked q
    by_cases hqp : q=p
    · rw [hqp,hp] at hq
      rw [hqp,Function.update_self]
      exact hq
    · rw [Function.update_of_ne hqp,(hwoken q).left]
      exact hq

/-- The reference count with a descriptor added or dropped. -/
theorem sum_fds (h : Held s) (side : Side) (p : Fin np) (n : ℕ) :
    (∑ q, Function.update (s.fds side) p n q)+s.fds side p=s.ref side+n := by
  rw [h.refs side]
  exact sum_update_add id (s.fds side) p n

/-- A step that changes the descriptors of one process for an open end, and may
begin to close it with the last one. -/
theorem Held.recount (h : Held s) {side : Side} {p : Fin np} {n m : ℕ} (hp : s.place p=.idle)
    (hpos : 0<s.ref side) (hsum : m+s.fds side p=s.ref side+n)
    (hpipe : t.pipe=s.pipe) (hfreed : t.freed=s.freed) (hfault : t.fault=s.fault)
    (hpanicked : t.panicked=s.panicked) (hlock : t.lock=s.lock)
    (href : t.ref=Function.update s.ref side m)
    (hfds : t.fds=Function.update s.fds side (Function.update (s.fds side) p n))
    {next : Place} (hplace : t.place=Function.update s.place p next) (hside : next.side=none)
    (hdozes : next.dozes=false)
    (hcloses : ∀ other, next.closes=some other → other=side ∧ m=0) : Held t := by
  have hisOpen : s.pipe.isOpen side=true := by
    by_contra hshut
    have := h.shut side (Bool.not_eq_true _ ▸ hshut)
    omega
  have hclosing : ∀ q other, (t.place q).closes=some other →
      (q=p ∧ other=side ∧ m=0) ∨ ((s.place q).closes=some other ∧ other≠side) := by
    intro q other hq
    rw [hplace] at hq
    by_cases hqp : q=p
    · rw [hqp,Function.update_self] at hq
      exact Or.inl ⟨hqp,hcloses other hq⟩
    · rw [Function.update_of_ne hqp] at hq
      refine Or.inr ⟨hq,?_⟩
      rintro rfl
      have := (h.closes q other hq).1
      omega
  refine ⟨?_,?_,?_,?_,?_,?_,hfault.trans h.fault,hpanicked.trans h.panicked⟩
  · intro other
    rw [href,hfds]
    by_cases hother : other=side
    · rw [hother,Function.update_self,Function.update_self]
      have hsum' := sum_fds h side p n
      omega
    · rw [Function.update_of_ne hother,Function.update_of_ne hother]
      exact h.refs other
  · intro q other hq
    rw [hplace] at hq
    have hqp : q≠p := by
      rintro rfl
      rw [Function.update_self,hside] at hq
      cases hq
    rw [Function.update_of_ne hqp] at hq
    have huses := h.uses q other hq
    rw [hfds]
    by_cases hother : other=side
    · rw [hother,Function.update_self,Function.update_of_ne hqp]
      rw [hother] at huses
      exact huses
    · rw [Function.update_of_ne hother]
      exact huses
  · intro q other hq
    rw [href,hpipe]
    rcases hclosing q other hq with ⟨rfl,rfl,rfl⟩|⟨hq',hother⟩
    · rw [Function.update_self]
      refine ⟨rfl,hisOpen,fun r hr => ?_⟩
      rcases hclosing r other hr with ⟨hrq,-⟩|⟨-,hne⟩
      · exact hrq
      · exact absurd rfl hne
    · obtain ⟨hzero,hstill,hone⟩ := h.closes q other hq'
      rw [Function.update_of_ne hother]
      refine ⟨hzero,hstill,fun r hr => ?_⟩
      rcases hclosing r other hr with ⟨-,heq,-⟩|⟨hr',-⟩
      · exact absurd heq hother
      · exact hone r hr'
  · intro other hshut
    rw [hpipe] at hshut
    rw [href]
    have hother : other≠side := by
      rintro rfl
      rw [hisOpen] at hshut
      cases hshut
    rw [Function.update_of_ne hother]
    exact h.shut other hshut
  · intro hgone other
    rw [hfreed] at hgone
    rw [hpipe]
    exact h.freed hgone other
  · intro q hq
    rw [hplace] at hq
    rw [hlock]
    have hqp : q≠p := by
      rintro rfl
      rw [Function.update_self,hdozes] at hq
      cases hq
    rw [Function.update_of_ne hqp] at hq
    exact h.lock q hq

/-- What the processes asked is as it was when an idle process does something
without bytes. -/
theorem Sound.asked_moved (h : Sound s) {p : Fin np} {next : Place} (hp : s.place p=.idle)
    (hleft : next.left=[]) (hstored : t.stored=s.stored) (hasked : t.asked=s.asked)
    (hplace : t.place=Function.update s.place p next) (q : Fin np) :
    t.writtenBy q++(t.place q).left=t.asked q := by
  have hq := h.asked q
  rw [State.writtenBy,hstored,hasked,hplace]
  by_cases hqp : q=p
  · rw [hqp,hp] at hq
    rw [hqp,Function.update_self,hleft]
    exact hq
  · rw [Function.update_of_ne hqp]
    exact hq

/-- A process that drops a descriptor, and with the last one begins to close. -/
theorem sound_fileclose (h : Sound s) {p : Fin np} {side : Side} (hp : s.place p=.idle)
    (hfd : 0<s.fds side p) : Sound (fileclose p side s) := by
  have hpos := (h.isOpen hfd).1
  have hstay : s.place=Function.update s.place p .idle := by
    rw [←hp,Function.update_eq_self]
  unfold fileclose
  dsimp only
  rw [if_neg (by omega)]
  split_ifs with hmore
  · refine ⟨h.toHeld.recount hp hpos ?_ rfl rfl rfl rfl rfl rfl rfl hstay rfl rfl ?_,h.ring,
      h.asked_moved hp rfl rfl rfl hstay⟩
    · omega
    · intro other hcloses
      cases hcloses
  · refine ⟨h.toHeld.recount hp hpos ?_ rfl rfl rfl rfl rfl rfl rfl rfl rfl rfl ?_,h.ring,
      h.asked_moved hp rfl rfl rfl rfl⟩
    · omega
    · intro other hcloses
      cases hcloses
      exact ⟨rfl,rfl⟩

/-- A descriptor is duplicated. -/
theorem sound_filedup (h : Sound s) {p q : Fin np} {side : Side} (hq : s.place q=.idle)
    (hfd : 0<s.fds side p) : Sound (filedup q side s) := by
  have hpos := (h.isOpen hfd).1
  have hstay : s.place=Function.update s.place q .idle := by
    rw [←hq,Function.update_eq_self]
  unfold filedup
  rw [if_neg (by omega)]
  refine ⟨h.toHeld.recount hq hpos ?_ rfl rfl rfl rfl rfl rfl rfl hstay rfl rfl ?_,h.ring,h.asked⟩
  · omega
  · intro other hcloses
    cases hcloses

/-- Every step keeps what holds of every reachable state. -/
theorem sound_step {act : Action np} (h : Sound s) (hs : step act s=some t) : Sound t := by
  cases act with
  | write p bytes =>
    simp only [step] at hs
    split_ifs at hs with hp
    cases hs
    have hasked := h.asked p
    rw [hp.1] at hasked
    change s.writtenBy p++[]=s.asked p at hasked
    refine h.advance ⟨fun _ => rfl,rfl,rfl,rfl,rfl,rfl⟩ rfl (fun q => (s.place q).goesOn_refl)
      ?_ ?_ ?_ (fun q _ hq => h.lock q hq) h.ring
      (fun q hq => ⟨rfl,Function.update_of_ne hq _ _⟩) ?_
    · intro side hside
      cases hside
      exact hp.2
    · intro side hcloses
      cases hcloses
    · intro hdozes
      cases hdozes
    · change s.writtenBy p++bytes=Function.update s.asked p _ p
      rw [Function.update_self,←hasked,List.append_nil]
  | read p n =>
    simp only [step] at hs
    split_ifs at hs with hp
    cases hs
    have hasked := h.asked p
    rw [hp.1] at hasked
    refine h.advance ⟨fun _ => rfl,rfl,rfl,rfl,rfl,rfl⟩ rfl (fun q => (s.place q).goesOn_refl)
      ?_ ?_ ?_ (fun q _ hq => h.lock q hq) h.ring (fun q hq => ⟨rfl,rfl⟩) hasked
    · intro side hside
      cases hside
      exact hp.2
    · intro side hcloses
      cases hcloses
    · intro hdozes
      cases hdozes
  | run p =>
    rcases h.run_cases hs with ⟨n,rest,hp,hfree,rfl⟩|⟨n,hp,hfree,rfl⟩|⟨side,hp,hfree,rfl⟩|
      ⟨n,rest,hp,rfl⟩|⟨n,hp,rfl⟩
    · exact sound_writeSection h hp hfree
    · exact sound_readSection h hp hfree
    · exact sound_pipeclose h hp hfree
    · exact sound_sleep h (by rw [hp]; rfl) (by rw [hp]; rfl) rfl rfl (by rw [hp]; rfl)
    · exact sound_sleep h (by rw [hp]; rfl) (by rw [hp]; rfl) rfl rfl (by rw [hp]; rfl)
  | close p side =>
    simp only [step] at hs
    split_ifs at hs with hp
    cases hs
    exact sound_fileclose h hp.1 hp.2
  | dup p q side =>
    simp only [step] at hs
    split_ifs at hs with hp
    cases hs
    exact sound_filedup h hp.2.1 hp.2.2
  | kill p =>
    cases hs
    have hon := (s.place p).goesOn_killed
    refine h.advance ⟨fun _ => rfl,rfl,rfl,rfl,rfl,rfl⟩ rfl (fun q => (s.place q).goesOn_refl)
      ?_ ?_ ?_ (fun q _ hq => h.lock q hq) h.ring (fun q hq => ⟨rfl,rfl⟩) ?_
    · intro side hside
      rw [hon.side] at hside
      exact h.uses p side hside
    · intro side hcloses
      rw [hon.closes] at hcloses
      exact hcloses
    · intro hdozes
      rw [hon.dozes] at hdozes
      exact h.lock p hdozes
    · rw [hon.left]
      exact h.asked p
  | reap p =>
    simp only [step] at hs
    split_ifs at hs with hp
    cases hs
    exact h.advance ⟨fun _ => rfl,rfl,rfl,rfl,rfl,rfl⟩ (Function.update_eq_self p s.place).symm
      (fun q => (s.place q).goesOn_refl) (h.uses p) (fun _ hcloses => hcloses) (h.lock p)
      (fun q _ hq => h.lock q hq) h.ring (fun q hq => ⟨rfl,rfl⟩) (h.asked p)

/-- A new pipe is in order. -/
theorem sound_opened (page : ℕ → UInt8) (p : Fin np) : Sound (opened page p) := by
  refine ⟨⟨?_,?_,?_,?_,?_,?_,rfl,rfl⟩,ring_pipealloc page,fun q => rfl⟩
  · intro side
    change 1=∑ q, Pi.single p 1 q
    rw [Finset.sum_pi_single',if_pos (Finset.mem_univ p)]
  · intro q side hq
    cases hq
  · intro q side hq
    cases hq
  · intro side hshut
    cases side <;> cases hshut
  · intro hfreed
    cases hfreed
  · intro q hq
    cases hq

/-- Every reachable state is in order. -/
theorem sound_reachable {allowed : State np → Action np → Prop} {page : ℕ → UInt8} {p : Fin np}
    (hs : Reachable step allowed (opened page p) s) : Sound s :=
  hs.invariant Sound (sound_opened page p) (fun _ _ _ h _ hstep => sound_step h hstep)

end ComputerSystems.Xv6Pipe
