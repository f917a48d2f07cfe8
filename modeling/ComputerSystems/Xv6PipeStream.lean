import ComputerSystems.Xv6PipeInvariant

/-!
# A pipe as a stream

What readers take is what writers stored, in order, over all runs, and the end of
the stream is final.
-/

namespace ComputerSystems.Xv6Pipe

open TransitionSystem

variable {np : ℕ} {s t : State np}

/-! ## The order of the bytes -/

/-- In every state that a new pipe reaches, the bytes taken are the first ones
stored, no more than `PIPESIZE` others wait, the tests of the counters tell a full
and an empty pipe whatever they have wrapped around to, every process has stored
the bytes it asked to write up to what its call has left, and neither a reference
count nor the page was used after its end. -/
theorem pipe_is_fifo {page : ℕ → UInt8} {p : Fin np}
    (hs : Reachable step Anything (opened page p) s) :
    (∃ waiting, s.stored.map Prod.snd=s.taken++waiting ∧ waiting.length≤pipeSize ∧
      (s.pipe.Full ↔ waiting.length=pipeSize) ∧ (s.pipe.Empty ↔ waiting=[])) ∧
    (∀ q, s.writtenBy q++(s.place q).left=s.asked q) ∧ s.fault=false ∧ s.panicked=false := by
  have h := sound_reachable hs
  refine ⟨⟨_,h.ring.bytes,?_,?_,?_⟩,h.asked,h.fault,h.panicked⟩
  · have hroom := h.ring.room
    rw [RingBuffer.length_held,pipeSize]
    omega
  · have hle := h.ring.le
    rw [RingBuffer.length_held,pipeSize,h.ring.full_iff]
    omega
  · rw [h.ring.empty_iff,←List.length_eq_zero_iff,RingBuffer.length_held]
    constructor
    · intro hall
      rw [hall,Nat.sub_self]
    · intro hnone
      have hbytes := h.ring.bytes
      rw [hnone] at hbytes
      rw [hbytes]
      exact List.append_nil s.taken

/-- One process writes three bytes, another one takes two of them. -/
def threeThenTwo (p q : Fin np) : List (Action np) :=
  [.dup p q .read,.write p [7,8,9],.run p,.read q 2,.run q]

/-- Two bytes are taken, the third one waits. -/
theorem third_byte_waits :
    ∃ s, follow step Anything (threeThenTwo 0 1) (opened (fun _ => 0) (0 : Fin 2))=some s ∧
      s.taken=[7,8] ∧
      (∃ waiting, s.stored.map Prod.snd=s.taken++waiting ∧ waiting.length≤pipeSize ∧
        (s.pipe.Full ↔ waiting.length=pipeSize) ∧ (s.pipe.Empty ↔ waiting=[])) ∧
      (∀ q, s.writtenBy q++(s.place q).left=s.asked q) ∧ s.fault=false ∧ s.panicked=false := by
  have hrun : ∃ s, follow step Anything (threeThenTwo 0 1) (opened (fun _ => 0) (0 : Fin 2))=some s ∧
      s.taken=[7,8] := ⟨_,rfl,by decide⟩
  obtain ⟨s,hs,htaken⟩ := hrun
  exact ⟨s,hs,htaken,pipe_is_fifo (reachable_of_follow hs)⟩

/-! ## The end of the stream -/

/-- The write end is closed and everything was taken. -/
structure Ended (bytes : List (Fin np × UInt8)) (s : State np) : Prop extends Sound s where
  /-- The write end is closed. -/
  writeopen : s.pipe.writeopen=false
  /-- Nothing more is stored. -/
  stored : s.stored=bytes
  /-- All of it was taken. -/
  taken : s.taken=bytes.map Prod.snd

/-- Nobody writes to a closed end. -/
theorem Held.no_writer (h : Held s) (hclosed : s.pipe.writeopen=false) (q : Fin np) :
    (s.place q).side≠some .write ∧ (s.place q).closes≠some .write := by
  constructor
  · intro hq
    have hopen := (h.isOpen (h.uses q .write hq)).2
    rw [Pipe.isOpen,hclosed] at hopen
    cases hopen
  · intro hq
    have hopen := (h.closes q .write hq).2.1
    rw [Pipe.isOpen,hclosed] at hopen
    cases hopen

/-- The copying loop takes nothing from an empty pipe. -/
theorem readLoop_empty {p : Pipe} (h : p.Empty) (n : ℕ) : readLoop n p=(p,[]) := by
  cases n with
  | zero => rfl
  | succ n => rw [readLoop,if_pos h]

/-- Once everything was taken and the write end is closed, a step neither stores
nor takes a byte. -/
theorem ended_kept {bytes : List (Fin np × UInt8)} {act : Action np} (h : Ended bytes s)
    (hs : step act s=some t) :
    t.pipe.writeopen=false ∧ t.stored=s.stored ∧ t.taken=s.taken := by
  have hclosed := h.writeopen
  cases act with
  | write p bytes =>
    simp only [step] at hs
    split_ifs at hs
    cases hs
    exact ⟨hclosed,rfl,rfl⟩
  | read p n =>
    simp only [step] at hs
    split_ifs at hs
    cases hs
    exact ⟨hclosed,rfl,rfl⟩
  | run p =>
    have hnobody := h.no_writer hclosed p
    rcases h.run_cases hs with ⟨n,rest,hp,-,-⟩|⟨n,hp,-,rfl⟩|⟨side,hp,-,rfl⟩|⟨n,rest,hp,rfl⟩|
      ⟨n,hp,rfl⟩
    · exact absurd (by rw [hp]; rfl) hnobody.1
    · have hempty : s.pipe.Empty := by
        rw [h.ring.empty_iff,h.stored,h.taken]
      rcases readSection_cases p n s with ⟨-,-,heq⟩|⟨-,-,heq⟩|⟨-,heq⟩
      · rw [heq]
        exact ⟨hclosed,rfl,rfl⟩
      · rw [heq]
        exact ⟨hclosed,rfl,rfl⟩
      · rw [heq]
        simp only [State.returns,State.wakeWriters,State.read,readLoop_empty hempty n,
          List.append_nil]
        exact ⟨hclosed,trivial,trivial⟩
    · obtain ⟨-,-,-,-,-,hstored,htaken,-⟩ := pipeclose_kept p side s
      refine ⟨?_,hstored,htaken⟩
      have hopen := pipeclose_isOpen p side .write s
      rw [Pipe.isOpen] at hopen
      rw [hopen]
      split_ifs
      · rfl
      · exact hclosed
    · exact ⟨hclosed,rfl,rfl⟩
    · exact ⟨hclosed,rfl,rfl⟩
  | close p side =>
    simp only [step] at hs
    split_ifs at hs
    cases hs
    unfold fileclose
    dsimp only
    split_ifs <;> exact ⟨hclosed,rfl,rfl⟩
  | dup p q side =>
    simp only [step] at hs
    split_ifs at hs
    cases hs
    unfold filedup
    split_ifs <;> exact ⟨hclosed,rfl,rfl⟩
  | kill p =>
    cases hs
    exact ⟨hclosed,rfl,rfl⟩
  | reap p =>
    simp only [step] at hs
    split_ifs at hs
    cases hs
    exact ⟨hclosed,rfl,rfl⟩

/-- Every step keeps the end of the stream. -/
theorem ended_step {bytes : List (Fin np × UInt8)} {act : Action np} (h : Ended bytes s)
    (hs : step act s=some t) : Ended bytes t := by
  obtain ⟨hclosed,hstored,htaken⟩ := ended_kept h hs
  exact {sound_step h.toSound hs with
    writeopen := hclosed
    stored := hstored.trans h.stored
    taken := htaken.trans h.taken}

/-- A call that returns leaves its value. -/
theorem returns_result (s : State np) (p : Fin np) (value : ℤ) :
    (s.returns p value).result p=value := by
  simp only [State.returns,Function.update_self]

/-- `piperead` for at least one byte returns 0 only from an empty pipe whose write
end is closed. -/
theorem readSection_zero (h : Sound s) {q : Fin np} {n : ℕ} (hn : 0<n)
    (hreturns : (readSection q n s).place q=.idle) (hzero : (readSection q n s).result q=0) :
    s.pipe.Empty ∧ s.pipe.writeopen=false ∧
      readSection q n s=(s.read n).wakeWriters.returns q 0 := by
  rcases readSection_cases q n s with ⟨-,-,heq⟩|⟨-,-,heq⟩|⟨hwait,heq⟩
  · rw [heq,returns_result] at hzero
    cases hzero
  · rw [heq] at hreturns
    change Function.update s.place q (.readDoze n) q=.idle at hreturns
    rw [Function.update_self] at hreturns
    cases hreturns
  · obtain ⟨-,-,-,hsome⟩ := readLoop_took n h.ring
    have hnone : (readLoop n s.pipe).2=[] := by
      rw [heq,returns_result] at hzero
      exact List.length_eq_zero_iff.mp (Int.ofNat_eq_zero.mp hzero)
    have hempty : s.pipe.Empty := by
      by_contra hbytes
      exact hsome hn hbytes hnone
    refine ⟨hempty,?_,?_⟩
    · by_contra hopen
      exact hwait ⟨hempty,Bool.not_eq_false _ ▸ hopen⟩
    · rw [heq,hnone]
      rfl

/-- When a call to `piperead` for at least one byte returns 0, every byte ever
stored was taken, and in every state after it no byte was stored or taken since. -/
theorem end_of_file_final {page : ℕ → UInt8} {p q : Fin np} {n : ℕ} {last : State np}
    (hs : Reachable step Anything (opened page p) s) (hq : s.place q=.read n) (hn : 0<n)
    (hstep : step (.run q) s=some t) (hreturns : t.place q=.idle) (hzero : t.result q=0)
    (hlast : Reachable step Anything t last) :
    s.stored.map Prod.snd=s.taken ∧ last.stored=s.stored ∧ last.taken=s.taken := by
  have h := sound_reachable hs
  have ht := sound_step h hstep
  have hsection : t=readSection q n s := by
    rcases h.run_cases hstep with ⟨_,_,hp,-⟩|⟨m,hp,-,hread⟩|⟨_,hp,-⟩|⟨_,_,hp,-⟩|⟨_,hp,-⟩
    all_goals rw [hq] at hp
    all_goals cases hp
    exact hread
  rw [hsection] at ht hreturns hzero
  obtain ⟨hempty,hclosed,heq⟩ := readSection_zero h hn hreturns hzero
  have hall : s.stored.map Prod.snd=s.taken := h.ring.empty_iff.mp hempty
  have hended : Ended s.stored t := by
    rw [heq] at ht
    rw [hsection,heq]
    refine {ht with writeopen := ?_,stored := rfl,taken := ?_}
    · change (readLoop n s.pipe).1.writeopen=false
      rw [readLoop_empty hempty]
      exact hclosed
    · change s.taken++(readLoop n s.pipe).2=s.stored.map Prod.snd
      rw [readLoop_empty hempty,hall]
      exact List.append_nil s.taken
  have hlater : Ended s.stored last :=
    hlast.invariant (Ended s.stored) hended (fun _ _ _ h _ hstep => ended_step h hstep)
  exact ⟨hall,hlater.stored,hlater.taken.trans hall⟩

/-- A writer stores one byte and closes; a reader takes the byte and calls again. -/
def byteThenEnd (p q : Fin np) : List (Action np) :=
  [.dup p q .read,.close p .read,.write p [5],.run p,.close p .write,.run p,.read q 4,.run q,
   .read q 4]

/-- The second read of a stream of one byte finds its end. -/
theorem second_read_ends :
    ∃ s t, follow step Anything (byteThenEnd 0 1) (opened (fun _ => 0) (0 : Fin 2))=some s ∧
      step (.run 1) s=some t ∧ t.result 1=0 ∧
      (s.stored.map Prod.snd=s.taken ∧ t.stored=s.stored ∧ t.taken=s.taken) := by
  have hrun : ∃ s t, follow step Anything (byteThenEnd 0 1) (opened (fun _ => 0) (0 : Fin 2))=some s ∧
      step (.run 1) s=some t ∧ s.place 1=.read 4 ∧ t.place 1=.idle ∧ t.result 1=0 :=
    ⟨_,_,rfl,rfl,by decide,by decide,by decide⟩
  obtain ⟨s,t,hs,ht,hplace,hidle,hzero⟩ := hrun
  exact ⟨s,t,hs,ht,hzero,end_of_file_final (reachable_of_follow hs) hplace (by decide) ht hidle hzero
    (Reachable.start t)⟩

end ComputerSystems.Xv6Pipe
