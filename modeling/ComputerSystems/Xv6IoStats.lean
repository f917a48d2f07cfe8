import ComputerSystems.Xv6File
import ComputerSystems.TransitionSystem

/-!
# What the byte counters of an open file count

`fileread` adds what the layer below returned, -1 included, and `filewrite`
adds the requested length before anything is written. The counters themselves
lie in memory that other parts of the kernel use for something else. Over any
sequence of read and write system calls on one open file during which nothing
else stores at their place, the counters are the sums of the values returned
exactly as long as no permitted read fails and every permitted write is
complete.
-/

namespace ComputerSystems.Xv6IoStats

open ByteMemory TransitionSystem Xv6File

/-- A read or write system call on the file, with what argument checking and
the layers below say, or what happens between two of them. -/
inductive Transfer
  /-- `read` of `n` bytes. -/
  | read (n : Int32) (pointer : Bool) (outcome : ReadOutcome)
  /-- `write` of `n` bytes. -/
  | write (n : Int32) (pointer : Bool) (outcome : WriteOutcome)
  /-- Other code of the kernel stores in its memory behind the table. -/
  | other (stores : Stores)

/-- The file table with the history of the calls on one file. -/
structure Session where
  /-- The table. -/
  table : Ftable
  /-- The sum of the values returned by reads that did not fail. -/
  readReturned : ℤ
  /-- The sum of the values returned by writes that did not fail. -/
  writeReturned : ℤ

/-- One call on entry `k`; `none` is a panic of the kernel. -/
def step (k : Fin 100) : Transfer → Session → Option Session
  | .read n pointer outcome,s =>
    let result := sysRead s.table k n pointer outcome
    some {s with table := result.2,readReturned := s.readReturned+max result.1 0}
  | .write n pointer outcome,s =>
    match sysWrite s.table k n pointer outcome with
    | some result => some {s with table := result.2,writeReturned := s.writeReturned+max result.1 0}
    | none => none
  | .other stores,s => some {s with table := s.table.stored stores}

/-- Nothing has been transferred since the file was opened. -/
def begin (t : Ftable) : Session := {table := t,readReturned := 0,writeReturned := 0}

/-- The entry is open on a pipe or an inode and its counters are fresh. -/
structure Opened (t : Ftable) (k : Fin 100) (place : ℕ) : Prop where
  /-- The entry has counters. -/
  pointer : (t.file k).byteMem=some place
  /-- They were cleared. -/
  fresh : t.cell place=Iostats.zero

/-- The counters are the sums of the values returned, modulo 2^32. -/
def Counted (place : ℕ) (s : Session) : Prop :=
  (s.table.cell place).readBytes=s.readReturned%4294967296 ∧
    (s.table.cell place).writeBytes=s.writeReturned%4294967296

/-- The layer below wrote all that was asked for, piece by piece for an inode.
A failed pipe write of nothing does no harm either. -/
def WroteAll (f : File) (n : Int32) (outcome : WriteOutcome) : Prop :=
  match f.type with
  | .none => False
  | .pipe => outcome.pipewrite.toInt=n.toInt ∨ (n.toInt=0 ∧ outcome.pipewrite.toInt<0)
  | .inode => ∀ j : ℕ, 1536*(j : ℤ) < n.toInt →
      (outcome.writei j).toInt=min (n.toInt-1536*(j : ℤ)) 1536

/-- A call that is rejected before the transfer, a read that does not fail, or
a complete write. -/
def Complete (f : File) : Transfer → Prop
  | .read n pointer outcome => 0≤n.toInt → pointer=true → f.readable=true →
      0≤readCount f n outcome
  | .write n pointer outcome => 0≤n.toInt → pointer=true → f.writable=true →
      WroteAll f n outcome
  | .other _ => True

/-- No other code stores where the counters are. -/
def Spares (f : File) (place : ℕ) : Transfer → Prop
  | .read n pointer outcome => 0≤n.toInt → pointer=true → f.readable=true →
      outcome.stores place=none
  | .write n pointer outcome => 0≤n.toInt → pointer=true → f.writable=true →
      outcome.stores place=none
  | .other stores => stores place=none

/-- Two entries that differ in their references and position only. -/
structure SameFile (f g : File) : Prop where
  /-- Open on the same kind of thing. -/
  type : f.type=g.type
  /-- Readable alike. -/
  readable : f.readable=g.readable
  /-- Writable alike. -/
  writable : f.writable=g.writable
  /-- With the same counters. -/
  byteMem : f.byteMem=g.byteMem

/-- Completeness does not depend on references and position. -/
theorem SameFile.complete {f g : File} (h : SameFile f g) (call : Transfer) :
    Complete f call ↔ Complete g call := by
  cases call with
  | read n pointer outcome =>
    simp only [Complete,readCount,h.readable,h.type]
  | write n pointer outcome =>
    simp only [Complete,WroteAll,h.writable,h.type]
  | other stores => exact Iff.rfl

/-- Nor does it matter to them what a call stores. -/
theorem SameFile.spares {f g : File} (h : SameFile f g) (place : ℕ) (call : Transfer) :
    Spares f place call ↔ Spares g place call := by
  cases call with
  | read n pointer outcome => simp only [Spares,h.readable]
  | write n pointer outcome => simp only [Spares,h.writable]
  | other stores => exact Iff.rfl

/-! ## The pieces of an inode write -/

/-- With rounds enough the loop ends at `n` exactly when every piece was
written in full: by induction on the rounds left. -/
theorem writeChunks_full (writei : ℕ → Int32) (n : ℤ) (left : ℕ) :
    ∀ {round : ℕ} {i off i' off' : ℤ}, i ≤ n → n-i<left →
    writeChunks writei n left round i off=some (i',off') →
      (i'=n ↔ ∀ j : ℕ, i+1536*(j : ℤ) < n →
        (writei (round+j)).toInt=min (n-(i+1536*(j : ℤ))) 1536) := by
  induction left with
  | zero =>
    intro round i off i' off' hi hleft _
    omega
  | succ left ih =>
    intro round i off i' off' hi hleft h
    rw [writeChunks] at h
    by_cases hlt : i < n
    · rw [if_pos hlt] at h
      dsimp only at h
      by_cases hneg : (writei round).toInt<0
      · rw [if_pos hneg] at h
        have hend : i=i' := (Prod.mk.inj (Option.some.inj h)).1
        constructor
        · intro hn
          omega
        · intro hfull
          have hfirst := hfull 0 (by omega)
          rw [Nat.add_zero] at hfirst
          omega
      · rw [if_neg hneg] at h
        by_cases hshort : (writei round).toInt=min (n-i) 1536
        · rw [if_neg (not_not.mpr hshort)] at h
          rw [ih (by omega) (by omega) h]
          constructor
          · intro hrest j hj
            cases j with
            | zero =>
              rw [Nat.add_zero]
              push_cast
              omega
            | succ j =>
              have hpiece := hrest j (by push_cast at hj; omega)
              rw [show round+1+j=round+(j+1) by omega] at hpiece
              rw [hpiece]
              push_cast at hj ⊢
              omega
          · intro hfull j hj
            have hpiece := hfull (j+1) (by push_cast; omega)
            rw [show round+(j+1)=round+1+j by omega] at hpiece
            rw [hpiece]
            push_cast
            omega
        · rw [if_pos hshort] at h
          cases h
    · rw [if_neg hlt] at h
      have hend : i=i' := (Prod.mk.inj (Option.some.inj h)).1
      constructor
      · intro _ j hj
        omega
      · intro _
        omega

/-! ## One call -/

section Step

variable {t : Ftable} {k : Fin 100} {place : ℕ} {s next : Session}

/-- The layers below return ints. -/
theorem readCount_range (f : File) (n : Int32) (outcome : ReadOutcome) :
    -2147483648≤readCount f n outcome ∧ readCount f n outcome<2147483648 := by
  unfold readCount
  split
  · exact ⟨n.le_toInt,n.toInt_lt⟩
  · exact ⟨outcome.piperead.le_toInt,outcome.piperead.toInt_lt⟩
  · exact ⟨outcome.readi.le_toInt,outcome.readi.toInt_lt⟩

/-- A read that is not rejected returns what the layer below returned and adds
it to the counter, which that layer has not touched. -/
theorem sysRead_accepted {n : Int32} {pointer : Bool} {outcome : ReadOutcome}
    (hp : (t.file k).byteMem=some place) (hn : 0≤n.toInt) (hb : pointer=true)
    (hr : (t.file k).readable=true) (hspare : outcome.stores place=none) :
    (sysRead t k n pointer outcome).1=readCount (t.file k) n outcome ∧
      SameFile ((sysRead t k n pointer outcome).2.file k) (t.file k) ∧
      (sysRead t k n pointer outcome).2.cell place=
        {t.cell place with
          readBytes := uint ((t.cell place).readBytes+uint (readCount (t.file k) n outcome))} := by
  have hrange := readCount_range (t.file k) n outcome
  have hargs : ¬(n.toInt<0 ∨ pointer=false) := by
    rintro (h|h)
    · omega
    · rw [hb] at h
      cases h
  have hreadable : ¬(t.file k).readable=false := by
    rw [hr]
    exact Bool.noConfusion
  have hbelow : ∀ g : File, ((if (t.file k).type=.none then t else t.stored outcome.stores).put
      k g).cell place=t.cell place := by
    intro g
    rw [put_cell]
    split_ifs
    · rfl
    · exact stored_cell hspare
  simp only [sysRead,if_neg hargs,fileread,if_neg hreadable,hp]
  refine ⟨?_,?_,?_⟩
  · rw [wrap32_eq_bmod,uint]
    unfold Int.bmod
    dsimp only
    split <;> omega
  · rw [iostatsIncrRead,update_file,put_file_self]
    exact ⟨rfl,rfl,rfl,hp.symm⟩
  · rw [iostatsIncrRead,update_cell,hbelow]

/-- A read that is rejected changes nothing. -/
theorem sysRead_rejected {n : Int32} {pointer : Bool} (outcome : ReadOutcome)
    (h : ¬(0≤n.toInt ∧ pointer=true ∧ (t.file k).readable=true)) :
    sysRead t k n pointer outcome=(-1,t) := by
  rw [sysRead]
  by_cases hargs : n.toInt<0 ∨ pointer=false
  · rw [if_pos hargs]
  · rw [if_neg hargs,fileread]
    dsimp only
    rw [if_pos]
    by_contra hr
    have hn : 0≤n.toInt := by omega
    have hb : pointer=true := by
      by_contra hb
      exact hargs (.inr (Bool.not_eq_true _ ▸ hb))
    exact h ⟨hn,hb,Bool.not_eq_false _ ▸ hr⟩

/-- A read keeps the file, and keeps the count exactly when it is complete. -/
theorem step_read {n : Int32} {pointer : Bool} {outcome : ReadOutcome}
    (hp : (s.table.file k).byteMem=some place)
    (hspare : Spares (s.table.file k) place (.read n pointer outcome))
    (h : step k (.read n pointer outcome) s=some next) :
    SameFile (next.table.file k) (s.table.file k) ∧
      (Counted place s → (Counted place next ↔
        Complete (s.table.file k) (.read n pointer outcome))) := by
  simp only [step,Option.some.injEq] at h
  subst h
  by_cases haccept : 0≤n.toInt ∧ pointer=true ∧ (s.table.file k).readable=true
  · obtain ⟨hn,hb,hr⟩ := haccept
    obtain ⟨hvalue,hsame,hcell⟩ := sysRead_accepted hp hn hb hr (hspare hn hb hr)
    have hrange := readCount_range (s.table.file k) n outcome
    refine ⟨hsame,fun hc => ?_⟩
    obtain ⟨hread,hwrite⟩ := hc
    have hcomplete : Complete (s.table.file k) (.read n pointer outcome) ↔
        0≤readCount (s.table.file k) n outcome := by
      simp only [Complete,hn,hb,hr,forall_const]
    rw [hcomplete,Counted,hcell,hvalue,hread]
    dsimp only [uint]
    rw [hwrite]
    omega
  · rw [sysRead_rejected outcome haccept]
    refine ⟨⟨rfl,rfl,rfl,rfl⟩,fun hc => ?_⟩
    have hcomplete : Complete (s.table.file k) (.read n pointer outcome) := by
      intro hn hb hr
      exact absurd ⟨hn,hb,hr⟩ haccept
    refine iff_of_true ?_ hcomplete
    simpa only [Counted,show max (-1 : ℤ) 0=0 from rfl,add_zero] using hc

/-- A write that is not rejected adds the requested length to the counter; it
is complete exactly when that is what its return value stands for. -/
theorem sysWrite_accepted {n : Int32} {pointer : Bool} {outcome : WriteOutcome}
    {result : ℤ × Ftable} (hp : (t.file k).byteMem=some place) (hn : 0≤n.toInt)
    (hb : pointer=true) (hw : (t.file k).writable=true) (hspare : outcome.stores place=none)
    (h : sysWrite t k n pointer outcome=some result) :
    SameFile (result.2.file k) (t.file k) ∧
      result.2.cell place=
        {t.cell place with writeBytes := uint ((t.cell place).writeBytes+uint n.toInt)} ∧
      result.1<2147483648 ∧ (WroteAll (t.file k) n outcome ↔ n.toInt=max result.1 0) := by
  have hn' := n.toInt_lt
  have hpipe := outcome.pipewrite.toInt_lt
  have hargs : ¬(n.toInt<0 ∨ pointer=false) := by
    rintro (h|h)
    · omega
    · rw [hb] at h
      cases h
  have hwritable : ¬(t.file k).writable=false := by
    rw [hw]
    exact Bool.noConfusion
  simp only [sysWrite,if_neg hargs,filewrite,if_neg hwritable,hp] at h
  cases htype : (t.file k).type with
  | none =>
    rw [htype] at h
    cases h
  | pipe =>
    rw [htype] at h
    cases h
    simp only [WroteAll,htype]
    refine ⟨?_,?_,hpipe,by omega⟩
    · rw [stored_file,iostatsIncrWrite,update_file]
      exact ⟨rfl,rfl,rfl,rfl⟩
    · rw [stored_cell hspare]
      exact update_cell place _
  | inode =>
    rw [htype] at h
    dsimp only at h
    cases hchunks : writeChunks outcome.writei n.toInt (n.toInt.toNat+1) 0 0 (t.file k).off with
    | none =>
      rw [hchunks] at h
      cases h
    | some written =>
      rw [hchunks] at h
      cases h
      have hfull := writeChunks_full outcome.writei n.toInt (n.toInt.toNat+1) hn (by omega) hchunks
      simp only [zero_add] at hfull
      refine ⟨?_,?_,?_,?_⟩
      · rw [put_file_self]
        exact ⟨htype.symm,rfl,rfl,hp.symm⟩
      · rw [put_cell,stored_cell hspare]
        exact update_cell place _
      · dsimp only
        split <;> omega
      · simp only [WroteAll,htype]
        rw [←hfull]
        by_cases hend : written.1=n.toInt
        · simp only [hend,if_true,true_iff]
          omega
        · simp only [hend,if_false,false_iff]
          intro hzero
          refine hend (hfull.mpr (fun j hj => ?_))
          omega

/-- A write that is rejected changes nothing. -/
theorem sysWrite_rejected {n : Int32} {pointer : Bool} (outcome : WriteOutcome)
    (h : ¬(0≤n.toInt ∧ pointer=true ∧ (t.file k).writable=true)) :
    sysWrite t k n pointer outcome=some (-1,t) := by
  rw [sysWrite]
  by_cases hargs : n.toInt<0 ∨ pointer=false
  · rw [if_pos hargs]
  · rw [if_neg hargs,filewrite]
    dsimp only
    rw [if_pos]
    by_contra hw
    have hn : 0≤n.toInt := by omega
    have hb : pointer=true := by
      by_contra hb
      exact hargs (.inr (Bool.not_eq_true _ ▸ hb))
    exact h ⟨hn,hb,Bool.not_eq_false _ ▸ hw⟩

/-- A write keeps the file, and keeps the count exactly when it is complete. -/
theorem step_write {n : Int32} {pointer : Bool} {outcome : WriteOutcome}
    (hp : (s.table.file k).byteMem=some place)
    (hspare : Spares (s.table.file k) place (.write n pointer outcome))
    (h : step k (.write n pointer outcome) s=some next) :
    SameFile (next.table.file k) (s.table.file k) ∧
      (Counted place s → (Counted place next ↔
        Complete (s.table.file k) (.write n pointer outcome))) := by
  by_cases haccept : 0≤n.toInt ∧ pointer=true ∧ (s.table.file k).writable=true
  · obtain ⟨hn,hb,hw⟩ := haccept
    have hn' := n.toInt_lt
    simp only [step] at h
    cases hresult : sysWrite s.table k n pointer outcome with
    | none =>
      rw [hresult] at h
      cases h
    | some result =>
      rw [hresult] at h
      cases h
      obtain ⟨hsame,hcell,hrange,hall⟩ := sysWrite_accepted hp hn hb hw (hspare hn hb hw) hresult
      refine ⟨hsame,fun hc => ?_⟩
      obtain ⟨hread,hwrite⟩ := hc
      have hcomplete : Complete (s.table.file k) (.write n pointer outcome) ↔
          n.toInt=max result.1 0 := by
        simp only [Complete,hn,hb,hw,forall_const]
        exact hall
      rw [hcomplete,Counted,hcell]
      dsimp only [uint]
      rw [hread,hwrite]
      omega
  · simp only [step,sysWrite_rejected outcome haccept] at h
    cases h
    refine ⟨⟨rfl,rfl,rfl,rfl⟩,fun hc => ?_⟩
    have hcomplete : Complete (s.table.file k) (.write n pointer outcome) := by
      intro hn hb hw
      exact absurd ⟨hn,hb,hw⟩ haccept
    refine iff_of_true ?_ hcomplete
    simpa only [Counted,show max (-1 : ℤ) 0=0 from rfl,add_zero] using hc

/-- Every call keeps the file, and keeps the count exactly when it is complete,
provided that nothing else is stored over it. -/
theorem step_counted {call : Transfer} (hp : (s.table.file k).byteMem=some place)
    (hspare : Spares (s.table.file k) place call)
    (h : step k call s=some next) :
    SameFile (next.table.file k) (s.table.file k) ∧
      (Counted place s → (Counted place next ↔ Complete (s.table.file k) call)) := by
  cases call with
  | read n pointer outcome => exact step_read hp hspare h
  | write n pointer outcome => exact step_write hp hspare h
  | other stores =>
    cases h
    refine ⟨⟨rfl,rfl,rfl,rfl⟩,fun hc => iff_of_true ?_ trivial⟩
    have hcell : (s.table.stored stores).cell place=s.table.cell place := stored_cell hspare
    simpa only [Counted,hcell] using hc

end Step

/-! ## Sequences of calls -/

/-- After every beginning of a sequence of calls the counters are right. -/
def CountedThroughout (k : Fin 100) (place : ℕ) (calls : List Transfer) (s : Session) : Prop :=
  ∀ done mid, done<+:calls → follow (step k) Anything done s=some mid → Counted place mid

/-- The counters are right throughout a sequence when they are at its start and
throughout the rest. -/
theorem countedThroughout_cons {k : Fin 100} {place : ℕ} {call : Transfer}
    {rest : List Transfer} {s next : Session} (hs : step k call s=some next) :
    CountedThroughout k place (call::rest) s ↔
      Counted place s ∧ CountedThroughout k place rest next := by
  have hfollow : ∀ done, follow (step k) Anything (call::done) s=
      follow (step k) Anything done next := by
    intro done
    rw [follow_cons,hs]
    rfl
  constructor
  · intro h
    refine ⟨h [] s List.nil_prefix rfl,fun done mid hd hm => ?_⟩
    exact h (call::done) mid (List.cons_prefix_cons.mpr ⟨rfl,hd⟩) ((hfollow done).trans hm)
  · rintro ⟨hc,hrest⟩ done mid hd hm
    cases done with
    | nil =>
      cases hm
      exact hc
    | cons first done =>
      obtain ⟨rfl,hd'⟩ := List.cons_prefix_cons.mp hd
      exact hrest done mid hd' ((hfollow done).symm.trans hm)

/-- From a state with right counters they stay right throughout a sequence of
calls exactly when every call is complete, where nothing else is stored over
them: by induction on the sequence. -/
theorem countedThroughout_iff {k : Fin 100} {place : ℕ} (calls : List Transfer) :
    ∀ {s last : Session}, (s.table.file k).byteMem=some place → Counted place s →
    (∀ call∈calls, Spares (s.table.file k) place call) →
    follow (step k) Anything calls s=some last →
    (CountedThroughout k place calls s ↔ ∀ call∈calls, Complete (s.table.file k) call) := by
  induction calls with
  | nil =>
    intro s last _ hc _ _
    refine iff_of_true (fun done mid hd hm => ?_) (fun call hcall => absurd hcall List.not_mem_nil)
    obtain rfl := List.prefix_nil.mp hd
    cases hm
    exact hc
  | cons call rest ih =>
    intro s last hp hc hspares hrun
    rw [follow_cons] at hrun
    obtain ⟨next,hs,hrest⟩ := Option.bind_eq_some_iff.mp hrun
    obtain ⟨hspare,hlater⟩ := List.forall_mem_cons.mp hspares
    obtain ⟨hsame,hiff⟩ := step_counted hp hspare hs
    have hcall := hiff hc
    have hlater' : ∀ other∈rest, Spares (next.table.file k) place other := fun other ho =>
      (hsame.spares place other).mpr (hlater other ho)
    rw [countedThroughout_cons hs,List.forall_mem_cons]
    constructor
    · rintro ⟨-,hthrough⟩
      have hnext : Counted place next := hthrough [] next List.nil_prefix rfl
      refine ⟨hcall.mp hnext,fun other ho => ?_⟩
      rw [←hsame.complete other]
      exact (ih (hsame.byteMem.trans hp) hnext hlater' hrest).mp hthrough other ho
    · rintro ⟨hfirst,hothers⟩
      have hnext := hcall.mpr hfirst
      refine ⟨hc,(ih (hsame.byteMem.trans hp) hnext hlater' hrest).mpr (fun other ho => ?_)⟩
      rw [hsame.complete other]
      exact hothers other ho

/-- For every open file and every sequence of read and write calls that the
kernel survives and during which no other code stores at the place behind the
table that the counters take, the counters agree with the values returned after
every call exactly when every call is complete. -/
theorem counters_exact_iff {t : Ftable} {k : Fin 100} {place : ℕ} {calls : List Transfer}
    {last : Session} (ho : Opened t k place)
    (hspare : ∀ call∈calls, Spares (t.file k) place call)
    (hrun : follow (step k) Anything calls (begin t)=some last) :
    CountedThroughout k place calls (begin t) ↔ ∀ call∈calls, Complete (t.file k) call := by
  refine countedThroughout_iff calls ho.pointer ?_ hspare hrun
  have hfresh : (begin t).table.cell place=Iostats.zero := ho.fresh
  rw [Counted,hfresh]
  exact ⟨rfl,rfl⟩

/-- A table whose entries are freshly open on devices. -/
def deviceTable : Ftable :=
  {file := fun k => ⟨.inode,1,true,true,0,some (k.val+4+0x84)⟩,cell := fun _ => Iostats.zero}

/-- Other code stores at the place of the next entry's counters. -/
def atNext : Stores := fun place => if place=137 then some ⟨1,1⟩ else none

/-- A write of five bytes that the device takes in one piece. -/
def fullWrite : Transfer := .write 5 true ⟨0,fun _ => 5,atNext⟩

/-- A complete write is counted right. -/
theorem fullWrite_counted :
    ∃ last, follow (step 0) Anything [fullWrite,.other atNext] (begin deviceTable)=some last ∧
      CountedThroughout 0 136 [fullWrite,.other atNext] (begin deviceTable) := by
  refine ⟨_,rfl,(counters_exact_iff ⟨rfl,rfl⟩ ?_ rfl).mpr ?_⟩
  · intro call hcall
    rcases List.mem_pair.mp hcall with rfl|rfl
    · exact fun _ _ _ => rfl
    · rfl
  · intro call hcall
    rcases List.mem_pair.mp hcall with rfl|rfl
    · intro _ _ _ j hj
      change 1536*(j : ℤ)<5 at hj
      obtain rfl : j=0 := by omega
      decide +kernel
    · trivial

/-- A write and a read of five bytes that the device refuses. -/
def refusedTransfers : List Transfer :=
  [.write 5 true ⟨0,fun _ => -1,.nothing⟩,.read 5 true ⟨0,-1,.nothing⟩]

/-- A write of five bytes that the device refuses returns -1 and is counted,
and a read that fails takes one off the count of reads. -/
theorem refused_transfers_counted :
    Opened deviceTable 0 136 ∧
      ∃ last, follow (step 0) Anything refusedTransfers (begin deviceTable)=some last ∧
      last.writeReturned=0 ∧ (last.table.cell 136).writeBytes=5 ∧
      last.readReturned=0 ∧ (last.table.cell 136).readBytes=4294967295 ∧
      ¬Counted 136 last := by
  have hrun : ∃ last, follow (step 0) Anything refusedTransfers (begin deviceTable)=some last ∧
      last.writeReturned=0 ∧ (last.table.cell 136).writeBytes=5 ∧
      last.readReturned=0 ∧ (last.table.cell 136).readBytes=4294967295 := by
    refine ⟨_,rfl,?_,?_,?_,?_⟩ <;> decide +kernel
  obtain ⟨last,hlast,hw,hwb,hr,hrb⟩ := hrun
  refine ⟨⟨rfl,rfl⟩,last,hlast,hw,hwb,hr,hrb,?_⟩
  rintro ⟨hread,-⟩
  rw [hrb,hr] at hread
  exact absurd hread (by decide)

end ComputerSystems.Xv6IoStats
