import ComputerSystems.Xv6File
import ComputerSystems.TransitionSystem
import ComputerSystems.UpdateSum
import Mathlib.Algebra.BigOperators.Fin
import Mathlib.Algebra.Order.BigOperators.Group.Finset
import Mathlib.Data.Fintype.BigOperators

/-!
# When the byte counters are reset

Processes share the file table: `dup` and `fork` let several descriptors, also
of different processes, refer to one entry. Allocating a descriptor and
closing one clear the counters of the entry, and `sys_exec` clears those of
every entry before it tries to run the program. Every reset that goes beyond
the caller's own files, and every reset by a duplication, a partial close or a
failing exec, goes unnoticed only where there was nothing to lose. The counters
lie in memory of other kernel data, so whatever opens, closes, transfers and
program starts store there changes them too.
-/

namespace ComputerSystems.Xv6Descriptors

open TransitionSystem UpdateSum Xv6File

/-- The file table and the descriptors of a number of processes. -/
structure System (procs : ℕ) where
  /-- The shared table. -/
  table : Ftable
  /-- `ofile` of each process. -/
  ofile : Fin procs → Fin 16 → Option (Fin 100)

/-- How an `exec` call goes. -/
inductive ExecOutcome
  /-- The arguments cannot be fetched. -/
  | badArguments
  /-- The program cannot be run. -/
  | failed
  /-- The program replaces the process. -/
  | succeeded
  deriving DecidableEq

/-- System calls, each by one process. -/
inductive Call (procs : ℕ)
  /-- `open`; `found` says whether the path leads to an inode that may be
  opened so, and the flags are `O_WRONLY` and `O_RDWR`. Looking the path up
  stores `before`, giving the inode back or unlocking it `after`. -/
  | open_ (p : Fin procs) (found wronly rdwr : Bool) (before after : Stores)
  /-- `dup` of a descriptor. -/
  | dup (p : Fin procs) (fd : ℤ)
  /-- `read` from a descriptor. -/
  | read (p : Fin procs) (fd : ℤ) (n : Int32) (pointer : Bool) (outcome : ReadOutcome)
  /-- `write` to a descriptor. -/
  | write (p : Fin procs) (fd : ℤ) (n : Int32) (pointer : Bool) (outcome : WriteOutcome)
  /-- `close` of a descriptor, with what the pipe or the inode stores when the
  last reference goes. -/
  | close (p : Fin procs) (fd : ℤ) (stores : Stores)
  /-- `exec`, with what reading the program stores. -/
  | exec (p : Fin procs) (outcome : ExecOutcome) (stores : Stores)
  /-- `fork` into another slot of the process table. -/
  | fork (p child : Fin procs)
  /-- The rest of the kernel at work: system calls that have no descriptor,
  other processors, interrupts. -/
  | other (stores : Stores)

variable {procs : ℕ}

/-- `argfd`: the entry a descriptor refers to. -/
def argfd (s : System procs) (p : Fin procs) (fd : ℤ) : Option (Fin 16 × Fin 100) :=
  if h : 0≤fd ∧ fd<16 then
    (s.ofile p ⟨fd.toNat,by omega⟩).map (fun k => (⟨fd.toNat,by omega⟩,k))
  else none

/-- Replace one descriptor. -/
def setFd (ofile : Fin procs → Fin 16 → Option (Fin 100)) (p : Fin procs) (fd : Fin 16)
    (value : Option (Fin 100)) : Fin procs → Fin 16 → Option (Fin 100) :=
  Function.update ofile p (Function.update (ofile p) fd value)

/-- `fdalloc`: the first free descriptor; the counters are cleared. -/
def fdalloc (s : System procs) (p : Fin procs) (k : Fin 100) : Option (Fin 16 × System procs) :=
  match (List.finRange 16).find? (fun fd => s.ofile p fd=none) with
  | some fd => some (fd,{table := iostatsClear s.table (s.table.file k).byteMem,
                         ofile := setFd s.ofile p fd (some k)})
  | none => none

/-- `sys_open`. -/
def sysOpen (s : System procs) (p : Fin procs) (found wronly rdwr : Bool)
    (before after : Stores) : Option (ℤ × System procs) :=
  let looked := s.table.stored before
  if found=false then some (-1,{s with table := looked})
  else
    match filealloc looked with
    | none => some (-1,{s with table := looked.stored after})
    | some (k,t) =>
      match fdalloc {s with table := t} p k with
      -- the entry is not open on anything yet, so closing it stores nothing
      | none => (fileclose t k .nothing).map (fun t => (-1,{s with table := t.stored after}))
      | some (fd,s1) =>
        let f := {s1.table.file k with
          type := .inode,off := 0,readable := !wronly,writable := wronly || rdwr}
        some (fd.val,{s1 with table := (s1.table.stored after).put k f})

/-- `sys_dup`. -/
def sysDup (s : System procs) (p : Fin procs) (fd : ℤ) : Option (ℤ × System procs) :=
  match argfd s p fd with
  | none => some (-1,s)
  | some (_,k) =>
    match fdalloc s p k with
    | none => some (-1,s)
    | some (new,s1) => (filedup s1.table k).map (fun t => ((new.val : ℤ),{s1 with table := t}))

/-- `sys_close`. -/
def sysClose (s : System procs) (p : Fin procs) (fd : ℤ) (stores : Stores) :
    Option (ℤ × System procs) :=
  match argfd s p fd with
  | none => some (-1,s)
  | some (old,k) =>
    (fileclose (iostatsClear s.table (s.table.file k).byteMem) k stores).map
      (fun t => (0,{table := t,ofile := setFd s.ofile p old none}))

/-- `sys_exec`: the counters are cleared once the arguments are fetched, and
then the program is looked for and read. -/
def sysExec (s : System procs) (stores : Stores) : ExecOutcome → ℤ × System procs
  | .badArguments => (-1,s)
  | .failed => (-1,{s with table := (filecleariostats s.table).stored stores})
  | .succeeded => (0,{s with table := (filecleariostats s.table).stored stores})

/-- The loop of `fork` that duplicates the open files. -/
def forkFiles (row : Fin 16 → Option (Fin 100)) : List (Fin 16) → Ftable → Option Ftable
  | [],t => some t
  | fd::rest,t =>
    match row fd with
    | some k => (filedup t k).bind (forkFiles row rest)
    | none => forkFiles row rest t

/-- `fork` into an unused slot; a used one makes it fail. -/
def sysFork (s : System procs) (p child : Fin procs) : Option (ℤ × System procs) :=
  if ∀ fd, s.ofile child fd=none then
    (forkFiles (s.ofile p) (List.finRange 16) s.table).map
      (fun t => ((child.val : ℤ),{table := t,ofile := Function.update s.ofile child (s.ofile p)}))
  else some (-1,s)

/-- One system call: its result and the system after it; `none` is a panic. -/
def syscall : Call procs → System procs → Option (ℤ × System procs)
  | .open_ p found wronly rdwr before after,s => sysOpen s p found wronly rdwr before after
  | .dup p fd,s => sysDup s p fd
  | .read p fd n pointer outcome,s =>
    match argfd s p fd with
    | none => some (-1,s)
    | some (_,k) =>
      let result := sysRead s.table k n pointer outcome
      some (result.1,{s with table := result.2})
  | .write p fd n pointer outcome,s =>
    match argfd s p fd with
    | none => some (-1,s)
    | some (_,k) =>
      (sysWrite s.table k n pointer outcome).map
        (fun result => (result.1,{s with table := result.2}))
  | .close p fd stores,s => sysClose s p fd stores
  | .exec _ outcome stores,s => some (sysExec s stores outcome)
  | .fork p child,s => sysFork s p child
  | .other stores,s => some (0,{s with table := s.table.stored stores})

/-- The system after a call. -/
def step (call : Call procs) (s : System procs) : Option (System procs) :=
  (syscall call s).map Prod.snd

/-- The system before any file was opened. -/
def boot (procs : ℕ) : System procs :=
  {table := {file := fun _ => ⟨.none,0,false,false,0,none⟩,cell := fun _ => Iostats.zero},
   ofile := fun _ _ => none}

/-! ## What the counters should survive -/

/-- The counters of an entry, if it has any. -/
def statsOf (s : System procs) (k : Fin 100) : Option Iostats :=
  (s.table.file k).byteMem.map s.table.cell

/-- Another descriptor, of this or another process, refers to the entry. -/
def Several (s : System procs) (p : Fin procs) (fd : Fin 16) (k : Fin 100) : Prop :=
  ∃ q other, (q,other)≠(p,fd) ∧ s.ofile q other=some k

/-- The process has the entry open. -/
def OpenIn (s : System procs) (p : Fin procs) (k : Fin 100) : Prop :=
  ∃ fd, s.ofile p fd=some k

/-- A duplication and the close of one of several descriptors leave the
counters of the entry unchanged, a failing exec leaves all counters unchanged,
and a successful one those of the entries the process has not open. -/
def Respects (s : System procs) (call : Call procs) : Prop :=
  ∀ result next, syscall call s=some (result,next) →
    match call with
    | .dup p fd => ∀ old k, argfd s p fd=some (old,k) → statsOf next k=statsOf s k
    | .close p fd _ => ∀ old k, argfd s p fd=some (old,k) → Several s p old k →
        statsOf next k=statsOf s k
    | .exec p _ _ => ∀ k, (result = -1 ∨ ¬OpenIn s p k) → statsOf next k=statsOf s k
    | _ => True

/-- Nothing has been counted for the entry. -/
def Uncounted (s : System procs) (k : Fin 100) : Prop :=
  ∀ st, statsOf s k=some st → st=Iostats.zero

/-- What an exec stores at the place of the counters, zero where it stores
nothing, is what they were. -/
def StoredBack (s : System procs) (stores : Stores) (k : Fin 100) : Prop :=
  ∀ place, (s.table.file k).byteMem=some place →
    (stores place).getD Iostats.zero=s.table.cell place

/-- The counters that the call clears without need are zero already, and an
exec stores nothing else where they lie. -/
def NothingLost (s : System procs) : Call procs → Prop
  | .dup p fd => ∀ old k, argfd s p fd=some (old,k) → (∃ new, s.ofile p new=none) → Uncounted s k
  | .close p fd _ => ∀ old k, argfd s p fd=some (old,k) → Several s p old k → Uncounted s k
  | .exec _ .badArguments _ => True
  | .exec _ .failed stores => ∀ k, StoredBack s stores k
  | .exec p .succeeded stores => ∀ k, ¬OpenIn s p k → StoredBack s stores k
  | _ => True

/-! ## References are counted -/

/-- Whether a descriptor refers to an entry, as a number. -/
def refersTo (k : Fin 100) (value : Option (Fin 100)) : ℤ := if value=some k then 1 else 0

/-- The descriptors of one process that refer to an entry. -/
def rowCount (k : Fin 100) (row : Fin 16 → Option (Fin 100)) : ℤ := ∑ fd, refersTo k (row fd)

/-- All descriptors that refer to an entry. -/
def descriptors (ofile : Fin procs → Fin 16 → Option (Fin 100)) (k : Fin 100) : ℤ :=
  ∑ p, rowCount k (ofile p)

/-- Every reference count is the number of descriptors. -/
def Referenced (s : System procs) : Prop :=
  ∀ k, (s.table.file k).ref=descriptors s.ofile k

/-- Replacing one descriptor. -/
theorem descriptors_setFd (ofile : Fin procs → Fin 16 → Option (Fin 100)) (p : Fin procs)
    (fd : Fin 16) (value : Option (Fin 100)) (k : Fin 100) :
    descriptors (setFd ofile p fd value) k+refersTo k (ofile p fd)=
      descriptors ofile k+refersTo k value := by
  have hrow := sum_update_add (refersTo k) (ofile p) fd value
  have hall := sum_update_add (rowCount k) ofile p (Function.update (ofile p) fd value)
  change rowCount k (Function.update (ofile p) fd value)+_=rowCount k (ofile p)+_ at hrow
  change descriptors (setFd ofile p fd value) k+_=descriptors ofile k+_ at hall
  omega

theorem refersTo_none (k : Fin 100) : refersTo k none=0 := if_neg (Option.some_ne_none k).symm

theorem refersTo_some (k j : Fin 100) : refersTo j (some k)=if j=k then 1 else 0 := by
  unfold refersTo
  by_cases hj : j=k
  · rw [if_pos hj,if_pos (by rw [hj])]
  · rw [if_neg hj,if_neg (fun he => hj (Option.some.inj he).symm)]

theorem refersTo_nonneg (k : Fin 100) (value : Option (Fin 100)) : 0≤refersTo k value := by
  unfold refersTo
  split <;> omega

/-- An entry that a descriptor refers to is counted. -/
theorem descriptors_pos {ofile : Fin procs → Fin 16 → Option (Fin 100)} {p : Fin procs}
    {fd : Fin 16} {k : Fin 100} (h : ofile p fd=some k) : 1≤descriptors ofile k := by
  have hone : refersTo k (ofile p fd)=1 := if_pos h
  have hrow : refersTo k (ofile p fd)≤rowCount k (ofile p) :=
    Finset.single_le_sum (fun fd _ => refersTo_nonneg k (ofile p fd)) (Finset.mem_univ fd)
  have hall : rowCount k (ofile p)≤descriptors ofile k :=
    Finset.single_le_sum (fun q _ => Finset.sum_nonneg (fun fd _ => refersTo_nonneg k (ofile q fd)))
      (Finset.mem_univ p)
  omega

/-- What `argfd` finds is in the table of the process. -/
theorem ofile_of_argfd {s : System procs} {p : Fin procs} {fd : ℤ} {old : Fin 16} {k : Fin 100}
    (h : argfd s p fd=some (old,k)) : s.ofile p old=some k := by
  unfold argfd at h
  split_ifs at h with hr
  obtain ⟨k',hk',he⟩ := Option.map_eq_some_iff.mp h
  obtain ⟨ho,hk⟩ := Prod.mk.inj he
  rw [←ho,←hk]
  exact hk'

/-- What `fdalloc` does. -/
theorem fdalloc_eq_some {s s1 : System procs} {p : Fin procs} {k : Fin 100} {fd : Fin 16}
    (h : fdalloc s p k=some (fd,s1)) :
    s.ofile p fd=none ∧ s1={table := iostatsClear s.table (s.table.file k).byteMem,
                            ofile := setFd s.ofile p fd (some k)} := by
  unfold fdalloc at h
  split at h
  · next free hfind =>
    obtain ⟨hfd,hs⟩ := Prod.mk.inj (Option.some.inj h)
    have hfree := List.find?_some hfind
    rw [hfd] at hfree hs
    exact ⟨of_decide_eq_true hfree,hs.symm⟩
  · cases h

/-- What `filealloc` does: the entry had no references. -/
theorem filealloc_eq_some {t t1 : Ftable} {k : Fin 100} (h : filealloc t=some (k,t1)) :
    (t.file k).ref=0 ∧ t1=iostatsAlloc (t.put k {t.file k with ref := 1}) k := by
  unfold filealloc at h
  split at h
  · next found hfind =>
    obtain ⟨hk,ht⟩ := Prod.mk.inj (Option.some.inj h)
    have hfree := List.find?_some hfind
    rw [hk] at hfree ht
    exact ⟨of_decide_eq_true hfree,ht.symm⟩
  · cases h

/-- Clearing counters changes no entry. -/
theorem file_filecleariostats (t : Ftable) : (filecleariostats t).file=t.file := by
  have hfold : ∀ (list : List (Fin 100)) (t : Ftable),
      (list.foldl (fun t k => iostatsClear t (t.file k).byteMem) t).file=t.file := by
    intro list
    induction list with
    | nil =>
      intro t
      rfl
    | cons k rest ih =>
      intro t
      rw [List.foldl_cons,ih,iostatsClear,update_file]
  exact hfold _ t

/-- The reference counts of a table. -/
def refs (t : Ftable) (k : Fin 100) : ℤ := (t.file k).ref

/-- Reference counts after replacing an entry. -/
theorem refs_put (t : Ftable) (k j : Fin 100) (f : File) :
    refs (t.put k f) j=if j=k then f.ref else refs t j := by
  unfold refs
  by_cases hj : j=k
  · rw [hj,put_file_self,if_pos rfl]
  · rw [put_file_ne hj,if_neg hj]

/-- Counters do not matter for reference counts. -/
theorem refs_update (t : Ftable) (is : Option ℕ) (change : Iostats → Iostats) (j : Fin 100) :
    refs (t.update is change) j=refs t j := by
  unfold refs
  rw [update_file]

/-- What other code stores does not matter for them either. -/
theorem refs_stored (t : Ftable) (stores : Stores) (j : Fin 100) :
    refs (t.stored stores) j=refs t j := rfl

/-- Reference counts do not depend on the other fields of an entry. -/
theorem refs_put_same {t : Ftable} {k : Fin 100} {f : File} (h : f.ref=refs t k) (j : Fin 100) :
    refs (t.put k f) j=refs t j := by
  rw [refs_put]
  split_ifs with hj
  · rw [hj,h]
  · rfl

/-- An allocated entry has one reference instead of none. -/
theorem refs_filealloc {t t1 : Ftable} {k : Fin 100} (h : filealloc t=some (k,t1)) (j : Fin 100) :
    refs t1 j=refs t j+if j=k then 1 else 0 := by
  obtain ⟨hzero,rfl⟩ := filealloc_eq_some h
  have hmid : refs (iostatsClear (t.put k {t.file k with ref := 1}) (some (k.val+4+0x84))) j=
      refs t j+if j=k then 1 else 0 := by
    rw [iostatsClear,refs_update,refs_put]
    split_ifs with hj
    · rw [hj,refs,hzero]
      rfl
    · omega
  refine Eq.trans (refs_put_same ?_ j) hmid
  rw [iostatsClear,refs_update]
  rfl

/-- A duplicated entry has one reference more. -/
theorem refs_filedup {t t' : Ftable} {k : Fin 100} (h : filedup t k=some t') (j : Fin 100) :
    refs t' j=refs t j+if j=k then 1 else 0 := by
  unfold filedup at h
  split_ifs at h
  cases h
  rw [refs_put]
  split_ifs with hj
  · rw [hj]
    rfl
  · omega

/-- The last reference of an entry is given up. -/
theorem refs_last {t : Ftable} {k : Fin 100} (h : (t.file k).ref=1) (j : Fin 100) :
    refs (t.put k {t.file k with ref := 0,type := .none}) j=refs t j-if j=k then 1 else 0 := by
  rw [refs_put]
  split_ifs with hj
  · rw [hj,refs,h]
    rfl
  · omega

/-- A closed entry has one reference less. -/
theorem refs_fileclose {t t' : Ftable} {k : Fin 100} {stores : Stores}
    (h : fileclose t k stores=some t') (j : Fin 100) :
    refs t' j=refs t j-if j=k then 1 else 0 := by
  unfold fileclose at h
  dsimp only at h
  split_ifs at h with hpanic hmore
  · cases h
    rw [refs_put]
    split_ifs with hj
    · rw [hj]
      rfl
    · omega
  · cases h
    exact refs_last (by omega) j
  · cases h
    exact refs_last (by omega) j

/-- Reading keeps the reference counts. -/
theorem refs_sysRead (t : Ftable) (k : Fin 100) (n : Int32) (pointer : Bool)
    (outcome : ReadOutcome) (j : Fin 100) :
    refs (sysRead t k n pointer outcome).2 j=refs t j := by
  unfold sysRead
  split_ifs
  · rfl
  · unfold fileread
    dsimp only
    split_ifs
    · rfl
    · rw [iostatsIncrRead,refs_update]
      refine refs_put_same ?_ j
      rfl
    · rw [iostatsIncrRead,refs_update]
      refine refs_put_same ?_ j
      rfl

/-- Writing keeps the reference counts. -/
theorem refs_sysWrite {t : Ftable} {k : Fin 100} {n : Int32} {pointer : Bool}
    {outcome : WriteOutcome} {result : ℤ × Ftable}
    (h : sysWrite t k n pointer outcome=some result) (j : Fin 100) :
    refs result.2 j=refs t j := by
  unfold sysWrite at h
  split_ifs at h
  · cases h
    rfl
  · unfold filewrite at h
    dsimp only at h
    split_ifs at h
    · cases h
      rfl
    · cases htype : (t.file k).type with
      | none =>
        rw [htype] at h
        cases h
      | pipe =>
        rw [htype] at h
        cases h
        rw [refs_stored,iostatsIncrWrite,refs_update]
      | inode =>
        rw [htype] at h
        dsimp only at h
        split at h
        · cases h
        · cases h
          rw [refs_put,refs_stored,iostatsIncrWrite,refs_update]
          split_ifs with hj
          · rw [hj]
            rfl
          · rfl

/-- Forking adds a reference for every descriptor: by induction on the
descriptors left. -/
theorem refs_forkFiles (row : Fin 16 → Option (Fin 100)) (list : List (Fin 16)) :
    ∀ {t t' : Ftable}, forkFiles row list t=some t' → ∀ j,
      refs t' j=refs t j+(list.map (fun fd => refersTo j (row fd))).sum := by
  induction list with
  | nil =>
    intro t t' h j
    cases h
    simp only [List.map_nil,List.sum_nil,add_zero]
  | cons fd rest ih =>
    intro t t' h j
    rw [List.map_cons,List.sum_cons]
    cases hrow : row fd with
    | none =>
      simp only [forkFiles,hrow] at h
      rw [ih h j,refersTo_none]
      omega
    | some k =>
      simp only [forkFiles,hrow] at h
      obtain ⟨mid,hdup,hrest⟩ := Option.bind_eq_some_iff.mp h
      rw [ih hrest j,refs_filedup hdup,refersTo_some]
      omega

/-- Only the entries and the descriptors matter. -/
theorem Referenced.of_file {s next : System procs} (h : Referenced s)
    (hf : next.table.file=s.table.file) (ho : next.ofile=s.ofile) : Referenced next := by
  intro j
  rw [hf,ho]
  exact h j

/-- An opened file has one descriptor and one reference. -/
theorem referenced_open {s next : System procs} {p : Fin procs} {found wronly rdwr : Bool}
    {before after : Stores} {result : ℤ} (h : Referenced s)
    (hs : sysOpen s p found wronly rdwr before after=some (result,next)) :
    Referenced next := by
  unfold sysOpen at hs
  dsimp only at hs
  split_ifs at hs
  · cases hs
    exact h
  · cases halloc : filealloc (s.table.stored before) with
    | none =>
      rw [halloc] at hs
      cases hs
      exact h
    | some pair =>
      obtain ⟨k,t⟩ := pair
      have hrefs := refs_filealloc halloc
      simp only [refs_stored] at hrefs
      rw [halloc] at hs
      dsimp only at hs
      cases hfd : fdalloc {s with table := t} p k with
      | none =>
        rw [hfd] at hs
        obtain ⟨t',hclose,hnext⟩ := Option.map_eq_some_iff.mp hs
        obtain ⟨_,rfl⟩ := Prod.mk.inj hnext
        intro j
        have hj := refs_fileclose hclose j
        have hbefore := h j
        change refs t' j=descriptors s.ofile j
        change refs s.table j=_ at hbefore
        rw [hj,hrefs j]
        omega
      | some pair' =>
        obtain ⟨fd,s1⟩ := pair'
        obtain ⟨hfree,hs1⟩ := fdalloc_eq_some hfd
        rw [hfd] at hs
        obtain ⟨_,rfl⟩ := Prod.mk.inj (Option.some.inj hs)
        subst hs1
        intro j
        have hcount := descriptors_setFd s.ofile p fd (some k) j
        have hbefore := h j
        have hfree' : s.ofile p fd=none := hfree
        rw [hfree',refersTo_none,refersTo_some] at hcount
        change refs s.table j=_ at hbefore
        refine (refs_put_same ?_ j).trans ?_
        · rfl
        · change refs (iostatsClear t (t.file k).byteMem) j=_
          rw [iostatsClear,refs_update,hrefs j]
          change _=descriptors (setFd s.ofile p fd (some k)) j
          omega

/-- A duplicated descriptor has a reference. -/
theorem referenced_dup {s next : System procs} {p : Fin procs} {fd result : ℤ}
    (h : Referenced s) (hs : sysDup s p fd=some (result,next)) : Referenced next := by
  unfold sysDup at hs
  cases harg : argfd s p fd with
  | none =>
    rw [harg] at hs
    cases hs
    exact h
  | some pair =>
    obtain ⟨old,k⟩ := pair
    rw [harg] at hs
    dsimp only at hs
    cases hfd : fdalloc s p k with
    | none =>
      rw [hfd] at hs
      cases hs
      exact h
    | some pair' =>
      obtain ⟨new,s1⟩ := pair'
      obtain ⟨hfree,hs1⟩ := fdalloc_eq_some hfd
      rw [hfd] at hs
      obtain ⟨t',hdup,hnext⟩ := Option.map_eq_some_iff.mp hs
      obtain ⟨_,rfl⟩ := Prod.mk.inj hnext
      subst hs1
      intro j
      have hcount := descriptors_setFd s.ofile p new (some k) j
      have hbefore := h j
      rw [hfree,refersTo_none,refersTo_some] at hcount
      change refs s.table j=_ at hbefore
      change refs t' j=descriptors (setFd s.ofile p new (some k)) j
      rw [refs_filedup hdup,iostatsClear,refs_update]
      omega

/-- A closed descriptor gives up its reference. -/
theorem referenced_close {s next : System procs} {p : Fin procs} {fd result : ℤ}
    {stores : Stores} (h : Referenced s) (hs : sysClose s p fd stores=some (result,next)) :
    Referenced next := by
  unfold sysClose at hs
  cases harg : argfd s p fd with
  | none =>
    rw [harg] at hs
    cases hs
    exact h
  | some pair =>
    obtain ⟨old,k⟩ := pair
    rw [harg] at hs
    obtain ⟨t',hclose,hnext⟩ := Option.map_eq_some_iff.mp hs
    obtain ⟨_,rfl⟩ := Prod.mk.inj hnext
    intro j
    have hcount := descriptors_setFd s.ofile p old none j
    have hbefore := h j
    rw [ofile_of_argfd harg,refersTo_none,refersTo_some] at hcount
    change refs s.table j=_ at hbefore
    change refs t' j=descriptors (setFd s.ofile p old none) j
    rw [refs_fileclose hclose,iostatsClear,refs_update]
    omega

/-- A forked process has references for its descriptors. -/
theorem referenced_fork {s next : System procs} {p child : Fin procs} {result : ℤ}
    (h : Referenced s) (hs : sysFork s p child=some (result,next)) : Referenced next := by
  unfold sysFork at hs
  split_ifs at hs with hunused
  · obtain ⟨t',hfork,hnext⟩ := Option.map_eq_some_iff.mp hs
    obtain ⟨_,rfl⟩ := Prod.mk.inj hnext
    intro j
    have hcount := sum_update_add (rowCount j) s.ofile child (s.ofile p)
    have hzero : rowCount j (s.ofile child)=0 :=
      Finset.sum_eq_zero (fun fd _ => by rw [hunused fd,refersTo_none])
    have hrow : rowCount j (s.ofile p)=
        ((List.finRange 16).map (fun fd => refersTo j (s.ofile p fd))).sum :=
      Fin.sum_univ_def _
    have hbefore := h j
    change refs s.table j=_ at hbefore
    change descriptors (Function.update s.ofile child (s.ofile p)) j+_=descriptors s.ofile j+_
      at hcount
    change refs t' j=descriptors (Function.update s.ofile child (s.ofile p)) j
    rw [refs_forkFiles _ _ hfork j,←hrow]
    omega
  · cases hs
    exact h

/-- Every system call keeps the reference counts right. -/
theorem referenced_step {s next : System procs} {call : Call procs} (h : Referenced s)
    (hs : step call s=some next) : Referenced next := by
  obtain ⟨⟨result,_⟩,hcall,rfl⟩ := Option.map_eq_some_iff.mp hs
  cases call with
  | open_ p found wronly rdwr before after => exact referenced_open h hcall
  | dup p fd => exact referenced_dup h hcall
  | read p fd n pointer outcome =>
    simp only [syscall] at hcall
    split at hcall
    · cases hcall
      exact h
    · cases hcall
      intro j
      exact (refs_sysRead s.table _ n pointer outcome j).trans (h j)
  | write p fd n pointer outcome =>
    simp only [syscall] at hcall
    split at hcall
    · cases hcall
      exact h
    · obtain ⟨written,hwrite,hnext⟩ := Option.map_eq_some_iff.mp hcall
      cases hnext
      intro j
      exact (refs_sysWrite hwrite j).trans (h j)
  | close p fd stores => exact referenced_close h hcall
  | exec p outcome stores =>
    obtain ⟨_,rfl⟩ := Prod.mk.inj (Option.some.inj hcall)
    cases outcome with
    | badArguments => exact h
    | failed =>
      exact h.of_file ((stored_file stores).trans (file_filecleariostats s.table)) rfl
    | succeeded =>
      exact h.of_file ((stored_file stores).trans (file_filecleariostats s.table)) rfl
  | fork p child => exact referenced_fork h hcall
  | other stores =>
    obtain ⟨_,rfl⟩ := Prod.mk.inj (Option.some.inj hcall)
    exact h.of_file rfl rfl

/-- In every reachable system the reference counts are right. -/
theorem referenced_of_reachable {s : System procs} (h : Reachable step Anything (boot procs) s) :
    Referenced s := by
  refine h.invariant Referenced ?_ (fun _ _ _ hr _ hs => referenced_step hr hs)
  intro k
  change (0 : ℤ)=descriptors (fun _ _ => none) k
  refine (Finset.sum_eq_zero (fun p _ => Finset.sum_eq_zero (fun fd _ => refersTo_none k))).symm

/-! ## When nothing is lost -/

/-- The counters of an entry whose pointer is kept. -/
theorem statsOf_congr {s next : System procs} {k : Fin 100}
    (hp : (next.table.file k).byteMem=(s.table.file k).byteMem) :
    statsOf next k=(s.table.file k).byteMem.map next.table.cell := by
  rw [statsOf,hp]

/-- Cleared counters are the old ones exactly when nothing had been counted. -/
theorem cleared_iff {s next : System procs} {k : Fin 100}
    (h : statsOf next k=(statsOf s k).map (fun _ => Iostats.zero)) :
    statsOf next k=statsOf s k ↔ Uncounted s k := by
  rw [h,Uncounted]
  cases statsOf s k with
  | none => simp
  | some st =>
    simp only [Option.map_some,Option.some.injEq,forall_eq']
    exact eq_comm

/-- Clearing through an entry's pointer clears its counters. -/
theorem statsOf_clear {s next : System procs} {k : Fin 100}
    (hp : (next.table.file k).byteMem=(s.table.file k).byteMem)
    (hc : next.table.cell=(iostatsClear s.table (s.table.file k).byteMem).cell) :
    statsOf next k=(statsOf s k).map (fun _ => Iostats.zero) := by
  rw [statsOf_congr hp,hc,statsOf]
  cases hb : (s.table.file k).byteMem with
  | none => rfl
  | some place =>
    simp only [Option.map_some,iostatsClear]
    rw [update_cell]

/-- The loop over the table clears the counters of every entry it visits, and
cleared counters stay cleared: by induction on the entries left. -/
theorem cell_clearLoop (place : ℕ) (list : List (Fin 100)) :
    ∀ t : Ftable, ((∃ k∈list, (t.file k).byteMem=some place) ∨ t.cell place=Iostats.zero) →
      (list.foldl (fun t k => iostatsClear t (t.file k).byteMem) t).cell place=Iostats.zero := by
  induction list with
  | nil =>
    rintro t (⟨k,hk,_⟩|hz)
    · exact absurd hk List.not_mem_nil
    · exact hz
  | cons first rest ih =>
    intro t h
    have hfile : (iostatsClear t (t.file first).byteMem).file=t.file := update_file _ _
    rw [List.foldl_cons]
    refine ih _ ?_
    by_cases hfirst : (t.file first).byteMem=some place
    · right
      rw [hfirst,iostatsClear,update_cell]
    · rcases h with ⟨k,hk,hp⟩|hz
      · left
        rcases List.mem_cons.mp hk with rfl|hk'
        · exact absurd hp hfirst
        · exact ⟨k,hk',by rw [hfile]; exact hp⟩
      · right
        cases hb : (t.file first).byteMem with
        | none => exact hz
        | some other =>
          have hne : place≠other := fun he => hfirst (by rw [hb,he])
          rw [iostatsClear,update_cell_ne _ hne]
          exact hz

/-- Clearing the whole table and starting a program leaves the counters of an
entry as they were exactly when they were zero, or what is stored there. -/
theorem statsOf_clearAll (s : System procs) (stores : Stores) (k : Fin 100) :
    statsOf {s with table := (filecleariostats s.table).stored stores} k=statsOf s k ↔
      StoredBack s stores k := by
  simp only [statsOf,stored_file,file_filecleariostats,StoredBack]
  cases hb : (s.table.file k).byteMem with
  | none => simp
  | some place =>
    have hz : (filecleariostats s.table).cell place=Iostats.zero := by
      unfold filecleariostats
      exact cell_clearLoop place (List.finRange 100) s.table (.inl ⟨k,List.mem_finRange k,hb⟩)
    simp only [Option.map_some,Option.some.injEq,Ftable.stored,hz,forall_eq']

/-- The pointers of all entries are kept. -/
theorem byteMem_filedup {t t' : Ftable} {k : Fin 100} (h : filedup t k=some t') (j : Fin 100) :
    (t'.file j).byteMem=(t.file j).byteMem ∧ t'.cell=t.cell := by
  unfold filedup at h
  split_ifs at h
  cases h
  refine ⟨?_,rfl⟩
  by_cases hj : j=k
  · rw [hj,put_file_self]
  · rw [put_file_ne hj]

/-- Giving up a reference that is not the last keeps the counters. -/
theorem byteMem_fileclose {t t' : Ftable} {k : Fin 100} {stores : Stores}
    (h : fileclose t k stores=some t') (hmore : 1<(t.file k).ref) (j : Fin 100) :
    (t'.file j).byteMem=(t.file j).byteMem ∧ t'.cell=t.cell := by
  unfold fileclose at h
  rw [if_neg (by omega),if_pos (by omega)] at h
  cases h
  refine ⟨?_,rfl⟩
  by_cases hj : j=k
  · rw [hj,put_file_self]
  · rw [put_file_ne hj]

/-- A duplication that finds a free descriptor clears the counters. -/
theorem dup_clears {s : System procs} (h : Referenced s) {p : Fin procs} {fd : ℤ} {old : Fin 16}
    {k : Fin 100} (harg : argfd s p fd=some (old,k)) (hfree : ∃ new, s.ofile p new=none) :
    ∃ result next, sysDup s p fd=some (result,next) ∧
      statsOf next k=(statsOf s k).map (fun _ => Iostats.zero) := by
  have hpos := descriptors_pos (ofile_of_argfd harg)
  rw [←h k] at hpos
  obtain ⟨free,hfree⟩ := hfree
  cases hfd : fdalloc s p k with
  | none =>
    exfalso
    unfold fdalloc at hfd
    split at hfd
    · cases hfd
    · next hfind =>
      have hused := List.find?_eq_none.mp hfind free (List.mem_finRange free)
      exact hused (decide_eq_true hfree)
  | some pair =>
    obtain ⟨new,s1⟩ := pair
    obtain ⟨_,hs1⟩ := fdalloc_eq_some hfd
    have hrefs : ¬(s1.table.file k).ref<1 := by
      rw [hs1]
      change ¬refs (iostatsClear s.table (s.table.file k).byteMem) k<1
      rw [iostatsClear,refs_update]
      exact not_lt.mpr hpos
    obtain ⟨t',hdup⟩ : ∃ t', filedup s1.table k=some t' := ⟨_,if_neg hrefs⟩
    obtain ⟨hmem,hcell⟩ := byteMem_filedup hdup k
    refine ⟨(new.val : ℤ),{s1 with table := t'},?_,statsOf_clear ?_ ?_⟩
    · simp only [sysDup,harg,hfd,hdup,Option.map_some]
    · rw [hmem,hs1]
      change ((iostatsClear s.table (s.table.file k).byteMem).file k).byteMem=_
      rw [iostatsClear,update_file]
    · rw [hcell,hs1]

/-- With a second descriptor an entry has two references. -/
theorem Several.two_le {s : System procs} {p : Fin procs} {fd : Fin 16} {k : Fin 100}
    (h : Several s p fd k) (hfd : s.ofile p fd=some k) : 2≤descriptors s.ofile k := by
  obtain ⟨q,other,hne,hother⟩ := h
  have hcount := descriptors_setFd s.ofile p fd none k
  have hkept : setFd s.ofile p fd none q other=some k := by
    unfold setFd
    by_cases hq : q=p
    · subst hq
      have ho : other≠fd := fun he => hne (by rw [he])
      rw [Function.update_self,Function.update_of_ne ho,hother]
    · rw [Function.update_of_ne hq,hother]
  have hpos := descriptors_pos hkept
  rw [hfd,refersTo_none,refersTo_some,if_pos rfl] at hcount
  omega

/-- A close of one of several descriptors clears the counters. -/
theorem close_clears {s : System procs} (h : Referenced s) {p : Fin procs} {fd : ℤ}
    {stores : Stores} {old : Fin 16} {k : Fin 100} (harg : argfd s p fd=some (old,k))
    (hseveral : Several s p old k) :
    ∃ result next, sysClose s p fd stores=some (result,next) ∧
      statsOf next k=(statsOf s k).map (fun _ => Iostats.zero) := by
  have htwo := hseveral.two_le (ofile_of_argfd harg)
  rw [←h k] at htwo
  have hrefs : 1<((iostatsClear s.table (s.table.file k).byteMem).file k).ref := by
    rw [iostatsClear,update_file]
    omega
  obtain ⟨t',hclose⟩ : ∃ t',
      fileclose (iostatsClear s.table (s.table.file k).byteMem) k stores=some t' := by
    unfold fileclose
    rw [if_neg (by omega),if_pos (by omega)]
    exact ⟨_,rfl⟩
  obtain ⟨hmem,hcell⟩ := byteMem_fileclose hclose hrefs k
  refine ⟨0,{table := t',ofile := setFd s.ofile p old none},?_,statsOf_clear ?_ hcell⟩
  · simp only [sysClose,harg,hclose,Option.map_some]
  · rw [hmem,iostatsClear,update_file]

/-- A duplication without a free descriptor changes nothing. -/
theorem dup_full {s : System procs} {p : Fin procs} {fd : ℤ} (hfull : ¬∃ new, s.ofile p new=none) :
    sysDup s p fd=some (-1,s) := by
  unfold sysDup
  cases harg : argfd s p fd with
  | none => rfl
  | some pair =>
    cases hfd : fdalloc s p pair.2 with
    | none => simp only [hfd]
    | some found => exact absurd ⟨found.1,(fdalloc_eq_some hfd).1⟩ hfull

/-- In every reachable system a call leaves the counters it should alone exactly
when those it clears without need are zero already, or, for an exec, what it
then stores where they lie. -/
theorem counters_kept_iff {s : System procs} (hs : Reachable step Anything (boot procs) s)
    (call : Call procs) : Respects s call ↔ NothingLost s call := by
  have hr := referenced_of_reachable hs
  cases call with
  | open_ p found wronly rdwr before after => exact iff_of_true (fun _ _ _ => trivial) trivial
  | read p fd n pointer outcome => exact iff_of_true (fun _ _ _ => trivial) trivial
  | write p fd n pointer outcome => exact iff_of_true (fun _ _ _ => trivial) trivial
  | fork p child => exact iff_of_true (fun _ _ _ => trivial) trivial
  | other stores => exact iff_of_true (fun _ _ _ => trivial) trivial
  | dup p fd =>
    constructor
    · intro hrespect old k harg hfree
      obtain ⟨result,next,hcall,hclear⟩ := dup_clears hr harg hfree
      exact (cleared_iff hclear).mp (hrespect result next hcall old k harg)
    · intro hnothing result next hcall old k harg
      by_cases hfree : ∃ new, s.ofile p new=none
      · obtain ⟨result',next',hcall',hclear⟩ := dup_clears hr harg hfree
        obtain ⟨_,rfl⟩ := Prod.mk.inj (Option.some.inj (hcall'.symm.trans hcall))
        exact (cleared_iff hclear).mpr (hnothing old k harg hfree)
      · obtain ⟨_,rfl⟩ := Prod.mk.inj (Option.some.inj ((dup_full hfree).symm.trans hcall))
        rfl
  | close p fd stores =>
    constructor
    · intro hrespect old k harg hseveral
      obtain ⟨result,next,hcall,hclear⟩ := close_clears hr harg hseveral
      exact (cleared_iff hclear).mp (hrespect result next hcall old k harg hseveral)
    · intro hnothing result next hcall old k harg hseveral
      obtain ⟨result',next',hcall',hclear⟩ := close_clears hr harg hseveral
      obtain ⟨_,rfl⟩ := Prod.mk.inj (Option.some.inj (hcall'.symm.trans hcall))
      exact (cleared_iff hclear).mpr (hnothing old k harg hseveral)
  | exec p outcome stores =>
    cases outcome with
    | badArguments =>
      refine iff_of_true ?_ trivial
      intro result next hcall k _
      obtain ⟨_,rfl⟩ := Prod.mk.inj (Option.some.inj hcall)
      rfl
    | failed =>
      constructor
      · intro hrespect k
        exact (statsOf_clearAll s stores k).mp (hrespect _ _ rfl k (.inl rfl))
      · intro hnothing result next hcall k _
        obtain ⟨_,rfl⟩ := Prod.mk.inj (Option.some.inj hcall)
        exact (statsOf_clearAll s stores k).mpr (hnothing k)
    | succeeded =>
      constructor
      · intro hrespect k hopen
        exact (statsOf_clearAll s stores k).mp (hrespect _ _ rfl k (.inr hopen))
      · intro hnothing result next hcall k hkeep
        obtain ⟨hresult,rfl⟩ := Prod.mk.inj (Option.some.inj hcall)
        have hopen : ¬OpenIn s p k := by
          rcases hkeep with hminus|hopen
          · rw [←hresult] at hminus
            exact absurd hminus (by decide)
          · exact hopen
        exact (statsOf_clearAll s stores k).mpr (hnothing k hopen)

/-- Opening a file for writing, writing five bytes to it and duplicating the
descriptor. -/
def dupRun : List (Call 1) :=
  [.open_ 0 true true false .nothing .nothing,.write 0 0 5 true ⟨0,fun _ => 5,.nothing⟩]

/-- After five bytes were written the duplication of the descriptor sets the
counter back to zero. -/
theorem dup_resets : ∃ s : System 1, Reachable step Anything (boot 1) s ∧
    statsOf s 0=some ⟨0,5⟩ ∧ ¬Respects s (.dup 0 0) := by
  have hrun : ∃ s : System 1, follow step Anything dupRun (boot 1)=some s ∧
      statsOf s 0=some ⟨0,5⟩ ∧ argfd s 0 0=some (0,0) ∧
      ((sysDup s 0 0).map (fun pair => statsOf pair.2 0))=some (some ⟨0,0⟩) := by
    refine ⟨_,rfl,?_,?_,?_⟩ <;> decide +kernel
  obtain ⟨s,hs,hstats,harg,hdup⟩ := hrun
  refine ⟨s,reachable_of_follow hs,hstats,?_⟩
  intro hrespect
  obtain ⟨⟨result,next⟩,hcall,hnext⟩ := Option.map_eq_some_iff.mp hdup
  have hkept := hrespect result next hcall 0 0 harg
  rw [hnext,hstats] at hkept
  exact absurd hkept (by decide)

/-- A duplication right after opening loses nothing. -/
theorem fresh_dup_respects : ∃ s : System 1, Reachable step Anything (boot 1) s ∧
    argfd s 0 0=some (0,0) ∧ Respects s (.dup 0 0) := by
  have hrun : ∃ s : System 1,
      follow step Anything [.open_ 0 true true false .nothing .nothing] (boot 1)=some s ∧
      statsOf s 0=some ⟨0,0⟩ ∧ argfd s 0 0=some (0,0) := by
    refine ⟨_,rfl,?_,?_⟩ <;> decide +kernel
  obtain ⟨s,hs,hstats,harg⟩ := hrun
  refine ⟨s,reachable_of_follow hs,harg,?_⟩
  refine (counters_kept_iff (reachable_of_follow hs) (.dup 0 0)).mpr ?_
  intro old k harg' _
  rw [harg] at harg'
  obtain ⟨_,rfl⟩ := Prod.mk.inj (Option.some.inj harg')
  intro st hst
  rw [hstats] at hst
  exact (Option.some.inj hst).symm

end ComputerSystems.Xv6Descriptors
