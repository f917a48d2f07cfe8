import ComputerSystems.TransitionSystem
import ComputerSystems.ByteFile
import Mathlib.Algebra.Order.BigOperators.Group.Finset
import Mathlib.Data.Fintype.BigOperators

/-!
# The sorter's output file

`main` writes a 4-byte header and every worker then opens the same file with
`O_TRUNC`, seeks to the place of its part and writes its floats one by one.
The workers' calls interleave in any order. Whatever the order, the bytes that
are written end before the 8-byte count and the data would: the format that
`tools/check-sorted` reads is never produced.
-/

namespace ComputerSystems.SortOutput

open ByteMemory ByteFile TransitionSystem

/-- Where a worker stands in its writing phase. -/
inductive Stage
  /-- Before its `open`. -/
  | opening
  /-- Opened, before its `lseek`. -/
  | seeking (position : ℕ)
  /-- In its loop of `write` calls, or before its `close` when all are done. -/
  | writing (ii position : ℕ)
  /-- After its `close`. -/
  | closed
  deriving DecidableEq

/-- The output file and the workers, one for each local array. -/
structure State (locals : List (List UInt32)) where
  /-- The bytes of the output file. -/
  file : File
  /-- The workers. -/
  workers : Fin locals.length → Stage
  deriving DecidableEq

/-- The pattern of the float 4096 that `main` writes first. -/
def fileSizePattern : ℕ := 0x45800000

/-- The file as `main` leaves it: truncated, then four bytes of header. -/
def mainHeader : File := writeAt [] 0 (leBytes 4 fileSizePattern)

/-- The output index of a worker: the sizes before it, summed in an int. -/
def outputIndex (sizes : List ℕ) : ℤ :=
  sizes.foldl (fun (jj : ℤ) (size : ℕ) => wrap32 (jj+size)) 0

/-- `(jj + 1) * sizeof(float)`, an int times a size, passed as an offset. -/
def seekOffset (jj : ℤ) : ℤ :=
  Int.bmod (wrap32 (jj+1)%18446744073709551616*4) 18446744073709551616

/-- `lseek` with `SEEK_CUR`; an offset before the start of the file fails and
moves nothing. -/
def lseekCur (position : ℕ) (offset : ℤ) : ℕ :=
  if 0≤(position : ℤ)+offset then ((position : ℤ)+offset).toNat else position

variable {locals : List (List UInt32)}

/-- The output index that worker `w` computes. -/
def workerIndex (locals : List (List UInt32)) (w : ℕ) : ℤ :=
  outputIndex ((locals.take w).map List.length)

/-- A worker goes on to its next call, with the file as that call left it. -/
def State.advance (s : State locals) (w : Fin locals.length) (file : File) (stage : Stage) :
    State locals :=
  {file := file,workers := Function.update s.workers w stage}

/-- One call of a worker on the file. -/
def step (w : Fin locals.length) (s : State locals) : Option (State locals) :=
  match s.workers w with
  | .opening => some (s.advance w [] (.seeking 0))
  | .seeking position =>
    some (s.advance w s.file
      (.writing 0 (lseekCur position (seekOffset (workerIndex locals w)))))
  | .writing ii position =>
    match (locals.get w)[ii]? with
    | some element =>
      some (s.advance w (writeAt s.file position (leBytes 4 element.toNat))
        (.writing (ii+1) (position+4)))
    | none => some (s.advance w s.file .closed)
  | .closed => none

/-- All workers pass the barrier before any of them touches the file. -/
def begin (locals : List (List UInt32)) : State locals :=
  {file := mainHeader,workers := fun _ => .opening}

/-- All workers have closed the file. -/
def Finished (s : State locals) : Prop := ∀ w, s.workers w=.closed

/-- What `tools/check-sorted` reads: the count as an 8-byte long, then the
arrays in worker order. -/
def sortedFile (locals : List (List UInt32)) : File :=
  leBytes 8 locals.flatten.length++records 4 (locals.flatten.map UInt32.toNat)

/-! ## How far a worker writes -/

/-- Floats in the arrays before a worker's. -/
def before (locals : List (List UInt32)) (w : ℕ) : ℕ := (locals.take w).flatten.length

/-- A worker's part ends within the data. -/
theorem before_add_le (w : Fin locals.length) :
    before locals w+(locals.get w).length≤locals.flatten.length := by
  have hsplit : locals=locals.take w++(locals.get w::locals.drop (w+1)) := by
    rw [List.get_eq_getElem,←List.drop_eq_getElem_cons w.isLt,List.take_append_drop]
  have hlen := congrArg (fun l => l.flatten.length) hsplit
  simp only [List.flatten_append,List.flatten_cons,List.length_append] at hlen
  rw [before]
  omega

/-- The conversion to an int does not go up. -/
theorem wrap32_le {value : ℤ} (h : -2147483648≤value) : wrap32 value≤value := by
  rw [wrap32_eq_bmod]
  unfold Int.bmod
  dsimp only
  split <;> omega

/-- An index that wraps around is an int and falls short of the true one. -/
theorem outputIndex_bounds (sizes : List ℕ) :
    -2147483648≤outputIndex sizes ∧ outputIndex sizes≤(sizes.sum : ℤ) := by
  have hfold : ∀ (sizes : List ℕ) (jj : ℤ), -2147483648≤jj →
      -2147483648 ≤ sizes.foldl (fun (jj : ℤ) (size : ℕ) => wrap32 (jj+size)) jj ∧
        sizes.foldl (fun (jj : ℤ) (size : ℕ) => wrap32 (jj+size)) jj≤jj+(sizes.sum : ℤ) := by
    intro sizes
    induction sizes with
    | nil =>
      intro jj hjj
      simpa using hjj
    | cons size rest ih =>
      intro jj hjj
      obtain ⟨hlow,hhigh⟩ := ih (wrap32 (jj+size)) (wrap32_range _).1
      have hle : wrap32 (jj+size)≤jj+size := wrap32_le (by omega)
      rw [List.foldl_cons,List.sum_cons,Nat.cast_add]
      omega
  have h := hfold sizes 0 (by omega)
  rw [outputIndex]
  omega

/-- The seek goes to the place of the index, four bytes into the file. -/
theorem seekOffset_eq (jj : ℤ) : seekOffset jj=4*wrap32 (jj+1) := by
  have hrange := wrap32_range (jj+1)
  have hmod : wrap32 (jj+1)%18446744073709551616*4%18446744073709551616=
      4*wrap32 (jj+1)%18446744073709551616 := by omega
  rw [seekOffset,←Int.emod_bmod,Nat.cast_ofNat,hmod]
  rw [show (18446744073709551616 : ℤ)=((18446744073709551616 : ℕ) : ℤ) from rfl,Int.emod_bmod]
  exact Int.bmod_eq_of_le (by omega) (by omega)

/-- The seek does not go past the true place of the worker's part. -/
theorem seek_le (w : ℕ) :
    lseekCur 0 (seekOffset (workerIndex locals w))≤4*(before locals w+1) := by
  obtain ⟨hlow,hindex⟩ := outputIndex_bounds ((locals.take w).map List.length)
  have hwrap : wrap32 (outputIndex ((locals.take w).map List.length)+1)≤
      outputIndex ((locals.take w).map List.length)+1 := wrap32_le (by omega)
  have hsum : ((locals.take w).map List.length).sum=before locals w := by
    rw [before,List.length_flatten]
  rw [hsum] at hindex
  rw [seekOffset_eq,lseekCur,workerIndex]
  split <;> omega

/-- Where a worker may write next. -/
def StageBound (locals : List (List UInt32)) (w : Fin locals.length) : Stage → Prop
  | .opening => True
  | .seeking position => position=0
  | .writing ii position => position≤4*(before locals w+1)+4*ii
  | .closed => True

/-- The file ends before the data of a sorted file would. -/
structure Short (s : State locals) : Prop where
  /-- The file has room for a 4-byte header and the data. -/
  length_le : s.file.length≤4+4*locals.flatten.length
  /-- No worker is past its part. -/
  bounded : ∀ w, StageBound locals w (s.workers w)

/-- Moving one worker to a bounded stage keeps the file short. -/
theorem Short.advance {s : State locals} (h : Short s) {w : Fin locals.length} {file : File}
    {stage : Stage} (hf : file.length≤4+4*locals.flatten.length)
    (hs : StageBound locals w stage) : Short (s.advance w file stage) := by
  refine ⟨hf,fun u => ?_⟩
  by_cases hu : u=w
  · subst hu
    simpa only [State.advance,Function.update_self] using hs
  · simpa only [State.advance,Function.update_of_ne hu] using h.bounded u

/-- Every call keeps the file short. -/
theorem short_step {s next : State locals} {w : Fin locals.length} (h : Short s)
    (hs : step w s=some next) : Short next := by
  have hbound := h.bounded w
  cases hstage : s.workers w with
  | opening =>
    simp only [step,hstage,Option.some.injEq] at hs
    subst hs
    exact h.advance (Nat.zero_le _) rfl
  | seeking position =>
    rw [hstage] at hbound
    obtain rfl : position=0 := hbound
    simp only [step,hstage,Option.some.injEq] at hs
    subst hs
    exact h.advance h.length_le (seek_le w)
  | writing ii position =>
    rw [hstage] at hbound
    change position≤4*(before locals w+1)+4*ii at hbound
    cases helement : (locals.get w)[ii]? with
    | none =>
      simp only [step,hstage,helement,Option.some.injEq] at hs
      subst hs
      exact h.advance h.length_le trivial
    | some element =>
      obtain ⟨hii,-⟩ := List.getElem?_eq_some_iff.mp helement
      have hpart := before_add_le w
      have hlen := h.length_le
      simp only [step,hstage,helement,Option.some.injEq] at hs
      subst hs
      refine h.advance ?_ ?_
      · rw [length_writeAt,length_leBytes]
        omega
      · change position+4≤4*(before locals w+1)+4*(ii+1)
        omega
  | closed =>
    simp only [step,hstage,reduceCtorEq] at hs

/-- The header alone is short. -/
theorem short_begin : Short (begin locals) := by
  refine ⟨?_,fun _ => trivial⟩
  change (writeAt [] 0 (leBytes 4 fileSizePattern)).length≤_
  rw [length_writeAt,length_leBytes]
  simp only [List.length_nil]
  omega

/-- In every order of calls the file stays short. -/
theorem short_of_reachable {s : State locals} (h : Reachable step Anything (begin locals) s) :
    Short s :=
  h.invariant Short short_begin (fun _ _ _ hshort _ hs => short_step hshort hs)

/-! ## Every order of calls can be completed -/

/-- The calls a worker has left. -/
def remaining (locals : List (List UInt32)) (w : Fin locals.length) : Stage → ℕ
  | .opening => (locals.get w).length+3
  | .seeking _ => (locals.get w).length+2
  | .writing ii _ => (locals.get w).length-ii+1
  | .closed => 0

/-- The calls all workers have left. -/
def allRemaining (s : State locals) : ℕ := ∑ w, remaining locals w (s.workers w)

/-- A worker that moves on leaves fewer calls in all. -/
theorem allRemaining_advance {s : State locals} {w : Fin locals.length} {file : File}
    {stage : Stage} (h : remaining locals w stage<remaining locals w (s.workers w)) :
    allRemaining (s.advance w file stage)<allRemaining s := by
  refine Finset.sum_lt_sum (fun u _ => ?_) ⟨w,Finset.mem_univ w,?_⟩
  · by_cases hu : u=w
    · subst hu
      simpa only [State.advance,Function.update_self] using h.le
    · simp only [State.advance,Function.update_of_ne hu,le_refl]
  · simpa only [State.advance,Function.update_self] using h

/-- A worker that has not closed the file can make its next call. -/
theorem step_progress {s : State locals} {w : Fin locals.length} (h : s.workers w≠.closed) :
    ∃ next, step w s=some next ∧ allRemaining next<allRemaining s := by
  cases hstage : s.workers w with
  | opening =>
    refine ⟨_,by simp only [step,hstage]; rfl,allRemaining_advance ?_⟩
    simp only [hstage,remaining]
    omega
  | seeking position =>
    refine ⟨_,by simp only [step,hstage]; rfl,allRemaining_advance ?_⟩
    simp only [hstage,remaining]
    omega
  | writing ii position =>
    cases helement : (locals.get w)[ii]? with
    | none =>
      refine ⟨_,by simp only [step,hstage,helement]; rfl,allRemaining_advance ?_⟩
      simp only [hstage,remaining]
      omega
    | some element =>
      obtain ⟨hii,-⟩ := List.getElem?_eq_some_iff.mp helement
      refine ⟨_,by simp only [step,hstage,helement]; rfl,allRemaining_advance ?_⟩
      simp only [hstage,remaining]
      omega
  | closed => exact absurd hstage h

/-- The workers can always finish, and in whatever order their calls come the
file they leave is never the count followed by their arrays. -/
theorem output_never_sorted_file (locals : List (List UInt32)) :
    (∃ s, Reachable step Anything (begin locals) s ∧ Finished s) ∧
      ∀ s, Reachable step Anything (begin locals) s → Finished s → s.file≠sortedFile locals := by
  constructor
  · refine Reachable.exists_done Finished allRemaining (fun s hs => ?_)
    obtain ⟨w,hw⟩ := not_forall.mp hs
    obtain ⟨next,hnext,hless⟩ := step_progress hw
    exact ⟨w,next,trivial,hnext,hless⟩
  · intro s hs _ hfile
    have hshort := (short_of_reachable hs).length_le
    have hlen : (sortedFile locals).length=8+4*locals.flatten.length := by
      rw [sortedFile,List.length_append,length_leBytes,length_records,List.length_map]
    rw [hfile,hlen] at hshort
    omega

/-- One worker with the one float 1.0 leaves four zero bytes and the float. -/
theorem single_worker_file :
    ∃ s : State [[0x3f800000]], Reachable step Anything (begin [[0x3f800000]]) s ∧ Finished s ∧
      s.file=[0,0,0,0,0,0,128,63] ∧
      sortedFile [[0x3f800000]]=[1,0,0,0,0,0,0,0,0,0,128,63] := by
  have hrun : ∃ s : State [[0x3f800000]],
      follow step Anything [⟨0,by decide⟩,⟨0,by decide⟩,⟨0,by decide⟩,⟨0,by decide⟩]
        (begin [[0x3f800000]])=some s ∧ s.workers ⟨0,by decide⟩=.closed ∧
        s.file=[0,0,0,0,0,0,128,63] := ⟨_,rfl,by decide +kernel,by decide +kernel⟩
  obtain ⟨s,hs,hclosed,hfile⟩ := hrun
  refine ⟨s,reachable_of_follow hs,fun w => ?_,hfile,by decide +kernel⟩
  have hw : w=⟨0,by decide⟩ := Fin.ext (Nat.lt_one_iff.mp w.isLt)
  rw [hw]
  exact hclosed

end ComputerSystems.SortOutput
