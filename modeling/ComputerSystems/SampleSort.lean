import ComputerSystems.RangePartition
import ComputerSystems.SortOutput
import ComputerSystems.TransitionSystem
import Mathlib.Data.List.GetD
import Mathlib.Order.Interval.Finset.Nat

/-!
# The sample sort

`fill_samples` draws values at random, sorts them and takes every third as a
bound; each worker collects the values between two bounds, sorts them, stores
their number, passes the barrier and copies its values to their place in the
output, which it finds from the numbers of the workers before it. Floats are
the values of any linear order with two constants. For every order of the
workers' steps the output ends as the sorted input.
-/

namespace ComputerSystems.SampleSort

open ByteMemory RangePartition TransitionSystem

variable {α : Type} [LinearOrder α]

/-- What `main` hands to the sort. -/
structure Job (α : Type) [LinearOrder α] where
  /-- The constant 0.0. -/
  zero : α
  /-- The constant `FLT_MAX`. -/
  fltMax : α
  /-- The number of workers. -/
  workers : ℕ
  /-- The array to sort. -/
  input : List α
  /-- The constants are apart. -/
  zero_lt : zero<fltMax
  /-- There is a worker. -/
  one_le : 1≤workers
  /-- There are enough values to draw from. -/
  enough : 3*(workers-1) ≤ input.length
  /-- `main` reads the count from an int. -/
  count_int : input.length<2147483648
  /-- Every value lies between the constants. -/
  between : ∀ x∈input, zero≤x ∧ x<fltMax

/-- `compare_floats`. -/
def compareFloats (fa fb : α) : ℤ :=
  (if fa>fb then 1 else 0)-(if fa<fb then 1 else 0)

/-- `qsort_floats`. -/
def qsortFloats (xs : List α) : List α := xs.mergeSort (fun a b => compareFloats a b≤0)

/-- `ints_contains`. -/
def intsContains (arr : List ℤ) (val : ℤ) : Bool := arr.any (fun used => used=val)

/-- `floats_get`; nothing checks the index. -/
def Job.floatsGet (job : Job α) (xs : List α) (ii : ℕ) : α := xs.getD ii job.zero

/-- The loops of `copy_rand_values` over the numbers that `random` returns;
without a number to go on with there is no result. -/
def Job.copyFrom (job : Job α) (nCopy : ℕ) : List ℕ → ℕ → List ℤ → List α → Option (List α)
  | [],ii,_,dest => if ii<nCopy then none else some dest
  | random::rest,ii,used,dest =>
    if ii<nCopy then
      let inum := random%nCopy
      if intsContains used inum then Job.copyFrom job nCopy rest ii used dest
      else Job.copyFrom job nCopy rest (ii+1) (used.set ii inum)
        (dest++[job.floatsGet job.input inum])
    else some dest

/-- `copy_rand_values`. -/
def Job.copyRandValues (job : Job α) (nCopy : ℕ) (draws : List ℕ) : Option (List α) :=
  job.copyFrom nCopy draws 0 (List.replicate nCopy (-1)) []

/-- The values drawn by `fill_samples`. -/
def Job.randNum (job : Job α) : ℕ := 3*(job.workers-1)

/-- The loop of `fill_samples` over indices 1, 4, 7 and so on, with a bound on
its rounds. -/
def Job.medians (job : Job α) (rSort : List α) : ℕ → ℕ → List α
  | 0,_ => []
  | left+1,ii =>
    if ii<job.randNum then job.floatsGet rSort ii::Job.medians job rSort left (ii+3) else []

/-- `fill_samples`. -/
def Job.fillSamples (job : Job α) (draws : List ℕ) : Option (List α) :=
  (job.copyRandValues job.randNum draws).map (fun values =>
    job.zero::job.medians (qsortFloats values) job.randNum 1++[job.fltMax])

/-- The scan and the sort of `partition_worker`. -/
def Job.localArray (job : Job α) (samples : List α) (ipp : ℕ) : List α :=
  qsortFloats (job.input.filter (fun element =>
    job.floatsGet samples ipp≤element ∧ element<job.floatsGet samples (ipp+1)))

/-- Where a worker stands. -/
inductive Stage (α : Type)
  /-- Before it has stored the size of its local array. -/
  | building
  /-- In `barrier_wait`. -/
  | arrived (locals : List α)
  /-- Adding up the sizes before its own. -/
  | summing (locals : List α) (ii : ℕ) (jj : ℤ)
  /-- Copying its local array to the output. -/
  | writing (locals : List α) (ii : ℕ) (jj : ℤ)
  /-- At its end. -/
  | finished
deriving DecidableEq

/-- What the workers share, and where each stands. -/
structure State (α : Type) (workers : ℕ) where
  /-- The array `sizes`. -/
  sizes : List ℕ
  /-- The array `output`. -/
  output : List α
  /-- The workers. -/
  stages : Fin workers → Stage α

/-- A worker goes on. -/
def State.goto {n : ℕ} (s : State α n) (p : Fin n) (stage : Stage α) : State α n :=
  {s with stages := Function.update s.stages p stage}

/-- Every worker has arrived at the barrier. -/
def State.Met {n : ℕ} (s : State α n) : Prop := ∀ p, s.stages p≠.building

instance {n : ℕ} (s : State α n) : Decidable s.Met :=
  inferInstanceAs (Decidable (∀ p, s.stages p≠.building))

/-- The index that a worker writes next. -/
def State.target {n : ℕ} (s : State α n) (p : Fin n) : Option ℤ :=
  match s.stages p with
  | .writing locals ii jj => if ii<locals.length then some ((ii : ℤ)+jj) else none
  | _ => none

/-- One step of a worker; a write outside the output has no meaning. -/
def step (job : Job α) (samples : List α) (p : Fin job.workers) (s : State α job.workers) :
    Option (State α job.workers) :=
  match s.stages p with
  | .building =>
    some {sizes := s.sizes.set p (job.localArray samples p).length,
          output := s.output,
          stages := Function.update s.stages p (.arrived (job.localArray samples p))}
  | .arrived locals => if s.Met then some (s.goto p (.summing locals 0 0)) else none
  | .summing locals ii jj =>
    if ii<p then some (s.goto p (.summing locals (ii+1) (wrap32 (jj+s.sizes.getD ii 0))))
    else some (s.goto p (.writing locals 0 jj))
  | .writing locals ii jj =>
    match locals[ii]? with
    | some element =>
      if 0≤(ii : ℤ)+jj ∧ (ii : ℤ)+jj<s.output.length then
        some {sizes := s.sizes,
              output := s.output.set ((ii : ℤ)+jj).toNat element,
              stages := Function.update s.stages p (.writing locals (ii+1) jj)}
      else none
    | none => some (s.goto p .finished)
  | .finished => none

/-- The arrays as `main` makes them, before any worker runs. -/
def begin (job : Job α) : State α job.workers where
  sizes := List.replicate job.workers 0
  output := List.replicate job.input.length job.zero
  stages := fun _ => .building

/-- Every worker has ended. -/
def Finished {n : ℕ} (s : State α n) : Prop := ∀ p, s.stages p=.finished

/-! ## Drawing values -/

/-- The array `used` after some picks. -/
def usedAfter (nCopy : ℕ) (picks : List ℕ) : List ℤ :=
  picks.map Nat.cast++List.replicate (nCopy-picks.length) (-1)

/-- An index was picked before. -/
theorem intsContains_usedAfter {nCopy : ℕ} {picks : List ℕ} {inum : ℕ} :
    intsContains (usedAfter nCopy picks) inum=true ↔ inum∈picks := by
  unfold intsContains usedAfter
  rw [List.any_eq_true]
  constructor
  · rintro ⟨used,hused,heq⟩
    have heq : used=(inum : ℤ) := of_decide_eq_true heq
    rcases List.mem_append.mp hused with hmem|hmem
    · obtain ⟨pick,hpick,hcast⟩ := List.mem_map.mp hmem
      have hsame : pick=inum := by omega
      exact hsame ▸ hpick
    · have hminus := List.eq_of_mem_replicate hmem
      omega
  · intro hmem
    exact ⟨inum,List.mem_append_left _ (List.mem_map.mpr ⟨inum,hmem,rfl⟩),decide_eq_true rfl⟩

/-- A pick is written to the next place. -/
theorem set_usedAfter {nCopy : ℕ} {picks : List ℕ} (h : picks.length<nCopy) (inum : ℕ) :
    (usedAfter nCopy picks).set picks.length inum=usedAfter nCopy (picks++[inum]) := by
  unfold usedAfter
  obtain ⟨left,hleft⟩ : ∃ left, nCopy-picks.length=left+1 := ⟨nCopy-picks.length-1,by omega⟩
  have hless : nCopy-(picks++[inum]).length=left := by
    rw [List.length_append,List.length_singleton]
    omega
  rw [List.set_append_right _ _ (by rw [List.length_map]),List.length_map,Nat.sub_self,hleft,hless]
  rw [List.replicate_succ,List.set_cons_zero,List.map_append,List.map_singleton,
    List.append_assoc,List.singleton_append]

/-- Different picks, as many as there are indices, are all of them. -/
theorem perm_range_of_full {nCopy : ℕ} {picks : List ℕ} (hnodup : picks.Nodup)
    (hlt : ∀ pick∈picks, pick<nCopy) (hfull : nCopy≤picks.length) :
    picks.Perm (List.range nCopy) := by
  have hsub : picks.Subperm (List.range nCopy) :=
    hnodup.subperm (fun pick hpick => List.mem_range.mpr (hlt pick hpick))
  exact hsub.perm_of_length_le (by rw [List.length_range]; exact hfull)

/-- Picks that miss no index are as many as there are indices. -/
theorem full_of_all {nCopy : ℕ} {picks : List ℕ} (hall : ∀ inum<nCopy, inum∈picks) :
    nCopy≤picks.length := by
  have hsub : (List.range nCopy).Subperm picks :=
    List.nodup_range.subperm (fun inum hinum => hall inum (List.mem_range.mp hinum))
  have hle := hsub.length_le
  rwa [List.length_range] at hle

/-- The run of `copy_rand_values` after some picks. -/
def Job.copyAfter (job : Job α) (nCopy : ℕ) (draws picks : List ℕ) : Option (List α) :=
  job.copyFrom nCopy draws picks.length (usedAfter nCopy picks) (picks.map (job.floatsGet job.input))

/-- With all indices picked the copy is made. -/
theorem copyAfter_full (job : Job α) {nCopy : ℕ} (draws : List ℕ) {picks : List ℕ}
    (h : nCopy≤picks.length) :
    job.copyAfter nCopy draws picks=some (picks.map (job.floatsGet job.input)) := by
  cases draws with
  | nil =>
    rw [Job.copyAfter,Job.copyFrom,if_neg (Nat.not_lt.mpr h)]
  | cons random rest =>
    rw [Job.copyAfter,Job.copyFrom,if_neg (Nat.not_lt.mpr h)]

/-- A number that was drawn before is passed over, a fresh one is picked. -/
theorem copyAfter_cons (job : Job α) {nCopy : ℕ} (random : ℕ) (rest : List ℕ) {picks : List ℕ}
    (h : picks.length<nCopy) :
    job.copyAfter nCopy (random::rest) picks=
      if random%nCopy∈picks then job.copyAfter nCopy rest picks
      else job.copyAfter nCopy rest (picks++[random%nCopy]) := by
  rw [Job.copyAfter,Job.copyFrom,if_pos h]
  dsimp only
  by_cases hmem : random%nCopy∈picks
  · rw [if_pos hmem,if_pos (intsContains_usedAfter.mpr hmem)]
    rfl
  · rw [if_neg hmem,if_neg (fun hcontains => hmem (intsContains_usedAfter.mp hcontains)),
      set_usedAfter h,Job.copyAfter,List.length_append,List.length_singleton,List.map_append,
      List.map_singleton]

/-- Picks are made until every index is picked: by induction on the numbers that
are drawn. -/
theorem copyAfter_spec (job : Job α) (nCopy : ℕ) (draws : List ℕ) :
    ∀ picks : List ℕ, picks.Nodup → (∀ pick∈picks, pick<nCopy) →
      ((∀ inum<nCopy, inum∈picks ∨ ∃ random∈draws, random%nCopy=inum) ∧
        ∃ all : List ℕ, all.Perm (List.range nCopy) ∧
          job.copyAfter nCopy draws picks=some (all.map (job.floatsGet job.input))) ∨
      ((∃ inum<nCopy, inum∉picks ∧ ∀ random∈draws, random%nCopy≠inum) ∧
        job.copyAfter nCopy draws picks=none) := by
  induction draws with
  | nil =>
    intro picks hnodup hlt
    by_cases hfull : nCopy≤picks.length
    · have hperm := perm_range_of_full hnodup hlt hfull
      refine Or.inl ⟨fun inum hinum => Or.inl ?_,picks,hperm,copyAfter_full job [] hfull⟩
      exact hperm.mem_iff.mpr (List.mem_range.mpr hinum)
    · refine Or.inr ⟨?_,?_⟩
      · by_contra hnone
        refine hfull (full_of_all (fun inum hinum => ?_))
        by_contra hmissing
        exact hnone ⟨inum,hinum,hmissing,fun random hrandom => absurd hrandom List.not_mem_nil⟩
      · rw [Job.copyAfter,Job.copyFrom,if_pos (Nat.lt_of_not_le hfull)]
  | cons random rest ih =>
    intro picks hnodup hlt
    by_cases hfull : nCopy≤picks.length
    · have hperm := perm_range_of_full hnodup hlt hfull
      refine Or.inl ⟨fun inum hinum => Or.inl ?_,picks,hperm,copyAfter_full job _ hfull⟩
      exact hperm.mem_iff.mpr (List.mem_range.mpr hinum)
    · have hless := Nat.lt_of_not_le hfull
      have hpick : random%nCopy<nCopy := Nat.mod_lt _ (by omega)
      rw [copyAfter_cons job random rest hless]
      by_cases hmem : random%nCopy∈picks
      · rw [if_pos hmem]
        rcases ih picks hnodup hlt with ⟨hall,hdone⟩|⟨⟨inum,hinum,hmissing,hnever⟩,hnone⟩
        · refine Or.inl ⟨fun inum hinum => ?_,hdone⟩
          rcases hall inum hinum with hin|⟨later,hlater,heq⟩
          · exact Or.inl hin
          · exact Or.inr ⟨later,List.mem_cons_of_mem random hlater,heq⟩
        · refine Or.inr ⟨⟨inum,hinum,hmissing,?_⟩,hnone⟩
          intro later hlater heq
          rcases List.mem_cons.mp hlater with rfl|hlater
          · exact hmissing (heq ▸ hmem)
          · exact hnever later hlater heq
      · rw [if_neg hmem]
        have hnodup' : (picks++[random%nCopy]).Nodup :=
          List.nodup_append_comm.mp (List.nodup_cons.mpr ⟨hmem,hnodup⟩)
        have hlt' : ∀ pick∈picks++[random%nCopy], pick<nCopy := by
          intro pick hmem'
          rcases List.mem_append.mp hmem' with hin|hin
          · exact hlt pick hin
          · rw [List.mem_singleton.mp hin]
            exact hpick
        rcases ih _ hnodup' hlt' with ⟨hall,hdone⟩|⟨⟨inum,hinum,hmissing,hnever⟩,hnone⟩
        · refine Or.inl ⟨fun inum hinum => ?_,hdone⟩
          rcases hall inum hinum with hin|⟨later,hlater,heq⟩
          · rcases List.mem_append.mp hin with hin|hin
            · exact Or.inl hin
            · exact Or.inr ⟨random,List.mem_cons_self,(List.mem_singleton.mp hin).symm⟩
          · exact Or.inr ⟨later,List.mem_cons_of_mem random hlater,heq⟩
        · refine Or.inr ⟨⟨inum,hinum,fun hin => hmissing (List.mem_append_left _ hin),?_⟩,hnone⟩
          intro later hlater heq
          rcases List.mem_cons.mp hlater with rfl|hlater
          · exact hmissing (List.mem_append_right _ (List.mem_singleton.mpr heq.symm))
          · exact hnever later hlater heq

/-- The copy is made exactly when every index was drawn, and it is made of the
first values in some order. -/
theorem copyRandValues_spec (job : Job α) (nCopy : ℕ) (draws : List ℕ) :
    ((job.copyRandValues nCopy draws).isSome ↔ ∀ inum<nCopy, ∃ random∈draws, random%nCopy=inum) ∧
      ∀ values, job.copyRandValues nCopy draws=some values →
        values.Perm ((List.range nCopy).map (job.floatsGet job.input)) := by
  have hspec := copyAfter_spec job nCopy draws [] List.nodup_nil
    (fun pick hpick => absurd hpick List.not_mem_nil)
  have hstart : job.copyAfter nCopy draws []=job.copyRandValues nCopy draws := rfl
  rw [hstart] at hspec
  rcases hspec with ⟨hall,all,hperm,hdone⟩|⟨⟨inum,hinum,_,hnever⟩,hnone⟩
  · rw [hdone]
    refine ⟨⟨fun _ inum hinum => ?_,fun _ => rfl⟩,?_⟩
    · rcases hall inum hinum with hin|hdrawn
      · exact absurd hin List.not_mem_nil
      · exact hdrawn
    · intro values hvalues
      cases hvalues
      exact hperm.map _
  · rw [hnone]
    refine ⟨⟨fun hsome => absurd hsome Bool.false_ne_true,fun hall => ?_⟩,?_⟩
    · obtain ⟨random,hrandom,heq⟩ := hall inum hinum
      exact absurd heq (hnever random hrandom)
    · intro values hvalues
      cases hvalues

/-! ## The samples -/

/-- The comparison orders the values. -/
theorem compareFloats_le {a b : α} : compareFloats a b≤0 ↔ a≤b := by
  unfold compareFloats
  rcases lt_trichotomy a b with hlt|heq|hgt
  · rw [if_neg (not_lt_of_gt hlt),if_pos hlt]
    exact ⟨fun _ => hlt.le,fun _ => by decide⟩
  · rw [heq,if_neg (lt_irrefl b)]
    exact ⟨fun _ => le_refl b,fun _ => by decide⟩
  · rw [if_pos hgt,if_neg (not_lt_of_gt hgt)]
    exact ⟨fun h => absurd h (by decide),fun h => absurd h (not_le_of_gt hgt)⟩

/-- Sorting keeps the values. -/
theorem qsortFloats_perm (xs : List α) : (qsortFloats xs).Perm xs := List.mergeSort_perm xs _

/-- Sorted values do not fall. -/
theorem qsortFloats_sorted (xs : List α) : (qsortFloats xs).Pairwise (fun x y => x≤y) := by
  have htrans : ∀ a b c : α, decide (compareFloats a b≤0)=true →
      decide (compareFloats b c≤0)=true → decide (compareFloats a c≤0)=true := by
    intro a b c hab hbc
    rw [decide_eq_true_eq,compareFloats_le] at hab hbc ⊢
    exact hab.trans hbc
  have htotal : ∀ a b : α,
      (decide (compareFloats a b≤0) || decide (compareFloats b a≤0))=true := by
    intro a b
    rw [Bool.or_eq_true,decide_eq_true_eq,decide_eq_true_eq,compareFloats_le,compareFloats_le]
    exact le_total a b
  refine (List.pairwise_mergeSort htrans htotal xs).imp ?_
  intro a b hab
  exact compareFloats_le.mp (of_decide_eq_true hab)

/-- The rounds of the loop over the medians: by induction on the rounds. -/
theorem medians_eq (job : Job α) (rSort : List α) (left : ℕ) : ∀ k, k≤job.workers-1 →
    job.workers-1-k≤left →
    job.medians rSort left (3*k+1)=
      (List.range' k (job.workers-1-k)).map (fun i => job.floatsGet rSort (3*i+1)) := by
  induction left with
  | zero =>
    intro k hk hleft
    have hnone : job.workers-1-k=0 := by omega
    rw [hnone]
    rfl
  | succ left ih =>
    intro k hk hleft
    unfold Job.medians
    by_cases hlast : k=job.workers-1
    · have hnone : job.workers-1-k=0 := by omega
      rw [if_neg (by unfold Job.randNum; omega),hnone]
      rfl
    · obtain ⟨more,hmore⟩ : ∃ more, job.workers-1-k=more+1 := ⟨job.workers-1-k-1,by omega⟩
      have hrest := ih (k+1) (by omega) (by omega)
      have hcount : job.workers-1-(k+1)=more := by omega
      rw [hcount] at hrest
      rw [if_pos (by unfold Job.randNum; omega),hmore,List.range'_succ,List.map_cons]
      rw [show 3*k+1+3=3*(k+1)+1 by omega,hrest]

/-- The samples: the constants around every third of the sorted values. -/
theorem fillSamples_eq {job : Job α} {draws : List ℕ} {samples : List α}
    (h : job.fillSamples draws=some samples) :
    ∃ rSort : List α, rSort.length=job.randNum ∧ (∀ x∈rSort, x∈job.input) ∧
      rSort.Pairwise (fun x y => x≤y) ∧
      samples=job.zero::(List.range (job.workers-1)).map (fun i => job.floatsGet rSort (3*i+1))++
        [job.fltMax] := by
  obtain ⟨values,hvalues,rfl⟩ := Option.map_eq_some_iff.mp h
  have hperm := (copyRandValues_spec job job.randNum draws).2 values hvalues
  have hsorted := qsortFloats_perm values
  refine ⟨qsortFloats values,?_,?_,qsortFloats_sorted values,?_⟩
  · rw [(hsorted.trans hperm).length_eq,List.length_map,List.length_range]
  · intro x hx
    obtain ⟨i,hi,rfl⟩ := List.mem_map.mp ((hsorted.trans hperm).mem_iff.mp hx)
    have hlt : i<job.input.length := (List.mem_range.mp hi).trans_le job.enough
    rw [Job.floatsGet,List.getD_eq_getElem _ _ hlt]
    exact List.getElem_mem hlt
  · have hmedians := medians_eq job (qsortFloats values) job.randNum 0 (Nat.zero_le _)
      (by unfold Job.randNum; omega)
    rw [Nat.mul_zero,Nat.zero_add,Nat.sub_zero,←List.range_eq_range'] at hmedians
    rw [hmedians]

/-- The first bound is 0. -/
theorem bound_zero {job : Job α} {draws : List ℕ} {samples : List α}
    (h : job.fillSamples draws=some samples) : job.floatsGet samples 0=job.zero := by
  obtain ⟨rSort,-,-,-,rfl⟩ := fillSamples_eq h
  rfl

/-- The last bound is `FLT_MAX`. -/
theorem bound_last {job : Job α} {draws : List ℕ} {samples : List α}
    (h : job.fillSamples draws=some samples) : job.floatsGet samples job.workers=job.fltMax := by
  obtain ⟨rSort,-,-,-,rfl⟩ := fillSamples_eq h
  have hone := job.one_le
  obtain ⟨n,hn⟩ : ∃ n, job.workers=n+1 := ⟨job.workers-1,by omega⟩
  rw [hn,Nat.add_sub_cancel,Job.floatsGet,List.cons_append,List.getD_cons_succ]
  rw [List.getD_append_right _ _ _ _ (by rw [List.length_map,List.length_range]),
    List.length_map,List.length_range,Nat.sub_self]
  rfl

/-- The bounds between are the medians. -/
theorem bound_median {job : Job α} {rSort : List α} {i : ℕ} (hi : i<job.workers-1) :
    job.floatsGet (job.zero::(List.range (job.workers-1)).map
      (fun i => job.floatsGet rSort (3*i+1))++[job.fltMax]) (i+1)=job.floatsGet rSort (3*i+1) := by
  have hlength : i<((List.range (job.workers-1)).map
      (fun i => job.floatsGet rSort (3*i+1))).length := by
    rwa [List.length_map,List.length_range]
  rw [Job.floatsGet,List.cons_append,List.getD_cons_succ,List.getD_append _ _ _ _ hlength,
    List.getD_eq_getElem _ _ hlength,List.getElem_map,List.getElem_range]

/-- The bounds do not fall. -/
theorem bounds_rising {job : Job α} {draws : List ℕ} {samples : List α}
    (h : job.fillSamples draws=some samples) : Rising (job.floatsGet samples) job.workers := by
  have hfirst := bound_zero h
  have hlast := bound_last h
  obtain ⟨rSort,hlength,hmem,hsorted,rfl⟩ := fillSamples_eq h
  have hvalue : ∀ i, i<job.randNum → job.floatsGet rSort i∈job.input := by
    intro i hi
    rw [Job.floatsGet,List.getD_eq_getElem _ _ (by omega)]
    exact hmem _ (List.getElem_mem _)
  have hrand : job.randNum=3*(job.workers-1) := rfl
  intro p hp
  by_cases hlastp : p+1=job.workers
  · rw [hlastp,hlast]
    by_cases hp0 : p=0
    · rw [hp0,hfirst]
      exact job.zero_lt.le
    · obtain ⟨i,rfl⟩ : ∃ i, p=i+1 := ⟨p-1,by omega⟩
      rw [bound_median (by omega)]
      exact (job.between _ (hvalue _ (by omega))).2.le
  · rw [bound_median (i:=p) (by omega)]
    by_cases hp0 : p=0
    · rw [hp0,hfirst]
      exact (job.between _ (hvalue _ (by omega))).1
    · obtain ⟨i,rfl⟩ : ∃ i, p=i+1 := ⟨p-1,by omega⟩
      have hi : 3*i+1<rSort.length := by omega
      have hj : 3*(i+1)+1<rSort.length := by omega
      rw [bound_median (by omega),Job.floatsGet,Job.floatsGet,List.getD_eq_getElem _ _ hi,
        List.getD_eq_getElem _ _ hj]
      exact List.pairwise_iff_getElem.mp hsorted _ _ hi hj (by omega)

/-! ## The parts -/

/-- The values of the first workers, one part after the other. -/
def Job.parts (job : Job α) (samples : List α) (p : ℕ) : List α :=
  ((List.range p).map (job.localArray samples)).flatten

/-- The number of values before a worker's own. -/
def Job.offset (job : Job α) (samples : List α) (p : ℕ) : ℕ := (job.parts samples p).length

/-- A worker's part holds the values between its bounds. -/
theorem localArray_perm (job : Job α) (samples : List α) (p : ℕ) :
    (job.localArray samples p).Perm
      (job.input.filter (fun x => InCell (job.floatsGet samples) p x)) :=
  qsortFloats_perm _

/-- The parts together are the sorted input. -/
theorem parts_spec {job : Job α} {draws : List ℕ} {samples : List α}
    (h : job.fillSamples draws=some samples) :
    (job.parts samples job.workers).Perm job.input ∧
      (job.parts samples job.workers).Pairwise (fun x y => x≤y) := by
  have hlow : ∀ x∈job.input, job.floatsGet samples 0≤x := by
    intro x hx
    rw [bound_zero h]
    exact (job.between x hx).1
  have hrising := bounds_rising h
  constructor
  · have hperm := parts_perm hlow job.workers hrising (fun p _ => localArray_perm job samples p)
    refine hperm.trans (List.Perm.of_eq (List.filter_eq_self.mpr (fun x hx => ?_)))
    rw [decide_eq_true_eq,bound_last h]
    exact (job.between x hx).2
  · exact parts_sorted hlow job.workers hrising (fun p _ => localArray_perm job samples p)
      (fun p _ => qsortFloats_sorted _)

/-- One part more. -/
theorem parts_succ (job : Job α) (samples : List α) (p : ℕ) :
    job.parts samples (p+1)=job.parts samples p++job.localArray samples p := by
  rw [Job.parts,List.range_succ,List.map_append,List.flatten_append,List.map_singleton,
    List.flatten_singleton]
  rfl

/-- Later parts stand behind earlier ones: by induction on the later one. -/
theorem parts_prefix (job : Job α) (samples : List α) {p : ℕ} :
    ∀ q, p≤q → ∃ rest, job.parts samples q=job.parts samples p++rest := by
  intro q hpq
  induction q,hpq using Nat.le_induction with
  | base => exact ⟨[],(List.append_nil _).symm⟩
  | succ q hpq ih =>
    obtain ⟨rest,hrest⟩ := ih
    exact ⟨rest++job.localArray samples q,by rw [parts_succ,hrest,List.append_assoc]⟩

/-- A worker's place ends where the next one's begins. -/
theorem offset_succ (job : Job α) (samples : List α) (p : ℕ) :
    job.offset samples (p+1)=job.offset samples p+(job.localArray samples p).length := by
  rw [Job.offset,parts_succ,List.length_append]
  rfl

/-- Places do not go back. -/
theorem offset_mono (job : Job α) (samples : List α) {p q : ℕ} (h : p≤q) :
    job.offset samples p≤job.offset samples q := by
  obtain ⟨rest,hrest⟩ := parts_prefix job samples q h
  rw [Job.offset,Job.offset,hrest,List.length_append]
  omega

/-- The places end with the input. -/
theorem offset_workers {job : Job α} {draws : List ℕ} {samples : List α}
    (h : job.fillSamples draws=some samples) :
    job.offset samples job.workers=job.input.length := (parts_spec h).1.length_eq

/-- A worker's place lies inside the output. -/
theorem offset_le {job : Job α} {draws : List ℕ} {samples : List α}
    (h : job.fillSamples draws=some samples) {p : ℕ} (hp : p<job.workers) :
    job.offset samples p+(job.localArray samples p).length≤job.input.length := by
  rw [←offset_succ,←offset_workers h]
  exact offset_mono job samples hp

/-- Workers have no index in common. -/
theorem index_ne (job : Job α) (samples : List α) {p q k l : ℕ} (h : p≠q)
    (hk : k<(job.localArray samples p).length) (hl : l<(job.localArray samples q).length) :
    job.offset samples p+k≠job.offset samples q+l := by
  have hp := offset_succ job samples p
  have hq := offset_succ job samples q
  rcases Nat.lt_or_gt_of_ne h with hlt|hgt
  · have hle := offset_mono job samples (Nat.succ_le_of_lt hlt)
    rw [Nat.succ_eq_add_one] at hle
    omega
  · have hle := offset_mono job samples (Nat.succ_le_of_lt hgt)
    rw [Nat.succ_eq_add_one] at hle
    omega

/-! ## The workers -/

/-- The first values of a worker's part are at their place in the output. -/
def Job.Placed (job : Job α) (samples output : List α) (p ii : ℕ) : Prop :=
  ∀ k < ii, output[job.offset samples p+k]?=(job.localArray samples p)[k]?

/-- What a worker's stage says about what it holds. -/
def Job.Follows (job : Job α) (samples output : List α) (met : Prop) (p : ℕ) : Stage α → Prop
  | .building => True
  | .arrived locals => locals=job.localArray samples p
  | .summing locals ii jj =>
    met ∧ locals=job.localArray samples p ∧ ii≤p ∧ jj=job.offset samples ii
  | .writing locals ii jj =>
    met ∧ locals=job.localArray samples p ∧ ii≤locals.length ∧ jj=job.offset samples p ∧
      job.Placed samples output p ii
  | .finished => met ∧ job.Placed samples output p (job.localArray samples p).length

/-- What holds of every reachable state. -/
structure Sound (job : Job α) (samples : List α) (s : State α job.workers) : Prop where
  /-- The length of `sizes`. -/
  sizes_length : s.sizes.length=job.workers
  /-- The length of `output`. -/
  output_length : s.output.length=job.input.length
  /-- The sizes of the workers that have arrived. -/
  sizes : ∀ p, s.stages p≠.building → s.sizes[p.val]?=some (job.localArray samples p).length
  /-- The workers hold what their stages say. -/
  stages : ∀ p : Fin job.workers, job.Follows samples s.output s.Met p (s.stages p)

/-- What others write does not concern a worker. -/
theorem Job.Follows.mono {job : Job α} {samples output output' : List α} {met met' : Prop} {p : ℕ}
    {stage : Stage α} (h : job.Follows samples output met p stage) (hmet : met → met')
    (hsame : ∀ k<(job.localArray samples p).length,
      output'[job.offset samples p+k]?=output[job.offset samples p+k]?) :
    job.Follows samples output' met' p stage := by
  cases stage with
  | building => trivial
  | arrived locals => exact h
  | summing locals ii jj => exact ⟨hmet h.1,h.2⟩
  | writing locals ii jj =>
    obtain ⟨h1,h2,h3,h4,h5⟩ := h
    refine ⟨hmet h1,h2,h3,h4,fun k hk => ?_⟩
    rw [hsame k (by rw [h2] at h3; omega),h5 k hk]
  | finished =>
    refine ⟨hmet h.1,fun k hk => ?_⟩
    rw [hsame k hk,h.2 k hk]

/-- One worker goes on and keeps out of the others' places. -/
theorem Sound.advance {job : Job α} {samples : List α} {s : State α job.workers}
    (h : Sound job samples s) (p : Fin job.workers) {sizes : List ℕ} {output : List α}
    {stage : Stage α} (hstage : stage≠.building) (hsizes : sizes.length=job.workers)
    (hothers : ∀ q : Fin job.workers, q≠p → sizes[q.val]?=s.sizes[q.val]?)
    (hown : sizes[p.val]?=some (job.localArray samples p).length)
    (houtput : output.length=job.input.length)
    (hkeep : ∀ q : Fin job.workers, q≠p → ∀ k<(job.localArray samples q).length,
      output[job.offset samples q+k]?=s.output[job.offset samples q+k]?)
    (hfollows : ∀ met, (s.Met → met) → job.Follows samples output met p stage) :
    Sound job samples {sizes := sizes,output := output,stages := Function.update s.stages p stage} := by
  have hmet : s.Met → State.Met {sizes := sizes,output := output,
                                 stages := Function.update s.stages p stage} := by
    intro hall q
    by_cases hq : q=p
    · subst hq
      simpa using hstage
    · simpa [Function.update_of_ne hq] using hall q
  refine ⟨hsizes,houtput,?_,?_⟩
  · intro q hq
    by_cases hqp : q=p
    · subst hqp
      exact hown
    · dsimp only at hq ⊢
      rw [Function.update_of_ne hqp] at hq
      rw [hothers q hqp]
      exact h.sizes q hq
  · intro q
    dsimp only
    by_cases hqp : q=p
    · subst hqp
      rw [Function.update_self]
      exact hfollows _ hmet
    · rw [Function.update_of_ne hqp]
      exact (h.stages q).mono hmet (hkeep q hqp)

/-- A worker that only goes on to another stage. -/
theorem Sound.goto {job : Job α} {samples : List α} {s : State α job.workers}
    (h : Sound job samples s) (p : Fin job.workers) (hbuilt : s.stages p≠.building)
    {stage : Stage α} (hstage : stage≠.building)
    (hfollows : ∀ met, (s.Met → met) → job.Follows samples s.output met p stage) :
    Sound job samples (s.goto p stage) :=
  h.advance p hstage h.sizes_length (fun _ _ => rfl) (h.sizes p hbuilt) h.output_length
    (fun _ _ _ _ => rfl) hfollows

/-- Every step of a worker keeps the state sound. -/
theorem Sound.step {job : Job α} {draws : List ℕ} {samples : List α}
    (hsamples : job.fillSamples draws=some samples) {s next : State α job.workers}
    {p : Fin job.workers} (h : Sound job samples s)
    (hs : SampleSort.step job samples p s=some next) : Sound job samples next := by
  have hfollows := h.stages p
  unfold SampleSort.step at hs
  split at hs
  · cases hs
    refine h.advance p nofun (by rw [List.length_set,h.sizes_length]) ?_ ?_
      h.output_length (fun _ _ _ _ => rfl) (fun _ _ => rfl)
    · intro q hq
      rw [List.getElem?_set_ne (fun heq => hq (Fin.ext heq.symm))]
    · rw [List.getElem?_set_self (by rw [h.sizes_length]; exact p.isLt)]
  · rename_i locals hstage
    rw [hstage] at hfollows
    split_ifs at hs with hmet
    cases hs
    refine h.goto p (by rw [hstage]; exact nofun) nofun ?_
    intro met hup
    exact ⟨hup hmet,hfollows,Nat.zero_le _,rfl⟩
  · rename_i locals ii jj hstage
    rw [hstage] at hfollows
    obtain ⟨hmet,hlocals,hii,hjj⟩ := hfollows
    split_ifs at hs with hlt
    · cases hs
      refine h.goto p (by rw [hstage]; exact nofun) nofun ?_
      intro met hup
      refine ⟨hup hmet,hlocals,hlt,?_⟩
      have hworker : ii<job.workers := hlt.trans p.isLt
      have hsize : s.sizes[ii]?=some (job.localArray samples ii).length :=
        h.sizes ⟨ii,hworker⟩ (hmet _)
      have hle := offset_le hsamples hworker
      have hint := job.count_int
      rw [List.getD_eq_getElem?_getD,hsize,Option.getD_some,hjj,offset_succ]
      rw [wrap32_of_range (by omega) (by omega),Nat.cast_add]
    · cases hs
      refine h.goto p (by rw [hstage]; exact nofun) nofun ?_
      intro met hup
      refine ⟨hup hmet,hlocals,Nat.zero_le _,?_,fun k hk => absurd hk (Nat.not_lt_zero k)⟩
      rw [hjj,show ii=p.val by omega]
  · rename_i locals ii jj hstage
    rw [hstage] at hfollows
    obtain ⟨hmet,rfl,hii,rfl,hplaced⟩ := hfollows
    split at hs
    · rename_i element helement
      split_ifs at hs with hbounds
      cases hs
      have hlt : ii<(job.localArray samples p).length := (List.getElem?_eq_some_iff.mp helement).1
      have hindex : ((ii : ℤ)+(job.offset samples p : ℤ)).toNat=job.offset samples p+ii := by omega
      rw [hindex]
      refine h.advance p nofun h.sizes_length (fun _ _ => rfl)
        (h.sizes p (by rw [hstage]; exact nofun))
        (by rw [List.length_set,h.output_length]) ?_ ?_
      · intro q hq k hk
        exact List.getElem?_set_ne (index_ne job samples (fun heq => hq (Fin.ext heq.symm)) hlt hk)
      · intro met hup
        refine ⟨hup hmet,rfl,hlt,rfl,fun k hk => ?_⟩
        by_cases hlast : k=ii
        · rw [hlast,List.getElem?_set_self (by omega),helement]
        · rw [List.getElem?_set_ne (by omega)]
          exact hplaced k (by omega)
    · rename_i hend
      cases hs
      have hall : (job.localArray samples p).length ≤ ii := List.getElem?_eq_none_iff.mp hend
      refine h.goto p (by rw [hstage]; exact nofun) nofun ?_
      intro met hup
      refine ⟨hup hmet,fun k hk => hplaced k (by omega)⟩
  · cases hs

/-- The beginning is sound. -/
theorem sound_begin (job : Job α) (samples : List α) : Sound job samples (begin job) where
  sizes_length := List.length_replicate
  output_length := List.length_replicate
  sizes := fun _ h => absurd rfl h
  stages := fun _ => trivial

/-- Every reachable state is sound. -/
theorem sound_of_reachable {job : Job α} {draws : List ℕ} {samples : List α}
    (hsamples : job.fillSamples draws=some samples) {s : State α job.workers}
    (hs : Reachable (step job samples) Anything (begin job) s) : Sound job samples s :=
  hs.invariant (Sound job samples) (sound_begin job samples)
    (fun _ _ _ hbefore _ hnext => hbefore.step hsamples hnext)

/-- Once every worker has arrived, the sizes add up to the count. -/
theorem Sound.sum_sizes {job : Job α} {draws : List ℕ} {samples : List α}
    (hsamples : job.fillSamples draws=some samples) {s : State α job.workers}
    (h : Sound job samples s) (hmet : s.Met) : s.sizes.sum=job.input.length := by
  have hsizes : s.sizes=(List.range job.workers).map
      (fun p => (job.localArray samples p).length) := by
    refine List.ext_getElem? (fun i => ?_)
    by_cases hi : i<job.workers
    · rw [h.sizes ⟨i,hi⟩ (hmet _),List.getElem?_map,List.getElem?_range hi]
      rfl
    · rw [List.getElem?_eq_none (by rw [h.sizes_length]; omega),
        List.getElem?_eq_none (by rw [List.length_map,List.length_range]; omega)]
  rw [←offset_workers hsamples,Job.offset,Job.parts,List.length_flatten,List.map_map,hsizes]
  rfl

/-- The indices of a worker's part. -/
def Job.indexRange (job : Job α) (samples : List α) (p : ℕ) : Finset ℕ :=
  Finset.Ico (job.offset samples p) (job.offset samples p+(job.localArray samples p).length)

/-- Workers' index ranges are disjoint. -/
theorem indexRange_disjoint (job : Job α) (samples : List α) {p q : ℕ} (h : p≠q) :
    Disjoint (job.indexRange samples p) (job.indexRange samples q) := by
  refine Finset.disjoint_left.mpr (fun i hp hq => ?_)
  obtain ⟨hp1,hp2⟩ := Finset.mem_Ico.mp hp
  obtain ⟨hq1,hq2⟩ := Finset.mem_Ico.mp hq
  have hne := index_ne job samples (k:=i-job.offset samples p) (l:=i-job.offset samples q) h
    (by omega) (by omega)
  omega

/-- The index ranges cover the output: by induction on the workers. -/
theorem indexRange_cover (job : Job α) (samples : List α) (i : ℕ) :
    ∀ n, i<job.offset samples n → ∃ p<n, i∈job.indexRange samples p := by
  intro n
  induction n with
  | zero => exact fun hi => absurd hi (Nat.not_lt_zero i)
  | succ n ih =>
    intro hi
    rw [offset_succ] at hi
    by_cases hbefore : i<job.offset samples n
    · obtain ⟨p,hp,hmem⟩ := ih hbefore
      exact ⟨p,Nat.lt_succ_of_lt hp,hmem⟩
    · exact ⟨n,Nat.lt_succ_self n,Finset.mem_Ico.mpr ⟨by omega,by omega⟩⟩

/-- A worker writes into its own index range. -/
theorem Sound.target_mem {job : Job α} {samples : List α} {s : State α job.workers}
    (h : Sound job samples s) {p : Fin job.workers} {index : ℤ} (ht : s.target p=some index) :
    ∃ i∈job.indexRange samples p, index=i := by
  have hfollows := h.stages p
  unfold State.target at ht
  split at ht
  · rename_i locals ii jj hstage
    rw [hstage] at hfollows
    obtain ⟨-,rfl,-,rfl,-⟩ := hfollows
    split_ifs at ht with hlt
    cases ht
    exact ⟨job.offset samples p+ii,Finset.mem_Ico.mpr ⟨by omega,by omega⟩,by omega⟩
  · cases ht

/-- A worker that has ended has filled its index range. -/
theorem Sound.filled {job : Job α} {samples : List α} {s : State α job.workers}
    (h : Sound job samples s) {p : Fin job.workers} (hp : s.stages p=.finished) :
    (s.output.drop (job.offset samples p)).take (job.localArray samples p).length=
      job.localArray samples p := by
  have hfollows := h.stages p
  rw [hp] at hfollows
  refine List.ext_getElem? (fun k => ?_)
  by_cases hk : k<(job.localArray samples p).length
  · rw [List.getElem?_take_of_lt hk,List.getElem?_drop,hfollows.2 k hk]
  · rw [List.getElem?_take_eq_none (by omega),List.getElem?_eq_none (by omega)]

/-- When all have ended, the output is the parts in order: by induction on the
workers. -/
theorem Sound.output_eq {job : Job α} {draws : List ℕ} {samples : List α}
    (hsamples : job.fillSamples draws=some samples) {s : State α job.workers}
    (h : Sound job samples s) (hdone : Finished s) :
    s.output=job.parts samples job.workers := by
  have htake : ∀ n≤job.workers, s.output.take (job.offset samples n)=job.parts samples n := by
    intro n
    induction n with
    | zero =>
      intro _
      rfl
    | succ n ih =>
      intro hn
      have hfilled : (s.output.drop (job.offset samples n)).take (job.localArray samples n).length=
          job.localArray samples n := h.filled (p:=⟨n,hn⟩) (hdone _)
      rw [offset_succ,List.take_add,ih (by omega),hfilled,parts_succ]
  have hall := htake job.workers (Nat.le_refl _)
  rwa [offset_workers hsamples,List.take_of_length_le (by rw [h.output_length])] at hall

/-- The steps a worker has left. -/
def Job.left (job : Job α) (samples : List α) (p : ℕ) : Stage α → ℕ
  | .building => p+(job.localArray samples p).length+4
  | .arrived locals => p+locals.length+3
  | .summing locals ii _ => (p-ii)+locals.length+2
  | .writing locals ii _ => (locals.length-ii)+1
  | .finished => 0

/-- The steps all workers have left. -/
def Job.allLeft (job : Job α) (samples : List α) (s : State α job.workers) : ℕ :=
  ∑ p : Fin job.workers, job.left samples p (s.stages p)

/-- A worker that takes one of its steps. -/
theorem allLeft_lt {job : Job α} {samples : List α} {s next : State α job.workers}
    {p : Fin job.workers} {stage : Stage α} (hnext : next.stages=Function.update s.stages p stage)
    (hless : job.left samples p stage<job.left samples p (s.stages p)) :
    job.allLeft samples next<job.allLeft samples s := by
  refine Finset.sum_lt_sum (fun q _ => ?_) ⟨p,Finset.mem_univ p,?_⟩
  · by_cases hq : q=p
    · subst hq
      rw [hnext,Function.update_self]
      exact hless.le
    · rw [hnext,Function.update_of_ne hq]
  · rw [hnext,Function.update_self]
    exact hless

/-- While a worker has not ended, some worker can go on. -/
theorem Sound.progress {job : Job α} {draws : List ℕ} {samples : List α}
    (hsamples : job.fillSamples draws=some samples) {s : State α job.workers}
    (h : Sound job samples s) (hdone : ¬Finished s) :
    ∃ p next, Anything s p ∧ SampleSort.step job samples p s=some next ∧
      job.allLeft samples next<job.allLeft samples s := by
  by_cases hmet : s.Met
  · obtain ⟨p,hp⟩ := not_forall.mp hdone
    have hfollows := h.stages p
    cases hstage : s.stages p with
    | building => exact absurd hstage (hmet p)
    | finished => exact absurd hstage hp
    | arrived locals =>
      refine ⟨p,s.goto p (.summing locals 0 0),trivial,?_,allLeft_lt rfl ?_⟩
      · unfold SampleSort.step
        rw [hstage]
        exact if_pos hmet
      · rw [hstage]
        simp only [Job.left]
        omega
    | summing locals ii jj =>
      by_cases hlt : ii<p
      · refine ⟨p,s.goto p (.summing locals (ii+1) (wrap32 (jj+s.sizes.getD ii 0))),trivial,?_,
          allLeft_lt rfl ?_⟩
        · unfold SampleSort.step
          rw [hstage]
          exact if_pos hlt
        · rw [hstage]
          simp only [Job.left]
          omega
      · refine ⟨p,s.goto p (.writing locals 0 jj),trivial,?_,allLeft_lt rfl ?_⟩
        · unfold SampleSort.step
          rw [hstage]
          exact if_neg hlt
        · rw [hstage]
          simp only [Job.left]
          omega
    | writing locals ii jj =>
      rw [hstage] at hfollows
      obtain ⟨-,rfl,hii,rfl,-⟩ := hfollows
      cases helement : (job.localArray samples p)[ii]? with
      | none =>
        refine ⟨p,s.goto p .finished,trivial,?_,allLeft_lt rfl ?_⟩
        · unfold SampleSort.step
          rw [hstage]
          dsimp only
          rw [helement]
        · rw [hstage]
          simp only [Job.left]
          omega
      | some element =>
        have hlt : ii<(job.localArray samples p).length := (List.getElem?_eq_some_iff.mp helement).1
        have hle := offset_le hsamples p.isLt
        have hbounds : 0≤(ii : ℤ)+(job.offset samples p : ℤ) ∧
            (ii : ℤ)+(job.offset samples p : ℤ)<s.output.length := by
          rw [h.output_length]
          omega
        refine ⟨p,⟨s.sizes,s.output.set ((ii : ℤ)+(job.offset samples p : ℤ)).toNat element,
          Function.update s.stages p (.writing (job.localArray samples p) (ii+1)
            (job.offset samples p))⟩,trivial,?_,allLeft_lt rfl ?_⟩
        · unfold SampleSort.step
          rw [hstage]
          dsimp only
          rw [helement]
          exact if_pos hbounds
        · rw [hstage]
          simp only [Job.left]
          omega
  · obtain ⟨p,hp⟩ := not_forall.mp hmet
    have hstage : s.stages p=.building := not_not.mp hp
    refine ⟨p,⟨s.sizes.set p (job.localArray samples p).length,s.output,
      Function.update s.stages p (.arrived (job.localArray samples p))⟩,trivial,?_,allLeft_lt rfl ?_⟩
    · unfold SampleSort.step
      rw [hstage]
    · rw [hstage]
      simp only [Job.left]
      omega

/-! ## The whole sort -/

/-- Every value of the input falls to exactly one worker. -/
theorem exists_unique_worker {job : Job α} {draws : List ℕ} {samples : List α}
    (h : job.fillSamples draws=some samples) {x : α} (hx : x∈job.input) :
    ∃! p : Fin job.workers, job.floatsGet samples p≤x ∧ x<job.floatsGet samples (p+1) := by
  have hlow : job.floatsGet samples 0≤x := by
    rw [bound_zero h]
    exact (job.between x hx).1
  have hhigh : x<job.floatsGet samples job.workers := by
    rw [bound_last h]
    exact (job.between x hx).2
  obtain ⟨p,hp,hcell⟩ := exists_inCell hlow job.workers hhigh
  refine ⟨⟨p,hp⟩,hcell,?_⟩
  intro q hq
  exact Fin.ext (inCell_unique (bounds_rising h) q.isLt hp hq hcell)

/-- The samples are found as soon as every index has been drawn, and then, in
whatever order the workers go on: each value falls to one worker; the sizes add
up to the count once all have arrived at the barrier; each worker writes into
its own index range, and the ranges are disjoint and cover the output; and when
all have ended, which they can from every state, each has filled its range and
the output is the sorted input. -/
theorem sample_sort_sorts (job : Job α) :
    (∀ draws, (job.fillSamples draws).isSome ↔
      ∀ inum<job.randNum, ∃ random∈draws, random%job.randNum=inum) ∧
    ∀ draws samples, job.fillSamples draws=some samples →
      (∀ x∈job.input,
        ∃! p : Fin job.workers, job.floatsGet samples p≤x ∧ x<job.floatsGet samples (p+1)) ∧
      (∀ p q : Fin job.workers, p≠q →
        Disjoint (job.indexRange samples p) (job.indexRange samples q)) ∧
      (∀ i, i<job.input.length ↔ ∃ p : Fin job.workers, i∈job.indexRange samples p) ∧
      ∀ s, Reachable (step job samples) Anything (begin job) s →
        (s.Met → s.sizes.sum=job.input.length) ∧
        (∀ p index, s.target p=some index → ∃ i∈job.indexRange samples p, index=i) ∧
        (Finished s → s.output.Perm job.input ∧ s.output.Pairwise (fun x y => x≤y) ∧
          ∀ p : Fin job.workers, (s.output.drop (job.offset samples p)).take
            (job.localArray samples p).length=job.localArray samples p) ∧
        ∃ last, Reachable (step job samples) Anything s last ∧ Finished last := by
  constructor
  · intro draws
    rw [Job.fillSamples,Option.isSome_map]
    exact (copyRandValues_spec job job.randNum draws).1
  · intro draws samples hsamples
    refine ⟨fun x hx => exists_unique_worker hsamples hx,?_,?_,?_⟩
    · intro p q hpq
      exact indexRange_disjoint job samples (fun heq => hpq (Fin.ext heq))
    · intro i
      constructor
      · intro hi
        rw [←offset_workers hsamples] at hi
        obtain ⟨p,hp,hmem⟩ := indexRange_cover job samples i job.workers hi
        exact ⟨⟨p,hp⟩,hmem⟩
      · rintro ⟨p,hmem⟩
        exact (Finset.mem_Ico.mp hmem).2.trans_le (offset_le hsamples p.isLt)
    · intro s hs
      have hsound := sound_of_reachable hsamples hs
      refine ⟨hsound.sum_sizes hsamples,fun p index ht => hsound.target_mem ht,?_,?_⟩
      · intro hdone
        rw [hsound.output_eq hsamples hdone]
        refine ⟨(parts_spec hsamples).1,(parts_spec hsamples).2,fun p => ?_⟩
        rw [←hsound.output_eq hsamples hdone]
        exact hsound.filled (hdone p)
      · exact exists_done_of (job.allLeft samples)
          (fun _ _ _ hbefore _ hnext => Sound.step hsamples hbefore hnext)
          (fun _ hbefore hdone => Sound.progress hsamples hbefore hdone) s hsound

/-- Three values and two workers. -/
def threeValues : Job ℕ where
  zero := 0
  fltMax := 10
  workers := 2
  input := [3,1,2]
  zero_lt := by decide
  one_le := by decide
  enough := by decide
  count_int := by decide
  between := by decide

/-- The sort of three values after the draws 0, 1 and 2. -/
theorem threeValues_sorted : ∃ samples last, threeValues.fillSamples [0,1,2]=some samples ∧
    Reachable (step threeValues samples) Anything (begin threeValues) last ∧ Finished last ∧
      last.output.Perm [3,1,2] ∧ last.output.Pairwise (fun x y => x≤y) := by
  obtain ⟨hfound,hsorts⟩ := sample_sort_sorts threeValues
  obtain ⟨samples,hsamples⟩ := Option.isSome_iff_exists.mp ((hfound [0,1,2]).mpr (by decide))
  obtain ⟨-,-,-,hruns⟩ := hsorts [0,1,2] samples hsamples
  obtain ⟨-,-,-,last,hlast,hdone⟩ := hruns _ (Reachable.start _)
  obtain ⟨-,-,hsorted,-⟩ := hruns last hlast
  exact ⟨samples,last,hsamples,hlast,hdone,(hsorted hdone).1,(hsorted hdone).2.1⟩

end ComputerSystems.SampleSort
