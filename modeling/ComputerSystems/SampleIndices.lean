import ComputerSystems.SampleSort

/-!
# Where the sample sort reads its samples

`copy_rand_values` draws as many different indices as it is asked to copy, all of
them below that number and not below the number of values. The number is three
for each worker but one, an `int`, and nothing compares it with the length of the
input; so the samples lie in the input exactly when the input is that long.
-/

namespace ComputerSystems.SampleIndices

open ByteMemory SampleSort

/-- The number of values that `fill_samples` asks for, an `int`. -/
def randNum (workers : ℕ) : ℤ := wrap32 (3*((workers : ℤ)-1))

/-- The loops of `copy_rand_values` over the numbers that `random` returns: the
indices at which `src` was read, and whether the loops have ended. -/
def indicesFrom (nCopy : ℤ) : List ℕ → ℕ → List ℤ → List ℤ → List ℤ × Bool
  | [],ii,_,read => (read,decide ¬(ii : ℤ)<nCopy)
  | random::rest,ii,used,read =>
    if (ii : ℤ)<nCopy then
      let inum := (random : ℤ)%nCopy
      if intsContains used inum then indicesFrom nCopy rest ii used read
      else indicesFrom nCopy rest (ii+1) (used.set ii inum) (read++[inum])
    else (read,true)

/-- The indices at which `copy_rand_values` reads. -/
def indices (nCopy : ℤ) (draws : List ℕ) : List ℤ × Bool :=
  indicesFrom nCopy draws 0 (List.replicate nCopy.toNat (-1)) []

/-- For all numbers that `random` returns, the indices lie in an input of `count`
values, they are different, and at the end they are three for each worker but
one. -/
def SamplesInside (count workers : ℕ) : Prop :=
  ∀ draws : List ℕ, (∀ random∈draws, random<2^31) →
    (∀ inum∈(indices (randNum workers) draws).1, 0 ≤ inum ∧ inum<count) ∧
    (indices (randNum workers) draws).1.Nodup ∧
    ((indices (randNum workers) draws).2=true →
      (indices (randNum workers) draws).1.length=3*(workers-1))

/-- The run after some picks. -/
def indicesAfter (nCopy : ℕ) (draws picks : List ℕ) : List ℤ × Bool :=
  indicesFrom nCopy draws picks.length (usedAfter nCopy picks) (picks.map Nat.cast)

/-- With all indices picked the loops end. -/
theorem indicesAfter_full {nCopy : ℕ} (draws : List ℕ) {picks : List ℕ} (h : nCopy≤picks.length) :
    indicesAfter nCopy draws picks=(picks.map Nat.cast,true) := by
  have hless : ¬(picks.length : ℤ)<nCopy := by omega
  cases draws with
  | nil =>
    unfold indicesAfter indicesFrom
    rw [decide_eq_true hless]
  | cons random rest =>
    unfold indicesAfter indicesFrom
    rw [if_neg hless]

/-- A number that was drawn before is passed over, a fresh one is picked. -/
theorem indicesAfter_cons {nCopy : ℕ} (random : ℕ) (rest : List ℕ) {picks : List ℕ}
    (h : picks.length<nCopy) :
    indicesAfter nCopy (random::rest) picks=
      if random%nCopy∈picks then indicesAfter nCopy rest picks
      else indicesAfter nCopy rest (picks++[random%nCopy]) := by
  unfold indicesAfter
  rw [indicesFrom,if_pos (Int.ofNat_lt.mpr h)]
  dsimp only
  rw [←Int.natCast_mod]
  by_cases hmem : random%nCopy∈picks
  · rw [if_pos hmem,if_pos (intsContains_usedAfter.mpr hmem)]
  · rw [if_neg hmem,if_neg (fun hcontains => hmem (intsContains_usedAfter.mp hcontains)),
      set_usedAfter h,List.length_append,List.length_singleton,List.map_append,List.map_singleton]

/-- The indices are different and below the number to copy; the loops have ended
when there are that many, and before that every number drawn is among them: by
induction on the numbers that are drawn. -/
theorem indicesAfter_spec (nCopy : ℕ) (draws : List ℕ) :
    ∀ picks : List ℕ, picks.Nodup → (∀ pick∈picks, pick<nCopy) →
      ∃ all : List ℕ, indicesAfter nCopy draws picks=(all.map Nat.cast,decide (nCopy≤all.length)) ∧
        all.Nodup ∧ (∀ pick∈all, pick<nCopy) ∧ (∀ pick∈picks, pick∈all) ∧
        (all.length<nCopy → ∀ random∈draws, random%nCopy∈all) := by
  induction draws with
  | nil =>
    intro picks hnodup hlt
    refine ⟨picks,?_,hnodup,hlt,fun _ hpick => hpick,fun _ => nofun⟩
    unfold indicesAfter indicesFrom
    simp only [Int.not_lt,Nat.cast_le]
  | cons random rest ih =>
    intro picks hnodup hlt
    by_cases hfull : nCopy≤picks.length
    · refine ⟨picks,?_,hnodup,hlt,fun _ hpick => hpick,fun hless => absurd hfull (by omega)⟩
      rw [indicesAfter_full _ hfull,decide_eq_true hfull]
    · have hless := Nat.lt_of_not_le hfull
      rw [indicesAfter_cons random rest hless]
      by_cases hmem : random%nCopy∈picks
      · rw [if_pos hmem]
        obtain ⟨all,hrun,hall,hbound,hpicks,hdrawn⟩ := ih picks hnodup hlt
        refine ⟨all,hrun,hall,hbound,hpicks,fun hopen later hlater => ?_⟩
        rcases List.mem_cons.mp hlater with rfl|hlater
        · exact hpicks _ hmem
        · exact hdrawn hopen later hlater
      · rw [if_neg hmem]
        have hnodup' : (picks++[random%nCopy]).Nodup :=
          List.nodup_append_comm.mp (List.nodup_cons.mpr ⟨hmem,hnodup⟩)
        have hlt' : ∀ pick∈picks++[random%nCopy], pick<nCopy := by
          intro pick hpick
          rcases List.mem_append.mp hpick with hin|hin
          · exact hlt pick hin
          · rw [List.mem_singleton.mp hin]
            exact Nat.mod_lt _ (by omega)
        obtain ⟨all,hrun,hall,hbound,hpicks,hdrawn⟩ := ih _ hnodup' hlt'
        refine ⟨all,hrun,hall,hbound,fun pick hpick => hpicks pick (List.mem_append_left _ hpick),
          fun hopen later hlater => ?_⟩
        rcases List.mem_cons.mp hlater with rfl|hlater
        · exact hpicks _ (List.mem_append_right _ (List.mem_singleton.mpr rfl))
        · exact hdrawn hopen later hlater

/-- The indices of a run from the start. -/
theorem indices_spec (nCopy : ℕ) (draws : List ℕ) :
    ∃ all : List ℕ, indices nCopy draws=(all.map Nat.cast,decide (nCopy≤all.length)) ∧ all.Nodup ∧
      (∀ pick∈all, pick<nCopy) ∧ (all.length<nCopy → ∀ random∈draws, random%nCopy∈all) := by
  obtain ⟨all,hrun,hall,hbound,-,hdrawn⟩ := indicesAfter_spec nCopy draws [] List.nodup_nil nofun
  exact ⟨all,hrun,hall,hbound,hdrawn⟩

/-- Where there is nothing to copy the loops end at once. -/
theorem indices_of_nonpos {nCopy : ℤ} (h : nCopy≤0) (draws : List ℕ) :
    indices nCopy draws=([],true) := by
  have hless : ¬((0 : ℕ) : ℤ)<nCopy := by omega
  cases draws with
  | nil =>
    unfold indices indicesFrom
    rw [decide_eq_true hless]
  | cons random rest =>
    unfold indices indicesFrom
    rw [if_neg hless]

/-- Drawing the numbers in order makes the loops end with all indices. -/
theorem indices_range (nCopy : ℕ) :
    (indices nCopy (List.range nCopy)).2=true ∧
      (indices nCopy (List.range nCopy)).1.length=nCopy := by
  obtain ⟨all,hrun,hall,hbound,hdrawn⟩ := indices_spec nCopy (List.range nCopy)
  have hfull : nCopy≤all.length := by
    by_contra hopen
    refine hopen (full_of_all (fun inum hinum => ?_))
    have hin := hdrawn (Nat.lt_of_not_le hopen) inum (List.mem_range.mpr hinum)
    rwa [Nat.mod_eq_of_lt hinum] at hin
  have hperm := perm_range_of_full hall hbound hfull
  rw [hrun]
  refine ⟨decide_eq_true hfull,?_⟩
  rw [List.length_map,hperm.length_eq,List.length_range]

/-- The `int` is the number of samples where that fits. -/
theorem randNum_eq {workers : ℕ} (hone : 1≤workers) (hfits : 3*(workers-1)<2^31) :
    randNum workers=((3*(workers-1) : ℕ) : ℤ) := by
  unfold randNum
  rw [wrap32_of_range (by omega) (by omega)]
  omega

/-- Enough values and a number that fits keep the indices inside. -/
theorem inside_of_enough {count workers : ℕ} (henough : 3*(workers-1)≤count)
    (hfits : 3*(workers-1)<2^31) : SamplesInside count workers := by
  intro draws _
  rcases Nat.eq_zero_or_pos workers with rfl|hone
  · rw [indices_of_nonpos (show randNum 0≤0 by decide +kernel) draws]
    exact ⟨nofun,List.nodup_nil,fun _ => rfl⟩
  · obtain ⟨all,hrun,hall,hbound,-⟩ := indices_spec (3*(workers-1)) draws
    rw [randNum_eq hone hfits,hrun]
    refine ⟨fun inum hinum => ?_,hall.map Nat.cast_injective,fun hend => ?_⟩
    · obtain ⟨pick,hpick,rfl⟩ := List.mem_map.mp hinum
      have hpick' := hbound pick hpick
      omega
    · have hperm := perm_range_of_full hall hbound (of_decide_eq_true hend)
      rw [List.length_map,hperm.length_eq,List.length_range]

/-- A number that is too large for an `int` is not the number of samples. -/
theorem fits_of_inside {count workers : ℕ} (h : SamplesInside count workers) :
    3*(workers-1)<2^31 := by
  by_contra hover
  have hrange := wrap32_range (3*((workers : ℤ)-1))
  rcases Int.le_total (randNum workers) 0 with hnone|hsome
  · have hlength := (h [] nofun).2.2
    rw [indices_of_nonpos hnone []] at hlength
    have hzero : 0=3*(workers-1) := hlength rfl
    omega
  · obtain ⟨n,hn⟩ := Int.eq_ofNat_of_zero_le hsome
    have hsmall : n<2^31 := by
      unfold randNum at hn
      omega
    have hlength := (h (List.range n) (fun random hrandom =>
      (List.mem_range.mp hrandom).trans hsmall)).2.2
    obtain ⟨hend,hcount⟩ := indices_range n
    rw [hn] at hlength
    have hsame := hlength hend
    omega

/-- With too few values the first number that is drawn can lie behind them. -/
theorem enough_of_inside {count workers : ℕ} (h : SamplesInside count workers) :
    3*(workers-1)≤count := by
  by_contra hfew
  have hfits := fits_of_inside h
  have hdraw := (h [count] (fun random hrandom => by
    rw [List.mem_singleton.mp hrandom]
    omega)).1
  have hrun : indices ((3*(workers-1) : ℕ) : ℤ) [count]=
      indicesAfter (3*(workers-1)) [] [count] := by
    have hnone : ([] : List ℕ).length<3*(workers-1) := by
      rw [List.length_nil]
      omega
    have hcons := indicesAfter_cons count [] hnone
    rw [if_neg List.not_mem_nil,Nat.mod_eq_of_lt (by omega)] at hcons
    exact hcons
  rw [randNum_eq (by omega) hfits,hrun] at hdraw
  exact absurd (hdraw count (List.mem_singleton.mpr rfl)).2 (Int.lt_irrefl _)

/-- The samples lie in the input, for all numbers that `random` returns, exactly
when there are as many values as samples and their number fits into an `int`. -/
theorem samples_inside_iff (count workers : ℕ) :
    SamplesInside count workers ↔ 3*(workers-1)≤count ∧ 3*(workers-1)<2^31 :=
  ⟨fun h => ⟨enough_of_inside h,fits_of_inside h⟩,fun h => inside_of_enough h.1 h.2⟩

/-- Two workers on one value: a second sample is read behind it. -/
theorem two_workers_read_outside : (indices (randNum 2) [1]).1=[1] ∧ ¬SamplesInside 1 2 := by
  have hrun : (indices (randNum 2) [1]).1=[1] := by decide +kernel
  refine ⟨hrun,fun h => ?_⟩
  have hdraw := (h [1] (by decide)).1 1
  rw [hrun] at hdraw
  exact absurd (hdraw (List.mem_singleton.mpr rfl)).2 (by decide)

end ComputerSystems.SampleIndices
