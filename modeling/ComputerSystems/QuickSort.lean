import ComputerSystems.ArrayRange

/-!
# `quicksort.c`

The range is cut at its last value: smaller values are swapped to the front, the
pivot goes behind them, and both sides are sorted in place. Every access to the
array goes through a window; outside it there is no result. Sorting a range
succeeds with that range as the window, leaves its values in order and changes
no other.
-/

namespace ComputerSystems.QuickSort

open ArrayRange

/-! ## The source

An array is the value at each index; `low` and `high` are the bounds of the
window.
-/

variable (low high : ℤ)

/-- Read a value. -/
def load (xs : ℤ → ℤ) (ii : ℤ) : Option ℤ := if low ≤ ii ∧ ii<high then some (xs ii) else none

/-- Write a value. -/
def store (xs : ℤ → ℤ) (ii value : ℤ) : Option (ℤ → ℤ) :=
  if low ≤ ii ∧ ii<high then some (Function.update xs ii value) else none

/-- `swap`. -/
def swap (xs : ℤ → ℤ) (ii jj : ℤ) : Option (ℤ → ℤ) :=
  if ii≠jj then
    (load low high xs ii).bind (fun tmp =>
      (load low high xs jj).bind (fun other =>
        (store low high xs ii other).bind (fun ys => store low high ys jj tmp)))
  else some xs

/-- The loop of `partition`, with a bound on its rounds. -/
def partitionLoop (pivot hi : ℤ) : ℕ → (ℤ → ℤ) → ℤ → ℤ → Option ((ℤ → ℤ) × ℤ)
  | 0,_,_,_ => none
  | left+1,xs,ii,jj =>
    if jj<hi-1 then
      (load low high xs jj).bind (fun value =>
        if value<pivot then
          (swap low high xs ii jj).bind (fun ys => partitionLoop pivot hi left ys (ii+1) (jj+1))
        else partitionLoop pivot hi left xs ii (jj+1))
    else some (xs,ii)

/-- `partition`: the array and the index of the pivot. -/
def partition (xs : ℤ → ℤ) (lo hi : ℤ) : Option ((ℤ → ℤ) × ℤ) :=
  (load low high xs (hi-1)).bind (fun pivot =>
    (partitionLoop low high pivot hi (hi-lo).toNat xs lo lo).bind (fun done =>
      (swap low high done.1 done.2 (hi-1)).map (fun ys => (ys,done.2))))

/-- `quicksort`, with a bound on the depth of its calls. -/
def quicksort : ℕ → (ℤ → ℤ) → ℤ → ℤ → Option (ℤ → ℤ)
  | 0,_,_,_ => none
  | depth+1,xs,lo,hi =>
    if hi-lo<1 then some xs
    else
      (partition low high xs lo hi).bind (fun done =>
        (quicksort depth done.1 lo done.2).bind (fun ys => quicksort depth ys (done.2+1) hi))

/-! ## Accesses inside the window -/

section Accesses

variable {low high lo hi : ℤ}

/-- A value of a range inside the window is read. -/
theorem load_of_within (hlow : low≤lo) (hhigh : hi≤high) {ii : ℤ} (hii : Within lo hi ii) (xs : ℤ → ℤ) :
    load low high xs ii=some (xs ii) :=
  if_pos ⟨Int.le_trans hlow hii.1,Int.lt_of_lt_of_le hii.2 hhigh⟩

/-- A value of a range inside the window is written. -/
theorem store_of_within (hlow : low≤lo) (hhigh : hi≤high) {ii : ℤ} (hii : Within lo hi ii)
    (xs : ℤ → ℤ) (value : ℤ) : store low high xs ii value=some (Function.update xs ii value) :=
  if_pos ⟨Int.le_trans hlow hii.1,Int.lt_of_lt_of_le hii.2 hhigh⟩

/-- `swap` lets two values of a range inside the window trade places. -/
theorem swap_spec (hlow : low≤lo) (hhigh : hi≤high) {ii jj : ℤ} (hii : Within lo hi ii)
    (hjj : Within lo hi jj) (xs : ℤ → ℤ) :
    ∃ ys, swap low high xs ii jj=some ys ∧ Shuffled lo hi xs ys ∧ ys ii=xs jj ∧ ys jj=xs ii ∧
      ∀ k, k≠ii → k≠jj → ys k=xs k := by
  by_cases hne : ii≠jj
  · refine ⟨Function.update (Function.update xs ii (xs jj)) jj (xs ii),?_,
      Shuffled.swap hii hjj xs,?_,Function.update_self _ _ _,fun k hk hk' => ?_⟩
    · rw [swap,if_pos hne,load_of_within hlow hhigh hii,Option.bind_some,
        load_of_within hlow hhigh hjj,Option.bind_some,store_of_within hlow hhigh hii,Option.bind_some,
        store_of_within hlow hhigh hjj]
    · rw [Function.update_of_ne hne,Function.update_self]
    · rw [Function.update_of_ne hk',Function.update_of_ne hk]
  · have hsame : ii=jj := not_not.mp hne
    subst hsame
    exact ⟨xs,if_neg hne,Shuffled.refl lo hi xs,rfl,rfl,fun _ _ _ => rfl⟩

end Accesses

/-! ## Partition -/

section Partition

variable {low high lo hi : ℤ} {xs ys : ℤ → ℤ} {pivot ii jj : ℤ}

/-- The loop has put values below the pivot in front of the others, and has not come
to the pivot yet. -/
structure Parted (lo hi pivot : ℤ) (xs ys : ℤ → ℤ) (ii jj : ℤ) : Prop where
  /-- The values are those of the range. -/
  moved : Shuffled lo hi xs ys
  /-- The indices are in order. -/
  order : lo ≤ ii ∧ ii≤jj ∧ jj≤hi-1
  /-- Values below the pivot. -/
  below : ∀ k, lo≤k → k < ii → ys k<pivot
  /-- Values not below the pivot. -/
  above : ∀ k, ii≤k → k<jj → pivot≤ys k
  /-- The pivot is the last value. -/
  last : ys (hi-1)=pivot

/-- A value that is not below the pivot stays. -/
theorem Parted.keep (h : Parted lo hi pivot xs ys ii jj) (hjj : jj<hi-1) (hvalue : ¬ys jj<pivot) :
    Parted lo hi pivot xs ys ii (jj+1) := by
  obtain ⟨hlo,hle,-⟩ := h.order
  refine ⟨h.moved,⟨hlo,by omega,by omega⟩,h.below,fun k hk hk' => ?_,h.last⟩
  by_cases hsame : k=jj
  · rw [hsame]
    exact Int.not_lt.mp hvalue
  · exact h.above k hk (by omega)

/-- A value below the pivot trades places with the first that is not. -/
theorem Parted.swap (h : Parted lo hi pivot xs ys ii jj) (hlow : low≤lo) (hhigh : hi≤high)
    (hjj : jj<hi-1) (hvalue : ys jj<pivot) :
    ∃ zs, swap low high ys ii jj=some zs ∧ Parted lo hi pivot xs zs (ii+1) (jj+1) := by
  obtain ⟨hlo,hle,-⟩ := h.order
  obtain ⟨zs,hrun,hmoved,hii,hjj',hrest⟩ := swap_spec hlow hhigh
    (show Within lo hi ii from ⟨hlo,by omega⟩) (show Within lo hi jj from ⟨by omega,by omega⟩) ys
  refine ⟨zs,hrun,h.moved.trans hmoved,⟨by omega,by omega,by omega⟩,fun k hk hk' => ?_,
    fun k hk hk' => ?_,?_⟩
  · by_cases hsame : k=ii
    · rw [hsame,hii]
      exact hvalue
    · rw [hrest k hsame (by omega)]
      exact h.below k hk (by omega)
  · by_cases hsame : k=jj
    · rw [hsame,hjj']
      exact h.above ii (Int.le_refl ii) (by omega)
    · rw [hrest k (by omega) hsame]
      exact h.above k (by omega) (by omega)
  · rw [hrest (hi-1) (by omega) (by omega)]
    exact h.last

/-- The loop comes to the pivot: by induction on the rounds. -/
theorem partitionLoop_spec (hlow : low≤lo) (hhigh : hi≤high) (left : ℕ) :
    ∀ {ys : ℤ → ℤ} {ii jj : ℤ}, Parted lo hi pivot xs ys ii jj → hi-jj≤left →
      ∃ zs pp, partitionLoop low high pivot hi left ys ii jj=some (zs,pp) ∧
        Parted lo hi pivot xs zs pp (hi-1) := by
  induction left with
  | zero =>
    intro ys ii jj h hleft
    have hbound := h.order.2.2
    omega
  | succ left ih =>
    intro ys ii jj h hleft
    obtain ⟨hlo,hle,hbound⟩ := h.order
    rw [partitionLoop]
    by_cases hjj : jj<hi-1
    · rw [if_pos hjj,load_of_within hlow hhigh (show Within lo hi jj from ⟨by omega,by omega⟩),
        Option.bind_some]
      by_cases hvalue : ys jj<pivot
      · obtain ⟨zs,hrun,hnext⟩ := h.swap hlow hhigh hjj hvalue
        rw [if_pos hvalue,hrun,Option.bind_some]
        exact ih hnext (by omega)
      · rw [if_neg hvalue]
        exact ih (h.keep hjj hvalue) (by omega)
    · obtain rfl : jj=hi-1 := by omega
      rw [if_neg hjj]
      exact ⟨ys,ii,rfl,h⟩

/-- `partition` puts the pivot between the values below it and the others. -/
theorem partition_spec (hlow : low≤lo) (hhigh : hi≤high) (hlt : lo<hi) (xs : ℤ → ℤ) :
    ∃ ys pp, partition low high xs lo hi=some (ys,pp) ∧ Within lo hi pp ∧ Shuffled lo hi xs ys ∧
      (∀ k, lo≤k → k<pp → ys k<ys pp) ∧ ∀ k, pp<k → k<hi → ys pp≤ys k := by
  have hlast : Within lo hi (hi-1) := ⟨by omega,by omega⟩
  have hstart : Parted lo hi (xs (hi-1)) xs xs lo lo :=
    ⟨Shuffled.refl lo hi xs,⟨Int.le_refl lo,Int.le_refl lo,by omega⟩,
      fun k hk hk' => absurd hk (Int.not_le.mpr hk'),fun k hk hk' => absurd hk (Int.not_le.mpr hk'),rfl⟩
  obtain ⟨zs,pp,hloop,hparted⟩ :=
    partitionLoop_spec hlow hhigh (hi-lo).toNat hstart (by omega)
  obtain ⟨hlo,hle,-⟩ := hparted.order
  have hpp : Within lo hi pp := ⟨hlo,by omega⟩
  obtain ⟨ys,hrun,hmoved,hii,hjj,hrest⟩ := swap_spec hlow hhigh hpp hlast zs
  rw [hparted.last] at hii
  refine ⟨ys,pp,?_,hpp,hparted.moved.trans hmoved,fun k hk hk' => ?_,fun k hk hk' => ?_⟩
  · rw [partition,load_of_within hlow hhigh hlast,Option.bind_some,hloop,Option.bind_some,hrun]
    rfl
  · rw [hii,hrest k (by omega) (by omega)]
    exact hparted.below k hk hk'
  · rw [hii]
    by_cases hsame : k=hi-1
    · rw [hsame,hjj]
      exact hparted.above pp (Int.le_refl pp) (by omega)
    · rw [hrest k (by omega) hsame]
      exact hparted.above k (by omega) (by omega)

end Partition

/-! ## Sorting -/

section Sorting

variable {low high lo hi : ℤ} {xs ys zs : ℤ → ℤ}

/-- The values of a range are in order and are those it had; all others stay. -/
structure Sorted (lo hi : ℤ) (xs ys : ℤ → ℤ) : Prop where
  /-- The values are those of the range. -/
  moved : Shuffled lo hi xs ys
  /-- They are in order. -/
  order : ∀ i j, lo ≤ i → i<j → j<hi → ys i≤ys j

/-- Both sides of a pivot sorted are the whole range sorted. -/
theorem Sorted.join {pp : ℤ} {ws : ℤ → ℤ} (hmoved : Shuffled lo hi xs ys) (hpp : Within lo hi pp)
    (hbelow : ∀ k, lo≤k → k<pp → ys k<ys pp) (habove : ∀ k, pp<k → k<hi → ys pp≤ys k)
    (hleft : Sorted lo pp ys zs) (hright : Sorted (pp+1) hi zs ws) : Sorted lo hi xs ws := by
  obtain ⟨hlo,hhi⟩ := hpp
  have hpivot : ws pp=ys pp := by
    rw [hright.moved.outside (fun h => absurd h.1 (by omega)),
      hleft.moved.outside (fun h => absurd h.2 (by omega))]
  have hlow : ∀ k, lo≤k → k<pp → ws k<ys pp := by
    intro k hk hk'
    rw [hright.moved.outside (fun h => absurd h.1 (by omega))]
    exact hleft.moved.forall (fun value => value<ys pp) (fun i hi => hbelow i hi.1 hi.2) k ⟨hk,hk'⟩
  have hhigh : ∀ k, pp<k → k<hi → ys pp≤ws k := by
    intro k hk hk'
    refine hright.moved.forall (fun value => ys pp≤value) (fun i hi => ?_) k ⟨hk,hk'⟩
    rw [hleft.moved.outside (fun h => absurd h.2 (by have hfirst := hi.1; omega))]
    exact habove i hi.1 hi.2
  constructor
  · exact (hmoved.trans (hleft.moved.widen (Int.le_refl lo) hhi.le)).trans
      (hright.moved.widen (by omega) (Int.le_refl hi))
  · intro i j hi hij hj
    rcases Int.lt_trichotomy j pp with hjp|rfl|hjp
    · rw [hright.moved.outside (fun h => absurd h.1 (by omega)),
        hright.moved.outside (fun h => absurd h.1 (by omega))]
      exact hleft.order i j hi hij hjp
    · rw [hpivot]
      exact (hlow i hi hij).le
    · rcases Int.lt_trichotomy i pp with hip|rfl|hip
      · exact (hlow i hi hip).le.trans (hhigh j hjp hj)
      · rw [hpivot]
        exact hhigh j hjp hj
      · exact hright.order i j (by omega) hij hj

/-- Calls deep enough for the range sort it: by induction on the depth. -/
theorem quicksort_spec (depth : ℕ) : ∀ {lo hi : ℤ} (xs : ℤ → ℤ), low≤lo → hi≤high → lo≤hi →
    hi-lo<depth → ∃ ys, quicksort low high depth xs lo hi=some ys ∧ Sorted lo hi xs ys := by
  induction depth with
  | zero =>
    intro lo hi xs hlow hhigh hle hdepth
    omega
  | succ depth ih =>
    intro lo hi xs hlow hhigh hle hdepth
    rw [quicksort]
    by_cases hshort : hi-lo<1
    · rw [if_pos hshort]
      exact ⟨xs,rfl,Shuffled.refl lo hi xs,fun i j hi hij hj => by omega⟩
    · obtain ⟨ys,pp,hrun,hpp,hmoved,hbelow,habove⟩ := partition_spec hlow hhigh (by omega) xs
      obtain ⟨hlo,hhi⟩ := hpp
      obtain ⟨zs,hleft,hsorted⟩ := ih ys hlow (hhi.le.trans hhigh) hlo (show pp-lo<depth by omega)
      obtain ⟨ws,hright,hsorted'⟩ :=
        ih zs (show low≤pp+1 by omega) hhigh (show pp+1≤hi by omega) (show hi-(pp+1)<depth by omega)
      rw [if_neg hshort,hrun,Option.bind_some,hleft,Option.bind_some,hright]
      exact ⟨ws,rfl,Sorted.join hmoved ⟨hlo,hhi⟩ hbelow habove hsorted hsorted'⟩

/-- `quicksort` of a range ends, whatever bound there is on the depth of its calls as
long as it is above the length of the range; it reads and writes only in the range,
leaves its values in order and changes no other value. -/
theorem quicksort_sorts (xs : ℤ → ℤ) {lo hi : ℤ} (h : lo≤hi) (depth : ℕ) (hdepth : hi-lo<depth) :
    ∃ ys, quicksort lo hi depth xs lo hi=some ys ∧
      (segment ys lo hi).Pairwise (fun a b => a≤b) ∧
      (segment ys lo hi).Perm (segment xs lo hi) ∧ ∀ k, k<lo ∨ hi≤k → ys k=xs k := by
  obtain ⟨ys,hrun,hsorted⟩ := quicksort_spec depth xs (Int.le_refl lo) (Int.le_refl hi) h hdepth
  refine ⟨ys,hrun,segment_sorted hsorted.order,hsorted.moved.segment_perm,fun k hk => ?_⟩
  exact hsorted.moved.outside (fun hin => by have hlow := hin.1; have hhigh := hin.2; omega)

/-- The values 3, 1, 3 and 2 before other values. -/
def fourValues (k : ℤ) : ℤ := if k=0 ∨ k=2 then 3 else if k=1 then 1 else 2

/-- The first three of them are sorted. -/
theorem fourValues_sorted : ∃ ys, quicksort 0 3 4 fourValues 0 3=some ys ∧
    (segment ys 0 3).Pairwise (fun a b => a≤b) ∧ (segment ys 0 3).Perm [3,1,3] ∧
    ∀ k, k<0 ∨ 3≤k → ys k=fourValues k :=
  quicksort_sorts fourValues (by decide) 4 (by decide)

end Sorting

end ComputerSystems.QuickSort
