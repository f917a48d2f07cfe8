import ComputerSystems.ByteMemory
import ComputerSystems.StableSort

/-!
# The sort of `length-sort.c`

One index moves forward while the lengths of neighbours are in order and steps
back with every swap. Lengths are kept in `int` variables. Every run ends, stays
inside the vector and leaves the stable sort by these `int` lengths; this is the
stable sort by length exactly when the `int` lengths of any two strings compare
as their lengths do.
-/

namespace ComputerSystems.LengthSort

open ByteMemory StableSort

/-! ## The source

The elements of a vector are pointers; `strlen` gives the length of the string
behind each.
-/

variable {α : Type} (strlen : α → ℕ)

/-- `svec_get`; an index outside fails the assertion. -/
def svecGet (xs : List α) (ii : ℤ) : Option α :=
  if 0 ≤ ii ∧ ii<xs.length then xs[ii.toNat]? else none

/-- `svec_put`; an index outside fails the assertion. -/
def svecPut (xs : List α) (ii : ℤ) (item : α) : Option (List α) :=
  if 0 ≤ ii ∧ ii<xs.length then some (xs.set ii.toNat item) else none

/-- `svec_swap`. -/
def svecSwap (xs : List α) (ii jj : ℤ) : Option (List α) :=
  (svecGet xs jj).bind (fun temp =>
    (svecGet xs ii).bind (fun item =>
      (svecPut xs jj item).bind (fun put => svecPut put ii temp)))

/-- The length of a string in an `int` variable. -/
def intLength (text : α) : ℤ := wrap32 (strlen text)

/-- One round of the loop of `sort`: the vector and the index after it. -/
def sortRound (xs : List α) (ii : ℤ) : Option (List α × ℤ) :=
  if ii=0 then some (xs,ii+1)
  else
    (svecGet xs (ii-1)).bind (fun before =>
      (svecGet xs ii).bind (fun this =>
        if intLength strlen before ≤ intLength strlen this then some (xs,ii+1)
        else (svecSwap xs ii (ii-1)).map (fun swapped => (swapped,ii-1))))

/-- The loop of `sort`, with a bound on its rounds. -/
def sortLoop (nn : ℤ) : ℕ → List α → ℤ → Option (List α)
  | 0,_,_ => none
  | fuel+1,xs,ii =>
    if ii<nn then (sortRound strlen xs ii).bind (fun next => sortLoop nn fuel next.1 next.2)
    else some xs

/-- `sort`; no result means that the rounds were too few or an assertion failed. -/
def sort (fuel : ℕ) (xs : List α) : Option (List α) := sortLoop strlen xs.length fuel xs 0

/-- `sort` ends without a failed assertion and leaves the stable sort by length. -/
def SortsByLength (xs : List α) : Prop :=
  ∃ fuel ys, sort strlen fuel xs=some ys ∧ StableSorted strlen xs ys

/-! ## One round -/

section Round

variable {before after : List α} {a b : α}

/-- The element at the index. -/
theorem svecGet_here : svecGet (before++a::after) (before.length : ℤ)=some a := by
  unfold svecGet
  rw [if_pos (by rw [List.length_append,List.length_cons]; omega),Int.toNat_natCast,
    List.getElem?_append_right (Nat.le_refl _),Nat.sub_self,List.getElem?_cons_zero]

/-- Writing the element at the index. -/
theorem svecPut_here (item : α) :
    svecPut (before++a::after) (before.length : ℤ) item=some (before++item::after) := by
  unfold svecPut
  rw [if_pos (by rw [List.length_append,List.length_cons]; omega),Int.toNat_natCast,
    List.set_append_right _ _ (Nat.le_refl _),Nat.sub_self,List.set_cons_zero]

/-- Swapping two neighbours. -/
theorem svecSwap_here :
    svecSwap (before++a::b::after) ((before.length : ℤ)+1) before.length=
      some (before++b::a::after) := by
  have hnext : ((before.length : ℤ)+1)=((before++[a]).length : ℤ) := by
    rw [List.length_append,List.length_singleton]
    rfl
  have hsecond : svecGet (before++a::b::after) ((before.length : ℤ)+1)=some b := by
    have hhere := @svecGet_here _ (before++[a]) after b
    rwa [List.append_assoc,List.singleton_append,←hnext] at hhere
  have hput : svecPut (before++b::b::after) ((before.length : ℤ)+1) a=some (before++b::a::after) := by
    have hhere := @svecPut_here _ (before++[b]) after b a
    rwa [List.append_assoc,List.append_assoc,List.singleton_append,List.singleton_append,
      List.length_append,List.length_singleton] at hhere
  rw [svecSwap,svecGet_here,Option.bind_some,hsecond,Option.bind_some,svecPut_here,Option.bind_some,
    hput]

/-- At the start the index moves forward. -/
theorem sortRound_start (xs : List α) : sortRound strlen xs 0=some (xs,1) := rfl

/-- Neighbours are compared: the index moves forward, or they are swapped and it
steps back. -/
theorem sortRound_pair :
    sortRound strlen (before++a::b::after) ((before.length : ℤ)+1)=
      if intLength strlen a ≤ intLength strlen b then
        some (before++a::b::after,(before.length : ℤ)+2)
      else some (before++b::a::after,(before.length : ℤ)) := by
  have hsecond : svecGet (before++a::b::after) ((before.length : ℤ)+1)=some b := by
    have hhere := @svecGet_here _ (before++[a]) after b
    rwa [List.append_assoc,List.singleton_append,List.length_append,List.length_singleton] at hhere
  unfold sortRound
  rw [if_neg (by omega),add_sub_cancel_right,svecGet_here,Option.bind_some,hsecond,Option.bind_some,
    svecSwap_here]
  rfl

end Round

/-! ## All rounds -/

/-- The vector before the index is sorted, and the whole of it is a rearrangement of
the first one. -/
structure Progress (xs before rest : List α) : Prop where
  /-- The vector. -/
  same : Rearranged (intLength strlen) xs (before++rest)
  /-- What is before the index. -/
  sorted : before.Pairwise (fun a b => intLength strlen a ≤ intLength strlen b)

/-- What is left to do: twice the inversions and the elements from the index on. -/
def remaining (before rest : List α) : ℕ :=
  2*inversions (intLength strlen) (before++rest)+rest.length

variable {strlen} {xs : List α}

/-- A round before the end makes progress. -/
theorem Progress.step {before rest : List α} (h : Progress strlen xs before rest) (hrest : rest≠[]) :
    ∃ before' rest', sortRound strlen (before++rest) before.length=
        some (before'++rest',(before'.length : ℤ)) ∧
      Progress strlen xs before' rest' ∧ remaining strlen before' rest'<remaining strlen before rest := by
  obtain ⟨b,after,rfl⟩ := List.exists_cons_of_ne_nil hrest
  rcases List.eq_nil_or_concat before with rfl|⟨front,a,rfl⟩
  · refine ⟨[b],after,sortRound_start strlen _,⟨h.same,List.pairwise_singleton _ b⟩,?_⟩
    unfold remaining
    simp only [List.nil_append,List.singleton_append,List.length_cons]
    omega
  · rw [List.concat_eq_append] at h ⊢
    have hlist : ∀ c d : α, front++[c]++d::after=front++c::d::after := by simp
    have hlength : ((front++[a]).length : ℤ)=(front.length : ℤ)+1 := by simp
    obtain ⟨hfront,-,hlast⟩ := List.pairwise_append.mp h.sorted
    have hsame := h.same
    rw [hlist] at hsame
    rw [hlist,hlength,sortRound_pair]
    by_cases hle : intLength strlen a ≤ intLength strlen b
    · refine ⟨front++[a,b],after,?_,⟨?_,?_⟩,?_⟩
      · rw [if_pos hle]
        simp
      · simpa using hsame
      · refine List.pairwise_append.mpr ⟨hfront,List.pairwise_pair.mpr hle,fun c hc d hd => ?_⟩
        have hca := hlast c hc a (List.mem_singleton.mpr rfl)
        rcases List.mem_cons.mp hd with rfl|hd
        · exact hca
        · rw [List.mem_singleton.mp hd]
          exact hca.trans hle
      · unfold remaining
        simp only [List.append_assoc,List.cons_append,List.nil_append,List.length_cons]
        omega
    · have hlt := not_le.mp hle
      refine ⟨front,b::a::after,?_,⟨hsame.swap hlt.ne',hfront⟩,?_⟩
      · rw [if_neg hle]
      · unfold remaining
        rw [hlist,inversions_swap front after hlt]
        simp only [List.length_cons]
        omega

/-- With rounds enough for what is left the loop ends with the stable sort by the
`int` lengths: by induction on the rounds. -/
theorem sortLoop_spec (fuel : ℕ) : ∀ before rest : List α, Progress strlen xs before rest →
    remaining strlen before rest<fuel →
    ∃ ys, sortLoop strlen xs.length fuel (before++rest) before.length=some ys ∧
      StableSorted (intLength strlen) xs ys := by
  induction fuel with
  | zero => exact fun _ _ _ hfuel => absurd hfuel (Nat.not_lt_zero _)
  | succ fuel ih =>
    intro before rest h hfuel
    have hlength := h.same.perm.length_eq
    rw [List.length_append] at hlength
    rw [sortLoop]
    by_cases hend : rest=[]
    · subst hend
      rw [List.length_nil] at hlength
      rw [if_neg (by omega),List.append_nil]
      have hsame := h.same
      rw [List.append_nil] at hsame
      exact ⟨before,rfl,hsame,h.sorted⟩
    · have hpos := List.length_pos_of_ne_nil hend
      obtain ⟨before',rest',hround,hnext,hless⟩ := h.step hend
      rw [if_pos (by omega),hround,Option.bind_some]
      exact ih before' rest' hnext (by omega)

/-- `sort` always ends, without a failed assertion, with the stable sort by the
`int` lengths. -/
theorem sort_spec (xs : List α) :
    ∃ fuel ys, sort strlen fuel xs=some ys ∧ StableSorted (intLength strlen) xs ys := by
  have hstart : Progress strlen xs [] xs := ⟨Rearranged.refl _ xs,List.Pairwise.nil⟩
  exact ⟨_,sortLoop_spec _ [] xs hstart (Nat.lt_succ_self _)⟩

/-- More rounds than needed change nothing: by induction on the rounds. -/
theorem sortLoop_more {nn : ℤ} {fuel : ℕ} (more : ℕ) : ∀ {list ys : List α} {ii : ℤ},
    sortLoop strlen nn fuel list ii=some ys → sortLoop strlen nn (fuel+more) list ii=some ys := by
  induction fuel with
  | zero => nofun
  | succ fuel ih =>
    intro list ys ii h
    rw [Nat.succ_add,sortLoop]
    rw [sortLoop] at h
    split_ifs at h ⊢ with hless
    · obtain ⟨next,hround,hrest⟩ := Option.bind_eq_some_iff.mp h
      rw [hround,Option.bind_some]
      exact ih hrest
    · exact h

/-- The result does not depend on the bound. -/
theorem sort_unique {fuel fuel' : ℕ} {ys zs : List α} (h : sort strlen fuel xs=some ys)
    (h' : sort strlen fuel' xs=some zs) : ys=zs := by
  have hys := sortLoop_more fuel' h
  have hzs := sortLoop_more fuel h'
  rw [Nat.add_comm] at hzs
  exact Option.some.inj (hys.symm.trans hzs)

/-! ## Lengths and `int` lengths -/

/-- The `int` lengths of any two strings of a vector, in the order they are in,
compare as their lengths do. -/
def LengthsAgree (strlen : α → ℕ) (xs : List α) : Prop :=
  xs.Pairwise (fun a b => intLength strlen a ≤ intLength strlen b ↔ strlen a ≤ strlen b)

/-- Equal lengths are equal as `int` lengths. -/
theorem intLength_congr {a b : α} (h : strlen a=strlen b) : intLength strlen a=intLength strlen b := by
  unfold intLength
  rw [h]

/-- A vector that is sorted by length has lengths that agree. -/
theorem agree_of_sorts (h : SortsByLength strlen xs) : LengthsAgree strlen xs := by
  obtain ⟨fuel,ys,hrun,hsorted⟩ := h
  obtain ⟨fuel',zs,hrun',hint⟩ := @sort_spec _ strlen xs
  rw [←sort_unique hrun hrun'] at hint
  exact hint.agree (fun a b => intLength_congr) hsorted

/-- `sort` ends inside the vector with the stable sort by length exactly when the
`int` lengths of any two strings compare as their lengths do. -/
theorem sorts_by_length_iff (strlen : α → ℕ) (xs : List α) :
    SortsByLength strlen xs ↔ LengthsAgree strlen xs := by
  constructor
  · exact agree_of_sorts
  · intro hagree
    obtain ⟨fuel,ys,hrun,hint⟩ := @sort_spec _ strlen xs
    exact ⟨fuel,ys,hrun,hint.of_agree (fun a b => intLength_congr) hagree⟩

/-- A string of 2^31 bytes stays in front of one of a single byte. -/
theorem huge_string_in_front :
    ¬SortsByLength List.length [List.replicate (2^31) 'a',['b']] := by
  intro hsorts
  have hagree := List.rel_of_pairwise_cons (agree_of_sorts hsorts) (List.mem_singleton.mpr rfl)
  unfold intLength at hagree
  rw [List.length_replicate] at hagree
  exact absurd (hagree.mp (by decide +kernel)) (by decide)

end ComputerSystems.LengthSort
