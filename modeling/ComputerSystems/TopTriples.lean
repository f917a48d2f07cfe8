import ComputerSystems.StableSort
import Mathlib.Data.List.Induction

/-!
# The selection loop of `top-triples.c`

The table starts with `val` 0 in every entry. Each pair of the hash map is
compared with the entries from the front; where its count is larger, the two
change places, and the loop goes on with the pair that was there but still
compares the first count. On a sorted table this shifts the rest by one, so the
table keeps the first entries of the stable sort by decreasing `val`.
-/

namespace ComputerSystems.TopTriples

open StableSort

/-- `hashmap_pair`. -/
structure HashmapPair where
  /-- `key`, without its NUL. -/
  key : List UInt8
  /-- `val`. -/
  val : ℤ
  /-- `used`. -/
  used : Bool
  /-- `tomb`. -/
  tomb : Bool
  deriving DecidableEq

/-- The inner loop over `tops`, with the pair it carries; `count` stays what it was
before the loop. -/
def shift (count : ℤ) : HashmapPair → List HashmapPair → List HashmapPair
  | _,[] => []
  | pair,top::rest =>
    if top.val<count then pair::shift count top rest else top::shift count pair rest

/-- One round of the selection loop. -/
def feed (tops : List HashmapPair) (pair : HashmapPair) : List HashmapPair :=
  if pair.used=false ∨ pair.tomb=true then tops else shift pair.val pair tops

/-- The selection loop over some pairs. -/
def select (tops pairs : List HashmapPair) : List HashmapPair := pairs.foldl feed tops

/-- The key of a pair in an order by decreasing `val`. -/
def falling (pair : HashmapPair) : ℤ := -pair.val

/-- The stable sort by decreasing `val`. -/
def byDecreasingVal (pairs : List HashmapPair) : List HashmapPair :=
  pairs.mergeSort (fun a b => decide (falling a≤falling b))

/-- A pair in front of smaller entries shifts all of them: by induction on the
entries. -/
theorem shift_smaller {count : ℤ} {tops : List HashmapPair} (h : ∀ top∈tops, top.val<count)
    (pair : HashmapPair) : shift count pair tops=(pair::tops).take tops.length := by
  induction tops generalizing pair with
  | nil => rfl
  | cons top rest ih =>
    rw [shift,if_pos (h top List.mem_cons_self),
      ih (fun other ho => h other (List.mem_cons_of_mem top ho)),List.length_cons,
      List.take_succ_cons]

/-- On a sorted table the loop inserts the pair and drops the last entry: by
induction on the table. -/
theorem shift_eq (pair : HashmapPair) {tops : List HashmapPair}
    (hs : tops.Pairwise (fun a b => falling a≤falling b)) :
    shift pair.val pair tops=(insertBehind falling pair tops).take tops.length := by
  induction tops with
  | nil => rfl
  | cons top rest ih =>
    obtain ⟨hmax,hrest⟩ := List.pairwise_cons.mp hs
    rw [shift,insertBehind]
    by_cases h : top.val<pair.val
    · have hall : ∀ other∈rest, other.val<pair.val := by
        intro other ho
        have hle := hmax other ho
        unfold falling at hle
        omega
      rw [if_pos h,if_pos (show falling pair<falling top by unfold falling; omega),
        shift_smaller hall,List.length_cons,List.take_succ_cons]
    · rw [if_neg h,if_neg (show ¬falling pair<falling top by unfold falling; omega),ih hrest,
        List.length_cons,List.take_succ_cons]

/-- The first entries after an insertion depend on the first entries alone: by
induction on their number. -/
theorem take_insertBehind (pair : HashmapPair) (n : ℕ) : ∀ all : List HashmapPair,
    (insertBehind falling pair (all.take n)).take n=(insertBehind falling pair all).take n := by
  induction n with
  | zero => exact fun _ => rfl
  | succ n ih =>
    intro all
    cases all with
    | nil => rfl
    | cons first rest =>
      rw [List.take_succ_cons,insertBehind,insertBehind]
      split_ifs with h
      · rw [List.take_succ_cons,List.take_succ_cons]
        refine congrArg (List.cons pair) ?_
        cases n with
        | zero => rfl
        | succ n => rw [List.take_succ_cons,List.take_succ_cons,List.take_take,
            Nat.min_eq_left (Nat.le_succ n)]
      · rw [List.take_succ_cons,List.take_succ_cons,ih]

/-- A pair goes in front of smaller entries: by induction on what is before them. -/
theorem insertBehind_append {pair : HashmapPair} {smaller : List HashmapPair}
    (h : ∀ top∈smaller, top.val<pair.val) (larger : List HashmapPair) :
    insertBehind falling pair (larger++smaller)=insertBehind falling pair larger++smaller := by
  induction larger with
  | nil =>
    cases smaller with
    | nil => rfl
    | cons top rest =>
      have htop := h top List.mem_cons_self
      have hlt : falling pair<falling top := by
        unfold falling
        omega
      exact if_pos hlt
  | cons first rest ih =>
    rw [List.cons_append,insertBehind,insertBehind]
    split_ifs
    · rfl
    · rw [ih,List.cons_append]

/-- One more pair in the stable sort. -/
theorem byDecreasingVal_concat (pairs : List HashmapPair) (pair : HashmapPair) :
    byDecreasingVal (pairs++[pair])=insertBehind falling pair (byDecreasingVal pairs) :=
  (stableSorted_mergeSort falling (pairs++[pair])).unique
    ((stableSorted_mergeSort falling pairs).insertBehind pair)

/-- The table after some pairs is in order, and so is what it is cut from. -/
theorem pairwise_sorted {pairs start : List HashmapPair} (hpairs : ∀ pair∈pairs, 0<pair.val)
    (hstart : ∀ top∈start, top.val=0) :
    (byDecreasingVal pairs++start).Pairwise (fun a b => falling a≤falling b) := by
  have hsorted := stableSorted_mergeSort falling pairs
  refine List.pairwise_append.mpr ⟨hsorted.sorted,?_,?_⟩
  · refine List.pairwise_of_forall_mem_list (fun a ha b hb => ?_)
    rw [falling,hstart a ha,falling,hstart b hb]
  · intro a ha b hb
    have hpos := hpairs a (hsorted.perm.mem_iff.mp ha)
    rw [falling,falling,hstart b hb]
    omega

/-- The table holds the first entries of the stable sort of the pairs fed so far by
decreasing `val`, followed by entries it started with where the pairs are too few:
by induction on the pairs. -/
theorem select_eq {start pairs : List HashmapPair} (hstart : ∀ top∈start, top.val=0)
    (hpairs : ∀ pair∈pairs, pair.used=true ∧ pair.tomb=false ∧ 0<pair.val) :
    select start pairs=(byDecreasingVal pairs++start).take start.length := by
  induction pairs using List.reverseRecOn with
  | nil =>
    rw [byDecreasingVal,List.mergeSort_nil,List.nil_append,List.take_length]
    rfl
  | append_singleton pairs pair ih =>
    have hbefore : ∀ other∈pairs, other.used=true ∧ other.tomb=false ∧ 0<other.val :=
      fun other ho => hpairs other (List.mem_append_left _ ho)
    obtain ⟨hused,htomb,hpos⟩ := hpairs pair (List.mem_append_right _ List.mem_cons_self)
    have hsorted := pairwise_sorted (fun other ho => (hbefore other ho).2.2) hstart
    have hsmaller : ∀ top∈start, top.val<pair.val := by
      intro top ht
      rw [hstart top ht]
      exact hpos
    have hlen : ((byDecreasingVal pairs++start).take start.length).length=start.length := by
      rw [List.length_take,List.length_append]
      omega
    have hround : select start (pairs++[pair])=feed (select start pairs) pair := by
      rw [select,List.foldl_append]
      rfl
    rw [hround,ih hbefore,feed,if_neg (by simp [hused,htomb]),
      shift_eq pair (hsorted.sublist (List.take_sublist _ _)),hlen,take_insertBehind,
      insertBehind_append hsmaller,byDecreasingVal_concat]

/-- The top-N table is the N largest: after any sequence of usable pairs with
positive `val`, the table of `NN` entries that started with `val` 0 holds the first
`NN` entries of the stable sort of the pairs by decreasing `val`, followed by entries
of `val` 0 if there were fewer than `NN` pairs. -/
theorem tops_are_largest {NN : ℕ} {start pairs : List HashmapPair} (hlen : start.length=NN)
    (hstart : ∀ top∈start, top.val=0)
    (hpairs : ∀ pair∈pairs, pair.used=true ∧ pair.tomb=false ∧ 0<pair.val) :
    StableSorted falling pairs (byDecreasingVal pairs) ∧
    ∃ rest, (∀ top∈rest, top.val=0) ∧ rest.length=NN-pairs.length ∧
      select start pairs=(byDecreasingVal pairs).take NN++rest := by
  have hsorted := stableSorted_mergeSort falling pairs
  have hcount : (byDecreasingVal pairs).length=pairs.length := hsorted.perm.length_eq
  refine ⟨hsorted,start.take (NN-pairs.length),?_,?_,?_⟩
  · exact fun top ht => hstart top (List.mem_of_mem_take ht)
  · rw [List.length_take]
    omega
  · rw [select_eq hstart hpairs,hlen,List.take_append,hcount]

/-- A table of two entries, as it may be before the loop. -/
def blankTable : List HashmapPair := [⟨[],0,false,false⟩,⟨[120],0,true,true⟩]

/-- Pairs with counts 1, 2 and 1. -/
def threePairs : List HashmapPair :=
  [⟨[97],1,true,false⟩,⟨[98],2,true,false⟩,⟨[99],1,true,false⟩]

/-- The table after three pairs. -/
theorem two_of_three : ∃ rest, (∀ top∈rest, top.val=0) ∧ rest.length=2-threePairs.length ∧
    select blankTable threePairs=(byDecreasingVal threePairs).take 2++rest :=
  (tops_are_largest (show blankTable.length=2 from rfl) (by decide)
    (show ∀ pair∈threePairs, pair.used=true ∧ pair.tomb=false ∧ 0<pair.val by decide)).2

end ComputerSystems.TopTriples
