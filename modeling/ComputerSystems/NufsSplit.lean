import ComputerSystems.NufsPath

/-!
# Splitting a C string and joining its pieces

`s_split` walks a pointer along a string: it measures the bytes up to the
delimiter or the NUL, copies them, and calls itself behind the delimiter. On the
bytes of a string before its NUL this is `sSplit`. An empty piece at the end
vanishes and other empty pieces stay, so joining the pieces gives the string
back, less one delimiter at its end.
-/

namespace ComputerSystems.NufsSplit

open NufsPath

/-- The loop of `s_split` that measures a piece, on the bytes from a pointer to the
end of the storage; `none` is a read behind that end. -/
def pieceLength (delim : UInt8) : List UInt8 → Option ℕ
  | [] => none
  | byte::rest =>
    if byte≠0 ∧ byte≠delim then (pieceLength delim rest).map (fun plen => plen+1) else some 0

/-- `s_split` on the bytes from a pointer to the end of the storage, with a bound on
the depth of its calls. -/
def sSplitAt (delim : UInt8) : ℕ → List UInt8 → Option (List (List UInt8))
  | 0,_ => none
  | _+1,[] => none
  | fuel+1,first::more =>
    if first=0 then some []
    else do
      let plen ← pieceLength delim (first::more)
      let skip := if (first::more)[plen]?=some delim then 1 else 0
      let rest ← sSplitAt delim fuel ((first::more).drop (plen+skip))
      return (first::more).take plen::rest

section Split

variable {delim : UInt8}

/-- A text without the delimiter is one piece; another one begins with a piece, the
delimiter and the rest. -/
theorem cut_first (delim : UInt8) (text : List UInt8) : delim∉text ∨
    ∃ piece rest, text=piece++delim::rest ∧ delim∉piece := by
  by_cases h : delim∈text
  · exact Or.inr (List.eq_append_cons_of_mem h)
  · exact Or.inl h

/-- The bytes of a piece are not the delimiter. -/
theorem plain_of_not_mem {piece : List UInt8} (h : delim∉piece) : ∀ byte∈piece, byte≠delim :=
  fun _ hb he => h (he ▸ hb)

/-- Texts are split at every delimiter: induction over the pieces of a text. -/
theorem split_induction (delim : UInt8) {motive : List UInt8 → Prop} (hnil : motive [])
    (hlast : ∀ piece, piece≠[] → delim∉piece → motive piece)
    (hcut : ∀ piece rest, delim∉piece → motive rest → motive (piece++delim::rest))
    (text : List UInt8) : motive text := by
  induction hn : text.length using Nat.strong_induction_on generalizing text with
  | h n ih =>
    rcases cut_first delim text with hplain|⟨piece,rest,rfl,hpiece⟩
    · by_cases he : text=[]
      · rw [he]
        exact hnil
      · exact hlast text he hplain
    · rw [List.length_append,List.length_cons] at hn
      exact hcut piece rest hpiece (ih rest.length (by omega) rest rfl)

/-- The measured length of a piece. -/
theorem pieceLength_append {piece : List UInt8} (hzero : 0∉piece) (hplain : delim∉piece)
    {stop : UInt8} (hstop : stop=0 ∨ stop=delim) (tail : List UInt8) :
    pieceLength delim (piece++stop::tail)=some piece.length := by
  induction piece with
  | nil =>
    rw [List.nil_append,pieceLength,if_neg (by tauto)]
    rfl
  | cons byte rest ih =>
    rw [List.mem_cons,not_or] at hzero hplain
    rw [List.cons_append,pieceLength,if_pos ⟨Ne.symm hzero.1,Ne.symm hplain.1⟩,
      ih hzero.2 hplain.2]
    rfl

/-- One call of `s_split` on a piece that a NUL or the delimiter ends. -/
theorem sSplitAt_step {piece : List UInt8} (hzero : 0∉piece) (hplain : delim∉piece)
    {stop : UInt8} (hstop : stop=0 ∨ stop=delim) (hfirst : (piece++[stop]).head?≠some 0)
    (fuel : ℕ) (tail : List UInt8) : sSplitAt delim (fuel+1) (piece++stop::tail)=
      (sSplitAt delim fuel (if stop=delim then tail else stop::tail)).map
        (fun rest => piece::rest) := by
  obtain ⟨first,more,he⟩ : ∃ first more, piece++stop::tail=first::more := by
    cases piece with
    | nil => exact ⟨stop,tail,rfl⟩
    | cons byte rest => exact ⟨byte,rest++stop::tail,rfl⟩
  have hne : first≠0 := by
    intro hz
    refine hfirst ?_
    cases piece with
    | nil =>
      rw [List.nil_append,List.cons.injEq] at he
      rw [List.nil_append,List.head?_cons,he.1,hz]
    | cons byte rest =>
      rw [List.cons_append,List.cons.injEq] at he
      rw [List.cons_append,List.head?_cons,he.1,hz]
  have hlen := pieceLength_append hzero hplain hstop tail
  have hat : (piece++stop::tail)[piece.length]?=some stop := by
    rw [List.getElem?_append_right (Nat.le_refl _),Nat.sub_self,List.getElem?_cons_zero]
  rw [he,sSplitAt,if_neg hne,←he,hlen]
  dsimp only [Option.bind_eq_bind,Option.bind_some]
  rw [hat,List.take_left]
  by_cases hd : stop=delim
  · rw [if_pos (by rw [hd]),if_pos hd,List.drop_append,List.drop_eq_nil_of_le (by omega),
      Nat.add_sub_cancel_left,List.drop_succ_cons,List.drop_zero,List.nil_append]
    cases sSplitAt delim fuel tail with
    | none => rfl
    | some rest => rfl
  · rw [if_neg (by simpa using hd),if_neg hd,Nat.add_zero,List.drop_left]
    cases sSplitAt delim fuel (stop::tail) with
    | none => rfl
    | some rest => rfl

/-- On a C string `s_split` is `sSplit` of the bytes before the NUL, and never reads
behind it. -/
theorem sSplitAt_eq (hd : delim≠0) (tail text : List UInt8) : 0∉text →
    ∀ fuel, text.length<fuel → sSplitAt delim fuel (text++0::tail)=some (sSplit text delim) := by
  induction text using split_induction delim with
  | hnil =>
    intro _ fuel hfuel
    obtain ⟨fuel,rfl⟩ : ∃ more, fuel=more+1 := ⟨fuel-1,by omega⟩
    rfl
  | hlast piece hne hplain =>
    intro hzero fuel hfuel
    obtain ⟨byte,rest,rfl⟩ := List.exists_cons_of_ne_nil hne
    rw [List.length_cons] at hfuel
    obtain ⟨fuel,rfl⟩ : ∃ more, fuel=more+2 := ⟨fuel-2,by omega⟩
    have hbyte : byte≠0 := fun he => hzero (he ▸ List.mem_cons_self)
    rw [sSplitAt_step hzero hplain (Or.inl rfl) (by simpa using hbyte),if_neg (Ne.symm hd),
      sSplit_last hne (plain_of_not_mem hplain)]
    rfl
  | hcut piece rest hplain ih =>
    intro hzero fuel hfuel
    rw [List.length_append,List.length_cons] at hfuel
    obtain ⟨fuel,rfl⟩ : ∃ more, fuel=more+1 := ⟨fuel-1,by omega⟩
    have hpiece : 0∉piece := fun h => hzero (List.mem_append_left _ h)
    have hrest : 0∉rest := fun h => hzero (List.mem_append_right _ (List.mem_cons_of_mem _ h))
    have hfirst : (piece++[delim]).head?≠some 0 := by
      cases piece with
      | nil => simpa using hd
      | cons byte more =>
        simpa using fun he : byte=0 => hpiece (he ▸ List.mem_cons_self)
    rw [List.append_assoc,List.cons_append,sSplitAt_step hpiece hplain (Or.inr rfl) hfirst,
      if_pos rfl,ih hrest fuel (by omega),sSplit_append (plain_of_not_mem hplain)]
    rfl

/-- The empty text has no pieces. -/
theorem sSplit_nil : sSplit [] delim=[] := rfl

/-- Any other text has one. -/
theorem sSplit_ne_nil {text : List UInt8} (h : text≠[]) : sSplit text delim≠[] := by
  induction text using split_induction delim with
  | hnil => exact absurd rfl h
  | hlast piece hne hplain =>
    rw [sSplit_last hne (plain_of_not_mem hplain)]
    exact List.cons_ne_nil _ _
  | hcut piece rest hplain ih =>
    rw [sSplit_append (plain_of_not_mem hplain)]
    exact List.cons_ne_nil _ _

/-- No piece contains the delimiter. -/
theorem not_mem_of_mem_sSplit (text : List UInt8) : ∀ piece∈sSplit text delim, delim∉piece := by
  induction text using split_induction delim with
  | hnil => exact fun piece hp => absurd hp List.not_mem_nil
  | hlast piece hne hplain =>
    intro other ho
    rw [sSplit_last hne (plain_of_not_mem hplain),List.mem_singleton] at ho
    rwa [ho]
  | hcut piece rest hplain ih =>
    intro other ho
    rw [sSplit_append (plain_of_not_mem hplain)] at ho
    rcases List.mem_cons.mp ho with rfl|ho
    · exact hplain
    · exact ih other ho

/-- Joining the pieces gives the text, less one delimiter at its end. -/
theorem join_sSplit (text : List UInt8) : (if text.getLast?=some delim
    then [delim].intercalate (sSplit text delim)++[delim]
    else [delim].intercalate (sSplit text delim))=text := by
  induction text using split_induction delim with
  | hnil => rfl
  | hlast piece hne hplain =>
    have hlast : piece.getLast?≠some delim := fun h => hplain (List.mem_of_getLast? h)
    rw [if_neg hlast,sSplit_last hne (plain_of_not_mem hplain),List.intercalate_singleton]
  | hcut piece rest hplain ih =>
    rw [sSplit_append (plain_of_not_mem hplain)]
    by_cases hr : rest=[]
    · rw [hr,if_pos (by simp),sSplit_nil,List.intercalate_singleton]
    · rw [List.getLast?_append_of_ne_nil _ (List.cons_ne_nil _ _),List.getLast?_cons_of_ne_nil hr,
        List.intercalate_cons_of_ne_nil (sSplit_ne_nil hr)]
      split_ifs at ih ⊢ with hend
      · rw [List.append_assoc,List.append_assoc,ih,List.singleton_append]
      · rw [List.append_assoc,ih,List.singleton_append]

/-- Splitting joined pieces gives them back when the last one is not empty. -/
theorem sSplit_join {pieces : List (List UInt8)} (hne : pieces≠[])
    (hplain : ∀ piece∈pieces, delim∉piece) (hlast : pieces.getLast hne≠[]) :
    sSplit ([delim].intercalate pieces) delim=pieces := by
  induction pieces with
  | nil => exact absurd rfl hne
  | cons piece rest ih =>
    have hpiece := hplain piece List.mem_cons_self
    by_cases hr : rest=[]
    · subst hr
      rw [List.intercalate_singleton]
      exact sSplit_last hlast (plain_of_not_mem hpiece)
    · rw [List.getLast_cons hr] at hlast
      rw [List.intercalate_cons_of_ne_nil hr,List.append_assoc,List.singleton_append,
        sSplit_append (plain_of_not_mem hpiece),
        ih hr (fun other ho => hplain other (List.mem_cons_of_mem piece ho)) hlast]

/-- Joined pieces hold no NUL when the delimiter and the pieces hold none: by
induction on the pieces. -/
theorem zero_not_mem_join (hd : delim≠0) {pieces : List (List UInt8)}
    (h : ∀ piece∈pieces, 0∉piece) : 0∉[delim].intercalate pieces := by
  induction pieces with
  | nil => exact List.not_mem_nil
  | cons piece rest ih =>
    have hpiece := h piece List.mem_cons_self
    have hrest := ih (fun other ho => h other (List.mem_cons_of_mem piece ho))
    by_cases hr : rest=[]
    · rw [hr,List.intercalate_singleton]
      exact hpiece
    · rw [List.intercalate_cons_of_ne_nil hr,List.mem_append,List.mem_append,List.mem_singleton]
      tauto

end Split

/-- `s_split` and joining are inverse, for C strings and a delimiter that can occur
in one: no piece contains the delimiter, and joining the pieces gives the string,
less one delimiter at its end; and joined pieces without the delimiter, the last
one not empty, are split into those pieces. -/
theorem split_join_inverse {delim : UInt8} (hd : delim≠0) :
    (∀ (text tail : List UInt8) (fuel : ℕ), 0∉text → text.length<fuel →
      ∃ pieces, sSplitAt delim fuel (text++0::tail)=some pieces ∧
        (∀ piece∈pieces, delim∉piece) ∧
        (if text.getLast?=some delim then [delim].intercalate pieces++[delim]
          else [delim].intercalate pieces)=text) ∧
    (∀ (pieces : List (List UInt8)) (tail : List UInt8) (fuel : ℕ) (hne : pieces≠[]),
      (∀ piece∈pieces, 0∉piece ∧ delim∉piece) → pieces.getLast hne≠[] →
      ([delim].intercalate pieces).length<fuel →
      sSplitAt delim fuel ([delim].intercalate pieces++0::tail)=some pieces) := by
  constructor
  · intro text tail fuel hzero hfuel
    exact ⟨sSplit text delim,sSplitAt_eq hd tail text hzero fuel hfuel,
      not_mem_of_mem_sSplit text,join_sSplit text⟩
  · intro pieces tail fuel hne hplain hlast hfuel
    rw [sSplitAt_eq hd tail _ (zero_not_mem_join hd (fun piece hp => (hplain piece hp).1)) fuel
      hfuel,sSplit_join hne (fun piece hp => (hplain piece hp).2) hlast]

/-- The names of a path with two slashes in a row, one of them empty. -/
theorem split_a_slash_slash_b :
    sSplitAt 47 5 ([47].intercalate [[97],[],[98]]++0::[1])=some [[97],[],[98]] :=
  (split_join_inverse (show (47 : UInt8)≠0 by decide)).2 [[97],[],[98]] [1] 5 (by decide)
    (by decide +kernel) (by decide) (by decide)

end ComputerSystems.NufsSplit
