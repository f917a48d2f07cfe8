import Mathlib.Data.List.DropRight
import Mathlib.Tactic.Common

/-!
# Paths: splitting, parent and base name

A path is the list of bytes before its terminating NUL. `s_split` cuts it at a
delimiter; `dirname` and `basename` follow POSIX, with `/` for a path of
slashes only and `.` where there is no directory part. Normalized absolute
paths are rendered from lists of components, and the three functions are
computed on every rendered path.
-/

namespace ComputerSystems.NufsPath

/-- `s_split` with a bound on the number of pieces: the bytes up to the first
delimiter are one piece, and the split goes on after that delimiter. -/
def sSplitFrom (delim : UInt8) : ℕ → List UInt8 → List (List UInt8)
  | 0,_ => []
  | fuel+1,text =>
    if text=[] then []
    else
      let plen := (text.takeWhile (fun byte => byte≠delim)).length
      let skip := if plen<text.length then 1 else 0
      text.take plen::sSplitFrom delim fuel (text.drop (plen+skip))

/-- `s_split`: every piece uses up at least one byte, so the length bounds
their number. -/
def sSplit (text : List UInt8) (delim : UInt8) : List (List UInt8) :=
  sSplitFrom delim text.length text

/-- POSIX `basename`. -/
def basename (path : List UInt8) : List UInt8 :=
  if path=[] then [46]
  else
    let stem := path.rdropWhile (fun byte => byte=47)
    if stem=[] then [47] else stem.rtakeWhile (fun byte => byte≠47)

/-- POSIX `dirname`. -/
def dirname (path : List UInt8) : List UInt8 :=
  let stem := path.rdropWhile (fun byte => byte=47)
  if stem=[] then if path=[] then [46] else [47]
  else
    let parent := stem.rdropWhile (fun byte => byte≠47)
    if parent=[] then [46]
    else
      let trimmed := parent.rdropWhile (fun byte => byte=47)
      if trimmed=[] then [47] else trimmed

/-- One component of a normalized path: not empty, without `/` and NUL. -/
structure Component where
  /-- The bytes of the component. -/
  bytes : List UInt8
  /-- Components are not empty. -/
  nonempty : bytes≠[]
  /-- Components hold neither NUL nor the separator. -/
  plain : ∀ byte∈bytes, byte≠0 ∧ byte≠47
  deriving DecidableEq

/-- Components are equal when their bytes are. -/
@[ext]
theorem Component.ext_bytes {left right : Component} (h : left.bytes=right.bytes) : left=right := by
  cases left
  cases right
  cases h
  rfl

/-- Each component after its own slash. -/
def slashed (components : List Component) : List UInt8 :=
  components.flatMap (fun component => 47::component.bytes)

/-- The normalized absolute path of a list of components; `/` for none. -/
def render (components : List Component) : List UInt8 :=
  if components=[] then [47] else slashed components

/-- The last byte of a component is not a slash. -/
theorem Component.last_plain (component : Component) :
    ∃ front last, component.bytes=front++[last] ∧ last≠47 := by
  have he := List.dropLast_append_getLast component.nonempty
  exact ⟨component.bytes.dropLast,component.bytes.getLast component.nonempty,he.symm,
    (component.plain _ (List.getLast_mem _)).2⟩

/-- A component contributes one slash and its bytes at the end. -/
theorem slashed_concat (components : List Component) (component : Component) :
    slashed (components++[component])=slashed components++47::component.bytes := by
  simp only [slashed,List.flatMap_append,List.flatMap_cons,List.flatMap_nil,List.append_nil]

/-- A rendered path with a last component. -/
theorem render_concat (components : List Component) (component : Component) :
    render (components++[component])=slashed components++47::component.bytes := by
  rw [render,if_neg (by simp),slashed_concat]

/-- Trailing slashes are stripped only when there are some. -/
theorem slashed_strip {components : List Component} (h : components≠[]) :
    (slashed components).rdropWhile (fun byte => byte=47)=slashed components := by
  obtain ⟨front,last,rfl⟩ : ∃ front last, components=front++[last] :=
    ⟨components.dropLast,components.getLast h,(List.dropLast_append_getLast h).symm⟩
  obtain ⟨bytes,byte,hb,hne⟩ := last.last_plain
  rw [slashed_concat,hb,←List.cons_append,←List.append_assoc]
  exact List.rdropWhile_concat_neg _ _ _ (by simpa using hne)

/-- Taking from the right stops at the last slash. -/
theorem rtakeWhile_slash (front : List UInt8) {bytes : List UInt8} (h : ∀ byte∈bytes, byte≠47) :
    (front++47::bytes).rtakeWhile (fun byte => byte≠47)=bytes := by
  induction bytes using List.reverseRecOn with
  | nil => exact List.rtakeWhile_concat_neg _ _ _ (by simp)
  | append_singleton bytes byte ih =>
    have hb : byte≠47 := h byte (by simp)
    rw [←List.cons_append,←List.append_assoc,List.rtakeWhile_concat_pos _ _ _ (by simpa using hb),
      ih (fun other ho => h other (by simp [ho]))]

/-- Dropping from the right stops at the last slash. -/
theorem rdropWhile_slash (front : List UInt8) {bytes : List UInt8} (h : ∀ byte∈bytes, byte≠47) :
    (front++47::bytes).rdropWhile (fun byte => byte≠47)=front++[47] := by
  induction bytes using List.reverseRecOn with
  | nil => exact List.rdropWhile_concat_neg _ _ _ (by simp)
  | append_singleton bytes byte ih =>
    have hb : byte≠47 := h byte (by simp)
    rw [←List.cons_append,←List.append_assoc,List.rdropWhile_concat_pos _ _ _ (by simpa using hb),
      ih (fun other ho => h other (by simp [ho]))]

/-- A rendered path with a component has no trailing slash. -/
theorem render_strip (components : List Component) (component : Component) :
    (render (components++[component])).rdropWhile (fun byte => byte=47)=
      slashed components++47::component.bytes := by
  rw [render_concat,←slashed_concat,slashed_strip (by simp)]

/-- The base name of a rendered path is its last component. -/
theorem basename_render (components : List Component) (component : Component) :
    basename (render (components++[component]))=component.bytes := by
  have hs := render_strip components component
  unfold basename
  rw [if_neg (by rw [render_concat]; simp),hs,if_neg (by simp)]
  exact rtakeWhile_slash _ (fun byte hb => (component.plain byte hb).2)

/-- The parent of a rendered path is the path of the other components. -/
theorem dirname_render (components : List Component) (component : Component) :
    dirname (render (components++[component]))=render components := by
  have hs := render_strip components component
  have hp : (slashed components++47::component.bytes).rdropWhile (fun byte => byte≠47)=
      slashed components++[47] := rdropWhile_slash _ (fun byte hb => (component.plain byte hb).2)
  unfold dirname
  rw [hs,if_neg (by simp)]
  dsimp only
  rw [hp,if_neg (by simp),List.rdropWhile_concat_pos _ _ _ (by simp)]
  by_cases hc : components=[]
  · subst hc
    rfl
  · have hne : slashed components≠[] := by
      cases components with
      | nil => exact absurd rfl hc
      | cons first rest => simp [slashed]
    rw [slashed_strip hc,if_neg hne,render,if_neg hc]

/-- Enough fuel makes no difference to a split. -/
theorem sSplitFrom_stable (delim : UInt8) (fuel : ℕ) :
    ∀ text : List UInt8, text.length≤fuel →
      sSplitFrom delim fuel text=sSplitFrom delim text.length text := by
  induction fuel using Nat.strong_induction_on with
  | h fuel ih =>
    intro text hl
    cases text with
    | nil => cases fuel <;> simp [sSplitFrom]
    | cons byte rest =>
      cases fuel with
      | zero => simp at hl
      | succ fuel =>
        simp only [List.length_cons,sSplitFrom,reduceCtorEq,if_false,List.cons.injEq,true_and]
        generalize hp : (List.takeWhile (fun b => decide (b≠delim)) (byte::rest)).length=plen
        have hle : plen≤rest.length+1 := by
          rw [←hp]
          exact List.IsPrefix.length_le (List.takeWhile_prefix _)
        generalize hk : (if plen<rest.length+1 then 1 else 0)=skip
        have hpos : 1≤plen+skip := by
          rw [←hk]
          split <;> omega
        have hlen : ((byte::rest).drop (plen+skip)).length≤rest.length := by
          simp only [List.length_drop,List.length_cons]
          omega
        simp only [List.length_cons] at hl
        rw [ih fuel (by omega) _ (by omega),
          ih rest.length (by omega) _ hlen]

/-- Splitting at a delimiter that is there. -/
theorem sSplit_append {piece : List UInt8} {delim : UInt8} (h : ∀ byte∈piece, byte≠delim)
    (rest : List UInt8) : sSplit (piece++delim::rest) delim=piece::sSplit rest delim := by
  have ht : (piece++delim::rest).takeWhile (fun byte => byte≠delim)=piece := by
    rw [List.takeWhile_append_of_pos (by simpa using h)]
    simp
  have hne : piece++delim::rest≠[] := by simp
  have hlen : (piece++delim::rest).length=piece.length+rest.length+1 := by
    simp only [List.length_append,List.length_cons]
    omega
  rw [sSplit,hlen,sSplitFrom,if_neg hne]
  dsimp only
  rw [ht,if_pos (by omega),List.take_left,List.drop_append,sSplit,
    List.drop_eq_nil_of_le (by omega),Nat.add_sub_cancel_left]
  simp only [List.drop_succ_cons,List.drop_zero,List.nil_append]
  rw [sSplitFrom_stable delim _ rest (by omega)]

/-- Splitting where no delimiter is left. -/
theorem sSplit_last {piece : List UInt8} {delim : UInt8} (hne : piece≠[])
    (h : ∀ byte∈piece, byte≠delim) : sSplit piece delim=[piece] := by
  have ht : piece.takeWhile (fun byte => byte≠delim)=piece :=
    List.takeWhile_eq_self_iff.mpr (by simpa using h)
  have hlen : piece.length=(piece.length-1)+1 := by
    have := List.length_pos_of_ne_nil hne
    omega
  rw [sSplit,hlen,sSplitFrom,if_neg hne]
  dsimp only
  rw [ht,if_neg (by omega),List.take_length,List.drop_eq_nil_of_le (by omega)]
  cases piece.length-1 <;> simp [sSplitFrom]

/-- Splitting a rendered path after its first slash gives back the components. -/
theorem sSplit_render (component : Component) (components : List Component) :
    sSplit (render (component::components)).tail 47=
      component.bytes::components.map Component.bytes := by
  rw [render,if_neg (by simp)]
  induction components generalizing component with
  | nil =>
    simp only [slashed,List.flatMap_cons,List.flatMap_nil,List.append_nil,List.tail_cons,
      List.map_nil]
    exact sSplit_last component.nonempty (fun byte hb => (component.plain byte hb).2)
  | cons next rest ih =>
    have hs : (slashed (component::next::rest)).tail=
        component.bytes++47::(slashed (next::rest)).tail := by
      simp only [slashed,List.flatMap_cons,List.cons_append,List.tail_cons]
    rw [hs,sSplit_append (fun byte hb => (component.plain byte hb).2),ih next,List.map_cons]

/-- A rendered path with a component is not `/`. -/
theorem render_ne_root {components : List Component} (h : components≠[]) :
    render components≠[47] := by
  obtain ⟨front,last,rfl⟩ : ∃ front last, components=front++[last] :=
    ⟨components.dropLast,components.getLast h,(List.dropLast_append_getLast h).symm⟩
  intro he
  have hb := basename_render front last
  rw [he] at hb
  have hmem : (47 : UInt8)∈last.bytes := by
    rw [←hb]
    decide
  exact (last.plain 47 hmem).2 rfl

/-- Rendered paths are absolute. -/
theorem render_head (components : List Component) : (render components).head?=some 47 := by
  cases components with
  | nil => rfl
  | cons first rest =>
    rw [render,if_neg (by simp)]
    rfl

/-- The component `a`. -/
def nameA : Component := ⟨[97],by decide,by decide +kernel⟩

/-- The component `b`. -/
def nameB : Component := ⟨[98],by decide,by decide +kernel⟩

end ComputerSystems.NufsPath
