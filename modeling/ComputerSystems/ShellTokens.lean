import Mathlib.Data.List.Chain
import Mathlib.Data.List.GetD
import Mathlib.Data.List.TakeWhile
import Mathlib.Tactic.Common

/-!
# The tokenizer of the shell

A command line is cut into operators, digit strings and words. Printing any
list of well-formed tokens, with white space wherever two tokens of one kind
meet and any amount of it elsewhere, and tokenizing the result gives the list
back. Every token the tokenizer finds is well-formed, so tokenizing, printing
and tokenizing again changes nothing; and the tokens of a line, put together, are
the line without its white space.
-/

namespace ComputerSystems.ShellTokens

/-- `isspace` of the C locale. -/
def isspace (c : UInt8) : Bool := c=32 || (9≤c && c≤13)

/-- `isdigit` of the C locale. -/
def isdigit (c : UInt8) : Bool := 48≤c && c≤57

/-- `isoperator`: one of `<`, `>`, `|`, `&` and `;`. -/
def isoperator (c : UInt8) : Bool := c=60 || c=62 || c=124 || c=38 || c=59

/-- `isbooloperator`: one of `|` and `&`. -/
def isbooloperator (c : UInt8) : Bool := c=124 || c=38

/-- `isnullterminator`. -/
def isnullterminator (c : UInt8) : Bool := c=0

/-- The character of a C string at an index; the terminator stands at its end. -/
def charAt (text : List UInt8) (ii : ℕ) : UInt8 := text.getD ii 0

/-- `strlen`. -/
def strlen (text : List UInt8) : ℕ := (text.takeWhile (fun c => !isnullterminator c)).length

/-- `parse_number`: the digits from an index on. -/
def parseNumber (text : List UInt8) (ii : ℕ) : List UInt8 := (text.drop ii).takeWhile isdigit

/-- The characters that `parse_arg_token` goes on over. -/
def isargument (c : UInt8) : Bool := !isspace c && !isoperator c && !isnullterminator c

/-- `parse_arg_token`: the characters from an index on, up to white space, an
operator or the end. -/
def parseArgToken (text : List UInt8) (ii : ℕ) : List UInt8 :=
  (text.drop ii).takeWhile isargument

/-- `parse_operator`: one character, or two equal ones that form a boolean
operator. -/
def parseOperator (text : List UInt8) (ii : ℕ) : List UInt8 :=
  let nn := if isbooloperator (charAt text (ii+1)) && charAt text ii=charAt text (ii+1) then 2 else 1
  (text.drop ii).take nn

/-- The loop of `tokenize` from an index on, with a bound on its rounds. -/
def tokenizeFrom (line : List UInt8) : ℕ → ℕ → List (List UInt8)
  | 0,_ => []
  | left+1,ii =>
    if ii < strlen line then
      if isspace (charAt line ii) then tokenizeFrom line left (ii+1)
      else if isoperator (charAt line ii) then
        let op := parseOperator line ii
        op::tokenizeFrom line left (ii+op.length)
      else if isdigit (charAt line ii) then
        let num := parseNumber line ii
        num::tokenizeFrom line left (ii+num.length)
      else
        let arg := parseArgToken line ii
        arg::tokenizeFrom line left (ii+arg.length)
    else []

/-- `tokenize`; every round moves on, so there are no more rounds than
characters. -/
def tokenize (line : List UInt8) : List (List UInt8) := tokenizeFrom line (strlen line) 0

/-! ## Well-formed tokens and their spacing -/

/-- The seven operators. -/
def operators : List (List UInt8) := [[60],[62],[124],[38],[59],[124,124],[38,38]]

/-- A nonempty string of digits. -/
def IsNumber (token : List UInt8) : Prop := token≠[] ∧ ∀ c∈token, isdigit c=true

/-- A nonempty string without white space, operators and terminators that does
not begin with a digit. -/
def IsWord (token : List UInt8) : Prop :=
  token≠[] ∧ (∀ c∈token, isargument c=true) ∧ isdigit (charAt token 0)=false

/-- The tokens of a command line. -/
def WellFormed (token : List UInt8) : Prop :=
  token∈operators ∨ IsNumber token ∨ IsWord token

/-- Tokens of one kind are kept apart by white space. -/
def Apart (part next : List UInt8 × List UInt8) : Prop :=
  (part.1∈operators ↔ next.1∈operators) → part.2≠[]

/-- A way to write a list of tokens as a line: each token is followed by white
space, which is not empty between two operators or two other tokens. -/
structure Spacing where
  /-- White space before the first token. -/
  lead : List UInt8
  /-- The tokens with the white space after each. -/
  parts : List (List UInt8 × List UInt8)
  /-- The line begins with white space only. -/
  lead_space : ∀ c∈lead, isspace c=true
  /-- The tokens are well-formed. -/
  wellFormed : ∀ part∈parts, WellFormed part.1
  /-- Tokens are followed by white space only. -/
  gap_space : ∀ part∈parts, ∀ c∈part.2, isspace c=true
  /-- Tokens of one kind are kept apart. -/
  apart : parts.IsChain Apart

/-- The tokens that are written. -/
def Spacing.tokens (s : Spacing) : List (List UInt8) := s.parts.map Prod.fst

/-- Tokens and white space in order. -/
def spell (parts : List (List UInt8 × List UInt8)) : List UInt8 :=
  parts.flatMap (fun part => part.1++part.2)

/-- The line that is written. -/
def Spacing.line (s : Spacing) : List UInt8 := s.lead++spell s.parts

/-! ## Characters -/

/-- What can be checked for all 256 characters holds of every character. -/
theorem forall_char (property : UInt8 → Prop) (h : ∀ n<256, property (UInt8.ofNat n))
    (c : UInt8) : property c := by
  have hc := h c.toNat c.toNat_lt
  rwa [UInt8.ofNat_toNat] at hc

/-- White space is no part of a token and no terminator. -/
theorem of_isspace (c : UInt8) :
    isspace c=true → isoperator c=false ∧ isargument c=false ∧ c≠0 :=
  forall_char (fun c => isspace c=true → isoperator c=false ∧ isargument c=false ∧ c≠0)
    (by decide +kernel) c

/-- An operator is no white space and no part of another token. -/
theorem of_isoperator (c : UInt8) :
    isoperator c=true → isspace c=false ∧ isargument c=false ∧ c≠0 ∧ [c]∈operators :=
  forall_char (fun c => isoperator c=true → isspace c=false ∧ isargument c=false ∧ c≠0 ∧
    [c]∈operators) (by decide +kernel) c

/-- Other characters are neither white space nor operators. -/
theorem of_isargument (c : UInt8) :
    isargument c=true → isspace c=false ∧ isoperator c=false ∧ c≠0 :=
  forall_char (fun c => isargument c=true → isspace c=false ∧ isoperator c=false ∧ c≠0)
    (by decide +kernel) c

/-- Digits are such characters. -/
theorem isargument_of_isdigit (c : UInt8) : isdigit c=true → isargument c=true :=
  forall_char (fun c => isdigit c=true → isargument c=true) (by decide +kernel) c

/-- Boolean operators are operators, doubled as well. -/
theorem of_isbooloperator (c : UInt8) :
    isbooloperator c=true → isoperator c=true ∧ [c,c]∈operators :=
  forall_char (fun c => isbooloperator c=true → isoperator c=true ∧ [c,c]∈operators)
    (by decide +kernel) c

/-- Every character of an operator is an operator. -/
theorem operators_chars : ∀ token∈operators, token≠[] ∧ ∀ c∈token, isoperator c=true := by
  decide +kernel

/-! ## One round -/

/-- A line without a terminator inside has its own length. -/
theorem strlen_eq {line : List UInt8} (h : ∀ c∈line, c≠0) : strlen line=line.length := by
  have hall : line.takeWhile (fun c => !isnullterminator c)=line :=
    List.takeWhile_eq_self_iff.mpr (fun c hc => by simpa [isnullterminator] using h c hc)
  rw [strlen,hall]

/-- Characters after a beginning. -/
theorem charAt_append (done rest : List UInt8) (k : ℕ) :
    charAt (done++rest) (done.length+k)=charAt rest k := by
  rw [charAt,charAt,List.getD_append_right _ _ _ _ (by omega),Nat.add_sub_cancel_left]

/-- The first character after a beginning. -/
theorem charAt_append_zero (done rest : List UInt8) :
    charAt (done++rest) done.length=charAt rest 0 := charAt_append done rest 0

/-- A scan stops where the characters it goes on over end. -/
theorem takeWhile_stop {p : UInt8 → Bool} {token rest : List UInt8} (ht : ∀ c∈token, p c=true)
    (hr : p (charAt rest 0)=false) : (token++rest).takeWhile p=token := by
  have hrest : rest.takeWhile p=[] := by
    cases rest with
    | nil => rfl
    | cons c tail =>
      have hc : p c=false := hr
      rw [List.takeWhile_cons,hc]
      rfl
  rw [List.takeWhile_append_of_pos ht,hrest,List.append_nil]

/-- What follows a token does not continue it. -/
def Stops (token rest : List UInt8) : Prop :=
  if token∈operators then isoperator (charAt rest 0)=false
  else isargument (charAt rest 0)=false

/-- The first character of a token. -/
theorem charAt_token {token : List UInt8} (h : token≠[]) (rest : List UInt8) :
    charAt (token++rest) 0∈token := by
  cases token with
  | nil => exact absurd rfl h
  | cons c tail => exact List.mem_cons_self

/-- A token of arguments characters is no operator. -/
theorem not_operator_of_argument {token : List UInt8} (h : token≠[])
    (ha : ∀ c∈token, isargument c=true) : token∉operators := by
  intro ho
  have hc := charAt_token h []
  have hop := (operators_chars token ho).2 _ hc
  rw [(of_isargument _ (ha _ hc)).2.1] at hop
  cases hop

/-- A number is made of argument characters. -/
theorem IsNumber.argument {token : List UInt8} (h : IsNumber token) :
    ∀ c∈token, isargument c=true := fun c hc => isargument_of_isdigit c (h.2 c hc)

/-- A well-formed token is not empty. -/
theorem WellFormed.ne_nil {token : List UInt8} (h : WellFormed token) : token≠[] := by
  rcases h with h|h|h
  · exact (operators_chars token h).1
  · exact h.1
  · exact h.1

/-- The characters of a well-formed token are operators or argument characters,
by its kind. -/
theorem WellFormed.chars {token : List UInt8} (h : WellFormed token) :
    (token∈operators ∧ ∀ c∈token, isoperator c=true) ∨
      (token∉operators ∧ ∀ c∈token, isargument c=true) := by
  rcases h with h|h|h
  · exact Or.inl ⟨h,(operators_chars token h).2⟩
  · exact Or.inr ⟨not_operator_of_argument h.1 h.argument,h.argument⟩
  · exact Or.inr ⟨not_operator_of_argument h.1 h.2.1,h.2.1⟩

/-- An operator is read to its end. -/
theorem parseOperator_eq {done token rest : List UInt8} (h : token∈operators)
    (hstop : isoperator (charAt rest 0)=false) :
    parseOperator (done++(token++rest)) done.length=token := by
  have hbool : isbooloperator (charAt rest 0)=false := by
    by_contra hb
    rw [Bool.not_eq_false] at hb
    rw [(of_isbooloperator _ hb).1] at hstop
    cases hstop
  have hlist : token=[60] ∨ token=[62] ∨ token=[124] ∨ token=[38] ∨ token=[59] ∨
      token=[124,124] ∨ token=[38,38] := by simpa [operators] using h
  have hsingle : ∀ c, charAt ([c]++rest) 1=charAt rest 0 := fun c => charAt_append [c] rest 0
  unfold parseOperator
  rw [charAt_append_zero,charAt_append,List.drop_left]
  rcases hlist with rfl|rfl|rfl|rfl|rfl|rfl|rfl
  all_goals first
    | rw [hsingle,hbool,Bool.false_and,if_neg Bool.false_ne_true]
      rfl
    | rfl

/-- The round that reads a token. -/
theorem tokenizeFrom_token {done token rest : List UInt8} (h : WellFormed token)
    (hstop : Stops token rest) (hnul : ∀ c∈done++(token++rest), c≠0) (left : ℕ) :
    tokenizeFrom (done++(token++rest)) (left+1) done.length=
      token::tokenizeFrom (done++(token++rest)) left (done++token).length := by
  have hne := h.ne_nil
  have hinside : done.length<strlen (done++(token++rest)) := by
    rw [strlen_eq hnul,List.length_append,List.length_append]
    have hpos := List.length_pos_iff.mpr hne
    omega
  have hfirst := charAt_token hne rest
  rw [tokenizeFrom,if_pos hinside,charAt_append_zero,List.length_append]
  by_cases hop : token∈operators
  · have hc := (operators_chars token hop).2 _ hfirst
    rw [Stops,if_pos hop] at hstop
    rw [if_neg (by rw [(of_isoperator _ hc).1]; exact Bool.false_ne_true),if_pos hc]
    dsimp only
    rw [parseOperator_eq hop hstop]
  · rw [Stops,if_neg hop] at hstop
    have hargument : ∀ c∈token, isargument c=true := by
      rcases h with h|h|h
      · exact absurd h hop
      · exact h.argument
      · exact h.2.1
    obtain ⟨hspace,hoper,_⟩ := of_isargument _ (hargument _ hfirst)
    rw [hspace,hoper,if_neg Bool.false_ne_true,if_neg Bool.false_ne_true]
    rcases h with h|h|h
    · exact absurd h hop
    · have hdigit : isdigit (charAt rest 0)=false := by
        by_contra hd
        rw [Bool.not_eq_false] at hd
        rw [isargument_of_isdigit _ hd] at hstop
        cases hstop
      rw [if_pos (h.2 _ hfirst)]
      dsimp only
      rw [parseNumber,List.drop_left,takeWhile_stop h.2 hdigit]
    · have hdigit : isdigit (charAt (token++rest) 0)=false := by
        cases token with
        | nil => exact absurd rfl hne
        | cons c tail => exact h.2.2
      rw [hdigit,if_neg Bool.false_ne_true]
      dsimp only
      rw [parseArgToken,List.drop_left,takeWhile_stop hargument hstop]

/-- The rounds that skip white space: by induction on the white space. -/
theorem tokenizeFrom_gap (gap : List UInt8) : ∀ (done rest : List UInt8) (left : ℕ),
    (∀ c∈gap, isspace c=true) → (∀ c∈done++(gap++rest), c≠0) →
    tokenizeFrom (done++(gap++rest)) (gap.length+left) done.length=
      tokenizeFrom (done++(gap++rest)) left (done++gap).length := by
  induction gap with
  | nil =>
    intro done rest left _ _
    rw [List.length_nil,Nat.zero_add,List.append_nil]
  | cons c gap ih =>
    intro done rest left hgap hnul
    have hc := hgap c List.mem_cons_self
    have hinside : done.length<strlen (done++(c::gap++rest)) := by
      rw [strlen_eq hnul,List.length_append,List.length_append,List.length_cons]
      omega
    have hmove : done++(c::gap++rest)=(done++[c])++(gap++rest) := by
      rw [List.append_assoc]
      rfl
    have hrest := ih (done++[c]) rest left (fun d hd => hgap d (List.mem_cons_of_mem c hd))
      (by rw [←hmove]; exact hnul)
    have hfirst : charAt (done++(c::gap++rest)) done.length=c := charAt_append_zero done _
    rw [←hmove,List.length_append,List.append_assoc] at hrest
    rw [List.length_cons,Nat.add_right_comm,tokenizeFrom,if_pos hinside,hfirst,if_pos hc]
    exact hrest

/-! ## Whole lines -/

/-- At the end of the line nothing is left to read. -/
theorem tokenizeFrom_end {line : List UInt8} (h : ∀ c∈line, c≠0) (left : ℕ) :
    tokenizeFrom line left line.length=[] := by
  cases left with
  | zero => rfl
  | succ left =>
    rw [tokenizeFrom,strlen_eq h,if_neg (Nat.lt_irrefl _)]

/-- White space continues no token. -/
theorem stops_of_isspace {token rest : List UInt8} (h : isspace (charAt rest 0)=true) :
    Stops token rest := by
  unfold Stops
  split
  · exact (of_isspace _ h).1
  · exact (of_isspace _ h).2.1

/-- The end of the line continues no token. -/
theorem stops_nil (token : List UInt8) : Stops token [] := by
  unfold Stops
  split <;> rfl

/-- A token of the other kind continues no token. -/
theorem stops_of_other {token next : List UInt8} (rest : List UInt8) (hnext : WellFormed next)
    (h : ¬(token∈operators ↔ next∈operators)) : Stops token (next++rest) := by
  have hfirst := charAt_token hnext.ne_nil rest
  unfold Stops
  rcases hnext.chars with ⟨hop,hchars⟩|⟨hop,hchars⟩
  · have htoken : token∉operators := fun ht => h ⟨fun _ => hop,fun _ => ht⟩
    rw [if_neg htoken]
    exact (of_isoperator _ (hchars _ hfirst)).2.1
  · have htoken : token∈operators := by
      by_contra ht
      exact h ⟨fun h' => absurd h' ht,fun h' => absurd h' hop⟩
    rw [if_pos htoken]
    exact (of_isargument _ (hchars _ hfirst)).2.1

/-- The spelling of a token, its white space and what follows. -/
theorem spell_cons (part : List UInt8 × List UInt8) (parts : List (List UInt8 × List UInt8)) :
    spell (part::parts)=part.1++(part.2++spell parts) := by
  rw [spell,List.flatMap_cons,List.append_assoc]
  rfl

/-- What is spelled after a token does not continue it. -/
theorem stops_of_apart {part : List UInt8 × List UInt8} {parts : List (List UInt8 × List UInt8)}
    (hgap : ∀ c∈part.2, isspace c=true) (hnext : ∀ next∈parts, WellFormed next.1)
    (hapart : (part::parts).IsChain Apart) :
    Stops part.1 (part.2++spell parts) := by
  obtain ⟨token,gap⟩ := part
  cases gap with
  | cons c gap => exact stops_of_isspace (hgap c List.mem_cons_self)
  | nil =>
    cases parts with
    | nil => exact stops_nil token
    | cons next parts =>
      have hother : ¬(token∈operators ↔ next.1∈operators) :=
        fun h => (List.isChain_cons_cons.mp hapart).1 h rfl
      rw [List.nil_append,spell_cons]
      exact stops_of_other _ (hnext next List.mem_cons_self) hother

/-- Reading from the end of a beginning that is followed by the spelled tokens:
by induction on the tokens left. -/
theorem tokenizeFrom_spell (parts : List (List UInt8 × List UInt8)) :
    ∀ (done : List UInt8) (left : ℕ), (∀ c∈done++spell parts, c≠0) →
    (∀ part∈parts, WellFormed part.1) → (∀ part∈parts, ∀ c∈part.2, isspace c=true) →
    parts.IsChain Apart → (spell parts).length≤left →
    tokenizeFrom (done++spell parts) left done.length=parts.map Prod.fst := by
  induction parts with
  | nil =>
    intro done left hnul _ _ _ _
    rw [spell,List.flatMap_nil,List.append_nil] at hnul ⊢
    exact tokenizeFrom_end hnul left
  | cons part parts ih =>
    intro done left hnul hform hgap hapart hleft
    rw [spell_cons] at hnul hleft ⊢
    have htoken := hform part List.mem_cons_self
    have hspace := hgap part List.mem_cons_self
    have hpos := List.length_pos_iff.mpr htoken.ne_nil
    have hstop := stops_of_apart hspace
      (fun next hn => hform next (List.mem_cons_of_mem part hn)) hapart
    rw [List.length_append,List.length_append] at hleft
    obtain ⟨rest,rfl⟩ : ∃ rest, left=(part.2.length+rest)+1 :=
      ⟨left-1-part.2.length,by omega⟩
    rw [tokenizeFrom_token htoken hstop hnul,List.map_cons]
    congr 1
    have hsplit : done++(part.1++(part.2++spell parts))=
        (done++part.1)++(part.2++spell parts) := (List.append_assoc _ _ _).symm
    rw [hsplit] at hnul ⊢
    rw [tokenizeFrom_gap part.2 (done++part.1) (spell parts) rest hspace hnul]
    rw [←List.append_assoc] at hnul ⊢
    exact ih (done++part.1++part.2) rest hnul
      (fun next hn => hform next (List.mem_cons_of_mem part hn))
      (fun next hn => hgap next (List.mem_cons_of_mem part hn)) (List.isChain_cons.mp hapart).2 (by omega)

/-- A spelled line holds no terminator. -/
theorem Spacing.line_ne_zero (s : Spacing) : ∀ c∈s.line, c≠0 := by
  intro c hc
  rw [line,spell,List.mem_append,List.mem_flatMap] at hc
  rcases hc with hc|⟨part,hpart,hc⟩
  · exact (of_isspace c (s.lead_space c hc)).2.2
  · rcases List.mem_append.mp hc with hc|hc
    · rcases (s.wellFormed part hpart).chars with ⟨_,hchars⟩|⟨_,hchars⟩
      · exact (of_isoperator c (hchars c hc)).2.2.1
      · exact (of_isargument c (hchars c hc)).2.2
    · exact (of_isspace c (s.gap_space part hpart c hc)).2.2

/-- Reading a spelled line gives the tokens that were written. -/
theorem Spacing.tokenize_line (s : Spacing) : tokenize s.line=s.tokens := by
  have hnul := s.line_ne_zero
  have hrest := tokenizeFrom_spell s.parts s.lead (spell s.parts).length hnul s.wellFormed
    s.gap_space s.apart (Nat.le_refl _)
  have hgap := tokenizeFrom_gap s.lead [] (spell s.parts) (spell s.parts).length s.lead_space hnul
  rw [tokenize,strlen_eq hnul,line,List.length_append]
  exact hgap.trans hrest

/-! ## The tokens of any line -/

/-- Inside a string every character passes the scan that measures it. -/
theorem charAt_ne_zero {line : List UInt8} {ii : ℕ} (h : ii<strlen line) : charAt line ii≠0 := by
  have hpre := List.takeWhile_prefix (l:=line) (fun c => !isnullterminator c)
  have hmem := List.getElem_mem h
  have hkeep := List.mem_takeWhile_imp hmem
  rw [hpre.getElem h] at hkeep
  intro hzero
  rw [charAt,List.getD_eq_getElem _ _ (h.trans_le hpre.length_le)] at hzero
  rw [hzero] at hkeep
  cases hkeep

/-- A character other than the terminator stands in the string. -/
theorem drop_eq_cons {line : List UInt8} {ii : ℕ} (h : charAt line ii≠0) :
    line.drop ii=charAt line ii::line.drop (ii+1) := by
  by_cases hii : ii<line.length
  · rw [List.drop_eq_getElem_cons hii,charAt,List.getD_eq_getElem _ _ hii]
  · exact absurd (List.getD_eq_default _ _ (by omega)) h

/-- What `parse_operator` finds at an operator is an operator. -/
theorem parseOperator_mem {line : List UInt8} {ii : ℕ} (h : isoperator (charAt line ii)=true) :
    parseOperator line ii∈operators := by
  have hfirst := (of_isoperator _ h).2.2
  unfold parseOperator
  dsimp only
  rw [drop_eq_cons hfirst.1]
  split
  · rename_i hboth
    obtain ⟨hbool,hsame⟩ := (Bool.and_eq_true _ _).mp hboth
    have hsame : charAt line ii=charAt line (ii+1) := of_decide_eq_true hsame
    have hsecond : charAt line (ii+1)≠0 := hsame ▸ hfirst.1
    rw [drop_eq_cons hsecond,hsame]
    exact (of_isbooloperator _ hbool).2
  · exact hfirst.2

/-- A scan that goes on over the first character finds a nonempty string of
such characters. -/
theorem takeWhile_spec {p : UInt8 → Bool} {line : List UInt8} {ii : ℕ}
    (hzero : charAt line ii≠0) (h : p (charAt line ii)=true) :
    (line.drop ii).takeWhile p≠[] ∧ (∀ c∈(line.drop ii).takeWhile p, p c=true) ∧
      charAt ((line.drop ii).takeWhile p) 0=charAt line ii := by
  refine ⟨?_,fun c hc => List.mem_takeWhile_imp hc,?_⟩
  · rw [drop_eq_cons hzero,List.takeWhile_cons,if_pos h]
    exact List.cons_ne_nil _ _
  · rw [drop_eq_cons hzero,List.takeWhile_cons,if_pos h]
    rfl

/-- A round that skips white space. -/
theorem tokenizeFrom_space {line : List UInt8} {ii : ℕ} (hinside : ii<strlen line)
    (hspace : isspace (charAt line ii)=true) (left : ℕ) :
    tokenizeFrom line (left+1) ii=tokenizeFrom line left (ii+1) := by
  rw [tokenizeFrom,if_pos hinside,if_pos hspace]

/-- Every other round finds a well-formed token where it stands and goes on behind
it. -/
theorem tokenizeFrom_round {line : List UInt8} {ii : ℕ} (hinside : ii<strlen line)
    (hspace : isspace (charAt line ii)=false) :
    ∃ token rest, WellFormed token ∧ line.drop ii=token++rest ∧
      ∀ left, tokenizeFrom line (left+1) ii=token::tokenizeFrom line left (ii+token.length) := by
  have hzero := charAt_ne_zero hinside
  by_cases hop : isoperator (charAt line ii)=true
  · refine ⟨parseOperator line ii,_,Or.inl (parseOperator_mem hop),
      (List.take_append_drop _ _).symm,fun left => ?_⟩
    rw [tokenizeFrom,if_pos hinside,hspace,if_neg Bool.false_ne_true,if_pos hop]
  · by_cases hdigit : isdigit (charAt line ii)=true
    · have hnum := takeWhile_spec hzero hdigit
      refine ⟨parseNumber line ii,_,Or.inr (Or.inl ⟨hnum.1,hnum.2.1⟩),
        (List.takeWhile_append_dropWhile).symm,fun left => ?_⟩
      rw [tokenizeFrom,if_pos hinside,hspace,if_neg Bool.false_ne_true,if_neg hop,if_pos hdigit]
    · have hargument : isargument (charAt line ii)=true := by
        simp [isargument,isnullterminator,hspace,hop,hzero]
      have harg := takeWhile_spec hzero hargument
      have hword : IsWord (parseArgToken line ii) := by
        refine ⟨harg.1,harg.2.1,?_⟩
        rw [parseArgToken,harg.2.2]
        exact Bool.not_eq_true _ ▸ hdigit
      refine ⟨parseArgToken line ii,_,Or.inr (Or.inr hword),
        (List.takeWhile_append_dropWhile).symm,fun left => ?_⟩
      rw [tokenizeFrom,if_pos hinside,hspace,if_neg Bool.false_ne_true,if_neg hop,if_neg hdigit]

/-- Every token found is well-formed: by induction on the rounds. -/
theorem tokenizeFrom_wellFormed (line : List UInt8) (left : ℕ) : ∀ (ii : ℕ),
    ∀ token∈tokenizeFrom line left ii, WellFormed token := by
  induction left with
  | zero =>
    intro ii token htoken
    cases htoken
  | succ left ih =>
    intro ii token htoken
    by_cases hinside : ii<strlen line
    · by_cases hspace : isspace (charAt line ii)=true
      · rw [tokenizeFrom_space hinside hspace] at htoken
        exact ih _ token htoken
      · obtain ⟨found,_,hform,-,hround⟩ := tokenizeFrom_round hinside (Bool.not_eq_true _ ▸ hspace)
        rw [hround] at htoken
        rcases List.mem_cons.mp htoken with rfl|htoken
        · exact hform
        · exact ih _ token htoken
    · rw [tokenizeFrom,if_neg hinside] at htoken
      cases htoken

/-- Every token of a line is well-formed. -/
theorem tokenize_wellFormed (line : List UInt8) : ∀ token∈tokenize line, WellFormed token :=
  tokenizeFrom_wellFormed line (strlen line) 0

/-- The plain way to print tokens: a blank after each. -/
def printed (tokens : List (List UInt8)) (h : ∀ token∈tokens, WellFormed token) : Spacing where
  lead := []
  parts := tokens.map (fun token => (token,[32]))
  lead_space := fun c hc => absurd hc List.not_mem_nil
  wellFormed := by
    intro part hpart
    obtain ⟨token,htoken,rfl⟩ := List.mem_map.mp hpart
    exact h token htoken
  gap_space := by
    intro part hpart c hc
    obtain ⟨token,_,rfl⟩ := List.mem_map.mp hpart
    rw [List.mem_singleton.mp hc]
    rfl
  apart := by
    have hgap : ∀ part∈tokens.map (fun token => (token,([32] : List UInt8))), part.2≠[] := by
      intro part hpart
      obtain ⟨token,_,rfl⟩ := List.mem_map.mp hpart
      exact List.cons_ne_nil _ _
    refine List.Pairwise.isChain (List.pairwise_of_forall_mem_list ?_)
    intro part hpart next _ _
    exact hgap part hpart

/-- The plain way prints the tokens. -/
theorem printed_tokens (tokens : List (List UInt8)) (h : ∀ token∈tokens, WellFormed token) :
    (printed tokens h).tokens=tokens := by
  rw [Spacing.tokens,printed,List.map_map]
  exact List.map_id tokens

/-- Tokenizing undoes printing: any spacing of any well-formed tokens is read as
those tokens, so the amount of white space does not matter, and printing the
tokens of a line and reading them again gives the same tokens. -/
theorem tokenize_undoes_printing (s : Spacing) (line : List UInt8) :
    tokenize s.line=s.tokens ∧
      (∀ other : Spacing, other.tokens=s.tokens → tokenize other.line=tokenize s.line) ∧
      tokenize (printed (tokenize line) (tokenize_wellFormed line)).line=tokenize line ∧
      ∀ again : Spacing, again.tokens=tokenize line → tokenize again.line=tokenize line := by
  refine ⟨s.tokenize_line,?_,?_,?_⟩
  · intro other hother
    rw [other.tokenize_line,s.tokenize_line,hother]
  · rw [Spacing.tokenize_line,printed_tokens]
  · intro again hagain
    rw [again.tokenize_line,hagain]

/-- The line `true&& o` of the tests needs no blank before the operator. -/
example : tokenize [116,114,117,101,38,38,32,111]=[[116,114,117,101],[38,38],[111]] := by
  decide +kernel

/-! ## The whole line is read -/

/-- The characters of a C string. -/
def contents (line : List UInt8) : List UInt8 := line.takeWhile (fun c => !isnullterminator c)

/-- What is left of a string is a string: by induction on the characters before. -/
theorem drop_contents (line : List UInt8) : ∀ ii ≤ strlen line,
    (contents line).drop ii=contents (line.drop ii) := by
  induction line with
  | nil => exact fun ii _ => by rw [contents,List.takeWhile_nil,List.drop_nil]; rfl
  | cons c line ih =>
    intro ii hii
    cases ii with
    | zero => rfl
    | succ ii =>
      unfold strlen at hii
      unfold contents
      by_cases hc : isnullterminator c=true
      · rw [List.takeWhile_cons,hc] at hii
        exact absurd hii (Nat.not_succ_le_zero ii)
      · have hcontinue : (!isnullterminator c)=true := by simpa using hc
        rw [List.takeWhile_cons,if_pos hcontinue] at hii ⊢
        exact ih ii (Nat.le_of_succ_le_succ hii)

/-- A well-formed token holds no white space and no terminator. -/
theorem WellFormed.plain {token : List UInt8} (h : WellFormed token) :
    ∀ c∈token, isspace c=false ∧ c≠0 := by
  intro c hc
  rcases h.chars with ⟨-,hchars⟩|⟨-,hchars⟩
  · have hop := of_isoperator c (hchars c hc)
    exact ⟨hop.1,hop.2.2.1⟩
  · have harg := of_isargument c (hchars c hc)
    exact ⟨harg.1,harg.2.2⟩

/-- A token is taken from the front of what is left, and white space is left out. -/
theorem filter_token {line token rest : List UInt8} {ii : ℕ} (h : WellFormed token)
    (hinside : ii ≤ strlen line) (hdrop : line.drop ii=token++rest) :
    ii+token.length ≤ strlen line ∧ ((contents line).drop ii).filter (fun c => !isspace c)=
      token++((contents line).drop (ii+token.length)).filter (fun c => !isspace c) := by
  have hkeep : ∀ c∈token, (!isnullterminator c)=true :=
    fun c hc => by simpa [isnullterminator] using (h.plain c hc).2
  have hleft : (contents line).drop ii=token++contents rest := by
    rw [drop_contents line ii hinside,hdrop,contents,List.takeWhile_append_of_pos hkeep]
    rfl
  have hnext : (contents line).drop (ii+token.length)=contents rest := by
    rw [←List.drop_drop,hleft,List.drop_left]
  have hlength := congrArg List.length hleft
  rw [List.length_drop,List.length_append] at hlength
  have htoken : token.filter (fun c => !isspace c)=token :=
    List.filter_eq_self.mpr (fun c hc => by rw [(h.plain c hc).1]; rfl)
  refine ⟨?_,?_⟩
  · have hpos := List.length_pos_iff.mpr h.ne_nil
    rw [show strlen line=(contents line).length from rfl] at hinside ⊢
    omega
  · rw [hleft,hnext,List.filter_append,htoken]

/-- With rounds enough for the rest of the line the tokens are the rest without its
white space, and more rounds change nothing: by induction on the rounds. -/
theorem tokenizeFrom_covers (line : List UInt8) (left : ℕ) : ∀ ii ≤ strlen line,
    strlen line-ii≤left →
    (tokenizeFrom line left ii).flatten=((contents line).drop ii).filter (fun c => !isspace c) ∧
      ∀ more, tokenizeFrom line (left+more) ii=tokenizeFrom line left ii := by
  have hend : ∀ rounds, tokenizeFrom line rounds (strlen line)=[] := by
    intro rounds
    cases rounds with
    | zero => rfl
    | succ rounds => rw [tokenizeFrom,if_neg (Nat.lt_irrefl _)]
  have hnone : (contents line).drop (strlen line)=[] := List.drop_length
  induction left with
  | zero =>
    intro ii hii hleft
    obtain rfl : ii=strlen line := by omega
    rw [hend,hnone]
    exact ⟨rfl,fun more => hend (0+more)⟩
  | succ left ih =>
    intro ii hii hleft
    by_cases hinside : ii<strlen line
    · have hfirst := drop_eq_cons (charAt_ne_zero hinside)
      by_cases hspace : isspace (charAt line ii)=true
      · obtain ⟨hflat,hmore⟩ := ih (ii+1) hinside (by omega)
        have hnul : (!isnullterminator (charAt line ii))=true := by
          simpa [isnullterminator] using charAt_ne_zero hinside
        have hskip : (contents line).drop ii=charAt line ii::(contents line).drop (ii+1) := by
          rw [drop_contents line ii hii,drop_contents line (ii+1) hinside,hfirst,contents,
            List.takeWhile_cons,if_pos hnul]
          rfl
        rw [tokenizeFrom_space hinside hspace,hflat,hskip,List.filter_cons,hspace]
        refine ⟨rfl,fun more => ?_⟩
        rw [Nat.add_right_comm,tokenizeFrom_space hinside hspace,hmore]
      · obtain ⟨token,rest,hform,hdrop,hround⟩ :=
          tokenizeFrom_round hinside (Bool.not_eq_true _ ▸ hspace)
        obtain ⟨hbound,hfilter⟩ := filter_token hform hii hdrop
        have hpos := List.length_pos_iff.mpr hform.ne_nil
        obtain ⟨hflat,hmore⟩ := ih (ii+token.length) hbound (by omega)
        rw [hround,List.flatten_cons,hflat,hfilter]
        refine ⟨rfl,fun more => ?_⟩
        rw [Nat.add_right_comm,hround,hmore]
    · obtain rfl : ii=strlen line := by omega
      rw [hend,hnone]
      exact ⟨rfl,fun more => hend (left+1+more)⟩

/-- `tokenize` ends on every line after at most one round for each character; its
tokens are not empty, put together they are the line without its white space, and
each is an operator, a number or a word. -/
theorem tokenize_covers (line : List UInt8) :
    (∀ more, tokenizeFrom line (strlen line+more) 0=tokenize line) ∧
      (∀ token∈tokenize line, token≠[]) ∧
      (tokenize line).flatten=(contents line).filter (fun c => !isspace c) ∧
      ∀ token∈tokenize line, token∈operators ∨ IsNumber token ∨ IsWord token := by
  obtain ⟨hflat,hmore⟩ := tokenizeFrom_covers line (strlen line) 0 (Nat.zero_le _) (Nat.sub_le _ _)
  exact ⟨hmore,fun token htoken => (tokenize_wellFormed line token htoken).ne_nil,hflat,
    tokenize_wellFormed line⟩

end ComputerSystems.ShellTokens
