import ComputerSystems.ProcessCalls
import ComputerSystems.ShellExecute

/-!
# Words and tokens

The tokenizer picks its scanner by the first character it has not read. The one for
words goes over digits, but the one for digit strings stops at any other character.
So a word that begins with digits and goes on with other characters is cut behind
these digits, and nowhere else: two characters next to each other that belong to a
word are in one token unless the first is the last digit of such a beginning.
-/

namespace ComputerSystems.ShellWords

open ProcessCalls ProcessTree ShellExecute ShellTokens TransitionSystem

/-- The token that `tokenize` reads at an index where no white space stands. -/
def nextToken (line : List UInt8) (ii : ℕ) : Token :=
  if isoperator (charAt line ii) then parseOperator line ii
  else if isdigit (charAt line ii) then parseNumber line ii
  else parseArgToken line ii

/-- The loop of `tokenize` with the index at which it reads each token. -/
def spansFrom (line : List UInt8) : ℕ → ℕ → List (ℕ × Token)
  | 0,_ => []
  | left+1,ii =>
    if ii<strlen line then
      if isspace (charAt line ii) then spansFrom line left (ii+1)
      else (ii,nextToken line ii)::spansFrom line left (ii+(nextToken line ii).length)
    else []

/-- The tokens of a line with their indices. -/
def spans (line : List UInt8) : List (ℕ × Token) := spansFrom line (strlen line) 0

/-- A character and the next one are in one of these tokens. -/
def Joined (found : List (ℕ × Token)) (ii : ℕ) : Prop :=
  ∃ span∈found, span.1 ≤ ii ∧ ii+1<span.1+span.2.length

/-- No character of a word stands before an index. -/
def WordBegins (line : List UInt8) (start : ℕ) : Prop :=
  start=0 ∨ isargument (charAt line (start-1))=false

/-- The character is the last of the digits that a word begins with. -/
def LastDigit (line : List UInt8) (ii : ℕ) : Prop :=
  ∃ start ≤ ii, WordBegins line start ∧
    (∀ k, start≤k → k ≤ ii → isdigit (charAt line k)=true) ∧ isdigit (charAt line (ii+1))=false

/-- The words of some characters: what stands between white space. -/
def wordsOf (text : List UInt8) : List Token :=
  (text.splitOnP isspace).filter (fun word => !word.isEmpty)

/-- The words of a line. -/
def words (line : List UInt8) : List Token := wordsOf (contents line)

/-- A word cut behind the digits it begins with. -/
def cut (word : Token) : List Token :=
  [word.takeWhile isdigit,word.dropWhile isdigit].filter (fun part => !part.isEmpty)

/-! ## One round -/

/-- A character behind an index. -/
theorem charAt_drop (line : List UInt8) (ii k : ℕ) :
    charAt (line.drop ii) k=charAt line (ii+k) := by
  rw [charAt,charAt,List.getD_eq_getElem?_getD,List.getD_eq_getElem?_getD,List.getElem?_drop]

/-- The characters of a scan, and the one that ends it. -/
theorem scan_spec {p : UInt8 → Bool} (hzero : p 0=false) (line : List UInt8) (ii : ℕ) :
    p (charAt line (ii+((line.drop ii).takeWhile p).length))=false := by
  have hsplit := List.takeWhile_append_dropWhile (p:=p) (l:=line.drop ii)
  have hat := charAt_append_zero ((line.drop ii).takeWhile p) ((line.drop ii).dropWhile p)
  rw [hsplit,charAt_drop] at hat
  rw [hat]
  cases hrest : (line.drop ii).dropWhile p with
  | nil => exact hzero
  | cons c tail =>
    have hne : (line.drop ii).dropWhile p≠[] := by
      rw [hrest]
      exact List.cons_ne_nil c tail
    have hhead := List.head_dropWhile_not p hne
    simp only [hrest,List.head_cons] at hhead
    exact hhead

/-- The round of `tokenize` that reads a token, and where the token stands. -/
theorem nextToken_round {line : List UInt8} {ii : ℕ} (hinside : ii<strlen line)
    (hspace : isspace (charAt line ii)=false) :
    (∀ left, tokenizeFrom line (left+1) ii=
      nextToken line ii::tokenizeFrom line left (ii+(nextToken line ii).length)) ∧
      0<(nextToken line ii).length ∧ ii+(nextToken line ii).length ≤ strlen line ∧
      ∀ k<(nextToken line ii).length, charAt line (ii+k)∈nextToken line ii := by
  have hround : ∀ left, tokenizeFrom line (left+1) ii=
      nextToken line ii::tokenizeFrom line left (ii+(nextToken line ii).length) := by
    intro left
    rw [tokenizeFrom,if_pos hinside,hspace,if_neg Bool.false_ne_true]
    unfold nextToken
    split_ifs <;> rfl
  obtain ⟨token,rest,hform,hdrop,hread⟩ := tokenizeFrom_round hinside hspace
  obtain ⟨rfl,_⟩ := List.cons.inj ((hround 0).symm.trans (hread 0))
  have hpos := List.length_pos_iff.mpr hform.ne_nil
  refine ⟨hround,hpos,(filter_token hform hinside.le hdrop).1,fun k hk => ?_⟩
  have hat : charAt line (ii+k)=(nextToken line ii)[k] := by
    rw [←charAt_drop,hdrop,charAt,List.getD_append _ _ _ _ hk,List.getD_eq_getElem _ _ hk]
  rw [hat]
  exact List.getElem_mem hk

/-- What kind of characters a token has, and how it ends: an operator, a string of
digits up to another character, or a word without a digit in front up to a character
that belongs to no word. -/
theorem nextToken_kind {line : List UInt8} {ii : ℕ} (hinside : ii<strlen line)
    (hspace : isspace (charAt line ii)=false) :
    (isoperator (charAt line ii)=true ∧ ∀ c∈nextToken line ii, isargument c=false) ∨
      ((∀ c∈nextToken line ii, isdigit c=true) ∧
        isdigit (charAt line (ii+(nextToken line ii).length))=false) ∨
      (isdigit (charAt line ii)=false ∧ (∀ c∈nextToken line ii, isargument c=true) ∧
        isargument (charAt line (ii+(nextToken line ii).length))=false) := by
  have hzero := charAt_ne_zero hinside
  unfold nextToken
  by_cases hop : isoperator (charAt line ii)=true
  · simp only [if_pos hop]
    refine Or.inl ⟨hop,fun c hc => ?_⟩
    exact (of_isoperator c ((operators_chars _ (parseOperator_mem hop)).2 c hc)).2.1
  · simp only [if_neg hop]
    by_cases hdigit : isdigit (charAt line ii)=true
    · simp only [if_pos hdigit]
      exact Or.inr (Or.inl ⟨(takeWhile_spec hzero hdigit).2.1,scan_spec rfl line ii⟩)
    · simp only [if_neg hdigit]
      have hargument : isargument (charAt line ii)=true := by
        simp [isargument,isnullterminator,hspace,hop,hzero]
      exact Or.inr (Or.inr ⟨Bool.not_eq_true _ ▸ hdigit,(takeWhile_spec hzero hargument).2.1,
        scan_spec rfl line ii⟩)

/-- The tokens with their indices are the tokens: by induction on the rounds. -/
theorem spansFrom_tokens (line : List UInt8) (left : ℕ) : ∀ (ii : ℕ),
    (spansFrom line left ii).map Prod.snd=tokenizeFrom line left ii := by
  induction left with
  | zero => exact fun _ => rfl
  | succ left ih =>
    intro ii
    by_cases hinside : ii<strlen line
    · rw [spansFrom,if_pos hinside]
      by_cases hspace : isspace (charAt line ii)=true
      · rw [if_pos hspace,ih,tokenizeFrom_space hinside hspace]
      · rw [if_neg hspace,List.map_cons,ih,
          (nextToken_round hinside (Bool.not_eq_true _ ▸ hspace)).1]
    · rw [spansFrom,if_neg hinside,tokenizeFrom,if_neg hinside]
      rfl

/-! ## Where words are cut -/

/-- A token begins where it is read: by induction on the rounds. -/
theorem spansFrom_ge (line : List UInt8) (left : ℕ) : ∀ (ii : ℕ),
    ∀ span∈spansFrom line left ii, ii ≤ span.1 := by
  induction left with
  | zero => exact fun _ _ hspan => absurd hspan List.not_mem_nil
  | succ left ih =>
    intro ii span hspan
    rw [spansFrom] at hspan
    split_ifs at hspan
    · exact (Nat.le_succ ii).trans (ih _ span hspan)
    · rcases List.mem_cons.mp hspan with rfl|hspan
      · exact Nat.le_refl ii
      · exact (Nat.le_add_right _ _).trans (ih _ span hspan)
    · exact absurd hspan List.not_mem_nil

/-- The loop never stops inside a word, but behind the digits it begins with. -/
def Stands (line : List UInt8) (ii : ℕ) : Prop :=
  isargument (charAt line ii)=true →
    WordBegins line ii ∨ (0 < ii ∧ LastDigit line (ii-1) ∧ isdigit (charAt line ii)=false)

/-- Behind a character that belongs to no word. -/
theorem stands_behind {line : List UInt8} {ii : ℕ} (h : isargument (charAt line ii)=false) :
    Stands line (ii+1) := fun _ => Or.inl (Or.inr h)

/-- A character in a token that begins without a digit is not the last digit of a
word: the digits would have to begin before it. -/
theorem not_lastDigit_of_word {line : List UInt8} {ii jj : ℕ} (hle : ii≤jj)
    (hdigit : isdigit (charAt line ii)=false)
    (hword : ∀ k, ii≤k → k≤jj → isargument (charAt line k)=true) : ¬LastDigit line jj := by
  rintro ⟨start,hstart,hbegins,hdigits,_⟩
  by_cases hbefore : start ≤ ii
  · rw [hdigits ii hbefore hle] at hdigit
    cases hdigit
  · rcases hbegins with hzero|hgap
    · omega
    · rw [hword (start-1) (by omega) (by omega)] at hgap
      cases hgap

/-- A round that reads a token: where the loop goes on, and which characters of the
token stay together with the next one. -/
theorem nextToken_joins {line : List UInt8} {ii : ℕ} (hinside : ii<strlen line)
    (hspace : isspace (charAt line ii)=false) (hstands : Stands line ii) :
    Stands line (ii+(nextToken line ii).length) ∧
      ∀ jj, ii≤jj → jj < ii+(nextToken line ii).length → isargument (charAt line jj)=true →
        isargument (charAt line (jj+1))=true →
        (jj+1 < ii+(nextToken line ii).length ↔ ¬LastDigit line jj) := by
  obtain ⟨-,hpos,-,hmem⟩ := nextToken_round hinside hspace
  have hkind := nextToken_kind hinside hspace
  generalize nextToken line ii=token at hpos hmem hkind ⊢
  have hat : ∀ {p : UInt8 → Bool} {value : Bool}, (∀ c∈token, p c=value) →
      ∀ jj, ii≤jj → jj < ii+token.length → p (charAt line jj)=value := by
    intro p value h jj hle hlt
    have hk := h _ (hmem (jj-ii) (by omega))
    rwa [Nat.add_sub_cancel' hle] at hk
  generalize token.length=n at hpos hkind hat ⊢
  rcases hkind with ⟨-,hop⟩|⟨hdigits,hend⟩|⟨hfirst,hword,hend⟩
  · have hnone := hat hop
    refine ⟨?_,fun jj hle hlt harg _ => ?_⟩
    · have hlast := stands_behind (hnone (ii+n-1) (by omega) (by omega))
      rwa [Nat.sub_add_cancel (by omega)] at hlast
    · rw [hnone jj hle hlt] at harg
      cases harg
  · have hdigit := hat hdigits
    have hbegins : WordBegins line ii := by
      rcases hstands (isargument_of_isdigit _ (hdigit ii (le_refl ii) (by omega))) with h|⟨_,_,h⟩
      · exact h
      · rw [hdigit ii (le_refl ii) (by omega)] at h
        cases h
    have hlast : LastDigit line (ii+n-1) := by
      refine ⟨ii,by omega,hbegins,fun k hle hk => hdigit k hle (by omega),?_⟩
      rwa [Nat.sub_add_cancel (by omega)]
    refine ⟨fun _ => Or.inr ⟨by omega,hlast,hend⟩,fun jj hle hlt _ _ => ?_⟩
    constructor
    · rintro hnext ⟨_,_,_,_,hstop⟩
      rw [hdigit (jj+1) (by omega) hnext] at hstop
      cases hstop
    · intro hno
      by_contra hnext
      refine hno ?_
      rwa [show jj=ii+n-1 by omega]
  · have hargument := hat hword
    refine ⟨fun h => absurd (h.symm.trans hend) Bool.noConfusion,fun jj hle hlt _ hnext => ?_⟩
    constructor
    · exact fun _ => not_lastDigit_of_word hle hfirst
        (fun k hk hkj => hargument k hk (by omega))
    · intro _
      by_contra hlate
      rw [show jj+1=ii+n by omega,hend] at hnext
      cases hnext

/-- Two characters of a word behind the place where the loop stands are in one token
exactly when the first is not the last digit: by induction on the rounds. -/
theorem spansFrom_joined (line : List UInt8) (left : ℕ) : ∀ (ii : ℕ), strlen line-ii≤left →
    Stands line ii → ∀ jj, ii≤jj → jj+1<strlen line → isargument (charAt line jj)=true →
    isargument (charAt line (jj+1))=true →
    (Joined (spansFrom line left ii) jj ↔ ¬LastDigit line jj) := by
  induction left with
  | zero => exact fun ii hleft _ jj hle hlt => absurd hlt (by omega)
  | succ left ih =>
    intro ii hleft hstands jj hle hlt harg hnext
    rw [spansFrom,if_pos (by omega)]
    by_cases hspace : isspace (charAt line ii)=true
    · have hnone := (of_isspace _ hspace).2.1
      have hne : ii≠jj := by
        rintro rfl
        rw [hnone] at harg
        cases harg
      rw [if_pos hspace]
      exact ih (ii+1) (by omega) (stands_behind hnone) jj (by omega) hlt harg hnext
    · have hinside : ii<strlen line := by omega
      have hno : isspace (charAt line ii)=false := Bool.not_eq_true _ ▸ hspace
      obtain ⟨hafter,hjoins⟩ := nextToken_joins hinside hno hstands
      have hpos := (nextToken_round hinside hno).2.1
      rw [if_neg hspace]
      by_cases hhere : jj < ii+(nextToken line ii).length
      · rw [←hjoins jj hle hhere harg hnext]
        constructor
        · rintro ⟨span,hspan,hbegin,hend⟩
          rcases List.mem_cons.mp hspan with rfl|hlater
          · exact hend
          · have hge := spansFrom_ge line left _ span hlater
            omega
        · exact fun hend => ⟨_,List.mem_cons_self,hle,hend⟩
      · rw [←ih (ii+(nextToken line ii).length) (by omega) hafter jj (by omega) hlt harg hnext]
        constructor
        · rintro ⟨span,hspan,hbegin,hend⟩
          rcases List.mem_cons.mp hspan with rfl|hlater
          · dsimp only at hend
            omega
          · exact ⟨span,hlater,hbegin,hend⟩
        · rintro ⟨span,hspan,hbegin,hend⟩
          exact ⟨span,List.mem_cons_of_mem _ hspan,hbegin,hend⟩

/-! ## Lines without operators -/

/-- A string that is not empty is kept. -/
theorem filter_nonempty {part : Token} (h : part≠[]) (parts : List Token) :
    (part::parts).filter (fun part => !part.isEmpty)=
      part::parts.filter (fun part => !part.isEmpty) := by
  cases part with
  | nil => exact absurd rfl h
  | cons c tail => rfl

/-- White space in front belongs to no word. -/
theorem wordsOf_space {c : UInt8} (h : isspace c=true) (text : List UInt8) :
    wordsOf (c::text)=wordsOf text := by
  unfold wordsOf
  rw [List.splitOnP_cons_eq_if_modifyHead,if_pos h]
  rfl

/-- Characters that are followed by white space or the end are one word. -/
theorem wordsOf_word {word rest : List UInt8} (hne : word≠[])
    (hword : ∀ c∈word, isspace c=false) (hrest : rest=[] ∨ isspace (charAt rest 0)=true) :
    wordsOf (word++rest)=word::wordsOf rest := by
  unfold wordsOf
  cases rest with
  | nil =>
    rw [List.append_nil,List.splitOnP_eq_singleton hword,filter_nonempty hne]
    rfl
  | cons c tail =>
    have hspace : isspace c=true := by
      rcases hrest with hnil|hspace
      · cases hnil
      · exact hspace
    rw [List.splitOnP_append_cons_of_forall_mem hword c hspace,filter_nonempty hne]
    rw [List.splitOnP_cons_eq_if_modifyHead,if_pos hspace]
    rfl

/-- The word in front and what follows it. -/
theorem word_split (text : List UInt8) : ∃ word rest, text=word++rest ∧
    (∀ c∈word, isspace c=false) ∧ (rest=[] ∨ isspace (charAt rest 0)=true) := by
  refine ⟨text.takeWhile (fun c => !isspace c),text.dropWhile (fun c => !isspace c),
    List.takeWhile_append_dropWhile.symm,fun c hc => ?_,?_⟩
  · simpa using List.mem_takeWhile_imp hc
  · cases hrest : text.dropWhile (fun c => !isspace c) with
    | nil => exact Or.inl rfl
    | cons c tail =>
      have hne : text.dropWhile (fun c => !isspace c)≠[] := by
        rw [hrest]
        exact List.cons_ne_nil c tail
      have hhead := List.head_dropWhile_not _ hne
      simp only [hrest,List.head_cons,Bool.not_eq_false'] at hhead
      exact Or.inr hhead

/-- A word without a digit in front stays whole. -/
theorem cut_word {word : Token} (hne : word≠[]) (h : isdigit (charAt word 0)=false) :
    cut word=[word] := by
  cases word with
  | nil => exact absurd rfl hne
  | cons c tail =>
    have hc : isdigit c=false := h
    rw [cut,List.takeWhile_cons,List.dropWhile_cons,hc]
    rfl

/-- Digits in front are cut off. -/
theorem cut_number {number word : Token} (hne : number≠[]) (hdigits : ∀ c∈number, isdigit c=true)
    (hword : isdigit (charAt word 0)=false) :
    cut (number++word)=number::(if word=[] then [] else [word]) := by
  have htake := takeWhile_stop hdigits hword
  have hdrop : (number++word).dropWhile isdigit=word := by
    have hall := List.takeWhile_append_dropWhile (p:=isdigit) (l:=number++word)
    rw [htake] at hall
    exact List.append_cancel_left hall
  rw [cut,htake,hdrop,filter_nonempty hne]
  cases word with
  | nil => rfl
  | cons c tail => rfl

/-- The cut words behind a string of digits are those of the rest, with the digits in
front. -/
theorem wordsOf_number {number rest : List UInt8} (hne : number≠[])
    (hdigits : ∀ c∈number, isdigit c=true) (hrest : isdigit (charAt rest 0)=false) :
    (wordsOf (number++rest)).flatMap cut=number::(wordsOf rest).flatMap cut := by
  obtain ⟨word,more,rfl,hword,hmore⟩ := word_split rest
  have hnumber : ∀ c∈number++word, isspace c=false := by
    intro c hc
    rcases List.mem_append.mp hc with hc|hc
    · exact (of_isargument c (isargument_of_isdigit c (hdigits c hc))).1
    · exact hword c hc
  have hboth : number++word≠[] := fun h => hne (List.append_eq_nil_iff.mp h).1
  have hfirst : isdigit (charAt word 0)=false := by
    cases word with
    | nil => rfl
    | cons c tail => exact hrest
  rw [←List.append_assoc,wordsOf_word hboth hnumber hmore,List.flatMap_cons,
    cut_number hne hdigits hfirst]
  by_cases hempty : word=[]
  · rw [if_pos hempty,hempty]
    rfl
  · rw [if_neg hempty,wordsOf_word hempty hword hmore,List.flatMap_cons,cut_word hempty hfirst]
    rfl

/-- Behind a token stands the rest of the line. -/
theorem contents_token {line token rest : List UInt8} {ii : ℕ} (hinside : ii ≤ strlen line)
    (hplain : ∀ c∈token, c≠0) (hdrop : line.drop ii=token++rest)
    (hbound : ii+token.length ≤ strlen line) :
    (contents line).drop ii=token++(contents line).drop (ii+token.length) := by
  have hkeep : ∀ c∈token, (!isnullterminator c)=true :=
    fun c hc => by simpa [isnullterminator] using hplain c hc
  have hrest : line.drop (ii+token.length)=rest := by
    rw [←List.drop_drop,hdrop,List.drop_left]
  rw [drop_contents line ii hinside,drop_contents line _ hbound,hrest,hdrop,contents,
    List.takeWhile_append_of_pos hkeep]
  rfl

/-- The token that is read stands in front of the rest of the line. -/
theorem nextToken_contents {line : List UInt8} {ii : ℕ} (hinside : ii<strlen line)
    (hspace : isspace (charAt line ii)=false) :
    WellFormed (nextToken line ii) ∧ (contents line).drop ii=
      nextToken line ii++(contents line).drop (ii+(nextToken line ii).length) := by
  obtain ⟨hround,-,hbound,-⟩ := nextToken_round hinside hspace
  obtain ⟨token,rest,hform,hdrop,hread⟩ := tokenizeFrom_round hinside hspace
  obtain ⟨rfl,_⟩ := List.cons.inj ((hround 0).symm.trans (hread 0))
  exact ⟨hform,contents_token hinside.le (fun c hc => (hform.plain c hc).2) hdrop hbound⟩

/-- What stands at an index of the line. -/
theorem charAt_contents {line : List UInt8} {ii : ℕ} (h : ii ≤ strlen line) :
    charAt ((contents line).drop ii) 0=if ii<strlen line then charAt line ii else 0 := by
  rw [drop_contents line ii h,contents]
  by_cases hinside : ii<strlen line
  · have hnul : (!isnullterminator (charAt line ii))=true := by
      simpa [isnullterminator] using charAt_ne_zero hinside
    rw [if_pos hinside,drop_eq_cons (charAt_ne_zero hinside),List.takeWhile_cons,if_pos hnul]
    rfl
  · have hnone : contents (line.drop ii)=[] := by
      rw [←drop_contents line ii h,List.drop_eq_nil_iff]
      exact Nat.le_of_not_lt hinside
    rw [if_neg hinside]
    exact congrArg (charAt · 0) hnone

/-- The characters before the end are those of the string. -/
theorem charAt_mem_contents {line : List UInt8} {ii : ℕ} (h : ii<strlen line) :
    charAt line ii∈contents line := by
  have hat := charAt_contents h.le
  rw [if_pos h] at hat
  have hne : (contents line).drop ii≠[] := by
    rw [ne_eq,List.drop_eq_nil_iff]
    exact Nat.not_le_of_lt h
  have hmem : charAt ((contents line).drop ii++[]) 0∈(contents line).drop ii := charAt_token hne []
  rw [List.append_nil,hat] at hmem
  exact List.mem_of_mem_drop hmem

/-- What belongs to no word and is no operator is white space. -/
theorem isspace_of_not_word {c : UInt8} (hzero : c≠0) (hop : isoperator c=false)
    (h : isargument c=false) : isspace c=true := by
  by_contra hspace
  simp [isargument,isnullterminator,hspace,hop,hzero] at h

/-- On a line without operators the tokens are the cut words of what is left to read:
by induction on the rounds. -/
theorem tokenizeFrom_words {line : List UInt8} (hplain : ∀ c∈contents line, isoperator c=false)
    (left : ℕ) : ∀ ii ≤ strlen line, strlen line-ii≤left →
    tokenizeFrom line left ii=(wordsOf ((contents line).drop ii)).flatMap cut := by
  have hend : wordsOf ((contents line).drop (strlen line))=[] := by
    rw [show (contents line).drop (strlen line)=[] from List.drop_length]
    rfl
  induction left with
  | zero =>
    intro ii hii hleft
    rw [show ii=strlen line by omega,hend]
    rfl
  | succ left ih =>
    intro ii hii hleft
    by_cases hinside : ii<strlen line
    · have hfirst : (contents line).drop ii=[charAt line ii]++(contents line).drop (ii+1) := by
        refine contents_token hii (fun c hc => ?_) (drop_eq_cons (charAt_ne_zero hinside)) hinside
        rw [List.mem_singleton.mp hc]
        exact charAt_ne_zero hinside
      by_cases hspace : isspace (charAt line ii)=true
      · rw [tokenizeFrom_space hinside hspace,ih (ii+1) hinside (by omega),hfirst]
        exact congrArg (List.flatMap cut) (wordsOf_space hspace _).symm
      · have hno : isspace (charAt line ii)=false := Bool.not_eq_true _ ▸ hspace
        obtain ⟨hround,hpos,hbound,-⟩ := nextToken_round hinside hno
        obtain ⟨hform,hsplit⟩ := nextToken_contents hinside hno
        have hafter := charAt_contents hbound
        have hsame : charAt (nextToken line ii) 0=charAt line ii := by
          rw [hfirst] at hsplit
          cases htoken : nextToken line ii with
          | nil => exact absurd htoken hform.ne_nil
          | cons c tail =>
            rw [htoken] at hsplit
            exact (List.cons.inj hsplit).1.symm
        rw [hround,ih _ hbound (by omega),hsplit]
        rcases nextToken_kind hinside hno with ⟨hop,-⟩|⟨hdigits,hstop⟩|⟨hdigit,hword,hstop⟩
        · rw [hplain _ (charAt_mem_contents hinside)] at hop
          cases hop
        · refine (wordsOf_number hform.ne_nil hdigits ?_).symm
          rw [hafter]
          split_ifs
          · exact hstop
          · rfl
        · have hrest : (contents line).drop (ii+(nextToken line ii).length)=[] ∨
              isspace (charAt ((contents line).drop (ii+(nextToken line ii).length)) 0)=true := by
            by_cases hmore : ii+(nextToken line ii).length<strlen line
            · rw [hafter,if_pos hmore]
              exact Or.inr (isspace_of_not_word (charAt_ne_zero hmore)
                (hplain _ (charAt_mem_contents hmore)) hstop)
            · exact Or.inl (List.drop_eq_nil_iff.mpr (Nat.le_of_not_lt hmore))
          rw [wordsOf_word hform.ne_nil (fun c hc => (hform.plain c hc).1) hrest,List.flatMap_cons,
            cut_word hform.ne_nil (hsame ▸ hdigit)]
          rfl
    · rw [show ii=strlen line by omega,hend,tokenizeFrom,if_neg (Nat.lt_irrefl _)]
      rfl

/-! ## Running a line without operators -/

/-- Tokens without operator characters match no operator. -/
theorem svecContains_plain {tokens : List Token}
    (h : ∀ token∈tokens, ∀ c∈token, isoperator c=false) {c : UInt8} (hc : isoperator c=true)
    (tail : Token) (n : ℕ) : svecContains tokens (c::tail) (n+1)=false := by
  rw [svecContains,List.any_eq_false]
  intro token ht hmatch
  have htake : token.take (n+1)=c::tail.take n := of_decide_eq_true hmatch
  have hmem : c∈token := by
    refine List.mem_of_mem_take (i:=n+1) ?_
    rw [htake]
    exact List.mem_cons_self
  rw [h token ht c hmem] at hc
  cases hc

/-- Such tokens are run as one command. -/
theorem execute_plain {tokens : List Token} (h : ∀ token∈tokens, ∀ c∈token, isoperator c=false) :
    execute tokens=executeBaseCase tokens := by
  unfold execute
  rw [svecContains_plain h rfl [] 0,svecContains_plain h rfl [] 0,svecContains_plain h rfl [38] 1,
    svecContains_plain h rfl [124] 1,svecContains_plain h rfl [] 0,svecContains_plain h rfl [] 0]
  rfl

/-- A program is asked for with all tokens as its arguments. -/
def Whole (tokens : List Token) : (Token × List Token) ⊕ Request → Prop
  | .inl image => image=(tokens.headD [],tokens)
  | .inr _ => True

/-- The only program that one command asks for. -/
theorem only_executeBaseCase (tokens : List Token) :
    Only (Whole tokens) (fun _ => True) (executeBaseCase tokens) := by
  unfold executeBaseCase
  cases tokens with
  | nil => trivial
  | cons command rest =>
    rw [svecGet_eq (show (command::rest)[0]?=some command from rfl),pure_bind_code]
    split_ifs
    · unfold executeCd svecGet
      cases hdir : (command::rest)[1]? with
      | none => trivial
      | some dir => exact ⟨trivial,fun _ => trivial⟩
    · trivial
    · intro child
      cases child with
      | some cpid => exact fun _ => trivial
      | none => exact ⟨rfl,trivial⟩

/-- Two neighbouring characters of words are in one token, unless the first is the
last of the digits that its word begins with; a line without operators is read as its
words cut behind these digits, and these are the arguments of every program that its
runs ask for. -/
theorem words_cut_behind_digits (line : List UInt8) :
    (spans line).map Prod.snd=tokenize line ∧
      (∀ ii, ii+1<strlen line → isargument (charAt line ii)=true →
        isargument (charAt line (ii+1))=true → (Joined (spans line) ii ↔ ¬LastDigit line ii)) ∧
      ((∀ c∈contents line, isoperator c=false) →
        tokenize line=(words line).flatMap cut ∧
        ∀ world moves last,
          follow (step world) Anything moves (start (execute (tokenize line)))=some last →
          ∀ image∈callsAlong world moves (start (execute (tokenize line))),
            image=((tokenize line).headD [],(words line).flatMap cut)) := by
  refine ⟨spansFrom_tokens line _ 0,fun ii hii harg hnext => ?_,fun hplain => ?_⟩
  · exact spansFrom_joined line _ 0 (Nat.sub_le _ _) (fun _ => Or.inl (Or.inl rfl)) ii
      (Nat.zero_le ii) hii harg hnext
  · have hwords : tokenize line=(words line).flatMap cut :=
      tokenizeFrom_words hplain _ 0 (Nat.zero_le _) (Nat.sub_le _ _)
    have hchars : ∀ token∈tokenize line, ∀ c∈token, isoperator c=false := by
      intro token ht c hc
      have hflat : c∈(tokenize line).flatten := List.mem_flatten.mpr ⟨token,ht,hc⟩
      rw [(tokenize_covers line).2.2.1] at hflat
      exact hplain c (List.mem_of_mem_filter hflat)
    refine ⟨hwords,fun world moves last hrun image himage => ?_⟩
    rw [execute_plain hchars] at hrun himage
    obtain ⟨hcalls,_⟩ := only_run (only_executeBaseCase (tokenize line)) hrun
    obtain ⟨call,hwhole,hnote⟩ := hcalls image himage
    cases call with
    | inl program =>
      rw [Multiset.mem_singleton.mp hnote,←hwords]
      exact hwhole
    | inr request => exact absurd hnote (Multiset.notMem_zero image)

/-- In the line `1a` two neighbouring characters of one word are in different tokens. -/
theorem digit_and_letter_apart : isargument (charAt [49,97] 0)=true ∧
    isargument (charAt [49,97] 1)=true ∧ ¬Joined (spans [49,97]) 0 ∧
    tokenize [49,97]=[[49],[97]] ∧ words [49,97]=[[49,97]] := by
  unfold Joined
  decide +kernel

end ComputerSystems.ShellWords
