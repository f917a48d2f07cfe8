import ComputerSystems.Xv6ShellTrees

/-!
# No word of a line is lost

The words of a line are its runs of characters that are neither white space nor
symbols. Each of them is in the tree that `parsecmd` returns as often as it is in
the line: as an argument or as the file of a redirection.
-/

namespace ComputerSystems.Xv6Shell

variable {α β : Type} {s r : List UInt8} {cmd ret c : Cmd Word} {n : ℕ} {d : UInt8}

/-- The words of a line. -/
def wordsOf (s : List UInt8) : List (List UInt8) :=
  (s.splitOnP (fun d => !isArg d)).filter (fun w => decide (w≠[]))

/-- The words of a tree, as they stand in the line. -/
def texts (c : Cmd Word) : List (List UInt8) := c.words.map Word.text

/-- The tree is a command, with redirections or without. -/
def Cmd.isExec : Cmd α → Prop
  | .exec _ => True
  | .redir cmd _ _ _ => cmd.isExec
  | .pipe _ _ => False
  | .list _ _ => False
  | .back _ => False

/-! ## The words of a line -/

theorem wordsOf_cons (hd : isArg d=false) (s : List UInt8) : wordsOf (d::s)=wordsOf s := by
  unfold wordsOf
  rw [List.splitOnP_cons_eq_if_modifyHead,if_pos (by rw [hd]; rfl)]
  exact List.filter_cons_of_neg (by decide)

/-- A word in front of a line. -/
theorem wordsOf_append {text : List UInt8} (hne : text≠[]) (hargs : ∀ d∈text, isArg d=true)
    (hr : ∀ d∈r.head?, isArg d=false) : wordsOf (text++r)=text::wordsOf r := by
  have hnot : ∀ d∈text, (!isArg d)=false := fun d hd => by rw [hargs d hd]; rfl
  cases r with
  | nil =>
    unfold wordsOf
    rw [List.append_nil,List.splitOnP_eq_singleton hnot,
      List.filter_cons_of_pos (p := fun w => decide (w≠[])) (decide_eq_true hne)]
    rfl
  | cons d u =>
    have hd := hr d rfl
    rw [wordsOf_cons hd]
    unfold wordsOf
    rw [List.splitOnP_append_cons_of_forall_mem hnot d (by rw [hd]; rfl),
      List.filter_cons_of_pos (p := fun w => decide (w≠[])) (decide_eq_true hne)]

theorem isArg_of_isSpace (h : isSpace d=true) : isArg d=false := by
  rw [isArg,h]
  rfl

theorem wordsOf_skip (s : List UInt8) : wordsOf (skip s)=wordsOf s := by
  induction s with
  | nil => rfl
  | cons d u ih =>
    cases hd : isSpace d with
    | true =>
      rw [wordsOf_cons (isArg_of_isSpace hd),←ih]
      exact congrArg wordsOf (List.dropWhile_cons_of_pos hd)
    | false => rw [skip_cons hd]

/-- Only words begin with characters of words. -/
theorem isArg_of_token {u : List UInt8} (h : (scanToken (d::u)).1≠97) : isArg d=false := by
  cases harg : isArg d with
  | false => rfl
  | true =>
    rw [scanToken_arg harg] at h
    exact absurd rfl h

/-- A token that is no word takes none from the line. -/
theorem wordsOf_sign (h : (gettoken s).1≠97) : wordsOf (gettoken s).2.2=wordsOf s := by
  rw [←wordsOf_skip s]
  change wordsOf (skip (scanToken (skip s)).2)=_
  change (scanToken (skip s)).1≠97 at h
  rw [wordsOf_skip]
  cases heq : skip s with
  | nil => rfl
  | cons d u =>
    rw [heq] at h
    have hd := isArg_of_token h
    rcases scanToken_cases (not_space_of_skip heq) u with ⟨hscan,-⟩|⟨v,rfl,hscan⟩|⟨harg,-⟩
    · rw [hscan,wordsOf_cons hd]
    · rw [hscan,wordsOf_cons hd,wordsOf_cons rfl]
    · cases hd.symm.trans harg

/-- A word is taken from the line. -/
theorem wordsOf_word (h : (gettoken s).1=97) :
    wordsOf s=(gettoken s).2.1.text::wordsOf (gettoken s).2.2 := by
  have hstands := stands_gettoken (List.suffix_refl s) h
  obtain ⟨text,hsplit,hne,hargs⟩ := hstands.split
  have hq : (gettoken s).2.1.q=skip s := rfl
  have hrest : (gettoken s).2.2=skip (gettoken s).2.1.eq := rfl
  rw [text_of_append hsplit,hrest,wordsOf_skip,←wordsOf_append hne hargs hstands.whole,←hsplit,hq,
    wordsOf_skip]

/-- A sign that is seen is no word. -/
theorem token_of_peek {toks : List UInt8} (h : peek s toks=true)
    (htoks : toks.all (fun d => decide (d∈symbols))=true) :
    (gettoken s).1≠97 := by
  obtain ⟨d,u,heq⟩ := List.exists_cons_of_ne_nil (skip_ne_nil_of_peek h)
  have hmem : d∈toks := by
    unfold peek at h
    rw [heq] at h
    exact of_decide_eq_true h
  change (scanToken (skip s)).1≠97
  rw [heq]
  rcases scanToken_cases (not_space_of_skip heq) u with ⟨hscan,hd,-⟩|⟨v,-,hscan⟩|⟨harg,-⟩
  · rw [hscan]
    exact hd
  · rw [hscan]
    exact (by decide : (43 : UInt8)≠97)
  · exact absurd (of_decide_eq_true (List.all_eq_true.mp htoks d hmem)) (not_symbol_of_isArg harg)

/-- The signs of redirections. -/
theorem redirection_of_peek (h : peek s [60,62]=true) :
    (gettoken s).1=60 ∨ (gettoken s).1=62 ∨ (gettoken s).1=43 := by
  obtain ⟨d,u,heq⟩ := List.exists_cons_of_ne_nil (skip_ne_nil_of_peek h)
  have hmem : d∈([60,62] : List UInt8) := by
    unfold peek at h
    rw [heq] at h
    exact of_decide_eq_true h
  change (scanToken (skip s)).1=60 ∨ (scanToken (skip s)).1=62 ∨ (scanToken (skip s)).1=43
  rw [heq]
  rcases scanToken_cases (not_space_of_skip heq) u with ⟨hscan,-⟩|⟨v,-,hscan⟩|⟨harg,-⟩
  · rw [hscan]
    simp only [List.mem_cons,List.not_mem_nil,or_false] at hmem
    exact hmem.elim Or.inl fun hright => Or.inr (Or.inl hright)
  · rw [hscan]
    exact Or.inr (Or.inr rfl)
  · have hsymbols : ([60,62] : List UInt8).all (fun d => decide (d∈symbols))=true := rfl
    exact absurd (of_decide_eq_true (List.all_eq_true.mp hsymbols d hmem))
      (not_symbol_of_isArg harg)

/-! ## The words of a tree -/

theorem texts_redircmd {tok : UInt8} (h : tok=60 ∨ tok=62 ∨ tok=43) (cmd : Cmd Word)
    (file : Word) : texts (redircmd cmd file tok)=texts cmd++[file.text] := by
  have hwords : (redircmd cmd file tok).words=cmd.words++[file] := by
    rcases h with rfl|rfl|rfl <;> rfl
  rw [texts,hwords,List.map_append]
  rfl

theorem isExec_redircmd {tok : UInt8} {file : Word} (h : cmd.isExec) :
    (redircmd cmd file tok).isExec := by
  unfold redircmd
  split_ifs <;> exact h

/-- One more argument is one more word. -/
theorem texts_pushArg (h : ret.isExec) (w : Word) :
    (texts (ret.pushArg w)).Perm (w.text::texts ret) := by
  induction ret with
  | exec argv =>
    change ((argv++[w]).map Word.text).Perm _
    rw [List.map_append]
    exact List.perm_append_singleton _ _
  | redir cmd file mode fd ih =>
    change (((cmd.pushArg w).words++[file]).map Word.text).Perm
      (w.text::(cmd.words++[file]).map Word.text)
    rw [List.map_append,List.map_append]
    exact (ih h).append_right _
  | pipe left right => exact h.elim
  | list left right => exact h.elim
  | back cmd => exact h.elim

theorem isExec_pushArg (h : ret.isExec) (w : Word) : (ret.pushArg w).isExec := by
  induction ret with
  | exec argv => trivial
  | redir cmd file mode fd ih => exact ih h
  | pipe left right => exact h.elim
  | list left right => exact h.elim
  | back cmd => exact h.elim

theorem parseredirs_words {n : ℕ} {cmd : Cmd Word} {s : List UInt8}
    (h : parseredirs n cmd s=.ok (c,r)) :
    (cmd.isExec → c.isExec) ∧ (texts c++wordsOf r).Perm (texts cmd++wordsOf s) := by
  induction n generalizing cmd s with
  | zero => cases h
  | succ n ih =>
    rw [parseredirs] at h
    dsimp only at h
    split_ifs at h with hsign hname
    · obtain ⟨hexec,hperm⟩ := ih h
      refine ⟨fun hcmd => hexec (isExec_redircmd hcmd),hperm.trans ?_⟩
      rw [texts_redircmd (redirection_of_peek hsign),List.append_assoc,List.singleton_append,
        ←wordsOf_word hname,wordsOf_sign (token_of_peek hsign (by decide))]
    · cases h
      rw [wordsOf_skip]
      exact ⟨id,List.Perm.refl _⟩

theorem argLoop_loses {n argc : ℕ} {ret : Cmd Word} {s : List UInt8} (hret : ret.isExec)
    (h : argLoop n argc ret s=.ok (c,r)) : (texts c++wordsOf r).Perm (texts ret++wordsOf s) := by
  induction n generalizing argc ret s with
  | zero => cases h
  | succ n ih =>
    rw [argLoop] at h
    dsimp only at h
    split_ifs at h with hend hnone hword hmany
    · cases h
      rw [wordsOf_skip]
    · cases h
      rw [wordsOf_sign (by rw [hnone]; decide)]
    · obtain ⟨⟨ret',s'⟩,hredirs,hloop⟩ := bind_ok h
      obtain ⟨hexec,hperm⟩ := parseredirs_words hredirs
      refine (ih (hexec (isExec_pushArg hret _)) hloop).trans (hperm.trans ?_)
      rw [wordsOf_word (not_not.mp hword)]
      exact ((texts_pushArg hret _).append_right _).trans List.perm_middle.symm

theorem backLoop_words (n : ℕ) (cmd : Cmd Word) (s : List UInt8) :
    texts (backLoop n cmd s).1++wordsOf (backLoop n cmd s).2=texts cmd++wordsOf s := by
  induction n generalizing cmd s with
  | zero => exact congrArg _ (wordsOf_skip s)
  | succ n ih =>
    rw [backLoop]
    split_ifs with hsign
    · rw [ih,wordsOf_sign (token_of_peek hsign (by decide))]
      rfl
    · exact congrArg _ (wordsOf_skip s)

/-- A parser takes its words from the line. -/
def Takes (s : List UInt8) (x : Except Failure (Cmd Word × List UInt8)) : Prop :=
  ∀ c r, x=.ok (c,r) → (texts c++wordsOf r).Perm (wordsOf s)

theorem parsers_take (n : ℕ) :
    (∀ s, Takes s (parseline n s)) ∧ (∀ s, Takes s (parsepipe n s)) ∧
      (∀ s, Takes s (parseexec n s)) ∧ (∀ s, Takes s (parseblock n s)) := by
  induction n with
  | zero =>
    refine ⟨fun s c r h => ?_,fun s c r h => ?_,fun s c r h => ?_,fun s c r h => ?_⟩
    all_goals cases h
  | succ n ih =>
    obtain ⟨ihline,ihpipe,ihexec,ihblock⟩ := ih
    refine ⟨fun s c r h => ?_,fun s c r h => ?_,fun s c r h => ?_,fun s c r h => ?_⟩
    · rw [parseline] at h
      obtain ⟨⟨cmd,s₁⟩,hpipe,h⟩ := bind_ok h
      have hperm := ihpipe s cmd s₁ hpipe
      rw [←backLoop_words s₁.length] at hperm
      dsimp only at h
      split_ifs at h with hsemi
      · obtain ⟨⟨right,s₂⟩,hline,h⟩ := bind_ok h
        cases h
        have hright := ihline _ right s₂ hline
        rw [wordsOf_sign (token_of_peek hsemi (by decide))] at hright
        rw [texts,Cmd.words,List.map_append,List.append_assoc]
        exact (hright.append_left _).trans hperm
      · cases h
        rw [wordsOf_skip]
        exact hperm
    · rw [parsepipe] at h
      obtain ⟨⟨cmd,s₁⟩,hexec,h⟩ := bind_ok h
      have hperm := ihexec s cmd s₁ hexec
      dsimp only at h
      split_ifs at h with hbar
      · obtain ⟨⟨right,s₂⟩,hpipe,h⟩ := bind_ok h
        cases h
        have hright := ihpipe _ right s₂ hpipe
        rw [wordsOf_sign (token_of_peek hbar (by decide))] at hright
        rw [texts,Cmd.words,List.map_append,List.append_assoc]
        exact (hright.append_left _).trans hperm
      · cases h
        rw [wordsOf_skip]
        exact hperm
    · rw [parseexec] at h
      split_ifs at h with hblock
      · exact ihblock s c r h
      · obtain ⟨⟨ret,s₁⟩,hredirs,h⟩ := bind_ok h
        obtain ⟨hexec,hperm⟩ := parseredirs_words hredirs
        exact (argLoop_loses (hexec trivial) h).trans hperm
    · rw [parseblock] at h
      split_ifs at h with hopen
      obtain ⟨⟨cmd,s₁⟩,hline,h⟩ := bind_ok h
      have hperm := ihline _ cmd s₁ hline
      rw [wordsOf_sign (token_of_peek hopen (by decide))] at hperm
      dsimp only at h
      split_ifs at h with hclose
      have hredirs := (parseredirs_words h).2
      rw [wordsOf_sign (token_of_peek hclose (by decide))] at hredirs
      exact hredirs.trans hperm

theorem words_map (f : α → β) (t : Cmd α) : (t.map f).words=t.words.map f := by
  induction t with
  | exec argv => rfl
  | redir cmd file mode fd ih =>
    rw [Cmd.map,Cmd.words,Cmd.words,List.map_append,ih]
    rfl
  | pipe left right ihl ihr => rw [Cmd.map,Cmd.words,Cmd.words,List.map_append,ihl,ihr]
  | list left right ihl ihr => rw [Cmd.map,Cmd.words,Cmd.words,List.map_append,ihl,ihr]
  | back cmd ih => exact ih

/-- The tree of a line has all words of the line, each as often as it stands there. -/
theorem parsecmd_loses_nothing {buffer : List UInt8} {t : Cmd (List UInt8)}
    (h : parsecmd buffer=.ok t) : t.words.Perm (wordsOf (lineOf buffer)) := by
  rw [parsecmd] at h
  obtain ⟨c,hparse,heq⟩ := bind_ok h
  rw [words_read (fits_of_parse hparse) (lineOf_ne_zero buffer)] at heq
  cases heq
  rw [words_map]
  rw [parse] at hparse
  obtain ⟨⟨cmd,s⟩,hline,hparse⟩ := bind_ok hparse
  dsimp only at hparse
  split_ifs at hparse with hend
  cases hparse
  have hperm := (parsers_take _).1 _ c s hline
  rw [←wordsOf_skip s,hend] at hperm
  rw [←List.append_nil (c.words.map Word.text)]
  exact hperm

/-- The file of `a > b c` comes last in the tree. -/
theorem redirected_words_kept : (Cmd.redir (.exec [[97],[99]]) [98] oWronlyCreate 1).words.Perm
    (wordsOf (lineOf [97,62,98,32,99])) :=
  parsecmd_loses_nothing rfl

end ComputerSystems.Xv6Shell
