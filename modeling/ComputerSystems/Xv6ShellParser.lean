import ComputerSystems.Xv6Shell

/-!
# What the parser of the xv6 shell makes of a line

The parsers only move forward in the line, so that none reaches its bound. The
words of their trees are whole words of the line, and no command has more
arguments than `argv` has room for.
-/

namespace ComputerSystems.Xv6Shell

variable {α β : Type} {P Q : α → Prop} {line s r : List UInt8} {cmd c : Cmd Word} {n : ℕ}

/-- A tree of a line: fewer than `MAXARGS` arguments, words as they should be, and
the two modes of a redirection. -/
def Cmd.Fits (P : α → Prop) : Cmd α → Prop
  | .exec argv => argv.length < maxArgs ∧ ∀ w∈argv, P w
  | .redir cmd file mode fd =>
    cmd.Fits P ∧ P file ∧ (mode=oRdonly ∧ fd=0 ∨ mode=oWronlyCreate ∧ fd=1)
  | .pipe left right => left.Fits P ∧ right.Fits P
  | .list left right => left.Fits P ∧ right.Fits P
  | .back cmd => cmd.Fits P

/-- The number of arguments of the command inside of redirections. -/
def Cmd.argc : Cmd α → ℕ
  | .exec argv => argv.length
  | .redir cmd _ _ _ => cmd.argc
  | _ => 0

/-- A word that stands in a line: characters of a word up to another one or the end. -/
structure Stands (line : List UInt8) (w : Word) : Prop where
  /-- It begins in the line. -/
  inside : w.q <:+ line
  /-- It is not empty and its characters are those of words. -/
  split : ∃ text, w.q=text++w.eq ∧ text≠[] ∧ ∀ c∈text, isArg c=true
  /-- It is whole. -/
  whole : ∀ d∈w.eq.head?, isArg d=false

/-! ## Steps over the line -/

theorem skip_suffix (s : List UInt8) : skip s <:+ s := List.dropWhile_suffix _

/-- What `skip` stops at is not white space. -/
theorem not_space_of_skip {d : UInt8} {u : List UInt8} (h : skip s=d::u) : isSpace d=false := by
  have hhead := List.head?_dropWhile_not isSpace s
  unfold skip at h
  rw [h] at hhead
  exact hhead

/-- A character of a word is no symbol. -/
theorem isArg_of_not_symbol {d : UInt8} (hd : isSpace d=false)
    (hsymbol : ¬(d=124 ∨ d=40 ∨ d=41 ∨ d=59 ∨ d=38 ∨ d=60)) (hright : d≠62) :
    isArg d=true := by
  have hnot : d∉symbols := by
    intro hmem
    simp only [symbols,List.mem_cons,List.not_mem_nil,or_false] at hmem
    tauto
  rw [isArg,hd,decide_eq_true hnot]
  rfl

/-- What the switch of `gettoken` finds: a symbol, the sign `>>`, or a word. -/
theorem scanToken_cases {d : UInt8} (hd : isSpace d=false) (u : List UInt8) :
    (scanToken (d::u)=(d,u) ∧ d≠97 ∧ d≠0) ∨ (∃ v, u=62::v ∧ scanToken (d::u)=(43,v)) ∨
      (isArg d=true ∧ scanToken (d::u)=(97,(d::u).dropWhile isArg)) := by
  by_cases hsymbol : d=124 ∨ d=40 ∨ d=41 ∨ d=59 ∨ d=38 ∨ d=60
  · refine Or.inl ⟨if_pos hsymbol,?_,?_⟩
    all_goals
      rintro rfl
      exact absurd hsymbol (by decide)
  · by_cases hright : d=62
    · subst hright
      cases u with
      | nil => exact Or.inl ⟨rfl,by decide,by decide⟩
      | cons e v =>
        by_cases he : e=62
        · subst he
          exact Or.inr (Or.inl ⟨v,rfl,rfl⟩)
        · refine Or.inl ⟨?_,by decide,by decide⟩
          rw [scanToken,if_neg hsymbol,if_pos rfl]
          intro w hw
          cases hw
          exact he rfl
    · exact Or.inr (Or.inr ⟨isArg_of_not_symbol hd hsymbol hright,
        (if_neg hsymbol).trans (if_neg hright)⟩)

theorem scanToken_suffix (s : List UInt8) : (scanToken s).2 <:+ s := by
  cases s with
  | nil => exact List.suffix_refl _
  | cons d u =>
    unfold scanToken
    dsimp only
    split_ifs
    · exact List.suffix_cons d u
    · split
      · rename_i v
        exact (List.suffix_cons 62 v).trans (List.suffix_cons d _)
      · exact List.suffix_cons d u
    · exact List.dropWhile_suffix _

/-- A token takes at least one character. -/
theorem scanToken_lt {d : UInt8} {u : List UInt8} (hd : isSpace d=false) :
    (scanToken (d::u)).2.length < (d::u).length := by
  rcases scanToken_cases hd u with ⟨heq,-⟩|⟨v,rfl,heq⟩|⟨harg,heq⟩
  · rw [heq]
    exact Nat.lt_succ_self _
  · rw [heq]
    simp only [List.length_cons]
    omega
  · rw [heq,List.dropWhile_cons_of_pos harg]
    exact Nat.lt_succ_of_le (List.dropWhile_suffix _).length_le

theorem gettoken_suffix (s : List UInt8) : (gettoken s).2.2 <:+ s :=
  (skip_suffix _).trans ((scanToken_suffix _).trans (skip_suffix s))

/-- A token that is there makes the rest shorter. -/
theorem gettoken_lt (h : skip s≠[]) : (gettoken s).2.2.length < s.length := by
  obtain ⟨d,u,heq⟩ := List.exists_cons_of_ne_nil h
  have hscan := scanToken_lt (u := u) (not_space_of_skip heq)
  rw [←heq] at hscan
  exact ((skip_suffix _).length_le.trans_lt hscan).trans_le (skip_suffix s).length_le

/-- Where a sign is seen, the line is not at its end. -/
theorem skip_ne_nil_of_peek {toks : List UInt8} (h : peek s toks=true) : skip s≠[] := by
  intro hnil
  unfold peek at h
  rw [hnil] at h
  cases h

/-- A token is there where `gettoken` does not return 0. -/
theorem skip_ne_nil_of_token (h : (gettoken s).1≠0) : skip s≠[] := by
  intro hnil
  refine h ?_
  unfold gettoken
  rw [hnil]
  rfl

/-- The words that `gettoken` finds stand in the line. -/
theorem stands_gettoken (hs : s <:+ line) (h : (gettoken s).1=97) :
    Stands line (gettoken s).2.1 := by
  have hne : skip s≠[] := skip_ne_nil_of_token (by rw [h]; decide)
  obtain ⟨d,u,heq⟩ := List.exists_cons_of_ne_nil hne
  have hinside : d::u <:+ line := heq ▸ (skip_suffix s).trans hs
  unfold gettoken at h ⊢
  rw [heq] at h ⊢
  rcases scanToken_cases (not_space_of_skip heq) u with ⟨htoken,hword,-⟩|⟨v,rfl,htoken⟩|⟨harg,htoken⟩
  · rw [htoken] at h
    exact absurd h hword
  · rw [htoken] at h
    exact absurd h (by decide : ¬(43 : UInt8)=97)
  · rw [htoken]
    refine ⟨hinside,⟨(d::u).takeWhile isArg,List.takeWhile_append_dropWhile.symm,?_,?_⟩,?_⟩
    · rw [List.takeWhile_cons_of_pos harg]
      exact List.cons_ne_nil _ _
    · exact fun e he => List.mem_takeWhile_imp he
    · intro e he
      have hrest := List.head?_dropWhile_not isArg (d::u)
      rw [Option.mem_def.mp he] at hrest
      exact hrest

/-! ## Trees of a line -/

/-- A result has its steps. -/
theorem bind_ok {ε γ δ : Type} {x : Except ε γ} {f : γ → Except ε δ} {d : δ}
    (h : x >>= f=.ok d) : ∃ a, x=.ok a ∧ f a=.ok d := by
  cases x with
  | error e => cases h
  | ok a => exact ⟨a,rfl,h⟩

/-- A failure is that of a step. -/
theorem bind_ne {ε γ δ : Type} {x : Except ε γ} {f : γ → Except ε δ} {e : ε} (hx : x≠.error e)
    (hf : ∀ a, x=.ok a → f a≠.error e) : x >>= f≠.error e := by
  cases x with
  | error e' =>
    intro heq
    cases heq
    exact hx rfl
  | ok a => exact hf a rfl

/-- A redirection keeps a tree as it should be. -/
theorem Cmd.Fits.redircmd {P : Word → Prop} (h : cmd.Fits P) {file : Word} (hfile : P file)
    (tok : UInt8) : (redircmd cmd file tok).Fits P := by
  unfold Xv6Shell.redircmd
  split_ifs
  · exact ⟨h,hfile,Or.inl ⟨rfl,rfl⟩⟩
  · exact ⟨h,hfile,Or.inr ⟨rfl,rfl⟩⟩
  · exact ⟨h,hfile,Or.inr ⟨rfl,rfl⟩⟩
  · exact h

theorem argc_redircmd (cmd : Cmd Word) (file : Word) (tok : UInt8) :
    (redircmd cmd file tok).argc=cmd.argc := by
  unfold redircmd
  split_ifs <;> rfl

/-- There is room for one more argument. -/
theorem Cmd.Fits.pushArg {t : Cmd α} {w : α} (h : t.Fits P) (hw : P w)
    (hroom : t.argc+1 < maxArgs) : (t.pushArg w).Fits P := by
  induction t with
  | exec argv =>
    refine ⟨?_,fun v hv => ?_⟩
    · rw [List.length_append]
      exact hroom
    · rcases List.mem_append.mp hv with hold|hnew
      · exact h.2 v hold
      · rw [List.mem_singleton.mp hnew]
        exact hw
  | redir cmd file mode fd ih => exact ⟨ih h.1 hroom,h.2⟩
  | pipe left right => exact h
  | list left right => exact h
  | back cmd => exact h

theorem argc_pushArg (t : Cmd α) (w : α) : (t.pushArg w).argc ≤ t.argc+1 := by
  induction t with
  | exec argv =>
    change (argv++[w]).length ≤ argv.length+1
    rw [List.length_append]
    rfl
  | redir cmd file mode fd ih => exact ih
  | pipe left right => exact Nat.zero_le _
  | list left right => exact Nat.zero_le _
  | back cmd => exact Nat.zero_le _

/-- What `parseredirs` makes of a tree. -/
theorem parseredirs_sound (line : List UInt8) {n : ℕ} {cmd : Cmd Word} {s : List UInt8}
    (h : parseredirs n cmd s=.ok (c,r)) :
    r <:+ s ∧ c.argc=cmd.argc ∧
      (s <:+ line → cmd.Fits (Stands line) → c.Fits (Stands line)) := by
  induction n generalizing cmd s with
  | zero => cases h
  | succ n ih =>
    rw [parseredirs] at h
    dsimp only at h
    split_ifs at h with hsign hname
    · obtain ⟨hsuffix,hargc,hfits⟩ := ih h
      have hrest := (gettoken_suffix _).trans (gettoken_suffix s)
      refine ⟨hsuffix.trans hrest,hargc.trans (argc_redircmd _ _ _),fun hs hcmd => ?_⟩
      exact hfits (hrest.trans hs)
        (hcmd.redircmd (stands_gettoken ((gettoken_suffix s).trans hs) hname) _)
    · cases h
      exact ⟨skip_suffix s,rfl,fun _ hcmd => hcmd⟩

theorem parseredirs_ends {n : ℕ} {cmd : Cmd Word} {s : List UInt8} (h : s.length < n) :
    parseredirs n cmd s≠.error .tooDeep := by
  induction n generalizing cmd s with
  | zero => exact absurd h (Nat.not_lt_zero _)
  | succ n ih =>
    rw [parseredirs]
    dsimp only
    split_ifs with hsign hname
    · have hlt := gettoken_lt (skip_ne_nil_of_peek hsign)
      have hle := (gettoken_suffix (gettoken s).2.2).length_le
      exact ih (by omega)
    · intro heq
      cases heq
    · intro heq
      cases heq

/-- What the loop over the arguments makes of a tree. -/
theorem argLoop_sound (line : List UInt8) {n argc : ℕ} {ret : Cmd Word} {s : List UInt8}
    (h : argLoop n argc ret s=.ok (c,r)) :
    r <:+ s ∧ (s <:+ line → ret.argc ≤ argc → ret.Fits (Stands line) → c.Fits (Stands line)) := by
  induction n generalizing argc ret s with
  | zero => cases h
  | succ n ih =>
    rw [argLoop] at h
    dsimp only at h
    split_ifs at h with hend hnone hword hmany
    · cases h
      exact ⟨skip_suffix s,fun _ _ hret => hret⟩
    · cases h
      exact ⟨gettoken_suffix s,fun _ _ hret => hret⟩
    · obtain ⟨⟨ret',s'⟩,hredirs,hloop⟩ := bind_ok h
      obtain ⟨hsuffix,hargc,hfits⟩ := parseredirs_sound line hredirs
      obtain ⟨hsuffix',hfits'⟩ := ih hloop
      have hrest := gettoken_suffix s
      have hpush := argc_pushArg ret (gettoken s).2.1
      refine ⟨hsuffix'.trans (hsuffix.trans hrest),fun hs hcount hret => ?_⟩
      refine hfits' (hsuffix.trans (hrest.trans hs)) (hargc.le.trans (by omega))
        (hfits (hrest.trans hs) ?_)
      exact hret.pushArg (stands_gettoken hs (not_not.mp hword)) (by omega)

theorem argLoop_ends {n argc : ℕ} {ret : Cmd Word} {s : List UInt8} (h : s.length < n) :
    argLoop n argc ret s≠.error .tooDeep := by
  induction n generalizing argc ret s with
  | zero => exact absurd h (Nat.not_lt_zero _)
  | succ n ih =>
    rw [argLoop]
    dsimp only
    split_ifs with hend hnone hword hmany
    · intro heq
      cases heq
    · intro heq
      cases heq
    · intro heq
      cases heq
    · intro heq
      cases heq
    · have hlt := gettoken_lt (skip_ne_nil_of_token hnone)
      refine bind_ne (parseredirs_ends (by omega)) ?_
      rintro ⟨ret',s'⟩ hredirs
      have hle := (parseredirs_sound s hredirs).1.length_le
      have hshort : s'.length < n := by omega
      exact ih hshort

/-- The signs `&` behind a command. -/
theorem backLoop_sound (line : List UInt8) (n : ℕ) (cmd : Cmd Word) (s : List UInt8) :
    (backLoop n cmd s).2 <:+ s ∧
      (cmd.Fits (Stands line) → (backLoop n cmd s).1.Fits (Stands line)) := by
  induction n generalizing cmd s with
  | zero => exact ⟨skip_suffix s,id⟩
  | succ n ih =>
    rw [backLoop]
    split_ifs
    · obtain ⟨hsuffix,hfits⟩ := ih (.back cmd) (gettoken s).2.2
      exact ⟨hsuffix.trans (gettoken_suffix s),hfits⟩
    · exact ⟨skip_suffix s,id⟩

/-- What a parser makes of the line. -/
def Sound (line s : List UInt8) (x : Except Failure (Cmd Word × List UInt8)) : Prop :=
  ∀ c r, x=.ok (c,r) → r <:+ s ∧ (s <:+ line → c.Fits (Stands line))

/-- All parsers leave a part of the line and make trees as they should be. -/
theorem parsers_sound (line : List UInt8) (n : ℕ) :
    (∀ s, Sound line s (parseline n s)) ∧ (∀ s, Sound line s (parsepipe n s)) ∧
      (∀ s, Sound line s (parseexec n s)) ∧ (∀ s, Sound line s (parseblock n s)) := by
  induction n with
  | zero =>
    refine ⟨fun s c r h => ?_,fun s c r h => ?_,fun s c r h => ?_,fun s c r h => ?_⟩
    all_goals cases h
  | succ n ih =>
    obtain ⟨ihline,ihpipe,ihexec,ihblock⟩ := ih
    refine ⟨fun s c r h => ?_,fun s c r h => ?_,fun s c r h => ?_,fun s c r h => ?_⟩
    · rw [parseline] at h
      obtain ⟨⟨cmd,s₁⟩,hpipe,h⟩ := bind_ok h
      obtain ⟨hsuffix,hfits⟩ := ihpipe s cmd s₁ hpipe
      obtain ⟨hback,hbackFits⟩ := backLoop_sound line s₁.length cmd s₁
      have hrest := hback.trans hsuffix
      dsimp only at h
      split_ifs at h with hsemi
      · obtain ⟨⟨right,s₂⟩,hline,h⟩ := bind_ok h
        cases h
        obtain ⟨hsuffix',hfits'⟩ := ihline _ right s₂ hline
        have hrest' := (gettoken_suffix _).trans hrest
        exact ⟨hsuffix'.trans hrest',
          fun hs => ⟨hbackFits (hfits hs),hfits' (hrest'.trans hs)⟩⟩
      · cases h
        exact ⟨(skip_suffix _).trans hrest,fun hs => hbackFits (hfits hs)⟩
    · rw [parsepipe] at h
      obtain ⟨⟨cmd,s₁⟩,hexec,h⟩ := bind_ok h
      obtain ⟨hsuffix,hfits⟩ := ihexec s cmd s₁ hexec
      dsimp only at h
      split_ifs at h with hbar
      · obtain ⟨⟨right,s₂⟩,hpipe,h⟩ := bind_ok h
        cases h
        obtain ⟨hsuffix',hfits'⟩ := ihpipe _ right s₂ hpipe
        have hrest' := (gettoken_suffix _).trans hsuffix
        exact ⟨hsuffix'.trans hrest',fun hs => ⟨hfits hs,hfits' (hrest'.trans hs)⟩⟩
      · cases h
        exact ⟨(skip_suffix _).trans hsuffix,hfits⟩
    · rw [parseexec] at h
      split_ifs at h with hblock
      · exact ihblock s c r h
      · obtain ⟨⟨ret,s₁⟩,hredirs,h⟩ := bind_ok h
        obtain ⟨hsuffix,hargc,hfits⟩ := parseredirs_sound line hredirs
        obtain ⟨hsuffix',hfits'⟩ := argLoop_sound line h
        refine ⟨hsuffix'.trans hsuffix,fun hs => hfits' (hsuffix.trans hs) hargc.le ?_⟩
        refine hfits hs ⟨by decide,fun w hw => ?_⟩
        cases hw
    · rw [parseblock] at h
      split_ifs at h with hopen
      obtain ⟨⟨cmd,s₁⟩,hline,h⟩ := bind_ok h
      obtain ⟨hsuffix,hfits⟩ := ihline _ cmd s₁ hline
      have hrest := hsuffix.trans (gettoken_suffix s)
      dsimp only at h
      split_ifs at h with hclose
      obtain ⟨hsuffix',-,hfits'⟩ := parseredirs_sound line h
      have hrest' := (gettoken_suffix s₁).trans hrest
      exact ⟨hsuffix'.trans hrest',
        fun hs => hfits' (hrest'.trans hs) (hfits ((gettoken_suffix s).trans hs))⟩

/-- No parser reaches its bound when that is four times the length of the line. -/
theorem parsers_end (n : ℕ) :
    (∀ s : List UInt8, 4*s.length+4 ≤ n → parseline n s≠.error .tooDeep) ∧
      (∀ s : List UInt8, 4*s.length+3 ≤ n → parsepipe n s≠.error .tooDeep) ∧
      (∀ s : List UInt8, 4*s.length+2 ≤ n → parseexec n s≠.error .tooDeep) ∧
      (∀ s : List UInt8, 4*s.length+1 ≤ n → parseblock n s≠.error .tooDeep) := by
  induction n with
  | zero =>
    refine ⟨fun s h => ?_,fun s h => ?_,fun s h => ?_,fun s h => ?_⟩
    all_goals omega
  | succ n ih =>
    obtain ⟨ihline,ihpipe,ihexec,ihblock⟩ := ih
    refine ⟨fun s h => ?_,fun s h => ?_,fun s h => ?_,fun s h => ?_⟩
    · rw [parseline]
      refine bind_ne (ihpipe s (by omega)) ?_
      rintro ⟨cmd,s₁⟩ hpipe
      have hle := ((parsers_sound s n).2.1 s cmd s₁ hpipe).1.length_le
      have hback := (backLoop_sound s s₁.length cmd s₁).1.length_le
      dsimp only
      split_ifs with hsemi
      · have hlt := gettoken_lt (skip_ne_nil_of_peek hsemi)
        refine bind_ne (ihline _ (by omega)) ?_
        rintro ⟨right,s₂⟩ _ heq
        cases heq
      · intro heq
        cases heq
    · rw [parsepipe]
      refine bind_ne (ihexec s (by omega)) ?_
      rintro ⟨cmd,s₁⟩ hexec
      have hle := ((parsers_sound s n).2.2.1 s cmd s₁ hexec).1.length_le
      dsimp only
      split_ifs with hbar
      · have hlt := gettoken_lt (skip_ne_nil_of_peek hbar)
        refine bind_ne (ihpipe _ (by omega)) ?_
        rintro ⟨right,s₂⟩ _ heq
        cases heq
      · intro heq
        cases heq
    · rw [parseexec]
      split_ifs with hblock
      · exact ihblock s (by omega)
      · refine bind_ne (parseredirs_ends (by omega)) ?_
        rintro ⟨ret,s₁⟩ hredirs
        have hle := (parseredirs_sound s hredirs).1.length_le
        exact argLoop_ends (by omega)
    · rw [parseblock]
      split_ifs with hopen
      · have hlt := gettoken_lt (skip_ne_nil_of_peek hopen)
        refine bind_ne (ihline _ (by omega)) ?_
        rintro ⟨cmd,s₁⟩ hline
        have hle := ((parsers_sound s n).1 _ cmd s₁ hline).1.length_le
        dsimp only
        split_ifs with hclose
        · have hlt' := gettoken_lt (skip_ne_nil_of_peek hclose)
          exact parseredirs_ends (by omega)
        · intro heq
          cases heq
      · intro heq
        cases heq

end ComputerSystems.Xv6Shell
