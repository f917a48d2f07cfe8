import ComputerSystems.Xv6ShellWords

/-!
# Lines and trees of the xv6 shell

Every tree whose commands have room for their arguments can be written in a line,
with parentheses around what stands inside, and is parsed to itself; and these
are all trees that `parsecmd` returns. Whatever the line, the words of the tree
are read back as they stand there.
-/

namespace ComputerSystems.Xv6Shell

variable {α β : Type} {s u z l : List UInt8} {d : UInt8} {c : Cmd Word} {n : ℕ}
  {t : Cmd (List UInt8)}

/-- A word as it can stand in a line. -/
def IsWord (w : List UInt8) : Prop := w≠[] ∧ ∀ d∈w, d≠0 ∧ isArg d=true

/-- The sign of a redirection. -/
def sign (mode : ℕ) : UInt8 := if mode=oRdonly then 60 else 62

/-- A line for a tree: every command inside of another one stands in parentheses. -/
def Cmd.print : Cmd (List UInt8) → List UInt8
  | .exec argv => argv.flatMap (fun w => w++[32])
  | .redir cmd file mode _ => 40::(cmd.print++41::sign mode::(file++[32]))
  | .pipe left right => 40::(left.print++41::124::40::(right.print++[41]))
  | .list left right => 40::(left.print++41::59::40::(right.print++[41]))
  | .back cmd => 40::(cmd.print++[41,38])

/-! ## Tokens of a printed line -/

theorem skip_cons (hd : isSpace d=false) (u : List UInt8) : skip (d::u)=d::u :=
  List.dropWhile_cons_of_neg (by rw [hd]; exact Bool.false_ne_true)

theorem peek_cons (hd : isSpace d=false) (u toks : List UInt8) :
    peek (d::u) toks=decide (d∈toks) := by
  unfold peek
  rw [skip_cons hd]

/-- What a line begins with, if it is not at its end. -/
def HeadIn (l z : List UInt8) : Prop := ∀ d∈z.head?, d∈l

theorem headIn_nil (l : List UInt8) : HeadIn l [] := fun d hd => by cases hd

theorem headIn_cons (h : d∈l) (u : List UInt8) : HeadIn l (d::u) := by
  intro e he
  cases he
  exact h

theorem HeadIn.mono {l' : List UInt8} (h : HeadIn l z)
    (hl : l.all (fun d => decide (d∈l'))=true) : HeadIn l' z :=
  fun d hd => of_decide_eq_true (List.all_eq_true.mp hl d (h d hd))

theorem isSpace_of_all (hl : l.all (fun d => !isSpace d)=true) (hd : d∈l) : isSpace d=false := by
  have hnot := List.all_eq_true.mp hl d hd
  cases hspace : isSpace d with
  | false => rfl
  | true =>
    rw [hspace] at hnot
    cases hnot

theorem skip_of_headIn (h : HeadIn l z) (hl : l.all (fun d => !isSpace d)=true) : skip z=z := by
  cases z with
  | nil => rfl
  | cons d u => exact skip_cons (isSpace_of_all hl (h d rfl)) u

theorem peek_of_headIn {toks : List UInt8} (h : HeadIn l z)
    (hl : l.all (fun d => !isSpace d)=true) (htoks : l.all (fun d => decide (d∉toks))=true) :
    peek z toks=false := by
  cases z with
  | nil => rfl
  | cons d u =>
    rw [peek_cons (isSpace_of_all hl (h d rfl))]
    exact decide_eq_false (of_decide_eq_true (List.all_eq_true.mp htoks d (h d rfl)))

/-- A symbol is a token. -/
theorem gettoken_symbol (hd : d=124 ∨ d=40 ∨ d=41 ∨ d=59 ∨ d=38 ∨ d=60) (u : List UInt8) :
    gettoken (d::u)=(d,⟨d::u,u⟩,skip u) := by
  have hspace : isSpace d=false := by
    rcases hd with rfl|rfl|rfl|rfl|rfl|rfl <;> rfl
  have hscan : scanToken (d::u)=(d,u) := if_pos hd
  unfold gettoken
  rw [skip_cons hspace,hscan]

/-- What is no symbol begins a word. -/
theorem isSpace_of_isArg (h : isArg d=true) : isSpace d=false := by
  unfold isArg at h
  cases hspace : isSpace d with
  | false => rfl
  | true =>
    rw [hspace] at h
    cases h

theorem not_symbol_of_isArg (h : isArg d=true) : d∉symbols := by
  unfold isArg at h
  exact of_decide_eq_true (Bool.and_eq_true_iff.mp h).2

/-- A word is a token up to its end. -/
theorem scanToken_arg (h : isArg d=true) (u : List UInt8) :
    scanToken (d::u)=(97,(d::u).dropWhile isArg) := by
  have hsymbol := not_symbol_of_isArg h
  have hnot : ¬(d=124 ∨ d=40 ∨ d=41 ∨ d=59 ∨ d=38 ∨ d=60) := by
    rintro (rfl|rfl|rfl|rfl|rfl|rfl) <;> exact hsymbol (by decide)
  have hright : ¬d=62 := by
    rintro rfl
    exact hsymbol (by decide)
  exact (if_neg hnot).trans (if_neg hright)

/-- A word is a token up to the space behind it. -/
theorem gettoken_word {w : List UInt8} (hw : IsWord w) (z : List UInt8) :
    gettoken (w++32::z)=(97,⟨w++32::z,32::z⟩,skip z) := by
  obtain ⟨d,v,rfl⟩ := List.exists_cons_of_ne_nil hw.1
  have hd := (hw.2 d List.mem_cons_self).2
  have hscan : scanToken (d::(v++32::z))=(97,32::z) := by
    rw [scanToken_arg hd,←List.cons_append,
      List.dropWhile_append_of_pos fun e he => (hw.2 e he).2]
    rfl
  unfold gettoken
  rw [List.cons_append,skip_cons (isSpace_of_isArg hd),hscan]
  rfl

/-- Words and what follows them. -/
theorem headIn_words {argv : List (List UInt8)} (h : ∀ w∈argv, IsWord w) (hz : HeadIn [41] z) :
    ∀ d∈(argv.flatMap (fun w => w++[32])++z).head?, isArg d=true ∨ d=41 := by
  cases argv with
  | nil =>
    intro d hd
    exact Or.inr (List.mem_singleton.mp (hz d hd))
  | cons w argv =>
    have hw := h w List.mem_cons_self
    obtain ⟨e,v,rfl⟩ := List.exists_cons_of_ne_nil hw.1
    intro d hd
    cases hd
    exact Or.inl (hw.2 e List.mem_cons_self).2

theorem length_words (argv : List (List UInt8)) (z : List UInt8) :
    argv.length ≤ (argv.flatMap (fun w => w++[32])++z).length := by
  induction argv with
  | nil => exact Nat.zero_le _
  | cons w argv ih =>
    rw [List.flatMap_cons,List.append_assoc,List.append_assoc,List.length_append,List.length_append,
      List.length_cons,List.length_singleton]
    omega

theorem skip_words {argv : List (List UInt8)} (h : ∀ w∈argv, IsWord w) (hz : HeadIn [41] z) :
    skip (argv.flatMap (fun w => w++[32])++z)=argv.flatMap (fun w => w++[32])++z := by
  have hhead := headIn_words h hz
  cases heq : argv.flatMap (fun w => w++[32])++z with
  | nil => rfl
  | cons d u =>
    rw [heq] at hhead
    refine skip_cons ?_ u
    rcases hhead d rfl with harg|rfl
    · exact isSpace_of_isArg harg
    · rfl

theorem peek_words {argv : List (List UInt8)} {toks : List UInt8} (h : ∀ w∈argv, IsWord w)
    (hz : HeadIn [41] z)
    (htoks : toks.all (fun d => decide (d∈symbols ∧ d≠41))=true) :
    peek (argv.flatMap (fun w => w++[32])++z) toks=false := by
  have hhead := headIn_words h hz
  cases heq : argv.flatMap (fun w => w++[32])++z with
  | nil => rfl
  | cons d u =>
    rw [heq] at hhead
    rcases hhead d rfl with harg|rfl
    · rw [peek_cons (isSpace_of_isArg harg)]
      exact decide_eq_false fun hmem =>
        not_symbol_of_isArg harg (of_decide_eq_true (List.all_eq_true.mp htoks d hmem)).1
    · rw [peek_cons rfl]
      exact decide_eq_false fun hmem =>
        (of_decide_eq_true (List.all_eq_true.mp htoks 41 hmem)).2 rfl

/-! ## Parts of a printed line -/

theorem parseredirs_none (hn : 0 < n) (hpeek : peek s [60,62]=false) :
    parseredirs n c s=.ok (c,skip s) := by
  obtain ⟨m,rfl⟩ := Nat.exists_eq_add_of_lt hn
  rw [Nat.zero_add,parseredirs,hpeek]
  rfl

/-- One redirection. -/
theorem parseredirs_one {file : List UInt8} {mode fd : ℕ} (hfile : IsWord file)
    (hmode : mode=oRdonly ∧ fd=0 ∨ mode=oWronlyCreate ∧ fd=1) (hz : HeadIn [41] z)
    (hn : 1 < n) :
    ∃ w : Word, w.text=file ∧
      parseredirs n c (sign mode::(file++32::z))=.ok (.redir c w mode fd,z) := by
  obtain ⟨m,rfl⟩ := Nat.exists_eq_add_of_lt hn
  have hskip : skip z=z := skip_of_headIn hz (by decide)
  obtain ⟨e,v,hcons⟩ := List.exists_cons_of_ne_nil hfile.1
  have harg : isArg e=true := (hfile.2 e (hcons ▸ List.mem_cons_self)).2
  have hskipFile : skip (file++32::z)=file++32::z := by
    rw [hcons]
    exact skip_cons (isSpace_of_isArg harg) _
  have hsign : gettoken (sign mode::(file++32::z))=
      (sign mode,⟨sign mode::(file++32::z),file++32::z⟩,file++32::z) := by
    rcases hmode with ⟨rfl,-⟩|⟨rfl,-⟩
    · exact (gettoken_symbol (by decide) _).trans (by rw [hskipFile])
    · have hscan : scanToken (62::(file++32::z))=(62,file++32::z) := by
        rw [hcons,List.cons_append,scanToken,if_neg (by decide),if_pos rfl]
        intro u hu
        cases hu
        exact not_symbol_of_isArg harg (by decide)
      have hskipSign : skip (62::(file++32::z))=62::(file++32::z) := skip_cons rfl _
      change gettoken (62::(file++32::z))=_
      unfold gettoken
      rw [hskipSign,hscan,hskipFile]
      rfl
  have hpeek : peek (sign mode::(file++32::z)) [60,62]=true := by
    rcases hmode with ⟨rfl,-⟩|⟨rfl,-⟩
    · exact peek_cons rfl _ _
    · exact peek_cons rfl _ _
  have hredir : redircmd c ⟨file++32::z,32::z⟩ (sign mode)=
      .redir c ⟨file++32::z,32::z⟩ mode fd := by
    rcases hmode with ⟨rfl,rfl⟩|⟨rfl,rfl⟩ <;> rfl
  refine ⟨⟨file++32::z,32::z⟩,?_,?_⟩
  · exact text_of_append rfl
  · rw [parseredirs,hpeek,if_pos rfl]
    dsimp only
    rw [hsign]
    dsimp only
    rw [gettoken_word hfile]
    dsimp only
    rw [if_pos rfl,hredir,hskip,parseredirs_none (by omega) (peek_of_headIn hz rfl rfl),hskip]

/-- The signs that end the arguments of a command. -/
theorem symbols_end : ([124,41,38,59] : List UInt8).all (fun d => decide (d∈symbols))=true := rfl

/-- The arguments of a command. -/
theorem argLoop_words {argv : List (List UInt8)} (ws : List Word) (argc : ℕ)
    (h : ∀ w∈argv, IsWord w) (hz : HeadIn [41] z) (hcount : argc+argv.length < maxArgs)
    (hn : argv.length < n) :
    ∃ ws' : List Word, ws'.map Word.text=argv ∧
      argLoop n argc (.exec ws) (argv.flatMap (fun w => w++[32])++z)=.ok (.exec (ws++ws'),z) := by
  induction argv generalizing ws argc n with
  | nil =>
    obtain ⟨m,rfl⟩ := Nat.exists_eq_add_of_lt hn
    refine ⟨[],rfl,?_⟩
    rw [List.append_nil,List.flatMap_nil,List.nil_append,argLoop]
    cases z with
    | nil => rfl
    | cons d u =>
      cases List.mem_singleton.mp (hz d rfl)
      rw [peek_cons rfl,skip_cons rfl]
      rfl
  | cons w argv ih =>
    obtain ⟨m,rfl⟩ := Nat.exists_eq_add_of_lt hn
    have hw := h w List.mem_cons_self
    have hrest : ∀ v∈argv, IsWord v := fun v hv => h v (List.mem_cons_of_mem w hv)
    have hline : (w::argv).flatMap (fun w => w++[32])++z=
        w++32::(argv.flatMap (fun w => w++[32])++z) := by
      rw [List.flatMap_cons,List.append_assoc,List.append_assoc]
      rfl
    obtain ⟨ws',htext,hloop⟩ := ih (n := (w::argv).length+m)
      (ws++[⟨w++32::(argv.flatMap (fun w => w++[32])++z),
        32::(argv.flatMap (fun w => w++[32])++z)⟩]) (argc+1) hrest
      (by rw [List.length_cons] at hcount; omega) (by rw [List.length_cons]; omega)
    refine ⟨⟨w++32::(argv.flatMap (fun w => w++[32])++z),
      32::(argv.flatMap (fun w => w++[32])++z)⟩::ws',?_,?_⟩
    · rw [List.map_cons,htext,text_of_append rfl]
    · have hpeek : peek (w++32::(argv.flatMap (fun w => w++[32])++z)) [124,41,38,59]=false := by
        obtain ⟨e,v,rfl⟩ := List.exists_cons_of_ne_nil hw.1
        have harg := (hw.2 e List.mem_cons_self).2
        rw [List.cons_append,peek_cons (isSpace_of_isArg harg)]
        refine decide_eq_false fun hmem => not_symbol_of_isArg harg ?_
        exact of_decide_eq_true (List.all_eq_true.mp symbols_end e hmem)
      rw [hline,argLoop,hpeek]
      dsimp only
      rw [if_neg Bool.false_ne_true,gettoken_word hw,skip_words hrest hz]
      dsimp only
      rw [if_neg (by decide),if_neg (by decide),
        if_neg (by rw [List.length_cons] at hcount; omega),
        parseredirs_none (Nat.succ_pos _) (peek_words hrest hz (by decide)),skip_words hrest hz]
      rw [List.append_assoc] at hloop
      exact hloop

/-! ## Printed trees -/

/-- A step that succeeds. -/
theorem bind_eq {ε γ δ : Type} {x : Except ε γ} {a : γ} (h : x=.ok a) (f : γ → Except ε δ) :
    x >>= f=f a := by
  rw [h]
  rfl

theorem skip_print (h : t.Fits IsWord) (hz : HeadIn [41] z) : skip (t.print++z)=t.print++z := by
  cases t with
  | exec argv => exact skip_words h.2 hz
  | redir cmd file mode fd => exact skip_cons rfl _
  | pipe left right => exact skip_cons rfl _
  | list left right => exact skip_cons rfl _
  | back cmd => exact skip_cons rfl _

/-- A printed tree is parsed up to its end or a closing parenthesis. -/
def Parses (t : Cmd (List UInt8)) : Prop :=
  ∀ n z, HeadIn [41] z → 4*(t.print++z).length+4 ≤ n →
    ∃ c, parseline n (t.print++z)=.ok (c,z) ∧ c.map Word.text=t

/-- A tree in parentheses. -/
theorem parseexec_block (ht : t.Fits IsWord) (h : Parses t)
    (hn : 4*(40::(t.print++41::z)).length+2 ≤ n) :
    ∃ c m, z.length+1 < m ∧ c.map Word.text=t ∧
      parseexec n (40::(t.print++41::z))=parseredirs m c (skip z) := by
  simp only [List.length_cons,List.length_append] at hn
  obtain ⟨m,rfl⟩ := Nat.exists_eq_add_of_le' (show 3 ≤ n by omega)
  have hclose : HeadIn [41] (41::z) := headIn_cons List.mem_cons_self z
  obtain ⟨c,hline,htext⟩ := h (m+1) (41::z) hclose (by
    simp only [List.length_cons,List.length_append]
    omega)
  refine ⟨c,m+2,by omega,htext,?_⟩
  rw [parseexec,peek_cons rfl,if_pos (by decide),parseblock,peek_cons rfl,if_pos (by decide),
    gettoken_symbol (by decide)]
  dsimp only
  rw [skip_print ht hclose,bind_eq hline]
  dsimp only
  rw [peek_cons rfl,if_pos (by decide),gettoken_symbol (by decide)]

/-- A tree in parentheses without a redirection behind it. -/
theorem parseexec_closed (ht : t.Fits IsWord) (h : Parses t) (hz : HeadIn [41,59,38,124] z)
    (hn : 4*(40::(t.print++41::z)).length+2 ≤ n) :
    ∃ c, c.map Word.text=t ∧ parseexec n (40::(t.print++41::z))=.ok (c,z) := by
  obtain ⟨c,m,hm,htext,heq⟩ := parseexec_block ht h hn
  have hskip : skip z=z := skip_of_headIn hz (by decide)
  refine ⟨c,htext,heq.trans ?_⟩
  rw [hskip,parseredirs_none (by omega) (peek_of_headIn hz (by decide) (by decide)),hskip]

/-- A command without a pipe behind it. -/
theorem parsepipe_closed (hz : HeadIn [41,59,38] z) (h : parseexec n s=.ok (c,z)) :
    parsepipe (n+1) s=.ok (c,z) := by
  rw [parsepipe,bind_eq h]
  dsimp only
  rw [peek_of_headIn hz (by decide) (by decide),skip_of_headIn hz (by decide)]
  rfl

theorem backLoop_none (hz : HeadIn [41,59] z) (n : ℕ) (c : Cmd Word) : backLoop n c z=(c,z) := by
  cases n with
  | zero => rw [backLoop,skip_of_headIn hz (by decide)]
  | succ n =>
    rw [backLoop,peek_of_headIn hz (by decide) (by decide),skip_of_headIn hz (by decide)]
    rfl

/-- A pipeline with nothing behind it. -/
theorem parseline_closed (hz : HeadIn [41] z) (h : parsepipe n s=.ok (c,z)) :
    parseline (n+1) s=.ok (c,z) := by
  rw [parseline,bind_eq h]
  dsimp only
  rw [backLoop_none (hz.mono (by decide))]
  dsimp only
  rw [peek_of_headIn hz (by decide) (by decide),skip_of_headIn hz (by decide)]
  rfl

/-- A tree in parentheses at the end of a pipeline. -/
theorem parsepipe_block (ht : t.Fits IsWord) (h : Parses t) (hz : HeadIn [41,59,38] z)
    (hn : 4*(40::(t.print++41::z)).length+3 ≤ n) :
    ∃ c, c.map Word.text=t ∧ parsepipe n (40::(t.print++41::z))=.ok (c,z) := by
  obtain ⟨m,rfl⟩ := Nat.exists_eq_add_of_le' (show 1 ≤ n by omega)
  obtain ⟨c,htext,heq⟩ := parseexec_closed (n := m) ht h (hz.mono (by decide)) (by omega)
  exact ⟨c,htext,parsepipe_closed hz heq⟩

/-- A tree in parentheses at the end of a line. -/
theorem parseline_block (ht : t.Fits IsWord) (h : Parses t) (hz : HeadIn [41] z)
    (hn : 4*(40::(t.print++41::z)).length+4 ≤ n) :
    ∃ c, c.map Word.text=t ∧ parseline n (40::(t.print++41::z))=.ok (c,z) := by
  obtain ⟨m,rfl⟩ := Nat.exists_eq_add_of_le' (show 1 ≤ n by omega)
  obtain ⟨c,htext,heq⟩ := parsepipe_block (n := m) ht h (hz.mono (by decide)) (by omega)
  exact ⟨c,htext,parseline_closed hz heq⟩

/-- A command with its arguments. -/
theorem parses_exec {argv : List (List UInt8)} (h : (Cmd.exec argv).Fits IsWord) :
    Parses (.exec argv) := by
  intro n z hz hn
  obtain ⟨m,rfl⟩ := Nat.exists_eq_add_of_le' (show 3 ≤ n by omega)
  change ∃ c, parseline (m+3) (argv.flatMap (fun w => w++[32])++z)=.ok (c,z) ∧ _
  change 4*(argv.flatMap (fun w => w++[32])++z).length+4 ≤ m+3 at hn
  have hlength := length_words argv z
  obtain ⟨ws,htext,hloop⟩ := argLoop_words (n := m+1) [] 0 h.2 hz
    (by rw [Nat.zero_add]; exact h.1) (by omega)
  have hexec : parseexec (m+1) (argv.flatMap (fun w => w++[32])++z)=.ok (.exec ws,z) := by
    rw [parseexec,peek_words h.2 hz (by decide),if_neg Bool.false_ne_true,
      bind_eq (parseredirs_none (Nat.succ_pos m) (peek_words h.2 hz (by decide))),
      skip_words h.2 hz]
    exact hloop
  exact ⟨.exec ws,parseline_closed hz (parsepipe_closed (hz.mono (by decide)) hexec),
    congrArg Cmd.exec htext⟩

/-- A line that is printed for a tree is parsed to that tree. -/
theorem parses_print (t : Cmd (List UInt8)) (h : t.Fits IsWord) : Parses t := by
  induction t with
  | exec argv => exact parses_exec h
  | redir cmd file mode fd ih =>
    intro n z hz hn
    have hline : (Cmd.redir cmd file mode fd).print++z=
        40::(cmd.print++41::(sign mode::(file++32::z))) := by
      simp only [Cmd.print,List.cons_append,List.append_assoc,List.nil_append]
    rw [hline] at hn ⊢
    obtain ⟨m,rfl⟩ := Nat.exists_eq_add_of_le' (show 2 ≤ n by omega)
    obtain ⟨c,k,hk,htext,hexec⟩ :=
      parseexec_block (n := m) (z := sign mode::(file++32::z)) h.1 (ih h.1) (by omega)
    have hspace : isSpace (sign mode)=false := by
      unfold sign
      split_ifs <;> rfl
    obtain ⟨w,hw,hredir⟩ := parseredirs_one (c := c) h.2.1 h.2.2 hz
      (show 1 < k by rw [List.length_cons] at hk; omega)
    rw [skip_cons hspace,hredir] at hexec
    refine ⟨_,parseline_closed hz (parsepipe_closed (hz.mono (by decide)) hexec),?_⟩
    rw [Cmd.map,htext,hw]
  | pipe left right ihl ihr =>
    intro n z hz hn
    have hline : (Cmd.pipe left right).print++z=
        40::(left.print++41::(124::(40::(right.print++41::z)))) := by
      simp only [Cmd.print,List.cons_append,List.append_assoc,List.nil_append]
    rw [hline] at hn ⊢
    simp only [List.length_cons,List.length_append] at hn
    obtain ⟨m,rfl⟩ := Nat.exists_eq_add_of_le' (show 2 ≤ n by omega)
    obtain ⟨c,htext,hexec⟩ := parseexec_closed (n := m) (z := 124::(40::(right.print++41::z)))
      h.1 (ihl h.1) (headIn_cons (by decide) _) (by
        simp only [List.length_cons,List.length_append]
        omega)
    obtain ⟨c',htext',hright⟩ := parsepipe_block (n := m) h.2 (ihr h.2) (hz.mono (by decide)) (by
      simp only [List.length_cons,List.length_append]
      omega)
    have hpipe : parsepipe (m+1) (40::(left.print++41::(124::(40::(right.print++41::z)))))=
        .ok (.pipe c c',z) := by
      rw [parsepipe,bind_eq hexec]
      dsimp only
      rw [peek_cons rfl,if_pos (by decide),gettoken_symbol (by decide)]
      dsimp only
      rw [skip_cons rfl,bind_eq hright]
    exact ⟨_,parseline_closed hz hpipe,by rw [Cmd.map,htext,htext']⟩
  | list left right ihl ihr =>
    intro n z hz hn
    have hline : (Cmd.list left right).print++z=
        40::(left.print++41::(59::(40::(right.print++41::z)))) := by
      simp only [Cmd.print,List.cons_append,List.append_assoc,List.nil_append]
    rw [hline] at hn ⊢
    simp only [List.length_cons,List.length_append] at hn
    obtain ⟨m,rfl⟩ := Nat.exists_eq_add_of_le' (show 1 ≤ n by omega)
    obtain ⟨c,htext,hpipe⟩ := parsepipe_block (n := m) (z := 59::(40::(right.print++41::z)))
      h.1 (ihl h.1) (headIn_cons (by decide) _) (by
        simp only [List.length_cons,List.length_append]
        omega)
    obtain ⟨c',htext',hright⟩ := parseline_block (n := m) h.2 (ihr h.2) hz (by
      simp only [List.length_cons,List.length_append]
      omega)
    refine ⟨.list c c',?_,by rw [Cmd.map,htext,htext']⟩
    rw [parseline,bind_eq hpipe]
    dsimp only
    rw [backLoop_none (headIn_cons (by decide) _)]
    dsimp only
    rw [peek_cons rfl,if_pos (by decide),gettoken_symbol (by decide)]
    dsimp only
    rw [skip_cons rfl,bind_eq hright]
  | back cmd ih =>
    intro n z hz hn
    have hline : (Cmd.back cmd).print++z=40::(cmd.print++41::(38::z)) := by
      simp only [Cmd.print,List.cons_append,List.append_assoc,List.nil_append]
    rw [hline] at hn ⊢
    obtain ⟨m,rfl⟩ := Nat.exists_eq_add_of_le' (show 1 ≤ n by omega)
    obtain ⟨c,htext,hpipe⟩ := parsepipe_block (n := m) (t := cmd) (z := 38::z) h (ih h)
      (headIn_cons (by decide) _) (by omega)
    have hback : backLoop (38::z).length c (38::z)=(.back c,z) := by
      rw [List.length_cons,backLoop,peek_cons rfl,if_pos (by decide),
        gettoken_symbol (by decide)]
      dsimp only
      rw [skip_of_headIn hz (by decide),backLoop_none (hz.mono (by decide))]
    refine ⟨.back c,?_,by rw [Cmd.map,htext]⟩
    rw [parseline,bind_eq hpipe]
    dsimp only
    rw [hback]
    dsimp only
    rw [peek_of_headIn hz (by decide) (by decide),skip_of_headIn hz (by decide)]
    rfl

/-! ## Lines and trees -/

/-- A printed line holds no terminator. -/
theorem print_ne_zero (h : t.Fits IsWord) : ∀ d∈t.print, d≠0 := by
  induction t with
  | exec argv =>
    intro d hd
    obtain ⟨w,hw,hmem⟩ := List.mem_flatMap.mp hd
    rcases List.mem_append.mp hmem with hword|hspace
    · exact ((h.2 w hw).2 d hword).1
    · rw [List.mem_singleton.mp hspace]
      decide
  | redir cmd file mode fd ih =>
    intro d hd
    simp only [Cmd.print,List.mem_cons,List.mem_append,List.not_mem_nil,or_false] at hd
    rcases hd with rfl|hcmd|rfl|rfl|hfile|rfl
    · decide
    · exact ih h.1 d hcmd
    · decide
    · unfold sign
      split_ifs <;> decide
    · exact (h.2.1.2 d hfile).1
    · decide
  | pipe left right ihl ihr =>
    intro d hd
    simp only [Cmd.print,List.mem_cons,List.mem_append,List.not_mem_nil,or_false] at hd
    rcases hd with rfl|hleft|rfl|rfl|rfl|hright|rfl
    all_goals first | decide | skip
    · exact ihl h.1 d hleft
    · exact ihr h.2 d hright
  | list left right ihl ihr =>
    intro d hd
    simp only [Cmd.print,List.mem_cons,List.mem_append,List.not_mem_nil,or_false] at hd
    rcases hd with rfl|hleft|rfl|rfl|rfl|hright|rfl
    all_goals first | decide | skip
    · exact ihl h.1 d hleft
    · exact ihr h.2 d hright
  | back cmd ih =>
    intro d hd
    simp only [Cmd.print,List.mem_cons,List.mem_append,List.not_mem_nil,or_false] at hd
    rcases hd with rfl|hcmd|rfl|rfl
    · decide
    · exact ih h d hcmd
    · decide
    · decide

/-- The line in a buffer holds no terminator. -/
theorem lineOf_ne_zero (buffer : List UInt8) : ∀ d∈lineOf buffer, d≠0 := by
  intro d hd
  have hne := List.mem_takeWhile_imp hd
  exact of_decide_eq_true hne

/-- Words that stand in a line are words. -/
theorem isWord_text {line : List UInt8} {w : Word} (hline : ∀ d∈line, d≠0)
    (h : Stands line w) : IsWord w.text := by
  obtain ⟨u,hu⟩ := h.inside
  obtain ⟨text,hsplit,hne,hargs⟩ := h.split
  have htext := text_of_append hsplit
  rw [htext]
  refine ⟨hne,fun d hd => ⟨hline d ?_,hargs d hd⟩⟩
  rw [←hu,hsplit]
  exact List.mem_append_right _ (List.mem_append_left _ hd)

theorem isWord_letter (hd : d≠0) (harg : isArg d=true) : IsWord [d] := by
  refine ⟨List.cons_ne_nil d [],fun e he => ?_⟩
  rw [List.mem_singleton.mp he]
  exact ⟨hd,harg⟩

theorem Cmd.Fits.map {P : α → Prop} {Q : β → Prop} {f : α → β} {t : Cmd α} (h : t.Fits P)
    (hf : ∀ w, P w → Q (f w)) : (t.map f).Fits Q := by
  induction t with
  | exec argv =>
    refine ⟨?_,fun w hw => ?_⟩
    · rw [List.length_map]
      exact h.1
    · obtain ⟨v,hv,rfl⟩ := List.mem_map.mp hw
      exact hf v (h.2 v hv)
  | redir cmd file mode fd ih => exact ⟨ih h.1,hf file h.2.1,h.2.2⟩
  | pipe left right ihl ihr => exact ⟨ihl h.1,ihr h.2⟩
  | list left right ihl ihr => exact ⟨ihl h.1,ihr h.2⟩
  | back cmd ih => exact ih h

/-- What `parse` makes of a line. -/
theorem fits_of_parse {line : List UInt8} (h : parse line=.ok c) : c.Fits (Stands line) := by
  unfold parse at h
  obtain ⟨⟨cmd,s⟩,hline,h⟩ := bind_ok h
  dsimp only at h
  split_ifs at h
  cases h
  exact (((parsers_sound line _).1 line) _ s hline).2 (List.suffix_refl line)

/-- The bound on the depth is not reached. -/
theorem parse_ends (line : List UInt8) : parse line≠.error .tooDeep := by
  unfold parse
  refine bind_ne ((parsers_end _).1 line le_rfl) ?_
  rintro ⟨cmd,s⟩ _
  dsimp only
  split_ifs <;>
  · intro heq
    cases heq

/-- Every line is a tree or a syntax error. The words of the tree, read after
`nulterminate`, are whole words of the line as they stand there: no terminator falls
into a word. -/
theorem parsecmd_words (buffer : List UInt8) :
    (∃ c, parse (lineOf buffer)=.ok c ∧
      c.Fits (Stands (lineOf buffer)) ∧
      parsecmd buffer=.ok (c.map Word.text)) ∨
    ∃ text, parsecmd buffer=.error (.panic text) := by
  cases h : parse (lineOf buffer) with
  | ok c =>
    have hfits := fits_of_parse h
    refine Or.inl ⟨c,rfl,hfits,?_⟩
    rw [parsecmd,bind_eq h,words_read hfits (lineOf_ne_zero buffer)]
  | error e =>
    cases e with
    | panic text =>
      refine Or.inr ⟨text,?_⟩
      rw [parsecmd,h]
      rfl
    | tooDeep => exact absurd h (parse_ends _)

/-- A printed tree is parsed to that tree. -/
theorem parsecmd_print_eq (h : t.Fits IsWord) : parsecmd t.print=.ok t := by
  have hline : lineOf t.print=t.print :=
    List.takeWhile_eq_self_iff.mpr fun d hd => decide_eq_true (print_ne_zero h d hd)
  obtain ⟨c,hparse,htext⟩ := parses_print t h (4*t.print.length+4) [] (headIn_nil _)
    (by rw [List.append_nil])
  rw [List.append_nil] at hparse
  have htree : parse t.print=.ok c := by
    rw [parse,bind_eq hparse]
    rfl
  rw [parsecmd,hline,bind_eq htree,words_read (fits_of_parse htree) (print_ne_zero h),htext]

/-- Any tree whose commands have fewer than `MAXARGS` arguments can be written in a
line: printed with parentheses around what is inside, it is parsed to itself. -/
theorem parsecmd_print (t : Cmd (List UInt8)) (h : t.Fits IsWord) : parsecmd t.print=.ok t :=
  parsecmd_print_eq h

/-- `c a > f`, then `a | b &`. -/
theorem redirected_list_printed :
    parsecmd (Cmd.list (.redir (.exec [[99],[97]]) [102] 513 1)
      (.pipe (.exec [[97]]) (.back (.exec [[98]])))).print=
    .ok (.list (.redir (.exec [[99],[97]]) [102] 513 1)
      (.pipe (.exec [[97]]) (.back (.exec [[98]])))) :=
  parsecmd_print _ ⟨⟨⟨by decide,List.forall_mem_cons.mpr ⟨isWord_letter (by decide) rfl,
      List.forall_mem_singleton.mpr (isWord_letter (by decide) rfl)⟩⟩,
      isWord_letter (by decide) rfl,Or.inr ⟨rfl,rfl⟩⟩,
    ⟨by decide,List.forall_mem_singleton.mpr (isWord_letter (by decide) rfl)⟩,
    by decide,List.forall_mem_singleton.mpr (isWord_letter (by decide) rfl)⟩

/-- The trees of lines are those with fewer than `MAXARGS` arguments in each command,
with words that are not empty and free of white space and symbols, and with the two
kinds of redirections. -/
theorem parsecmd_tree_iff (t : Cmd (List UInt8)) :
    (∃ buffer, parsecmd buffer=.ok t) ↔ t.Fits IsWord := by
  constructor
  · rintro ⟨buffer,h⟩
    rw [parsecmd] at h
    obtain ⟨c,hparse,heq⟩ := bind_ok h
    have hfits := fits_of_parse hparse
    have hline := lineOf_ne_zero buffer
    rw [words_read hfits hline] at heq
    cases heq
    exact hfits.map fun w hw => isWord_text hline hw
  · exact fun h => ⟨t.print,parsecmd_print_eq h⟩

end ComputerSystems.Xv6Shell
