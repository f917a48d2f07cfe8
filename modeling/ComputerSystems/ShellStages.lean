import ComputerSystems.ProcessCalls
import ComputerSystems.ShellExecute

/-!
# The programs a pipeline and a boolean list run

`execute_pipe` and `execute_logic` know two commands. The arguments of the first
one end at the first operator; those of the second one are collected from there to
the end of the line, over every later operator, while its program is the token
behind the last operator. So two segments run as they were written, and with more
segments the second call joins all that follow the first one.
-/

namespace ComputerSystems.ShellStages

open ProcessCalls ProcessTree ShellExecute ShellTokens TransitionSystem

/-- Segments of tokens with a separator between any two. -/
structure Stages (separator : Token) where
  /-- The segments. -/
  segments : List (List Token)
  /-- There are at least two. -/
  two : 2 ≤ segments.length
  /-- Segments are not empty. -/
  nonempty : ∀ segment∈segments, segment≠[]
  /-- The tokens are those of a line. -/
  wellFormed : ∀ segment∈segments, ∀ token∈segment, WellFormed token
  /-- The separator stands between segments only. -/
  plain : ∀ segment∈segments, separator∉segment

/-- The call of `execvp` that runs a segment: its first token names the program,
and all its tokens are the arguments. -/
def command (segment : List Token) : Token × List Token := (segment.headD [],segment)

namespace Stages

variable {separator : Token} (s : Stages separator)

/-- The tokens that are split into the segments. -/
def tokens : List Token := [separator].intercalate s.segments

/-- The calls that run every segment once. -/
def commands : Multiset (Token × List Token) := Multiset.ofList (s.segments.map command)

/-- The first segment. -/
def first : List Token := s.segments.headD []

/-- The segments behind it. -/
def rest : List (List Token) := s.segments.tail

/-- The last segment. -/
def last : List Token := s.segments.getLastD []

end Stages

/-! ## Splitting the tokens -/

section Lists

variable {separator : Token} {stops : Token → Bool}

/-- A segment in front of others. -/
theorem join_cons (segment : List Token) {more : List (List Token)} (h : more≠[]) :
    [separator].intercalate (segment::more)=segment++separator::[separator].intercalate more := by
  rw [List.intercalate_cons_of_ne_nil h,List.append_assoc,List.singleton_append]

/-- A segment behind others: by induction on them. -/
theorem join_concat (segment : List Token) {front : List (List Token)} (h : front≠[]) :
    [separator].intercalate (front++[segment])=
      [separator].intercalate front++separator::segment := by
  induction front with
  | nil => exact absurd rfl h
  | cons head more ih =>
    by_cases hm : more=[]
    · rw [hm,List.singleton_append,join_cons head (List.cons_ne_nil _ _),
        List.intercalate_singleton,List.intercalate_singleton]
    · rw [List.cons_append,join_cons head (by simp),ih hm,join_cons head hm,List.append_assoc,
        List.cons_append]

/-- A joined token is the separator or stands in a segment: by induction on the
segments. -/
theorem mem_join {token : Token} {segments : List (List Token)}
    (h : token∈[separator].intercalate segments) :
    token=separator ∨ ∃ segment∈segments, token∈segment := by
  induction segments with
  | nil => exact absurd h List.not_mem_nil
  | cons segment more ih =>
    by_cases hm : more=[]
    · rw [hm,List.intercalate_singleton] at h
      exact Or.inr ⟨segment,List.mem_cons_self,h⟩
    · rw [join_cons segment hm] at h
      rcases List.mem_append.mp h with hs|hrest
      · exact Or.inr ⟨segment,List.mem_cons_self,hs⟩
      · rcases List.mem_cons.mp hrest with hsep|hmore
        · exact Or.inl hsep
        · rcases ih hmore with hsep|⟨other,ho,ht⟩
          · exact Or.inl hsep
          · exact Or.inr ⟨other,List.mem_cons_of_mem segment ho,ht⟩

/-- The joined segments without the separators: by induction on them. -/
theorem filter_join (hsep : stops separator=true) {segments : List (List Token)}
    (h : ∀ segment∈segments, ∀ token∈segment, stops token=false) :
    ([separator].intercalate segments).filter (fun token => !stops token)=segments.flatten := by
  induction segments with
  | nil => rfl
  | cons segment more ih =>
    have hkeep : segment.filter (fun token => !stops token)=segment :=
      List.filter_eq_self.mpr (fun token ht => by rw [h segment List.mem_cons_self token ht]; rfl)
    have hmore := ih (fun other ho => h other (List.mem_cons_of_mem segment ho))
    by_cases hm : more=[]
    · rw [hm,List.intercalate_singleton,hkeep,List.flatten_singleton]
    · rw [join_cons segment hm,List.filter_append,hkeep,List.filter_cons_of_neg (by simp [hsep]),
        hmore,List.flatten_cons]

/-- Once an operator was seen every other token is an argument: by induction on the
tokens. -/
theorem buildArgs_collects (tokens : List Token) : ∀ (ii : ℕ) (args : List Token) (opii : ℕ),
    (buildArgs stops tokens ii true args opii).1=
      args++tokens.filter (fun token => !stops token) := by
  induction tokens with
  | nil => exact fun _ args _ => (List.append_nil args).symm
  | cons tt tokens ih =>
    intro ii args opii
    rw [buildArgs]
    cases htt : stops tt with
    | true => rw [if_pos rfl,ih,List.filter_cons_of_neg (by simp [htt])]
    | false =>
      rw [if_neg Bool.false_ne_true,if_pos rfl,ih,List.filter_cons_of_pos (by simp [htt]),
        List.append_assoc,List.singleton_append]

/-- Tokens before the first operator are passed over: by induction on them. -/
theorem buildArgs_skips {before : List Token} (h : ∀ token∈before, stops token=false)
    (tokens : List Token) : ∀ (ii opii : ℕ), buildArgs stops (before++tokens) ii false [] opii=
      buildArgs stops tokens (ii+before.length) false [] opii := by
  induction before with
  | nil => exact fun _ _ => rfl
  | cons tt before ih =>
    intro ii opii
    have hrest := ih (fun token ht => h token (List.mem_cons_of_mem tt ht)) (ii+1) opii
    rw [List.cons_append,buildArgs,h tt List.mem_cons_self,if_neg Bool.false_ne_true,
      if_neg Bool.false_ne_true,hrest,List.length_cons,Nat.add_assoc,Nat.add_comm 1]

/-- The place of the last operator: by induction on the tokens before it. -/
theorem buildArgs_place (hsep : stops separator=true) {last : List Token}
    (h : ∀ token∈last, stops token=false) (front : List Token) :
    ∀ (ii : ℕ) (build : Bool) (args : List Token) (opii : ℕ),
      (buildArgs stops (front++separator::last) ii build args opii).2=ii+front.length := by
  induction front with
  | nil =>
    intro ii build args opii
    rw [List.nil_append,buildArgs,hsep,if_pos rfl,buildArgs_none last _ _ _ _ h]
    rfl
  | cons tt front ih =>
    intro ii build args opii
    have hstep : ii+1+front.length=ii+(tt::front).length := by
      rw [List.length_cons]
      omega
    rw [List.cons_append,buildArgs]
    split_ifs
    · rw [ih,hstep]
    · rw [ih,hstep]
    · rw [ih,hstep]

/-- The arguments after the first operator. -/
theorem argsAfter_args (hsep : stops separator=true) {first : List Token}
    (h : ∀ token∈first, stops token=false) (tokens : List Token) :
    (argsAfter stops (first++separator::tokens)).1=tokens.filter (fun token => !stops token) := by
  rw [argsAfter,buildArgs_skips h,buildArgs,hsep,if_pos rfl,buildArgs_collects,List.nil_append]

/-- The arguments before the first operator. -/
theorem argsBefore_eq (hsep : stops separator=true) {first : List Token}
    (h : ∀ token∈first, stops token=false) (tokens : List Token) :
    argsBefore stops (first++separator::tokens)=first := by
  rw [argsBefore,List.takeWhile_append_of_pos (fun token ht => by rw [h token ht]; rfl),
    List.takeWhile_cons_of_neg (by simp [hsep]),List.append_nil]

end Lists

namespace Stages

variable {separator : Token} (s : Stages separator) {stops : Token → Bool}

/-- The segments are the first one and the others. -/
theorem segments_eq : s.segments=s.first::s.rest ∧ s.rest≠[] := by
  have htwo := s.two
  unfold first rest
  cases hs : s.segments with
  | nil =>
    rw [hs,List.length_nil] at htwo
    omega
  | cons segment more =>
    refine ⟨rfl,fun hm => ?_⟩
    rw [List.tail_cons] at hm
    rw [hs,hm,List.length_singleton] at htwo
    omega

/-- The first segment is one of them. -/
theorem first_mem : s.first∈s.segments := by
  rw [s.segments_eq.1]
  exact List.mem_cons_self

/-- The last segment is one of the others. -/
theorem last_mem : s.last∈s.segments ∧ s.segments=s.segments.dropLast++[s.last] := by
  have hne : s.segments≠[] := List.ne_nil_of_mem s.first_mem
  have hlast : s.last=s.segments.getLast hne := by
    rw [last,List.getLastD_eq_getLast?,List.getLast?_eq_some_getLast hne]
    rfl
  rw [hlast]
  exact ⟨List.getLast_mem hne,(List.dropLast_append_getLast hne).symm⟩

/-- The tokens begin with the first segment and a separator. -/
theorem tokens_first : s.tokens=s.first++separator::[separator].intercalate s.rest := by
  obtain ⟨hs,hne⟩ := s.segments_eq
  rw [tokens,hs,join_cons _ hne]

/-- The tokens end with a separator and the last segment. -/
theorem tokens_last : s.tokens=[separator].intercalate s.segments.dropLast++separator::s.last := by
  have hne : s.segments.dropLast≠[] := by
    have htwo := s.two
    intro hd
    have hlength := congrArg List.length hd
    rw [List.length_dropLast,List.length_nil] at hlength
    omega
  have hs := s.last_mem.2
  rw [tokens]
  conv_lhs => rw [hs]
  rw [join_concat _ hne]

/-- A segment begins with a token. -/
theorem head_eq {segment : List Token} (h : segment∈s.segments) :
    ∃ tail, segment=segment.headD []::tail := by
  cases hs : segment with
  | nil => exact absurd hs (s.nonempty segment h)
  | cons token tail => exact ⟨tail,rfl⟩

/-- The separator is one of the tokens. -/
theorem separator_mem : separator∈s.tokens := by
  rw [s.tokens_first]
  exact List.mem_append_right _ List.mem_cons_self

/-- The tokens are well-formed when the separator is. -/
theorem tokens_wellFormed (h : WellFormed separator) : ∀ token∈s.tokens, WellFormed token := by
  intro token ht
  rcases mem_join ht with he|⟨segment,hs,hm⟩
  · rwa [he]
  · exact s.wellFormed segment hs token hm

/-- The line begins with the first command. -/
theorem line_head : s.tokens[0]?=some (s.tokens.headD []) ∧
    s.tokens.headD []=s.first.headD [] := by
  obtain ⟨tail,hf⟩ := s.head_eq s.first_mem
  rw [s.tokens_first]
  generalize s.first=first at hf ⊢
  rw [hf]
  exact ⟨rfl,rfl⟩

section Stops

variable (hsep : stops separator=true)
  (hplain : ∀ segment∈s.segments, ∀ token∈segment, stops token=false)

include hsep hplain

/-- The first call runs the first segment. -/
theorem first_image : (s.tokens.headD [],argsBefore stops s.tokens)=command s.first := by
  rw [s.line_head.2,s.tokens_first,argsBefore_eq hsep (hplain _ s.first_mem)]
  rfl

/-- The second call names the program of the last segment. -/
theorem line_next : s.tokens[(argsAfter stops s.tokens).2+1]?=
      some (s.tokens.getD ((argsAfter stops s.tokens).2+1) []) ∧
    s.tokens.getD ((argsAfter stops s.tokens).2+1) []=s.last.headD [] := by
  have hplace : (argsAfter stops s.tokens).2=
      ([separator].intercalate s.segments.dropLast).length := by
    rw [argsAfter,s.tokens_last,buildArgs_place hsep (hplain _ s.last_mem.1),Nat.zero_add]
  obtain ⟨tail,hl⟩ := s.head_eq s.last_mem.1
  have hat : s.tokens[([separator].intercalate s.segments.dropLast).length+1]?=
      some (s.last.headD []) := by
    rw [s.tokens_last,List.getElem?_append_right (Nat.le_succ _),Nat.succ_sub (le_refl _),
      Nat.sub_self,List.getElem?_cons_succ]
    generalize s.last=last at hl ⊢
    rw [hl]
    rfl
  rw [hplace,List.getD_eq_getElem?_getD,hat]
  exact ⟨rfl,rfl⟩

/-- The second call has the tokens of all segments behind the first one. -/
theorem second_image : (s.tokens.getD ((argsAfter stops s.tokens).2+1) [],
    (argsAfter stops s.tokens).1)=(s.last.headD [],s.rest.flatten) := by
  have hrest : ∀ segment∈s.rest, ∀ token∈segment, stops token=false :=
    fun segment hs => hplain segment (List.mem_of_mem_tail hs)
  have hargs : (argsAfter stops s.tokens).1=s.rest.flatten := by
    rw [s.tokens_first,argsAfter_args hsep (hplain _ s.first_mem),filter_join hsep hrest]
  rw [(s.line_next hsep hplain).2,hargs]

end Stops

/-- With two segments the second call runs the second one. -/
theorem second_of_two (h : s.segments.length=2) :
    (s.last.headD [],s.rest.flatten)=command s.last ∧
      s.commands={command s.first,command s.last} := by
  unfold last rest first commands
  obtain ⟨first,second,hs⟩ := List.length_eq_two.mp h
  rw [hs]
  refine ⟨?_,rfl⟩
  rw [List.tail_cons,List.flatten_singleton]
  rfl

/-- All segments behind the first one, joined, are one of them only where there is
no other. -/
theorem segments_length_of_flatten {segment : List Token} (h : segment∈s.rest)
    (hall : s.rest.flatten=segment) : s.rest.length=1 := by
  obtain ⟨before,after,hrest⟩ := List.append_of_mem h
  have hlength := congrArg List.length hall
  rw [hrest,List.flatten_append,List.flatten_cons,List.length_append,List.length_append] at hlength
  have hempty : ∀ other, other∈before ∨ other∈after → False := by
    intro other ho
    have hmem : other∈s.rest := by
      rw [hrest]
      rcases ho with ho|ho
      · exact List.mem_append_left _ ho
      · exact List.mem_append_right _ (List.mem_cons_of_mem segment ho)
    have hpos := List.length_pos_iff.mpr (s.nonempty other (List.mem_of_mem_tail hmem))
    rcases ho with ho|ho
    · have hle := (List.sublist_flatten_of_mem ho).length_le
      omega
    · have hle := (List.sublist_flatten_of_mem ho).length_le
      omega
  have hbefore : before=[] := List.eq_nil_iff_forall_not_mem.mpr (fun o ho => hempty o (Or.inl ho))
  have hafter : after=[] := List.eq_nil_iff_forall_not_mem.mpr (fun o ho => hempty o (Or.inr ho))
  rw [hrest,hbefore,hafter]
  rfl

/-- With more segments it runs one of them only where the others repeat the first. -/
theorem second_iff : (∃ segment∈s.segments, (s.last.headD [],s.rest.flatten)=command segment) ↔
    s.segments.length=2 ∨ (s.rest.flatten=s.first ∧ s.last.headD []=s.first.headD []) := by
  constructor
  · rintro ⟨segment,hmem,hcommand⟩
    obtain ⟨hhead,hargs⟩ := Prod.mk.inj hcommand
    rw [s.segments_eq.1] at hmem
    rcases List.mem_cons.mp hmem with rfl|hrest
    · exact Or.inr ⟨hargs,hhead⟩
    · refine Or.inl ?_
      have hlength := s.segments_length_of_flatten hrest hargs
      rw [s.segments_eq.1,List.length_cons,hlength]
  · rintro (htwo|⟨hargs,hhead⟩)
    · exact ⟨s.last,s.last_mem.1,(s.second_of_two htwo).1⟩
    · exact ⟨s.first,s.first_mem,by rw [hargs,hhead]; rfl⟩

end Stages

/-! ## The calls a process can still make -/

section Asks

variable {world : World (Token × List Token) Request} {fate : Pid → Fate} {p : Pid} {forks : ℕ}

/-- The last call. -/
theorem asks_execvp (image : Token × List Token) :
    asks programs world fate p forks (execvp image)={image} := by
  unfold execvp
  rw [asks]
  cases world.execvp p image with
  | none => exact add_zero _
  | some status => exact add_zero _

/-- A request asks for no program. -/
theorem asks_request (call : Request) (next : Bool → Shell Unit) :
    asks programs world fate p forks (.request call next)=
      asks programs world fate p forks (next (world.request p call)) := by
  rw [asks]
  exact zero_add _

/-- Requests that must succeed come first: by induction on them. -/
theorem asks_requireAll (calls : List Request) (next : Shell Unit) :
    asks programs world fate p forks (requireAll calls next)=
      if ∀ call∈calls, world.request p call=true then asks programs world fate p forks next
      else 0 := by
  induction calls with
  | nil =>
    rw [if_pos (fun call hcall => absurd hcall List.not_mem_nil)]
    rfl
  | cons call rest ih =>
    rw [requireAll,asks_request]
    cases hcall : world.request p call with
    | false =>
      rw [if_neg Bool.false_ne_true,if_neg]
      · rfl
      · intro hall
        rw [hall call List.mem_cons_self] at hcall
        cases hcall
    | true =>
      rw [if_pos rfl,ih]
      simp only [List.forall_mem_cons,hcall,true_and]

/-- The calls of a child and of the parent that waits for it. -/
theorem asks_forkAndWait {code : Shell Unit} {next : Status → Shell Unit} {status : Status}
    (h : (fate (p++[forks])).status world (p++[forks])=some status) :
    asks programs world fate p forks (forkAndWait code next)=
      asks programs world fate p (forks+1) (next status)+
        asks programs world fate (p++[forks]) 0 code := by
  unfold forkAndWait
  rw [asks]
  dsimp only
  rw [asks,h]

end Asks

section Calls

variable {tokens : List Token} {world : World (Token × List Token) Request}

/-- The wrapper of a pipe calls nothing itself. -/
theorem asks_wrapperForks {fate : Pid → Fate} (hhead : tokens[0]?=some (tokens.headD []))
    (hnext : tokens[(argsAfter isPipe tokens).2+1]?=
      some (tokens.getD ((argsAfter isPipe tokens).2+1) [])) :
    asks programs world fate [0] 0 (wrapperForks tokens)=
      (if world.request [0,1] (.dup .pipeRead)=true then {readerImage tokens} else 0)+
        if world.request [0,0] (.dup .pipeWrite)=true then {writerImage tokens} else 0 := by
  have hend : ∀ (p : Pid) (first last other dup : Descriptor) (image : Token × List Token),
      asks programs world fate p 0 (.request (.close first) (fun _ => requireAll [.dup dup]
        (.request (.close last) (fun _ => .request (.close other) (fun _ => execvp image)))))=
      if world.request p (.dup dup)=true then {image} else 0 := by
    intro p first last other dup image
    rw [asks_request,asks_requireAll,asks_request,asks_request,asks_execvp]
    simp only [List.forall_mem_singleton]
  have hwaits : asks programs world fate [0] 2 wrapperWaits=0 := by
    unfold wrapperWaits
    rw [asks_request,asks_request]
    simp only [asks]
    split
    · split
      · rfl
      · rfl
    · rfl
  unfold wrapperForks
  rw [pipeWriter_eq hhead,pipeReader_eq hnext,asks]
  dsimp only
  rw [asks,hend]
  dsimp only
  rw [hend]
  unfold wrapperWaits at hwaits
  rw [hwaits,zero_add]
  rfl

/-- The calls of a pipe. -/
theorem pipe_calls (hhead : tokens[0]?=some (tokens.headD []))
    (hnext : tokens[(argsAfter isPipe tokens).2+1]?=
      some (tokens.getD ((argsAfter isPipe tokens).2+1) [])) :
    ∃ fate, Agrees world fate [] 0 (executePipe tokens) ∧
      asks programs world fate [] 0 (executePipe tokens)=
        if world.request [0] .pipe=true then
          (if world.request [0,1] (.dup .pipeRead)=true then {readerImage tokens} else 0)+
            if world.request [0,0] (.dup .pipeWrite)=true then {writerImage tokens} else 0
        else 0 := by
  cases hpipe : world.request [0] .pipe with
  | false =>
    refine ⟨_,agrees_withoutPipe hpipe,?_⟩
    rw [executePipe_eq,asks_forkAndWait rfl,asks_requireAll,if_neg,if_neg Bool.false_ne_true]
    · rfl
    · intro hall
      have hok : world.request [0] .pipe=true := hall .pipe List.mem_cons_self
      rw [hpipe] at hok
      cases hok
  | true =>
    have hall : ∀ call∈[Request.pipe], world.request ([]++[0]) call=true := by
      intro call hcall
      rw [List.mem_singleton.mp hcall]
      exact hpipe
    refine ⟨_,agrees_executePipe world hhead hnext hpipe,?_⟩
    rw [executePipe_eq,asks_forkAndWait rfl,asks_requireAll,if_pos hall,if_pos rfl]
    exact (zero_add _).trans (asks_wrapperForks hhead hnext)

/-- The status of the first command of a boolean operator. -/
def firstStatus (world : World (Token × List Token) Request) (image : Token × List Token) :
    Status :=
  (world.execvp [0] image).getD (world.leave [0])

/-- The calls of a boolean operator. -/
theorem logic_calls {op : Logic} (hhead : tokens[0]?=some (tokens.headD []))
    (hnext : tokens[(argsAfter (fun token => strncmp token op.symbol 2) tokens).2+1]?=
      some (secondCommand tokens op)) :
    ∃ fate, Agrees world fate [] 0 (executeLogic tokens op) ∧
      asks programs world fate [] 0 (executeLogic tokens op)=
        (if op.goesOn (firstStatus world (firstImage tokens op))=true ∧
            strncmp (secondCommand tokens op) [101,120,105,116] 4=false then
          {secondImage tokens op} else 0)+{firstImage tokens op} := by
  have hstatus : (execFate world [0] (firstImage tokens op)).status world [0]=
      some (firstStatus world (firstImage tokens op)) := by
    unfold execFate firstStatus
    cases world.execvp [0] (firstImage tokens op) <;> rfl
  have hsecond : ∀ (fate : Pid → Fate) (status : Status),
      asks programs world fate [] 1 (afterFirst tokens op status)=
        if op.goesOn status=true ∧ strncmp (secondCommand tokens op) [101,120,105,116] 4=false then
          {secondImage tokens op} else 0 := by
    intro fate status
    unfold afterFirst
    by_cases hgoes : op.goesOn status=true
    · rw [if_pos hgoes]
      by_cases hexit : strncmp (secondCommand tokens op) [101,120,105,116] 4=true
      · rw [if_pos hexit,if_neg (fun h => absurd (hexit.symm.trans h.2) (by decide))]
        rfl
      · rw [if_neg hexit,if_pos ⟨hgoes,Bool.not_eq_true _ ▸ hexit⟩,asks_execvp]
    · rw [if_neg hgoes,if_neg (fun h => hgoes h.1)]
      rfl
  refine ⟨rootAndChild (afterFate world tokens op (firstStatus world (firstImage tokens op)))
    (execFate world [0] (firstImage tokens op)),?_,?_⟩
  · rw [executeLogic_eq hhead hnext,forkAndWait,Agrees]
    refine ⟨agrees_execvp rfl,?_⟩
    have hwait : (rootAndChild (afterFate world tokens op
        (firstStatus world (firstImage tokens op)))
        (execFate world [0] (firstImage tokens op)) ([]++[0])).status world ([]++[0])=
        some (firstStatus world (firstImage tokens op)) := hstatus
    dsimp only
    rw [Agrees,hwait]
    exact ⟨Nat.zero_lt_one,agrees_afterFirst rfl⟩
  · rw [executeLogic_eq hhead hnext,asks_forkAndWait hstatus,hsecond,asks_execvp]

end Calls

/-! ## Lines of segments -/

/-- The operators that `execute` looks for before it takes a line for a pipe. -/
def beforePipe : List Token := [[60],[62],[38,38],[124,124]]

/-- The operators that it looks for before a boolean operator. -/
def beforeLogic : Logic → List Token
  | .logicalAnd => [[60],[62]]
  | .logicalOr => [[60],[62],[38,38]]

/-- A token that matches a one-letter operator or a double one is that operator. -/
theorem token_of_match {token symbol : Token} {n : ℕ} (h : WellFormed token)
    (hsymbol : (symbol,n)∈[([60],1),([62],1),([38,38],2),([124,124],2)])
    (hmatch : strncmp token symbol n=true) : token=symbol := by
  have hop : token∈operators := by
    have hcases : (symbol=[60] ∧ n=1) ∨ (symbol=[62] ∧ n=1) ∨ (symbol=[38,38] ∧ n=2) ∨
        (symbol=[124,124] ∧ n=2) := by simpa using hsymbol
    rcases hcases with ⟨rfl,rfl⟩|⟨rfl,rfl⟩|⟨rfl,rfl⟩|⟨rfl,rfl⟩
    · exact (operator_of_strncmp h hmatch rfl rfl (by decide)).1
    · exact (operator_of_strncmp h hmatch rfl rfl (by decide)).1
    · exact (operator_of_strncmp h hmatch rfl rfl (by decide)).1
    · exact (operator_of_strncmp h hmatch rfl rfl (by decide)).1
  have hcheck : ∀ token∈operators, ∀ pair∈[(([60] : Token),1),([62],1),([38,38],2),([124,124],2)],
      strncmp token pair.1 pair.2=true → token=pair.1 := by decide +kernel
  exact hcheck token hop _ hsymbol hmatch

/-- The loops of a pipe stop at a pipe only. -/
theorem isPipe_iff (token : Token) : isPipe token=true ↔ token=[124] := by
  refine ⟨fun h => ?_,?_⟩
  · have htake : token.take 2=[124] := of_decide_eq_true h
    match token,htake with
    | [c],htake => exact htake
    | c::d::tail,htake => cases htake
  · rintro rfl
    rfl

/-- What is not in a line is not found there. -/
theorem svecContains_eq_false {tokens : List Token} (h : ∀ token∈tokens, WellFormed token)
    {symbol : Token} {n : ℕ} (hsymbol : (symbol,n)∈[([60],1),([62],1),([38,38],2),([124,124],2)])
    (hnone : symbol∉tokens) : svecContains tokens symbol n=false := by
  rw [svecContains,List.any_eq_false]
  intro token ht hmatch
  exact hnone (token_of_match (h token ht) hsymbol hmatch ▸ ht)

/-- What is in a line is found there. -/
theorem svecContains_of_mem {tokens : List Token} {symbol : Token} (h : symbol∈tokens) (n : ℕ) :
    svecContains tokens symbol n=true :=
  List.any_eq_true.mpr ⟨symbol,h,decide_eq_true rfl⟩

namespace Stages

variable {world : World (Token × List Token) Request}

/-- A line that is split by pipes only is sent to `execute_pipe`. -/
theorem execute_pipe (s : Stages [124]) (h : ∀ symbol∈beforePipe, symbol∉s.tokens) :
    execute s.tokens=executePipe s.tokens := by
  have hform := s.tokens_wellFormed (Or.inl (by decide))
  have hin := svecContains_eq_false hform (n:=1) (by decide) (h [60] (by decide))
  have hout := svecContains_eq_false hform (n:=1) (by decide) (h [62] (by decide))
  have hand := svecContains_eq_false hform (n:=2) (by decide) (h [38,38] (by decide))
  have hor := svecContains_eq_false hform (n:=2) (by decide) (h [124,124] (by decide))
  unfold execute
  rw [hin,hout,hand,hor,svecContains_of_mem s.separator_mem 1]
  rfl

/-- A line that is split by a boolean operator is sent to `execute_logic`. -/
theorem execute_logic {op : Logic} (s : Stages op.symbol)
    (h : ∀ symbol∈beforeLogic op, symbol∉s.tokens) :
    execute s.tokens=executeLogic s.tokens op := by
  have hform : ∀ token∈s.tokens, WellFormed token :=
    s.tokens_wellFormed (Or.inl (by cases op <;> decide))
  have hfound := svecContains_of_mem s.separator_mem 2
  have hin := svecContains_eq_false hform (n:=1) (by decide) (h [60] (by cases op <;> decide))
  have hout := svecContains_eq_false hform (n:=1) (by decide) (h [62] (by cases op <;> decide))
  unfold execute
  cases op with
  | logicalAnd =>
    have hand : svecContains s.tokens [38,38] 2=true := hfound
    rw [hin,hout,hand]
    rfl
  | logicalOr =>
    have hand := svecContains_eq_false hform (n:=2) (by decide) (h [38,38] (by decide))
    have hor : svecContains s.tokens [124,124] 2=true := hfound
    rw [hin,hout,hand,hor]
    rfl

/-- The loops of `execute_pipe` stop at the pipes only. -/
theorem pipe_stops (s : Stages [124]) : isPipe [124]=true ∧
    ∀ segment∈s.segments, ∀ token∈segment, isPipe token=false := by
  refine ⟨rfl,fun segment hs token ht => ?_⟩
  by_contra hmatch
  have htoken := (isPipe_iff token).mp (Bool.not_eq_false _ ▸ hmatch)
  exact s.plain segment hs (htoken ▸ ht)

/-- The loops of `execute_logic` stop at the boolean operator only. -/
theorem logic_stops {op : Logic} (s : Stages op.symbol) :
    strncmp op.symbol op.symbol 2=true ∧
      ∀ segment∈s.segments, ∀ token∈segment, strncmp token op.symbol 2=false := by
  refine ⟨decide_eq_true rfl,fun segment hs token ht => ?_⟩
  by_contra hmatch
  have htoken := token_of_match (n:=2) (s.wellFormed segment hs token ht)
    (by cases op <;> decide) (Bool.not_eq_false _ ▸ hmatch)
  exact s.plain segment hs (htoken ▸ ht)

/-- The calls that a pipe can make are those of its two ends, whatever fails. -/
theorem pipe_asks (s : Stages [124]) (h : ∀ symbol∈beforePipe, symbol∉s.tokens) :
    ∃ fate, Agrees world fate [] 0 (execute s.tokens) ∧
      asks programs world fate [] 0 (execute s.tokens)=
        if world.request [0] .pipe=true then
          (if world.request [0,1] (.dup .pipeRead)=true then {(s.last.headD [],s.rest.flatten)}
            else 0)+
            if world.request [0,0] (.dup .pipeWrite)=true then {command s.first} else 0
        else 0 := by
  obtain ⟨hsep,hplain⟩ := s.pipe_stops
  have hfirst : writerImage s.tokens=command s.first := s.first_image hsep hplain
  have hsecond : readerImage s.tokens=(s.last.headD [],s.rest.flatten) :=
    s.second_image hsep hplain
  rw [s.execute_pipe h,←hfirst,←hsecond]
  exact pipe_calls s.line_head.1 (s.line_next hsep hplain).1

/-- The calls of a boolean operator are those of its first segment and, where that
one does not decide, of the joined others. -/
theorem logic_asks {op : Logic} (s : Stages op.symbol)
    (h : ∀ symbol∈beforeLogic op, symbol∉s.tokens) :
    ∃ fate, Agrees world fate [] 0 (execute s.tokens) ∧
      asks programs world fate [] 0 (execute s.tokens)=
        (if op.goesOn (firstStatus world (command s.first))=true ∧
            strncmp (s.last.headD []) [101,120,105,116] 4=false then
          {(s.last.headD [],s.rest.flatten)} else 0)+{command s.first} := by
  obtain ⟨hsep,hplain⟩ := s.logic_stops
  have hfirst : firstImage s.tokens op=command s.first := s.first_image hsep hplain
  have hcommand : secondCommand s.tokens op=s.last.headD [] := (s.line_next hsep hplain).2
  have hsecond : secondImage s.tokens op=(s.last.headD [],s.rest.flatten) :=
    s.second_image hsep hplain
  rw [s.execute_logic h,←hfirst,←hsecond,←hcommand]
  exact logic_calls s.line_head.1 (s.line_next hsep hplain).1

/-- Every segment of a pipe is called exactly once where there are two of them and
the pipe is made: the number of calls decides. -/
theorem pipe_complete_iff (s : Stages [124]) (h : ∀ symbol∈beforePipe, symbol∉s.tokens) :
    (∀ moves last, follow (step world) Anything moves (start (execute s.tokens))=some last →
      (∀ p, step world p last=none) →
      callsAlong world moves (start (execute s.tokens))=s.commands) ↔
      s.segments.length=2 ∧ world.request [0] .pipe=true ∧
        world.request [0,1] (.dup .pipeRead)=true ∧
        world.request [0,0] (.dup .pipeWrite)=true := by
  obtain ⟨fate,hagrees,hasks⟩ : ∃ fate, Agrees world fate _ _ _ ∧ _ := s.pipe_asks h
  refine (complete_calls_iff hagrees (fun calls => calls=s.commands)).trans ?_
  rw [hasks]
  have hcard : s.commands.card=s.segments.length := by
    rw [commands,Multiset.coe_card,List.length_map]
  have htwo := s.two
  constructor
  · intro heq
    have hsize := congrArg Multiset.card heq
    rw [hcard] at hsize
    split_ifs at hsize with hpipe hread hwrite hwrite
    · exact ⟨hsize.symm,hpipe,hread,hwrite⟩
    · rw [add_zero,Multiset.card_singleton] at hsize
      omega
    · rw [zero_add,Multiset.card_singleton] at hsize
      omega
    · rw [zero_add,Multiset.card_zero] at hsize
      omega
    · rw [Multiset.card_zero] at hsize
      omega
  · rintro ⟨hlength,hpipe,hread,hwrite⟩
    obtain ⟨hsecond,hcommands⟩ := s.second_of_two hlength
    rw [if_pos hpipe,if_pos hread,if_pos hwrite,hsecond,hcommands,Multiset.singleton_add]
    exact Multiset.pair_comm _ _

/-- Every call of a boolean operator runs a segment where there are two of them, the
second call is not made, or it repeats the first one. -/
theorem logic_calls_iff {op : Logic} (s : Stages op.symbol)
    (h : ∀ symbol∈beforeLogic op, symbol∉s.tokens) :
    (∀ moves last, follow (step world) Anything moves (start (execute s.tokens))=some last →
      ∀ image∈callsAlong world moves (start (execute s.tokens)),
        ∃ segment∈s.segments, image=command segment) ↔
      s.segments.length=2 ∨ op.goesOn (firstStatus world (command s.first))=false ∨
        strncmp (s.last.headD []) [101,120,105,116] 4=true ∨
        (s.rest.flatten=s.first ∧ s.last.headD []=s.first.headD []) := by
  obtain ⟨fate,hagrees,hasks⟩ : ∃ fate, Agrees world fate _ _ _ ∧ _ := s.logic_asks h
  refine (forall_calls_iff hagrees
    (fun image => ∃ segment∈s.segments, image=command segment)).trans ?_
  rw [hasks]
  constructor
  · intro hall
    by_cases hgoes : op.goesOn (firstStatus world (command s.first))=true ∧
        strncmp (s.last.headD []) [101,120,105,116] 4=false
    · rw [if_pos hgoes] at hall
      rcases s.second_iff.mp (hall _ (Multiset.mem_add.mpr (Or.inl
        (Multiset.mem_singleton_self _)))) with htwo|hrepeats
      · exact Or.inl htwo
      · exact Or.inr (Or.inr (Or.inr hrepeats))
    · rw [not_and_or,Bool.not_eq_true,Bool.not_eq_false] at hgoes
      rcases hgoes with hstops|hexit
      · exact Or.inr (Or.inl hstops)
      · exact Or.inr (Or.inr (Or.inl hexit))
  · intro hcases image himage
    rcases Multiset.mem_add.mp himage with hsecond|hfirst
    · split_ifs at hsecond with hgoes
      · rw [Multiset.mem_singleton.mp hsecond]
        refine s.second_iff.mpr ?_
        rcases hcases with htwo|hstops|hexit|hrepeats
        · exact Or.inl htwo
        · exact absurd (hgoes.1.symm.trans hstops) Bool.noConfusion
        · exact absurd (hexit.symm.trans hgoes.2) Bool.noConfusion
        · exact Or.inr hrepeats
      · exact absurd hsecond (Multiset.notMem_zero _)
    · exact ⟨s.first,s.first_mem,Multiset.mem_singleton.mp hfirst⟩

end Stages

/-- In every run to the end a pipeline calls each of its segments once, exactly when
it has two of them and both ends of the pipe are set up; all calls of all runs of a
boolean list run a segment, exactly when it has two of them, its first command
decides, its last one is `exit`, or the others joined repeat the first. -/
theorem stages_run_iff (world : World (Token × List Token) Request) :
    (∀ s : Stages [124], (∀ symbol∈beforePipe, symbol∉s.tokens) →
      ((∀ moves last, follow (step world) Anything moves (start (execute s.tokens))=some last →
        (∀ p, step world p last=none) →
        callsAlong world moves (start (execute s.tokens))=s.commands) ↔
        s.segments.length=2 ∧ world.request [0] .pipe=true ∧
          world.request [0,1] (.dup .pipeRead)=true ∧
          world.request [0,0] (.dup .pipeWrite)=true)) ∧
      ∀ (op : Logic) (s : Stages op.symbol), (∀ symbol∈beforeLogic op, symbol∉s.tokens) →
        ((∀ moves last, follow (step world) Anything moves (start (execute s.tokens))=some last →
          ∀ image∈callsAlong world moves (start (execute s.tokens)),
            ∃ segment∈s.segments, image=command segment) ↔
          s.segments.length=2 ∨ op.goesOn (firstStatus world (command s.first))=false ∨
            strncmp (s.last.headD []) [101,120,105,116] 4=true ∨
            (s.rest.flatten=s.first ∧ s.last.headD []=s.first.headD [])) :=
  ⟨fun s h => s.pipe_complete_iff h,fun _ s h => s.logic_calls_iff h⟩

/-- The letters `a`, `b` and `c`. -/
def letters : List Token := [[97],[98],[99]]

/-- Each of the letters is a word. -/
theorem isWord_letters : ∀ token∈letters, IsWord token := by
  intro token ht
  have hcases : token=[97] ∨ token=[98] ∨ token=[99] := by simpa [letters] using ht
  rcases hcases with rfl|rfl|rfl
  · exact ⟨by decide,by decide +kernel,by decide +kernel⟩
  · exact ⟨by decide,by decide +kernel,by decide +kernel⟩
  · exact ⟨by decide,by decide +kernel,by decide +kernel⟩

/-- A segment of one letter has that letter as its only token. -/
theorem mem_segment {segment : List Token} {token : Token}
    (hs : segment∈[[[97]],[[98]],[[99]]]) (ht : token∈segment) : token∈letters :=
  List.mem_flatten.mpr ⟨segment,hs,ht⟩

/-- No segment of one letter is empty. -/
theorem segment_ne_nil : ∀ segment∈([[[97]],[[98]],[[99]]] : List (List Token)), segment≠[] := by
  decide

/-- Three commands of one letter. -/
def threeCommands (separator : Token) (h : separator∉[[97],[98],[(99 : UInt8)]]) :
    Stages separator where
  segments := [[[97]],[[98]],[[99]]]
  two := Nat.le_succ 2
  nonempty := segment_ne_nil
  wellFormed _ hs token ht := Or.inr (Or.inr (isWord_letters token (mem_segment hs ht)))
  plain _ hs ht := h (mem_segment hs ht)

/-- The line `a | b | c`. -/
def pipeline : Stages [124] := threeCommands [124] (by decide)

/-- The line `a && b && c`. -/
def conjunction : Stages Logic.logicalAnd.symbol := threeCommands _ (by decide)

/-- `a | b | c` and `a && b && c` do not run `b`: their second call is that of the
program `c` with the arguments `b` and `c`. -/
theorem later_segments_joined :
    ((∀ symbol∈beforePipe, symbol∉pipeline.tokens) ∧
      ∃ moves last, follow (step allSucceed) Anything moves (start (execute pipeline.tokens))=
          some last ∧
        (∀ p, step allSucceed p last=none) ∧
        callsAlong allSucceed moves (start (execute pipeline.tokens))=
          {([99],[[98],[99]]),([97],[[97]])} ∧
        {([99],[[98],[99]]),([97],[[97]])}≠pipeline.commands) ∧
    (∀ symbol∈beforeLogic .logicalAnd, symbol∉conjunction.tokens) ∧
      ∃ moves last, follow (step allSucceed) Anything moves (start (execute conjunction.tokens))=
          some last ∧
        ([99],[[98],[99]])∈callsAlong allSucceed moves (start (execute conjunction.tokens)) ∧
        ∀ segment∈conjunction.segments, ([99],[[98],[99]])≠command segment := by
  constructor
  · have hnone : ∀ symbol∈beforePipe, symbol∉pipeline.tokens := by decide
    obtain ⟨fate,hagrees,hasks⟩ : ∃ fate, Agrees allSucceed fate _ _ _ ∧ _ :=
      pipeline.pipe_asks hnone
    obtain ⟨moves,last,hrun,hstill,hcalls⟩ := exists_complete programs hagrees
    refine ⟨hnone,moves,last,hrun,hstill,?_,by decide⟩
    rw [callsAlong,hcalls,hasks]
    rfl
  · have hnone : ∀ symbol∈beforeLogic .logicalAnd, symbol∉conjunction.tokens := by decide
    obtain ⟨fate,hagrees,hasks⟩ : ∃ fate, Agrees allSucceed fate _ _ _ ∧ _ :=
      conjunction.logic_asks hnone
    obtain ⟨moves,last,hrun,_,hcalls⟩ := exists_complete programs hagrees
    refine ⟨hnone,moves,last,hrun,?_,by decide⟩
    rw [callsAlong,hcalls,hasks]
    exact Multiset.mem_add.mpr (Or.inl (Multiset.mem_singleton_self _))

end ComputerSystems.ShellStages
