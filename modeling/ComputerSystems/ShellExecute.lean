import ComputerSystems.ProcessTree
import ComputerSystems.ShellTokens

/-!
# Executing a command line

The functions of the shell that run a list of tokens, as code of a process
tree. Only the shell itself is to go on to the next line: children that were
forked for a command end or are replaced, and the shell returns unless the
line runs `exit`. The code keeps to this for plain commands; with operators it
depends on which programs can be started.
-/

namespace ComputerSystems.ShellExecute

open ProcessTree ShellTokens TransitionSystem

/-- A token of the command line. -/
abbrev Token := List UInt8

/-- `strncmp` finds two strings equal up to a length. -/
def strncmp (first second : Token) (n : ℕ) : Bool := first.take n=second.take n

/-- The descriptors the shell uses. -/
inductive Descriptor
  /-- Descriptor 0. -/
  | standardIn
  /-- Descriptor 1. -/
  | standardOut
  /-- The file of a redirection. -/
  | file
  /-- The end of a pipe to read from. -/
  | pipeRead
  /-- The end of a pipe to write to. -/
  | pipeWrite
deriving DecidableEq

/-- The requests of the shell that can fail. -/
inductive Request
  /-- `chdir`. -/
  | chdir (dir : Token)
  /-- `open` to create and write. -/
  | openWrite (file : Token)
  /-- `open` to read. -/
  | openRead (file : Token)
  /-- `close`. -/
  | close (fd : Descriptor)
  /-- `dup`. -/
  | dup (fd : Descriptor)
  /-- `pipe`. -/
  | pipe
deriving DecidableEq

/-- Code of the shell; a program is given by its file and its arguments. -/
abbrev Shell := Code (Token × List Token) Request

/-- `svec_get`, with its assertion. -/
def svecGet (xs : List Token) (ii : ℕ) : Shell Token :=
  match xs[ii]? with
  | some token => pure token
  | none => abort

/-- `svec_contains`. -/
def svecContains (sv : List Token) (item : Token) (itemSize : ℕ) : Bool :=
  sv.any (fun token => strncmp token item itemSize)

/-- `assert_ok`. -/
def assertOk (ok : Bool) : Shell Unit := if ok then pure () else abort

/-- `execute_cd`: what is printed where the directory cannot be entered changes
nothing. -/
def executeCd (cmd : List Token) : Shell Unit := do
  let dir ← svecGet cmd 1
  let _ ← request (.chdir dir)

/-- `execute_base_case`. -/
def executeBaseCase (xs : List Token) : Shell Unit := do
  let command ← svecGet xs 0
  if strncmp command [99,100] 2 then executeCd xs
  else if strncmp command [101,120,105,116] 4 then exit 0
  else
    match ← fork with
    | some cpid => do
      let _ ← waitpid cpid
    | none => do
      execvp (command,xs)
      exit 0

/-- The direction of a redirection. -/
inductive Direction
  /-- `REDIRECT_IN`. -/
  | redirectIn
  /-- `REDIRECT_OUT`. -/
  | redirectOut
deriving DecidableEq

/-- The operator of a direction. -/
def Direction.symbol : Direction → Token
  | .redirectIn => [60]
  | .redirectOut => [62]

/-- The file name of a redirection, copied into 100 bytes. -/
def redirectFile (tokens : List Token) (cc : Token) : Shell Token :=
  match tokens.findIdx? (fun token => strncmp token cc 1) with
  | some ii => do
    let file ← svecGet tokens (ii+1)
    if file.length<100 then pure file else .undefined
  | none => .undefined

/-- The arguments before an operator. -/
def argsBefore (stops : Token → Bool) (tokens : List Token) : List Token :=
  tokens.takeWhile (fun token => !stops token)

/-- The opening of the file in the child of a redirection. -/
def openFile (direction : Direction) (fout : Token) : Shell Unit := do
  match direction with
  | .redirectOut => do
    assertOk (← request (.openWrite fout))
    assertOk (← request (.close .standardOut))
  | .redirectIn => do
    assertOk (← request (.openRead fout))
    assertOk (← request (.close .standardIn))

/-- `execute_redirect`. -/
def executeRedirect (tokens : List Token) (direction : Direction) : Shell Unit := do
  let cc := direction.symbol
  let fout ← redirectFile tokens cc
  match ← fork with
  | some cpid => do
    let _ ← waitpid cpid
  | none => do
    openFile direction fout
    assertOk (← request (.dup .file))
    assertOk (← request (.close .file))
    let file ← svecGet tokens 0
    execvp (file,argsBefore (fun token => strncmp token cc 1) tokens)

/-- The loop that collects the arguments after an operator and keeps the place
of its last occurrence. -/
def buildArgs (stops : Token → Bool) : List Token → ℕ → Bool → List Token → ℕ → List Token × ℕ
  | [],_,_,args,opii => (args,opii)
  | tt::rest,ii,build,args,opii =>
    if stops tt then buildArgs stops rest (ii+1) true args ii
    else if build then buildArgs stops rest (ii+1) build (args++[tt]) opii
    else buildArgs stops rest (ii+1) build args opii

/-- The arguments after an operator and the place of its last occurrence. -/
def argsAfter (stops : Token → Bool) (tokens : List Token) : List Token × ℕ :=
  buildArgs stops tokens 0 false [] 0

/-- The operator of a pipe. -/
def isPipe (token : Token) : Bool := strncmp token [124] 2

/-- The second child of `execute_pipe`. -/
def pipeReader (tokens : List Token) : Shell Unit := do
  let _ ← request (.close .standardIn)
  assertOk (← request (.dup .pipeRead))
  let _ ← request (.close .pipeWrite)
  let _ ← request (.close .pipeRead)
  let file ← svecGet tokens ((argsAfter isPipe tokens).2+1)
  execvp (file,(argsAfter isPipe tokens).1)

/-- The first child of `execute_pipe`. -/
def pipeWriter (tokens : List Token) : Shell Unit := do
  let _ ← request (.close .standardOut)
  assertOk (← request (.dup .pipeWrite))
  let _ ← request (.close .pipeRead)
  let _ ← request (.close .pipeWrite)
  let file ← svecGet tokens 0
  execvp (file,argsBefore isPipe tokens)

/-- `execute_pipe`. -/
def executePipe (tokens : List Token) : Shell Unit := do
  match ← fork with
  | some cpidwrap => do
    let _ ← waitpid cpidwrap
  | none => do
    assertOk (← request .pipe)
    match ← fork with
    | some cpid1 => do
      match ← fork with
      | some cpid2 => do
        let _ ← request (.close .pipeRead)
        let _ ← request (.close .pipeWrite)
        let _ ← waitpid cpid1
        let _ ← waitpid cpid2
      | none => pipeReader tokens
    | none => pipeWriter tokens

/-- `execute_background`. -/
def executeBackground (tokens : List Token) : Shell Unit := do
  match ← fork with
  | some _ => pure ()
  | none => do
    let file ← svecGet tokens 0
    execvp (file,tokens)

/-- The boolean operators. -/
inductive Logic
  /-- `LOGICAL_AND`. -/
  | logicalAnd
  /-- `LOGICAL_OR`. -/
  | logicalOr
deriving DecidableEq

/-- The token of a boolean operator. -/
def Logic.symbol : Logic → Token
  | .logicalAnd => [38,38]
  | .logicalOr => [124,124]

/-- `WEXITSTATUS`; it is 0 for a process that was killed. -/
def wexitstatus : Status → UInt8
  | .exited code => code
  | .signaled => 0

/-- The first command does not decide the answer. -/
def Logic.goesOn (op : Logic) (status : Status) : Bool :=
  match op with
  | .logicalOr => wexitstatus status≠0
  | .logicalAnd => wexitstatus status=0

/-- `execute_logic`. -/
def executeLogic (tokens : List Token) (op : Logic) : Shell Unit := do
  let stops := fun token => strncmp token op.symbol 2
  match ← fork with
  | some cpid => do
    let status ← waitpid cpid
    if op.goesOn status then
      let command ← svecGet tokens ((argsAfter stops tokens).2+1)
      if strncmp command [101,120,105,116] 4 then exit 0
      else execvp (command,(argsAfter stops tokens).1)
  | none => do
    let file ← svecGet tokens 0
    execvp (file,argsBefore stops tokens)

/-- `execute` of `nush.c`; after it returns the process reads the next line. -/
def execute (cmd : List Token) : Shell Unit :=
  if svecContains cmd [60] 1 then executeRedirect cmd .redirectIn
  else if svecContains cmd [62] 1 then executeRedirect cmd .redirectOut
  else if svecContains cmd [38,38] 2 then executeLogic cmd .logicalAnd
  else if svecContains cmd [124,124] 2 then executeLogic cmd .logicalOr
  else if svecContains cmd [124] 1 then executePipe cmd
  else if svecContains cmd [38] 1 then executeBackground cmd
  else executeBaseCase cmd

/-- A command line: every operator has a command on both sides, but `&` may
stand at the end. -/
structure CommandLine where
  /-- The tokens. -/
  tokens : List Token
  /-- The line is not empty. -/
  nonempty : tokens≠[]
  /-- The tokens are well-formed. -/
  wellFormed : ∀ token∈tokens, WellFormed token
  /-- The token before an operator belongs to a command. -/
  before : ∀ ii token, tokens[ii]?=some token → token∈operators →
    ∃ jj word, ii=jj+1 ∧ tokens[jj]?=some word ∧ word∉operators
  /-- The token after an operator belongs to a command. -/
  after : ∀ ii token, tokens[ii]?=some token → token∈operators →
    (∃ word, tokens[ii+1]?=some word ∧ word∉operators) ∨ (token=[38] ∧ ii+1=tokens.length)

/-! ## When the line is confined -/

/-- What the child of a redirection asks for before it starts the program. -/
def redirectRequests (direction : Direction) (fout : Token) : List Request :=
  match direction with
  | .redirectOut => [.openWrite fout,.close .standardOut,.dup .file,.close .file]
  | .redirectIn => [.openRead fout,.close .standardIn,.dup .file,.close .file]

/-- The token after the first one that begins like an operator. -/
def fileAfter (tokens : List Token) (cc : Token) : Token :=
  tokens.getD (tokens.findIdx (fun token => strncmp token cc 1)+1) []

/-- The program of a redirection. -/
def redirectImage (tokens : List Token) (direction : Direction) : Token × List Token :=
  (tokens.headD [],argsBefore (fun token => strncmp token direction.symbol 1) tokens)

/-- The file name fits, and the child of the redirection either fails before it
would start the program or starts it. -/
def RedirectConfined (world : World (Token × List Token) Request) (tokens : List Token)
    (direction : Direction) : Prop :=
  (fileAfter tokens direction.symbol).length<100 ∧
    ((∃ call∈redirectRequests direction (fileAfter tokens direction.symbol),
        world.request [0] call=false) ∨
      world.execvp [0] (redirectImage tokens direction)≠none)

/-- The first program of a boolean operator. -/
def firstImage (tokens : List Token) (op : Logic) : Token × List Token :=
  (tokens.headD [],argsBefore (fun token => strncmp token op.symbol 2) tokens)

/-- The second command of a boolean operator. -/
def secondCommand (tokens : List Token) (op : Logic) : Token :=
  tokens.getD ((argsAfter (fun token => strncmp token op.symbol 2) tokens).2+1) []

/-- The second program of a boolean operator. -/
def secondImage (tokens : List Token) (op : Logic) : Token × List Token :=
  (secondCommand tokens op,(argsAfter (fun token => strncmp token op.symbol 2) tokens).1)

/-- The first program starts, and the second is not asked for, is the builtin
`exit`, or cannot be started. -/
def LogicConfined (world : World (Token × List Token) Request) (tokens : List Token)
    (op : Logic) : Prop :=
  ∃ status, world.execvp [0] (firstImage tokens op)=some status ∧
    (op.goesOn status=true → strncmp (secondCommand tokens op) [101,120,105,116] 4=true ∨
      world.execvp [] (secondImage tokens op)=none)

/-- The lines, and the answers of the world, with which the shell alone goes on
to the next line. -/
def Confined (world : World (Token × List Token) Request) (cmd : List Token) : Prop :=
  if svecContains cmd [60] 1 then RedirectConfined world cmd .redirectIn
  else if svecContains cmd [62] 1 then RedirectConfined world cmd .redirectOut
  else if svecContains cmd [38,38] 2 then LogicConfined world cmd .logicalAnd
  else if svecContains cmd [124,124] 2 then LogicConfined world cmd .logicalOr
  else if svecContains cmd [124] 1 then world.request [0] .pipe=false
  else if svecContains cmd [38] 1 then world.execvp [0] (cmd.headD [],cmd)≠none
  else strncmp (cmd.headD []) [99,100] 2=true → 2≤cmd.length

/-! ## The code after its pure steps -/

/-- Reading a token that is there. -/
theorem svecGet_eq {xs : List Token} {ii : ℕ} {token : Token} (h : xs[ii]?=some token) :
    svecGet xs ii=pure token := by
  unfold svecGet
  rw [h]

/-- An assertion and what follows it. -/
theorem assertOk_bind (ok : Bool) (f : Unit → Shell Unit) :
    (assertOk ok >>= f)=if ok then f () else .abort := by
  cases ok <;> rfl

/-- Requests that must all succeed. -/
def requireAll : List Request → Shell Unit → Shell Unit
  | [],next => next
  | call::rest,next => .request call (fun ok => if ok then requireAll rest next else .abort)

/-- Processes of a tree with one child. -/
def rootAndChild (root child : Fate) : Pid → Fate
  | [] => root
  | [0] => child
  | _ => .hangs

/-- A fork whose parent waits for the child. -/
def forkAndWait (code : Shell Unit) (next : Status → Shell Unit) : Shell Unit :=
  .fork (fun cpid =>
    match cpid with
    | some cpid => .waitpid cpid next
    | none => code)

/-- The fate of a process that starts a program and returns where this fails. -/
def execFate (world : World (Token × List Token) Request) (p : Pid) (image : Token × List Token) :
    Fate :=
  match world.execvp p image with
  | some status => .runs status
  | none => .returns

/-- The fate of a process whose requests must succeed before it goes on. -/
def requireFate (world : World (Token × List Token) Request) (p : Pid) (calls : List Request)
    (next : Fate) : Fate :=
  if ∀ call∈calls, world.request p call=true then next else .ends .signaled

section Fates

variable {world : World (Token × List Token) Request} {fate : Pid → Fate} {p : Pid} {forks : ℕ}

/-- Nothing left to do. -/
theorem agrees_pure (h : fate p=.returns) : Agrees world fate p forks (pure ()) := h

/-- Starting a program as the last thing. -/
theorem agrees_execvp {image : Token × List Token} (h : fate p=execFate world p image) :
    Agrees world fate p forks (execvp image) := by
  unfold execFate at h
  unfold execvp
  simp only [Agrees]
  cases hexec : world.execvp p image with
  | none =>
    rw [hexec] at h
    exact h
  | some status =>
    rw [hexec] at h
    exact h

/-- The program of a process either runs or its code returns. -/
theorem execFate_returns {image : Token × List Token} :
    execFate world p image=.returns ↔ world.execvp p image=none := by
  unfold execFate
  cases world.execvp p image with
  | none => exact ⟨fun _ => rfl,fun _ => rfl⟩
  | some status =>
    constructor
    · intro h
      cases h
    · intro h
      cases h

/-- The requests come first: by induction on them. -/
theorem agrees_requireAll (calls : List Request) {next : Shell Unit} {last : Fate}
    (hnext : fate p=last → Agrees world fate p forks next)
    (h : fate p=requireFate world p calls last) :
    Agrees world fate p forks (requireAll calls next) := by
  induction calls with
  | nil =>
    refine hnext ?_
    rw [h,requireFate,if_pos (fun call hcall => absurd hcall List.not_mem_nil)]
  | cons call rest ih =>
    simp only [requireAll,Agrees]
    cases hcall : world.request p call with
    | false =>
      rw [if_neg Bool.false_ne_true]
      simp only [Agrees]
      rw [h,requireFate,if_neg]
      intro hall
      rw [hall call List.mem_cons_self] at hcall
      cases hcall
    | true =>
      rw [if_pos rfl]
      refine ih ?_
      rw [h,requireFate,requireFate]
      simp only [List.forall_mem_cons,hcall,true_and]

/-- With one child, the child must not return and the root must return or exit. -/
theorem only_iff_of_child {root child : Fate} {next : Option ℕ → Shell Unit}
    (h : Agrees world (rootAndChild root child) [] 0 (.fork next)) :
    OnlyRootReturns world (.fork next) ↔
      child≠.returns ∧ (root=.returns ∨ ∃ result, root=.ends (.exited result)) := by
  constructor
  · intro honly
    refine ⟨fun hchild => not_onlyRootReturns_of_child h hchild honly,?_⟩
    by_contra hroot
    refine not_onlyRootReturns_of_root h (fun hreturns => hroot (Or.inl hreturns))
      (fun result hexits => hroot (Or.inr ⟨result,hexits⟩)) honly
  · rintro ⟨hchild,hroot⟩
    refine onlyRootReturns_of_fate h hroot ?_
    intro p hp
    unfold rootAndChild
    split
    · exact absurd rfl hp
    · exact hchild
    · exact fun hfate => by cases hfate

/-- A child that the root waits for. -/
theorem forkAndWait_iff {root child : Fate} {code : Shell Unit} {next : Status → Shell Unit}
    (hchild : Agrees world (rootAndChild root child) [0] 0 code) (hends : child≠.hangs)
    (hnext : ∀ status, child.status world [0]=some status →
      Agrees world (rootAndChild root child) [] 1 (next status)) :
    OnlyRootReturns world (forkAndWait code next) ↔
      child≠.returns ∧ (root=.returns ∨ ∃ result, root=.ends (.exited result)) := by
  refine only_iff_of_child ?_
  simp only [Agrees]
  refine ⟨hchild,Nat.zero_lt_one,?_⟩
  show match child.status world [0] with
    | some status => Agrees world (rootAndChild root child) [] 1 (next status)
    | none => root=.hangs
  cases hstatus : child.status world [0] with
  | some status => exact hnext status hstatus
  | none =>
    cases child with
    | hangs => exact absurd rfl hends
    | returns => cases hstatus
    | runs status => cases hstatus
    | ends status => cases hstatus

/-- The requests of a process succeed and it goes on, or it is killed. -/
theorem requireFate_returns {calls : List Request} {next : Fate} :
    requireFate world p calls next≠.returns ↔
      (∃ call∈calls, world.request p call=false) ∨ next≠.returns := by
  unfold requireFate
  split
  · rename_i hall
    constructor
    · exact Or.inr
    · rintro (⟨call,hcall,hfails⟩|hnext)
      · rw [hall call hcall] at hfails
        cases hfails
      · exact hnext
  · rename_i hsome
    refine ⟨fun _ => Or.inl ?_,fun _ hfate => by cases hfate⟩
    by_contra hnone
    refine hsome (fun call hcall => ?_)
    by_contra hfails
    exact hnone ⟨call,hcall,Bool.not_eq_true _ ▸ hfails⟩

/-- Starting a program does not hang. -/
theorem execFate_ne_hangs {image : Token × List Token} : execFate world p image≠.hangs := by
  unfold execFate
  split <;> exact fun h => by cases h

/-- Requests do not hang. -/
theorem requireFate_ne_hangs {calls : List Request} {next : Fate} (h : next≠.hangs) :
    requireFate world p calls next≠.hangs := by
  unfold requireFate
  split
  · exact h
  · exact fun hfate => by cases hfate

end Fates

/-! ## The functions one by one -/

/-- A line begins with a word. -/
theorem CommandLine.head (line : CommandLine) : line.tokens[0]?=some (line.tokens.headD []) := by
  have hne := line.nonempty
  cases htokens : line.tokens with
  | nil => exact absurd htokens hne
  | cons token rest => rfl

/-- The token after an operator other than `&` is there. -/
theorem CommandLine.next (line : CommandLine) {ii : ℕ} {token : Token}
    (h : line.tokens[ii]?=some token) (hop : token∈operators) (hand : token≠[38]) :
    line.tokens[ii+1]?=some (line.tokens.getD (ii+1) []) := by
  rcases line.after ii token h hop with ⟨word,hword,_⟩|⟨rfl,_⟩
  · rw [hword,List.getD_eq_getElem?_getD,hword]
    rfl
  · exact absurd rfl hand

/-- A well-formed token that matches an operator is one; other operators than
`&` are told from it. -/
theorem operator_of_strncmp {token symbol : Token} {n : ℕ} (h : WellFormed token)
    (hmatch : strncmp token symbol n=true) {c : UInt8} {tail : Token} (hsymbol : symbol.take n=c::tail)
    (hc : isoperator c=true) (hand : symbol.take n≠List.take n [38]) :
    token∈operators ∧ token≠[38] := by
  have htake : token.take n=symbol.take n := of_decide_eq_true hmatch
  constructor
  · have hmem : c∈token := by
      refine List.mem_of_mem_take (i:=n) ?_
      rw [htake,hsymbol]
      exact List.mem_cons_self
    rcases h.chars with ⟨hop,_⟩|⟨_,hchars⟩
    · exact hop
    · rw [(of_isargument c (hchars c hmem)).2.1] at hc
      cases hc
  · rintro rfl
    exact hand htake.symm

/-- The file name of a redirection. -/
theorem redirectFile_eq (line : CommandLine) (direction : Direction)
    (h : svecContains line.tokens direction.symbol 1=true) :
    redirectFile line.tokens direction.symbol=
      if (fileAfter line.tokens direction.symbol).length<100 then
        pure (fileAfter line.tokens direction.symbol)
      else .undefined := by
  have hany : ∃ token∈line.tokens, strncmp token direction.symbol 1=true := by
    simpa [svecContains] using h
  have hlt := List.findIdx_lt_length.mpr hany
  have hfound := List.findIdx_getElem (w:=hlt)
  have htoken := List.getElem?_eq_getElem hlt
  have hmem := List.getElem_mem hlt
  have hoperator : line.tokens[line.tokens.findIdx (fun token => strncmp token direction.symbol 1)]∈
      operators ∧ line.tokens[line.tokens.findIdx (fun token => strncmp token direction.symbol 1)]≠
      [38] := by
    cases direction with
    | redirectIn => exact operator_of_strncmp (line.wellFormed _ hmem) hfound rfl rfl (by decide)
    | redirectOut => exact operator_of_strncmp (line.wellFormed _ hmem) hfound rfl rfl (by decide)
  have hnext := line.next htoken hoperator.1 hoperator.2
  unfold redirectFile
  rw [List.findIdx?_eq_some_of_exists hany]
  dsimp only
  rw [svecGet_eq hnext,pure_bind_code]
  rfl

/-- The code of a redirection whose file name fits. -/
theorem executeRedirect_eq (line : CommandLine) (direction : Direction)
    (h : svecContains line.tokens direction.symbol 1=true)
    (hfits : (fileAfter line.tokens direction.symbol).length<100) :
    executeRedirect line.tokens direction=forkAndWait
      (requireAll (redirectRequests direction (fileAfter line.tokens direction.symbol))
        (execvp (redirectImage line.tokens direction))) (fun _ => pure ()) := by
  unfold executeRedirect forkAndWait redirectImage
  dsimp only
  rw [redirectFile_eq line direction h,if_pos hfits,pure_bind_code,fork_bind]
  congr 1
  funext cpid
  cases cpid with
  | some cpid => rfl
  | none =>
    dsimp only
    rw [svecGet_eq line.head]
    cases direction <;>
      simp only [openFile,code_bind_assoc] <;>
      simp only [request_bind,assertOk_bind,pure_bind_code,redirectRequests,requireAll]

/-- Redirections: the child is confined, and the file name fits. -/
theorem redirect_iff (line : CommandLine) (direction : Direction)
    (world : World (Token × List Token) Request)
    (h : svecContains line.tokens direction.symbol 1=true) :
    OnlyRootReturns world (executeRedirect line.tokens direction) ↔
      RedirectConfined world line.tokens direction := by
  unfold RedirectConfined
  by_cases hfits : (fileAfter line.tokens direction.symbol).length<100
  · rw [executeRedirect_eq line direction h hfits]
    have hchild : Agrees world (rootAndChild .returns (requireFate world [0]
        (redirectRequests direction (fileAfter line.tokens direction.symbol))
        (execFate world [0] (redirectImage line.tokens direction)))) [0] 0
        (requireAll (redirectRequests direction (fileAfter line.tokens direction.symbol))
          (execvp (redirectImage line.tokens direction))) :=
      agrees_requireAll _ agrees_execvp rfl
    rw [forkAndWait_iff hchild (requireFate_ne_hangs execFate_ne_hangs) (fun _ _ => agrees_pure rfl),
      requireFate_returns,ne_eq,execFate_returns]
    constructor
    · rintro ⟨hconfined,_⟩
      exact ⟨hfits,hconfined⟩
    · rintro ⟨_,hconfined⟩
      exact ⟨hconfined,Or.inl rfl⟩
  · have hcode : executeRedirect line.tokens direction=.undefined := by
      unfold executeRedirect
      dsimp only
      rw [redirectFile_eq line direction h,if_neg hfits]
      rfl
    rw [hcode]
    constructor
    · intro honly
      have hagrees : Agrees world (fun _ => .hangs) [] 0 .undefined := rfl
      refine absurd honly (not_onlyRootReturns_of_root hagrees ?_ ?_)
      · exact fun hfate => by cases hfate
      · exact fun result hfate => by cases hfate
    · exact fun hconfined => absurd hconfined.1 hfits

/-- The code of `execute_background`. -/
theorem executeBackground_eq (line : CommandLine) :
    executeBackground line.tokens=.fork (fun cpid =>
      match cpid with
      | some _ => pure ()
      | none => execvp (line.tokens.headD [],line.tokens)) := by
  unfold executeBackground
  rw [fork_bind,svecGet_eq line.head]
  rfl

/-- Background commands: the program must start. -/
theorem background_iff (line : CommandLine) (world : World (Token × List Token) Request) :
    OnlyRootReturns world (executeBackground line.tokens) ↔
      world.execvp [0] (line.tokens.headD [],line.tokens)≠none := by
  have hagrees : Agrees world
      (rootAndChild .returns (execFate world [0] (line.tokens.headD [],line.tokens))) [] 0
      (executeBackground line.tokens) := by
    rw [executeBackground_eq]
    simp only [Agrees]
    exact ⟨agrees_execvp rfl,agrees_pure rfl⟩
  rw [executeBackground_eq] at hagrees ⊢
  rw [only_iff_of_child hagrees,ne_eq,execFate_returns]
  exact ⟨And.left,fun hstarts => ⟨hstarts,Or.inl rfl⟩⟩

/-- The code of a plain command that is no builtin. -/
theorem executeBaseCase_eq (line : CommandLine)
    (hcd : strncmp (line.tokens.headD []) [99,100] 2=false)
    (hexit : strncmp (line.tokens.headD []) [101,120,105,116] 4=false) :
    executeBaseCase line.tokens=forkAndWait
      (.execvp (line.tokens.headD [],line.tokens) (.exit 0)) (fun _ => pure ()) := by
  unfold executeBaseCase forkAndWait
  rw [svecGet_eq line.head,pure_bind_code,hcd,hexit]
  rw [if_neg Bool.false_ne_true,if_neg Bool.false_ne_true,fork_bind]
  rfl

/-- The fate of the child of a plain command: it never returns. -/
def commandFate (world : World (Token × List Token) Request) (image : Token × List Token) : Fate :=
  match world.execvp [0] image with
  | some status => .runs status
  | none => .ends (.exited 0)

/-- Plain commands are confined; `cd` must have an argument. -/
theorem baseCase_iff (line : CommandLine) (world : World (Token × List Token) Request) :
    OnlyRootReturns world (executeBaseCase line.tokens) ↔
      (strncmp (line.tokens.headD []) [99,100] 2=true → 2≤line.tokens.length) := by
  cases hcd : strncmp (line.tokens.headD []) [99,100] 2 with
  | true =>
    have hcode : executeBaseCase line.tokens=executeCd line.tokens := by
      unfold executeBaseCase
      rw [svecGet_eq line.head,pure_bind_code,hcd,if_pos rfl]
    rw [hcode,executeCd]
    cases hdir : line.tokens[1]? with
    | some dir =>
      rw [svecGet_eq hdir,pure_bind_code,request_bind]
      have hlength : 1<line.tokens.length := (List.getElem?_eq_some_iff.mp hdir).1
      have hagrees : Agrees world (rootAndChild .returns .hangs) [] 0
          (.request (.chdir dir) (fun _ => pure ())) := rfl
      refine ⟨fun _ _ => hlength,fun _ => onlyRootReturns_of_fate hagrees (Or.inl rfl) ?_⟩
      intro p hp
      unfold rootAndChild
      split
      · exact absurd rfl hp
      · exact fun hfate => by cases hfate
      · exact fun hfate => by cases hfate
    | none =>
      have hshort : line.tokens.length≤1 := List.getElem?_eq_none_iff.mp hdir
      have hget : svecGet line.tokens 1=abort := by
        unfold svecGet
        rw [hdir]
      rw [hget,abort_bind]
      have hagrees : Agrees world (fun _ => .ends .signaled) [] 0 .abort := rfl
      refine ⟨fun honly => ?_,fun hlong => absurd (hlong rfl) (by omega)⟩
      refine absurd honly (not_onlyRootReturns_of_root hagrees ?_ ?_)
      · exact fun hfate => by cases hfate
      · exact fun result hfate => by cases hfate
  | false =>
    refine ⟨fun _ hfalse => absurd hfalse Bool.false_ne_true,fun _ => ?_⟩
    cases hexit : strncmp (line.tokens.headD []) [101,120,105,116] 4 with
    | true =>
      have hcode : executeBaseCase line.tokens=.exit 0 := by
        unfold executeBaseCase
        rw [svecGet_eq line.head,pure_bind_code,hcd,hexit,if_neg Bool.false_ne_true,if_pos rfl]
        rfl
      have hagrees : Agrees world (fun _ => .ends (.exited 0)) [] 0 (.exit 0) := rfl
      rw [hcode]
      refine onlyRootReturns_of_fate hagrees (Or.inr ⟨0,rfl⟩) ?_
      exact fun p _ hfate => by cases hfate
    | false =>
      rw [executeBaseCase_eq line hcd hexit]
      have hchild : Agrees world (rootAndChild .returns
          (commandFate world (line.tokens.headD [],line.tokens))) [0] 0
          (.execvp (line.tokens.headD [],line.tokens) (.exit 0)) := by
        simp only [Agrees,rootAndChild,commandFate]
        cases world.execvp [0] (line.tokens.headD [],line.tokens) <;> rfl
      have hends : commandFate world (line.tokens.headD [],line.tokens)≠.hangs ∧
          commandFate world (line.tokens.headD [],line.tokens)≠.returns := by
        unfold commandFate
        split <;> exact ⟨Fate.noConfusion,Fate.noConfusion⟩
      exact (forkAndWait_iff hchild hends.1 (fun _ _ => agrees_pure rfl)).mpr ⟨hends.2,Or.inl rfl⟩

/-- Without an operator the place is kept: by induction on the tokens. -/
theorem buildArgs_none {stops : Token → Bool} (rest : List Token) :
    ∀ (ii : ℕ) (build : Bool) (args : List Token) (opii : ℕ), (∀ token∈rest, stops token=false) →
      (buildArgs stops rest ii build args opii).2=opii := by
  induction rest with
  | nil =>
    intro ii build args opii _
    rfl
  | cons tt rest ih =>
    intro ii build args opii hnone
    have htt := hnone tt List.mem_cons_self
    have hrest : ∀ token∈rest, stops token=false :=
      fun token htoken => hnone token (List.mem_cons_of_mem tt htoken)
    rw [buildArgs,htt,if_neg Bool.false_ne_true]
    split
    · exact ih _ _ _ _ hrest
    · exact ih _ _ _ _ hrest

/-- An operator that occurs is found: by induction on the tokens. -/
theorem buildArgs_found {stops : Token → Bool} (rest : List Token) :
    ∀ (ii : ℕ) (build : Bool) (args : List Token) (opii : ℕ), (∃ token∈rest, stops token=true) →
      ∃ k token, (buildArgs stops rest ii build args opii).2=ii+k ∧ rest[k]?=some token ∧
        stops token=true := by
  induction rest with
  | nil =>
    rintro ii build args opii ⟨token,htoken,_⟩
    cases htoken
  | cons tt rest ih =>
    intro ii build args opii hsome
    by_cases hlater : ∃ token∈rest, stops token=true
    · have hshift : ∀ (build : Bool) args opii, ∃ k token,
          (buildArgs stops rest (ii+1) build args opii).2=ii+k ∧ (tt::rest)[k]?=some token ∧
            stops token=true := by
        intro build args opii
        obtain ⟨k,token,hk,htoken,hstops⟩ := ih (ii+1) build args opii hlater
        exact ⟨k+1,token,by omega,htoken,hstops⟩
      rw [buildArgs]
      split
      · exact hshift _ _ _
      · split
        · exact hshift _ _ _
        · exact hshift _ _ _
    · have hnone : ∀ token∈rest, stops token=false := by
        intro token htoken
        by_contra hstops
        exact hlater ⟨token,htoken,Bool.not_eq_false _ ▸ hstops⟩
      obtain ⟨token,htoken,hstops⟩ := hsome
      rcases List.mem_cons.mp htoken with rfl|htoken
      · refine ⟨0,token,?_,rfl,hstops⟩
        rw [buildArgs,hstops,if_pos rfl,buildArgs_none rest _ _ _ _ hnone]
        rfl
      · exact absurd ⟨token,htoken,hstops⟩ hlater

/-- The command after the last of the operators that a loop looks for. -/
theorem CommandLine.command (line : CommandLine) {symbol : Token} {n : ℕ} {c : UInt8} {tail : Token}
    (h : ∃ token∈line.tokens, strncmp token symbol n=true) (hsymbol : symbol.take n=c::tail)
    (hc : isoperator c=true) (hand : symbol.take n≠List.take n [38]) :
    line.tokens[(argsAfter (fun token => strncmp token symbol n) line.tokens).2+1]?=
      some (line.tokens.getD ((argsAfter (fun token => strncmp token symbol n) line.tokens).2+1)
        []) := by
  obtain ⟨k,token,hk,htoken,hstops⟩ :=
    buildArgs_found line.tokens 0 false [] 0 h
  rw [Nat.zero_add] at hk
  have hmem := List.mem_of_getElem? htoken
  obtain ⟨hop,hne⟩ := operator_of_strncmp (line.wellFormed token hmem) hstops hsymbol hc hand
  rw [argsAfter,hk]
  exact line.next htoken hop hne

/-- What the shell does after the first command of a boolean operator. -/
def afterFirst (tokens : List Token) (op : Logic) (status : Status) : Shell Unit :=
  if op.goesOn status then
    if strncmp (secondCommand tokens op) [101,120,105,116] 4 then .exit 0
    else execvp (secondImage tokens op)
  else pure ()

/-- The code of a boolean operator with a command on both sides. -/
theorem executeLogic_eq {tokens : List Token} {op : Logic} (hhead : tokens[0]?=some (tokens.headD []))
    (hnext : tokens[(argsAfter (fun token => strncmp token op.symbol 2) tokens).2+1]?=
      some (secondCommand tokens op)) :
    executeLogic tokens op=forkAndWait (execvp (firstImage tokens op)) (afterFirst tokens op) := by
  unfold executeLogic forkAndWait
  dsimp only
  rw [svecGet_eq hnext,svecGet_eq hhead,fork_bind]
  rfl

/-- The second command of a boolean operator is there. -/
theorem CommandLine.second (line : CommandLine) (op : Logic)
    (h : svecContains line.tokens op.symbol 2=true) :
    line.tokens[(argsAfter (fun token => strncmp token op.symbol 2) line.tokens).2+1]?=
      some (secondCommand line.tokens op) := by
  have hany : ∃ token∈line.tokens, strncmp token op.symbol 2=true := by
    simpa [svecContains] using h
  cases op with
  | logicalAnd => exact line.command hany rfl rfl (by decide)
  | logicalOr => exact line.command hany rfl rfl (by decide)

/-- The fate of the shell after the first command. -/
def afterFate (world : World (Token × List Token) Request) (tokens : List Token) (op : Logic)
    (status : Status) : Fate :=
  if op.goesOn status then
    if strncmp (secondCommand tokens op) [101,120,105,116] 4 then .ends (.exited 0)
    else execFate world [] (secondImage tokens op)
  else .returns

/-- The shell follows that fate. -/
theorem agrees_afterFirst {world : World (Token × List Token) Request} {fate : Pid → Fate}
    {forks : ℕ} {tokens : List Token} {op : Logic} {status : Status}
    (h : fate []=afterFate world tokens op status) :
    Agrees world fate [] forks (afterFirst tokens op status) := by
  unfold afterFate at h
  unfold afterFirst
  split_ifs at h ⊢
  · exact h
  · exact agrees_execvp h
  · exact agrees_pure h

/-- The shell returns or exits unless it is replaced. -/
theorem afterFate_iff {world : World (Token × List Token) Request} {tokens : List Token}
    {op : Logic} {status : Status} :
    (afterFate world tokens op status=.returns ∨
        ∃ result, afterFate world tokens op status=.ends (.exited result)) ↔
      (op.goesOn status=true → strncmp (secondCommand tokens op) [101,120,105,116] 4=true ∨
        world.execvp [] (secondImage tokens op)=none) := by
  unfold afterFate
  split_ifs with hgoes hexit
  · exact ⟨fun _ _ => Or.inl hexit,fun _ => Or.inr ⟨0,rfl⟩⟩
  · constructor
    · rintro (hreturns|⟨result,hends⟩) _
      · exact Or.inr (execFate_returns.mp hreturns)
      · unfold execFate at hends
        split at hends <;> cases hends
    · intro hsecond
      rcases hsecond hgoes with hexits|hnone
      · exact absurd hexits hexit
      · exact Or.inl (execFate_returns.mpr hnone)
  · exact ⟨fun _ hgoes' => absurd hgoes' hgoes,fun _ => Or.inl rfl⟩

/-- Boolean operators: the first program starts and the second does not replace
the shell. -/
theorem logic_iff (line : CommandLine) (op : Logic) (world : World (Token × List Token) Request)
    (h : svecContains line.tokens op.symbol 2=true) :
    OnlyRootReturns world (executeLogic line.tokens op) ↔ LogicConfined world line.tokens op := by
  rw [executeLogic_eq line.head (line.second op h)]
  unfold LogicConfined
  cases hfirst : world.execvp [0] (firstImage line.tokens op) with
  | none =>
    have hfate : execFate world [0] (firstImage line.tokens op)=.returns :=
      execFate_returns.mpr hfirst
    have hchild : Agrees world (rootAndChild (afterFate world line.tokens op (world.leave [0]))
        .returns) [0] 0 (execvp (firstImage line.tokens op)) := agrees_execvp hfate.symm
    have hnext : ∀ status, Fate.returns.status world [0]=some status →
        Agrees world (rootAndChild (afterFate world line.tokens op (world.leave [0])) .returns) [] 1
          (afterFirst line.tokens op status) := by
      intro status hstatus
      cases hstatus
      exact agrees_afterFirst rfl
    rw [forkAndWait_iff hchild Fate.noConfusion hnext]
    constructor
    · rintro ⟨hne,_⟩
      exact absurd rfl hne
    · rintro ⟨status,hnone,_⟩
      cases hnone
  | some status =>
    have hfate : execFate world [0] (firstImage line.tokens op)=.runs status := by
      rw [execFate,hfirst]
    have hchild : Agrees world (rootAndChild (afterFate world line.tokens op status)
        (.runs status)) [0] 0 (execvp (firstImage line.tokens op)) := agrees_execvp hfate.symm
    have hnext : ∀ got, (Fate.runs status).status world [0]=some got →
        Agrees world (rootAndChild (afterFate world line.tokens op status) (.runs status)) [] 1
          (afterFirst line.tokens op got) := by
      intro got hgot
      cases hgot
      exact agrees_afterFirst rfl
    rw [forkAndWait_iff hchild Fate.noConfusion hnext,afterFate_iff]
    constructor
    · rintro ⟨_,hsecond⟩
      exact ⟨status,rfl,hsecond⟩
    · rintro ⟨got,hgot,hsecond⟩
      cases hgot
      exact ⟨Fate.noConfusion,hsecond⟩

/-- The program of the first child of a pipe. -/
def writerImage (tokens : List Token) : Token × List Token :=
  (tokens.headD [],argsBefore isPipe tokens)

/-- The program of the second child of a pipe. -/
def readerImage (tokens : List Token) : Token × List Token :=
  (tokens.getD ((argsAfter isPipe tokens).2+1) [],(argsAfter isPipe tokens).1)

/-- The children of a pipe start their programs once `dup` succeeds. -/
theorem agrees_pipeEnd {world : World (Token × List Token) Request} {fate : Pid → Fate} {p : Pid}
    {first last other : Descriptor} {dup : Descriptor} {image : Token × List Token}
    (h : fate p=requireFate world p [.dup dup] (execFate world p image)) :
    Agrees world fate p 0 (.request (.close first) (fun _ => requireAll [.dup dup]
      (.request (.close last) (fun _ => .request (.close other) (fun _ => execvp image))))) := by
  rw [Agrees]
  refine agrees_requireAll [.dup dup] ?_ h
  intro hlast
  simp only [Agrees]
  exact agrees_execvp hlast

/-- The code of the first child of a pipe. -/
theorem pipeWriter_eq {tokens : List Token} (hhead : tokens[0]?=some (tokens.headD [])) :
    pipeWriter tokens=.request (.close .standardOut) (fun _ => requireAll [.dup .pipeWrite]
      (.request (.close .pipeRead) (fun _ => .request (.close .pipeWrite)
        (fun _ => execvp (writerImage tokens))))) := by
  unfold pipeWriter writerImage
  rw [svecGet_eq hhead]
  simp only [request_bind,assertOk_bind,pure_bind_code,requireAll]

/-- The code of the second child of a pipe. -/
theorem pipeReader_eq {tokens : List Token} (hnext : tokens[(argsAfter isPipe tokens).2+1]?=
      some (tokens.getD ((argsAfter isPipe tokens).2+1) [])) :
    pipeReader tokens=.request (.close .standardIn) (fun _ => requireAll [.dup .pipeRead]
      (.request (.close .pipeWrite) (fun _ => .request (.close .pipeRead)
        (fun _ => execvp (readerImage tokens))))) := by
  unfold pipeReader readerImage
  rw [svecGet_eq hnext]
  simp only [request_bind,assertOk_bind,pure_bind_code,requireAll]

/-- The wrapper of a pipe after it has forked both ends: it waits and returns. -/
def wrapperWaits : Shell Unit :=
  .request (.close .pipeRead) (fun _ => .request (.close .pipeWrite)
    (fun _ => .waitpid 0 (fun _ => .waitpid 1 (fun _ => pure ()))))

/-- The processes of a pipe: the wrapper returns. -/
def pipeFate (writer reader : Fate) : Pid → Fate
  | [] => .returns
  | [0] => .returns
  | [0,0] => writer
  | [0,1] => reader
  | _ => .hangs

/-- A status can be waited for unless the process hangs. -/
theorem exists_status {world : World (Token × List Token) Request} {p : Pid} {fate : Fate}
    (h : fate≠.hangs) : ∃ status, fate.status world p=some status := by
  cases fate with
  | hangs => exact absurd rfl h
  | returns => exact ⟨_,rfl⟩
  | runs status => exact ⟨status,rfl⟩
  | ends status => exact ⟨status,rfl⟩

/-- The wrapper returns into the read loop. -/
theorem agrees_wrapperWaits {world : World (Token × List Token) Request} {writer reader : Fate}
    (hwriter : writer≠.hangs) (hreader : reader≠.hangs) :
    Agrees world (pipeFate writer reader) [0] 2 wrapperWaits := by
  obtain ⟨first,hfirst⟩ := exists_status (p:=[0,0]) hwriter
  obtain ⟨second,hsecond⟩ := exists_status (p:=[0,1]) hreader
  have hfirst' : ((pipeFate writer reader) ([0]++[0])).status world ([0]++[0])=some first := hfirst
  have hsecond' : ((pipeFate writer reader) ([0]++[1])).status world ([0]++[1])=some second :=
    hsecond
  unfold wrapperWaits
  simp only [Agrees,hfirst',hsecond']
  exact ⟨by decide,by decide,rfl⟩

/-- The wrapper of a pipe once it has the pipe. -/
def wrapperForks (tokens : List Token) : Shell Unit :=
  .fork (fun cpid1 =>
    match cpid1 with
    | some cpid1 => .fork (fun cpid2 =>
        match cpid2 with
        | some cpid2 => .request (.close .pipeRead) (fun _ => .request (.close .pipeWrite)
            (fun _ => .waitpid cpid1 (fun _ => .waitpid cpid2 (fun _ => pure ()))))
        | none => pipeReader tokens)
    | none => pipeWriter tokens)

/-- The code of `execute_pipe`. -/
theorem executePipe_eq (tokens : List Token) :
    executePipe tokens=forkAndWait (requireAll [.pipe] (wrapperForks tokens)) (fun _ => pure ()) := by
  unfold executePipe forkAndWait
  rw [fork_bind]
  congr 1
  funext cpid
  cases cpid with
  | some cpid => rfl
  | none =>
    dsimp only
    rw [request_bind,requireAll]
    congr 1
    funext ok
    rw [assertOk_bind]
    cases ok <;> rfl

/-- The processes of a pipe that could be made. -/
theorem agrees_executePipe {tokens : List Token} (world : World (Token × List Token) Request)
    (hhead : tokens[0]?=some (tokens.headD []))
    (hnext : tokens[(argsAfter isPipe tokens).2+1]?=
      some (tokens.getD ((argsAfter isPipe tokens).2+1) []))
    (hpipe : world.request [0] .pipe=true) :
    Agrees world (pipeFate
      (requireFate world [0,0] [.dup .pipeWrite] (execFate world [0,0] (writerImage tokens)))
      (requireFate world [0,1] [.dup .pipeRead] (execFate world [0,1] (readerImage tokens))))
      [] 0 (executePipe tokens) := by
  rw [executePipe_eq]
  unfold wrapperForks forkAndWait
  rw [pipeWriter_eq hhead,pipeReader_eq hnext]
  rw [Agrees]
  refine ⟨?_,Nat.zero_lt_one,rfl⟩
  have hrequest : world.request ([]++[0]) .pipe=true := hpipe
  rw [requireAll,Agrees,hrequest,if_pos rfl,requireAll,Agrees]
  refine ⟨agrees_pipeEnd rfl,?_⟩
  rw [Agrees]
  refine ⟨agrees_pipeEnd rfl,?_⟩
  exact agrees_wrapperWaits (requireFate_ne_hangs execFate_ne_hangs)
    (requireFate_ne_hangs execFate_ne_hangs)

/-- The fates where no pipe can be made. -/
theorem agrees_withoutPipe {tokens : List Token} {world : World (Token × List Token) Request}
    (hpipe : world.request [0] .pipe=false) :
    Agrees world (rootAndChild .returns (.ends .signaled)) [] 0 (executePipe tokens) := by
  rw [executePipe_eq,forkAndWait,Agrees]
  refine ⟨?_,Nat.zero_lt_one,rfl⟩
  have hrequest : world.request ([]++[0]) .pipe=false := hpipe
  rw [requireAll,Agrees,hrequest,if_neg Bool.false_ne_true]
  rfl

/-- Pipes: the wrapper returns into the read loop unless no pipe can be made. -/
theorem pipe_iff (line : CommandLine) (world : World (Token × List Token) Request)
    (h : ∃ token∈line.tokens, isPipe token=true) :
    OnlyRootReturns world (executePipe line.tokens) ↔ world.request [0] .pipe=false := by
  cases hpipe : world.request [0] .pipe with
  | false =>
    refine ⟨fun _ => rfl,fun _ => ?_⟩
    have hagrees : Agrees world (rootAndChild .returns (.ends .signaled)) [] 0
        (executePipe line.tokens) := agrees_withoutPipe hpipe
    rw [executePipe_eq] at hagrees ⊢
    exact (only_iff_of_child hagrees).mpr ⟨Fate.noConfusion,Or.inl rfl⟩
  | true =>
    refine ⟨fun honly => ?_,fun hfails => absurd hfails.symm Bool.false_ne_true⟩
    have hagrees := agrees_executePipe world line.head (line.command h rfl rfl (by decide)) hpipe
    rw [executePipe_eq] at hagrees honly
    exact absurd honly (not_onlyRootReturns_of_child hagrees rfl)

/-! ## Whole lines -/

/-- Where no boolean operator stands, a token that begins like a pipe is one. -/
theorem exists_isPipe {tokens : List Token} (hform : ∀ token∈tokens, WellFormed token)
    (hor : svecContains tokens [124,124] 2=false) (h : svecContains tokens [124] 1=true) :
    ∃ token∈tokens, isPipe token=true := by
  obtain ⟨token,htoken,hmatch⟩ : ∃ token∈tokens, strncmp token [124] 1=true := by
    simpa [svecContains] using h
  refine ⟨token,htoken,?_⟩
  have hop := (operator_of_strncmp (hform token htoken) hmatch rfl rfl (by decide)).1
  have hno : strncmp token [124,124] 2=false := by
    by_contra hyes
    have hcontains : svecContains tokens [124,124] 2=true :=
      List.any_eq_true.mpr ⟨token,htoken,Bool.not_eq_false _ ▸ hyes⟩
    rw [hor] at hcontains
    cases hcontains
  have hcheck : ∀ token∈operators, strncmp token [124] 1=true → strncmp token [124,124] 2=false →
      isPipe token=true := by decide +kernel
  exact hcheck token hop hmatch hno

/-- The shell alone goes on to the next line, in every run and with every answer
of the world, exactly when the line is confined. -/
theorem only_shell_reads_iff (line : CommandLine) (world : World (Token × List Token) Request) :
    OnlyRootReturns world (execute line.tokens) ↔ Confined world line.tokens := by
  unfold execute Confined
  split_ifs with hin hout hand hor hpipe hback
  · exact redirect_iff line .redirectIn world hin
  · exact redirect_iff line .redirectOut world hout
  · exact logic_iff line .logicalAnd world hand
  · exact logic_iff line .logicalOr world hor
  · exact pipe_iff line world (exists_isPipe line.wellFormed (Bool.not_eq_true _ ▸ hor) hpipe)
  · exact background_iff line world
  · exact baseCase_iff line world

/-- The command line `a && b`. -/
def andLine : CommandLine where
  tokens := [[97],[38,38],[98]]
  nonempty := List.cons_ne_nil _ _
  wellFormed := by
    intro token htoken
    have hcases : token=[97] ∨ token=[38,38] ∨ token=[98] := by simpa using htoken
    rcases hcases with rfl|rfl|rfl
    · exact Or.inr (Or.inr ⟨by decide,by decide +kernel,by decide +kernel⟩)
    · exact Or.inl (by decide)
    · exact Or.inr (Or.inr ⟨by decide,by decide +kernel,by decide +kernel⟩)
  before := by
    intro ii token htoken hop
    match ii,htoken with
    | 0,htoken =>
      cases htoken
      exact absurd hop (by decide)
    | 1,_ => exact ⟨0,[97],rfl,rfl,by decide⟩
    | 2,htoken =>
      cases htoken
      exact absurd hop (by decide)
    | ii+3,htoken => cases htoken
  after := by
    intro ii token htoken hop
    match ii,htoken with
    | 0,htoken =>
      cases htoken
      exact absurd hop (by decide)
    | 1,_ => exact Or.inl ⟨[98],rfl,by decide⟩
    | 2,htoken =>
      cases htoken
      exact absurd hop (by decide)
    | ii+3,htoken => cases htoken

/-- A world in which every request succeeds and every program starts and exits
with 0. -/
def allSucceed : World (Token × List Token) Request where
  execvp := fun _ _ => some (.exited 0)
  request := fun _ _ => true
  leave := fun _ => .exited 0

/-- After `a && b` with two programs that succeed, the shell is gone: it was
replaced by the second program and reads no further line. -/
theorem and_replaces_shell : ¬OnlyRootReturns allSucceed (execute andLine.tokens) := by
  have hcode : execute andLine.tokens=executeLogic andLine.tokens .logicalAnd := rfl
  rw [hcode,logic_iff andLine .logicalAnd allSucceed rfl]
  rintro ⟨status,hstatus,hsecond⟩
  cases hstatus
  rcases hsecond rfl with hexit|hnone
  · exact absurd hexit (by decide)
  · cases hnone

end ComputerSystems.ShellExecute
