import ComputerSystems.ShellStages

/-!
# Reading inside the token vector

`svec_get` asserts that its index is below the size of the vector. The functions that
run a list of tokens are taken up again here with every read announced before it is
made, also those in their loops; without the announcements they are the functions of
the shell. Every read of every run is inside the vector exactly when the line gives
what its first kind of operator needs: a file behind a redirection, a command behind
the last boolean operator or pipe, and otherwise a command at all.
-/

namespace ComputerSystems.ShellBounds

open ProcessCalls ProcessTree ShellExecute ShellTokens TransitionSystem

/-- A read of a vector. -/
structure Access where
  /-- The index. -/
  index : ℕ
  /-- The size of the vector. -/
  size : ℕ
deriving DecidableEq

/-- Code of the shell that announces its reads. -/
abbrev Watched := Code (Token × List Token) (Request ⊕ Access)

/-- `svec_get`, announced before its assertion. -/
def svecGet (xs : List Token) (ii : ℕ) : Watched Token := do
  let _ ← request (.inr ⟨ii,xs.length⟩)
  match xs[ii]? with
  | some token => pure token
  | none => abort

/-- A request to the system. -/
def ask (call : Request) : Watched Bool := request (.inl call)

/-- A loop over the indices of a vector, with a bound on its rounds. Each round reads a
token; the body changes what was collected and says whether the loop goes on. -/
def forTokens {σ : Type} (xs : List Token) (body : ℕ → Token → σ → σ × Bool) :
    ℕ → ℕ → σ → Watched σ
  | 0,_,s => pure s
  | left+1,ii,s =>
    if ii<xs.length then do
      let tt ← svecGet xs ii
      if (body ii tt s).2 then forTokens xs body left (ii+1) (body ii tt s).1
      else pure (body ii tt s).1
    else pure s

/-- The whole loop. -/
def overTokens {σ : Type} (xs : List Token) (body : ℕ → Token → σ → σ × Bool) (s : σ) :
    Watched σ := forTokens xs body (xs.length+1) 0 s

/-- The body of `svec_find`. -/
def findBody (item : Token) (itemSize ii : ℕ) (tt : Token) (_ : Option ℕ) : Option ℕ × Bool :=
  if strncmp tt item itemSize then (some ii,false) else (none,true)

/-- The body that collects all tokens. -/
def copyBody (_ : ℕ) (tt : Token) (args : List Token) : List Token × Bool := (args++[tt],true)

/-- The body that collects the tokens before an operator. -/
def beforeBody (stops : Token → Bool) (_ : ℕ) (tt : Token) (args : List Token) :
    List Token × Bool :=
  if stops tt then (args,false) else (args++[tt],true)

/-- The body that collects the tokens after an operator: whether one was seen, the
arguments, and the place of the last one. -/
def afterBody (stops : Token → Bool) (ii : ℕ) (tt : Token) (s : Bool × List Token × ℕ) :
    (Bool × List Token × ℕ) × Bool :=
  if stops tt then ((true,s.2.1,ii),true)
  else if s.1 then ((s.1,s.2.1++[tt],s.2.2),true)
  else (s,true)

/-- `svec_find`. -/
def svecFind (sv : List Token) (item : Token) (itemSize : ℕ) : Watched (Option ℕ) :=
  overTokens sv (findBody item itemSize) none

/-- `svec_contains`. -/
def svecContains (sv : List Token) (item : Token) (itemSize : ℕ) : Watched Bool := do
  let found ← svecFind sv item itemSize
  pure found.isSome

/-- `assert_ok`. -/
def assertOk (ok : Bool) : Watched Unit := if ok then pure () else abort

/-- `execute_cd`. -/
def executeCd (cmd : List Token) : Watched Unit := do
  let dir ← svecGet cmd 1
  let _ ← ask (.chdir dir)

/-- `execute_base_case`. -/
def executeBaseCase (xs : List Token) : Watched Unit := do
  let command ← svecGet xs 0
  if strncmp command [99,100] 2 then executeCd xs
  else do
    let command ← svecGet xs 0
    if strncmp command [101,120,105,116] 4 then exit 0
    else
      match ← fork with
      | some cpid => do
        let _ ← waitpid cpid
      | none => do
        let args ← overTokens xs copyBody []
        let command ← svecGet xs 0
        execvp (command,args)
        exit 0

/-- The file name of a redirection, copied into 100 bytes. -/
def redirectFile (tokens : List Token) (cc : Token) : Watched Token := do
  match ← svecFind tokens cc 1 with
  | some ii => do
    let file ← svecGet tokens (ii+1)
    if file.length<100 then pure file else .undefined
  | none => .undefined

/-- The opening of the file in the child of a redirection. -/
def openFile (direction : Direction) (fout : Token) : Watched Unit := do
  match direction with
  | .redirectOut => do
    assertOk (← ask (.openWrite fout))
    assertOk (← ask (.close .standardOut))
  | .redirectIn => do
    assertOk (← ask (.openRead fout))
    assertOk (← ask (.close .standardIn))

/-- `execute_redirect`. -/
def executeRedirect (tokens : List Token) (direction : Direction) : Watched Unit := do
  let cc := direction.symbol
  let fout ← redirectFile tokens cc
  match ← fork with
  | some cpid => do
    let _ ← waitpid cpid
  | none => do
    openFile direction fout
    assertOk (← ask (.dup .file))
    assertOk (← ask (.close .file))
    let args ← overTokens tokens (beforeBody (fun token => strncmp token cc 1)) []
    let file ← svecGet tokens 0
    execvp (file,args)

/-- The second child of `execute_pipe`. -/
def pipeReader (tokens : List Token) : Watched Unit := do
  let _ ← ask (.close .standardIn)
  assertOk (← ask (.dup .pipeRead))
  let _ ← ask (.close .pipeWrite)
  let _ ← ask (.close .pipeRead)
  let built ← overTokens tokens (afterBody isPipe) (false,[],0)
  let file ← svecGet tokens (built.2.2+1)
  execvp (file,built.2.1)

/-- The first child of `execute_pipe`. -/
def pipeWriter (tokens : List Token) : Watched Unit := do
  let _ ← ask (.close .standardOut)
  assertOk (← ask (.dup .pipeWrite))
  let _ ← ask (.close .pipeRead)
  let _ ← ask (.close .pipeWrite)
  let args ← overTokens tokens (beforeBody isPipe) []
  let file ← svecGet tokens 0
  execvp (file,args)

/-- `execute_pipe`. -/
def executePipe (tokens : List Token) : Watched Unit := do
  match ← fork with
  | some cpidwrap => do
    let _ ← waitpid cpidwrap
  | none => do
    assertOk (← ask .pipe)
    match ← fork with
    | some cpid1 => do
      match ← fork with
      | some cpid2 => do
        let _ ← ask (.close .pipeRead)
        let _ ← ask (.close .pipeWrite)
        let _ ← waitpid cpid1
        let _ ← waitpid cpid2
      | none => pipeReader tokens
    | none => pipeWriter tokens

/-- `execute_background`. -/
def executeBackground (tokens : List Token) : Watched Unit := do
  match ← fork with
  | some _ => pure ()
  | none => do
    let args ← overTokens tokens copyBody []
    let file ← svecGet tokens 0
    execvp (file,args)

/-- `execute_logic`. -/
def executeLogic (tokens : List Token) (op : Logic) : Watched Unit := do
  let stops := fun token => strncmp token op.symbol 2
  match ← fork with
  | some cpid => do
    let status ← waitpid cpid
    if op.goesOn status then
      let built ← overTokens tokens (afterBody stops) (false,[],0)
      let command ← svecGet tokens (built.2.2+1)
      if strncmp command [101,120,105,116] 4 then exit 0
      else do
        let command ← svecGet tokens (built.2.2+1)
        execvp (command,built.2.1)
  | none => do
    let args ← overTokens tokens (beforeBody stops) []
    let file ← svecGet tokens 0
    execvp (file,args)

/-- `execute` of `nush.c`. -/
def execute (cmd : List Token) : Watched Unit := do
  if ← svecContains cmd [60] 1 then executeRedirect cmd .redirectIn
  else if ← svecContains cmd [62] 1 then executeRedirect cmd .redirectOut
  else if ← svecContains cmd [38,38] 2 then executeLogic cmd .logicalAnd
  else if ← svecContains cmd [124,124] 2 then executeLogic cmd .logicalOr
  else if ← svecContains cmd [124] 1 then executePipe cmd
  else if ← svecContains cmd [38] 1 then executeBackground cmd
  else executeBaseCase cmd

/-! ## What is asked of a line -/

/-- The observer that notes every read. -/
def accesses : (Token × List Token) ⊕ (Request ⊕ Access) → Multiset Access :=
  Sum.elim (fun _ => 0) (Sum.elim (fun _ => 0) (fun access => {access}))

/-- In every run every read is inside its vector, and no process gets where nothing is
known of it. -/
def Safe (code : Watched Unit) : Prop :=
  ∀ (world : World (Token × List Token) (Request ⊕ Access)) (moves : List Pid)
    (last : State (Token × List Token) (Request ⊕ Access)),
    follow (step world) Anything moves (start code)=some last →
    (∀ access∈noted accesses world moves (start code), access.index<access.size) ∧
      ∀ p forks, last p≠some ⟨.inside .undefined,forks⟩

/-- A token stands behind the first redirection, and it fits into the buffer. -/
def FileGiven (cmd : List Token) (direction : Direction) : Prop :=
  cmd.findIdx (fun token => strncmp token direction.symbol 1)+1<cmd.length ∧
    (fileAfter cmd direction.symbol).length<100

/-- The line gives what its first kind of operator needs. -/
def Guarded (cmd : List Token) : Prop :=
  if ShellExecute.svecContains cmd [60] 1 then FileGiven cmd .redirectIn
  else if ShellExecute.svecContains cmd [62] 1 then FileGiven cmd .redirectOut
  else if ShellExecute.svecContains cmd [38,38] 2 then cmd.getLast?≠some [38,38]
  else if ShellExecute.svecContains cmd [124,124] 2 then cmd.getLast?≠some [124,124]
  else if ShellExecute.svecContains cmd [124] 1 then cmd.getLast?≠some [124]
  else if ShellExecute.svecContains cmd [38] 1 then True
  else cmd≠[] ∧ (strncmp (cmd.headD []) [99,100] 2=true → 2≤cmd.length)

/-! ## Announced reads and loops -/

section Loops

variable {α σ : Type}

/-- Reads announced one after the other. -/
def announce : List Access → Watched α → Watched α
  | [],code => code
  | access::rest,code => .request (.inr access) (fun _ => announce rest code)

/-- What follows the announced code: by induction on the reads. -/
theorem announce_bind {β : Type} (reads : List Access) (code : Watched α) (f : α → Watched β) :
    (announce reads code >>= f)=announce reads (code >>= f) := by
  induction reads with
  | nil => rfl
  | cons access rest ih => exact congrArg (Code.request _) (funext (fun _ => ih))

/-- Reads announced in two parts: by induction on the first. -/
theorem announce_append (first second : List Access) (code : Watched α) :
    announce (first++second) code=announce first (announce second code) := by
  induction first with
  | nil => rfl
  | cons access rest ih => exact congrArg (Code.request _) (funext (fun _ => ih))

/-- The result of a loop over some tokens from an index on. -/
def scan (body : ℕ → Token → σ → σ × Bool) : List Token → ℕ → σ → σ
  | [],_,s => s
  | tt::rest,ii,s => if (body ii tt s).2 then scan body rest (ii+1) (body ii tt s).1
    else (body ii tt s).1

/-- The reads of that loop. -/
def reads (size : ℕ) (body : ℕ → Token → σ → σ × Bool) : List Token → ℕ → σ → List Access
  | [],_,_ => []
  | tt::rest,ii,s => ⟨ii,size⟩::
      if (body ii tt s).2 then reads size body rest (ii+1) (body ii tt s).1 else []

/-- Every read of the loop is inside the vector: by induction on the tokens. -/
theorem reads_inside {size : ℕ} (body : ℕ → Token → σ → σ × Bool) (rest : List Token) :
    ∀ (ii : ℕ) (s : σ), ii+rest.length ≤ size →
    ∀ access∈reads size body rest ii s, access.index<access.size := by
  induction rest with
  | nil => exact fun _ _ _ _ haccess => absurd haccess List.not_mem_nil
  | cons tt rest ih =>
    intro ii s hsize access haccess
    rw [List.length_cons] at hsize
    rcases List.mem_cons.mp haccess with rfl|hlater
    · show ii<size
      omega
    · split_ifs at hlater
      · exact ih (ii+1) _ (by omega) access hlater
      · exact absurd hlater List.not_mem_nil

/-- A read that is inside the vector. -/
theorem svecGet_inside {xs : List Token} {ii : ℕ} {token : Token} (h : xs[ii]?=some token) :
    svecGet xs ii=announce [⟨ii,xs.length⟩] (pure token) := by
  unfold svecGet
  rw [h]
  rfl

/-- A read that is outside of it. -/
theorem svecGet_outside {xs : List Token} {ii : ℕ} (h : xs.length ≤ ii) :
    svecGet xs ii=announce [⟨ii,xs.length⟩] .abort := by
  unfold svecGet
  rw [List.getElem?_eq_none h]
  rfl

/-- A loop announces its reads and hands on its result: by induction on the rounds. -/
theorem forTokens_eq (xs : List Token) (body : ℕ → Token → σ → σ × Bool) (left : ℕ) :
    ∀ (ii : ℕ) (s : σ), xs.length-ii<left → forTokens xs body left ii s=
      announce (reads xs.length body (xs.drop ii) ii s) (pure (scan body (xs.drop ii) ii s)) := by
  induction left with
  | zero => exact fun ii s hleft => absurd hleft (Nat.not_lt_zero _)
  | succ left ih =>
    intro ii s hleft
    rw [forTokens]
    by_cases hinside : ii<xs.length
    · have hdrop := List.drop_eq_getElem_cons hinside
      rw [if_pos hinside,svecGet_inside (List.getElem?_eq_getElem hinside),announce_bind,
        pure_bind_code,hdrop,reads,scan]
      cases (body ii xs[ii] s).2 with
      | true =>
        rw [if_pos rfl,if_pos rfl,if_pos rfl,ih (ii+1) _ (by omega)]
        rfl
      | false => rfl
    · rw [if_neg hinside,List.drop_eq_nil_of_le (Nat.le_of_not_lt hinside)]
      rfl

/-- The whole loop and what follows it. -/
theorem overTokens_bind {β : Type} (xs : List Token) (body : ℕ → Token → σ → σ × Bool) (s : σ)
    (f : σ → Watched β) : (overTokens xs body s >>= f)=
      announce (reads xs.length body xs 0 s) (f (scan body xs 0 s)) := by
  have hloop := forTokens_eq xs body (xs.length+1) 0 s (by omega)
  rw [overTokens,hloop,announce_bind,pure_bind_code]
  rfl

/-- What `svec_find` finds: by induction on the tokens. -/
theorem scan_find (item : Token) (itemSize : ℕ) (rest : List Token) : ∀ (ii : ℕ),
    scan (findBody item itemSize) rest ii none=
      (rest.findIdx? (fun token => strncmp token item itemSize)).map (fun jj => jj+ii) := by
  induction rest with
  | nil => exact fun _ => rfl
  | cons tt rest ih =>
    intro ii
    rw [scan,findBody,List.findIdx?_cons]
    cases strncmp tt item itemSize with
    | true => exact congrArg some (Nat.zero_add ii).symm
    | false =>
      rw [if_neg Bool.false_ne_true,if_pos rfl,ih (ii+1),if_neg Bool.false_ne_true,Option.map_map]
      exact congrArg (Option.map · _) (funext (fun jj => (Nat.add_right_comm jj 1 ii).symm))

/-- All tokens are collected: by induction on them. -/
theorem scan_copy (rest : List Token) : ∀ (ii : ℕ) (args : List Token),
    scan copyBody rest ii args=args++rest := by
  induction rest with
  | nil => exact fun _ args => (List.append_nil args).symm
  | cons tt rest ih =>
    intro ii args
    rw [scan,copyBody,if_pos rfl,ih,List.append_assoc,List.singleton_append]

/-- The tokens before an operator are collected: by induction on them. -/
theorem scan_before (stops : Token → Bool) (rest : List Token) : ∀ (ii : ℕ) (args : List Token),
    scan (beforeBody stops) rest ii args=args++argsBefore stops rest := by
  induction rest with
  | nil => exact fun _ args => (List.append_nil args).symm
  | cons tt rest ih =>
    intro ii args
    rw [scan,beforeBody,argsBefore,List.takeWhile_cons]
    cases stops tt with
    | true => exact (List.append_nil args).symm
    | false =>
      rw [if_neg Bool.false_ne_true,if_pos rfl,ih,argsBefore,List.append_assoc]
      rfl

/-- The tokens after an operator are collected: by induction on them. -/
theorem scan_after (stops : Token → Bool) (rest : List Token) :
    ∀ (ii : ℕ) (build : Bool) (args : List Token) (opii : ℕ),
    (scan (afterBody stops) rest ii (build,args,opii)).2=
      buildArgs stops rest ii build args opii := by
  induction rest with
  | nil => exact fun _ _ _ _ => rfl
  | cons tt rest ih =>
    intro ii build args opii
    rw [scan,afterBody,buildArgs]
    cases stops tt with
    | true => exact ih (ii+1) true args ii
    | false =>
      cases build with
      | true => exact ih (ii+1) true (args++[tt]) opii
      | false => exact ih (ii+1) false args opii

end Loops

/-- The reads of `svec_contains`. -/
def containsReads (sv : List Token) (item : Token) (itemSize : ℕ) : List Access :=
  reads sv.length (findBody item itemSize) sv 0 none

/-- `svec_find` and what follows it. -/
theorem svecFind_bind {α : Type} (sv : List Token) (item : Token) (itemSize : ℕ)
    (f : Option ℕ → Watched α) : (svecFind sv item itemSize >>= f)=
      announce (containsReads sv item itemSize)
        (f (sv.findIdx? (fun token => strncmp token item itemSize))) := by
  rw [svecFind,overTokens_bind,scan_find]
  exact congrArg (announce _ <| f ·) Option.map_id'

/-- `svec_contains` and what follows it. -/
theorem svecContains_bind {α : Type} (sv : List Token) (item : Token) (itemSize : ℕ)
    (f : Bool → Watched α) : (svecContains sv item itemSize >>= f)=
      announce (containsReads sv item itemSize)
        (f (ShellExecute.svecContains sv item itemSize)) := by
  rw [svecContains,code_bind_assoc,svecFind_bind,pure_bind_code,List.findIdx?_isSome]
  rfl

/-- The loop that collects the arguments before an operator and what follows it. -/
theorem before_bind {α : Type} (stops : Token → Bool) (tokens : List Token)
    (f : List Token → Watched α) : (overTokens tokens (beforeBody stops) [] >>= f)=
      announce (reads tokens.length (beforeBody stops) tokens 0 [])
        (f (argsBefore stops tokens)) := by
  rw [overTokens_bind,scan_before]
  rfl

/-- The loop that collects all arguments and what follows it. -/
theorem copy_bind {α : Type} (tokens : List Token) (f : List Token → Watched α) :
    (overTokens tokens copyBody [] >>= f)=
      announce (reads tokens.length copyBody tokens 0 []) (f tokens) := by
  rw [overTokens_bind,scan_copy]
  rfl

/-! ## Without the announcements -/

section Erase

variable {α β : Type}

/-- The code without its announcements. -/
def erase : Watched α → Shell α
  | .done value => .done value
  | .exit code => .exit code
  | .abort => .abort
  | .undefined => .undefined
  | .fork next => .fork (fun child => erase (next child))
  | .waitpid child next => .waitpid child (fun status => erase (next status))
  | .execvp image next => .execvp image (erase next)
  | .request (.inl call) next => .request call (fun ok => erase (next ok))
  | .request (.inr _) next => erase (next true)

/-- One piece of code after the other: by induction on the first. -/
theorem erase_bind (code : Watched α) (f : α → Watched β) :
    erase (code >>= f)=erase code >>= fun value => erase (f value) := by
  induction code with
  | done value => rfl
  | exit code => rfl
  | abort => rfl
  | undefined => rfl
  | fork next ih => exact congrArg Code.fork (funext ih)
  | waitpid child next ih => exact congrArg (Code.waitpid child) (funext ih)
  | execvp image next ih => exact congrArg (Code.execvp image) ih
  | request call next ih =>
    cases call with
    | inl call => exact congrArg (Code.request call) (funext ih)
    | inr access => exact ih true

/-- Announcements leave nothing: by induction on them. -/
theorem erase_announce (reads : List Access) (code : Watched α) :
    erase (announce reads code)=erase code := by
  induction reads with
  | nil => rfl
  | cons access rest ih => exact ih

/-- Reading a token. -/
theorem erase_svecGet (xs : List Token) (ii : ℕ) :
    erase (svecGet xs ii)=ShellExecute.svecGet xs ii := by
  unfold ShellExecute.svecGet
  cases h : xs[ii]? with
  | some token => rw [svecGet_inside h,erase_announce]; rfl
  | none => rw [svecGet_outside (List.getElem?_eq_none_iff.mp h),erase_announce]; rfl

/-- A loop over the tokens. -/
theorem erase_overTokens {σ : Type} (xs : List Token) (body : ℕ → Token → σ → σ × Bool) (s : σ) :
    erase (overTokens xs body s)=pure (scan body xs 0 s) := by
  rw [overTokens,forTokens_eq xs body (xs.length+1) 0 s (by omega),erase_announce]
  rfl

/-- Asserting. -/
theorem erase_assertOk (ok : Bool) : erase (assertOk ok)=ShellExecute.assertOk ok := by
  cases ok <;> rfl

/-- A request. -/
theorem erase_ask (call : Request) : erase (ask call)=request call := rfl

/-- A fork with its two branches. -/
theorem erase_fork (parent : ℕ → Watched α) (child : Watched α) :
    erase (fork >>= fun cpid =>
        match cpid with
        | some cpid => parent cpid
        | none => child)=
      fork >>= fun cpid =>
        match cpid with
        | some cpid => erase (parent cpid)
        | none => erase child := by
  refine congrArg Code.fork (funext (fun cpid => ?_))
  cases cpid <;> rfl

/-- Waiting. -/
theorem erase_waitpid (cpid : ℕ) : erase (waitpid cpid)=waitpid cpid := rfl

end Erase

/-- Opening the file. -/
theorem erase_openFile (direction : Direction) (fout : Token) :
    erase (openFile direction fout)=ShellExecute.openFile direction fout := by
  cases direction <;>
    simp only [openFile,ShellExecute.openFile,erase_bind,erase_ask,erase_assertOk]

/-- The first program that is started, with the arguments before an operator. -/
theorem erase_before (stops : Token → Bool) (tokens : List Token) :
    erase (overTokens tokens (beforeBody stops) [] >>= fun args =>
        svecGet tokens 0 >>= fun file => execvp (file,args))=
      ShellExecute.svecGet tokens 0 >>= fun file => execvp (file,argsBefore stops tokens) := by
  rw [before_bind,erase_announce,erase_bind,erase_svecGet]
  rfl

/-- `execute_base_case`, which reads the first token up to three times. -/
theorem erase_executeBaseCase (xs : List Token) :
    erase (executeBaseCase xs)=ShellExecute.executeBaseCase xs := by
  unfold executeBaseCase ShellExecute.executeBaseCase
  cases xs with
  | nil => rfl
  | cons command rest =>
    have hfirst : (command::rest)[0]?=some command := rfl
    rw [svecGet_inside hfirst,ShellExecute.svecGet_eq hfirst,announce_bind,erase_announce,
      pure_bind_code,pure_bind_code,announce_bind,pure_bind_code]
    split_ifs with hcd
    · rw [executeCd,ShellExecute.executeCd,erase_bind,erase_svecGet]
      rfl
    · rw [erase_announce]
      rfl
    · rw [erase_announce,erase_fork,copy_bind,erase_announce,announce_bind,erase_announce]
      rfl

/-- The file name of a redirection. -/
theorem erase_redirectFile (tokens : List Token) (cc : Token) :
    erase (redirectFile tokens cc)=ShellExecute.redirectFile tokens cc := by
  unfold redirectFile ShellExecute.redirectFile
  rw [svecFind_bind,erase_announce]
  cases tokens.findIdx? (fun token => strncmp token cc 1) with
  | none => rfl
  | some ii =>
    dsimp only
    rw [erase_bind,erase_svecGet]
    congr 1
    funext file
    split_ifs <;> rfl

/-- `execute_redirect`. -/
theorem erase_executeRedirect (tokens : List Token) (direction : Direction) :
    erase (executeRedirect tokens direction)=ShellExecute.executeRedirect tokens direction := by
  unfold executeRedirect ShellExecute.executeRedirect
  dsimp only
  rw [erase_bind,erase_redirectFile]
  congr 1
  funext fout
  rw [erase_fork]
  simp only [erase_bind,erase_waitpid,erase_openFile,erase_ask,erase_assertOk,erase_overTokens,
    erase_svecGet,scan_before,pure_bind_code,List.nil_append]
  rfl

/-- `execute_pipe`. -/
theorem erase_executePipe (tokens : List Token) :
    erase (executePipe tokens)=ShellExecute.executePipe tokens := by
  have hreader : erase (pipeReader tokens)=ShellExecute.pipeReader tokens := by
    unfold pipeReader ShellExecute.pipeReader
    simp only [erase_bind,erase_ask,erase_assertOk,erase_overTokens,erase_svecGet,scan_after,
      pure_bind_code]
    rfl
  have hwriter : erase (pipeWriter tokens)=ShellExecute.pipeWriter tokens := by
    unfold pipeWriter ShellExecute.pipeWriter
    simp only [erase_bind,erase_ask,erase_assertOk,erase_overTokens,erase_svecGet,scan_before,
      pure_bind_code,List.nil_append]
    rfl
  unfold executePipe ShellExecute.executePipe
  rw [erase_fork,erase_bind,erase_ask]
  simp only [erase_bind (assertOk _),erase_assertOk,erase_fork,hreader,hwriter]
  rfl

/-- `execute_background`. -/
theorem erase_executeBackground (tokens : List Token) :
    erase (executeBackground tokens)=ShellExecute.executeBackground tokens := by
  unfold executeBackground ShellExecute.executeBackground
  rw [erase_fork,copy_bind,erase_announce,erase_bind,erase_svecGet]
  rfl

/-- The second command of a boolean operator, which is read twice where it is run. -/
theorem erase_second (tokens args : List Token) (ii : ℕ) :
    erase (svecGet tokens ii >>= fun command =>
        if strncmp command [101,120,105,116] 4 then exit 0
        else svecGet tokens ii >>= fun command => execvp (command,args))=
      ShellExecute.svecGet tokens ii >>= fun command =>
        if strncmp command [101,120,105,116] 4 then exit 0 else execvp (command,args) := by
  rw [erase_bind,erase_svecGet]
  cases h : tokens[ii]? with
  | none =>
    unfold ShellExecute.svecGet
    rw [h]
    rfl
  | some token =>
    rw [ShellExecute.svecGet_eq h,pure_bind_code,pure_bind_code,svecGet_inside h,announce_bind,
      pure_bind_code]
    split_ifs
    · rfl
    · rw [erase_announce]
      rfl

/-- `execute_logic`. -/
theorem erase_executeLogic (tokens : List Token) (op : Logic) :
    erase (executeLogic tokens op)=ShellExecute.executeLogic tokens op := by
  unfold executeLogic ShellExecute.executeLogic
  rw [erase_fork,erase_before]
  congr 1
  funext cpid
  cases cpid with
  | none => rfl
  | some cpid =>
    dsimp only
    rw [erase_bind,erase_waitpid]
    congr 1
    funext status
    split_ifs
    · rw [overTokens_bind,erase_announce,scan_after,erase_second]
      rfl
    · rfl

/-- The function that runs the line, by the kinds of operators in it. -/
def branch (cmd : List Token) : Watched Unit :=
  if ShellExecute.svecContains cmd [60] 1 then executeRedirect cmd .redirectIn
  else if ShellExecute.svecContains cmd [62] 1 then executeRedirect cmd .redirectOut
  else if ShellExecute.svecContains cmd [38,38] 2 then executeLogic cmd .logicalAnd
  else if ShellExecute.svecContains cmd [124,124] 2 then executeLogic cmd .logicalOr
  else if ShellExecute.svecContains cmd [124] 1 then executePipe cmd
  else if ShellExecute.svecContains cmd [38] 1 then executeBackground cmd
  else executeBaseCase cmd

/-- Looking for an operator announces reads inside the vector. -/
theorem look_for {sv : List Token} {code other : Watched Unit} (symbol : Token) (n : ℕ)
    (yes : Watched Unit)
    (h : ∃ found, (∀ access∈found, access.index<access.size) ∧ code=announce found other) :
    ∃ found, (∀ access∈found, access.index<access.size) ∧
      (svecContains sv symbol n >>= fun b => if b then yes else code)=
        announce found (if ShellExecute.svecContains sv symbol n then yes else other) := by
  obtain ⟨found,hinside,rfl⟩ := h
  have hlook : ∀ access∈containsReads sv symbol n, access.index<access.size :=
    reads_inside _ sv 0 none (by omega)
  rw [svecContains_bind]
  cases ShellExecute.svecContains sv symbol n with
  | true => exact ⟨_,hlook,rfl⟩
  | false =>
    refine ⟨containsReads sv symbol n++found,fun access haccess => ?_,
      (announce_append _ found other).symm⟩
    rcases List.mem_append.mp haccess with hl|hf
    · exact hlook access hl
    · exact hinside access hf

/-- `execute` announces reads inside the vector before it calls that function. -/
theorem execute_eq (cmd : List Token) : ∃ found, (∀ access∈found, access.index<access.size) ∧
    execute cmd=announce found (branch cmd) := by
  unfold execute branch
  refine look_for _ _ _ (look_for _ _ _ (look_for _ _ _ (look_for _ _ _ (look_for _ _ _
    (look_for _ _ _ ⟨[],?_,rfl⟩)))))
  exact fun access haccess => absurd haccess List.not_mem_nil

/-- Without the announcements the code is that of the shell. -/
theorem erase_execute (cmd : List Token) : erase (execute cmd)=ShellExecute.execute cmd := by
  obtain ⟨found,-,hexecute⟩ := execute_eq cmd
  rw [hexecute,erase_announce]
  unfold branch ShellExecute.execute
  split_ifs
  · exact erase_executeRedirect cmd .redirectIn
  · exact erase_executeRedirect cmd .redirectOut
  · exact erase_executeLogic cmd .logicalAnd
  · exact erase_executeLogic cmd .logicalOr
  · exact erase_executePipe cmd
  · exact erase_executeBackground cmd
  · exact erase_executeBaseCase cmd

/-! ## Safe code -/

/-- Every read is inside its vector. -/
def Inside : (Token × List Token) ⊕ (Request ⊕ Access) → Prop
  | .inr (.inr access) => access.index<access.size
  | _ => True

/-- Code that holds reads inside their vectors only is safe. -/
theorem safe_of_only {code : Watched Unit} (h : Only Inside (fun _ => True) code) : Safe code := by
  intro world moves last hrun
  obtain ⟨hnoted,hdefined⟩ : (∀ access∈noted accesses world moves (start code), _) ∧ _ :=
    only_run h hrun
  refine ⟨fun access haccess => ?_,hdefined⟩
  obtain ⟨call,hinside,hnote⟩ := hnoted access haccess
  match call with
  | .inl image => exact absurd hnote (Multiset.notMem_zero access)
  | .inr (.inl request) => exact absurd hnote (Multiset.notMem_zero access)
  | .inr (.inr other) =>
    rw [Multiset.mem_singleton.mp hnote]
    exact hinside

/-- Code that has no known effect is not safe: its run need not even begin. -/
theorem not_safe_undefined : ¬Safe .undefined := fun h =>
  (h ⟨fun _ _ => none,fun _ _ => true,fun _ => .signaled⟩ [] _ rfl).2 [] 0 (put_same _ _ _)

/-- The first step of code that announces a read. -/
theorem step_access (world : World (Token × List Token) (Request ⊕ Access)) (access : Access)
    (code : Watched Unit) (p : Pid) :
    step world p (start (.request (.inr access) (fun _ => code)))=
      if p=[] then some (start code) else none := by
  by_cases hp : p=[]
  · subst hp
    rw [if_pos rfl]
    exact (step_of_moves (put_same _ _ _) (Moves.request _ _)).trans
      (congrArg some (Function.update_idem _ _ _))
  · have hnone : start (.request (.inr access) (fun _ => code)) p=none := put_other _ _ hp
    rw [if_neg hp,step,hnone]

/-- A read may be announced exactly when it is inside its vector. -/
theorem safe_access (access : Access) (code : Watched Unit) :
    Safe (.request (.inr access) (fun _ => code)) ↔ access.index<access.size ∧ Safe code := by
  have hasked : asked accesses (start (.request (.inr access) (fun _ => code))) []={access} := by
    rw [asked,start,put_same]
    rfl
  have hnoted : ∀ world moves, noted accesses world ([]::moves)
      (start (.request (.inr access) (fun _ => code)))=
        {access}+noted accesses world moves (start code) := by
    intro world moves
    rw [noted,hasked,step_access,if_pos rfl]
  have hrun : ∀ world moves, follow (step world) Anything ([]::moves)
      (start (.request (.inr access) (fun _ => code)))=
        follow (step world) Anything moves (start code) := by
    intro world moves
    rw [follow_cons,step_access,if_pos rfl]
    rfl
  constructor
  · intro h
    refine ⟨?_,fun world moves last hlast => ?_⟩
    · have hone := (h ⟨fun _ _ => none,fun _ _ => true,fun _ => .signaled⟩ [[]] _ (hrun _ [])).1
      refine hone access ?_
      rw [hnoted]
      exact Multiset.mem_add.mpr (Or.inl (Multiset.mem_singleton_self access))
    · obtain ⟨hinside,hdefined⟩ := h world ([]::moves) last ((hrun world moves).trans hlast)
      refine ⟨fun other hother => hinside other ?_,hdefined⟩
      rw [hnoted]
      exact Multiset.mem_add.mpr (Or.inr hother)
  · rintro ⟨hinside,h⟩ world moves last hlast
    cases moves with
    | nil =>
      cases hlast
      refine ⟨fun other hother => absurd hother (Multiset.notMem_zero other),fun p forks hp => ?_⟩
      by_cases hroot : p=[]
      · rw [hroot,start,put_same] at hp
        cases hp
      · rw [start,put_other _ _ hroot] at hp
        cases hp
    | cons p moves =>
      by_cases hroot : p=[]
      · subst hroot
        rw [hrun] at hlast
        obtain ⟨hlater,hdefined⟩ := h world moves last hlast
        refine ⟨fun other hother => ?_,hdefined⟩
        rw [hnoted] at hother
        rcases Multiset.mem_add.mp hother with hfirst|hrest
        · rw [Multiset.mem_singleton.mp hfirst]
          exact hinside
        · exact hlater other hrest
      · rw [follow_cons,step_access,if_neg hroot] at hlast
        cases hlast

/-- So may several: by induction on them. -/
theorem safe_announce (found : List Access) (code : Watched Unit) :
    Safe (announce found code) ↔ (∀ access∈found, access.index<access.size) ∧ Safe code := by
  induction found with
  | nil => exact ⟨fun h => ⟨fun _ ha => absurd ha List.not_mem_nil,h⟩,fun h => h.2⟩
  | cons access rest ih =>
    rw [announce,safe_access,ih,List.forall_mem_cons,and_assoc]

/-- Announced reads inside their vectors may come first: by induction on them. -/
theorem only_announce {α : Type} {result : α → Prop} {found : List Access} {code : Watched α}
    (hfound : ∀ access∈found, access.index<access.size) (h : Only Inside result code) :
    Only Inside result (announce found code) := by
  induction found with
  | nil => exact h
  | cons access rest ih =>
    obtain ⟨hinside,hrest⟩ := List.forall_mem_cons.mp hfound
    exact ⟨hinside,fun _ => ih hrest⟩

/-- Announcements change no fate: by induction on them. -/
theorem agrees_announce {world : World (Token × List Token) (Request ⊕ Access)} {fate : Pid → Fate}
    {p : Pid} {forks : ℕ} {code : Watched Unit} (found : List Access)
    (h : Agrees world fate p forks code) : Agrees world fate p forks (announce found code) := by
  induction found with
  | nil => exact h
  | cons access rest ih => exact ih

/-- The announced reads are noted in front: by induction on them. -/
theorem asks_announce {world : World (Token × List Token) (Request ⊕ Access)} {fate : Pid → Fate}
    {p : Pid} {forks : ℕ} {code : Watched Unit} (found : List Access) :
    asks accesses world fate p forks (announce found code)=
      Multiset.ofList found+asks accesses world fate p forks code := by
  induction found with
  | nil => exact (zero_add _).symm
  | cons access rest ih =>
    rw [announce,asks,ih,←add_assoc]
    rfl

/-- Code that the fates lead to a read outside its vector is not safe. -/
theorem not_safe_of_asks {world : World (Token × List Token) (Request ⊕ Access)}
    {fate : Pid → Fate} {code : Watched Unit} {index size : ℕ}
    (h : Agrees world fate [] 0 code) (hmem : ⟨index,size⟩∈asks accesses world fate [] 0 code)
    (houtside : size ≤ index) : ¬Safe code := by
  intro hsafe
  obtain ⟨moves,last,hrun,_,hcalls⟩ := exists_complete accesses h
  have hinside : index<size := (hsafe world moves last hrun).1 ⟨index,size⟩ (by rwa [hcalls])
  omega

/-! ## The functions one by one -/

/-- A line that holds an operator begins with a token. -/
theorem first_of_match {tokens : List Token} {p : Token → Prop} (h : ∃ token∈tokens, p token) :
    tokens≠[] ∧ ∃ head, tokens[0]?=some head := by
  obtain ⟨token,ht,_⟩ := h
  cases tokens with
  | nil => exact absurd ht List.not_mem_nil
  | cons head tail => exact ⟨List.cons_ne_nil head tail,head,rfl⟩

section Pieces

variable {α : Type} {result : α → Prop}

/-- A request may be made. -/
theorem only_ask {result : Bool → Prop} (call : Request) (h : ∀ ok, result ok) :
    Only Inside result (ask call) := ⟨trivial,h⟩

/-- An assertion reads nothing. -/
theorem only_assertOk {result : Unit → Prop} (ok : Bool) (h : result ()) :
    Only Inside result (assertOk ok) := by
  cases ok with
  | false => trivial
  | true => exact h

/-- A request that must succeed, and what follows it. -/
theorem only_require {code : Watched α} (call : Request) (h : Only Inside result code) :
    Only Inside result (ask call >>= fun ok => assertOk ok >>= fun _ => code) :=
  only_bind (only_ask call (fun ok => only_bind (only_assertOk ok h)))

/-- Opening the file reads nothing. -/
theorem only_openFile {result : Unit → Prop} (direction : Direction) (fout : Token)
    (h : result ()) : Only Inside result (openFile direction fout) := by
  cases direction with
  | redirectIn => exact only_require _ (only_bind (only_ask _ (fun ok => only_assertOk ok h)))
  | redirectOut => exact only_require _ (only_bind (only_ask _ (fun ok => only_assertOk ok h)))

/-- Starting a program. -/
theorem only_execvp (image : Token × List Token) :
    Only Inside (fun _ : Unit => True) (execvp image) := ⟨trivial,trivial⟩

/-- Reading a token that is there, and what follows it. -/
theorem only_read {xs : List Token} {ii : ℕ} {token : Token} (h : xs[ii]?=some token)
    {f : Token → Watched α} (hf : Only Inside result (f token)) :
    Only Inside result (svecGet xs ii >>= f) := by
  rw [svecGet_inside h,announce_bind]
  exact only_announce (List.forall_mem_singleton.mpr (List.getElem?_eq_some_iff.mp h).1) hf

/-- A loop over the tokens, and what follows it. -/
theorem only_loop {σ : Type} (xs : List Token) (body : ℕ → Token → σ → σ × Bool) (s : σ)
    {f : σ → Watched α} (hf : Only Inside result (f (scan body xs 0 s))) :
    Only Inside result (overTokens xs body s >>= f) := by
  rw [overTokens_bind]
  exact only_announce (reads_inside body xs 0 s (by omega)) hf

/-- The first command of a boolean operator or pipe. -/
theorem only_first {xs : List Token} (hne : xs≠[]) (stops : Token → Bool) :
    Only Inside (fun _ => True) (overTokens xs (beforeBody stops) [] >>= fun args =>
      svecGet xs 0 >>= fun file => execvp (file,args)) := by
  obtain ⟨head,tail,rfl⟩ := List.exists_cons_of_ne_nil hne
  exact only_loop _ _ _ (only_read rfl (only_execvp _))

end Pieces

/-- One command reads inside the vector when there is one, and `cd` has a directory. -/
theorem safe_executeBaseCase (xs : List Token) : Safe (executeBaseCase xs) ↔
    xs≠[] ∧ (strncmp (xs.headD []) [99,100] 2=true → 2≤xs.length) := by
  unfold executeBaseCase
  cases xs with
  | nil =>
    rw [svecGet_outside (Nat.le_refl 0),announce_bind,safe_announce,List.forall_mem_singleton]
    exact ⟨fun h => absurd h.1 (Nat.lt_irrefl 0),fun h => absurd rfl h.1⟩
  | cons command rest =>
    have hfirst : (command::rest)[0]?=some command := rfl
    rw [svecGet_inside hfirst,announce_bind,pure_bind_code,safe_announce,List.forall_mem_singleton]
    refine (and_iff_right (Nat.succ_pos _)).trans ?_
    refine Iff.trans ?_ (and_iff_right (List.cons_ne_nil _ _)).symm
    rw [List.headD_cons]
    by_cases hcd : strncmp command [99,100] 2=true
    · rw [if_pos hcd,executeCd]
      refine Iff.trans ?_ (forall_prop_of_true hcd).symm
      by_cases hdir : 2≤(command::rest).length
      · refine ⟨fun _ => hdir,fun _ => safe_of_only ?_⟩
        exact only_read (List.getElem?_eq_getElem hdir) ⟨trivial,fun _ => trivial⟩
      · rw [svecGet_outside (by omega),announce_bind,safe_announce,List.forall_mem_singleton]
        exact ⟨fun h => absurd h.1 hdir,fun h => absurd h hdir⟩
    · rw [if_neg hcd]
      refine ⟨fun _ h => absurd h hcd,fun _ => safe_of_only ?_⟩
      rw [announce_bind,pure_bind_code]
      have hread : ∀ access∈[(⟨0,(command::rest).length⟩ : Access)], access.index<access.size :=
        List.forall_mem_singleton.mpr (Nat.succ_pos _)
      refine only_announce hread ?_
      split_ifs
      · trivial
      · intro child
        cases child with
        | some cpid => exact fun _ => trivial
        | none =>
          refine only_loop _ _ _ ?_
          rw [announce_bind]
          exact only_announce hread ⟨trivial,trivial⟩

/-- A command in the background reads inside the vector. -/
theorem safe_executeBackground {tokens : List Token} (h : tokens≠[]) :
    Safe (executeBackground tokens) := by
  obtain ⟨head,tail,rfl⟩ := List.exists_cons_of_ne_nil h
  refine safe_of_only (fun child => ?_)
  cases child with
  | some cpid => trivial
  | none => exact only_loop _ _ _ (only_read rfl (only_execvp _))

/-- A redirection reads inside the vector when a file is given that fits. -/
theorem safe_executeRedirect {tokens : List Token} (direction : Direction)
    (h : ∃ token∈tokens, strncmp token direction.symbol 1=true) :
    Safe (executeRedirect tokens direction) ↔ FileGiven tokens direction := by
  unfold executeRedirect redirectFile FileGiven
  dsimp only
  rw [svecFind_bind,announce_bind,safe_announce,List.findIdx?_eq_some_of_exists h]
  refine (and_iff_right (reads_inside _ tokens 0 none (by omega))).trans ?_
  dsimp only
  by_cases hnext : tokens.findIdx (fun token => strncmp token direction.symbol 1)+1<tokens.length
  · have hfile : tokens[tokens.findIdx (fun token => strncmp token direction.symbol 1)+1]?=
        some (fileAfter tokens direction.symbol) := by
      rw [fileAfter,List.getD_eq_getElem _ _ hnext]
      exact List.getElem?_eq_getElem hnext
    rw [svecGet_inside hfile,announce_bind,announce_bind,pure_bind_code,safe_announce,
      List.forall_mem_singleton]
    refine and_congr Iff.rfl ?_
    by_cases hfits : (fileAfter tokens direction.symbol).length<100
    · rw [if_pos hfits,pure_bind_code]
      refine ⟨fun _ => hfits,fun _ => safe_of_only (fun child => ?_)⟩
      cases child with
      | some cpid => exact fun _ => trivial
      | none =>
        have hrest := only_require (.dup .file) (only_require (.close .file)
          (only_first (first_of_match h).1 (fun token => strncmp token direction.symbol 1)))
        have hchild : Only Inside (fun _ => True)
            (openFile direction (fileAfter tokens direction.symbol) >>= fun _ => _) :=
          only_bind (only_openFile direction _ hrest)
        exact hchild
    · rw [if_neg hfits]
      exact ⟨fun hsafe => absurd hsafe not_safe_undefined,fun h => absurd h hfits⟩
  · rw [svecGet_outside (Nat.le_of_not_lt hnext),announce_bind,announce_bind,safe_announce,
      List.forall_mem_singleton]
    exact ⟨fun h => absurd h.1 hnext,fun h => absurd h.1 hnext⟩

section LastOperator

variable {stops : Token → Bool}

/-- The last token at which a loop stops: by induction on the tokens. -/
theorem last_match {tokens : List Token} (h : ∃ token∈tokens, stops token=true) :
    ∃ front separator after, tokens=front++separator::after ∧ stops separator=true ∧
      ∀ token∈after, stops token=false := by
  induction tokens with
  | nil =>
    obtain ⟨token,ht,_⟩ := h
    exact absurd ht List.not_mem_nil
  | cons tt rest ih =>
    by_cases hlater : ∃ token∈rest, stops token=true
    · obtain ⟨front,separator,after,rfl,hstops,hafter⟩ := ih hlater
      exact ⟨tt::front,separator,after,rfl,hstops,hafter⟩
    · obtain ⟨token,ht,hstops⟩ := h
      rcases List.mem_cons.mp ht with rfl|ht
      · refine ⟨[],token,rest,rfl,hstops,fun other ho => ?_⟩
        by_contra hother
        exact hlater ⟨other,ho,Bool.not_eq_false _ ▸ hother⟩
      · exact absurd ⟨token,ht,hstops⟩ hlater

/-- A token stands behind the last stop exactly when the line does not end with it. -/
theorem behind_last_iff {tokens : List Token} {symbol : Token}
    (h : ∃ token∈tokens, stops token=true)
    (hsymbol : ∀ token∈tokens, stops token=true ↔ token=symbol) :
    (argsAfter stops tokens).2+1<tokens.length ↔ tokens.getLast?≠some symbol := by
  obtain ⟨front,separator,after,rfl,hstops,hafter⟩ := last_match h
  have hplace : (argsAfter stops (front++separator::after)).2=front.length := by
    rw [argsAfter,ShellStages.buildArgs_place hstops hafter,Nat.zero_add]
  rw [hplace,List.length_append,List.length_cons]
  cases hlast : after.getLast? with
  | none =>
    have hnil : after=[] := List.getLast?_eq_none_iff.mp hlast
    have hsame : separator=symbol := (hsymbol separator (by simp)).mp hstops
    rw [hnil,hsame,List.getLast?_concat,List.length_nil]
    exact ⟨fun h => absurd h (by omega),fun h => absurd rfl h⟩
  | some token =>
    have hmem : token∈after := List.mem_of_getLast? hlast
    have hpos := List.length_pos_of_mem hmem
    have htoken : (front++separator::after).getLast?=some token := by
      rw [List.getLast?_append,List.getLast?_cons,hlast]
      rfl
    rw [htoken]
    refine ⟨fun _ hsame => ?_,fun _ => by omega⟩
    have hno := hafter token hmem
    rw [(hsymbol token (by simp [hmem])).mpr (Option.some.inj hsame)] at hno
    cases hno

end LastOperator

/-- A world in which every request succeeds and every program ends with a given status. -/
def endsWith (status : Status) : World (Token × List Token) (Request ⊕ Access) where
  execvp := fun _ _ => some status
  request := fun _ _ => true
  leave := fun _ => status

/-- The status after which the second command is run. -/
def goOnStatus : Logic → Status
  | .logicalAnd => .exited 0
  | .logicalOr => .exited 1

section Outside

variable {world : World (Token × List Token) (Request ⊕ Access)} {fate : Pid → Fate} {p : Pid}
  {forks : ℕ} {tokens : List Token} {stops : Token → Bool}

/-- The first command of a boolean operator or pipe starts its program. -/
theorem agrees_first {head : Token} {status : Status} (hfirst : tokens[0]?=some head)
    (hexec : world.execvp p (head,argsBefore stops tokens)=some status)
    (hfate : fate p=.runs status) :
    Agrees world fate p forks (overTokens tokens (beforeBody stops) [] >>= fun args =>
      svecGet tokens 0 >>= fun file => execvp (file,args)) := by
  rw [before_bind,svecGet_inside hfirst,announce_bind,pure_bind_code]
  refine agrees_announce _ (agrees_announce _ ?_)
  unfold execvp
  rw [Agrees,hexec]
  exact hfate

/-- The second command is read outside the vector where the line ends with the
operator. -/
theorem second_outside (h : tokens.length≤(argsAfter stops tokens).2+1)
    (f : Bool × List Token × ℕ → Token → Watched Unit) : ∃ found,
    (overTokens tokens (afterBody stops) (false,[],0) >>=
        fun built => svecGet tokens (built.2.2+1) >>= f built)=
      announce found (announce [⟨(argsAfter stops tokens).2+1,tokens.length⟩] .abort) := by
  refine ⟨reads tokens.length (afterBody stops) tokens 0 (false,[],0),?_⟩
  rw [overTokens_bind,scan_after]
  exact congrArg (announce _) (congrArg (· >>= f _) (svecGet_outside h))

end Outside

/-- A boolean operator reads inside the vector when a token stands behind the last
one. -/
theorem safe_executeLogic {tokens : List Token} (op : Logic)
    (h : ∃ token∈tokens, strncmp token op.symbol 2=true) : Safe (executeLogic tokens op) ↔
      (argsAfter (fun token => strncmp token op.symbol 2) tokens).2+1<tokens.length := by
  obtain ⟨hne,head,hfirst⟩ := first_of_match h
  constructor
  · intro hsafe
    by_contra hlate
    have houtside := Nat.le_of_not_lt hlate
    have hgoes : op.goesOn (goOnStatus op)=true := by cases op <;> rfl
    obtain ⟨found,hsecond⟩ := second_outside houtside (fun built command =>
      if strncmp command [101,120,105,116] 4 then exit 0
      else svecGet tokens (built.2.2+1) >>= fun command => execvp (command,built.2.1))
    have hagrees : Agrees (endsWith (goOnStatus op))
        (rootAndChild (.ends .signaled) (.runs (goOnStatus op))) [] 0 (executeLogic tokens op) := by
      unfold executeLogic
      rw [fork_bind,Agrees]
      refine ⟨agrees_first hfirst rfl rfl,?_⟩
      dsimp only
      rw [waitpid_bind,Agrees]
      refine ⟨Nat.zero_lt_one,?_⟩
      show Agrees _ _ _ _ (if op.goesOn (goOnStatus op) then _ else _)
      rw [if_pos hgoes,hsecond]
      exact agrees_announce _ (agrees_announce _ rfl)
    refine not_safe_of_asks hagrees (Multiset.mem_add.mpr (Or.inl ?_)) houtside hsafe
    show _∈asks _ _ _ _ _ (if op.goesOn (goOnStatus op) then _ else _)
    rw [if_pos hgoes,hsecond,asks_announce,asks_announce]
    exact Multiset.mem_add.mpr (Or.inr (Multiset.mem_add.mpr (Or.inl
      (Multiset.mem_coe.mpr List.mem_cons_self))))
  · intro hinside
    refine safe_of_only (fun child => ?_)
    cases child with
    | none => exact only_first hne _
    | some cpid =>
      intro status
      show Only _ _ (if op.goesOn status then _ else _)
      split_ifs
      · refine only_loop _ _ _ ?_
        rw [scan_after]
        have hat := List.getElem?_eq_getElem hinside
        refine only_read hat ?_
        split_ifs
        · trivial
        · exact only_read hat (only_execvp _)
      · trivial

/-- A pipe reads inside the vector when a token stands behind the last one. -/
theorem safe_executePipe {tokens : List Token} (h : ∃ token∈tokens, isPipe token=true) :
    Safe (executePipe tokens) ↔ (argsAfter isPipe tokens).2+1<tokens.length := by
  obtain ⟨hne,head,hfirst⟩ := first_of_match h
  constructor
  · intro hsafe
    by_contra hlate
    have houtside := Nat.le_of_not_lt hlate
    obtain ⟨found,hsecond⟩ := second_outside houtside
      (fun built file => execvp (file,built.2.1))
    have hwriter : Agrees (endsWith (.exited 0)) (pipeFate (.runs (.exited 0)) (.ends .signaled))
        [0,0] 0 (pipeWriter tokens) := agrees_first hfirst rfl rfl
    have hreader : Agrees (endsWith (.exited 0)) (pipeFate (.runs (.exited 0)) (.ends .signaled))
        [0,1] 0 (pipeReader tokens) := by
      show Agrees _ _ _ _ (overTokens tokens (afterBody isPipe) (false,[],0) >>= fun built =>
        svecGet tokens (built.2.2+1) >>= fun file => execvp (file,built.2.1))
      rw [hsecond]
      exact agrees_announce _ (agrees_announce _ rfl)
    have hagrees : Agrees (endsWith (.exited 0))
        (pipeFate (.runs (.exited 0)) (.ends .signaled)) [] 0 (executePipe tokens) :=
      ⟨⟨hwriter,hreader,by decide,by decide,rfl⟩,Nat.zero_lt_one,rfl⟩
    have hmem : ⟨(argsAfter isPipe tokens).2+1,tokens.length⟩∈asks accesses
        (endsWith (.exited 0)) (pipeFate (.runs (.exited 0)) (.ends .signaled)) [0,1] 0
        (pipeReader tokens) := by
      show _∈0+(0+(0+(0+asks accesses _ _ _ _ (overTokens tokens (afterBody isPipe)
        (false,[],0) >>= fun built => svecGet tokens (built.2.2+1) >>= fun file =>
        execvp (file,built.2.1)))))
      rw [hsecond,zero_add,zero_add,zero_add,zero_add,asks_announce,asks_announce]
      exact Multiset.mem_add.mpr (Or.inr (Multiset.mem_add.mpr (Or.inl
        (Multiset.mem_coe.mpr List.mem_cons_self))))
    refine not_safe_of_asks hagrees (Multiset.mem_add.mpr (Or.inr ?_)) houtside hsafe
    refine Multiset.mem_add.mpr (Or.inr (Multiset.mem_add.mpr (Or.inl ?_)))
    exact Multiset.mem_add.mpr (Or.inr hmem)
  · intro hinside
    have hreader : Only Inside (fun _ => True) (pipeReader tokens) := by
      refine only_bind (only_ask _ (fun _ => only_require _ ?_))
      refine only_bind (only_ask _ (fun _ => only_bind (only_ask _ (fun _ => ?_))))
      refine only_loop _ _ _ ?_
      rw [scan_after]
      exact only_read (List.getElem?_eq_getElem hinside) (only_execvp _)
    have hwriter : Only Inside (fun _ => True) (pipeWriter tokens) := by
      refine only_bind (only_ask _ (fun _ => only_require _ ?_))
      exact only_bind (only_ask _ (fun _ => only_bind (only_ask _ (fun _ => only_first hne _))))
    refine safe_of_only (fun wrapper => ?_)
    cases wrapper with
    | some cpidwrap => exact fun _ => trivial
    | none =>
      refine only_require _ (fun first => ?_)
      cases first with
      | none => exact hwriter
      | some cpid1 =>
        intro second
        cases second with
        | none => exact hreader
        | some cpid2 => exact ⟨trivial,fun _ => ⟨trivial,fun _ _ _ => trivial⟩⟩

/-! ## Whole lines -/

/-- A token matches an operator exactly when it is that operator. -/
theorem match_iff {tokens : List Token} (h : ∀ token∈tokens, WellFormed token) {symbol : Token}
    {n : ℕ} (hsymbol : (symbol,n)∈[([60],1),([62],1),([38,38],2),([124,124],2)]) :
    ∀ token∈tokens, strncmp token symbol n=true ↔ token=symbol := by
  intro token ht
  refine ⟨ShellStages.token_of_match (h token ht) hsymbol,?_⟩
  rintro rfl
  exact decide_eq_true rfl

/-- Every read of every run is inside its vector, and no process gets where nothing is
known of it, exactly when the line is guarded. -/
theorem reads_inside_iff (line : List UInt8) :
    Safe (execute (tokenize line)) ↔ Guarded (tokenize line) := by
  have hform := tokenize_wellFormed line
  generalize tokenize line=cmd at hform ⊢
  have hfound : ∀ {symbol : Token} {n : ℕ}, ShellExecute.svecContains cmd symbol n=true →
      ∃ token∈cmd, strncmp token symbol n=true := fun h => List.any_eq_true.mp h
  obtain ⟨found,hinside,hexecute⟩ := execute_eq cmd
  rw [hexecute,safe_announce]
  refine (and_iff_right hinside).trans ?_
  unfold branch Guarded
  split_ifs with hin hout hand hor hpipe hback
  · exact safe_executeRedirect .redirectIn (hfound hin)
  · exact safe_executeRedirect .redirectOut (hfound hout)
  · exact (safe_executeLogic .logicalAnd (hfound hand)).trans
      (behind_last_iff (hfound hand) (match_iff hform (by decide)))
  · exact (safe_executeLogic .logicalOr (hfound hor)).trans
      (behind_last_iff (hfound hor) (match_iff hform (by decide)))
  · have hsome := exists_isPipe hform (Bool.not_eq_true _ ▸ hor) hpipe
    exact (safe_executePipe hsome).trans
      (behind_last_iff hsome (fun token _ => ShellStages.isPipe_iff token))
  · exact iff_of_true (safe_executeBackground (first_of_match (hfound hback)).1) trivial
  · exact safe_executeBaseCase cmd

/-- On an empty line the shell reads the first of no tokens, and is killed by the
assertion. -/
theorem empty_line_outside : tokenize []=[] ∧
    ∃ last, follow (step (endsWith (.exited 0))) Anything [[],[]] (start (execute (tokenize [])))=
        some last ∧
      ⟨0,0⟩∈noted accesses (endsWith (.exited 0)) [[],[]] (start (execute (tokenize []))) ∧
      last []=some ⟨.ended .signaled,0⟩ :=
  ⟨rfl,_,rfl,Multiset.mem_add.mpr (Or.inl (Multiset.mem_singleton_self _)),rfl⟩

end ComputerSystems.ShellBounds
