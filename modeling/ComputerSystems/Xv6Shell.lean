import Mathlib.Data.List.Basic
import Mathlib.Data.List.TakeWhile
import Mathlib.Tactic.Common

/-!
# The parser of the xv6 shell

`sh.c` parses a line by recursive descent into a tree of commands. Words stay
where they are in the line: the tree points to their beginnings and ends, and
`nulterminate` writes the terminators once the whole line is parsed.
-/

namespace ComputerSystems.Xv6Shell

/-- `whitespace`. -/
def whitespace : List UInt8 := [32,9,13,10,11]

/-- `symbols`: the characters `<`, `|`, `>`, `&`, `;` and the parentheses. -/
def symbols : List UInt8 := [60,124,62,38,59,40,41]

/-- `MAXARGS`. -/
def maxArgs : ℕ := 10

/-- White space, as `strchr` finds it. -/
def isSpace (c : UInt8) : Bool := decide (c∈whitespace)

/-- A character of a word: neither white space nor a symbol. -/
def isArg (c : UInt8) : Bool := !isSpace c && decide (c∉symbols)

/-- The beginning and the end of a word. A pointer into the line is what is left
of the line there. -/
structure Word where
  /-- The line from the word on. -/
  q : List UInt8
  /-- The line after the word. -/
  eq : List UInt8
  deriving DecidableEq

/-- The characters of a word. -/
def Word.text (w : Word) : List UInt8 := w.q.take (w.q.length-w.eq.length)

/-- `struct cmd`, with what its words are. -/
inductive Cmd (α : Type)
  /-- `EXEC`. -/
  | exec (argv : List α)
  /-- `REDIR`. -/
  | redir (cmd : Cmd α) (file : α) (mode fd : ℕ)
  /-- `PIPE`. -/
  | pipe (left right : Cmd α)
  /-- `LIST`. -/
  | list (left right : Cmd α)
  /-- `BACK`. -/
  | back (cmd : Cmd α)
  deriving DecidableEq

/-- Why there is no tree. -/
inductive Failure
  /-- `panic`, with its text. -/
  | panic (text : String)
  /-- The bound on the depth was reached. -/
  | tooDeep
  deriving DecidableEq

variable {α β : Type}

/-- `O_RDONLY`. -/
def oRdonly : ℕ := 0

/-- `O_WRONLY|O_CREATE`. -/
def oWronlyCreate : ℕ := 513

/-! ## Tokens -/

/-- The loop that goes over white space. -/
def skip (s : List UInt8) : List UInt8 := s.dropWhile isSpace

/-- The switch of `gettoken`: the token at a character that is not white space, and
what follows it. -/
def scanToken : List UInt8 → UInt8 × List UInt8
  | [] => (0,[])
  | c::s =>
    if c=124 ∨ c=40 ∨ c=41 ∨ c=59 ∨ c=38 ∨ c=60 then (c,s)
    else if c=62 then
      match s with
      | 62::u => (43,u)
      | _ => (62,s)
    else (97,(c::s).dropWhile isArg)

/-- `gettoken`: the token, where it begins and ends, and what is left behind it. -/
def gettoken (s : List UInt8) : UInt8 × Word × List UInt8 :=
  ((scanToken (skip s)).1,⟨skip s,(scanToken (skip s)).2⟩,skip (scanToken (skip s)).2)

/-- The test of `peek`; that `peek` moves the pointer is written where it is called. -/
def peek (s toks : List UInt8) : Bool :=
  match skip s with
  | [] => false
  | c::_ => decide (c∈toks)

/-! ## Commands -/

/-- A word is added to the arguments of the command inside of redirections. -/
def Cmd.pushArg (w : α) : Cmd α → Cmd α
  | .exec argv => .exec (argv++[w])
  | .redir cmd file mode fd => .redir (cmd.pushArg w) file mode fd
  | .pipe left right => .pipe left right
  | .list left right => .list left right
  | .back cmd => .back cmd

/-- The redirection of a token. -/
def redircmd (cmd : Cmd Word) (file : Word) (tok : UInt8) : Cmd Word :=
  if tok=60 then .redir cmd file oRdonly 0
  else if tok=62 then .redir cmd file oWronlyCreate 1
  else if tok=43 then .redir cmd file oWronlyCreate 1
  else cmd

/-- `parseredirs`, with a bound on its rounds. -/
def parseredirs : ℕ → Cmd Word → List UInt8 → Except Failure (Cmd Word × List UInt8)
  | 0,_,_ => .error .tooDeep
  | n+1,cmd,s =>
    if peek s [60,62] then
      let sign := gettoken s
      let name := gettoken sign.2.2
      if name.1=97 then parseredirs n (redircmd cmd name.2.1 sign.1) name.2.2
      else .error (.panic "missing file for redirection")
    else .ok (cmd,skip s)

/-- The loop of `parseexec`, with a bound on its rounds. -/
def argLoop : ℕ → ℕ → Cmd Word → List UInt8 → Except Failure (Cmd Word × List UInt8)
  | 0,_,_,_ => .error .tooDeep
  | n+1,argc,ret,s =>
    if peek s [124,41,38,59] then .ok (ret,skip s)
    else
      let arg := gettoken s
      if arg.1=0 then .ok (ret,arg.2.2)
      else if arg.1≠97 then .error (.panic "syntax")
      else if argc+1≥maxArgs then .error (.panic "too many args")
      else do
        let (ret,s) ← parseredirs (n+1) (ret.pushArg arg.2.1) arg.2.2
        argLoop n (argc+1) ret s

/-- The loop of `parseline` over the signs `&`, with a bound on its rounds. -/
def backLoop : ℕ → Cmd Word → List UInt8 → Cmd Word × List UInt8
  | 0,cmd,s => (cmd,skip s)
  | n+1,cmd,s => if peek s [38] then backLoop n (.back cmd) (gettoken s).2.2 else (cmd,skip s)

mutual

/-- `parseline`. -/
def parseline : ℕ → List UInt8 → Except Failure (Cmd Word × List UInt8)
  | 0,_ => .error .tooDeep
  | n+1,s => do
    let (cmd,s) ← parsepipe n s
    let (cmd,s) := backLoop s.length cmd s
    if peek s [59] then do
      let (right,s) ← parseline n (gettoken s).2.2
      .ok (.list cmd right,s)
    else .ok (cmd,skip s)

/-- `parsepipe`. -/
def parsepipe : ℕ → List UInt8 → Except Failure (Cmd Word × List UInt8)
  | 0,_ => .error .tooDeep
  | n+1,s => do
    let (cmd,s) ← parseexec n s
    if peek s [124] then do
      let (right,s) ← parsepipe n (gettoken s).2.2
      .ok (.pipe cmd right,s)
    else .ok (cmd,skip s)

/-- `parseexec`. -/
def parseexec : ℕ → List UInt8 → Except Failure (Cmd Word × List UInt8)
  | 0,_ => .error .tooDeep
  | n+1,s =>
    if peek s [40] then parseblock n s
    else do
      let (ret,s) ← parseredirs (n+1) (.exec []) s
      argLoop (n+1) 0 ret s

/-- `parseblock`. -/
def parseblock : ℕ → List UInt8 → Except Failure (Cmd Word × List UInt8)
  | 0,_ => .error .tooDeep
  | n+1,s =>
    if peek s [40] then do
      let (cmd,s) ← parseline n (gettoken s).2.2
      if peek s [41] then parseredirs (n+1) cmd (gettoken s).2.2
      else .error (.panic "syntax - missing )")
    else .error (.panic "parseblock")

end

/-- The parse of `parsecmd`, which leaves nothing of the line behind. -/
def parse (line : List UInt8) : Except Failure (Cmd Word) := do
  let (cmd,s) ← parseline (4*line.length+4) line
  if skip s=[] then .ok cmd else .error (.panic "syntax")

/-- A terminator is written at the end of a word. -/
def terminate (w : Word) (memory : List UInt8) : List UInt8 :=
  memory.set (memory.length-w.eq.length) 0

/-- `nulterminate`. -/
def nulterminate : Cmd Word → List UInt8 → List UInt8
  | .exec argv,memory => argv.foldl (fun memory w => terminate w memory) memory
  | .redir cmd file _ _,memory => terminate file (nulterminate cmd memory)
  | .pipe left right,memory => nulterminate right (nulterminate left memory)
  | .list left right,memory => nulterminate right (nulterminate left memory)
  | .back cmd,memory => nulterminate cmd memory

/-- The string at the beginning of a word. -/
def stringAt (memory : List UInt8) (w : Word) : List UInt8 :=
  (memory.drop (memory.length-w.q.length)).takeWhile (fun c => decide (c≠0))

/-- The words of a tree are replaced. -/
def Cmd.map (f : α → β) : Cmd α → Cmd β
  | .exec argv => .exec (argv.map f)
  | .redir cmd file mode fd => .redir (cmd.map f) (f file) mode fd
  | .pipe left right => .pipe (left.map f) (right.map f)
  | .list left right => .list (left.map f) (right.map f)
  | .back cmd => .back (cmd.map f)

/-- The line in a buffer, up to its terminator: what `strlen` counts. -/
def lineOf (buffer : List UInt8) : List UInt8 := buffer.takeWhile (fun c => decide (c≠0))

/-- `parsecmd`: the tree, with its words as they are in memory afterwards. -/
def parsecmd (buffer : List UInt8) : Except Failure (Cmd (List UInt8)) := do
  let cmd ← parse (lineOf buffer)
  .ok (cmd.map (stringAt (nulterminate cmd (lineOf buffer))))

end ComputerSystems.Xv6Shell
