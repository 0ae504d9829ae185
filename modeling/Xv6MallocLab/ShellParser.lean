import Xv6MallocLab.CStrings

/-!
# The parser of the shell

The functions above the scanner know the line only through `peek` and `gettoken`, so they
are written over any such input; the shell's own is a pointer into the line.  `malloc` is
taken to succeed, and a call may run for `fuel` nested steps.
-/

namespace Xv6MallocLab.Shell

open ByteMemory

def bar : UInt8 := 124
def lparen : UInt8 := 40
def rparen : UInt8 := 41
def semicolon : UInt8 := 59
def ampersand : UInt8 := 38
def less : UInt8 := 60
def greater : UInt8 := 62

def plus : UInt8 := 43

def letterA : UInt8 := 97

/-- The string `whitespace`: blank, tab, carriage return, newline, vertical tab. -/
def whitespace : List UInt8 := [32, 9, 13, 10, 11]

def symbols : List UInt8 := [less, bar, greater, ampersand, semicolon, lparen, rparen]

def maxargs : ℕ := 10

def strchr (s : List UInt8) (c : UInt8) : Bool := s.contains c

/-- `struct cmd`, over what its words are. -/
inductive Cmd (ω : Type)
  | exec (argv : List ω)
  | redir (cmd : Cmd ω) (file : ω) (mode fd : ℕ)
  | pipe (left right : Cmd ω)
  | list (left right : Cmd ω)
  | back (cmd : Cmd ω)
  deriving DecidableEq, Repr

def oRdonly : ℕ := 0x000

def oWronly : ℕ := 0x001

def oCreate : ℕ := 0x200

def oTrunc : ℕ := 0x400

/-- `panic` ends the shell; `fuel` is no error of it. -/
inductive Stop
  | panic (msg : String)
  | fuel
  deriving DecidableEq, Repr

structure Input (σ ω : Type) where
  peek : List UInt8 → σ → Bool × σ
  gettoken : σ → UInt8 × ω × σ

section Parser

variable {σ ω : Type} (inp : Input σ ω)

/-- A store to `argv` of the `execcmd` that the redirections in `ret` are wrapped around. -/
def Cmd.addArg : Cmd ω → ω → Cmd ω
  | .exec argv, w => .exec (argv ++ [w])
  | .redir cmd file mode fd, w => .redir (cmd.addArg w) file mode fd
  | cmd, _ => cmd

def redirect (tok : UInt8) (cmd : Cmd ω) (q : ω) : Cmd ω :=
  if tok = less then .redir cmd q oRdonly 0
  else if tok = greater then .redir cmd q (oWronly ||| oCreate ||| oTrunc) 1
  else if tok = plus then .redir cmd q (oWronly ||| oCreate) 1
  else cmd

/-- `parseredirs`: `cmd` in the redirections that follow. -/
def parseredirs : (fuel : ℕ) → Cmd ω → σ → Except Stop (Cmd ω × σ)
  | 0, _, _ => .error .fuel
  | fuel + 1, cmd, ps =>
    let (more, ps) := inp.peek [less, greater] ps
    if more then
      let (tok, _, ps) := inp.gettoken ps
      let (file, q, ps) := inp.gettoken ps
      if file ≠ letterA then .error (.panic "missing file for redirection")
      else parseredirs fuel (redirect tok cmd q) ps
    else .ok (cmd, ps)

def argLoop : (fuel : ℕ) → (argc : ℕ) → Cmd ω → σ → Except Stop (Cmd ω × σ)
  | 0, _, _, _ => .error .fuel
  | fuel + 1, argc, ret, ps =>
    let (stop, ps) := inp.peek [bar, rparen, ampersand, semicolon] ps
    if stop then .ok (ret, ps)
    else
      let (tok, q, ps) := inp.gettoken ps
      if tok = 0 then .ok (ret, ps)
      else if tok ≠ letterA then .error (.panic "syntax")
      else if maxargs ≤ argc + 1 then .error (.panic "too many args")
      else do
        let (ret, ps) ← parseredirs inp fuel (ret.addArg q) ps
        argLoop fuel (argc + 1) ret ps

def backLoop : (fuel : ℕ) → Cmd ω → σ → Except Stop (Cmd ω × σ)
  | 0, _, _ => .error .fuel
  | fuel + 1, cmd, ps =>
    let (more, ps) := inp.peek [ampersand] ps
    if more then
      let (_, _, ps) := inp.gettoken ps
      backLoop fuel (.back cmd) ps
    else .ok (cmd, ps)

mutual

/-- `parseline`: a pipe, `&`s behind it, and the line after a `;`. -/
def parseline : (fuel : ℕ) → σ → Except Stop (Cmd ω × σ)
  | 0, _ => .error .fuel
  | fuel + 1, ps => do
      let (cmd, ps) ← parsepipe fuel ps
      let (cmd, ps) ← backLoop inp fuel cmd ps
      let (more, ps) := inp.peek [semicolon] ps
      if more then do
        let (_, _, ps) := inp.gettoken ps
        let (right, ps) ← parseline fuel ps
        return (.list cmd right, ps)
      else return (cmd, ps)

/-- `parsepipe`: commands with `|` between them. -/
def parsepipe : (fuel : ℕ) → σ → Except Stop (Cmd ω × σ)
  | 0, _ => .error .fuel
  | fuel + 1, ps => do
      let (cmd, ps) ← parseexec fuel ps
      let (more, ps) := inp.peek [bar] ps
      if more then do
        let (_, _, ps) := inp.gettoken ps
        let (right, ps) ← parsepipe fuel ps
        return (.pipe cmd right, ps)
      else return (cmd, ps)

/-- `parseexec`: a block, or words and redirections. -/
def parseexec : (fuel : ℕ) → σ → Except Stop (Cmd ω × σ)
  | 0, _ => .error .fuel
  | fuel + 1, ps =>
    let (block, ps) := inp.peek [lparen] ps
    if block then parseblock fuel ps
    else do
      let (ret, ps) ← parseredirs inp fuel (.exec []) ps
      argLoop inp fuel 0 ret ps

/-- `parseblock`: a line in parentheses. -/
def parseblock : (fuel : ℕ) → σ → Except Stop (Cmd ω × σ)
  | 0, _ => .error .fuel
  | fuel + 1, ps => do
      let (opened, ps) := inp.peek [lparen] ps
      if !opened then .error (.panic "parseblock")
      else do
        let (_, _, ps) := inp.gettoken ps
        let (cmd, ps) ← parseline fuel ps
        let (closed, ps) := inp.peek [rparen] ps
        if !closed then .error (.panic "syntax - missing )")
        else do
          let (_, _, ps) := inp.gettoken ps
          parseredirs inp fuel cmd ps

end

end Parser

def skip (m : Memory) (cond : UInt8 → Bool) : (n : ℕ) → (s : ℕ) → ℕ
  | 0, s => s
  | n + 1, s => if cond (m s) then skip m cond n (s + 1) else s

def wordChar (c : UInt8) : Bool := !strchr whitespace c && !strchr symbols c

/-- `peek`: whether the next character is one of `toks`. -/
def peek (m : Memory) (es : ℕ) (toks : List UInt8) (ps : ℕ) : Bool × ℕ :=
  let s := skip m (strchr whitespace) (es - ps) ps
  (m s ≠ 0 && strchr toks (m s), s)

def token (m : Memory) (es s : ℕ) : UInt8 × ℕ :=
  if m s = 0 then (m s, s)
  else if m s = bar ∨ m s = lparen ∨ m s = rparen ∨ m s = semicolon ∨ m s = ampersand ∨ m s = less then
    (m s, s + 1)
  else if m s = greater then
    if m (s + 1) = greater then (plus, s + 2) else (m s, s + 1)
  else (letterA, skip m wordChar (es - s) s)

/-- `gettoken`: the token, its two ends, and the position after it. -/
def gettoken (m : Memory) (es ps : ℕ) : UInt8 × (ℕ × ℕ) × ℕ :=
  let q := skip m (strchr whitespace) (es - ps) ps
  let (ret, eq) := token m es q
  (ret, (q, eq), skip m (strchr whitespace) (es - eq) eq)

def lineInput (m : Memory) (es : ℕ) : Input ℕ (ℕ × ℕ) where
  peek := peek m es
  gettoken := gettoken m es

/-- The loop over the words of a command ends at a null pointer. -/
def nulterminate : Cmd (ℕ × ℕ) → Memory → Memory
  | .exec argv, m => (argv.takeWhile (·.1 ≠ 0)).foldl (fun m q => Function.update m q.2 0) m
  | .redir cmd file _ _, m => Function.update (nulterminate cmd m) file.2 0
  | .pipe left right, m => nulterminate right (nulterminate left m)
  | .list left right, m => nulterminate right (nulterminate left m)
  | .back cmd, m => nulterminate cmd m

/-- `parsecmd`: the command, and the line with its words terminated. -/
def parsecmd (fuel : ℕ) (m : Memory) (s : ℕ) : Except Stop (Cmd (ℕ × ℕ) × Memory) :=
  match scanBytes (· != 0) m fuel s with
  | none => .error .fuel
  | some es => do
      let (cmd, ps) ← parseline (lineInput m es) fuel s
      let (_, ps) := peek m es [] ps
      if ps ≠ es then .error (.panic "syntax")
      else return (cmd, nulterminate cmd m)

end Xv6MallocLab.Shell
