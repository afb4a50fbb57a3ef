import Xv6.Lib.CString
import Xv6.Lib.Halt

/-!
# The parser of the shell

`sh.c` from `gettoken` to `nulterminate`. The input is a line of characters with a NUL behind
it; positions in it are indices, and looking behind the NUL is a stop of its own. Loops and
recursive calls have fuel. A word of the tree is the pair of positions between which it stands.
-/

namespace Xv6.Shell

open CString

def MAXARGS : ℕ := 10

/-- The two kinds of redirection the parser makes: with `O_RDONLY` on descriptor 0, and with
`O_WRONLY|O_CREATE` on descriptor 1. -/
inductive Redir
  | input
  | output
  deriving DecidableEq

def Redir.fd : Redir → ℕ
  | .input => 0
  | .output => 1

/-- `struct cmd` -/
inductive Cmd (W : Type)
  | exec (argv : List W)
  | redir (cmd : Cmd W) (file : W) (r : Redir)
  | pipe (left right : Cmd W)
  | list (left right : Cmd W)
  | back (cmd : Cmd W)
  deriving DecidableEq

/-- A word is appended to `argv` of the `execcmd` under the redirections. -/
def Cmd.push {W : Type} (a : W) : Cmd W → Cmd W
  | .exec argv => .exec (argv ++ [a])
  | .redir cmd file r => .redir (cmd.push a) file r
  | cmd => cmd

inductive Stop
  | panic (msg : String)
  /-- a character behind the NUL was looked at -/
  | overrun
  | fuel
  deriving DecidableEq

/-- The state is `*ps`. -/
abbrev P := StateT ℕ (Except Stop)

/-- `q` and `eq` -/
abbrev Span := ℕ × ℕ

def whitespace : List Char := [' ', '\t', '\r', '\n', '\x0b']
def symbols : List Char := ['<', '|', '>', '&', ';', '(', ')']

section

variable (line : List Char)

/-- `*s` -/
def deref (s : ℕ) : P Char :=
  if s ≤ line.length then pure (line.getD s NUL) else throw .overrun

/-- `while(s < es && strchr(whitespace, *s)) s++` -/
def skip (s : ℕ) : ℕ := s + ((line.drop s).takeWhile (· ∈ whitespace)).length

/-- `while(s < es && !strchr(whitespace, *s) && !strchr(symbols, *s)) s++` -/
def skipWord (s : ℕ) : ℕ :=
  s + ((line.drop s).takeWhile fun c => c ∉ whitespace ∧ c ∉ symbols).length

/-- The `switch` of `gettoken`. -/
def scan (q : ℕ) : P (Char × ℕ) := do
  let c ← deref line q
  if c = NUL then return (c, q)
  else if c ∈ ['|', '(', ')', ';', '&', '<'] then return (c, q + 1)
  else if c = '>' then
    let d ← deref line (q + 1)
    if d = '>' then return ('+', q + 2) else return (c, q + 1)
  else return ('a', skipWord line q)

def gettoken : P (Char × Span) := do
  let q := skip line (← get)
  let (ret, eq) ← scan line q
  set (skip line eq)
  return (ret, q, eq)

def peek (toks : List Char) : P Bool := do
  let s := skip line (← get)
  set s
  let c ← deref line s
  return decide (c ≠ NUL ∧ c ∈ toks)

def parseredirs : ℕ → Cmd Span → P (Cmd Span)
  | 0, _ => throw .fuel
  | fuel + 1, cmd => do
    if ← peek line ['<', '>'] then
      let (tok, _) ← gettoken line
      let (ret, file) ← gettoken line
      if ret ≠ 'a' then throw (.panic "missing file for redirection")
      -- `>>` is not told from `>`
      parseredirs fuel (.redir cmd file (if tok = '<' then .input else .output))
    else return cmd

/-- The `while` of `parseexec`. -/
def execLoop : ℕ → ℕ → Cmd Span → P (Cmd Span)
  | 0, _, _ => throw .fuel
  | fuel + 1, argc, ret => do
    if ← peek line ['|', ')', '&', ';'] then return ret
    let (tok, a) ← gettoken line
    if tok = NUL then return ret
    if tok ≠ 'a' then throw (.panic "syntax")
    if MAXARGS ≤ argc + 1 then throw (.panic "too many args")
    let ret ← parseredirs line fuel (ret.push a)
    execLoop fuel (argc + 1) ret

/-- The `while` of `parseline`. -/
def backLoop : ℕ → Cmd Span → P (Cmd Span)
  | 0, _ => throw .fuel
  | fuel + 1, cmd => do
    if ← peek line ['&'] then
      let _ ← gettoken line
      backLoop fuel (.back cmd)
    else return cmd

mutual

def parseline : ℕ → P (Cmd Span)
  | 0 => throw .fuel
  | fuel + 1 => do
    let cmd ← parsepipe fuel
    let cmd ← backLoop line fuel cmd
    if ← peek line [';'] then
      let _ ← gettoken line
      let right ← parseline fuel
      return .list cmd right
    else return cmd

def parsepipe : ℕ → P (Cmd Span)
  | 0 => throw .fuel
  | fuel + 1 => do
    let cmd ← parseexec fuel
    if ← peek line ['|'] then
      let _ ← gettoken line
      let right ← parsepipe fuel
      return .pipe cmd right
    else return cmd

def parseexec : ℕ → P (Cmd Span)
  | 0 => throw .fuel
  | fuel + 1 => do
    if ← peek line ['('] then parseblock fuel
    else
      let ret ← parseredirs line fuel (.exec [])
      execLoop line fuel 0 ret

def parseblock : ℕ → P (Cmd Span)
  | 0 => throw .fuel
  | fuel + 1 => do
    if !(← peek line ['(']) then throw (.panic "parseblock")
    let _ ← gettoken line
    let cmd ← parseline fuel
    if !(← peek line [')']) then throw (.panic "syntax - missing )")
    let _ ← gettoken line
    parseredirs line fuel cmd

end

end

/-- The words of a command, where they end. -/
def nulterminate : Cmd Span → List Char → List Char
  | .exec argv, mem => argv.foldl (fun mem a => mem.set a.2 NUL) mem
  | .redir cmd file _, mem => (nulterminate cmd mem).set file.2 NUL
  | .pipe left right, mem => nulterminate right (nulterminate left mem)
  | .list left right, mem => nulterminate right (nulterminate left mem)
  | .back cmd, mem => nulterminate cmd mem

/-- The calls of `parsecmd` that look at the line. -/
def parseall (line : List Char) (fuel : ℕ) : P (Cmd Span) := do
  let cmd ← parseline line fuel
  let _ ← peek line []
  return cmd

/-- The tree and what has become of the line. -/
def parsecmd (fuel : ℕ) (line : List Char) : Except Stop (Cmd Span × List Char) := do
  let (cmd, s) ← (parseall line fuel).run 0
  if s ≠ line.length then throw (.panic "syntax")
  return (cmd, nulterminate cmd (line ++ [NUL]))

end Xv6.Shell
