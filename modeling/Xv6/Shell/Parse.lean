import Mathlib

/-!
# The command-line parser of the shell

`sh.c` from `gettoken` to `nulterminate`. A pointer into the line is its distance from the start, and the text of an
argument or of a file name is kept as the positions where it starts and ends. The parser is a recursive descent, so its
functions take the depth to which they may call each other.
-/

namespace Xv6.Shell

abbrev maxArgs : Nat := 10

def oRdonly : Nat := 0x000
def oWronly : Nat := 0x001
def oCreate : Nat := 0x200

abbrev Span : Type := Nat × Nat

inductive Cmd where
  | exec (argv : List Span)
  | redir (cmd : Cmd) (file : Span) (mode fd : Nat)
  | pipe (left right : Cmd)
  | list (left right : Cmd)
  | back (cmd : Cmd)
deriving DecidableEq

inductive Panic where
  | leftovers | missingFile | parseblock | missingParen | unexpected | tooManyArgs | pipe | fork
deriving DecidableEq

/-- Why a parsing function gives no command; `depth` stands for a call that was not allowed to go deep enough. -/
inductive Stop where
  | panic (p : Panic) | depth
deriving DecidableEq

/-! ### Tokens -/

def code (c : Char) : UInt8 := c.toNat.toUInt8

def whitespace : List UInt8 := [' ', '\t', '\r', '\n', '\x0b'].map code

def symbols : List UInt8 := ['<', '|', '>', '&', ';', '(', ')'].map code

/-- The line up to the first NUL is what the parser sees. -/
def strlen (b : List UInt8) : Nat := (b.takeWhile (· ≠ 0)).length

def byte (b : List UInt8) (i : Nat) : UInt8 := b.getD i 0

def scan (p : UInt8 → Bool) (b : List UInt8) : Nat → Nat → Nat
  | 0, s => s
  | n + 1, s => if p (byte b s) then scan p b n (s + 1) else s

def skip (b : List UInt8) (es s : Nat) : Nat := scan whitespace.contains b (es - s) s

/-- What `gettoken` returns: `eof` is 0, `append` is '+' and `word` is 'a'. -/
inductive Tok where
  | eof | bar | lparen | rparen | semi | amp | lt | gt | append | word
deriving DecidableEq

def Tok.ofByte? (c : UInt8) : Option Tok :=
  if c = code '|' then some .bar
  else if c = code '(' then some .lparen
  else if c = code ')' then some .rparen
  else if c = code ';' then some .semi
  else if c = code '&' then some .amp
  else if c = code '<' then some .lt
  else none

/-- The token that starts at `s`, and where it ends. -/
def tokenAt (b : List UInt8) (es s : Nat) : Tok × Nat :=
  if byte b s = 0 then (.eof, s)
  else match Tok.ofByte? (byte b s) with
  | some t => (t, s + 1)
  | none =>
    if byte b s = code '>' then if byte b (s + 1) = code '>' then (.append, s + 2) else (.gt, s + 1)
    else (.word, scan (fun c => !whitespace.contains c && !symbols.contains c) b (es - s) s)

structure Token where
  kind : Tok
  span : Span
deriving DecidableEq

/-- The token and the position where the parser goes on. -/
def gettoken (b : List UInt8) (es s : Nat) : Token × Nat :=
  let q := skip b es s
  let (ret, eq) := tokenAt b es q
  (⟨ret, q, eq⟩, skip b es eq)

def peek (b : List UInt8) (es s : Nat) (toks : List Char) : Bool × Nat :=
  let s := skip b es s
  (byte b s ≠ 0 && (toks.map code).contains (byte b s), s)

/-! ### Parsing -/

/-- `cmd->argv[argc] = q`, where the command is the one at the bottom of the redirections. -/
def Cmd.addArg (w : Span) : Cmd → Cmd
  | .exec argv => .exec (argv ++ [w])
  | .redir cmd file mode fd => .redir (cmd.addArg w) file mode fd
  | cmd => cmd

section

variable (b : List UInt8) (es : Nat)

def parseredirs : Nat → Cmd → Nat → Except Stop (Cmd × Nat)
  | 0, _, _ => .error .depth
  | n + 1, cmd, s =>
    match peek b es s ['<', '>'] with
    | (false, s) => .ok (cmd, s)
    | (true, s) =>
      let (tok, s) := gettoken b es s
      let (file, s) := gettoken b es s
      if file.kind ≠ .word then .error (.panic .missingFile)
      else match tok.kind with
      | .lt => parseredirs n (.redir cmd file.span oRdonly 0) s
      | .gt => parseredirs n (.redir cmd file.span (oWronly ||| oCreate) 1) s
      | .append => parseredirs n (.redir cmd file.span (oWronly ||| oCreate) 1) s
      | _ => parseredirs n cmd s

def parseargs : Nat → Nat → Cmd → Nat → Except Stop (Cmd × Nat)
  | 0, _, _, _ => .error .depth
  | n + 1, argc, ret, s =>
    match peek b es s ['|', ')', '&', ';'] with
    | (true, s) => .ok (ret, s)
    | (false, s) =>
      let (tok, s) := gettoken b es s
      match tok.kind with
      | .eof => .ok (ret, s)
      | .word =>
        if maxArgs ≤ argc + 1 then .error (.panic .tooManyArgs)
        else do
          let (ret, s) ← parseredirs b es n (ret.addArg tok.span) s
          parseargs n (argc + 1) ret s
      | _ => .error (.panic .unexpected)

def parsebacks : Nat → Cmd → Nat → Except Stop (Cmd × Nat)
  | 0, _, _ => .error .depth
  | n + 1, cmd, s =>
    match peek b es s ['&'] with
    | (false, s) => .ok (cmd, s)
    | (true, s) => parsebacks n (.back cmd) (gettoken b es s).2

mutual

def parseline : Nat → Nat → Except Stop (Cmd × Nat)
  | 0, _ => .error .depth
  | n + 1, s => do
    let (cmd, s) ← parsepipe n s
    let (cmd, s) ← parsebacks b es n cmd s
    match peek b es s [';'] with
    | (false, s) => .ok (cmd, s)
    | (true, s) =>
      let (right, s) ← parseline n (gettoken b es s).2
      .ok (.list cmd right, s)

def parsepipe : Nat → Nat → Except Stop (Cmd × Nat)
  | 0, _ => .error .depth
  | n + 1, s => do
    let (cmd, s) ← parseexec n s
    match peek b es s ['|'] with
    | (false, s) => .ok (cmd, s)
    | (true, s) =>
      let (right, s) ← parsepipe n (gettoken b es s).2
      .ok (.pipe cmd right, s)

def parseblock : Nat → Nat → Except Stop (Cmd × Nat)
  | 0, _ => .error .depth
  | n + 1, s =>
    match peek b es s ['('] with
    | (false, _) => .error (.panic .parseblock)
    | (true, s) => do
      let (cmd, s) ← parseline n (gettoken b es s).2
      match peek b es s [')'] with
      | (false, _) => .error (.panic .missingParen)
      | (true, s) => parseredirs b es n cmd (gettoken b es s).2

def parseexec : Nat → Nat → Except Stop (Cmd × Nat)
  | 0, _ => .error .depth
  | n + 1, s =>
    match peek b es s ['('] with
    | (true, s) => parseblock n s
    | (false, s) => do
      let (ret, s) ← parseredirs b es n (.exec []) s
      parseargs b es n 0 ret s

end

end

def nulterminate : Cmd → List UInt8 → List UInt8
  | .exec argv, b => argv.foldl (fun b w => b.set w.2 0) b
  | .redir cmd file _ _, b => (nulterminate cmd b).set file.2 0
  | .pipe left right, b | .list left right, b => nulterminate right (nulterminate left b)
  | .back cmd, b => nulterminate cmd b

/-- The command and the line as it leaves it. A line of `n` bytes has at most `n` tokens, and each takes the parser at
most four calls deeper. -/
def parsecmd (b : List UInt8) : Except Stop (Cmd × List UInt8) := do
  let es := strlen b
  let (cmd, s) ← parseline b es (4 * es + 5) 0
  let (_, s) := peek b es s []
  if s ≠ es then .error (.panic .leftovers) else .ok (cmd, nulterminate cmd b)

end Xv6.Shell
