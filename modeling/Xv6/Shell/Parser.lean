import Mathlib.Data.List.Basic

namespace Xv6.Shell

/-!
# The parser of the shell

`parsecmd` of `sh.c` with the routines below it.  A pointer into the command is a
position in the text; the position one past the end holds the terminating NUL.
`panic` ends a parse.  The recursion is by fuel.
-/

def NUL : Char := Char.ofNat 0

def whitespace : List Char := [' ', '\t', '\r', '\n', Char.ofNat 11]

def symbols : List Char := ['<', '|', '>', '&', ';', '(', ')']

def isBlank (c : Char) : Bool := decide (c ∈ whitespace)

/-- A character of a word. -/
def isWord (c : Char) : Bool := decide (c ∉ whitespace) && decide (c ∉ symbols)

def MAXARGS : Nat := 10

def O_RDONLY : Nat := 0x000
def O_WRONLY : Nat := 0x001
def O_CREATE : Nat := 0x200

/-! ## Commands -/

/-- The start of a word and its end, one past its last character. -/
abbrev Span := Nat × Nat

inductive Cmd where
  | exec (args : List Span)
  | redir (cmd : Cmd) (file : Span) (mode fd : Nat)
  | pipe (left right : Cmd)
  | list (left right : Cmd)
  | back (cmd : Cmd)
  deriving DecidableEq, Repr

/-- `cmd->argv[argc] = q; cmd->eargv[argc] = eq`, where `cmd` is the command inside the
redirections. -/
def Cmd.addArg (word : Span) : Cmd -> Cmd
  | .exec args => .exec (args ++ [word])
  | .redir cmd file mode fd => .redir (cmd.addArg word) file mode fd
  | other => other

inductive Result (α : Type) where
  | ok (value : α) (s : Nat)
  | panic (message : String)
  | unfinished
  deriving DecidableEq, Repr

namespace Result

def bind {α β : Type} (result : Result α) (next : α -> Nat -> Result β) : Result β :=
  match result with
  | .ok value s => next value s
  | .panic message => .panic message
  | .unfinished => .unfinished

end Result

section Text

variable (text : List Char)

/-! ## Tokens -/

/-- `*s` -/
def charAt (s : Nat) : Char := text.getD s NUL

/-- `while(s < es && strchr(whitespace, *s)) s++` -/
def skip (s : Nat) : Nat := s + ((text.drop s).takeWhile isBlank).length

/-- `while(s < es && !strchr(whitespace, *s) && !strchr(symbols, *s)) s++` -/
def scan (s : Nat) : Nat := s + ((text.drop s).takeWhile isWord).length

/-- What `gettoken` returns and stores. -/
structure Taken where
  ret : Char
  q : Nat
  eq : Nat
  s : Nat

def gettoken (s : Nat) : Taken :=
  let q := skip text s
  let c := charAt text q
  if c = NUL then ⟨NUL, q, q, skip text q⟩
  else if c ∈ ['|', '(', ')', ';', '&', '<'] then ⟨c, q, q + 1, skip text (q + 1)⟩
  else if c = '>' then
    if charAt text (q + 1) = '>' then ⟨'+', q, q + 2, skip text (q + 2)⟩
    else ⟨'>', q, q + 1, skip text (q + 1)⟩
  else ⟨'a', q, scan text q, skip text (scan text q)⟩

/-- `peek` leaves `*ps` at `skip text s`. -/
def peek (s : Nat) (toks : List Char) : Bool :=
  decide (charAt text (skip text s) ≠ NUL) && decide (charAt text (skip text s) ∈ toks)

/-! ## Parsing -/

/-- The redirection for the token `tok`. -/
def redirect (tok : Char) (cmd : Cmd) (file : Span) : Cmd :=
  if tok = '<' then .redir cmd file O_RDONLY 0
  else if tok = '>' then .redir cmd file (O_WRONLY ||| O_CREATE) 1
  else if tok = '+' then .redir cmd file (O_WRONLY ||| O_CREATE) 1
  else cmd

def parseredirs : Nat -> Cmd -> Nat -> Result Cmd
  | 0, _, _ => .unfinished
  | n + 1, cmd, s =>
    if peek text s ['<', '>'] then
      let tok := gettoken text (skip text s)
      let file := gettoken text tok.s
      if file.ret ≠ 'a' then .panic "missing file for redirection"
      else parseredirs n (redirect tok.ret cmd (file.q, file.eq)) file.s
    else .ok cmd (skip text s)

/-- The loop of `parseexec`. -/
def parseargs : Nat -> Nat -> Cmd -> Nat -> Result Cmd
  | 0, _, _, _ => .unfinished
  | n + 1, argc, ret, s =>
    if peek text s ['|', ')', '&', ';'] then .ok ret (skip text s)
    else
      let tok := gettoken text (skip text s)
      if tok.ret = NUL then .ok ret tok.s
      else if tok.ret ≠ 'a' then .panic "syntax"
      else if argc + 1 ≥ MAXARGS then .panic "too many args"
      else (parseredirs text n (ret.addArg (tok.q, tok.eq)) tok.s).bind fun ret s =>
        parseargs n (argc + 1) ret s

/-- The loop of `parseline`. -/
def parsebacks : Nat -> Cmd -> Nat -> Result Cmd
  | 0, _, _ => .unfinished
  | n + 1, cmd, s =>
    if peek text s ['&'] then parsebacks n (.back cmd) (gettoken text (skip text s)).s
    else .ok cmd (skip text s)

mutual

def parseline : Nat -> Nat -> Result Cmd
  | 0, _ => .unfinished
  | n + 1, s =>
    (parsepipe n s).bind fun cmd s => (parsebacks text n cmd s).bind fun cmd s =>
      if peek text s [';'] then
        (parseline n (gettoken text (skip text s)).s).bind fun right s => .ok (.list cmd right) s
      else .ok cmd (skip text s)

def parsepipe : Nat -> Nat -> Result Cmd
  | 0, _ => .unfinished
  | n + 1, s =>
    (parseexec n s).bind fun cmd s =>
      if peek text s ['|'] then
        (parsepipe n (gettoken text (skip text s)).s).bind fun right s => .ok (.pipe cmd right) s
      else .ok cmd (skip text s)

def parseblock : Nat -> Nat -> Result Cmd
  | 0, _ => .unfinished
  | n + 1, s =>
    if peek text s ['('] then
      (parseline n (gettoken text (skip text s)).s).bind fun cmd s =>
        if peek text s [')'] then parseredirs text n cmd (gettoken text (skip text s)).s
        else .panic "syntax - missing )"
    else .panic "parseblock"

def parseexec : Nat -> Nat -> Result Cmd
  | 0, _ => .unfinished
  | n + 1, s =>
    if peek text s ['('] then parseblock n (skip text s)
    else (parseredirs text n (.exec []) (skip text s)).bind fun ret s => parseargs text n 0 ret s

end

/-- The characters of the words are kept, and each word gets a NUL at its end. -/
def nulterminate : Cmd -> List Char -> List Char
  | .exec args, text => args.foldl (fun text word => text.set word.2 NUL) text
  | .redir cmd file _ _, text => (nulterminate cmd text).set file.2 NUL
  | .pipe left right, text => nulterminate right (nulterminate left text)
  | .list left right, text => nulterminate right (nulterminate left text)
  | .back cmd, text => nulterminate cmd text

/-- The command, and the text as `nulterminate` leaves it. -/
def parsecmd (fuel : Nat) : Result (Cmd × List Char) :=
  (parseline text fuel 0).bind fun cmd s =>
    if skip text s ≠ text.length then .panic "syntax" else .ok (cmd, nulterminate cmd text) (skip text s)

end Text

end Xv6.Shell
