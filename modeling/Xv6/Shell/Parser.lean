import Mathlib.Data.List.Basic

/-! # The Shell's Parser

    `sh.c` from `gettoken` to `nulterminate`. The command line is a list of
    characters without its final NUL. A `char *` into it is the list of the
    characters from there on, so `s == es` is the empty list, and moving a
    pointer forward drops characters.

    A parsed string is a pair of pointers until `nulterminate` writes a NUL
    at the second one. The nodes of the tree are allocated and filled in by
    the C code; only `argv` of an `EXEC` node still changes after the node
    has been wrapped, so `parseexec` collects the redirections and wraps at
    the end.

    The functions recurse on `fuel`, the number of calls and loop iterations
    they may nest.
-/

namespace Xv6.Shell

/-! ### Commands -/

def MAXARGS : Nat := 10
def O_RDONLY : Nat := 0x000
def O_WRONLY : Nat := 0x001
def O_CREATE : Nat := 0x200

/-- `struct cmd`, with strings of type `W`. -/
inductive Cmd (W : Type) where
  | EXEC (argv : List W)
  | REDIR (cmd : Cmd W) (file : W) (mode fd : Nat)
  | PIPE (left right : Cmd W)
  | LIST (left right : Cmd W)
  | BACK (cmd : Cmd W)
  deriving DecidableEq, Repr

/-- A redirection that has been read. -/
structure Redir (W : Type) where
  file : W
  mode : Nat
  fd : Nat
  deriving DecidableEq, Repr

/-- A `char *` into the line. -/
abbrev Ptr : Type := List Char

/-- A string between two pointers. -/
structure Span where
  q : Ptr
  eq : Ptr
  deriving DecidableEq, Repr

def Span.text (w : Span) : List Char := w.q.take (w.q.length - w.eq.length)

/-- The ways in which the parser gives up, by `panic`. -/
inductive ParseError where
  | badToken
  | leftovers (s : Ptr)
  | missingFile
  | parseblock
  | missingParen
  | tooManyArgs
  /-- Not an error of the source: the model stopped too early. -/
  | fuel
  deriving DecidableEq, Repr

/-- What is printed. -/
def ParseError.message : ParseError → String
  | .badToken => "syntax"
  | .leftovers s => "leftovers: " ++ String.ofList s ++ "\nsyntax"
  | .missingFile => "missing file for redirection"
  | .parseblock => "parseblock"
  | .missingParen => "syntax - missing )"
  | .tooManyArgs => "too many args"
  | .fuel => ""

/-! ### Tokens -/

def whitespace : List Char := [' ', '\t', '\r', '\n', '\x0b']
def symbols : List Char := ['<', '|', '>', '&', ';', '(', ')']

def isSpace (c : Char) : Bool := whitespace.contains c

/-- A character the loop of `gettoken` over a word passes. -/
def isWord (c : Char) : Bool := !whitespace.contains c && !symbols.contains c

/-- `while(s < es && strchr(whitespace, *s)) s++;` -/
def skip (s : Ptr) : Ptr := s.dropWhile isSpace

/-- What `gettoken` returns and stores: its result, `*q` and `*eq`, and `*ps`. -/
structure Token where
  ret : Char
  w : Span
  s : Ptr

def gettoken (s : Ptr) : Token :=
  let q := skip s
  match q with
  | [] => ⟨'\x00', ⟨q, q⟩, q⟩
  | c :: s =>
    if c = '|' ∨ c = '(' ∨ c = ')' ∨ c = ';' ∨ c = '&' ∨ c = '<' then
      ⟨c, ⟨q, s⟩, skip s⟩
    else if c = '>' then
      match s with
      | '>' :: s => ⟨'+', ⟨q, s⟩, skip s⟩
      | s => ⟨'>', ⟨q, s⟩, skip s⟩
    else
      let eq := q.dropWhile isWord
      ⟨'a', ⟨q, eq⟩, skip eq⟩

/-- `peek`, and where it leaves `*ps`. -/
def peek (s : Ptr) (toks : List Char) : Bool × Ptr :=
  let s := skip s
  (match s with
    | [] => false
    | c :: _ => toks.contains c,
   s)

/-! ### The parser -/

/-- Wrap a command in redirections, in the order in which they were read. -/
def wrap {W : Type} (cmd : Cmd W) (rs : List (Redir W)) : Cmd W :=
  rs.foldl (fun cmd r => .REDIR cmd r.file r.mode r.fd) cmd

/-- The `switch` of `parseredirs`. -/
def redirOf {W : Type} (tok : Char) (file : W) : Redir W :=
  if tok = '<' then ⟨file, O_RDONLY, 0⟩ else ⟨file, O_WRONLY ||| O_CREATE, 1⟩

/-- The loop of `parseredirs`: the redirections it wraps its command in. -/
def parseredirs : (fuel : Nat) → Ptr → Except ParseError (List (Redir Span) × Ptr)
  | 0, _ => .error .fuel
  | n + 1, s =>
    match peek s ['<', '>'] with
    | (false, s) => .ok ([], s)
    | (true, s) =>
      let op := gettoken s
      let file := gettoken op.s
      if file.ret ≠ 'a' then .error .missingFile
      else do
        let (rs, s) ← parseredirs n file.s
        return (redirOf op.ret file.w :: rs, s)

/-- The loop of `parseline` over `&`. -/
def backLoop : (fuel : Nat) → Cmd Span → Ptr → Except ParseError (Cmd Span × Ptr)
  | 0, _, _ => .error .fuel
  | n + 1, cmd, s =>
    match peek s ['&'] with
    | (false, s) => .ok (cmd, s)
    | (true, s) => backLoop n (.BACK cmd) (gettoken s).s

/-- The loop of `parseexec`, with `argc` words read: the words and the
    redirections that follow. -/
def argLoop : (fuel : Nat) → (argc : Nat) → Ptr →
    Except ParseError ((List Span × List (Redir Span)) × Ptr)
  | 0, _, _ => .error .fuel
  | n + 1, argc, s =>
    match peek s ['|', ')', '&', ';'] with
    | (true, s) => .ok (([], []), s)
    | (false, s) =>
      let tok := gettoken s
      if tok.ret = '\x00' then .ok (([], []), tok.s)
      else if tok.ret ≠ 'a' then .error .badToken
      else if argc + 1 ≥ MAXARGS then .error .tooManyArgs
      else do
        let (rs, s) ← parseredirs n tok.s
        let ((argv, rs'), s) ← argLoop n (argc + 1) s
        return ((tok.w :: argv, rs ++ rs'), s)

mutual

def parseline : (fuel : Nat) → Ptr → Except ParseError (Cmd Span × Ptr)
  | 0, _ => .error .fuel
  | n + 1, s => do
    let (cmd, s) ← parsepipe n s
    let (cmd, s) ← backLoop n cmd s
    match peek s [';'] with
    | (false, s) => return (cmd, s)
    | (true, s) =>
      let (right, s) ← parseline n (gettoken s).s
      return (.LIST cmd right, s)

def parsepipe : (fuel : Nat) → Ptr → Except ParseError (Cmd Span × Ptr)
  | 0, _ => .error .fuel
  | n + 1, s => do
    let (cmd, s) ← parseexec n s
    match peek s ['|'] with
    | (false, s) => return (cmd, s)
    | (true, s) =>
      let (right, s) ← parsepipe n (gettoken s).s
      return (.PIPE cmd right, s)

def parseexec : (fuel : Nat) → Ptr → Except ParseError (Cmd Span × Ptr)
  | 0, _ => .error .fuel
  | n + 1, s =>
    match peek s ['('] with
    | (true, s) => parseblock n s
    | (false, s) => do
      let (rs, s) ← parseredirs n s
      let ((argv, rs'), s) ← argLoop n 0 s
      return (wrap (.EXEC argv) (rs ++ rs'), s)

def parseblock : (fuel : Nat) → Ptr → Except ParseError (Cmd Span × Ptr)
  | 0, _ => .error .fuel
  | n + 1, s =>
    match peek s ['('] with
    | (false, _) => .error .parseblock
    | (true, s) => do
      let (cmd, s) ← parseline n (gettoken s).s
      match peek s [')'] with
      | (false, _) => .error .missingParen
      | (true, s) =>
        let (rs, s) ← parseredirs n (gettoken s).s
        return (wrap cmd rs, s)

end

/-! ### Ending the strings -/

def Cmd.map {V W : Type} (f : V → W) : Cmd V → Cmd W
  | .EXEC argv => .EXEC (argv.map f)
  | .REDIR cmd file mode fd => .REDIR (cmd.map f) (f file) mode fd
  | .PIPE left right => .PIPE (left.map f) (right.map f)
  | .LIST left right => .LIST (left.map f) (right.map f)
  | .BACK cmd => .BACK (cmd.map f)

/-- The strings of a command. -/
def Cmd.words {W : Type} : Cmd W → List W
  | .EXEC argv => argv
  | .REDIR cmd file _ _ => cmd.words ++ [file]
  | .PIPE left right => left.words ++ right.words
  | .LIST left right => left.words ++ right.words
  | .BACK cmd => cmd.words

/-- The string at pointer `q` after a NUL has been written at each of the
    pointers `nuls`. -/
def cstring (nuls : List Ptr) : (q : Ptr) → List Char
  | [] => []
  | c :: s => if nuls.contains (c :: s) then [] else c :: cstring nuls s

/-- `nulterminate`, and the strings that are left. -/
def nulterminate (cmd : Cmd Span) : Cmd (List Char) :=
  cmd.map (fun w => cstring (cmd.words.map Span.eq) w.q)

/-- `parsecmd`, on a buffer: the line is what stands before the first NUL. -/
def parsecmd (buf : List Char) : Except ParseError (Cmd (List Char)) := do
  let s := buf.takeWhile (· ≠ '\x00')
  let (cmd, s) ← parseline (4 * s.length + 4) s
  match peek s [] with
  | (_, []) => return nulterminate cmd
  | (_, s) => .error (.leftovers s)

end Xv6.Shell
