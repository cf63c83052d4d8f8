import Dj64.Shell.Commands

/-!
# What a command line says

A line is a list of symbols; commands are joined by `|` and `;`, and each has a name, arguments and
at most one source and one sink.
-/

namespace Shell

open Exec

/-- A symbol of a line. -/
inductive Token
  | word (text : Bytes)
  | input
  | output (append : Bool)
  | pipe
  | semicolon
  deriving DecidableEq

/-- The symbols of a line, unless a quote is not matched; each round consumes a byte, so that `fuel`
bounds the rounds. -/
def tokens (multi : Bool) : ℕ → Bytes → Option (List Token)
  | 0, _ => none
  | fuel + 1, s =>
    let r := getSym multi s
    match r.sym with
    | .word => (tokens multi fuel r.rest).map (.word r.text :: ·)
    | .redirInput => (tokens multi fuel r.rest).map (.input :: ·)
    | .redirOutput => (tokens multi fuel r.rest).map (.output false :: ·)
    | .redirAppend => (tokens multi fuel r.rest).map (.output true :: ·)
    | .pipe => (tokens multi fuel r.rest).map (.pipe :: ·)
    | .semicolon => (tokens multi fuel r.rest).map (.semicolon :: ·)
    | .eol => some []
    | .unmatchedQuote => none

/-- Where the input of a command comes from. -/
inductive Source
  | inherited
  | file (name : Bytes)
  | pipe
  deriving DecidableEq

/-- Where the output of a command goes. -/
inductive Sink
  | inherited
  | file (name : Bytes) (append : Bool)
  | pipe
  deriving DecidableEq

/-- A simple command; its words are as in the line. -/
structure Command where
  prog : Bytes
  args : List Bytes
  source : Source
  sink : Sink
  deriving DecidableEq

/-- The part of a command that has been read. -/
structure Partial where
  prog : Option Bytes
  args : List Bytes
  source : Source
  sink : Sink

def Partial.fresh (source : Source) : Partial := ⟨none, [], source, .inherited⟩

def Partial.command (p : Partial) (sink : Sink) : Option Command :=
  p.prog.map fun prog => ⟨prog, p.args, p.source, sink⟩

/-- A word of a command: its name or an argument. -/
def Partial.word (p : Partial) (text : Bytes) : Partial :=
  match p.prog with
  | none => { p with prog := some text }
  | some _ => { p with args := p.args ++ [text] }

/-- The commands in a list of symbols, unless there is an error; `name` gives the name of a file. -/
def commands (name : Bytes → Bytes) : Partial → List Token → Option (List Command)
  | p, [] => (p.command p.sink).map fun c => [c]
  | p, .word text :: ts => commands name (p.word text) ts
  | p, .input :: .word text :: ts =>
    if p.source = .inherited then commands name { p with source := .file (name text) } ts else none
  | p, .output append :: .word text :: ts =>
    if p.sink = .inherited then commands name { p with sink := .file (name text) append } ts
      else none
  | p, .pipe :: ts =>
    if p.sink = .inherited then
      (p.command .pipe).bind fun c => (commands name (.fresh .pipe) ts).map (c :: ·)
    else none
  | p, .semicolon :: ts =>
    (p.command p.sink).bind fun c => (commands name (.fresh .inherited) ts).map (c :: ·)
  | _, _ => none

/-- A call of `system1`: the program, the words of the command tail, and the streams. -/
structure Call where
  prog : Bytes
  args : Option (List Bytes)
  stdin : Option Bytes
  stdout : Option (Bytes × Bool)
  deriving DecidableEq

/-- White space at the end of the last argument does not count. -/
def stripLast : List Bytes → List Bytes
  | [] => []
  | [arg] => [World.stripEnd arg]
  | arg :: args => arg :: stripLast args

/-- The file that a command reads; a pipe is the last file that `tmpnam` has named. -/
def Source.stdin (w : World) (k : ℕ) : Source → Option Bytes
  | .inherited => none
  | .file name => some name
  | .pipe => some (w.tmpnam (k - 1))

/-- The file that a command writes; a pipe is the next file that `tmpnam` names. -/
def Sink.stdout (w : World) (k : ℕ) : Sink → Option (Bytes × Bool)
  | .inherited => none
  | .file name append => some (name, append)
  | .pipe => some (w.tmpnam k, false)

/-- The call that runs a command, when `tmpnam` has named `k` files. -/
def Command.call (w : World) (k : ℕ) (c : Command) : Call :=
  ⟨unquote w.unquoteMulti c.prog, some (stripLast c.args), c.source.stdin w k, c.sink.stdout w k⟩

/-- The calls that run the commands. -/
def connected (w : World) : ℕ → List Command → List Call
  | _, [] => []
  | k, c :: cs => c.call w k :: connected w (if c.sink = .pipe then k + 1 else k) cs

end Shell
