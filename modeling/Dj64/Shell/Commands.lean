import Dj64.Shell.Lexer
import Mathlib.Data.List.DropRight

/-!
# The commands of a line

`system` walks over its command line symbol by symbol.  It removes the name of the program, the
redirections and extra white space from its copy of the line, and calls `system1` with what is left
of a command when it comes to the end of it.
-/

namespace Shell

open Exec

/-- `__unquote`; `multi` is the flag in `__system_flags`, not the one in `sys_flags`. -/
def unquoteLoop (multi : Bool) : UInt8 → Bytes → Bytes
  | _, [] => []
  | quote, c :: s =>
    if isQuote c then unquoteLoop multi (if quote = 0 then c else if quote = c then 0 else quote) s
    else
      match s with
      | [] => [c]
      | d :: s' =>
        if c = backslash ∧ (isQuote d ∨ multi ∧ d = 59) then d :: unquoteLoop multi quote s'
        else c :: unquoteLoop multi quote (d :: s')

@[inherit_doc unquoteLoop]
def unquote (multi : Bool) (word : Bytes) : Bytes := unquoteLoop multi 0 word

/-- `L_tmpnam`, the size of the buffer for the name of the program. -/
def lTmpnam : ℕ := 260

/-- What `system` does, as seen from outside. -/
inductive Event
  | system1 (prog tail : Bytes) (stdin : Option Bytes) (stdout : Option (Bytes × Bool))
  | remove (name : Bytes)
  | emiterror (message : String) (err : ℕ)
  deriving DecidableEq

/-- The flags `__system_redirect` and `__system_allow_multiple_cmds` in `sys_flags`, and the latter
in `__system_flags`; whether everything is left to a shell; the names that `tmpnam` gives; the
errors of `open` for input and for output (appended or not) and of `dup`; and the results of
`system1`. -/
structure World where
  redirect : Bool
  multi : Bool
  unquoteMulti : Bool
  callShell : Bool
  tmpnam : ℕ → Bytes
  openInput : Bytes → Option ℕ
  openOutput : Bytes → Bool → Option ℕ
  dup : Option ℕ
  status : ℕ → ℤ

/-- The variables of the loops; `stdin` and `stdout` are the files behind the first two handles, if
they are not those of the caller, and the log has the latest event first. -/
structure Sys where
  fIn : Option Bytes
  fOut : Option Bytes
  rmIn : Bool
  rmOut : Bool
  appendOut : Bool
  result : ℤ
  needcmd : Bool
  prog : Bytes
  pre : Bytes
  post : Bytes
  stdin : Option Bytes
  stdout : Option (Bytes × Bool)
  temps : ℕ
  calls : ℕ
  log : List Event

namespace Sys

def start (line : Bytes) : Sys :=
  { fIn := none, fOut := none, rmIn := false, rmOut := false, appendOut := false, result := 0,
    needcmd := true, prog := [], pre := [], post := line, stdin := none, stdout := none, temps := 0,
    calls := 0, log := [] }

def record (s : Sys) (e : Event) : Sys := { s with log := e :: s.log }

def fail (s : Sys) (message : String) (err : ℕ) : Sys :=
  { s.record (.emiterror message err) with result := -1 }

def removeIf (s : Sys) (rm : Bool) (f : Option Bytes) : Sys :=
  match f with
  | some name => if rm then s.record (.remove name) else s
  | none => s

def lead (s : Sys) : Bytes := if s.pre = [] then [] else (s.post.takeWhile isspace).take 1

/-- The start of the outer loop. -/
def beginCommand (s : Sys) : Sys :=
  let s := s.removeIf s.rmIn s.fIn
  { s with
    fIn := s.fOut
    rmIn := s.rmOut
    fOut := none
    rmOut := false
    appendOut := false
    needcmd := true
    pre := [] }

/-- The label `leave`. -/
def leave (s : Sys) : Sys := (s.removeIf s.rmIn s.fIn).removeIf s.rmOut s.fOut

end Sys

/-- What follows a symbol: the inner loop again, the next command, the end, a call of the shell with
the whole line, or a write behind the buffer for the name of the program. -/
inductive Next
  | again (s : Sys)
  | command (s : Sys)
  | leave (s : Sys)
  | shell (s : Sys)
  | overflow (s : Sys)

namespace World

variable (w : World)

/-- The input during a command: it is redirected if the file can be opened. -/
def inputHandle (s : Sys) : Option Bytes :=
  match s.fIn with
  | some f => if (w.openInput f).isNone then some f else s.stdin
  | none => s.stdin

/-- The output during a command. -/
def outputHandle (s : Sys) : Option (Bytes × Bool) :=
  match s.fOut with
  | some f => if (w.openOutput f s.appendOut).isNone then some (f, s.appendOut) else s.stdout
  | none => s.stdout

def connect (s : Sys) : Sys := { s with stdin := w.inputHandle s, stdout := w.outputHandle s }

/-- The message for a redirection that failed. -/
def redirectError (s : Sys) : Option (String × ℕ) :=
  match s.fIn.bind w.openInput with
  | some err => some ("Cannot redirect input", err)
  | none =>
    match (if s.fIn.isSome ∨ s.fOut.isSome then w.dup else none) with
    | some err => some ("Out of file handles in redirect", err)
    | none =>
      match s.fOut.bind fun f => w.openOutput f s.appendOut with
      | some err => some ("Cannot redirect output", err)
      | none => none

/-- `system1` is called unless `result` is set, by this command or by an earlier one. -/
def call (s : Sys) (tail : Bytes) : Sys :=
  let s := match w.redirectError s with
    | some (message, err) => s.fail message err
    | none => s
  if s.result = 0 then
    { s.record (.system1 s.prog tail s.stdin s.stdout) with
      result := w.status s.calls
      calls := s.calls + 1 }
  else s

/-- The handles are as before, if `dup` has saved them. -/
def disconnect (before after : Sys) : Sys :=
  { after with
    stdin := if after.fIn.isSome ∧ w.dup.isNone then before.stdin else after.stdin
    stdout := if after.fOut.isSome ∧ w.dup.isNone then before.stdout else after.stdout }

def stripEnd (bytes : Bytes) : Bytes := bytes.rdropWhile isspace

/-- The end of a command. -/
def finish (token : CmdSym) (rest : Bytes) (s : Sys) : Next :=
  if s.needcmd then .leave (s.fail "No command name seen." 0)
  else
    let s' := w.disconnect s (w.call (w.connect s) (stripEnd s.pre))
    if token = .eol then .leave s'
    else if token = .semicolon then
      .command { (s'.removeIf s'.rmIn s'.fIn).removeIf s'.rmOut s'.fOut with
        fIn := none
        fOut := none
        post := rest }
    else .command { s' with post := rest }

/-- A redirection: the name of the file follows, and both are removed from the line. -/
def redirectTo (s : Sys) (rest : Bytes) (set : Bytes → Sys → Sys) : Next :=
  let target := getSym w.multi rest
  if target.sym = .word then
    .again (set (unquote w.unquoteMulti target.text) { s with post := s.lead ++ target.rest })
  else .leave (s.fail "Target of redirect is not a filename." 0)

/-- A redirection of the output. -/
def redirectOutput (s : Sys) (rest : Bytes) (set : Bytes → Sys → Sys) : Next :=
  if !w.redirect then .shell s
  else if s.fOut.isSome then .leave (s.fail "Ambiguous output redirect." 0)
  else w.redirectTo s rest set

/-- The body of the inner loop. -/
def symbol (s : Sys) : Next :=
  let r := getSym w.multi s.post
  match r.sym with
  | .word =>
    if s.needcmd then
      let prog := unquote w.unquoteMulti r.text
      if lTmpnam ≤ prog.length then .overflow s
      else if prog.head? = some 40 then .shell s
      else .again { s with prog := prog, post := r.rest, needcmd := false }
    else .again { s with pre := s.pre ++ s.lead ++ r.text, post := r.rest }
  | .redirInput =>
    if !w.redirect then .shell s
    else if s.fIn.isSome then .leave (s.fail "Ambiguous input redirect." 0)
    else w.redirectTo s r.rest fun name s => { s with fIn := some name }
  | .redirOutput => w.redirectOutput s r.rest fun name s => { s with fOut := some name }
  | .redirAppend =>
    w.redirectOutput s r.rest fun name s => { s with fOut := some name, appendOut := true }
  | .pipe =>
    if !w.redirect then .shell s
    else if s.fOut.isSome then .leave (s.fail "Ambiguous output redirect." 0)
    else w.finish .pipe r.rest
      { s with fOut := some (w.tmpnam s.temps), temps := s.temps + 1, rmOut := true }
  | .semicolon => w.finish .semicolon r.rest s
  | .eol => w.finish .eol r.rest s
  | .unmatchedQuote => .leave (s.fail "Unmatched quote character." 0)

/-- How `system` ended. -/
inductive Outcome
  | returned (s : Sys)
  | shell (s : Sys)
  | overflow (s : Sys)
  | exhausted

/-- The loops; each round of the inner one consumes a byte, so that `fuel` bounds the rounds. -/
def run : ℕ → Sys → Outcome
  | 0, _ => .exhausted
  | fuel + 1, s =>
    match w.symbol s with
    | .again s => run fuel s
    | .command s => if 0 ≤ s.result then run fuel s.beginCommand else .returned s.leave
    | .leave s => .returned s.leave
    | .shell s => .shell s
    | .overflow s => .overflow s

/-- `system`, for a command line that is not `NULL`. -/
def system (cmdline : Bytes) : Outcome :=
  let line := cmdline.dropWhile isspace
  if line = [] ∨ w.callShell then .shell (Sys.start line)
  else w.run (line.length + 1) (Sys.start line).beginCommand

end World

end Shell
