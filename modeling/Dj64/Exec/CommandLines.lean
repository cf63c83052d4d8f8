import Dj64.Exec.Arguments

/-!
# Command lines for other programs

What `direct_exec`, `direct_pe_exec`, `__dosexec_command_exec` and `_shell_command` pass to a
program: a command tail and, when that is too long for DOS, the variable `CMDLINE`.
-/

namespace Exec

def cmdlenLimit : ℕ := 126

def cmdlineMax : ℕ := 1023

def cmdlineStr : Bytes := text "CMDLINE="

/-- `(unsigned int)-1`, for a shell without a limit, and the mark `(unsigned int)-2`. -/
def noLimit : ℕ := 2 ^ 32 - 1

@[inherit_doc noLimit]
def osLimit : ℕ := 2 ^ 32 - 2

/-- What the functions find outside: `__dosexec_in_system`, `_osmajor`, whether `_os_flavor` is
`ms-dos`, and `_environ`. -/
structure System where
  inSystem : Bool
  osmajor : ℕ
  msDos : Bool
  environ : List Bytes

/-! ### Shells -/

/-- `tolower` of the C locale. -/
def tolower (c : UInt8) : UInt8 := if 65 ≤ c ∧ c ≤ 90 then c + 32 else c

def sameName (a b : Bytes) : Bool := a.map tolower == b.map tolower

def baseName (program : Bytes) : Bytes :=
  (program.reverse.takeWhile fun c => !(text "/:\\").contains c).reverse

def shellBrokets : List (Bytes × ℕ) :=
  [(text "COMMAND.COM", osLimit), (text "4DOS.COM", 255), (text "NDOS.COM", 255)]

def unixShells : List (Bytes × ℕ) :=
  [(text "SH.EXE", noLimit), (text "-SH.EXE", noLimit), (text "SH16.EXE", cmdlenLimit),
    (text "SH32.EXE", cmdlenLimit), (text "TCSH.EXE", cmdlineMax), (text "-TCSH.EXE", cmdlineMax),
    (text "BASH.EXE", noLimit), (text "-BASH.EXE", noLimit)]

def shellEntry (program : Bytes) (shells : List (Bytes × ℕ)) : Option (Bytes × ℕ) :=
  shells.find? fun shell => sameName (baseName program) shell.1

def isDosShell (program : Bytes) : Bool := (shellEntry program shellBrokets).isSome

def isUnixyShell (program : Bytes) : Bool := (shellEntry program unixShells).isSome

/-- `_shell_cmdline_limit`; zero for programs that are not shells. -/
def shellCmdlineLimit (sys : System) (program : Bytes) : ℕ :=
  let long := decide (7 ≤ sys.osmajor ∧ sys.osmajor < 10)
  match shellEntry program shellBrokets, shellEntry program unixShells with
  | some (_, limit), _ =>
    if limit = osLimit then if long then noLimit else cmdlenLimit else limit
  | none, some (_, limit) =>
    if limit = osLimit then if long && sys.msDos then cmdlineMax else cmdlenLimit else limit
  | none, none => 0

/-! ### `direct_exec` and `direct_pe_exec` -/

/-- Append an argument to a line, up to a limit; quotes may be escaped, or escapes be removed. -/
def copyArg (limit : ℕ) (escape unescape : Bool) : Bytes → Bytes → Bytes
  | [], line => line
  | c :: rest, line =>
    if limit < line.length then line
    else if c = doubleQuote ∧ escape then
      if limit < line.length + 1 then line ++ [backslash]
      else copyArg limit escape unescape rest (line ++ [backslash, c])
    else
      match rest with
      | [] => line ++ [c]
      | d :: rest' =>
        if c = backslash ∧ d = singleQuote ∧ unescape then
          copyArg limit escape unescape rest' (line ++ [d])
        else copyArg limit escape unescape (d :: rest') (line ++ [c])

/-- Append the arguments to a line, each after a blank and quoted if it contains blanks. -/
def copyArgs (limit : ℕ) (needQuote unescape : Bool) : List Bytes → Bytes → Bytes
  | [], line => line
  | p :: args, line =>
    let quoted := needQuote && p.any fun c => c == 32 || c == 9
    if limit < line.length then line
    else if quoted && limit < line.length + 1 then line ++ [blank]
    else
      let line := copyArg limit needQuote unescape p
        (line ++ [blank] ++ if quoted then [doubleQuote] else [])
      copyArgs limit needQuote unescape args
        (if quoted && line.length ≤ limit then line ++ [doubleQuote] else line)

/-- `need_quote`: not for `system`, and not for the command of a DOS shell. -/
def needQuote (sys : System) (program : Bytes) (argv : List Bytes) : Bool :=
  !sys.inSystem && !(argv[1]? == some (text "/c") && argv.length == 3 && isDosShell program)

def unescapeQuote (sys : System) (program : Bytes) : Bool := sys.inSystem && !isUnixyShell program

/-- The command tail of `direct_exec`. -/
def directExecArgs (sys : System) (program : Bytes) (argv : List Bytes) : Bytes :=
  copyArgs cmdlenLimit (needQuote sys program argv) (unescapeQuote sys program) (argv.drop 1) []

/-- The name of a program in `CMDLINE`, quoted if it contains a blank. -/
def quotedName (program : Bytes) : Bytes :=
  if program.contains blank then [doubleQuote] ++ program ++ [doubleQuote] else program

/-- `CMDLINE` up to the command tail, as `direct_pe_exec` writes it. -/
def peName (program : Bytes) : Bytes :=
  cmdlineStr ++ (quotedName program).map fun c => if c = 47 then backslash else c

/-- The command tail of `direct_pe_exec`, and `CMDLINE` if the tail is too long. -/
def directPeExecArgs (sys : System) (program : Bytes) (argv : List Bytes) : Bytes × Option Bytes :=
  let varp := copyArgs cmdlineMax (needQuote sys program argv) (unescapeQuote sys program)
    (argv.drop 1) (peName program)
  let args := varp.drop (peName program).length
  (args, if cmdlenLimit < args.length then some varp else none)

/-! ### Commands for a shell -/

/-- `CMDLINE` for a shell and its command tail. -/
def cmdlineVar (shell tail : Bytes) : Bytes := cmdlineStr ++ quotedName shell ++ [blank] ++ tail

/-- The program in the command of `__dosexec_command_exec`: up to the first blank, `\` stands where
the path given to the function (not the one it is resolved to) has a slash. -/
def commandName : Bytes → Bytes → Bytes
  | _, [] => []
  | program, c :: real =>
    if 32 < c ∧ c < 128 then
      (if program.headD 0 = 47 then backslash else c) :: commandName (program.drop 1) real
    else c :: real

/-- An argument inside quotes, where COMMAND.COM sees the inner quotes as closing ones. -/
def commandEscape : Bool → Bytes → Bytes
  | _, [] => []
  | outside, c :: rest =>
    if c = doubleQuote then backslash :: c :: commandEscape (!outside) rest
    else if outside ∧ (text "|<>").contains c then
      doubleQuote :: c :: doubleQuote :: commandEscape outside rest
    else if c = 37 then c :: c :: commandEscape outside rest
    else c :: commandEscape outside rest

/-- An argument in the command of `__dosexec_command_exec`. -/
def commandArg (sys : System) (arg : Bytes) : Bytes :=
  if !sys.inSystem && arg.any (text " \t<>|'\"%").contains then
    [doubleQuote] ++ commandEscape false arg ++ [doubleQuote]
  else arg

/-- The command of `__dosexec_command_exec`. -/
def commandLine (sys : System) (program real : Bytes) (argv : List Bytes) : Bytes :=
  let name := if real.contains 32 || real.contains 9 then
      [doubleQuote] ++ commandName program real ++ [doubleQuote]
    else commandName program real
  text "/c " ++ name ++ (argv.drop 1).flatMap fun arg => blank :: commandArg sys arg

/-- The last value of `COMSPEC` in an environment. -/
def lastComspec (env : List Bytes) : Option Bytes :=
  (env.reverse.find? (text "COMSPEC=").isPrefixOf).map (·.drop 8)

/-- The shell of `__dosexec_command_exec`. -/
def comspec (sys : System) (envp : List Bytes) : Bytes :=
  ((lastComspec envp).or (lastComspec sys.environ)).getD (text "c:\\command.com")

def tailLimit (sys : System) (shell : Bytes) : ℕ :=
  if shellCmdlineLimit sys shell = 0 then cmdlenLimit else shellCmdlineLimit sys shell

/-- The command tail of `__dosexec_command_exec`, and `CMDLINE` if the tail is too long for DOS; a
tail that is too long for the shell is cut. -/
def commandExecArgs (sys : System) (shell cmdline : Bytes) : Bytes × Option Bytes :=
  if cmdlenLimit < cmdline.length then
    if tailLimit sys shell < cmdline.length then (cmdline.take cmdlenLimit, none)
    else (cmdline, some (cmdlineVar shell cmdline))
  else (cmdline, none)

/-- The command tail of `_shell_command` for a DOS shell. -/
def shellTail (prog cmdline : Bytes) : Bytes :=
  text "/c " ++ prog.map (fun c => if c = 47 then backslash else c) ++
    if cmdline = [] then [] else if prog = [] then cmdline else blank :: cmdline

/-- The command tail of `_shell_command` for a DOS shell, and `CMDLINE` if the tail is too long for
DOS; nothing if it is too long for the shell. -/
def shellCommandArgs (sys : System) (shell prog cmdline : Bytes) : Option (Bytes × Option Bytes) :=
  let tail := shellTail prog cmdline
  if cmdlenLimit < tail.length then
    if tailLimit sys shell < tail.length then none
    else if tailLimit sys shell < (cmdlineVar shell tail).length then none
    else some (tail, some (cmdlineVar shell tail))
  else some (tail, none)

end Exec
