import Dj64.Exec.CommandLines
import Dj64.Exec.TransferBuffer

/-!
# Starting a program

`direct_exec_tail_1` lays out the name of the program, the command tail, the parameter block and the
environment, and calls DOS.  `go32_exec` lays out the arguments before that, for programs that can
take them from the memory of their parent.
-/

namespace Exec

open ByteMemory UInt8

/-! ### Hexadecimal numbers -/

/-- A digit of `%x` or `%X`. -/
def hexDigit (upper : Bool) (d : ℕ) : UInt8 :=
  ofNat (if d < 10 then 48 + d else if upper then 55 + d else 87 + d)

/-- `%04x` or `%04X` of an `unsigned short`. -/
def hex4 (upper : Bool) (v : ℕ) : Bytes :=
  [v / 4096 % 16, v / 256 % 16, v / 16 % 16, v % 16].map (hexDigit upper)

/-! ### The layout for DOS -/

def sizeofExecp : ℕ := 14

/-- `Execp`, the parameter block. -/
structure Execp where
  eseg : ℕ
  argoff : ℕ
  argseg : ℕ
  fcb1Off : ℕ
  fcb1Seg : ℕ
  fcb2Off : ℕ
  fcb2Seg : ℕ

/-- An `unsigned short` in memory. -/
def word (v : ℕ) : Bytes := [ofNat v, ofNat (v / 256)]

def Execp.bytes (parm : Execp) : Bytes :=
  word parm.eseg ++ word parm.argoff ++ word parm.argseg ++ word parm.fcb1Off ++
    word parm.fcb1Seg ++
    word parm.fcb2Off ++ word parm.fcb2Seg

/-- What DOS is called with: the addresses of the name and of the parameter block, the block, and
the environment that it points to. -/
structure Launch where
  programLa : ℕ
  parmLa : ℕ
  parm : Execp
  env : List Bytes

/-- `short_name`, the DOS name of the program.  It is made in the free part of the buffer, or in the
first buffer if another one is in use. -/
def programName (dos : Dos) (program : Bytes) (lfn : Bool) : M Bytes := do
  checkTalloc dos (program.length + 1)
  fun s =>
    match if lfn then dos.truename (dos.putPath program) else some (dos.putPath program) with
    | none => .error .dosError s
    | some name =>
      let la := if s.tbufBeg = dos.tb then s.tbufPtr else dos.tb
      .ok name { s with mem := put s.mem la (name ++ [0]) }

/-- The offsets of the parts of the layout in the buffer. -/
structure Offsets where
  program : ℕ
  arg : ℕ
  parm : ℕ
  fcb1 : ℕ
  fcb2 : ℕ
  env : ℕ

/-- `do env_la = talloc(1); while (env_la & 15);`, for at most `fuel` repetitions. -/
def tallocAligned : ℕ → M ℕ
  | 0 => talloc 1
  | fuel + 1 => do
    let la ← talloc 1
    if la % 16 = 0 then return la else tallocAligned fuel

def longArgs (args : Bytes) (cmdlineVar : Option Bytes) : Bool :=
  cmdlenLimit < args.length && cmdlineVar.isSome

def tailLength (args : Bytes) (cmdlineVar : Option Bytes) : UInt8 :=
  if longArgs args cmdlineVar then 127 else ofNat (min args.length cmdlenLimit)

/-- The name, the command tail, the space for the parameter block, the two file control blocks and
the place of the environment, on a segment boundary. -/
def putHead (dos : Dos) (progname args : Bytes) (cmdlineVar : Option Bytes) : M Offsets := do
  checkTalloc dos (progname.length + 1 + args.length + 3 + sizeofExecp + 48)
  let programLa ← talloc (progname.length + 1 : ℕ)
  let argLa ← talloc (args.length + 3 : ℕ)
  let parmLa ← talloc sizeofExecp
  dosmemput (progname ++ [0]) programLa
  dosmemput [tailLength args cmdlineVar] argLa
  dosmemput (args.take cmdlenLimit) (argLa + 1)
  dosmemput [13] (argLa + 1 + min args.length cmdlenLimit)
  let fcb1La ← talloc 16
  dosmemput (List.ofFn dos.fcb1) fcb1La
  let fcb2La ← talloc 16
  dosmemput (List.ofFn dos.fcb2) fcb2La
  let envLa ← tallocAligned 15
  let _ ← talloc (-1)
  let beg := (← get).tbufBeg
  return ⟨programLa - beg, argLa - beg, parmLa - beg, fcb1La - beg, fcb2La - beg, envLa - beg⟩

/-- The entry for `!proxy` of an environment. -/
def isProxyVar (ep : Bytes) : Bool := (proxyName ++ [61]).isPrefixOf ep

/-- The entry for `CMDLINE` of an environment. -/
def isCmdlineVar (ep : Bytes) : Bool := cmdlineStr.isPrefixOf ep

/-- An entry of the environment of the child, and whether it is the `!proxy` one. -/
def envEntry (proxy : Option Bytes) (longArgs : Bool) (cmdlineVar : Option Bytes) (ep : Bytes) :
    Option (Bytes × Bool) :=
  if isProxyVar ep then proxy.map (·, true)
  else if longArgs && isCmdlineVar ep then some (cmdlineVar.getD [], false)
  else some (ep, false)

/-- The environment of the child: `!proxy` and `CMDLINE` are replaced, or added at the end. -/
def environment (envp : List Bytes) (proxy : Option Bytes) (longArgs : Bool)
    (cmdlineVar : Option Bytes) : List (Bytes × Bool) :=
  envp.filterMap (envEntry proxy longArgs cmdlineVar) ++
    (if envp.any isProxyVar then [] else (proxy.map (·, true)).toList) ++
    (if longArgs && !envp.any (fun ep => !isProxyVar ep && isCmdlineVar ep) then
      (cmdlineVar.map (·, false)).toList
    else [])

/-- The environment is laid out; the result is the offset of the `!proxy` command line. -/
def putEnvironment (dos : Dos) : List (Bytes × Bool) → ℕ → M ℕ
  | [], proxyOff => return proxyOff
  | (ep, haveProxy) :: env, proxyOff => do
    checkTalloc dos (ep.length + 1)
    let la ← talloc (ep.length + 1 : ℕ)
    dosmemput (ep ++ [0]) la
    let beg := (← get).tbufBeg
    putEnvironment dos env (if haveProxy then la - beg else proxyOff)

/-- The end of the environment, with the name of the program that owns it. -/
def putOwner (dos : Dos) (progname : Bytes) : M Unit := do
  checkTalloc dos (3 + (progname.length + 1))
  let la ← talloc 3
  dosmemput [0, 1, 0] la
  let la ← talloc (progname.length + 1 : ℕ)
  dosmemput (progname ++ [0]) la

/-- The segments in the `!proxy` command line are corrected if the buffer has moved since it was
made; it is taken to have moved if it has another selector. -/
def patchProxy (initialSelector proxyOff : ℕ) : M Unit := do
  let s ← get
  if initialSelector ≠ s.tbufSelector ∧ proxyOff ≠ 0 then
    let temp := (peek s.mem (s.tbufBeg + proxyOff) 64).takeWhile fun c => c != 13 && c != 0
    dosmemput (hex4 true (s.tbufBeg / 16)) (s.tbufBeg + proxyOff + 13)
    if 23 < temp.length then dosmemput (hex4 true (s.tbufBeg / 16)) (s.tbufBeg + proxyOff + 23)

/-- The parameter block. -/
def putParm (off : Offsets) (env : List Bytes) : M Launch := do
  let beg := (← get).tbufBeg
  let segment := fun o => (beg + o) / 16 % 0x10000
  let parm : Execp := ⟨segment off.env, (beg + off.arg) % 16, segment off.arg,
    (beg + off.fcb1) % 16, segment off.fcb1, (beg + off.fcb2) % 16, segment off.fcb2⟩
  dosmemput parm.bytes (beg + off.parm)
  return ⟨beg + off.program, beg + off.parm, parm, env⟩

/-- `direct_exec_tail_1` and `direct_exec_tail`, up to the call of DOS. -/
def directExecTail (dos : Dos) (program args : Bytes) (envp : List Bytes) (proxy : Option Bytes)
    (lfn : Bool) (cmdlineVar : Option Bytes) : M Launch := do
  let initialSelector := (← get).tbufSelector
  let progname ← programName dos program lfn
  let off ← putHead dos progname args cmdlineVar
  let env := environment envp proxy (longArgs args cmdlineVar) cmdlineVar
  let proxyOff ← putEnvironment dos env
    (if (proxyName ++ [blank]).isPrefixOf args then off.arg + 1 else 0)
  putOwner dos progname
  patchProxy initialSelector proxyOff
  putParm off (env.map (·.1))

/-! ### The functions that start a program -/

/-- `exec_format` and `object_format` of `_v2_prog_type`. -/
inductive ExecFormat
  | coff
  | stubCoff
  | exe
  | unixScript
  | unknown
  deriving DecidableEq

@[inherit_doc ExecFormat]
inductive ObjectFormat
  | coff
  | peCoff
  | unknown
  deriving DecidableEq

/-- `_v1_stubinfo`: the loader that the program asks for, and the whole structure. -/
structure StubInfo where
  go32 : Bytes
  bytes : Bytes

/-- `_v2_prog_type`, as `_check_v2_prog` fills it: only v1 stubs have a structure. -/
structure ProgType where
  execFormat : ExecFormat
  objectFormat : ObjectFormat
  major : ℕ
  stubinfo : Option StubInfo
  major_of_stubinfo : stubinfo.isSome → major = 1

/-- What the functions find in the file system: the file behind symbolic links, the kind of a
program, and the file found on the path. -/
structure Disk where
  solveSymlinks : Bytes → Option Bytes
  checkV2Prog : Bytes → ProgType
  findOnPath : Bytes → List Bytes → Option Bytes

def directPeExec (dos : Dos) (sys : System) (program : Bytes) (argv envp : List Bytes) : M Launch :=
  let (args, cmdlineVar) := directPeExecArgs sys program argv
  directExecTail dos program args envp none dos.useLfn cmdlineVar

def directExec (dos : Dos) (sys : System) (program : Bytes) (argv envp : List Bytes) : M Launch :=
  if (isDosShell program || isUnixyShell program) &&
      cmdlenLimit < shellCmdlineLimit sys program then
    directPeExec dos sys program argv envp
  else directExecTail dos program (directExecArgs sys program argv) envp none dos.useLfn none

def commandExec (dos : Dos) (sys : System) (disk : Disk) (program : Bytes)
    (argv envp : List Bytes) :
    M Launch :=
  match disk.solveSymlinks program with
  | none => throw .noProgram
  | some real =>
    let shell := comspec sys envp
    let (args, cmdlineVar) := commandExecArgs sys shell (commandLine sys program real argv)
    directExecTail dos shell args envp none dos.useLfn cmdlineVar

/-- The words of the command tail that `go32_exec` makes for v2.0 programs run by `system`. -/
def systemTail : List Bytes → Bytes → Bytes
  | [], line => line
  | p :: args, line =>
    if cmdlenLimit < line.length then line
    else systemTail args (line ++ [blank] ++ p.take (cmdlenLimit + 1 - (line.length + 1)))

/-- `proxy_cmdline`, with the character after `!proxy`. -/
def proxyCmdline (sep : UInt8) (argc seg rmOff : ℕ) (siOff : Option ℕ) : Bytes :=
  proxyName ++ [sep] ++ hex4 false argc ++ [blank] ++ hex4 false seg ++ [blank] ++
    hex4 false rmOff ++
    match siOff with
    | none => []
    | some off => [blank] ++ hex4 false seg ++ [blank] ++ hex4 false off

/-- The arguments are laid out, with their offsets in the table that starts at `argvOff`. -/
def putArgs (dos : Dos) : List Bytes → ℕ → M ℕ
  | [], argvOff => return argvOff
  | arg :: args, argvOff => do
    checkTalloc dos (arg.length + 1)
    let q ← talloc (arg.length + 1 : ℕ)
    dosmemput (arg ++ [0]) q
    let beg := (← get).tbufBeg
    farpokew (beg + argvOff) (q - beg)
    putArgs dos args (argvOff + 2)

/-- The space that `go32_exec` asks for: `found_si ? struct_length : 0 + (argc+1)*sizeof(short)`, as
the conditional operator binds. -/
def imageRequest (stubinfo : Option StubInfo) (argc : ℕ) : ℕ :=
  match stubinfo with
  | some info => info.bytes.length
  | none => 0 + (argc + 1) * 2

/-- The stub information, if there is one; the result is its offset. -/
def putStubInfo : Option StubInfo → M (Option ℕ)
  | none => return none
  | some info => do
    let la ← talloc info.bytes.length
    dosmemput info.bytes la
    let beg := (← get).tbufBeg
    return some (la - beg)

/-- The table of the arguments and the arguments; the result is the `!proxy` command line. -/
def putTable (dos : Dos) (sep : UInt8) (argv : List Bytes) (siOff : Option ℕ) : M Bytes := do
  let la ← talloc ((argv.length + 1) * 2 : ℕ)
  let rmOff := la - (← get).tbufBeg
  let argvOff ← putArgs dos argv rmOff
  let beg := (← get).tbufBeg
  farpokew (beg + argvOff) 0
  return proxyCmdline sep argv.length (beg / 16) rmOff siOff

/-- What `go32_exec` lays out before the layout for DOS. -/
def putImage (dos : Dos) (sep : UInt8) (stubinfo : Option StubInfo) (argv : List Bytes) :
    M Bytes := do
  checkTalloc dos (imageRequest stubinfo argv.length)
  let siOff ← putStubInfo stubinfo
  putTable dos sep argv siOff

/-- `go32_exec` for programs that are not COFF ones. -/
def otherExec (dos : Dos) (sys : System) (disk : Disk) (type : ProgType) (real : Bytes)
    (argv envp : List Bytes) : M Launch :=
  if type.execFormat = .exe ∨ sameName (real.drop (real.length - 4)) (text ".com") then
    if type.objectFormat ≠ .peCoff then directExec dos sys real argv envp
    else directPeExec dos sys real argv envp
  else commandExec dos sys disk real argv envp

/-- `rpath`: a stubbed v2 program itself, or the loader of another program if it is found. -/
def loaderPath (disk : Disk) (type : ProgType) (real : Bytes) (envp : List Bytes) : Option Bytes :=
  let go32 := match type.stubinfo with
    | some info => info.go32
    | none => if 1 < type.major ∧ type.execFormat ≠ .stubCoff then text "go32-v2.exe"
      else text "go32.exe"
  if 1 < type.major ∧ type.execFormat = .stubCoff then some real else disk.findOnPath go32 envp

/-- `go32_exec` for programs that take their arguments from memory.  For v2 programs run by `system`
the `!proxy` command line is passed in the environment, and there is a command tail as well. -/
def proxyExec (dos : Dos) (sys : System) (type : ProgType) (program rpath : Bytes)
    (argv envp : List Bytes) : M Launch := do
  let argv := program :: argv.drop 1
  let viaSystem := sys.inSystem && 1 < type.major
  let proxy ← putImage dos (if viaSystem then 61 else blank) type.stubinfo argv
  if viaSystem then
    directExecTail dos rpath (systemTail (if type.execFormat = .stubCoff then
      argv.drop 1 else argv) [])
      envp (some proxy) dos.useLfn none
  else directExecTail dos rpath proxy envp none dos.useLfn none

def go32Exec (dos : Dos) (sys : System) (disk : Disk) (program : Bytes) (argv envp : List Bytes) :
    M Launch :=
  match disk.solveSymlinks program with
  | none => throw .noProgram
  | some real =>
    let type := disk.checkV2Prog real
    if type.execFormat = .unixScript then throw .script
    else if type.objectFormat ≠ .coff then otherExec dos sys disk type real argv envp
    else
      match loaderPath disk type real envp with
      | none => directExec dos sys real argv envp
      | some rpath => proxyExec dos sys type program rpath argv envp

end Exec
