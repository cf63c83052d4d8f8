import Dj64.Lib.Outcomes
import Dj64.Thunks.Contexts

/-!
# Nested calls between 32-bit and 64-bit code

The 32-bit side enters C code with `dj64_call`; C code calls back with `dj64_asm_call` and leaves
for good with `dj64_asm_noret`; either may be entered again before it returns.  A run is a tree:
`Code` is what one activation of C code does until it ends, `Host` is what happens on the other
side meanwhile.

What C code does with its own memory, the registers and the thunk numbers are left out.  The handle
that `dj64api->get_handle` returns is the one of the running code.
-/

namespace Thunks

open Outcomes Function Swap

def maxObjs : ℕ := 50

def maxRecur : ℕ := 10

def maxHandles : ℕ := 10

/-- `struct udisp`.  A `jmp_buf` is named by the activation of `_dj64_call` that it belongs to. -/
structure Udisp where
  recurCnt : ℕ
  objcnt : ℤ
  noretJmp : Option ℕ
  objs : ℕ → ℕ → ℕ

namespace Udisp

def row (u : Udisp) : ℕ → ℕ := u.objs (u.recurCnt - 1)

def setRow (u : Udisp) (i fa : ℕ) : Udisp :=
  { u with objs := update u.objs (u.recurCnt - 1) (update u.row i fa) }

/-- `fa` is an object of the current level. -/
def Owns (u : Udisp) (fa : ℕ) : Prop := fa ≠ 0 ∧ ∃ i < maxObjs, u.row i = fa

instance (u : Udisp) (fa : ℕ) : Decidable (u.Owns fa) :=
  inferInstanceAs (Decidable (fa ≠ 0 ∧ ∃ i < maxObjs, u.row i = fa))

def rowCount (row : ℕ → ℕ) : ℕ := ((Finset.range maxObjs).filter (row · ≠ 0)).card

/-- The number of non-zero entries of `objs`. -/
def liveObjs (u : Udisp) : ℕ := ∑ r ∈ Finset.range maxRecur, rowCount (u.objs r)

end Udisp

/-- The value that `longjmp` passes: `ASM_NORET` or `ASM_ABORT`. -/
inductive Jump
  | noret
  | abort
  deriving DecidableEq

/-- `DJ64_RET_OK`, `DJ64_RET_NORET`, `DJ64_RET_ABORT`. -/
inductive Ret
  | ok
  | noret
  | abort
  deriving DecidableEq

/-- How the dispatched code ends. -/
inductive Exit
  | returned
  | jumped (target : ℕ) (rc : Jump)

/-- A return of `dj64_call`: the state of the handle at entry and at exit. -/
structure Return where
  handle : ℕ
  entry : Udisp
  exit : Udisp
  ret : Ret

/-- A `longjmp`: where it goes, and the innermost active `_dj64_call` of the handle. -/
structure Longjmp where
  target : ℕ
  innermost : Option ℕ

/-- The ways in which the library can misbehave. -/
inductive Fault
  | assertion
  | nullSave
  | nullContext
  | nullObj
  | objsBounds
  | nullJmp
  | wildJump
  deriving DecidableEq

/-- Why a run stops early. -/
inductive Stop
  | fault (f : Fault)
  | outside
  deriving DecidableEq

variable {V : Type}

/-- The state of the library.  `alive`, `frames`, `next`, `jumps` and `returns` are not stored by
the C code: the handles between `DJ64_INIT_FN` and `DJ64_DONE_FN`, the active calls with their
handles, the name of the next activation, and what has happened so far. -/
structure State (V : Type) where
  udisps : ℕ → Udisp
  swap : Swap V
  alive : ℕ → Bool
  frames : List (ℕ × ℕ)
  next : ℕ
  jumps : List Longjmp
  returns : List Return

namespace State

def setUdisp (s : State V) (h : ℕ) (u : Udisp) : State V :=
  { s with udisps := update s.udisps h u }

def setSwap (s : State V) (w : Swap V) : State V := { s with swap := w }

variable (s : State V) (h : ℕ) (u u' : Udisp) (w : Swap V)

@[simp] theorem setUdisp_self : (s.setUdisp h u).udisps h = u := update_self ..

theorem setUdisp_of_ne {i : ℕ} (hi : i ≠ h) : (s.setUdisp h u).udisps i = s.udisps i :=
  update_of_ne hi ..

@[simp] theorem setUdisp_setUdisp : (s.setUdisp h u).setUdisp h u' = s.setUdisp h u' := by
  simp [setUdisp]

@[simp] theorem setUdisp_swap : (s.setUdisp h u).swap = s.swap := rfl
@[simp] theorem setUdisp_frames : (s.setUdisp h u).frames = s.frames := rfl
@[simp] theorem setUdisp_alive : (s.setUdisp h u).alive = s.alive := rfl
@[simp] theorem setSwap_udisps : (s.setSwap w).udisps = s.udisps := rfl
@[simp] theorem setSwap_swap : (s.setSwap w).swap = w := rfl
@[simp] theorem setSwap_frames : (s.setSwap w).frames = s.frames := rfl
@[simp] theorem setSwap_alive : (s.setSwap w).alive = s.alive := rfl

end State

/-- What the calls rely on: the initial records, the allocator behind the DOS objects, and for each
handle the libraries with user thunks. -/
structure Library (V : Type) where
  init : Context → ℕ → Var → V
  malloc32 : ℕ → (Var → V) → Var → V
  free32 : ℕ → (Var → V) → Var → V
  pt : ℕ → ℕ → Bool

abbrev M (V : Type) : Type → Type := EStateM Stop (State V)

/-! ### Steps -/

def assume (c : Prop) [Decidable c] : M V Unit := if c then pure () else throw .outside

def ensure (c : Prop) [Decidable c] (f : Fault) : M V Unit :=
  if c then pure () else throw (.fault f)

def modifyUdisp (h : ℕ) (f : Udisp → Udisp) : M V Unit :=
  modify fun s => s.setUdisp h (f (s.udisps h))

def modifySwap (f : Swap V → Swap V) : M V Unit := modify fun s => s.setSwap (f s.swap)

/-- A step of the contexts that may dereference a `NULL` pointer. -/
def trySwap (f : Swap V → Option (Swap V)) (e : Fault) : M V Unit := do
  match f (← get).swap with
  | some w => modifySwap fun _ => w
  | none => throw (.fault e)

/-- The save hooks, after which code of `h` stops running. -/
def suspend (h : ℕ) : M V Unit := do
  trySwap save .nullSave
  modifySwap (stop h)

/-- The restore hooks, after which code of `h` is running. -/
def resume (h : ℕ) : M V Unit := modifySwap fun w => (w.restore h).start h

/-- `find_oh`: the position of `addr` in the row of the current level. -/
def findOh (h addr : ℕ) : M V ℕ := do
  let u := (← get).udisps h
  ensure (0 < u.recurCnt ∧ u.recurCnt ≤ maxRecur) .objsBounds
  match (List.range maxObjs).find? fun i => u.row i = addr with
  | some i => pure i
  | none => throw (.fault .nullObj)

/-- `do_obj_init`, where `fa` is what `mk_dosobj` returns. -/
def doObjInit (L : Library V) (h : ℕ) (isDosPtr : Bool) (fa : ℕ) : M V Unit := do
  if isDosPtr then return
  ensure (h < maxHandles) .assertion
  let u := (← get).udisps h
  -- `mk_dosobj` returns a new address, and there is room for it
  assume (fa ≠ 0 ∧ ¬ u.Owns fa ∧ Udisp.rowCount u.row < maxObjs)
  trySwap (heap32 (L.malloc32 fa)) .nullContext
  modifyUdisp h fun u => { u with objcnt := u.objcnt + 1 }
  let i ← findOh h 0
  modifyUdisp h fun u => u.setRow i fa

def doRmDosobj (L : Library V) (h fa : ℕ) : M V Unit := do
  trySwap (heap32 (L.free32 fa)) .nullContext
  let i ← findOh h fa
  modifyUdisp h fun u => u.setRow i 0
  modifyUdisp h fun u => { u with objcnt := u.objcnt - 1 }

/-- `dj64_obj_done` and `dj64_rm_dosobj`, which differ in copying the object's data back. -/
def objDone (L : Library V) (h : ℕ) (isDosPtr : Bool) (fa : ℕ) : M V Unit := do
  if isDosPtr then return
  ensure (h < maxHandles) .assertion
  -- the code releases its own objects
  assume (((← get).udisps h).Owns fa)
  doRmDosobj L h fa

/-- The innermost active `_dj64_call` of a handle. -/
def innermost (h : ℕ) (frames : List (ℕ × ℕ)) : Option ℕ := (frames.find? (·.1 = h)).map (·.2)

def longjmp (h : ℕ) (rc : Jump) : M V Exit := do
  match ((← get).udisps h).noretJmp with
  | some target =>
    modify fun s => { s with jumps := s.jumps ++ [⟨target, innermost h s.frames⟩] }
    pure (.jumped target rc)
  | none => throw (.fault .nullJmp)

/-- The thunks exist: the core ones always do. -/
def Library.thunks (L : Library V) (h : ℕ) : Option ℕ → Bool
  | none => true
  | some libid => L.pt h libid

/-- `dj64_asm_call` (`lib = none`) and `dj64_asm_call_u`, with what the other side does and whether
it ends in `ASM_CALL_ABORT`; `k` is what the code does next. -/
def asmCall (L : Library V) (h : ℕ) (lib : Option ℕ) (host : M V Unit) (abort : Bool)
    (k : M V Exit) : M V Exit := do
  if L.thunks h lib then
    suspend h
    host
    if abort then longjmp h .abort
    else
      resume h
      k
  else k

/-- `dj64_asm_noret` (`lib = none`) and `dj64_asm_noret_u`. -/
def asmNoret (L : Library V) (h : ℕ) (lib : Option ℕ) (host : M V Unit) : M V Exit := do
  if L.thunks h lib then
    suspend h
    host
    resume h
    longjmp h .noret
  else longjmp h .abort

/-- One round of the loop of `_dj64_call` that collects lost objects. -/
def gcRound (L : Library V) (h i : ℕ) : M V Unit := do
  let u := (← get).udisps h
  if u.row i ≠ 0 then doRmDosobj L h (u.row i)

def gc (L : Library V) (h : ℕ) : List ℕ → M V Unit
  | [] => pure ()
  | i :: is => do
    gcRound L h i
    gc L h is

/-- `_dj64_call`: `body` runs after `setjmp`, and a `longjmp` comes back here. -/
def dj64CallInner (L : Library V) (h : ℕ) (body : M V Exit) : M V Ret := do
  let id := (← get).next
  modify fun s => { s with frames := (h, id) :: s.frames, next := id + 1 }
  modifyUdisp h fun u => { u with noretJmp := some id }
  match ← body with
  | .returned => pure .ok
  | .jumped target rc =>
    ensure (target = id) .wildJump
    resume h
    gc L h (List.range maxObjs)
    pure (if rc = .noret then .noret else .abort)

/-- The end of `dj64_call`: the variables are saved after a normal return only. -/
def leaveContexts (h : ℕ) (ret : Ret) : M V Unit :=
  if ret = .ok then suspend h else modifySwap (stop h)

def dj64Call (L : Library V) (h : ℕ) (body : M V Exit) : M V Ret := do
  -- only handles in use are called, and not too deeply
  assume ((← get).alive h = true ∧ ((← get).udisps h).recurCnt < maxRecur)
  ensure (h < maxHandles) .assertion
  let u := (← get).udisps h
  ensure (u.recurCnt < maxRecur) .assertion
  modifyUdisp h fun u => { u with recurCnt := u.recurCnt + 1 }
  resume h
  let ret ← dj64CallInner L h body
  ensure (((← get).udisps h).objcnt = u.objcnt) .assertion
  modifyUdisp h fun u' => { u' with noretJmp := u.noretJmp }
  modify fun s => { s with frames := s.frames.tail }
  leaveContexts h ret
  modifyUdisp h fun u => { u with recurCnt := u.recurCnt - 1 }
  modify fun s => { s with returns := s.returns ++ [⟨h, u, s.udisps h, ret⟩] }
  pure ret

/-- `DJ64_INIT_FN`, for a handle not in use. -/
def initFn (L : Library V) (h : ℕ) : M V Unit := do
  assume (h < maxHandles ∧ (← get).alive h = false)
  ensure (h < maxHandles) .assertion
  trySwap (init L.init h) .assertion
  modify fun s => { s with alive := update s.alive h true }

/-- `DJ64_DONE_FN`, for a handle in use without active calls. -/
def doneFn (h : ℕ) : M V Unit := do
  assume ((← get).alive h = true ∧ ((← get).udisps h).recurCnt = 0)
  modifySwap deinit
  ensure (h < maxHandles) .assertion
  modify fun s => { s with alive := update s.alive h false }

/-! ### Runs -/

mutual

/-- What an activation of C code does: assign to a swapped variable, create and release DOS
objects, call 32-bit code, and at the end return or leave through `dj64_asm_noret`. -/
inductive Code (V : Type)
  | ret
  | noret (lib : Option ℕ) (host : Host V)
  | assign (t : Context) (v : Var) (val : V) (k : Code V)
  | objInit (isDosPtr : Bool) (fa : ℕ) (k : Code V)
  | objDone (isDosPtr : Bool) (fa : ℕ) (k : Code V)
  | asmCall (lib : Option ℕ) (host : Host V) (abort : Bool) (k : Code V)

/-- What the other side does: enter C code of a handle, start and end programs. -/
inductive Host (V : Type)
  | nil
  | call (h : ℕ) (code : Code V) (rest : Host V)
  | init (h : ℕ) (rest : Host V)
  | done (h : ℕ) (rest : Host V)

end

mutual

/-- C code of the handle `h`. -/
def runCode (L : Library V) (h : ℕ) : Code V → M V Exit
  | .ret => do
    -- the code has released its objects
    assume (Udisp.rowCount ((← get).udisps h).row = 0)
    pure .returned
  | .noret lib host => asmNoret L h lib (runHost L host)
  | .assign t v val k => do
    trySwap (assign t v val) .nullContext
    runCode L h k
  | .objInit isDosPtr fa k => do
    doObjInit L h isDosPtr fa
    runCode L h k
  | .objDone isDosPtr fa k => do
    objDone L h isDosPtr fa
    runCode L h k
  | .asmCall lib host abort k => asmCall L h lib (runHost L host) abort (runCode L h k)

/-- The other side. -/
def runHost (L : Library V) : Host V → M V Unit
  | .nil => pure ()
  | .call h code rest => do
    let _ ← dj64Call L h (runCode L h code)
    runHost L rest
  | .init h rest => do
    initFn L h
    runHost L rest
  | .done h rest => do
    doneFn h
    runHost L rest

end

/-- The library before any program is started; the memory of the contexts holds `v`. -/
def boot (v : V) : State V where
  udisps _ := ⟨0, 0, none, fun _ _ => 0⟩
  swap := ⟨fun _ => ⟨fun _ _ => v, none, fun _ => v⟩, fun _ _ _ => none, []⟩
  alive _ := false
  frames := []
  next := 0
  jumps := []
  returns := []

end Thunks
