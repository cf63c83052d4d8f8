import Dj64.Exec.Arguments

/-!
# The environment

The array `_environ` ends with `NULL`; `putenv` edits it in place, with two counters for its entries
and its slots that are computed again when a program is started or `_environ` points to another
array.
-/

namespace Environ

open Exec List

/-- The value in an entry of the environment, if the entry is for `np`. -/
def valueOf : Bytes → Bytes → Option Bytes
  | e :: ep, n :: np => if e = n ∧ n ≠ 61 then valueOf ep np else none
  | e :: ep, [] => if e = 61 then some ep else none
  | [], _ => none

def getenv (environ : List Bytes) (name : Bytes) : Option Bytes :=
  environ.findSome? fun ep => valueOf ep name

theorem valueOf_eq_some_iff {ep name value : Bytes} (hn : 61 ∉ name) :
    valueOf ep name = some value ↔ ep = name ++ 61 :: value := by
  induction name generalizing ep with
  | nil =>
    cases ep <;> simp [valueOf]
  | cons n name ih =>
    rw [mem_cons, not_or] at hn
    cases ep with
    | nil => simp [valueOf]
    | cons e ep =>
      rw [valueOf, cons_append, cons.injEq, ← ih hn.2]
      by_cases he : e = n
      · rw [if_pos ⟨he, Ne.symm hn.1⟩]
        exact (and_iff_right he).symm
      · rw [if_neg fun h => he h.1]
        exact iff_of_false (Option.some_ne_none value).symm fun h => he h.1

/-! ### The array -/

/-- An access outside of the array. -/
inductive Fault
  | outOfBounds
  deriving DecidableEq

/-- A loop over the array that stops at an entry with `p` or at `NULL`: the index and the entry. -/
def scan (p : Bytes → Bool) : ℕ → List (Option Bytes) → Except Fault (ℕ × Option Bytes)
  | _, [] => .error .outOfBounds
  | i, none :: _ => .ok (i, none)
  | i, some e :: slots => if p e then .ok (i, some e) else scan p (i + 1) slots

/-- An assignment to a slot. -/
def store (slots : List (Option Bytes)) (i : ℕ) (x : Option Bytes) :
    Except Fault (List (Option Bytes)) :=
  if i < slots.length then .ok (slots.set i x) else .error .outOfBounds

/-- The value of a slot. -/
def load (slots : List (Option Bytes)) (i : ℕ) : Except Fault (Option Bytes) :=
  match slots[i]? with
  | some x => .ok x
  | none => .error .outOfBounds

/-- The array `_environ`, which is not `NULL`, and the static variables of `putenv.c`; the pointers
to arrays are numbers. -/
structure Env where
  bssCount : ℤ
  putenvBssCount : ℤ
  environ : ℕ
  prevEnviron : Option ℕ
  slots : List (Option Bytes)
  ecount : ℕ
  emax : ℕ
  environChanged : UInt32

/-- Whether an array and an entry can be allocated, and what is in a new array. -/
structure Malloc where
  table : Bool
  entry : Bool
  garbage : ℕ → Option Bytes

namespace Env

variable (s : Env) (mem : Malloc)

/-- The counters are computed again if a program has been started or the array is another one. -/
def recount : Except Fault Env :=
  if s.putenvBssCount ≠ s.bssCount ∨ s.prevEnviron ≠ some s.environ then do
    let (ecount, _) ← scan (fun _ => false) 0 s.slots
    let s := { s with ecount := ecount, emax := ecount, environChanged := s.environChanged + 1 }
    if s.putenvBssCount ≠ s.bssCount then
      return { s with putenvBssCount := s.bssCount, prevEnviron := some s.environ }
    else return s
  else return s

/-- The last entry takes the place of the one that is deleted. -/
def delete (eindex : ℕ) : Except Fault Env := do
  if s.ecount = 0 then .error .outOfBounds
  else
    let slots ← store s.slots eindex (← load s.slots (s.ecount - 1))
    return { s with
      slots := ← store slots (s.ecount - 1) none
      ecount := s.ecount - 1
      environChanged := s.environChanged + 1 }

/-- The array is copied to one with ten more slots. -/
def grow : Except Fault Env :=
  if s.slots.length < s.ecount then .error .outOfBounds
  else
    return { s with
      emax := s.emax + 10
      slots := s.slots.take s.ecount ++ (range (s.emax + 10 + 1 - s.ecount)).map mem.garbage
      environ := s.environ + 1
      prevEnviron := some (s.environ + 1) }

def makeRoom : Except Fault Env := if s.emax ≤ s.ecount then s.grow mem else .ok s

/-- A new entry. -/
def create (val : Bytes) : Except Fault (Env × ℤ) := do
  if s.emax ≤ s.ecount ∧ !mem.table then return ({ s with emax := s.emax + 10 }, -1)
  else
    let s ← s.makeRoom mem
    if !mem.entry then return ({ s with slots := ← store s.slots s.ecount none }, -1)
    else
      let slots ← store s.slots s.ecount (some val)
      return ({ s with
        slots := ← store slots (s.ecount + 1) none
        ecount := s.ecount + 1
        environChanged := s.environChanged + 1 }, 0)

/-- An entry whose first `nlen` bytes are those of `val`; without an equals sign in `val`, one
follows. -/
def isEntry (val : Bytes) (nlen : ℕ) (e : Bytes) : Bool :=
  e.take nlen == val.take nlen && (val.contains 61 || e[nlen]? == some 61)

def putenv (val : Bytes) : Except Fault (Env × ℤ) := do
  let nlen := if val.contains 61 then val.idxOf 61 + 1 else val.length
  let s ← s.recount
  let (eindex, found) ← scan (isEntry val nlen) 0 s.slots
  match found with
  | some oval =>
    if !val.contains 61 then return (← s.delete eindex, 0)
    else if oval.drop nlen = val.drop nlen then return (s, 0)
    else if val.length ≠ oval.length ∧ !mem.entry then return (s, -1)
    else
      return ({ s with
        slots := ← store s.slots eindex (some val)
        environChanged := s.environChanged + 1 }, 0)
  | none => if !val.contains 61 then return (s, 0) else s.create mem val

def getenv (name : Bytes) : Except Fault (Option Bytes) := do
  let (_, found) ← scan (fun e => (valueOf e name).isSome) 0 s.slots
  return found.bind fun e => valueOf e name

/-- `setenv`; `none` is `NULL`. -/
def setenv (var val : Option Bytes) (replace : Bool) : Except Fault (Env × ℤ) :=
  match var, val with
  | some var, some val => do
    let prev ← s.getenv var
    if prev.isSome ∧ !replace then return (s, 0)
    else
      let val := if val.head? = some 61 then val.tail else val
      s.putenv mem (var.takeWhile (· != 61) ++ 61 :: val)
  | _, _ => .ok (s, -1)

/-- `unsetenv`; `none` is `NULL`. -/
def unsetenv (name : Option Bytes) : Except Fault (Env × ℤ) :=
  match name with
  | some name =>
    if name = [] ∨ name.contains 61 then .ok (s, -1)
    else do
      let (s, _) ← s.putenv mem name
      return (s, 0)
  | none => .ok (s, -1)

end Env

end Environ
