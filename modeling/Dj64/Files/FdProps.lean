import Dj64.Exec.CommandLines
import Dj64.Lib.Runs

/-!
# Properties of file descriptors

Descriptors that refer to one open file share an object with its name and flags.  The objects in use
are in one list, those that have been released in another, and the last descriptor of a temporary
file deletes it unless the list has another object with its name.
-/

namespace Properties

open Exec Function

def fileDescTemporary : UInt64 := 0x01

def fileDescAppend : UInt64 := 0x10

def oTemporary : UInt32 := 0x10000

def oAppend : UInt32 := 0x1000

/-- `struct fd_properties`; a pointer is a number, and `0` is `NULL`. -/
structure FdProperties where
  refCount : UInt8
  filename : Option Bytes
  flags : UInt64
  prev : ℕ
  next : ℕ
  deriving DecidableEq

abbrev Mem := ℕ → FdProperties

def Mem.modify (m : Mem) (p : ℕ) (f : FdProperties → FdProperties) : Mem :=
  update m p (f (m p))

/-- The variables of `fd_props.c`, with the number of objects that `malloc` has returned (they are
numbered from one) and the files that were deleted, the latest first. -/
structure State where
  bssCount : ℤ
  oldBssCount : ℤ
  fdProperties : Option (ℕ → ℕ)
  activeFds : ℕ
  cachedFds : ℕ
  mem : Mem
  allocated : ℕ
  removed : List Bytes

/-- The state when a program starts. -/
def State.start (bssCount : ℤ) : State :=
  { bssCount := bssCount, oldBssCount := 0, fdProperties := none, activeFds := 0, cachedFds := 0,
    mem := fun _ => ⟨0, none, 0, 0, 0⟩, allocated := 0, removed := [] }

/-- The object of a descriptor. -/
def State.fd (s : State) (i : ℕ) : ℕ :=
  match s.fdProperties with
  | some table => table i
  | none => 0

/-- Accesses through `NULL`, and a search that does not end. -/
inductive Fault
  | nullTable
  | nullName
  | endless
  deriving DecidableEq

/-! ### Lists -/

/-- `insert_list`: the objects and the new head. -/
def insertList (m : Mem) (head item : ℕ) : Mem × ℕ :=
  let m := m.modify item fun p => { p with next := head, prev := 0 }
  let m := if head ≠ 0 then m.modify head fun p => { p with prev := item } else m
  (m, item)

/-- `remove_list`: the objects and the new head.  The links of `item` are cleared before they are
read for its successor and for the head. -/
def removeList (m : Mem) (head item : ℕ) : Mem × ℕ :=
  let m :=
    if (m item).prev ≠ 0 then
      (m.modify (m item).prev fun p => { p with next := (m item).next }).modify item
        fun p => { p with prev := 0 }
    else m
  let m :=
    if (m item).next ≠ 0 then
      (m.modify (m item).next fun p => { p with prev := (m item).prev }).modify item
        fun p => { p with next := 0 }
    else m
  (m, if head = item then (m head).next else head)

/-! ### Calls -/

/-- `find_eq_filename`, from `ptr` on; `fuel` bounds the rounds. -/
def findEqFilename (m : Mem) (fd : ℕ) : ℕ → ℕ → Except Fault ℕ
  | 0, _ => .error .endless
  | fuel + 1, ptr =>
    if ptr = 0 then .ok 0
    else if ptr ≠ fd then
      match (m fd).filename, (m ptr).filename with
      | some name, some other =>
        if sameName name other then .ok ptr else findEqFilename m fd fuel (m ptr).next
      | _, _ => .error .nullName
    else findEqFilename m fd fuel (m ptr).next

def State.findEqFilename (s : State) (fd : ℕ) : Except Fault ℕ :=
  Properties.findEqFilename s.mem fd (s.allocated + 1) s.activeFds

def openFd (openFlags : UInt32) (p : FdProperties) : FdProperties :=
  let flags : UInt64 := 0
  let flags :=
    if p.filename.isSome ∧ openFlags &&& oTemporary ≠ 0 then flags ||| fileDescTemporary else flags
  let flags := if openFlags &&& oAppend ≠ 0 then flags ||| fileDescAppend else flags
  { p with flags := flags }

/-- The object has the flag `FILE_DESC_TEMPORARY`. -/
def FdProperties.isTemporary (p : FdProperties) : Prop := p.flags &&& fileDescTemporary ≠ 0

instance (p : FdProperties) : Decidable p.isTemporary := inferInstanceAs (Decidable (_ ≠ _))

def closeFd (s : State) (fd : ℕ) : Except Fault State :=
  if (s.mem fd).isTemporary then do
    let ptr ← s.findEqFilename fd
    if ptr ≠ 0 then
      return { s with mem := s.mem.modify ptr fun p =>
        { p with flags := p.flags ||| fileDescTemporary } }
    else
      match (s.mem fd).filename with
      | some name => return { s with removed := name :: s.removed }
      | none => .error .nullName
  else .ok s

/-- `alloc_fd_properties`, with whether `malloc` succeeds. -/
def allocFdProperties (s : State) (malloc : Bool) : State × ℕ :=
  if s.cachedFds = 0 then
    if malloc then
      let ptr := s.allocated + 1
      ({ s with
          allocated := s.allocated + 1
          mem := s.mem.modify ptr fun p => { p with prev := 0, next := 0, refCount := 1 } }, ptr)
    else (s, 0)
  else
    let ptr := s.cachedFds
    let r := removeList s.mem s.cachedFds s.cachedFds
    ({ s with
        cachedFds := r.2
        mem := r.1.modify ptr fun p => { p with prev := 0, next := 0, refCount := 1 } }, ptr)

def freeFdProperties (s : State) (fd : ℕ) : State :=
  let r := removeList s.mem s.activeFds fd
  let c := insertList r.1 s.cachedFds fd
  { s with activeFds := r.2, cachedFds := c.2, mem := c.1 }

/-- The object `ptr` becomes the one of the descriptor `fd`; `truename` is the name of the file,
unless `_truename` fails. -/
def State.attach (s : State) (table : ℕ → ℕ) (fd ptr : ℕ) (truename : Option Bytes) : State :=
  let m := s.mem.modify ptr fun p => { p with refCount := 1, filename := truename }
  let r := insertList m s.activeFds ptr
  { s with fdProperties := some (update table fd ptr), mem := r.1, activeFds := r.2 }

/-- The table is allocated when the program has been started again, if `malloc` succeeds. -/
def State.init (s : State) (malloc : Bool) : State :=
  if s.oldBssCount ≠ s.bssCount then
    { s with
      oldBssCount := s.bssCount
      fdProperties := if malloc then some fun _ => 0 else none
      activeFds := 0
      cachedFds := 0 }
  else s

/-- `__set_fd_properties`; `malloc` tells whether the table and the object can be allocated. -/
def setFdProperties (s : State) (fd : ℕ) (truename : Option Bytes) (openFlags : UInt32)
    (malloc : Bool × Bool) : Except Fault (State × ℤ) :=
  let first := s.oldBssCount ≠ s.bssCount
  let s := s.init malloc.1
  match s.fdProperties with
  | none => if first then .ok (s, -1) else .error .nullTable
  | some table =>
    if table fd = 0 then
      let (s, ptr) := allocFdProperties s malloc.2
      if ptr = 0 then .ok (s, -1)
      else
        let s := s.attach table fd ptr truename
        .ok ({ s with mem := s.mem.modify ptr (openFd openFlags) }, 0)
    else .ok ({ s with mem := s.mem.modify (table fd) (openFd openFlags) }, 0)

def dupFdProperties (s : State) (source target : ℕ) : Except Fault State :=
  match s.fdProperties with
  | none => .error .nullTable
  | some table =>
    if table source ≠ 0 then
      .ok { s with
        fdProperties := some (update table target (table source))
        mem := s.mem.modify (table source) fun p => { p with refCount := p.refCount + 1 } }
    else .ok s

def clearFdProperties (s : State) (fd : ℕ) : Except Fault (State × ℤ) :=
  match s.fdProperties with
  | none => .error .nullTable
  | some table =>
    if table fd = 0 then .ok (s, -1)
    else do
      let ptr := table fd
      let s := { s with mem := s.mem.modify ptr fun p => { p with refCount := p.refCount - 1 } }
      let s ←
        if (s.mem ptr).refCount = 0 then do
          let s ← closeFd s ptr
          let s := { s with mem := s.mem.modify ptr fun p => { p with filename := none } }
          pure (freeFdProperties s ptr)
        else pure s
      return ({ s with fdProperties := some (update table fd 0) }, 0)

/-- A call; the name and the outcomes of `malloc` come from outside. -/
inductive Call
  | set (fd : ℕ) (truename : Option Bytes) (openFlags : UInt32) (malloc : Bool × Bool)
  | dup (source target : ℕ)
  | clear (fd : ℕ)

/-- The state after a call. -/
def step (s : State) : Call → Except Fault State
  | .set fd truename openFlags malloc => (·.1) <$> setFdProperties s fd truename openFlags malloc
  | .dup source target => dupFdProperties s source target
  | .clear fd => (·.1) <$> clearFdProperties s fd

end Properties
