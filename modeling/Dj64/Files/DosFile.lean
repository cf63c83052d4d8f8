import Dj64.Files.FdProps
import Dj64.Lib.Flags

/-!
# Seeking and writing

DOS keeps a position for an open file, which all handles that were duplicated from one share.  A
write beyond the end of the file leaves arbitrary bytes in the gap, and a write of no bytes sets the
size of the file to the position.  The library fills gaps with zeros: `llseek` marks the properties
of a descriptor when there may be a gap, and `_write` looks for one if they are marked.

The model is of one open file and its handles.  The transfer buffer is a function on offsets.
-/

namespace DosFile

open Exec Properties Flags

/-- `FILE_DESC_ZERO_FILL_EOF_GAP`. -/
def zeroFillEofGap : UInt64 := 0x02

/-- `FILE_DESC_DONT_FILL_EOF_GAP`. -/
def dontFillEofGap : UInt64 := 0x04

/-- `FILE_DESC_PIPE`. -/
def fileDescPipe : UInt64 := 0x08

/-- `FILE_DESC_DIRECTORY`. -/
def fileDescDirectory : UInt64 := 0x20

/-- What the functions find outside: the transfer buffer's size, the bytes that DOS leaves in the
`n`-th gap, and those that a call for the size of a file leaves in the transfer buffer. -/
structure Env where
  tbSize : ℕ
  junk : ℕ → ℕ → UInt8
  info : ℕ → UInt8
  tbSize_pos : 0 < tbSize
  tbSize_lt : tbSize < 65536

/-- `SEEK_SET`, `SEEK_CUR` and `SEEK_END`. -/
inductive Whence
  | set
  | cur
  | fromEnd
  deriving DecidableEq

/-- An open file, its handles and the properties of descriptors. -/
structure State where
  props : Properties.State
  handles : List ℕ
  /-- The file is a character device. -/
  device : Bool
  content : Bytes
  pos : ℕ
  tb : ℕ → UInt8
  /-- The number of writes, which numbers the gaps. -/
  writes : ℕ

section Model

variable (env : Env)

/-! ### DOS -/

/-- What an offset is added to. -/
def State.base (s : State) : Whence → ℕ
  | .set => 0
  | .cur => s.pos
  | .fromEnd => s.content.length

/-- Function `42h`; the position has 32 bits. -/
def State.dosSeek (s : State) (fd : ℕ) (offset : ℤ) (whence : Whence) : Option State :=
  if fd ∈ s.handles then some { s with pos := ((s.base whence + offset) % 2 ^ 32).toNat } else none

/-- The file with what DOS leaves in a gap before the position. -/
def State.extended (s : State) : Bytes :=
  s.content ++ (List.range (s.pos - s.content.length)).map (env.junk s.writes)

/-- The first bytes of the transfer buffer. -/
def State.tbBytes (s : State) (count : ℕ) : Bytes := (List.range count).map s.tb

/-- The first bytes of the transfer buffer are written; none set the size of the file. -/
def State.dosWrite (s : State) (fd count : ℕ) : Option State :=
  if fd ∈ s.handles then
    let content :=
      if count = 0 then (s.extended env).take s.pos
      else (s.extended env).take s.pos ++ s.tbBytes count ++ (s.extended env).drop (s.pos + count)
    some { s with content := content, pos := s.pos + count, writes := s.writes + 1 }
  else none

/-- `lfilelength`, with its result; the transfer buffer is used for it. -/
def State.lfilelength (s : State) (fd : ℕ) : ℤ × State :=
  if fd ∈ s.handles then (s.content.length, { s with tb := env.info }) else (-1, s)

/-! ### Flags -/

def State.getFdFlags (s : State) (fd : ℕ) : UInt64 :=
  if s.props.fd fd ≠ 0 then (s.props.mem (s.props.fd fd)).flags else 0

/-- A change of the flags of a descriptor. -/
def State.modifyFlags (s : State) (fd : ℕ) (f : UInt64 → UInt64) : State :=
  { s with props := { s.props with mem := s.props.mem.modify (s.props.fd fd) fun p =>
    { p with flags := f p.flags } } }

def State.setFdFlags (s : State) (fd : ℕ) (flags : UInt64) : State := s.modifyFlags fd (· ||| flags)

def State.clearFdFlags (s : State) (fd : ℕ) (flags : UInt64) : State :=
  s.modifyFlags fd (· &&& ~~~flags)

/-! ### `llseek` -/

/-- The properties of a descriptor that has none are made before the flag is set; `malloc` succeeds.
-/
def State.markGap (s : State) (fd : ℕ) : Except Fault State :=
  if s.props.fd fd = 0 then do
    let (props, result) ← setFdProperties s.props fd none 0 (true, true)
    let s := { s with props := props }
    .ok (if result = 0 then s.setFdFlags fd zeroFillEofGap else s)
  else .ok (s.setFdFlags fd zeroFillEofGap)

/-- The flag of a descriptor after a seek. -/
def State.noteSeek (s : State) (fd : ℕ) (offset : ℤ) (whence : Whence) : Except Fault State :=
  if s.props.fd fd = 0 ∨ ¬ has (s.getFdFlags fd) dontFillEofGap then
    if offset > 0 then s.markGap fd
    else if s.props.fd fd ≠ 0 ∧ (whence = .set ∨ whence = .fromEnd) then
      .ok (s.clearFdFlags fd zeroFillEofGap)
    else .ok s
  else .ok s

/-- `llseek`, with the position or `-1`. -/
def State.llseek (s : State) (fd : ℕ) (offset : ℤ) (whence : Whence) : Except Fault (ℤ × State) :=
  if has (s.getFdFlags fd) fileDescDirectory then .ok (0, s)
  else if has (s.getFdFlags fd) fileDescPipe then .ok (-1, s)
  else
    match s.dosSeek fd offset whence with
    | none => .ok (-1, s)
    | some s => do
      let s ← s.noteSeek fd offset whence
      .ok (s.pos, s)

/-- `lseek`, with an `int` for the position. -/
def State.lseek (s : State) (fd : ℕ) (offset : ℤ) (whence : Whence) : Except Fault (ℤ × State) := do
  let (result, s) ← s.llseek fd offset whence
  .ok (if result ≥ 2 ^ 31 then result - 2 ^ 32 else result, s)

/-! ### `_write` -/

/-- The transfer buffer gets the data that is to be written, if there is any: what is there is
written otherwise. -/
def State.load (s : State) (buffer : Option Bytes) (count : ℕ) : State :=
  match buffer with
  | some data => { s with tb := fun i => if i < count then data.getD i 0 else s.tb i }
  | none => s

/-- The loop of `_write_int`: the number of bytes that were written, or `-1`.  DOS writes all that
it is told to. -/
def State.writeLoop (fd bufSize : ℕ) : ℕ → Option Bytes → ℕ → ℕ → State → Except Fault (ℤ × State)
  | 0, _, _, _, _ => .error .endless
  | fuel + 1, buffer, count, total, s =>
    let chunk := if count ≤ bufSize then count else bufSize
    match (s.load buffer chunk).dosWrite env fd chunk with
    | none => .ok (-1, s.load buffer chunk)
    | some s =>
      if count - chunk ≠ 0 then
        writeLoop fd bufSize fuel (buffer.map (·.drop chunk)) (count - chunk) (total + chunk) s
      else .ok (total + chunk, s)

def State.writeInt (s : State) (fd : ℕ) (buffer : Option Bytes) (count : ℕ) :
    Except Fault (ℤ × State) :=
  State.writeLoop env fd (if count ≤ env.tbSize then count else env.tbSize)
    (count + 1) buffer count 0 s

/-- Zeros for a gap, in words of four bytes. -/
def State.zeroTb (s : State) (bufSize : ℕ) : State :=
  { s with tb := fun i => if i < (bufSize + 3) / 4 * 4 then 0 else s.tb i }

/-- The part of `_write_fill_seek_gap` that fills the gap. -/
def State.fillGap (s : State) (fd : ℕ) (eofOff curOff : ℤ) : Except Fault (ℤ × State) := do
  let (result, s) ← s.llseek fd eofOff .set
  if result = -1 then .ok (0, s)
  else
    let s := s.clearFdFlags fd zeroFillEofGap
    let fillCount := (curOff - eofOff).toNat
    let bufSize := if fillCount > env.tbSize then env.tbSize else fillCount
    (s.zeroTb bufSize).writeInt env fd none fillCount

/-- The gap before the position is filled, if there is one. -/
def State.writeFillSeekGap (s : State) (fd : ℕ) : Except Fault (ℤ × State) :=
  let s := s.clearFdFlags fd zeroFillEofGap
  if has (s.getFdFlags fd) dontFillEofGap then .ok (0, s)
  else if s.device then .ok (0, s.setFdFlags fd dontFillEofGap)
  else
    let (eofOff, s) := s.lfilelength env fd
    if eofOff < 0 then .ok (0, s)
    else do
      let (curOff, s) ← s.llseek fd 0 .cur
      if curOff < 0 then .ok (0, s)
      else if curOff ≤ eofOff then .ok (0, s)
      else s.fillGap env fd eofOff curOff

/-- `_write`: a gap is filled first. -/
def State.lowWrite (s : State) (fd : ℕ) (data : Bytes) : Except Fault (ℤ × State) :=
  if s.props.fd fd ≠ 0 ∧ has (s.getFdFlags fd) zeroFillEofGap then do
    let (result, s) ← s.writeFillSeekGap env fd
    if result < 0 then .ok (-1, s) else s.writeInt env fd (some data) data.length
  else s.writeInt env fd (some data) data.length

/-! ### Calls -/

/-- `write`, for a descriptor in binary mode. -/
def State.write (s : State) (fd : ℕ) (data : Bytes) : Except Fault (ℤ × State) :=
  if data = [] then .ok (0, s)
  else if has (s.getFdFlags fd) fileDescDirectory then .ok (-1, s)
  else if s.props.fd fd ≠ 0 ∧ has (s.getFdFlags fd) fileDescAppend then do
    let (result, s) ← s.llseek fd 0 .fromEnd
    if result = -1 then .ok (-1, s) else s.lowWrite env fd data
  else s.lowWrite env fd data

/-- The part of `pwrite` from the second seek on; a device is not moved. -/
def State.pwriteAt (s : State) (fd : ℕ) (data : Bytes) (offset startPos : ℤ) :
    Except Fault (ℤ × State) := do
  let (currPos, s) ← if s.device then .ok (0, s) else s.llseek fd offset .set
  if currPos = -1 then
    let (_, s) ← s.llseek fd startPos .set
    .ok (-1, s)
  else
    let (result, s) ← s.write env fd data
    if result < 0 then
      let (_, s) ← s.llseek fd startPos .set
      .ok (-1, s)
    else
      let (currPos, s) ← if s.device then .ok (0, s) else s.llseek fd startPos .set
      .ok (if currPos = -1 then -1 else result, s)

def State.pwrite (s : State) (fd : ℕ) (data : Bytes) (offset : ℤ) : Except Fault (ℤ × State) :=
  if fd ∈ s.handles then do
    let (startPos, s) ← if s.device then .ok (0, s) else s.llseek fd 0 .cur
    if startPos = -1 then .ok (-1, s) else s.pwriteAt env fd data offset startPos
  else .ok (-1, s)

def State.ftruncate (s : State) (fd : ℕ) (length : ℤ) : Except Fault (ℤ × State) :=
  if has (s.getFdFlags fd) fileDescDirectory then .ok (-1, s)
  else do
    let (here, s) ← s.lseek fd 0 .cur
    if here = -1 then .ok (-1, s)
    else
      let (there, s) ← s.lseek fd length .set
      if there = -1 then .ok (-1, s)
      else
        let (result, s) ← s.lowWrite env fd []
        let (_, s) ← s.lseek fd here .set
        .ok (if result < 0 then -1 else 0, s)

/-- `dup`, with the handle that DOS returns. -/
def State.dup (s : State) (fd newFd : ℕ) : Except Fault (ℤ × State) :=
  if fd ∈ s.handles then
    let s := { s with handles := newFd :: s.handles }
    if s.props.fd fd ≠ 0 then do
      let props ← dupFdProperties s.props fd newFd
      .ok (newFd, { s with props := props })
    else .ok (newFd, s)
  else .ok (-1, s)

/-- A call. -/
inductive Op
  | llseek (fd : ℕ) (offset : ℤ) (whence : Whence)
  | write (fd : ℕ) (data : Bytes)
  | pwrite (fd : ℕ) (data : Bytes) (offset : ℤ)
  | ftruncate (fd : ℕ) (length : ℤ)
  | dup (fd newFd : ℕ)

/-- The state after a call. -/
def step (s : State) : Op → Except Fault State
  | .llseek fd offset whence => (·.2) <$> s.llseek fd offset whence
  | .write fd data => (·.2) <$> s.write env fd data
  | .pwrite fd data offset => (·.2) <$> s.pwrite env fd data offset
  | .ftruncate fd length => (·.2) <$> s.ftruncate env fd length
  | .dup fd newFd => (·.2) <$> s.dup fd newFd

end Model

end DosFile
