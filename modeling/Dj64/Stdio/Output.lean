import Dj64.Exec.Arguments
import Dj64.Lib.Runs

/-!
# Output to streams

A stream that is written has a buffer, unless it is unbuffered.  `_cnt` is the room that is left in
a full buffer; with line buffering it is the number of pending bytes, with a minus sign, so that
`putc` calls `_flsbuf` for every character; without a buffer it is zero.

The bytes in `[_base, _ptr)` are the list `pending`.  A store outside of the buffer is a fault.
`_write` accepts some of the bytes that it is offered, at least one; how many is up to the device.
-/

namespace Output

open Exec

/-- What ends a run. -/
inductive Fault
  | outOfBounds
  | outOfFuel
  deriving DecidableEq

/-- What `_write` does with its calls: of `n` bytes, some are accepted by the `k`-th call. -/
structure Device where
  accepts : ℕ → ℕ → ℕ
  pos : ∀ k n, 0 < n → 0 < accepts k n
  le : ∀ k n, accepts k n ≤ n

/-- What the functions find outside: the size of the transfer buffer, whether `malloc` finds a
block, and whether the stream is `stdout` on a terminal. -/
structure Env where
  device : Device
  tbSize : ℕ
  malloc : ℕ → Bool
  stdoutTty : Bool
  tbSize_pos : 0 < tbSize

/-- A stream that can be written. -/
structure Out where
  /-- What `_write` has accepted. -/
  accepted : Bytes
  /-- The number of calls of `_write`. -/
  calls : ℕ
  pending : Bytes
  cnt : ℤ
  bufsiz : ℕ
  /-- There is a `_base`. -/
  hasBase : Bool
  /-- `_IOLBF`. -/
  lineBuffered : Bool
  /-- `_IONBF`. -/
  unbuffered : Bool
  /-- `_IORW`. -/
  readWrite : Bool
  /-- `_IOWRT`. -/
  writing : Bool
  /-- The handle is in text mode. -/
  text : Bool

/-- The `unsigned char` of an `int`. -/
def byteOf (c : ℤ) : UInt8 := UInt8.ofNat (c % 256).toNat

/-- The `char` of a byte, as an `int`. -/
def signedChar (b : UInt8) : ℤ := if b.toNat < 128 then b.toNat else b.toNat - 256

section Model

variable (env : Env)

def Out.store (s : Out) (b : UInt8) : Except Fault Out :=
  if s.hasBase ∧ s.pending.length < s.bufsiz then .ok { s with pending := s.pending ++ [b] }
  else .error .outOfBounds

/-- `memcpy` to `_ptr`, which is moved. -/
def Out.storeAll (s : Out) (bs : Bytes) : Except Fault Out :=
  if bs = [] then .ok s
  else if s.hasBase ∧ s.pending.length + bs.length ≤ s.bufsiz then
    .ok { s with pending := s.pending ++ bs }
  else .error .outOfBounds

/-- The loop that writes. -/
def Out.writeLoop : ℕ → Bytes → Out → Except Fault Out
  | 0, _, _ => .error .outOfFuel
  | fuel + 1, data, s =>
    if data ≠ [] then
      let n := env.device.accepts s.calls data.length
      writeLoop fuel (data.drop n)
        { s with accepted := s.accepted ++ data.take n, calls := s.calls + 1 }
    else .ok s

def Out.writeAll (s : Out) (data : Bytes) : Except Fault Out :=
  s.writeLoop env (data.length + 1) data

/-- A stream without a buffer gets one, or becomes unbuffered. -/
def Out.allocate (s : Out) : Out :=
  if !s.hasBase && !s.unbuffered then
    if env.malloc env.tbSize then
      { s with hasBase := true, bufsiz := env.tbSize, cnt := env.tbSize, pending := [],
               lineBuffered := s.lineBuffered || env.stdoutTty }
    else { s with unbuffered := true, lineBuffered := false }
  else s

def Out.start (s : Out) : Out := if s.readWrite then { s with writing := true } else s

/-- `_flsbuf` once there is a buffer, or none is used. -/
def Out.emit (s : Out) (c : ℤ) : Except Fault (ℤ × Out) :=
  if s.lineBuffered then do
    let s ← s.store (byteOf c)
    if c = 10 ∨ s.pending.length ≥ s.bufsiz then
      let s ← { s with pending := [], cnt := 0 }.writeAll env s.pending
      .ok (c, s)
    else .ok (c, { s with cnt := -s.pending.length })
  else if s.unbuffered then do
    let s ← { s with cnt := 0 }.writeAll env [byteOf c]
    .ok (c, s)
  else do
    let s ← { s with pending := [], cnt := s.bufsiz }.writeAll env s.pending
    let s ← { s with cnt := s.cnt - 1 }.store (byteOf c)
    .ok (c, s)

/-- `_flsbuf`, whose result is `-1` for `EOF`. -/
def Out.flsbuf (s : Out) (c : ℤ) : Except Fault (ℤ × Out) :=
  if !s.start.writing then .ok (-1, s.start) else (s.start.allocate env).emit env c

def Out.putcRaw (s : Out) (x : ℤ) : Except Fault Out :=
  if s.cnt > 0 then { s with cnt := s.cnt - 1 }.store (byteOf x)
  else do
    let (_, s) ← s.flsbuf env ((byteOf x).toNat)
    .ok s

def Out.putc (s : Out) (x : ℤ) : Except Fault Out :=
  if x = 10 ∧ s.text then do
    let s ← s.putcRaw env 13
    s.putcRaw env x
  else s.putcRaw env x

/-! ### `fwrite` -/

/-- One character in a loop of `fwrite`: it is stored if there is room, after the character has been
counted, and handed to `_flsbuf` otherwise.  The result is that of `_flsbuf`, if it was called. -/
def Out.put (room : UInt8 → Out → Bool) (arg : UInt8 → ℤ) (b : UInt8) (s : Out) :
    Except Fault (ℤ × Out) :=
  let s := { s with cnt := s.cnt - 1 }
  if room b s then do
    let s ← s.store b
    .ok (0, s)
  else s.flsbuf env (arg b)

/-- One character for a text stream, with a carriage return before a newline. -/
def Out.putText (room : UInt8 → Out → Bool) (arg : UInt8 → ℤ) (b : UInt8) (s : Out) :
    Except Fault (ℤ × Out) :=
  if b = 10 then do
    let (c, s) ← s.put env room arg 13
    if c = -1 then .ok (c, s) else s.put env room arg b
  else s.put env room arg b

/-- A loop of `fwrite` that goes from character to character, until `EOF` is returned: the stream
and the number of characters that are left. -/
def Out.fwriteLoop (put : UInt8 → Out → Except Fault (ℤ × Out)) :
    Bytes → Out → Except Fault (Out × ℕ)
  | [], s => .ok (s, 0)
  | b :: data, s => do
    let (c, s) ← put b s
    if c = -1 then .ok (s, data.length + 1) else fwriteLoop put data s

/-- There is room in a line that is not at its end; `cnt` has been decremented. -/
def lineRoom (b : UInt8) (s : Out) : Bool := s.cnt > -s.bufsiz ∧ b ≠ 10

/-- There is room in a buffer; `cnt` has been decremented. -/
def fullRoom (_ : UInt8) (s : Out) : Bool := s.cnt ≥ 0

/-- The `unsigned char` of a byte, as an `int`. -/
def unsignedChar (b : UInt8) : ℤ := b.toNat

/-- The loop of `fwrite` for line-buffered binary streams, with a `char` for `_flsbuf`. -/
def Out.fwriteLine (s : Out) (data : Bytes) : Except Fault (Out × ℕ) :=
  Out.fwriteLoop (Out.put env lineRoom signedChar) data s

/-- The loop of `fwrite` for line-buffered text streams. -/
def Out.fwriteTextLine (s : Out) (data : Bytes) : Except Fault (Out × ℕ) :=
  Out.fwriteLoop (Out.putText env lineRoom unsignedChar) data s

/-- The loop of `fwrite` for other text streams. -/
def Out.fwriteText (s : Out) (data : Bytes) : Except Fault (Out × ℕ) :=
  Out.fwriteLoop (Out.putText env fullRoom unsignedChar) data s

/-- The loop of `fwrite` for other binary streams. -/
def Out.fwriteFull : ℕ → Bytes → Out → Except Fault (Out × ℕ)
  | 0, _, _ => .error .outOfFuel
  | fuel + 1, data, s =>
    if data = [] then .ok (s, 0)
    else if s.cnt < data.length then do
      let s' ← s.storeAll (data.take s.cnt.toNat)
      match data.drop s.cnt.toNat with
      | [] => .error .outOfBounds
      | b :: data =>
        let (c, s) ← s'.flsbuf env (unsignedChar b)
        if c = -1 then .ok (s, data.length + 1)
        else if s.cnt ≥ data.length then
          let s ← s.storeAll data
          .ok ({ s with cnt := s.cnt - data.length }, 0)
        else fwriteFull fuel data s
    else do
      let s ← s.storeAll data
      .ok ({ s with cnt := s.cnt - data.length }, 0)

/-- `fwrite`: the stream and the number of bytes that are left. -/
def Out.fwrite (s : Out) (data : Bytes) : Except Fault (Out × ℕ) :=
  match s.text, s.lineBuffered with
  | false, true => s.fwriteLine env data
  | false, false => Out.fwriteFull env (data.length + 1) data s
  | true, true => s.fwriteTextLine env data
  | true, false => s.fwriteText env data

/-! ### `fflush` -/

/-- What is pending is written, if the stream is being written. -/
def Out.flushPending (s : Out) : Except Fault Out :=
  if !s.unbuffered && s.writing && s.hasBase && s.pending ≠ [] then
    { s with pending := [], cnt := if s.lineBuffered then 0 else s.bufsiz }.writeAll env s.pending
  else .ok s

def Out.fflush (s : Out) : Except Fault Out := do
  let s ← s.flushPending env
  .ok (if s.readWrite then { s with cnt := 0, writing := false, pending := [] } else s)

/-! ### Calls -/

/-- A call. -/
inductive Op
  | putc (x : ℤ)
  | fwrite (data : Bytes)
  | fflush

/-- A call on the stream. -/
def step (s : Out) : Op → Except Fault Out
  | .putc x => s.putc env x
  | .fwrite data => do
    let (s, _) ← s.fwrite env data
    .ok s
  | .fflush => s.fflush env

end Model

end Output
