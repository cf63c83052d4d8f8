import Dj64.Exec.Arguments
import Dj64.Lib.Collect

/-!
# Input from files

A stream reads its file into a buffer.  A file handle in text mode ends at the first `Ctrl-Z`, and
carriage returns are removed: by `__getc` as a character is taken from the buffer, by `fread` as the
buffer is copied and by `read`, which has no buffer.

The buffer of a stream is the list of the `_cnt` bytes at `_ptr`.  Sizes are natural numbers where
the code has `size_t`, with `fread`'s `int s` computed as the code does.  `none` stands for a loop
that has run out of fuel.
-/

namespace Stdio

open Exec

def cr : UInt8 := 13

def ctrlZ : UInt8 := 26

/-- What the functions find outside: the size of the transfer buffer and whether `malloc` finds a
block. -/
structure Env where
  tbSize : ℕ
  malloc : ℕ → Bool
  tbSize_pos : 0 < tbSize
  tbSize_lt : tbSize < 65536

section Model

variable (env : Env) (content : Bytes)

/-! ### File handles -/

def dosRead (pos cx : ℕ) : Bytes := (content.drop pos).take cx

/-- The loop of `_read`. -/
def lowReadLoop : ℕ → ℕ → ℕ → Option Bytes
  | 0, _, _ => none
  | fuel + 1, pos, count =>
    let j := if count ≤ env.tbSize then count else env.tbSize
    let got := dosRead content pos j
    if count - j ≠ 0 ∧ j = got.length then do
      let more ← lowReadLoop fuel (pos + got.length) (count - j)
      some (got ++ more)
    else some got

def lowRead (pos count : ℕ) : Option Bytes := lowReadLoop env content (count + 1) pos count

/-- What is kept of the bytes that were read from a handle in text mode, and the position in the
file once it has been set back to `Ctrl-Z`, the first character to be read the next time. -/
def truncate (text : Bool) (pos : ℕ) (got : Bytes) : Bytes × ℕ :=
  match text, got.idxOf? ctrlZ with
  | true, some i => (got.take i, pos + got.length - (got.length - i))
  | _, _ => (got, pos + got.length)

def crlf2nl (buf : Bytes) : Bytes := buf.filter (· ≠ cr)

/-- `read`: the bytes and the new position; a handle in text mode tries again if it has read
carriage returns only. -/
def readLoop (text : Bool) (count : ℕ) : ℕ → ℕ → Option (Bytes × ℕ)
  | 0, _ => none
  | fuel + 1, pos => do
    let got ← lowRead env content pos count
    if got = [] then some ([], pos)
    else if text then
      let (kept, pos) := truncate true pos got
      if kept ≠ [] then
        if crlf2nl kept = [] then readLoop text count fuel pos
        else some (crlf2nl kept, pos)
      else some ([], pos)
    else some (got, pos + got.length)

def read (text : Bool) (pos count : ℕ) : Option (Bytes × ℕ) :=
  readLoop env content text count (content.length + 1) pos

/-! ### Streams -/

/-- A stream that is open for reading. -/
structure Stream where
  /-- The handle is in text mode. -/
  text : Bool
  /-- The position of the handle. -/
  pos : ℕ
  buf : Bytes
  /-- There is a `_base`. -/
  hasBase : Bool
  bufsiz : ℕ
  fillsize : ℕ
  /-- `_IONBF`. -/
  unbuffered : Bool
  /-- `_IOEOF`. -/
  eof : Bool
  deriving DecidableEq

/-- A stream without a buffer gets one, or becomes unbuffered. -/
def Stream.allocate (s : Stream) : Stream :=
  if !s.hasBase && !s.unbuffered then
    if env.malloc env.tbSize then { s with hasBase := true, bufsiz := env.tbSize, fillsize := 512 }
    else { s with unbuffered := true }
  else s

def Stream.limit (s : Stream) : Stream :=
  { s with fillsize := if s.fillsize > s.bufsiz then s.bufsiz else s.fillsize }

/-- How much `_filbuf` reads. -/
def Stream.size (s : Stream) : ℕ :=
  if s.unbuffered then 1 else if s.fillsize = 1024 ∧ s.bufsiz ≥ 1536 then 1536 else s.fillsize

/-- `_filbuf`: the next character, `none` for `EOF`. -/
def Stream.filbuf (s : Stream) : Option (Option UInt8 × Stream) :=
  if s.eof then some (none, s)
  else do
    let s := (s.allocate env).limit
    let got ← lowRead env content s.pos s.size
    let (kept, pos) := truncate s.text s.pos got
    let s := { s with pos := pos, fillsize := if s.fillsize < s.bufsiz then s.fillsize *
      2 else s.fillsize,
                      hasBase := s.hasBase && !s.unbuffered }
    match kept with
    | [] => some (none, { s with buf := [], eof := true })
    | c :: rest => some (some c, { s with buf := rest })

def Stream.getcRaw (s : Stream) : Option (Option UInt8 × Stream) :=
  match s.buf with
  | c :: rest => some (some c, { s with buf := rest })
  | [] => s.filbuf env content

def Stream.getc (s : Stream) : Option (Option UInt8 × Stream) := do
  let (c, s) ← s.getcRaw env content
  if c = some cr ∧ s.text then s.getcRaw env content else some (c, s)

/-- The loop of `fgets`, with the number of characters that fit: those that were read, and whether
the last one was `EOF`. -/
def Stream.fgetsLoop : ℕ → Stream → Option (Bytes × Bool × Stream)
  | 0, s => some ([], false, s)
  | n + 1, s => do
    let (c, s) ← s.getc env content
    match c with
    | none => some ([], true, s)
    | some c =>
      if c = 10 then some ([c], false, s)
      else
        let (cs, eof, s) ← fgetsLoop n s
        some (c :: cs, eof, s)

/-- `fgets`: the line, `none` for `NULL`. -/
def Stream.fgets (s : Stream) (n : ℤ) : Option (Option Bytes × Stream) := do
  let (cs, eof, s) ← s.fgetsLoop env content (n - 1).toNat
  if eof ∧ cs = [] then some (none, s) else some (some cs, s)

/-- The amount to read next is made larger when a large amount is asked for. -/
def Stream.grow (bytes : ℕ) : ℕ → Stream → Option Stream
  | 0, _ => none
  | fuel + 1, s =>
    if bytes > s.fillsize ∧ s.fillsize < s.bufsiz then
      grow bytes fuel { s with fillsize := (if s.fillsize < 512 then 512 else s.fillsize) * 2 }
    else some s

/-- The loop of `fread` that empties the buffer of a text file; `left` is `s`. -/
def drain (left : ℤ) : Bytes → Bytes × ℤ
  | [] => ([], left)
  | c :: buf =>
    if c ≠ cr then
      let (out, left) := drain (left - 1) buf
      (c :: out, left)
    else drain left buf

/-- The loop of `fread` that copies from the buffer of a text file: what is copied, `s` and what is
left in the buffer. -/
def copy (left : ℤ) : Bytes → Bytes × ℤ × Bytes
  | [] => ([], left, [])
  | c :: buf =>
    if left > 0 then
      if c ≠ cr then
        let (out, left, buf) := copy (left - 1) buf
        (c :: out, left, buf)
      else copy left buf
    else ([], left, c :: buf)

/-- The loop of `fread` for text files: what is stored, and `s` at the end. -/
def Stream.freadText : ℕ → Stream → ℤ → Option (Bytes × ℤ × Stream)
  | 0, _, _ => none
  | fuel + 1, s, left =>
    if left > 0 then
      if (s.buf.length : ℤ) < left then do
        let (out, left) := drain left s.buf
        let (c, s) ← { s with buf := [] }.filbuf env content
        match c with
        | none => some (out, left, s)
        | some c =>
          let (out', left) := if c ≠ cr then ([c], left - 1) else ([], left)
          if (s.buf.length : ℤ) ≥ left then
            let (out'', left, buf) := copy left s.buf
            let (more, left, s) ← freadText fuel { s with buf := buf } left
            some (out ++ out' ++ out'' ++ more, left, s)
          else
            let (more, left, s) ← freadText fuel s left
            some (out ++ out' ++ more, left, s)
      else do
        let (out, left, buf) := copy left s.buf
        let (more, left, s) ← freadText fuel { s with buf := buf } left
        some (out ++ more, left, s)
    else some ([], left, s)

/-- The loop of `fread` for other files. -/
def Stream.freadBinary : ℕ → Stream → ℤ → Option (Bytes × ℤ × Stream)
  | 0, _, _ => none
  | fuel + 1, s, left =>
    if left > 0 then
      if (s.buf.length : ℤ) < left then do
        let out := s.buf
        let left := left - s.buf.length
        let (c, s) ← { s with buf := [] }.filbuf env content
        match c with
        | none => some (out, left, s)
        | some c =>
          if (s.buf.length : ℤ) ≥ left - 1 then
            let n := (left - 1).toNat
            some (out ++ c :: s.buf.take n, 0, { s with buf := s.buf.drop n })
          else
            let (more, left, s) ← freadBinary fuel s (left - 1)
            some (out ++ c :: more, left, s)
      else some (s.buf.take left.toNat, 0, { s with buf := s.buf.drop left.toNat })
    else some ([], left, s)

/-- The number of bytes that `fread` is to read, an `int`. -/
def freadBytes (size count : ℕ) : ℤ := Int.bmod (size * count) (2 ^ 32)

/-- The result of `fread`, a `size_t`, when `left` bytes have not been read. -/
def freadResult (size count : ℕ) (left : ℤ) : ℕ :=
  if size ≠ 0 then ((count - ((left + size - 1) % 2 ^ 64) / size) % 2 ^ 64).toNat else 0

/-- `fread`: what is stored, the result and the stream. -/
def Stream.fread (s : Stream) (size count : ℕ) : Option (Bytes × ℕ × Stream) := do
  let s ← s.grow (size * count % 2 ^ 64) (s.bufsiz + 1)
  let fuel := s.buf.length + (content.length - s.pos) + 2
  let left := freadBytes size count
  let (out, left, s) ← if s.text then s.freadText env content fuel left
    else s.freadBinary env content fuel left
  some (out, freadResult size count left, s)

end Model

end Stdio
