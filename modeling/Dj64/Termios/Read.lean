import Dj64.Lib.RingBuffer

/-!
# Reading the terminal

The termios emulation reads the keyboard itself.  Bytes that a read does not return wait in a queue,
a ring buffer of 2048 cells, and a line that is being typed waits in the edit line.  Every program
has its own record of the queue, which the library swaps with the program; the cells under the
record and the edit line are one for all.

The keys of a read are a list of what `__direct_keysense` finds each time it is called, where `none`
is no key.  Where the list ends, the read does not return: a signal handler jumps out of it, the
program is suspended, or it dies.  Nothing tests the handle in a `Typed`.
-/

namespace Termios

open Rings List Nat

/-! ### Settings -/

def queueSize : ℕ := 2048

def editlineSize : ℕ := queueSize / 2

def vdisable : UInt8 := 0xff

/-- Indices of `c_cc` that the reads look at. -/
inductive Cc
  | veof
  | veol
  | verase
  | vintr
  | vkill
  | vquit
  | vstart
  | vstop
  | vsusp
  deriving DecidableEq

/-- The bits of `c_iflag` and `c_lflag` that the reads look at, and `c_cc`. -/
structure Settings where
  brkint : Bool
  icrnl : Bool
  ignbrk : Bool
  igncr : Bool
  inlcr : Bool
  istrip : Bool
  ixoff : Bool
  icanon : Bool
  isig : Bool
  echoke : Bool
  cc : Cc → UInt8

/-- The settings of `TTYDEFAULT`. -/
def ttyDefault : Settings where
  brkint := true
  icrnl := true
  ignbrk := false
  igncr := false
  inlcr := false
  istrip := false
  ixoff := false
  icanon := true
  isig := true
  echoke := true
  cc
    | .veof => 0x04
    | .veol => vdisable
    | .verase => 0x08
    | .vintr => 0x03
    | .vkill => 0x15
    | .vquit => 0x1c
    | .vstart => 0x11
    | .vstop => 0x13
    | .vsusp => 0x1a

def Settings.ccEqu (t : Settings) (v : Cc) (ch : UInt8) : Bool := ch == t.cc v && ch != vdisable

def Settings.ccNequ (t : Settings) (v : Cc) (ch : UInt8) : Bool := ch != t.cc v && ch != vdisable

/-! ### The edit line -/

/-- A byte, and the program whose read took it from the keyboard. -/
structure Typed where
  ch : UInt8
  owner : ℕ
  deriving DecidableEq

/-- An entry of `buf` with its entry of `flag`: 0 is a control character, 1 a single one, -1 an
invalid one. -/
structure Cell where
  flag : ℤ
  byte : Typed

/-- `struct tty_editline`: the first `col` entries, the last one first. -/
structure Editline where
  cells : List Cell
  fits : cells.length ≤ editlineSize

/-- The line with `col` 0. -/
def Editline.nil : Editline := ⟨[], zero_le _⟩

def Editline.bytes (l : Editline) : List Typed := (l.cells.map Cell.byte).reverse

/-- `mblen` of the bytes at `s`, of which there are `n`. -/
def mblen (s : UInt8) (n : ℕ) : ℕ := if n = 0 ∨ s = 0 then 0 else 1

def mbCurMax : ℕ := 1

def openPart (cells : List Cell) : List Cell := cells.takeWhile fun c => c.flag = -1

/-- The entries of the line after `b` is typed, and whether the next character is literal. -/
def insertCells (b : Typed) (cells : List Cell) : List Cell × Bool :=
  match cells.head? with
  | some ⟨-1, last⟩ =>
    let part := openPart cells
    let rest := cells.dropWhile fun c => c.flag = -1
    let first := ((part.getLast?.map Cell.byte).getD last).ch
    let mbsize := mblen first (part.length + 1)
    if 1 < mbsize then (⟨mbsize, b⟩ :: part.map ({ · with flag := -mbsize }) ++ rest, false)
    else if mbCurMax < part.length + 1 then
      -- all of the part become 'X'; the flag of the last one is set again below
      (⟨-1, { b with ch := 0x58 }⟩ ::
        part.map (fun c => ⟨1, { c.byte with ch := 0x58 }⟩) ++ rest, true)
    else (⟨-1, b⟩ :: cells, true)
  | _ =>
    if mblen b.ch 1 = 1 then (⟨if b.ch < 0x20 ∨ b.ch = 0x7f then 0 else 1, b⟩ :: cells, false)
    else (⟨-1, b⟩ :: cells, true)

theorem length_insertCells {b : Typed} {cells : List Cell} :
    (insertCells b cells).1.length = cells.length + 1 := by
  have hp : (openPart cells).length + (cells.dropWhile fun c => c.flag = -1).length =
    cells.length := by
    rw [← length_append, openPart, takeWhile_append_dropWhile]
  unfold insertCells
  split
  · dsimp only
    split_ifs <;> simp <;> omega
  · split_ifs <;> rfl

/-- `__libc_termios_insert_editline`; the flag is `_TS_LNCH`, which is left alone when the line is
full. -/
def insertEditline (b : Typed) (l : Editline) (lnch : Bool) : Editline × Bool :=
  if h : l.cells.length < editlineSize then
    (⟨(insertCells b l.cells).1, length_insertCells.trans_le h⟩,
      lnch || (insertCells b l.cells).2)
  else (l, lnch)

/-- The entries left by `__libc_termios_erase_editline`. -/
def eraseCells : List Cell → List Cell
  | [] => []
  | c :: rest =>
    if c.flag < 0 then rest.dropWhile fun c => c.flag < 0
    else if c.flag = 0 then rest
    else (c :: rest).drop c.flag.toNat

theorem eraseCells_sublist (cells : List Cell) : (eraseCells cells).Sublist cells := by
  cases cells with
  | nil => exact List.Sublist.refl _
  | cons c rest =>
    rw [eraseCells]
    split_ifs
    · exact (dropWhile_sublist _).trans (sublist_cons_self c rest)
    · exact sublist_cons_self c rest
    · exact drop_sublist _ _

theorem length_eraseCells_cons (c : Cell) {rest : List Cell} :
    (eraseCells (c :: rest)).length < (c :: rest).length := by
  rw [eraseCells]
  split_ifs with hneg hz
  · exact lt_succ_of_le (dropWhile_sublist _).length_le
  · exact lt_succ_self _
  · rw [length_drop, length_cons]
    omega

def eraseEditline (l : Editline) : Editline :=
  ⟨eraseCells l.cells, (eraseCells_sublist l.cells).length_le.trans l.fits⟩

/-- Erase until nothing is left. -/
def eraseAll : List Cell → List Cell
  | [] => []
  | c :: rest => eraseAll (eraseCells (c :: rest))
  termination_by cells => cells.length
  decreasing_by exact length_eraseCells_cons c

@[simp] theorem eraseAll_eq_nil {cells : List Cell} : eraseAll cells = [] := by
  fun_induction eraseAll cells with
  | case1 => rfl
  | case2 c rest ih => exact ih

def killEditline (t : Settings) (l : Editline) : Editline :=
  if t.echoke then ⟨eraseAll l.cells, by simp⟩ else .nil

theorem killEditline_eq (t : Settings) (l : Editline) : killEditline t l = .nil := by
  simp [killEditline, Editline.nil]

/-! ### The queue -/

/-- What a read of one program works on: its record of the queue and its `_TS_LNCH`, and what it
shares. -/
structure Reader where
  queue : Ring queueSize
  lnch : Bool
  cells : ℕ → Typed
  line : Editline

def Reader.pending (r : Reader) : List Typed := r.queue.contents r.cells

def Reader.existQueue (r : Reader) : Bool := r.queue.count != 0

/-- `__libc_termios_get_queue`, which returns -1 if there is nothing. -/
def getQueue (h : ℕ) (r : Reader) : Typed × Reader :=
  match r.queue.get r.cells with
  | none => (⟨0xff, h⟩, r)
  | some (b, q) => (b, { r with queue := q })

def putQueue (r : Reader) (b : Typed) : Reader :=
  { r with queue := (r.queue.put r.cells b).1, cells := (r.queue.put r.cells b).2 }

def putsQueue (r : Reader) (bs : List Typed) : Reader := bs.foldl putQueue r

/-! ### From keys to the queue -/

/-- What the keyboard gives: a character, with the state of the control key, or an extended key,
whose encoding has at least two characters, or none. -/
inductive Key
  | reg (ch : UInt8) (ctrl : Bool)
  | ext (first second : UInt8) (rest : List UInt8)
  | unencoded
  deriving DecidableEq

def keyChar (ch : UInt8) (ctrl : Bool) : UInt8 := if ch == 0x20 && ctrl then 0 else ch

/-- The characters of a key. -/
def Key.chars : Key → List UInt8
  | .reg ch ctrl => [keyChar ch ctrl]
  | .ext first second rest => first :: second :: rest
  | .unencoded => []

/-- Carriage returns, newlines and the eighth bit. -/
def convert (t : Settings) (ch : UInt8) : Option UInt8 :=
  let strip (c : UInt8) := if t.istrip then c &&& 0x7f else c
  if ch = 0x0d then
    if t.igncr then none else some (strip (if t.icrnl then 0x0a else ch))
  else if ch = 0x0a ∧ t.inlcr then some (strip 0x0d)
  else some (strip ch)

/-- Flow control, and then `convert`. -/
def flow (t : Settings) (ch : UInt8) : Option UInt8 :=
  if (t.ccEqu .vstart ch || t.ccEqu .vstop ch) && t.ixoff then none else convert t ch

/-- The part of the loop of `__libc_termios_fill_queue` before `proc_skip`: the character, if it is
not used up. -/
def process (t : Settings) (lnch : Bool) (ch : UInt8) : Option UInt8 :=
  if lnch && ch == vdisable then some ch
  else if t.isig then
    if !t.ignbrk && t.ccEqu .vintr ch then
      if t.brkint then none else some 0
    else if t.ccEqu .vquit ch || t.ccEqu .vsusp ch then none
    else flow t ch
  else flow t ch

/-- The end of a line: the edit line and the terminator go to the queue. -/
def complete (t : Settings) (h : ℕ) (r : Reader) (ch : UInt8) : Reader :=
  let r' := putsQueue { r with line := .nil } r.line.bytes
  if t.ccNequ .veof ch then putQueue r' ⟨ch, h⟩ else r'

/-- Type a character into the edit line. -/
def insert (h : ℕ) (r : Reader) (ch : UInt8) : Reader :=
  { r with
    line := (insertEditline ⟨ch, h⟩ r.line r.lnch).1
    lnch := (insertEditline ⟨ch, h⟩ r.line r.lnch).2 }

/-- The part of the loop after `proc_skip`, and whether it returns. -/
def store (t : Settings) (h : ℕ) (r : Reader) (ch : UInt8) : Reader × Bool :=
  if t.icanon then
    if r.lnch then (insert h { r with lnch := false } ch, false)
    else if t.ccEqu .verase ch then ({ r with line := eraseEditline r.line }, false)
    else if t.ccEqu .vkill ch then ({ r with line := killEditline t r.line }, false)
    else if ch == 0x0a || t.ccEqu .veof ch || t.ccEqu .veol ch then (complete t h r ch, true)
    else (insert h r ch, false)
  else (putQueue { r with lnch := false } ⟨ch, h⟩, false)

/-- One round of the loop of `__libc_termios_fill_queue`, and whether it returns. -/
def receive (t : Settings) (h : ℕ) (r : Reader) (ch : UInt8) : Reader × Bool :=
  match process t r.lnch ch with
  | none => (r, false)
  | some ch => store t h r ch

/-- The rounds for the characters of a key; a return forgets the ones that are left. -/
def receiveAll (t : Settings) (h : ℕ) (r : Reader) : List UInt8 → Reader × Bool
  | [] => (r, false)
  | ch :: chs =>
    if (receive t h r ch).2 then receive t h r ch else receiveAll t h (receive t h r ch).1 chs

/-- `__libc_termios_fill_queue`, with the keys that are left if it returns. -/
def fillQueue (t : Settings) (h : ℕ) : Reader → List (Option Key) → Reader × Option
    (List (Option Key))
  | r, [] => (r, none)
  | r, none :: keys => if t.icanon then fillQueue t h r keys else (r, some keys)
  | r, some k :: keys =>
    if (receiveAll t h r k.chars).2 then ((receiveAll t h r k.chars).1, some keys)
    else fillQueue t h (receiveAll t h r k.chars).1 keys

theorem length_fillQueue {t : Settings} {h : ℕ} {r r' : Reader} {keys rest : List (Option Key)}
    (hf : fillQueue t h r keys = (r', some rest)) : rest.length < keys.length := by
  fun_induction fillQueue t h r keys with
  | case1 r => simp at hf
  | case2 r keys hc ih => exact (ih hf).trans (lt_succ_self _)
  | case3 r keys hc =>
    obtain ⟨-, rfl⟩ : r = r' ∧ keys = rest := by simpa using hf
    exact lt_succ_self _
  | case4 r k keys hd =>
    obtain ⟨-, rfl⟩ : _ ∧ keys = rest := by simpa using hf
    exact lt_succ_self _
  | case5 r k keys hd ih => exact (ih hf).trans (lt_succ_self _)

/-! ### The reads -/

/-- Up to `n` bytes of the queue. -/
def takeQueue (h : ℕ) : ℕ → Reader → Reader × List Typed
  | 0, r => (r, [])
  | n + 1, r =>
    if r.existQueue then
      ((takeQueue h n (getQueue h r).2).1, (getQueue h r).1 :: (takeQueue h n (getQueue h r).2).2)
    else (r, [])

/-- Fill the queue until there is something in it. -/
def waitQueue (t : Settings) (h : ℕ) (r : Reader) (keys : List (Option Key)) :
    Reader × Option (List (Option Key)) :=
  if r.existQueue then (r, some keys)
  else
    match _hfill : fillQueue t h r keys with
    | (r', none) => (r', none)
    | (r', some rest) => waitQueue t h r' rest
  termination_by keys.length
  decreasing_by exact length_fillQueue _hfill

/-- The loop of `__libc_termios_read_cooked_tty` without `ICANON`. -/
def readLoop (t : Settings) (h : ℕ) : ℕ → Reader → List (Option Key) → Reader × Option (List Typed)
  | 0, r, _ => (r, some [])
  | n + 1, r, keys =>
    let b := (getQueue h r).1
    let r := (getQueue h r).2
    if r.existQueue then
      ((readLoop t h n r keys).1, (readLoop t h n r keys).2.map (b :: ·))
    else
      match fillQueue t h r keys with
      | (r, none) => (r, none)
      | (r, some keys) =>
        if r.existQueue then ((readLoop t h n r keys).1, (readLoop t h n r keys).2.map (b :: ·))
        else (r, some [b])

def readCookedTty (t : Settings) (h : ℕ) (n : ℕ) (r : Reader) (keys : List (Option Key)) :
    Reader × Option (List Typed) :=
  if t.icanon then
    if r.existQueue then ((takeQueue h n r).1, some (takeQueue h n r).2)
    else
      match fillQueue t h r keys with
      | (r, none) => (r, none)
      | (r, some _) => ((takeQueue h n r).1, some (takeQueue h n r).2)
  else
    match waitQueue t h r keys with
    | (r, none) => (r, none)
    | (r, some keys) => readLoop t h n r keys

def waitKeysense (keys : List (Option Key)) : List (Option Key) := keys.dropWhile Option.isNone

/-- The loop of `__libc_termios_read_raw_tty`; `stored` is `wp != buffer`. -/
def rawLoop (h : ℕ) (stored : Bool) (n : ℕ) (r : Reader) (keys : List (Option Key)) :
    Reader × Option (List Typed) :=
  match n with
  | 0 => (r, some [])
  | n + 1 =>
    if r.existQueue then
      ((rawLoop h true n (getQueue h r).2 keys).1,
        (rawLoop h true n (getQueue h r).2 keys).2.map ((getQueue h r).1 :: ·))
    else
      match keys with
      | [] => (r, none)
      | none :: _ => (r, some [])
      | some (.reg ch ctrl) :: keys =>
        ((rawLoop h true n r keys).1, (rawLoop h true n r keys).2.map (⟨keyChar ch ctrl, h⟩ :: ·))
      | some (.ext first second rest) :: keys =>
        let r := putsQueue r ((second :: rest).map (⟨·, h⟩))
        ((rawLoop h true n r keys).1, (rawLoop h true n r keys).2.map (⟨first, h⟩ :: ·))
      | some .unencoded :: keys =>
        rawLoop h stored (n + 1) r (if stored then keys else waitKeysense keys)
  termination_by (n, keys.length)
  decreasing_by
    all_goals simp_wf
    all_goals first
      | exact Prod.Lex.left _ _ (lt_succ_self _)
      | skip
    apply Prod.Lex.right
    split_ifs
    · exact lt_succ_self _
    · exact lt_succ_of_le (List.dropWhile_sublist _).length_le

def readRawTty (h : ℕ) (n : ℕ) (r : Reader) (keys : List (Option Key)) :
    Reader × Option (List Typed) :=
  rawLoop h false n r (if r.existQueue then keys else waitKeysense keys)

/-- A call of `read` for the terminal: what `tcsetattr` has set, whether handle and device are raw,
the size of the buffer, and the keys. -/
structure Call where
  settings : Settings
  raw : Bool
  count : ℕ
  keys : List (Option Key)

/-- `__libc_termios_read`: the bytes that are read, if it returns. -/
def termiosRead (h : ℕ) (c : Call) (r : Reader) : Reader × Option (List Typed) :=
  if c.count = 0 then (r, some [])
  else if c.raw then readRawTty h c.count r c.keys
  else readCookedTty c.settings h c.count r c.keys

/-! ### Several programs -/

/-- The part of `struct tty` that the reads change; `tm_state` holds one for each handle. -/
structure Tty where
  queue : Ring queueSize
  lnch : Bool

/-- The library with the programs that share it. -/
structure State where
  tty : ℕ → Tty
  cells : ℕ → Typed
  line : Editline

/-- What a read of program `h` works on. -/
def State.reader (s : State) (h : ℕ) : Reader := ⟨(s.tty h).queue, (s.tty h).lnch, s.cells, s.line⟩

/-- The state after a read of program `h` has stopped. -/
def State.update (s : State) (h : ℕ) (r : Reader) : State :=
  ⟨Function.update s.tty h ⟨r.queue, r.lnch⟩, r.cells, r.line⟩

/-- The queue of every program is empty, and nothing was typed. -/
def boot : State where
  tty _ := ⟨.empty (by decide), false⟩
  cells _ := ⟨0, 0⟩
  line := .nil

/-- A read of program `h`. -/
def step (s : State) (h : ℕ) (c : Call) : State := s.update h (termiosRead h c (s.reader h)).1

def play (s : State) (calls : List (ℕ × Call)) : State := calls.foldl (fun s c => step s c.1 c.2) s

/-- Reads of program `h` that all return, and the bytes that they return. -/
def returns (h : ℕ) (s : State) : List Call → Option (State × List Typed)
  | [] => some (s, [])
  | c :: calls =>
    match (termiosRead h c (s.reader h)).2 with
    | none => none
    | some bytes => (returns h (step s h c) calls).map fun (s', rest) => (s', bytes ++ rest)

end Termios
