import Dj64.Lib.ByteMemory

/-!
# Large reads and writes through `int86`

`int86` and `int86x` split a read (`AH = 3Fh`) or a write (`AH = 40h`) into pieces that fit the
transfer buffer.  One block of registers is the input and the output of all interrupts: `AX` holds
the function before an interrupt, and the number of bytes after it.

DOS reads from a file, the bytes of which from the position on are a function, and appends what is
written to a list.  A failed call is one with the carry flag.  Other functions than reading and
writing do anything with the registers and the transfer buffer.  The addresses to which the bytes of
the transfer buffer are copied are recorded.

* `Int86.int86`, `Int86.int86x`: the two functions.
* `Int86.OneCall`: the pieces are one read or write.
* `Int86.int86_one_call_iff`: when they are, and touch no more of the buffer than they may.
-/

namespace Int86

open ByteMemory List Nat

/-- The result of a read or a write: an error code, or the number of bytes, at most as many as were
asked for. -/
inductive Transfer
  | fail (code : ℕ)
  | move (amount : ℕ)

/-- The registers that the loops use, and the carry flag. -/
structure Regs where
  ax : ℕ
  bx : ℕ
  cx : ℕ
  carry : Bool

/-- What the code finds outside. -/
structure Dos where
  /-- `__tb_size`. -/
  tbSize : ℕ
  /-- The result of the `n`-th interrupt, if it reads or writes. -/
  transfers : ℕ → Transfer
  /-- The registers and the transfer buffer after the `n`-th interrupt, if it does something else.
  -/
  other : ℕ → Regs → (ℕ → UInt8) → Regs × (ℕ → UInt8)
  /-- The file, from the position before the first interrupt on. -/
  file : ℕ → UInt8
  /-- `DATA_PTR`. -/
  dataPtr : ℕ → ℕ
  /-- `SEG_P`. -/
  segP : ℕ → ℕ
  tbSize_pos : 0 < tbSize
  tbSize_lt : tbSize < 65536

/-- An interrupt: the function, the handle and the count. -/
structure Call where
  ah : ℕ
  bx : ℕ
  cx : ℕ
  deriving DecidableEq

/-- Memory, the transfer buffer, the position in the file, what was written, the interrupts, and the
addresses that were stored to. -/
structure Machine where
  mem : Mem
  tb : ℕ → UInt8
  pos : ℕ
  written : List UInt8
  calls : List Call
  stored : List ℕ

section Model

variable (D : Dos)

def dosInt (r : Regs) (s : Machine) : Regs × Machine :=
  let n := s.calls.length
  let s := { s with calls := s.calls ++ [⟨r.ax / 256, r.bx, r.cx⟩] }
  if r.ax / 256 = 0x3f then
    match D.transfers n with
    | .fail code => ({ r with ax := code, carry := true }, s)
    | .move amount =>
      let k := min amount r.cx
      ({ r with ax := k, carry := false },
        { s with tb := fun i => if i < k then D.file (s.pos + i) else s.tb i, pos := s.pos + k })
  else if r.ax / 256 = 0x40 then
    match D.transfers n with
    | .fail code => ({ r with ax := code, carry := true }, s)
    | .move amount =>
      let k := min amount r.cx
      ({ r with ax := k, carry := false },
        { s with written := s.written ++ (List.range k).map s.tb })
  else
    let a := D.other n r s.tb
    (a.1, { s with tb := a.2 })

/-- The variables of the loops. -/
structure Vars where
  regs : Regs
  ptr : ℕ
  count : ℕ
  total : ℕ

/-- What the caller gets. -/
structure Out where
  eax : ℕ
  cflag : Bool
  deriving DecidableEq

/-- Bytes of memory are copied to the transfer buffer. -/
def dosmemput (s : Machine) (ptr n : ℕ) : Machine :=
  { s with tb := fun i => if i < n then s.mem (ptr + i) else s.tb i }

/-- The first `n` bytes of the transfer buffer are copied to memory. -/
def dosmemget (s : Machine) (n ptr : ℕ) : Machine :=
  { s with
    mem := fun x => if ptr ≤ x ∧ x < ptr + n then s.tb (x - ptr) else s.mem x
    stored := s.stored ++ range' ptr n }

def finish (v : Vars) : Out := ⟨v.total, v.regs.carry⟩

/-- One round of the loops; that of a write fills the transfer buffer first. -/
def round (write : Bool) (v : Vars) (s : Machine) : (Out ⊕ Vars) × Machine :=
  let regs := { v.regs with cx := (if v.count ≤ D.tbSize then v.count else D.tbSize) % 65536 }
  let s := if write then dosmemput s v.ptr regs.cx else s
  let r := dosInt D regs s
  if r.1.carry then (.inl ⟨r.1.ax, r.1.carry⟩, r.2)
  else
    let s := dosmemget r.2 r.1.ax v.ptr
    let v : Vars :=
      { regs := r.1, total := (v.total + r.1.ax) % 2 ^ 32, ptr := v.ptr + r.1.ax,
        count := (v.count + (2 ^ 32 - r.1.ax)) % 2 ^ 32 }
    if r.1.ax < r.1.cx then (.inl (finish v), s) else (.inr v, s)

/-- The rounds while the count is not zero; nothing is returned when the fuel is used up. -/
def loop (write : Bool) : ℕ → Vars → Machine → Option Out × Machine
  | 0, _, s => (none, s)
  | fuel + 1, v, s =>
    if v.count = 0 then (some (finish v), s)
    else
      match round D write v s with
      | (.inl out, s) => (some out, s)
      | (.inr v, s) => loop write fuel v s

/-- The registers that the caller passes. -/
structure In where
  eax : ℕ
  ebx : ℕ
  ecx : ℕ
  edx : ℕ
  /-- Bit 0 of `eflags`. -/
  carry : Bool
  eax_lt : eax < 2 ^ 32
  ecx_lt : ecx < 2 ^ 32

/-- The variables before the loops. -/
def In.vars (i : In) (ptr : ℕ) : Vars :=
  { regs := ⟨i.eax % 65536, i.ebx % 65536, i.ecx % 65536, i.carry⟩, ptr := ptr,
    count := i.ecx, total := 0 }

/-- The cases `0x3f` and `0x40`: the loop of a write is left after the first round at the earliest.
-/
def transfer (fuel : ℕ) (i : In) (ptr : ℕ) (s : Machine) : Option Out × Machine :=
  if i.eax % 65536 / 256 = 0x3f then loop D false fuel (i.vars ptr) s
  else
    match round D true (i.vars ptr) s with
    | (.inl out, s) => (some out, s)
    | (.inr v, s) => loop D true fuel v s

/-- `int86(0x21, in, out)` for a read or a write. -/
def int86 (fuel : ℕ) (i : In) (s : Machine) : Option Out × Machine :=
  transfer D fuel i (D.dataPtr i.edx) s

/-- `int86x(0x21, in, out, sregs)` for a read or a write. -/
def int86x (fuel : ℕ) (i : In) (ds : ℕ) (s : Machine) : Option Out × Machine :=
  transfer D fuel i (D.segP ds + i.edx) s

end Model

/-! ### One call -/

variable {D : Dos} {write cflag : Bool} {v : Vars} {s s' s1 : Machine} {out : Out} {i : In}
  {ptr n k code handle cx count amount rest moved eax fuel a pos : ℕ} {mem : Mem}

/-- The function of DOS. -/
def function (write : Bool) : ℕ := if write then 0x40 else 0x3f

/-- Memory with `n` bytes of the file at `ptr`. -/
def placed (D : Dos) (mem : Mem) (ptr pos n : ℕ) : Mem := fun x =>
  if ptr ≤ x ∧ x < ptr + n then D.file (pos + (x - ptr)) else mem x

/-- What moving `n` bytes does; a write, too, stores what it has written. -/
def Machine.Moved (D : Dos) (write : Bool) (ptr n : ℕ) (s s' : Machine) : Prop :=
  (if write then s'.mem = s.mem ∧ s'.pos = s.pos ∧ s'.written = s.written ++ peek s.mem ptr n
  else s'.mem = placed D s.mem ptr s.pos n ∧ s'.pos = s.pos + n ∧ s'.written = s.written) ∧
    s'.stored = s.stored ++ range' ptr n

/-- The `n`-th interrupt moves as many bytes as it was asked for. -/
def Dos.Full (D : Dos) (n cx : ℕ) : Prop := ∃ amount, D.transfers n = .move amount ∧ cx ≤ amount

/-- The `n`-th interrupt moves fewer. -/
def Dos.Short (D : Dos) (n cx : ℕ) : Prop := ∃ amount, D.transfers n = .move amount ∧ amount < cx

/-- **One read or write of `count` bytes**: all interrupts are for the function and the handle, one
follows another only if that moved all that it was asked for, the bytes are moved in their order,
and the caller gets their number, or the error. -/
structure OneCall (D : Dos) (write : Bool) (handle ptr count : ℕ) (s s' : Machine) (out : Out)
    (calls : List Call) (moved : ℕ) : Prop where
  calls_eq : s'.calls = s.calls ++ calls
  asked : ∀ c ∈ calls, c.ah = function write ∧ c.bx = handle
  full : ∀ n c, calls[n]? = some c → n + 1 < calls.length → D.Full (s.calls.length + n) c.cx
  le : moved ≤ count
  moves : s.Moved D write ptr moved s'
  result : (out = ⟨moved, false⟩ ∧ (moved = count ∨
      ∃ n c, calls[n]? = some c ∧ n + 1 = calls.length ∧ D.Short (s.calls.length + n) c.cx)) ∨
    (out.cflag = true ∧ ∃ n, n + 1 = calls.length ∧ D.transfers (s.calls.length + n) =
      .fail out.eax)

theorem peek_add : peek mem a (n + k) = peek mem a n ++ peek mem
    (a + n) k := by
  unfold peek
  rw [range_add, map_append, map_map]
  congr 1
  apply map_congr_left
  simp [add_assoc]

theorem placed_add :
    placed D (placed D mem a pos n) (a + n) (pos + n) k = placed D mem a pos (n + k) := by
  funext x
  unfold placed
  split_ifs <;> first | omega | skip
  · congr 1
    omega
  · rfl
  · rfl

theorem moved_zero (D : Dos) (write : Bool) (ptr : ℕ) (s : Machine) : s.Moved D write ptr 0 s := by
  refine ⟨?_, (append_nil _).symm⟩
  cases write with
  | true => simp [peek]
  | false =>
    refine ⟨?_, rfl, rfl⟩
    funext x
    exact (if_neg (by omega)).symm

theorem Machine.Moved.trans (h : s.Moved D write ptr n s1) (h' : s1.Moved D write (ptr + n) k s') :
    s.Moved D write ptr (n + k) s' := by
  refine ⟨?_, by rw [h'.2, h.2, append_assoc, range'_append_1]⟩
  cases write with
  | true =>
    obtain ⟨⟨hmem, hpos, hw⟩, -⟩ := h
    obtain ⟨⟨hm', hp', hw'⟩, -⟩ := h'
    refine ⟨hm'.trans hmem, hp'.trans hpos, ?_⟩
    rw [hw', hw, hmem, peek_add, append_assoc]
  | false =>
    obtain ⟨⟨hmem, hpos, hw⟩, -⟩ := h
    obtain ⟨⟨hm', hp', hw'⟩, -⟩ := h'
    refine ⟨?_, ?_, hw'.trans hw⟩
    · rw [hm', hmem, hpos, placed_add]
    · rw [hp', hpos, add_assoc]

theorem oneCall_nil (D : Dos) (write : Bool) (handle ptr : ℕ) (s : Machine) :
    OneCall D write handle ptr 0 s s ⟨0, false⟩ [] 0 where
  calls_eq := (append_nil _).symm
  asked _ hc := absurd hc not_mem_nil
  full n c hc := by simp at hc
  le := le_refl 0
  moves := moved_zero D write ptr s
  result := .inl ⟨rfl, .inl rfl⟩

theorem oneCall_fail (hco : D.transfers s.calls.length = .fail code)
    (hca : s'.calls = s.calls ++ [⟨function write, handle, cx⟩]) (hm : s.Moved D write ptr 0 s') :
    OneCall D write handle ptr count s s' ⟨code, true⟩ [⟨function write, handle, cx⟩] 0 where
  calls_eq := hca
  asked c hc := by
    rw [mem_singleton.mp hc]
    exact ⟨rfl, rfl⟩
  full _ _ _ hn := by simp at hn
  le := zero_le _
  moves := hm
  result := .inr ⟨rfl, 0, rfl, hco⟩

theorem oneCall_short (hmo : D.transfers s.calls.length = .move amount)
    (hca : s'.calls = s.calls ++ [⟨function write, handle, cx⟩]) (hs : amount < cx)
    (hcx : cx ≤ count) (hm : s.Moved D write ptr amount s') :
    OneCall D write handle ptr count s s' ⟨amount, false⟩
      [⟨function write, handle, cx⟩] amount where
  calls_eq := hca
  asked c hc := by
    rw [mem_singleton.mp hc]
    exact ⟨rfl, rfl⟩
  full _ _ _ hn := by simp at hn
  le := by omega
  moves := hm
  result := .inl ⟨rfl, .inr ⟨0, _, rfl, rfl, amount, hmo, hs⟩⟩

/-- After a full one, the rest follows. -/
theorem oneCall_cons
    {calls : List Call} (hmo : D.transfers s.calls.length = .move amount) (hfu : cx ≤ amount)
    (hca : s1.calls = s.calls ++ [⟨function write, handle, cx⟩]) (hm : s.Moved D write ptr cx s1)
    (h : OneCall D write handle (ptr + cx) rest s1 s' ⟨eax, cflag⟩ calls moved) :
    OneCall D write handle ptr (cx + rest) s s' ⟨if cflag then eax else cx + eax, cflag⟩
      (⟨function write, handle, cx⟩ :: calls) (cx + moved) where
  calls_eq := by rw [h.calls_eq, hca, append_assoc, singleton_append]
  asked c hc := by
    rcases mem_cons.mp hc with rfl | hc
    · exact ⟨rfl, rfl⟩
    · exact h.asked c hc
  full n c hc hn := by
    have hl : s1.calls.length = s.calls.length + 1 := by rw [hca, length_append, length_singleton]
    cases n with
    | zero =>
      obtain rfl : _ = c := Option.some.inj hc
      exact ⟨amount, hmo, hfu⟩
    | succ n =>
      have hr := h.full n c hc (by rw [length_cons] at hn; omega)
      rwa [hl, add_assoc, add_comm 1] at hr
  le := Nat.add_le_add_left h.le cx
  moves := hm.trans h.moves
  result := by
    have hl : s1.calls.length = s.calls.length + 1 := by rw [hca, length_append, length_singleton]
    rcases h.result with ⟨hout, hend⟩ | ⟨hcl, n, hn, hfa⟩
    · left
      injection hout with heax hf
      rw [heax, hf]
      refine ⟨by simp, ?_⟩
      rcases hend with rfl | ⟨n, c, hc, hn, hs⟩
      · exact .inl rfl
      · refine .inr ⟨n + 1, c, hc, by rw [length_cons, hn], ?_⟩
        rwa [hl, add_assoc, add_comm 1] at hs
    · right
      have hf : cflag := hcl
      subst hf
      refine ⟨rfl, n + 1, by rw [length_cons, hn], ?_⟩
      rwa [hl, add_assoc, add_comm 1] at hfa

/-! ### Rounds -/

def Vars.piece (D : Dos) (v : Vars) : ℕ := min v.count D.tbSize

theorem piece_eq (D : Dos) (v : Vars) :
    (if v.count ≤ D.tbSize then v.count else D.tbSize) % 65536 = v.piece D := by
  have := D.tbSize_lt
  unfold Vars.piece
  split_ifs <;> omega

/-- The variables after a full transfer. -/
def Vars.advance (D : Dos) (v : Vars) : Vars :=
  { regs := { v.regs with ax := v.piece D, cx := v.piece D, carry := false }
    total := v.total + v.piece D
    ptr := v.ptr + v.piece D
    count := v.count - v.piece D }

theorem round_fail (hah : v.regs.ax / 256 = function write)
    (hc : D.transfers s.calls.length = .fail code) :
    ∃ s', round D write v s = (.inl ⟨code, true⟩, s') ∧
      s'.calls = s.calls ++ [⟨function write, v.regs.bx, v.piece D⟩] ∧
        s.Moved D write v.ptr 0 s' := by
  have hn := moved_zero D write v.ptr s
  unfold round
  rw [piece_eq]
  unfold dosInt
  cases write with
  | true =>
    have h40 : v.regs.ax / 256 = 0x40 := hah
    simp only [if_true, dosmemput, h40, hc]
    exact ⟨_, rfl, rfl, hn⟩
  | false =>
    have h3f : v.regs.ax / 256 = 0x3f := hah
    simp only [Bool.false_eq_true, if_false, h3f, hc]
    exact ⟨_, rfl, rfl, hn⟩

theorem round_end (hk : k ≤ v.piece D) (hlt : v.total + v.count < 2 ^ 32) :
    (if k < v.piece D then
      ((.inl ⟨(v.total + k) % 2 ^ 32, false⟩ : Out ⊕ Vars), s)
    else
      (.inr ⟨{ v.regs with ax := k, cx := v.piece D, carry := false }, v.ptr + k,
        (v.count + (2 ^ 32 - k)) % 2 ^ 32, (v.total + k) % 2 ^ 32⟩, s)) =
    (if k < v.piece D then .inl ⟨v.total + k, false⟩ else .inr (v.advance D), s) := by
  have hp : v.piece D ≤ v.count := min_le_left _ _
  rw [mod_eq_of_lt (show v.total + k < 2 ^ 32 by omega)]
  by_cases hs : k < v.piece D
  · rw [if_pos hs, if_pos hs]
  · have hf : k = v.piece D := by omega
    have hc : (v.count + (2 ^ 32 - v.piece D)) % 2 ^ 32 = v.count - v.piece D := by omega
    rw [if_neg hs, if_neg hs, hf, hc]
    rfl

/-- A round whose interrupt does not fail. -/
theorem round_move (hah : v.regs.ax / 256 = function write)
    (hm : D.transfers s.calls.length = .move amount) (hlt : v.total + v.count < 2 ^ 32) :
    ∃ s', round D write v s =
        (if min amount (v.piece D) < v.piece D then .inl ⟨v.total + min amount (v.piece D), false⟩
          else .inr (v.advance D), s') ∧
      s'.calls = s.calls ++ [⟨function write, v.regs.bx, v.piece D⟩] ∧
      s.Moved D write v.ptr (min amount (v.piece D)) s' := by
  have hk : min amount (v.piece D) ≤ v.piece D := min_le_right _ _
  unfold round
  rw [piece_eq]
  unfold dosInt
  cases write with
  | true =>
    have h40 : v.regs.ax / 256 = 0x40 := hah
    simp only [if_true, dosmemput, h40, hm]
    rw [if_neg (show ¬ (0x40 : ℕ) = 0x3f by decide)]
    refine ⟨_, round_end hk hlt, rfl, ?_, rfl⟩
    unfold dosmemget
    refine ⟨?_, rfl, ?_⟩
    · -- the bytes that come back are those that were there
      funext x
      dsimp only
      split_ifs with hx h
      · congr 1
        omega
      · omega
      · rfl
    · dsimp only
      congr 1
      apply map_congr_left
      intro x hx
      exact if_pos (lt_of_lt_of_le (mem_range.mp hx) hk)
  | false =>
    have h3f : v.regs.ax / 256 = 0x3f := hah
    simp only [if_true, Bool.false_eq_true, if_false, h3f, hm]
    refine ⟨_, round_end hk hlt, rfl, ?_, rfl⟩
    unfold dosmemget
    refine ⟨?_, rfl, rfl⟩
    funext x
    unfold placed
    dsimp only
    split_ifs with hx h
    · rfl
    · omega
    · rfl

/-! ### Runs -/

def Vars.after (v : Vars) (eax : ℕ) (cflag : Bool) : Out :=
  ⟨if cflag then eax else v.total + eax, cflag⟩

/-- From the `n`-th interrupt on, `k` move a whole transfer buffer each, and the next one fails. -/
def Dos.FailsAt (D : Dos) (n count k code : ℕ) : Prop :=
  (∀ j < k, D.Full (n + j) D.tbSize) ∧ k * D.tbSize < count ∧ D.transfers (n + k) = .fail code

/-- How much is moved before a failure, and when nothing is. -/
structure Ended (D : Dos) (n count eax : ℕ) (cflag : Bool) (moved : ℕ) : Prop where
  fails : ∀ k code, D.FailsAt n count k code → eax = code ∧ cflag = true ∧ moved = k * D.tbSize
  failed : cflag = true → count = 0 ∨ ∃ k code, D.FailsAt n count k code
  idle : ∀ amount, D.transfers n = .move amount → (moved = 0 ↔ amount = 0 ∨ count = 0)

/-- The rest of the pieces, from `v` on. -/
def Finishes (D : Dos) (write : Bool) (v : Vars) (s : Machine) (r : Option Out × Machine) : Prop :=
  ∃ eax cflag s' calls moved, r = (some (v.after eax cflag), s') ∧
    OneCall D write v.regs.bx v.ptr v.count s s' ⟨eax, cflag⟩ calls moved ∧
    Ended D s.calls.length v.count eax cflag moved

/-- A failure is the first one, or one of the interrupts after a whole transfer buffer. -/
theorem failsAt_iff : D.FailsAt n count k code ↔
    k = 0 ∧ 0 < count ∧ D.transfers n = .fail code ∨
      ∃ j, k = j + 1 ∧ D.tbSize < count ∧ D.Full n D.tbSize ∧
        D.FailsAt (n + 1) (count - D.tbSize) j code := by
  cases k with
  | zero => simp [Dos.FailsAt]
  | succ k =>
    simp only [Dos.FailsAt, Nat.add_right_cancel_iff, exists_eq_left', succ_ne_zero, false_and,
      false_or, forall_lt_succ_left', add_zero, succ_mul]
    have hidx : ∀ j, n + 1 + j = n + (j + 1) := fun j => by omega
    simp only [hidx]
    constructor
    · rintro ⟨⟨h0, hf⟩, hlt, hc⟩
      exact ⟨by omega, h0, hf, by omega, hc⟩
    · rintro ⟨hlt, h0, hf, hl, hc⟩
      exact ⟨⟨h0, hf⟩, by omega, hc⟩

theorem ended_fail (ht : D.transfers n = .fail code) : Ended D n count code true 0 where
  fails k code' h := by
    rcases failsAt_iff.mp h with ⟨rfl, -, hc⟩ | ⟨j, rfl, -, ⟨amount, hm, -⟩, -⟩
    · rw [ht] at hc
      cases hc
      exact ⟨rfl, rfl, (zero_mul _).symm⟩
    · rw [ht] at hm
      cases hm
  failed _ := by
    rcases count.eq_zero_or_pos with h0 | hpos
    · exact .inl h0
    · exact .inr ⟨0, code, failsAt_iff.mpr (.inl ⟨rfl, hpos, ht⟩)⟩
  idle amount h := by
    rw [ht] at h
    cases h

/-- The last interrupt: it moves less than a transfer buffer, or all that is left. -/
theorem ended_last (ht : D.transfers n = .move amount)
    (h : amount < D.tbSize ∨ count ≤ D.tbSize) :
    Ended D n count eax false (min amount count) where
  fails k code h' := by
    rcases failsAt_iff.mp h' with ⟨rfl, -, hc⟩ | ⟨j, rfl, hlt, ⟨amount', hm, hle⟩, -⟩
    · rw [ht] at hc
      cases hc
    · rw [ht] at hm
      cases hm
      omega
  failed h := by cases h
  idle amount' h' := by
    rw [ht] at h'
    cases h'
    omega

theorem ended_cons (ht : D.transfers n = .move amount) (hfull : D.tbSize ≤ amount)
    (hc : D.tbSize < count) (h : Ended D (n + 1) (count - D.tbSize) eax cflag moved) :
    Ended D n count (if cflag then eax else D.tbSize + eax) cflag (D.tbSize + moved) where
  fails k code hk := by
    rcases failsAt_iff.mp hk with ⟨-, -, hfa⟩ | ⟨j, rfl, -, -, hj⟩
    · rw [ht] at hfa
      cases hfa
    · obtain ⟨rfl, rfl, rfl⟩ := h.fails j code hj
      exact ⟨rfl, rfl, by ring⟩
  failed hcf := by
    rcases h.failed hcf with h0 | ⟨k, code, hk⟩
    · omega
    · exact .inr ⟨k + 1, code, failsAt_iff.mpr (.inr ⟨k, rfl, hc, ⟨amount, ht, hfull⟩, hk⟩)⟩
  idle amount' h' := by
    have := D.tbSize_pos
    rw [ht] at h'
    cases h'
    omega

/-- What follows a round. -/
def proceed (D : Dos) (write : Bool) (fuel : ℕ) : (Out ⊕ Vars) × Machine → Option Out × Machine
  | (.inl out, s) => (some out, s)
  | (.inr v, s) => loop D write fuel v s

theorem loop_succ (D : Dos) (write : Bool) (fuel : ℕ) (v : Vars) (s : Machine) :
    loop D write (fuel + 1) v s =
      if v.count = 0 then (some (finish v), s) else proceed D write fuel (round D write v s) := by
  rw [loop]
  split_ifs
  · rfl
  · rcases round D write v s with ⟨out | v', s'⟩
    · rfl
    · rfl

theorem loop_zero_count (h : v.count = 0) (hc : v.regs.carry = false)
    (hr : loop D write fuel v s = (some (v.after eax cflag), s')) : cflag = false := by
  cases fuel with
  | zero => cases congrArg Prod.fst hr
  | succ fuel =>
    rw [loop_succ, if_pos h] at hr
    have ho := Option.some.inj (congrArg Prod.fst hr)
    rw [← hc]
    exact (congrArg Out.cflag ho).symm

theorem loop_mono {fuel' : ℕ} (hf : fuel ≤ fuel') (h : loop D write fuel v s = (some out, s')) :
    loop D write fuel' v s = (some out, s') := by
  induction fuel generalizing fuel' v s with
  | zero => cases congrArg Prod.fst h
  | succ fuel ih =>
    obtain ⟨m, rfl⟩ : ∃ m, fuel' = m + 1 := ⟨fuel' - 1, by omega⟩
    rw [loop_succ] at h ⊢
    split_ifs at h ⊢
    · exact h
    · rcases hr : round D write v s with ⟨o | v', s1⟩
      · rwa [hr] at h
      · rw [hr] at h
        exact ih (by omega) h

/-- A round for the function and the pieces after it. -/
theorem round_finishes (hah : v.regs.ax / 256 = function write)
    (hlt : v.total + v.count < 2 ^ 32)
    (hre : ∀ s1 : Machine, s1.calls.length = s.calls.length + 1 →
      D.Full s.calls.length (v.piece D) →
      Finishes D write (v.advance D) s1 (loop D write fuel (v.advance D) s1)) :
    Finishes D write v s (proceed D write fuel (round D write v s)) := by
  have hp : v.piece D ≤ v.count := min_le_left _ _
  have hpt : v.piece D ≤ D.tbSize := min_le_right _ _
  cases ht : D.transfers s.calls.length with
  | fail code =>
    obtain ⟨s', hr, hc, hm⟩ := round_fail hah ht
    rw [hr]
    exact ⟨code, true, s', _, 0, rfl, oneCall_fail ht hc hm, ended_fail ht⟩
  | move amount =>
    obtain ⟨s', hr, hc, hm⟩ := round_move hah ht hlt
    rw [hr]
    by_cases hs : amount < v.piece D
    · rw [min_eq_left hs.le] at hm ⊢
      rw [if_pos hs]
      have hend : Ended D s.calls.length v.count amount false (min amount v.count) :=
        ended_last ht (.inl (hs.trans_le hpt))
      rw [min_eq_left (hs.le.trans hp)] at hend
      exact ⟨amount, false, s', _, amount, rfl, oneCall_short ht hc hs hp hm, hend⟩
    rw [min_eq_right (not_lt.mp hs)] at hm ⊢
    rw [if_neg (lt_irrefl _)]
    have hl : s'.calls.length = s.calls.length + 1 := by rw [hc, length_append, length_singleton]
    obtain ⟨eax, cflag, s'', calls, moved, hlo, hone, hen⟩ := hre s' hl ⟨amount, ht, not_lt.mp hs⟩
    have hco := oneCall_cons ht (not_lt.mp hs) hc hm hone
    rw [show v.piece D + (v.advance D).count = v.count from Nat.add_sub_cancel' hp] at hco
    refine ⟨_, cflag, s'', _, _, ?_, hco, ?_⟩
    · rw [proceed, hlo]
      unfold Vars.after Vars.advance
      cases cflag with
      | true => rfl
      | false => simp [add_assoc]
    · by_cases hmore : D.tbSize < v.count
      · have hpe : v.piece D = D.tbSize := min_eq_right hmore.le
        have hle : D.tbSize ≤ amount := hpe ▸ not_lt.mp hs
        have hcount : (v.advance D).count = v.count - D.tbSize := congrArg (v.count - ·) hpe
        rw [hl, hcount] at hen
        rw [hpe]
        exact ended_cons ht hle hmore hen
      · -- this was the last piece
        have hpe : v.piece D = v.count := min_eq_left (not_lt.mp hmore)
        have hzero : (v.advance D).count = 0 := by
          change v.count - v.piece D = 0
          omega
        have hmo : moved = 0 := Nat.le_zero.mp (hzero ▸ hone.le)
        have hcf : cflag = false := loop_zero_count hzero rfl hlo
        have hend : Ended D s.calls.length v.count (v.piece D + eax) false (min amount v.count) :=
          ended_last ht (.inr (not_lt.mp hmore))
        rw [min_eq_right (hpe ▸ not_lt.mp hs)] at hend
        subst hcf hmo
        rwa [hpe] at hend ⊢

/-- **The loop**, when every interrupt is for the function: by induction on the fuel, which the
count bounds. -/
theorem loop_finishes (hah : v.count ≠ 0 → v.regs.ax / 256 = function write)
    (ha : D.tbSize < v.count → D.Full s.calls.length D.tbSize → D.tbSize / 256 = function write)
    (hca : v.count = 0 → v.regs.carry = false) (hlt : v.total + v.count < 2 ^ 32)
    (hfue : v.count < fuel) : Finishes D write v s (loop D write fuel v s) := by
  induction fuel generalizing v s with
  | zero => omega
  | succ fuel ih =>
    rw [loop_succ]
    by_cases hc : v.count = 0
    · have hnil := oneCall_nil D write v.regs.bx v.ptr s
      have hnone : Ended D s.calls.length 0 0 false 0 :=
        ⟨fun _ _ h => absurd h.2.1 (not_lt_zero _), nofun, by simp⟩
      rw [if_pos hc]
      refine ⟨0, false, s, [], 0, ?_, ?_⟩
      · rw [finish, hca hc]
        rfl
      · rw [hc]
        exact ⟨hnil, hnone⟩
    rw [if_neg hc]
    have htb := D.tbSize_pos
    have hp : 0 < v.piece D ∧ v.piece D ≤ v.count := by
      unfold Vars.piece
      omega
    apply round_finishes (hah hc) hlt
    intro s1 hle hfu
    -- if anything is left, a whole transfer buffer was moved
    have hl : (v.advance D).count ≠ 0 → v.piece D = D.tbSize ∧ D.tbSize < v.count := by
      unfold Vars.advance Vars.piece
      dsimp only
      omega
    have hf : (v.advance D).count ≠ 0 → D.tbSize / 256 = function write := by
      intro hne
      obtain ⟨heq, hm⟩ := hl hne
      rw [heq] at hfu
      exact ha hm hfu
    apply ih
    · intro hne
      change v.piece D / 256 = _
      rw [(hl hne).1]
      exact hf hne
    · intro hm _
      exact hf (by omega)
    · exact fun _ => rfl
    · unfold Vars.advance
      dsimp only
      omega
    · unfold Vars.advance
      dsimp only
      omega

/-- A second interrupt is made: there is more than fits the transfer buffer, and the first one moves
all that fits. -/
def AsksAgain (D : Dos) (i : In) : Prop := D.tbSize < i.ecx ∧ D.Full 0 D.tbSize

/-- A write moves nothing, since it stores what it moves.  A second interrupt of a read is for the
same function, by what the first one left in `AX`; a read of nothing, for which no interrupt is
made, is asked for without the carry flag; and a read that fails later has moved no more bytes than
the number of the error. -/
def Fine (D : Dos) (i : In) : Bool → Prop
  | true => i.ecx = 0 ∨ ∀ amount, D.transfers 0 = .move amount → amount = 0
  | false => (AsksAgain D i → D.tbSize / 256 = 0x3f) ∧ (i.ecx = 0 → i.carry = false) ∧
    ∀ k code, D.FailsAt 0 i.ecx k code → k * D.tbSize ≤ code

/-- The pieces are one read or write, and store to the first `EAX` bytes of the buffer or, for a
write, to nothing. -/
def Works (D : Dos) (write : Bool) (i : In) (ptr : ℕ) (s : Machine)
    (call : ℕ → Option Out × Machine) : Prop :=
  ∃ fuel out s' calls moved, call fuel = (some out, s') ∧
    OneCall D write (i.ebx % 65536) ptr i.ecx s s' out calls moved ∧
    ∀ a ∈ s'.stored, write = false ∧ ptr ≤ a ∧ a < ptr + out.eax

theorem transfer_eq (hah : i.eax % 65536 / 256 = function write) (fuel : ℕ) :
    transfer D fuel i ptr s = if write then proceed D true fuel (round D true (i.vars ptr) s)
      else loop D false fuel (i.vars ptr) s := by
  unfold transfer
  cases write with
  | true =>
    rw [if_neg (by rw [hah]; decide)]
    rcases round D true (i.vars ptr) s with ⟨out | v', s'⟩
    · rfl
    · rfl
  | false =>
    exact if_pos hah

theorem transfer_mono {fuel' : ℕ} (hf : fuel ≤ fuel')
    (h : transfer D fuel i ptr s = (some out, s')) :
    transfer D fuel' i ptr s = (some out, s') := by
  unfold transfer at h ⊢
  split_ifs at h ⊢
  · exact loop_mono hf h
  · rcases hr : round D true (i.vars ptr) s with ⟨o | v', s1⟩
    · rwa [hr] at h
    · rw [hr] at h
      exact loop_mono hf h

/-- A second interrupt, if there is one, is for the function, and a read of nothing is asked for
without the carry flag. -/
def Follows (D : Dos) (write : Bool) (i : In) : Prop :=
  (AsksAgain D i → D.tbSize / 256 = function write) ∧ (write = false → i.ecx = 0 → i.carry = false)

theorem transfer_finishes (hah : i.eax % 65536 / 256 = function write) (hs : s.calls = [])
    (h : Follows D write i) :
    Finishes D write (i.vars ptr) s (transfer D (i.ecx + 1) i ptr s) := by
  obtain ⟨ha, hc⟩ := h
  have hlt := i.ecx_lt
  have ht : (i.vars ptr).total + (i.vars ptr).count < 2 ^ 32 := by
    change 0 + i.ecx < 2 ^ 32
    omega
  rw [transfer_eq hah]
  cases write with
  | true =>
    apply round_finishes hah ht
    intro s1 hle hf
    rw [hs] at hf
    have hl : ((i.vars ptr).advance D).count ≠ 0 → AsksAgain D i := by
      intro hne
      have hp : (i.vars ptr).piece D = D.tbSize ∧ D.tbSize < i.ecx := by
        unfold Vars.advance at hne
        unfold Vars.piece In.vars at *
        dsimp only at *
        omega
      rw [hp.1] at hf
      exact ⟨hp.2, hf⟩
    apply loop_finishes
    · intro hne
      have hp : (i.vars ptr).piece D = D.tbSize := min_eq_right (hl hne).1.le
      change (i.vars ptr).piece D / 256 = _
      rw [hp]
      exact ha (hl hne)
    · intro hm _
      exact ha (hl (by omega))
    · exact fun _ => rfl
    · unfold Vars.advance
      have hp : (i.vars ptr).piece D ≤ (i.vars ptr).count := min_le_left _ _
      dsimp only
      omega
    · unfold Vars.advance In.vars
      dsimp only
      omega
  | false =>
    apply loop_finishes
    · exact fun _ => hah
    · intro hm hf
      rw [hs] at hf
      exact ha ⟨hm, hf⟩
    · exact hc rfl
    · exact ht
    · exact lt_succ_self _

/-! ### What goes wrong otherwise -/

theorem dosInt_calls {r : Regs} :
    (dosInt D r s).2.calls = s.calls ++ [⟨r.ax / 256, r.bx, r.cx⟩] := by
  unfold dosInt
  dsimp only
  split_ifs
  · cases D.transfers s.calls.length <;> rfl
  · cases D.transfers s.calls.length <;> rfl
  · rfl

theorem round_calls (v : Vars) (s : Machine) :
    (round D write v s).2.calls = s.calls ++ [⟨v.regs.ax / 256, v.regs.bx, v.piece D⟩] := by
  unfold round
  dsimp only
  rw [piece_eq]
  split_ifs <;> exact dosInt_calls

theorem proceed_calls (r : (Out ⊕ Vars) × Machine) :
    r.2.calls <+: (proceed D write fuel r).2.calls := by
  induction fuel generalizing r with
  | zero =>
    rcases r with ⟨out | v, s⟩
    · exact prefix_refl _
    · exact prefix_refl _
  | succ fuel ih =>
    rcases r with ⟨out | v, s⟩
    · exact prefix_refl _
    rw [proceed, loop_succ]
    split_ifs
    · exact prefix_refl _
    · refine List.IsPrefix.trans ?_ (ih _)
      rw [round_calls]
      exact prefix_append ..

/-- The second interrupt is for the function that the size of the transfer buffer happens to be. -/
theorem second_call (hah : v.regs.ax / 256 = function write)
    (hlt : v.total + v.count < 2 ^ 32) (hm : D.tbSize < v.count)
    (hf : D.Full s.calls.length D.tbSize)
    (hout : (proceed D write fuel (round D write v s)).1 ≠ none) :
    ∃ bx cx, ⟨D.tbSize / 256, bx, cx⟩ ∈ (proceed D write fuel (round D write v s)).2.calls := by
  obtain ⟨amount, hmo, ha⟩ := hf
  obtain ⟨s', hr, hca, -⟩ := round_move hah hmo hlt
  have hp : v.piece D = D.tbSize := min_eq_right hm.le
  rw [hp, min_eq_right ha, if_neg (lt_irrefl _)] at hr
  rw [hr] at hout ⊢
  cases fuel with
  | zero => exact absurd rfl hout
  | succ fuel =>
    have hc : (v.advance D).count ≠ 0 := by
      unfold Vars.advance
      dsimp only
      omega
    rw [proceed, loop_succ, if_neg hc]
    refine ⟨v.regs.bx, (v.advance D).piece D, (proceed_calls _).subset ?_⟩
    rw [round_calls]
    change _ ∈ s'.calls ++ [⟨v.piece D / 256, v.regs.bx, _⟩]
    rw [hp]
    exact mem_append_right _ (mem_singleton.mpr rfl)

theorem follows_of_oneCall {calls : List Call} (hah : i.eax % 65536 / 256 = function write)
    (hs : s.calls = []) (hc : transfer D fuel i ptr s = (some out, s'))
    (hone : OneCall D write (i.ebx % 65536) ptr i.ecx s s' out calls moved) :
    Follows D write i := by
  have hca : s'.calls = calls := by rw [hone.calls_eq, hs, nil_append]
  have ht : (i.vars ptr).total + (i.vars ptr).count < 2 ^ 32 := by
    have := i.ecx_lt
    change 0 + i.ecx < 2 ^ 32
    omega
  rw [transfer_eq hah] at hc
  constructor
  · rintro ⟨hm, hf⟩
    have hse : ∃ fuel, proceed D write fuel (round D write (i.vars ptr) s) = (some out, s') := by
      cases write with
      | true => exact ⟨fuel, by rwa [if_pos rfl] at hc⟩
      | false =>
        cases fuel with
        | zero => exact absurd (congrArg Prod.fst hc) (by simp [loop])
        | succ fuel =>
          rw [loop_succ, if_neg (show (i.vars ptr).count ≠ 0 from ne_of_gt (pos_of_gt hm))] at hc
          exact ⟨fuel, hc⟩
    obtain ⟨fuel, hp⟩ := hse
    rw [← length_nil (α := Call), ← hs] at hf
    obtain ⟨bx, cx, hmem⟩ := second_call hah ht hm hf (by rw [hp]; simp)
    rw [hp, hca] at hmem
    exact (hone.asked _ hmem).1
  · intro hw hz
    subst hw
    cases fuel with
    | zero => exact absurd (congrArg Prod.fst hc) (by simp [loop])
    | succ fuel =>
      rw [loop_succ, if_pos (show (i.vars ptr).count = 0 from hz)] at hc
      have hout : finish (i.vars ptr) = out := Option.some.inj (congrArg Prod.fst hc)
      have hsa : s = s' := congrArg Prod.snd hc
      rcases hone.result with ⟨hr, -⟩ | ⟨-, n, hn, -⟩
      · rw [hr] at hout
        exact congrArg Out.cflag hout
      · rw [← hca, ← hsa, hs] at hn
        cases hn

/-! ### What is stored -/

theorem touches_iff {calls : List Call} (hst : s.stored = [])
    (h : OneCall D write handle ptr count s s' out calls moved) :
    (∀ a ∈ s'.stored, write = false ∧ ptr ≤ a ∧ a < ptr + out.eax) ↔
      moved = 0 ∨ write = false ∧ moved ≤ out.eax := by
  rw [h.moves.2, hst, nil_append]
  simp only [mem_range'_1]
  constructor
  · intro ht
    rcases moved.eq_zero_or_pos with h0 | hpos
    · exact .inl h0
    · obtain ⟨hw, -, hlast⟩ := ht (ptr + (moved - 1)) (by omega)
      exact .inr ⟨hw, by omega⟩
  · rintro (rfl | ⟨hw, hle⟩) a ha
    · omega
    · exact ⟨hw, ha.1, by omega⟩

theorem write_idle_iff {calls : List Call}
    (h : OneCall D write handle ptr count s s' out calls moved)
    (he : Ended D n count eax cflag moved) : moved = 0 ↔ count = 0 ∨ ∀ amount, D.transfers n = .move amount → amount = 0 := by
  have hle := h.le
  rcases count.eq_zero_or_pos with rfl | hpos
  · simp [Nat.le_zero.mp hle]
  cases ht : D.transfers n with
  | fail code =>
    have hm := (he.fails 0 code (failsAt_iff.mpr (.inl ⟨rfl, hpos, ht⟩))).2.2
    simp [hm]
  | move amount =>
    rw [he.idle amount ht]
    simp [hpos.ne']

theorem read_within_iff {calls : List Call}
    (h : OneCall D write handle ptr count s s' ⟨eax, cflag⟩ calls moved)
    (he : Ended D n count eax cflag moved) :
    moved ≤ eax ↔ ∀ k code, D.FailsAt n count k code → k * D.tbSize ≤ code := by
  constructor
  · intro hle k code hk
    obtain ⟨rfl, -, rfl⟩ := he.fails k code hk
    exact hle
  · intro hk
    rcases h.result with ⟨hout, -⟩ | ⟨hcf, -⟩
    · injection hout with hmo
      exact hmo.ge
    · rcases he.failed hcf with h0 | ⟨k, code, hf⟩
      · exact (h0 ▸ h.le).trans (Nat.zero_le _)
      · obtain ⟨rfl, -, rfl⟩ := he.fails k code hf
        exact hk k _ hf

/-- What is stored in the run that there is. -/
theorem fine_iff_touches (hs : s.calls = []) (hfo : Follows D write i)
    {calls : List Call} (h : OneCall D write handle ptr i.ecx s s' ⟨eax, cflag⟩ calls moved)
    (he : Ended D s.calls.length i.ecx eax cflag moved) :
    (moved = 0 ∨ write = false ∧ moved ≤ eax) ↔ Fine D i write := by
  rw [hs] at he
  cases write with
  | true => simpa [Fine] using write_idle_iff h he
  | false =>
    have hz : moved = 0 → moved ≤ eax := fun h0 => h0 ▸ Nat.zero_le _
    have hr := read_within_iff h he
    have hfo1 := hfo.1
    have hfo2 := hfo.2 rfl
    simp only [Fine, true_and]
    rw [or_iff_right_of_imp hz, hr]
    exact ⟨fun hk => ⟨hfo1, hfo2, hk⟩, fun hf => hf.2.2⟩

theorem Fine.follows (h : Fine D i write) : Follows D write i := by
  cases write with
  | true =>
    refine ⟨fun ⟨hlt, amount, ht, hle⟩ => ?_, nofun⟩
    have hpos := D.tbSize_pos
    rcases h with h0 | hmove
    · omega
    · have := hmove amount ht
      omega
  | false => exact ⟨h.1, fun _ => h.2.1⟩

theorem vars_after (i : In) (ptr eax : ℕ) (cflag : Bool) :
    (i.vars ptr).after eax cflag = ⟨eax, cflag⟩ := by
  unfold Vars.after In.vars
  cases cflag <;> simp

theorem transfer_works_iff (hah : i.eax % 65536 / 256 = function write) (hs : s.calls = [])
    (hst : s.stored = []) :
    Works D write i ptr s (fun fuel => transfer D fuel i ptr s) ↔ Fine D i write := by
  constructor
  · rintro ⟨fuel, out, s', calls, moved, hc, hone, ht⟩
    have hfo := follows_of_oneCall hah hs hc hone
    obtain ⟨eax, cflag, s1, calls', moved', hr, hone', hen⟩ := transfer_finishes hah hs hfo
    rw [vars_after] at hr
    -- both runs are the one with more fuel
    have heq := (transfer_mono (le_max_left fuel (i.ecx + 1)) hc).symm.trans
      (transfer_mono (le_max_right fuel (i.ecx + 1)) hr)
    obtain ⟨hout, rfl⟩ := Prod.mk.inj heq
    rw [← fine_iff_touches hs hfo hone' hen, ← touches_iff hst hone', ← Option.some.inj hout]
    exact ht
  · intro hf
    obtain ⟨eax, cflag, s', calls, moved, hr, hone, hen⟩ := transfer_finishes hah hs hf.follows
    rw [vars_after] at hr
    exact ⟨_, _, s', calls, moved, hr, hone, (touches_iff hst hone).mpr
      ((fine_iff_touches hs hf.follows hone hen).mpr hf)⟩

/-- **Reads and writes through `int86` and `int86x` are one call**, and store to the first bytes of
the buffer only, if and only if they are fine. -/
theorem int86_one_call_iff (D : Dos) (i : In) (hah : i.eax % 65536 / 256 = function write)
    (hs : s.calls = []) (hst : s.stored = []) :
    (Works D write i (D.dataPtr i.edx) s (fun fuel => int86 D fuel i s) ↔ Fine D i write) ∧
      ∀ ds, Works D write i (D.segP ds + i.edx) s (fun fuel => int86x D fuel i ds s) ↔
        Fine D i write :=
  ⟨transfer_works_iff hah hs hst, fun _ => transfer_works_iff hah hs hst⟩

/-- The usual transfer buffer of 16 KiB and a DOS that moves all it is asked for. -/
def usual : Dos where
  tbSize := 0x4000
  transfers _ := .move 0xffff
  other _ r tb := (r, tb)
  file _ := 0
  dataPtr := id
  segP ds := 16 * ds
  tbSize_pos := by decide
  tbSize_lt := by decide

/-- A request through handle 5. -/
def request (ah count : ℕ) (h : ah < 256 ∧ count < 65536) : In where
  eax := 256 * ah
  ebx := 5
  ecx := count
  edx := 0x1000
  carry := false
  eax_lt := by omega
  ecx_lt := by omega

def rested : Machine := ⟨fun _ => 0, fun _ => 0, 0, [], [], []⟩

theorem int86_one_call_iff_read : Works usual false (request 0x3f 0x4000 (by decide)) 0x1000 rested
    fun fuel => int86 usual fuel (request 0x3f 0x4000 (by decide)) rested :=
  (int86_one_call_iff usual (request 0x3f 0x4000 (by decide)) (by decide) rfl rfl).1.mpr
    ⟨fun h => absurd h.1 (by decide), by decide, fun _ _ h => nomatch h.2.2⟩

/-- The second interrupt of a read of 32 KiB through the usual transfer buffer writes, and a write
of two bytes stores them. -/
theorem int86_read_writes :
    (int86 usual 3 (request 0x3f 0x8000 (by decide)) rested).2.calls.map
          (fun c => (c.ah, c.bx, c.cx)) =
        [(0x3f, 5, 0x4000), (0x40, 5, 0x4000)] ∧
      ¬ Works usual false (request 0x3f 0x8000 (by decide)) 0x1000 rested
        (fun fuel => int86 usual fuel (request 0x3f 0x8000 (by decide)) rested) ∧
      (int86 usual 1 (request 0x40 2 (by decide)) rested).2.stored = [0x1000, 0x1001] := by
  refine ⟨by decide +kernel, fun h => ?_, by decide +kernel⟩
  have hf : Fine usual (request 0x3f 0x8000 (by decide)) false :=
    (transfer_works_iff (by decide) rfl rfl).mp h
  exact absurd (hf.1 ⟨by decide, 0xffff, rfl, by decide⟩) (by decide)

end Int86
