import Dj64.Lib.Runs

/-!
# Reading with bytes pushed back

A binary input stream has a buffer that `_filbuf` fills, and `ungetc` puts a byte back into it.
`fseek` moves inside the buffer where it can; it finds the place of the buffer in the file from the
position of the descriptor and the number of bytes left.

The buffer is memory: what an earlier read has left there is what `ungetc` compares with.  The size
of each read is arbitrary but at least one, which covers `_fillsize` and `_bufsiz`.
-/

namespace Pushback

open List Option Function Bool Runs

/-- `_base` (the memory, and whether there is a buffer), `_ptr` as an offset, `_cnt`, the flags, the
position of the descriptor and the number of reads so far. -/
structure Stream where
  buf : ℕ → UInt8 := fun _ => 0
  base : Bool := false
  ptr : ℕ := 0
  cnt : ℕ := 0
  eof : Bool := false
  unget : Bool := false
  nbf : Bool := false
  pos : ℕ := 0
  reads : ℕ := 0

/-- The bytes of a memory. -/
def slice (buf : ℕ → UInt8) : ℕ → ℕ → List UInt8
  | _, 0 => []
  | p, n + 1 => buf p :: slice buf (p + 1) n

def Stream.ftell (st : Stream) : ℤ := st.pos - st.cnt

/-- `ungetc`.  A `char` is signed, so that a byte from 128 on never equals `c`. -/
def Stream.ungetc (st : Stream) (c : UInt8) : Bool × Stream :=
  if st.base = false ∨ st.ptr = 0 ∧ st.cnt ≠ 0 then (false, st)
  else
    let ptr := st.ptr - 1
    (true, { st with
      ptr := ptr
      cnt := st.cnt + 1
      unget := st.unget || !(decide (st.buf ptr = c) && decide (c < 128))
      buf := update st.buf ptr c })

/-- The part of `fseek` that discards the buffer. -/
def Stream.seekSlow (st : Stream) (target : ℤ) : Stream :=
  { st with
    eof := false
    cnt := 0
    ptr := 0
    unget := false
    pos := if 0 ≤ target then target.toNat else st.pos }

/-- Where `fseek` goes, for `SEEK_CUR` or `SEEK_SET`. -/
def Stream.target (st : Stream) (cur : Bool) (offset : ℤ) : ℤ :=
  if cur then (if st.base && !st.nbf then st.ftell else st.pos) + offset else offset

def Stream.fseek (st : Stream) (cur : Bool) (offset : ℤ) : Stream :=
  let target := st.target cur offset
  let p := st.ftell
  if st.base && !st.nbf && !st.unget && decide (p - target ≤ st.ptr) && decide (target - p ≤ st.cnt)
  then { st with
    eof := false
    ptr := (st.ptr + (target - p)).toNat
    cnt := (st.cnt + (p - target)).toNat }
  else st.seekSlow target

section Reading

variable (content : List UInt8) (chunk : ℕ → ℕ)

def Stream.read (st : Stream) : List UInt8 :=
  (content.drop st.pos).take (if st.nbf then 1 else chunk st.reads + 1)

/-- The buffer after `_filbuf` has read the bytes and delivered the first. -/
def Stream.load (st : Stream) (bytes : List UInt8) : Stream :=
  { st with
    buf := fun i => bytes.getD i (st.buf i)
    base := !st.nbf
    ptr := 1
    cnt := bytes.length - 1
    unget := false
    pos := st.pos + bytes.length
    reads := st.reads + 1 }

def Stream.filbuf (st : Stream) : Option UInt8 × Stream :=
  if st.eof then (none, st)
  else
    match st.read content chunk with
    | [] => (none, { st.load [] with ptr := 0, eof := true })
    | c :: rest => (some c, st.load (c :: rest))

def Stream.getc (st : Stream) : Option UInt8 × Stream :=
  if 0 < st.cnt then (some (st.buf st.ptr), { st with ptr := st.ptr + 1, cnt := st.cnt - 1 })
  else st.filbuf content chunk

/-- The loop of `fread` for `s` bytes; every round reads one at least. -/
def Stream.freadLoop : ℕ → ℕ → Stream → List UInt8 × Stream
  | 0, _, st => ([], st)
  | fuel + 1, s, st =>
    if st.cnt < s then
      -- the bytes are copied, but only `_filbuf` takes them out of the buffer
      match st.filbuf content chunk with
      | (none, st') => (slice st.buf st.ptr st.cnt, st')
      | (some c, st') =>
        let r := freadLoop fuel (s - st.cnt - 1) st'
        (slice st.buf st.ptr st.cnt ++ c :: r.1, r.2)
    else (slice st.buf st.ptr s, { st with ptr := st.ptr + s, cnt := st.cnt - s })

/-- `s = size * count`, as an `int`. -/
def asked (size count : UInt64) : ℤ := Int.bmod (size.toNat * count.toNat : ℕ) (2 ^ 32)

/-- What `fread` returns if it has stored `n` bytes. -/
def items (size count : UInt64) (n : ℕ) : ℕ :=
  let s := ((asked size count - n + size.toNat - 1) % 2 ^ 64).toNat
  if size = 0 then 0 else (count.toNat + 2 ^ 64 - s / size.toNat) % 2 ^ 64

/-- `fread`: the bytes that are stored, and the result. -/
def Stream.fread (st : Stream) (size count : UInt64) : (List UInt8 × ℕ) × Stream :=
  let r := st.freadLoop content chunk (asked size count).toNat (asked size count).toNat
  ((r.1, items size count r.1.length), r.2)

/-- A call on the stream. -/
inductive Call
  | getc
  | fread (size count : UInt64)
  | ftell
  | ungetc (c : UInt8)
  | fseek (cur : Bool) (offset : ℤ)
  deriving DecidableEq

/-- What a call returns. -/
inductive Result
  | byte (c : Option UInt8)
  | stored (bytes : List UInt8) (result : ℕ)
  | place (p : ℤ)
  | pushed (ok : Bool)
  | moved
  deriving DecidableEq

/-- A call is carried out. -/
def Stream.perform (st : Stream) : Call → Result × Stream
  | .getc => (.byte (st.getc content chunk).1, (st.getc content chunk).2)
  | .fread size count =>
    let r := st.fread content chunk size count
    (.stored r.1.1 r.1.2, r.2)
  | .ftell => (.place st.ftell, st)
  | .ungetc c => (.pushed (st.ungetc c).1, (st.ungetc c).2)
  | .fseek cur offset => (.moved, st.fseek cur offset)

/-- The results of calls, one after the other. -/
def Stream.play : Stream → List Call → List Result
  | _, [] => []
  | st, call :: calls =>
    (st.perform content chunk call).1 :: (st.perform content chunk call).2.play calls

/-- A call as a step of a run; it never fails. -/
def step (st : Stream) (call : Call) : Except Empty Stream := .ok (st.perform content chunk call).2

/-! ### The bytes that are still to come -/

def Stream.ahead (st : Stream) : List UInt8 :=
  slice st.buf st.ptr st.cnt ++ content.drop st.pos

def Stream.AtEnd (st : Stream) : Prop := st.eof = true → content.length ≤ st.pos

/-- A buffer without a byte that was pushed back holds the bytes before the position of the
descriptor. -/
def Stream.Holds (st : Stream) : Prop :=
  st.unget = false → ∀ j q, j < st.ptr + st.cnt → q + (st.ptr + st.cnt) = st.pos + j →
    content[q]? = some (st.buf j)

/-- `k` bytes, or all, are taken from those that are still to come. -/
structure Reads (k : ℕ) (st st' : Stream) : Prop where
  ahead : st'.ahead content = (st.ahead content).drop k
  ftell : st'.ftell = st.ftell + min k (st.ahead content).length
  atEnd : st'.AtEnd content
  holds : st.Holds content → st'.Holds content
  quiet : (st.eof = true → st.cnt = 0) → st'.eof = true → st'.cnt = 0

/-- The bytes that a call asks for, if it reads. -/
def Call.bytes : Call → Option ℕ
  | .getc => some 1
  | .fread size count => some (asked size count).toNat
  | .ftell => some 0
  | _ => none

/-- What a call that reads returns, from the bytes that it takes and the place in the file. -/
def Call.result (taken : List UInt8) (p : ℤ) : Call → Result
  | .getc => .byte taken.head?
  | .fread size count => .stored taken (items size count taken.length)
  | _ => .place p

end Reading

variable {content bytes : List UInt8} {chunk chunk' : ℕ → ℕ} {st st' : Stream} {call : Call}
  {k n i p q j : ℕ} {size count : UInt64} {buf : ℕ → UInt8} {c : UInt8}

@[simp] theorem length_slice (buf : ℕ → UInt8) (p n : ℕ) : (slice buf p n).length = n := by
  induction n generalizing p with
  | zero => rfl
  | succ n ih => rw [slice, length_cons, ih]

theorem slice_add (buf : ℕ → UInt8) (p m n : ℕ) :
    slice buf p (m + n) = slice buf p m ++ slice buf (p + m) n := by
  induction m generalizing p with
  | zero => rw [Nat.zero_add, slice, nil_append, Nat.add_zero]
  | succ m ih =>
    rw [Nat.succ_add, slice, slice, ih, cons_append, Nat.add_assoc, Nat.add_comm 1 m]

theorem slice_append_drop (h : ∀ i < n, content[q + i]? = some (buf (p + i))) :
    slice buf p n ++ content.drop (q + n) = content.drop q := by
  induction n generalizing p q with
  | zero => rfl
  | succ n ih =>
    obtain ⟨hq, hb⟩ := List.getElem?_eq_some_iff.mp (h 0 n.succ_pos)
    have hr := ih (p := p + 1) (q := q + 1) fun i hi => by
      have := h (i + 1) (Nat.succ_lt_succ hi)
      rwa [Nat.add_comm i 1, ← Nat.add_assoc, ← Nat.add_assoc] at this
    rw [slice, cons_append, Nat.add_comm n 1, ← Nat.add_assoc, hr,
      drop_eq_getElem_cons (show q < content.length from hq)]
    exact congrArg (· :: _) hb.symm

theorem Stream.Holds.ahead_eq (h : st.Holds content) (hu : st.unget = false)
    (hq : st.ftell = q) : st.ahead content = content.drop q := by
  have hpos : q + st.cnt = st.pos := by
    unfold Stream.ftell at hq
    omega
  rw [Stream.ahead, ← hpos]
  exact slice_append_drop fun i hi => h hu _ _ (by omega) (by omega)

theorem drop_of_read_nil (h : st.read content chunk = []) : content.length ≤ st.pos := by
  rcases take_eq_nil_iff.mp h with h | h
  · split_ifs at h
  · exact drop_eq_nil_iff.mp h

theorem getElem?_of_read (h : st.read content chunk = bytes)
    (hj : j < bytes.length) (x : UInt8) : content[st.pos + j]? = some (bytes.getD j x) := by
  have hget : bytes[j]? = content[st.pos + j]? := by
    rw [← h, Stream.read, length_take] at hj
    rw [← h, Stream.read, getElem?_take, getElem?_drop,
      if_pos (lt_of_lt_of_le hj (min_le_left _ _))]
  rw [← hget, getD_eq_getElem?_getD, getElem?_eq_getElem hj, getD_some]

/-- `_filbuf` discards the buffer and delivers the next byte of the file. -/
theorem filbuf_spec (heof : st.eof = false) :
    (st.filbuf content chunk).1 = (content.drop st.pos).head? ∧
      (st.filbuf content chunk).2.ahead content = content.drop (st.pos + 1) ∧
      (st.filbuf content chunk).2.ftell = st.pos + min 1 (content.drop st.pos).length ∧
      (st.filbuf content chunk).2.AtEnd content ∧ (st.filbuf content chunk).2.Holds content ∧
      ((st.filbuf content chunk).2.eof → (st.filbuf content chunk).2.cnt = 0) := by
  unfold Stream.filbuf
  rw [if_neg (by rw [heof]; decide)]
  cases hr : st.read content chunk with
  | nil =>
    have hend := drop_of_read_nil hr
    have hd : content.drop st.pos = [] := drop_eq_nil_iff.mpr hend
    rw [hd]
    refine ⟨rfl, ?_, rfl, fun _ => hend, ?_, fun _ => rfl⟩
    · exact hd.trans (drop_eq_nil_iff.mpr (by omega)).symm
    · exact fun _ j q hj => absurd hj (Nat.not_lt_zero j)
  | cons c rest =>
    have hb (j : ℕ) (hj : j < (c :: rest).length) (x : UInt8) :
        content[st.pos + j]? = some ((c :: rest).getD j x) := getElem?_of_read hr hj x
    obtain ⟨hpos, hc⟩ := List.getElem?_eq_some_iff.mp (hb 0 (Nat.succ_pos _) 0)
    have hd : content.drop st.pos = c :: content.drop (st.pos + 1) := by
      rw [drop_eq_getElem_cons (show st.pos < content.length from hpos)]
      exact congrArg (· :: _) hc
    have hh : (st.load (c :: rest)).Holds content := by
      intro _ j q hj hq
      simp only [Stream.load, length_cons] at hj hq
      rw [show q = st.pos + j by omega]
      exact hb j (by rw [length_cons]; omega) _
    have ht : (st.load (c :: rest)).ftell = (st.pos + 1 : ℕ) := by
      simp only [Stream.ftell, Stream.load, length_cons]
      omega
    have ho {p : Prop} (h : st.eof) : p := absurd (heof.symm.trans h) (by decide)
    refine ⟨by rw [hd]; rfl, hh.ahead_eq rfl ht, ?_, ho, hh, ho⟩
    rw [hd, ht]
    simp

/-- `fread` takes what it asks for, unless a byte was pushed back after the end of file and it asks
for more. -/
theorem freadLoop_reads (fuel s : ℕ) (hend : st.AtEnd content) (hf : s ≤ fuel)
    (hok : st.eof → 0 < st.cnt → s ≤ st.cnt) :
    (st.freadLoop content chunk fuel s).1 = (st.ahead content).take s ∧
      Reads content s st (st.freadLoop content chunk fuel s).2 := by
  induction fuel generalizing s st with
  | zero =>
    obtain rfl : s = 0 := Nat.le_zero.mp hf
    exact ⟨rfl, rfl, by simp [Stream.freadLoop], hend, id, id⟩
  | succ fuel ih =>
    rw [Stream.freadLoop]
    split_ifs with hlt
    · cases heof : st.eof with
      | true =>
        have hcnt : st.cnt = 0 := by
          by_contra hne
          exact absurd (hok heof (Nat.pos_of_ne_zero hne)) (by omega)
        have hnil : st.ahead content = [] := by
          rw [Stream.ahead, hcnt, drop_eq_nil_iff.mpr (hend heof)]
          rfl
        have hfil : st.filbuf content chunk = (none, st) := by rw [Stream.filbuf, if_pos heof]
        rw [hfil, hnil]
        exact ⟨by rw [hcnt, take_nil]; rfl, by rw [hnil, drop_nil], by rw [hnil]; simp,
          hend, id, id⟩
      | false =>
        obtain ⟨hfst, ha, ht, he', hh, hqu⟩ := @filbuf_spec content chunk st heof
        rcases hfil : st.filbuf content chunk with ⟨c, st'⟩
        rw [hfil] at hfst ha ht he' hh hqu
        cases hd : content.drop st.pos with
        | nil =>
          rw [hd] at hfst ht
          cases hfst
          have hw : st.ahead content = slice st.buf st.ptr st.cnt := by
            rw [Stream.ahead, hd, append_nil]
          have hn : st'.ahead content = [] := ha.trans (drop_eq_nil_iff.mpr (by
              have := drop_eq_nil_iff.mp hd
              omega))
          refine ⟨?_, ?_, ?_, he', fun _ => hh, fun _ => hqu⟩
          · rw [hw, take_of_length_le (by rw [length_slice]; omega)]
          · rw [hn, hw, drop_eq_nil_iff.mpr (by rw [length_slice]; omega)]
          · rw [hw, ht, Stream.ftell]
            simp
            omega
        | cons b rest =>
          rw [hd] at hfst ht
          cases hfst
          have hre : st'.ahead content = rest := by rw [ha, ← tail_drop, hd, tail_cons]
          obtain ⟨hfst, hr⟩ := @ih st' (s - st.cnt - 1) he' (by omega) fun h hpos =>
              absurd (hqu h) hpos.ne'
          have hw : st.ahead content = (slice st.buf st.ptr st.cnt ++ [b]) ++ rest := by
            rw [Stream.ahead, hd, append_assoc]
            rfl
          have hlen : (slice st.buf st.ptr st.cnt ++ [b]).length = st.cnt + 1 := by simp
          have hs : s = (slice st.buf st.ptr st.cnt ++ [b]).length + (s - st.cnt - 1) := by omega
          refine ⟨?_, ?_, ?_, hr.atEnd, fun _ => hr.holds hh, fun _ => hr.quiet hqu⟩
          · rw [hw, hs, take_length_add_append, ← hs]
            simp [hfst, hre]
          · rw [hw, hs, drop_length_add_append, ← hs, ← hre]
            exact hr.ahead
          · have := hr.ftell
            rw [hre] at this
            rw [hw, length_append]
            simp only [length_cons, Stream.ftell] at this ht ⊢
            omega
    · have hsl := slice_add st.buf st.ptr s (st.cnt - s)
      rw [show s + (st.cnt - s) = st.cnt by omega] at hsl
      have hw : st.ahead content = slice st.buf st.ptr s ++
          (slice st.buf (st.ptr + s) (st.cnt - s) ++ content.drop st.pos) := by
        rw [Stream.ahead, hsl, append_assoc]
      refine ⟨?_, ?_, ?_, hend, fun h => ?_, fun h heof => ?_⟩
      · rw [hw, take_left' (length_slice _ _ _)]
      · rw [hw, drop_left' (length_slice _ _ _)]
        rfl
      · rw [hw, length_append, length_slice]
        simp only [Stream.ftell]
        omega
      · intro hu j q hj hq
        dsimp only at hj hq
        exact h hu j q (by omega) (by omega)
      · have := h heof
        dsimp only
        omega

theorem getc_eq : st.getc content chunk =
    ((st.freadLoop content chunk 1 1).1.head?, (st.freadLoop content chunk 1 1).2) := by
  rw [Stream.getc, Stream.freadLoop]
  by_cases hcnt : 0 < st.cnt
  · rw [if_pos hcnt, if_neg (by omega)]
    rfl
  · obtain hz : st.cnt = 0 := by omega
    rw [if_neg hcnt, hz]
    rcases st.filbuf content chunk with ⟨_ | c, st'⟩ <;> rfl

theorem perform_reads (hc : call.bytes = some k)
    (hend : st.AtEnd content) (hok : st.eof → 0 < st.cnt → k ≤ st.cnt) :
    (st.perform content chunk call).1 = call.result ((st.ahead content).take k) st.ftell ∧
      Reads content k st (st.perform content chunk call).2 := by
  cases call with
  | getc =>
    cases hc
    obtain ⟨hfst, hr⟩ := @freadLoop_reads content chunk st 1 1 hend le_rfl hok
    rw [Stream.perform, getc_eq, hfst]
    exact ⟨rfl, hr⟩
  | fread size count =>
    have hc : (asked size count).toNat = k := some.inj hc
    obtain ⟨hfst, hr⟩ := @freadLoop_reads content chunk st k k hend le_rfl hok
    simp only [Stream.perform, Stream.fread, hc, hfst]
    exact ⟨rfl, hr⟩
  | ftell =>
    cases hc
    exact ⟨rfl, rfl, by simp [Stream.perform], hend, id, id⟩
  | ungetc c => cases hc
  | fseek cur offset => cases hc

/-! ### Every byte is delivered once -/

/-- The results of calls are those of a list of bytes from which reading takes and to which a
successful `ungetc` adds; `fread` returns the number of complete items. -/
def Delivers : List UInt8 → List (Call × Result) → Prop
  | _, [] => True
  | ahead, (.getc, r) :: rest => r = .byte ahead.head? ∧ Delivers ahead.tail rest
  | ahead, (.fread size count, r) :: rest =>
    let n := size.toNat * count.toNat
    r = .stored (ahead.take n) ((ahead.take n).length / size.toNat) ∧ Delivers (ahead.drop n) rest
  | ahead, (.ungetc c, r) :: rest =>
    Delivers (if r = .pushed true then c :: ahead else ahead) rest
  | ahead, _ :: rest => Delivers ahead rest

/-- `fread` is asked for less than 2 GiB, and for no more than is in the buffer if a byte was pushed
back after the end of file. -/
def Minds (st : Stream) : Call → Prop
  | .fread size count => size.toNat * count.toNat < 2 ^ 31 ∧
      (st.eof = true → 0 < st.cnt → size.toNat * count.toNat ≤ st.cnt)
  | .fseek _ _ => False
  | _ => True

instance (st : Stream) : DecidablePred (Minds st)
  | .fread size count => inferInstanceAs (Decidable (size.toNat * count.toNat < 2 ^ 31 ∧
      (st.eof = true → 0 < st.cnt → size.toNat * count.toNat ≤ st.cnt)))
  | .fseek _ _ => isFalse id
  | .getc | .ftell | .ungetc _ => isTrue trivial

theorem asked_eq (h : size.toNat * count.toNat < 2 ^ 31) :
    asked size count = (size.toNat * count.toNat : ℕ) := by
  exact Int.bmod_eq_of_le (by omega) (by omega)

/-- Rounding up what is missing rounds down what was stored. -/
theorem items_eq (h : size.toNat * count.toNat < 2 ^ 31)
    (hn : n ≤ size.toNat * count.toNat) : items size count n = n / size.toNat := by
  have hlt := size.toNat_lt
  rw [items, asked_eq h]
  split_ifs with hs
  · rw [hs]
    exact (Nat.div_zero n).symm
  have hpos : 0 < size.toNat := Nat.pos_of_ne_zero fun h => hs (UInt64.toNat_inj.mp h)
  generalize size.toNat = size at *
  generalize count.toNat = count at *
  have hc : count ≤ size * count := Nat.le_mul_of_pos_left _ hpos
  have hsz : count = 0 ∨ size ≤ size * count :=
    (Nat.eq_zero_or_pos count).imp id (Nat.le_mul_of_pos_right _)
  have hdiv := Nat.div_add_mod n size
  have hmod := Nat.mod_lt n hpos
  obtain ⟨m, hm⟩ := Nat.exists_eq_add_of_le (Nat.div_le_of_le_mul hn)
  generalize n / size = q at *
  generalize n % size = r at *
  have hmul : size * count = size * q + size * m := by rw [hm, Nat.mul_add]
  have hz : count = 0 → size * count = 0 := fun h => by rw [h, Nat.mul_zero]
  have hmi : (((size * count : ℕ) - n + size - 1 : ℤ) % 2 ^ 64).toNat =
      (size - 1 - r) + size * m := by
    omega
  rw [hmi, Nat.add_mul_div_left _ _ hpos, Nat.div_eq_of_lt (by omega), Nat.zero_add]
  omega

theorem slice_update (h : i < p) : slice (update buf i c) p n = slice buf p n := by
  induction n generalizing p with
  | zero => rfl
  | succ n ih => rw [slice, slice, ih (by omega), update_of_ne (by omega)]

theorem ungetc_ahead : (st.ungetc c).2.ahead content =
      if Result.pushed (st.ungetc c).1 = .pushed true then c :: st.ahead content
      else st.ahead content := by
  unfold Stream.ungetc
  by_cases hf : st.base = false ∨ st.ptr = 0 ∧ st.cnt ≠ 0
  · rw [if_pos hf]
    rfl
  rw [if_neg hf, if_pos rfl]
  simp only [Stream.ahead, slice, update_self, cons_append]
  rw [slice_update (Nat.lt_succ_self _)]
  rcases Nat.eq_zero_or_pos st.ptr with hz | hpos
  · have : st.cnt = 0 := by
      by_contra hne
      exact hf (.inr ⟨hz, hne⟩)
    rw [this]
    rfl
  · rw [Nat.succ_eq_add_one, Nat.sub_add_cancel hpos]

theorem play_delivers (hend : st.AtEnd content) {calls : List Call}
    (hmi : Admits (step content chunk) Minds st calls) :
    Delivers (st.ahead content) (calls.zip (st.play content chunk calls)) := by
  induction calls generalizing st with
  | nil => exact trivial
  | cons call calls ih =>
    obtain ⟨hm, hres⟩ := hmi
    rw [Stream.play, zip_cons_cons]
    have hre {k : ℕ} (hc : call.bytes = some k) (hok : st.eof → 0 < st.cnt → k ≤ st.cnt) :
        (st.perform content chunk call).1 = call.result ((st.ahead content).take k) st.ftell ∧
          Delivers ((st.ahead content).drop k)
            (calls.zip ((st.perform content chunk call).2.play content chunk calls)) := by
      obtain ⟨hr, hrea⟩ := @perform_reads content chunk st call k hc hend hok
      rw [← hrea.ahead]
      exact ⟨hr, ih hrea.atEnd hres⟩
    cases call with
    | getc =>
      obtain ⟨hr, hd⟩ := hre rfl fun _ h => h
      rw [Delivers, hr, ← drop_one]
      refine ⟨?_, hd⟩
      cases st.ahead content <;> rfl
    | fread size count =>
      obtain ⟨hlt, hle⟩ := hm
      have ha : (asked size count).toNat = size.toNat * count.toNat := by
        rw [asked_eq hlt, Int.toNat_natCast]
      obtain ⟨hr, hd⟩ := hre rfl (by rwa [ha])
      rw [ha] at hr hd
      rw [Delivers, hr, Call.result, items_eq hlt (length_take_le _ _)]
      exact ⟨rfl, hd⟩
    | ftell => exact (hre rfl fun _ _ => Nat.zero_le _).2
    | ungetc c =>
      have hd := @ih (st.ungetc c).2 ?_ hres
      · rw [ungetc_ahead] at hd
        exact hd
      · unfold Stream.ungetc
        split_ifs <;> exact hend
    | fseek cur offset => exact hm.elim

/-- From a stream at the start of a file, every byte is delivered once and in order, those that were
pushed back first, and every `fread` returns the number of complete items. -/
theorem bytes_delivered (content : List UInt8) (chunk : ℕ → ℕ) (buf : ℕ → UInt8) (base nbf : Bool)
    (calls : List Call)
    (hminds : Admits (step content chunk) Minds { buf := buf, base := base, nbf := nbf } calls) :
    Delivers content
      (calls.zip (Stream.play content chunk { buf := buf, base := base, nbf := nbf } calls)) :=
  play_delivers (fun h => (false_ne_true h).elim) hminds

theorem bytes_delivered_three : Delivers [97, 98, 99] ([.getc, .ungetc 120, .fread 2 2, .getc].zip
      (Stream.play [97, 98, 99] (fun _ => 1) {} [.getc, .ungetc 120, .fread 2 2, .getc])) :=
  bytes_delivered [97, 98, 99] (fun _ => 1) (fun _ => 0) false false
    [.getc, .ungetc 120, .fread 2 2, .getc] (by decide +kernel)

/-- A byte that is pushed back at the end of file is delivered twice: `fread` is asked for two, and
`_filbuf` returns before it empties the buffer. -/
theorem byte_delivered_twice :
    Stream.play [97] (fun _ => 0) {} [.getc, .getc, .ungetc 120, .fread 1 2, .getc] =
      [.byte (some 97), .byte none, .pushed true, .stored [120] 1, .byte (some 120)] := by
  decide +kernel

/-! ### Seeking -/

/-- A byte that is pushed back into an empty buffer, where it finds itself, is the one before the
position of the descriptor. -/
def Keeps (content : List UInt8) (st : Stream) : Call → Prop
  | .ungetc c => st.base = true ∧ st.ptr = 0 ∧ st.cnt = 0 ∧ st.buf 0 = c ∧ c < 128 →
      st.pos = 0 ∨ content[st.pos - 1]? = some c
  | _ => True

instance (st : Stream) : DecidablePred (Keeps content st)
  | .ungetc c => inferInstanceAs (Decidable (st.base = true ∧ st.ptr = 0 ∧ st.cnt = 0 ∧
      st.buf 0 = c ∧ c < 128 → st.pos = 0 ∨ content[st.pos - 1]? = some c))
  | .getc | .ftell | .fread _ _ | .fseek _ _ => isTrue trivial

theorem ungetc_holds (hst : st.Holds content) (hk : Keeps content st (.ungetc c)) :
    (st.ungetc c).2.Holds content := by
  unfold Stream.ungetc
  split_ifs with hf
  · exact hst
  have hb : st.base = true := eq_true_of_ne_false fun h => hf (.inl h)
  intro hu j q hj hq
  simp only [or_eq_false_iff, not_eq_false', and_eq_true, decide_eq_true_eq] at hu hj hq ⊢
  obtain ⟨hu, hs, hsm⟩ := hu
  rw [← hs, update_eq_self]
  rcases Nat.eq_zero_or_pos st.ptr with hz | hpos
  · have hcnt : st.cnt = 0 := by
      by_contra hne
      exact hf (.inr ⟨hz, hne⟩)
    rw [hz] at hs hj hq
    rcases hk ⟨hb, hz, hcnt, hs, hsm⟩ with hpos | hbefore
    · omega
    · rw [show q = st.pos - 1 by omega, show j = 0 by omega, hbefore, ← hs]
  · exact hst hu j q (by omega) (by omega)

theorem fseek_holds (hst : st.Holds content) (cur : Bool) (offset : ℤ) :
    (st.fseek cur offset).Holds content := by
  unfold Stream.fseek
  dsimp only
  split_ifs with hf
  · simp only [and_eq_true, decide_eq_true_eq] at hf
    intro hu j q hj hq
    dsimp only at hj hq ⊢
    exact hst hu j q (by omega) (by omega)
  · exact fun _ j q hj => absurd hj (Nat.not_lt_zero j)

section

variable (hend : st.AtEnd content)
include hend

/-- Every call keeps what the buffer holds. -/
theorem perform_holds (hst : st.Holds content)
    (hk : Keeps content st call) : (st.perform content chunk call).2.AtEnd content ∧
      (st.perform content chunk call).2.Holds content := by
  have hr {k : ℕ} (hc : call.bytes = some k) (hok : st.eof → 0 < st.cnt → k ≤ st.cnt) :
      (st.perform content chunk call).2.AtEnd content ∧
        (st.perform content chunk call).2.Holds content := by
    obtain ⟨-, hre⟩ := @perform_reads content chunk st call k hc hend hok
    exact ⟨hre.atEnd, hre.holds hst⟩
  cases call with
  | getc => exact hr rfl fun _ h => h
  | ftell => exact hr rfl fun _ _ => Nat.zero_le _
  | fread size count =>
    obtain ⟨s, hs⟩ : ∃ s, (asked size count).toNat = s := ⟨_, rfl⟩
    by_cases hok : st.eof → 0 < st.cnt → s ≤ st.cnt
    · exact hr (congrArg some hs) hok
    -- `_filbuf` returns at once, and nothing changes
    simp only [Classical.not_imp, not_le] at hok
    obtain ⟨heof, -, hlt⟩ := hok
    simp only [Stream.perform, Stream.fread, hs]
    cases s with
    | zero => exact ⟨hend, hst⟩
    | succ s =>
      rw [Stream.freadLoop, if_pos hlt, Stream.filbuf, if_pos heof]
      exact ⟨hend, hst⟩
  | ungetc c =>
    refine ⟨?_, ungetc_holds hst hk⟩
    simp only [Stream.perform, Stream.ungetc]
    split_ifs <;> exact hend
  | fseek cur offset =>
    refine ⟨fun h => ?_, fseek_holds hst cur offset⟩
    simp only [Stream.perform, Stream.fseek, Stream.seekSlow] at h
    split_ifs at h

/-- So does a whole run. -/
theorem run_holds (hst : st.Holds content) (calls : List Call)
    (hk : Admits (step content chunk) (Keeps content) st calls)
    (hrun : run (step content chunk) st calls = .ok st') : st'.Holds content := by
  obtain ⟨_, hr, -, hst'⟩ := run_invariant
    (fun st call (hi : st.AtEnd content ∧ st.Holds content) hk =>
      ⟨(st.perform content chunk call).2, rfl, perform_holds hi.1 hi.2 hk⟩) ⟨hend, hst⟩ hk
  rw [hrun] at hr
  cases hr
  exact hst'

theorem play_eq (he' : st'.AtEnd content) (hq : st.eof → st.cnt = 0)
    (hq' : st'.eof → st'.cnt = 0) (ha : st.ahead content = st'.ahead content)
    (hf : st.ftell = st'.ftell) (calls : List Call) (hre : ∀ call ∈ calls, call.bytes.isSome) :
    st.play content chunk calls = st'.play content chunk' calls := by
  induction calls generalizing st st' with
  | nil => rfl
  | cons call calls ih =>
    obtain ⟨k, hk⟩ := isSome_iff_exists.mp (hre call mem_cons_self)
    obtain ⟨hres, hr⟩ := @perform_reads content chunk st call k hk hend
      fun h hpos => absurd (hq h) hpos.ne'
    obtain ⟨hre', hr'⟩ := @perform_reads content chunk' st' call k hk he'
      fun h hpos => absurd (hq' h) hpos.ne'
    rw [Stream.play, Stream.play, hres, hre', ha, hf]
    refine congrArg _ (ih hr.atEnd hr'.atEnd (hr.quiet hq) (hr'.quiet hq') ?_ ?_
      (forall_mem_cons.mp hre).2)
    · rw [hr.ahead, hr'.ahead, ha]
    · rw [hr.ftell, hr'.ftell, ha, hf]

end

/-- After reads, seeks and bytes pushed back, what is read and told after `fseek` is the same as
after a seek that discards the buffer. -/
theorem fseek_equiv (content : List UInt8) (chunk chunk₁ chunk₂ : ℕ → ℕ) (buf : ℕ → UInt8)
    (base nbf : Bool) (calls later : List Call) (cur : Bool) (offset : ℤ) (st : Stream)
    (hrun : run (step content chunk) { buf := buf, base := base, nbf := nbf } calls = .ok st)
    (hk : Admits (step content chunk) (Keeps content)
      { buf := buf, base := base, nbf := nbf } calls)
    (ht : 0 ≤ st.target cur offset) (hl : ∀ call ∈ later, call.bytes.isSome = true) :
    (st.fseek cur offset).play content chunk₁ later =
      (st.seekSlow (st.target cur offset)).play content chunk₂ later := by
  have hh : st.Holds content := by
    refine run_holds (fun h => (false_ne_true h).elim) (fun _ j q hj => ?_) calls hk hrun
    exact absurd hj (Nat.not_lt_zero j)
  have hnew := fseek_holds hh cur offset
  unfold Stream.fseek at hnew ⊢
  dsimp only at hnew ⊢
  split_ifs at hnew ⊢ with hf
  · simp only [and_eq_true, not_eq_true', decide_eq_true_eq] at hf
    have hft : Stream.ftell { st with
        eof := false
        ptr := (st.ptr + (st.target cur offset - st.ftell)).toNat
        cnt := (st.cnt + (st.ftell - st.target cur offset)).toNat } =
        ((st.target cur offset).toNat : ℕ) := by
      unfold Stream.ftell at hf ⊢
      dsimp only
      omega
    refine play_eq (fun h => (false_ne_true h).elim) (fun h => (false_ne_true h).elim)
      (fun h => (false_ne_true h).elim) (fun _ => rfl) ?_ ?_ later hl
    · rw [hnew.ahead_eq hf.1.1.2 hft, Stream.seekSlow, if_pos ht]
      rfl
    · rw [hft, Stream.seekSlow, if_pos ht]
      simp [Stream.ftell]
  · exact play_eq (fun h => (false_ne_true h).elim) (fun h => (false_ne_true h).elim)
      (fun _ => rfl) (fun _ => rfl) rfl rfl later hl

theorem fseek_equiv_two :
    ∃ st, run (step [97, 98] fun _ => 1) {} [.getc, .getc] = .ok st ∧
      (st.fseek true (-1)).play [97, 98] (fun _ => 0) [.getc, .ftell] =
        (st.seekSlow 1).play [97, 98] (fun _ => 0) [.getc, .ftell] :=
  ⟨_, rfl, fseek_equiv [97, 98] (fun _ => 1) (fun _ => 0) (fun _ => 0) (fun _ => 0) false false
    [.getc, .getc] [.getc, .ftell] true (-1) _ rfl (by decide +kernel) (by decide +kernel)
    (by decide)⟩

/-- The byte that is pushed back at the end of file is the stale first byte of the buffer, so that
no flag is set.  `fseek` to where the stream is stays in the buffer and delivers it; the byte at
that place is another. -/
theorem stale_byte_read :
    ∃ st, run (step [97, 98] fun _ => 1) {} [.getc, .getc, .getc, .ungetc 97] = .ok st ∧
      (st.fseek true 0).play [97, 98] (fun _ => 0) [.getc] = [.byte (some 97)] ∧
      (st.seekSlow 1).play [97, 98] (fun _ => 0) [.getc] = [.byte (some 98)] :=
  ⟨_, rfl, by decide +kernel⟩

end Pushback
