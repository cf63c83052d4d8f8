import Mathlib.Tactic

/-!
# Writing in text mode

`write` on a descriptor in text mode fills the transfer buffer with translated bytes, a carriage
return before each newline, and has `_write_int` pass the buffer to DOS, until all source bytes are
written or a call of DOS is short.  DOS is a function that gives, for each call, the most bytes that
it takes.

* `write`: the result, and what DOS has been given.
* `completed`: the source bytes that a part of the translation completes, which `write` should
  return.
* `write_reports_iff`: when it does.
-/

namespace TextWrite

open List

/-- The inner loop: what goes to the transfer buffer, in which there are `n` bytes already, and the
rest of the source. -/
def fill (tbSize : ℕ) : ℕ → List UInt8 → List UInt8 × List UInt8
  | _, [] => ([], [])
  | n, c :: rest =>
    if n < tbSize then
      if c = 10 then
        if n = tbSize - 1 then ([], c :: rest)
        else (13 :: 10 :: (fill tbSize (n + 2) rest).1, (fill tbSize (n + 2) rest).2)
      else (c :: (fill tbSize (n + 1) rest).1, (fill tbSize (n + 1) rest).2)
    else ([], c :: rest)

/-- `_write_int` for bytes that are in the transfer buffer: one call of DOS, which takes at most
`most` bytes. -/
def writeInt (most n : ℕ) : ℤ := if n ≠ 0 ∧ min n most = 0 then -1 else min n most

/-- What `write` returns, and the bytes that DOS has taken. -/
structure Written where
  result : ℤ
  taken : List UInt8
  deriving DecidableEq

section Write

variable (dos : ℕ → ℕ) (tbSize count : ℕ)

/-- The outer loop, from the call `i` of DOS on; the fuel bounds the calls. -/
def writeLoop : ℕ → ℕ → List UInt8 → Option Written
  | _, _, [] => some ⟨count, []⟩
  | 0, _, _ :: _ => none
  | fuel + 1, i, c :: rest =>
    let tb := (fill tbSize 0 (c :: rest)).1
    let rest := (fill tbSize 0 (c :: rest)).2
    let offsetIntoBuf := count - rest.length
    let out := writeInt (dos i) tb.length
    if out < 0 then some ⟨-1, []⟩
    else if out < tb.length then
      some ⟨count - (offsetIntoBuf + out), tb.take out.toNat⟩
    else (writeLoop fuel (i + 1) rest).map fun w => { w with taken := tb ++ w.taken }

end Write

/-- `write` on a descriptor in text mode. -/
def write (dos : ℕ → ℕ) (tbSize : ℕ) (data : List UInt8) : Option Written :=
  writeLoop dos tbSize data.length data.length 0 data

/-! ### What is written -/

/-- A carriage return before each newline. -/
def translate (data : List UInt8) : List UInt8 :=
  data.flatMap fun c => if c = 10 then [13, 10] else [c]

/-- How many source bytes the first `n` bytes of the translation complete. -/
def completed : ℕ → List UInt8 → ℕ
  | _, [] => 0
  | n, c :: rest =>
    let width := if c = 10 then 2 else 1
    if width ≤ n then completed (n - width) rest + 1 else 0

theorem translate_cons {c : UInt8} {rest : List UInt8} :
    translate (c :: rest) = (if c = 10 then [13, 10] else [c]) ++ translate rest :=
  flatMap_cons

theorem fill_length (tbSize n : ℕ) (data : List UInt8) :
    (fill tbSize n data).2.length ≤ data.length := by
  induction data generalizing n with
  | nil => exact le_rfl
  | cons c rest ih =>
    rw [fill]
    split_ifs
    · exact le_rfl
    · exact (ih _).trans (Nat.le_succ _)
    · exact (ih _).trans (Nat.le_succ _)
    · exact le_rfl

theorem fill_progress {tbSize : ℕ} (htb : 2 ≤ tbSize) (c : UInt8) (rest : List UInt8) :
    (fill tbSize 0 (c :: rest)).2.length ≤ rest.length := by
  rw [fill, if_pos (by omega)]
  split_ifs with hnl hf
  · omega
  · exact fill_length _ _ _
  · exact fill_length _ _ _

theorem completed_le (n : ℕ) (data : List UInt8) : completed n data ≤ data.length := by
  induction data generalizing n with
  | nil => exact le_rfl
  | cons c rest ih =>
    simp only [completed, length_cons]
    generalize (if c = 10 then 2 else 1) = width
    split
    · exact Nat.succ_le_succ (ih _)
    · exact Nat.zero_le _

/-- All of the first part, and `n` bytes of what follows. -/
theorem completed_append (data rest : List UInt8) (n : ℕ) :
    completed ((translate data).length + n) (data ++ rest) = data.length + completed n rest := by
  induction data with
  | nil => simp [translate]
  | cons c data ih =>
    simp only [translate_cons, length_append, cons_append, completed, length_cons]
    have hlen : (if c = 10 then [13, 10] else [c]).length = if c = 10 then 2 else 1 := by
      split_ifs <;> rfl
    rw [hlen, if_pos (by omega), show ∀ w l : ℕ, w + l + n - w = l + n by omega, ih]
    omega

/-- A part of the first part. -/
theorem completed_of_lt {data rest : List UInt8} {n : ℕ} (hn : n < (translate data).length) :
    completed n (data ++ rest) = completed n data := by
  induction data generalizing n with
  | nil => exact absurd hn (Nat.not_lt_zero n)
  | cons c data ih =>
    have hlen : (if c = 10 then [13, 10] else [c]).length = if c = 10 then 2 else 1 := by
      split_ifs <;> rfl
    rw [translate_cons, length_append, hlen] at hn
    simp only [cons_append, completed]
    generalize (if c = 10 then 2 else 1) = width at hn ⊢
    split
    · rw [ih (by omega)]
    · rfl

/-- The inner loop takes a piece of the source. -/
theorem fill_piece (tbSize n : ℕ) (data : List UInt8) :
    ∃ piece, data = piece ++ (fill tbSize n data).2 ∧
      (fill tbSize n data).1 = translate piece := by
  induction data generalizing n with
  | nil => exact ⟨[], rfl, rfl⟩
  | cons c rest ih =>
    rw [fill]
    split_ifs with hr hnl
    · exact ⟨[], rfl, rfl⟩
    · obtain ⟨piece, h1, h2⟩ := ih (n + 2)
      exact ⟨c :: piece, by simp [← h1], by simp [translate_cons, hnl, h2]⟩
    · obtain ⟨piece, h1, h2⟩ := ih (n + 1)
      exact ⟨c :: piece, by simp [← h1], by simp [translate_cons, hnl, h2]⟩
    · exact ⟨[], rfl, rfl⟩

/-- The pieces of the source that fill the transfer buffer one after the other. -/
def pieces (tbSize : ℕ) : ℕ → List UInt8 → List (List UInt8)
  | _, [] => []
  | 0, _ :: _ => []
  | fuel + 1, c :: rest =>
    let rest' := (fill tbSize 0 (c :: rest)).2
    (c :: rest).take ((c :: rest).length - rest'.length) :: pieces tbSize fuel rest'

/-- From the call `i` of DOS on, with `before` source bytes written: if a call is short, DOS takes
something, and behind the piece there are as many source bytes as it has taken bytes and source
bytes have been completed. -/
def Balanced (dos : ℕ → ℕ) : ℕ → ℕ → List (List UInt8) → Prop
  | _, _, [] => True
  | i, before, piece :: more =>
    if (translate piece).length ≤ dos i then Balanced dos (i + 1) (before + piece.length) more
    else 0 < dos i ∧ more.flatten.length = dos i + (before + completed (dos i) piece)

theorem writeInt_all {most n : ℕ} (h : n ≤ most) : writeInt most n = n := by
  unfold writeInt
  split_ifs <;> omega

theorem writeInt_zero {n : ℕ} (h : n ≠ 0) : writeInt 0 n = -1 := by
  simp [writeInt, h]

theorem writeInt_short {most n : ℕ} (h0 : most ≠ 0) (h : most < n) : writeInt most n = most := by
  unfold writeInt
  split_ifs <;> omega

theorem pieces_cons {tbSize fuel : ℕ} {c : UInt8} {rest piece rest' : List UInt8}
    (hr : (fill tbSize 0 (c :: rest)).2 = rest') (hp : c :: rest = piece ++ rest') :
    pieces tbSize (fuel + 1) (c :: rest) = piece :: pieces tbSize fuel rest' := by
  rw [pieces, hr]
  simp [hp]

theorem flatten_pieces {tbSize : ℕ} (htb : 2 ≤ tbSize) {fuel : ℕ} {data : List UInt8}
    (hf : data.length ≤ fuel) : (pieces tbSize fuel data).flatten = data := by
  induction fuel generalizing data with
  | zero => cases data with
    | nil => rfl
    | cons c rest => exact absurd hf (Nat.not_succ_le_zero _)
  | succ fuel ih => cases data with
    | nil => rfl
    | cons c rest =>
      obtain ⟨piece, h1, -⟩ := fill_piece tbSize 0 (c :: rest)
      have hp := fill_progress htb c rest
      rw [length_cons] at hf
      rw [pieces_cons rfl h1, flatten_cons, ih (by omega), ← h1]

theorem writeLoop_spec (dos : ℕ → ℕ) {tbSize : ℕ} (htb : 2 ≤ tbSize) (fuel i before : ℕ)
    (rest : List UInt8) (hf : rest.length ≤ fuel) :
    ∃ w, writeLoop dos tbSize (before + rest.length) fuel i rest = some w ∧
      w.taken <+: translate rest ∧
      (w.result = before + rest.length ↔ w.taken = translate rest) ∧
      (w.result = before + completed w.taken.length rest ↔
        Balanced dos i before (pieces tbSize fuel rest)) := by
  induction fuel generalizing i before rest with
  | zero =>
    cases rest with
    | nil => exact ⟨_, rfl, nil_prefix, iff_of_true rfl rfl, iff_of_true rfl trivial⟩
    | cons c rest => exact absurd hf (Nat.not_succ_le_zero _)
  | succ fuel ih =>
    cases rest with
    | nil => exact ⟨_, rfl, nil_prefix, iff_of_true rfl rfl, iff_of_true rfl trivial⟩
    | cons c rest =>
      obtain ⟨piece, h1, h2⟩ := fill_piece tbSize 0 (c :: rest)
      have hp := fill_progress htb c rest
      rw [pieces_cons rfl h1, Balanced, writeLoop, h2]
      rw [length_cons] at hf
      generalize (fill tbSize 0 (c :: rest)).2 = rest' at *
      have hlen : (c :: rest).length = piece.length + rest'.length := by rw [h1, length_append]
      have htr : translate (c :: rest) = translate piece ++ translate rest' := by
        rw [h1, translate, flatMap_append]
        rfl
      have hne : translate (c :: rest) ≠ [] := by
        rw [translate_cons]
        split_ifs <;> simp
      by_cases hs : (translate piece).length ≤ dos i
      · obtain ⟨w, hw, hpre, hall, hev⟩ := ih (i + 1) (before + piece.length) rest' (by omega)
        rw [hlen, ← Nat.add_assoc, writeInt_all hs, if_neg (by omega), if_neg (lt_irrefl _), hw,
          if_pos hs, htr]
        refine ⟨_, rfl, (prefix_append_right_inj _).mpr hpre, ?_, ?_⟩
        · push_cast at hall ⊢
          simp [← hall, add_assoc]
        · rw [← hev, h1, length_append, completed_append]
          push_cast
          simp [add_assoc]
      rw [if_neg hs, flatten_pieces htb (by omega)]
      by_cases h0 : dos i = 0
      · rw [h0, writeInt_zero (by omega), if_pos (by decide)]
        exact ⟨_, rfl, nil_prefix, iff_of_false (by dsimp only; omega) hne.symm,
          iff_of_false (by dsimp only; omega) (by simp)⟩
      · rw [writeInt_short h0 (by omega), if_neg (by omega), if_pos (by omega)]
        refine ⟨_, rfl, ?_, iff_of_false ?_ fun h => ?_, ?_⟩
        · have htake : (translate piece).take (dos i) <+: translate piece := take_prefix _ _
          exact htake.trans ⟨_, htr.symm⟩
        · dsimp only
          omega
        · have := congrArg List.length (h.trans htr)
          rw [length_take, length_append] at this
          omega
        · have hc : completed (dos i) (c :: rest) = completed (dos i) piece := by
            rw [h1, completed_of_lt (by omega)]
          simp only [Int.toNat_natCast, length_take]
          rw [min_eq_left (by omega), hc]
          omega

/-- **When `write` reports what it has written.**  DOS is given the translation of the source, in
order, as far as it takes it, and the result is the count if and only if DOS takes all.  The result
is the number of the source bytes that are written if and only if no call of DOS is short, or the
first that is happens to leave as many source bytes for later pieces as make up for the error. -/
theorem write_reports_iff (dos : ℕ → ℕ) (tbSize : ℕ) (htb : 2 ≤ tbSize) (data : List UInt8) :
    ∃ w, write dos tbSize data = some w ∧ w.taken <+: translate data ∧
      (w.result = data.length ↔ w.taken = translate data) ∧
      (w.result = completed w.taken.length data ∧ 0 ≤ w.result ∧ w.result ≤ data.length ↔
        Balanced dos 0 0 (pieces tbSize data.length data)) := by
  obtain ⟨w, hw, hpre, hall, hev⟩ := writeLoop_spec dos htb data.length 0 0 data le_rfl
  simp only [Nat.cast_zero, zero_add] at hw hall hev
  refine ⟨w, hw, hpre, hall, ?_⟩
  rw [← hev]
  have := completed_le w.taken.length data
  omega

theorem write_reports_two : 2 ≤ 2 ∧ ∃ w, write (fun _ => 2) 2 [97, 10, 98] = some w ∧
    w.taken <+: translate [97, 10, 98] ∧
    (w.result = [97, 10, 98].length ↔ w.taken = translate [97, 10, 98]) ∧
    (w.result = completed w.taken.length [97, 10, 98] ∧ 0 ≤ w.result ∧
      w.result ≤ [97, 10, 98].length ↔ Balanced (fun _ => 2) 0 0 (pieces 2 3 [97, 10, 98])) :=
  ⟨le_rfl, write_reports_iff (fun _ => 2) 2 le_rfl [97, 10, 98]⟩

/-- DOS takes three bytes of the translation of `ab\ncd`, which complete two source bytes; the
result is negative.  If it takes a whole buffer and then nothing, the result is `-1`, too. -/
theorem short_write_miscounted :
    write (fun _ => 3) 16 [97, 98, 10, 99, 100] = some ⟨-3, [97, 98, 13]⟩ ∧
      completed 3 [97, 98, 10, 99, 100] = 2 ∧
      write (fun i => if i = 0 then 2 else 0) 2 [97, 98, 99] = some ⟨-1, [97, 98]⟩ ∧
      completed 2 [97, 98, 99] = 2 := by
  decide

end TextWrite
