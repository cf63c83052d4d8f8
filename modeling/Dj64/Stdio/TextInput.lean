import Dj64.Stdio.Input
import Mathlib.Data.List.TakeWhile

/-!
# Text files

What a stream in text mode has still to deliver is what is in its buffer and the file from its
position to the first `Ctrl-Z`.
-/

namespace Stdio

open Exec List Nat Stdio.Stream

variable {env : Env} {content l : Bytes} {s t u : Stream}

/-! ### `_read` -/

theorem lowReadLoop_eq {fuel pos count : ℕ} (hfu : count < fuel) :
    lowReadLoop env content fuel pos count = some ((content.drop pos).take count) := by
  induction fuel generalizing pos count with
  | zero => omega
  | succ fuel ih =>
    have htb := env.tbSize_pos
    rw [lowReadLoop]
    by_cases hle : count ≤ env.tbSize
    · rw [if_pos hle, if_neg fun h => h.1 (Nat.sub_self count), dosRead]
    rw [if_neg hle]
    by_cases hf : env.tbSize = (dosRead content pos env.tbSize).length
    · rw [if_pos ⟨by omega, hf⟩, ih (by omega), ← hf]
      dsimp only [bind, Option.bind]
      rw [dosRead, ← drop_drop, ← take_add, add_sub_of_le (by omega)]
    · rw [if_neg fun h => hf h.2]
      have hs : (content.drop pos).length ≤ env.tbSize := by
        rw [dosRead, length_take] at hf
        omega
      rw [dosRead, take_of_length_le hs, take_of_length_le (by omega)]

theorem lowRead_eq (pos count : ℕ) : lowRead env content pos count = some
    ((content.drop pos).take count) :=
  lowReadLoop_eq (lt_succ_self count)

/-! ### The text of a file -/

/-- A file up to the first `Ctrl-Z`. -/
def textPart (l : Bytes) : Bytes := l.takeWhile (· ≠ ctrlZ)

theorem textPart_eq_append (n : ℕ) (l : Bytes) :
    textPart l = textPart (l.take n) ++ textPart (l.drop (textPart (l.take n)).length) := by
  induction l generalizing n with
  | nil => simp [textPart]
  | cons c l ih =>
    cases n with
    | zero => simp [textPart]
    | succ n =>
      unfold textPart at ih ⊢
      by_cases hc : c = ctrlZ
      · simp [hc]
      · simp only [take_succ_cons, takeWhile_cons, hc, ne_eq, not_false_eq_true,
          decide_true, if_true, length_cons, drop_succ_cons, cons_append]
        rw [← ih n]

theorem textPart_eq_nil {n : ℕ} (hn : 0 < n) (h : textPart (l.take n) = []) : textPart l = [] := by
  cases l with
  | nil => rfl
  | cons c l =>
    obtain ⟨n, rfl⟩ := exists_eq_succ_of_ne_zero hn.ne'
    unfold textPart at h ⊢
    by_cases hc : c = ctrlZ
    · simp [hc]
    · simp [hc] at h

theorem length_textPart_le (l : Bytes) : (textPart l).length ≤ l.length :=
  IsPrefix.length_le <| takeWhile_prefix _

theorem idxOf?_ctrlZ (got : Bytes) :
    got.idxOf? ctrlZ = if (textPart got).length < got.length then some (textPart got).length
      else none := by
  induction got with
  | nil => rfl
  | cons c got ih =>
    unfold textPart at ih ⊢
    rw [List.idxOf?_cons, takeWhile_cons]
    by_cases hc : c = ctrlZ
    · simp [hc]
    · simp only [beq_iff_eq, hc, if_false, ih, ne_eq, not_false_eq_true, decide_true, if_true,
        length_cons, add_lt_add_iff_right]
      split_ifs <;> rfl

theorem truncate_text (pos : ℕ) (got : Bytes) :
    truncate true pos got = (textPart got, pos + (textPart got).length) := by
  have ha : textPart got <+: got := takeWhile_prefix ..
  have hle : (textPart got).length ≤ got.length := ha.length_le
  unfold truncate
  rw [idxOf?_ctrlZ]
  by_cases hlt : (textPart got).length < got.length
  · rw [if_pos hlt]
    dsimp only
    rw [← prefix_iff_eq_take.mp ha]
    congr 1
    omega
  · rw [if_neg hlt]
    have hall : textPart got = got := ha.eq_of_length (by omega)
    rw [hall]

/-! ### What is still to come -/

def Stream.coming (content : Bytes) (s : Stream) : Bytes := s.buf ++ textPart (content.drop s.pos)

/-- A stream in text mode that reads at least one byte at a time, and at whose end nothing is left.
-/
structure Stream.Ready (content : Bytes) (s : Stream) : Prop where
  text : s.text = true
  buffer : s.hasBase = true → s.unbuffered = false → 0 < s.bufsiz ∧ 0 < s.fillsize
  eof : s.eof = true → s.coming content = []

/-- Two streams that differ in nothing but the variables for the size of the buffer. -/
structure Stream.Alike (s t : Stream) : Prop where
  text : t.text = s.text
  pos : t.pos = s.pos
  buf : t.buf = s.buf
  eof : t.eof = s.eof

theorem Stream.Alike.trans (h : s.Alike t) (h' : t.Alike u) : s.Alike u :=
  ⟨h'.text.trans h.text, h'.pos.trans h.pos, h'.buf.trans h.buf, h'.eof.trans h.eof⟩

theorem Stream.Alike.coming (h : s.Alike t) : t.coming content = s.coming content := by
  rw [Stream.coming, h.buf, h.pos, Stream.coming]

theorem Stream.Ready.alike (h : s.Ready content) (hst : s.Alike t)
    (hb : t.hasBase → t.unbuffered = false → 0 < t.bufsiz ∧ 0 < t.fillsize) :
    t.Ready content where
  text := hst.text.trans h.text
  buffer := hb
  eof heof := by
    rw [hst.coming]
    exact h.eof (hst.eof.symm.trans heof)

theorem Stream.allocate_alike (env : Env) (s : Stream) : s.Alike (s.allocate env) := by
  unfold allocate
  split_ifs <;> exact ⟨rfl, rfl, rfl, rfl⟩

theorem Stream.allocate_ready (env : Env) (h : s.Ready content) : (s.allocate env).Ready content ∧
      ((s.allocate env).hasBase ∨ (s.allocate env).unbuffered) := by
  have htb := env.tbSize_pos
  have hb := h.buffer
  have ha := allocate_alike env s
  constructor
  · refine h.alike ha ?_
    unfold allocate
    split_ifs
    · exact fun _ _ => ⟨htb, succ_pos 511⟩
    · exact fun _ hun => absurd hun (by decide)
    · exact hb
  unfold allocate
  split_ifs with hn hm
  · exact .inl rfl
  · exact .inr rfl
  · grind

theorem Stream.limit_ready (h : s.Ready content) : s.limit.Ready content := by
  refine h.alike ⟨rfl, rfl, rfl, rfl⟩ fun hb hun => ?_
  have := h.buffer hb hun
  unfold limit
  dsimp only
  split_ifs <;> omega

theorem Stream.size_pos (h : s.Ready content) (hhas : s.hasBase ∨ s.unbuffered) : 0 < s.size := by
  unfold size
  cases hun : s.unbuffered with
  | true =>
    exact one_pos
  | false =>
    have hb : s.hasBase := by
      rcases hhas with hb | hun'
      · exact hb
      · exact absurd (hun.symm.trans hun') (by decide)
    have := h.buffer hb hun
    split_ifs <;> omega

/-- `_filbuf` delivers the first character that is still to come. -/
theorem Stream.filbuf_ready (env : Env) (h : s.Ready content) (hbuf : s.buf = []) :
    ∃ s', s.filbuf env content = some ((s.coming content).head?, s') ∧ s'.Ready content ∧
      s'.coming content = (s.coming content).tail ∧ (s.coming content = [] → s'.eof) := by
  unfold filbuf
  cases heof : s.eof with
  | true =>
    rw [h.eof heof]
    exact ⟨s, rfl, h, h.eof heof, fun _ => heof⟩
  | false =>
    obtain ⟨t, ht⟩ : ∃ t, t = (s.allocate env).limit := ⟨_, rfl⟩
    have ha : s.Alike t := ht ▸ (allocate_alike env s).trans ⟨rfl, rfl, rfl, rfl⟩
    obtain ⟨hr', hhas⟩ := allocate_ready env h
    have hr : t.Ready content := ht ▸ limit_ready hr'
    have hsi : 0 < t.size := size_pos hr (by rw [ht]; exact hhas)
    have hc : s.coming content = textPart (content.drop t.pos) := by
      rw [coming, hbuf, nil_append, ha.pos]
    have hs := textPart_eq_append t.size (content.drop t.pos)
    rw [hc]
    dsimp only
    rw [← ht, lowRead_eq]
    dsimp only [bind, Option.bind]
    rw [hr.text, truncate_text]
    have hb : (t.hasBase && !t.unbuffered) → t.unbuffered = false →
        0 < t.bufsiz ∧ 0 < (if t.fillsize < t.bufsiz then t.fillsize * 2 else t.fillsize) := by
      intro hba hun
      rw [Bool.and_eq_true] at hba
      have := hr.buffer hba.1 hun
      split_ifs <;> omega
    cases hk : textPart ((content.drop t.pos).take t.size) with
    | nil =>
      have hn : textPart (content.drop t.pos) = [] := textPart_eq_nil hsi hk
      rw [hn]
      refine ⟨_, rfl, ⟨rfl, hb, fun _ => ?_⟩, ?_, fun _ => rfl⟩
      · exact hn
      · exact hn
    | cons c rest =>
      rw [hk, drop_drop] at hs
      rw [hs]
      refine ⟨_, rfl, ⟨rfl, hb, fun he' => ?_⟩, rfl, fun h => ?_⟩
      · rw [ha.eof, heof] at he'
        cases he'
      · cases h

theorem Stream.getcRaw_ready (env : Env) (h : s.Ready content) :
    ∃ s', s.getcRaw env content = some ((s.coming content).head?, s') ∧ s'.Ready content ∧
      s'.coming content = (s.coming content).tail ∧ (s.coming content = [] → s'.eof) := by
  unfold getcRaw
  cases hbuf : s.buf with
  | nil => exact filbuf_ready env h hbuf
  | cons c rest =>
    have hc : s.coming content = c :: (rest ++ textPart (content.drop s.pos)) := by
      rw [coming, hbuf, cons_append]
    rw [hc]
    refine ⟨{ s with buf := rest }, rfl, ⟨h.text, h.buffer, fun heof => ?_⟩, rfl, fun h => ?_⟩
    · have := h.eof heof
      rw [hc] at this
      cases this
    · cases h

end Stdio
