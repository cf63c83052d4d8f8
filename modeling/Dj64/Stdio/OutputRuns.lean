import Dj64.Stdio.OutputInvariant

/-!
# Runs of output calls

* `Kept`: the calls that neither lose nor change a byte;
* `step_total`: what a call does to what is written and pending;
* `output_kept_iff`: runs.
-/

namespace Output

open Exec Runs Nat Bool Out

variable {env : Env} {s t : Out} {data bs bs' : Bytes}

/-! ### `fflush` -/

/-- What is pending is written, if the stream is known to be written. -/
theorem flushPending_total (env : Env) (h : s.Valid) :
    ∃ t, s.flushPending env = .ok t ∧ t.Valid ∧ t.total = s.total ∧ t.text = s.text ∧
      t.readWrite = s.readWrite ∧ t.lineBuffered = s.lineBuffered ∧
      (s.writing → t.pending = []) ∧ (s.writing = false → t = s) := by
  unfold flushPending
  by_cases hf : (!s.unbuffered && s.writing && s.hasBase && decide (s.pending ≠ []))
  · rw [if_pos hf]
    simp only [and_eq_true, not_eq_true'] at hf
    obtain ⟨⟨⟨-, hw⟩, hb⟩, -⟩ := hf
    obtain ⟨calls, hwr⟩ := writeAll_eq env { s with pending := [], cnt := if s.lineBuffered then
      0 else s.bufsiz }
      s.pending
    rw [hwr]
    refine ⟨_, rfl, ⟨fun _ => hw, ?_, h.unbuffered, ?_, ?_⟩, ?_, rfl, rfl, rfl,
      fun _ => rfl, fun hno => ?_⟩
    · exact fun hno => absurd (hb.symm.trans hno) (by decide)
    · intro hl
      rw [if_pos hl]
      exact ⟨rfl, (zero_le _).trans_lt (h.line hl).2⟩
    · intro _ hl
      rw [if_neg (by rw [hl]; decide)]
      refine ⟨Int.natCast_nonneg _, by simp, (h.room hb).2, fun hno => ?_⟩
      exact absurd (hw.symm.trans hno) (by decide)
    · simp [total]
    · exact absurd (hw.symm.trans hno) (by decide)
  · rw [if_neg hf]
    refine ⟨s, rfl, h, rfl, rfl, rfl, rfl, fun hw => ?_, fun _ => rfl⟩
    -- nothing was pending
    by_contra hp
    have hb : s.hasBase := by
      by_contra hno
      rw [not_eq_true] at hno
      exact hp (h.bare hno).1
    apply hf
    rw [h.buffered hb, hw, hb, decide_eq_true hp]
    rfl

theorem Out.Valid.restart (h : s.Valid) (hrw : s.readWrite) :
    ({ s with cnt := 0, writing := false, pending := [] } : Out).Valid where
  writing hno := absurd (hrw.symm.trans hno) (by decide)
  bare hno := ⟨rfl, rfl, (h.bare hno).2.2⟩
  unbuffered := h.unbuffered
  line hl := ⟨rfl, (zero_le _).trans_lt (h.line hl).2⟩
  full hb _ := ⟨le_rfl, by simp, (h.room hb).2, fun _ => ⟨rfl, rfl⟩⟩

/-- **`fflush` loses what is pending** in a stream for reading and writing that is not known to be
written. -/
theorem fflush_total (h : s.Valid) :
    ∃ t, s.fflush env = .ok t ∧ t.Valid ∧ t.text = s.text ∧
      (t.total = s.total ↔ (s.readWrite → s.writing = false → s.pending = [])) := by
  obtain ⟨t, hf, ht, hto, hte, hrw, -, hd, hsa⟩ := flushPending_total env h
  unfold fflush
  rw [hf]
  refine ⟨_, rfl, ?_⟩
  cases hs : s.readWrite with
  | false =>
    rw [if_neg (by rw [hrw, hs]; decide)]
    exact ⟨ht, hte, iff_of_true hto nofun⟩
  | true =>
    rw [if_pos (hrw.trans hs)]
    refine ⟨ht.restart (hrw.trans hs), hte, ?_⟩
    cases hw : s.writing with
    | true =>
      refine iff_of_true ?_ fun _ h => by cases h
      rw [← hto, total, total, hd hw]
    | false =>
      rw [hsa hw]
      simp [total]

/-! ### Calls -/

def encoded (text : Bool) (data : Bytes) : Bytes := if text then data.flatMap encodedChar else data

/-- The bytes that a call puts, as they are to be written. -/
def Op.bytes (text : Bool) : Op → Bytes
  | .putc x => encoded text [byteOf x]
  | .fwrite data => encoded text data
  | .fflush => []

/-- The calls that neither lose nor change a byte: `putc` in text mode, if the argument is the
newline whenever its byte is; `fwrite` on a line-buffered binary stream, if no byte `255` with more
to come takes the last place in the buffer; `fflush` on a stream for reading and writing, if nothing
is pending or `_flsbuf` has marked the stream as written since it was opened or flushed. -/
def Kept (s : Out) : Op → Prop
  | .putc x => s.text = true → byteOf x = 10 → x = 10
  | .fwrite data => s.text = false → s.lineBuffered = true →
      cut s.bufsiz s.pending.length data = false
  | .fflush => s.readWrite = true → s.writing = false → s.pending = []

theorem append_total_iff (h : Adds s t bs) : t.total = s.total ++ bs' ↔ bs = bs' := by
  rw [h.total, List.append_cancel_left_eq]

theorem putc_total (h : s.Valid) {x : ℤ} :
    ∃ t, s.putc env x = .ok t ∧ t.Valid ∧ t.text = s.text ∧
      (t.total = s.total ++ encoded s.text [byteOf x] ↔ Kept s (.putc x)) := by
  unfold putc
  by_cases hnl : x = 10 ∧ s.text
  · rw [if_pos hnl]
    obtain ⟨t, hcr, ht⟩ := putcRaw_adds env h 13
    obtain ⟨u, hput, hu⟩ := putcRaw_adds env ht.valid x
    rw [hcr]
    refine ⟨u, hput, hu.valid, (ht.trans hu).text, ?_⟩
    rw [append_total_iff (ht.trans hu), hnl.1, hnl.2]
    exact iff_of_true rfl fun _ _ => rfl
  rw [if_neg hnl]
  obtain ⟨t, hput, ht⟩ := putcRaw_adds env h x
  refine ⟨t, hput, ht.valid, ht.text, ?_⟩
  rw [append_total_iff ht, Kept, encoded]
  cases hte : s.text with
  | false => simp
  | true =>
    have hx : x ≠ 10 := fun hx => hnl ⟨hx, hte⟩
    by_cases hb : byteOf x = 10
    · simp [encodedChar, hx]
    · simp [encodedChar, hb]

theorem fwrite_total (h : s.Valid) :
    ∃ t left, s.fwrite env data = .ok (t, left) ∧ t.Valid ∧ t.text = s.text ∧
      (t.total = s.total ++ encoded s.text data ↔ Kept s (.fwrite data)) := by
  unfold fwrite
  cases hte : s.text with
  | false =>
    cases hli : s.lineBuffered with
    | false =>
      obtain ⟨t, hlo, ht⟩ := fwriteFull_adds env h (lt_succ_self data.length)
      refine ⟨t, 0, hlo, ht.valid, ht.text.trans hte, ?_⟩
      rw [append_total_iff ht]
      exact iff_of_true rfl fun _ hl => absurd (hli.symm.trans hl) (by decide)
    | true =>
      obtain ⟨t, left, done, hlo, ht, -, -, hd⟩ := fwriteLine_adds env data h hli
      refine ⟨t, left, hlo, ht.valid, ht.text.trans hte, ?_⟩
      rw [append_total_iff ht]
      exact ⟨fun h _ _ => hd.mp h, fun h => hd.mpr (h hte hli)⟩
  | true =>
    have hnot (hno : s.text = false) : False := by
      rw [hte] at hno
      cases hno
    cases hli : s.lineBuffered with
    | false =>
      obtain ⟨t, hlo, ht⟩ := fwriteText_adds env data h
      refine ⟨t, 0, hlo, ht.valid, ht.text.trans hte, ?_⟩
      rw [append_total_iff ht]
      exact iff_of_true rfl fun hno => (hnot hno).elim
    | true =>
      obtain ⟨t, hlo, ht, -⟩ := fwriteTextLine_adds env data h hli
      refine ⟨t, 0, hlo, ht.valid, ht.text.trans hte, ?_⟩
      rw [append_total_iff ht]
      exact iff_of_true rfl fun hno => (hnot hno).elim

theorem step_total (env : Env) (h : s.Valid) (o : Op) :
    ∃ t, step env s o = .ok t ∧ t.Valid ∧ t.text = s.text ∧ (t.total = s.total ++ o.bytes s.text ↔
      Kept s o) := by
  cases o with
  | putc x => exact putc_total h
  | fwrite data =>
    obtain ⟨t, left, hl, ht⟩ := fwrite_total h
    refine ⟨t, ?_, ht⟩
    rw [step, hl]
    rfl
  | fflush =>
    obtain ⟨t, hf, ht, hte, hto⟩ := fflush_total h
    refine ⟨t, hf, ht, hte, ?_⟩
    rw [Op.bytes, List.append_nil]
    exact hto

/-! ### Runs -/

/-- A stream that can be written and on which nothing was done: without a buffer, as `fopen` leaves
it, unbuffered, or with a buffer of `setvbuf`, line-buffered or not. -/
structure Out.Opened (s : Out) : Prop where
  accepted : s.accepted = []
  pending : s.pending = []
  cnt : s.cnt = 0
  writing : s.readWrite = false → s.writing = true
  bare : s.hasBase = false → s.lineBuffered = false
  unbuffered : s.unbuffered = true → s.hasBase = false
  bufsiz : s.hasBase = true → 0 < s.bufsiz

theorem Out.Opened.valid (h : s.Opened) : s.Valid where
  writing := h.writing
  bare hno := ⟨h.pending, h.cnt, h.bare hno⟩
  unbuffered := h.unbuffered
  line hl := by
    have hb : s.hasBase := by
      by_contra hno
      rw [not_eq_true] at hno
      exact absurd ((h.bare hno).symm.trans hl) (by decide)
    rw [h.pending, h.cnt]
    exact ⟨rfl, h.bufsiz hb⟩
  full hb _ := by
    rw [h.pending, h.cnt]
    exact ⟨le_rfl, by simp, h.bufsiz hb, fun _ => ⟨rfl, rfl⟩⟩

/-- **Buffered output keeps all bytes, in order, if and only if every call does.**  Whatever
`_write` accepts at a time, no store goes outside of the buffer, and after every call the bytes that
were accepted and those that are pending are the bytes that were put, with a carriage return before
each newline in text mode, if and only if all calls up to there are of those that lose and change
nothing. -/
theorem output_kept_iff (env : Env) (s : Out) (hs : s.Opened) (os : List Op) :
    (∃ t, run (step env) s os = .ok t) ∧
    ((∀ os', os' <+: os → ∀ t, run (step env) s os' = .ok t →
        t.accepted ++ t.pending = os'.flatMap (Op.bytes s.text)) ↔
          Admits (step env) Kept s os) := by
  have hst (t : Out) (o : Op) (ht : t.Valid ∧ t.text = s.text) (_ : True) :
      ∃ u, step env t o = .ok u ∧ u.Valid ∧ u.text = s.text := by
    obtain ⟨u, hu, huv, hte, -⟩ := step_total env ht.1 o
    exact ⟨u, hu, huv, hte.trans ht.2⟩
  have hall : Admits (step env) (fun _ _ => True) s os := admits_of_forall (fun _ _ _ => trivial) s
  have hv : (fun t : Out => t.Valid ∧ t.text = s.text) s := ⟨hs.valid, rfl⟩
  constructor
  · obtain ⟨t, hrun, -⟩ := run_invariant hst hv hall
    exact ⟨t, hrun⟩
  have hto : s.total = [] := by rw [total, hs.accepted, hs.pending, List.append_nil]
  have hsum : (∀ os', os' <+: os → ∀ t, run (step env) s os' = .ok t →
      t.total = s.total ++ os'.flatMap (Op.bytes s.text)) ↔ _ := accumulates_iff total
        (Op.bytes s.text)
  simp only [hto] at hsum
  have hiff (t : Out) (o : Op) (ht : t.Valid ∧ t.text = s.text) (_ : True) :
      (∀ u, step env t o = .ok u → u.total = t.total ++ o.bytes s.text) ↔ Kept t o := by
    obtain ⟨u, hu, -, -, hiff⟩ := step_total env ht.1 o
    rw [ht.2] at hiff
    refine Iff.trans ⟨fun h => h u hu, fun h u' hu' => ?_⟩ hiff
    rw [hu] at hu'
    cases hu'
    exact h
  refine hsum.trans (admits_iff hiff (fun t o u ht _ _ hu => ?_) hv hall)
  obtain ⟨u', hu', huv⟩ := hst t o ht trivial
  rw [hu'] at hu
  cases hu
  exact huv

def slowDevice :
    Device := ⟨fun _ n => min 1 n, fun _ n h => by omega, fun _ n => min_le_right 1 n⟩

def slowEnv : Env := ⟨slowDevice, 16384, fun _ => true, false, Nat.two_pow_pos 14⟩

def lineStream : Out := ⟨[], 0, [], 0, 2, true, true, false, false, true, false⟩

theorem lineStream_opened : lineStream.Opened :=
  ⟨rfl, rfl, rfl, fun _ => rfl, (nofun), (nofun), fun _ => by decide⟩

theorem output_kept_iff_line : lineStream.Opened ∧
      (∃ t, run (step slowEnv) lineStream [.fwrite [65, 66, 67], .putc 10, .fflush] = .ok t) ∧
    ((∀ os', os' <+: [.fwrite [65, 66, 67], .putc 10, .fflush] → ∀ t,
      run (step slowEnv) lineStream os' = .ok t →
        t.accepted ++ t.pending = os'.flatMap (Op.bytes lineStream.text)) ↔
      Admits (step slowEnv) Kept lineStream [.fwrite [65, 66, 67], .putc 10, .fflush]) :=
  ⟨lineStream_opened, output_kept_iff slowEnv lineStream lineStream_opened [.fwrite [65, 66, 67],
    .putc 10, .fflush]⟩

/-- The byte `255` takes the last place in the buffer, and the byte after it is neither written nor
pending. -/
theorem byte_after_255_lost : succeeds (run (step slowEnv) lineStream [.fwrite [65, 255, 66]])
      (fun t => t.accepted = [65, 255] ∧ t.pending = []) = true ∧
    [Op.fwrite [65, 255, 66]].flatMap (Op.bytes lineStream.text) = [65, 255, 66] := by
  decide +kernel

end Output
