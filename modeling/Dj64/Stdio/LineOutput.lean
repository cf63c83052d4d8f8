import Dj64.Stdio.OutputRuns

/-!
# How full a line is

With line buffering, `_cnt` is minus the number of pending bytes.  `ftell` sets a negative `_cnt` to
zero, after which `fwrite` does not see the end of the buffer; and it does not count what is pending
in a stream for reading and writing that `_flsbuf` has not marked as written.
-/

namespace Output

open Exec Runs List Out

/-- `ftell`, on a stream whose handle was at `initial`: the result and the stream. -/
def Out.ftell (initial : ℤ) (s : Out) : ℤ × Out :=
  let s := { s with cnt := if s.cnt < 0 then 0 else s.cnt }
  if !s.writing && !s.readWrite then (-1, s)
  else (initial + s.accepted.length +
    if s.writing && s.hasBase && !s.unbuffered then s.pending.length else 0, s)

/-- A stream and the number of bytes that were put. -/
structure Session where
  out : Out
  put : ℕ

/-- A call. -/
inductive LineCall
  | output (o : Op)
  | ftell

/-- A call on the stream. -/
def Session.step (env : Env) (initial : ℤ) (s : Session) : LineCall → Except Fault Session
  | .output o => do
    let out ← Output.step env s.out o
    .ok ⟨out, s.put + (o.bytes false).length⟩
  | .ftell => .ok ⟨(s.out.ftell initial).2, s.put⟩

/-- `_cnt` is minus the number of pending bytes, and `ftell` would return the position behind the
bytes that were put. -/
structure Session.Right (initial : ℤ) (s : Session) : Prop where
  cnt : s.out.cnt = -s.out.pending.length
  ftell : s.out.text = false → (s.out.ftell initial).1 = initial + s.put

/-- `ftell` with nothing pending; `fwrite` on a binary stream if it is not cut short by a byte `255`
and, when the stream is not yet marked as written, if it puts nothing or flushes. -/
def Steady (s : Session) : LineCall → Prop
  | .ftell => s.out.pending = []
  | .output (.fwrite data) => s.out.text = false →
      cut s.out.bufsiz s.out.pending.length data = false ∧
        (s.out.writing = false → data = [] ∨ 10 ∈ data ∨ s.out.bufsiz ≤ data.length)
  | .output _ => True

/-- What the steady calls keep. -/
structure Session.Inv (s : Session) : Prop where
  valid : s.out.Valid
  line : s.out.lineBuffered = true
  put : s.out.text = false → s.put = s.out.total.length
  idle : s.out.text = false → s.out.writing = false → s.out.pending = []

variable {env : Env} {initial : ℤ} {s : Session} {o t : Out} {data : Bytes}

theorem ftell_eq (h : o.Valid) (hl : o.lineBuffered) : (o.ftell initial).1 =
      initial + o.accepted.length + if o.writing then o.pending.length else 0 := by
  have hb := h.has_base hl
  unfold ftell
  rw [hb, h.buffered hb]
  cases hw : o.writing with
  | true => rfl
  | false =>
    cases hrw : o.readWrite with
    | true => rfl
    | false => exact absurd (hw.symm.trans (h.writing hrw)) (by decide)

theorem Session.Inv.right (h : s.Inv) (initial : ℤ) : s.Right initial := by
  refine ⟨(h.valid.line h.line).1, fun ht => ?_⟩
  rw [ftell_eq h.valid h.line, h.put ht, total, length_append]
  cases hw : s.out.writing with
  | true =>
    rw [if_pos rfl]
    push_cast
    ring
  | false => simp [h.idle ht hw]

/-! ### The calls -/

/-- The loop for line-buffered binary streams marks the stream as written if it flushes, and stores
its data otherwise. -/
theorem fwriteLine_marks (h : o.Valid) (hl : o.lineBuffered = true) :
    ∃ t left, o.fwriteLine env data = .ok (t, left) ∧
      if 10 ∈ data ∨ o.bufsiz ≤ o.pending.length + data.length then t.writing = true
      else t.writing = o.writing ∧ t.pending.length = o.pending.length + data.length := by
  unfold fwriteLine
  induction data generalizing o with
  | nil =>
    have := (h.line hl).2
    refine ⟨o, 0, rfl, ?_⟩
    rw [if_neg (by simp; omega)]
    exact ⟨rfl, rfl⟩
  | cons b data ih =>
    obtain ⟨c, t, hput, ht, htl, htb, hc⟩ :=
      put_line_adds (b := b) env h hl (byteOf_signedChar b) rfl
    obtain ⟨u, left, hlo, hu⟩ := ih ht.valid htl
    rw [fwriteLoop, hput]
    dsimp only [bind, Except.bind]
    rcases hc with ⟨hd, hc, hle, hw⟩ | ⟨hd, hc, -, hw⟩
    · rw [hc, hlo]
      have hlen : o.pending.length + (b :: data).length = t.pending.length + data.length := by
        rw [length_cons]
        omega
      have hmem : 10 ∈ b :: data ↔ 10 ∈ data := by rw [mem_cons, or_iff_right hd.2.symm]
      refine ⟨u, left, rfl, ?_⟩
      simp only [hlen, hmem]
      rwa [hw, htb] at hu
    have hf : 10 ∈ b :: data ∨ o.bufsiz ≤ o.pending.length + (b :: data).length := by
      rw [mem_cons, length_cons]
      by_cases hb : b = 10
      · exact .inl (.inl hb.symm)
      · have : ¬ o.pending.length + 1 < o.bufsiz := fun hlt => hd ⟨hlt, hb⟩
        exact .inr (by omega)
    split_ifs
    · exact ⟨t, _, rfl, hw⟩
    · refine ⟨u, left, hlo, ?_⟩
      split_ifs at hu
      · exact hu
      · exact hu.1.trans hw

/-- The calls leave a line-buffered stream. -/
theorem step_line (h : o.Valid) (hl : o.lineBuffered) {x : Op}
    (hs : step env o x = .ok t) : t.lineBuffered ∧ (∀ c, x = .putc c → t.writing) ∧
      (x = .fflush → t.writing = false → t.pending = []) := by
  have hraw (u : Out) (hu : u.Valid) (hul : u.lineBuffered) (c : ℤ) : ∃ v,
      u.putcRaw env c = .ok v ∧ v.Valid ∧ v.lineBuffered ∧ v.writing := by
    have := (hu.line hul).1
    obtain ⟨v, hfls, hv, ha⟩ := flsbuf_adds env (byteOf c).toNat (hu.ready u.cnt)
    refine ⟨v, ?_, hv.valid, (ha hul).1, (ha hul).2.1⟩
    rw [putcRaw, if_neg (by omega), hfls]
    rfl
  cases x with
  | putc c =>
    have hput : ∃ v, o.putc env c = .ok v ∧ v.lineBuffered ∧ v.writing := by
      obtain ⟨v, hv, hvv, hvl, hvw⟩ := hraw o h hl 13
      obtain ⟨v', hv', -, hvl', hvw'⟩ := hraw v hvv hvl c
      obtain ⟨u, hu, -, hul, huw⟩ := hraw o h hl c
      unfold putc
      split_ifs
      · rw [hv]
        exact ⟨v', hv', hvl', hvw'⟩
      · exact ⟨u, hu, hul, huw⟩
    obtain ⟨v, hv, hvl, hvw⟩ := hput
    cases hs.symm.trans hv
    exact ⟨hvl, fun _ _ => hvw, nofun⟩
  | fwrite data =>
    obtain ⟨⟨v, left⟩, hv, hvt⟩ := bind_eq_ok hs
    cases hvt
    refine ⟨?_, nofun, nofun⟩
    rw [fwrite, hl] at hv
    cases ht : o.text with
    | false =>
      obtain ⟨u, left, done, hu, -, -, hul, -⟩ := fwriteLine_adds env data h hl
      rw [ht] at hv
      cases hu.symm.trans hv
      exact hul
    | true =>
      obtain ⟨u, hu, -, hul⟩ := fwriteTextLine_adds env data h hl
      rw [ht] at hv
      cases hu.symm.trans hv
      exact hul
  | fflush =>
    obtain ⟨u, hu, hut⟩ := bind_eq_ok hs
    obtain ⟨u', hu', hv, -, -, -, hul, -⟩ := flushPending_total env h
    cases hu.symm.trans hu'
    cases hut
    split_ifs with hrw'
    · exact ⟨hul.trans hl, nofun, fun _ _ => rfl⟩
    · refine ⟨hul.trans hl, nofun, fun _ hw => ?_⟩
      rw [Bool.not_eq_true] at hrw'
      exact absurd (hw.symm.trans (hv.writing hrw')) (by decide)

/-- `fwrite` on a binary stream. -/
theorem fwrite_right_iff (h : s.Inv) (ht : s.out.text = false)
    (hs : step env s.out (.fwrite data) = .ok t) :
    Steady s (.output (.fwrite data)) ↔
      t.accepted.length + (if t.writing then t.pending.length else 0) = s.put + data.length := by
  obtain ⟨⟨v, left⟩, hv, hvt⟩ := bind_eq_ok hs
  cases hvt
  rw [fwrite, ht, h.line] at hv
  obtain ⟨u, left, done, hu, ha, hpre, -, hcut⟩ := fwriteLine_adds env data h.valid h.line
  cases hu.symm.trans hv
  obtain ⟨u, left, hu, hm⟩ := fwriteLine_marks h.valid h.line
  cases hu.symm.trans hv
  have hto := congrArg List.length ha.total
  rw [length_append, ← h.put ht, total, length_append] at hto
  have hle := hpre.length_le
  have hd : done = data ↔ done.length = data.length :=
    ⟨fun h => by rw [h], fun h => hpre.eq_of_length h⟩
  simp only [Steady, ht, forall_const, ← hcut, hd]
  have hid := h.idle ht
  cases hw : s.out.writing with
  | true =>
    have htw : t.writing = true := by
      split_ifs at hm
      · exact hm
      · exact hm.1.trans hw
    simp only [htw, if_true, Bool.true_eq_false, false_implies, and_true]
    omega
  | false =>
    rw [hid hw, hw, length_nil, Nat.zero_add] at hm
    split_ifs at hm with hf
    · simp only [hm, hf, or_true, implies_true, and_true, if_true]
      omega
    · obtain ⟨htw, htp⟩ := hm
      simp only [htw, hf, or_false, forall_const, ← length_eq_zero_iff,
        Bool.false_eq_true, if_false]
      omega

/-- The steady calls are those after which `_cnt` and `ftell` are right. -/
theorem steady_iff (h : s.Inv) {c : LineCall} :
    ∃ s', s.step env initial c = .ok s' ∧ (Steady s c → s'.Inv) ∧
      (s'.Right initial → Steady s c) := by
  cases c with
  | ftell =>
    have hcnt := (h.valid.line h.line).1
    have hout : (s.out.ftell initial).2 =
        { s.out with cnt := if s.out.cnt < 0 then 0 else s.out.cnt } := by
      unfold ftell
      dsimp only
      split_ifs <;> rfl
    refine ⟨_, rfl, fun hn => ?_, fun hr => ?_⟩
    · have hsa : (s.out.ftell initial).2 = s.out := by rw [hout, if_neg (by rw [hcnt, hn]; decide)]
      rw [hsa]
      exact h
    · have := hr.cnt
      rw [hout] at this
      dsimp only at this
      exact length_eq_zero_iff.1 (by split_ifs at this <;> omega)
  | output x =>
    obtain ⟨t, hs, hv, hte, hto⟩ := step_total env h.valid x
    obtain ⟨hl, hp, hf⟩ := step_line h.valid h.line hs
    have hc : s.step env initial (.output x) = .ok ⟨t, s.put + (x.bytes false).length⟩ := by
      rw [Session.step, hs]
      rfl
    refine ⟨_, hc, ?_⟩
    have hinv (hadd : s.out.text = false → t.accepted.length +
        (if t.writing then t.pending.length else 0) = s.put + (x.bytes false).length ∧
        (t.writing = false → t.pending = [])) :
        Session.Inv ⟨t, s.put + (x.bytes false).length⟩ := by
      refine ⟨hv, hl, fun ht => ?_, fun ht => (hadd (hte.symm.trans ht)).2⟩
      obtain ⟨hsum, hid⟩ := hadd (hte.symm.trans ht)
      rw [← hsum, total, length_append]
      split_ifs with hw
      · rfl
      · rw [hid (by simpa using hw)]
        rfl
    have hke (hk : Kept s.out x) (ht : s.out.text = false) :
        t.total.length = s.put + (x.bytes false).length := by
      rw [hto.2 hk, ht, length_append, h.put ht]
    cases x with
    | putc c =>
      refine ⟨fun _ => hinv fun ht => ?_, fun _ => trivial⟩
      rw [hp c rfl, ← hke (fun h => absurd (ht.symm.trans h) (by decide)) ht, total, length_append]
      exact ⟨rfl, by rintro ⟨⟩⟩
    | fflush =>
      refine ⟨fun _ => hinv fun ht => ?_, fun _ => trivial⟩
      rw [← hke (fun _ => h.idle ht) ht, total, length_append]
      refine ⟨?_, hf rfl⟩
      cases hw : t.writing with
      | true => rfl
      | false => simp [hf rfl hw]
    | fwrite data =>
      refine ⟨fun hst => hinv fun ht => ?_, fun hr => ?_⟩
      · have hsum := (fwrite_right_iff h ht hs).1 hst
        have hlen := hke (fun ht' _ => (hst ht').1) ht
        rw [total, length_append] at hlen
        refine ⟨hsum, fun hw => length_eq_zero_iff.1 ?_⟩
        rw [hw] at hsum
        have : (Op.fwrite data).bytes false = data := rfl
        rw [this] at hlen
        simp at hsum
        omega
      by_cases ht : s.out.text = false
      · refine (fwrite_right_iff h ht hs).2 ?_
        have := hr.ftell (hte.trans ht)
        rw [ftell_eq hv hl] at this
        have hb : (Op.fwrite data).bytes false = data := rfl
        rw [hb] at this
        push_cast at this
        split_ifs at this ⊢ <;> omega
      · exact fun ht' => absurd ht' ht

/-- **A line-buffered stream knows how full it is if and only if the calls are steady.**  After
every part of a run, nothing was stored past the buffer, `_cnt` is minus the number of pending
bytes and `ftell` returns the position behind all bytes that were put, in binary mode. -/
theorem line_counted_iff (env : Env) (initial : ℤ) (o : Out) (hvalid : o.Valid)
    (hline : o.lineBuffered = true) (hidle : o.writing = false → o.pending = [])
    (cs : List LineCall) :
    (∀ cs', cs' <+: cs → ∃ s, run (Session.step env initial) ⟨o, o.total.length⟩ cs' = .ok s ∧
      s.Right initial) ↔ Admits (Session.step env initial) Steady ⟨o, o.total.length⟩ cs := by
  refine always_iff Session.Inv (fun s h => h.right initial) (fun s c h hc => ?_)
    (fun s c s' h hs hr => ?_) ⟨hvalid, hline, fun _ => rfl, fun _ => hidle⟩
  · obtain ⟨s', hs, hinv, -⟩ := steady_iff h
    exact ⟨s', hs, hinv hc⟩
  · obtain ⟨t, ht, -, hri⟩ := steady_iff h
    cases ht.symm.trans hs
    exact hri hr

theorem line_counted_stream : (∀ cs', cs' <+: [.output (.putc 65), .output .fflush, .ftell] →
      ∃ s, run (Session.step slowEnv 5) ⟨lineStream, 0⟩ cs' = .ok s ∧ s.Right 5) ↔
      Admits (Session.step slowEnv 5) Steady ⟨lineStream, 0⟩
        [.output (.putc 65), .output .fflush, .ftell] :=
  line_counted_iff slowEnv 5 lineStream lineStream_opened.valid rfl (fun _ => rfl)
    [.output (.putc 65), .output .fflush, .ftell]

/-- In a buffer of two bytes: after `ftell` with one byte pending, the second byte of an `fwrite` is
stored past the buffer. -/
theorem ftell_overruns : run (Session.step slowEnv 0) ⟨lineStream, 0⟩
      [.output (.putc 65), .ftell, .output (.fwrite [66, 67])] = .error .outOfBounds := by
  rfl

end Output
