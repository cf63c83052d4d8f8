import Dj64.Stdio.Output

/-!
# What is written and what is pending

* `total`: what `_write` has accepted, followed by what is pending;
* `flsbuf_adds`, `putcRaw_adds`, `fwriteFull_adds`, `fwriteText_adds`: the functions do;
* `fwriteLine_adds`: the loop for line-buffered binary streams stops after the byte `255` if that
  fills the buffer.
-/

namespace Output

open Exec List Nat Out

variable {env : Env} {s t u : Out} {b : UInt8} {bs bs' data : Bytes} {fuel : ℕ} {arg : UInt8 → ℤ}
  {p : Out → Prop} {c : ℤ}

/-- What `_write` has accepted, followed by what is pending. -/
def Out.total (s : Out) : Bytes := s.accepted ++ s.pending

/-- What `_cnt` means in the three buffering modes. -/
structure Out.Valid (s : Out) : Prop where
  writing : s.readWrite = false → s.writing = true
  bare : s.hasBase = false → s.pending = [] ∧ s.cnt = 0 ∧ s.lineBuffered = false
  unbuffered : s.unbuffered = true → s.hasBase = false
  line : s.lineBuffered = true → s.cnt = -s.pending.length ∧ s.pending.length < s.bufsiz
  full : s.hasBase = true → s.lineBuffered = false →
    0 ≤ s.cnt ∧ s.cnt + s.pending.length ≤ s.bufsiz ∧ 0 < s.bufsiz ∧ (s.writing = false → s.cnt =
      0 ∧ s.pending = [])

/-- The stream `t` is valid, and it has the bytes `bs` more than `s`. -/
structure Adds (s t : Out) (bs : Bytes) : Prop where
  valid : t.Valid
  total : t.total = s.total ++ bs
  text : t.text = s.text
  readWrite : t.readWrite = s.readWrite

theorem Adds.trans (h : Adds s t bs) (h' : Adds t u bs') : Adds s u (bs ++ bs') where
  valid := h'.valid
  total := by rw [h'.total, h.total, append_assoc]
  text := h'.text.trans h.text
  readWrite := h'.readWrite.trans h.readWrite

/-! ### Writing -/

theorem writeLoop_eq (env : Env) (hf : data.length < fuel) (s : Out) :
    ∃ calls, s.writeLoop env fuel data = .ok
      { s with accepted := s.accepted ++ data, calls := calls } := by
  induction fuel generalizing data s with
  | zero => omega
  | succ fuel ih =>
    rw [writeLoop]
    by_cases hd : data = []
    · rw [hd, append_nil]
      exact ⟨s.calls, rfl⟩
    rw [if_pos hd]
    have hl := length_pos_of_ne_nil hd
    have hpos := env.device.pos s.calls data.length hl
    obtain ⟨n, hn⟩ : ∃ n, n = env.device.accepts s.calls data.length := ⟨_, rfl⟩
    rw [← hn] at hpos ⊢
    obtain ⟨calls, hlo⟩ := ih (show (data.drop n).length < fuel by rw [length_drop]; omega)
      { s with accepted := s.accepted ++ data.take n, calls := s.calls + 1 }
    refine ⟨calls, ?_⟩
    rw [hlo, append_assoc, take_append_drop]

theorem writeAll_eq (env : Env) (s : Out) (data : Bytes) :
    ∃ calls, s.writeAll env data = .ok { s with accepted := s.accepted ++ data, calls := calls } :=
  writeLoop_eq env (lt_succ_self data.length) s

/-! ### `_flsbuf` -/

theorem store_ok (hb : s.hasBase) (hlt : s.pending.length < s.bufsiz) :
    s.store b = .ok { s with pending := s.pending ++ [b] } := if_pos ⟨hb, hlt⟩

theorem Out.Valid.has_base (h : s.Valid) (hl : s.lineBuffered) : s.hasBase := by
  by_contra hno
  rw [Bool.not_eq_true] at hno
  rw [(h.bare hno).2.2] at hl
  cases hl

theorem Out.Valid.buffered (h : s.Valid) (hb : s.hasBase) : s.unbuffered = false := by
  by_contra hno
  rw [Bool.not_eq_false] at hno
  rw [h.unbuffered hno] at hb
  cases hb

/-- A stream that is being written, whatever `_cnt` is. -/
structure Out.Ready (s : Out) : Prop where
  writing : s.writing = true
  bare : s.hasBase = false → s.pending = [] ∧ s.lineBuffered = false
  unbuffered : s.unbuffered = true → s.hasBase = false
  room : s.hasBase = true → s.pending.length ≤ s.bufsiz ∧ 0 < s.bufsiz
  line : s.lineBuffered = true → s.pending.length < s.bufsiz

theorem Out.Valid.room (h : s.Valid) (hb : s.hasBase) :
    s.pending.length ≤ s.bufsiz ∧ 0 < s.bufsiz := by
  cases hl : s.lineBuffered with
  | true =>
    have := h.line hl
    omega
  | false =>
    have := h.full hb hl
    omega

theorem Out.Valid.ready (h : s.Valid) (k : ℤ) : ({ s with cnt := k } : Out).start.Ready := by
  cases hrw : s.readWrite with
  | true => exact ⟨rfl, fun hno => ⟨(h.bare hno).1, (h.bare hno).2.2⟩, h.unbuffered, h.room,
      fun hl => (h.line hl).2⟩
  | false =>
    exact ⟨h.writing hrw, fun hno => ⟨(h.bare hno).1, (h.bare hno).2.2⟩, h.unbuffered, h.room,
      fun hl => (h.line hl).2⟩

/-- With line buffering, a newline or the last place in the buffer empties it. -/
theorem emit_line (h : s.Ready) (hl : s.lineBuffered) :
    ∃ t, s.emit env c = .ok (c, t) ∧ Adds s t [byteOf c] ∧ t.lineBuffered ∧
      t.writing ∧ t.bufsiz = s.bufsiz ∧
      t.pending = if c = 10 ∨ s.pending.length + 1 ≥ s.bufsiz then []
        else s.pending ++ [byteOf c] := by
  have hlt := h.line hl
  have hb : s.hasBase := by
    by_contra hno
    rw [Bool.not_eq_true] at hno
    rw [(h.bare hno).2] at hl
    cases hl
  have hw : s.readWrite = false → s.writing := fun _ => h.writing
  unfold emit
  rw [if_pos hl, store_ok hb hlt]
  dsimp only [bind, Except.bind]
  rw [length_append, length_singleton]
  by_cases hf : c = 10 ∨ s.pending.length + 1 ≥ s.bufsiz
  · rw [if_pos hf, if_pos hf]
    obtain ⟨calls, hwr⟩ := writeAll_eq env { s with pending := [], cnt := 0 }
      (s.pending ++ [byteOf c])
    rw [hwr]
    refine ⟨_, rfl, ⟨⟨hw, ?_, h.unbuffered, ?_, ?_⟩, ?_, rfl, rfl⟩, hl, h.writing, rfl,
      rfl⟩
    · exact fun hno => ⟨rfl, rfl, (h.bare hno).2⟩
    · exact fun _ => ⟨rfl, (zero_le _).trans_lt hlt⟩
    · exact fun _ hno => absurd (hl.symm.trans hno) (by decide)
    · simp [total]
  rw [if_neg hf, if_neg hf]
  rw [not_or, not_le] at hf
  refine ⟨_, rfl, ⟨⟨hw, ?_, h.unbuffered, ?_, ?_⟩, ?_, rfl, rfl⟩, hl, h.writing, rfl,
    rfl⟩
  · exact fun hno => absurd (hb.symm.trans hno) (by decide)
  · intro _
    rw [length_append]
    exact ⟨rfl, hf.2⟩
  · exact fun _ hno => absurd (hl.symm.trans hno) (by decide)
  · simp [total]

theorem emit_unbuffered (h : s.Ready) (hun : s.unbuffered) :
    ∃ t, s.emit env c = .ok (c, t) ∧ Adds s t [byteOf c] := by
  obtain ⟨hp, hli⟩ := h.bare (h.unbuffered hun)
  unfold emit
  rw [if_neg (by rw [hli]; decide), if_pos hun]
  obtain ⟨calls, hw⟩ := writeAll_eq env { s with cnt := 0 } [byteOf c]
  rw [hw]
  refine ⟨_, rfl, ⟨⟨fun _ => h.writing, ?_, h.unbuffered, ?_, ?_⟩, ?_, rfl, rfl⟩⟩
  · exact fun _ => ⟨hp, rfl, hli⟩
  · exact fun hl => absurd (hli.symm.trans hl) (by decide)
  · exact fun hb => absurd (hb.symm.trans (h.unbuffered hun)) (by decide)
  · simp [total, hp]

/-- A full buffer is written, and the character is the first one of the next. -/
theorem emit_full (h : s.Ready) (hb : s.hasBase)
    (hli : s.lineBuffered = false) : ∃ t, s.emit env c = .ok (c, t) ∧ Adds s t [byteOf c] := by
  have hbu := (h.room hb).2
  have hun : s.unbuffered = false := by
    by_contra hno
    rw [Bool.not_eq_false] at hno
    exact absurd (hb.symm.trans (h.unbuffered hno)) (by decide)
  unfold emit
  rw [if_neg (by rw [hli]; decide), if_neg (by rw [hun]; decide)]
  obtain ⟨calls, hw⟩ := writeAll_eq env { s with pending := [], cnt := s.bufsiz } s.pending
  rw [hw]
  dsimp only [bind, Except.bind]
  rw [store, if_pos ⟨hb, hbu⟩]
  refine ⟨_, rfl, ⟨⟨fun _ => h.writing, ?_, h.unbuffered, ?_, ?_⟩, ?_, rfl, rfl⟩⟩
  · exact fun hno => absurd (hb.symm.trans hno) (by decide)
  · exact fun hl => absurd (hli.symm.trans hl) (by decide)
  · intro _ _
    dsimp only
    refine ⟨by omega, by simp, hbu, fun hno => ?_⟩
    exact absurd (h.writing.symm.trans hno) (by decide)
  · simp [total]

/-- A stream without a buffer gets one, or becomes unbuffered; nothing is added. -/
theorem allocate_ready (env : Env) (h : s.Ready) : (s.allocate env).Ready ∧
      ((s.allocate env).hasBase ∨ (s.allocate env).unbuffered) ∧
      (s.allocate env).total = s.total ∧ (s.allocate env).text = s.text ∧
      (s.allocate env).readWrite = s.readWrite ∧ (s.hasBase → s.allocate env = s) := by
  have htb := env.tbSize_pos
  unfold allocate
  by_cases hn : (!s.hasBase && !s.unbuffered)
  · rw [if_pos hn]
    rw [Bool.and_eq_true, Bool.not_eq_true', Bool.not_eq_true'] at hn
    obtain ⟨hb, hun⟩ := hn
    obtain ⟨hp, hl⟩ := h.bare hb
    have hno (h : s.hasBase) : False := by
      rw [hb] at h
      cases h
    by_cases hm : env.malloc env.tbSize
    · rw [if_pos hm]
      refine ⟨⟨h.writing, fun h => ?_, fun h => ?_, fun _ => ⟨zero_le _, htb⟩, fun _ => htb⟩,
        .inl rfl, ?_, rfl, rfl, fun h => (hno h).elim⟩
      · cases h
      · exact absurd (hun.symm.trans h) (by decide)
      · simp [total, hp]
    · rw [if_neg hm]
      exact ⟨⟨h.writing, fun _ => ⟨hp, rfl⟩, fun _ => hb, fun h => (hno h).elim,
        nofun⟩, .inr rfl, rfl, rfl, rfl, fun h => (hno h).elim⟩
  · rw [if_neg hn]
    grind

theorem Out.start_eq (s : Out) : s.start.total = s.total ∧ s.start.text = s.text ∧
    s.start.readWrite = s.readWrite ∧
    s.start.lineBuffered = s.lineBuffered ∧ s.start.bufsiz = s.bufsiz ∧ s.start.pending =
      s.pending := by
  unfold start
  split_ifs <;> exact ⟨rfl, rfl, rfl, rfl, rfl, rfl⟩

/-- What `_flsbuf` leaves of a line. -/
def lineAfter (s : Out) (c : ℤ) : Bytes :=
  if c = 10 ∨ s.pending.length + 1 ≥ s.bufsiz then [] else s.pending ++ [byteOf c]

/-- **`_flsbuf` adds its character** and returns it. -/
theorem flsbuf_adds (env : Env) (c : ℤ) (h : s.start.Ready) :
    ∃ t, s.flsbuf env c = .ok (c, t) ∧ Adds s t [byteOf c] ∧
      (s.lineBuffered → t.lineBuffered ∧ t.writing ∧ t.bufsiz = s.bufsiz ∧
        t.pending = lineAfter s c) := by
  obtain ⟨hto, hte, hrw, hli, hb, hp⟩ := s.start_eq
  obtain ⟨hr, hhas, ht', hte', hrw', hsa⟩ := allocate_ready env h
  have ha {t : Out} (ht : Adds (s.start.allocate env) t [byteOf c]) : Adds s t [byteOf c] :=
    ⟨ht.valid, by rw [ht.total, ht', hto], ht.text.trans (hte'.trans hte),
      ht.readWrite.trans (hrw'.trans hrw)⟩
  -- a line-buffered stream has its buffer
  have hk (hs : s.lineBuffered) : s.start.allocate env = s.start := by
    refine hsa (by_contra fun hno => ?_)
    rw [Bool.not_eq_true] at hno
    rw [← hli, (h.bare hno).2] at hs
    cases hs
  unfold flsbuf
  rw [h.writing]
  cases hl : (s.start.allocate env).lineBuffered with
  | true =>
    obtain ⟨t, he, ht, htl, htw, htb, htp⟩ := emit_line hr hl
    refine ⟨t, he, ha ht, fun hs => ⟨htl, htw, ?_, ?_⟩⟩
    · rw [htb, hk hs, hb]
    · rw [htp, hk hs, hb, hp]
      rfl
  | false =>
    have hnot (hs : s.lineBuffered) : False := by
      rw [hk hs, hli, hs] at hl
      cases hl
    by_cases hun : (s.start.allocate env).unbuffered
    · obtain ⟨t, he, ht⟩ := emit_unbuffered hr hun
      exact ⟨t, he, ha ht, fun hs => (hnot hs).elim⟩
    · obtain ⟨t, he, ht⟩ := emit_full hr (hhas.resolve_right hun) hl
      exact ⟨t, he, ha ht, fun hs => (hnot hs).elim⟩

/-! ### Single characters -/

theorem Out.Valid.of_cnt_pos (h : s.Valid) (hcnt : 0 < s.cnt) :
    s.lineBuffered = false ∧ s.hasBase ∧ s.cnt + s.pending.length ≤ s.bufsiz ∧ 0 < s.bufsiz ∧
      s.writing := by
  have hl : s.lineBuffered = false := by
    by_contra hno
    rw [Bool.not_eq_false] at hno
    have := h.line hno
    omega
  have hb : s.hasBase := by
    by_contra hno
    rw [Bool.not_eq_true] at hno
    have := h.bare hno
    omega
  obtain ⟨-, hr, hpos, hw⟩ := h.full hb hl
  refine ⟨hl, hb, hr, hpos, ?_⟩
  by_contra hno
  rw [Bool.not_eq_true] at hno
  have := hw hno
  omega

theorem Out.Valid.stored (h : s.Valid) (hcnt : 0 < s.cnt) (hd : (data.length : ℤ) ≤ s.cnt) :
    Adds s { s with pending := s.pending ++ data, cnt := s.cnt - data.length } data := by
  obtain ⟨hli, hb, hr, hpos, hw⟩ := h.of_cnt_pos hcnt
  refine ⟨⟨fun _ => hw, ?_, h.unbuffered, ?_, ?_⟩, ?_, rfl, rfl⟩
  · exact fun hno => absurd (hb.symm.trans hno) (by decide)
  · exact fun hl => absurd (hli.symm.trans hl) (by decide)
  · intro _ _
    dsimp only
    rw [length_append]
    refine ⟨by omega, by push_cast; omega, hpos, fun hno => ?_⟩
    exact absurd (hw.symm.trans hno) (by decide)
  · simp [total]

theorem store_adds (h : s.Valid) (hcnt : 0 < s.cnt) :
    ∃ t, ({ s with cnt := s.cnt - 1 } : Out).store b = .ok t ∧ Adds s t [b] := by
  obtain ⟨-, hb, hr, -, -⟩ := h.of_cnt_pos hcnt
  rw [store, if_pos ⟨hb, show s.pending.length < s.bufsiz by omega⟩]
  have hone : (([b] : Bytes).length : ℤ) ≤ s.cnt := by
    rw [length_singleton]
    omega
  exact ⟨_, rfl, h.stored hcnt hone⟩

theorem storeAll_adds (h : s.Valid) (hr : (data.length : ℤ) ≤ s.cnt ∨ data = []) :
    ∃ t, s.storeAll data = .ok t ∧ t.cnt = s.cnt ∧ Adds s
      { t with cnt := s.cnt - data.length } data := by
  unfold storeAll
  by_cases hd : data = []
  · rw [hd]
    refine ⟨s, rfl, rfl, ?_⟩
    rw [length_nil, cast_zero, Int.sub_zero]
    exact ⟨h, (append_nil _).symm, rfl, rfl⟩
  have hl := length_pos_of_ne_nil hd
  have hle := hr.resolve_right hd
  have hcnt : 0 < s.cnt := by omega
  obtain ⟨-, hb, hf, -, -⟩ := h.of_cnt_pos hcnt
  rw [if_neg hd, if_pos ⟨hb, by omega⟩]
  exact ⟨_, rfl, rfl, h.stored hcnt hle⟩

theorem byteOf_toNat : byteOf b.toNat = b := by
  have hlt := b.toNat_lt
  rw [byteOf, Int.emod_eq_of_lt (by omega) (by omega), Int.toNat_natCast, UInt8.ofNat_toNat]

theorem byteOf_signedChar (b : UInt8) : byteOf (signedChar b) = b := by
  unfold signedChar
  split_ifs
  · exact byteOf_toNat
  · rw [byteOf, Int.sub_emod_right]
    exact byteOf_toNat

theorem putcRaw_adds (env : Env) (h : s.Valid) (x : ℤ) :
    ∃ t, s.putcRaw env x = .ok t ∧ Adds s t [byteOf x] := by
  unfold putcRaw
  by_cases hcnt : s.cnt > 0
  · rw [if_pos hcnt]
    exact store_adds h hcnt
  · rw [if_neg hcnt]
    obtain ⟨t, hfls, ht, -⟩ := flsbuf_adds env (byteOf x).toNat (h.ready s.cnt)
    rw [byteOf_toNat] at ht
    rw [hfls]
    exact ⟨t, rfl, ht⟩

/-! ### The loops of `fwrite` -/

theorem byteOf_unsignedChar (b : UInt8) : byteOf (unsignedChar b) = b := byteOf_toNat

theorem unsignedChar_ne_eof (b : UInt8) : unsignedChar b ≠ -1 := by
  unfold unsignedChar
  omega

theorem put_full_adds (env : Env) (h : s.Valid) (b : UInt8) :
    ∃ c t, put env fullRoom unsignedChar b s = .ok (c, t) ∧ c ≠ -1 ∧ Adds s t [b] := by
  unfold put
  by_cases hr : fullRoom b { s with cnt := s.cnt - 1 }
  · rw [if_pos hr]
    have hcnt : 0 ≤ s.cnt - 1 := of_decide_eq_true hr
    obtain ⟨t, hs, ht⟩ := store_adds h (by omega)
    rw [hs]
    exact ⟨0, t, rfl, by decide, ht⟩
  · rw [if_neg hr]
    obtain ⟨t, hfls, ht, -⟩ := flsbuf_adds env (unsignedChar b) (h.ready (s.cnt - 1))
    rw [byteOf_unsignedChar] at ht
    exact ⟨_, t, hfls, unsignedChar_ne_eof b, ht.valid, ht.total, ht.text, ht.readWrite⟩

/-- A character in a loop for line-buffered streams: it is stored, or it empties the buffer. -/
theorem put_line_adds (env : Env) (h : s.Valid) (hl : s.lineBuffered)
    (harg : byteOf (arg b) = b) (hnl : arg 10 = 10) :
    ∃ c t, put env lineRoom arg b s = .ok (c, t) ∧ Adds s t [b] ∧ t.lineBuffered ∧
      t.bufsiz = s.bufsiz ∧
      ((s.pending.length + 1 < s.bufsiz ∧ b ≠ 10) ∧ c = 0 ∧ t.pending.length =
        s.pending.length + 1 ∧ t.writing = s.writing ∨
        ¬ (s.pending.length + 1 < s.bufsiz ∧ b ≠ 10) ∧ c = arg b ∧ t.pending.length = 0 ∧
          t.writing) := by
  obtain ⟨hcnt, hlt⟩ := h.line hl
  have hba := h.has_base hl
  have hr : lineRoom b { s with cnt := s.cnt - 1 } ↔
      s.pending.length + 1 < s.bufsiz ∧ b ≠ 10 := by
    unfold lineRoom
    rw [decide_eq_true_iff]
    dsimp only
    refine and_congr_left fun _ => ?_
    omega
  unfold put
  by_cases hd : s.pending.length + 1 < s.bufsiz ∧ b ≠ 10
  · rw [if_pos (hr.mpr hd), store, if_pos ⟨hba, hlt⟩]
    refine ⟨0, _, rfl, ⟨⟨h.writing, ?_, h.unbuffered, ?_, ?_⟩, ?_, rfl, rfl⟩, hl, rfl,
      .inl ⟨hd, rfl, ?_, rfl⟩⟩
    · exact fun hno => absurd (hba.symm.trans hno) (by decide)
    · intro _
      rw [length_append, length_singleton]
      exact ⟨by push_cast; omega, hd.1⟩
    · exact fun _ hno => absurd (hl.symm.trans hno) (by decide)
    · simp [total]
    · rw [length_append, length_singleton]
  rw [if_neg fun h => hd (hr.mp h)]
  obtain ⟨t, hfls, ht, ha⟩ := flsbuf_adds env (arg b) (h.ready (s.cnt - 1))
  obtain ⟨htl, htw, htb, htp⟩ := ha hl
  rw [harg] at ht
  refine ⟨_, t, hfls, ⟨ht.valid, ht.total, ht.text, ht.readWrite⟩, htl, htb,
    .inr ⟨hd, rfl, ?_, htw⟩⟩
  have hf : arg b = 10 ∨ s.pending.length + 1 ≥ s.bufsiz := by
    by_contra hno
    rw [not_or, not_le] at hno
    exact hd ⟨hno.2, fun hb => hno.1 (by rw [hb, hnl])⟩
  rw [htp, lineAfter, if_pos hf, length_nil]

def encodedChar (b : UInt8) : Bytes := if b = 10 then [13, b] else [b]

theorem putText_adds {room : UInt8 → Out → Bool}
    (hput : ∀ b s, s.Valid → p s → ∃ c t, put env room arg b s = .ok (c, t) ∧ c ≠ -1 ∧
      Adds s t [b] ∧ p t)
    (h : s.Valid) (hs : p s) (b : UInt8) :
    ∃ c t, putText env room arg b s = .ok (c, t) ∧ c ≠ -1 ∧ Adds s t (encodedChar b) ∧ p t := by
  unfold putText encodedChar
  by_cases hb : b = 10
  · rw [if_pos hb, if_pos hb]
    obtain ⟨c, t, hcr, hc, ht, hpt⟩ := hput 13 s h hs
    obtain ⟨d, u, hnl, hd, hu, hpu⟩ := hput b t ht.valid hpt
    rw [hcr]
    dsimp only [bind, Except.bind]
    rw [if_neg hc]
    exact ⟨d, u, hnl, hd, ht.trans hu, hpu⟩
  · rw [if_neg hb, if_neg hb]
    exact hput b s h hs

theorem fwriteLoop_adds {put : UInt8 → Out → Except Fault (ℤ × Out)} {code : UInt8 → Bytes}
    (hput : ∀ b s, s.Valid → p s → ∃ c t, put b s = .ok (c, t) ∧ c ≠ -1 ∧
      Adds s t (code b) ∧ p t)
    (data : Bytes) (h : s.Valid) (hs : p s) :
    ∃ t, fwriteLoop put data s = .ok (t, 0) ∧ Adds s t (data.flatMap code) ∧ p t := by
  induction data generalizing s with
  | nil => exact ⟨s, rfl, ⟨h, (append_nil _).symm, rfl, rfl⟩, hs⟩
  | cons b data ih =>
    obtain ⟨c, t, hb, hc, ht, hpt⟩ := hput b s h hs
    obtain ⟨u, hl, hu, hpu⟩ := ih ht.valid hpt
    refine ⟨u, ?_, ht.trans hu, hpu⟩
    rw [fwriteLoop, hb]
    dsimp only [bind, Except.bind]
    rw [if_neg hc, hl]

theorem fwriteTextLine_adds (env : Env) (data : Bytes) (h : s.Valid) (hl : s.lineBuffered) :
    ∃ t, s.fwriteTextLine env data = .ok (t, 0) ∧ Adds s t (data.flatMap encodedChar) ∧
      t.lineBuffered := by
  refine fwriteLoop_adds (p := fun s => s.lineBuffered) (fun b s h hl =>
    putText_adds ?_ h hl b) data h hl
  intro b s h hl
  obtain ⟨c, t, hput, ht, htl, -, hc⟩ := put_line_adds (b := b) env h hl (byteOf_unsignedChar b) rfl
  refine ⟨c, t, hput, ?_, ht, htl⟩
  rcases hc with ⟨-, hc, -, -⟩ | ⟨-, hc, -, -⟩
  · rw [hc]
    decide
  · rw [hc]
    exact unsignedChar_ne_eof b

theorem fwriteText_adds (env : Env) (data : Bytes) (h : s.Valid) :
    ∃ t, s.fwriteText env data = .ok (t, 0) ∧ Adds s t (data.flatMap encodedChar) := by
  have hput (b : UInt8) (s : Out) (h : s.Valid) (_ : True) :
      ∃ c t, put env fullRoom unsignedChar b s = .ok (c, t) ∧ c ≠ -1 ∧ Adds s t [b] ∧ True := by
    obtain ⟨c, t, hput, hc, ht⟩ := put_full_adds env h b
    exact ⟨c, t, hput, hc, ht, trivial⟩
  obtain ⟨t, hl, ht, -⟩ := fwriteLoop_adds (p := fun _ => True)
    (fun b s h _ => putText_adds hput h trivial b) data h trivial
  exact ⟨t, hl, ht⟩

/-- The place in the data of a line-buffered binary stream at which `fwrite` stops: the byte `255`
takes the last place in the buffer, and there is more.  `fill` is the number of pending bytes. -/
def cut (bufsiz : ℕ) : ℕ → Bytes → Bool
  | _, [] => false
  | fill, b :: data =>
    if fill + 1 < bufsiz ∧ b ≠ 10 then cut bufsiz (fill + 1) data
    else if b = 255 then data ≠ [] else cut bufsiz 0 data

theorem signedChar_eq_eof_iff : signedChar b = -1 ↔ b = 255 := by
  unfold signedChar
  rw [← UInt8.toNat_inj]
  change _ ↔ b.toNat = 255
  by_cases hb : b.toNat < 128
  · constructor <;> intro h <;> omega
  · constructor <;> intro h <;> omega

/-- **`fwrite` takes a byte for `EOF`.**  The loop for line-buffered binary streams adds all of the
data unless it is cut. -/
theorem fwriteLine_adds (env : Env) (data : Bytes) (h : s.Valid) (hli : s.lineBuffered) :
    ∃ t left done, s.fwriteLine env data = .ok (t, left) ∧ Adds s t done ∧ done <+: data ∧
      t.lineBuffered ∧ (done = data ↔ cut s.bufsiz s.pending.length data = false) := by
  unfold fwriteLine
  induction data generalizing s with
  | nil =>
    exact ⟨s, 0, [], rfl, ⟨h, (append_nil _).symm, rfl, rfl⟩, prefix_rfl, hli, iff_of_true rfl rfl⟩
  | cons b data ih =>
    obtain ⟨c, t, hput, ht, htl, htb, hc⟩ :=
      put_line_adds (b := b) env h hli (byteOf_signedChar b) rfl
    obtain ⟨u, left, done, hlo, hu, hpre, hul, hdo⟩ := ih ht.valid htl
    have hp' : b :: done <+: b :: data := cons_prefix_cons.mpr ⟨rfl, hpre⟩
    rw [fwriteLoop, hput, cut]
    dsimp only [bind, Except.bind]
    rw [htb] at hdo
    rcases hc with ⟨hd, hc, hl, -⟩ | ⟨hd, hc, hl, -⟩
    · rw [hc, if_pos hd, ← hl, hlo]
      refine ⟨u, left, b :: done, rfl, ht.trans hu, hp', hul, ?_⟩
      rw [cons.injEq, and_iff_right rfl, hdo]
    rw [hc, if_neg hd]
    by_cases hb : b = 255
    · rw [if_pos (signedChar_eq_eof_iff.mpr hb), if_pos hb]
      refine ⟨t, data.length + 1, [b], rfl, ht, ⟨data, rfl⟩, htl, ?_⟩
      rw [cons.injEq, and_iff_right rfl, decide_eq_false_iff_not, not_not]
      exact eq_comm
    · rw [if_neg (fun h => hb (signedChar_eq_eof_iff.mp h)), if_neg hb, hlo]
      refine ⟨u, left, b :: done, rfl, ht.trans hu, hp', hul, ?_⟩
      rw [cons.injEq, and_iff_right rfl, hdo, hl]

/-- The loop for other binary streams adds all of the data. -/
theorem fwriteFull_adds (env : Env) (h : s.Valid) (hfu : data.length < fuel) :
    ∃ t, fwriteFull env fuel data s = .ok (t, 0) ∧ Adds s t data := by
  induction fuel generalizing s data with
  | zero => omega
  | succ fuel ih =>
    rw [fwriteFull]
    by_cases hd : data = []
    · rw [hd]
      exact ⟨s, rfl, h, (append_nil _).symm, rfl, rfl⟩
    rw [if_neg hd]
    by_cases hfew : s.cnt < data.length
    · rw [if_pos hfew]
      obtain ⟨n, hn⟩ : ∃ n, n = s.cnt.toNat := ⟨_, rfl⟩
      have hle := length_pos_of_ne_nil hd
      have hro : ((data.take n).length : ℤ) ≤ s.cnt ∨ data.take n = [] := by
        by_cases hpos : 0 < s.cnt
        · rw [length_take]
          omega
        · rw [show n = 0 by omega]
          exact .inr rfl
      obtain ⟨t, hst, hcnt, ht⟩ := storeAll_adds h hro
      have hs : data = data.take n ++ data.drop n := (take_append_drop n data).symm
      rw [← hn, hst]
      dsimp only [bind, Except.bind]
      cases hdr : data.drop n with
      | nil =>
        have hnil := congrArg length hdr
        rw [length_drop, length_nil] at hnil
        omega
      | cons b rest =>
        rw [hdr] at hs
        have hr := congrArg length hs
        rw [length_append, length_cons] at hr
        obtain ⟨u, hfls, hu, -⟩ := flsbuf_adds env (unsignedChar b) (ht.valid.ready t.cnt)
        rw [byteOf_unsignedChar] at hu
        have hsu : Adds s u (data.take n ++ [b]) :=
          ht.trans ⟨hu.valid, hu.total, hu.text, hu.readWrite⟩
        dsimp only
        rw [hfls]
        dsimp only
        have hall : data = data.take n ++ [b] ++ rest := by
          rw [append_assoc]
          exact hs
        by_cases hf : u.cnt ≥ rest.length
        · rw [if_pos hf]
          obtain ⟨v, hs', hc', hv⟩ := storeAll_adds hu.valid (.inl hf)
          rw [hs']
          dsimp only
          rw [hc']
          refine ⟨_, rfl, ?_⟩
          rw [hall]
          exact hsu.trans hv
        · rw [if_neg hf]
          obtain ⟨v, hl, hv⟩ := ih hu.valid (show rest.length < fuel by omega)
          refine ⟨v, hl, ?_⟩
          rw [hall]
          exact hsu.trans hv
    · rw [if_neg hfew]
      obtain ⟨t, hst, hcnt, ht⟩ := storeAll_adds h (.inl (not_lt.mp hfew))
      rw [hst]
      dsimp only [bind, Except.bind]
      rw [hcnt]
      exact ⟨_, rfl, ht⟩

end Output
