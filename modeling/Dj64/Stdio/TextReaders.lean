import Dj64.Stdio.TextInput

/-!
# The readers of text files

`fread` and `read` remove every carriage return.  `__getc` removes one only and delivers what
follows it, be it another carriage return.
-/

namespace Stdio

open Exec Collect List Nat Option Stdio.Stream

variable {env : Env} {content out buf l l' : Bytes} {s t u : Stream} {c : UInt8}
  {fuel size count pos n bytes : ℕ}

/-! ### Texts -/

def plain (l : Bytes) : Bytes := l.filter (· ≠ cr)

/-- What `__getc` makes of a text. -/
def squeezed : Bytes → Bytes
  | [] => []
  | [c] => if c = cr then [] else [c]
  | c :: d :: l => if c = cr then d :: squeezed l else c :: squeezed (d :: l)

theorem squeezed_cr : squeezed (cr :: l) = l.head?.toList ++ squeezed l.tail := by
  cases l <;> simp [squeezed]

theorem squeezed_cons (hc : c ≠ cr) : squeezed (c :: l) = c :: squeezed l := by
  cases l <;> simp [squeezed, hc]

theorem plain_nil : plain [] = [] := rfl

theorem plain_cr (l : Bytes) : plain (cr :: l) = plain l := by simp [plain]

theorem plain_cons (hc : c ≠ cr) (l : Bytes) : plain (c :: l) = c :: plain l := by
  simp [plain, hc]

theorem plain_append : plain (l ++ l') = plain l ++ plain l' := filter_append ..

theorem cr_notMem_plain (l : Bytes) : cr ∉ plain l := by simp [plain]

theorem cr_cr_infix_cons (c : UInt8) (l : Bytes) :
    [cr, cr] <:+: c :: l ↔ (c = cr ∧ l.head? = some cr) ∨ [cr, cr] <:+: l := by
  rw [infix_cons_iff]
  cases l with
  | nil => simp
  | cons d l => simp [eq_comm]

/-- **`__getc` removes what is to be removed** if there are no two carriage returns in a row. -/
theorem squeezed_eq_plain_iff (l : Bytes) : squeezed l = plain l ↔ ¬ [cr, cr] <:+: l := by
  fun_induction squeezed l with
  | case1 => simp [plain]
  | case2 => simp [plain, cr_cr_infix_cons]
  | case3 c hc => simp [plain, hc, cr_cr_infix_cons]
  | case4 d l ih =>
    rw [plain_cr, cr_cr_infix_cons, cr_cr_infix_cons d]
    by_cases hd : d = cr
    · refine iff_of_false (fun h => cr_notMem_plain (d :: l) ?_) (fun h =>
        h (.inl ⟨rfl, by rw [hd]; rfl⟩))
      rw [← h, hd]
      exact .head _
    · rw [plain_cons hd, cons.injEq, ih]
      simp [hd]
  | case5 c d l hc ih =>
    rw [plain_cons hc, cons.injEq, ih, cr_cr_infix_cons c]
    simp [hc]

/-! ### `getc` and `fgets` -/

/-- A character, as `__getc` delivers it. -/
theorem Stream.getc_delivers (h : s.Ready content) :
    ∃ c s', s.getc env content = some (c, s') ∧ s'.Ready content ∧
      squeezed (s.coming content) = c.toList ++ squeezed (s'.coming content) := by
  obtain ⟨t, hget, ht, hco, -⟩ := getcRaw_ready env h
  unfold getc
  rw [hget]
  dsimp only [bind, Option.bind]
  cases hc : s.coming content with
  | nil =>
    rw [hc] at hco
    exact ⟨none, t, rfl, ht, by rw [hco]; rfl⟩
  | cons c l =>
    rw [hc] at hco
    by_cases hcr : c = cr
    · rw [if_pos ⟨congrArg some hcr, ht.text⟩, hcr, squeezed_cr]
      obtain ⟨u, hg', hu, hc', -⟩ := getcRaw_ready env ht
      refine ⟨_, u, hg', hu, ?_⟩
      rw [hc', hco]
      rfl
    · rw [if_neg fun h => hcr (Option.some.inj h.1), squeezed_cons hcr]
      exact ⟨some c, t, rfl, ht, by rw [hco]; rfl⟩

/-- The characters of a line. -/
theorem Stream.fgetsLoop_delivers (h : s.Ready content) :
    ∃ cs eof s', s.fgetsLoop env content n = some (cs, eof, s') ∧ s'.Ready content ∧
      squeezed (s.coming content) = cs ++ squeezed (s'.coming content) := by
  induction n generalizing s with
  | zero => exact ⟨[], false, s, rfl, h, rfl⟩
  | succ n ih =>
    obtain ⟨c, t, hget, ht, hd⟩ := getc_delivers h
    rw [fgetsLoop, hget]
    dsimp only [bind, Option.bind]
    cases c with
    | none => exact ⟨[], true, t, rfl, ht, hd⟩
    | some c =>
      dsimp only
      by_cases hnl : c = 10
      · rw [if_pos hnl]
        exact ⟨[c], false, t, rfl, ht, hd⟩
      rw [if_neg hnl]
      obtain ⟨cs, eof, u, hl, hu, hd'⟩ := ih ht
      rw [hl]
      refine ⟨c :: cs, eof, u, rfl, hu, ?_⟩
      rw [hd, hd']
      rfl

/-- A call that reads characters one by one. -/
inductive Getter
  | getc
  | fgets (n : ℤ)
  deriving DecidableEq

/-- A call of `getc` or `fgets`, with the bytes that it delivers. -/
def Stream.getStep (env : Env) (content : Bytes) (s : Stream) : Getter → Option (Bytes × Stream)
  | .getc => do
    let (c, s) ← s.getc env content
    some (c.toList, s)
  | .fgets n => do
    let (line, s) ← s.fgets env content n
    some (line.getD [], s)

theorem Stream.getStep_delivers (env : Env) (o : Getter) (h : s.Ready content) :
    ∃ out s', s.getStep env content o = some (out, s') ∧ s'.Ready content ∧
      squeezed (s.coming content) = out ++ squeezed (s'.coming content) := by
  cases o with
  | getc =>
    obtain ⟨c, t, hget, ht, hd⟩ := getc_delivers h
    rw [getStep, hget]
    exact ⟨c.toList, t, rfl, ht, hd⟩
  | fgets n =>
    obtain ⟨cs, eof, t, hl, ht, hd⟩ := fgetsLoop_delivers h
    rw [getStep, fgets, hl]
    dsimp only [bind, Option.bind]
    by_cases hn : eof ∧ cs = []
    · rw [if_pos hn]
      refine ⟨[], t, rfl, ht, ?_⟩
      rw [hd, hn.2]
    · rw [if_neg hn]
      exact ⟨cs, t, rfl, ht, hd⟩

theorem Stream.gets_deliver (env : Env) (getters : List Getter) (h : s.Ready content) :
    ∃ out s', collect (getStep env content) s getters = some (out, s') ∧ s'.Ready content ∧
      squeezed (s.coming content) = out ++ squeezed (s'.coming content) :=
  collect_delivers (fun _ o _ => getStep_delivers env o) h

/-! ### `fread` -/

theorem drain_eq (left : ℤ) (buf : Bytes) :
    drain left buf = (plain buf, left - (plain buf).length) := by
  induction buf generalizing left with
  | nil => simp [drain, plain]
  | cons c buf ih =>
    by_cases hc : c = cr
    · rw [drain, if_neg (not_not_intro hc), ih, hc, plain_cr]
    · rw [drain, if_pos hc, ih, plain_cons hc, length_cons, cast_succ, sub_sub, add_comm 1]

theorem copy_delivers (left : ℤ) (buf : Bytes) :
    ∃ out left' buf', copy left buf = (out, left', buf') ∧ plain buf = out ++ plain buf' ∧
      buf'.length ≤ buf.length ∧ (0 < left → buf ≠ [] → buf'.length < buf.length) := by
  induction buf generalizing left with
  | nil => exact ⟨[], left, [], rfl, rfl, le_rfl, fun _ h => absurd rfl h⟩
  | cons c buf ih =>
    rw [copy, length_cons]
    by_cases hl : left > 0
    · rw [if_pos hl]
      by_cases hc : c = cr
      · obtain ⟨out, left', buf', hco, hp, hle, -⟩ := ih left
        rw [hco, hc]
        exact ⟨out, left', buf', rfl, hp, by omega, fun _ _ => by omega⟩
      · obtain ⟨out, left', buf', hco, hp, hle, -⟩ := ih (left - 1)
        rw [if_pos hc, hco, plain_cons hc, hp]
        exact ⟨c :: out, left', buf', rfl, rfl, by omega, fun _ _ => by omega⟩
    · rw [if_neg hl]
      exact ⟨[], left, c :: buf, rfl, rfl, le_rfl, fun h => absurd h hl⟩

theorem Stream.Ready.taken (h : s.Ready content)
    (hp : plain s.buf = out ++ plain buf) (hle : buf.length ≤ s.buf.length) :
    ({ s with buf := buf } : Stream).Ready content ∧
      plain (s.coming content) = out ++ plain (({ s with buf := buf } : Stream).coming content) ∧
      (({ s with buf := buf } : Stream).coming content).length + s.buf.length =
        (s.coming content).length + buf.length := by
  refine ⟨⟨h.text, h.buffer, fun heof => ?_⟩, ?_, ?_⟩
  · obtain ⟨hbuf, ht⟩ := append_eq_nil_iff.mp (h.eof heof)
    rw [hbuf, length_nil, le_zero, length_eq_zero_iff] at hle
    rw [coming, hle, ht, append_nil]
  · rw [coming, plain_append, hp, coming, plain_append, append_assoc]
  · simp only [coming, length_append]
    omega

theorem first_delivers (c : UInt8) (l : Bytes) (left : ℤ) :
    ∃ out left', (if c ≠ cr then ([c], left - 1) else ([], left)) = (out, left') ∧
      plain (c :: l) = out ++ plain l := by
  by_cases hc : c = cr
  · rw [hc]
    exact ⟨[], left, rfl, rfl⟩
  · rw [if_pos hc, plain_cons hc]
    exact ⟨[c], left - 1, rfl, rfl⟩

/-- The loop of `fread` delivers the front of what is still to come. -/
theorem Stream.freadText_delivers (env : Env) (left : ℤ) (h : s.Ready content)
    (hfu : (s.coming content).length + 1 < fuel) :
    ∃ out left' s', s.freadText env content fuel left = some (out, left', s') ∧ s'.Ready content ∧
      plain (s.coming content) = out ++ plain (s'.coming content) := by
  induction fuel generalizing s left with
  | zero => omega
  | succ fuel ih =>
    rw [freadText]
    by_cases hlef : left > 0
    · rw [if_pos hlef]
      by_cases hfew : (s.buf.length : ℤ) < left
      · rw [if_pos hfew, drain_eq]
        have hall : plain s.buf = plain s.buf ++ plain [] := (append_nil _).symm
        obtain ⟨hr, hd, hlen⟩ := h.taken hall (zero_le _)
        obtain ⟨t, hfil, ht, hco, -⟩ := filbuf_ready env hr rfl
        dsimp only [bind, Option.bind]
        rw [hfil]
        cases hc : ({ s with buf := [] } : Stream).coming content with
        | nil =>
          rw [hc] at hco hd
          refine ⟨plain s.buf, _, t, rfl, ht, ?_⟩
          rw [hd, hco]
          rfl
        | cons c l =>
          rw [hc, length_cons, length_nil] at hlen
          rw [hc] at hco hd
          dsimp only [head?_cons]
          obtain ⟨out', left', hf, hp'⟩ := first_delivers c l (left - (plain s.buf).length)
          rw [hf]
          rw [tail_cons] at hco
          by_cases hm : (t.buf.length : ℤ) ≥ left'
          · rw [if_pos hm]
            obtain ⟨out'', left'', buf'', hcop, hp, hle, -⟩ := copy_delivers left' t.buf
            obtain ⟨hr', hd', hl'⟩ := ht.taken hp hle
            rw [hco] at hd' hl'
            obtain ⟨more, left1, u, hl, hu, hdelivers1⟩ := ih left'' hr' (by omega)
            rw [hcop]
            rw [hl]
            refine ⟨_, left1, u, rfl, hu, ?_⟩
            rw [hd, hp', hd', hdelivers1]
            simp only [append_assoc]
          · rw [if_neg hm]
            obtain ⟨more, left1, u, hl, hu, hdelivers1⟩ := ih left' ht (by rw [hco]; omega)
            rw [hl]
            refine ⟨_, left1, u, rfl, hu, ?_⟩
            rw [hd, hp', ← hco, hdelivers1]
            simp only [append_assoc]
      · rw [if_neg hfew]
        obtain ⟨out, left', buf', hcop, hp, hle, hlt⟩ := copy_delivers left s.buf
        obtain ⟨hr, hd, hlen⟩ := h.taken hp hle
        have hbuf : s.buf ≠ [] := by
          rintro hnil
          rw [hnil, length_nil] at hfew
          omega
        have hles := hlt hlef hbuf
        obtain ⟨more, left'', s', hl, hr', hd'⟩ := ih left' hr (by omega)
        rw [hcop]
        dsimp only [bind]
        rw [hl]
        exact ⟨out ++ more, left'', s', rfl, hr', by rw [hd, hd', append_assoc]⟩
    · rw [if_neg hlef]
      exact ⟨[], left, s, rfl, h, rfl⟩

/-- The amount to read next grows, and nothing else changes. -/
theorem Stream.grow_ready (h : s.Ready content) (hfu : s.bufsiz - s.fillsize < fuel) :
    ∃ t, s.grow bytes fuel = some t ∧ s.Alike t ∧ t.Ready content := by
  induction fuel generalizing s with
  | zero => omega
  | succ fuel ih =>
    rw [grow]
    by_cases hm : bytes > s.fillsize ∧ s.fillsize < s.bufsiz
    · rw [if_pos hm]
      obtain ⟨fillsize, hf⟩ : ∃ n, n = (if s.fillsize < 512 then 512 else s.fillsize) * 2 :=
        ⟨_, rfl⟩
      have hl : s.fillsize < fillsize := by
        rw [hf]
        split_ifs <;> omega
      rw [← hf]
      have hr : ({ s with fillsize := fillsize } : Stream).Ready content :=
        h.alike ⟨rfl, rfl, rfl, rfl⟩ fun hb hun => ⟨(h.buffer hb hun).1, by dsimp only; omega⟩
      obtain ⟨t, hg, ha, ht⟩ := ih hr (by dsimp only; omega)
      exact ⟨t, hg, ⟨ha.text, ha.pos, ha.buf, ha.eof⟩, ht⟩
    · rw [if_neg hm]
      exact ⟨s, rfl, ⟨rfl, rfl, rfl, rfl⟩, h⟩

theorem Stream.fread_text {left : ℤ}
    (ht : t.text) (hg : s.grow (size * count % 2 ^ 64) (s.bufsiz + 1) = some t)
    (hl : t.freadText env content (t.buf.length + (content.length - t.pos) + 2)
      (freadBytes size count) =
      some (out, left, u)) :
    s.fread env content size count = some (out, freadResult size count left, u) := by
  unfold fread
  rw [hg]
  simp only [bind_eq_bind, bind_some, ht, if_true, hl]

/-- A call of `fread`, with the bytes that it stores. -/
def Stream.freadStep (env : Env) (content : Bytes) (s : Stream) (request : ℕ × ℕ) :
    Option (Bytes × Stream) := do
  let (out, _, s) ← s.fread env content request.1 request.2
  some (out, s)

theorem Stream.freadStep_delivers (env : Env) (request : ℕ × ℕ) (h : s.Ready content) :
    ∃ out s', s.freadStep env content request = some (out, s') ∧ s'.Ready content ∧
      plain (s.coming content) = out ++ plain (s'.coming content) := by
  obtain ⟨t, hg, ha, ht⟩ := grow_ready h
    (show s.bufsiz - s.fillsize < s.bufsiz + 1 by omega)
  have hf : (t.coming content).length + 1 < t.buf.length + (content.length - t.pos) + 2 := by
    have := length_textPart_le (content.drop t.pos)
    rw [length_drop] at this
    rw [coming, length_append]
    omega
  obtain ⟨out, left, u, hl, hu, hd⟩ := freadText_delivers env (freadBytes request.1 request.2) ht hf
  rw [freadStep, fread_text ht.text hg hl]
  exact ⟨out, u, rfl, hu, by rw [← ha.coming, hd]⟩

theorem Stream.freads_deliver (env : Env) (requests : List (ℕ × ℕ)) (h : s.Ready content) :
    ∃ out s', collect (freadStep env content) s requests = some (out, s') ∧
      s'.Ready content ∧
      plain (s.coming content) = out ++ plain (s'.coming content) :=
  collect_delivers (fun _ request _ => freadStep_delivers env request) h

/-! ### `read` -/

/-- The loop of `read` delivers the front of the text from the position on, and nothing only at its
end. -/
theorem readLoop_delivers (hc : 0 < count) (hf : (textPart (content.drop pos)).length < fuel) :
    ∃ out pos', readLoop env content true count fuel pos = some (out, pos') ∧
      plain (textPart (content.drop pos)) = out ++ plain (textPart (content.drop pos')) ∧
      (out = [] → textPart (content.drop pos') = []) := by
  induction fuel generalizing pos with
  | zero => omega
  | succ fuel ih =>
    rw [readLoop, lowRead_eq]
    dsimp only [bind, Option.bind]
    have hs := textPart_eq_append count (content.drop pos)
    have hend (hk : textPart ((content.drop pos).take count) = []) :
      textPart (content.drop pos) = [] :=
      textPart_eq_nil hc hk
    by_cases hn : (content.drop pos).take count = []
    · rw [if_pos hn]
      have ht := hend (by rw [hn]; rfl)
      exact ⟨[], pos, rfl, rfl, fun _ => ht⟩
    rw [if_neg hn, truncate_text]
    rw [drop_drop] at hs
    obtain ⟨kept, hk⟩ : ∃ kept, kept = textPart ((content.drop pos).take count) := ⟨_, rfl⟩
    rw [← hk] at hs hend ⊢
    by_cases he : kept = []
    · rw [he]
      exact ⟨[], pos, rfl, rfl, fun _ => hend he⟩
    have hpos : 0 < kept.length := length_pos_of_ne_nil he
    have hl := congrArg length hs
    rw [length_append] at hl
    rw [if_pos he, hs, plain_append]
    by_cases hcr : crlf2nl kept = []
    · rw [if_pos hcr]
      obtain ⟨out, pos', hlo, hd, hst⟩ :=
        ih (show (textPart (content.drop (pos + kept.length))).length < fuel by omega)
      refine ⟨out, pos', hlo, ?_, hst⟩
      rw [show plain kept = [] from hcr, hd, nil_append]
    · rw [if_neg hcr]
      exact ⟨crlf2nl kept, pos + kept.length, rfl, rfl, fun h => absurd h hcr⟩

/-- A file handle that is read, and whether the last call has returned `0`. -/
structure Handle where
  pos : ℕ
  ended : Bool
  deriving DecidableEq

/-- A call of `read`. -/
def Handle.readStep (env : Env) (content : Bytes) (h : Handle) (count : ℕ) :
    Option (Bytes × Handle) := do
  let (out, pos) ← read env content true h.pos count
  some (out, ⟨pos, out = []⟩)

theorem Handle.readStep_delivers (env : Env) (hc : 0 < count) (h : Handle) :
    ∃ out h', h.readStep env content count = some (out, h') ∧
      (h'.ended → textPart (content.drop h'.pos) = []) ∧
      plain (textPart (content.drop h.pos)) = out ++ plain (textPart (content.drop h'.pos)) := by
  have hf : (textPart (content.drop h.pos)).length < content.length + 1 := by
    have := length_textPart_le (content.drop h.pos)
    rw [length_drop] at this
    omega
  obtain ⟨out, pos', hl, hd, hs⟩ := readLoop_delivers hc hf
  unfold Handle.readStep read
  rw [hl]
  exact ⟨out, ⟨pos', out = []⟩, rfl, fun he => hs (of_decide_eq_true he), hd⟩

theorem reads_deliver (env : Env) (content : Bytes) {counts : List ℕ}
    (hc : ∀ count ∈ counts, 0 < count) :
    ∃ out h', collect (Handle.readStep env content) ⟨0, false⟩ counts = some (out, h') ∧
      (h'.ended → textPart (content.drop h'.pos) = []) ∧
      plain (textPart content) = out ++ plain (textPart (content.drop h'.pos)) := by
  have hs : (⟨0, false⟩ : Handle).ended → textPart (content.drop 0) = [] :=
    fun h => absurd h (by decide)
  exact collect_delivers (fun h count hmem _ => Handle.readStep_delivers env (hc count hmem) h) hs

/-! ### All readers -/

/-- A stream in text mode at the start of its file, with a buffer or not: as `fopen` leaves it, or
`setvbuf` after that. -/
structure Stream.Opened (s : Stream) : Prop where
  text : s.text = true
  pos : s.pos = 0
  buf : s.buf = []
  eof : s.eof = false
  buffer : s.hasBase = true → s.unbuffered = false → 0 < s.bufsiz ∧ s.bufsiz < 2 ^ 31 ∧
    s.fillsize = s.bufsiz

theorem Stream.Opened.ready (h : s.Opened) (content : Bytes) : s.Ready content where
  text := h.text
  buffer hb hun := by
    have := h.buffer hb hun
    omega
  eof heof := absurd (h.eof.symm.trans heof) (by decide)

theorem Stream.Opened.coming (h : s.Opened) (content : Bytes) :
    s.coming content = textPart content := by
  rw [Stream.coming, h.buf, h.pos, nil_append, drop_zero]

/-- **All readers see the same text if and only if it has no two carriage returns in a row.**
Reading a stream to the end of the file by `getc` and `fgets`, by `fread`, and its handle by `read`
never fails, and the three deliver the file up to the first `Ctrl-Z` without its carriage returns,
for the files in which one carriage return does not follow another before that. -/
theorem readers_agree_iff (env : Env) (content : Bytes) (s t : Stream) (hs : s.Opened)
    (ht : t.Opened) (getters : List Getter) (requests : List (ℕ × ℕ)) (counts : List ℕ)
    (hcounts : ∀ count ∈ counts, 0 < count) :
    ∃ g s' f t' r h', collect (getStep env content) s getters = some (g, s') ∧
      collect (freadStep env content) t requests = some (f, t') ∧
      collect (Handle.readStep env content) ⟨0, false⟩ counts = some (r, h') ∧
      (s'.eof = true → t'.eof = true → h'.ended = true →
        ((g = f ∧ f = r ∧ r = plain (textPart content)) ↔ ¬ [cr, cr] <:+: textPart content)) := by
  obtain ⟨g, s', hg, hs', hge⟩ := gets_deliver env getters (hs.ready content)
  obtain ⟨f, t', hf, ht', hfr⟩ := freads_deliver env requests (ht.ready content)
  obtain ⟨r, h', hr, hh', hre⟩ := reads_deliver env content hcounts
  refine ⟨g, s', f, t', r, h', hg, hf, hr, fun heo heof he => ?_⟩
  rw [hs'.eof heo, hs.coming, squeezed, append_nil] at hge
  rw [ht'.eof heof, ht.coming, plain_nil, append_nil] at hfr
  rw [hh' he, plain_nil, append_nil] at hre
  rw [← squeezed_eq_plain_iff, ← hge, ← hfr, ← hre]
  exact ⟨fun h => h.1, fun h => ⟨h, rfl, rfl⟩⟩

def usualEnv : Env := ⟨16384, fun _ => true, succ_pos 16383, le_add_right 16385 49151⟩

def openedText : Stream := ⟨true, 0, [], false, 0, 0, false, false⟩

theorem openedText_opened : openedText.Opened := ⟨rfl, rfl, rfl, rfl, fun h => absurd h (by decide)⟩

theorem readers_agree_iff_two_lines :
    openedText.Opened ∧ (∀ count ∈ [80, 80], 0 < count) ∧
    ∃ g s' f t' r h', collect (getStep usualEnv [97, 13, 10, 98, 26, 99]) openedText
        [.fgets 80, .getc, .getc] = some (g, s') ∧
      collect (freadStep usualEnv [97, 13, 10, 98, 26, 99]) openedText [(1, 2), (1, 4)] =
        some (f, t') ∧
      collect (Handle.readStep usualEnv [97, 13, 10, 98, 26, 99]) ⟨0, false⟩ [80, 80] =
        some (r, h') ∧
      (s'.eof = true → t'.eof = true → h'.ended = true →
        ((g = f ∧ f = r ∧ r = plain (textPart [97, 13, 10, 98, 26, 99])) ↔
          ¬ [cr, cr] <:+: textPart [97, 13, 10, 98, 26, 99])) := by
  have hc : ∀ count ∈ [80, 80], 0 < count := by decide
  exact ⟨openedText_opened, hc, readers_agree_iff usualEnv [97, 13, 10, 98, 26, 99] openedText
    openedText openedText_opened openedText_opened [.fgets 80, .getc, .getc] [(1, 2), (1, 4)]
    [80, 80] hc⟩

/-- In a file with two carriage returns and a letter, `getc` delivers the second carriage return;
`fread` and `read` deliver the letter only. -/
theorem getc_keeps_second_cr :
    (collect (getStep usualEnv [13, 13, 65]) openedText [.getc, .getc, .getc]).map
        (fun x => (x.1, x.2.eof)) = some ([13, 65], true) ∧
    (collect (freadStep usualEnv [13, 13, 65]) openedText [(1, 3)]).map
        (fun x => (x.1, x.2.eof)) = some ([65], true) ∧
    (collect (Handle.readStep usualEnv [13, 13, 65]) ⟨0, false⟩ [3, 3]).map
        (fun x => (x.1, x.2.ended)) = some ([65], true) := by
  decide +kernel

end Stdio
