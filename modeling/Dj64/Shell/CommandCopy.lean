import Dj64.Lib.Buffers
import Dj64.Lib.Strings
import Dj64.Shell.Quoting
import Dj64.Shell.Running

/-!
# The copy of the command line

`system` edits a copy of its command line in place, and unquotes the names of programs and files
into buffers of their own.  Here the copy is a block of bytes with positions in it, and every load
and every store is checked: `World.systemAt` is `system` on the copy, and `CopyRuns` compares it
with `World.system` on lists.

What `system` calls for a whole command, that is `system1`, `plainsystem` and `_shell_command` with
buffers of their own, is outside of the model; a `World` says what such a call returns.
-/

namespace Shell

open Exec Buffers Strings Runs List Nat

/-- An access outside of the copy, or a store behind the buffer for the name of the program, for the
name of a file, or for the name that `tmpnam` makes. -/
inductive Fault where
  | copy
  | prog
  | target
  | tmp
  deriving DecidableEq, Repr

/-! ### The functions -/

/-- The inner loop of `get_sym`: the position of the end of the quotes. -/
def quoteAt (buf : Bytes) (quote : UInt8) : ℕ → ℕ → Except Fault ℕ
  | 0, _ => .error .copy
  | rounds + 1, s => do
    let c ← peek .copy buf s
    if c = 0 ∨ c = quote then .ok s
    else if c = backslash then do
      let d ← peek .copy buf (s + 1)
      if isQuote d then quoteAt buf quote rounds (s + 2) else quoteAt buf quote rounds (s + 1)
    else quoteAt buf quote rounds (s + 1)

/-- The loop of `get_sym`: the symbol and its end. -/
def wordAt (multi : Bool) (buf : Bytes) : ℕ → Bool → ℕ → Except Fault (CmdSym × ℕ)
  | 0, _, _ => .error .copy
  | rounds + 1, inAWord, s => do
    let c ← peek .copy buf s
    if inAWord ∧ (c = 0 ∨ endsWord multi c) then .ok (.word, s)
    else if c = 60 then .ok (.redirInput, s + 1)
    else if c = 62 then do
      let d ← peek .copy buf (s + 1)
      if d = 62 then .ok (.redirAppend, s + 2) else .ok (.redirOutput, s + 1)
    else if c = 124 then .ok (.pipe, s + 1)
    else if multi ∧ c = 59 then .ok (.semicolon, s + 1)
    else if c = 0 then .ok (.eol, s)
    else if c = backslash then do
      let d ← peek .copy buf (s + 1)
      if isQuote d ∨ d = 59 ∧ multi then wordAt multi buf rounds true (s + 2)
      else wordAt multi buf rounds true (s + 1)
    else if isQuote c then do
      let s ← quoteAt buf c rounds (s + 1)
      let d ← peek .copy buf s
      if d = 0 then .ok (.unmatchedQuote, s) else wordAt multi buf rounds true (s + 1)
    else wordAt multi buf rounds true (s + 1)

/-- The loop over white space. -/
def skipSpace (buf : Bytes) : ℕ → ℕ → Except Fault ℕ
  | 0, _ => .error .copy
  | rounds + 1, s => do
    let c ← peek .copy buf s
    if isspace c then skipSpace buf rounds (s + 1) else .ok s

/-- `get_sym`: the symbol, its start and its end. -/
def getSymAt (multi : Bool) (buf : Bytes) (s : ℕ) : Except Fault (CmdSym × ℕ × ℕ) := do
  let beg ← skipSpace buf (buf.length + 1) s
  let (sym, fin) ← wordAt multi buf (buf.length + 1) false beg
  .ok (sym, beg, fin)

/-- `__unquote (to, beg, end)`, for a buffer of `size` bytes. -/
def unquoteAt (multi : Bool) (x : Fault) (size : ℕ) (buf : Bytes) (fin : ℕ) :
    ℕ → UInt8 → ℕ → Bytes → Except Fault Bytes
  | 0, _, _, _ => .error .copy
  | rounds + 1, quote, s, d =>
    if s < fin then do
      let c ← peek .copy buf s
      if isQuote c then
        unquoteAt multi x size buf fin rounds
          (if quote = 0 then c else if quote = c then 0 else quote) (s + 1) d
      else if c = backslash then do
        let c' ← peek .copy buf (s + 1)
        if isEscaped multi c' then do
          let d ← put x size d c'
          unquoteAt multi x size buf fin rounds quote (s + 2) d
        else do
          let d ← put x size d c
          unquoteAt multi x size buf fin rounds quote (s + 1) d
      else do
        let d ← put x size d c
        unquoteAt multi x size buf fin rounds quote (s + 1) d
    else terminate x size d

def backSpace (buf : Bytes) (lo : ℕ) : ℕ → Except Fault ℕ
  | 0 => .ok 0
  | p + 1 =>
    if lo < p + 1 then do
      let c ← peek .copy buf p
      if isspace c then backSpace buf lo p else .ok (p + 1)
    else .ok (p + 1)

/-- The copy, `cmdstart` and `s`; the other variables are as in `Sys`, whose parts of the line are
not used. -/
structure Copy where
  buf : Bytes
  cmdstart : ℕ
  s : ℕ
  sys : Sys

/-- What follows a symbol. -/
inductive NextAt
  | again (m : Copy)
  | command (m : Copy)
  | leave (s : Sys)
  | shell (s : Sys)

namespace World

variable (w : World)

/-- Extra white space in front of a symbol is removed: the copy, and the start and the end of the
symbol. -/
def weedOut (m : Copy) (t u : ℕ) : Except Fault (Bytes × ℕ × ℕ) :=
  let v := if m.s = m.cmdstart then m.s else m.s + 1
  if v < t then do
    let buf ← strcpy .copy 0 (m.buf.length + 1) m.buf v t
    .ok (buf, v, u - (t - v))
  else .ok (m.buf, t, u)

/-- The end of a command. -/
def finishAt (token : CmdSym) (m : Copy) (t u : ℕ) : Except Fault NextAt :=
  if m.sys.needcmd then .ok (.leave (m.sys.fail "No command name seen." 0))
  else do
    let s ← backSpace m.buf m.cmdstart m.s
    let t ← backSpace m.buf s t
    let buf ← poke .copy m.buf t 0
    let tail := (buf.drop m.cmdstart).takeWhile (· != 0)
    let sys := w.disconnect m.sys (w.call (w.connect m.sys) tail)
    if token = .eol then .ok (.leave sys)
    else if token = .semicolon then
      .ok (.command { m with
        buf := buf
        s := u
        sys := { (sys.removeIf sys.rmIn sys.fIn).removeIf sys.rmOut sys.fOut with
          fIn := none
          fOut := none } })
    else .ok (.command { m with buf := buf, s := u, sys := sys })

/-- A redirection. -/
def redirectAt (m : Copy) (t u : ℕ) (set : Bytes → Sys → Sys) : Except Fault NextAt := do
  let (sym, u, v) ← getSymAt w.multi m.buf u
  if sym = .word then do
    let name ← unquoteAt w.unquoteMulti .target (v - u + 1) m.buf v (m.buf.length + 1) 0 u []
    let buf ← strcpy .copy 0 (m.buf.length + 1) m.buf t v
    .ok (.again { m with buf := buf, sys := set name m.sys })
  else .ok (.leave (m.sys.fail "Target of redirect is not a filename." 0))

/-- A redirection of the output. -/
def redirectOutputAt (m : Copy) (t u : ℕ) (set : Bytes → Sys → Sys) : Except Fault NextAt :=
  if !w.redirect then .ok (.shell m.sys)
  else if m.sys.fOut.isSome then .ok (.leave (m.sys.fail "Ambiguous output redirect." 0))
  else w.redirectAt m t u set

/-- The body of the inner loop, on the copy. -/
def symbolAt (m : Copy) : Except Fault NextAt := do
  let (sym, t, u) ← getSymAt w.multi m.buf m.s
  let (buf, t, u) ← weedOut m t u
  let m := { m with buf := buf }
  match sym with
  | .word =>
    if m.sys.needcmd then do
      let prog ← unquoteAt w.unquoteMulti .prog lTmpnam m.buf u (m.buf.length + 1) 0 t []
      if prog.head? = some 40 then .ok (.shell m.sys)
      else do
        let buf ← strcpy .copy 0 (m.buf.length + 1) m.buf m.s u
        .ok (.again { m with buf := buf, sys := { m.sys with prog := prog, needcmd := false } })
    else .ok (.again { m with s := u })
  | .redirInput =>
    if !w.redirect then .ok (.shell m.sys)
    else if m.sys.fIn.isSome then .ok (.leave (m.sys.fail "Ambiguous input redirect." 0))
    else w.redirectAt m t u fun name s => { s with fIn := some name }
  | .redirOutput => w.redirectOutputAt m t u fun name s => { s with fOut := some name }
  | .redirAppend =>
    w.redirectOutputAt m t u fun name s => { s with fOut := some name, appendOut := true }
  | .pipe =>
    if !w.redirect then .ok (.shell m.sys)
    else if m.sys.fOut.isSome then .ok (.leave (m.sys.fail "Ambiguous output redirect." 0))
    else do
      let tmp ← puts .tmp lTmpnam [] (w.tmpnam m.sys.temps)
      let tmp ← terminate .tmp lTmpnam tmp
      w.finishAt .pipe
        { m with
          sys := { m.sys with fOut := some tmp, temps := m.sys.temps + 1, rmOut := true } } t u
  | .semicolon => w.finishAt .semicolon m t u
  | .eol => w.finishAt .eol m t u
  | .unmatchedQuote => .ok (.leave (m.sys.fail "Unmatched quote character." 0))

def beginAt (m : Copy) : Copy := { m with cmdstart := m.s, sys := m.sys.beginCommand }

/-- The loops, on the copy. -/
def runAt : ℕ → Copy → Except Fault Outcome
  | 0, _ => .ok .exhausted
  | rounds + 1, m => do
    match ← w.symbolAt m with
    | .again m => runAt rounds m
    | .command m =>
      if 0 ≤ m.sys.result then runAt rounds (beginAt m) else .ok (.returned m.sys.leave)
    | .leave s => .ok (.returned s.leave)
    | .shell s => .ok (.shell s)

/-- `system` on a copy of the line. -/
def systemAt (cmdline : Bytes) : Except Fault Outcome :=
  let line := cmdline.dropWhile isspace
  if line = [] ∨ w.callShell then .ok (.shell (Sys.start []))
  else w.runAt (line.length + 1) (beginAt ⟨line ++ [0], 0, 0, Sys.start []⟩)

end World

/-! ### Symbols on the copy -/

section

variable {multi : Bool} {buf l : Bytes} {s rounds : ℕ} {quote : UInt8}

theorem ne_zero_of_cons {c : UInt8} (h0 : 0 ∉ c :: l) : c ≠ 0 ∧ 0 ∉ l := by
  rw [mem_cons, not_or] at h0
  exact ⟨Ne.symm h0.1, h0.2⟩

theorem skipSpace_eq (h : Stands 0 buf s l) (h0 : 0 ∉ l) (hr : l.length < rounds) :
    skipSpace buf rounds s = .ok (s + (l.takeWhile isspace).length) := by
  induction l generalizing s rounds with
  | nil =>
    obtain ⟨rounds, rfl⟩ := exists_eq_succ_of_ne_zero (ne_zero_of_lt hr)
    rw [skipSpace, h.peek_nil]
    rfl
  | cons c l ih =>
    obtain ⟨rounds, rfl⟩ := exists_eq_succ_of_ne_zero (ne_zero_of_lt hr)
    rw [length_cons] at hr
    rw [skipSpace, h.peek_cons, ok_bind]
    cases hc : isspace c with
    | true =>
      rw [if_pos rfl, ih h.tail (ne_zero_of_cons h0).2 (by omega), takeWhile_cons_of_pos hc,
        length_cons]
      congr 1
      omega
    | false =>
      rw [takeWhile_cons_of_neg (Bool.eq_false_iff.mp hc)]
      rfl

/-- What the inner loop of `get_sym` comes to: the closing quote, or the end of the line. -/
inductive Quoted (multi : Bool) (quote : UInt8) (l : Bytes) : ℕ → Prop
  | closed (y z : Bytes) (heq : l = y ++ quote :: z)
      (hscan : scanWord multi quote l = (scanWord multi 0 z).push (y ++ [quote])) :
      Quoted multi quote l y.length
  | unclosed (hscan : scanWord multi quote l = ⟨false, l, []⟩) : Quoted multi quote l l.length

theorem Quoted.push {n : ℕ} (h : Quoted multi quote l n) (bs : Bytes)
    (hs : scanWord multi quote (bs ++ l) = (scanWord multi quote l).push bs) :
    Quoted multi quote (bs ++ l) (bs.length + n) := by
  cases h with
  | closed y z heq hs' =>
    rw [← length_append]
    refine .closed (bs ++ y) z (by rw [heq, append_assoc]) ?_
    rw [hs, hs', Scan.push, Scan.push, Scan.push, append_assoc, append_assoc, append_assoc]
  | unclosed hs' =>
    rw [← length_append]
    refine .unclosed ?_
    rw [hs, hs', Scan.push]

theorem quoteAt_eq (hq : isQuote quote) (h : Stands 0 buf s l) (h0 : 0 ∉ l)
    (hr : l.length < rounds) :
    ∃ n, quoteAt buf quote rounds s = .ok (s + n) ∧ Quoted multi quote l n := by
  have hquo : IsQuote quote := .inr (isQuote_iff.mp hq).symm
  have hz : quote ≠ 0 := by
    rintro rfl
    cases hq
  induction rounds generalizing s l with
  | zero => exact absurd hr (not_lt_zero _)
  | succ rounds ih =>
    rw [quoteAt]
    cases l with
    | nil =>
      refine ⟨0, ?_, .unclosed ?_⟩
      · rw [h.peek_nil, ok_bind]
        rfl
      · rw [scanWord, beq_eq_false_iff_ne.mpr hz]
    | cons c l =>
      obtain ⟨hc, h0'⟩ := ne_zero_of_cons h0
      rw [length_cons] at hr
      rw [h.peek_cons, ok_bind]
      by_cases hcl : c = quote
      · refine ⟨0, ?_, .closed [] l (by rw [hcl]; rfl) ?_⟩
        · rw [if_pos (.inr hcl)]
          rfl
        · rw [hcl]
          exact scanWord_close hz
      rw [if_neg (not_or.mpr ⟨hc, hcl⟩)]
      -- an ordinary byte of the quotes
      have hne (hb : ∀ d ∈ l.head?, ¬ (c = backslash ∧ isQuote d)) :
          ∃ n, quoteAt buf quote rounds (s + 1) = .ok (s + n) ∧ Quoted multi quote (c :: l) n := by
        obtain ⟨n, hn, hqu⟩ := ih h.tail h0' (by omega)
        refine ⟨1 + n, by rw [hn, add_assoc], hqu.push [c] ?_⟩
        refine scanWord_cons (fun hand => hz hand.1) (fun hand => hcl hand.2)
          (fun hand => hz hand.1) fun d hd hand => ?_
        exact hand.2.elim (fun hd' => hb d hd ⟨hand.1, hd'⟩) fun hd' => hz hd'.1
      by_cases hb : c = backslash
      · rw [if_pos hb]
        subst hb
        cases l with
        | nil =>
          rw [h.tail.peek_nil, ok_bind]
          exact hne (by rintro _ ⟨⟩)
        | cons d l =>
          rw [h.tail.peek_cons, ok_bind]
          by_cases hd : isQuote d
          · rw [if_pos hd]
            rw [length_cons] at hr
            obtain ⟨n, hn, hqu⟩ := ih h.tail.tail (ne_zero_of_cons h0').2 (by omega)
            refine ⟨2 + n, ?_, hqu.push [backslash, d] (scanWord_pair hquo hd)⟩
            rw [hn]
            congr 1
            omega
          · rw [if_neg hd]
            refine hne fun e he hand => hd ?_
            rw [Option.some.inj he]
            exact hand.2
      · rw [if_neg hb]
        exact hne fun _ _ hand => hb hand.1

def Scan.symbol (r : Scan) : CmdSym := if r.closed then .word else .unmatchedQuote

theorem scanWord_semicolon (hm : multi) :
    scanWord multi 0 (backslash :: 59 :: l) = (scanWord multi 0 l).push [backslash, 59] := by
  subst hm
  rw [scanWord.eq_def]
  dsimp only
  rw [if_neg (by decide), if_neg (by decide), if_neg (by decide),
    if_pos ⟨rfl, .inr ⟨rfl, rfl, rfl⟩⟩]

theorem not_endsWord {c : UInt8} (hc : ¬ endsWord multi c) :
    c ≠ 60 ∧ c ≠ 62 ∧ c ≠ 124 ∧ ¬ (multi ∧ c = 59) := by
  refine ⟨?_, ?_, ?_, ?_⟩
  · rintro rfl
    cases multi <;> exact hc (by decide)
  · rintro rfl
    cases multi <;> exact hc (by decide)
  · rintro rfl
    cases multi <;> exact hc (by decide)
  · rintro ⟨rfl, rfl⟩
    exact hc (by decide)

/-- Inside of a word, the loop reads the rest of it. -/
def ReadsWord (multi : Bool) (buf : Bytes) (rounds : ℕ) : Prop :=
  ∀ s l, Stands 0 buf s l → 0 ∉ l → l.length < rounds →
    wordAt multi buf rounds true s =
      .ok ((scanWord multi 0 l).symbol, s + (scanWord multi 0 l).word.length)

section

variable {c : UInt8}

section

variable (h : ReadsWord multi buf rounds)
include h

theorem ReadsWord.push {bs l' : Bytes}
    (hs : Stands 0 buf (s + bs.length) l') (h0 : 0 ∉ l') (hr : l'.length < rounds)
    (hsc : scanWord multi 0 l = (scanWord multi 0 l').push bs) :
    wordAt multi buf rounds true (s + bs.length) =
      .ok ((scanWord multi 0 l).symbol, s + (scanWord multi 0 l).word.length) := by
  rw [h _ _ hs h0 hr, hsc, Scan.push, Scan.symbol, Scan.symbol, length_append, add_assoc]

theorem ReadsWord.byte (hs : Stands 0 buf s (c :: l)) (h0 : 0 ∉ l) (hr : l.length < rounds)
    (he : ¬ endsWord multi c) (ho : ¬ isQuote c)
    (hb : ∀ d ∈ l.head?, ¬ (c = backslash ∧ (isQuote d ∨ multi ∧ d = 59))) :
    wordAt multi buf rounds true (s + 1) =
      .ok ((scanWord multi 0 (c :: l)).symbol, s + (scanWord multi 0 (c :: l)).word.length) := by
  refine @ReadsWord.push _ _ _ _ _ h [c] _ hs.tail h0 hr (scanWord_cons (fun hand => he hand.2)
    (fun hand => hand.1 rfl) (fun hand => ho hand.2) fun d hd hand => ?_)
  exact hb d hd ⟨hand.1, hand.2.imp id fun hand => hand.2⟩

/-- A backslash in a word. -/
theorem ReadsWord.backslash
    (hs : Stands 0 buf s (Exec.backslash :: l)) (h0 : 0 ∉ l) (hr : l.length < rounds)
    (hen : ¬ endsWord multi Exec.backslash) :
    (do
      let d ← peek Fault.copy buf (s + 1)
      if isQuote d ∨ d = 59 ∧ multi then wordAt multi buf rounds true (s + 2)
      else wordAt multi buf rounds true (s + 1)) =
      .ok ((scanWord multi 0 (Exec.backslash :: l)).symbol,
        s + (scanWord multi 0 (Exec.backslash :: l)).word.length) := by
  cases l with
  | nil =>
    rw [hs.tail.peek_nil, ok_bind]
    exact h.byte hs h0 hr hen (by decide) nofun
  | cons d l =>
    rw [hs.tail.peek_cons, ok_bind]
    by_cases hd : isQuote d ∨ d = 59 ∧ multi
    · rw [if_pos hd]
      rw [length_cons] at hr
      refine @ReadsWord.push _ _ _ _ _ h [Exec.backslash, d] _ hs.tail.tail
        (ne_zero_of_cons h0).2 (by omega) ?_
      rcases hd with hd | ⟨rfl, hm⟩
      · exact scanWord_pair (.inl rfl) hd
      · exact scanWord_semicolon hm
    · rw [if_neg hd]
      refine h.byte hs h0 hr hen (by decide) fun e he hand => hd ?_
      rw [Option.some.inj he]
      exact hand.2.imp id And.symm

/-- Quotes in a word. -/
theorem ReadsWord.quotes
    (hs : Stands 0 buf s (c :: l)) (hc : c ≠ 0) (h0 : 0 ∉ l) (hr : l.length < rounds)
    (hq : isQuote c) :
    (do
      let s ← quoteAt buf c rounds (s + 1)
      let d ← peek Fault.copy buf s
      if d = 0 then .ok (CmdSym.unmatchedQuote, s) else wordAt multi buf rounds true (s + 1)) =
      .ok ((scanWord multi 0 (c :: l)).symbol, s + (scanWord multi 0 (c :: l)).word.length) := by
  obtain ⟨n, hn, hqu⟩ : ∃ n, quoteAt buf c rounds (s + 1) = .ok (s + 1 + n) ∧ Quoted multi c l n :=
    quoteAt_eq hq hs.tail h0 hr
  have ht := hs.tail
  rw [hn, ok_bind]
  cases hqu with
  | closed y z heq hsc =>
    rw [heq] at ht
    have hcl := ht.drop
    have hpos : s + 1 + y.length + 1 = s + ([c] ++ (y ++ [c])).length := by
      simp only [length_append, length_singleton]
      omega
    have hre : Stands 0 buf (s + ([c] ++ (y ++ [c])).length) z := hpos ▸ hcl.tail
    have hlen : l.length = y.length + (z.length + 1) := by rw [heq, length_append, length_cons]
    rw [hcl.peek_cons, ok_bind, if_neg hc, hpos]
    refine h.push hre (fun hmem => h0 (by rw [heq]; simp [hmem])) (by omega) ?_
    rw [scanWord_open hq, hsc]
    simp [Scan.push]
  | unclosed hsc =>
    rw [← append_nil l] at ht
    rw [ht.drop.peek_nil, ok_bind, scanWord_open hq, hsc, Scan.push, length_append, add_assoc]
    rfl

end

end

/-- A word, from one of its bytes on: the loop does what it does inside of a word. -/
theorem wordAt_eq {inAWord : Bool} (h : Stands 0 buf s l) (h0 : 0 ∉ l) (hro : l.length < rounds)
    (hin : inAWord ∨ ∃ c ∈ l.head?, ¬ endsWord multi c) :
    wordAt multi buf rounds inAWord s =
      .ok ((scanWord multi 0 l).symbol, s + (scanWord multi 0 l).word.length) := by
  induction rounds generalizing s l inAWord with
  | zero => exact absurd hro (not_lt_zero _)
  | succ rounds ih =>
    have hr : ReadsWord multi buf rounds := fun s l h h0 hlt => ih h h0 hlt (.inl rfl)
    rw [wordAt]
    cases l with
    | nil =>
      have hin : inAWord := hin.resolve_right nofun
      rw [h.peek_nil, ok_bind, if_pos ⟨hin, .inl rfl⟩]
      rfl
    | cons c l =>
      obtain ⟨hc, h0'⟩ := ne_zero_of_cons h0
      have hr' : l.length < rounds := lt_of_succ_lt_succ hro
      rw [h.peek_cons, ok_bind]
      by_cases he : endsWord multi c
      · have hin : inAWord := by
          refine hin.resolve_right ?_
          rintro ⟨d, hd, hnot⟩
          rw [← Option.some.inj hd] at hnot
          exact hnot he
        rw [if_pos ⟨hin, .inr he⟩, scanWord_end he]
        rfl
      obtain ⟨hlt, hgt, hp, hs⟩ := not_endsWord he
      rw [if_neg fun hand => hand.2.elim hc he, if_neg hlt, if_neg hgt,
        if_neg hp, if_neg hs, if_neg hc]
      by_cases hb : c = backslash
      · subst hb
        exact hr.backslash h h0' hr' he
      rw [if_neg hb]
      by_cases hq : isQuote c
      · rw [if_pos hq]
        exact hr.quotes h hc h0' hr' hq
      · rw [if_neg hq]
        exact hr.byte h h0' hr' he hq fun _ _ hand => hb hand.1

/-- The first byte of a symbol decides what it is. -/
theorem wordAt_first (h : Stands 0 buf s (l.dropWhile isspace)) (h0 : 0 ∉ l.dropWhile isspace)
    (hr : (l.dropWhile isspace).length < rounds) :
    wordAt multi buf rounds false s = .ok
      ((getSym multi l).sym, s + (getSym multi l).text.length) := by
  obtain ⟨rounds', hr'⟩ := exists_eq_succ_of_ne_zero (ne_zero_of_lt hr)
  rw [getSym]
  cases hl : l.dropWhile isspace with
  | nil =>
    rw [hl] at h
    have hs : ¬ (multi ∧ (0 : UInt8) = 59) := fun hand => absurd hand.2 (by decide)
    rw [hr', wordAt, h.peek_nil, ok_bind, if_neg (fun hand => Bool.false_ne_true hand.1),
      if_neg (by decide), if_neg (by decide), if_neg hs]
    rfl
  | cons c l' =>
    rw [hl] at h h0 hr
    dsimp only
    by_cases hop : isOperator multi c
    · rw [hr', wordAt, h.peek_cons, ok_bind, if_neg (fun hand => Bool.false_ne_true hand.1)]
      by_cases hlt : c = 60
      · rw [if_pos hlt, if_pos hlt]
        rfl
      rw [if_neg hlt, if_neg hlt]
      by_cases hgt : c = 62
      · rw [if_pos hgt, if_pos hgt]
        cases l' with
        | nil =>
          rw [h.tail.peek_nil, ok_bind, if_neg (by decide)]
          rfl
        | cons d l' =>
          rw [h.tail.peek_cons, ok_bind, head?_cons]
          by_cases hd : d = 62
          · rw [if_pos hd, if_pos (by rw [hd])]
            rfl
          · rw [if_neg hd, if_neg fun heq => hd (Option.some.inj heq)]
            rfl
      rw [if_neg hgt, if_neg hgt]
      by_cases hp : c = 124
      · rw [if_pos hp, if_pos hp]
        rfl
      have hs : multi ∧ c = 59 := by
        simpa [isOperator, hlt, hgt, hp] using hop
      rw [if_neg hp, if_neg hp, if_pos hs, if_pos hs]
      rfl
    · have he : ¬ endsWord multi c := fun he =>
        Bool.false_ne_true ((head_of_dropWhile hl).symm.trans
          (isspace_of_endsWord (Bool.eq_false_iff.mpr hop) he).isspace)
      obtain ⟨hlt, hgt, hp, hs⟩ := not_endsWord he
      rw [wordAt_eq h h0 hr (.inr ⟨c, rfl, he⟩), if_neg hlt, if_neg hgt, if_neg hp, if_neg hs]
      rfl

/-- **`get_sym` on the copy** finds the same symbol as on the string, and stays in it. -/
theorem getSymAt_eq (h : Stands 0 buf s l) (h0 : 0 ∉ l) :
    getSymAt multi buf s = .ok ((getSym multi l).sym, s + (l.takeWhile isspace).length,
      s + (l.takeWhile isspace).length + (getSym multi l).text.length) := by
  have hlen := h.length_lt
  have hsub := (dropWhile_sublist isspace (l := l))
  have hd : Stands 0 buf (s + (l.takeWhile isspace).length) (l.dropWhile isspace) := by
    rw [← takeWhile_append_dropWhile (p := isspace) (l := l)] at h
    exact h.drop
  rw [getSymAt, skipSpace_eq h h0 (by omega), ok_bind,
    wordAt_first hd (fun hmem => h0 (hsub.mem hmem)) (by have := hsub.length_le; omega)]
  rfl

/-! ### Unquoting on the copy -/

theorem getLast_of_tail {c a : UInt8} (h : l.getLast? = some a) : (c :: l).getLast? = some a := by
  rw [getLast?_cons, h]
  rfl

/-- **`__unquote` on the copy**: it looks at the byte behind a word that ends in a backslash. -/
theorem unquoteAt_eq {x : Fault} {size fin : ℕ} {word rest d : Bytes} {e : UInt8}
    (h : buf.drop s = word ++ e :: rest) (hfin : fin = s + word.length)
    (hl : word.getLast? = some backslash → isEscaped multi e = false) (hr : word.length < rounds) :
    unquoteAt multi x size buf fin rounds quote s d =
      puts x size d (unquoteLoop multi quote word) >>= terminate x size := by
  induction rounds generalizing s word quote d with
  | zero => exact absurd hr (not_lt_zero _)
  | succ rounds ih =>
    rw [unquoteAt]
    cases word with
    | nil =>
      rw [length_nil] at hfin
      rw [if_neg (by omega)]
      rfl
    | cons c word =>
      rw [length_cons] at hfin hr
      have hn : buf.drop (s + 1) = word ++ e :: rest := by
        rw [← drop_drop, h]
        rfl
      -- the rest of the word, behind this byte
      have hre (quote' : UInt8) (d' : Bytes) :
        unquoteAt multi x size buf fin rounds quote' (s + 1) d' =
          puts x size d' (unquoteLoop multi quote' word) >>= terminate x size :=
        ih hn (by omega) (fun hb => hl (getLast_of_tail hb)) (by omega)
      -- this byte is kept
      have hk (hq : isQuote c = false)
          (hb : ∀ d ∈ word.head?, c = backslash → isEscaped multi d = false) :
          (put x size d c >>= fun d => unquoteAt multi x size buf fin rounds quote (s + 1) d) =
            puts x size d (unquoteLoop multi quote (c :: word)) >>= terminate x size := by
        rw [unquoteLoop_cons hq hb, puts, bind_assoc]
        congr 1
        funext d'
        exact hre quote d'
      rw [if_pos (by omega), peek_of_drop h, ok_bind]
      cases hq : isQuote c with
      | true => rw [if_pos rfl, hre, unquoteLoop_quote hq]
      | false =>
        rw [if_neg Bool.false_ne_true]
        by_cases hb : c = backslash
        · rw [if_pos hb]
          cases word with
          | nil =>
            rw [peek_of_drop hn, ok_bind, hl (by rw [hb]; rfl)]
            exact hk hq (by rintro _ ⟨⟩)
          | cons c' word =>
            rw [peek_of_drop hn, ok_bind]
            by_cases he : isEscaped multi c'
            · rw [length_cons] at hfin hr
              have hn' : buf.drop (s + 2) = word ++ e :: rest := by
                rw [← drop_drop, h]
                rfl
              rw [if_pos he, hb, unquoteLoop_pair he, puts, bind_assoc]
              congr 1
              funext d'
              exact ih hn' (by omega)
                (fun hl' => hl (getLast_of_tail (getLast_of_tail hl'))) (by omega)
            · rw [if_neg he]
              refine hk hq fun d hd _ => ?_
              obtain rfl := Option.some.inj hd
              exact Bool.eq_false_iff.mpr he
        · rw [if_neg hb]
          exact hk hq fun _ _ heq => absurd heq hb

theorem length_unquoteLoop_le (multi : Bool) (quote : UInt8) (word : Bytes) :
    (unquoteLoop multi quote word).length ≤ word.length := by
  fun_induction unquoteLoop multi quote word with
  | case1 => exact le_rfl
  | case2 quote c s hc ih => exact ih.trans (le_succ _)
  | case3 => exact le_rfl
  | case4 quote c hc d s hb ih => exact (succ_le_succ ih).trans (le_succ _)
  | case5 quote c hc d s hb ih => exact succ_le_succ ih

/-! ### The byte behind a word -/

theorem scanWord_ne_nil {c : UInt8} (hq : quote ≠ 0) :
    (scanWord multi quote (c :: l)).word ≠ [] := by
  rw [scanWord.eq_def]
  dsimp only
  rw [if_neg fun hand => hq hand.1]
  split_ifs
  · exact cons_ne_nil _ _
  · exact cons_ne_nil _ _
  · cases l with
    | nil => exact cons_ne_nil _ _
    | cons d l =>
      dsimp only
      split_ifs <;> exact cons_ne_nil _ _

theorem backslash_of_getLast {c : UInt8} {word : Bytes} (hc : c ≠ backslash)
    (h : (c :: word).getLast? = some backslash) : word.getLast? = some backslash := by
  cases word with
  | nil => exact absurd (Option.some.inj h) hc
  | cons d word => rwa [getLast?_cons_cons] at h

theorem isQuote_ne_backslash {c : UInt8} (hc : isQuote c) : c ≠ backslash := by
  rintro rfl
  cases hc

/-- A backslash at the end of a word is not in front of a semicolon that ends commands. -/
theorem scanWord_backslash (hm : multi) (hq : IsQuote quote)
    (hl : (scanWord multi quote l).word.getLast? = some backslash) :
    (scanWord multi quote l).rest.head? ≠ some 59 := by
  fun_induction scanWord multi quote l with
  | case1 => rintro ⟨⟩
  | case2 => cases hl
  | case3 quote c s he hcl ih =>
    obtain ⟨hz, rfl⟩ := hcl
    have hc : isQuote c := isQuote_iff.mpr (hq.resolve_left hz).symm
    exact ih (.inl rfl) (backslash_of_getLast (isQuote_ne_backslash hc) hl)
  | case4 quote c s he hcl ho ih =>
    refine ih (.inr (isQuote_iff.mp ho.2).symm) ?_
    exact backslash_of_getLast (isQuote_ne_backslash ho.2) hl
  | case5 => rintro ⟨⟩
  | case6 quote c he hcl ho d s hb ih =>
    have hd : d ≠ backslash := by
      rcases hb.2 with hd | hd
      · exact isQuote_ne_backslash hd
      · rw [hd.2.2]
        decide
    refine ih hq (backslash_of_getLast hd ?_)
    change (c :: d :: (scanWord multi quote s).word).getLast? = _ at hl
    rwa [getLast?_cons_cons] at hl
  | case7 quote c he hcl ho d s hb ih =>
    intro hh
    change (c :: (scanWord multi quote (d :: s)).word).getLast? = _ at hl
    change (scanWord multi quote (d :: s)).rest.head? = _ at hh
    cases hw : (scanWord multi quote (d :: s)).word with
    | nil =>
      -- the word ends here: the backslash would have been read with the semicolon
      have ha := scanWord_append_rest multi quote (d :: s)
      rw [hw, nil_append] at ha
      rw [hw] at hl
      rw [ha] at hh
      have hz : quote = 0 := by
        by_contra hz
        exact scanWord_ne_nil hz hw
      exact hb ⟨Option.some.inj hl, .inr ⟨hz, hm, Option.some.inj hh⟩⟩
    | cons b word =>
      rw [hw] at hl
      rw [hw] at ih
      exact ih hq hl hh

section

variable (hsym : (getSym multi l).sym = .word)
include hsym

theorem getSym_scanWord : (getSym multi l).text = (scanWord multi 0 (l.dropWhile isspace)).word ∧
      (getSym multi l).rest = (scanWord multi 0 (l.dropWhile isspace)).rest ∧
      ∀ d ∈ (getSym multi l).rest.head?, endsWord multi d := by
  have hsp : getSym multi l = ⟨.word, (getSym multi l).text, (getSym multi l).rest⟩ := by
    rw [← hsym]
  obtain ⟨hw, ha, hb⟩ := getSym_eq_word hsp
  obtain ⟨c, s, ht, -, hop⟩ := hw.start
  rw [ht, cons_append] at ha
  have hs := getSym_start hop ha.symm
  rw [ha] at hs
  exact ⟨congrArg Lexeme.text hs, congrArg Lexeme.rest hs, hb⟩

/-- **The byte behind a word** is not unquoted with it, whatever `__system_flags` are. -/
theorem getSym_escapes {multi' : Bool} {e : UInt8}
    {tail rest : Bytes} (he : (getSym multi l).rest ++ 0 :: tail = e :: rest)
    (hl : (getSym multi l).text.getLast? = some backslash) : isEscaped multi' e = false := by
  obtain ⟨ht, hr, hb⟩ := getSym_scanWord hsym
  cases hc : (getSym multi l).rest with
  | nil =>
    rw [hc] at he
    obtain rfl : 0 = e := (cons.inj he).1
    cases multi' <;> rfl
  | cons d rest' =>
    rw [hc] at he
    obtain rfl : d = e := (cons.inj he).1
    have hen : endsWord multi d := hb d (by rw [hc]; rfl)
    rw [← Bool.not_eq_true, isEscaped_iff]
    rintro (hq | ⟨-, rfl⟩)
    · exact Bool.false_ne_true ((endsWord_of_isQuote hq).symm.trans hen)
    have hm : multi := by
      by_contra hm
      rw [Bool.eq_false_iff.mpr hm] at hen
      cases hen
    rw [ht] at hl
    refine scanWord_backslash hm (.inl rfl) hl ?_
    rw [← hr, hc]
    rfl

/-- **A word is unquoted** into a buffer: all of it has to fit. -/
theorem unquoteAt_word {multi' : Bool} {x : Fault} {size : ℕ} {tail : Bytes}
    (h : buf.drop s = (getSym multi l).text ++ ((getSym multi l).rest ++ 0 :: tail)) :
    unquoteAt multi' x size buf (s + (getSym multi l).text.length) (buf.length + 1) 0 s [] =
      if (unquote multi' (getSym multi l).text).length < size then
        .ok (unquote multi' (getSym multi l).text)
      else .error x := by
  obtain ⟨e, rest, he⟩ : ∃ e rest, (getSym multi l).rest ++ 0 :: tail = e :: rest :=
    exists_cons_of_ne_nil (append_ne_nil_of_right_ne_nil _ (cons_ne_nil _ _))
  have hlen : (getSym multi l).text.length < buf.length + 1 := by
    have hlen := congrArg length h
    rw [length_drop, length_append] at hlen
    omega
  rw [he] at h
  rw [unquoteAt_eq h rfl (getSym_escapes hsym he) hlen, puts_terminate_eq (zero_le _),
    length_nil, zero_add]
  rfl

end

/-! ### White space on the copy -/

theorem backSpace_eq {lo : ℕ} {seg rest : Bytes} (h : buf.drop lo = seg ++ rest) :
    backSpace buf lo (lo + seg.length) = .ok (lo + (World.stripEnd seg).length) := by
  induction seg using reverseRecOn generalizing rest with
  | nil =>
    cases lo with
    | zero => rfl
    | succ lo => exact if_neg (lt_irrefl _)
  | append_singleton seg c ih =>
    rw [append_assoc, singleton_append] at h
    have hd : buf.drop (lo + seg.length) = c :: rest := by rw [← drop_drop, h, drop_left]
    have hc : peek Fault.copy buf (lo + seg.length) = .ok c := peek_of_drop hd
    rw [length_append, length_singleton, ← add_assoc, backSpace,
      if_pos (by omega), hc, ok_bind, World.stripEnd, rdropWhile_concat]
    split_ifs with hs
    · exact ih h
    · rw [length_append]
      rfl

end

end Shell
