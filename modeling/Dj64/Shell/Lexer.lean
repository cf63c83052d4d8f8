import Dj64.Exec.Arguments

/-!
# The symbols of a command line

`system` reads its command line with `get_sym`, and `plainsystem` splits a command tail into words
with it; the words keep their quotes.  The programs that are started split and unquote with
`parse_arg`.
-/

namespace Shell

open Exec
open List hiding beq_eq_decide

/-- `cmd_sym_t`. -/
inductive CmdSym
  | redirInput
  | redirOutput
  | redirAppend
  | pipe
  | semicolon
  | eol
  | word
  | unmatchedQuote
  deriving DecidableEq

def isQuote (c : UInt8) : Bool := c == doubleQuote || c == singleQuote

/-- The bytes that end a word outside of quotes; `multi` is `__system_allow_multiple_cmds`. -/
def endsWord (multi : Bool) (c : UInt8) : Bool := (text "<>| \t\n").contains c || (multi && c == 59)

/-- A word and what follows it; `closed` says that no quote is open at its end. -/
structure Scan where
  closed : Bool
  word : Bytes
  rest : Bytes
  deriving DecidableEq

/-- The word starts with `bs`. -/
def Scan.push (bs : Bytes) (r : Scan) : Scan := ⟨r.closed, bs ++ r.word, r.rest⟩

/-- The loop of `get_sym` inside of a word, and its inner loop when a quote is open. -/
def scanWord (multi : Bool) : UInt8 → Bytes → Scan
  | quote, [] => ⟨quote == 0, [], []⟩
  | quote, c :: s =>
    if quote = 0 ∧ endsWord multi c then ⟨true, [], c :: s⟩
    else if quote ≠ 0 ∧ c = quote then (scanWord multi 0 s).push [c]
    else if quote = 0 ∧ isQuote c then (scanWord multi c s).push [c]
    else
      match s with
      | [] => ⟨quote == 0, [c], []⟩
      | d :: s' =>
        if c = backslash ∧ (isQuote d ∨ quote = 0 ∧ multi ∧ d = 59) then
          (scanWord multi quote s').push [c, d]
        else (scanWord multi quote (d :: s')).push [c]

/-- A symbol with its text and what follows it. -/
structure Lexeme where
  sym : CmdSym
  text : Bytes
  rest : Bytes
  deriving DecidableEq

def getSym (multi : Bool) (s : Bytes) : Lexeme :=
  match s.dropWhile isspace with
  | [] => ⟨.eol, [], []⟩
  | c :: s =>
    if c = 60 then ⟨.redirInput, [c], s⟩
    else if c = 62 then
      if s.head? = some 62 then ⟨.redirAppend, [c, 62], s.drop 1⟩ else ⟨.redirOutput, [c], s⟩
    else if c = 124 then ⟨.pipe, [c], s⟩
    else if multi ∧ c = 59 then ⟨.semicolon, [c], s⟩
    else
      let r := scanWord multi 0 (c :: s)
      ⟨if r.closed then .word else .unmatchedQuote, r.word, r.rest⟩

/-- The words that `plainsystem` passes to the program, or nothing for a syntax error; each round
consumes a byte, so that `fuel` bounds the rounds. -/
def plainLoop (multi : Bool) : ℕ → Bytes → Option (List Bytes)
  | 0, _ => some []
  | fuel + 1, pcmd =>
    if pcmd = [] then some []
    else
      let r := getSym multi pcmd
      if r.sym = .word then (plainLoop multi fuel r.rest).map (r.text :: ·)
      else if r.text = [] then plainLoop multi fuel r.rest
      else none

@[inherit_doc plainLoop]
def plainWords (multi : Bool) (args : Bytes) : Option (List Bytes) :=
  plainLoop multi args.length args

/-! ### Simple command tails -/

def isOperator (multi : Bool) (c : UInt8) : Bool :=
  c == 60 || c == 62 || c == 124 || (multi && c == 59)

/-- There is no operator outside of quotes, and no quote is open at the end; `quote` is the one that
is open at the start. -/
def Simple (multi : Bool) : UInt8 → Bytes → Bool
  | quote, [] => quote == 0
  | quote, c :: s =>
    if quote = 0 ∧ isOperator multi c then false
    else if quote ≠ 0 ∧ c = quote then Simple multi 0 s
    else if quote = 0 ∧ isQuote c then Simple multi c s
    else
      match s with
      | [] => quote == 0
      | d :: s' =>
        if c = backslash ∧ isQuote d then Simple multi quote s' else Simple multi quote (d :: s')

def PlainSpace (bytes : Bytes) : Prop := ∀ c ∈ bytes, isspace c = true → c = 32 ∨ c = 9 ∨ c = 10

variable {multi : Bool} {quote c : UInt8} {bytes : Bytes}

theorem endsWord_eq_isspace (hop : isOperator multi c = false)
    (hs : isspace c → c = 32 ∨ c = 9 ∨ c = 10) : endsWord multi c = isspace c := by
  cases hc : isspace c with
  | true =>
    rcases hs hc with rfl | rfl | rfl
    all_goals cases multi <;> rfl
  | false =>
    have he : endsWord multi c = (isOperator multi c || c == 32 || c == 9 || c == 10) := by
      have hmem : (text "<>| \t\n").contains c =
          (c == 60 || (c == 62 || (c == 124 || (c == 32 || (c == 9 || c == 10))))) := by
        simp [text, beq_eq_decide]
      rw [endsWord, isOperator, hmem]
      simp only [Bool.or_assoc, Bool.or_comm (multi && c == 59)]
    have hne : ∀ d : UInt8, isspace d → (c == d) = false := by
      intro d hd
      rw [beq_eq_false_iff_ne]
      rintro rfl
      rw [hc] at hd
      cases hd
    rw [he, hop, hne 32 rfl, hne 9 rfl, hne 10 rfl]
    rfl

theorem isQuoteOrNul_eq (hc : c ≠ 0) : isQuoteOrNul c = isQuote c := by
  have hz : (c == 0) = false := beq_eq_false_iff_ne.mpr hc
  rw [isQuoteOrNul, isQuote, hz, Bool.or_false, Bool.or_comm]

theorem isQuote_iff : isQuote c ↔ c = doubleQuote ∨ c = singleQuote := by
  rw [isQuote, Bool.or_eq_true, beq_iff_eq, beq_iff_eq]

theorem isspace_of_isQuote (hc : isQuote c) : isspace c = false := by
  rcases isQuote_iff.mp hc with rfl | rfl
  all_goals rfl

theorem endsWord_of_isQuote (hc : isQuote c) : endsWord multi c = false := by
  rcases isQuote_iff.mp hc with rfl | rfl
  all_goals cases multi <;> decide

/-! ### One word -/

variable {unquote : Bool} {w s bytes' bs : Bytes} {d quote' : UInt8} {r : Scan}

theorem parseArg_close (hq : quote ≠ 0) : parseArg unquote quote (quote :: w) =
    pushArg (if unquote then [] else [quote]) false (parseArg unquote 0 w) := by
  rw [parseArg.eq_def]
  dsimp only
  rw [if_neg fun h => hq h.1, if_pos ⟨hq, rfl⟩]

theorem parseArg_open (hc : isQuote c) : parseArg unquote 0 (c :: w) =
    pushArg (if unquote then [] else [c]) false (parseArg unquote c w) := by
  have hs : ¬ ((0 : UInt8) = 0 ∧ isspace c) := fun h =>
    Bool.false_ne_true ((isspace_of_isQuote hc).symm.trans h.2)
  rw [parseArg.eq_def]
  dsimp only
  rw [if_neg hs, if_neg fun h => h.1 rfl, if_pos ⟨rfl, (isQuote_iff.mp hc).symm⟩]

theorem parseArg_pair (hq : IsQuote quote) (hd : isQuote d) :
    parseArg unquote quote (backslash :: d :: w) =
      pushArg (if unquote then [d] else [backslash, d]) false (parseArg unquote quote w) := by
  have hc : ¬ (quote ≠ 0 ∧ backslash = quote) := by
    rintro ⟨-, rfl⟩
    exact absurd hq (by unfold IsQuote; decide)
  have hqu : isQuoteOrNul d := by
    rw [isQuoteOrNul, Bool.or_comm (d == singleQuote)]
    exact Bool.or_eq_true_iff.mpr (.inl hd)
  rw [parseArg.eq_def]
  dsimp only
  rw [if_neg fun h => absurd h.2 (by decide), if_neg hc, if_neg fun h => absurd h.2 (by decide),
    if_pos ⟨rfl, hqu⟩]

theorem parseArg_cons (hs : ¬ (quote = 0 ∧ isspace c))
    (hc : ¬ (quote ≠ 0 ∧ c = quote)) (ho : ¬ (quote = 0 ∧ isQuote c))
    (hb : ∀ d ∈ w.head?, ¬ (c = backslash ∧ isQuoteOrNul d)) :
    parseArg unquote quote (c :: w) =
      pushArg [c] (quote ≠ 0 && startsPattern (c :: w) && unquote) (parseArg unquote quote w) := by
  have ho' : ¬ (quote = 0 ∧ (c = singleQuote ∨ c = doubleQuote)) :=
    fun h => ho ⟨h.1, isQuote_iff.mpr h.2.symm⟩
  rw [parseArg.eq_def]
  dsimp only
  rw [if_neg hs, if_neg hc, if_neg ho']
  cases w with
  | nil => simp [parseArg, pushArg]
  | cons d w => exact if_neg (hb d rfl)

theorem startsPattern_of_quoted (hpre : w <+: s) (hmem : quote ∈ w) (hq : quote ≠ 46) :
    startsPattern (c :: w) = startsPattern (c :: s) := by
  obtain ⟨t, rfl⟩ := hpre
  have ht : ((c :: w).take 3 == text "...") = ((c :: (w ++ t)).take 3 == text "...") := by
    match w, hmem with
    | [d], hmem =>
      -- the quote itself is not a dot
      have hd : d ≠ 46 := mem_singleton.mp hmem ▸ hq
      have hdo : text "..." = [46, 46, 46] := rfl
      cases t with
      | nil => rfl
      | cons e t => simp [hdo, hd]
    | d :: e :: w, _ => rfl
  rw [startsPattern, startsPattern, headD_cons, headD_cons, ht]

/-! ### The loop of `get_sym` -/

theorem scanWord_end (hc : endsWord multi c) : scanWord multi 0 (c :: w) = ⟨true, [], c :: w⟩ := by
  rw [scanWord.eq_def]
  exact if_pos ⟨rfl, hc⟩

theorem scanWord_close (hq : quote ≠ 0) :
    scanWord multi quote (quote :: w) = (scanWord multi 0 w).push [quote] := by
  rw [scanWord.eq_def]
  dsimp only
  rw [if_neg fun h => hq h.1, if_pos ⟨hq, rfl⟩]

theorem scanWord_open (hc : isQuote c) :
    scanWord multi 0 (c :: w) = (scanWord multi c w).push [c] := by
  have he : ¬ ((0 : UInt8) = 0 ∧ endsWord multi c) := fun h =>
    Bool.false_ne_true ((endsWord_of_isQuote hc).symm.trans h.2)
  rw [scanWord.eq_def]
  dsimp only
  rw [if_neg he, if_neg fun h => h.1 rfl, if_pos ⟨rfl, hc⟩]

theorem scanWord_pair (hq : IsQuote quote) (hd : isQuote d) :
    scanWord multi quote (backslash :: d :: w) = (scanWord multi quote w).push [backslash, d] := by
  have he : ¬ (quote = 0 ∧ endsWord multi backslash) := by
    cases multi
    all_goals exact fun h => absurd h.2 (by decide)
  have hc : ¬ (quote ≠ 0 ∧ backslash = quote) := by
    rintro ⟨-, rfl⟩
    exact absurd hq (by unfold IsQuote; decide)
  rw [scanWord.eq_def]
  dsimp only
  rw [if_neg he, if_neg hc, if_neg fun h => absurd h.2 (by decide), if_pos ⟨rfl, .inl hd⟩]

theorem scanWord_cons (he : ¬ (quote = 0 ∧ endsWord multi c))
    (hc : ¬ (quote ≠ 0 ∧ c = quote)) (ho : ¬ (quote = 0 ∧ isQuote c))
    (hb : ∀ d ∈ w.head?, ¬ (c = backslash ∧ (isQuote d ∨ quote = 0 ∧ multi ∧ d = 59))) :
    scanWord multi quote (c :: w) = (scanWord multi quote w).push [c] := by
  rw [scanWord.eq_def]
  dsimp only
  rw [if_neg he, if_neg hc, if_neg ho]
  cases w with
  | nil => rfl
  | cons d w => exact if_neg (hb d rfl)

/-! ### Agreement -/

/-- The two readers agree on a word. -/
structure Agrees (multi : Bool) (quote : UInt8) (bytes : Bytes) (r : Scan) : Prop where
  closed : r.closed = true
  append : r.word ++ r.rest = bytes
  simple : Simple multi 0 r.rest = true
  boundary : ∀ d ∈ r.rest.head?, isspace d = true
  quoted : quote ≠ 0 → quote ∈ r.word
  rest : ∀ unquote, (parseArg unquote quote bytes).2 = r.rest
  raw : (parseArg false quote bytes).1 = ⟨r.word, false⟩
  unquoted : parseArg true quote r.word = ((parseArg true quote bytes).1, [])

theorem Agrees.push {f : Bool → Bytes}
    {m : Bool → Bool} (h : Agrees multi quote' bytes' r) (hb : bytes = bs ++ bytes')
    (hraw : f false = bs ∧ m false = false) (hq : quote ≠ 0 → quote ∈ bs ++ r.word)
    (hp : ∀ unquote, parseArg unquote quote bytes =
      pushArg (f unquote) (m unquote) (parseArg unquote quote' bytes'))
    (hw : parseArg true quote (bs ++ r.word) =
      pushArg (f true) (m true) (parseArg true quote' r.word)) :
    Agrees multi quote bytes (r.push bs) := by
  refine ⟨h.closed, ?_, h.simple, h.boundary, hq, fun unquote => ?_, ?_, ?_⟩
  · rw [Scan.push, append_assoc, h.append, hb]
  · rw [hp]
    exact h.rest unquote
  · rw [hp, pushArg, h.raw, hraw.1, hraw.2]
    rfl
  · show parseArg true quote (bs ++ r.word) = _
    rw [hw, h.unquoted, hp]
    rfl

theorem agrees_space (hs : Simple multi 0 (c :: bytes)) (hc : isspace c) :
    Agrees multi 0 (c :: bytes) ⟨true, [], c :: bytes⟩ := by
  have hp : ∀ unquote, parseArg unquote 0 (c :: bytes) = (⟨[], false⟩, c :: bytes) := by
    intro unquote
    rw [parseArg.eq_def]
    exact if_pos ⟨rfl, hc⟩
  refine ⟨rfl, rfl, hs, fun d hd => ?_, fun h => absurd rfl h, fun unquote => ?_, ?_, ?_⟩
  · rwa [← Option.some.inj hd]
  · rw [hp]
  · rw [hp]
  · rw [hp]
    rfl

/-- An ordinary byte of a simple tail. -/
theorem Agrees.cons (hq : IsQuote quote) (h0 : 0 ∉ bytes)
    (hs : ¬ (quote = 0 ∧ isspace c)) (hc : ¬ (quote ≠ 0 ∧ c = quote))
    (ho : ¬ (quote = 0 ∧ isQuote c)) (hb : ∀ d ∈ bytes.head?, ¬ (c = backslash ∧ isQuote d))
    (h : Agrees multi quote bytes r) : Agrees multi quote (c :: bytes) (r.push [c]) := by
  have hpre : r.word <+: bytes := ⟨r.rest, h.append⟩
  have hb' : ∀ d ∈ bytes.head?, ¬ (c = backslash ∧ isQuoteOrNul d) := by
    intro d hd
    have hmem : d ∈ bytes := mem_of_mem_head? hd
    rw [isQuoteOrNul_eq fun h => h0 (h ▸ hmem)]
    exact hb d hd
  have hm : (quote ≠ 0 && startsPattern (c :: r.word) && true) =
      (quote ≠ 0 && startsPattern (c :: bytes) && true) := by
    by_cases hz : quote = 0
    · rw [hz]
      rfl
    · have hdot : quote ≠ 46 := by
        rintro rfl
        exact absurd hq (by unfold IsQuote; decide)
      rw [startsPattern_of_quoted hpre (h.quoted hz) hdot]
  refine h.push (f := fun _ => [c])
    (m := fun unquote => quote ≠ 0 && startsPattern (c :: bytes) && unquote) rfl ⟨rfl, ?_⟩
    (fun hz => .tail _ (h.quoted hz))
    (fun unquote => parseArg_cons hs hc ho hb') ?_
  · rw [Bool.and_false]
  rw [← hm]
  refine parseArg_cons hs hc ho fun d hd => hb' d ?_
  have hd' : d ∈ r.word.head? := hd
  obtain ⟨t, ht⟩ := hpre
  obtain ⟨v, hv⟩ := head?_eq_some_iff.mp hd'
  rw [← ht, hv]
  rfl

theorem not_operator_of_isspace (hc : isspace c) : isOperator multi c = false := by
  have hne : ∀ d : UInt8, isspace d = false → (c == d) = false := by
    intro d hd
    rw [beq_eq_false_iff_ne]
    rintro rfl
    rw [hc] at hd
    cases hd
  rw [isOperator, hne 60 rfl, hne 62 rfl, hne 124 rfl, hne 59 rfl, Bool.and_false]
  rfl

theorem simple_space (hc : isspace c) : Simple multi 0 (c :: bytes) = Simple multi 0 bytes := by
  have hop : ¬ ((0 : UInt8) = 0 ∧ isOperator multi c) := fun h =>
    Bool.false_ne_true ((not_operator_of_isspace hc).symm.trans h.2)
  have ho : ¬ ((0 : UInt8) = 0 ∧ isQuote c) := fun h =>
    Bool.false_ne_true ((isspace_of_isQuote h.2).symm.trans hc)
  have hb : c ≠ backslash := by
    rintro rfl
    cases hc
  rw [Simple.eq_def]
  dsimp only
  rw [if_neg hop, if_neg fun h => h.1 rfl, if_neg ho]
  cases bytes with
  | nil => rfl
  | cons d bytes => exact if_neg fun h => hb h.1

theorem ends_agrees (hop : ¬ ((0 : UInt8) = 0 ∧ isOperator multi c))
    (hsp : isspace c → c = 32 ∨ c = 9 ∨ c = 10) (hc : isspace c) (hs : Simple multi 0 bytes) :
    Agrees multi 0 (c :: bytes) (scanWord multi 0 (c :: bytes)) := by
  have he : endsWord multi c := by
    rw [endsWord_eq_isspace (Bool.eq_false_iff.mpr fun h => hop ⟨rfl, h⟩) hsp, hc]
  rw [scanWord_end he]
  exact agrees_space (by rwa [simple_space hc]) hc

theorem scanWord_cons_agrees (hq : IsQuote quote) (hop : ¬ (quote = 0 ∧ isOperator multi c))
    (hcl : ¬ (quote ≠ 0 ∧ c = quote)) (ho : ¬ (quote = 0 ∧ isQuote c))
    (hb : ∀ d ∈ bytes.head?, ¬ (c = backslash ∧ isQuote d) ∧
      ¬ (quote = 0 ∧ multi ∧ d = 59))
    (hc : ¬ (quote = 0 ∧ isspace c)) (hs : PlainSpace (c :: bytes)) (h0 : 0 ∉ bytes)
    (h : Agrees multi quote bytes (scanWord multi quote bytes)) :
    Agrees multi quote (c :: bytes) (scanWord multi quote (c :: bytes)) := by
  have he : ¬ (quote = 0 ∧ endsWord multi c) := by
    rintro ⟨rfl, he⟩
    rw [endsWord_eq_isspace (Bool.eq_false_iff.mpr fun h => hop ⟨rfl, h⟩) (hs c (.head _))] at he
    exact hc ⟨rfl, he⟩
  rw [scanWord_cons he hcl ho fun d hd hb' => ?_]
  · exact h.cons hq h0 hc hcl ho fun d hd => (hb d hd).1
  · rcases hb'.2 with hd' | hd'
    · exact (hb d hd).1 ⟨hb'.1, hd'⟩
    · exact (hb d hd).2 hd'

/-- **The readers agree on a word** of a simple tail. -/
theorem scanWord_agrees (hq : IsQuote quote) (hs : Simple multi quote bytes)
    (h0 : 0 ∉ bytes) (hsp : PlainSpace bytes) :
    Agrees multi quote bytes (scanWord multi quote bytes) := by
  fun_induction Simple multi quote bytes with
  | case1 quote =>
    obtain rfl := beq_iff_eq.mp hs
    exact ⟨rfl, rfl, rfl, fun d hd => (by cases hd), fun h => absurd rfl h, fun _ => rfl, rfl, rfl⟩
  | case2 => cases hs
  | case3 quote c s hop hcl ih =>
    obtain ⟨hq0, rfl⟩ := hcl
    rw [scanWord_close hq0]
    have hih := ih (.inl rfl) hs (fun h => h0 (.tail _ h)) (forall_mem_cons.mp hsp).2
    exact hih.push rfl ⟨rfl, rfl⟩ (fun _ => .head _) (fun _ => parseArg_close hq0)
      (parseArg_close hq0)
  | case4 quote c s hop hcl ho ih =>
    obtain ⟨rfl, hc⟩ := ho
    rw [scanWord_open hc]
    have hih := ih (.inr (isQuote_iff.mp hc).symm) hs (fun h => h0 (.tail _ h))
      (forall_mem_cons.mp hsp).2
    exact hih.push rfl ⟨rfl, rfl⟩ (fun h => absurd rfl h) (fun _ => parseArg_open hc)
      (parseArg_open hc)
  | case5 quote c hop hcl ho =>
    obtain rfl := beq_iff_eq.mp hs
    by_cases hc : isspace c
    · exact ends_agrees hop (hsp c (.head _)) hc rfl
    · refine scanWord_cons_agrees hq hop hcl ho (fun d hd => (by cases hd)) (fun h => hc h.2)
        hsp (fun h => absurd h not_mem_nil) ?_
      exact ⟨rfl, rfl, rfl, fun d hd => (by cases hd), fun h => absurd rfl h, fun _ =>
        rfl, rfl, rfl⟩
  | case6 quote c hop hcl ho d s hb ih =>
    obtain ⟨rfl, hd⟩ := hb
    rw [scanWord_pair hq hd]
    have hih := ih hq hs (fun h => h0 (.tail _ (.tail _ h)))
      fun e he => hsp e (.tail _ (.tail _ he))
    exact hih.push (f := fun unquote => if unquote then [d] else [backslash, d])
      (m := fun _ => false) rfl ⟨rfl, rfl⟩
      (fun hz => .tail _ (.tail _ (hih.quoted hz)))
      (fun _ => parseArg_pair hq hd) (parseArg_pair hq hd)
  | case7 quote c hop hcl ho d s hb ih =>
    have hih := ih hq hs (fun h => h0 (.tail _ h)) (forall_mem_cons.mp hsp).2
    by_cases hc : quote = 0 ∧ isspace c
    · obtain ⟨rfl, hc⟩ := hc
      exact ends_agrees hop (hsp c (.head _)) hc hs
    refine scanWord_cons_agrees hq hop hcl ho (fun e he => ?_) hc hsp (fun h => h0 (.tail _ h)) hih
    obtain rfl := Option.some.inj he
    refine ⟨hb, ?_⟩
    -- a semicolon behind a backslash is outside of quotes, too
    rintro ⟨rfl, rfl, rfl⟩
    rw [Simple.eq_def] at hs
    cases hs

/-! ### All words -/

theorem simple_dropWhile (hs : Simple multi 0 bytes) :
    Simple multi 0 (bytes.dropWhile isspace) := by
  induction bytes with
  | nil => exact hs
  | cons c bytes ih =>
    by_cases hc : isspace c
    · rw [dropWhile_cons_of_pos hc]
      exact ih (by rwa [simple_space hc] at hs)
    · rwa [dropWhile_cons_of_neg hc]

theorem parseBytes_drop_one (h : ∀ d ∈ bytes.head?, isspace d) :
    parseBytes (bytes.drop 1) unquote = parseBytes bytes unquote := by
  cases bytes with
  | nil => rfl
  | cons d bytes => exact (parseBytes_space (h d rfl)).symm

theorem getSym_start (hop : isOperator multi c = false) (hd : bytes.dropWhile isspace = c :: s) :
    getSym multi bytes = ⟨if (scanWord multi 0 (c :: s)).closed then .word else .unmatchedQuote,
      (scanWord multi 0 (c :: s)).word, (scanWord multi 0 (c :: s)).rest⟩ := by
  rw [← Bool.not_eq_true, isOperator, Bool.or_eq_true, Bool.or_eq_true, Bool.or_eq_true, beq_iff_eq,
    beq_iff_eq, beq_iff_eq, Bool.and_eq_true, beq_iff_eq, not_or, not_or, not_or] at hop
  obtain ⟨⟨⟨hin, hout⟩, hp⟩, hs⟩ := hop
  rw [getSym, hd]
  dsimp only
  rw [if_neg hin, if_neg hout, if_neg hp, if_neg hs]

theorem not_operator_of_simple (hs : Simple multi 0 (c :: s)) : isOperator multi c = false := by
  rw [← Bool.not_eq_true]
  intro hop
  rw [Simple.eq_def] at hs
  dsimp only at hs
  rw [if_pos ⟨rfl, hop⟩] at hs
  cases hs

theorem plainLoop_agree {fuel : ℕ} (hf : bytes.length ≤ fuel)
    (h0 : 0 ∉ bytes) (hsp : PlainSpace bytes) (hs : Simple multi 0 bytes) :
    ∃ words, plainLoop multi fuel bytes = some words ∧
      words.map (fun w => (parseArg true 0 w).1) = parseBytes bytes true ∧
      (parseBytes bytes false).map Arg.arg = words := by
  induction fuel generalizing bytes with
  | zero =>
    obtain rfl := length_eq_zero_iff.mp (Nat.le_zero.mp hf)
    exact ⟨[], rfl, rfl, rfl⟩
  | succ fuel ih =>
    have hsu := dropWhile_suffix (l := bytes) isspace
    have hlen := hsu.length_le
    rw [plainLoop]
    split_ifs with hnil
    · rw [hnil]
      exact ⟨[], rfl, rfl, rfl⟩
    cases hd : bytes.dropWhile isspace with
    | nil =>
      have hsym : getSym multi bytes = ⟨.eol, [], []⟩ := by rw [getSym, hd]
      rw [hsym, parseBytes_eq, parseBytes_eq, hd]
      cases fuel <;> exact ⟨[], rfl, rfl, rfl⟩
    | cons c s =>
      rw [hd] at hlen hsu
      have hcs : Simple multi 0 (c :: s) := hd ▸ simple_dropWhile hs
      have hmem : ∀ d ∈ c :: s, d ∈ bytes := fun d hd => hsu.subset hd
      have ha := scanWord_agrees (.inl rfl) hcs (fun h => h0 (hmem 0 h))
        fun d hd => hsp d (hmem d hd)
      rw [getSym_start (not_operator_of_simple hcs) hd, ha.closed]
      generalize scanWord multi 0 (c :: s) = r at ha
      -- the word is not empty: it starts at a byte that is not a blank
      have hne : r.word ≠ [] := by
        intro hw
        have hr := ha.append
        rw [hw, nil_append] at hr
        have hc : isspace c := ha.boundary c (by rw [hr]; rfl)
        have hh := head?_dropWhile_not isspace bytes
        rw [hd] at hh
        exact absurd hc (by simpa using hh)
      have hap := ha.append
      have hlt : r.rest.length < (c :: s).length := by
        rw [← hap, length_append]
        have := length_pos_iff.mpr hne
        omega
      have hr : ∀ d ∈ r.rest, d ∈ bytes := by
        intro d hd
        apply hmem
        rw [← hap]
        exact mem_append_right _ hd
      have hle : r.rest.length ≤ fuel := by omega
      obtain ⟨words, hl, hq, hraw⟩ := ih hle (fun h => h0 (hr 0 h))
        (fun d hd => hsp d (hr d hd)) ha.simple
      have hp : ∀ unquote, parseBytes bytes unquote =
          (parseArg unquote 0 (c :: s)).1 :: parseBytes r.rest unquote := by
        intro unquote
        rw [parseBytes_eq, hd]
        dsimp only
        rw [ha.rest, parseBytes_drop_one ha.boundary]
      refine ⟨r.word :: words, ?_, ?_, ?_⟩
      · rw [if_pos rfl, if_pos rfl, hl]
        rfl
      · rw [map_cons, hq, hp, ha.unquoted]
      · rw [hp, map_cons, ha.raw, hraw]

/-- **The two ways of splitting a command tail agree**: the words of `plainsystem`, unquoted by the
program, are the arguments that the program takes from the tail itself. -/
theorem plainWords_agree (multi : Bool) (tail : Bytes) (h0 : 0 ∉ tail) (hspace : PlainSpace tail)
    (hs : Simple multi 0 tail = true) :
    ∃ words, plainWords multi tail = some words ∧
      words.map (fun w => (parseArg true 0 w).1) = parseBytes tail true ∧
      (parseBytes tail false).map Arg.arg = words :=
  plainLoop_agree le_rfl h0 hspace hs

def mixedTail : Bytes := text "a\"b 'c\" 'd' \\\" \"*.c\""

theorem plainWords_agree_mixed : ∃ words, plainWords true mixedTail = some words ∧
    words.map (fun w => (parseArg true 0 w).1) = parseBytes mixedTail true ∧
    (parseBytes mixedTail false).map Arg.arg = words :=
  plainWords_agree true mixedTail (by decide) (by unfold PlainSpace; decide +kernel)
    (by decide +kernel)

end Shell
