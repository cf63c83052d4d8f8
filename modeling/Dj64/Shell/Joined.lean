import Dj64.Shell.Grammar

/-!
# Words in a row

What `system` leaves of a command are its arguments with one byte of white space between them, and
`plainsystem` finds the same words in it again.
-/

namespace Shell

open Exec List Option Bool Scan

variable {multi : Bool} {quote c d : UInt8} {bytes w bs sp s rest pre v : Bytes}

/-! ### The end of a word -/

/-- A word ends where one of the bytes that end words follows, and does not depend on what follows.
-/
structure Ended (multi : Bool) (quote : UInt8) (bytes : Bytes) (r : Scan) : Prop where
  append : r.word ++ r.rest = bytes
  boundary : ∀ d ∈ r.rest.head?, endsWord multi d = true
  alone : scanWord multi quote r.word = ⟨true, r.word, []⟩

theorem scanWord_ended (h : (scanWord multi quote bytes).closed) :
    Ended multi quote bytes (scanWord multi quote bytes) := by
  fun_induction scanWord multi quote bytes with
  | case1 quote =>
    obtain rfl : quote = 0 := beq_iff_eq.mp h
    exact ⟨rfl, fun d hd => (by cases hd), rfl⟩
  | case2 quote c s hen =>
    obtain ⟨rfl, hen⟩ := hen
    refine ⟨rfl, fun d hd => ?_, rfl⟩
    rwa [← some.inj hd]
  | case3 quote c s hen hcl ih =>
    obtain ⟨hq, rfl⟩ := hcl
    obtain ⟨ha, hb, hal⟩ := ih h
    refine ⟨congrArg (c :: ·) ha, hb, ?_⟩
    show scanWord multi c (c :: (scanWord multi 0 s).word) = _
    rw [scanWord_close hq, hal]
    rfl
  | case4 quote c s hen hcl ho ih =>
    obtain ⟨rfl, hc⟩ := ho
    obtain ⟨ha, hb, hal⟩ := ih h
    refine ⟨congrArg (c :: ·) ha, hb, ?_⟩
    show scanWord multi 0 (c :: (scanWord multi c s).word) = _
    rw [scanWord_open hc, hal]
    rfl
  | case5 quote c hen hcl ho =>
    obtain rfl : quote = 0 := beq_iff_eq.mp h
    refine ⟨rfl, fun d hd => (by cases hd), ?_⟩
    rw [scanWord_cons hen hcl ho fun d hd => (by cases hd)]
    rfl
  | case6 quote c hen hcl ho d s hba ih =>
    obtain ⟨ha, hb, hal⟩ := ih h
    refine ⟨congrArg (fun l => c :: d :: l) ha, hb, ?_⟩
    show scanWord multi quote (c :: d :: (scanWord multi quote s).word) = _
    rw [scanWord.eq_def]
    dsimp only
    rw [if_neg hen, if_neg hcl, if_neg ho, if_pos hba, hal]
    rfl
  | case7 quote c hen hcl ho d s hba ih =>
    obtain ⟨ha, hb, hal⟩ := ih h
    refine ⟨congrArg (c :: ·) ha, hb, ?_⟩
    show scanWord multi quote (c :: (scanWord multi quote (d :: s)).word) = _
    rw [scanWord_cons hen hcl ho fun e he hb' => ?_, hal]
    · rfl
    · -- the first byte of the rest of the word is `d`
      obtain ⟨t, ht⟩ := head?_eq_some_iff.mp he
      rw [ht] at ha
      obtain rfl : e = d := (cons.inj ha).1
      exact hba hb'

theorem Scan.push_eq_iff {r : Scan} : r.push bs = ⟨true, bs ++ w, []⟩ ↔ r = ⟨true, w, []⟩ := by
  cases r
  simp [push]

def IsBlank (d : UInt8) : Prop := d = 32 ∨ d = 9 ∨ d = 10

theorem IsBlank.isspace (h : IsBlank d) : isspace d := by
  rcases h with rfl | rfl | rfl <;> rfl

theorem IsBlank.endsWord (h : IsBlank d) : endsWord multi d := by
  rcases h with rfl | rfl | rfl <;> rfl

theorem not_escaped_of_isspace (hd : isspace d) :
    ¬ (c = backslash ∧ (isQuote d ∨ quote = 0 ∧ multi ∧ d = 59)) := by
  rintro ⟨-, hq | ⟨-, -, rfl⟩⟩
  · exact false_ne_true ((isspace_of_isQuote hq).symm.trans hd)
  · cases hd

/-- A word in front of white space. -/
theorem scanWord_append (hw : scanWord multi quote w = ⟨true, w, []⟩) (hd : IsBlank d)
    (rest : Bytes) : scanWord multi quote (w ++ d :: rest) = ⟨true, w, d :: rest⟩ := by
  fun_induction scanWord multi quote w with
  | case1 quote =>
    obtain rfl : quote = 0 := beq_iff_eq.mp (congrArg closed hw)
    exact scanWord_end hd.endsWord
  | case2 => cases congrArg Scan.word hw
  | case3 quote c s hen hcl ih =>
    obtain ⟨hq, rfl⟩ := hcl
    rw [cons_append, scanWord_close hq, ih (push_eq_iff.mp hw)]
    rfl
  | case4 quote c s hen hcl ho ih =>
    obtain ⟨rfl, hc⟩ := ho
    rw [cons_append, scanWord_open hc, ih (push_eq_iff.mp hw)]
    rfl
  | case5 quote c hen hcl ho =>
    obtain rfl : quote = 0 := beq_iff_eq.mp (congrArg closed hw)
    rw [singleton_append, scanWord_cons hen hcl ho fun e he => ?_, scanWord_end hd.endsWord]
    · rfl
    · obtain rfl := some.inj he
      exact not_escaped_of_isspace hd.isspace
  | case6 quote c hen hcl ho e s hb ih =>
    rw [cons_append, cons_append, scanWord.eq_def]
    dsimp only
    rw [if_neg hen, if_neg hcl, if_neg ho, if_pos hb, ih (push_eq_iff.mp hw)]
    rfl
  | case7 quote c hen hcl ho e s hb ih =>
    rw [cons_append, scanWord_cons hen hcl ho fun e' he => ?_, ih (push_eq_iff.mp hw)]
    · rfl
    · obtain rfl := some.inj he
      exact hb

theorem scanWord_space (hq : IsQuote quote) (hsp : ∀ d ∈ sp, isspace d)
    (h : scanWord multi quote sp = ⟨true, sp, []⟩) : quote = 0 := by
  induction sp with
  | nil => exact beq_iff_eq.mp (congrArg closed h)
  | cons d sp ih =>
    by_contra hz
    have hd : isspace d := hsp d (.head _)
    have hc : ¬ (quote ≠ 0 ∧ d = quote) := by
      rintro ⟨-, rfl⟩
      refine absurd hd ?_
      rcases hq.resolve_left hz with rfl | rfl <;> decide
    rw [scanWord_cons (fun h => hz h.1) hc (fun h => hz h.1) fun e he => ?_] at h
    · exact hz (ih (forall_mem_cons.mp hsp).2 (push_eq_iff.mp h))
    · exact not_escaped_of_isspace (hsp e (.tail _ (mem_of_mem_head? he)))

/-- White space at the end of a word is outside of quotes. -/
theorem scanWord_strip (hq : IsQuote quote) (hsp : ∀ d ∈ sp, isspace d)
    (h : scanWord multi quote (w ++ sp) = ⟨true, w ++ sp, []⟩) :
    scanWord multi quote w = ⟨true, w, []⟩ := by
  fun_induction scanWord multi quote w with
  | case1 quote => rw [scanWord_space hq hsp h, beq_self_eq_true]
  | case2 quote c s hen =>
    obtain ⟨rfl, hen⟩ := hen
    rw [cons_append, scanWord_end hen] at h
    cases congrArg Scan.word h
  | case3 quote c s hen hcl ih =>
    obtain ⟨hc, rfl⟩ := hcl
    rw [cons_append, scanWord_close hc] at h
    rw [ih (.inl rfl) (push_eq_iff.mp h)]
    rfl
  | case4 quote c s hen hcl ho ih =>
    obtain ⟨rfl, hc⟩ := ho
    rw [cons_append, scanWord_open hc] at h
    rw [ih (.inr (isQuote_iff.mp hc).symm) (push_eq_iff.mp h)]
    rfl
  | case5 quote c hen hcl ho =>
    rw [singleton_append, scanWord_cons hen hcl ho fun e he => ?_] at h
    · rw [scanWord_space hq hsp (push_eq_iff.mp h), beq_self_eq_true]
    · exact not_escaped_of_isspace (hsp e (mem_of_mem_head? he))
  | case6 quote c hen hcl ho e s hb ih =>
    rw [cons_append, cons_append, scanWord.eq_def] at h
    dsimp only at h
    rw [if_neg hen, if_neg hcl, if_neg ho, if_pos hb] at h
    rw [ih hq (push_eq_iff.mp h)]
    rfl
  | case7 quote c hen hcl ho e s hb ih =>
    rw [cons_append, scanWord_cons hen hcl ho fun e' he => ?_] at h
    · rw [ih hq (push_eq_iff.mp h)]
      rfl
    · obtain rfl := some.inj he
      exact hb

/-! ### Words -/

/-- The text of a word. -/
structure IsWord (multi : Bool) (w : Bytes) : Prop where
  scan : scanWord multi 0 w = ⟨true, w, []⟩
  start : ∃ c s, w = c :: s ∧ isspace c = false ∧ isOperator multi c = false

theorem IsWord.ne_nil (h : IsWord multi w) : w ≠ [] := by
  obtain ⟨c, s, rfl, -⟩ := h.start
  exact cons_ne_nil c s

theorem IsWord.getSym_append (h : IsWord multi w) (hd : IsBlank d) (rest : Bytes) :
    getSym multi (w ++ d :: rest) = ⟨.word, w, d :: rest⟩ := by
  obtain ⟨c, s, rfl, hsp, hop⟩ := h.start
  have hdr : ((c :: s) ++ d :: rest).dropWhile isspace = c :: (s ++ d :: rest) :=
    dropWhile_cons_of_neg (by rw [hsp]; exact false_ne_true)
  have hs := scanWord_append h.scan hd rest
  rw [cons_append] at hs
  rw [getSym_start hop hdr, hs]
  rfl

theorem IsWord.getSym_self (h : IsWord multi w) : getSym multi w = ⟨.word, w, []⟩ := by
  obtain ⟨c, s, rfl, hs, hop⟩ := h.start
  have hd : (c :: s).dropWhile isspace = c :: s :=
    dropWhile_cons_of_neg (by rw [hs]; exact false_ne_true)
  rw [getSym_start hop hd, h.scan]
  rfl

theorem isspace_of_endsWord (hop : isOperator multi c = false) (h : endsWord multi c) :
    IsBlank c := by
  simp only [isOperator, or_eq_false_iff, beq_eq_false_iff_ne] at hop
  simp only [endsWord, text, or_eq_true] at h
  rcases h with h | h
  · simp at h
    tauto
  · rw [h] at hop
    cases hop.2

theorem getSym_space (hd : isspace d) : getSym multi (d :: bytes) = getSym multi bytes := by
  rw [getSym, getSym, dropWhile_cons_of_pos hd]

theorem head_of_dropWhile (hd : bytes.dropWhile isspace = c :: s) : isspace c = false := by
  have hh := head?_dropWhile_not isspace bytes
  rw [hd] at hh
  simpa using hh

/-- What `get_sym` finds before a word that it returns. -/
theorem getSym_eq_word (h : getSym multi bytes = ⟨.word, w, rest⟩) :
    IsWord multi w ∧ w ++ rest = bytes.dropWhile isspace ∧
      ∀ d ∈ rest.head?, endsWord multi d := by
  cases hd : bytes.dropWhile isspace with
  | nil =>
    rw [getSym, hd] at h
    cases h
  | cons c s =>
    have hs := head_of_dropWhile hd
    have hop : isOperator multi c = false := by
      by_contra hop
      rw [not_eq_false, isOperator, or_eq_true, or_eq_true, or_eq_true,
        beq_iff_eq, beq_iff_eq, beq_iff_eq, and_eq_true, beq_iff_eq] at hop
      rw [getSym, hd] at h
      dsimp only at h
      rcases hop with ((rfl | rfl) | rfl) | ⟨rfl, rfl⟩
      · cases h
      · rw [if_pos rfl] at h
        split_ifs at h
        all_goals cases h
      · cases h
      · cases h
    rw [getSym_start hop hd] at h
    obtain ⟨hsym, rfl, rfl⟩ := Lexeme.mk.inj h
    have hc : (scanWord multi 0 (c :: s)).closed := by
      by_contra ho
      rw [if_neg ho] at hsym
      cases hsym
    obtain ⟨ha, hb, hal⟩ := scanWord_ended hc
    refine ⟨⟨hal, ?_⟩, ha, hb⟩
    cases hw : (scanWord multi 0 (c :: s)).word with
    | nil =>
      rw [hw, nil_append] at ha
      have he := hb c (by rw [ha]; rfl)
      rw [(isspace_of_endsWord hop he).isspace] at hs
      cases hs
    | cons e t =>
      rw [hw] at ha
      obtain rfl : e = c := (cons.inj ha).1
      exact ⟨e, t, rfl, hs, hop⟩

/-- Words with white space between them. -/
inductive Joined (multi : Bool) : Bytes → List Bytes → Prop
  | nil : Joined multi [] []
  | last {w : Bytes} (hw : IsWord multi w) : Joined multi w [w]
  | cons {w : Bytes} {d : UInt8} {pre v : Bytes} {args : List Bytes} (hw : IsWord multi w)
      (hd : IsBlank d) (h : Joined multi pre (v :: args)) :
      Joined multi (w ++ d :: pre) (w :: v :: args)

variable {args : List Bytes}

theorem Joined.snoc (h : Joined multi pre (v :: args))
    (hd : IsBlank d) (hw : IsWord multi w) : Joined multi (pre ++ d :: w) (v :: args ++ [w]) := by
  generalize hl : v :: args = l at h
  induction h generalizing v args with
  | nil => cases hl
  | last hv => exact .cons hv hd (.last hw)
  | cons hv hd' hr ih =>
    rw [append_assoc]
    exact .cons hv hd' (ih rfl)

variable {pre b a : Bytes}

theorem Joined.eq_nil (h : Joined multi pre []) : pre = [] := by
  cases h
  rfl

theorem Joined.ne_nil (h : Joined multi pre (v :: args)) : pre ≠ [] := by
  cases h with
  | last hw => exact hw.ne_nil
  | cons hw hd h => exact append_ne_nil_of_left_ne_nil hw.ne_nil _

/-- **`plainsystem` finds the words** again. -/
theorem Joined.loop_eq (h : Joined multi pre args) {fuel : ℕ}
    (hf : pre.length ≤ fuel) : plainLoop multi fuel pre = some args := by
  induction h generalizing fuel with
  | nil => cases fuel <;> rfl
  | @last w hw =>
    have hpos := length_pos_iff.mpr hw.ne_nil
    obtain ⟨fuel, rfl⟩ := Nat.exists_eq_succ_of_ne_zero (n := fuel) (by omega)
    have hend : plainLoop multi fuel [] = some [] := by cases fuel <;> rfl
    rw [plainLoop, if_neg hw.ne_nil, hw.getSym_self]
    rw [if_pos rfl, hend]
    rfl
  | @cons w d pre v args hw hd h ih =>
    rw [length_append, length_cons] at hf
    obtain ⟨fuel, rfl⟩ := Nat.exists_eq_succ_of_ne_zero (n := fuel) (by omega)
    have hpos := length_pos_iff.mpr hw.ne_nil
    -- the byte of white space is skipped with the next word
    have hr : plainLoop multi fuel (d :: pre) = plainLoop multi fuel pre := by
      obtain ⟨fuel, rfl⟩ := Nat.exists_eq_succ_of_ne_zero (n := fuel) (by omega)
      rw [plainLoop, plainLoop, if_neg (cons_ne_nil d pre), if_neg h.ne_nil,
        getSym_space hd.isspace]
    rw [plainLoop, if_neg (append_ne_nil_of_left_ne_nil hw.ne_nil _), hw.getSym_append hd]
    rw [if_pos rfl, hr, ih (by omega)]
    rfl

theorem Joined.words_eq (h : Joined multi pre args) :
    plainWords multi pre = some args := h.loop_eq le_rfl

/-! ### The end of a command -/

open World (stripEnd)

theorem stripEnd_append (bytes : Bytes) :
    ∃ sp, bytes = stripEnd bytes ++ sp ∧ ∀ d ∈ sp, isspace d := by
  refine ⟨bytes.rtakeWhile isspace, ?_, fun d hd => mem_rtakeWhile_imp hd⟩
  rw [stripEnd, rdropWhile, rtakeWhile, ← reverse_append,
    takeWhile_append_dropWhile, reverse_reverse]

theorem stripEnd_append_of_ne_nil (h : stripEnd b ≠ []) : stripEnd (a ++ b) = a ++ stripEnd b := by
  have hb : ¬ (b.reverse.dropWhile isspace).isEmpty := by
    intro hnil
    rw [stripEnd, rdropWhile, isEmpty_iff.mp hnil] at h
    exact h rfl
  rw [stripEnd, stripEnd, rdropWhile, rdropWhile, reverse_append,
    dropWhile_append, if_neg hb, reverse_append, reverse_reverse]

theorem IsWord.strip (h : IsWord multi w) : IsWord multi (stripEnd w) := by
  obtain ⟨c, s, hw, hs, hop⟩ := h.start
  obtain ⟨sp, hsp, hall⟩ := stripEnd_append w
  have hsc := h.scan
  constructor
  · rw [hsp] at hsc
    exact scanWord_strip (.inl rfl) hall hsc
  cases hst : stripEnd w with
  | nil =>
    rw [hst, nil_append] at hsp
    have hc := hall c (by rw [← hsp, hw]; exact .head _)
    rw [hs] at hc
    cases hc
  | cons e t =>
    rw [hst, hw] at hsp
    obtain rfl : c = e := (cons.inj hsp).1
    exact ⟨c, t, rfl, hs, hop⟩

theorem Joined.strip (h : Joined multi pre args) :
    Joined multi (stripEnd pre) (stripLast args) := by
  induction h with
  | nil => exact .nil
  | last hw => exact .last hw.strip
  | @cons w d pre v args hw hd h ih =>
    have hl : ∃ v' args', stripLast (v :: args) = v' :: args' := by
      cases args <;> exact ⟨_, _, rfl⟩
    obtain ⟨v', args', ha⟩ := hl
    rw [ha] at ih
    have hc : stripEnd (w ++ d :: pre) = w ++ d :: stripEnd pre := by
      have hpre : w ++ d :: pre = w ++ [d] ++ pre := by rw [append_assoc, singleton_append]
      rw [hpre, stripEnd_append_of_ne_nil ih.ne_nil, append_assoc, singleton_append]
    have hs : stripLast (w :: v :: args) = w :: stripLast (v :: args) := rfl
    rw [hc, hs, ha]
    exact .cons hw hd ih

end Shell
