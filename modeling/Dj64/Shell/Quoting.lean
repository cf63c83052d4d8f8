import Dj64.Shell.Commands

/-!
# One meaning of quoting

`__unquote` removes the quotes from the names of programs and files, and `parse_arg` from arguments.
-/

namespace Shell

open Exec List Nat Option Bool

variable {multi : Bool} {quote c d : UInt8} {s w : Bytes}

/-! ### The loop of `__unquote` -/

def isEscaped (multi : Bool) (d : UInt8) : Bool := isQuote d || (multi && d == 59)

theorem isEscaped_iff : isEscaped multi d ↔ isQuote d ∨ multi ∧ d = 59 := by
  simp [isEscaped]

theorem unquoteLoop_quote (hc : isQuote c) : unquoteLoop multi quote (c :: s) =
      unquoteLoop multi (if quote = 0 then c else if quote = c then 0 else quote) s := by
  rw [unquoteLoop.eq_def]
  exact if_pos hc

theorem unquoteLoop_pair (hd : isEscaped multi d) :
    unquoteLoop multi quote (backslash :: d :: s) = d :: unquoteLoop multi quote s := by
  rw [unquoteLoop.eq_def]
  dsimp only
  rw [if_neg (by decide), if_pos ⟨rfl, isEscaped_iff.mp hd⟩]

theorem unquoteLoop_cons (hc : isQuote c = false)
    (hb : ∀ d ∈ s.head?, c = backslash → isEscaped multi d = false) :
    unquoteLoop multi quote (c :: s) = c :: unquoteLoop multi quote s := by
  rw [unquoteLoop.eq_def]
  dsimp only
  rw [if_neg (eq_false_iff.mp hc)]
  cases s with
  | nil => rfl
  | cons d s =>
    refine if_neg fun h => ?_
    exact false_ne_true ((hb d rfl h.1).symm.trans (isEscaped_iff.mpr h.2))

/-! ### Words -/

/-- The word has no white space outside of quotes, no quote of the other kind inside of quotes, and
no `\;` if `__unquote` takes its backslash away. -/
def Uniform (multi : Bool) : UInt8 → Bytes → Bool
  | _, [] => true
  | quote, c :: s =>
    if isQuote c then
      if quote = 0 then Uniform multi c s else if quote = c then Uniform multi 0 s else false
    else if quote = 0 ∧ isspace c then false
    else
      match s with
      | [] => true
      | d :: s' =>
        if c = backslash ∧ isQuote d then Uniform multi quote s'
        else if c = backslash ∧ multi ∧ d = 59 then false
        else Uniform multi quote (d :: s')

/-- The texts of a word: `p` is what `parse_arg` makes of it and what it leaves, and `u` what
`__unquote` does. -/
structure Compared (uniform : Bool) (p : Arg × Bytes) (u : Bytes) : Prop where
  space : ∀ r ∈ p.2.head?, isspace r = true ∧ p.1.arg.count r < u.count r
  le : p.2 = [] → u.length ≤ p.1.arg.length
  lt : p.2 = [] → uniform = false → u.length < p.1.arg.length
  eq : uniform = true → p.2 = [] ∧ u = p.1.arg

variable {uniform : Bool} {p : Arg × Bytes} {u : Bytes}

theorem Compared.iff (h : Compared uniform p u) : u = p.1.arg ↔ uniform := by
  constructor
  · rintro rfl
    cases hp : p.2 with
    | cons r rest => exact absurd (h.space r (by rw [hp]; rfl)).2 (lt_irrefl _)
    | nil =>
      cases hu : uniform with
      | true => rfl
      | false => exact absurd (h.lt hp hu) (lt_irrefl _)
  · exact fun hu => (h.eq hu).2

theorem compared_nil : Compared true (⟨[], false⟩, []) [] :=
  ⟨nofun, fun _ => le_rfl, nofun, fun _ => ⟨rfl, rfl⟩⟩

theorem Compared.push
    (h : Compared uniform p u) (bs : Bytes) (mark : Bool) : Compared uniform (pushArg bs mark p)
    (bs ++ u) where
  space r hr := by
    obtain ⟨hs, hlt⟩ := h.space r hr
    refine ⟨hs, ?_⟩
    rw [pushArg, count_append, count_append]
    omega
  le hp := by
    have hle := h.le hp
    rw [pushArg, length_append, length_append]
    omega
  lt hp hu := by
    have hlt := h.lt hp hu
    rw [pushArg, length_append, length_append]
    omega
  eq hu := by
    obtain ⟨hp, rfl⟩ := h.eq hu
    exact ⟨hp, rfl⟩

theorem Compared.drop (h : Compared uniform p u)
    (hc : isspace c = false) (mark : Bool) : Compared false (pushArg [c] mark p) u where
  space r hr := by
    obtain ⟨hs, hlt⟩ := h.space r hr
    have hne : c ≠ r := by
      rintro rfl
      rw [hc] at hs
      cases hs
    refine ⟨hs, ?_⟩
    rw [pushArg, singleton_append, count_cons_of_ne hne]
    exact hlt
  le hp := (h.le hp).trans (le_succ _)
  lt hp _ := lt_succ_of_le (h.le hp)
  eq := nofun

theorem compared_space (hc : isspace c) (u : Bytes) :
    Compared false (parseArg true 0 (c :: s)) (c :: u) := by
  have hp : parseArg true 0 (c :: s) = (⟨[], false⟩, c :: s) := by
    rw [parseArg.eq_def]
    exact if_pos ⟨rfl, hc⟩
  rw [hp]
  refine ⟨fun r hr => ?_, by rintro ⟨⟩, by rintro ⟨⟩, by rintro ⟨⟩⟩
  obtain rfl : c = r := some.inj hr
  refine ⟨hc, ?_⟩
  rw [count_nil, count_cons_self]
  exact succ_pos _

theorem not_close (hq : IsQuote quote) (hc : ¬ isQuote c) : ¬ (quote ≠ 0 ∧ c = quote) := by
  rintro ⟨hz, rfl⟩
  exact hc (isQuote_iff.mpr (hq.resolve_left hz).symm)

/-- The two readers of a word, from an open quote on. -/
theorem compared (hq : IsQuote quote) (h0 : 0 ∉ w) :
    Compared (Uniform multi quote w) (parseArg true quote w) (unquoteLoop multi quote w) := by
  fun_induction unquoteLoop multi quote w with
  | case1 quote => exact compared_nil
  | case2 quote c s hc ih =>
    have h0s : 0 ∉ s := fun h => h0 (.tail _ h)
    have hcq : IsQuote c := .inr (isQuote_iff.mp hc).symm
    rw [Uniform.eq_def]
    dsimp only
    rw [if_pos hc]
    by_cases hz : quote = 0
    · subst hz
      rw [parseArg_open hc]
      exact (ih hcq h0s).push [] false
    simp only [if_neg hz] at ih ⊢
    by_cases hcl : quote = c
    · subst hcl
      simp only [if_true] at ih ⊢
      rw [parseArg_close hz]
      exact (ih (.inl rfl) h0s).push [] false
    -- a quote of the other kind is left out by one reader only
    simp only [if_neg hcl] at ih ⊢
    have hb : c ≠ backslash := by
      rintro rfl
      cases hc
    rw [parseArg_cons (fun h => hz h.1) (fun h => hcl h.2.symm) (fun h => hz h.1)
      fun _ _ h => hb h.1]
    exact (ih hq h0s).drop (isspace_of_isQuote hc) _
  | case3 quote c hc =>
    rw [Uniform.eq_def]
    dsimp only
    rw [if_neg hc]
    by_cases hs : quote = 0 ∧ isspace c
    · obtain ⟨rfl, hs⟩ := hs
      rw [if_pos ⟨rfl, hs⟩]
      exact compared_space hs []
    · have hn : ∀ d ∈ ([] : Bytes).head?, ¬ (c = backslash ∧ isQuoteOrNul d) := nofun
      rw [if_neg hs, parseArg_cons hs (not_close hq hc) (fun h => hc h.2) hn]
      exact compared_nil.push [c] _
  | case4 quote c hc d s hb ih =>
    obtain ⟨rfl, hd⟩ := hb
    have h0s : 0 ∉ s := fun h => h0 (.tail _ (.tail _ h))
    have hs : ¬ (quote = 0 ∧ isspace backslash) := fun h => absurd h.2 (by decide)
    rw [Uniform.eq_def]
    dsimp only
    rw [if_neg hc, if_neg hs]
    by_cases hqu : isQuote d
    · rw [if_pos ⟨rfl, hqu⟩, parseArg_pair hq hqu]
      exact (ih hq h0s).push [d] false
    -- `parse_arg` keeps the backslash in front of a semicolon
    obtain ⟨hm, rfl⟩ := hd.resolve_left hqu
    have hb : ∀ e ∈ (59 :: s).head?, ¬ (backslash = backslash ∧ isQuoteOrNul e) := by
      rintro e he ⟨-, hnul⟩
      obtain rfl : 59 = e := some.inj he
      cases hnul
    rw [if_neg fun h => hqu h.2, if_pos ⟨rfl, hm, rfl⟩,
      parseArg_cons hs (not_close hq hc) (fun h => hc h.2) hb,
      parseArg_cons (fun h => absurd h.2 (by decide)) (not_close hq hqu) (fun h => hqu h.2)
        fun _ _ h => absurd h.1 (by decide)]
    exact ((ih hq h0s).push [59] _).drop rfl _
  | case5 quote c hc d s hb ih =>
    have h0s : 0 ∉ d :: s := fun h => h0 (.tail _ h)
    rw [Uniform.eq_def]
    dsimp only
    rw [if_neg hc]
    by_cases hs : quote = 0 ∧ isspace c
    · obtain ⟨rfl, hs⟩ := hs
      rw [if_pos ⟨rfl, hs⟩]
      exact compared_space hs _
    have hp : ∀ e ∈ (d :: s).head?, ¬ (c = backslash ∧ isQuoteOrNul e) := by
      rintro e he ⟨hc', hnul⟩
      obtain rfl : d = e := some.inj he
      rw [isQuoteOrNul_eq fun h => h0s (h ▸ .head _)] at hnul
      exact hb ⟨hc', .inl hnul⟩
    rw [if_neg hs, if_neg fun h => hb ⟨h.1, .inl h.2⟩, if_neg fun h => hb ⟨h.1, .inr h.2⟩,
      parseArg_cons hs (not_close hq hc) (fun h => hc h.2) hp]
    exact (ih hq h0s).push [c] _

/-- **Names and arguments.** `__unquote` and `parse_arg` make the same text of a word exactly if it
is `Uniform`. -/
theorem unquote_eq_parseArg_iff (h0 : 0 ∉ w) :
    unquote multi w = (parseArg true 0 w).1.arg ↔ Uniform multi 0 w :=
  (compared (.inl rfl) h0).iff

/-! ### Backslashes in front of special characters -/

/-- The characters that are escaped: at least those that mean something to `__unquote`. -/
structure Specials (multi : Bool) where
  special : UInt8 → Bool
  escaped : ∀ c, isEscaped multi c = true → special c = true
  special_backslash : special backslash = true

def Specials.escape (sp : Specials multi) (s : Bytes) : Bytes :=
  s.flatMap fun c => if sp.special c then [backslash, c] else [c]

/-- What `__unquote` makes of it. -/
def Specials.unescaped (sp : Specials multi) (s : Bytes) : Bytes :=
  s.flatMap fun c => if sp.special c && !isEscaped multi c then [backslash, c] else [c]

theorem Specials.head_escape (sp : Specials multi) (s : Bytes) :
    ∀ d ∈ (sp.escape s).head?, isEscaped multi d = false := by
  intro d hd
  cases s with
  | nil => cases hd
  | cons c s =>
    rw [escape, flatMap_cons] at hd
    cases hc : sp.special c with
    | true =>
      rw [hc] at hd
      obtain rfl : backslash = d := some.inj hd
      cases multi <;> rfl
    | false =>
      rw [hc] at hd
      obtain rfl : c = d := some.inj hd
      by_contra h
      rw [sp.escaped c (eq_true_of_not_eq_false h)] at hc
      cases hc

theorem not_isQuote_of_not_isEscaped (h : isEscaped multi c = false) : isQuote c = false := by
  rw [isEscaped, or_eq_false_iff] at h
  exact h.1

theorem Specials.unquoteLoop_escape (sp : Specials multi) (s : Bytes) :
    unquoteLoop multi quote (sp.escape s) = sp.unescaped s := by
  induction s with
  | nil => rw [escape, flatMap_nil]; rfl
  | cons c s ih =>
    have hh := sp.head_escape s
    rw [escape, unescaped, flatMap_cons, flatMap_cons]
    change unquoteLoop multi quote (_ ++ sp.escape s) = _ ++ sp.unescaped s
    cases hc : isEscaped multi c with
    | true =>
      rw [sp.escaped c hc, if_pos rfl, if_neg (by simp), cons_append, singleton_append,
        unquoteLoop_pair hc, ih]
      rfl
    | false =>
      have hq := not_isQuote_of_not_isEscaped hc
      have hco : unquoteLoop multi quote (c :: sp.escape s) = c :: sp.unescaped s := by
        rw [unquoteLoop_cons hq fun d hd _ => hh d hd, ih]
      cases hs : sp.special c with
      | true =>
        -- the backslash stays
        have hb : ∀ d ∈ (c :: sp.escape s).head?, backslash = backslash →
            isEscaped multi d = false := by
          intro d hd _
          rw [← some.inj hd]
          exact hc
        rw [if_pos rfl, cons_append, singleton_append, unquoteLoop_cons rfl hb, hco]
        rfl
      | false =>
        rw [if_neg Bool.false_ne_true, if_neg (by simp), singleton_append, hco]
        rfl

theorem Specials.length_unescaped (sp : Specials multi) (s : Bytes) :
    (sp.unescaped s).length = s.length + s.countP fun c => sp.special c && !isEscaped multi c := by
  induction s with
  | nil => rfl
  | cons c s ih =>
    rw [unescaped, flatMap_cons, length_append, length_cons, countP_cons]
    change _ + (sp.unescaped s).length = _
    split_ifs <;> simp <;> omega

/-- **Escapes.** A text comes back exactly if every special character in it takes its backslash
away. -/
theorem Specials.unquote_escape_iff (sp : Specials multi) (s : Bytes) :
    unquote multi (sp.escape s) = s ↔ ∀ c ∈ s, sp.special c → isEscaped multi c := by
  rw [unquote, sp.unquoteLoop_escape]
  constructor
  · intro heq c hc hs
    have hl := sp.length_unescaped s
    rw [heq, left_eq_add, countP_eq_zero] at hl
    have hnot := hl c hc
    rw [hs] at hnot
    simpa using hnot
  intro h
  have hsi : ∀ c ∈ s, (if sp.special c && !isEscaped multi c then [backslash, c] else
    [c]) = [c] := by
    intro c hc
    refine if_neg fun hand => ?_
    rw [and_eq_true, not_eq_true'] at hand
    exact false_ne_true (hand.2.symm.trans (h c hc hand.1))
  rw [unescaped, flatMap_congr hsi]
  exact flatMap_singleton' s

/-! ### Double quotes -/

/-- A text in double quotes, with its double quotes and backslashes escaped. -/
def inDoubleQuotes (s : Bytes) : Bytes :=
  [doubleQuote] ++ (s.flatMap fun c => if c = doubleQuote ∨ c = backslash then
    [backslash, c] else [c]) ++
    [doubleQuote]

/-- What `__unquote` makes of it. -/
def requoted (multi : Bool) : Bytes → Bytes
  | [] => []
  | c :: s =>
    if c = singleQuote then requoted multi s
    else if c = backslash then
      match s with
      | [] => [backslash, doubleQuote]
      | d :: s' =>
        if d = singleQuote ∨ multi ∧ d = 59 then backslash :: d :: requoted multi s'
        else backslash :: backslash :: requoted multi (d :: s')
    else c :: requoted multi s

/-- Every backslash stands in front of a single quote, or of a semicolon if `__unquote` takes the
backslash in front of it away; and there are no other single quotes. -/
def DoubleQuotable (multi : Bool) : Bytes → Bool
  | [] => true
  | c :: s =>
    if c = singleQuote then false
    else if c = backslash then
      match s with
      | [] => false
      | d :: s' => if d = singleQuote ∨ multi ∧ d = 59 then DoubleQuotable multi s' else false
    else DoubleQuotable multi s

/-- The rest of the text, up to the closing quote. -/
def quotedRest (s : Bytes) : Bytes :=
  (s.flatMap fun c => if c = doubleQuote ∨ c = backslash then [backslash, c] else [c])
    ++ [doubleQuote]

theorem quotedRest_cons :
    quotedRest (c :: s) = (if c = doubleQuote ∨ c = backslash then [backslash, c] else [c]) ++
      quotedRest s := by
  rw [quotedRest, flatMap_cons, append_assoc, quotedRest]

theorem isEscaped_backslash : isEscaped multi backslash = false := by
  cases multi <;> rfl

theorem unquoteLoop_backslash : unquoteLoop multi quote (backslash :: backslash :: s) =
      backslash :: unquoteLoop multi quote (backslash :: s) := by
  refine unquoteLoop_cons rfl fun d hd _ => ?_
  rw [← some.inj hd]
  exact isEscaped_backslash

theorem head_quotedRest (hd : ¬ (d = singleQuote ∨ multi ∧ d = 59)) :
    ∀ e ∈ (quotedRest (d :: s)).head?, isEscaped multi e = false := by
  intro e he
  rw [quotedRest_cons] at he
  by_cases hes : d = doubleQuote ∨ d = backslash
  · rw [if_pos hes] at he
    rw [← some.inj he]
    exact isEscaped_backslash
  rw [if_neg hes] at he
  rw [← some.inj he, eq_false_iff, Ne, isEscaped_iff, isQuote_iff]
  rintro ((hdo | hs) | hse)
  · exact hes (.inl hdo)
  · exact hd (.inl hs)
  · exact hd (.inr hse)

theorem unquoteLoop_quotedRest :
    unquoteLoop multi doubleQuote (quotedRest s) = requoted multi s := by
  fun_induction requoted multi s with
  | case1 => rfl
  | case2 s ih =>
    rw [quotedRest_cons, if_neg (by decide), singleton_append, unquoteLoop_quote rfl]
    exact ih
  | case3 hc => cases multi <;> rfl
  | case4 d s hd hc ih =>
    have ho : ¬ (d = doubleQuote ∨ d = backslash) := by
      rcases hd with rfl | ⟨-, rfl⟩
      all_goals decide
    have hes : isEscaped multi d := by
      rw [isEscaped_iff, isQuote_iff]
      exact hd.imp .inr id
    rw [quotedRest_cons, if_pos (.inr rfl), quotedRest_cons, if_neg ho, cons_append,
      singleton_append, singleton_append, unquoteLoop_backslash, unquoteLoop_pair hes,
      ih]
  | case5 d s hd hc ih =>
    rw [quotedRest_cons, if_pos (.inr rfl), cons_append, singleton_append,
      unquoteLoop_backslash, unquoteLoop_cons rfl fun e he _ => head_quotedRest hd e he, ih]
  | case6 c s hs hb ih =>
    rw [quotedRest_cons]
    by_cases hdo : c = doubleQuote
    · rw [if_pos (.inl hdo), cons_append, singleton_append,
        unquoteLoop_pair (isEscaped_iff.mpr (.inl (isQuote_iff.mpr (.inl hdo)))), ih]
    · have hq : isQuote c = false := by
        rw [eq_false_iff, Ne, isQuote_iff]
        exact fun h => h.elim hdo hs
      rw [if_neg fun h => h.elim hdo hb, singleton_append,
        unquoteLoop_cons hq fun _ _ h => absurd h hb, ih]

/-- What `__unquote` adds, less what it leaves out. -/
def surplus (s : Bytes) : ℤ := s.count backslash + s.count doubleQuote - s.count singleQuote

theorem surplus_cons (c : UInt8) (s : Bytes) :
    surplus (c :: s) =
      surplus s +
        (if c = backslash ∨ c = doubleQuote then 1 else if c = singleQuote then -1 else 0) := by
  simp only [surplus, count_cons, beq_iff_eq]
  by_cases hb : c = backslash
  · subst hb
    simp [show ¬ backslash = doubleQuote by decide, show ¬ backslash = singleQuote by decide]
    ring
  by_cases hd : c = doubleQuote
  · subst hd
    simp [show ¬ doubleQuote = backslash by decide, show ¬ doubleQuote = singleQuote by decide]
    ring
  by_cases hs : c = singleQuote
  · subst hs
    simp [show ¬ singleQuote = backslash by decide, show ¬ singleQuote = doubleQuote by decide]
    ring
  · simp [hb, hd, hs]

/-- Backslashes and double quotes are only added, and single quotes only left out. -/
theorem surplus_requoted (multi : Bool) (s : Bytes) :
    (DoubleQuotable multi s → requoted multi s = s) ∧
      surplus s ≤ surplus (requoted multi s) ∧
      (DoubleQuotable multi s = false → surplus s < surplus (requoted multi s)) := by
  fun_induction requoted multi s with
  | case1 => exact ⟨fun _ => rfl, le_rfl, nofun⟩
  | case2 s ih =>
    have hco : surplus (singleQuote :: s) = surplus s - 1 := surplus_cons singleQuote s
    rw [DoubleQuotable.eq_def]
    refine ⟨nofun, ?_, fun _ => ?_⟩
    all_goals have := ih.2.1; omega
  | case3 hc => exact ⟨nofun, by decide, fun _ => by decide⟩
  | case4 d s hd hc ih =>
    have hq : DoubleQuotable multi (backslash :: d :: s) = DoubleQuotable multi s := by
      rw [DoubleQuotable.eq_def]
      dsimp only
      rw [if_neg hc, if_pos rfl, if_pos hd]
    rw [hq]
    simp only [surplus_cons]
    exact ⟨fun h => by rw [ih.1 h], by have := ih.2.1; omega, fun h => by have := ih.2.2 h; omega⟩
  | case5 d s hd hc ih =>
    have hq : DoubleQuotable multi (backslash :: d :: s) = false := by
      rw [DoubleQuotable.eq_def]
      dsimp only
      rw [if_neg hc, if_pos rfl, if_neg hd]
    have hco : ∀ t : Bytes, surplus (backslash :: t) = surplus t + 1 := surplus_cons backslash
    rw [hq, hco, hco, hco]
    exact ⟨nofun, by have := ih.2.1; omega, fun _ => by have := ih.2.1; omega⟩
  | case6 c s hs hb ih =>
    have hq : DoubleQuotable multi (c :: s) = DoubleQuotable multi s := by
      rw [DoubleQuotable.eq_def]
      dsimp only
      rw [if_neg hs, if_neg hb]
    rw [hq, surplus_cons, surplus_cons]
    exact ⟨fun h => by rw [ih.1 h], by have := ih.2.1; omega, fun h => by have := ih.2.2 h; omega⟩

/-- **Double quotes.** A text comes back exactly if it is `DoubleQuotable`. -/
theorem unquote_inDoubleQuotes_iff (s : Bytes) :
    unquote multi (inDoubleQuotes s) = s ↔ DoubleQuotable multi s := by
  have hu : unquote multi (inDoubleQuotes s) = requoted multi s := by
    rw [unquote, inDoubleQuotes, append_assoc, singleton_append, unquoteLoop_quote rfl]
    exact unquoteLoop_quotedRest
  obtain ⟨ht, -, hf⟩ := surplus_requoted multi s
  rw [hu]
  constructor
  · intro heq
    cases hq : DoubleQuotable multi s with
    | true => rfl
    | false =>
      have hlt := hf hq
      rw [heq] at hlt
      exact absurd hlt (lt_irrefl _)
  · exact ht

/-- **One meaning of quoting.** `__unquote` and `parse_arg` make the same text of a word exactly if
it is `Uniform`; a text with its special characters escaped comes back exactly if they are all such
that `__unquote` takes the backslash away, and one in double quotes exactly if it is
`DoubleQuotable`. -/
theorem quoting_iff (multi : Bool) :
    (∀ w, 0 ∉ w → (unquote multi w = (parseArg true 0 w).1.arg ↔ Uniform multi 0 w = true)) ∧
      (∀ (sp : Specials multi) (s : Bytes), unquote multi (sp.escape s) = s ↔
        ∀ c ∈ s, sp.special c = true → isEscaped multi c = true) ∧
      ∀ s, unquote multi (inDoubleQuotes s) = s ↔ DoubleQuotable multi s = true :=
  ⟨fun _ => unquote_eq_parseArg_iff, fun sp => sp.unquote_escape_iff, unquote_inDoubleQuotes_iff⟩

/-- A word with both kinds of quotes and an escape. -/
theorem quoting_iff_mixed :
    unquote true (text "a\"b c\"'d'\\'") = (parseArg true 0 (text "a\"b c\"'d'\\'")).1.arg :=
  ((quoting_iff true).1 _ (by decide +kernel)).mpr (by decide +kernel)

/-- Quotes, backslashes, and semicolons if the flag is set. -/
def Specials.least (multi : Bool) : Specials multi where
  special c := isEscaped multi c || c == backslash
  escaped c hc := by rw [hc, Bool.true_or]
  special_backslash := by rw [beq_self_eq_true, Bool.or_true]

/-- An apostrophe in double quotes is left out of a name and stays in an argument, and a backslash
in front of a semicolon stays in an argument only; an apostrophe in double quotes and an escaped
backslash do not come back. -/
theorem quoting_differs : getSym true (text "\"it's\"") = ⟨.word, text "\"it's\"", []⟩ ∧
      unquote true (text "\"it's\"") = text "its" ∧
      (parseArg true 0 (text "\"it's\"")).1.arg = text "it's" ∧
    getSym true (text "a\\;b") = ⟨.word, text "a\\;b", []⟩ ∧
      unquote true (text "a\\;b") = text "a;b" ∧
      (parseArg true 0 (text "a\\;b")).1.arg = text "a\\;b" ∧
    unquote true (inDoubleQuotes (text "it's")) = text "its" ∧
    unquote true ((Specials.least true).escape (text "\\")) = text "\\\\" := by
  decide +kernel

end Shell
