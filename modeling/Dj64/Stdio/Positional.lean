import Dj64.Lib.Runs

/-!
# Numbered arguments of the formatter

A format may number its arguments: `%n$` is the conversion of argument `n`, and `*n$` a width or a
precision that is argument `n`.  `_doprnt` finds an argument with `__traverse_argument_list`, which
scans the format from its start, as often as it takes, and takes one argument off a list whenever it
meets the number it is waiting for.

The format is scanned a character at a time; a `Mode` says where in a directive the scan is.
Machine integers wrap around.

* `traverse`: the traversal, with a bound on the passes.
* `numbers`, `ending`: the numbers that a pass meets, and where it ends.
* `doprnt_returns_iff`: when every traversal ends inside of the format.
* `arguments_right_iff`: when every directive gets the arguments that it names.
-/

namespace Positional

open Runs List Nat

/-- Where a scan of the format is: outside of the directives, before a flag, in the digits after `%`
or after `*`, or behind a period. -/
inductive Mode
  | text
  | flag
  | digits (n : ℕ)
  | star (n : ℕ)
  | dot
  deriving DecidableEq

/-- One more digit of an `int`. -/
def digit (n : ℕ) (c : Char) : ℕ := (10 * n + (c.toNat - '0'.toNat)) % 2 ^ 32

/-! ### The formatter -/

/-- What `_doprnt` does with the arguments: it looks up a number, for the conversion or for a width
or a precision, it takes the next argument for a `*`, or the argument of a conversion. -/
inductive Action
  | index (n : ℕ)
  | numbered (n : ℕ)
  | star
  | convert (char : Bool)
  deriving DecidableEq

/-- The switch at `rflag` of `_doprnt`. -/
def switch (c : Char) : List Action × Mode :=
  if c ∈ "' #-+0Lhljzt".toList then ([], .flag)
  else if c = '*' then ([], .star 0)
  else if c = '.' then ([], .dot)
  else if c.isDigit then ([], .digits (digit 0 c))
  else if c = 'c' then ([.convert true], .text)
  else if c ∈ "DdiAEFGaefgnOopsUuXx".toList then ([.convert false], .text)
  else ([], .text)

/-- `_doprnt` at a character.  Digits that no `$` follows are read again as a width. -/
def scan : Mode → Char → List Action × Mode
  | .text, c => ([], if c = '%' then .flag else .text)
  | .flag, c => switch c
  | .digits n, c =>
    if c.isDigit then ([], .digits (digit n c)) else if c = '$' then ([.index n], .flag)
    else switch c
  | .star n, c =>
    if c.isDigit then ([], .star (digit n c)) else if c = '$' then ([.numbered n], .flag)
    else (.star :: (switch c).1, (switch c).2)
  | .dot, c => if c.isDigit then ([], .dot) else switch c

/-- What `_doprnt` does with the arguments, in the rest of a format. -/
def actions : Mode → List Char → List Action
  | .star _, [] => [.star]
  | _, [] => []
  | m, c :: fmt => (scan m c).1 ++ actions (scan m c).2 fmt

/-- The numbers that `_doprnt` looks up. -/
def lookups (fmt : List Char) : List ℕ :=
  (actions .text fmt).filterMap fun
    | .index n | .numbered n => some n
    | _ => none

/-! ### The traversal -/

/-- `arg_index` and `list_index`. -/
structure Place where
  argIndex : ℕ
  listIndex : ℕ
  deriving DecidableEq

/-- How a pass over the format ends: the traversal returns, it reads beyond the end of the format,
or it starts again. -/
inductive Outcome
  | returned (listIndex : ℕ)
  | overrun
  | wrapped (p : Place)
  deriving DecidableEq

section Traversal

variable (index : ℕ)

/-- The number `k` was read: nothing if the traversal returns. -/
def Place.meet (k : ℕ) (p : Place) : Option Place :=
  if k = index ∧ p.listIndex = index then none
  else if k = p.listIndex then some { p with listIndex := p.listIndex + 1 }
  else some p

/-- The switch of the traversal, as far as it moves in the format.  What follows digits or a period
is skipped, and a conversion leaves the scan where it is. -/
def Mode.next : Mode → Char → Mode
  | .text, c => if c = '%' then .flag else .text
  | .flag, c =>
    if c ∈ " #'-+htzLlj".toList then .flag
    else if c = '*' then .star 0
    else if c = '.' then .dot
    else if c.isDigit then .digits (digit 0 c)
    else if c = '%' then .flag
    else .text
  | .digits n, c => if c.isDigit then .digits (digit n c) else .flag
  | .star n, c => if c.isDigit then .star (digit n c) else .flag
  | .dot, c => if c = '*' then .star 0 else .flag

/-- What the traversal does with its indices at a character. -/
def Place.move (p : Place) : Mode → Char → Option Place
  | .digits n, c => if c.isDigit then some p else some { p with argIndex := n }
  | .star n, c => if c.isDigit then some p else p.meet index n
  | .flag, c => if c ∈ "cDdiAEFGaefgOUXouxnps".toList then p.meet index p.argIndex else some p
  | _, _ => some p

/-- The end of the format.  A directive that ends after digits or a period makes the scan go on
behind it. -/
def finish (p : Place) : Mode → Outcome
  | .text => .wrapped p
  | .flag => .returned p.listIndex
  | .star n => if (p.meet index n).isNone then .returned p.listIndex else .overrun
  | _ => .overrun

/-- The rest of a pass over the format. -/
def pass : Mode → Place → List Char → Outcome
  | m, p, [] => finish index p m
  | m, p, c :: fmt =>
    match p.move index m c with
    | none => .returned p.listIndex
    | some p => pass (m.next c) p fmt

variable (fmt : List Char)

/-- A pass that is not the first: the scan goes back to `fmt0` and takes its second character for
the first of a directive. -/
def round (p : Place) : Outcome :=
  match fmt with
  | [] => .overrun
  | _ :: fmt => pass index .flag p fmt

/-- `__traverse_argument_list`, as far as `k` passes after the first one take it.  The condition of
its loop, `list_index < index + 1`, fails at the start or never. -/
def traverse : ℕ → Outcome
  | 0 => if index = 0 ∨ 2 ^ 31 - 1 ≤ index then .returned 1 else pass index .text ⟨0, 1⟩ fmt
  | k + 1 =>
    match traverse k with
    | .wrapped p => round index fmt p
    | r => r

end Traversal

/-! ### The numbers of a pass -/

/-- The number that the traversal meets at a character. -/
def met : Mode → ℕ → Char → Option ℕ
  | .star n, _, c => if c.isDigit then none else some n
  | .flag, argIndex, c => if c ∈ "cDdiAEFGaefgOUXouxnps".toList then some argIndex else none
  | _, _, _ => none

/-- `arg_index` behind a character. -/
def nextIndex : Mode → ℕ → Char → ℕ
  | .digits n, argIndex, c => if c.isDigit then argIndex else n
  | _, argIndex, _ => argIndex

/-- The numbers that a pass meets in the rest of the format. -/
def numbers : Mode → ℕ → List Char → List ℕ
  | .star n, _, [] => [n]
  | _, _, [] => []
  | m, argIndex, c :: fmt =>
    (met m argIndex c).toList ++ numbers (m.next c) (nextIndex m argIndex c) fmt

/-- `arg_index` behind a pass. -/
def lastIndex : Mode → ℕ → List Char → ℕ
  | _, argIndex, [] => argIndex
  | m, argIndex, c :: fmt => lastIndex (m.next c) (nextIndex m argIndex c) fmt

/-- Where a pass ends. -/
def ending (m : Mode) (fmt : List Char) : Mode := fmt.foldl Mode.next m

/-- `list_index` behind some numbers, if nothing is looked for. -/
def awaited (listIndex : ℕ) (ks : List ℕ) : ℕ :=
  ks.foldl (fun l k => if k = l then l + 1 else l) listIndex

section Found

variable (fmt : List Char)

/-- The numbers of the first pass, of the second one, and of any later one. -/
def first : List ℕ := numbers .text 0 fmt

@[inherit_doc first]
def second : List ℕ := numbers .flag (lastIndex .text 0 fmt) fmt.tail

@[inherit_doc first]
def later : List ℕ :=
  numbers .flag (lastIndex .flag (lastIndex .text 0 fmt) fmt.tail) fmt.tail

/-- A number is found: at once, in the first pass or the second one, or because all numbers that are
waited for are in each later pass; or a pass ends inside of a directive. -/
def Found (n : ℕ) : Prop :=
  n = 0 ∨ 2 ^ 31 - 1 ≤ n ∨ n < awaited 1 (first fmt) ∨ ending .text fmt = .flag ∨
    ending .text fmt = .text ∧ (n < awaited 1 (first fmt ++ second fmt) ∨
      ending .flag fmt.tail = .flag ∨ ending .flag fmt.tail = .text ∧
        ∀ i ≤ n, awaited 1 (first fmt ++ second fmt) ≤ i → i ∈ later fmt)

instance : DecidablePred (Found fmt) := fun n => by
  unfold Found
  infer_instance

/-- `list_index` where the traversal stops. -/
def stopsAt (n : ℕ) : ℕ :=
  if n = 0 ∨ 2 ^ 31 - 1 ≤ n then 1
  else if ending .text fmt = .flag then min n (awaited 1 (first fmt))
  else if ending .flag fmt.tail = .flag then min n (awaited 1 (first fmt ++ second fmt))
  else n

end Found

variable {index k l i : ℕ} {ks ks' : List ℕ} {fmt : List Char} {m : Mode} {p : Place}

theorem awaited_append : awaited l (ks ++ ks') = awaited (awaited l ks) ks' := foldl_append

theorem le_awaited : l ≤ awaited l ks := by
  induction ks generalizing l with
  | nil => exact le_rfl
  | cons k ks ih =>
    rw [awaited, foldl_cons]
    split_ifs
    · exact (le_succ l).trans ih
    · exact ih

theorem lt_awaited (h : l ∈ ks) : l < awaited l ks := by
  induction ks with
  | nil => cases h
  | cons k ks ih =>
    rw [awaited, foldl_cons]
    by_cases hk : k = l
    · rw [if_pos hk]
      exact (lt_succ_self l).trans_le le_awaited
    · rw [if_neg hk]
      exact ih ((mem_cons.mp h).resolve_left (Ne.symm hk))

/-- A number that is not met is not passed. -/
theorem awaited_le (hl : l ≤ i) (h : i ∉ ks) : awaited l ks ≤ i := by
  induction ks generalizing l with
  | nil => exact hl
  | cons k ks ih =>
    rw [mem_cons, not_or] at h
    rw [awaited, foldl_cons]
    exact ih (by split_ifs <;> omega) h.2

/-- The outcome of a pass that has come to its end. -/
def Place.finished (index : ℕ) (p : Place) (m : Mode) : Outcome :=
  if index < p.listIndex then .returned index
  else match m with
    | .text => .wrapped p
    | .flag => .returned p.listIndex
    | _ => .overrun

theorem finished_of_lt (h : index < p.listIndex) : p.finished index m = .returned index := by
  unfold Place.finished
  exact if_pos h

/-- A pass is known from the numbers that it meets and from where it ends. -/
theorem pass_eq (h : p.listIndex ≤ index) : pass index m p fmt =
    Place.finished index ⟨lastIndex m p.argIndex fmt,
      awaited p.listIndex (numbers m p.argIndex fmt)⟩ (ending m fmt) := by
  induction fmt generalizing m p with
  | nil =>
    have hlt : ¬ index < p.listIndex := not_lt.mpr h
    cases m with
    | star n =>
      simp only [pass, finish, Place.meet, numbers, awaited, foldl_cons, foldl_nil, ending,
        Place.finished]
      split_ifs <;> simp_all
      omega
    | text | flag | digits n | dot =>
      simp [pass, finish, numbers, awaited, ending, lastIndex, Place.finished, hlt]
  | cons c fmt ih =>
    have hmove : p.move index m c = (met m p.argIndex c).elim
        (some { p with argIndex := nextIndex m p.argIndex c }) (p.meet index) := by
      cases m with
      | text | dot => rfl
      | flag | digits n | star n =>
        simp only [Place.move, met, nextIndex]
        split_ifs <;> rfl
    have hkeep (k : ℕ) (hk : met m p.argIndex c = some k) :
        nextIndex m p.argIndex c = p.argIndex := by
      cases m with
      | digits n => cases hk
      | text | flag | star n | dot => rfl
    have hnum : numbers m p.argIndex (c :: fmt) = (met m p.argIndex c).toList ++
        numbers (m.next c) (nextIndex m p.argIndex c) fmt := by
      cases m <;> rfl
    rw [pass, hmove, hnum, lastIndex, ending, foldl_cons, ← ending]
    cases hk : met m p.argIndex c with
    | none => exact ih h
    | some k =>
      rw [hkeep k hk, awaited_append]
      dsimp only [Option.elim_some, Place.meet, Option.toList_some, awaited, foldl_cons, foldl_nil]
      by_cases hr : k = index ∧ p.listIndex = index
      · -- the number that is looked for is passed
        rw [if_pos hr, if_pos (hr.1.trans hr.2.symm), ← awaited, hr.2]
        exact (finished_of_lt ((lt_succ_self index).trans_le le_awaited)).symm
      · rw [if_neg hr]
        split_ifs with hl
        · exact ih (by dsimp only; omega)
        · exact ih h

/-- A second pass over the format finds `arg_index` where it leaves it. -/
theorem lastIndex_lastIndex (m : Mode) (a : ℕ) (fmt : List Char) :
    lastIndex m (lastIndex m a fmt) fmt = lastIndex m a fmt := by
  have h : ∃ o : Option ℕ, ∀ a, lastIndex m a fmt = o.getD a := by
    induction fmt generalizing m with
    | nil => exact ⟨none, fun a => rfl⟩
    | cons c fmt ih =>
      obtain ⟨o, ho⟩ := ih (m.next c)
      obtain ⟨x, hx⟩ : ∃ x : Option ℕ, ∀ a, nextIndex m a c = x.getD a := by
        cases m with
        | digits n => exact ⟨if c.isDigit then none else some n, fun a => by
            rw [nextIndex]
            split_ifs <;> rfl⟩
        | text | flag | star n | dot => exact ⟨none, fun a => rfl⟩
      refine ⟨o.or x, fun a => ?_⟩
      rw [lastIndex, ho, hx]
      cases o <;> rfl
  obtain ⟨o, ho⟩ := h
  rw [ho, ho]
  cases o <;> rfl

theorem traverse_add {r : Outcome} (hr : traverse index fmt k = r)
    (hend : ∀ p, r = .wrapped p → round index fmt p = r) (d : ℕ) :
    traverse index fmt (k + d) = r := by
  induction d with
  | zero => exact hr
  | succ d ih =>
    rw [← add_assoc, traverse, ih]
    cases r with
    | wrapped p => exact hend p rfl
    | returned l => rfl
    | overrun => rfl

theorem traverse_mono {l k' : ℕ} (hr : traverse index fmt k = .returned l) (hk : k ≤ k') :
    traverse index fmt k' = .returned l := by
  obtain ⟨d, rfl⟩ := Nat.exists_eq_add_of_le hk
  exact traverse_add hr (fun p h => nomatch h) d

section

variable (hf : fmt ≠ [])
include hf

theorem round_eq (h : p.listIndex ≤ index) : round index fmt p =
    Place.finished index ⟨lastIndex .flag p.argIndex fmt.tail,
      awaited p.listIndex (numbers .flag p.argIndex fmt.tail)⟩ (ending .flag fmt.tail) := by
  cases fmt with
  | nil => exact absurd rfl hf
  | cons c fmt => exact pass_eq h

/-- Later passes all meet the same numbers: they come to a number if and only if all that are
waited for before are among them. -/
theorem later_passes (he : ending .flag fmt.tail = .text) (hp : traverse index fmt k = .wrapped p)
    (ha : lastIndex .flag p.argIndex fmt.tail = p.argIndex) (hl : p.listIndex ≤ index) :
    (∃ k', traverse index fmt k' = .returned index) ∨
      ∃ i ≤ index, p.listIndex ≤ i ∧ i ∉ numbers .flag p.argIndex fmt.tail := by
  induction hd : index - p.listIndex using Nat.strong_induction_on generalizing k p with
  | _ d ih =>
    by_cases hmem : p.listIndex ∈ numbers .flag p.argIndex fmt.tail
    · have hlt := lt_awaited hmem
      have hr := round_eq hf hl
      rw [he, ha] at hr
      have hnext : traverse index fmt (k + 1) = round index fmt p := by rw [traverse, hp]
      by_cases hin : index < awaited p.listIndex (numbers .flag p.argIndex fmt.tail)
      · exact .inl ⟨k + 1, hnext.trans (hr.trans (finished_of_lt hin))⟩
      · have hw : traverse index fmt (k + 1) =
            .wrapped ⟨p.argIndex, awaited p.listIndex (numbers .flag p.argIndex fmt.tail)⟩ := by
          rw [hnext, hr, Place.finished, if_neg hin]
        rcases ih _ (by dsimp only; omega) hw ha (by dsimp only; omega) rfl with
          h | ⟨i, hi, hle, hn⟩
        · exact .inl h
        · exact .inr ⟨i, hi, hlt.le.trans hle, hn⟩
    · exact .inr ⟨p.listIndex, hl, le_rfl, hmem⟩

/-- A number that no later pass meets stops the traversal for ever. -/
theorem later_passes_lost (he : ending .flag fmt.tail = .text)
    (hp : traverse index fmt k = .wrapped p)
    (ha : lastIndex .flag p.argIndex fmt.tail = p.argIndex) (hi : i ≤ index) (hl : p.listIndex ≤ i)
    (hn : i ∉ numbers .flag p.argIndex fmt.tail) (d : ℕ) :
    ∃ l ≤ i, traverse index fmt (k + d) = .wrapped ⟨p.argIndex, l⟩ := by
  induction d with
  | zero => exact ⟨p.listIndex, hl, hp⟩
  | succ d ih =>
    obtain ⟨l, hle, hw⟩ := ih
    have ht : traverse index fmt (k + (d + 1)) = round index fmt ⟨p.argIndex, l⟩ := by
      rw [← add_assoc, traverse, hw]
    have hr := round_eq (p := ⟨p.argIndex, l⟩) hf (hle.trans hi)
    have hle' := awaited_le hle hn
    rw [he, ha, Place.finished, if_neg (by dsimp only; omega)] at hr
    exact ⟨_, hle', ht.trans hr⟩

/-- A traversal ends where `stopsAt` says if and only if its number is found. -/
theorem traverse_cases (n : ℕ) :
    (Found fmt n ∧ ∃ k, traverse n fmt k = .returned (stopsAt fmt n)) ∨
      ¬ Found fmt n ∧ ∀ k l, traverse n fmt k ≠ .returned l := by
  by_cases h0 : n = 0 ∨ 2 ^ 31 - 1 ≤ n
  · refine .inl ⟨?_, 0, by rw [traverse, if_pos h0, stopsAt, if_pos h0]⟩
    rcases h0 with h0 | h0
    exacts [.inl h0, .inr (.inl h0)]
  have ht0 : traverse n fmt 0 =
      Place.finished n ⟨lastIndex .text 0 fmt, awaited 1 (first fmt)⟩ (ending .text fmt) := by
    rw [traverse, if_neg h0]
    exact pass_eq (p := ⟨0, 1⟩) (by dsimp only; omega)
  have hle : awaited 1 (first fmt) ≤ awaited 1 (first fmt ++ second fmt) := by
    rw [awaited_append]
    exact le_awaited
  by_cases h1 : n < awaited 1 (first fmt)
  · refine .inl ⟨.inr (.inr (.inl h1)), 0, ?_⟩
    rw [ht0, finished_of_lt h1, stopsAt, if_neg h0]
    split_ifs
    · rw [min_eq_left h1.le]
    · rw [min_eq_left (h1.le.trans hle)]
    · rfl
  have hover (k₀ : ℕ) (ho : traverse n fmt k₀ = .overrun)
      (hb : ∀ k < k₀, ∃ p, traverse n fmt k = .wrapped p) (k l : ℕ) :
      traverse n fmt k ≠ .returned l := by
    intro hk
    rcases lt_or_ge k k₀ with hlt | hge
    · obtain ⟨p, hp⟩ := hb k hlt
      cases hp.symm.trans hk
    · obtain ⟨d, rfl⟩ := Nat.exists_eq_add_of_le hge
      cases hk.symm.trans (traverse_add ho (fun p h => nomatch h) d)
  cases he : ending .text fmt with
  | flag =>
    simp only [he, Place.finished, h1, if_false] at ht0
    refine .inl ⟨.inr (.inr (.inr (.inl he))), 0, ?_⟩
    rw [ht0, stopsAt, if_neg h0, if_pos he, min_eq_right (not_lt.mp h1)]
  | digits | star | dot =>
    simp only [he, Place.finished, h1, if_false] at ht0
    refine .inr ⟨?_, hover 0 ht0 fun k hk => absurd hk (Nat.not_lt_zero k)⟩
    simp only [Found, he, h1, reduceCtorEq, false_and, or_false]
    omega
  | text =>
    simp only [he, Place.finished, h1, if_false] at ht0
    have ht1 : traverse n fmt 1 = Place.finished n
        ⟨lastIndex .flag (lastIndex .text 0 fmt) fmt.tail,
          awaited 1 (first fmt ++ second fmt)⟩ (ending .flag fmt.tail) := by
      rw [traverse, ht0, awaited_append]
      exact round_eq hf (not_lt.mp h1)
    by_cases h2 : n < awaited 1 (first fmt ++ second fmt)
    · refine .inl ⟨.inr (.inr (.inr (.inr ⟨he, .inl h2⟩))), 1, ?_⟩
      rw [ht1, finished_of_lt h2, stopsAt, if_neg h0, if_neg (by rw [he]; decide)]
      split_ifs
      · rw [min_eq_left h2.le]
      · rfl
    have hwrap (k : ℕ) (hk : k < 1) : ∃ p, traverse n fmt k = .wrapped p := by
      obtain rfl : k = 0 := by omega
      exact ⟨_, ht0⟩
    cases he' : ending .flag fmt.tail with
    | flag =>
      simp only [he', Place.finished, h2, if_false] at ht1
      refine .inl ⟨.inr (.inr (.inr (.inr ⟨he, .inr (.inl he')⟩))), 1, ?_⟩
      rw [ht1, stopsAt, if_neg h0, if_neg (by rw [he]; decide), if_pos he',
        min_eq_right (not_lt.mp h2)]
    | digits | star | dot =>
      simp only [he', Place.finished, h2, if_false] at ht1
      refine .inr ⟨?_, hover 1 ht1 hwrap⟩
      simp only [Found, he, he', h1, h2, reduceCtorEq, false_and, or_false, and_false]
      omega
    | text =>
      simp only [he', Place.finished, h2, if_false] at ht1
      have hlast := lastIndex_lastIndex .flag (lastIndex .text 0 fmt) fmt.tail
      by_cases hall : ∀ i ≤ n, awaited 1 (first fmt ++ second fmt) ≤ i → i ∈ later fmt
      · refine .inl ⟨.inr (.inr (.inr (.inr ⟨he, .inr (.inr ⟨he', hall⟩)⟩))), ?_⟩
        rw [stopsAt, if_neg h0, if_neg (by rw [he]; decide), if_neg (by rw [he']; decide)]
        exact (later_passes hf he' ht1 hlast (not_lt.mp h2)).resolve_right
          fun ⟨i, hi, hle, hn⟩ => hn (hall i hi hle)
      · refine .inr ⟨?_, fun k l hk => ?_⟩
        · simp only [Found, he, he', h1, h2, hall, reduceCtorEq, or_false, and_false]
          omega
        · push Not at hall
          obtain ⟨i, hi, hle, hn⟩ := hall
          obtain ⟨l', -, hw⟩ := later_passes_lost hf he' ht1 hlast hi hle hn k
          cases hw.symm.trans (traverse_mono hk (Nat.le_add_left k 1))

theorem returned_iff {n l : ℕ} :
    (∃ k, traverse n fmt k = .returned l) ↔ Found fmt n ∧ l = stopsAt fmt n := by
  rcases traverse_cases hf n with ⟨h, k, hk⟩ | ⟨h, hno⟩
  · refine ⟨fun ⟨k', hk'⟩ => ⟨h, ?_⟩, fun ⟨_, hl⟩ => ⟨k, hl ▸ hk⟩⟩
    have := (traverse_mono hk (le_max_left k k')).symm.trans
      (traverse_mono hk' (le_max_right k k'))
    injection this with this
    exact this.symm
  · exact iff_of_false (fun ⟨k, hk⟩ => hno k l hk) fun h' => h h'.1

end

theorem ne_nil_of_mem_lookups {n : ℕ} (h : n ∈ lookups fmt) : fmt ≠ [] := by
  rintro rfl
  cases h

/-- **When the formatter returns**: when every number that it looks up is found, by the numbers that
the passes meet and by where they end. -/
theorem doprnt_returns_iff (fmt : List Char) :
    (∀ n ∈ lookups fmt, ∃ k l, traverse n fmt k = .returned l) ↔
      ∀ n ∈ lookups fmt, Found fmt n := by
  refine forall₂_congr fun n hn => ?_
  rw [exists_comm]
  simp [returned_iff (ne_nil_of_mem_lookups hn)]

/-- A format that has argument 2 only is scanned for ever.  A directive that is cut off after a
digit takes the scan out of the format. -/
theorem traversal_lost : 2 ∈ lookups "%2$d".toList ∧
    (∀ k, traverse 2 "%2$d".toList k = .wrapped ⟨2, 1⟩) ∧
    2 ∈ lookups "%2$d %1".toList ∧ traverse 2 "%2$d %1".toList 0 = .overrun := by
  refine ⟨by decide, fun k => ?_, by decide, by decide⟩
  rw [← zero_add k]
  refine traverse_add (by decide) (fun p hp => ?_) k
  cases hp
  decide

/-! ### The arguments that are taken -/

/-- The argument lists of `_doprnt`, as numbers of arguments that are behind them: `arg_list`, the
list of the caller, and `to_be_printed`.  A `va_list` is an array, so that `argp = to_be_printed`
makes `argp` an alias.  The numbers that were asked for are kept with those of the arguments that
were taken. -/
structure Lists where
  argList : ℕ := 0
  given : ℕ := 0
  toBePrinted : ℕ := 0
  aliased : Bool := false
  usingNumericConvSpec : Bool := false
  index : ℕ := 0
  taken : List (ℕ × ℕ) := []
  deriving DecidableEq

/-- Where `argp` is. -/
def Lists.argp (s : Lists) : ℕ := if s.aliased then s.toBePrinted else s.given

def Lists.setArgp (s : Lists) (i : ℕ) : Lists :=
  if s.aliased then { s with toBePrinted := i } else { s with given := i }

/-- `va_arg(argp, _)`, where argument `n` is meant. -/
def Lists.vaArg (s : Lists) (n : ℕ) : Lists :=
  { s.setArgp (s.argp + 1) with taken := s.taken ++ [(n, s.argp + 1)] }

section Act

variable (k : ℕ) (fmt : List Char)

/-- Argument `n` is looked up; `arg_list` stays where the traversal leaves it. -/
def Lists.lookup (s : Lists) (n : ℕ) : Except Unit Lists :=
  match traverse n fmt k with
  | .returned l => .ok { s with argList := s.argList + (l - 1), usingNumericConvSpec := true }
  | _ => .error ()

/-- What `_doprnt` does with its lists; `%c` does not turn to `to_be_printed`. -/
def act (s : Lists) : Action → Except Unit Lists
  | .index n => (s.lookup k fmt n).map fun s => { s with toBePrinted := s.argList, index := n }
  | .numbered n => (s.lookup k fmt n).map fun s => (s.setArgp s.argList).vaArg n
  | .star => .ok (s.vaArg (s.argp + 1))
  | .convert char =>
    let s := { s with aliased := s.aliased || s.usingNumericConvSpec && !char }
    .ok (s.vaArg (if s.usingNumericConvSpec then s.index else s.argp + 1))

end Act

/-- A directive with numbers only. -/
structure Directive where
  index : ℕ
  width : Option ℕ
  prec : Option ℕ
  char : Bool
  deriving DecidableEq

/-- The numbers of the width and of the precision. -/
def Directive.stars (d : Directive) : List ℕ := d.width.toList ++ d.prec.toList

/-- What `_doprnt` does for a directive. -/
def Directive.actions (d : Directive) : List Action :=
  .index d.index :: d.stars.map .numbered ++ [.convert d.char]

/-- All that was taken is what was asked for. -/
def Right (s : Lists) : Prop := s.taken.all fun x => x.1 = x.2

/-- Where `arg_list` is behind the lookups of a directive, if the traversal for `n` stops at `r n`:
for its argument, its width and its precision. -/
def Directive.lists (r : ℕ → ℕ) (argList : ℕ) (d : Directive) : ℕ × ℕ × ℕ :=
  let printed := argList + (r d.index - 1)
  let width := printed + d.width.elim 0 (r · - 1)
  (printed, width, width + d.prec.elim 0 (r · - 1))

/-- A directive gets its arguments.  Only a conversion other than `%c` that is the first one takes
its argument from `to_be_printed` as the lookup has left it. -/
def Directive.Fits (r : ℕ → ℕ) (argList given : ℕ) (aliased : Bool) (d : Directive) : Prop :=
  (∀ n ∈ d.width, (d.lists r argList).2.1 + 1 = n) ∧
    (∀ n ∈ d.prec, (d.lists r argList).2.2 + 1 = n) ∧
    d.index = if d.stars ≠ [] ∧ (aliased = true ∨ d.char = true) then (d.lists r argList).2.2 + 2
      else if aliased = false ∧ d.char = true then given + 1
      else (d.lists r argList).1 + 1

instance (r : ℕ → ℕ) (argList given : ℕ) (aliased : Bool) :
    DecidablePred (Directive.Fits r argList given aliased) := fun d => by
  unfold Directive.Fits
  infer_instance

/-- All directives get their arguments; `arg_list` and the list of the caller, as long as it is in
use, are carried along. -/
def Fits (r : ℕ → ℕ) : ℕ → ℕ → Bool → List Directive → Prop
  | _, _, _, [] => True
  | argList, given, aliased, d :: ds =>
    d.Fits r argList given aliased ∧
      Fits r (d.lists r argList).2.2
        (if d.stars = [] then given + 1 else (d.lists r argList).2.2 + 2) (aliased || !d.char) ds

variable {n : ℕ} {ds : List Directive} {d : Directive} {r : ℕ → ℕ}

theorem directive_run (s : Lists)
    (hf : ∀ n ∈ d.index :: d.stars, traverse n fmt k = .returned (r n)) :
    ∃ s' new, run (act k fmt) s d.actions = .ok s' ∧ s'.taken = s.taken ++ new ∧
      s'.argList = (d.lists r s.argList).2.2 ∧ s'.aliased = (s.aliased || !d.char) ∧
      (s'.aliased = false →
        s'.given = if d.stars = [] then s.given + 1 else (d.lists r s.argList).2.2 + 2) ∧
      ((new.all fun x => x.1 = x.2) ↔ d.Fits r s.argList s.given s.aliased) := by
  obtain ⟨n, width, prec, char⟩ := d
  have hin := hf n mem_cons_self
  have hs (m : ℕ) (hm : m ∈ width.toList ++ prec.toList) :
      traverse m fmt k = .returned (r m) := hf m (.tail _ hm)
  cases width <;> cases prec <;> cases char <;> cases ha : s.aliased
  all_goals
    simp only [Option.toList_some, Option.toList_none, nil_append, cons_append,
      mem_cons, forall_eq_or_imp] at hs
    simp [Directive.actions, Directive.stars, run, act, Lists.lookup, Lists.vaArg, Lists.setArgp,
      Lists.argp, hin, hs, ha, Except.map, Directive.Fits, Directive.lists, -all_eq_true,
      -all_eq_false]
  all_goals omega

/-- The list of the caller is out of use. -/
theorem fits_aliased {a g g' : ℕ} : Fits r a g true ds ↔ Fits r a g' true ds := by
  induction ds generalizing a g g' with
  | nil => rfl
  | cons d ds ih =>
    rw [Fits, Fits, Bool.true_or]
    exact and_congr (by simp [Directive.Fits]) ih

theorem directives_run
    (hf : ∀ d ∈ ds, ∀ n ∈ d.index :: d.stars, traverse n fmt k = .returned (r n)) (s : Lists) :
    ∃ s' new, run (act k fmt) s (ds.flatMap Directive.actions) = .ok s' ∧
      s'.taken = s.taken ++ new ∧
      ((new.all fun x => x.1 = x.2) ↔ Fits r s.argList s.given s.aliased ds) := by
  induction ds generalizing s with
  | nil => exact ⟨s, [], rfl, (append_nil _).symm, iff_of_true rfl trivial⟩
  | cons d ds ih =>
    obtain ⟨s1, new, hrun, ht, hl, hal, hg, hfi⟩ := directive_run s (hf d mem_cons_self)
    obtain ⟨s', new', hr', ht', hr⟩ := ih (forall_mem_cons.mp hf).2 s1
    refine ⟨s', new ++ new', ?_, ?_, ?_⟩
    · rw [flatMap_cons, run_append_ok hrun, hr']
    · rw [ht', ht, append_assoc]
    · rw [all_append, Bool.and_eq_true, hfi, hr, Fits, hl, ← hal]
      refine and_congr_right fun _ => ?_
      cases ha : s1.aliased with
      | true => exact fits_aliased
      | false => rw [hg ha]

theorem mem_lookups (hds : actions .text fmt = ds.flatMap Directive.actions)
    (hd : d ∈ ds) (hn : n ∈ d.index :: d.stars) : n ∈ lookups fmt := by
  have hact (a : Action) (ha : a ∈ d.actions) : a ∈ actions .text fmt := by
    rw [hds]
    exact mem_flatMap.mpr ⟨d, hd, ha⟩
  rw [lookups, mem_filterMap]
  rcases mem_cons.mp hn with rfl | hn
  · exact ⟨.index d.index, hact _ (by simp [Directive.actions]), rfl⟩
  · exact ⟨.numbered n, hact _ (by simp [Directive.actions, hn]), rfl⟩

theorem returned_of_run {s s' : Lists} {as : List Action} (h : run (act k fmt) s as = .ok s')
    (hn : .index n ∈ as ∨ .numbered n ∈ as) : ∃ l, traverse n fmt k = .returned l := by
  induction as generalizing s with
  | nil => simp at hn
  | cons a as ih =>
    rw [run] at h
    cases ha : act k fmt s a with
    | error u =>
      rw [ha] at h
      cases h
    | ok s1 =>
      rw [ha] at h
      by_cases hin : .index n ∈ as ∨ .numbered n ∈ as
      · exact ih h hin
      · have : a = .index n ∨ a = .numbered n := by
          simp only [mem_cons] at hn
          tauto
        rcases this with rfl | rfl <;>
          · simp only [act, Lists.lookup] at ha
            cases ht : traverse n fmt k with
            | returned l => exact ⟨l, rfl⟩
            | overrun | wrapped p =>
              rw [ht] at ha
              cases ha

/-- **When every directive of a format with numbers gets its arguments**: when every number that is
looked up is found, and all directives fit where the traversals stop. -/
theorem arguments_right_iff (fmt : List Char) (ds : List Directive)
    (hds : actions .text fmt = ds.flatMap Directive.actions) :
    (∃ k s, run (act k fmt) {} (actions .text fmt) = .ok s ∧ Right s) ↔
      (∀ n ∈ lookups fmt, Found fmt n) ∧ Fits (stopsAt fmt) 0 0 false ds := by
  have key (k : ℕ) (hk : ∀ n ∈ lookups fmt, traverse n fmt k = .returned (stopsAt fmt n)) :
      (∃ s, run (act k fmt) {} (actions .text fmt) = .ok s ∧ Right s) ↔
        Fits (stopsAt fmt) 0 0 false ds := by
    obtain ⟨s, new, hrun, ht, hf⟩ :=
      directives_run (fun d hd n hn => hk n (mem_lookups hds hd hn)) {}
    rw [hds, hrun, ← hf]
    have hr : Right s ↔ new.all fun x => x.1 = x.2 := by rw [Right, ht, nil_append]
    rw [← hr]
    constructor
    · rintro ⟨s', heq, hs'⟩
      cases heq
      exact hs'
    · exact fun hs => ⟨s, rfl, hs⟩
  constructor
  · rintro ⟨k, s, hrun, hs⟩
    have hret (n : ℕ) (hn : n ∈ lookups fmt) :
        Found fmt n ∧ traverse n fmt k = .returned (stopsAt fmt n) := by
      have hin : .index n ∈ actions .text fmt ∨ .numbered n ∈ actions .text fmt := by
        obtain ⟨a, ha, hn⟩ := mem_filterMap.mp hn
        cases a <;> simp at hn <;> subst hn
        exacts [.inl ha, .inr ha]
      obtain ⟨l, hl⟩ := returned_of_run hrun hin
      obtain ⟨hfo, rfl⟩ := (returned_iff (ne_nil_of_mem_lookups hn)).mp ⟨k, hl⟩
      exact ⟨hfo, hl⟩
    exact ⟨fun n hn => (hret n hn).1, (key k fun n hn => (hret n hn).2).mp ⟨s, hrun, hs⟩⟩
  · rintro ⟨hfo, hfit⟩
    -- as many passes as the longest traversal takes
    have hk : ∀ ns : List ℕ, (∀ n ∈ ns, n ∈ lookups fmt) →
        ∃ k, ∀ n ∈ ns, traverse n fmt k = .returned (stopsAt fmt n) := by
      intro ns hns
      induction ns with
      | nil => exact ⟨0, fun n hn => nomatch hn⟩
      | cons n ns ih =>
        obtain ⟨hn, hns⟩ := forall_mem_cons.mp hns
        obtain ⟨k, hk⟩ := ih hns
        obtain ⟨k', hk'⟩ := (returned_iff (ne_nil_of_mem_lookups hn)).mpr ⟨hfo n hn, rfl⟩
        refine ⟨max k k', forall_mem_cons.mpr ⟨traverse_mono hk' (le_max_right ..), fun m hm => ?_⟩⟩
        exact traverse_mono (hk m hm) (le_max_left ..)
    obtain ⟨k, hk⟩ := hk _ fun n hn => hn
    exact ⟨k, (key k hk).mpr hfit⟩

/-- Also where the traversal takes widths for numbers. -/
theorem arguments_right_three : ∃ k s, run (act k "%1$d %2$5d%3$5d".toList) {}
    (actions .text "%1$d %2$5d%3$5d".toList) = .ok s ∧ Right s :=
  (arguments_right_iff _ [⟨1, none, none, false⟩, ⟨2, none, none, false⟩, ⟨3, none, none, false⟩]
    (by decide)).mpr ⟨by decide, by decide, by decide, by decide, trivial⟩

/-- Of three arguments in order, the third directive takes the fourth one. -/
theorem third_argument_skipped :
    succeeds (run (act 0 "%1$d %2$d %3$d".toList) {} (actions .text "%1$d %2$d %3$d".toList))
      fun s => s.taken = [(1, 1), (2, 2), (3, 4)] := by
  decide

end Positional
