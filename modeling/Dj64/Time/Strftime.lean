import Dj64.Time.Weeks

/-!
# The formatter of `strftime`

`_fmt` reads its format from left to right; `step` reads one character.  `upcase` is a variable of
the whole call, and so outlives the conversion that sets it.

* `strftime`: the text of a format, in a buffer that is large enough.
* `marks`, `resets`, `Lower`: what the flags and conversions of a format do with the case.
* `strftime_pieces_iff`: when two formats can be printed one after the other.
-/

namespace Strftime

open Weeks List

/-- A broken-down time, as far as it is printed. -/
structure Tm extends Weeks.Tm where
  sec : ℤ
  min : ℤ
  hour : ℤ
  mday : ℤ
  mon : ℤ
  gmtoff : ℤ
  zone : Option (List Char)
  /-- What `mktime` returns for it. -/
  time : ℤ

/-- `Afmt`; `afmt` has the first three letters. -/
def dayNames : List String :=
  ["Sunday", "Monday", "Tuesday", "Wednesday", "Thursday", "Friday", "Saturday"]

/-- `Bfmt`; `bfmt` has the first three letters. -/
def monthNames : List String :=
  ["January", "February", "March", "April", "May", "June", "July", "August", "September",
    "October", "November", "December"]

/-- `_add`. -/
def add (upcase : Bool) (str : List Char) : List Char :=
  if upcase then str.map Char.toUpper else str

/-- The loop of `_conv` over the digits, the last one first. -/
def digits : ℕ → ℤ → List Char → List Char
  | 0, _, buf => buf
  | p + 1, n, buf =>
    let buf := Char.ofNat (n.tmod 10 + 48).toNat :: buf
    if 0 < n.tdiv 10 then digits p (n.tdiv 10) buf else buf

/-- `_conv`, whose buffer has room for eight characters. -/
def conv (pad : Option Char) (n width : ℤ) : List Char :=
  let buf := digits 8 n []
  match pad with
  | none => buf
  | some c => List.replicate (min (8 - buf.length) (width - buf.length).toNat) c ++ buf

/-- The flags of a conversion, whether a modifier was read, and the last character. -/
structure Spec where
  pad : Option Char
  swapCase : Bool
  modified : Bool
  last : Char

/-- The first `n` letters of a name; an index out of range fails. -/
def name (names : List String) (n : ℕ) (i : ℤ) : Option (List Char) :=
  if 0 ≤ i then (names[i.toNat]?).map (·.toList.take n) else none

/-- The hour of `%I` and `%l`. -/
def hour12 (t : Tm) : ℤ := if t.hour.tmod 12 = 0 then 12 else t.hour.tmod 12

/-- The conversions that are not made of others: the text, and `upcase` behind it. -/
def convert (t : Tm) (s : Spec) (upcase : Bool) (c : Char) : Option (List Char) × Bool :=
  let num (n width : ℤ) := (some (conv s.pad n width), upcase)
  let blank (n : ℤ) := (some (conv (some ' ') n 2), upcase)
  let named (str : Option (List Char)) :=
    (str.map (add (upcase || s.swapCase)), upcase || s.swapCase)
  let half := (if 12 ≤ t.hour then "pm" else "am").toList
  match c with
  | 'A' => named (name dayNames 9 t.wday)
  | 'a' => named (name dayNames 3 t.wday)
  | 'B' => named (name monthNames 9 t.mon)
  | 'b' | 'h' => named (name monthNames 3 t.mon)
  | 'C' => num ((t.year + 1900).tdiv 100) 2
  | 'e' => blank t.mday
  | 'd' => num t.mday 2
  | 'G' => num (isoWeekBasedYear t.toTm) 4
  | 'g' => num ((isoWeekBasedYear t.toTm).tmod 100) 2
  | 'H' => num t.hour 2
  | 'I' => num (hour12 t) 2
  | 'j' => num (t.yday + 1) 3
  | 'k' => blank t.hour
  | 'l' => blank (hour12 t)
  | 'M' => num t.min 2
  | 'm' => num (t.mon + 1) 2
  | 'n' => (some ['\n'], upcase)
  | 'P' => (some (add upcase half), upcase)
  | 'p' => (some (add (!s.swapCase) half), !s.swapCase)
  | 'S' => num t.sec 2
  | 's' => if t.time = -1 then (none, upcase) else num (int t.time) (-1)
  | 't' => (some ['\t'], upcase)
  | 'u' => num (isoWeekday t.toTm) 1
  | 'U' => num ((t.yday + 7 - t.wday).tdiv 7) 2
  | 'V' => num (isoStandardWeek t.toTm) 2
  | 'W' => num ((t.yday + 7 - if t.wday = 0 then 6 else t.wday - 1).tdiv 7) 2
  | 'w' => num t.wday 1
  | 'y' => num ((t.year + 1900).tmod 100) 2
  | 'Y' => num (t.year + 1900) 4
  | 'z' => (some ((if t.gmtoff < 0 then '-' else '+') :: conv s.pad |t.gmtoff| 4), upcase)
  | 'Z' => if s.swapCase then (t.zone.map (·.map Char.toLower), false)
    else (t.zone.map (add upcase), upcase)
  | c => (some [c], upcase)

/-- The loop of `_fmt` between two characters; `out` is `none` once it has failed. -/
structure Fmt where
  spec : Option Spec
  upcase : Bool
  out : Option (List Char)

/-- One text behind another, if both are printed. -/
def cat (x y : Option (List Char)) : Option (List Char) := x.bind fun x => y.map (x ++ ·)

/-- Whether a character inside of a conversion is one more flag or the modifier. -/
def Spec.isFlag (p : Spec) (c : Char) : Bool :=
  !p.modified && c ∈ ['_', '-', '0', '^', '#', 'E', 'O']

/-- The flags behind one more of them. -/
def Spec.flag (p : Spec) (c : Char) : Spec :=
  ⟨if c = '_' then some ' ' else if c = '-' then none else if c = '0' then some '0' else p.pad,
    p.swapCase || c == '#', c ∈ ['E', 'O'], c⟩

/-- One character of the format. -/
def step (convert : Spec → Bool → Char → Option (List Char) × Bool) (s : Fmt) (c : Char) : Fmt :=
  match s.spec with
  | none => if c = '%' then { s with spec := some ⟨some '0', false, false, c⟩ }
    else { s with out := cat s.out (some [c]) }
  | some p =>
    if p.isFlag c then { s with upcase := s.upcase || c == '^', spec := some (p.flag c) }
    else ⟨none, (convert p s.upcase c).2, cat s.out (convert p s.upcase c).1⟩

/-- The end of the format: inside of a conversion its last character is printed. -/
def Fmt.text (s : Fmt) : Option (List Char) :=
  cat s.out (some (s.spec.toList.map Spec.last))

/-- `_fmt` over a whole format. -/
def fmt (convert : Spec → Bool → Char → Option (List Char) × Bool) (upcase : Bool)
    (format : List Char) : Fmt := format.foldl (step convert) ⟨none, upcase, some []⟩

/-- The formats of conversions that are made of others. -/
def composite : Char → Option String
  | 'c' => some "%a %b %e %H:%M:%S %Y"
  | 'D' | 'x' => some "%m/%d/%y"
  | 'F' => some "%Y-%m-%d"
  | 'R' => some "%H:%M"
  | 'r' => some "%I:%M:%S %p"
  | 'T' | 'X' => some "%H:%M:%S"
  | _ => none

/-- All conversions; `_fmt` gets `upcase` by value. -/
def convertAll (t : Tm) (s : Spec) (upcase : Bool) (c : Char) : Option (List Char) × Bool :=
  match composite c with
  | some format => ((fmt (convert t) upcase format.toList).text, upcase)
  | none => convert t s upcase c

/-- What `strftime` stores into a buffer that is large enough, or `none` if it returns 0. -/
def strftime (t : Tm) (format : List Char) : Option (List Char) :=
  (fmt (convertAll t) false format).text

/-! ### Pieces -/

variable {k : Spec → Bool → Char → Option (List Char) × Bool} {s : Fmt} {x y z : Option (List Char)}

theorem cat_assoc : cat (cat x y) z = cat x (cat y z) := by
  cases x <;> cases y <;> cases z <;> simp [cat]

/-- What has been printed does not matter to what follows. -/
theorem foldl_out (f : List Char) : f.foldl (step k) { s with out := cat x s.out } =
    { f.foldl (step k) s with out := cat x (f.foldl (step k) s).out } := by
  induction f generalizing s with
  | nil => rfl
  | cons c f ih =>
    have hc : step k { s with out := cat x s.out } c =
        { step k s c with out := cat x (step k s c).out } := by
      unfold step
      cases s.spec with
      | none => by_cases hc : c = '%' <;> simp [hc, cat_assoc]
      | some p => dsimp only; split <;> simp [cat_assoc]
    rw [foldl_cons, hc, ih, foldl_cons]

theorem cat_nil : cat x (some []) = x := by
  cases x <;> simp [cat]

/-! ### Upper case -/

/-- The flags and the letters of the conversions of a format, each with the flags before it. -/
def marks : Option Spec → List Char → List (Spec × Char)
  | _, [] => []
  | none, c :: f => marks (if c = '%' then some ⟨some '0', false, false, c⟩ else none) f
  | some p, c :: f => (p, c) :: marks (if p.isFlag c then some (p.flag c) else none) f

/-- The conversions to a name. -/
def names : List Char := ['A', 'a', 'B', 'b', 'h']

/-- What a flag or a conversion makes of `upcase`, if it does not leave it. -/
def resets (m : Spec × Char) : Option Bool :=
  if m.1.isFlag m.2 then if m.2 = '^' then some true else none
  else if m.2 = 'p' then some !m.1.swapCase
  else if m.1.swapCase && m.2 == 'Z' then some false
  else if m.1.swapCase && m.2 ∈ names then some true else none

/-- The conversions that fail. -/
def Fails (t : Tm) (c : Char) : Prop := c = 's' ∧ t.time = -1 ∨ c = 'Z' ∧ t.zone = none

/-- The conversions whose text has a letter in lower case. -/
def Lower (t : Tm) (c : Char) : Prop :=
  c ∈ names ∨ c = 'P' ∨ c = 'Z' ∧ ∃ z ∈ t.zone, z.map Char.toUpper ≠ z

/-- The fields that choose a name. -/
def InRange (t : Tm) : Prop := 0 ≤ t.wday ∧ t.wday < 7 ∧ 0 ≤ t.mon ∧ t.mon < 12

/-- A flag as a conversion to the empty text. -/
def marked (k : Spec → Bool → Char → Option (List Char) × Bool) (m : Spec × Char) (u : Bool) :
    Option (List Char) × Bool :=
  if m.1.isFlag m.2 then (some [], u || m.2 == '^') else k m.1 u m.2

/-- The output of a flag or a conversion, which depends on `upcase` as is said above. -/
structure Law (t : Tm) (lower : Char → Prop) (m : Spec × Char)
    (o : Bool → Option (List Char) × Bool) : Prop where
  none_iff u : (o u).1 = none ↔ Fails t m.2
  length_eq : (o true).1.map length = (o false).1.map length
  reset {b} : resets m = some b → o true = o false ∧ (o false).2 = b
  keep u : resets m = none → (o u).2 = u
  same_iff : resets m = none → ((o true).1 = (o false).1 ↔ ¬ lower m.2)

/-- What is printed for the rest of a format. -/
def rest (k : Spec → Bool → Char → Option (List Char) × Bool) (p : Option Spec) (u : Bool)
    (f : List Char) : Option (List Char) :=
  (f.foldl (step k) ⟨p, u, some []⟩).text

variable {t : Tm} {p : Option Spec} {u : Bool} {f : List Char} {lower : Char → Prop}

theorem foldl_text (o : Option (List Char)) :
    (f.foldl (step k) ⟨p, u, o⟩).text = cat o (rest k p u f) := by
  have ho := foldl_out (k := k) (s := ⟨p, u, some []⟩) (x := o) f
  rw [cat_nil] at ho
  simp [rest, ho, Fmt.text, cat_assoc]

theorem rest_text (c : Char) : rest k none u (c :: f) =
    cat (some (if c = '%' then [] else [c]))
      (rest k (if c = '%' then some ⟨some '0', false, false, c⟩ else none) u f) := by
  rw [← foldl_text, rest, foldl_cons]
  by_cases hc : c = '%' <;> simp [step, hc, cat]

theorem rest_mark (q : Spec) (c : Char) : rest k (some q) u (c :: f) =
    cat (marked k (q, c) u).1
      (rest k (if q.isFlag c then some (q.flag c) else none) (marked k (q, c) u).2 f) := by
  rw [← foldl_text, rest, foldl_cons]
  by_cases hc : q.isFlag c <;> simp [step, marked, hc, cat]

theorem cat_eq_none_iff : cat x y = none ↔ x = none ∨ y = none := by
  cases x <;> cases y <;> simp [cat]

theorem cat_some_inj {l : List Char} : cat (some l) x = cat (some l) y ↔ x = y :=
  (Option.map_injective (append_right_injective l)).eq_iff

theorem map_length_cat : (cat x y).map length =
    (x.map length).bind fun n => (y.map length).map (n + ·) := by
  cases x <;> cases y <;> simp [cat]

section

variable (h : ∀ m, Law t lower m (marked k m))
include h

theorem rest_eq_none_iff :
    rest k p u f = none ↔ ∃ m ∈ marks p f, Fails t m.2 := by
  induction f generalizing p u with
  | nil => cases p <;> simp [rest, marks, Fmt.text, cat]
  | cons c f ih =>
    cases p with
    | none => simp [rest_text, marks, cat_eq_none_iff, ih]
    | some q => simp [rest_mark, marks, cat_eq_none_iff, ih, (h _).none_iff]

/-- The length of the text does not depend on the case. -/
theorem map_length_rest :
    (rest k p true f).map length = (rest k p false f).map length := by
  induction f generalizing p with
  | nil => rfl
  | cons c f ih =>
    cases p with
    | none => rw [rest_text, rest_text, map_length_cat, map_length_cat, ih]
    | some q =>
      simp only [rest_mark, map_length_cat, (h _).length_eq]
      cases hr : resets (q, c) with
      | some b => rw [((h _).reset hr).1]
      | none => rw [(h _).keep _ hr, (h _).keep _ hr, ih]

/-- Upper case shows in the text before the next flag or conversion that sets the case. -/
theorem rest_eq_iff : rest k p true f = rest k p false f ↔
    (∃ m ∈ marks p f, Fails t m.2) ∨
      ∀ m ∈ (marks p f).takeWhile (resets · = none), ¬ lower m.2 := by
  induction f generalizing p with
  | nil => simp [rest, marks, Fmt.text]
  | cons c f ih =>
    cases p with
    | none => rw [rest_text, rest_text, cat_some_inj, ih, marks]
    | some q =>
      rw [rest_mark, rest_mark, marks]
      generalize (if q.isFlag c then some (q.flag c) else none) = p'
      cases hr : resets (q, c) with
      | some b => simp [hr, ((h _).reset hr).1]
      | none =>
        rw [(h _).keep _ hr, (h _).keep _ hr, takeWhile_cons_of_pos (by simpa using hr)]
        by_cases hq : Fails t c
        · simp [((h (q, c)).none_iff _).2 hq, hq, cat]
        obtain ⟨x, hx⟩ := Option.ne_none_iff_exists'.mp (mt ((h (q, c)).none_iff true).1 hq)
        obtain ⟨y, hy⟩ := Option.ne_none_iff_exists'.mp (mt ((h (q, c)).none_iff false).1 hq)
        have hs := (h _).same_iff hr
        have hl := (h (q, c)).length_eq
        rw [hx, hy] at hs hl ⊢
        by_cases hxy : x = y
        · simp_all [cat_some_inj]
        -- the texts differ at once, unless nothing is printed at all
        have hlow : lower c := by simpa [hxy] using hs
        have hne : cat (some x) (rest k p' true f) = cat (some y) (rest k p' false f) ↔
            rest k p' true f = none := by
          have hlen := map_length_rest (f := f) (p := p') h
          cases hv : rest k p' true f with
          | none => simp_all [cat]
          | some v =>
            obtain ⟨w, hw⟩ : ∃ w, rest k p' false f = some w := by
              cases hw : rest k p' false f <;> simp_all
            have : ¬ x ++ v = y ++ w := fun he => hxy (append_inj he (by simpa using hl)).1
            simpa [hw, cat]
        rw [hne, rest_eq_none_iff h]
        simp [hq, hlow]

/-- The case behind a format is the one set last. -/
theorem foldl_upcase (o : Option (List Char)) :
    (f.foldl (step k) ⟨p, u, o⟩).upcase = ((marks p f).filterMap resets).getLast?.getD u := by
  induction f generalizing p u o with
  | nil => rfl
  | cons c f ih =>
    cases p with
    | none => by_cases hc : c = '%' <;> simp [step, marks, hc, ih]
    | some q =>
      have hs : step k ⟨some q, u, o⟩ c = ⟨if q.isFlag c then some (q.flag c) else none,
          (marked k (q, c) u).2, cat o (marked k (q, c) u).1⟩ := by
        by_cases hc : q.isFlag c <;> simp [step, marked, hc, cat_nil]
      rw [foldl_cons, hs, ih, marks]
      cases hr : resets (q, c) with
      | none => rw [filterMap_cons_none hr, (h _).keep _ hr]
      | some b =>
        have hb : (marked k (q, c) u).2 = b := by
          obtain ⟨h1, h2⟩ := (h _).reset hr
          cases u with
          | true => rw [h1, h2]
          | false => exact h2
        rw [filterMap_cons_some hr, hb, getLast?_cons]
        rfl

end

/-- A name is printed for an index in range, and upper case changes it. -/
theorem name_some (ns : List String) (n : ℕ) {i : ℤ} (hi : 0 ≤ i ∧ i < ns.length)
    (hn : ∀ s ∈ ns, (s.toList.take n).map Char.toUpper ≠ s.toList.take n) :
    ∃ l, name ns n i = some l ∧ l.map Char.toUpper ≠ l := by
  have hlt : i.toNat < ns.length := by omega
  exact ⟨_, by simp [name, hi.1, hlt], hn _ (getElem_mem hlt)⟩

/-- A flag prints nothing, whatever the conversions. -/
theorem law_marked (hlow : ∀ c ∈ ['_', '-', '0', '^', '#', 'E', 'O'], ¬ lower c)
    (h : ∀ m : Spec × Char, m.1.isFlag m.2 = false → Law t lower m fun u => k m.1 u m.2)
    (m : Spec × Char) : Law t lower m (marked k m) := by
  cases hm : m.1.isFlag m.2 with
  | false =>
    have hk : marked k m = fun u => k m.1 u m.2 := by
      funext u
      simp [marked, hm]
    exact hk ▸ h m hm
  | true =>
    have hc : m.2 ∈ ['_', '-', '0', '^', '#', 'E', 'O'] := by
      simp only [Spec.isFlag, Bool.and_eq_true, decide_eq_true_eq] at hm
      exact hm.2
    have hf : ¬ Fails t m.2 := by
      simp only [Fails]
      rintro (⟨he, -⟩ | ⟨he, -⟩) <;> simp [he] at hc
    have hl := hlow _ hc
    have hk : marked k m = fun u => (some [], u || m.2 == '^') := by
      funext u
      simp [marked, hm]
    rw [hk]
    constructor <;> simp_all [resets]

theorem law_convert (ht : InRange t) (m : Spec × Char) (hm : m.1.isFlag m.2 = false) :
    Law t (Lower t) m fun u => convert t m.1 u m.2 := by
  obtain ⟨hw, hw', hn, hn'⟩ := ht
  obtain ⟨l₁, h₁, h₁'⟩ := name_some dayNames 9 ⟨hw, hw'⟩ (by decide)
  obtain ⟨l₂, h₂, h₂'⟩ := name_some dayNames 3 ⟨hw, hw'⟩ (by decide)
  obtain ⟨l₃, h₃, h₃'⟩ := name_some monthNames 9 ⟨hn, hn'⟩ (by decide)
  obtain ⟨l₄, h₄, h₄'⟩ := name_some monthNames 3 ⟨hn, hn'⟩ (by decide)
  obtain ⟨q, c⟩ := m
  have hall (u : Bool) : ((convert t q u c).1 = none ↔ Fails t c) ∧
      (convert t q true c).1.map length = (convert t q false c).1.map length ∧
      (∀ b, resets (q, c) = some b → convert t q true c = convert t q false c ∧
        (convert t q false c).2 = b) ∧
      (resets (q, c) = none → (convert t q u c).2 = u) ∧
      (resets (q, c) = none →
        ((convert t q true c).1 = (convert t q false c).1 ↔ ¬ Lower t c)) := by
    unfold convert
    simp only [resets, Fails, Lower, names, hm]
    split <;> simp_all [add]
    -- the names, the seconds and the zone remain
    case h_32 => cases q.swapCase <;> cases t.zone <;> simp [add]
    all_goals split <;> simp_all
  exact ⟨fun u => (hall u).1, (hall true).2.1, fun h => (hall true).2.2.1 _ h,
    fun u => (hall u).2.2.2.1, (hall true).2.2.2.2⟩

theorem convert_lawful (ht : InRange t) (m : Spec × Char) :
    Law t (Lower t) m (marked (convert t) m) :=
  law_marked (by simp [Lower, names]) (law_convert ht) m

/-- Of the formats of the C locale only the one of `%c` has names. -/
theorem composite_eq_some {c : Char} {l : String} (hl : composite c = some l) :
    c ∉ names ++ ['P', 'p', 's', 'Z'] ∧ (∀ m ∈ marks none l.toList, m.2 ≠ 's' ∧ m.2 ≠ 'Z') ∧
      (c = 'c' ∨ ∀ m ∈ (marks none l.toList).takeWhile (resets · = none),
        m.2 ∉ names ++ ['P', 'Z']) := by
  unfold composite at hl
  split at hl <;> simp only [Option.some.injEq, reduceCtorEq] at hl <;> subst hl <;> decide +kernel

theorem law_convertAll (ht : InRange t) (m : Spec × Char) (hm : m.1.isFlag m.2 = false) :
    Law t (fun c => c = 'c' ∨ Lower t c) m fun u => convertAll t m.1 u m.2 := by
  have hlaw := convert_lawful ht
  cases hl : composite m.2 with
  | none =>
    have hc : m.2 ≠ 'c' := by
      rintro he
      simp [he, composite] at hl
    have h := law_convert ht m hm
    simp only [convertAll, hl]
    exact ⟨h.none_iff, h.length_eq, h.reset, h.keep, by simpa [hc] using h.same_iff⟩
  | some l =>
    obtain ⟨hn, hf, hq⟩ := composite_eq_some hl
    simp only [convertAll, hl]
    have hfail : ¬ ∃ m ∈ marks none l.toList, Fails t m.2 := by
      rintro ⟨m, hm, ⟨he, -⟩ | ⟨he, -⟩⟩
      exacts [(hf m hm).1 he, (hf m hm).2 he]
    have hr : resets m = none := by simp_all [resets]
    refine ⟨fun u => ?_, map_length_rest hlaw, by simp [hr], fun _ _ => rfl, fun _ => ?_⟩
    · exact (rest_eq_none_iff hlaw).trans (iff_of_false hfail (by simp_all [Fails]))
    · refine (rest_eq_iff hlaw).trans ?_
      simp only [hfail, false_or]
      by_cases hc : m.2 = 'c'
      · obtain rfl : "%a %b %e %H:%M:%S %Y" = l := by simpa [hc, composite] using hl
        refine iff_of_false (fun h => ?_) (by simp [hc])
        have ha : ∃ m ∈ (marks none "%a %b %e %H:%M:%S %Y".toList).takeWhile (resets · = none),
            m.2 ∈ names := by decide +kernel
        obtain ⟨m', hm', ha⟩ := ha
        exact h m' hm' (.inl ha)
      · have hlow : ¬ Lower t m.2 := by simp_all [Lower]
        refine iff_of_true (fun m hm => ?_) (by simp [hc, hlow])
        have := (hq.resolve_left hc) m hm
        simp_all [Lower]

theorem convertAll_lawful (ht : InRange t) (m : Spec × Char) :
    Law t (fun c => c = 'c' ∨ Lower t c) m (marked (convertAll t) m) :=
  law_marked (by simp [Lower, names]) (law_convertAll ht) m

/-- **When the pieces are printed one by one**: when a conversion fails; or the last flag or
conversion of the first piece that sets the case does not set upper case; or the second piece sets
the case before it prints a letter in lower case. -/
theorem strftime_pieces_iff (ht : InRange t) (hf : (fmt (convertAll t) false f).spec = none)
    (g : List Char) : strftime t (f ++ g) = cat (strftime t f) (strftime t g) ↔
      (∃ m ∈ marks none f ++ marks none g, Fails t m.2) ∨
      ((marks none f).filterMap resets).getLast? ≠ some true ∨
      ∀ m ∈ (marks none g).takeWhile (resets · = none), m.2 ≠ 'c' ∧ ¬ Lower t m.2 := by
  have hlaw := convertAll_lawful ht
  have happ : strftime t (f ++ g) = cat (strftime t f)
      (rest (convertAll t) none (((marks none f).filterMap resets).getLast?.getD false) g) := by
    have hu := foldl_upcase (p := none) (u := false) (f := f) hlaw (some [])
    unfold strftime
    rw [← hu, fmt, foldl_append, ← fmt]
    rcases hs : fmt (convertAll t) false f with ⟨spec, upcase, out⟩
    obtain rfl : spec = none := by simpa [hs] using hf
    rw [foldl_text]
    simp [Fmt.text, cat_nil]
  have hg : strftime t g = rest (convertAll t) none false g := rfl
  have hfn : strftime t f = none ↔ ∃ m ∈ marks none f, Fails t m.2 :=
    rest_eq_none_iff (p := none) (u := false) hlaw
  rw [happ, hg]
  cases hx : strftime t f with
  | none =>
    obtain ⟨m, hm, hm'⟩ := hfn.1 hx
    exact iff_of_true rfl (.inl ⟨m, mem_append_left _ hm, hm'⟩)
  | some l =>
    have hok : ¬ ∃ m ∈ marks none f, Fails t m.2 := by simp [← hfn, hx]
    have hor : (∃ m ∈ marks none f ++ marks none g, Fails t m.2) ↔
        ∃ m ∈ marks none g, Fails t m.2 := by
      simp only [mem_append, or_and_right, exists_or, hok, false_or]
    rw [cat_some_inj, hor]
    rcases hb : ((marks none f).filterMap resets).getLast? with - | - | -
    · simp
    · simp
    · simpa using rest_eq_iff (p := none) (f := g) hlaw

/-- Sunday, 7 January 2024, 03:04:05. -/
def sunday : Tm := ⟨⟨124, 0, 6⟩, 5, 4, 3, 7, 0, 0, some "UTC".toList, 0⟩

theorem strftime_pieces_iff_date : strftime sunday "%d%B".toList = some "07January".toList :=
  ((strftime_pieces_iff (t := sunday) (f := "%d".toList) (by simp [InRange, sunday])
    (by decide +kernel) "%B".toList).mpr (.inr (.inl (by decide +kernel)))).trans
      (by decide +kernel)

/-- Upper case outlives `%p`. -/
theorem strftime_leaks : strftime sunday "%p".toList = some "AM".toList ∧
    strftime sunday "%a".toList = some "Sun".toList ∧
    strftime sunday "%p%a".toList = some "AMSUN".toList := by
  decide +kernel

end Strftime
