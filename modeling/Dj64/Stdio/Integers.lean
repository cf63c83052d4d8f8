import Dj64.Stdio.Doprnt

/-!
# Integer conversions

The directives `d`, `i`, `o`, `u`, `x` and `X` with their flags, width, precision and length, what
the standard prescribes for them, and what `_doprnt` prints.

* `Directive.render`, `Directive.standard`: the text of a directive, and what it should print.
* `doprnt_render`: what it prints.
* `integer_standard_iff`: when the two agree.
-/

namespace Integers

open Doprnt List Nat

/-- The flags of integer conversions. -/
inductive Flag
  | minus
  | plus
  | space
  | alt
  | zero
  deriving DecidableEq

def Flag.char : Flag → Char
  | .minus => '-'
  | .plus => '+'
  | .space => ' '
  | .alt => '#'
  | .zero => '0'

/-- A decimal number in a format, that is an `int`. -/
structure Numeral where
  text : List Char
  digits : ∀ c ∈ text, c.isDigit = true
  fits : (number 0 text).1 ≤ intMax

/-- A width or a precision: in the format, or the next argument. -/
inductive Count
  | digits (n : Numeral)
  | star

def Count.text : Count → List Char
  | .digits n => n.text
  | .star => ['*']

/-- Its value, and the arguments that it takes. -/
def Count.value (e : Env) (i : ℕ) : Count → ℤ
  | .digits n => (number 0 n.text).1
  | .star => vaInt e i

def Count.args : Count → ℕ
  | .digits _ => 0
  | .star => 1

/-- The length modifiers. -/
inductive Length
  | hh
  | h
  | none
  | l
  | ll
  | j
  | z
  | t
  deriving DecidableEq

def Length.text : Length → List Char
  | .hh => ['h', 'h']
  | .h => ['h']
  | .none => []
  | .l => ['l']
  | .ll => ['l', 'l']
  | .j => ['j']
  | .z => ['z']
  | .t => ['t']

/-- The bits of the type. -/
def Length.bits : Length → ℕ
  | .hh => 8
  | .h => 16
  | .none => 32
  | .l | .ll | .j | .z | .t => 64

/-- The bits of the type that `ARG` fetches: `hh` and `t` are not taken into account. -/
def Length.argBits (length : Length) : ℕ :=
  if length = .hh ∨ length = .t then 32 else length.bits

/-- The conversions. -/
inductive Conv
  | d
  | i
  | o
  | u
  | x
  | X
  deriving DecidableEq

def Conv.char : Conv → Char
  | .d => 'd'
  | .i => 'i'
  | .o => 'o'
  | .u => 'u'
  | .x => 'x'
  | .X => 'X'

def Conv.signed : Conv → Bool
  | .d | .i => true
  | _ => false

def Conv.base : Conv → ℕ
  | .o => 8
  | .x | .X => 16
  | _ => 10

/-- A directive; a width in the format does not begin with `0`. -/
structure Directive where
  flags : List Flag
  width : Option Count
  prec : Option Count
  length : Length
  conv : Conv
  leading : ∀ n, width = some (.digits n) → ∃ c t, n.text = c :: t ∧ c ≠ '0'

def Directive.tail (d : Directive) (rest : List Char) : List Char :=
  d.length.text ++ d.conv.char :: rest

/-- The text of a directive, and the rest of the format. -/
def Directive.render (d : Directive) (rest : List Char) : List Char :=
  '%' :: (d.flags.map Flag.char ++ ((d.width.map Count.text).getD [] ++
    ((d.prec.map fun p => '.' :: p.text).getD [] ++ d.tail rest)))

/-! ### The standard -/

/-- The digits of a value, with a precision; with `alt`, the first one is a zero. -/
def digits (base : ℕ) (upper alt : Bool) (prec : Option ℕ) (v : ℕ) : List Char :=
  let ds := if v = 0 then [] else (toDigits base v).map fun c => if upper then c.toUpper else c
  let n := if alt then max (prec.getD 1) (ds.length + 1) else prec.getD 1
  replicate (n - ds.length) '0' ++ ds

/-- The field: what leads the digits, the digits, and the padding. -/
def layout (left zero : Bool) (width : ℕ) (lead ds : List Char) : List Char :=
  let pad := width - (lead.length + ds.length)
  if left then lead ++ ds ++ replicate pad ' '
  else if zero then lead ++ replicate pad '0' ++ ds
  else replicate pad ' ' ++ lead ++ ds

section Standard

variable (d : Directive) (e : Env) (i : ℕ)

def Directive.precArg : ℕ := i + (d.width.map Count.args).getD 0

def Directive.arg : ℕ := d.precArg i + (d.prec.map Count.args).getD 0

/-- The width; a negative one is the flag `-` and a width. -/
def Directive.widthValue : ℤ := (d.width.map (Count.value e i)).getD 0

def Directive.precValue : Option ℕ :=
  (d.prec.map (Count.value e (d.precArg i))).bind fun p => if p < 0 then none else some p.toNat

def Directive.magnitude (bits : ℕ) (x : UInt64) : ℕ :=
  if d.conv.signed then (Int.bmod x.toNat (2 ^ bits)).natAbs else x.toNat % 2 ^ bits

/-- The sign. -/
def Directive.sign (bits : ℕ) (x : UInt64) : Option Char :=
  if !d.conv.signed then none
  else if Int.bmod x.toNat (2 ^ bits) < 0 then some '-'
  else if .plus ∈ d.flags then some '+'
  else if .space ∈ d.flags then some ' '
  else none

/-- What leads the digits of a word that is taken as an integer with so many bits. -/
def Directive.lead (bits : ℕ) : List Char :=
  (d.sign bits (e.args (d.arg i))).toList ++
    if d.conv.base = 16 ∧ .alt ∈ d.flags ∧ d.magnitude bits (e.args (d.arg i)) ≠ 0 then
      ['0', d.conv.char] else []

/-- Its field. -/
def Directive.field (bits : ℕ) (ds : List Char) : List Char :=
  layout (.minus ∈ d.flags || d.widthValue e i < 0)
    (.zero ∈ d.flags && (d.precValue e i).isNone) (d.widthValue e i).natAbs (d.lead e i bits) ds

/-- Its digits. -/
def Directive.digits (bits : ℕ) : List Char :=
  Integers.digits d.conv.base (d.conv = .X) (d.conv.base = 8 && .alt ∈ d.flags) (d.precValue e i)
    (d.magnitude bits (e.args (d.arg i)))

/-- What the standard prescribes. -/
def Directive.standard : List Char := d.field e i d.length.bits (d.digits e i d.length.bits)

/-- Zero with `#` and the precision 0 in octal. -/
def Directive.Lost (bits : ℕ) : Prop :=
  d.conv.base = 8 ∧ .alt ∈ d.flags ∧ d.precValue e i = some 0 ∧
    d.magnitude bits (e.args (d.arg i)) = 0

instance (bits : ℕ) : Decidable (d.Lost e i bits) := by
  unfold Directive.Lost
  infer_instance

/-- What `_doprnt` prints: with `hh` and `t` the argument is an `int`, and no digit is left of zero
with `#` and the precision 0 in octal. -/
def Directive.emitted : List Char :=
  d.field e i d.length.argBits
    (if d.Lost e i d.length.argBits then [] else d.digits e i d.length.argBits)

/-- The directive and its argument are none of the exceptions. -/
structure Directive.Fits : Prop where
  magnitude : d.magnitude d.length.argBits (e.args (d.arg i)) =
    d.magnitude d.length.bits (e.args (d.arg i))
  sign : d.sign d.length.argBits (e.args (d.arg i)) = d.sign d.length.bits (e.args (d.arg i))
  octal : ¬ d.Lost e i d.length.bits

end Standard

/-! ### The flags -/

variable {e : Env} {s s' : Spec} {i i' base v : ℕ} {c : Char} {fmt fmt' ds rest : List Char}

theorem rflag_again (h : switch e s i c fmt = .again s' i' fmt') :
    rflag e s i (c :: fmt) = rflag e s' i' fmt' := by
  rw [rflag]
  split
  · next h' =>
    cases h'.symm.trans h
    rfl
  · next h' => cases h'.symm.trans h
  · next h' => cases h'.symm.trans h

theorem rflag_flag (h : s.flag c = some s') : rflag e s i (c :: fmt) = rflag e s' i fmt :=
  rflag_again (by rw [switch, h])

/-- The flags that are set after some more. -/
theorem rflag_flags (s : Spec) (flags : List Flag) :
    rflag e s i (flags.map Flag.char ++ fmt) = rflag e { s with
      alt := s.alt || .alt ∈ flags
      ladjust := s.ladjust || .minus ∈ flags
      zeropad := s.zeropad || .zero ∈ flags
      sign := if .plus ∈ flags then some '+'
        else s.sign.or (if .space ∈ flags then some ' ' else none) } i fmt := by
  induction flags generalizing s with
  | nil => simp
  | cons f flags ih =>
    rw [map_cons, cons_append]
    cases f with
    | minus | alt | zero =>
      rw [rflag_flag rfl, ih]
      simp
    | plus =>
      rw [rflag_flag rfl, ih]
      simp
    | space =>
      rw [rflag_flag rfl, ih]
      cases s.sign <;> simp

def Stops (l : List Char) : Prop := ∃ c t, l = c :: t ∧ c.isDigit = false ∧ c ≠ '$' ∧ c ≠ '*'

theorem Directive.stops_tail (d : Directive) (rest : List Char) : Stops (d.tail rest) := by
  unfold Directive.tail
  cases d.length <;> cases d.conv <;> exact ⟨_, _, rfl, by decide⟩

theorem number_append (hds : ∀ c ∈ ds, c.isDigit) (hr : Stops rest)
    (n : ℕ) : number n (ds ++ rest) = ((number n ds).1, rest) := by
  induction ds generalizing n with
  | nil =>
    obtain ⟨c, t, rfl, hc, -⟩ := hr
    rw [nil_append, number, number, hc]
    rfl
  | cons c ds ih =>
    have hc := hds c mem_cons_self
    rw [cons_append, number, if_pos hc, number, if_pos hc]
    exact ih (forall_mem_cons.mp hds).2 _

theorem unnumbered_append (hds : ∀ c ∈ ds, c.isDigit)
    (hr : Stops rest) (hmax : (number 0 ds).1 ≤ intMax) : unnumbered (ds ++ rest) := by
  rw [unnumbered, number_append hds hr]
  obtain ⟨c, t, rfl, -, hc, -⟩ := hr
  simp [hmax, hc]

theorem flag_digit (hc : c.isDigit) (hne : c ≠ '0') : s.flag c = none := by
  unfold Spec.flag
  split
  all_goals first
    | rfl
    | exact absurd hc (by decide)
    | exact absurd rfl hne

theorem rflag_width (w : Count) (hl : ∀ n, w = .digits n → ∃ c t, n.text = c :: t ∧ c ≠ '0')
    (hw : w.value e i ≠ -2 ^ 31) (hfmt : Stops fmt) :
    rflag e s i (w.text ++ fmt) = rflag e { s with
      width := (w.value e i).natAbs
      ladjust := s.ladjust || w.value e i < 0 } (i + w.args) fmt := by
  cases w with
  | digits n =>
    obtain ⟨c, t, ht, hc⟩ := hl n rfl
    have hd : c.isDigit := n.digits c (by rw [ht]; exact mem_cons_self)
    have hnum := number_append n.digits hfmt 0
    have hun := unnumbered_append n.digits hfmt n.fits
    have hs : c ≠ '*' := fun h => by rw [h] at hd; cases hd
    have hdot : c ≠ '.' := fun h => by rw [h] at hd; cases hd
    rw [ht, cons_append] at hnum hun
    rw [Count.text, Count.value, Count.args, ht, cons_append]
    refine rflag_again ?_
    rw [switch, flag_digit hd hc]
    rw [if_neg hs, if_neg hdot, if_pos hd, if_pos hun, hnum]
    simp
  | star =>
    have hun := @unnumbered_append [] fmt (fun c hc => nomatch hc) hfmt (zero_le _)
    rw [nil_append] at hun
    rw [Count.text, Count.value, Count.args, singleton_append] at *
    refine rflag_again ?_
    rw [switch, show s.flag '*' = none from rfl]
    rw [if_pos rfl, if_pos (by rw [hun, decide_eq_true hw]; rfl)]

theorem rflag_prec (p : Count) (hfmt : Stops fmt) :
    rflag e s i ('.' :: (p.text ++ fmt)) = rflag e { s with
      prec := if p.value e i < 0 then none else some (p.value e i).toNat } (i + p.args) fmt := by
  cases p with
  | digits n =>
    have hh : (n.text ++ fmt).head? ≠ some '*' := by
      cases ht : n.text with
      | nil =>
        obtain ⟨c, t, rfl, -, -, hc⟩ := hfmt
        simpa using hc
      | cons c t =>
        have hd : c.isDigit := n.digits c (by rw [ht]; exact mem_cons_self)
        intro h
        cases h
        cases hd
    rw [Count.text, Count.value, Count.args]
    refine rflag_again ?_
    rw [switch, show s.flag '.' = none from rfl]
    rw [if_neg hh, number_append n.digits hfmt, if_pos n.fits]
    simp
  | star =>
    have hun := @unnumbered_append [] fmt (fun c hc => nomatch hc) hfmt (zero_le _)
    rw [nil_append] at hun
    rw [Count.text, Count.value, Count.args, singleton_append]
    refine rflag_again ?_
    rw [switch, show s.flag '.' = none from rfl]
    rw [if_neg (by decide), if_pos rfl, head?_cons, if_pos rfl, tail_cons, if_pos hun]

/-- The flags of a length. -/
def Length.set (s : Spec) : Length → Spec
  | .hh => { s with charint := true }
  | .h => { s with shortint := true }
  | .l | .z => { s with longint := true }
  | .ll => { s with longint := true, longdbl := true }
  | .j => { s with longdbl := true }
  | .none | .t => s

theorem rflag_tail (d : Directive) (hl : s.longint = false) (hsh : s.shortint = false)
    (rest : List Char) :
    rflag e s i (d.tail rest) = some (d.length.set s, i, d.conv.char :: rest) := by
  have hc (s : Spec) : rflag e s i (d.conv.char :: rest) = some (s, i, d.conv.char :: rest) := by
    have hs : switch e s i d.conv.char rest = .convert := by
      cases d.conv <;> rfl
    rw [rflag]
    split
    · next h => cases h.symm.trans hs
    · rfl
    · next h => cases h.symm.trans hs
  obtain ⟨longint, longdbl, shortint, charint⟩ := s
  cases hl
  cases hsh
  unfold Directive.tail
  cases d.length <;> simp only [Length.text, cons_append, nil_append]
  case none => exact hc _
  case hh | ll => rw [rflag_flag rfl, rflag_flag rfl, hc]; rfl
  all_goals rw [rflag_flag rfl, hc]; rfl

/-- What `_doprnt` has read before the character of the conversion. -/
def Directive.spec (d : Directive) (e : Env) (i : ℕ) : Spec :=
  d.length.set {
    alt := .alt ∈ d.flags
    ladjust := .minus ∈ d.flags || d.widthValue e i < 0
    zeropad := .zero ∈ d.flags
    sign := if .plus ∈ d.flags then some '+' else if .space ∈ d.flags then some ' ' else none
    width := (d.widthValue e i).natAbs
    prec := d.precValue e i }

theorem rflag_render (d : Directive) (hw : ∀ c, d.width = some c → c.value e i ≠ -2 ^ 31)
    (rest : List Char) : rflag e {} i (d.render rest).tail =
      some (d.spec e i, d.arg i, d.conv.char :: rest) := by
  have ht := d.stops_tail rest
  have hst : Stops ((d.prec.map fun p => '.' :: p.text).getD [] ++ d.tail rest) := by
    cases d.prec with
    | none => exact ht
    | some p => exact ⟨'.', _, rfl, by decide⟩
  have hend (s : Spec) (hl : s.longint = false) (hs : s.shortint = false) (hp : s.prec = none) :
      rflag e s (d.precArg i) ((d.prec.map fun p => '.' :: p.text).getD [] ++ d.tail rest) =
        some (d.length.set { s with prec := d.precValue e i }, d.arg i, d.conv.char :: rest) := by
    unfold Directive.precValue Directive.arg
    cases d.prec with
    | none =>
      refine (rflag_tail d hl hs rest).trans ?_
      cases s
      cases hp
      rfl
    | some p =>
      refine (rflag_prec p ht).trans ((rflag_tail d ?_ ?_ rest).trans rfl)
      · exact hl
      · exact hs
  rw [Directive.render, tail_cons, rflag_flags]
  unfold Directive.spec Directive.widthValue
  cases hwi : d.width with
  | none =>
    rw [show d.precArg i = i by rw [Directive.precArg, hwi]; rfl] at hend
    refine (hend _ rfl rfl rfl).trans ?_
    simp
  | some w =>
    refine (rflag_width w (fun n hn => d.leading n (hwi.trans (congrArg some hn)))
      (hw w hwi) hst).trans ?_
    rw [show i + w.args = d.precArg i by rw [Directive.precArg, hwi]; rfl]
    refine (hend _ rfl rfl rfl).trans ?_
    simp

/-! ### The digits -/

theorem head_toDigits (hb : 1 < base) (hle : base ≤ 16) (hv : v ≠ 0) :
    (toDigits base v).head? ≠ some '0' := by
  induction v using Nat.strong_induction_on with
  | _ v ih =>
    rcases lt_or_ge v base with hlt | hge
    · rw [toDigits_of_lt_base hlt]
      intro h
      have := digitChar_eq_zero.mp (Option.some.inj h)
      omega
    · have hdiv : v / base ≠ 0 := (div_pos hge (by omega)).ne'
      rw [toDigits_of_base_le hb hge, head?_append_of_ne_nil _ toDigits_ne_nil]
      exact ih (v / base) (div_lt_self (by omega) hb) hdiv

theorem field_eq (s : Spec) (lead : List Char) (dprec : ℕ) (t : List Char) :
    field s lead dprec (max dprec t.length + lead.length) t =
      layout s.ladjust s.zeropad s.width lead (replicate (dprec - t.length) '0' ++ t) := by
  have hlen : lead.length + (replicate (dprec - t.length) '0' ++ t).length =
      max dprec t.length + lead.length := by
    rw [length_append, length_replicate]
    omega
  unfold field layout
  rw [hlen]
  cases s.ladjust <;> cases s.zeropad <;> simp [-replicate_append_replicate]

/-- The digits that `_doprnt` prints, with their leading zeros. -/
theorem digits_eq (hb : 1 < base) (hle : base ≤ 16) (upper alt : Bool)
    (hu : alt → upper = false) (prec : Option ℕ) (t t' : List Char)
    (ht : t = if v ≠ 0 ∨ prec ≠ some 0 then convert base upper v else [])
    (ht' : t' = if alt && !t.isEmpty && t.head? != some '0' then '0' :: t else t) :
    replicate (prec.getD 0 - t'.length) '0' ++ t' =
      if alt ∧ prec = some 0 ∧ v = 0 then [] else digits base upper alt prec v := by
  by_cases hv : v = 0
  · subst hv
    have hz : convert base upper 0 = ['0'] := by
      rw [convert, toDigits_zero]
      cases upper <;> rfl
    cases prec with
    | none =>
      obtain rfl : t = ['0'] := by simpa [hz] using ht
      obtain rfl : t' = ['0'] := by simpa using ht'
      cases alt <;> rfl
    | some p =>
      cases p with
      | zero =>
        obtain rfl : t = [] := by simpa using ht
        obtain rfl : t' = [] := by simpa using ht'
        cases alt <;> rfl
      | succ p =>
        obtain rfl : t = ['0'] := by simpa [hz] using ht
        obtain rfl : t' = ['0'] := by simpa using ht'
        simp [digits, replicate_succ']
  rw [if_neg fun h => hv h.2.2]
  obtain rfl : t = convert base upper v := by simpa [hv] using ht
  have hpos : 0 < (convert base upper v).length := by
    rw [convert, length_map]
    exact length_toDigits_pos
  have hd : digits base upper alt prec v =
      replicate ((if alt then max (prec.getD 1) ((convert base upper v).length + 1)
        else prec.getD 1) - (convert base upper v).length) '0' ++ convert base upper v := by
    simp [digits, convert, hv]
  have hp : prec.getD 1 = prec.getD 0 ∨ prec.getD 0 = 0 ∧ prec.getD 1 = 1 := by
    cases prec <;> simp
  rw [hd]
  cases alt with
  | false =>
    obtain rfl : t' = convert base upper v := by simpa using ht'
    rw [if_neg Bool.false_ne_true]
    congr 2
    omega
  | true =>
    have hh : (convert base upper v).head? ≠ some '0' := by
      rw [hu rfl, convert]
      simpa using head_toDigits hb hle hv
    have hne : (convert base upper v).isEmpty = false := by
      cases hc : convert base upper v with
      | nil => rw [hc] at hpos; exact absurd hpos (lt_irrefl 0)
      | cons c l => rfl
    obtain rfl : t' = '0' :: convert base upper v := by simpa [hne, hh] using ht'
    generalize convert base upper v = l at *
    rw [if_pos rfl, show max (prec.getD 1) (l.length + 1) - l.length =
      (prec.getD 0 - (l.length + 1)) + 1 by omega, replicate_succ', append_assoc]
    rfl

theorem printNumber_eq (hb : 1 < base) (hle : base ≤ 16)
    (sign he : Option Char) (upper : Bool) (hg : s.grouping = false) (hu : base = 8 → upper = false)
    (st : State) (text : List Char)
    (hte : text = layout s.ladjust (s.zeropad && s.prec.isNone) s.width
      (sign.toList ++ (he.map fun x => ['0', x]).getD [])
      (if (base = 8 ∧ s.alt) ∧ s.prec = some 0 ∧ v = 0 then []
        else digits base upper (base = 8 && s.alt) s.prec v)) :
    printNumber e s sign he base upper true v st =
      if intMax < st.cnt + text.length then none
      else some { st with cnt := st.cnt + text.length, fp := st.fp.puts text } := by
  -- the flag `0` is dropped if there is a precision
  obtain ⟨s', hs', hpr, halt, hg', hs⟩ : ∃ s' : Spec,
      (if s.prec.isSome then { s with zeropad := false } else s) = s' ∧ s'.prec = s.prec ∧
      s'.alt = s.alt ∧ s'.grouping = false ∧ ∀ lead ds,
        layout s'.ladjust s'.zeropad s'.width lead ds =
          layout s.ladjust (s.zeropad && s.prec.isNone) s.width lead ds := by
    cases hp : s.prec with
    | none => exact ⟨s, by simp, hp, rfl, hg, by simp⟩
    | some p => exact ⟨{ s with zeropad := false }, by simp [hp], hp, rfl, hg, by simp⟩
  unfold printNumber
  rw [hs']
  dsimp only
  rw [hpr, halt, hg', Bool.and_false, Bool.false_and, Bool.false_and, if_neg Bool.false_ne_true]
  obtain ⟨t, ht⟩ : ∃ t, t = if v ≠ 0 ∨ s.prec ≠ some 0 then convert base upper v else [] := ⟨_, rfl⟩
  rw [← ht]
  obtain ⟨t', ht'⟩ : ∃ t', t' =
      if s.alt && base == 8 && !t.isEmpty && t.head? != some '0' then '0' :: t else t := ⟨_, rfl⟩
  rw [← ht']
  have hd := digits_eq hb hle upper (base = 8 && s.alt) (by simpa using fun h _ => hu h)
    s.prec t t' ht (by
      rw [ht', Bool.and_comm s.alt, show (base == 8) = decide (base = 8) from rfl])
  have hf : field s' (sign.toList ++ (he.map fun x => ['0', x]).getD []) (s.prec.getD 0)
      (max (s.prec.getD 0) t'.length +
        (sign.toList ++ (he.map fun x => ['0', x]).getD []).length) t' = text := by
    rw [field_eq, hd, hs, hte]
    simp only [Bool.and_eq_true, decide_eq_true_eq]
  unfold pforw
  dsimp only
  rw [← field_length, hf]

/-! ### The conversions -/

theorem spec_eq (d : Directive) :
    (d.spec e i).alt = decide (.alt ∈ d.flags) ∧ (d.spec e i).grouping = false ∧
      (d.spec e i).sign = (if .plus ∈ d.flags then some '+' else
        if .space ∈ d.flags then some ' ' else none) ∧
      (d.spec e i).prec = d.precValue e i ∧
      (d.spec e i).ladjust = (decide (.minus ∈ d.flags) || decide (d.widthValue e i < 0)) ∧
      (d.spec e i).zeropad = decide (.zero ∈ d.flags) ∧
      (d.spec e i).width = (d.widthValue e i).natAbs := by
  unfold Directive.spec
  cases d.length <;> exact ⟨rfl, rfl, rfl, rfl, rfl, rfl, rfl⟩

theorem modulus_spec (d : Directive) : (d.spec e i).modulus = 2 ^ d.length.argBits := by
  unfold Directive.spec
  cases d.length <;> rfl

theorem conversion_char (s : Spec) (d : Directive) (st : State) :
    conversion e s d.conv.char st = printNumber e s
      (if d.conv.signed then if argSigned e s st.argp < 0 then some '-' else s.sign else none)
      (if d.conv.base = 16 ∧ s.alt ∧ argUnsigned e s st.argp ≠ 0 then some d.conv.char
        else none) d.conv.base (d.conv = .X) true
      (if d.conv.signed then (argSigned e s st.argp).natAbs else argUnsigned e s st.argp)
      { st with argp := st.argp + 1 } := by
  cases d.conv <;> simp [conversion, Conv.char, Conv.signed, Conv.base]

/-- What a directive prints, and how its characters are counted. -/
theorem doprnt_render (d : Directive) (st : State) (rest : List Char)
    (hw : ∀ c, d.width = some c → c.value e st.argp ≠ -2 ^ 31) :
    doprnt e (d.render rest) st =
      if intMax < st.cnt + (d.emitted e st.argp).length then none
      else doprnt e rest { st with
        argp := d.arg st.argp + 1
        cnt := st.cnt + (d.emitted e st.argp).length
        fp := st.fp.puts (d.emitted e st.argp) } := by
  obtain ⟨halt, hg, hs, hpr, hle, hz, hwi⟩ := @spec_eq e st.argp d
  have hm : (if d.conv.signed then (argSigned e (d.spec e st.argp) (d.arg st.argp)).natAbs
      else argUnsigned e (d.spec e st.argp) (d.arg st.argp)) =
      d.magnitude d.length.argBits (e.args (d.arg st.argp)) := by
    rw [argSigned, argUnsigned, modulus_spec]
    rfl
  have hl : (if d.conv.signed then if argSigned e (d.spec e st.argp) (d.arg st.argp) < 0 then
      some '-' else (d.spec e st.argp).sign else none) =
      d.sign d.length.argBits (e.args (d.arg st.argp)) := by
    rw [argSigned, modulus_spec, hs, Directive.sign]
    cases d.conv.signed <;> rfl
  have hhex : ((if d.conv.base = 16 ∧ (d.spec e st.argp).alt ∧
      argUnsigned e (d.spec e st.argp) (d.arg st.argp) ≠ 0 then some d.conv.char
      else none).map fun x => ['0', x]).getD [] =
      if d.conv.base = 16 ∧ .alt ∈ d.flags ∧
        d.magnitude d.length.argBits (e.args (d.arg st.argp)) ≠ 0 then ['0', d.conv.char]
      else [] := by
    rw [← hm, halt]
    cases d.conv with
    | x | X =>
      simp only [Conv.signed, decide_eq_true_eq, Bool.false_eq_true, if_false]
      split_ifs <;> rfl
    | d | i | o | u => rfl
  have hb : 1 < d.conv.base ∧ d.conv.base ≤ 16 := by cases d.conv <;> decide
  have hu : d.conv.base = 8 → decide (d.conv = .X) = false := by cases d.conv <;> decide
  rw [show d.render rest = '%' :: (d.render rest).tail from rfl, doprnt_percent,
    rflag_render d hw, Option.bind_some, afterFlags, conversion_char, hm, hl,
    printNumber_eq hb.1 hb.2 _ _ _ hg hu { st with argp := d.arg st.argp + 1 }
      (d.emitted e st.argp) ?_]
  · split_ifs <;> rfl
  · rw [hhex, halt, hpr, hle, hz, hwi]
    simp only [decide_eq_true_eq, and_assoc]
    rfl

/-! ### The text determines the number -/

/-- The value of a digit. -/
def digit (c : Char) : Option ℕ :=
  if c.isDigit then some (c.toNat - 48) else if c ∈ "abcdef".toList then some (c.toNat - 87)
  else if c ∈ "ABCDEF".toList then some (c.toNat - 55) else none

/-- The number that is read before a text, and its digits. -/
def read (base n : ℕ) (text : List Char) : ℕ :=
  text.foldl (fun n c => (digit c).elim n (base * n + ·)) n

theorem read_append (n : ℕ) (l l' : List Char) :
    read base n (l ++ l') = read base (read base n l) l' := foldl_append

theorem read_none {l : List Char} (hl : ∀ c ∈ l, digit c = none) (n : ℕ) : read base n l = n := by
  induction l with
  | nil => rfl
  | cons c l ih =>
    rw [read, foldl_cons, hl c mem_cons_self]
    exact ih fun c hc => hl c (mem_cons_of_mem _ hc)

/-- Zeros do not count at the beginning. -/
theorem read_zero {l : List Char} (hl : ∀ c ∈ l, digit c = none ∨ digit c = some 0) :
    read base 0 l = 0 := by
  induction l with
  | nil => rfl
  | cons c l ih =>
    have := ih fun c hc => hl c (mem_cons_of_mem _ hc)
    rw [read, foldl_cons]
    rcases hl c mem_cons_self with h | h <;> simpa [h, read] using this

theorem digit_digitChar {n : ℕ} (hn : n < 16) (upper : Bool) :
    digit (if upper then n.digitChar.toUpper else n.digitChar) = some n := by
  have : ∀ n : Fin 16, ∀ upper : Bool,
    digit (if upper then (digitChar n).toUpper else digitChar n) = some n.1 := by decide
  exact this ⟨n, hn⟩ upper

theorem read_convert (hb : 1 < base) (hle : base ≤ 16) (upper : Bool) (v : ℕ) :
    read base 0 (convert base upper v) = v ∧ ∀ c ∈ convert base upper v, digit c ≠ none := by
  induction v using Nat.strong_induction_on with
  | _ v ih =>
    rcases lt_or_ge v base with hlt | hge
    · have hd := digit_digitChar (hlt.trans_le hle) upper
      rw [convert, toDigits_of_lt_base hlt]
      simp [read, hd]
    · obtain ⟨h1, h2⟩ := ih (v / base) (div_lt_self (by omega) hb)
      have hlt := mod_lt v (by omega : 0 < base)
      have hd := digit_digitChar (hlt.trans_le hle) upper
      have hc : convert base upper v = convert base upper (v / base) ++
          [if upper then (v % base).digitChar.toUpper else (v % base).digitChar] := by
        rw [convert, toDigits_of_base_le hb hge, map_append]
        rfl
      rw [hc, read_append, h1]
      refine ⟨?_, fun c hc => ?_⟩
      · simp [read, hd, div_add_mod]
      · rcases mem_append.mp hc with hc | hc
        · exact h2 c hc
        · rw [mem_singleton.mp hc, hd]
          exact Option.some_ne_none _

theorem read_digits (hb : 1 < base) (hle : base ≤ 16) (upper alt : Bool) (prec : Option ℕ) (v : ℕ) :
    read base 0 (digits base upper alt prec v) = v ∧
      ∀ c ∈ digits base upper alt prec v, digit c ≠ none := by
  have hds : read base 0 (if v = 0 then [] else convert base upper v) = v ∧
      ∀ c ∈ (if v = 0 then [] else convert base upper v), digit c ≠ none := by
    split_ifs with hv
    · exact ⟨hv.symm, by simp⟩
    · exact read_convert hb hle upper v
  unfold digits
  dsimp only
  rw [read_append, read_zero fun c hc => by rw [eq_of_mem_replicate hc]; decide]
  refine ⟨hds.1, fun c hc => ?_⟩
  rcases mem_append.mp hc with hc | hc
  · rw [eq_of_mem_replicate hc]
    decide
  · exact hds.2 c hc

theorem read_layout {left zero : Bool} {width : ℕ} {lead ds : List Char}
    (hl : ∀ c ∈ lead, digit c = none ∨ digit c = some 0) :
    read base 0 (layout left zero width lead ds) = read base 0 ds := by
  have hs (n : ℕ) : ∀ c ∈ replicate n ' ', digit c = none := fun c hc => by
    rw [eq_of_mem_replicate hc]
    decide
  have hz (n : ℕ) : ∀ c ∈ replicate n '0', digit c = none ∨ digit c = some 0 := fun c hc => by
    rw [eq_of_mem_replicate hc]
    decide
  unfold layout
  dsimp only
  split_ifs
  · rw [read_append, read_append, read_zero hl, read_none (hs _)]
  · rw [read_append, read_append, read_zero hl, read_zero (hz _)]
  · rw [read_append, read_append, read_none (hs _), read_zero hl]

theorem mem_layout {left zero : Bool} {width : ℕ} {lead ds : List Char} (hc : c ≠ ' ')
    (hz : c = '0' → zero = false) :
    c ∈ layout left zero width lead ds ↔ c ∈ lead ∨ c ∈ ds := by
  unfold layout
  dsimp only
  split_ifs with h1 h2
  · simp [hc]
  · have : c ≠ '0' := fun h => by simp [hz h] at h2
    simp [this]
  · simp [hc]

theorem read_field (d : Directive) (e : Env) (i bits : ℕ) (ds : List Char) :
    read d.conv.base 0 (d.field e i bits ds) = read d.conv.base 0 ds := by
  refine read_layout fun c hc => ?_
  rcases mem_append.mp hc with hc | hc
  · unfold Directive.sign at hc
    split_ifs at hc <;> simp at hc <;> rw [hc] <;> decide
  · split_ifs at hc with h
    · rcases mem_pair.mp hc with rfl | rfl
      · decide
      · cases hd : d.conv <;> simp [hd, Conv.base] at h <;> decide
    · cases hc

theorem minus_mem_field (d : Directive) (e : Env) (i bits : ℕ) {ds : List Char}
    (hds : ∀ c ∈ ds, digit c ≠ none) :
    '-' ∈ d.field e i bits ds ↔ d.sign bits (e.args (d.arg i)) = some '-' := by
  have hm : '-' ∉ ds := fun h => hds _ h (by decide)
  unfold Directive.field
  rw [mem_layout (by decide) (fun h => by simp at h)]
  have hx : '-' ∉ (if d.conv.base = 16 ∧ .alt ∈ d.flags ∧ d.magnitude bits (e.args (d.arg i)) ≠ 0
      then ['0', d.conv.char] else []) := by
    cases d.conv <;> split_ifs <;> simp [Conv.char]
  rw [Directive.lead, mem_append, or_iff_left hm, or_iff_left hx, Option.mem_toList]

/-- The sign is known from whether it is a minus. -/
theorem sign_eq_of_minus {d : Directive} {b b' : ℕ} {x : UInt64}
    (h : d.sign b x = some '-' ↔ d.sign b' x = some '-') : d.sign b x = d.sign b' x := by
  unfold Directive.sign at h ⊢
  split_ifs at h ⊢ <;> simp_all

theorem Conv.base_bounds (c : Conv) : 1 < c.base ∧ c.base ≤ 16 := by
  cases c <;> decide

/-- What `_doprnt` prints is what the standard prescribes for the directives that fit only. -/
theorem emitted_eq_standard_iff (d : Directive) (e : Env) (i : ℕ) :
    d.emitted e i = d.standard e i ↔ d.Fits e i := by
  have hd (bits : ℕ) := read_digits d.conv.base_bounds.1 d.conv.base_bounds.2 (d.conv = .X)
    (d.conv.base = 8 && .alt ∈ d.flags) (d.precValue e i) (d.magnitude bits (e.args (d.arg i)))
  -- what is printed is read as the magnitude, also if it has no digit
  have he : read d.conv.base 0 (if d.Lost e i d.length.argBits then []
        else d.digits e i d.length.argBits) = d.magnitude d.length.argBits (e.args (d.arg i)) ∧
      ∀ c ∈ (if d.Lost e i d.length.argBits then [] else d.digits e i d.length.argBits),
        digit c ≠ none := by
    split_ifs with hl
    · exact ⟨hl.2.2.2.symm, by simp⟩
    · exact hd _
  constructor
  · intro h
    have hmag : d.magnitude d.length.argBits (e.args (d.arg i)) =
        d.magnitude d.length.bits (e.args (d.arg i)) := by
      have := congrArg (read d.conv.base 0) h
      rwa [Directive.emitted, Directive.standard, read_field, read_field, he.1, Directive.digits,
        (hd _).1] at this
    refine ⟨hmag, sign_eq_of_minus ?_, fun hl => ?_⟩
    · rw [← minus_mem_field d e i _ he.2, ← minus_mem_field d e i _ (hd d.length.bits).2]
      exact iff_of_eq (congrArg ('-' ∈ ·) h)
    · -- the digit that the standard has is missing
      have hpad : (decide (.zero ∈ d.flags) && (d.precValue e i).isNone) = false := by
        rw [hl.2.2.1]
        simp
      have hz : '0' ∈ d.standard e i := by
        rw [Directive.standard, Directive.field, hpad, mem_layout (by decide) fun _ => rfl]
        right
        simp [Directive.digits, digits, hl.1, hl.2.1, hl.2.2.1, hl.2.2.2]
      have hn : '0' ∉ d.emitted e i := by
        have hs : d.conv.signed = false := by
          have := hl.1
          cases hc : d.conv <;> simp_all [Conv.base, Conv.signed]
        have hl' : d.Lost e i d.length.argBits := ⟨hl.1, hl.2.1, hl.2.2.1, hmag.trans hl.2.2.2⟩
        rw [Directive.emitted, Directive.field, hpad, mem_layout (by decide) fun _ => rfl,
          if_pos hl']
        simp [Directive.lead, Directive.sign, hl.1, hs]
      exact hn (h ▸ hz)
  · rintro ⟨hm, hs, ho⟩
    have hl : ¬ d.Lost e i d.length.argBits := by
      unfold Directive.Lost at ho ⊢
      rwa [hm]
    rw [Directive.emitted, if_neg hl, Directive.standard]
    unfold Directive.field Directive.lead Directive.digits
    rw [hm, hs]

theorem width_le_length_layout (left zero : Bool) (width : ℕ) (lead ds : List Char) :
    width ≤ (layout left zero width lead ds).length := by
  unfold layout
  dsimp only
  split_ifs <;> simp <;> omega

/-- **When integer conversions print what the standard prescribes**, whatever follows and wherever
they print: when the argument is the same number as an `int` with `hh` and `t`, and it is not zero
with `#` and the precision 0 in octal. -/
theorem integer_standard_iff (e : Env) (d : Directive) (st : State)
    (hmax : st.cnt + (d.standard e st.argp).length ≤ intMax) :
    (∀ rest fp, doprnt e (d.render rest) { st with fp := fp } = doprnt e rest { st with
      argp := d.arg st.argp + 1
      cnt := st.cnt + (d.standard e st.argp).length
      fp := fp.puts (d.standard e st.argp) }) ↔ d.Fits e st.argp := by
  obtain ⟨argp, mem, cnt, fp⟩ := st
  dsimp only at hmax ⊢
  have hw : ∀ c, d.width = some c → c.value e argp ≠ -2 ^ 31 := by
    intro c hc hv
    have hlen := width_le_length_layout (.minus ∈ d.flags || d.widthValue e argp < 0)
      (.zero ∈ d.flags && (d.precValue e argp).isNone) (d.widthValue e argp).natAbs
    have hwv : (d.widthValue e argp).natAbs = 2 ^ 31 := by
      rw [Directive.widthValue, hc, Option.map_some, Option.getD_some, hv]
      rfl
    have hle : (d.widthValue e argp).natAbs ≤ (d.standard e argp).length := hlen _ _
    rw [intMax] at hmax
    omega
  rw [← emitted_eq_standard_iff]
  constructor
  · intro h
    -- at the end of the format, and with room for both texts
    have h := h [] ⟨[], (d.emitted e argp).length + (d.standard e argp).length⟩
    rw [doprnt_render d ⟨argp, mem, cnt, _⟩ [] hw] at h
    split_ifs at h with ho
    · simp [doprnt] at h
    · have hp := congrArg (Option.map fun st => st.fp.written) h
      simp only [doprnt, File.puts_eq, Option.map_some, nil_append, Option.some.injEq] at hp
      rwa [take_of_length_le (by omega), take_of_length_le (by omega)] at hp
  · intro h rest fp
    rw [doprnt_render d ⟨argp, mem, cnt, fp⟩ rest hw, h, if_neg (not_lt.mpr hmax)]

/-- The format `%+05d` for the arguments of the environment. -/
def plusFive : Directive where
  flags := [.plus, .zero]
  width := some (.digits ⟨['5'], by simp, by decide⟩)
  prec := none
  length := .none
  conv := .d
  leading := fun n h => ⟨'5', [], by cases h; rfl, by decide⟩

theorem integer_standard_plus :
    doprnt ⟨fun _ => 42, fun _ => true, '\x00'⟩ "%+05d".toList ⟨0, fun _ => 0, 0, ⟨[], 9⟩⟩ =
      doprnt ⟨fun _ => 42, fun _ => true, '\x00'⟩ []
        ⟨1, fun _ => 0, 5, (File.mk [] 9).puts "+0042".toList⟩ :=
  (integer_standard_iff ⟨fun _ => 42, fun _ => true, '\x00'⟩ plusFive ⟨0, fun _ => 0, 0, ⟨[], 9⟩⟩
    (by decide)).mpr ⟨rfl, rfl, fun h => by cases h.1⟩ [] ⟨[], 9⟩

/-- `%hhd` of 256 prints 256, `%td` of 2^32 prints 0 and `%#.0o` of 0 prints nothing. -/
theorem integers_differ :
    (doprnt
      ⟨fun i => if i = 0 then 256 else if i = 1 then 0x100000000 else 0, fun _ => true, '\x00'⟩
      "%hhd|%td|%#.0o|".toList ⟨0, fun _ => 0, 0, ⟨[], intMax⟩⟩).map (fun st => st.fp.written) =
        some "256|0||".toList := by
  decide +kernel

end Integers
