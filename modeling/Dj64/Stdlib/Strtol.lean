import Mathlib.Data.List.TakeWhile
import Mathlib.Tactic

/-!
# `strtol`, `strtoll`, `strtoul`, `strtoull` and `itoa`

A string is the list of its bytes up to the NUL.  The four functions share everything but the cutoff
between numbers that are in range and those that are not, and what they return.

* `strto_eq`: the result in terms of the number that the digits stand for;
* `strto_agree_clamp_iff`: for which strings the functions agree and clamp at 64 bits;
* `strtol_itoa_iff`: which numbers `strtol` reads back from the text of `itoa`;
* `strto_stops_iff`: where the functions stop.
-/

open List

namespace Strtol

/-- White space of the C locale. -/
def isspace (c : ℕ) : Bool := c == 32 || 9 ≤ c && c ≤ 13

/-- The value of a digit of the base. -/
def digit (base c : ℕ) : Option ℕ :=
  (if 48 ≤ c ∧ c ≤ 57 then some (c - 48)
    else if 65 ≤ c ∧ c ≤ 90 then some (c - 55)
    else if 97 ≤ c ∧ c ≤ 122 then some (c - 87)
    else none).filter (· < base)

/-- The loop over the digits: `acc`, `any`, and the rest of the string. -/
def loop (base cutoff cutlim : ℕ) : List ℕ → ℕ → ℤ → ℕ × ℤ × List ℕ
  | [], acc, any => (acc, any, [])
  | c :: s, acc, any =>
    match digit base c with
    | none => (acc, any, c :: s)
    | some d =>
      if any < 0 ∨ cutoff < acc ∨ acc = cutoff ∧ cutlim < d then
        loop base cutoff cutlim s acc (-1)
      else loop base cutoff cutlim s ((acc * base + d) % 2 ^ 64) 1

/-- What is behind white space and the sign, and whether the sign is a minus. -/
def skip (s : List ℕ) : List ℕ × Bool :=
  let t := s.dropWhile isspace
  if t.head? = some 45 then (t.tail, true)
  else if t.head? = some 43 then (t.tail, false)
  else (t, false)

/-- There is a prefix `0x`. -/
def hex (base : ℕ) (t : List ℕ) : Bool :=
  (base == 0 || base == 16) && t.head? == some 48 && (t[1]? == some 120 || t[1]? == some 88)

/-- The base of the digits. -/
def radix (base : ℕ) (t : List ℕ) : ℕ :=
  if hex base t then 16 else if base = 0 then if t.head? = some 48 then 8 else 10 else base

/-- The value, the offset of `*endptr`, and whether `errno` is set to `ERANGE`. -/
@[ext] structure Result where
  value : ℤ
  stop : ℕ
  erange : Bool

/-- The function with the cutoff `limits`, the value `big` of numbers out of range and the
conversion `wrap` to the type of the result. -/
def strto (limits : Bool → ℕ → ℕ × ℕ) (big : Bool → ℤ) (wrap : ℤ → ℤ) (s : List ℕ) (base : ℕ) :
    Result :=
  let (t, neg) := skip s
  let b := radix base t
  let (cutoff, cutlim) := limits neg b
  let (acc, any, rest) := loop b cutoff cutlim (if hex base t then t.drop 2 else t) 0 0
  { value := if any < 0 then big neg else wrap (if neg then -acc else acc)
    stop := if any = 0 then 0 else s.length - rest.length
    erange := any < 0 }

/-- The magnitudes of `LONG_MAX` and `LONG_MIN`, which `limits.h` gives 32 bits in every build. -/
def longMax (neg : Bool) : ℕ := if neg then 2 ^ 31 else 2 ^ 31 - 1

/-- The magnitudes of `LLONG_MAX` and `LLONG_MIN`. -/
def llongMax (neg : Bool) : ℕ := if neg then 2 ^ 63 else 2 ^ 63 - 1

/-- The limit itself, with its sign. -/
def limit (max : Bool → ℕ) (neg : Bool) : ℤ := if neg then -max neg else max neg

def strtol : List ℕ → ℕ → Result :=
  strto (fun neg b => (longMax neg / b, longMax neg % b)) (limit longMax) (Int.bmod · (2 ^ 64))

/-- The cutoff is computed from the number before, and one is added after the division. -/
def strtoll : List ℕ → ℕ → Result :=
  strto (fun neg b =>
      let m := llongMax neg - 1
      if m % b + 1 = b then (m / b + 1, 0) else (m / b, m % b + 1))
    (limit llongMax) (Int.bmod · (2 ^ 64))

/-- `ULONG_MAX` has 32 bits too. -/
def strtoul : List ℕ → ℕ → Result :=
  strto (fun _ b => ((2 ^ 32 - 1) / b, (2 ^ 32 - 1) % b)) (fun _ => 2 ^ 32 - 1) (· % 2 ^ 64)

def strtoull : List ℕ → ℕ → Result :=
  strto (fun _ b => ((2 ^ 64 - 1) / b, (2 ^ 64 - 1) % b)) (fun _ => 2 ^ 64 - 1) (· % 2 ^ 64)

/-! ### The loop -/

/-- The character is a digit of the base. -/
def isDigit (b c : ℕ) : Bool := (digit b c).isSome

/-- The number that digits stand for, when `acc` comes before them. -/
def value (b acc : ℕ) (ds : List ℕ) : ℕ := ds.foldl (fun v c => v * b + (digit b c).getD 0) acc

variable {b M acc d base c cutoff cutlim n v k l : ℕ} {any : ℤ} {ws sign ds s t more : List ℕ}
  {limits : Bool → ℕ → ℕ × ℕ} {big : Bool → ℤ} {wrap : ℤ → ℤ}

theorem cutoff_iff (hd : d < b) : M / b < acc ∨ acc = M / b ∧ M % b < d ↔ M < acc * b + d := by
  have hm := Nat.div_add_mod' M b
  have hl := Nat.mod_lt M (Nat.zero_lt_of_lt hd)
  rcases lt_trichotomy acc (M / b) with h | rfl | h
  · have := Nat.mul_le_mul_right b h
    rw [Nat.succ_mul] at this
    omega
  · omega
  · have := Nat.mul_le_mul_right b h
    rw [Nat.succ_mul] at this
    omega

theorem le_value (hb : 0 < b) : acc ≤ value b acc ds := by
  induction ds generalizing acc with
  | nil => exact le_rfl
  | cons c ds ih => exact (Nat.le_mul_of_pos_right acc hb).trans ((Nat.le_add_right ..).trans ih)

theorem digit_lt (h : digit b c = some d) : d < b := by
  simpa using (Option.filter_eq_some_iff.mp h).2

/-- Once a number is too large, it stays so. -/
theorem loop_over : (loop b cutoff cutlim t acc (-1)).2.1 = -1 := by
  induction t with
  | nil => rfl
  | cons c t ih => cases hd : digit b c <;> simp [loop, hd, ih]

/-- The sign of `any` says whether the number of the digits is above `M`. -/
theorem loop_value (hM : M < 2 ^ 64) (ha : acc ≤ M) (h0 : 0 ≤ any) :
    let r := loop b (M / b) (M % b) t acc any
    let v := value b acc (t.takeWhile (isDigit b))
    (r.2.1 < 0 ↔ M < v) ∧ (v ≤ M → r.1 = v) := by
  induction t generalizing acc any with
  | nil => exact ⟨iff_of_false h0.not_gt ha.not_gt, fun _ => rfl⟩
  | cons c t ih =>
    cases hd : digit b c with
    | none => simpa [loop, isDigit, hd, value] using iff_of_false h0.not_gt ha.not_gt
    | some d =>
      have hlt := digit_lt hd
      have hv : value b acc ((c :: t).takeWhile (isDigit b)) =
          value b (acc * b + d) (t.takeWhile (isDigit b)) := by
        simp [value, isDigit, hd]
      have hle : acc * b + d ≤ value b (acc * b + d) (t.takeWhile (isDigit b)) :=
        le_value (Nat.zero_lt_of_lt hlt)
      rw [hv, loop, hd]
      by_cases ho : M < acc * b + d
      · simp only [cutoff_iff hlt, ho, or_true, if_true, loop_over]
        omega
      · simp only [cutoff_iff hlt, ho, h0.not_gt, or_false, if_false]
        rw [Nat.mod_eq_of_lt (show acc * b + d < 2 ^ 64 by omega)]
        exact ih (not_lt.mp ho) one_pos.le

theorem loop_stop : (loop b k l t acc any).2.2 = t.dropWhile (isDigit b) ∧
    ((loop b k l t acc any).2.1 = 0 ↔ any = 0 ∧ t.takeWhile (isDigit b) = []) := by
  induction t generalizing acc any with
  | nil => simp [loop]
  | cons c t ih =>
    cases hd : digit b c with
    | none => simp [loop, hd, isDigit]
    | some d =>
      rw [loop, hd]
      dsimp only
      split_ifs <;> simp [ih, isDigit, hd]

/-! ### The result -/

/-- The digits that are read. -/
def digits (s : List ℕ) (base : ℕ) : List ℕ :=
  let t := (skip s).1
  (if hex base t then t.drop 2 else t).takeWhile (isDigit (radix base t))

/-- The number that they stand for, without the sign. -/
def magnitude (s : List ℕ) (base : ℕ) : ℕ := value (radix base (skip s).1) 0 (digits s base)

/-- The number. -/
def signed (s : List ℕ) (base : ℕ) : ℤ := if (skip s).2 then -magnitude s base else magnitude s base

/-- Where reading stops. -/
def stop (s : List ℕ) (base : ℕ) : ℕ :=
  let t := (skip s).1
  if digits s base = [] then 0
  else s.length -
    ((if hex base t then t.drop 2 else t).dropWhile (isDigit (radix base t))).length

theorem strto_stop : (strto limits big wrap s base).stop = stop s base := by
  simp only [strto, loop_stop, true_and, stop, digits]
  split_ifs <;> rfl

/-- Numbers up to `M` are read as they are, and others are out of range. -/
theorem strto_eq {M : Bool → ℕ} (hl : ∀ neg, M neg < 2 ^ 64)
    (hlim : ∀ neg, limits neg (radix base (skip s).1) =
      (M neg / radix base (skip s).1, M neg % radix base (skip s).1)) :
    strto limits big wrap s base =
      { value := if magnitude s base ≤ M (skip s).2 then wrap (signed s base) else big (skip s).2
        stop := stop s base
        erange := M (skip s).2 < magnitude s base } := by
  obtain ⟨hany, hacc⟩ := loop_value (b := radix base (skip s).1)
    (t := if hex base (skip s).1 then (skip s).1.drop 2 else (skip s).1) (hl (skip s).2)
    (Nat.zero_le _) (le_refl (0 : ℤ))
  refine Result.ext ?_ strto_stop ?_
  · simp only [strto, hlim, hany, signed, magnitude, digits]
    split_ifs <;> first | omega | simp_all
  · simp only [strto, hlim, hany]
    rfl

theorem radix_pos : 0 < radix base ds := by
  unfold radix
  split_ifs <;> omega

theorem strtoll_limits (hb : 0 < b) (hM : 0 < M) :
    (if (M - 1) % b + 1 = b then ((M - 1) / b + 1, 0) else ((M - 1) / b, (M - 1) % b + 1)) =
      (M / b, M % b) := by
  have hm := Nat.mod_add_div (M - 1) b
  have hl := Nat.mod_lt (M - 1) hb
  symm
  rw [Prod.ext_iff, Nat.div_mod_unique hb]
  split_ifs with h
  · exact ⟨by rw [Nat.mul_succ]; omega, hb⟩
  · exact ⟨by dsimp only; omega, by omega⟩

/-- The result of a signed function whose limits are `M`. -/
def long (M : Bool → ℕ) (s : List ℕ) (base : ℕ) : Result where
  value := if magnitude s base ≤ M (skip s).2 then signed s base else limit M (skip s).2
  stop := stop s base
  erange := M (skip s).2 < magnitude s base

theorem strto_long {M : Bool → ℕ} (hM : ∀ neg, M neg ≤ llongMax neg)
    (hlim : ∀ neg, limits neg (radix base (skip s).1) =
      (M neg / radix base (skip s).1, M neg % radix base (skip s).1)) :
    strto limits (limit M) (Int.bmod · (2 ^ 64)) s base = long M s base := by
  have hl (neg : Bool) : M neg < 2 ^ 64 := (hM neg).trans_lt (by cases neg <;> decide)
  rw [strto_eq hl hlim, long, Result.mk.injEq]
  refine ⟨?_, rfl, rfl⟩
  split_ifs with h
  · have hm := h.trans (hM _)
    revert hm
    unfold signed llongMax
    split_ifs <;> intro hm <;> exact Int.bmod_eq_of_le (by omega) (by omega)
  · rfl

theorem strtol_eq : strtol s base = long longMax s base :=
  strto_long (by decide) fun _ => rfl

theorem strtoll_eq : strtoll s base = long llongMax s base :=
  strto_long (by decide) fun neg => strtoll_limits radix_pos (by cases neg <;> decide)

theorem strtoul_eq : strtoul s base =
    ⟨if magnitude s base ≤ 2 ^ 32 - 1 then signed s base % 2 ^ 64 else 2 ^ 32 - 1, stop s base,
      2 ^ 32 - 1 < magnitude s base⟩ :=
  strto_eq (M := fun _ => 2 ^ 32 - 1) (fun _ => by decide) fun _ => rfl

theorem strtoull_eq : strtoull s base =
    ⟨if magnitude s base ≤ 2 ^ 64 - 1 then signed s base % 2 ^ 64 else 2 ^ 64 - 1, stop s base,
      2 ^ 64 - 1 < magnitude s base⟩ :=
  strto_eq (M := fun _ => 2 ^ 64 - 1) (fun _ => by decide) fun _ => rfl

/-! ### Numbers -/

/-- White space, a sign, and digits of the base. -/
structure Number (base : ℕ) (ws sign ds : List ℕ) : Prop where
  space : ∀ c ∈ ws, isspace c
  sign : sign = [] ∨ sign = [43] ∨ sign = [45]
  ne_nil : ds ≠ []
  digits : ∀ c ∈ ds, isDigit base c

section

variable (h : Number base ws sign ds)
include h

theorem skip_number :
    skip (ws ++ sign ++ ds) = (ds, sign == [45]) := by
  obtain ⟨c, cs, rfl⟩ := exists_cons_of_ne_nil h.ne_nil
  have hc := h.digits c (.head _)
  have hlo : 48 ≤ c := by
    by_contra hlt
    simp [isDigit, digit, show ¬ 48 ≤ c from hlt, show ¬ 65 ≤ c by omega,
      show ¬ 97 ≤ c by omega] at hc
  have hs : isspace c = false := by simp [isspace]; omega
  rw [skip, append_assoc, dropWhile_append_of_pos h.space]
  rcases h.sign with rfl | rfl | rfl
  · simp [hs, show c ≠ 45 by omega, show c ≠ 43 by omega]
  · simp [isspace]
  · simp [isspace]

theorem hex_number (hb : base ≠ 0) : hex base ds = false := by
  by_contra hx
  simp only [hex, hb, Bool.not_eq_false, Bool.and_eq_true, Bool.or_eq_true, beq_iff_eq,
    false_or] at hx
  obtain ⟨⟨rfl, -⟩, hx⟩ := hx
  rcases hx with hx | hx
  · exact absurd (h.digits 120 (mem_of_getElem? hx)) (by decide)
  · exact absurd (h.digits 88 (mem_of_getElem? hx)) (by decide)

/-- A number is read to its end. -/
theorem number_eq (hb : base ≠ 0) :
    magnitude (ws ++ sign ++ ds) base = value base 0 ds ∧
      stop (ws ++ sign ++ ds) base = (ws ++ sign ++ ds).length := by
  have hr : radix base ds = base := by simp [radix, hex_number h hb, hb]
  have ht : ds.takeWhile (isDigit base) = ds := takeWhile_eq_self_iff.mpr h.digits
  have hd : ds.dropWhile (isDigit base) = [] := dropWhile_eq_nil_iff.mpr h.digits
  simp only [magnitude, stop, digits, skip_number h, hex_number h hb, hr, ht, hd, h.ne_nil,
    Bool.false_eq_true, if_false, length_nil, Nat.sub_zero, and_self]

end

/-- What the standard says of a number of the given base, for `long` and `unsigned long` of 64
bits. -/
def Clamped (base : ℕ) (ws sign ds : List ℕ) (long ulong : Result) : Prop :=
  let len := (ws ++ sign ++ ds).length
  let v := value base 0 ds
  let n : ℤ := if sign == [45] then -v else v
  long = ⟨max (-2 ^ 63) (min n (2 ^ 63 - 1)), len, n < -2 ^ 63 ∨ 2 ^ 63 - 1 < n⟩ ∧
    ulong = ⟨if v < 2 ^ 64 then n % 2 ^ 64 else 2 ^ 64 - 1, len, 2 ^ 64 ≤ v⟩

theorem clamped_long_long (h : Number base ws sign ds) (hb : base ≠ 0) :
    Clamped base ws sign ds (strtoll (ws ++ sign ++ ds) base)
      (strtoull (ws ++ sign ++ ds) base) := by
  obtain ⟨hm, hs⟩ := number_eq h hb
  rw [strtoll_eq, strtoull_eq, long, signed, hm, hs, skip_number h]
  dsimp only [Clamped]
  generalize (sign == [45]) = neg, value base 0 ds = v
  refine ⟨Result.ext ?_ rfl (decide_eq_decide.mpr ?_),
    Result.ext (if_congr (by omega) rfl rfl) rfl (decide_eq_decide.mpr (by omega))⟩ <;>
    cases neg <;> simp only [limit, llongMax, Bool.false_eq_true, if_false, if_true] <;> omega

/-- The functions agree on `s`, and a number is clamped. -/
def AgreeAndClamp (s : List ℕ) (base : ℕ) : Prop :=
  strtol s base = strtoll s base ∧ strtoul s base = strtoull s base ∧
    ∀ ws sign ds, s = ws ++ sign ++ ds → base ≠ 0 → Number base ws sign ds →
      Clamped base ws sign ds (strtol s base) (strtoul s base) ∧
        Clamped base ws sign ds (strtoll s base) (strtoull s base)

theorem strtol_agrees_iff : strtol s base = strtoll s base ↔
    magnitude s base ≤ longMax (skip s).2 := by
  rw [strtol_eq, strtoll_eq, long, long, Result.mk.injEq, decide_eq_decide]
  generalize signed s base = n, stop s base = k, magnitude s base = v
  cases (skip s).2 <;> simp only [limit, longMax, llongMax, Bool.false_eq_true, if_false, if_true]
    <;> split_ifs <;> simp <;> omega

/-- **The four functions agree and clamp exactly for numbers of 32 bits.** -/
theorem strto_agree_clamp_iff (s : List ℕ) (base : ℕ) :
    AgreeAndClamp s base ↔ magnitude s base ≤ longMax (skip s).2 := by
  rw [AgreeAndClamp, strtol_agrees_iff]
  refine ⟨And.left, fun h => ?_⟩
  have hl := strtol_agrees_iff.mpr h
  have hu : strtoul s base = strtoull s base := by
    have hmax : longMax (skip s).2 ≤ 2 ^ 31 := by cases (skip s).2 <;> decide
    rw [strtoul_eq, strtoull_eq, if_pos (by omega), if_pos (by omega), Result.mk.injEq,
      decide_eq_decide]
    exact ⟨rfl, rfl, by omega⟩
  refine ⟨h, hu, ?_⟩
  rintro ws sign ds rfl hb hn
  rw [hl, hu]
  exact ⟨clamped_long_long hn hb, clamped_long_long hn hb⟩

/-- The digits of 2^31. -/
theorem strtol_clamps_early : ¬ AgreeAndClamp [50, 49, 52, 55, 52, 56, 51, 54, 52, 56] 10 :=
  fun h => absurd (congrArg Result.erange h.1) (by decide +kernel)

/-! ### `itoa` -/

/-- The digits that the loop puts into `tmp`; an `unsigned` needs at most 32 rounds. -/
def tmp (radix : ℕ) : ℕ → ℕ → List ℕ
  | 0, _ => []
  | rounds + 1, v =>
    let i := v % radix
    (if i < 10 then i + 48 else i + 87) ::
      if v / radix = 0 then [] else tmp radix rounds (v / radix)

/-- The text, or `none` for a radix out of range. -/
def itoa (value : ℤ) (radix : ℕ) : Option (List ℕ) :=
  if radix > 36 ∨ radix ≤ 1 then none
  else if radix = 10 ∧ value < 0 then some (45 :: (tmp radix 32 (-value % 2 ^ 32).toNat).reverse)
  else some (tmp radix 32 (value % 2 ^ 32).toNat).reverse

theorem tmp_spec (h2 : 2 ≤ b) (h36 : b ≤ 36) (hv : v < 2 ^ n) :
    (tmp b n v).length ≤ n ∧ (∀ c ∈ tmp b n v, isDigit b c) ∧
      value b 0 (tmp b n v).reverse = v := by
  induction n generalizing v with
  | zero => simp_all [tmp, value]
  | succ n ih =>
    have hlt : v % b < b := Nat.mod_lt v (by omega)
    have hd : digit b (if v % b < 10 then v % b + 48 else v % b + 87) = some (v % b) := by
      unfold digit
      split_ifs <;> simp <;> omega
    have hq : v / b < 2 ^ n := by
      rw [Nat.div_lt_iff_lt_mul (by omega)]
      exact hv.trans_le (by rw [pow_succ]; gcongr)
    by_cases h0 : v / b = 0
    · have hvb := Nat.mod_eq_of_lt ((Nat.div_eq_zero_iff_lt (by omega)).mp h0)
      simpa [tmp, h0, isDigit, hd, value] using hvb
    · obtain ⟨hl, hc, hval⟩ := ih hq
      refine ⟨by simpa [tmp, h0], by simpa [tmp, h0, isDigit, hd], ?_⟩
      rw [value] at hval ⊢
      simp [tmp, h0, hd, hval, Nat.div_add_mod']

/-- What `strtol` reads of a text of `itoa` is the number up to the limit. -/
theorem itoa_number (neg : Bool) (hb : 2 ≤ b ∧ b ≤ 36) (hv : v < 2 ^ 32) :
    let text := (if neg then [45] else []) ++ (tmp b 32 v).reverse
    text.length ≤ 33 ∧ (strtol text b).value =
      if v ≤ longMax neg then if neg then -(v : ℤ) else v else limit longMax neg := by
  obtain ⟨hl, hc, hval⟩ := tmp_spec hb.1 hb.2 hv
  have hN : Number b [] (if neg then [45] else []) (tmp b 32 v).reverse :=
    ⟨by simp, by cases neg <;> simp, by simp [tmp], by simpa using hc⟩
  have hm := (number_eq hN (by omega)).1
  have hs := skip_number hN
  rw [nil_append] at hm hs
  intro text
  rw [strtol_eq, long, signed, hm, hval, hs]
  cases neg <;> simp [text] <;> omega

/-- **`strtol` reads back what `itoa` writes exactly if that is the number and not the `unsigned`
one of a negative number.** -/
theorem strtol_itoa_iff (n : ℤ) (radix : ℕ) (hn : -2 ^ 31 ≤ n ∧ n < 2 ^ 31)
    (hr : 2 ≤ radix ∧ radix ≤ 36) : ∃ s, itoa n radix = some s ∧ s.length ≤ 33 ∧
      ((strtol s radix).value.bmod (2 ^ 32) = n ↔ 0 ≤ n ∨ radix = 10) := by
  have hb : n.bmod (2 ^ 32) = n := Int.bmod_eq_of_le (by omega) (by omega)
  rw [itoa, if_neg (by omega)]
  split_ifs with h
  · obtain ⟨hlen, hval⟩ := @itoa_number radix (-n % 2 ^ 32).toNat true hr (by omega)
    refine ⟨_, rfl, hlen, iff_of_true (hval.symm ▸ ?_) (.inr h.1)⟩
    rw [if_pos (by simp [longMax]; omega), if_pos rfl, Int.toNat_of_nonneg (by omega),
      Int.emod_eq_of_lt (by omega) (by omega), neg_neg, hb]
  · obtain ⟨hlen, hval⟩ := @itoa_number radix (n % 2 ^ 32).toNat false hr (by omega)
    refine ⟨_, rfl, hlen, hval.symm ▸ ?_⟩
    by_cases h0 : 0 ≤ n
    · rw [if_pos (by simp [longMax]; omega), if_neg (by decide), Int.toNat_of_nonneg (by omega),
        Int.emod_eq_of_lt h0 (by omega)]
      exact iff_of_true hb (.inl h0)
    · rw [if_neg (by simp [longMax]; omega)]
      exact iff_of_false (by simp [limit, longMax, Int.bmod]; omega) (by omega)

theorem strtol_itoa_intMin : ∃ s, itoa (-2 ^ 31) 10 = some s ∧ s.length ≤ 33 ∧
    ((strtol s 10).value.bmod (2 ^ 32) = -2 ^ 31 ↔ (0 : ℤ) ≤ -2 ^ 31 ∨ 10 = 10) :=
  strtol_itoa_iff _ 10 (by decide) (by decide)

/-- The digits of `-1` are those of `UINT_MAX`. -/
theorem strtol_itoa_differ : ∃ s, itoa (-1) 16 = some s ∧ (strtol s 16).value = 2 ^ 31 - 1 :=
  ⟨_, rfl, by decide +kernel⟩

/-! ### The end of the number -/

/-- An integer constant of the base. -/
def IsConst (base : ℕ) (t : List ℕ) : Prop :=
  t ≠ [] ∧ (∀ c ∈ t, isDigit (if base = 0 then if t.head? = some 48 then 8 else 10 else base) c) ∨
    hex base t ∧ t.drop 2 ≠ [] ∧ ∀ c ∈ t.drop 2, isDigit 16 c

/-- The lengths of the constants that `t` begins with. -/
def lengths (base : ℕ) (t : List ℕ) : Set ℕ := {n | n ≤ t.length ∧ IsConst base (t.take n)}

/-- `k` is the end of the longest constant after white space and a sign, or 0 without one. -/
def EndsRight (s : List ℕ) (base k : ℕ) : Prop :=
  lengths base (skip s).1 = ∅ ∧ k = 0 ∨
    ∃ n, IsGreatest (lengths base (skip s).1) n ∧ k = s.length - (skip s).1.length + n

theorem length_skip_le (s : List ℕ) : (skip s).1.length ≤ s.length := by
  have h := (s.dropWhile_suffix isspace).length_le
  simp only [skip]
  split_ifs <;> simp <;> omega

theorem all_take_iff {p : ℕ → Bool} (hn : n ≤ t.length) :
    (∀ c ∈ t.take n, p c) ↔ n ≤ (t.takeWhile p).length := by
  induction t generalizing n with
  | nil => simp_all
  | cons c t ih =>
    cases n with
    | zero => simp
    | succ n =>
      by_cases hc : p c
      · simpa [hc] using ih (by simpa using hn)
      · simp [hc]

theorem hex_take : hex base (t.take n) = (hex base t && 2 ≤ n) := by
  rcases n with _ | _ | n <;> simp [hex, head?_take]

theorem lengths_of_not_hex (h : hex base t = false) :
    lengths base t = Set.Icc 1 (t.takeWhile (isDigit (radix base t))).length := by
  ext n
  have hle := (t.takeWhile_prefix (isDigit (radix base t))).length_le
  rcases n with _ | n
  · simp [lengths, IsConst]
  by_cases hn : n + 1 ≤ t.length
  · have h0 : t ≠ [] := ne_nil_of_length_pos (by omega)
    simp [lengths, IsConst, hex_take, h, hn, radix, h0, ← all_take_iff hn, head?_take]
  · simp [lengths, hn]
    omega

theorem lengths_of_hex (h : hex base t) :
    lengths base t = insert 1 (Set.Icc 3 (2 + ((t.drop 2).takeWhile (isDigit 16)).length)) := by
  rcases t with _ | ⟨c, _ | ⟨x, r⟩⟩
  · simp [hex] at h
  · simp [hex] at h
  obtain ⟨⟨hb, rfl⟩, hx⟩ : ((base = 0 ∨ base = 16) ∧ c = 48) ∧ (x = 120 ∨ x = 88) := by
    simpa [hex] using h
  have h8 : isDigit (if base = 0 then 8 else base) 48 := by rcases hb with rfl | rfl <;> rfl
  have h16 : isDigit (if base = 0 then 8 else base) x = false := by
    rcases hb with rfl | rfl <;> rcases hx with rfl | rfl <;> rfl
  ext n
  rcases n with _ | _ | n
  · simp [lengths, IsConst]
  · simp [lengths, IsConst, h8]
  by_cases hn : n ≤ r.length
  · have h0 : 0 < n → r ≠ [] := fun h => ne_nil_of_length_pos (by omega)
    simp [lengths, IsConst, hex_take, h, h16, hn, all_take_iff hn]
    grind
  · have hle := (r.takeWhile_prefix (isDigit 16)).length_le
    simp [lengths, hn]
    omega

theorem stop_right_iff : EndsRight s base (stop s base) ↔
    (hex base (skip s).1 → ((skip s).1.drop 2).takeWhile (isDigit 16) ≠ []) := by
  have hl := length_skip_le s
  rw [EndsRight, stop, digits]
  generalize skip s = r at *
  obtain ⟨t, neg⟩ := r
  dsimp only at *
  cases h : hex base t
  · rw [lengths_of_not_hex h]
    generalize isDigit (radix base t) = p
    have hs := congrArg length (t.takeWhile_append_dropWhile (p := p))
    rw [length_append] at hs
    by_cases hp : t.takeWhile p = []
    · simp [hp]
    · have hpos := length_pos_of_ne_nil hp
      exact iff_of_true (.inr ⟨_, isGreatest_Icc hpos, by simp [hp]; omega⟩) (by simp)
  · rw [lengths_of_hex h]
    have hs := congrArg length ((t.drop 2).takeWhile_append_dropWhile (p := isDigit 16))
    rw [length_append, length_drop] at hs
    simp only [radix, h, if_true, forall_const]
    by_cases hp : (t.drop 2).takeWhile (isDigit 16) = []
    · simp [hp, IsGreatest, eq_comm (a := 0)]
    · have hpos := length_pos_of_ne_nil hp
      refine iff_of_true (.inr ⟨_, ⟨.inr ⟨?_, le_rfl⟩, ?_⟩, by simp [hp]; omega⟩) hp
      · omega
      · rintro n (rfl | ⟨-, h⟩) <;> omega

theorem skip_nul : skip (s ++ 0 :: more) = ((skip s).1 ++ 0 :: more, (skip s).2) := by
  simp only [skip, dropWhile_append]
  cases s.dropWhile isspace with
  | nil => simp [isspace]
  | cons c t => simp; split_ifs <;> rfl

theorem hex_nul : hex base (t ++ 0 :: more) = hex base t := by
  rcases t with _ | ⟨c, _ | ⟨x, r⟩⟩ <;> simp [hex]

theorem loop_nul : loop b k l (t ++ 0 :: more) acc any =
    let r := loop b k l t acc any
    (r.1, r.2.1, r.2.2 ++ 0 :: more) := by
  induction t generalizing acc any with
  | nil => simp [loop, digit]
  | cons c t ih =>
    simp only [cons_append, loop]
    cases digit b c with
    | none => rfl
    | some d => dsimp only; split_ifs <;> exact ih

theorem strto_nul : strto limits big wrap (s ++ 0 :: more) base = strto limits big wrap s base := by
  rw [strto, skip_nul, strto]
  generalize skip s = r
  obtain ⟨t, neg⟩ := r
  have hr : radix base (t ++ 0 :: more) = radix base t := by
    rw [radix, hex_nul, radix]
    cases t <;> simp
  have hx : (if hex base t then (t ++ 0 :: more).drop 2 else t ++ 0 :: more) =
      (if hex base t then t.drop 2 else t) ++ 0 :: more := by
    rcases t with _ | ⟨c, _ | ⟨x, r⟩⟩ <;> simp [hex]
    split_ifs <;> rfl
  simp [hex_nul, hr, hx, loop_nul, Nat.add_sub_add_right]

/-- **Where the functions stop.** -/
theorem strto_stops_iff (s : List ℕ) (base : ℕ) : ∀ f ∈ [strtol, strtoll, strtoul, strtoull],
    (EndsRight s base (f s base).stop ↔
      (hex base (skip s).1 → ((skip s).1.drop 2).takeWhile (isDigit 16) ≠ [])) ∧
    ∀ more, f (s ++ 0 :: more) base = f s base := by
  simp only [forall_mem_cons]
  refine ⟨?_, ?_, ?_, ?_, by simp⟩ <;> exact ⟨strto_stop ▸ stop_right_iff, fun _ => strto_nul⟩

theorem strtol_stops_after_zero : EndsRight [48] 10 (strtol [48] 10).stop :=
  (strto_stops_iff [48] 10 strtol (.head _)).1.mpr (by decide)

theorem strtol_stops_at_start : (strtol [48, 120] 16).stop = 0 ∧ ¬ EndsRight [48, 120] 16 0 := by
  refine ⟨by decide, ?_⟩
  have h : (1 : ℕ) ∈ lengths 16 (skip [48, 120]).1 := ⟨by decide, .inl (by decide)⟩
  rintro (⟨h0, -⟩ | ⟨n, hn, h0⟩)
  · rw [h0] at h
    exact h
  · have := hn.2 h
    omega

end Strtol
