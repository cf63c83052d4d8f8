import Mathlib.Data.List.TakeWhile
import Mathlib.Logic.Function.Basic

/-!
# Groups of digits

With the flag `'`, `_doprnt` moves the digits of a decimal number from the end of its buffer to the
start and `__grouping_format` moves them back, with separators between them.
-/

namespace Grouping

open List

/-- The size `BUF` of the buffer. -/
def bufSize : ℕ := 4952 + 39 + 1

def charMax : ℕ := 127

/-- The separator, the sizes of the groups, and the bytes behind the terminator of `grouping`. -/
structure Locale where
  thousandsSep : Char
  sizes : List ℕ
  beyond : ℕ → ℕ

/-- The bytes of `grouping`. -/
def Locale.grouping (l : Locale) (i : ℕ) : ℕ := ((l.sizes ++ [0])[i]?).getD (l.beyond i)

/-- The loop that moves the digits to the start, until a `NUL` is found at the address returned. -/
def copyLoop : ℕ → (ℕ → Char) → ℕ → ℕ → Option (ℕ × (ℕ → Char) × ℕ)
  | 0, _, _, _ => none
  | fuel + 1, buf, p, t =>
    if buf t = '\x00' then some (t, buf, p)
    else copyLoop fuel (Function.update buf p (buf t)) (p + 1) (t + 1)

/-- The last loop of `__grouping_format`: the digits come from the right, `k` were stored since
`pos` was set, and `grouping` has moved to `i`. -/
def groupLoop (l : Locale) : List Char → ℕ → ℕ → ℕ → List Char → List Char × ℕ
  | [], _, _, i, out => (out, i)
  | c :: src, k, size, i, out =>
    if k = size then
      if size = 0 then groupLoop l src 1 size i (c :: l.thousandsSep :: out)
      else
        let next := l.grouping (i + 1)
        groupLoop l src 1 (if next = charMax then 0 else if next = 0 then size else next) (i + 1)
          (c :: l.thousandsSep :: out)
    else groupLoop l src (k + 1) size i (c :: out)

/-- A text, and the last positions of `buf` and of `grouping` that were read. -/
structure Output where
  text : List Char
  read : ℕ
  index : ℕ
  deriving DecidableEq

/-- `buf` with the digits at its end, and what lies behind it. -/
def digitsAtEnd (digits : List Char) (init : ℕ → Char) : ℕ → Char := fun i =>
  if bufSize - digits.length ≤ i then (digits[i - (bufSize - digits.length)]?).getD (init i)
  else init i

/-- What `_doprnt` does with the digits of a decimal number at `pforw`. -/
def pforw (fuel : ℕ) (flag : Bool) (l : Locale) (init : ℕ → Char) (digits : List Char) :
    Option Output :=
  if flag ∧ l.thousandsSep ≠ '\x00' ∧ l.grouping 0 ≠ charMax then
    (copyLoop fuel (digitsAtEnd digits init) 0 (bufSize - digits.length)).map fun (t, buf, p) =>
      let r := groupLoop l ((range p).map buf).reverse 0 (l.grouping 0) 0 []
      ⟨if r.1.head? = some l.thousandsSep then r.1.tail else r.1, t, r.2⟩
  else some ⟨digits, 0, 0⟩

/-- The groups of digits from the right; the last size repeats, and `CHAR_MAX` ends the grouping. -/
def groups : ℕ → List ℕ → List Char → List (List Char)
  | n + 1, size :: sizes, digits =>
    if size = charMax ∨ digits.length ≤ size then [digits]
    else
      groups n (if sizes = [] then [size] else sizes) (digits.take (digits.length - size)) ++
        [digits.drop (digits.length - size)]
  | _, _, digits => [digits]

/-- The text that is asked for. -/
def grouped (flag : Bool) (l : Locale) (digits : List Char) : List Char :=
  if flag ∧ l.thousandsSep ≠ '\x00' then
    [l.thousandsSep].intercalate (groups digits.length l.sizes digits)
  else digits

/-- The digits are printed in groups, and no byte behind `buf` or `grouping` is read. -/
def GroupedRight (flag : Bool) (l : Locale) (init : ℕ → Char) (digits : List Char) : Prop :=
  ∃ fuel out, pforw fuel flag l init digits = some out ∧ out.text = grouped flag l digits ∧
    out.read < bufSize ∧ out.index ≤ l.sizes.length

theorem copyLoop_read {fuel p t t' p' : ℕ} {buf buf' : ℕ → Char}
    (h : copyLoop fuel buf p t = some (t', buf', p')) (hp : p < t)
    (hb : ∀ i, t ≤ i → i < bufSize → buf i ≠ '\x00') : bufSize ≤ t' := by
  induction fuel generalizing buf p t with
  | zero => cases h
  | succ fuel ih =>
    rw [copyLoop] at h
    split_ifs at h with h0
    · cases h
      by_contra hlt
      exact hb _ le_rfl (by omega) h0
    · refine ih h (by omega) fun i hi hlt => ?_
      rw [Function.update_of_ne (by omega)]
      exact hb i (by omega) hlt

/-- **When grouped digits are printed in bounds**: only if there is nothing to do, as no `NUL` ends
the digits in `buf`. -/
theorem grouped_right_iff (flag : Bool) (l : Locale) {digits : List Char}
    (hlen : digits.length < bufSize) (hdig : ∀ c ∈ digits, c ≠ '\x00') :
    (∀ init, GroupedRight flag l init digits) ↔
      flag = false ∨ l.thousandsSep = '\x00' ∨ l.sizes.head? = some charMax := by
  have hg : l.grouping 0 = charMax ↔ l.sizes.head? = some charMax := by
    rcases hs : l.sizes with _ | ⟨n, sizes⟩
    · simp [Locale.grouping, hs, charMax]
    · simp [Locale.grouping, hs]
  rw [← hg]
  constructor
  · intro h
    by_contra hno
    obtain ⟨fuel, out, hout, -, hread, -⟩ := h fun _ => '\x00'
    rw [pforw, if_pos (by simpa using hno), Option.map_eq_some_iff] at hout
    obtain ⟨⟨t, buf, p⟩, hc, rfl⟩ := hout
    refine absurd (copyLoop_read hc (by omega) fun i hi hlt => ?_) (Nat.not_le.mpr hread)
    rw [digitsAtEnd, if_pos hi,
      List.getElem?_eq_getElem (show i - (bufSize - digits.length) < digits.length by omega)]
    exact hdig _ (getElem_mem _)
  · intro h init
    refine ⟨0, ⟨digits, 0, 0⟩, if_neg (by grind), ?_, show 0 < bufSize by decide, Nat.zero_le _⟩
    unfold grouped
    split_ifs with ht
    · have hmax : l.sizes.head? = some charMax := hg.mp (by grind)
      obtain ⟨sizes, hs⟩ : ∃ sizes, l.sizes = charMax :: sizes := head?_eq_some_iff.mp hmax
      cases digits <;> simp [hs, groups]
    · rfl

theorem grouped_right_iff_thousand :
    (∀ init, GroupedRight true ⟨',', [3], fun _ => 0⟩ init "1000".toList) ↔
      true = false ∨ ',' = '\x00' ∨ [3].head? = some charMax :=
  grouped_right_iff true ⟨',', [3], fun _ => 0⟩ (by decide) (by simp)

/-- The byte behind `buf` is read; and behind the terminator of `grouping`, other sizes. -/
theorem grouped_beyond :
    pforw 9 true ⟨',', [3], fun _ => 1⟩ (fun _ => '\x00') "12345678".toList =
        some ⟨"1,2,345,678".toList, bufSize, 3⟩ ∧
      grouped true ⟨',', [3], fun _ => 1⟩ "12345678".toList = "12,345,678".toList := by
  decide +kernel

end Grouping
