import Mathlib.Tactic

/-!
# Weeks of the year

`strftime` computes the year, the week and the weekday of ISO 8601 for `%G`, `%V` and `%u`.
-/

namespace Weeks

/-- The fields of `struct tm` that are used. -/
structure Tm where
  year : ℤ
  wday : ℤ
  yday : ℤ

/-- `IS_LEAP`, as a number. -/
def leap (y : ℤ) : ℤ := if y % 4 = 0 ∧ (y % 100 ≠ 0 ∨ y % 400 = 0) then 1 else 0

def intMax : ℤ := 2 ^ 31 - 1

/-- The value of an `int` expression. -/
def int (x : ℤ) : ℤ := Int.bmod x (2 ^ 32)

section Model

variable (t : Tm)

def isoWdayOfJan01 : ℤ :=
  let wday := (7 + t.wday - t.yday % 7) % 7
  if wday = 0 then 7 else wday

def week : ℤ := (6 + t.yday - (6 + t.wday) % 7) / 7

def isoWdayOfDec31 : ℤ := (365 + leap (t.year + 1900) - t.yday + (6 + t.wday) % 7) % 7

/-- The week belongs to the previous year. -/
def previous : Prop := week t = 0 ∧ 4 < isoWdayOfJan01 t

/-- The week belongs to the following year. -/
def following : Prop := 360 + leap (t.year + 1900) < t.yday ∧ isoWdayOfDec31 t < 4

instance : Decidable (previous t) := inferInstanceAs (Decidable (_ ∧ _))

instance : Decidable (following t) := inferInstanceAs (Decidable (_ ∧ _))

/-- `_compute_iso_standard_week`. -/
def isoStandardWeek : ℤ :=
  if previous t then
    if isoWdayOfJan01 t = 7 ∨ isoWdayOfJan01 t = 6 ∧ leap (t.year - 1 + 1900) = 0 then 52 else 53
  else if following t then 1
  else week t + 1

/-- `_compute_iso_week_based_year`. -/
def isoWeekBasedYear : ℤ :=
  if previous t then int (t.year - 1 + 1900)
  else if following t then int (t.year + 1 + 1900)
  else int (t.year + 1900)

/-- The value of `%u`. -/
def isoWeekday : ℤ := if t.wday = 0 then 7 else t.wday

end Model

/-! ### The calendar -/

/-- The number of the first day of a year; days with a multiple of seven are Mondays. -/
def newYear (y : ℤ) : ℤ := 365 * (y - 1) + (y - 1) / 4 - (y - 1) / 100 + (y - 1) / 400

/-- The Monday of the week with January 4. -/
def weekOne (y : ℤ) : ℤ := newYear y + 3 - (newYear y + 3) % 7

def Tm.day (t : Tm) : ℤ := newYear (t.year + 1900) + t.yday

/-- The day of the year exists, the weekday is that of the day, and the year is an `int`. -/
structure Tm.Consistent (t : Tm) : Prop where
  yday_nonneg : 0 ≤ t.yday
  yday_lt : t.yday < 365 + leap (t.year + 1900)
  wday_eq : t.wday = (t.day + 1) % 7
  year_ge : -2 ^ 31 ≤ t.year
  year_le : t.year + 1900 ≤ intMax

/-- The three values are those of the day. -/
def IsoRight (t : Tm) : Prop :=
  weekOne (isoWeekBasedYear t) ≤ t.day ∧ t.day < weekOne (isoWeekBasedYear t + 1) ∧
    isoStandardWeek t = (t.day - weekOne (isoWeekBasedYear t)) / 7 + 1 ∧
    isoWeekday t = t.day % 7 + 1

theorem newYear_succ (y : ℤ) : newYear (y + 1) = newYear y + 365 + leap y := by
  unfold newYear leap
  split_ifs <;> omega

theorem leap_cases (y : ℤ) : leap y = 0 ∨ leap y = 1 := by
  unfold leap
  split_ifs <;> simp

theorem int_eq {x : ℤ} (h1 : -2 ^ 31 ≤ x) (h2 : x ≤ intMax) : int x = x := by
  unfold int
  unfold intMax at h2
  rw [Int.bmod_eq_of_le (by omega) (by omega)]

section

variable {t : Tm} (h : t.Consistent)
include h

theorem jan01_eq : isoWdayOfJan01 t = newYear (t.year + 1900) % 7 + 1 := by
  have hw := h.wday_eq
  unfold Tm.day at hw
  unfold isoWdayOfJan01
  dsimp only
  split_ifs <;> omega

theorem dec31_eq : isoWdayOfDec31 t = newYear (t.year + 1900 + 1) % 7 := by
  have hw := h.wday_eq
  unfold Tm.day at hw
  rw [newYear_succ, isoWdayOfDec31]
  omega

theorem week_eq : week t = (6 + t.yday - t.day % 7) / 7 := by
  have hw := h.wday_eq
  unfold week
  omega

theorem weekday_eq : isoWeekday t = t.day % 7 + 1 := by
  have hw := h.wday_eq
  unfold isoWeekday
  split_ifs <;> omega

/-- **When the ISO week is right**: in weeks of the previous year; in those of the following year
that contain the day and whose year is an `int`; and in years that start before Friday. -/
theorem iso_right_iff : IsoRight t ↔
    previous t ∨
      (following t ∧ 365 + leap (t.year + 1900) ≤ t.yday + isoWdayOfDec31 t ∧
        t.year + 1900 ≠ intMax) ∨
      (¬ following t ∧ isoWdayOfJan01 t ≤ 4) := by
  have hj := jan01_eq h
  have hd := dec31_eq h
  have hw := week_eq h
  have hu := weekday_eq h
  have hn := newYear_succ (t.year + 1900)
  have hnn := newYear_succ (t.year + 1900 + 1)
  have hp := newYear_succ (t.year - 1 + 1900)
  rw [show t.year - 1 + 1900 + 1 = t.year + 1900 by ring] at hp
  have hll := leap_cases (t.year + 1900 + 1)
  have hlp := leap_cases (t.year - 1 + 1900)
  obtain ⟨h1, h2, -, h4, h5⟩ := h
  have hday : t.day = newYear (t.year + 1900) + t.yday := rfl
  unfold IsoRight isoStandardWeek isoWeekBasedYear
  by_cases hpre : previous t
  · rw [if_pos hpre, if_pos hpre, int_eq (by omega) (by omega),
      show t.year - 1 + 1900 + 1 = t.year + 1900 by ring]
    rw [iff_true_right (.inl hpre)]
    unfold previous at hpre
    unfold weekOne
    split_ifs <;> omega
  rw [if_neg hpre, if_neg hpre, or_iff_right hpre]
  unfold previous at hpre
  by_cases hf : following t
  · rw [if_pos hf, if_pos hf, and_iff_right hf, or_iff_left fun hno => hno.1 hf]
    unfold following at hf
    by_cases hm : t.year + 1900 = intMax
    · have hy : int (t.year + 1 + 1900) = -2 ^ 31 := by
        rw [show t.year + 1 + 1900 = 2 ^ 31 by rw [intMax] at hm; omega]
        decide
      have hlt : weekOne (-2 ^ 31 + 1) < newYear intMax := by decide
      rw [hy]
      rw [hm] at hday
      omega
    · rw [int_eq (by omega) (by omega), show t.year + 1 + 1900 = t.year + 1900 + 1 by ring]
      unfold weekOne
      omega
  · rw [if_neg hf, if_neg hf, and_iff_right hf, or_iff_right fun hno => hf hno.1,
      int_eq (by omega) (by omega)]
    unfold following at hf
    unfold weekOne
    omega

end

theorem iso_right_iff_2024 : IsoRight ⟨124, 1, 364⟩ := by
  refine (iso_right_iff (t := ⟨124, 1, 364⟩) ⟨?_, ?_, ?_, ?_, ?_⟩).mpr ?_ <;> decide

/-- The third of January 2000 is in week 1, the last Friday of 2018 in week 52. -/
theorem iso_week_late : isoStandardWeek ⟨100, 1, 2⟩ = 2 ∧ Tm.day ⟨100, 1, 2⟩ = weekOne 2000 ∧
    isoStandardWeek ⟨118, 5, 361⟩ = 1 ∧ isoWeekBasedYear ⟨118, 5, 361⟩ = 2019 ∧
    Tm.day ⟨118, 5, 361⟩ < weekOne 2019 := by
  decide

end Weeks
