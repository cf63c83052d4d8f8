import Mathlib.Tactic

/-!
# Flags in a word

* `has`: a flag is set;
* `has_set_self`, `has_set_other`, `has_clear_self`, `has_clear_other`: what setting and clearing
  do.
-/

namespace Flags

/-- One of the bits of `b` is set. -/
def has (f b : UInt64) : Prop := f &&& b ≠ 0

instance (f b : UInt64) : Decidable (has f b) := inferInstanceAs (Decidable (_ ≠ _))

variable {f a b : UInt64}

theorem or_and : (f ||| a) &&& b = (f &&& b) ||| (a &&& b) := by
  apply UInt64.toNat_inj.mp
  simp only [UInt64.toNat_and, UInt64.toNat_or, Nat.and_or_distrib_right]

theorem has_set_self (h : a &&& a ≠ 0) : has (f ||| a) a := by
  intro hz
  rw [or_and] at hz
  have hnat := congrArg UInt64.toNat hz
  rw [UInt64.toNat_or, UInt64.toNat_zero, Nat.or_eq_zero_iff] at hnat
  exact h (UInt64.toNat_inj.mp (hnat.2.trans UInt64.toNat_zero.symm))

theorem has_set_other (h : a &&& b = 0) : has (f ||| a) b ↔ has f b := by
  rw [has, or_and, h, UInt64.or_zero]
  rfl

theorem has_clear_self (h : ~~~a &&& a = 0) : ¬ has (f &&& ~~~a) a := by
  rw [has, UInt64.and_assoc, h, UInt64.and_zero]
  exact not_not_intro rfl

theorem has_clear_other (h : ~~~a &&& b = b) : has (f &&& ~~~a) b ↔ has f b := by
  rw [has, UInt64.and_assoc, h]
  rfl

end Flags
