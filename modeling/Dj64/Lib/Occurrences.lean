import Mathlib.Tactic
import Mathlib.Data.Finset.Card

/-!
# How often a function takes a value

* `occurrences n f a`: the number of indices below `n` at which `f` is `a`;
* `occurrences_update_new`, `occurrences_update_old`, `occurrences_update_other`: one value is
  changed;
* `exists_update_iff`: the values after that.
-/

namespace Occurrences

open Function Finset

variable {α : Type*} [DecidableEq α] {n i k : ℕ} {f : ℕ → α} {a b v : α}

/-- The number of indices below `n` at which `f` is `a`. -/
def occurrences (n : ℕ) (f : ℕ → α) (a : α) : ℕ := ((range n).filter fun i => f i = a).card

theorem occurrences_le (n : ℕ) (f : ℕ → α) (a : α) : occurrences n f a ≤ n := by
  exact (card_filter_le _ _).trans_eq (card_range n)

theorem occurrences_eq_zero_iff : occurrences n f a = 0 ↔ ∀ i < n, f i ≠ a := by
  unfold occurrences
  rw [card_eq_zero, filter_eq_empty_iff]
  exact forall_congr' fun i => by rw [mem_range]

theorem occurrences_pos_iff : 0 < occurrences n f a ↔ ∃ i < n, f i = a := by
  rw [Nat.pos_iff_ne_zero, Ne, occurrences_eq_zero_iff]
  push Not
  rfl

theorem occurrences_update_new (hi : i < n) (hf : f i ≠ a) :
    occurrences n (update f i a) a = occurrences n f a + 1 := by
  have hset : ((range n).filter fun j => update f i a j = a) =
      insert i ((range n).filter fun j => f j = a) := by
    ext j
    by_cases hj : j = i
    · subst hj
      simp [hi]
    · simp [hj]
  unfold occurrences
  rw [hset]
  simp [hf]

theorem occurrences_update_old (hi : i < n) (hf : f i = a) (hb : b ≠ a) :
    occurrences n (update f i b) a + 1 = occurrences n f a := by
  have hold := occurrences_update_new (f := update f i b) hi (by simpa using hb)
  rw [update_idem, ← hf, update_eq_self, hf] at hold
  exact hold.symm

theorem occurrences_update_other (hf : f i ≠ a) (hb : b ≠ a) :
    occurrences n (update f i b) a = occurrences n f a := by
  unfold occurrences
  congr 1
  ext j
  by_cases hj : j = i
  · subst hj
    simp [hf, hb]
  · simp [hj]

omit [DecidableEq α] in
theorem exists_update_iff (hk : k < n) (hne : f k ≠ a) :
    (∃ i < n, update f k v i = a) ↔ v = a ∨ ∃ i < n, f i = a := by
  constructor
  · rintro ⟨i, hi, heq⟩
    by_cases hik : i = k
    · rw [hik, update_self] at heq
      exact .inl heq
    · rw [update_of_ne hik] at heq
      exact .inr ⟨i, hi, heq⟩
  rintro (rfl | ⟨i, hi, heq⟩)
  · exact ⟨k, hk, update_self ..⟩
  · refine ⟨i, hi, ?_⟩
    rw [update_of_ne, heq]
    rintro rfl
    exact hne heq

end Occurrences
