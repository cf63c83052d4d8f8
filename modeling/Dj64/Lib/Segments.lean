import Mathlib.Tactic
import Mathlib.Logic.Equiv.Basic
import Mathlib.Data.List.Perm.Basic
import Mathlib.Data.List.Nodup

/-!
# Rearranged segments of arrays

An array is a function on the indices.

* `exchange`: two values are exchanged;
* `Rearranged.forall_mem`: what holds for all values of the segment still does;
* `Rearranged.perm`: the values as lists.
-/

namespace Segments

open List Equiv

variable {α : Type*} {lo hi i j k lo' hi' : ℕ} {a b c : ℕ → α} {σ : Equiv.Perm ℕ}

/-- The values at `i` and `j` are exchanged. -/
def exchange (a : ℕ → α) (i j : ℕ) : ℕ → α :=
  fun k => if k = i then a j else if k = j then a i else a k

theorem exchange_left (a : ℕ → α) (i j : ℕ) : exchange a i j i = a j := if_pos rfl

theorem exchange_right (a : ℕ → α) (i j : ℕ) : exchange a i j j = a i := by
  unfold exchange
  by_cases h : j = i
  · rw [if_pos h, h]
  · rw [if_neg h, if_pos rfl]

theorem exchange_of_ne (hi : k ≠ i) (hj : k ≠ j) : exchange a i j k = a k := by
  rw [exchange, if_neg hi, if_neg hj]

theorem exchange_eq_comp : exchange a i j = a ∘ swap i j := by
  funext k
  rw [Function.comp_apply]
  by_cases hi : k = i
  · rw [hi, exchange_left, swap_apply_left]
  · by_cases hj : k = j
    · rw [hj, exchange_right, swap_apply_right]
    · rw [exchange_of_ne hi hj, swap_apply_of_ne_of_ne hi hj]

theorem exchange_self (a : ℕ → α) (i : ℕ) : exchange a i i = a := by
  simp [exchange_eq_comp]

/-- The values at the indices from `lo` to `hi` are rearranged. -/
def Rearranged (lo hi : ℕ) (a b : ℕ → α) : Prop :=
  ∃ σ : Equiv.Perm ℕ, (∀ k, ¬ (lo ≤ k ∧ k ≤ hi) → σ k = k) ∧ b = a ∘ σ

theorem Rearranged.refl (lo hi : ℕ) (a : ℕ → α) : Rearranged lo hi a a :=
  ⟨Equiv.refl ℕ, fun _ _ => rfl, rfl⟩

theorem Rearranged.trans (h : Rearranged lo hi a b) (h' : Rearranged lo hi b c) :
    Rearranged lo hi a c := by
  obtain ⟨σ, hσ, rfl⟩ := h
  obtain ⟨τ, hτ, rfl⟩ := h'
  refine ⟨τ.trans σ, fun k hk => ?_, rfl⟩
  rw [trans_apply, hτ k hk, hσ k hk]

theorem Rearranged.mono (h : Rearranged lo hi a b) (hlo : lo' ≤ lo) (hhi : hi ≤ hi') :
    Rearranged lo' hi' a b := by
  obtain ⟨σ, hσ, rfl⟩ := h
  exact ⟨σ, fun k hk => hσ k fun h => hk ⟨hlo.trans h.1, h.2.trans hhi⟩, rfl⟩

theorem rearranged_exchange (hi' : lo ≤ i ∧ i ≤ hi) (hj : lo ≤ j ∧ j ≤ hi) (a : ℕ → α) :
    Rearranged lo hi a (exchange a i j) := by
  refine ⟨swap i j, fun k hk => swap_apply_of_ne_of_ne ?_ ?_, exchange_eq_comp⟩
  · rintro rfl
    exact hk hi'
  · rintro rfl
    exact hk hj

theorem Rearranged.eq_outside (h : Rearranged lo hi a b) (hk : ¬ (lo ≤ k ∧ k ≤ hi)) :
    b k = a k := by
  obtain ⟨σ, hσ, rfl⟩ := h
  rw [Function.comp_apply, hσ k hk]

theorem perm_mem (hσ : ∀ k, ¬ (lo ≤ k ∧ k ≤ hi) → σ k = k) (hk : lo ≤ k ∧ k ≤ hi) :
    lo ≤ σ k ∧ σ k ≤ hi := by
  by_contra hout
  have hfix : σ k = k := σ.injective (hσ (σ k) hout)
  rw [hfix] at hout
  exact hout hk

theorem Rearranged.forall_mem {p : α → Prop} (h : Rearranged lo hi a b)
    (hp : ∀ k, lo ≤ k → k ≤ hi → p (a k)) (hlo : lo ≤ k) (hhi : k ≤ hi) : p (b k) := by
  obtain ⟨σ, hσ, rfl⟩ := h
  obtain ⟨hlo', hhi'⟩ := perm_mem hσ ⟨hlo, hhi⟩
  exact hp (σ k) hlo' hhi'

section

variable (hσ : ∀ k, ¬ (lo ≤ k ∧ k ≤ hi) → σ k = k)
include hσ

theorem perm_symm_fixes :
    ∀ k, ¬ (lo ≤ k ∧ k ≤ hi) → σ.symm k = k := by
  intro k hk
  rw [symm_apply_eq, hσ k hk]

theorem perm_range :
    ((range' lo (hi + 1 - lo)).map σ).Perm (range' lo (hi + 1 - lo)) := by
  rw [perm_ext_iff_of_nodup ((nodup_map_iff σ.injective).mpr nodup_range') nodup_range']
  intro k
  simp only [mem_map, mem_range'_1]
  constructor
  · rintro ⟨m, hm, rfl⟩
    have := perm_mem hσ (show lo ≤ m ∧ m ≤ hi by omega)
    omega
  · intro hk
    have := perm_mem (perm_symm_fixes hσ) (show lo ≤ k ∧ k ≤ hi by omega)
    exact ⟨σ.symm k, by omega, σ.apply_symm_apply k⟩

end

theorem Rearranged.perm (h : Rearranged lo hi a b) :
    ((range' lo (hi + 1 - lo)).map b).Perm ((range' lo (hi + 1 - lo)).map a) := by
  obtain ⟨σ, hσ, rfl⟩ := h
  rw [← map_map]
  exact (perm_range hσ).map a

end Segments
