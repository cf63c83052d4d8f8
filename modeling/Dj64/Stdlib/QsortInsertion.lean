import Dj64.Stdlib.Qsort

/-!
# `InsertionSort`

The inner loop carries an element down until the one before it is not greater.  It does not stop at
`First`, only at the start of the array: that no element before `First` is greater than one of the
segment stops it there.
-/

namespace Qsort

open Segments

variable {α : Type} {N last' : ℕ} {cmp : α → α → ℤ} {a b : ℕ → α} {first last i j : ℕ}

theorem cmpr_ok (hi : InArray N i) (hj : InArray N j) : cmpr N cmp a i j = .ok (cmp (a i) (a j)) :=
  if_pos ⟨hi, hj⟩

theorem swap_ok (hi : InArray N i) (hj : InArray N j) : swap N a i j = .ok (exchange a i j) :=
  if_pos ⟨hi, hj⟩

theorem Below.rearranged (h : Below cmp a first last) (hab : Rearranged first last a b) :
    Below cmp b first last := by
  intro i j hi hlt hj hle
  rw [hab.eq_outside fun h => absurd h.1 (by omega)]
  exact hab.forall_mem (p := fun x => cmp (a i) x ≤ 0) (fun k hk hk' => h i k hi hlt hk hk') hj hle

theorem Below.mono (h : Below cmp a first last) (hle : last' ≤ last) : Below cmp a first last' :=
  fun i j hi hlt hj hj' => h i j hi hlt hj (hj'.trans hle)

/-! ### The inner loop -/

/-- The elements from `first` to `start` are in order, but for the one at `next`, which is not
greater than those above it. -/
structure Inserting (cmp : α → α → ℤ) (a : ℕ → α) (first start next : ℕ) : Prop where
  others : ∀ i j, first ≤ i → i ≤ j → j ≤ start → i ≠ next → j ≠ next → cmp (a i) (a j) ≤ 0
  above : ∀ j, next < j → j ≤ start → cmp (a next) (a j) ≤ 0

variable {start next prev : ℕ}

theorem Sorted.inserting (h : Sorted cmp a first start) : Inserting cmp a first (start + 1)
    (start + 1) where
  others i j hi hij hj _ hj' := h i j hi hij (by omega)
  above j hj hj' := by omega

section

variable (hcmp : TotalPreorder cmp)
include hcmp

theorem Inserting.sorted (h : Inserting cmp a first start next)
    (hb : ∀ i, first ≤ i → i < next → cmp (a i) (a next) ≤ 0) : Sorted cmp a first start := by
  intro i j hi hij hj
  by_cases hin : i = next
  · by_cases hjn : j = next
    · rw [hin, hjn, hcmp.refl]
    · rw [hin]
      exact h.above j (by omega) hj
  · by_cases hjn : j = next
    · rw [hjn]
      exact hb i hi (by omega)
    · exact h.others i j hi hij hj hin hjn

/-- The element before is greater: the two are exchanged. -/
theorem Inserting.exchange (h : Inserting cmp a first start (prev + 1))
    (hf : first ≤ prev) (hs : prev + 1 ≤ start) (hc : 0 < cmp (a prev) (a (prev + 1))) :
    Inserting cmp (exchange a prev (prev + 1)) first start prev := by
  have ho {k : ℕ} (hk : k ≠ prev) (hk' : k ≠ prev + 1) :
    Segments.exchange a prev (prev + 1) k = a k :=
    exchange_of_ne hk hk'
  constructor
  · intro i j hi hij hj hin hjn
    by_cases hip : i = prev + 1
    · rw [hip, exchange_right]
      by_cases hjp : j = prev + 1
      · rw [hjp, exchange_right, hcmp.refl]
      · rw [ho hjn hjp]
        exact h.others prev j hf (by omega) hj (by omega) hjp
    rw [ho hin hip]
    by_cases hjp : j = prev + 1
    · rw [hjp, exchange_right]
      exact h.others i prev hi (by omega) (by omega) hip (by omega)
    · rw [ho hjn hjp]
      exact h.others i j hi hij hj hip hjp
  · intro j hj hj'
    rw [exchange_left]
    by_cases hjp : j = prev + 1
    · rw [hjp, exchange_right]
      exact ((hcmp.neg_iff _ _).mpr hc).le
    · rw [ho (by omega) hjp]
      exact h.above j (by omega) hj'

/-- The inner loop brings the element to its place. -/
theorem insertNext_sorts (hf : 1 ≤ first) (hN : start ≤ N)
    (hn : first ≤ next) (hs : next ≤ start) (hbe : Below cmp a first start)
    (h : Inserting cmp a first start next) :
    ∃ b, insertNext N cmp next a = .ok b ∧ Rearranged first start a b ∧
      Sorted cmp b first start := by
  fun_induction insertNext N cmp next a with
  | case1 prev a ih =>
    have hp : InArray N (prev + 1) := ⟨by omega, by omega⟩
    have ht : InArray N (prev + 2) := ⟨by omega, by omega⟩
    rw [cmpr_ok hp ht]
    dsimp only [bind, Except.bind]
    by_cases hc : 0 ≥ cmp (a (prev + 1)) (a (prev + 2))
    · rw [if_pos hc]
      refine ⟨a, rfl, Rearranged.refl .., h.sorted hcmp fun i hi hlt => ?_⟩
      -- what is before the element before is not greater than that one
      have hle : cmp (a i) (a (prev + 1)) ≤ 0 :=
        h.others i (prev + 1) hi (by omega) (by omega) (by omega) (by omega)
      exact hcmp.trans _ _ _ hle hc
    rw [if_neg hc, swap_ok hp ht]
    -- a greater element is not one before the segment
    have hin : first ≤ prev + 1 := by
      by_contra hlt
      exact hc (hbe _ _ (by omega) (by omega) hn hs)
    have hab : Rearranged first start a (exchange a (prev + 1) (prev + 2)) :=
      rearranged_exchange ⟨hin, by omega⟩ ⟨hn, hs⟩ a
    obtain ⟨b, hb, hb', hso⟩ := ih (exchange a (prev + 1) (prev + 2)) hin (by omega)
      (hbe.rearranged hab)
      (h.exchange hcmp hin hs (not_le.mp hc))
    exact ⟨b, hb, hab.trans hb', hso⟩
  | case2 next a hst =>
    refine ⟨a, rfl, Rearranged.refl .., h.sorted hcmp fun i hi hlt => ?_⟩
    match next, hst with
    | 0, _ => omega
    | 1, _ => omega
    | prev + 2, hst => exact absurd rfl (hst prev)

/-! ### The outer loop -/

theorem insertAll_sorts (hf : 1 ≤ first) (n : ℕ) (hN : start + n ≤ N)
    (hst : first ≤ start) (hbe : Below cmp a first (start + n)) (h : Sorted cmp a first start) :
    ∃ b, insertAll N cmp n (start + 1) a = .ok b ∧ Rearranged first (start + n) a b ∧
      Sorted cmp b first (start + n) := by
  induction n generalizing start a with
  | zero => exact ⟨a, rfl, Rearranged.refl .., h⟩
  | succ n ih =>
    obtain ⟨b, hb, hab, hs⟩ := insertNext_sorts (N := N) hcmp hf (show start + 1 ≤ N by omega)
      (by omega) le_rfl (hbe.mono (by omega)) h.inserting
    have hab' : Rearranged first (start + (n + 1)) a b := hab.mono le_rfl (by omega)
    have hsh : start + (n + 1) = start + 1 + n := by omega
    rw [hsh] at hN hbe hab' ⊢
    obtain ⟨c, hc, hbc, hs'⟩ := ih hN (by omega) (hbe.rearranged hab') hs
    refine ⟨c, ?_, hab'.trans hbc, hs'⟩
    rw [insertAll, hb]
    exact hc

/-- **The segment is sorted.** -/
theorem insertionSort_sorts (hf : 1 ≤ first) (hle : first ≤ last)
    (hN : last ≤ N) (hb : Below cmp a first last) :
    ∃ b, insertionSort N cmp first last a = .ok b ∧ Rearranged first last a b ∧
      Sorted cmp b first last := by
  have hl : first + (last - first) = last := by omega
  have h : Sorted cmp a first first := by
    intro i j hi hij hj
    rw [show i = j by omega, hcmp.refl]
  have hs := insertAll_sorts (N := N) hcmp hf (last - first) (by omega) le_rfl (by rwa [hl]) h
  rwa [hl] at hs

end

end Qsort
