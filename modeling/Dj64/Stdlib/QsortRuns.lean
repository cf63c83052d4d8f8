import Dj64.Stdlib.QsortPartition

/-!
# `QuickSort`

* `Sorted.join`: two sorted segments around elements that are equal to the pivot;
* `quickSort_sorts`: the segment is sorted, by induction on its length;
* `qsort_sorts`: the array is sorted.
-/

namespace Qsort

open Segments Nat List

variable {α : Type} {N i j lo hi n : ℕ} {cmp : α → α → ℤ} {a b c : ℕ → α}
  {first last lp rp fuel : ℕ}
  {v : α}

/-! ### The partition, with its sides rearranged -/

section

variable (h : Partitioned cmp v a first last lp rp)
include h

theorem Partitioned.rearranged_left (hf : 1 ≤ first)
    (hab : Rearranged first (lp - 1) a b) : Partitioned cmp v b first last lp rp := by
  have hs {k : ℕ} (hk : lp ≤ k) : b k = a k := hab.eq_outside (by omega)
  refine { h with less := ?_, equal := ?_, greater := ?_ }
  · intro k hk hk'
    exact hab.forall_mem (p := fun x => cmp x v < 0) (fun i hi hi' =>
      h.less i hi (by omega)) hk (by omega)
  · intro k hk hk'
    rw [hs hk]
    exact h.equal k hk hk'
  · intro k hk hk'
    rw [hs (h.left_le.trans hk.le)]
    exact h.greater k hk hk'

theorem Partitioned.rearranged_right
    (hab : Rearranged (rp + 1) last a b) : Partitioned cmp v b first last lp rp := by
  have hs {k : ℕ} (hk : k ≤ rp) : b k = a k := hab.eq_outside (by omega)
  refine { h with less := ?_, equal := ?_, greater := ?_ }
  · intro k hk hk'
    rw [hs (hk'.le.trans h.left_le)]
    exact h.less k hk hk'
  · intro k hk hk'
    rw [hs hk']
    exact h.equal k hk hk'
  · intro k hk hk'
    exact hab.forall_mem (p := fun x => 0 < cmp x v) (fun i hi hi' =>
      h.greater i (by omega) hi') hk hk'

theorem Partitioned.not_greater (hi : first ≤ i) (hle : i ≤ rp) : cmp (a i) v ≤ 0 := by
  by_cases hlt : i < lp
  · exact (h.less i hi hlt).le
  · exact (h.equal i (not_lt.mp hlt) hle).le

variable (hcmp : TotalPreorder cmp)
include hcmp

theorem Partitioned.not_less (hj : lp ≤ j) (hle : j ≤ last) : cmp v (a j) ≤ 0 := by
  rw [hcmp.nonpos_iff]
  by_cases hlt : rp < j
  · exact (h.greater j hlt hle).le
  · exact (h.equal j hj (not_lt.mp hlt)).ge

theorem Partitioned.below_right (hb : Below cmp a first last) : Below cmp a (rp + 1) last := by
  intro i j hi hlt hj hle
  have hf := h.first_le
  have hl := h.left_le
  by_cases hif : i < first
  · exact hb i j hi hif (by omega) hle
  · exact hcmp.trans _ _ _ (h.not_greater (not_lt.mp hif) (by omega))
      (h.not_less hcmp (by omega) hle)

theorem Partitioned.sorted (hl : Sorted cmp a first (lp - 1)) (hr : Sorted cmp a (rp + 1) last) :
    Sorted cmp a first last := by
  intro i j hi hij hj
  by_cases hjl : j < lp
  · exact hl i j hi hij (by omega)
  · by_cases hir : rp < i
    · exact hr i j hir hij hj
    · exact hcmp.trans _ _ _ (h.not_greater hi (not_lt.mp hir)) (h.not_less hcmp (not_lt.mp hjl) hj)

end

theorem Sorted.outside (hb : Sorted cmp b i j) (hbc : Rearranged lo hi b c)
    (hd : j < lo ∨ hi < i) : Sorted cmp c i j := by
  intro k l hk hkl hl
  rw [hbc.eq_outside (by omega), hbc.eq_outside (by omega)]
  exact hb k l hk hkl hl

section

variable (hcmp : TotalPreorder cmp)
include hcmp

/-! ### `QuickSort` -/

/-- The segment is sorted, with every amount of fuel that its length calls for. -/
def Sorts (N : ℕ) (cmp : α → α → ℤ) (first last : ℕ) (a b : ℕ → α) : Prop :=
  (∀ fuel, last + 1 - first < fuel → quickSort N cmp fuel first last a = .ok b) ∧
    Rearranged first last a b ∧ Sorted cmp b first last

/-- **A segment is sorted**, if no element before it is greater than one of it. -/
theorem quickSort_sorts (hn : last + 1 - first = n)
    (hf : 1 ≤ first) (hN : last ≤ N) (hbe : Below cmp a first last) :
    ∃ b, Sorts N cmp first last a b := by
  induction n using Nat.strong_induction_on generalizing first last a with
  | _ n ih =>
    by_cases hlt : first < last
    · by_cases hmin : last - first < qmin
      · obtain ⟨b, hb, hab, hs⟩ := insertionSort_sorts hcmp hf hlt.le hN hbe
        refine ⟨b, fun fuel hfu => ?_, hab, hs⟩
        obtain ⟨fuel, rfl⟩ := exists_eq_succ_of_ne_zero (show fuel ≠ 0 by omega)
        rw [quickSort, if_pos hlt, if_pos hmin, hb]
      obtain ⟨b, lp, rp, v, hb, hab, hp⟩ := partition3_partitions hcmp hN hf hlt a
      have hle := hp.first_le
      have hl := hp.left_le
      have hr := hp.right_le
      have hb' : Below cmp b first last := hbe.rearranged hab
      -- the sides are shorter than the segment, which has the pivot
      by_cases ho : lp - first < last - rp
      · obtain ⟨c, hc⟩ := ih (lp - 1 + 1 - first) (by omega) rfl hf (by omega) (hb'.mono (by omega))
        have hp' := hp.rearranged_left hf hc.2.1
        have hbc : Rearranged first last b c := hc.2.1.mono le_rfl (by omega)
        obtain ⟨d, hd⟩ := ih (last + 1 - (rp + 1)) (by omega) rfl (by omega) hN
          (hp'.below_right hcmp (hb'.rearranged hbc))
        refine ⟨d, fun fuel hfu => ?_, (hab.trans hbc).trans (hd.2.1.mono (by omega) le_rfl),
          (hp'.rearranged_right hd.2.1).sorted hcmp (hc.2.2.outside hd.2.1 (by omega)) hd.2.2⟩
        obtain ⟨fuel, rfl⟩ := exists_eq_succ_of_ne_zero (show fuel ≠ 0 by omega)
        rw [quickSort, if_pos hlt, if_neg hmin, hb]
        dsimp only [bind, Except.bind]
        rw [if_pos ho, hc.1 fuel (by omega)]
        exact hd.1 fuel (by omega)
      · obtain ⟨c, hc⟩ := ih (last + 1 - (rp + 1)) (by omega) rfl (by omega) hN
          (hp.below_right hcmp hb')
        have hp' := hp.rearranged_right hc.2.1
        have hbc : Rearranged first last b c := hc.2.1.mono (by omega) le_rfl
        obtain ⟨d, hd⟩ := ih (lp - 1 + 1 - first) (by omega) rfl hf (by omega)
          ((hb'.rearranged hbc).mono (by omega))
        refine ⟨d, fun fuel hfu => ?_, (hab.trans hbc).trans (hd.2.1.mono le_rfl (by omega)),
          (hp'.rearranged_left hf hd.2.1).sorted hcmp hd.2.2 (hc.2.2.outside hd.2.1 (by omega))⟩
        obtain ⟨fuel, rfl⟩ := exists_eq_succ_of_ne_zero (show fuel ≠ 0 by omega)
        rw [quickSort, if_pos hlt, if_neg hmin, hb]
        dsimp only [bind, Except.bind]
        rw [if_neg ho, hc.1 fuel (by omega)]
        exact hd.1 fuel (by omega)
    · refine ⟨a, fun fuel hfu => ?_, Rearranged.refl .., fun i j hi hij hj => ?_⟩
      · obtain ⟨fuel, rfl⟩ := exists_eq_succ_of_ne_zero (show fuel ≠ 0 by omega)
        rw [quickSort, if_neg hlt]
      · rw [show i = j by omega, hcmp.refl]

theorem qsort_ok (N : ℕ) (a : ℕ → α) : ∃ b, (∀ fuel, N < fuel → qsort N cmp fuel a = .ok b) ∧
    Sorted cmp b 1 N ∧ ((range' 1 N).map b).Perm ((range' 1 N).map a) ∧
    ∀ k, ¬ (1 ≤ k ∧ k ≤ N) → b k = a k := by
  have hb : Below cmp a 1 N := fun i j hi hlt => by omega
  obtain ⟨b, hrun, hab, hs⟩ := quickSort_sorts hcmp (Nat.add_sub_cancel N 1) le_rfl le_rfl hb
  refine ⟨b, fun fuel hf => hrun fuel (by omega), hs, ?_, fun k hk => hab.eq_outside hk⟩
  have hp := hab.perm
  rwa [Nat.add_sub_cancel] at hp

/-- **`qsort` sorts.**  With any total preorder it ends without having compared or exchanged
anything but elements of the array, which are then in order and the ones that were there before;
nothing else has changed. -/
theorem qsort_sorts (N : ℕ) (a : ℕ → α) : ∃ b, (∀ fuel, N < fuel → qsort N cmp fuel a = .ok b) ∧
      (∀ i j, 1 ≤ i → i ≤ j → j ≤ N → cmp (b i) (b j) ≤ 0) ∧
      ((range' 1 N).map b).Perm ((range' 1 N).map a) ∧
      ∀ k, ¬ (1 ≤ k ∧ k ≤ N) → b k = a k := by
  obtain ⟨b, hrun, hs, hp, hout⟩ := qsort_ok hcmp N a
  exact ⟨b, hrun, hs, hp, hout⟩

end

/-- Pairs that are compared by their first components only, in descending order. -/
theorem qsort_sorts_pairs : TotalPreorder (fun x y : ℤ × ℤ => y.1 - x.1) ∧
    ∃ b, (∀ fuel, 40 < fuel → qsort 40 (fun x y : ℤ × ℤ => y.1 - x.1) fuel
      (fun k => (k % 7, k)) = .ok b) ∧
      (∀ i j, 1 ≤ i → i ≤ j → j ≤ 40 → (b j).1 - (b i).1 ≤ 0) ∧
      ((range' 1 40).map b).Perm ((range' 1 40).map fun k => ((k % 7 : ℤ), (k : ℤ))) ∧
      ∀ k, ¬ (1 ≤ k ∧ k ≤ 40) → b k = ((k % 7 : ℤ), (k : ℤ)) := by
  have hcmp : TotalPreorder (fun x y : ℤ × ℤ => y.1 - x.1) :=
    ⟨fun x y => by omega, fun x y z h h' => by omega⟩
  exact ⟨hcmp, qsort_sorts hcmp 40 fun k => (k % 7, k)⟩

end Qsort
