import Dj64.Stdlib.Bsearch
import Dj64.Stdlib.QsortRuns

/-!
# Sorted arrays: what `qsort` makes of an array does not depend on its order, and can be searched
-/

namespace Qsort

open List

variable {α : Type} {cmp : α → α → ℤ} {N fuel : ℕ} {a a' b : ℕ → α}

theorem exists_sorts (hcmp : TotalPreorder cmp) (N : ℕ) (a : ℕ → α) : ∃ b, Sorts N cmp 1 N a b :=
  quickSort_sorts hcmp (Nat.add_sub_cancel N 1) le_rfl le_rfl fun i j hi hlt => by omega

theorem Sorted.pairwise (h : Sorted cmp b 1 N) :
    ((range' 1 N).map b).Pairwise fun x y => cmp x y ≤ 0 := by
  rw [pairwise_map]
  refine (pairwise_lt_range' ..).imp_of_mem fun hi hj hij => ?_
  rw [mem_range'_1] at hi hj
  exact h _ _ hi.1 hij.le (by omega)

/-- **The order before does not matter**, if only equal elements compare as equal. -/
theorem qsort_order_free (hcmp : TotalPreorder cmp) (heq : ∀ x y, cmp x y = 0 → x = y)
    (hp : ((range' 1 N).map a).Perm ((range' 1 N).map a')) (hf : N < fuel) :
    ∃ b b', qsort N cmp fuel a = .ok b ∧ qsort N cmp fuel a' = .ok b' ∧
      (range' 1 N).map b = (range' 1 N).map b' := by
  obtain ⟨b, hrun, hab, hs⟩ := exists_sorts hcmp N a
  obtain ⟨b', hrun', hab', hs'⟩ := exists_sorts hcmp N a'
  refine ⟨b, b', hrun fuel (by omega), hrun' fuel (by omega), ?_⟩
  refine Perm.eq_of_pairwise (fun x y _ _ hxy hyx => ?_) hs.pairwise hs'.pairwise
    ((hab.perm.trans hp).trans hab'.perm.symm)
  exact heq x y (le_antisymm hxy (hcmp.nonpos_iff.mp hyx))

theorem qsort_order_free_reversed : ∃ b b', qsort 9 (fun x y : ℤ => x - y) 10 (fun k => k) = .ok b ∧
    qsort 9 (fun x y : ℤ => x - y) 10 (fun k => 10 - k) = .ok b' ∧
      (range' 1 9).map b = (range' 1 9).map b' :=
  qsort_order_free ⟨fun x y => by omega, fun x y z h h' => by omega⟩ (fun x y h => by omega)
    (by decide) (by decide)

end Qsort

namespace Bsearch

/-- A search returns what matches, after comparisons with at most `k` elements, all different. -/
def Short (cmp : ℤ → ℤ) (k : ℕ) (lo hi : ℤ) (r : Option (Option ℤ) × List ℤ) : Prop :=
  (∃ q, r.1 = some q ∧ ∀ p ∈ q, cmp p = 0) ∧ r.2.length ≤ k ∧ r.2.Nodup ∧
    ∀ p ∈ r.2, lo ≤ p ∧ p < hi

variable {cmp : ℤ → ℤ} {base lim lo hi p : ℤ} {fuel k : ℕ}

theorem Short.cons {r : Option (Option ℤ) × List ℤ} (h : Short cmp k base lim r)
    (hp : lo ≤ p ∧ p < hi) (hlo : lo ≤ base) (hhi : lim ≤ hi) (hne : p < base ∨ lim ≤ p) :
    Short cmp (k + 1) lo hi (r.1, p :: r.2) := by
  obtain ⟨hr, hlen, hnd, hin⟩ := h
  exact ⟨hr, by simpa, hnd.cons fun hm => by grind, by grind⟩

theorem loop_short (hl : 0 ≤ lim) (hk : lim < 2 ^ k) (hf : k < fuel) :
    Short cmp k base (base + lim) (loop cmp fuel base lim) := by
  induction fuel generalizing base lim k with
  | zero => omega
  | succ fuel ih =>
    rw [loop]
    by_cases hz : lim = 0
    · simp [hz, Short]
    obtain ⟨k, rfl⟩ := Nat.exists_eq_succ_of_ne_zero (show k ≠ 0 by rintro rfl; omega)
    rw [pow_succ] at hk
    rw [if_neg hz]
    by_cases hc : cmp (base + lim / 2) = 0
    · simp [hc, Short]
      omega
    simp only [if_neg hc]
    -- each round leaves less than half of the elements
    split_ifs <;>
      exact (ih (by omega) (by omega) (by omega)).cons (by omega) (by omega) (by omega) (by omega)

theorem bsearch_eq {n : ℕ} (hn : n < 2 ^ 31) : bsearch cmp n fuel = loop cmp fuel 0 n := by
  have hb : Int.bmod n (2 ^ 32) = n := by
    rw [Int.bmod_def]
    omega
  rw [bsearch, hb]

/-- **Every search is short**, also in an array that is not sorted. -/
theorem bsearch_short (cmp : ℤ → ℤ) {nelem : ℕ} (hn : nelem < 2 ^ 31)
    (hf : nelem.log2 + 1 < fuel) : Short cmp (nelem.log2 + 1) 0 nelem (bsearch cmp nelem fuel) := by
  have hs : (nelem : ℤ) < 2 ^ (nelem.log2 + 1) := by exact_mod_cast Nat.lt_log2_self
  have h := @loop_short cmp 0 nelem fuel _ (Nat.cast_nonneg _) hs hf
  rwa [zero_add, ← bsearch_eq hn] at h

theorem bsearch_short_thousand :
    Short (fun i => i * i - 2) 10 0 1000 (bsearch (fun i => i * i - 2) 1000 11) :=
  bsearch_short _ (by norm_num) (by decide)

/-- **What is sorted can be searched**: an element is found if and only if the array had one that
matches before it was sorted. -/
theorem qsort_bsearch {α : Type} {cmp : α → α → ℤ} (hcmp : Qsort.TotalPreorder cmp) {N : ℕ}
    (hN : N < 2 ^ 31) (a : ℕ → α) :
    ∃ b, (∀ fuel, N < fuel → Qsort.qsort N cmp fuel a = .ok b) ∧ ∀ key fuel, N < fuel →
      let c := fun i : ℤ => cmp key (b (i + 1).toNat)
      Finds c N (bsearch c N fuel) ∧ ((∃ p, (bsearch c N fuel).1 = some (some p)) ↔
        ∃ k, 1 ≤ k ∧ k ≤ N ∧ cmp key (a k) = 0) := by
  obtain ⟨b, hrun, hab, hs⟩ := Qsort.exists_sorts hcmp N a
  refine ⟨b, fun fuel hf => hrun fuel (by omega), fun key fuel hf => ?_⟩
  intro c
  have hso : Sorted c N := by
    intro i j h0 hij hj
    have hle := hs (i + 1).toNat (j + 1).toNat (by omega) (by omega) (by omega)
    have h1 := fun h => hcmp.trans key _ _ h hle
    have h2 := hcmp.trans _ _ key hle
    rw [hcmp.nonpos_iff, hcmp.nonpos_iff] at h2
    grind
  have hfi := loop_finds hso le_rfl (Nat.cast_nonneg N) (zero_add _).le (by omega : (N : ℤ) < fuel)
    (fun i h0 hi => by omega) fun i hi hin => by omega
  have hm := (hab.perm.map (cmp key)).mem_iff (a := 0)
  simp only [List.map_map, List.mem_map, List.mem_range'_1, Function.comp_apply, and_assoc,
    Nat.add_sub_cancel, Nat.lt_one_add_iff] at hm
  rw [bsearch_eq hN, ← hm]
  refine ⟨hfi, ?_⟩
  rcases hfi.2 with ⟨p, hp, h0, hpN, hc⟩ | ⟨hp, hne⟩
  · exact iff_of_true ⟨p, hp⟩ ⟨_, by omega, by omega, hc⟩
  · refine iff_of_false (by simp [hp]) ?_
    rintro ⟨k, h1, hk, h⟩
    exact hne (k - 1) (by omega) (by omega) (by simpa [c] using h)

theorem qsort_bsearch_nine : ∃ b, (∀ fuel, 9 < fuel →
      Qsort.qsort 9 (fun x y : ℤ => x - y) fuel (fun k => 5 - k) = .ok b) ∧
    ∀ key fuel, 9 < fuel → let c := fun i : ℤ => key - b (i + 1).toNat
      Finds c 9 (bsearch c 9 fuel) ∧ ((∃ p, (bsearch c 9 fuel).1 = some (some p)) ↔
        ∃ k : ℕ, 1 ≤ k ∧ k ≤ 9 ∧ key - (5 - k) = 0) :=
  qsort_bsearch ⟨fun x y => by omega, fun x y z h h' => by omega⟩ (by norm_num) _

end Bsearch
