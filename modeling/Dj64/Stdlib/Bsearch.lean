import Mathlib.Tactic

/-!
# `bsearch`

An element is given by its number, and a comparison by its result for the key and each element.
The number of elements that remain is an `int`, so that the search is right for arrays of less than
2^31 elements only.
-/

namespace Bsearch

/-- The loop: what is returned, unless `fuel` rounds are not enough, and the elements that the key
is compared with. -/
def loop (cmp : ℤ → ℤ) : ℕ → ℤ → ℤ → Option (Option ℤ) × List ℤ
  | 0, _, _ => (none, [])
  | fuel + 1, base, lim =>
    if lim = 0 then (some none, [])
    else
      let p := base + lim / 2
      if cmp p = 0 then (some (some p), [p])
      else
        let r := if 0 < cmp p then loop cmp fuel (p + 1) ((lim - 1) / 2)
          else loop cmp fuel base (lim / 2)
        (r.1, p :: r.2)

/-- `bsearch`; `nelem` is converted to an `int`. -/
def bsearch (cmp : ℤ → ℤ) (nelem fuel : ℕ) : Option (Option ℤ) × List ℤ :=
  loop cmp fuel 0 (Int.bmod nelem (2 ^ 32))

/-- The array is sorted, and the comparison is consistent with the key. -/
def Sorted (cmp : ℤ → ℤ) (n : ℤ) : Prop :=
  ∀ i j, 0 ≤ i → i ≤ j → j < n → (0 < cmp j → 0 < cmp i) ∧ (cmp i < 0 → cmp j < 0)

/-- The search returns, compares with elements of the array only, and returns one that matches or
nothing if there is none. -/
def Finds (cmp : ℤ → ℤ) (n : ℤ) (r : Option (Option ℤ) × List ℤ) : Prop :=
  (∀ p ∈ r.2, 0 ≤ p ∧ p < n) ∧
    ((∃ p, r.1 = some (some p) ∧ 0 ≤ p ∧ p < n ∧ cmp p = 0) ∨
      r.1 = some none ∧ ∀ i, 0 ≤ i → i < n → cmp i ≠ 0)

variable {cmp : ℤ → ℤ} {n base lim p : ℤ} {fuel : ℕ}

theorem Finds.cons {r : Option (Option ℤ) × List ℤ} (h : Finds cmp n r) (h0 : 0 ≤ p)
    (hp : p < n) : Finds cmp n (r.1, p :: r.2) :=
  ⟨List.forall_mem_cons.mpr ⟨⟨h0, hp⟩, h.1⟩, h.2⟩

/-- The elements before `base` are smaller than the key, those from `base + lim` on are larger. -/
theorem loop_finds (hs : Sorted cmp n) (hb : 0 ≤ base) (hl : 0 ≤ lim) (hn : base + lim ≤ n)
    (hf : lim < fuel) (hlo : ∀ i, 0 ≤ i → i < base → 0 < cmp i)
    (hhi : ∀ i, base + lim ≤ i → i < n → cmp i < 0) : Finds cmp n (loop cmp fuel base lim) := by
  induction fuel generalizing base lim with
  | zero => omega
  | succ fuel ih =>
    rw [loop]
    by_cases hz : lim = 0
    · rw [if_pos hz]
      refine ⟨by simp, .inr ⟨rfl, fun i h0 hi h => ?_⟩⟩
      rcases lt_or_ge i base with h1 | h1
      · exact (hlo i h0 h1).ne' h
      · exact (hhi i (by omega) hi).ne h
    rw [if_neg hz]
    dsimp only
    by_cases hc : cmp (base + lim / 2) = 0
    · rw [if_pos hc]
      refine ⟨fun p hp => ?_, .inl ⟨_, rfl, by omega, by omega, hc⟩⟩
      rw [List.mem_singleton.mp hp]
      omega
    rw [if_neg hc]
    refine Finds.cons ?_ (by omega) (by omega)
    split_ifs with hp
    · refine ih (by omega) (by omega) (by omega) (by omega) (fun i h0 hi => ?_)
        fun i hi => hhi i (by omega)
      exact (hs i _ h0 (by omega : i ≤ base + lim / 2) (by omega)).1 hp
    · refine ih hb (by omega) (by omega) (by omega) hlo fun i hi hin => ?_
      exact (hs _ i (by omega) hi hin).2 (by omega)

theorem loop_misses (hl : 0 ≤ lim) (h : ∀ i < base + lim, 0 < cmp i) :
    (loop cmp fuel base lim).1 ≠ some (some p) := by
  induction fuel generalizing base lim with
  | zero => simp [loop]
  | succ fuel ih =>
    rw [loop]
    by_cases hz : lim = 0
    · simp [hz]
    have hp := h (base + lim / 2) (by omega)
    rw [if_neg hz]
    dsimp only
    rw [if_neg hp.ne', if_pos hp]
    exact ih (by omega) fun i hi => h i (by omega)

/-- **The search is right for every sorted array exactly if its length is less than 2^31.** -/
theorem bsearch_finds_iff (nelem : ℕ) :
    (∀ cmp, Sorted cmp nelem → ∃ fuel, Finds cmp nelem (bsearch cmp nelem fuel)) ↔
      nelem < 2 ^ 31 := by
  constructor
  · intro h
    by_contra hge
    -- only the last element matches
    let cmp : ℤ → ℤ := fun i => if i < nelem - 1 then 1 else 0
    have hs : Sorted cmp nelem := by
      intro i j _ hij _
      dsimp only [cmp]
      split_ifs <;> omega
    obtain ⟨fuel, hin, hf⟩ := h cmp hs
    have hlt : Int.bmod nelem (2 ^ 32) < 2 ^ 31 := Int.bmod_lt (by norm_num)
    rcases lt_or_ge (Int.bmod nelem (2 ^ 32)) 0 with h0 | h0
    · -- the first comparison is with an element before the array
      cases fuel with
      | zero => simp [bsearch, loop] at hf
      | succ fuel =>
        have hp := hin (0 + Int.bmod nelem (2 ^ 32) / 2) (by
          rw [bsearch, loop, if_neg h0.ne]
          dsimp only
          split_ifs <;> simp)
        omega
    · have hm : ∀ i < 0 + Int.bmod nelem (2 ^ 32), 0 < cmp i := by
        intro i hi
        dsimp only [cmp]
        rw [if_pos (by omega)]
        exact one_pos
      rcases hf with ⟨p, hp, -⟩ | ⟨-, hne⟩
      · exact loop_misses h0 hm hp
      · exact hne (nelem - 1) (by omega) (by omega) (if_neg (lt_irrefl _))
  · intro hlt cmp hs
    have hb : Int.bmod nelem (2 ^ 32) = nelem := by
      rw [Int.bmod_def]
      omega
    refine ⟨nelem + 1, ?_⟩
    rw [bsearch, hb]
    exact loop_finds hs le_rfl (by omega) (by omega) (by omega) (by omega) fun i hi hin => by omega

/-- In an array of 2^32 elements nothing is found, though the first one matches. -/
theorem bsearch_misses_first : Sorted (fun i => -i) (2 ^ 32 : ℕ) ∧
    bsearch (fun i => -i) (2 ^ 32) 1 = (some none, []) ∧ (fun i : ℤ => -i) 0 = 0 :=
  ⟨fun i j _ hij _ => by dsimp only; omega, rfl, rfl⟩

end Bsearch
