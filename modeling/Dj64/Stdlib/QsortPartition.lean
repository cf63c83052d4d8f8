import Dj64.Stdlib.QsortInsertion

/-!
# `Partition3`

The pivot is kept at `First`.  Between the elements that were found less, from the left, and those
that were found greater, from the right, are the elements that are still to be looked at and, just
below the greater ones, those that are equal to the pivot, which are counted.
-/

namespace Qsort

open Segments Rearranged

variable {α : Type} {N fuel mid : ℕ} {cmp : α → α → ℤ} {a b : ℕ → α} {first last i j : ℕ} {v : α}
    {p q : Part α}

def Part.top (p : Part α) : ℕ := p.right + (p.fatPvtCtr - 1)

theorem Part.right_le_top (p : Part α) : p.right ≤ p.top := Nat.le_add_right ..

/-- The segment while it is partitioned around `v`. -/
structure Parted (cmp : α → α → ℤ) (v : α) (first last : ℕ) (p : Part α) : Prop where
  first_lt : first < p.left
  left_le : p.left ≤ p.right + 1
  top_le : p.top ≤ last
  ctr_pos : 1 ≤ p.fatPvtCtr
  pivot : p.array first = v
  less : ∀ k, first < k → k < p.left → cmp (p.array k) v < 0
  equal : ∀ k, p.right < k → k ≤ p.top → cmp (p.array k) v = 0
  greater : ∀ k, p.top < k → k ≤ last → 0 < cmp (p.array k) v
  hiFatPvt : p.hiFatPvt = if p.fatPvtCtr = 1 then none else some p.top

/-- What the loops leave: the parted segment, with the elements above `First` rearranged. -/
structure Leads (cmp : α → α → ℤ) (v : α) (first last : ℕ) (p q : Part α) :
    Prop extends Parted cmp v first last q where
  rearranged : Rearranged (first + 1) last p.array q.array

/-! ### Placing one element -/

section

variable (h : Parted cmp v first last p)
include h

/-- A greater element changes places with the last one that is equal to the pivot. -/
theorem Parted.greater_next (hle : p.left ≤ p.right) (hc : 0 < cmp (p.array p.right) v) :
    Parted cmp v first last
      { p with array := exchange p.array p.top p.right, right := p.right - 1,
               hiFatPvt := if p.fatPvtCtr = 1 then none else some (p.top - 1) } := by
  have hf := h.first_lt
  have hpos := h.ctr_pos
  have htop := p.right_le_top
  have ht' (a : ℕ → α) (hi : Option ℕ) :
      ({ p with array := a, right := p.right - 1, hiFatPvt := hi } : Part α).top = p.top - 1 := by
    unfold Part.top
    dsimp only
    omega
  have hs {k : ℕ} (hk : k ≠ p.top) (hk' : k ≠ p.right) :
    exchange p.array p.top p.right k = p.array k :=
    exchange_of_ne hk hk'
  refine
    { first_lt := hf, left_le := ?_, top_le := ?_, ctr_pos := hpos, pivot := ?_, less := ?_,
      equal := ?_, greater := ?_, hiFatPvt := ?_ }
  · dsimp only
    omega
  · rw [ht']
    have := h.top_le
    omega
  · dsimp only
    rw [hs (by omega) (by omega), h.pivot]
  · intro k hk hk'
    dsimp only at hk' ⊢
    rw [hs (by omega) (by omega)]
    exact h.less k hk hk'
  · intro k hk hk'
    rw [ht'] at hk'
    dsimp only at hk ⊢
    by_cases hkr : k = p.right
    · rw [hkr, exchange_right]
      exact h.equal p.top (by omega) le_rfl
    · rw [hs (by omega) hkr]
      exact h.equal k (by omega) (by omega)
  · intro k hk hk'
    rw [ht'] at hk
    dsimp only
    by_cases hkt : k = p.top
    · rwa [hkt, exchange_left]
    · rw [hs hkt (by omega)]
      exact h.greater k (by omega) hk'
  · rw [ht']

/-- An equal element is counted. -/
theorem Parted.equal_next (hle : p.left ≤ p.right) (hc : cmp (p.array p.right) v = 0) :
    Parted cmp v first last { p with right := p.right - 1, fatPvtCtr := p.fatPvtCtr + 1,
                                     hiFatPvt := some (p.hiFatPvt.getD p.right) } := by
  have hf := h.first_lt
  have hpos := h.ctr_pos
  have ht' (hi : Option ℕ) :
      ({ p with right := p.right - 1, fatPvtCtr := p.fatPvtCtr + 1, hiFatPvt := hi } :
        Part α).top = p.top := by
    unfold Part.top
    dsimp only
    omega
  refine { h with
    left_le := ?_, top_le := ?_, ctr_pos := ?_, equal := ?_, greater := ?_, hiFatPvt := ?_ }
  · dsimp only
    omega
  · rw [ht']
    exact h.top_le
  · dsimp only
    omega
  · intro k hk hk'
    rw [ht'] at hk'
    dsimp only at hk ⊢
    by_cases hkr : k = p.right
    · rwa [hkr]
    · exact h.equal k (by omega) hk'
  · intro k hk hk'
    rw [ht'] at hk
    exact h.greater k hk hk'
  · rw [ht', if_neg (show p.fatPvtCtr + 1 ≠ 1 by omega), h.hiFatPvt]
    by_cases hctr : p.fatPvtCtr = 1
    · simp [Part.top, hctr]
    · rw [if_neg hctr]
      rfl

/-- An element that is not less than the pivot is placed. -/
theorem place_parted (hN : last ≤ N) (hle : p.left ≤ p.right) (hc : 0 ≤ cmp (p.array p.right) v) :
    ∃ q, place N (cmp (p.array p.right) v) p = .ok q ∧ q.left = p.left ∧ q.right = p.right ∧
      q.cmprLeft = p.cmprLeft ∧
      (∀ k, k < p.right → q.array k = p.array k) ∧
      Leads cmp v first last p { q with right := q.right - 1 } := by
  have hf := h.first_lt
  have htop := p.right_le_top
  have hl := h.top_le
  unfold place
  by_cases hpos : 0 < cmp (p.array p.right) v
  · rw [if_pos hpos, h.hiFatPvt]
    have hg := h.greater_next hle hpos
    by_cases hctr : p.fatPvtCtr = 1
    · have htr : p.top = p.right := by simp [Part.top, hctr]
      rw [htr, exchange_self, if_pos hctr] at hg
      rw [if_pos hctr]
      have hn : p.hiFatPvt = none := by rw [h.hiFatPvt, if_pos hctr]
      exact ⟨p, rfl, rfl, rfl, rfl, fun _ _ => rfl, hn ▸ hg, refl ..⟩
    rw [if_neg hctr] at hg ⊢
    dsimp only
    rw [swap_ok ⟨by omega, by omega⟩ ⟨by omega, by omega⟩]
    refine ⟨_, rfl, rfl, rfl, rfl, fun k hk => exchange_of_ne (by omega) (by omega), hg, ?_⟩
    exact rearranged_exchange ⟨by omega, by omega⟩ ⟨by omega, by omega⟩ p.array
  · rw [if_neg hpos]
    exact ⟨_, rfl, rfl, rfl, rfl, fun _ _ => rfl, h.equal_next hle (by omega), refl ..⟩

/-! ### The searches -/

theorem Parted.less_next (hle : p.left ≤ p.right) (hl : cmp (p.array p.left) v < 0) :
    Parted cmp v first last { p with left := p.left + 1 } := by
  have hf := h.first_lt
  refine { h with first_lt := ?_, left_le := ?_, less := ?_ }
  · dsimp only
    omega
  · dsimp only
    omega
  · intro k hk hk'
    dsimp only at hk' ⊢
    by_cases hkl : k = p.left
    · rwa [hkl]
    · exact h.less k hk (by omega)

end

/-- The search from the left stops at an element that is not less than the pivot. -/
theorem searchLeft_parted (n : ℕ) (h : Parted cmp v first last p) (hN : last ≤ N)
    (hf : 1 ≤ first) (hn : p.left + n = p.right + 1) :
    ∃ q, searchLeft N cmp first n p = .ok q ∧ q.right = p.right ∧ p.left ≤ q.left ∧
      Leads cmp v first last p q ∧
      (q.left ≤ q.right → q.cmprLeft = cmp (q.array q.left) v ∧ 0 ≤ q.cmprLeft) := by
  induction n generalizing p with
  | zero => exact ⟨p, rfl, rfl, le_rfl, ⟨h, refl ..⟩, fun hle => by omega⟩
  | succ n ih =>
    have hlef := h.first_lt
    have htop := p.right_le_top
    have hla := h.top_le
    rw [searchLeft, cmpr_ok ⟨by omega, by omega⟩ ⟨hf, by omega⟩, h.pivot]
    dsimp only [bind, Except.bind]
    by_cases hc : 0 ≤ cmp (p.array p.left) v
    · rw [if_pos hc]
      exact ⟨_, rfl, rfl, le_rfl, ⟨{ h with }, refl ..⟩, fun _ => ⟨rfl, hc⟩⟩
    rw [if_neg hc]
    have hne : Parted cmp v first last
        { p with cmprLeft := cmp (p.array p.left) v, left := p.left + 1 } :=
      { h.less_next (by omega) (not_le.mp hc) with }
    obtain ⟨q, hq, hr, hle, hl, hs⟩ := ih hne (by dsimp only; omega)
    exact ⟨q, hq, hr, by dsimp only at hle; omega, ⟨hl.toParted, hl.rearranged⟩, hs⟩

/-- The search from the right stops at an element that is less than the pivot. -/
theorem searchRight_parted (n : ℕ) (h : Parted cmp v first last p) (hN : last ≤ N)
    (hf : 1 ≤ first) (hn : p.left + n = p.right + 1) :
    ∃ q, searchRight N cmp first n p = .ok q ∧ q.left = p.left ∧ q.cmprLeft = p.cmprLeft ∧
      q.right ≤ p.right ∧
      (∀ k, k ≤ q.right → q.array k = p.array k) ∧ Leads cmp v first last p q ∧
      (q.left ≤ q.right → cmp (q.array q.right) v < 0) := by
  induction n generalizing p with
  | zero => exact ⟨p, rfl, rfl, rfl, le_rfl, fun _ _ => rfl, ⟨h, refl ..⟩,
      fun hle => by omega⟩
  | succ n ih =>
    have hlef := h.first_lt
    have htop := p.right_le_top
    have hla := h.top_le
    rw [searchRight, cmpr_ok ⟨by omega, by omega⟩ ⟨hf, by omega⟩, h.pivot]
    dsimp only [bind, Except.bind]
    by_cases hc : 0 > cmp (p.array p.right) v
    · rw [if_pos hc]
      exact ⟨p, rfl, rfl, rfl, le_rfl, fun _ _ => rfl, ⟨h, refl ..⟩, fun _ => hc⟩
    rw [if_neg hc]
    obtain ⟨q, hq, hql, hqr, hqc, hqa, hl⟩ := place_parted h hN (by omega) (not_lt.mp hc)
    rw [hq]
    obtain ⟨r, hr, hrl, hrc, hrr, hra, hl', hs⟩ := ih hl.toParted (by dsimp only; omega)
    dsimp only at hrl hrc hrr hra
    refine ⟨r, hr, hrl.trans hql, hrc.trans hqc, by omega, fun k hk => ?_, ?_, hs⟩
    · rw [hra k hk, hqa k (by omega)]
    · exact ⟨hl'.toParted, hl.rearranged.trans hl'.rearranged⟩

/-! ### The loop -/

/-- The elements that stopped the searches are exchanged. -/
theorem Parted.exchange (h : Parted cmp v first last p) (hlt : p.left < p.right) :
    Parted cmp v first last { p with array := exchange p.array p.left p.right } := by
  have hf := h.first_lt
  have htop := p.right_le_top
  have hs {k : ℕ} (hk : k < p.left ∨ p.right < k) :
      Segments.exchange p.array p.left p.right k = p.array k :=
    exchange_of_ne (by omega) (by omega)
  refine { h with pivot := ?_, less := ?_, equal := ?_, greater := ?_ }
  · dsimp only
    rw [hs (.inl hf), h.pivot]
  · intro k hk hk'
    dsimp only
    rw [hs (.inl hk')]
    exact h.less k hk hk'
  · intro k hk hk'
    dsimp only
    rw [hs (.inr hk)]
    exact h.equal k hk hk'
  · intro k hk hk'
    dsimp only
    rw [hs (.inr (htop.trans_lt hk))]
    exact h.greater k hk hk'

/-- The loop leaves no element to be looked at. -/
theorem partLoop_parted (h : Parted cmp v first last p) (hN : last ≤ N)
    (hf : 1 ≤ first) (hfu : p.right + 1 - p.left < fuel) :
    ∃ q, partLoop N cmp first fuel p = .ok q ∧ q.left = q.right + 1 ∧
      Leads cmp v first last p q := by
  induction fuel generalizing p with
  | zero => omega
  | succ fuel ih =>
    rw [partLoop]
    have hle := h.left_le
    have hp := h.first_lt
    by_cases hm : p.left ≤ p.right
    · rw [if_pos hm]
      obtain ⟨q, hq, hqr, hql, hpq, hcl⟩ :=
        searchLeft_parted (p.right + 1 - p.left) h hN hf (by omega)
      have hqle := hpq.left_le
      obtain ⟨r, hr, hrl, hrc, hrr, hra, hqr', hles⟩ :=
        searchRight_parted (q.right + 1 - q.left) hpq.toParted hN hf (by omega)
      rw [hq]
      dsimp only [bind, Except.bind]
      rw [hr]
      dsimp only
      have hrt : r.right ≤ r.top := Nat.le_add_right ..
      have hrla := hqr'.top_le
      have hpr : Rearranged (first + 1) last p.array r.array := hpq.rearranged.trans hqr'.rearranged
      by_cases hlt : r.left < r.right
      · rw [if_pos hlt, swap_ok ⟨by omega, by omega⟩ ⟨by omega, by omega⟩]
        dsimp only
        have hcr : r.cmprLeft = cmp (exchange r.array r.left r.right r.right) v := by
          rw [exchange_right, hrc, (hcl (by omega)).1, hrl, hra q.left (by omega)]
        have hpos : 0 ≤ r.cmprLeft := by
          rw [hrc]
          exact (hcl (by omega)).2
        obtain ⟨t, ht, htl, htr, -, hta, hl⟩ :=
          place_parted (hqr'.toParted.exchange hlt) hN hlt.le (by rwa [← hcr])
        dsimp only at ht htl htr hta
        rw [← hcr] at ht
        rw [ht]
        have htle : cmp (t.array t.left) v < 0 := by
          rw [htl, hta r.left hlt, exchange_left]
          exact hles hlt.le
        have hnex := hl.toParted.less_next (by dsimp only; omega) htle
        obtain ⟨u, hu, hend, htu⟩ := ih hnex (by dsimp only; omega)
        refine ⟨u, hu, hend, htu.toParted, hpr.trans ?_⟩
        have he : Rearranged (first + 1) last r.array (exchange r.array r.left r.right) :=
          rearranged_exchange ⟨by omega, by omega⟩ ⟨by omega, by omega⟩ r.array
        exact he.trans (hl.rearranged.trans htu.rearranged)
      · rw [if_neg hlt]
        refine ⟨r, rfl, ?_, hqr'.toParted, hpr⟩
        -- the search from the right does not stop where the one from the left did
        by_contra hne
        have heq : r.left = r.right := by
          have := hqr'.left_le
          omega
        have hn := (hcl (by omega)).2
        rw [(hcl (by omega)).1, ← hrl, heq, ← hra r.right le_rfl] at hn
        omega
    · rw [if_neg hm]
      exact ⟨p, rfl, by omega, h, refl ..⟩

/-! ### The partition -/

/-- The segment is partitioned: from `leftPivot` to `rightPivot` are the elements equal to the
pivot. -/
structure Partitioned (cmp : α → α → ℤ) (v : α) (a : ℕ → α) (first last leftPivot rightPivot : ℕ) :
    Prop where
  first_le : first ≤ leftPivot
  left_le : leftPivot ≤ rightPivot
  right_le : rightPivot ≤ last
  less : ∀ k, first ≤ k → k < leftPivot → cmp (a k) v < 0
  equal : ∀ k, leftPivot ≤ k → k ≤ rightPivot → cmp (a k) v = 0
  greater : ∀ k, rightPivot < k → k ≤ last → 0 < cmp (a k) v

theorem swapDistinct_ok (hi : InArray N i) (hj : InArray N j) :
    swapDistinct N a i j = .ok (exchange a i j) := by
  unfold swapDistinct
  by_cases h : i = j
  · rw [if_neg (not_not_intro h), h, exchange_self]
  · rw [if_pos h, swap_ok hi hj]

theorem getPivotAddr_ok (cmp : α → α → ℤ) (a : ℕ → α) (hf : InArray N first)
    (hmid : InArray N mid) (hl : InArray N last) :
    ∃ k, getPivotAddr N cmp a first mid last = .ok k ∧ (k = first ∨ k = mid ∨ k = last) := by
  unfold getPivotAddr
  rw [cmpr_ok hmid hf, cmpr_ok hf hl, cmpr_ok hl hmid, cmpr_ok hl hf, cmpr_ok hmid hl]
  dsimp only [bind, Except.bind, pure]
  split_ifs
  · exact ⟨first, rfl, .inl rfl⟩
  · exact ⟨mid, rfl, .inr (.inl rfl)⟩
  · exact ⟨last, rfl, .inr (.inr rfl)⟩
  · exact ⟨first, rfl, .inl rfl⟩
  · exact ⟨mid, rfl, .inr (.inl rfl)⟩
  · exact ⟨last, rfl, .inr (.inr rfl)⟩

/-- At the end of the loop, the pivot goes between the elements that are less and those that are
not. -/
theorem Parted.partitioned (hcmp : TotalPreorder cmp) (h : Parted cmp v first last p)
    (hend : p.left = p.right + 1) :
    Partitioned cmp v (Segments.exchange p.array first p.right) first last p.right p.top := by
  have hf := h.first_lt
  have htop := p.right_le_top
  have hs {k : ℕ} (hk : first < k) (hk' : k ≠ p.right) :
      Segments.exchange p.array first p.right k = p.array k :=
    exchange_of_ne (by omega) hk'
  refine
    { first_le := by omega, left_le := htop, right_le := h.top_le, less := ?_, equal := ?_,
      greater := ?_ }
  · intro k hk hk'
    by_cases hkf : k = first
    · rw [hkf, exchange_left]
      exact h.less p.right (by omega) (by omega)
    · rw [hs (by omega) (by omega)]
      exact h.less k (by omega) (by omega)
  · intro k hk hk'
    by_cases hkr : k = p.right
    · rw [hkr, exchange_right, h.pivot, hcmp.refl]
    · rw [hs (by omega) hkr]
      exact h.equal k (by omega) hk'
  · intro k hk hk'
    rw [hs (by omega) (by omega)]
    exact h.greater k hk hk'

theorem parted_start (cmp : α → α → ℤ) (a : ℕ → α) (hlt : first < last) :
    Parted cmp (a first) first last ⟨a, first + 1, last, none, 1, 0⟩ where
  first_lt := Nat.lt_succ_self first
  left_le := by dsimp only; omega
  top_le := le_rfl
  ctr_pos := le_rfl
  pivot := rfl
  less k hk hk' := by dsimp only at hk'; omega
  equal k hk hk' := by dsimp only [Part.top] at hk hk'; omega
  greater k hk hk' := by dsimp only [Part.top] at hk; omega
  hiFatPvt := rfl

/-- **The segment is partitioned around a pivot.** -/
theorem partition3_partitions (hcmp : TotalPreorder cmp) (hN : last ≤ N) (hf : 1 ≤ first)
    (hlt : first < last) (a : ℕ → α) :
    ∃ b lp rp v, partition3 N cmp first last a = .ok (b, lp, rp) ∧ Rearranged first last a b ∧
      Partitioned cmp v b first last lp rp := by
  have hin {k : ℕ} (hk : first ≤ k) (hk' : k ≤ last) : InArray N k := ⟨by omega, by omega⟩
  obtain ⟨mid, hmid⟩ : ∃ mid, mid = (first + last + 1) / 2 := ⟨_, rfl⟩
  obtain ⟨m, hm, hc⟩ := getPivotAddr_ok cmp a (hin (k := (first + mid) / 2) (by omega) (by omega))
    (hin (k := mid) (by omega) (by omega)) (hin (k := (mid + last) / 2) (by omega) (by omega))
  have hmin : first ≤ m ∧ m ≤ last := by omega
  obtain ⟨p, hp, hend, hl⟩ := partLoop_parted (parted_start cmp (exchange a first m) hlt) hN hf
    (show last + 1 - (first + 1) < last - first + 1 by omega)
  have hpf := hl.first_lt
  have hpt : p.right ≤ p.top := Nat.le_add_right ..
  have hpl := hl.top_le
  have he : Rearranged first last a (exchange a first m) :=
    rearranged_exchange ⟨le_rfl, hlt.le⟩ hmin a
  have hlo : Rearranged first last (exchange a first m) p.array :=
    hl.rearranged.mono (by omega) le_rfl
  have hb : Rearranged first last p.array (exchange p.array first p.right) :=
    rearranged_exchange ⟨le_rfl, hlt.le⟩ ⟨by omega, by omega⟩ p.array
  refine ⟨_, p.right, p.top, exchange a first m first, ?_, (he.trans hlo).trans hb,
    hl.toParted.partitioned hcmp hend⟩
  unfold partition3
  dsimp only
  rw [← hmid, hm]
  dsimp only [bind, Except.bind]
  rw [swapDistinct_ok (hin le_rfl hlt.le) (hin hmin.1 hmin.2)]
  dsimp only
  rw [hp]
  dsimp only
  rw [swapDistinct_ok (hin le_rfl hlt.le) (hin (by omega) (by omega))]
  rfl

end Qsort
