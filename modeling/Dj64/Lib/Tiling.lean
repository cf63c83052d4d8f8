import Mathlib.Tactic

/-!
# Regions tiled by linked blocks

A block is known by its address `a` and covers `[a, a + size a)`.  The blocks of a region `(lo, hi)`
follow each other without gaps from `lo` to `hi`; `next` and `prev` lead from a block to its
neighbours in the region, and are 0 at its ends.

The edits are stated for any new fields that have the new values where the edit puts them and agree
with the old ones at the other blocks.
-/

namespace Tiling

/-- The blocks `S` tile the regions `R` and are linked inside each of them. -/
structure Tiled (k : ℕ) (prev next size : ℕ → ℕ) (R : Set (ℕ × ℕ)) (S : Set ℕ) : Prop where
  least_pos : 0 < k
  least : ∀ a ∈ S, k ≤ size a
  region : ∀ r ∈ R, 0 < r.1 ∧ r.1 < r.2
  covered : ∀ a ∈ S, ∃ r ∈ R, r.1 ≤ a ∧ a < r.2
  starts : ∀ r ∈ R, r.1 ∈ S
  apart : ∀ a ∈ S, ∀ b ∈ S, a ≠ b → a + size a ≤ b ∨ b + size b ≤ a
  up : ∀ r ∈ R, ∀ a ∈ S, r.1 ≤ a → a < r.2 →
    (a + size a = r.2 ∧ next a = 0) ∨
      (a + size a < r.2 ∧ next a = a + size a ∧ a + size a ∈ S ∧ prev (a + size a) = a)
  down : ∀ r ∈ R, ∀ a ∈ S, r.1 ≤ a → a < r.2 →
    (a = r.1 ∧ prev a = 0) ∨
      (r.1 < a ∧ prev a ∈ S ∧ r.1 ≤ prev a ∧ prev a + size (prev a) = a ∧ next (prev a) = a)

/-- A block ends its region, or is linked with the one above it. -/
def Up (prev next size : ℕ → ℕ) (S : Set ℕ) (hi a : ℕ) : Prop :=
  (a + size a = hi ∧ next a = 0) ∨
    (a + size a < hi ∧ next a = a + size a ∧ a + size a ∈ S ∧ prev (a + size a) = a)

/-- A block starts its region, or is linked with the one below it. -/
def Down (prev next size : ℕ → ℕ) (S : Set ℕ) (lo a : ℕ) : Prop :=
  (a = lo ∧ prev a = 0) ∨
    (lo < a ∧ prev a ∈ S ∧ lo ≤ prev a ∧ prev a + size (prev a) = a ∧ next (prev a) = a)

namespace Tiled

variable {k x lo hi : ℕ} {prev next size prev' next' size' : ℕ → ℕ} {R : Set (ℕ × ℕ)} {S S' : Set ℕ}
  {a b : ℕ}

theorem ne_zero (h : Tiled k prev next size R S) (ha : a ∈ S) : a ≠ 0 := by
  obtain ⟨r, hr, h1, -⟩ := h.covered a ha
  have := h.region r hr
  omega

variable {r : ℕ × ℕ}

section

variable (h : Tiled k prev next size R S)
include h

theorem end_le (hr : r ∈ R) (ha : a ∈ S) (h1 : r.1 ≤ a) (h2 : a < r.2) : a + size a ≤ r.2 := by
  rcases h.up r hr a ha h1 h2 with ⟨he, -⟩ | ⟨hlt, -⟩ <;> omega

theorem next_spec (ha : a ∈ S) (hn : next a ≠ 0) :
    next a = a + size a ∧ next a ∈ S ∧ prev (next a) = a := by
  obtain ⟨r, hr, h1, h2⟩ := h.covered a ha
  rcases h.up r hr a ha h1 h2 with ⟨-, h0⟩ | ⟨-, he, hm, hp⟩
  · exact absurd h0 hn
  · rw [he]; exact ⟨rfl, hm, hp⟩

theorem prev_spec (ha : a ∈ S) (hp : prev a ≠ 0) :
    prev a ∈ S ∧ prev a + size (prev a) = a ∧ next (prev a) = a := by
  obtain ⟨r, hr, h1, h2⟩ := h.covered a ha
  rcases h.down r hr a ha h1 h2 with ⟨-, h0⟩ | ⟨-, hm, -, hs, hn⟩
  · exact absurd h0 hp
  · exact ⟨hm, hs, hn⟩

theorem prev_start (hr : r ∈ R) : prev r.1 = 0 := by
  rcases h.down r hr r.1 (h.starts r hr) le_rfl (h.region r hr).2 with ⟨-, h0⟩ | ⟨hlt, -⟩
  · exact h0
  · exact absurd hlt (lt_irrefl _)

theorem eq_of_overlap (ha : a ∈ S) (hb : b ∈ S)
    (h1 : a ≤ x) (h2 : x < a + size a) (h3 : b ≤ x) (h4 : x < b + size b) : a = b := by
  by_contra hne
  rcases h.apart a ha b hb hne with h5 | h5 <;> omega

/-- The block above `a` stays as it is, seen from `a`. -/
theorem up_of (hr : r ∈ R) (ha : a ∈ S) (h1 : r.1 ≤ a) (h2 : a < r.2) (hs : size' a = size a)
    (hn : next' a = next a)
    (hab : next a ≠ 0 → next a ∈ S → next a ∈ S' ∧ prev' (next a) = prev (next a)) :
    Up prev' next' size' S' r.2 a := by
  rw [Up, hs, hn]
  rcases h.up r hr a ha h1 h2 with he | ⟨hlt, hnx, hm, hp⟩
  · exact .inl he
  rw [hnx] at hab
  obtain ⟨h3, h4⟩ := hab (h.ne_zero hm) hm
  exact .inr ⟨hlt, hnx, h3, h4.trans hp⟩

/-- The block below `a` stays as it is, seen from `a`. -/
theorem down_of (hr : r ∈ R) (ha : a ∈ S) (h1 : r.1 ≤ a) (h2 : a < r.2) (hp : prev' a = prev a)
    (hbe : ∀ b ∈ S, next b = a → b ∈ S' ∧ size' b = size b ∧ next' b = next b) :
    Down prev' next' size' S' r.1 a := by
  rw [Down, hp]
  rcases h.down r hr a ha h1 h2 with he | ⟨hlt, hm, hle, hs, hn⟩
  · exact .inl he
  obtain ⟨h3, h4, h5⟩ := hbe _ hm hn
  exact .inr ⟨hlt, h3, hle, by rw [h4]; exact hs, h5.trans hn⟩

theorem congr (hS : ∀ a ∈ S, prev' a = prev a ∧ next' a = next a ∧ size' a = size a) :
    Tiled k prev' next' size' R S where
  least_pos := h.least_pos
  least a ha := by rw [(hS a ha).2.2]; exact h.least a ha
  region := h.region
  covered := h.covered
  starts := h.starts
  apart a ha b hb hne := by rw [(hS a ha).2.2, (hS b hb).2.2]; exact h.apart a ha b hb hne
  up r hr a ha h1 h2 :=
    h.up_of hr ha h1 h2 (hS a ha).2.2 (hS a ha).2.1 fun _ hm => ⟨hm, (hS _ hm).1⟩
  down r hr a ha h1 h2 :=
    h.down_of hr ha h1 h2 (hS a ha).1 fun b hb _ => ⟨hb, (hS b hb).2.2, (hS b hb).2.1⟩

theorem eq_of_next (ha : a ∈ S) (hb : b ∈ S) (hn : next a ≠ 0) (heq : next a = next b) : a = b := by
  have hpa := (h.next_spec ha hn).2.2
  have hpb := (h.next_spec hb (heq ▸ hn)).2.2
  rw [heq, hpb] at hpa
  exact hpa.symm

theorem region_of_next (ha : a ∈ S) (hn : next a ≠ 0)
    (hr : r ∈ R) (h1 : r.1 ≤ next a) (h2 : next a < r.2) : r.1 < next a ∧ r.1 ≤ a := by
  obtain ⟨-, hnS, hpa⟩ := h.next_spec ha hn
  rcases h.down r hr _ hnS h1 h2 with ⟨-, h0⟩ | ⟨hlt, -, hle, -⟩
  · rw [hpa] at h0
    exact absurd h0 (h.ne_zero ha)
  · rw [hpa] at hle
    exact ⟨hlt, hle⟩

end

section Join

variable {m : ℕ} (h : Tiled k prev next size R S) (hm : m ∈ S) (hn : next m ≠ 0)
  (hsm : size' m = size m + size (next m)) (hnm : next' m = next (next m))
  (hpn : next (next m) ≠ 0 → prev' (next (next m)) = m)
  (hs : ∀ a ∈ S, a ≠ m → a ≠ next m → size' a = size a ∧ next' a = next a)
  (hp : ∀ a ∈ S, a ≠ next m → a ≠ next (next m) → prev' a = prev a)

include h hm hn

theorem apart_next (hb : b ∈ S) (hbm : b ≠ m) (hbn : b ≠ next m) :
    m + (size m + size (next m)) ≤ b ∨ b + size b ≤ m := by
  obtain ⟨hne, hnS, -⟩ := h.next_spec hm hn
  rcases h.apart m hm b hb (Ne.symm hbm) with h1 | h1
  · rcases h.apart _ hnS b hb (Ne.symm hbn) with h2 | h2 <;> omega
  · omega

include hsm hs in
theorem join_apart : ∀ a ∈ S \ {next m}, ∀ b ∈ S \ {next m}, a ≠ b →
    a + size' a ≤ b ∨ b + size' b ≤ a := by
  rintro a ⟨ha, han⟩ b ⟨hb, hbn⟩ hab
  by_cases ham : a = m
  · subst ham
    rw [hsm, (hs b hb hab.symm hbn).1]
    exact h.apart_next ha hn hb hab.symm hbn
  by_cases hbm : b = m
  · subst hbm
    rw [hsm, (hs a ha ham han).1]
    exact (h.apart_next hb hn ha ham han).symm
  · rw [(hs a ha ham han).1, (hs b hb hbm hbn).1]
    exact h.apart a ha b hb hab

include hsm hnm hpn hs hp in
theorem join_up : ∀ r ∈ R, ∀ a ∈ S \ {next m}, r.1 ≤ a → a < r.2 →
    Up prev' next' size' (S \ {next m}) r.2 a := by
  obtain ⟨hne, hnS, hpm⟩ := h.next_spec hm hn
  have hk1 := h.least _ hnS
  have hk := h.least_pos
  rintro r hr a ⟨ha, han⟩ h1 h2
  by_cases ham : a = m
  · -- above the joined block is what was above its upper part
    subst ham
    rcases h.up r hr a ha h1 h2 with ⟨-, h0⟩ | ⟨hlt, hnx, -, -⟩
    · exact absurd h0 hn
    rw [Up, hsm, hnm]
    rcases h.up r hr _ hnS (by omega) (by omega) with ⟨he, h0⟩ | ⟨hlt', hnx', hm2, -⟩
    · exact .inl ⟨by omega, h0⟩
    have hadd : a + (size a + size (next a)) = next a + size (next a) := by omega
    refine .inr ⟨by omega, by omega, ?_, ?_⟩
    · rw [hadd]
      exact ⟨hm2, by simp only [Set.mem_singleton_iff]; omega⟩
    · rw [hadd, ← hnx']
      exact hpn (by omega)
  · refine h.up_of hr ha h1 h2 (hs a ha ham han).1 (hs a ha ham han).2 fun hna hnaS => ?_
    have hne2 : next a ≠ next m := fun heq => ham (h.eq_of_next ha hm hna heq)
    have hnn : next a ≠ next (next m) := fun heq => han (h.eq_of_next ha hnS hna heq)
    exact ⟨⟨hnaS, hne2⟩, hp _ hnaS hne2 hnn⟩

include hsm hnm hpn hs hp in
theorem join_down : ∀ r ∈ R, ∀ a ∈ S \ {next m}, r.1 ≤ a → a < r.2 →
    Down prev' next' size' (S \ {next m}) r.1 a := by
  obtain ⟨hne, hnS, hpm⟩ := h.next_spec hm hn
  have hmn : m ≠ next m := by
    have hkm := h.least m hm
    have hk := h.least_pos
    omega
  rintro r hr a ⟨ha, han⟩ h1 h2
  by_cases hnn : a = next (next m)
  · -- the block above the joined one
    have hn2 : next (next m) ≠ 0 := by
      rw [← hnn]
      exact h.ne_zero ha
    obtain ⟨h3, -, -⟩ := h.next_spec hnS hn2
    obtain ⟨hlt, hle⟩ := h.region_of_next hnS hn2 hr (hnn ▸ h1) (hnn ▸ h2)
    have hk := h.least_pos
    obtain ⟨-, hle'⟩ := h.region_of_next hm hn hr hle (by omega)
    rw [Down, hnn, hpn hn2]
    exact .inr ⟨hlt, ⟨hm, hmn⟩, hle', by rw [hsm]; omega, hnm⟩
  refine h.down_of hr ha h1 h2 (hp a ha han hnn) fun b hb hba => ?_
  have hbn : b ≠ next m := by
    rintro rfl
    exact hnn hba.symm
  have hbm : b ≠ m := by
    rintro rfl
    exact han hba.symm
  exact ⟨⟨hb, hbn⟩, hs b hb hbm hbn⟩

include hsm hnm hpn hs hp in
/-- Two neighbours `m` and `next m` become one block. -/
theorem join : Tiled k prev' next' size' R (S \ {next m}) where
  least_pos := h.least_pos
  least := by
    rintro a ⟨ha, han⟩
    by_cases ham : a = m
    · subst ham
      have hka := h.least a ha
      rw [hsm]
      omega
    · rw [(hs a ha ham han).1]
      exact h.least a ha
  region := h.region
  covered := fun a ha => h.covered a ha.1
  starts := by
    -- the upper block has one below it, so it starts no region
    intro r hr
    refine ⟨h.starts r hr, fun heq => ?_⟩
    have hr1 : r.1 = next m := heq
    have hlt := (h.region_of_next hm hn hr hr1.le (hr1 ▸ (h.region r hr).2)).1
    omega
  apart := join_apart h hm hn hsm hs
  up := join_up h hm hn hsm hnm hpn hs hp
  down := join_down h hm hn hsm hnm hpn hs hp

end Join

section Cut

variable {m s : ℕ} (h : Tiled k prev next size R S) (hm : m ∈ S) (hks : k ≤ s)
  (hsize : s + k ≤ size m) (hsm : size' m = s) (hnm : next' m = m + s)
  (hs1 : size' (m + s) = size m - s) (hn1 : next' (m + s) = next m) (hp1 : prev' (m + s) = m)
  (hpn : next m ≠ 0 → prev' (next m) = m + s)
  (hs : ∀ a ∈ S, a ≠ m → size' a = size a ∧ next' a = next a)
  (hp : ∀ a ∈ S, a ≠ next m → prev' a = prev a)

include h hm hsize

theorem region_of_inside (hr : r ∈ R) (h1 : r.1 ≤ m + s) : r.1 ≤ m := by
  by_contra hlt
  have hk := h.least_pos
  rcases h.apart m hm _ (h.starts r hr) (by omega) with h3 | h3 <;> omega

include hks

include hsm hs1 hs in
theorem cut_apart : ∀ a ∈ insert (m + s) S, ∀ b ∈ insert (m + s) S, a ≠ b →
    a + size' a ≤ b ∨ b + size' b ≤ a := by
  have hk := h.least_pos
  -- the upper part is inside of the old block
  have hu : ∀ b ∈ S, m + s + size' (m + s) ≤ b ∨ b + size' b ≤ m + s := by
    intro b hb
    rw [hs1]
    by_cases hbm : b = m
    · subst hbm
      omega
    · have hkb := h.least b hb
      rw [(hs b hb hbm).1]
      rcases h.apart m hm b hb (Ne.symm hbm) with h1 | h1 <;> omega
  have hsz : ∀ a ∈ S, size' a ≤ size a := by
    intro a ha
    by_cases ham : a = m
    · subst ham
      omega
    · rw [(hs a ha ham).1]
  rintro a (rfl | ha) b (rfl | hb) hab
  · exact absurd rfl hab
  · exact hu b hb
  · exact (hu a ha).symm
  · have h1 := hsz a ha
    have h2 := hsz b hb
    rcases h.apart a ha b hb hab with h3 | h3 <;> omega

include hsm hnm hs1 hn1 hp1 hpn hs hp in
theorem cut_up : ∀ r ∈ R, ∀ a ∈ insert (m + s) S, r.1 ≤ a → a < r.2 →
    Up prev' next' size' (insert (m + s) S) r.2 a := by
  have hk := h.least_pos
  rintro r hr a (rfl | ha) h1 h2
  · have h3 := h.region_of_inside hm hsize hr h1
    have hadd : m + s + (size m - s) = m + size m := by omega
    rw [Up, hs1, hn1, hadd]
    rcases h.up r hr m hm h3 (by omega) with he | ⟨hlt, hnx, hmS, -⟩
    · exact .inl he
    · exact .inr ⟨hlt, hnx, .inr hmS, by rw [← hnx]; exact hpn (by omega)⟩
  by_cases ham : a = m
  · subst ham
    have hend := h.end_le hr ha h1 h2
    rw [Up, hsm, hnm]
    exact .inr ⟨by omega, rfl, .inl rfl, hp1⟩
  refine h.up_of hr ha h1 h2 (hs a ha ham).1 (hs a ha ham).2 fun hna hnaS => ⟨.inr hnaS, ?_⟩
  exact hp _ hnaS fun heq => ham (h.eq_of_next ha hm hna heq)

include hsm hnm hs1 hn1 hp1 hpn hs hp in
theorem cut_down : ∀ r ∈ R, ∀ a ∈ insert (m + s) S, r.1 ≤ a → a < r.2 →
    Down prev' next' size' (insert (m + s) S) r.1 a := by
  have hk := h.least_pos
  rintro r hr a (rfl | ha) h1 h2
  · have h3 := h.region_of_inside hm hsize hr h1
    rw [Down, hp1]
    exact .inr ⟨by omega, .inr hm, h3, by rw [hsm], by rw [hnm]⟩
  by_cases han : a = next m
  · have hn0 : next m ≠ 0 := by
      rw [← han]
      exact h.ne_zero ha
    obtain ⟨h3, -, -⟩ := h.next_spec hm hn0
    obtain ⟨hlt, hle⟩ := h.region_of_next hm hn0 hr (han ▸ h1) (han ▸ h2)
    rw [Down, han, hpn hn0]
    exact .inr ⟨hlt, .inl rfl, by omega, by rw [hs1]; omega, hn1⟩
  refine h.down_of hr ha h1 h2 (hp a ha han) fun b hb hba => ⟨.inr hb, hs b hb ?_⟩
  rintro rfl
  exact han hba.symm

include hsm hnm hs1 hn1 hp1 hpn hs hp in
/-- A block `m` is cut after `s` bytes; the upper part `m + s` takes over what was above `m`. -/
theorem cut : Tiled k prev' next' size' R (insert (m + s) S) where
  least_pos := h.least_pos
  least := by
    rintro a (rfl | ha)
    · rw [hs1]
      omega
    · by_cases ham : a = m
      · subst ham
        omega
      · rw [(hs a ha ham).1]
        exact h.least a ha
  region := h.region
  covered := by
    rintro a (rfl | ha)
    · obtain ⟨r, hr, h1, h2⟩ := h.covered m hm
      have hend := h.end_le hr hm h1 h2
      have hk := h.least_pos
      exact ⟨r, hr, by omega, by omega⟩
    · exact h.covered a ha
  starts := fun r hr => .inr (h.starts r hr)
  apart := cut_apart h hm hks hsize hsm hs1 hs
  up := cut_up h hm hks hsize hsm hnm hs1 hn1 hp1 hpn hs hp
  down := cut_down h hm hks hsize hsm hnm hs1 hn1 hp1 hpn hs hp

end Cut

/-- A new region, apart from all the old ones, tiled by a single block. -/
theorem addRegion (h : Tiled k prev next size R S) (hlo : 0 < lo)
    (hk : lo + k ≤ hi) (hR : ∀ r ∈ R, hi ≤ r.1 ∨ r.2 ≤ lo) (hs : size' lo = hi - lo)
    (hn : next' lo = 0) (hp : prev' lo = 0)
    (hS : ∀ a ∈ S, prev' a = prev a ∧ next' a = next a ∧ size' a = size a) :
    Tiled k prev' next' size' (insert (lo, hi) R) (insert lo S) := by
  have h' := h.congr hS
  have hk0 := h.least_pos
  have hout : ∀ a ∈ S, hi ≤ a ∨ a + size' a ≤ lo := by
    intro a ha
    obtain ⟨r, hr, h1, h2⟩ := h.covered a ha
    have hend := h'.end_le hr ha h1 h2
    rcases hR r hr with h3 | h3 <;> omega
  refine ⟨hk0, ?_, ?_, ?_, ?_, ?_, ?_, ?_⟩
  · rintro a (rfl | ha)
    · omega
    · exact h'.least a ha
  · rintro r (rfl | hr)
    · exact ⟨hlo, by dsimp only; omega⟩
    · exact h.region r hr
  · rintro a (rfl | ha)
    · exact ⟨(a, hi), .inl rfl, le_rfl, by dsimp only; omega⟩
    · obtain ⟨r, hr, h1⟩ := h.covered a ha
      exact ⟨r, .inr hr, h1⟩
  · rintro r (rfl | hr)
    · exact .inl rfl
    · exact .inr (h.starts r hr)
  · rintro a (rfl | ha) b (rfl | hb) hab
    · exact absurd rfl hab
    · have := hout b hb; omega
    · have := hout a ha; omega
    · exact h'.apart a ha b hb hab
  · rintro r (rfl | hr) a (rfl | ha) h1 h2
    · exact .inl ⟨by dsimp only; omega, hn⟩
    · have := hout a ha; have := h'.least a ha; dsimp only at h1 h2; omega
    · have := hR r hr; omega
    · exact h'.up_of hr ha h1 h2 rfl rfl fun _ hm => ⟨.inr hm, rfl⟩
  · rintro r (rfl | hr) a (rfl | ha) h1 h2
    · exact .inl ⟨rfl, hp⟩
    · have := hout a ha; have := h'.least a ha; dsimp only at h1 h2; omega
    · have := hR r hr; omega
    · exact h'.down_of hr ha h1 h2 rfl fun b hb _ => ⟨.inr hb, rfl, rfl⟩

section Extend

variable {m x : ℕ} {r0 : ℕ × ℕ} (h : Tiled k prev next size R S) (hr0 : r0 ∈ R) (hm : m ∈ S)
  (h1 : r0.1 ≤ m) (h2 : m < r0.2) (hn : next m = 0)
  (hR : ∀ r ∈ R, r ≠ r0 → r0.2 + x ≤ r.1 ∨ r.2 ≤ r0.1) (hsm : size' m = size m + x)
  (hS : ∀ a ∈ S, a ≠ m → size' a = size a) (hnp : ∀ a ∈ S, next' a = next a ∧ prev' a = prev a)

include h hr0 hm h1 h2 hn

theorem end_eq : m + size m = r0.2 := by
  rcases h.up r0 hr0 m hm h1 h2 with ⟨he, -⟩ | ⟨-, hnx, hS', -⟩
  · exact he
  · rw [← hnx, hn] at hS'
    exact absurd rfl (h.ne_zero hS')

theorem end_lt (ha : a ∈ S) (ham : a ≠ m) (h4 : a < r0.2) : a + size a < r0.2 := by
  have hend := h.end_eq hr0 hm h1 h2 hn
  rcases h.apart a ha m hm ham with h5 | h5 <;> omega

omit hr0 hm h1 h2 hn in
theorem covered_or (r0 : ℕ × ℕ) (ha : a ∈ S) :
    (r0.1 ≤ a ∧ a < r0.2) ∨ ∃ r ∈ R, r ≠ r0 ∧ r.1 ≤ a ∧ a < r.2 := by
  obtain ⟨r, hr, h3, h4⟩ := h.covered a ha
  by_cases hrr : r = r0
  · subst hrr
    exact .inl ⟨h3, h4⟩
  · exact .inr ⟨r, hr, hrr, h3, h4⟩

omit hr0 hm h1 h2 hn in
include hR in
theorem lt_of_grown (ha : a ∈ S) (h3 : r0.1 ≤ a) (h4 : a < r0.2 + x) : a < r0.2 := by
  rcases h.covered_or r0 ha with h5 | ⟨r, hr, hrr, h5, h6⟩
  · exact h5.2
  · rcases hR r hr hrr with h7 | h7 <;> omega

include hR hsm hS in
theorem extend_apart : ∀ a ∈ S, ∀ b ∈ S, a ≠ b → a + size' a ≤ b ∨ b + size' b ≤ a := by
  have hend := h.end_eq hr0 hm h1 h2 hn
  -- only `m` grew, and nothing lies above it below the new end
  have hmo : ∀ b ∈ S, b ≠ m → m + size' m ≤ b ∨ b + size b ≤ m := by
    intro b hb hbm
    rcases h.apart m hm b hb (Ne.symm hbm) with h3 | h3
    · rcases h.covered_or r0 hb with h4 | ⟨r, hr, hrr, h4, h5⟩
      · omega
      · rcases hR r hr hrr with h6 | h6 <;> omega
    · exact .inr h3
  intro a ha b hb hab
  by_cases ham : a = m
  · subst ham
    rw [hS b hb (Ne.symm hab)]
    exact hmo b hb (Ne.symm hab)
  by_cases hbm : b = m
  · subst hbm
    rw [hS a ha ham]
    exact (hmo a ha ham).symm
  · rw [hS a ha ham, hS b hb hbm]
    exact h.apart a ha b hb hab

include hR hsm hS hnp in
theorem extend_up : ∀ r ∈ insert (r0.1, r0.2 + x) (R \ {r0}), ∀ a ∈ S, r.1 ≤ a → a < r.2 →
    Up prev' next' size' S r.2 a := by
  have hend := h.end_eq hr0 hm h1 h2 hn
  rintro r (rfl | ⟨hr, hrr⟩) a ha h3 h4
  · rw [Up, (hnp a ha).1]
    by_cases ham : a = m
    · subst ham
      exact .inl ⟨by dsimp only; omega, hn⟩
    have h5 := h.lt_of_grown hR ha h3 h4
    have hlt := h.end_lt hr0 hm h1 h2 hn ha ham h5
    rw [hS a ha ham]
    rcases h.up r0 hr0 a ha h3 h5 with ⟨he, -⟩ | ⟨-, hnx, hm2, hpa⟩
    · omega
    · exact .inr ⟨by dsimp only; omega, hnx, hm2, (hnp _ hm2).2.trans hpa⟩
  · have ham : a ≠ m := by
      rintro rfl
      rcases hR r hr hrr with h5 | h5 <;> omega
    exact h.up_of hr ha h3 h4 (hS a ha ham) (hnp a ha).1 fun _ hm2 => ⟨hm2, (hnp _ hm2).2⟩

omit hm h1 h2 in
include hR hS hnp in
theorem extend_down : ∀ r ∈ insert (r0.1, r0.2 + x) (R \ {r0}), ∀ a ∈ S, r.1 ≤ a → a < r.2 →
    Down prev' next' size' S r.1 a := by
  -- below a block stands one with a successor, so it is not `m`
  have hk : ∀ a ∈ S, ∀ b ∈ S, next b = a → b ∈ S ∧ size' b = size b ∧ next' b = next b := by
    rintro a ha b hb rfl
    refine ⟨hb, hS b hb ?_, (hnp b hb).1⟩
    rintro rfl
    exact h.ne_zero ha hn
  rintro r (rfl | ⟨hr, -⟩) a ha h3 h4
  · exact h.down_of (r := r0) hr0 ha h3 (h.lt_of_grown hR ha h3 h4) (hnp a ha).2 (hk a ha)
  · exact h.down_of hr ha h3 h4 (hnp a ha).2 (hk a ha)

include hR hsm hS hnp in
/-- A region grows at its end: its last block `m` gets `x` more bytes, which no other region
uses. -/
theorem extend : Tiled k prev' next' size' (insert (r0.1, r0.2 + x) (R \ {r0})) S where
  least_pos := h.least_pos
  least := by
    intro a ha
    have hka := h.least a ha
    by_cases ham : a = m
    · subst ham
      omega
    · rw [hS a ha ham]
      exact hka
  region := by
    rintro r (rfl | ⟨hr, -⟩)
    · obtain ⟨hpos, hlt⟩ := h.region r0 hr0
      exact ⟨hpos, by dsimp only; omega⟩
    · exact h.region r hr
  covered := by
    intro a ha
    rcases h.covered_or r0 ha with ⟨h3, h4⟩ | ⟨r, hr, hrr, h3, h4⟩
    · exact ⟨_, .inl rfl, h3, by dsimp only; omega⟩
    · exact ⟨r, .inr ⟨hr, hrr⟩, h3, h4⟩
  starts := by
    rintro r (rfl | ⟨hr, -⟩)
    · exact h.starts r0 hr0
    · exact h.starts r hr
  apart := extend_apart h hr0 hm h1 h2 hn hR hsm hS
  up := extend_up h hr0 hm h1 h2 hn hR hsm hS hnp
  down := extend_down h hr0 hn hR hS hnp

end Extend

end Tiled

end Tiling
