import Dj64.Malloc.Extending

/-!
# `nmalloc` and `ncalloc` on a well-formed heap

* `WF.overwrite`: the client may write its own data;
* `padded`, `Fits`: what `roundup` computes as long as its arithmetic does not wrap;
* `WF.nmalloc`, `WF.ncalloc`: the calls return, and a block they return is new and large enough.
-/

namespace Nmalloc

open Nat ByteMemory

variable {T : Target} {h h' g g' : Heap} {R R' R1 : Set (ℕ × ℕ)} {L : Set ℕ}
  {fl fl' : ℕ → List ℕ} {a m n q s x p size c : ℕ} {f : Field} {sbrk : ℕ → ℕ}

namespace Target

def Ledger (R R' : Set (ℕ × ℕ)) (q x : ℕ) (h h₁ : Heap) (R₁ : Set (ℕ × ℕ)) : Prop :=
  (h₁ = h ∧ R₁ = R) ∨ (h₁ = asked h q x ∧ R₁ = R')

/-- Writing the data of a block of the client keeps the heap well-formed. -/
theorem WF.overwrite (hw : T.WF R L fl h) (hm : m ∈ L) (mem : ByteMemory.Mem)
    (hmem : ∀ x, x < m + T.dataOffset ∨ m + T.get h m .sz ≤ x → mem x = h.mem x) :
    T.WF R L fl { h with mem := mem } ∧ T.Keeps (L \ {m}) h { h with mem := mem } ∧
      ∀ f, f ≠ .prevfree → T.get { h with mem := mem } m f = T.get h m f := by
  have hmb : m ∈ blocks (inUse L h.lastsbrk) fl := .inl (.inl hm)
  have r : ∀ a ∈ blocks (inUse L h.lastsbrk) fl, ∀ f, (f = .prevfree → Free fl a) →
      T.get { h with mem := mem } a f = T.get h a f := by
    intro a ha f hf
    refine load_congr fun x h1 h2 => hmem x ?_
    by_cases ham : a = m
    · subst ham
      have := T.offset_width_le fun h => hw.inv.inUse a (.inl hm) (hf h)
      omega
    have hc : T.Cell (blocks (inUse L h.lastsbrk) fl) (fun a => T.get h a .sz) a f :=
      ⟨ha, fun h => hw.inv.large a (hf h)⟩
    have h3 := hc.end_le hw.inv.apart
    have h4 := hw.inv.tiled.apart a ha m hmb ham
    omega
  have rL : ∀ a ∈ inUse L h.lastsbrk, ∀ f, f ≠ .prevfree → T.get { h with mem := mem } a f =
    T.get h a f :=
    fun a ha f hf => r a (.inl ha) f fun h => absurd h hf
  refine ⟨⟨?_, fun a ha => ?_, fun h0 => ?_, hw.anchored⟩, ⟨fun a ha f _ hf =>
    rL a (.inl ha.1) f hf, ?_, rfl, id⟩, rL m (.inl hm)⟩
  · refine hw.inv.congr (fun _ _ => rfl) (fun a ha => ?_) fun a ha => ?_
    · exact ⟨r a ha _ nofun, r a ha _ nofun, r a ha _ nofun⟩
    · exact ⟨r a (.inr ha) _ nofun, r a (.inr ha) _ fun _ => ha⟩
  · rw [rL a (.inl ha) _ (by simp), rL a (.inl ha) _ (by simp)]
    exact hw.live a ha
  · have hlB : h.lastsbrk ∈ inUse L h.lastsbrk := .inr ⟨rfl, h0⟩
    obtain ⟨h1, h2, h3⟩ := hw.last h0
    exact ⟨h1, (rL _ hlB _ (by simp)).trans h2, (rL _ hlB _ (by simp)).trans h3⟩
  · intro a ha x h1 h2
    have := hw.inv.tiled.apart a (.inl (.inl ha.1)) m hmb ha.2
    exact hmem x (by omega)

/-- **`allocblock`** returns a new block of the client, or `NULL` after a refusal. -/
theorem WF.allocblock (hw : T.WF R L fl h) (hs : T.Rounded s) (hlt : s < oversize)
    (hx : x = T.sbrkRequest h s) (ha : Answer T R h (sbrk x) x R') :
    ∃ m h' g R1 fl', T.allocblock h sbrk s = .ok (m, h') ∧ Ledger R R' (sbrk x) x h g R1 ∧
      T.Keeps L g h' ∧ ((m = 0 ∧ T.WF R1 L fl' h') ∨
        (m ≠ 0 ∧ m ∉ L ∧ T.WF R1 (insert m L) fl' h' ∧ s ≤ T.get h' m .sz)) := by
  have hmin := hs.least
  have hdo := T.dataOffset_pos
  have hle := T.dataOffset_le_minsave
  have hs31 : s < 2 ^ 31 := by unfold oversize at hlt; omega
  unfold Target.allocblock
  by_cases hb : T.searchfree h s = 0
  · rw [if_neg (by simpa using hb)]
    by_cases hl : h.lastsbrk ≠ 0 ∧ s + T.dataOffset ≤ T.get h h.lastsbrk .sz
    · obtain ⟨h', hrun, hw', hk, hL, hsz⟩ := hw.splitLast hl.1 hs hl.2
      exact ⟨_, h', h, R, fl, by rw [if_pos hl, hrun], .inl ⟨rfl, rfl⟩, hk,
        .inr ⟨hl.1, hL, hw', hsz.ge⟩⟩
    rw [if_neg hl]
    rcases hw.extendsbrk hlt.le hx ha with ⟨hR, hrun⟩ | ⟨h', fl', hrun, hw', hk, h0, hsz⟩
    · refine ⟨0, _, _, R', fl, ?_, .inr ⟨rfl, rfl⟩, Keeps.refl .., .inl ⟨rfl, hR ▸ hw.log _ _⟩⟩
      rw [hrun]
      rfl
    · obtain ⟨g', hrun2, hw2, hk2, hL, hsz2⟩ := hw'.splitLast h0 hs (by omega)
      refine ⟨_, g', _, R', fl', ?_, .inr ⟨rfl, rfl⟩, hk.trans hk2, .inr ⟨h0, hL, hw2, hsz2.ge⟩⟩
      rw [hrun, ok_bind]
      simp only [if_pos h0, if_neg (show ¬ T.get h' h'.lastsbrk .sz < s + T.minsave by omega),
        hrun2]
  · rw [if_pos hb]
    obtain ⟨h1, h2, h3⟩ := hw.searchfree hs31 (by omega) hb
    obtain ⟨h', fl', hrun, hw', hk, hL, hsz⟩ := hw.takefree hb h1 h2 hs h3
    exact ⟨_, h', h, R, fl', hrun, .inl ⟨rfl, rfl⟩, hk, .inr ⟨h2, hL, hw', hsz⟩⟩

/-! ### Rounding a request -/

/-- The size `roundup` would return if its arithmetic did not wrap. -/
def padded (T : Target) (sz : ℕ) : ℕ := (sz + (align - 1)) / align * align + T.dataOffset

def szneed (T : Target) (size : ℕ) : ℕ := T.roundup (if size = 0 then size + 1 else size)

theorem roundup_eq (h : T.padded s < 2 ^ 32) : T.roundup s = T.padded s := by
  have hp := T.ptr_cases
  have hpow : (2 : ℕ) ^ 32 ≤ T.sizeMod := by
    unfold sizeMod
    rcases hp with hp | hp <;> rw [hp] <;> norm_num
  unfold roundup u32
  unfold padded at *
  have h1 : s + (align - 1) < T.sizeMod := by
    unfold align dataOffset at *
    omega
  rw [mod_eq_of_lt h1, mod_eq_of_lt (h.trans_le hpow), mod_eq_of_lt h]

theorem rounded_padded (h : 0 < s) : T.Rounded (T.padded s) := by
  have hp := T.ptr_cases
  unfold padded
  constructor
  · unfold minsave align
    omega
  · unfold align dataOffset
    omega

theorem le_padded (T : Target) (s : ℕ) : s + T.dataOffset ≤ T.padded s := by
  unfold padded align
  omega

def Fits (T : Target) (size : ℕ) : Prop := T.padded (max size 1) < 2 ^ 32

theorem Fits.szneed (hf : T.Fits size) :
    T.Rounded (T.szneed size) ∧ size + T.dataOffset ≤ T.szneed size := by
  have hmax : (if size = 0 then size + 1 else size) = max size 1 := by split_ifs <;> omega
  unfold Target.szneed
  rw [hmax, roundup_eq hf]
  refine ⟨rounded_padded (by omega), ?_⟩
  have := T.le_padded (max size 1)
  omega

/-! ### `nmalloc` -/

/-- The outcome of a call that allocates: `NULL`, or a new block of at least `size` bytes. -/
inductive Allocated (T : Target) (R₁ : Set (ℕ × ℕ)) (L : Set ℕ) (size : ℕ) (h' : Heap) : ℕ → Prop
  | null (fl' : ℕ → List ℕ) (wf : T.WF R₁ L fl' h') : Allocated T R₁ L size h' 0
  | block (m : ℕ) (fl' : ℕ → List ℕ) (wf : T.WF R₁ (insert m L) fl' h') (fresh : m ∉ L)
      (room : size + T.dataOffset ≤ T.get h' m .sz) : Allocated T R₁ L size h' (m + T.dataOffset)

/-- **`nmalloc`** on a well-formed heap. -/
theorem WF.nmalloc (hw : T.WF R L fl h) (hf : T.Fits size)
    (hx : x = T.sbrkRequest h (T.szneed size)) (ha : Answer T R h (sbrk x) x R') :
    ∃ p h' g R1, T.nmalloc h sbrk size = .ok (p, h') ∧ Ledger R R' (sbrk x) x h g R1 ∧
      T.Keeps L g h' ∧ Allocated T R1 L size h' p := by
  obtain ⟨hr, hro⟩ := hf.szneed
  unfold Target.nmalloc
  dsimp only
  rw [← Target.szneed]
  by_cases hlt : T.szneed size < oversize
  · obtain ⟨m, h', g, R1, fl', hrun, hled, hk, hres⟩ := hw.allocblock hr hlt hx ha
    rw [if_pos hlt, hrun]
    rcases hres with ⟨rfl, hw'⟩ | ⟨hm0, hmL, hw', hsz⟩
    · exact ⟨0, h', g, R1, rfl, hled, hk, .null fl' hw'⟩
    · exact ⟨_, h', g, R1, if_pos hm0, hled, hk, .block m fl' hw' hmL (hro.trans hsz)⟩
  · rw [if_neg hlt]
    exact ⟨0, h, h, R, rfl, .inl ⟨rfl, rfl⟩, Keeps.refl .., .null fl hw⟩

/-- **`ncalloc`** on a well-formed heap; the new block is zeroed. -/
theorem WF.ncalloc (hw : T.WF R L fl h) (hf : T.Fits (n * c))
    (hx : x = T.sbrkRequest h (T.szneed (n * c))) (ha : Answer T R h (sbrk x) x R') :
    ∃ p h' g R1, T.ncalloc h sbrk n c = .ok (p, h') ∧ Ledger R R' (sbrk x) x h g R1 ∧
      T.Keeps L g h' ∧ Allocated T R1 L (n * c) h' p ∧
      (p ≠ 0 → ∀ i < n * c, h'.mem (p + i) = 0) := by
  have hmod : n * c < T.sizeMod := by
    have h1 := T.le_padded (max (n * c) 1)
    have h2 : T.padded (max (n * c) 1) < 2 ^ 32 := hf
    unfold sizeMod
    rcases T.ptr_cases with hp | hp <;> rw [hp] <;> omega
  unfold Target.ncalloc
  by_cases hc : n = 0 ∨ c < (T.sizeMod - 1) / n
  · rw [if_pos hc]
    dsimp only
    rw [mod_eq_of_lt hmod]
    obtain ⟨p, h', g, R1, hrun, hled, hk, hres⟩ := hw.nmalloc hf hx ha
    rw [hrun]
    cases hres with
    | null fl' hw' => exact ⟨0, h', g, R1, rfl, hled, hk, .null fl' hw', fun h => absurd rfl h⟩
    | block m fl' hw' hmL hr =>
      have hm0 : m + T.dataOffset ≠ 0 := by have := T.dataOffset_pos; omega
      obtain ⟨hw'', hk'', hh⟩ := hw'.overwrite (.inl rfl)
        (fill h'.mem (m + T.dataOffset) (n * c) 0)
        fun x hx => fill_outside (by omega)
      refine ⟨_, _, g, R1, if_pos hm0, hled, hk.trans (hk''.mono ?_), .block m fl' hw'' hmL ?_, ?_⟩
      · exact fun a ha => ⟨.inr ha, fun heq => hmL (heq ▸ ha)⟩
      · rw [hh .sz nofun]
        exact hr
      · exact fun _ i hi => fill_inside (by omega) (by omega)
  · rw [if_neg hc]
    exact ⟨0, h, h, R, rfl, .inl ⟨rfl, rfl⟩, Keeps.refl .., .null fl hw, fun h => absurd rfl h⟩

end Target

end Nmalloc
