import Dj64.Malloc.Carving

/-!
# More memory from the source

`extendsbrk` asks the memory source for more and either extends `lastsbrk` or starts a new region.
-/

namespace Nmalloc

variable {T : Target} {h h' k k' : Heap} {R R' : Set (ℕ × ℕ)} {L : Set ℕ} {fl fl' : ℕ → List ℕ}
  {a b m q s x : ℕ} {f : Field} {r : ℕ × ℕ}

namespace Target

/-- The source extended the region of `lastsbrk`. -/
theorem WF.extend (hw : T.WF R L fl h) (h0 : h.lastsbrk ≠ 0) (hr : r ∈ R)
    (h1 : r.1 ≤ h.lastsbrk) (h2 : h.lastsbrk < r.2)
    (hR : ∀ r' ∈ R, r' ≠ r → r.2 + x ≤ r'.1 ∨ r'.2 ≤ r.1)
    (hb : r.2 + x ≤ 256 ^ T.ptr ∧ r.2 + x - r.1 < 2 ^ 32 ∧ r.2 + x - r.1 < 2 ^ (T.nflists - 1))
    (hout : r.2 + x ≤ T.none ∨ T.none < r.1) :
    let h' := T.set h h.lastsbrk .sz (u32 (T.get h h.lastsbrk .sz + x))
    T.WF (insert (r.1, r.2 + x) (R \ {r})) L fl h' ∧ T.Keeps L h h' ∧
      T.get h' h.lastsbrk .sz = T.get h h.lastsbrk .sz + x := by
  intro h'
  have hmB : h.lastsbrk ∈ inUse L h.lastsbrk := .inr ⟨rfl, h0⟩
  obtain ⟨hL, hm, hn⟩ := hw.last h0
  have hend := hw.inv.tiled.end_le hr (.inl hmB) h1 h2
  have hlt : T.get h h.lastsbrk .sz + x < 2 ^ 32 := by omega
  have hu : u32 (T.get h h.lastsbrk .sz + x) = T.get h h.lastsbrk .sz + x := Nat.mod_eq_of_lt hlt
  have e0 := Edits.refl T (blocks (inUse L h.lastsbrk) fl) (fun a => T.get h a .sz)
    (inUse L h.lastsbrk) h
  have e1 : Edits T _ _ _ h h' _ := e0.setField hw.inv le_rfl (a := h.lastsbrk) (g := .sz)
    (x := u32 (T.get h h.lastsbrk .sz + x)) (.inl hmB) (by
      rw [hu]
      exact hlt) nofun
  rw [hu] at e1
  have hsz : T.get h' h.lastsbrk .sz = T.get h h.lastsbrk .sz + x := by
    rw [e1.get (.inl hmB) (by simp), Records.upd_self]
  have hk : T.Keeps L h h' := by
    refine ⟨fun a ha f _ hf => ?_, fun a ha => e1.data a (.inl ha), rfl, id⟩
    have hne : a ≠ h.lastsbrk := fun heq => hL (heq ▸ ha)
    rw [e1.get (.inl (.inl ha)) hf, Records.upd_of_ne _ _ _ _ hne]
  refine ⟨⟨?_, hk.live le_rfl hw.live, fun h0 => ⟨hL, ?_, ?_⟩, fun _ => h0⟩, hk, hsz⟩
  · refine hw.inv.extend hr hmB h1 h2 hn hR hb hout hsz fun a ha f hf hne => ?_
    rw [e1.fields a f ⟨ha, fun h => hw.inv.large a (hf h)⟩]
    exact if_neg fun hc => hne hc.2 hc.1
  · exact ((e1.get (.inl hmB) (by simp)).trans (by simp)).trans hm
  · exact ((e1.get (.inl hmB) (by simp)).trans (by simp)).trans hn

/-- The next multiple of `ALIGN`. -/
def alignUp (q : ℕ) : ℕ := q + if q % align ≠ 0 then align - q % align else 0

theorem le_alignUp (q : ℕ) : q ≤ alignUp q ∧ alignUp q ≤ q + 15 ∧ align ∣ alignUp q := by
  unfold alignUp align
  split_ifs <;> omega

/-- The header that `extendsbrk` writes at the start of a new region. -/
def newHeader (T : Target) (h : Heap) (m sz : ℕ) : Heap :=
  T.set (T.set (T.set (T.set h m .sz sz) m .next 0) m .prev 0) m .nextfree 0

/-- A new region, apart from the old ones, is one block in use. -/
theorem WF.newHeader (hw : T.WF R L fl h) (up : ℕ) (hm0 : 0 < m) (hal : align ∣ m)
    (hk : m + T.dataOffset ≤ up) (hR : ∀ r ∈ R, up ≤ r.1 ∨ r.2 ≤ m)
    (hbo : up ≤ 256 ^ T.ptr ∧ up - m < 2 ^ 32 ∧ up - m < 2 ^ (T.nflists - 1))
    (hout : up ≤ T.none ∨ T.none < m) :
    let h' := T.newHeader h m (up - m)
    Inv T (T.get h') h'.freehdrs (insert (m, up) R) (insert m (inUse L h.lastsbrk)) fl h.lastsbrk ∧
      T.Keeps (inUse L h.lastsbrk) h h' ∧ m ∉ inUse L h.lastsbrk ∧ T.get h' m .nextfree = 0 ∧
      T.get h' m .next = 0 ∧ T.get h' m .sz = up - m := by
  intro h'
  have hdo := T.dataOffset_pos
  have ho' : ∀ a ∈ blocks (inUse L h.lastsbrk) fl, a + T.get h a .sz ≤ m ∨ up ≤ a := by
    intro a ha
    obtain ⟨r, hr, h1, h2, h3⟩ := hw.inv.region ha
    rcases hR r hr with h4 | h4 <;> omega
  have hne : ∀ a ∈ blocks (inUse L h.lastsbrk) fl, a ≠ m := by
    intro a ha
    have := ho' a ha
    have := hw.inv.dataOffset_le ha
    omega
  have hS : T.Apart (insert m (blocks (inUse L h.lastsbrk) fl))
      (fun a => if a = m then up - m else T.get h a .sz) := by
    constructor
    · rintro a (rfl | ha)
      · rw [if_pos rfl]; omega
      · rw [if_neg (hne a ha)]; exact hw.inv.dataOffset_le ha
    rintro a (rfl | ha) b (rfl | hb) hab
    · exact absurd rfl hab
    · have := ho' b hb
      rw [if_pos rfl, if_neg (hne b hb)]; omega
    · have := ho' a ha
      rw [if_pos rfl, if_neg (hne a ha)]; omega
    · rw [if_neg (hne a ha), if_neg (hne b hb)]; exact hw.inv.tiled.apart a ha b hb hab
  have hKS : inUse L h.lastsbrk ⊆ insert m (blocks (inUse L h.lastsbrk) fl) :=
    fun a ha => .inr (.inl ha)
  have hz := T.zero_lt_width
  have e0 := Edits.refl T (insert m (blocks (inUse L h.lastsbrk) fl))
    (fun a => if a = m then up - m else T.get h a .sz) (inUse L h.lastsbrk) h
  have e1 := e0.put hS hKS (.inl rfl) (g := .sz) (v := up - m) (by norm_num [width]; omega)
    (by simp)
  have e2 := (e1.put hS hKS (.inl rfl) (g := .next) (hz _) (by simp)).put hS hKS (.inl rfl)
    (g := .prev) (hz _) (by simp)
  have e3 : Edits T _ _ _ h h' _ := e2.put hS hKS (.inl rfl) (hz _) (by simp)
  have r : ∀ a ∈ blocks (inUse L h.lastsbrk) fl, ∀ f, (f = .prevfree → Free fl a) →
      T.get h' a f = T.get h a f := by
    intro a ha f hf
    rw [e3.fields a f ⟨.inr ha, fun h => by simpa [hne a ha] using hw.inv.large a (hf h)⟩]
    simp [Records.upd, hne a ha]
  have hsz : T.get h' m .sz = up - m := by rw [e3.get (.inl rfl) (by simp)]; simp
  have hnx : T.get h' m .next = 0 := by rw [e3.get (.inl rfl) (by simp)]; simp
  refine ⟨?_, ⟨?_, ?_, rfl, id⟩, fun h => hne m (.inl h) rfl, ?_, hnx, hsz⟩
  · refine hw.inv.addRegion hm0 hal hk hR hbo hout hsz hnx ?_ r
    rw [e3.get (.inl rfl) (by simp)]; simp
  · exact fun a ha f _ hf => r a (.inl ha) f fun h => absurd h hf
  · intro a ha x h1 h2
    exact e3.data a ha x h1 (by rw [if_neg (hne a (.inl ha))]; exact h2)
  · rw [e3.get (.inl rfl) (by simp)]; simp

theorem recordnewsbrk_eq (h : Heap) (q : ℕ) : ∃ l, recordnewsbrk h q = { h with sbrkbgn := l } := by
  unfold recordnewsbrk
  split_ifs <;> exact ⟨_, rfl⟩

theorem newLastsbrk_eq (h0 : alignUp q ≠ 0)
    (hrun : T.mv2freelist (T.newHeader h (alignUp q) (q + x - alignUp q)) h.lastsbrk = .ok k') :
    T.newLastsbrk h q x =
      .ok (alignUp q, recordnewsbrk (k'.setLastsbrk (alignUp q)) (alignUp q)) := by
  have hup : q + (if q % align ≠ 0 then align - q % align else 0) = alignUp q := rfl
  have hlen : x - (if q % align ≠ 0 then align - q % align else 0) = q + x - alignUp q := by omega
  unfold Target.newLastsbrk
  dsimp only
  rw [hup, if_neg h0, hlen]
  exact congrArg (· >>= _) hrun

/-- The old `lastsbrk`, if there is one, goes to the free lists. -/
theorem WF.retireLastsbrk (hw : T.WF R L fl h)
    (hinv : Inv T (T.get k) k.freehdrs R' (insert m (inUse L h.lastsbrk)) fl h.lastsbrk)
    (hk : T.Keeps (inUse L h.lastsbrk) h k) (hnB : m ∉ inUse L h.lastsbrk)
    (hma : T.get k m .nextfree = 0) (hls : k.lastsbrk = h.lastsbrk)
    (hs : h.lastsbrk ≠ 0 → T.freeHeader ≤ T.get h h.lastsbrk .sz) :
    ∃ k' fl2, T.mv2freelist k k.lastsbrk = .ok k' ∧
      Inv T (T.get k') k'.freehdrs R' (insert m L) fl2 h.lastsbrk ∧ T.Keeps (insert m L) k k' := by
  by_cases h0 : h.lastsbrk = 0
  · refine ⟨k, fl, by rw [hls, h0]; rfl, ?_, Keeps.refl ..⟩
    have hB : inUse L h.lastsbrk = L := by rw [h0, inUse_zero]
    rwa [hB] at hinv
  have hlB : h.lastsbrk ∈ inUse L h.lastsbrk := .inr ⟨rfl, h0⟩
  obtain ⟨hL, hlma, hln⟩ := hw.last h0
  have hlnext1 : T.get k h.lastsbrk .next = 0 := (hk.get hlB (by simp)).trans hln
  have hlm : h.lastsbrk ≠ m := fun h => hnB (h ▸ hlB)
  -- the block below `lastsbrk` is not free
  have hb : ¬ Free fl (T.get k h.lastsbrk .prev) := by
    intro hp
    have hp0 : T.get k h.lastsbrk .prev ≠ 0 :=
      hinv.ne_zero (B := insert m (inUse L h.lastsbrk)) (.inr hp)
    have hpn := (hinv.tiled.prev_spec (.inl (.inr hlB)) hp0).2.2
    exact (hinv.aboveFree _ hp).2 h0 hpn
  have hm : ∀ a ∈ insert m (inUse L h.lastsbrk), a ≠ h.lastsbrk → T.get k a .nextfree = 0 := by
    rintro a (rfl | ha) hne
    · exact hma
    · rw [hk.get ha (by simp)]
      rcases ha with ha | ⟨rfl, -⟩
      · exact (hw.live a ha).1
      · exact absurd rfl hne
  have hl : T.freeHeader ≤ T.get k h.lastsbrk .sz := by
    rw [hk.get hlB (by simp)]
    exact hs h0
  have hi' : Inv T (T.get k) k.freehdrs R' (insert m (inUse L h.lastsbrk)) fl k.lastsbrk := by
    rwa [hls]
  obtain ⟨k', fl2, hrun, hf⟩ := mv2freelist_spec (m := h.lastsbrk) (h := k) hi' (.inr hlB) hl
    hb hm fun _ => by rw [hls]; exact ⟨.inr hlB, hlnext1⟩
  rw [hls]
  cases hf with
  | linked inv keeps last =>
    have hB : insert m (inUse L h.lastsbrk) \ {h.lastsbrk} = insert m L := by
      rw [inUse_insert, inUse_sdiff_self h0 fun hmem => hmem.elim hlm hL]
    rw [hB] at inv keeps
    rw [hls] at inv
    exact ⟨k', fl2, hrun, inv, keeps⟩
  | merged old old_ne _ _ _ _ _ =>
    rw [hlnext1] at old
    exact absurd old.symm old_ne

/-- **`newLastsbrk`**: the old `lastsbrk` goes to the free lists, which takes room for its links,
and the new region becomes `lastsbrk`. -/
theorem WF.newLastsbrk (hw : T.WF R L fl h) (hq : 0 < q) (hx : minsbrk ≤ x)
    (hR : ∀ r ∈ R, q + x ≤ r.1 ∨ r.2 ≤ q)
    (hbo : q + x ≤ 256 ^ T.ptr ∧ x < 2 ^ 32 ∧ x < 2 ^ (T.nflists - 1))
    (hout : q + x ≤ T.none ∨ T.none < q)
    (hs : h.lastsbrk ≠ 0 → T.freeHeader ≤ T.get h h.lastsbrk .sz) :
    ∃ h' fl', T.newLastsbrk h q x = .ok (alignUp q, h') ∧
      T.WF (insert (alignUp q, q + x) R) L fl' h' ∧ T.Keeps L h h' ∧ h'.lastsbrk = alignUp q ∧
      T.get h' (alignUp q) .sz = q + x - alignUp q := by
  obtain ⟨ha1, ha2, ha3⟩ := le_alignUp q
  have hdo : T.dataOffset ≤ 32 := by
    have := T.ptr_cases
    unfold dataOffset
    omega
  have hx' : 1024 ≤ x := hx
  obtain ⟨hinv, hk, hnB, hma, hn, hsz⟩ := hw.newHeader (m := alignUp q) (q + x) (by omega)
    ha3 (by omega) (fun r hr => by have := hR r hr; omega) (by omega) (by omega)
  set m := alignUp q with hm
  set k := T.newHeader h m (q + x - m) with hh1
  have hls1 : k.lastsbrk = h.lastsbrk := rfl
  have hm0 : m ≠ 0 := by omega
  obtain ⟨k', fl2, hrun, hinv2, hk2⟩ := hw.retireLastsbrk hinv hk hnB hma hls1 hs
  obtain ⟨l, hl⟩ := recordnewsbrk_eq (k'.setLastsbrk m) m
  have hmL : m ∉ L := fun h => hnB (.inl h)
  have hkL : T.Keeps L h k' := (hk.mono fun a ha => .inl ha).trans (hk2.mono fun a ha => .inr ha)
  have hmK : ∀ f, f ≠ .prev → f ≠ .prevfree → T.get k' m f = T.get k m f := fun f h1 h2 =>
    hk2.header m (.inl rfl) f h1 h2
  have hls := lastsbrk_setLastsbrk k' m
  refine ⟨{ k'.setLastsbrk m with sbrkbgn := l }, fl2, ?_, ⟨?_, ?_, ?_, ?_⟩,
    ⟨hkL.header, hkL.data, hkL.sbrks, hkL.linked⟩, hls, (hmK .sz nofun nofun).trans hsz⟩
  · rw [newLastsbrk_eq hm0 hrun, hl]
  · show Inv T (T.get k') (k'.setLastsbrk m).freehdrs _ (inUse L (k'.setLastsbrk m).lastsbrk) fl2
      (k'.setLastsbrk m).lastsbrk
    rw [hls, inUse_of_ne hm0]
    refine (hinv2.setLast (below_of_prev hinv2 hm0 ?_)).congr (fun b hb =>
      Function.update_of_ne hb ..)
      (fun _ _ => ⟨rfl, rfl, rfl⟩) fun _ _ => ⟨rfl, rfl⟩
    -- `m` starts its region
    have hp : T.get k' m .prev = 0 := hinv2.tiled.prev_start (r := (m, q + x)) (.inl rfl)
    rw [hp]
    exact fun hf => hinv2.ne_zero (B := insert m L) (.inr hf) rfl
  · exact hkL.live le_rfl hw.live
  · exact fun _ => ⟨hmL, (hmK _ (by simp) (by simp)).trans hma,
      (hmK _ (by simp) (by simp)).trans hn⟩
  · intro _
    exact hm0

/-! ### Answers of the source -/

/-- The heap once the source has been asked for `x` bytes and answered `q`. -/
def asked (h : Heap) (q x : ℕ) : Heap := { h with sbrks := h.sbrks ++ [(q, x)] }

theorem WF.log (hw : T.WF R L fl h) (q x : ℕ) : T.WF R L fl (asked h q x) :=
  ⟨hw.inv, hw.live, hw.last, hw.anchored⟩

/-- The answers `q` to a request of `x` bytes after which the regions are `R'`: a refusal, the
continuation of the region of `lastsbrk`, or a new region.  In the last case the old `lastsbrk`
must have room for its free-list links. -/
inductive Answer (T : Target) (R : Set (ℕ × ℕ)) (h : Heap) (q x : ℕ) : Set (ℕ × ℕ) → Prop
  | refused (hq : q = T.sizeMod - 1) : Answer T R h q x R
  | grown {r : ℕ × ℕ} (h0 : h.lastsbrk ≠ 0) (hr : r ∈ R) (h1 : r.1 ≤ h.lastsbrk)
      (h2 : h.lastsbrk < r.2) (hq : q = r.2)
      (hR : ∀ r' ∈ R, r' ≠ r → r.2 + x ≤ r'.1 ∨ r'.2 ≤ r.1)
      (hbound : r.2 + x ≤ 256 ^ T.ptr ∧ r.2 + x - r.1 < 2 ^ 32 ∧
        r.2 + x - r.1 < 2 ^ (T.nflists - 1))
      (hout : r.2 + x ≤ T.none ∨ T.none < r.1) :
      Answer T R h q x (insert (r.1, r.2 + x) (R \ {r}))
  | fresh (hq : 0 < q) (hne : q ≠ T.expected h) (hR : ∀ r ∈ R, q + x ≤ r.1 ∨ r.2 ≤ q)
      (hbound : q + x ≤ 256 ^ T.ptr ∧ x < 2 ^ 32 ∧ x < 2 ^ (T.nflists - 1))
      (hout : q + x ≤ T.none ∨ T.none < q)
      (hsmall : h.lastsbrk ≠ 0 → T.freeHeader ≤ T.get h h.lastsbrk .sz) :
      Answer T R h q x (insert (alignUp q, q + x) R)

theorem sbrkRequest_ge (hs : s ≤ oversize) :
    minsbrk ≤ T.sbrkRequest h s ∧ s + 2 * align + T.dataOffset ≤ T.sbrkRequest h s := by
  have hp := T.ptr_cases
  have hs' : s + (2 * align + T.dataOffset) < 2 ^ 32 - 32 := by
    unfold oversize at hs
    unfold align dataOffset
    omega
  unfold sbrkRequest u32
  dsimp only
  unfold minsbrk align at *
  split_ifs <;> omega

theorem WF.expected_eq (hw : T.WF R L fl h) (h0 : h.lastsbrk ≠ 0) (hr : r ∈ R)
    (h1 : r.1 ≤ h.lastsbrk) (h2 : h.lastsbrk < r.2) : T.expected h = r.2 := by
  rw [expected, if_pos h0]
  have hlB : h.lastsbrk ∈ blocks (inUse L h.lastsbrk) fl := .inl (.inr ⟨rfl, h0⟩)
  rcases hw.inv.tiled.up r hr _ hlB h1 h2 with ⟨he, -⟩ | ⟨-, hn, hm, -⟩
  · exact he
  · rw [← hn] at hm
    exact absurd (hw.last h0).2.2 (hw.inv.ne_zero hm)

/-- **`extendsbrk`** returns `NULL` if the source refuses, and else a `lastsbrk` that is large
enough to be split. -/
theorem WF.extendsbrk (hw : T.WF R L fl h) (hs : s ≤ oversize) {sbrk : ℕ → ℕ}
    (hx : x = T.sbrkRequest h s) (ha : Answer T R h (sbrk x) x R') :
    (R' = R ∧ T.extendsbrk h sbrk s = .ok (0, asked h (sbrk x) x)) ∨
      ∃ h' fl', T.extendsbrk h sbrk s = .ok (h'.lastsbrk, h') ∧ T.WF R' L fl' h' ∧
        T.Keeps L (asked h (sbrk x) x) h' ∧ h'.lastsbrk ≠ 0 ∧
        s + T.minsave ≤ T.get h' h'.lastsbrk .sz := by
  obtain ⟨hx1, hx2⟩ := sbrkRequest_ge (T := T) (h := h) hs
  rw [← hx] at hx1 hx2
  have hx1' : 1024 ≤ x := hx1
  have hwa := hw.log (sbrk x) x
  unfold Target.extendsbrk
  simp only [← hx, fakesbrk]
  cases ha with
  | refused hq =>
    refine .inl ⟨rfl, ?_⟩
    rw [if_pos hq]
    rfl
  | @grown r h0 hr h1 h2 hq hR hb hout =>
    obtain ⟨hw', hk, hsz⟩ := hwa.extend h0 hr h1 h2 hR hb hout
    have hne : ¬ sbrk x = T.sizeMod - 1 := by unfold sizeMod; omega
    have hexp : T.expected h = sbrk x := by rw [hw.expected_eq h0 hr h1 h2, hq]
    refine .inr ⟨_, fl, ?_, hw', hk, h0, ?_⟩
    · rw [if_neg hne, if_pos hexp.symm, if_neg (by exact h0)]
      rfl
    · show s + T.minsave ≤ T.get _ h.lastsbrk .sz
      rw [show T.get _ h.lastsbrk .sz = _ from hsz]
      unfold minsave align at *
      omega
  | fresh hq hne hR hb hout hsm =>
    obtain ⟨h', fl', hrun, hw', hk, hls, hsz⟩ := hwa.newLastsbrk hq hx1 hR hb hout hsm
    have hne' : ¬ sbrk x = T.sizeMod - 1 := by unfold sizeMod; omega
    obtain ⟨ha1, ha2, ha3⟩ := le_alignUp (sbrk x)
    refine .inr ⟨h', fl', ?_, hw', hk, by rw [hls]; omega, ?_⟩
    · rw [if_neg hne', if_neg hne, hls]
      exact hrun
    · rw [hls]
      unfold minsave align at *
      omega

end Target

end Nmalloc
