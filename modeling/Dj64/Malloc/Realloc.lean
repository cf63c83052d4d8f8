import Dj64.Malloc.Calls

/-!
# `nrealloc` on a well-formed heap

* `Moved`: the client's block has become another one, with its data;
* `WF.growblock`: they are tried in the order of the source;
* `WF.nrealloc`: the call returns; on failure the block is as it was.
-/

namespace Nmalloc

open Nat Set ByteMemory

variable {T : Target} {h h' k k' : Heap} {R R' R1 : Set (ℕ × ℕ)} {L K B : Set ℕ}
  {fl fl' : ℕ → List ℕ} {a m m' n s s' x p size i ls : ℕ} {f : Field} {sbrk hd : ℕ → ℕ}

namespace Target

/-- The client's block `m` has become `m'`, of at least `s` bytes, with the data that fits. -/
structure Moved (T : Target) (R : Set (ℕ × ℕ)) (L : Set ℕ) (m m' s : ℕ) (h h' : Heap) : Prop where
  wf : ∃ fl', T.WF R (insert m' (L \ {m})) fl' h'
  fresh : m' ∉ L \ {m}
  keeps : T.Keeps (L \ {m}) h h'
  size : s ≤ T.get h' m' .sz
  data : ∀ i, T.dataOffset ≤ i → i < T.get h m .sz → i < s → h'.mem (m' + i) = h.mem (m + i)

theorem Freeing.wf (hf : T.Freeing R L fl m h) (hm : T.get h m .nextfree = 0) :
    T.WF R (insert m L) fl h where
  inv := hf.inv
  live a ha := by
    rcases ha with rfl | ha
    · exact ⟨hm, hf.large⟩
    · exact hf.live a ha
  last h0 := by
    obtain ⟨h1, h2, h3⟩ := hf.last h0
    exact ⟨fun hc => hc.elim h2 h1, h3⟩
  anchored _ := hf.anchored

theorem Moved.trim (hm : T.Moved R L m m' s' h k) (hs : T.Rounded s) (hle : s ≤ s') :
    ∃ k', T.trim k m' s = .ok (m', k') ∧ T.Moved R L m m' s h k' := by
  obtain ⟨fl', hw⟩ := hm.wf
  obtain ⟨k', fl2, hrun, hw2, hk, hsz, hd⟩ := hw.trim (.inl rfl) hs (hle.trans hm.size)
  refine ⟨k', hrun, ⟨fl2, hw2⟩, hm.fresh, hm.keeps.trans (hk.mono ?_), hsz, fun i h1 h2 h3 => ?_⟩
  · exact fun a ha => ⟨.inr ha, fun heq => hm.fresh (heq ▸ ha)⟩
  · rw [hd (m' + i) (by omega) (by omega)]
    exact hm.data i h1 h2 (by omega)

section

variable (hw : T.WF R L fl h)
include hw

theorem WF.isFree_iff (ha : a ≠ 0 → a ∈ blocks (inUse L h.lastsbrk) fl) :
    T.isFree h a ↔ Free fl a := by
  constructor
  · intro h1
    by_cases h0 : a = 0
    · simp [isFree, h0] at h1
    rcases ha h0 with (h2 | ⟨rfl, h2⟩) | h2
    · rw [hw.isFree_false h2] at h1
      cases h1
    · rw [isFree_eq_false fun _ => (hw.last h2).2.1] at h1
      cases h1
    · exact h2
  · exact isFree_of_free hw.inv

theorem WF.next_mem (hm : m ∈ L) (h0 : T.get h m .next ≠ 0) :
    T.get h m .next ∈ blocks (inUse L h.lastsbrk) fl :=
  (hw.inv.tiled.next_spec (.inl (.inl hm)) h0).2.1

theorem WF.prev_mem (hm : m ∈ L) (h0 : T.get h m .prev ≠ 0) :
    T.get h m .prev ∈ blocks (inUse L h.lastsbrk) fl :=
  (hw.inv.tiled.prev_spec (.inl (.inl hm)) h0).1

theorem WF.growhi (hm : m ∈ L) (hn : Free fl (T.get h m .next)) :
    ∃ h', T.combinehi h m = .ok h' ∧
      T.Moved R L m m (T.get h m .sz + T.get h (T.get h m .next) .sz) h h' := by
  obtain ⟨h', fl', hrun, hf, hk, hu, -, hsz⟩ := (hw.freeing hm).combinehi hn
  refine ⟨h', hrun, ⟨fl', hf.wf (hu.mark.trans (hw.live m hm).1)⟩, by simp, hk, hsz.ge,
    fun i h1 h2 _ => ?_⟩
  exact hu.data (m + i) (by omega) (by omega)

end

theorem movedata_data (h1 : T.dataOffset ≤ i) (h2 : i < T.get h m .sz) :
    (T.movedata h m' m).mem (m' + i) = h.mem (m + i) := by
  obtain ⟨j, rfl⟩ := Nat.exists_eq_add_of_le h1
  rw [← add_assoc, ← add_assoc]
  exact copy_inside (by omega)

/-- Copying the data to a larger block and freeing the old one. -/
theorem WF.relocate (hw : T.WF R (insert m' L) fl k) (hm : m ∈ L) (hm' : m' ∉ L)
    (hk : T.Keeps L h k) (hlt : T.get h m .sz ≤ s) (hle : s ≤ T.get k m' .sz) :
    ∃ k', T.dofree (T.movedata k m' m) m = .ok k' ∧ T.Moved R L m m' s h k' := by
  have hne : m' ≠ m := fun heq => hm' (heq ▸ hm)
  have hsz : T.get k m .sz = T.get h m .sz := hk.get hm (by simp)
  obtain ⟨hw2, hk2, hh⟩ := hw.overwrite (m := m') (.inl rfl)
    (copy k.mem (m' + T.dataOffset) (m + T.dataOffset) (T.get k m .sz - T.dataOffset))
    fun x hx => copy_outside (by omega)
  obtain ⟨h₃, fl3, hrun, hw3, hk3⟩ := hw2.dofree (m := m) (.inr hm)
  have hset : insert m' L \ {m} = insert m' (L \ {m}) :=
    insert_sdiff_of_notMem _ (by simpa using hne)
  rw [hset] at hw3 hk3
  refine ⟨h₃, hrun, ⟨fl3, hw3⟩, fun h => hm' h.1, ?_, ?_, fun i h1 h2 h3 => ?_⟩
  · refine ((hk.mono sdiff_subset).trans (hk2.mono fun a ha => ?_)).trans
      (hk3.mono fun a ha => .inr ha)
    exact ⟨.inr ha.1, fun heq => hm' (heq ▸ ha.1)⟩
  · rw [hk3.get (.inl rfl) (by simp), hh .sz (by simp)]
    exact hle
  · rw [hk3.data m' (.inl rfl) (m' + i) (by omega) (by rw [hh .sz nofun]; omega),
      ← hk.data m hm (m + i) (by omega) (by omega)]
    exact movedata_data h1 (by omega)

/-- The writes of `growlo`, in another order than those of `combinelo`. -/
def lowWrites (T : Target) (h : Heap) (m n : ℕ) : Heap :=
  let h := T.set h m .sz (u32 (T.get h m .sz + T.get h n .sz))
  let h := T.set h m .next (T.get h n .next)
  if T.get h m .next ≠ 0 then T.set h (T.get h m .next) .prev m else h

theorem lowWrites_edits (hi : Inv T (T.get h) hd R B fl ls)
    (hm : m ∈ B) (hn : T.get h m .next ≠ 0) (hK : K ⊆ B) :
    Edits T (blocks B fl) (fun a => T.get h a .sz) K h (T.lowWrites h m (T.get h m .next))
      (joined (T.get h) m (T.get h m .next)) := by
  have hmb : m ∈ blocks B fl := .inl hm
  obtain ⟨hne, hnb, hnn⟩ := hi.neighbours hmb hn
  have hlt := hi.sz_add_lt hmb hn
  set n := T.get h m .next with hnd
  have e0 := Edits.refl T (blocks B fl) (fun a => T.get h a .sz) K h
  have e1 := e0.setField hi hK hmb (g := .sz) (x := u32 (T.get h m .sz + T.get h n .sz))
    (by unfold u32; exact mod_lt _ (by norm_num)) (by simp)
  have r1 := e1.get hnb (f := .next) (by simp)
  simp only [ne_eq, reduceCtorEq, not_false_eq_true, Records.upd_of_field_ne] at r1
  have e2 := e1.setField hi hK hmb (g := .next) (T.get_lt h n .next) (by simp)
  have r2 := e2.get hmb (f := .next) (by simp)
  rw [Records.upd_self] at r2
  unfold lowWrites
  dsimp only
  rw [r1, r2]
  by_cases h0 : T.get h n .next = 0
  · rw [if_neg (by simpa using h0)]
    refine e2.congr fun a f => ?_
    rw [u32]
    simp only [Records.upd, joined]
    grind
  rw [if_pos h0]
  refine (e2.setField hi hK (hnn h0).1 (g := .prev) (hi.lt_pow hmb) (by simp)).congr fun a f => ?_
  rw [u32]
  simp only [Records.upd, joined]
  grind

/-- Growing into the free block below: that block takes over, and the data moves down. -/
theorem WF.growlo (hw : T.WF R L fl h) (hm : m ∈ L) (hp : Free fl (T.get h m .prev))
    (hs : T.Rounded s) (hle : s ≤ T.get h m .sz + T.get h (T.get h m .prev) .sz) :
    ∃ h', T.growlo h m s = .ok (T.get h m .prev, h') ∧ T.Moved R L m (T.get h m .prev) s h h' := by
  have hf := hw.freeing hm
  have hmB : m ∈ inUse L h.lastsbrk := .inl hm
  have hp0 : T.get h m .prev ≠ 0 := hw.inv.ne_zero (B := inUse L h.lastsbrk) (.inr hp)
  obtain ⟨hpb, -, hnp⟩ := hw.inv.tiled.prev_spec (.inl hmB) hp0
  have hpB : T.get h m .prev ∉ inUse L h.lastsbrk := fun h => hw.inv.inUse _ h hp
  obtain ⟨k, fl1, hrun, hr, hfr, hz⟩ := extractfree_spec hw.inv hp (le_refl (inUse L h.lastsbrk))
  set p := T.get h m .prev with hpd
  have hpm : p ≠ m := fun heq => hpB (heq ▸ hmB)
  have hn : T.get k p .next = m := ((hr.chain p (.inr hp)).2.1).trans hnp
  have hn0 : T.get k p .next ≠ 0 := by rw [hn]; exact hw.inv.ne_zero (.inl hmB)
  -- the joined block, with `m` still intact inside it
  have he := lowWrites_edits (K := insert p (inUse L h.lastsbrk)) hr.inv (m := p)
    (.inl rfl) hn0 le_rfl
  obtain ⟨hg, hu⟩ := he.merged hr.inv (.inl rfl) hn0 (by rw [hn]; exact .inr hmB)
    (fun a ha => .inr ha) hpB (by unfold lowWrites; dsimp only; split_ifs <;> rfl)
    (by unfold lowWrites; dsimp only; split_ifs <;> rfl)
    (by unfold lowWrites; dsimp only; split_ifs <;> rfl)
  rw [hn] at hg hu
  set k' := T.lowWrites k p m with hh2
  have hk : T.Keeps (inUse L h.lastsbrk) h k' := hr.keeps.trans hg.keeps
  have hsz2 : T.get k' p .sz = T.get h p .sz + T.get h m .sz := by
    rw [hg.sz, (hr.chain p (.inr hp)).2.2, (hr.chain m (.inl hmB)).2.2]
  have hszm : T.get k' m .sz = T.get h m .sz := hk.get hmB (by simp)
  have hw2 : T.WF R (insert p (L \ {m})) fl1 k' := by
    refine Freeing.wf ((hk.mono ?_).freeing hf ?_ ?_ ?_ (hg.last.trans hr.last)) (hu.mark.trans hz)
    · exact fun a ha => ha.imp (fun h => h.1) id
    · have hB : insert p (inUse L h.lastsbrk) \ {m} = inUse (insert p (L \ {m})) h.lastsbrk := by
        rw [inUse_insert, inUse_sdiff fun h0 => (hf.last h0).2.1, insert_sdiff_of_notMem]
        exact hpm
      rw [← hB]
      exact hg.inv
    · exact fun h => hpB (h.imp (fun h => h.1) id)
    · rw [hsz2]
      exact (hw.inv.large p hp).trans (le_add_right _ _)
  -- the data of `m` moves down inside the joined block
  obtain ⟨hw3, hk3, hh⟩ := hw2.overwrite (.inl rfl) (T.movedata k' p m).mem
    fun x hx => copy_outside (by omega)
  have hmo : T.Moved R L m p (T.get h m .sz + T.get h p .sz) h (T.movedata k' p m) := by
    refine ⟨⟨fl1, hw3⟩, fun h => hpB (.inl h.1), ?_, ?_, fun i h1 h2 _ => ?_⟩
    · refine (hk.mono fun a ha => .inl ha.1).trans (hk3.mono fun a ha => ?_)
      exact ⟨.inr ha, fun heq => hpB (.inl (heq ▸ ha.1))⟩
    · exact ((hh .sz nofun).trans hsz2).ge.trans' (add_comm _ _).le
    · rw [movedata_data h1 (by omega)]
      exact hk.data m hmB (m + i) (by omega) (by omega)
  obtain ⟨h4, hrun4, hm4⟩ := hmo.trim hs hle
  refine ⟨h4, ?_, hm4⟩
  unfold Target.growlo
  dsimp only
  rw [hrun, ← hrun4]
  rfl

/-- **`mv2lastsbrk`** moves a block into the lower part of `lastsbrk`. -/
theorem WF.mv2lastsbrk (hw : T.WF R L fl h) (hm : m ∈ L) (hs : T.Rounded s)
    (hlt : T.get h m .sz ≤ s) (hsi : s + T.dataOffset ≤ T.get h h.lastsbrk .sz) :
    ∃ h', T.mv2lastsbrk h m s = .ok (h.lastsbrk, h') ∧ T.Moved R L m h.lastsbrk s h h' := by
  have h0 := hw.lastsbrk_ne_zero (.inl (.inl hm))
  obtain ⟨k, hrun, hw1, hk, hL, hsz⟩ := hw.splitLast h0 hs hsi
  obtain ⟨k', hrun2, hmv⟩ := hw1.relocate hm hL hk hlt hsz.ge
  refine ⟨k', ?_, hmv⟩
  unfold Target.mv2lastsbrk
  rw [hrun, ok_bind]
  simp only [hrun2]
  rfl

/-- The outcome of `growblock`: failure with the block as it was, or the block moved. -/
inductive Grown (T : Target) (R₁ : Set (ℕ × ℕ)) (L : Set ℕ) (m s : ℕ) (h₁ h' : Heap) : ℕ → Prop
  | null (fl' : ℕ → List ℕ) (wf : T.WF R₁ L fl' h') (keeps : T.Keeps L h₁ h') :
      Grown T R₁ L m s h₁ h' 0
  | moved (m' : ℕ) (h0 : m' ≠ 0) (moved : T.Moved R₁ L m m' s h₁ h') : Grown T R₁ L m s h₁ h' m'

theorem Moved.ne_zero (hm : T.Moved R L m m' s h h') : m' ≠ 0 := by
  obtain ⟨fl', hw⟩ := hm.wf
  exact hw.inv.ne_zero (.inl (.inl (.inl rfl)))

theorem moved_self (hw : T.WF R L fl h') (hm : m ∈ L) (hk : T.Keeps (L \ {m}) h h')
    (hsz : s ≤ T.get h' m .sz)
    (hd : ∀ i, T.dataOffset ≤ i → i < T.get h m .sz → i < s → h'.mem (m + i) = h.mem (m + i)) :
    T.Moved R L m m s h h' :=
  ⟨⟨fl, by rw [insert_sdiff_singleton, insert_eq_of_mem hm]; exact hw⟩, by simp,
    hk, hsz, hd⟩

/-- **`growblock`**: every branch ends with the block moved, or in failure after a refusal. -/
theorem WF.growblock (hw : T.WF R L fl h) (hm : m ∈ L) (hs : T.Rounded s) (ho : s ≤ oversize)
    (hlt : T.get h m .sz < s) (hx : x = T.sbrkRequest h s) (ha : Answer T R h (sbrk x) x R') :
    ∃ m' h' k R1, T.growblock h sbrk m s = .ok (m', h') ∧ Ledger R R' (sbrk x) x h k R1 ∧
      Grown T R1 L m s k h' m' := by
  have hmB : m ∈ inUse L h.lastsbrk := .inl hm
  have hl0 := hw.lastsbrk_ne_zero (.inl hmB)
  have hle := T.dataOffset_le_minsave
  have hst : Ledger R R' (sbrk x) x h h R := .inl ⟨rfl, rfl⟩
  unfold Target.growblock
  dsimp only
  split_ifs with h1 h2 h3 h4 h5
  · -- the block above is free and large enough
    have hn := (hw.isFree_iff (hw.next_mem hm)).1 h1.1
    have hn0 : T.get h m .next ≠ 0 := hw.inv.ne_zero (B := inUse L h.lastsbrk) (.inr hn)
    obtain ⟨k, hrun, hmv⟩ := hw.growhi hm hn
    have hsum : s ≤ T.get h m .sz + T.get h (T.get h m .next) .sz := by
      have := h1.2
      rwa [u32, mod_eq_of_lt (hw.inv.sz_add_lt (.inl hmB) hn0)] at this
    obtain ⟨k', hrun2, hmv2⟩ := hmv.trim hs hsum
    exact ⟨m, k', h, R, by rw [hrun]; exact hrun2, hst, .moved m hmv2.ne_zero hmv2⟩
  · -- `lastsbrk` is adjacent and large enough
    have hn0 : T.get h m .next ≠ 0 := h2.1 ▸ hl0
    have hsum := h2.2
    have hadd := hw.inv.sz_add_lt (.inl hmB) hn0
    rw [← h2.1] at hadd
    rw [u32] at hsum
    obtain ⟨h', hrun, hw', hk, hsz, hd⟩ := hw.growlast hm h2.1.symm hs (by omega)
    have hmv := moved_self hw' hm hk hsz.ge fun i h1 h2 h3 => hd (m + i) (by omega)
      (by omega) (by omega)
    exact ⟨m, h', h, R, hrun, hst, .moved m hmv.ne_zero hmv⟩
  · -- the block below is free and large enough
    have hp := (hw.isFree_iff (hw.prev_mem hm)).1 h3.1
    have hp0 : T.get h m .prev ≠ 0 := hw.inv.ne_zero (B := inUse L h.lastsbrk) (.inr hp)
    have hnp : T.get h (T.get h m .prev) .next = m := (hw.inv.tiled.prev_spec (.inl hmB) hp0).2.2
    have hadd := hw.inv.sz_add_lt (a := T.get h m .prev) (.inr hp)
      (by rw [hnp]; exact hw.inv.ne_zero (.inl hmB))
    have hsum := h3.2
    rw [u32, mod_eq_of_lt (by omega)] at hsum
    obtain ⟨h', hrun, hmv⟩ := hw.growlo hm hp hs hsum
    exact ⟨_, h', h, R, hrun, hst, .moved _ hmv.ne_zero hmv⟩
  · -- a free block elsewhere
    obtain ⟨g1, g2, g3⟩ := hw.searchfree (by unfold oversize at ho; omega) (by omega) h4
    obtain ⟨k, fl1, hrun, hw1, hk, hL, hsz⟩ := hw.takefree h4 g1 g2 hs g3
    obtain ⟨k', hrun2, hmv⟩ := hw1.relocate hm hL hk hlt.le hsz
    refine ⟨_, k', h, R, ?_, hst, .moved _ hmv.ne_zero hmv⟩
    rw [hrun, ok_bind]
    simp only [hrun2]
    rfl
  · -- `lastsbrk`, not adjacent
    obtain ⟨h', hrun, hmv⟩ := hw.mv2lastsbrk hm hs hlt.le (by omega)
    exact ⟨_, h', h, R, hrun, hst, .moved _ hmv.ne_zero hmv⟩
  · -- more memory from the source
    have hask : Ledger R R' (sbrk x) x h (asked h (sbrk x) x) R' := .inr ⟨rfl, rfl⟩
    rcases hw.extendsbrk ho hx ha with ⟨hR, hrun⟩ | ⟨k, fl1, hrun, hw1, hk, h0, hsz⟩
    · refine ⟨0, _, _, R', ?_, hask, .null fl (hR ▸ hw.log _ _) (Keeps.refl ..)⟩
      rw [hrun]
      rfl
    have hszm : T.get k m .sz = T.get h m .sz := hk.get hm (by simp)
    have hend : ∀ {m' h'}, T.Moved R' L m m' s k h' →
        T.Moved R' L m m' s (asked h (sbrk x) x) h' := fun hmv =>
      ⟨hmv.wf, hmv.fresh, (hk.mono sdiff_subset).trans hmv.keeps, hmv.size, fun i g1 g2 g3 => by
        rw [hmv.data i g1 (by rw [hszm]; exact g2) g3]
        exact hk.data m hm (m + i) (by omega) (by
          omega)⟩
    by_cases hadj : k.lastsbrk = T.get k m .next
    · obtain ⟨k', hrun2, hw2, hk2, hsz2, hd⟩ := hw1.growlast hm hadj.symm hs (by omega)
      have hmv := hend (moved_self hw2 hm hk2 hsz2.ge fun i g1 g2 g3 =>
        hd (m + i) (by omega) (by omega) (by omega))
      refine ⟨m, k', _, R', ?_, hask, .moved _ hmv.ne_zero hmv⟩
      rw [hrun, ok_bind]
      simp only [if_pos h0, if_pos hadj, hrun2]
    · obtain ⟨k', hrun2, hmv⟩ := hw1.mv2lastsbrk hm hs (by omega) (by omega)
      have hmv' := hend hmv
      refine ⟨_, k', _, R', ?_, hask, .moved _ hmv'.ne_zero hmv'⟩
      rw [hrun, ok_bind]
      simp only [if_pos h0, if_neg hadj, hrun2]

/-- The outcome of `nrealloc` on the block `m`. -/
inductive Reallocated (T : Target) (R₁ : Set (ℕ × ℕ)) (L : Set ℕ) (m size : ℕ) (h₁ h' : Heap) :
    ℕ → Prop
  | null (fl' : ℕ → List ℕ) (wf : T.WF R₁ L fl' h') (keeps : T.Keeps L h₁ h') :
      Reallocated T R₁ L m size h₁ h' 0
  | block (m' s : ℕ) (room : size + T.dataOffset ≤ s) (moved : T.Moved R₁ L m m' s h₁ h') :
      Reallocated T R₁ L m size h₁ h' (m' + T.dataOffset)

/-- **`nrealloc`** on a block of the client. -/
theorem WF.nrealloc (hw : T.WF R L fl h) (hm : m ∈ L) (hf : T.Fits size)
    (hx : x = T.sbrkRequest h (T.szneed size)) (ha : Answer T R h (sbrk x) x R') :
    ∃ p h' k R1, T.nrealloc h sbrk (m + T.dataOffset) size = .ok (p, h') ∧
      Ledger R R' (sbrk x) x h k R1 ∧ Reallocated T R1 L m size k h' p := by
  obtain ⟨hr, hro⟩ := hf.szneed
  have hpos := T.dataOffset_pos
  have h0 := hw.lastsbrk_ne_zero (.inl (.inl hm))
  have hs : Ledger R R' (sbrk x) x h h R := .inl ⟨rfl, rfl⟩
  have hok : (T.isFree h m || T.fouled h m) = false := by
    simp [hw.isFree_false hm, fouled, h0, (hw.live m hm).1]
  unfold Target.nrealloc
  rw [if_neg (by omega)]
  dsimp only
  rw [Nat.add_sub_cancel, ← Target.szneed, hok, if_neg (by simp)]
  split_ifs with h1 h2
  · -- the block is large enough already
    obtain ⟨h', fl', hrun, hw', hk, hsz, hd⟩ := hw.trim hm hr h1
    refine ⟨_, h', h, R, by rw [hrun]; rfl, hs, .block m (T.szneed size) hro ?_⟩
    exact moved_self hw' hm hk hsz fun i g1 _ g3 => hd (m + i) (by omega) (by omega)
  · exact ⟨0, h, h, R, rfl, hs, .null fl hw (Keeps.refl ..)⟩
  obtain ⟨m', h', k, R1, hrun, hled, hg⟩ := hw.growblock hm hr (by omega) (by omega) hx ha
  rw [hrun]
  cases hg with
  | null fl' hw' hk => exact ⟨0, h', k, R1, rfl, hled, .null fl' hw' hk⟩
  | moved _ hm0 hmv => exact ⟨_, h', k, R1, if_pos hm0, hled,
      .block m' (T.szneed size) hro hmv⟩

end Target

end Nmalloc
