import Dj64.Malloc.Neighbours

/-!
# Freeing blocks of a well-formed heap

`WF R L fl h` is the invariant between calls: the blocks in use are the client's blocks `L` and
`lastsbrk`, which ends its chain, and the client's blocks are marked in use and large enough to be
freed.  `Freeing R L fl m h` allows one more block, on its way to the free lists.
-/

namespace Nmalloc

open Set

variable {T : Target} {h h' h1 h2 : Heap} {R : Set (ℕ × ℕ)} {L K : Set ℕ} {fl fl' : ℕ → List ℕ}
  {a b m n ls : ℕ} {f : Field}

/-- The blocks in use: those of the client and `lastsbrk`. -/
def inUse (L : Set ℕ) (ls : ℕ) : Set ℕ := {a | a ∈ L ∨ (a = ls ∧ ls ≠ 0)}

theorem inUse_zero (L : Set ℕ) : inUse L 0 = L := by
  simp [inUse]

theorem inUse_of_ne (h0 : ls ≠ 0) (L : Set ℕ) : inUse L ls = insert ls L := by
  ext a
  simp [inUse, h0, or_comm]

theorem inUse_insert (m : ℕ) (L : Set ℕ) (ls : ℕ) :
    insert m (inUse L ls) = inUse (insert m L) ls := by
  ext a
  simp only [inUse, mem_ofPred_eq, mem_insert_iff, or_assoc]

theorem inUse_sdiff_self (h0 : ls ≠ 0) (hL : ls ∉ L) : inUse L ls \ {ls} = L := by
  rw [inUse_of_ne h0, insert_sdiff_self_of_notMem hL]

theorem inUse_sdiff (hm : ls ≠ 0 → ls ≠ m) : inUse L ls \ {m} = inUse (L \ {m}) ls := by
  by_cases h0 : ls = 0
  · rw [h0, inUse_zero, inUse_zero]
  · rw [inUse_of_ne h0, inUse_of_ne h0, insert_sdiff_of_notMem]
    exact fun heq => hm h0 heq

namespace Target

/-- A well-formed heap with the client's blocks `L`. -/
structure WF (T : Target) (R : Set (ℕ × ℕ)) (L : Set ℕ) (fl : ℕ → List ℕ) (h : Heap) : Prop where
  inv : Inv T (T.get h) h.freehdrs R (inUse L h.lastsbrk) fl h.lastsbrk
  live : ∀ a ∈ L, T.get h a .nextfree = 0 ∧ T.freeHeader ≤ T.get h a .sz
  last : h.lastsbrk ≠ 0 → h.lastsbrk ∉ L ∧ T.get h h.lastsbrk .nextfree = 0 ∧
    T.get h h.lastsbrk .next = 0
  anchored : R.Nonempty → h.lastsbrk ≠ 0

/-- A well-formed heap with one more block `m`, whose mark may have any value. -/
structure Freeing (T : Target) (R : Set (ℕ × ℕ)) (L : Set ℕ) (fl : ℕ → List ℕ) (m : ℕ) (h : Heap) :
    Prop where
  inv : Inv T (T.get h) h.freehdrs R (inUse (insert m L) h.lastsbrk) fl h.lastsbrk
  fresh : m ∉ L
  large : T.freeHeader ≤ T.get h m .sz
  live : ∀ a ∈ L, T.get h a .nextfree = 0 ∧ T.freeHeader ≤ T.get h a .sz
  last : h.lastsbrk ≠ 0 → h.lastsbrk ∉ L ∧ h.lastsbrk ≠ m ∧ T.get h h.lastsbrk .nextfree = 0 ∧
    T.get h h.lastsbrk .next = 0
  anchored : h.lastsbrk ≠ 0

theorem WF.lastsbrk_ne_zero (hw : T.WF R L fl h) (ha : a ∈ blocks (inUse L h.lastsbrk) fl) :
    h.lastsbrk ≠ 0 := by
  obtain ⟨r, hr, -⟩ := hw.inv.region ha
  exact hw.anchored ⟨r, hr⟩

theorem WF.freeing (hw : T.WF R L fl h) (hm : m ∈ L) : T.Freeing R (L \ {m}) fl m h where
  inv := by
    rw [insert_sdiff_singleton, insert_eq_of_mem hm]
    exact hw.inv
  fresh := by simp
  large := (hw.live m hm).2
  live a ha := hw.live a ha.1
  last h0 := by
    obtain ⟨h1, h2⟩ := hw.last h0
    exact ⟨fun h => h1 h.1, fun h => h1 (h ▸ hm), h2⟩
  anchored := hw.lastsbrk_ne_zero (.inl (.inl hm))

theorem Keeps.live (hk : T.Keeps K h h') (hK : L ⊆ K)
    (hl : ∀ a ∈ L, T.get h a .nextfree = 0 ∧ T.freeHeader ≤ T.get h a .sz) :
    ∀ a ∈ L, T.get h' a .nextfree = 0 ∧ T.freeHeader ≤ T.get h' a .sz := by
  intro a ha
  rw [hk.get (hK ha) (by simp), hk.get (hK ha) (by simp)]
  exact hl a ha

section

variable (hf : T.Freeing R L fl m h)
include hf

theorem Freeing.inUse_sdiff_self : inUse (insert m L) h.lastsbrk \ {m} = inUse L h.lastsbrk := by
  rw [inUse_sdiff fun h0 => (hf.last h0).2.1, insert_sdiff_self_of_notMem hf.fresh]

/-- **`mv2freelist`** on a well-formed heap. -/
theorem Freeing.mv2freelist (hb : ¬ Free fl (T.get h m .prev)) :
    ∃ h' fl', T.mv2freelist h m = .ok h' ∧ T.WF R L fl' h' ∧ T.Keeps L h h' := by
  have hmB : m ∈ inUse (insert m L) h.lastsbrk := .inl (.inl rfl)
  obtain ⟨h', fl', hrun, hfr⟩ := mv2freelist_spec hf.inv hmB hf.large hb (by
      rintro a (ha | ⟨rfl, h0⟩) ham
      · exact (hf.live a (ha.resolve_left ham)).1
      · exact (hf.last h0).2.2.1)
    fun h0 => ⟨.inr ⟨rfl, h0⟩, (hf.last h0).2.2.2⟩
  refine ⟨h', fl', hrun, ?_⟩
  cases hfr with
  | linked inv keeps last =>
    rw [hf.inUse_sdiff_self] at inv keeps
    have hL : L ⊆ inUse L h.lastsbrk := fun a ha => .inl ha
    refine ⟨⟨by rw [last]; exact inv, keeps.live hL hf.live, ?_,
      fun _ => by rw [last]; exact hf.anchored⟩, keeps.mono hL⟩
    rw [last]
    intro h0
    have hls : h.lastsbrk ∈ inUse L h.lastsbrk := .inr ⟨rfl, h0⟩
    rw [keeps.get hls (by simp), keeps.get hls (by simp)]
    exact ⟨(hf.last h0).1, (hf.last h0).2.2⟩
  | merged old old_ne inv keeps last mark next =>
    have hB : inUse (insert m L) h.lastsbrk \ {h.lastsbrk} = inUse L m := by
      rw [Nmalloc.inUse_sdiff_self old_ne fun hmem =>
        (hmem.elim (hf.last old_ne).2.1 (hf.last old_ne).1),
        inUse_of_ne (hf.inv.ne_zero (.inl hmB))]
    have hL : L ⊆ inUse (insert m L) h.lastsbrk \ {m, h.lastsbrk} := by
      intro a ha
      refine ⟨.inl (.inr ha), ?_⟩
      rintro (rfl | rfl)
      · exact hf.fresh ha
      · exact (hf.last old_ne).1 ha
    rw [hB] at inv
    refine ⟨⟨by rw [last]; exact inv, keeps.live hL hf.live, ?_,
      fun _ => by rw [last]; exact hf.inv.ne_zero (.inl hmB)⟩, keeps.mono hL⟩
    rw [last]
    exact fun _ => ⟨hf.fresh, mark, next⟩

theorem Freeing.isFree_false (ha : a ≠ 0 → a ∈ blocks
    (inUse (insert m L) h.lastsbrk) fl) (ham : a ≠ m) (hfr : ¬ Free fl a) :
    T.isFree h a = false := by
  refine isFree_eq_false fun h0 => ?_
  rcases (ha h0).resolve_right hfr with h1 | ⟨rfl, h1⟩
  · exact (hf.live a (h1.resolve_left ham)).1
  · exact (hf.last h1).2.2.1

theorem Freeing.next_mem (h0 : T.get h m .next ≠ 0) :
    T.get h m .next ∈ blocks (inUse (insert m L) h.lastsbrk) fl :=
  (hf.inv.tiled.next_spec (.inl (.inl (.inl rfl))) h0).2.1

theorem Freeing.prev_spec (h0 : T.get h m .prev ≠ 0) :
    T.get h m .prev ∈ blocks (inUse (insert m L) h.lastsbrk) fl ∧
      T.get h (T.get h m .prev) .next = m ∧ T.get h m .prev ≠ m := by
  have hmb : m ∈ blocks (inUse (insert m L) h.lastsbrk) fl := .inl (.inl (.inl rfl))
  obtain ⟨h1, h2, h3⟩ := hf.inv.tiled.prev_spec hmb h0
  have hk := hf.inv.dataOffset_le h1
  have := T.dataOffset_pos
  exact ⟨h1, h3, by omega⟩

theorem Freeing.next_ne_last (hn : Free fl (T.get h m .next)) : T.get h m .next ≠ h.lastsbrk := by
  intro heq
  rw [heq] at hn
  have h0 : h.lastsbrk ≠ 0 := hf.inv.ne_zero (B := inUse (insert m L) h.lastsbrk) (.inr hn)
  exact hf.inv.inUse _ (.inr ⟨rfl, h0⟩) hn

theorem Freeing.inUse_subset :
    inUse L h.lastsbrk ⊆ inUse (insert m L) h.lastsbrk ∧ m ∉ inUse L h.lastsbrk := by
  refine ⟨fun a ha => ha.imp (fun h => .inr h) id, ?_⟩
  rintro (h1 | ⟨rfl, h1⟩)
  · exact hf.fresh h1
  · exact (hf.last h1).2.1 rfl

end

theorem Keeps.freeing (hk : T.Keeps (inUse L h.lastsbrk) h h') (hf : T.Freeing R L fl m h)
    (hinv : Inv T (T.get h') h'.freehdrs R (inUse (insert n L) h.lastsbrk) fl' h.lastsbrk)
    (hn : n ∉ inUse L h.lastsbrk) (hla : T.freeHeader ≤ T.get h' n .sz)
    (hl : h'.lastsbrk = h.lastsbrk) : T.Freeing R L fl' n h' where
  inv := by rw [hl]; exact hinv
  fresh h := hn (.inl h)
  large := hla
  live := hk.live (fun _ ha => .inl ha) hf.live
  last h0 := by
    rw [hl] at h0 ⊢
    have hls : h.lastsbrk ∈ inUse L h.lastsbrk := .inr ⟨rfl, h0⟩
    obtain ⟨h1, -, h2, h3⟩ := hf.last h0
    rw [hk.get hls (by simp), hk.get hls (by simp)]
    exact ⟨h1, fun h => hn (h ▸ hls), h2, h3⟩
  anchored := by rw [hl]; exact hf.anchored

section

variable (hf : T.Freeing R L fl m h)
include hf

theorem Freeing.combinehi (hn : Free fl (T.get h m .next)) :
    ∃ h' fl', T.combinehi h m = .ok h' ∧ T.Freeing R L fl' m h' ∧ T.Keeps L h h' ∧
      SameUser T m h h' ∧ ¬ Free fl' (T.get h' m .next) ∧
      T.get h' m .sz = T.get h m .sz + T.get h (T.get h m .next) .sz := by
  obtain ⟨hsub, hmK⟩ := hf.inUse_subset
  obtain ⟨h', fl', hrun, hg, hu, hfr⟩ := combinehi_free_spec hf.inv (.inl (.inl rfl)) hn
    (hf.next_ne_last hn) hsub hmK
  refine ⟨h', fl', hrun, hg.keeps.freeing hf hg.inv hmK ?_ hg.last,
    hg.keeps.mono fun a ha => .inl ha, hu, ?_, hg.sz⟩
  · rw [hg.sz]
    exact hf.large.trans (Nat.le_add_right _ _)
  · rw [hg.next, hfr]
    exact fun hc => (hf.inv.aboveFree _ hn).1 hc.1

/-- Joining `m` to the free block below hands the freeing over to that block. -/
theorem Freeing.combinelo (hp : Free fl (T.get h m .prev)) :
    ∃ h' fl', T.combinelo h m = .ok (T.get h m .prev, h') ∧
      T.Freeing R L fl' (T.get h m .prev) h' ∧ T.Keeps L h h' ∧
      ¬ Free fl' (T.get h' (T.get h m .prev) .prev) := by
  obtain ⟨hsub, hmK⟩ := hf.inUse_subset
  have hpn : T.get h m .prev ∉ inUse L h.lastsbrk := fun h => hf.inv.inUse _ (hsub h) hp
  obtain ⟨h', fl', hrun, hg, -, hfr⟩ := combinelo_spec hf.inv (.inl (.inl rfl)) hp hsub
  refine ⟨h', fl', hrun, hg.keeps.freeing hf ?_ hpn ?_ hg.last,
    hg.keeps.mono fun a ha => .inl ha, ?_⟩
  · rw [← inUse_insert, ← hf.inUse_sdiff_self]
    exact hg.inv
  · rw [hg.sz]
    exact (hf.inv.large _ hp).trans (Nat.le_add_right _ _)
  -- two free blocks would have been neighbours before
  rw [hg.prev, hfr]
  rintro ⟨hpp, -⟩
  have hpp0 : T.get h (T.get h m .prev) .prev ≠ 0 :=
    hf.inv.ne_zero (B := inUse (insert m L) h.lastsbrk) (.inr hpp)
  have hnn := (hf.inv.tiled.prev_spec (.inr hp) hpp0).2.2
  exact (hf.inv.aboveFree _ hpp).1 (by rw [hnn]; exact hp)

theorem Freeing.prev_ne_last : ¬ (h.lastsbrk ≠ 0 ∧ h.lastsbrk = T.get h m .prev) := by
  rintro ⟨h0, heq⟩
  have h1 := (hf.prev_spec (heq ▸ h0)).2.1
  rw [← heq, (hf.last h0).2.2.2] at h1
  exact hf.inv.ne_zero (.inl (.inl (.inl rfl))) h1.symm

theorem Freeing.releaseLow : ∃ h' fl', (do
        let (m, h) ← if T.isFree h (T.get h m .prev) then T.combinelo h m else .ok (m, h)
        if h.lastsbrk ≠ 0 ∧ h.lastsbrk = T.get h m .prev then return h
        else T.mv2freelist h m) = .ok h' ∧ T.WF R L fl' h' ∧ T.Keeps L h h' := by
  by_cases hp : Free fl (T.get h m .prev)
  · obtain ⟨h1, fl1, hrun, hf1, hk, hlow⟩ := hf.combinelo hp
    obtain ⟨h2, fl2, hrun2, hw, hk2⟩ := hf1.mv2freelist hlow
    refine ⟨h2, fl2, ?_, hw, hk.trans hk2⟩
    simp only [if_pos (isFree_of_free hf.inv hp), hrun, ok_bind, if_neg hf1.prev_ne_last, hrun2]
  have hfa : T.isFree h (T.get h m .prev) = false := by
    by_cases h0 : T.get h m .prev = 0
    · simp [isFree, h0]
    · exact hf.isFree_false (fun h0 => (hf.prev_spec h0).1) (hf.prev_spec h0).2.2 hp
  obtain ⟨h2, fl2, hrun2, hw, hk2⟩ := hf.mv2freelist hp
  refine ⟨h2, fl2, ?_, hw, hk2⟩
  simp only [hfa, Bool.false_eq_true, if_false, ok_bind, if_neg hf.prev_ne_last, hrun2]

/-- `dofree` once the block is marked. -/
theorem Freeing.release : ∃ h' fl', (do
        let h ← if T.isFree h (T.get h m .next) then T.combinehi h m else .ok h
        let (m, h) ← if T.isFree h (T.get h m .prev) then T.combinelo h m else .ok (m, h)
        if h.lastsbrk ≠ 0 ∧ h.lastsbrk = T.get h m .prev then return h
        else T.mv2freelist h m) = .ok h' ∧ T.WF R L fl' h' ∧ T.Keeps L h h' := by
  by_cases hn : Free fl (T.get h m .next)
  · obtain ⟨h1, fl1, hrun, hf1, hk, -⟩ := hf.combinehi hn
    obtain ⟨h2, fl2, hrun2, hw, hk2⟩ := hf1.releaseLow
    refine ⟨h2, fl2, ?_, hw, hk.trans hk2⟩
    rw [if_pos (isFree_of_free hf.inv hn), hrun]
    exact hrun2
  have hfa : T.isFree h (T.get h m .next) = false := by
    by_cases h0 : T.get h m .next = 0
    · simp [isFree, h0]
    · exact hf.isFree_false hf.next_mem (hf.inv.neighbours (.inl (.inl (.inl rfl))) h0).1.symm hn
  obtain ⟨h2, fl2, hrun2, hw, hk2⟩ := hf.releaseLow
  refine ⟨h2, fl2, ?_, hw, hk2⟩
  rw [hfa, if_neg (by simp)]
  exact hrun2

end

/-- **`dofree`**: the block joins its free neighbours and goes to the free lists. -/
theorem WF.dofree (hw : T.WF R L fl h) (hm : m ∈ L) :
    ∃ h' fl', T.dofree h m = .ok h' ∧ T.WF R (L \ {m}) fl' h' ∧ T.Keeps (L \ {m}) h h' := by
  have hf := hw.freeing hm
  obtain ⟨hsub, hmK⟩ := hf.inUse_subset
  -- marking the block free changes nothing the invariant reads
  have e0 := Edits.refl T (blocks (inUse (insert m (L \ {m})) h.lastsbrk) fl)
    (fun a => T.get h a .sz) (inUse (L \ {m}) h.lastsbrk) h
  have hKS : inUse (L \ {m}) h.lastsbrk ⊆ blocks (inUse (insert m (L \ {m})) h.lastsbrk) fl :=
    fun a ha => .inl (hsub ha)
  have e1 := (e0.set hf.inv.apart hKS (b := m) (g := .prevfree) ⟨.inl (.inl (.inl rfl)),
    fun _ => hf.large⟩
    T.none_lt fun _ => hmK).setField hf.inv hsub (a := m) (g := .nextfree) (.inl (.inl (.inl rfl)))
    T.none_lt nofun
  have k1 : T.Keeps (inUse (L \ {m}) h.lastsbrk) h
      (T.set (T.set h m .prevfree T.none) m .nextfree T.none) := by
    refine e1.keeps hsub (fun a ha f _ _ => ?_) rfl id
    have ham : a ≠ m := fun h => hmK (h ▸ ha)
    simp [Records.upd, ham]
  have hf1 :
    T.Freeing R (L \ {m}) fl m (T.set (T.set h m .prevfree T.none) m .nextfree T.none) := by
    refine k1.freeing hf ?_ hmK ?_ rfl
    · refine hf.inv.congr (fun _ _ => rfl) (fun a ha => e1.chain (fun a f h1 h2 => ?_) ha)
        fun a ha => ?_
      · simp [h1, h2]
      · have ham : a ≠ m := fun h => hf.inv.inUse m (.inl (.inl rfl)) (h ▸ ha)
        rw [e1.fields a _ (hf.inv.cell_free ha), e1.fields a _ (hf.inv.cell_free ha)]
        simp [Records.upd, ham]
    · rw [e1.get (.inl (.inl (.inl rfl))) (by simp)]
      simpa using hf.large
  have hk1 : T.Keeps (L \ {m}) h (T.set (T.set h m .prevfree T.none) m .nextfree T.none) :=
    k1.mono fun a ha => .inl ha
  obtain ⟨h', fl', hrun, hw', hk'⟩ := hf1.release
  exact ⟨h', fl', hrun, hw', hk1.trans hk'⟩

theorem WF.isFree_false (hw : T.WF R L fl h) (hm : m ∈ L) : T.isFree h m = false :=
  isFree_eq_false fun _ => (hw.live m hm).1

/-- **`nfree`** frees a block of the client. -/
theorem WF.nfree (hw : T.WF R L fl h) (hm : m ∈ L) :
    ∃ h' fl', T.nfree h (m + T.dataOffset) = .ok h' ∧ T.WF R (L \ {m}) fl' h' ∧
      T.Keeps (L \ {m}) h h' := by
  obtain ⟨h', fl', hrun, hw', hk⟩ := hw.dofree hm
  refine ⟨h', fl', ?_, hw', hk⟩
  have hpos := T.dataOffset_pos
  have h0 := hw.lastsbrk_ne_zero (.inl (.inl hm))
  unfold Target.nfree
  rw [if_pos (by omega)]
  simp only [Nat.add_sub_cancel, hw.isFree_false hm, fouled, h0, (hw.live m hm).1]
  simpa using hrun

end Target

end Nmalloc
