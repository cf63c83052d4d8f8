import Dj64.Malloc.Freeing

/-!
# Making blocks for the client

Blocks for the client come from the head of a free list (`takefree`), from the lower part of
`lastsbrk` (`splitLast`), or from a block it already has (`trim`, `growlast`).
-/

namespace Nmalloc

open Set

variable {T : Target} {h h' g g' : Heap} {R : Set (ℕ × ℕ)} {L K B : Set ℕ} {fl fl' : ℕ → List ℕ}
  {a b m s x ls : ℕ}

namespace Target

/-- A size as `roundup` produces it. -/
structure Rounded (T : Target) (s : ℕ) : Prop where
  least : T.minsave ≤ s
  aligned : align ∣ s

theorem freeHeader_le_minsave : T.freeHeader ≤ T.minsave := by
  have := T.ptr_cases
  unfold freeHeader minsave dataOffset align
  omega

theorem dataOffset_le_minsave (T : Target) : T.dataOffset ≤ T.minsave := Nat.le_add_left _ _

/-- Cutting a block of the client leaves the upper part to be freed. -/
theorem WF.split (hw : T.WF R L fl h) (hm : m ∈ L) (hs : T.Rounded s)
    (hsi : s + T.minsave ≤ T.get h m .sz) :
    ∃ h', T.split h m s = .ok (m + s, h') ∧ T.Freeing R L fl (m + s) h' ∧
      T.get h' (m + s) .prev = m ∧ T.Keeps (L \ {m}) h h' ∧ T.get h' m .sz = s ∧
      ∀ x, m + T.dataOffset ≤ x → x < m + s → h'.mem x = h.mem x := by
  have hmB : m ∈ inUse L h.lastsbrk := .inl hm
  have hdo := T.dataOffset_pos
  have hle := T.dataOffset_le_minsave
  have hle' := T.freeHeader_le_minsave
  have hmin := hs.least
  have hnew := hw.inv.not_mem_inside (s := s) (.inl hmB) (by omega) (by omega)
  have hl : h.lastsbrk ≠ 0 → h.lastsbrk ∈ inUse L h.lastsbrk \ {m} := fun h0 =>
    ⟨.inr ⟨rfl, h0⟩, fun heq => (hw.last h0).1 (heq ▸ hm)⟩
  obtain ⟨h', hrun, hc⟩ := split_spec hw.inv hmB (by omega) (by omega) hs.aligned
    (K := inUse L h.lastsbrk \ {m}) sdiff_subset nofun
  have hls : h'.lastsbrk = h.lastsbrk := congrFun hc.freehdrs 0
  refine ⟨h', hrun, ⟨?_, fun h => hnew (.inl (.inl h)), ?_, ?_, ?_, ?_⟩, hc.upPrev, ?_,
    hc.sz, hc.data⟩
  · rw [hls, ← inUse_insert]
    exact hc.inv
  · rw [hc.upSz]; omega
  · intro a ha
    by_cases ham : a = m
    · subst ham
      rw [hc.mark, hc.sz]
      exact ⟨rfl, by omega⟩
    · have haK : a ∈ inUse L h.lastsbrk \ {m} := ⟨.inl ha, ham⟩
      rw [hc.keeps.get haK (by simp), hc.keeps.get haK (by simp)]
      exact hw.live a ha
  · rw [hls]
    intro h0
    obtain ⟨h1, h2, h3⟩ := hw.last h0
    rw [hc.keeps.get (hl h0) (by simp), hc.keeps.get (hl h0) (by simp)]
    exact ⟨h1, fun heq => hnew (.inl (.inr ⟨heq.symm, h0⟩)), h2, h3⟩
  · rw [hls]; exact hw.lastsbrk_ne_zero (.inl hmB)
  · exact hc.keeps.mono fun a ha => ⟨.inl ha.1, ha.2⟩

theorem WF.cutoff (hw : T.WF R L fl h) (hm : m ∈ L) (hs : T.Rounded s)
    (hsi : s + T.minsave ≤ T.get h m .sz) :
    ∃ h' fl', (do
        let (m1, h) ← T.split h m s
        let h ← T.mv2freelist h m1
        return (m, h)) = (.ok (m, h') : Except Fault _) ∧ T.WF R L fl' h' ∧ T.Keeps (L \ {m}) h h' ∧
      T.get h' m .sz = s ∧ ∀ x, m + T.dataOffset ≤ x → x < m + s → h'.mem x = h.mem x := by
  obtain ⟨g, hrun, hf, hp, hk, hsz, hd⟩ := hw.split hm hs hsi
  have hb : ¬ Free fl (T.get g (m + s) .prev) := by
    rw [hp]
    exact hw.inv.inUse m (.inl hm)
  obtain ⟨g', fl2, hrun2, hw2, hk2⟩ := hf.mv2freelist hb
  have hsz2 : T.get g' m .sz = s := by rw [hk2.get hm (by simp), hsz]
  refine ⟨g', fl2, ?_, hw2, hk.trans (hk2.mono sdiff_subset), hsz2, fun x h1 h2 => ?_⟩
  · rw [hrun, ok_bind]
    simp only [hrun2]
    rfl
  · rw [hk2.data m hm x h1 (by rw [hsz]; exact h2)]
    exact hd x h1 h2

/-- **`trim`** keeps a block and the data it needs. -/
theorem WF.trim (hw : T.WF R L fl h) (hm : m ∈ L) (hs : T.Rounded s) (hle : s ≤ T.get h m .sz) :
    ∃ h' fl', T.trim h m s = .ok (m, h') ∧ T.WF R L fl' h' ∧ T.Keeps (L \ {m}) h h' ∧
      s ≤ T.get h' m .sz ∧ ∀ x, m + T.dataOffset ≤ x → x < m + s → h'.mem x = h.mem x := by
  unfold Target.trim
  by_cases hmin : T.minsave ≤ T.get h m .sz - s
  · obtain ⟨h', fl', hrun, hw', hk, hsz, hd⟩ := hw.cutoff hm hs (by omega)
    refine ⟨h', fl', ?_, hw', hk, hsz.ge, hd⟩
    rw [if_pos hmin]
    exact hrun
  · refine ⟨h, fl, ?_, hw, Keeps.refl .., hle, fun _ _ _ => rfl⟩
    rw [if_neg hmin]
    rfl

/-! ### Allocation from the free lists -/

theorem scanfree_le (h : Heap) (fuel : ℕ) : ∀ b, b ≤ scanfree h fuel b ∧
    scanfree h fuel b ≤ b + fuel ∧
    (scanfree h fuel b < b + fuel → h.freehdrs (scanfree h fuel b) ≠ 0) := by
  induction fuel with
  | zero => intro b; simp [scanfree]
  | succ fuel ih =>
    intro b
    rw [scanfree]
    split_ifs with h0
    · obtain ⟨h1, h2, h3⟩ := ih (b + 1)
      exact ⟨by omega, by omega, fun hlt => h3 (by omega)⟩
    · exact ⟨le_rfl, by omega, fun _ => h0⟩

/-- **`searchfree`** finds a list whose head is large enough. -/
theorem WF.searchfree (hw : T.WF R L fl h) (hs : s < 2 ^ 31) (hs0 : 0 < s)
    (h0 : T.searchfree h s ≠ 0) :
    T.searchfree h s < T.nflists ∧ h.freehdrs (T.searchfree h s) ≠ 0 ∧
      s ≤ T.get h (h.freehdrs (T.searchfree h s)) .sz := by
  have hs32 : s < 2 ^ 32 := by omega
  have hb : size2bucket s ≤ 31 := size2bucket_le hs32 hs
  have hn : 32 ≤ T.nflists := by
    have := T.ptr_cases
    unfold nflists
    omega
  revert h0
  unfold Target.searchfree
  dsimp only
  by_cases hc : h.freehdrs (size2bucket s) = 0 ∨ T.get h (h.freehdrs (size2bucket s)) .sz < s
  · obtain ⟨h1, h2, h3⟩ := scanfree_le h (T.nflists - (size2bucket s + 1)) (size2bucket s + 1)
    split_ifs with hlt
    · intro _
      have hne := h3 (by omega)
      obtain ⟨l, hl⟩ := hw.inv.lists.head_mem (by omega) hlt hne
      refine ⟨hlt, hne, ?_⟩
      have hmem : h.freehdrs (scanfree h (T.nflists - (size2bucket s + 1)) (size2bucket s + 1)) ∈
          fl (scanfree h (T.nflists - (size2bucket s + 1)) (size2bucket s + 1)) := by
        rw [hl]; simp
      have hbk := hw.inv.lists.bucket _ _ hmem
      have hlt32 := (hw.inv.sz_lt (.inr ⟨_, hmem⟩)).1
      exact (lt_of_size2bucket_lt hs32 hlt32 (by rw [hbk]; omega)).le
    · exact fun h => absurd rfl h
  · rw [if_neg hc, if_pos (by omega)]
    push Not at hc
    exact fun _ => ⟨by omega, hc⟩

/-- The head of a free list becomes a block of the client. -/
theorem WF.rmvfromfree (hw : T.WF R L fl h) {l : List ℕ} (hb : fl b = m :: l) :
    ∃ h' fl', T.rmvfromfree h m = .ok h' ∧ T.WF R (insert m L) fl' h' ∧ T.Keeps L h h' ∧ m ∉ L ∧
      T.get h' m .sz = T.get h m .sz := by
  have hm : Free fl m := ⟨b, by simp [hb]⟩
  have hmB : m ∉ inUse L h.lastsbrk := fun h => hw.inv.inUse m h hm
  obtain ⟨h', fl', hrun, hr, hf, hma⟩ := rmvfromfree_spec hw.inv hb (le_refl (inUse L h.lastsbrk))
  have hsz := (hr.chain m (.inr hm)).2.2
  have hls := hr.last
  refine ⟨h', fl', hrun, ⟨?_, ?_, ?_, ?_⟩, hr.keeps.mono fun a ha => .inl ha, fun h =>
    hmB (.inl h), hsz⟩
  · rw [hls, ← inUse_insert]
    exact hr.inv
  · rintro a (rfl | ha)
    · rw [hma, hsz]
      exact ⟨rfl, hw.inv.large a hm⟩
    · exact hr.keeps.live (fun a ha => .inl ha) hw.live a ha
  · rw [hls]
    intro h0
    have hlB : h.lastsbrk ∈ inUse L h.lastsbrk := .inr ⟨rfl, h0⟩
    obtain ⟨h1, h2, h3⟩ := hw.last h0
    rw [hr.keeps.get hlB (by simp), hr.keeps.get hlB (by simp)]
    exact ⟨fun hc => hc.elim (fun h => hmB (h ▸ hlB)) h1, h2, h3⟩
  · rw [hls]; exact hw.anchored

/-- **`takefree`** makes a block of the client out of the head of a free list. -/
theorem WF.takefree (hw : T.WF R L fl h) (hb0 : b ≠ 0) (hb : b < T.nflists)
    (hne : h.freehdrs b ≠ 0) (hs : T.Rounded s) (hle : s ≤ T.get h (h.freehdrs b) .sz) :
    ∃ h' fl', T.takefree h b s = .ok (h.freehdrs b, h') ∧
      T.WF R (insert (h.freehdrs b) L) fl' h' ∧ T.Keeps L h h' ∧ h.freehdrs b ∉ L ∧
      s ≤ T.get h' (h.freehdrs b) .sz := by
  obtain ⟨l, hl⟩ := hw.inv.lists.head_mem hb0 hb hne
  obtain ⟨g, fl1, hrun, hw1, hk, hmL, hsz⟩ := hw.rmvfromfree hl
  unfold Target.takefree
  dsimp only
  rw [hrun]
  simp only [ok_bind]
  by_cases hlt : T.get g (h.freehdrs b) .sz < s + T.minsave
  · refine ⟨g, fl1, ?_, hw1, hk, hmL, by rw [hsz]; exact hle⟩
    rw [if_pos hlt]
    rfl
  · obtain ⟨g', fl2, hrun2, hw2, hk2, hsz2, -⟩ := hw1.cutoff (.inl rfl) hs (by omega)
    refine ⟨g', fl2, ?_, hw2, hk.trans (hk2.mono ?_), hmL, hsz2.ge⟩
    · rw [if_neg hlt]
      exact hrun2
    · exact fun a ha => ⟨.inr ha, fun heq => hmL (heq ▸ ha)⟩

/-! ### Allocation from `lastsbrk` -/

/-- The upper part of a cut becomes `lastsbrk`. -/
theorem Cut.wf (hc : Cut T R B fl ls (B \ {m}) m s h h')
    (hB : B = insert m L) (hmL : m ∉ L) (hm0 : m ≠ 0)
    (hm : T.get h m .nextfree = 0) (hn : T.get h m .next = 0) (hs : T.freeHeader ≤ s)
    (hl : ∀ a ∈ L, T.get h a .nextfree = 0 ∧ T.freeHeader ≤ T.get h a .sz)
    (hnew : m + s ∉ B) (hmf : ¬ Free fl m) : T.WF R (insert m L) fl (h'.setLastsbrk (m + s)) := by
  subst hB
  have hls := lastsbrk_setLastsbrk h' (m + s)
  have h0 : m + s ≠ 0 := by omega
  refine ⟨?_, ?_, ?_, fun _ => by rw [hls]; exact h0⟩
  · rw [hls, inUse_of_ne h0]
    refine (hc.inv.setLast (below_of_prev hc.inv h0 ?_)).congr ?_ (fun _ _ => ⟨rfl, rfl, rfl⟩)
      fun _ _ => ⟨rfl, rfl⟩
    · rw [hc.upPrev]; exact hmf
    · exact fun b hb => Function.update_of_ne hb ..
  · rintro a (rfl | ha)
    · show T.get h' a .nextfree = 0 ∧ _ ≤ T.get h' a .sz
      rw [hc.mark, hc.sz]
      exact ⟨rfl, hs⟩
    · exact hc.keeps.live (L := L) (fun a ha => ⟨.inr ha, fun heq => hmL (heq ▸ ha)⟩) hl a ha
  · intro _
    refine ⟨hnew, ?_, ?_⟩
    · exact hc.upMark.trans hm
    · exact hc.upNext.trans hn

theorem Keeps.setLastsbrk (hk : T.Keeps K h h') (m : ℕ) : T.Keeps K h (h'.setLastsbrk m) :=
  ⟨hk.header, hk.data, hk.sbrks, hk.linked⟩

/-- **`splitLast`** makes a block of the client out of the lower part of `lastsbrk`. -/
theorem WF.splitLast (hw : T.WF R L fl h) (h0 : h.lastsbrk ≠ 0) (hs : T.Rounded s)
    (hsi : s + T.dataOffset ≤ T.get h h.lastsbrk .sz) :
    ∃ h', T.splitLast h s = .ok (h.lastsbrk, h') ∧ T.WF R (insert h.lastsbrk L) fl h' ∧
      T.Keeps L h h' ∧ h.lastsbrk ∉ L ∧ T.get h' h.lastsbrk .sz = s := by
  have hmB : h.lastsbrk ∈ inUse L h.lastsbrk := .inr ⟨rfl, h0⟩
  obtain ⟨hL, hm, hn⟩ := hw.last h0
  have hdo := T.dataOffset_pos
  have hle := T.dataOffset_le_minsave
  have hle' := T.freeHeader_le_minsave
  have hmin := hs.least
  obtain ⟨h', hrun, hc⟩ := split_spec hw.inv hmB (by omega) hsi hs.aligned
    (K := inUse L h.lastsbrk \ {h.lastsbrk}) sdiff_subset nofun
  have hB := inUse_of_ne h0 L
  have hnew := hw.inv.not_mem_inside (s := s) (.inl hmB) (by omega) (by omega)
  refine ⟨h'.setLastsbrk (h.lastsbrk + s), ?_, ?_, ?_, hL, hc.sz⟩
  · unfold Target.splitLast
    simp only [hrun]
    rfl
  · exact hc.wf hB hL h0 hm hn (by omega) hw.live (fun h => hnew (.inl h)) (hw.inv.inUse _ hmB)
  · refine (hc.keeps.mono fun a ha => ?_).setLastsbrk _
    exact ⟨.inl ha, fun heq => hL (heq ▸ ha)⟩

/-- **`growlast`** extends a block of the client into the adjacent `lastsbrk`. -/
theorem WF.growlast (hw : T.WF R L fl h) (hm : m ∈ L) (hn : T.get h m .next = h.lastsbrk)
    (hs : T.Rounded s) (hsi : s + T.dataOffset ≤ T.get h m .sz + T.get h h.lastsbrk .sz) :
    ∃ h', T.growlast h m s = .ok (m, h') ∧ T.WF R L fl h' ∧ T.Keeps (L \ {m}) h h' ∧
      T.get h' m .sz = s ∧ ∀ x, m + T.dataOffset ≤ x → x < m + T.get h m .sz → x < m + s →
        h'.mem x = h.mem x := by
  have h0 := hw.lastsbrk_ne_zero (.inl (.inl hm))
  obtain ⟨hL, hmar, hne⟩ := hw.last h0
  obtain ⟨hma, hla⟩ := hw.live m hm
  have hdo := T.dataOffset_pos
  have hle := T.dataOffset_le_minsave
  have hle' := T.freeHeader_le_minsave
  have hmin := hs.least
  have hB : inUse L h.lastsbrk \ {h.lastsbrk} = insert m (L \ {m}) := by
    rw [inUse_sdiff_self h0 hL, insert_sdiff_singleton, insert_eq_of_mem hm]
  have hnB : T.get h m .next ∈ inUse L h.lastsbrk := by
    rw [hn]
    exact .inr ⟨rfl, h0⟩
  obtain ⟨g, hrun, hg, hu⟩ := combinehi_last_spec hw.inv (.inl hm) (hn ▸ h0) hnB hn (K := L \ {m})
    (fun a ha => .inl ha.1) nofun
  rw [hn, hB] at hg
  have hm1 : m ∈ insert m (L \ {m}) := .inl rfl
  have hsize1 : s + T.dataOffset ≤ T.get g m .sz := by rw [hg.sz]; exact hsi
  obtain ⟨g', hrun2, hc⟩ := split_spec hg.inv hm1 (by omega) hsize1 hs.aligned
    (K := insert m (L \ {m}) \ {m}) sdiff_subset nofun
  have hnew := hg.inv.not_mem_inside (s := s) (.inl hm1) (by omega) (by omega)
  have hl := hg.keeps.live le_rfl fun a ha => hw.live a ha.1
  have hwf := hc.wf rfl nofun (hg.inv.ne_zero (.inl hm1)) (hu.mark.trans hma)
    (hg.next.trans hne) (by omega) hl (fun h => hnew (.inl h)) (hg.inv.inUse _ hm1)
  rw [insert_sdiff_singleton, insert_eq_of_mem hm] at hwf
  refine ⟨_, ?_, hwf, ?_, hc.sz, fun x h1 h2 h3 => ?_⟩
  · unfold Target.growlast
    simp only [hrun, hrun2, ok_bind]
    rfl
  · refine (hg.keeps.trans (hc.keeps.mono fun a ha => ?_)).setLastsbrk _
    exact ⟨.inr ha, ha.2⟩
  · exact (hc.data x h1 h3).trans (hu.data x h1 h2)

end Target

end Nmalloc
