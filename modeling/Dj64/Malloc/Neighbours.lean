import Dj64.Malloc.FreeLists

/-!
# Joining, freeing and cutting blocks

`combinelo`, `combinehi` and `__nmalloc_split` edit the chains; `mv2freelist` joins a block with a
free block or with `lastsbrk` above it, or else links it.
-/

namespace Nmalloc

open Set Records ByteMemory

variable {T : Target} {h h' h₁ h2 : Heap} {R : Set (ℕ × ℕ)} {B K P : Set ℕ} {fl : ℕ → List ℕ}
  {ls a b m n s x : ℕ} {f g : Field} {v : Records} {hd : ℕ → ℕ}

namespace Target

/-! ### Joining neighbours -/

/-- The records after `m` has taken over the block `n` above it. -/
def joined (v : Records) (m n : ℕ) : Records := fun a f =>
  if a = m ∧ f = .next then v n .next
  else if a = m ∧ f = .sz then v m .sz + v n .sz
  else if f = .prev ∧ a = v n .next ∧ a ≠ 0 then m
  else v a f

/-- The writes shared by `combinelo` and `combinehi`. -/
def joinWrites (T : Target) (h : Heap) (m n : ℕ) : Heap :=
  let h := T.set h m .next (T.get h n .next)
  let h := if T.get h m .next ≠ 0 then T.set h (T.get h m .next) .prev m else h
  T.set h m .sz (u32 (T.get h m .sz + T.get h n .sz))

/-- The shared writes, wherever the cells of the two blocks lie. -/
theorem joinWrites_trace {C W : ℕ → Field → Prop} (hC : T.Cells C W P)
    (hm : W m .next ∧ W m .sz) (hn : C n .sz) (hmlt : m < 256 ^ T.ptr)
    (hc : T.get h n .next ≠ 0 → W (T.get h n .next) .prev)
    (hlt : T.get h m .sz + T.get h n .sz < 2 ^ 32) :
    Traced T C P h (T.joinWrites h m n) (joined (T.get h) m n) := by
  have e1 := (Traced.refl T C P h).set hC hm.1 (T.get_lt h n .next)
  have rn : T.get (T.set h m .next (T.get h n .next)) m .next = T.get h n .next :=
    get_set_self T (T.get_lt h n .next)
  have hu : u32 (T.get h m .sz + T.get h n .sz) = T.get h m .sz + T.get h n .sz :=
    Nat.mod_eq_of_lt hlt
  unfold joinWrites
  dsimp only
  rw [rn]
  by_cases h0 : T.get h n .next = 0
  · rw [if_neg (by simpa using h0), e1.fields m .sz (hC.readable _ _ hm.2), e1.fields n .sz hn]
    simp only [ne_eq, reduceCtorEq, not_false_eq_true, upd_of_field_ne]
    refine (e1.set hC hm.2 (v := u32 (T.get h m .sz + T.get h n .sz)) ?_).congr fun a f => ?_
    · rw [hu]
      exact hlt
    · simp only [upd, joined]
      grind
  have e2 := e1.set hC (hc h0) hmlt
  rw [if_pos h0, e2.fields m .sz (hC.readable _ _ hm.2), e2.fields n .sz hn]
  simp only [ne_eq, reduceCtorEq, not_false_eq_true, upd_of_field_ne]
  refine (e2.set hC hm.2 (v := u32 (T.get h m .sz + T.get h n .sz)) ?_).congr fun a f => ?_
  · rw [hu]
    exact hlt
  · simp only [upd, joined]
    grind

theorem joinWrites_edits (hi : Inv T (T.get h) hd R B fl ls) (hm : m ∈ B)
    (hn : T.get h m .next ≠ 0) (hK : K ⊆ B) :
    Edits T (blocks B fl) (fun a => T.get h a .sz) K h (T.joinWrites h m (T.get h m .next))
      (joined (T.get h) m (T.get h m .next)) := by
  have hmb : m ∈ blocks B fl := .inl hm
  obtain ⟨-, hnb, hnn⟩ := hi.neighbours hmb hn
  have ht := joinWrites_trace (Cells.of_inv hi hK) (m := m) (n := T.get h m .next)
    ⟨⟨⟨hmb, by simp⟩, by simp⟩, ⟨hmb, by simp⟩, by simp⟩ ⟨hnb, by simp⟩ (hi.lt_pow hmb)
    (fun h0 => ⟨⟨(hnn h0).1, by simp⟩, by simp⟩) (hi.sz_add_lt hmb hn)
  exact ht.edits fun a ha x h1 h2 => ⟨a, ha, h1, h2⟩

/-- The outcome of joining: the invariant without the upper block, and the joined header. -/
structure Merged (T : Target) (R : Set (ℕ × ℕ)) (B' : Set ℕ) (fl' : ℕ → List ℕ) (ls : ℕ)
    (K : Set ℕ) (m n : ℕ) (h h' : Heap) : Prop where
  inv : Inv T (T.get h') h'.freehdrs R B' fl' ls
  keeps : T.Keeps K h h'
  sz : T.get h' m .sz = T.get h m .sz + T.get h n .sz
  next : T.get h' m .next = T.get h n .next
  prev : T.get h' m .prev = T.get h m .prev
  last : h'.lastsbrk = h.lastsbrk

/-- The mark and the user data of a block are as before; its size may have grown. -/
structure SameUser (T : Target) (m : ℕ) (h h' : Heap) : Prop where
  mark : T.get h' m .nextfree = T.get h m .nextfree
  data : ∀ x, m + T.dataOffset ≤ x → x < m + T.get h m .sz → h'.mem x = h.mem x

theorem Edits.merged (hi : Inv T (T.get h) h.freehdrs R B fl ls) (hm : m ∈ B)
    (hn : T.get h m .next ≠ 0) (hnB : T.get h m .next ∈ B) (hK : K ⊆ B) (hmK : m ∉ K)
    (he : Edits T (blocks B fl) (fun a => T.get h a .sz) (insert m K) h h'
      (joined (T.get h) m (T.get h m .next)))
    (hhd : h'.freehdrs = h.freehdrs) (hs : h'.sbrks = h.sbrks) (hl : h'.linked = h.linked) :
    Merged T R (B \ {T.get h m .next}) fl ls K m (T.get h m .next) h h' ∧ SameUser T m h h' := by
  have hmb : m ∈ blocks B fl := .inl hm
  obtain ⟨hne, hnb, hnn⟩ := hi.neighbours hmb hn
  have heK : Edits T (blocks B fl) (fun a => T.get h a .sz) K h h' _ :=
    ⟨he.fields, fun a ha => he.data a (.inr ha)⟩
  refine ⟨⟨?_, heK.keeps hK ?_ hs (by unfold NodesFit; rw [hl]; exact id), ?_, ?_, ?_, ?_⟩, ?_,
    he.data m (.inl rfl)⟩
  · rw [hhd]
    refine hi.join hm hn hnB ?_ ?_ ?_ ?_ ?_ ?_
    · rw [he.get hmb (by simp)]; simp [joined]
    · rw [he.get hmb (by simp)]; simp [joined]
    · intro h0
      obtain ⟨h1, h2, h3⟩ := hnn h0
      rw [he.get h1 (by simp)]
      simp [joined, h0]
    · intro a ha ham han
      rw [he.get ha (by simp), he.get ha (by simp)]
      simp [joined, ham]
    · intro a ha han hann
      rw [he.get ha (by simp)]
      simp [joined, hann]
    · intro a ha
      rw [he.fields a _ (hi.cell_free ha), he.fields a _ (hi.cell_free ha)]
      simp [joined]
  · intro a ha f h1 h2
    have ham : a ≠ m := fun h => hmK (h ▸ ha)
    simp [joined, ham, h1]
  · rw [he.get hmb (by simp)]; simp [joined]
  · rw [he.get hmb (by simp)]; simp [joined]
  · rw [he.get hmb (by simp)]
    simp only [joined]
    grind
  · show h'.freehdrs 0 = h.freehdrs 0
    rw [hhd]
  · rw [he.get hmb (by simp)]; simp [joined]

theorem joinWrites_spec (hi : Inv T (T.get h) h.freehdrs R B fl ls) (hm : m ∈ B)
    (hn : T.get h m .next ≠ 0) (hnB : T.get h m .next ∈ B) (hK : K ⊆ B) (hmK : m ∉ K) :
    Merged T R (B \ {T.get h m .next}) fl ls K m (T.get h m .next) h
        (T.joinWrites h m (T.get h m .next)) ∧
      SameUser T m h (T.joinWrites h m (T.get h m .next)) := by
  refine (joinWrites_edits hi hm hn (insert_subset hm hK)).merged hi hm hn hnB hK hmK ?_ ?_ ?_
  all_goals
    unfold joinWrites
    dsimp only
    split_ifs <;> rfl

theorem isFree_of_free (hi : Inv T (T.get h) hd R B fl ls) (ha : Free fl a) : T.isFree h a := by
  have h1 := hi.free_links ha
  simp [isFree, hi.ne_zero (B := B) (.inr ha), hi.ne_none (B := B) (.inr ha), h1]

theorem isFree_eq_false (h0 : a ≠ 0 → T.get h a .nextfree = 0) : T.isFree h a = false := by
  by_cases ha : a = 0
  · simp [isFree, ha]
  · simp [isFree, h0 ha]

section

variable (hi : Inv T (T.get h) h.freehdrs R B fl ls)
include hi

/-- **`combinehi`** with `lastsbrk` above. -/
theorem combinehi_last_spec (hm : m ∈ B)
    (hn : T.get h m .next ≠ 0) (hnB : T.get h m .next ∈ B) (hls : T.get h m .next = h.lastsbrk)
    (hK : K ⊆ B) (hmK : m ∉ K) :
    ∃ h', T.combinehi h m = .ok h' ∧
      Merged T R (B \ {T.get h m .next}) fl ls K m (T.get h m .next) h h' ∧
      SameUser T m h h' := by
  have hm0 : m ≠ 0 := hi.ne_zero (.inl hm)
  have hp : T.get h (T.get h m .next) .prev = m := (hi.tiled.next_spec (.inl hm) hn).2.2
  refine ⟨_, ?_, joinWrites_spec hi hm hn hnB hK hmK⟩
  unfold combinehi
  rw [if_pos ⟨hm0, hn⟩, if_neg (not_not.2 hp)]
  simp [hls, joinWrites]

/-- **`combinehi`** with a free block above. -/
theorem combinehi_free_spec (hm : m ∈ B)
    (hn : Free fl (T.get h m .next)) (hls : T.get h m .next ≠ h.lastsbrk)
    (hK : K ⊆ B) (hmK : m ∉ K) :
    ∃ h' fl', T.combinehi h m = .ok h' ∧ Merged T R B fl' ls K m (T.get h m .next) h h' ∧
      SameUser T m h h' ∧ ∀ a, Free fl' a ↔ Free fl a ∧ a ≠ T.get h m .next := by
  have hm0 : m ≠ 0 := hi.ne_zero (.inl hm)
  have hn0 : T.get h m .next ≠ 0 := hi.ne_zero (B := B) (.inr hn)
  have hp : T.get h (T.get h m .next) .prev = m := (hi.tiled.next_spec (.inl hm) hn0).2.2
  have hnB : T.get h m .next ∉ B := fun h => hi.inUse _ h hn
  obtain ⟨h₁, fl', hrun, hr, hf, -⟩ := extractfree_spec hi hn (K := insert m K)
    (insert_subset hm hK)
  have hne : T.get h₁ m .next = T.get h m .next := (hr.chain m (.inl hm)).2.1
  obtain ⟨hg, hu⟩ := joinWrites_spec (K := K) hr.inv (m := m) (.inr hm) (by rw [hne]; exact hn0)
    (.inl hne) (fun a ha => .inr (hK ha)) hmK
  rw [hne] at hg hu
  refine ⟨_, fl', ?_, ⟨?_, ?_, ?_, ?_, ?_, hg.last.trans hr.last⟩, ⟨?_, ?_⟩, hf⟩
  · unfold combinehi
    rw [if_pos ⟨hm0, hn0⟩, if_neg (not_not.2 hp)]
    simp [hls, hrun, joinWrites, hne]
  · have := hg.inv
    rwa [insert_sdiff_self_of_notMem hnB] at this
  · exact (hr.keeps.mono (subset_insert _ _)).trans hg.keeps
  · rw [hg.sz, (hr.chain m (.inl hm)).2.2, (hr.chain _ (.inr hn)).2.2]
  · rw [hg.next, (hr.chain _ (.inr hn)).2.1]
  · rw [hg.prev, (hr.chain m (.inl hm)).1]
  · rw [hu.mark]
    exact hr.keeps.get (.inl rfl) (by simp)
  · intro x h1 h2
    rw [hu.data x h1 (by rw [(hr.chain m (.inl hm)).2.2]; exact h2)]
    exact hr.keeps.data m (.inl rfl) x h1 h2

/-- **`combinelo`** with a free block below. -/
theorem combinelo_spec (hm : m ∈ B) (hp : Free fl (T.get h m .prev)) (hK : K ⊆ B) :
    ∃ h' fl', T.combinelo h m = .ok (T.get h m .prev, h') ∧
      Merged T R (insert (T.get h m .prev) (B \ {m})) fl' ls K (T.get h m .prev) m h h' ∧
      T.get h' (T.get h m .prev) .nextfree = 0 ∧
      ∀ a, Free fl' a ↔ Free fl a ∧ a ≠ T.get h m .prev := by
  have hp0 : T.get h m .prev ≠ 0 := hi.ne_zero (B := B) (.inr hp)
  have hnp : T.get h (T.get h m .prev) .next = m := (hi.tiled.prev_spec (.inl hm) hp0).2.2
  have hpB : T.get h m .prev ∉ B := fun h => hi.inUse _ h hp
  have hpm : T.get h m .prev ≠ m := fun heq => hpB (by rw [heq]; exact hm)
  obtain ⟨h₁, fl', hrun, hr, hf, hz⟩ := extractfree_spec hi hp hK
  set p := T.get h m .prev with hpd
  have hn : T.get h₁ p .next = m := ((hr.chain p (.inr hp)).2.1).trans hnp
  obtain ⟨hg, hu⟩ := joinWrites_spec (K := K) hr.inv (m := p) (.inl rfl)
    (by rw [hn]; exact hi.ne_zero (.inl hm)) (by rw [hn]; exact .inr hm)
    (fun a ha => .inr (hK ha)) fun h => hpB (hK h)
  rw [hn] at hg hu
  refine ⟨_, fl', ?_, ⟨?_, hr.keeps.trans hg.keeps, ?_, ?_, ?_, hg.last.trans hr.last⟩,
    hu.mark.trans hz, hf⟩
  · unfold combinelo
    rw [← hpd, if_pos (isFree_of_free hi hp)]
    simp [hnp, hrun, joinWrites]
  · have := hg.inv
    rwa [insert_sdiff_of_notMem _ (by simpa using hpm)] at this
  · rw [hg.sz, (hr.chain p (.inr hp)).2.2, (hr.chain m (.inl hm)).2.2]
  · rw [hg.next, (hr.chain m (.inl hm)).2.1]
  · rw [hg.prev, (hr.chain p (.inr hp)).1]

end

/-! ### `mv2freelist` -/

theorem below_of_prev (hi : Inv T v hd R B fl ls) (hm : m ≠ 0) (hp : ¬ Free fl (v m .prev)) :
    ∀ a, Free fl a → v a .next ≠ m := by
  rintro a ha rfl
  have h1 : v (v a .next) .prev = a := (hi.tiled.next_spec (.inr ha) hm).2.2
  exact hp (by rw [h1]; exact ha)

/-- The outcome of `mv2freelist`: the block is in its free list, or it is the new `lastsbrk`. -/
inductive Freed (T : Target) (R : Set (ℕ × ℕ)) (B : Set ℕ) (fl' : ℕ → List ℕ) (m : ℕ)
    (h h' : Heap) : Prop
  | linked (inv : Inv T (T.get h') h'.freehdrs R (B \ {m}) fl' h.lastsbrk)
      (keeps : T.Keeps (B \ {m}) h h') (last : h'.lastsbrk = h.lastsbrk)
  | merged (old : T.get h m .next = h.lastsbrk) (old_ne : h.lastsbrk ≠ 0)
      (inv : Inv T (T.get h') h'.freehdrs R (B \ {h.lastsbrk}) fl' m)
      (keeps : T.Keeps (B \ {m, h.lastsbrk}) h h') (last : h'.lastsbrk = m)
      (mark : T.get h' m .nextfree = 0) (next : T.get h' m .next = 0)

theorem mv2freelist_eq_linkfree (hm0 : m ≠ 0) (hf : T.isFree h (T.get h m .next) = false)
    (hls : ¬ (h.lastsbrk ≠ 0 ∧ T.get h m .next = h.lastsbrk)) :
    T.mv2freelist h m = T.linkfree h m := by
  unfold mv2freelist
  simp only [if_neg hm0, hf, Bool.false_eq_true, if_false, ok_bind, if_neg hls]

section

variable (hi : Inv T (T.get h) h.freehdrs R B fl h.lastsbrk)
include hi

/-- The block above is free: it is joined, and the result is linked. -/
theorem mv2freelist_free (hm : m ∈ B)
    (hl : T.freeHeader ≤ T.get h m .sz) (hb : ¬ Free fl (T.get h m .prev))
    (hla : h.lastsbrk ≠ 0 → h.lastsbrk ∈ B) (hn : Free fl (T.get h m .next)) :
    ∃ h' fl', T.mv2freelist h m = .ok h' ∧ Freed T R B fl' m h h' := by
  have hm0 : m ≠ 0 := hi.ne_zero (.inl hm)
  have hsub : B \ {m} ⊆ B := sdiff_subset
  have hmK : m ∉ B \ {m} := by simp
  have hne : T.get h m .next ≠ h.lastsbrk := by
    intro heq
    have h0 : h.lastsbrk ≠ 0 := heq ▸ hi.ne_zero (B := B) (.inr hn)
    exact hi.inUse _ (hla h0) (heq ▸ hn)
  obtain ⟨h₁, fl1, hrun, hg, -, hf⟩ := combinehi_free_spec hi hm hn hne hsub hmK
  obtain ⟨hab, habl⟩ := hi.aboveFree _ hn
  have hls : ¬ (h₁.lastsbrk ≠ 0 ∧ T.get h₁ m .next = h₁.lastsbrk) := by
    rw [hg.last, hg.next]
    exact fun hc => habl hc.1 hc.2
  obtain ⟨h2, fl2, hrun2, hr, -⟩ := linkfree_spec hg.inv hm (hl.trans (by rw [hg.sz]; omega))
    (below_of_prev hg.inv hm0 (by rw [hg.prev, hf]; exact fun hc => hb hc.1))
    (by rw [hg.next, hf]; exact fun hc => hab hc.1) (by rw [hg.next]; exact habl) hsub hmK
  refine ⟨h2, fl2, ?_, .linked hr.inv (hg.keeps.trans hr.keeps) (hr.last.trans hg.last)⟩
  unfold mv2freelist
  simp only [if_neg hm0, if_pos (isFree_of_free hi hn), hrun, ok_bind, if_neg hls, hrun2]

/-- `lastsbrk` is above: it is joined, and the result is the new `lastsbrk`. -/
theorem mv2freelist_last (hm : m ∈ B)
    (hla : T.freeHeader ≤ T.get h m .sz) (hbe : ¬ Free fl (T.get h m .prev))
    (hf : T.isFree h (T.get h m .next) = false) (hl0 : h.lastsbrk ≠ 0)
    (hl : T.get h m .next = h.lastsbrk) (hlB : h.lastsbrk ∈ B)
    (hln : T.get h h.lastsbrk .next = 0) :
    ∃ h' fl', T.mv2freelist h m = .ok h' ∧ Freed T R B fl' m h h' := by
  have hm0 : m ≠ 0 := hi.ne_zero (.inl hm)
  obtain ⟨h₁, hrun, hg, -⟩ := combinehi_last_spec hi hm (hl ▸ hl0) (hl ▸ hlB) hl
    (K := B \ {m, h.lastsbrk}) sdiff_subset (by simp)
  rw [hl] at hg
  have hm1 : m ∈ B \ {h.lastsbrk} := ⟨hm, by
    have := (hi.neighbours (.inl hm) (hl ▸ hl0)).1
    rwa [hl] at this⟩
  have hlarge1 : T.freeHeader ≤ T.get h₁ m .sz := hla.trans (by rw [hg.sz]; omega)
  have hz := T.zero_lt_width
  have hsub1 : B \ {m, h.lastsbrk} ⊆ B \ {h.lastsbrk} := by
    rintro a ⟨ha, hne⟩
    exact ⟨ha, fun h => hne (.inr h)⟩
  have e0 := Edits.refl T (blocks (B \ {h.lastsbrk}) fl) (fun a => T.get h₁ a .sz)
    (B \ {m, h.lastsbrk}) h₁
  have e1 := ((e0.setFreehdr 0 m).set hg.inv.apart (fun a ha => .inl (hsub1 ha))
    (b := m) (g := .prevfree) ⟨.inl hm1, fun _ => hlarge1⟩ (hz _) (by simp)).setField hg.inv hsub1
    (a := m) (g := .nextfree) (.inl hm1) (hz _) nofun
  refine ⟨_, fl, ?_, .merged hl hl0 ?_ (hg.keeps.trans (e1.keeps hsub1 ?_ rfl id)) rfl ?_ ?_⟩
  · unfold mv2freelist
    simp only [if_neg hm0, hf, ok_bind, if_pos (And.intro hl0 hl), hrun]
    rfl
  · refine (hg.inv.congr ?_ (fun a ha => e1.chain ?_ ha) fun a ha => ?_).setLast fun a ha => ?_
    · exact fun b hb => Function.update_of_ne hb ..
    · intro a f h1 h2
      simp [h1, h2]
    · have ham : a ≠ m := fun h => hg.inv.inUse m hm1 (h ▸ ha)
      rw [e1.fields a _ (hg.inv.cell_free ha), e1.fields a _ (hg.inv.cell_free ha)]
      simp [upd, ham]
    · rw [e1.fields a _ (hg.inv.cell_free ha)]
      simpa using below_of_prev hg.inv hm0 (by rw [hg.prev]; exact hbe) a ha
  · intro a ha f _ h2
    have ham : a ≠ m := fun h => ha.2 (.inl h)
    simp [upd, ham]
  · rw [e1.get (.inl hm1) (by simp)]
    simp
  · rw [e1.get (.inl hm1) (by simp)]
    simpa [hg.next] using hln

theorem mv2freelist_spec (hm : m ∈ B)
    (hl : T.freeHeader ≤ T.get h m .sz) (hb : ¬ Free fl (T.get h m .prev))
    (hma : ∀ a ∈ B, a ≠ m → T.get h a .nextfree = 0)
    (hla : h.lastsbrk ≠ 0 → h.lastsbrk ∈ B ∧ T.get h h.lastsbrk .next = 0) :
    ∃ h' fl', T.mv2freelist h m = .ok h' ∧ Freed T R B fl' m h h' := by
  have hm0 : m ≠ 0 := hi.ne_zero (.inl hm)
  by_cases hn : Free fl (T.get h m .next)
  · exact mv2freelist_free hi hm hl hb (fun h0 => (hla h0).1) hn
  have hf : T.isFree h (T.get h m .next) = false := by
    refine isFree_eq_false fun h0 => ?_
    obtain ⟨h1, h2, -⟩ := hi.tiled.next_spec (.inl hm) h0
    exact hma _ (h2.resolve_right hn) (hi.neighbours (.inl hm) h0).1.symm
  by_cases hls : h.lastsbrk ≠ 0 ∧ T.get h m .next = h.lastsbrk
  · obtain ⟨hlB, hln⟩ := hla hls.1
    exact mv2freelist_last hi hm hl hb hf hls.1 hls.2 hlB hln
  · obtain ⟨h₁, fl1, hrun, hr, -⟩ := linkfree_spec hi hm hl (below_of_prev hi hm0 hb) hn
      (fun h0 heq => hls ⟨h0, heq⟩) (K := B \ {m}) sdiff_subset nofun
    exact ⟨h₁, fl1, (mv2freelist_eq_linkfree hm0 hf hls).trans hrun,
      .linked hr.inv hr.keeps hr.last⟩

end

/-! ### Cutting a block -/

/-- The extents of the blocks once `m` is cut after `s` bytes. -/
def cutLen (v : Records) (m s : ℕ) : ℕ → ℕ := fun a =>
  if a = m + s then v m .sz - s else if a = m then s else v a .sz

/-- The records after the header of `m` was copied to `m + s`. -/
def copied (v : Records) (m s : ℕ) : Records := fun a f =>
  if a = m + s ∧ f ≠ .prevfree then v m f else v a f

/-- The records after the block `m` was cut. -/
def cutRecords (v : Records) (m s : ℕ) : Records := fun a f =>
  if a = m + s then
    if f = .prev then m else if f = .sz then v m .sz - s else if f = .prevfree then v a f else v m f
  else if a = m then
    if f = .next then m + s else if f = .sz then s else if f = .nextfree then 0 else v a f
  else if f = .prev ∧ a = v m .next ∧ a ≠ 0 then m + s
  else v a f

theorem apart_cut (hi : Inv T v hd R B fl ls) (hm : m ∈ B) (hks : T.dataOffset ≤ s)
    (hs : s + T.dataOffset ≤ v m .sz) : T.Apart (insert (m + s) (blocks B fl)) (cutLen v m s) := by
  have hk := T.dataOffset_pos
  have hmb : m ∈ blocks B fl := .inl hm
  have hnew : ∀ a ∈ blocks B fl, a ≠ m + s := by
    rintro a ha rfl
    exact hi.not_mem_inside hmb (by omega) (by omega) ha
  -- a block keeps away from all of `m`
  have hout : ∀ a ∈ blocks B fl, a ≠ m → a + v a .sz ≤ m ∨ m + v m .sz ≤ a := fun a ha hne =>
    hi.tiled.apart a ha m hmb hne
  constructor
  · rintro a (rfl | ha)
    · rw [cutLen, if_pos rfl]; omega
    · rw [cutLen, if_neg (hnew a ha)]
      split_ifs with h1
      · exact hks
      · exact hi.dataOffset_le ha
  rintro a (rfl | ha) b (rfl | hb) hab
  · exact absurd rfl hab
  · have h1 := hout b hb
    simp only [cutLen, if_true]
    split_ifs with hbm <;> omega
  · have h1 := hout a ha
    simp only [cutLen, if_true]
    split_ifs with ham <;> omega
  · have h1 := hout a ha
    have h2 := hout b hb
    have h3 := hi.tiled.apart a ha b hb hab
    simp only [cutLen, if_neg (hnew a ha)]
    split_ifs with ham hbm <;> omega

theorem move_edits (hi : Inv T (T.get h) hd R B fl ls) (hm : m ∈ B) (hks : T.dataOffset ≤ s)
    (hs : s + T.dataOffset ≤ T.get h m .sz) (hK : K ⊆ B) :
    Edits T (insert (m + s) (blocks B fl)) (cutLen (T.get h) m s) K h
      (move h (m + s) m T.dataOffset) (copied (T.get h) m s) := by
  have hk := T.dataOffset_pos
  have hS := apart_cut hi hm hks hs
  have hup : T.dataOffset ≤ cutLen (T.get h) m s (m + s) := hS.header _ (.inl rfl)
  refine ⟨fun a f hc => ?_, fun a ha x h1 h2 => ?_⟩
  · have hend := hc.end_le hS
    by_cases ha : a = m + s
    · subst ha
      by_cases hf : f = .prevfree
      · subst hf
        rw [copied, if_neg nofun]
        exact load_copy_of_disjoint (.inr (by simp [offset, dataOffset]))
      · rw [copied, if_pos ⟨rfl, hf⟩]
        exact load_copy_inside (T.offset_width_le hf)
    · rw [copied, if_neg fun h => ha h.1]
      refine load_copy_of_disjoint ?_
      have h1 := hS.apart a hc.1 (m + s) (.inl rfl) ha
      omega
  · have hab : a ∈ blocks B fl := .inl (hK ha)
    have hne : a ≠ m + s := by
      rintro rfl
      exact hi.not_mem_inside (.inl hm) (by omega) (by omega) hab
    have h3 := hS.apart a (.inr hab) (m + s) (.inl rfl) hne
    exact copy_outside (by omega)

/-- The writes of `__nmalloc_split` up to the test of the block above. -/
def cutWrites (T : Target) (h : Heap) (m s : ℕ) : Heap :=
  let h₁ := T.set (move h (m + s) m T.dataOffset) (m + s) .prev m
  T.set (T.set (T.set (T.set h₁ (m + s) .sz (T.get h m .sz - s)) m .next (m + s)) m .sz
    s) m .nextfree 0

theorem split_run (hi : Inv T (T.get h) hd R B fl ls) (hm : m ∈ B) (hks : T.dataOffset ≤ s)
    (hs : s + T.dataOffset ≤ T.get h m .sz) (hK : K ⊆ B) :
    ∃ h', T.split h m s = .ok (m + s, h') ∧
      Edits T (insert (m + s) (blocks B fl)) (cutLen (T.get h) m s) K h h'
        (cutRecords (T.get h) m s) ∧
      h'.freehdrs = h.freehdrs ∧ h'.sbrks = h.sbrks ∧ h'.linked = h.linked := by
  have hk := T.dataOffset_pos
  have hmb : m ∈ blocks B fl := .inl hm
  have hS := apart_cut hi hm hks hs
  have hKS : K ⊆ insert (m + s) (blocks B fl) := fun a ha => .inr (.inl (hK ha))
  have hc1 : m + s ∈ insert (m + s) (blocks B fl) := .inl rfl
  have hc0 : m ∈ insert (m + s) (blocks B fl) := .inr hmb
  have hlt : m + s < 256 ^ T.ptr := by
    obtain ⟨r, hr, -, -, h3⟩ := hi.region hmb
    have := (hi.bounded r hr).1
    omega
  have hsz : T.get h m .sz < 2 ^ 32 := (hi.sz_lt hmb).1
  have h256 : (256 : ℕ) ^ T.width .sz = 2 ^ 32 := by norm_num [width]
  have hs0 : s ≠ 0 := by omega
  have e0 := move_edits hi hm hks hs hK
  have e1 := e0.put hS hKS hc1 (g := .prev) (v := m) (hi.lt_pow hmb) (by simp)
  have e2 := e1.put hS hKS hc1 (g := .sz) (v := T.get h m .sz - s) (by rw [h256]; omega) (by simp)
  have e3 := e2.put hS hKS hc0 (g := .next) (v := m + s) hlt (by simp)
  have e4 := e3.put hS hKS hc0 (g := .sz) (v := s) (by rw [h256]; omega) (by simp)
  have e5 : Edits T _ _ K h (T.cutWrites h m s) _ := e4.put hS hKS hc0 (T.zero_lt_width _) (by simp)
  have hsz1 : T.get (T.set (move h (m + s) m T.dataOffset) (m + s) .prev m) m .sz =
    T.get h m .sz := by
    rw [e1.get hc0 (by simp)]
    simp [copied]
  have hnx : T.get (T.cutWrites h m s) (m + s) .next = T.get h m .next := by
    rw [e5.get hc1 (by simp)]
    simp [upd, copied, hs0]
  unfold split
  dsimp only
  rw [if_neg (by omega), hsz1, ← cutWrites, hnx]
  by_cases h0 : T.get h m .next = 0
  · rw [if_neg (by simpa using h0)]
    refine ⟨_, rfl, e5.congr fun a f => ?_, rfl, rfl, rfl⟩
    cases f <;> simp only [upd, copied, cutRecords] <;> grind
  obtain ⟨hn1, hnb, hnp⟩ := hi.tiled.next_spec hmb h0
  have hnms : T.get h m .next ≠ m + s := by rw [hn1]; omega
  have hpr := e5.get (.inr hnb) (f := .prev) (by simp)
  have hpm := hpr.trans (show _ = m by
    simp [upd, copied, hnms]
    exact hnp)
  have e6 := e5.put hS hKS (.inr hnb) (g := .prev) hlt (by simp)
  rw [if_pos h0, hpm]
  refine ⟨_, by simp; rfl, e6.congr fun a f => ?_, rfl, rfl, rfl⟩
  cases f <;> simp only [upd, copied, cutRecords] <;> grind

/-- The outcome of `__nmalloc_split`. -/
structure Cut (T : Target) (R : Set (ℕ × ℕ)) (B : Set ℕ) (fl : ℕ → List ℕ) (ls : ℕ) (K : Set ℕ)
    (m s : ℕ) (h h' : Heap) : Prop where
  inv : Inv T (T.get h') h'.freehdrs R (insert (m + s) B) fl ls
  keeps : T.Keeps K h h'
  freehdrs : h'.freehdrs = h.freehdrs
  sz : T.get h' m .sz = s
  mark : T.get h' m .nextfree = 0
  upSz : T.get h' (m + s) .sz = T.get h m .sz - s
  upNext : T.get h' (m + s) .next = T.get h m .next
  upPrev : T.get h' (m + s) .prev = m
  upMark : T.get h' (m + s) .nextfree = T.get h m .nextfree
  data : ∀ x, m + T.dataOffset ≤ x → x < m + s → h'.mem x = h.mem x

/-- **`__nmalloc_split`** cuts a block in two. -/
theorem split_spec (hi : Inv T (T.get h) h.freehdrs R B fl ls) (hm : m ∈ B)
    (hks : T.dataOffset ≤ s) (hsi : s + T.dataOffset ≤ T.get h m .sz) (hal : align ∣ s)
    (hK : K ⊆ B) (hmK : m ∉ K) :
    ∃ h', T.split h m s = .ok (m + s, h') ∧ Cut T R B fl ls K m s h h' := by
  have hk := T.dataOffset_pos
  have hmb : m ∈ blocks B fl := .inl hm
  have hmf := hi.inUse m hm
  have hs0 : s ≠ 0 := by omega
  have hnew : ∀ a ∈ blocks B fl, a ≠ m + s := by
    rintro a ha rfl
    exact hi.not_mem_inside hmb (by omega) (by omega) ha
  obtain ⟨h', hrun, he, hhd, hs, hl⟩ := split_run hi hm hks hsi (insert_subset hm hK)
  have rb : ∀ a ∈ blocks B fl, a ≠ m → ∀ f, f ≠ .prevfree → (f = .prev → a ≠ T.get h m .next) →
      T.get h' a f = T.get h a f := by
    intro a ha ham f hf hp
    rw [he.get (.inr ha) hf]
    simp only [cutRecords, if_neg (hnew a ha), if_neg ham]
    exact if_neg fun hc => hp hc.1 hc.2.1
  have rf : ∀ a, Free fl a → ∀ f, f ≠ .prev → T.get h' a f = T.get h a f := by
    intro a ha f hf
    have ham : a ≠ m := fun h => hmf (h ▸ ha)
    have hams := hnew a (.inr ha)
    have hc : T.Cell (insert (m + s) (blocks B fl)) (cutLen (T.get h) m s) a f :=
      ⟨.inr (.inr ha), fun _ => by simpa [cutLen, ham, hams] using hi.large a ha⟩
    rw [he.fields a f hc]
    simp [cutRecords, ham, hams, hf]
  have hda : ∀ a ∈ insert m K, ∀ x, a + T.dataOffset ≤ x → x < a + cutLen (T.get h) m s a →
      h'.mem x = h.mem x := he.data
  refine ⟨h', hrun, ?_, ⟨?_, ?_, hs, ?_⟩, hhd, ?_, ?_, ?_, ?_, ?_, ?_, ?_⟩
  · rw [hhd]
    refine hi.cut hm hks hsi hal ?_ ?_ ?_ ?_ ?_ ?_ ?_ ?_ ?_
    · rw [he.get (.inr hmb) (by simp)]; simp [cutRecords, hs0]
    · rw [he.get (.inr hmb) (by simp)]; simp [cutRecords, hs0]
    · rw [he.get (.inl rfl) (by simp)]; simp [cutRecords]
    · rw [he.get (.inl rfl) (by simp)]; simp [cutRecords]
    · rw [he.get (.inl rfl) (by simp)]; simp [cutRecords]
    · intro h0
      obtain ⟨hnm, hnb, -⟩ := hi.neighbours hmb h0
      rw [he.get (.inr hnb) (by simp)]
      simp [cutRecords, hnew _ hnb, hnm.symm, h0]
    · exact fun a ha ham => ⟨rb a ha ham _ nofun nofun, rb a ha ham _ nofun nofun⟩
    · intro a ha hne
      by_cases ham : a = m
      · subst ham; rw [he.get (.inr hmb) (by simp)]; simp [cutRecords, hs0]
      · exact rb a ha ham _ nofun fun _ => hne
    · exact fun a ha => ⟨rf a ha _ nofun, rf a ha _ nofun⟩
  · intro a ha f h1 h2
    exact rb a (.inl (hK ha)) (fun h => hmK (h ▸ ha)) f h2 fun h => absurd h h1
  · intro a ha x h1 h2
    have ham : a ≠ m := fun h => hmK (h ▸ ha)
    refine hda a (.inr ha) x h1 ?_
    simpa [cutLen, ham, hnew a (.inl (hK ha))] using h2
  · unfold NodesFit; rw [hl]; exact id
  · rw [he.get (.inr hmb) (by simp)]; simp [cutRecords, hs0]
  · rw [he.get (.inr hmb) (by simp)]; simp [cutRecords, hs0]
  · rw [he.get (.inl rfl) (by simp)]; simp [cutRecords]
  · rw [he.get (.inl rfl) (by simp)]; simp [cutRecords]
  · rw [he.get (.inl rfl) (by simp)]; simp [cutRecords]
  · rw [he.get (.inl rfl) (by simp)]; simp [cutRecords]
  · intro x h1 h2
    refine hda m (.inl rfl) x h1 ?_
    simpa [cutLen, hs0] using h2

end Target

end Nmalloc
