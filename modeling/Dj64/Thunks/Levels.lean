import Dj64.Thunks.Machine

/-!
# The object tables of nested calls

`objs` has one row for each level of nested calls of a handle.  `Good` is what holds of a handle's
state between any two steps; `SameBelow u u'` says that `u'` differs from `u` in the row of the
current level at most.
-/

namespace Thunks

open Function Finset

namespace Udisp

variable {u u' u'' : Udisp} {i fa r : ℕ}

/-- The state of a handle between any two steps. -/
structure Good (u : Udisp) : Prop where
  depth : u.recurCnt ≤ maxRecur
  above : ∀ r, u.recurCnt ≤ r → ∀ i, u.objs r i = 0
  width : ∀ r i, maxObjs ≤ i → u.objs r i = 0
  count : u.objcnt = u.liveObjs
  distinct : ∀ r i j, i < maxObjs → j < maxObjs → u.objs r i = u.objs r j → u.objs r i ≠ 0 → i = j

/-- Only the row of the current level may have changed. -/
structure SameBelow (u u' : Udisp) : Prop where
  recurCnt : u'.recurCnt = u.recurCnt
  noretJmp : u'.noretJmp = u.noretJmp
  objs : ∀ r, r ≠ u.recurCnt - 1 → u'.objs r = u.objs r

theorem SameBelow.refl (u : Udisp) : SameBelow u u := ⟨rfl, rfl, fun _ _ => rfl⟩

theorem SameBelow.trans (h1 : SameBelow u u') (h2 : SameBelow u' u'') : SameBelow u u'' where
  recurCnt := h2.recurCnt.trans h1.recurCnt
  noretJmp := h2.noretJmp.trans h1.noretJmp
  objs r hr := (h2.objs r (by rwa [h1.recurCnt])).trans (h1.objs r hr)

theorem setRow_objs_self (u : Udisp) (i fa : ℕ) :
    (u.setRow i fa).objs (u.recurCnt - 1) = update u.row i fa := update_self ..

theorem setRow_objs_of_ne (h : r ≠ u.recurCnt - 1) :
    (u.setRow i fa).objs r = u.objs r := update_of_ne h ..

/-! ### Counting the entries of a row -/

variable {row : ℕ → ℕ}

theorem rowCount_insert (hi : i < maxObjs) (h : row i = 0) (hfa : fa ≠ 0) :
    rowCount (update row i fa) = rowCount row + 1 := by
  have hins : (range maxObjs).filter (update row i fa · ≠ 0) =
      insert i ((range maxObjs).filter (row · ≠ 0)) := by
    ext j
    by_cases hj : j = i
    · subst hj
      simp [hfa, hi]
    · simp [hj]
  unfold rowCount
  rw [hins, card_insert_of_notMem (by simp [h])]

theorem rowCount_remove (hi : i < maxObjs) (h : row i ≠ 0) :
    rowCount (update row i 0) + 1 = rowCount row := by
  rw [← rowCount_insert hi (update_self ..) h, update_idem, update_eq_self]

theorem exists_zero_of_rowCount (h : rowCount row < maxObjs) : ∃ i < maxObjs, row i = 0 := by
  by_contra! hne
  have hall : (range maxObjs).filter (row · ≠ 0) = range maxObjs :=
    filter_true_of_mem fun i hi => hne i (mem_range.mp hi)
  rw [rowCount, hall] at h
  exact lt_irrefl _ h

theorem rowCount_eq_zero (h : rowCount row = 0) : ∀ i < maxObjs, row i = 0 := by
  intro i hi
  by_contra hne
  have hmem : i ∈ (range maxObjs).filter (row · ≠ 0) := mem_filter.mpr ⟨mem_range.mpr hi, hne⟩
  rw [card_eq_zero.mp h] at hmem
  exact (notMem_empty i) hmem

theorem rowCount_of_zero (h : ∀ i < maxObjs, row i = 0) : rowCount row = 0 := by
  refine card_eq_zero.mpr (filter_eq_empty_iff.mpr fun i hi => ?_)
  simpa using h i (mem_range.mp hi)

theorem liveObjs_setRow (h0 : 0 < u.recurCnt) (hd : u.recurCnt ≤ maxRecur) (i fa : ℕ) :
    (u.setRow i fa).liveObjs + rowCount u.row = u.liveObjs + rowCount
      (update u.row i fa) := by
  have hr : u.recurCnt - 1 ∈ range maxRecur := mem_range.mpr (by omega)
  have hc : ∀ r ∈ (range maxRecur).erase (u.recurCnt - 1),
      rowCount ((u.setRow i fa).objs r) = rowCount (u.objs r) := by
    intro r hr'
    rw [setRow_objs_of_ne (ne_of_mem_erase hr')]
  unfold liveObjs
  rw [← add_sum_erase _ _ hr, ← add_sum_erase _ (fun r => rowCount (u.objs r)) hr,
    sum_congr rfl hc, setRow_objs_self]
  show _ + rowCount (u.objs _) = _
  ring

/-! ### Creating and releasing objects -/

theorem SameBelow.setRow (u : Udisp) (i fa : ℕ) : SameBelow u (u.setRow i fa) :=
  ⟨rfl, rfl, fun _ hr => setRow_objs_of_ne hr⟩

theorem SameBelow.objcnt (h : SameBelow u u') (n : ℤ) : SameBelow u { u' with objcnt := n } :=
  ⟨h.recurCnt, h.noretJmp, h.objs⟩

theorem setRow_width (hw : ∀ r j, maxObjs ≤ j → u.objs r j = 0) (hi : i < maxObjs) :
    ∀ r j, maxObjs ≤ j → (u.setRow i fa).objs r j = 0 := by
  intro r j hj
  by_cases hr : r = u.recurCnt - 1
  · subst hr
    rw [setRow_objs_self, update_of_ne (by omega)]
    exact hw _ j hj
  · rw [setRow_objs_of_ne hr]
    exact hw r j hj

section

variable (hg : u.Good)
include hg

/-- An entry of the row is set to 0 or to an object that is not in the row. -/
theorem Good.setRow {n : ℤ} (h0 : 0 < u.recurCnt) (hi : i < maxObjs)
    (hnew : fa ≠ 0 → ∀ j < maxObjs, u.row j ≠ fa) (hn : n = (u.setRow i fa).liveObjs) :
    Good { u.setRow i fa with objcnt := n } where
  depth := hg.depth
  above r hr j := by
    have hr' : r ≠ u.recurCnt - 1 := by
      have : u.recurCnt ≤ r := hr
      omega
    show (u.setRow i fa).objs r j = 0
    rw [setRow_objs_of_ne hr']
    exact hg.above r hr j
  width := setRow_width hg.width hi
  count := hn
  distinct r j k hj hk := by
    show (u.setRow i fa).objs r j = (u.setRow i fa).objs r k → (u.setRow i fa).objs r j ≠ 0 → _
    by_cases hr : r = u.recurCnt - 1
    · subst hr
      rw [setRow_objs_self]
      intro heq h0
      by_cases hji : j = i <;> by_cases hki : k = i
      · rw [hji, hki]
      · rw [hji, update_self] at heq h0
        rw [update_of_ne hki] at heq
        exact absurd heq.symm (hnew h0 k hk)
      · rw [hki, update_self] at heq
        rw [heq] at h0
        rw [update_of_ne hji] at heq
        exact absurd heq (hnew h0 j hj)
      · rw [update_of_ne hji] at heq h0
        rw [update_of_ne hki] at heq
        exact hg.distinct _ j k hj hk heq h0
    · rw [setRow_objs_of_ne hr]
      exact hg.distinct r j k hj hk

/-- A free entry of the row gets a new object. -/
theorem Good.insert (h0 : 0 < u.recurCnt) (hi : i < maxObjs) (hrow : u.row i = 0)
    (hfa : fa ≠ 0) (hnew : ¬ u.Owns fa) : Good { u.setRow i fa with objcnt := u.objcnt + 1 } := by
  refine hg.setRow h0 hi (fun _ j hj h => hnew ⟨hfa, j, hj, h⟩) ?_
  have h1 := liveObjs_setRow h0 hg.depth i fa
  rw [rowCount_insert hi hrow hfa] at h1
  rw [hg.count]
  omega

/-- An object is removed from the row. -/
theorem Good.remove (h0 : 0 < u.recurCnt) (hi : i < maxObjs) (hrow : u.row i ≠ 0) :
    Good { u.setRow i 0 with objcnt := u.objcnt - 1 } := by
  refine hg.setRow h0 hi (fun h => absurd rfl h) ?_
  have h1 := liveObjs_setRow h0 hg.depth i 0
  have h2 := rowCount_remove hi hrow
  rw [hg.count]
  omega

theorem Good.enter (hd : u.recurCnt < maxRecur) (id : Option ℕ) :
    Good { u with recurCnt := u.recurCnt + 1, noretJmp := id } where
  depth := hd
  above r hr := hg.above r (by have : u.recurCnt + 1 ≤ r := hr; omega)
  width := hg.width
  count := hg.count
  distinct := hg.distinct

/-- Once its objects are released, a level has left no trace. -/
theorem Good.eq_of_released {id : Option ℕ} (hg' : u'.Good)
    (hs : SameBelow { u with recurCnt := u.recurCnt + 1, noretJmp := id } u')
    (hrow : rowCount u'.row = 0) :
    u'.objcnt = u.objcnt ∧ { u' with recurCnt := u'.recurCnt - 1, noretJmp := u.noretJmp } = u := by
  have hrec : u'.recurCnt - 1 = u.recurCnt := by
    rw [hs.recurCnt]
    rfl
  have ho : u'.objs = u.objs := by
    funext r i
    by_cases hr : r = u.recurCnt
    · rw [hr, hg.above _ le_rfl i]
      by_cases hi : i < maxObjs
      · have := rowCount_eq_zero hrow i hi
        rwa [row, hrec] at this
      · exact hg'.width _ i (by omega)
    · rw [hs.objs r hr]
  have hcnt : u'.objcnt = u.objcnt := by rw [hg.count, hg'.count, liveObjs, liveObjs, ho]
  refine ⟨hcnt, ?_⟩
  rw [hrec, hcnt, ho]

end

end Udisp

end Thunks
