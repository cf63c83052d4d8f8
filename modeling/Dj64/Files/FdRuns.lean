import Dj64.Files.FdInvariant

/-!
# Runs of calls on file descriptors

The links of an object are cleared before they are used, so that only the last object of a list can
be removed: the lists survive as long as the objects are released in the order of their allocation.
-/

namespace Properties

open LinkedList Occurrences Runs Function Option State

variable {s : State} {active cached : List ℕ} {p fd q : ℕ} {table : ℕ → ℕ}

/-- The call does not close the last descriptor of a temporary file, or the file is deleted exactly
if no other descriptor has an object with its name. -/
def Deletes (s : State) (c : Call) (s' : State) : Prop :=
  ∀ fd name, c = .clear fd → s.fd fd ≠ 0 → (∀ i < 255, i ≠ fd → s.fd i ≠ s.fd fd) →
    (s.mem (s.fd fd)).isTemporary → (s.mem (s.fd fd)).filename = some name →
    ((∃ i < 255, i ≠ fd ∧ s.fd i ≠ 0 ∧ ∃ other, (s.mem (s.fd i)).filename = some other ∧
      Exec.sameName name other = true) → s'.removed = s.removed) ∧
    ((∀ i < 255, i ≠ fd → s.fd i ≠ 0 → ∀ other, (s.mem (s.fd i)).filename = some other →
      Exec.sameName name other = false) → s'.removed = name :: s.removed)

theorem step_clear_none (ht : s.fdProperties = some table) (hz : table fd = 0) :
    step s (.clear fd) = .ok s := by
  rw [step, clearFdProperties, ht]
  dsimp only
  rw [if_pos hz]
  rfl

theorem dropped_findEqFilename : (s.dropped p).findEqFilename q = s.findEqFilename q :=
  findEqFilename_congr (fun x => ⟨(dropped_data s p x).2.1, (dropped_data s p x).1.1⟩) q _ _

theorem dropped_isTemporary : ((s.dropped p).mem q).isTemporary ↔ (s.mem q).isTemporary := by
  rw [FdProperties.isTemporary, FdProperties.isTemporary, (dropped_data s p q).2.2]

theorem Inv.close (h : Inv s active cached) (hmem : p ∈ active)
    (hf : (s.mem p).isTemporary → s.findEqFilename p ≠ .error .nullName) :
    ∃ s', closeFd (s.dropped p) p = .ok s' ∧ Closed (s.dropped p) active p s' := by
  refine closeFd_closed (h.activeList.congr fun q _ => (dropped_data s p q).1) h.length_le ?_ ?_
  · rw [dropped_isTemporary, (dropped_data s p p).2.1]
    exact h.named p hmem
  · rw [dropped_isTemporary, dropped_findEqFilename]
    exact hf

variable {s' : State}

/-- The objects of the list are those of the descriptors. -/
theorem Closed.deletes (hc : Closed (s.dropped (s.fd fd)) active (s.fd fd) s')
    (h : Inv s active cached) (table : ℕ → ℕ) :
    Deletes s (.clear fd) (s'.released table fd (s.fd fd)) := by
  intro fd' name hca hne hl ht hn
  cases hca
  have hs : ∀ q, SameName (s.dropped (s.fd fd)).mem (s.fd fd) q ↔ q ≠ s.fd fd ∧
      ∃ other, (s.mem q).filename = some other ∧ Exec.sameName name other := by
    intro q
    unfold SameName
    rw [(dropped_data s _ _).2.1, (dropped_data s _ _).2.1, hn]
    simp
  constructor
  · rintro ⟨i, hi, hifd, hine, other, ho, heq⟩
    exact hc.kept ⟨s.fd i, h.fd_mem hi hine, (hs _).mpr ⟨hl i hi hifd, other, ho, heq⟩⟩
  intro hno
  apply hc.deleted name
  · exact dropped_isTemporary.mpr ht
  · rw [(dropped_data s _ _).2.1, hn]
  intro q hq hsa
  obtain ⟨hqz, i, hi, rfl⟩ := (h.mem_active q).mp hq
  obtain ⟨hqp, other, ho, heq⟩ := (hs _).mp hsa
  have hifd : i ≠ fd := by
    rintro rfl
    exact hqp rfl
  rw [hno i hi hifd hqz other ho] at heq
  cases heq

theorem Inv.refCount_last (h : Inv s active cached) (hfd : fd < 255) (hne : s.fd fd ≠ 0)
    (hl : ∀ i < 255, i ≠ fd → s.fd i ≠ s.fd fd) : (s.mem (s.fd fd)).refCount = 1 := by
  have hr := h.refs _ hne (h.bound _ (h.fd_mem hfd hne))
  have hone : occurrences 255 s.fd (s.fd fd) = 1 := by
    have hold := occurrences_update_old (f := s.fd) hfd rfl hne.symm
    have hz : occurrences 255 (update s.fd fd 0) (s.fd fd) = 0 := by
      refine occurrences_eq_zero_iff.mpr fun i hi => ?_
      by_cases hifd : i = fd
      · rw [hifd, update_self]
        exact hne.symm
      · rw [update_of_ne hifd]
        exact hl i hi hifd
    rw [← hold, hz]
  rw [hone] at hr
  exact UInt8.toNat_inj.mp hr

variable {c : Call}

/-- **A call that fits** succeeds, keeps the invariant and deletes what it has to delete. -/
theorem step_inv (h : Inv s active cached) (hl : Legal s c) (hf : Fits s c) :
    ∃ s', step s c = .ok s' ∧ (∃ active' cached', Inv s' active' cached') ∧ Deletes s c s' := by
  cases c with
  | set fd truename openFlags malloc =>
    obtain ⟨s', hs, hinv⟩ := h.set hl hf
    exact ⟨s', hs, hinv, fun _ _ hc => by cases hc⟩
  | dup source target =>
    obtain ⟨hso, hta, hfr⟩ := hl
    obtain ⟨s', hs, hinv⟩ := h.dup hso hta hfr hf
    exact ⟨s', hs, ⟨active, cached, hinv⟩, fun _ _ hc => by cases hc⟩
  | clear fd =>
    obtain ⟨hsom, hla⟩ := hf
    obtain ⟨table, ht⟩ := isSome_iff_exists.mp hsom
    have hsfd := fd_eq ht
    by_cases hz : table fd = 0
    · refine ⟨s, step_clear_none ht hz, ⟨active, cached, h⟩, fun fd' _ hc hne => ?_⟩
      cases hc
      rw [hsfd] at hne
      exact absurd hz hne
    by_cases hco : (s.mem (table fd)).refCount - 1 = 0
    · have hone : (s.mem (table fd)).refCount = 1 := by
        rw [← UInt8.sub_add_cancel (s.mem (table fd)).refCount 1, hco]
        rfl
      have hne : s.fd fd ≠ 0 := by rwa [hsfd]
      have hmem := h.fd_mem hl hne
      obtain ⟨hn, hfi⟩ := hla hne (by rwa [hsfd])
      obtain ⟨l, rfl⟩ := h.activeList.eq_append_of_next hmem hn
      obtain ⟨s', hclo, hcl⟩ := h.close hmem hfi
      have hd := hcl.deletes h table
      rw [hsfd] at hclo hcl hd h
      have hs := step_clear_last ht hz hco
      rw [hclo] at hs
      exact ⟨_, hs, ⟨_, _, h.released ht hl hz hco hcl⟩, hd⟩
    · refine ⟨_, step_clear_shared ht hz hco,
        ⟨active, cached, h.clear_shared ht hl hz hco⟩, fun fd' _ hc hne hl' => ?_⟩
      cases hc
      have hone := h.refCount_last hl hne hl'
      rw [hsfd] at hone
      rw [hone] at hco
      exact absurd rfl hco

/-! ### Calls that do not fit -/

variable {truename : Option Exec.Bytes} {openFlags : UInt32} {malloc : Bool × Bool}

theorem isSome_of_set (hst : step s (.set fd truename openFlags malloc) = .ok s')
    (hs : s.oldBssCount = s.bssCount) : s.fdProperties.isSome := by
  have hin : s.init malloc.1 = s := by exact if_neg (not_not.mpr hs)
  by_contra hn
  rw [Bool.not_eq_true, isSome_eq_false_iff, isNone_iff_eq_none] at hn
  rw [step_set_none hin hn, if_neg (not_not.mpr hs)] at hst
  cases hst

/-- A cached object that is not the only one is taken: the others are lost. -/
theorem next_cached_of_consistent (h : Inv s active cached)
    (hs : step s (.set fd truename openFlags malloc) = .ok s') (hs' : Consistent s')
    (hfr : s.fd fd = 0) (hc : s.cachedFds ≠ 0) : (s.mem s.cachedFds).next = 0 := by
  by_contra hne
  have hmem := h.cachedList.head_mem hc
  obtain ⟨hq, -⟩ := h.cachedList.prev_next hmem hne
  obtain ⟨hp, hn⟩ := h.cachedList.link_ne hmem
  obtain ⟨⟨hqz, hqle⟩, hqa⟩ := (h.mem_cached _).mp hq
  obtain ⟨hin, hst⟩ : s.init malloc.1 = s ∧ s.oldBssCount = s.bssCount := by
    refine (init_eq s malloc.1).resolve_right fun hf => ?_
    rw [(h.eq_nil_of_fresh hf.1).2] at hmem
    exact List.not_mem_nil hmem
  obtain ⟨table, ht⟩ := isSome_iff_exists.mp (isSome_of_set hs hst)
  have hsfd := fd_eq ht
  rw [step_set hin ht, if_pos (by rw [← hsfd, hfr]), allocFdProperties, if_neg hc] at hs
  rw [if_neg hc] at hs
  -- the cache is empty, but the successor has no descriptor
  obtain ⟨hc', ha, hfd'⟩ : s'.cachedFds = 0 ∧ s'.allocated = s.allocated ∧
      s'.fd = update table fd s.cachedFds := by
    rw [← Except.ok.inj hs]
    exact ⟨(removeList_head s.cachedFds hp).trans (if_pos rfl), rfl, rfl⟩
  obtain ⟨active', cached', ho⟩ := hs'
  have hl := ho.cachedList
  rw [hc'] at hl
  have hq' := ho.mem_cached (s.mem s.cachedFds).next
  rw [hl.eq_nil, ha, ho.mem_active, hfd'] at hq'
  refine List.not_mem_nil (hq'.mpr ⟨⟨hqz, hqle⟩, ?_⟩)
  rintro ⟨-, i, hi, heq⟩
  by_cases hifd : i = fd
  · rw [hifd, update_self] at heq
    exact hn heq.symm
  · rw [update_of_ne hifd, ← hsfd] at heq
    exact hqa ((h.mem_active _).mpr ⟨hqz, i, hi, heq⟩)

theorem find_of_clear (ht : s.fdProperties = some table) (hne : table fd ≠ 0)
    (hone : (s.mem (table fd)).refCount = 1) (hs : step s (.clear fd) = .ok s')
    (hte : (s.mem (table fd)).isTemporary) : s.findEqFilename (table fd) ≠ .error .nullName := by
  intro hf
  have hco : (s.mem (table fd)).refCount - 1 = 0 := by
    rw [hone]
    rfl
  have hc : closeFd (s.dropped (table fd)) (table fd) = .error .nullName := by
    rw [closeFd, if_pos (dropped_isTemporary.mpr hte), dropped_findEqFilename, hf]
    rfl
  rw [step_clear_last ht hne hco, hc] at hs
  cases hs

/-- An object is released that is not the last one: either the list is lost, or the successor is not
linked any more. -/
theorem next_active_of_consistent (h : Inv s active cached) (ht : s.fdProperties = some table)
    (hfd : fd < 255) (hne : table fd ≠ 0) (hone : (s.mem (table fd)).refCount = 1)
    (hs : step s (.clear fd) = .ok s') (hs' : Consistent s') : (s.mem (table fd)).next = 0 := by
  by_contra hnext
  have hsfd := fd_eq ht
  have hco : (s.mem (table fd)).refCount - 1 = 0 := by
    rw [hone]
    rfl
  have hmem : table fd ∈ active := by
    rw [← hsfd] at hne ⊢
    exact h.fd_mem hfd hne
  obtain ⟨s1, hclo, hcl⟩ := h.close hmem (find_of_clear ht hne hone hs)
  obtain ⟨hq, hpr⟩ := h.activeList.prev_next hmem hnext
  obtain ⟨hp, hnex⟩ := h.activeList.link_ne hmem
  obtain ⟨hqz, i, hi, hiq⟩ := (h.mem_active _).mp hq
  rw [step_clear_last ht hne hco, hclo] at hs
  have hr : s1.released table fd (table fd) = s' := Except.ok.inj hs
  rw [hcl.released_eq] at hr
  have hli := hcl.unnamed_links
  have hp' : (s1.unnamed (table fd) (table fd)).prev ≠ table fd := by
    rw [(hli _).1.2]
    exact hp
  have hn' : (s1.unnamed (table fd) (table fd)).next ≠ table fd := by
    rw [(hli _).1.1]
    exact hnex
  have hca : ∀ q ∈ active, q ≠ s.cachedFds ∨ s.cachedFds = 0 := by
    intro q hqa
    by_contra hcon
    push Not at hcon
    exact h.disjoint hqa (hcon.1 ▸ h.cachedList.head_mem hcon.2)
  -- the successor still has a descriptor, and no predecessor
  have hqfd : i ≠ fd := by
    rintro rfl
    exact hnex (by rw [← hiq, hsfd])
  have hfd' : s'.fd i = (s.mem (table fd)).next := by
    rw [← hr]
    exact (update_of_ne hqfd _ _).trans ((congrFun hsfd i).symm.trans hiq)
  have hh : s'.activeFds = if s.activeFds = table fd then 0 else s.activeFds := by
    rw [← hr]
    exact removeList_head s.activeFds hp'
  have hpr' : (s'.mem (s.mem (table fd)).next).prev = 0 := by
    have hpc : table fd ≠ s.cachedFds := by
      intro heq
      rcases hca _ hmem with hc | hc
      · exact hc heq
      · exact hne (heq.trans hc)
    rw [← hr]
    rw [insertList_prev _ hpc, if_neg hnex, if_neg, removeList_prev _ _ hp' hn',
      if_neg hnex, (hli _).1.1, if_pos ⟨rfl, hnext⟩]
    rintro ⟨heq, hc⟩
    exact (hca _ hq).elim (fun hn => hn heq) hc
  obtain ⟨active', cached', ho⟩ := hs'
  have hq' : (s.mem (table fd)).next ∈ active' := (ho.mem_active _).mpr ⟨hqz, i, hi, hfd'⟩
  obtain ⟨l, hl⟩ := ho.activeList.linked.eq_head_of_bwd hq' ho.activeList.ne_zero hpr'
  have hh' := ho.activeList.head_eq
  rw [hl, hh] at hh'
  split_ifs at hh' with heq
  · exact hqz hh'.symm
  · have hze := h.activeList.prev_head (fun hz => hqz (hh'.symm.trans hz))
    rw [show s.activeFds = (s.mem (table fd)).next from hh', hpr] at hze
    exact hne hze

/-- **A call that leaves a consistent state fits.** -/
theorem fits_of_consistent (h : Inv s active cached) (hl : Legal s c)
    (hs : step s c = .ok s') (hs' : Consistent s') : Fits s c := by
  cases c with
  | set fd truename openFlags malloc =>
    exact ⟨isSome_of_set hs, next_cached_of_consistent h hs hs'⟩
  | dup source target =>
    show s.fdProperties.isSome
    cases ht : s.fdProperties with
    | some table => rfl
    | none =>
      rw [step, dupFdProperties, ht] at hs
      cases hs
  | clear fd =>
    cases ht : s.fdProperties with
    | none =>
      rw [step, clearFdProperties, ht] at hs
      cases hs
    | some table =>
      refine ⟨by rw [ht]; rfl, ?_⟩
      rw [fd_eq ht]
      intro hne hone
      exact ⟨next_active_of_consistent h ht hl hne hone hs hs', find_of_clear ht hne hone hs⟩

/-! ### Runs -/

def Right (s : State) (c : Call) : Prop := ∃ s', step s c = .ok s' ∧ Consistent s' ∧ Deletes s c s'

theorem right_iff_fits (h : ∃ active cached, Inv s active cached) (hl : Legal s c) :
    Right s c ↔ Fits s c := by
  obtain ⟨active, cached, h⟩ := h
  constructor
  · rintro ⟨s', hs, hs', -⟩
    exact fits_of_consistent h hl hs hs'
  · intro hf
    obtain ⟨s', hs, ⟨active', cached', h'⟩, hd⟩ := step_inv h hl hf
    exact ⟨s', hs, ⟨active', cached', h'.toObjects⟩, hd⟩

theorem admits_right_iff {bssCount : ℤ} {calls : List Call}
    (hl : Admits step Legal (start bssCount) calls) :
    Admits step Right (start bssCount) calls ↔ Admits step Fits
      (start bssCount) calls := by
  refine admits_iff (fun s c (hs : ∃ active cached, Inv s active cached) => right_iff_fits hs) ?_
    ⟨[], [], inv_start bssCount⟩ hl
  intro s c s' hinv hc hr hst
  have hf := (right_iff_fits hinv hc).mp hr
  obtain ⟨active, cached, h⟩ := hinv
  obtain ⟨s'', hs', h', -⟩ := step_inv h hc hf
  rw [hst] at hs'
  cases hs'
  exact h'

/-- **In a run of calls, all of them are right exactly if all of them fit**: the objects are
released in the order in which they were put into use, and an object is taken from the cache only if
it is the only one. -/
theorem properties_kept_iff (bssCount : ℤ) (calls : List Call)
    (hlegal : Admits step Legal (start bssCount) calls) :
    Consistent (start bssCount) ∧ (Admits step Right (start bssCount) calls ↔
        Admits step Fits (start bssCount) calls) :=
  ⟨⟨[], [], (inv_start bssCount).toObjects⟩, admits_right_iff hlegal⟩

instance (s : State) (c : Call) : Decidable (Legal s c) := by
  cases c
  all_goals
    unfold Legal
    infer_instance

/-- `A` is opened, `A` is opened as a temporary file, `B` is opened, and the last two are closed. -/
def closeNewest : List Call :=
  [.set 3 (some [65]) 0 (true, true), .set 4 (some [65]) oTemporary (true, true),
    .set 5 (some [66]) 0 (true, true), .clear 5, .clear 4]

theorem legal_closeNewest : Admits step Legal (start 1) closeNewest := by decide +kernel

/-- The theorem for the run `closeNewest`. -/
theorem properties_kept_iff_newest : Consistent (start 1) ∧
      (Admits step Right (start 1) closeNewest ↔ Admits step Fits (start 1)
        closeNewest) :=
  properties_kept_iff 1 closeNewest legal_closeNewest

/-- When `B` is closed, the list of the objects in use is lost, so that `A` is deleted while the
descriptor 3 still has it. -/
theorem file_deleted_in_use : Admits step Legal (start 1) closeNewest ∧ ¬ Admits step Right
      (start 1) closeNewest ∧
      ∃ s, run step (start 1) closeNewest = .ok s ∧ s.removed = [[65]] ∧ s.fd 3 ≠ 0 ∧
        (s.mem (s.fd 3)).filename = some [65] := by
  refine ⟨legal_closeNewest, ?_, _, rfl, by decide +kernel, by decide +kernel, by decide +kernel⟩
  intro hr
  obtain ⟨-, -, -, ⟨-, hl⟩, -⟩ := (admits_right_iff legal_closeNewest).mp hr
  exact absurd (hl (by decide +kernel) (by decide +kernel)).1 (by decide +kernel)

end Properties
