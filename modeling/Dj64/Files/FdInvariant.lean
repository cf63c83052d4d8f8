import Dj64.Files.FdLists

/-!
# The objects behind file descriptors

* `Objects`, `Consistent`: the lists have the objects that are in use and those that are not, and
  the counts are right;
* `Fits`: a call removes no object from a list that is not its last one, and meets no `NULL`;
* `Inv.set`, `Inv.dup`, `Inv.clear_shared`, `Inv.released`: such calls keep the invariant.
-/

namespace Properties

open LinkedList Occurrences Runs List Nat Option Function State FdProperties

variable {s : State} {active cached : List ℕ} {p fd i source target q x : ℕ}

/-- The lists, the table and the counts agree. -/
structure Objects (s : State) (active cached : List ℕ) : Prop where
  activeList : IsList s.mem s.activeFds active
  cachedList : IsList s.mem s.cachedFds cached
  mem_active : ∀ p, p ∈ active ↔ p ≠ 0 ∧ ∃ i < 255, s.fd i = p
  mem_cached : ∀ p, p ∈ cached ↔ (p ≠ 0 ∧ p ≤ s.allocated) ∧ p ∉ active
  refs : ∀ p, p ≠ 0 → p ≤ s.allocated → (s.mem p).refCount.toNat = occurrences 255 s.fd p

def Consistent (s : State) : Prop := ∃ active cached, Objects s active cached

/-- What else holds between calls. -/
structure Inv (s : State) (active cached : List ℕ) : Prop extends Objects s active cached where
  bound : ∀ p ∈ active, p ≤ s.allocated
  fresh : s.oldBssCount ≠ s.bssCount → s.allocated = 0
  named : ∀ p ∈ active, (s.mem p).isTemporary → (s.mem p).filename.isSome

/-- Descriptors are below 255, and one that another is duplicated onto is free. -/
def Legal (s : State) : Call → Prop
  | .set fd _ _ _ => fd < 255
  | .dup source target => source < 255 ∧ target < 255 ∧ s.fd target = 0
  | .clear fd => fd < 255

/-- The table exists, a cached object that is taken is the only one, and an object that is released
is the last one of the list; if it is that of a temporary file, the search for its name does not
meet an object without a name. -/
def Fits (s : State) : Call → Prop
  | .set fd _ _ _ =>
    (s.oldBssCount = s.bssCount → s.fdProperties.isSome) ∧
      (s.fd fd = 0 → s.cachedFds ≠ 0 → (s.mem s.cachedFds).next = 0)
  | .dup _ _ => s.fdProperties.isSome
  | .clear fd => s.fdProperties.isSome ∧
    (s.fd fd ≠ 0 → (s.mem (s.fd fd)).refCount = 1 → (s.mem (s.fd fd)).next = 0 ∧
      ((s.mem (s.fd fd)).isTemporary → s.findEqFilename (s.fd fd) ≠ .error .nullName))

variable {table : ℕ → ℕ}

theorem fd_eq (ht : s.fdProperties = some table) : s.fd = table := by
  funext i
  rw [fd, ht]

/-! ### Changes that keep the lists -/

variable {s' s1 : State} {openFlags : UInt32}

theorem Objects.congr (h : Objects s active cached)
    (hl : ∀ x, (s'.mem x).next = (s.mem x).next ∧ (s'.mem x).prev = (s.mem x).prev)
    (href : ∀ x, (s'.mem x).refCount = (s.mem x).refCount) (hfd : s'.fd = s.fd)
    (hac : s'.activeFds = s.activeFds) (hc : s'.cachedFds = s.cachedFds)
    (ha : s'.allocated = s.allocated) : Objects s' active cached where
  activeList := hac ▸ h.activeList.congr fun p _ => hl p
  cachedList := hc ▸ h.cachedList.congr fun p _ => hl p
  mem_active := by
    rw [hfd]
    exact h.mem_active
  mem_cached := by
    rw [ha]
    exact h.mem_cached
  refs := by
    intro p hp hle
    rw [href, hfd]
    exact h.refs p hp (ha ▸ hle)

theorem Objects.disjoint (h : Objects s active cached) : active.Disjoint cached := fun p hp hp' =>
  ((h.mem_cached p).mp hp').2 hp

theorem Inv.fd_mem (h : Inv s active cached) (hi : i < 255) (hne : s.fd i ≠ 0) :
    s.fd i ∈ active := (h.mem_active _).mpr ⟨hne, i, hi, rfl⟩

theorem Inv.eq_nil_of_fresh (h : Inv s active cached) (hf : s.oldBssCount ≠ s.bssCount) :
    active = [] ∧ cached = [] := by
  have hz := h.fresh hf
  constructor
  · refine eq_nil_iff_forall_not_mem.mpr fun p hp => ?_
    exact ((h.mem_active p).mp hp).1 (le_zero.mp (hz ▸ h.bound p hp))
  · refine eq_nil_iff_forall_not_mem.mpr fun p hp => ?_
    obtain ⟨⟨hne, hle⟩, -⟩ := (h.mem_cached p).mp hp
    exact hne (le_zero.mp (hz ▸ hle))

theorem inv_of_allocated (ha : s.activeFds = 0) (hc : s.cachedFds = 0)
    (hfd : ∀ i, s.fd i = 0) (hz : s.allocated = 0) : Inv s [] [] where
  activeList := ha ▸ isList_nil _
  cachedList := hc ▸ isList_nil _
  mem_active := by
    intro p
    refine iff_of_false not_mem_nil ?_
    rintro ⟨hp, i, -, hi⟩
    exact hp (hi.symm.trans (hfd i))
  mem_cached := by
    intro p
    refine iff_of_false not_mem_nil ?_
    rintro ⟨⟨hp, hle⟩, -⟩
    exact hp (le_zero.mp (hz ▸ hle))
  refs := by
    intro p hp hle
    exact absurd (le_zero.mp (hz ▸ hle)) hp
  bound := fun p hp => absurd hp not_mem_nil
  fresh := fun _ => hz
  named := fun p hp => absurd hp not_mem_nil

theorem inv_start (bssCount : ℤ) : Inv (start bssCount) [] [] :=
  inv_of_allocated rfl rfl (fun _ => rfl) rfl

section

variable (h : Inv s active cached)
include h

theorem Inv.init (malloc : Bool) :
    Inv (s.init malloc) active cached ∧ (s.init malloc).oldBssCount = (s.init malloc).bssCount := by
  unfold State.init
  by_cases hf : s.oldBssCount ≠ s.bssCount
  · rw [if_pos hf]
    obtain ⟨rfl, rfl⟩ := h.eq_nil_of_fresh hf
    refine ⟨inv_of_allocated rfl rfl (fun i => ?_) (h.fresh hf), rfl⟩
    cases malloc
    · rfl
    · rfl
  · rw [if_neg hf]
    exact ⟨h, not_not.mp hf⟩

/-! ### A new object -/

/-- The object `p` has been taken from the cache, or allocated, and no descriptor has it. -/
structure Spare (s : State) (active cached : List ℕ) (p : ℕ) : Prop where
  activeList : IsList s.mem s.activeFds active
  cachedList : IsList s.mem s.cachedFds cached
  mem_active : ∀ q, q ∈ active ↔ q ≠ 0 ∧ ∃ i < 255, s.fd i = q
  mem_cached : ∀ q, q ∈ cached ↔ (q ≠ 0 ∧ q ≤ s.allocated) ∧ q ∉ active ∧ q ≠ p
  refs : ∀ q, q ≠ 0 → q ≤ s.allocated → q ≠ p → (s.mem q).refCount.toNat = occurrences 255 s.fd q
  bound : ∀ q ∈ active, q ≤ s.allocated
  named : ∀ q ∈ active, (s.mem q).isTemporary → (s.mem q).filename.isSome
  started : s.oldBssCount = s.bssCount
  ne_zero : p ≠ 0
  le : p ≤ s.allocated
  not_mem : p ∉ active

section

variable (hstarted : s.oldBssCount = s.bssCount) {malloc : Bool}
include hstarted

/-- The object is the only one in the cache. -/
theorem Inv.alloc_cached (hc : s.cachedFds ≠ 0) (hnex : (s.mem s.cachedFds).next = 0) :
    (allocFdProperties s malloc).2 = s.cachedFds ∧ ∃ cached',
      Spare (allocFdProperties s malloc).1 active cached' s.cachedFds := by
  have hmem := h.cachedList.head_mem hc
  obtain ⟨l, rfl⟩ := h.cachedList.eq_append_of_next hmem hnex
  have hnd := nodup_append.mp h.cachedList.nodup
  obtain ⟨⟨-, hle⟩, hnot⟩ := (h.mem_cached _).mp hmem
  have hr := removeList_isList h.cachedList
  have ho := h.activeList.removeList_other h.cachedList hmem h.disjoint.symm
  have hd := removeList_sameData s.mem s.cachedFds s.cachedFds
  have hl : s.cachedFds ∉ l := fun hin => hnd.2.2 _ hin _ (mem_singleton_self _) rfl
  unfold allocFdProperties
  rw [if_neg hc]
  refine ⟨rfl, l, ?_⟩
  exact
    { activeList := by
        dsimp only
        exact ho.modify_other hnot _
      cachedList := by
        dsimp only
        exact hr.modify_other hl _
      mem_active := h.mem_active
      mem_cached := by
        intro q
        have hq := h.mem_cached q
        rw [mem_append, mem_singleton] at hq
        constructor
        · intro hql
          obtain ⟨hb, hn⟩ := hq.mp (.inl hql)
          exact ⟨hb, hn, ne_of_mem_of_not_mem hql hl⟩
        · rintro ⟨hb, hn, hne⟩
          exact (hq.mpr ⟨hb, hn⟩).resolve_right hne
      refs := by
        intro q hq hqle hne
        dsimp only
        rw [modify_of_ne _ hne, (hd q).1]
        exact h.refs q hq hqle
      bound := h.bound
      named := by
        intro q hq
        dsimp only
        rw [modify_of_ne _ (ne_of_mem_of_not_mem hq hnot), isTemporary, (hd q).2.1, (hd q).2.2]
        exact h.named q hq
      started := hstarted
      ne_zero := hc
      le := hle
      not_mem := hnot }

/-- The object is a new one. -/
theorem Inv.alloc_new (hc : s.cachedFds = 0) : (allocFdProperties s true).2 = s.allocated + 1 ∧
      Spare (allocFdProperties s true).1 active cached (s.allocated + 1) := by
  have hnot : s.allocated + 1 ∉ active := fun hin => not_succ_le_self _ (h.bound _ hin)
  have hn' : s.allocated + 1 ∉ cached := fun hin =>
    not_succ_le_self _ ((h.mem_cached _).mp hin).1.2
  unfold allocFdProperties
  rw [if_pos hc, if_pos rfl]
  refine ⟨rfl, ?_⟩
  exact
    { activeList := by
        dsimp only
        exact h.activeList.modify_other hnot _
      cachedList := by
        dsimp only
        exact h.cachedList.modify_other hn' _
      mem_active := h.mem_active
      mem_cached := by
        intro q
        rw [h.mem_cached]
        constructor
        · rintro ⟨⟨hq, hle⟩, hn⟩
          exact ⟨⟨hq, hle.trans (le_succ _)⟩, hn, (lt_succ_of_le hle).ne⟩
        · rintro ⟨⟨hq, hle⟩, hn, hne⟩
          exact ⟨⟨hq, le_of_lt_succ (lt_of_le_of_ne hle hne)⟩, hn⟩
      refs := by
        intro q hq hqle hne
        dsimp only
        rw [modify_of_ne _ hne]
        exact h.refs q hq (le_of_lt_succ (lt_of_le_of_ne hqle hne))
      bound := fun q hq => (h.bound q hq).trans (le_succ _)
      named := by
        intro q hq
        dsimp only
        rw [modify_of_ne _ (ne_of_mem_of_not_mem hq hnot)]
        exact h.named q hq
      started := hstarted
      ne_zero := succ_ne_zero _
      le := le_rfl
      not_mem := hnot }

/-- An object is allocated or taken from the cache, or `malloc` fails. -/
theorem Inv.alloc (hn : s.cachedFds ≠ 0 → (s.mem s.cachedFds).next = 0) :
    allocFdProperties s malloc = (s, 0) ∨
      (allocFdProperties s malloc).1.fdProperties = s.fdProperties ∧
        ∃ cached', Spare (allocFdProperties s malloc).1 active cached'
          (allocFdProperties s malloc).2 := by
  by_cases hc : s.cachedFds = 0
  · cases malloc with
    | false =>
      left
      rw [allocFdProperties, if_pos hc]
      rfl
    | true =>
      right
      obtain ⟨hptr, hs⟩ := h.alloc_new hstarted hc
      rw [hptr]
      refine ⟨?_, cached, hs⟩
      rw [allocFdProperties, if_pos hc]
      rfl
  · right
    obtain ⟨hptr, cached', hs⟩ := h.alloc_cached hstarted hc (hn hc)
    rw [hptr]
    refine ⟨?_, cached', hs⟩
    rw [allocFdProperties, if_neg hc]

end

end

theorem openFd_named {q : FdProperties}
    (h : (openFd openFlags q).isTemporary) : (openFd openFlags q).filename.isSome := by
  by_contra hn
  have hno : ¬ (q.filename.isSome ∧ openFlags &&& oTemporary ≠ 0) := fun hq => hn hq.1
  apply h
  unfold openFd
  dsimp only
  split_ifs <;> decide

/-- The object becomes the one of a descriptor. -/
theorem Spare.attach (h : Spare s active cached p)
    (ht : s.fdProperties = some table) (hfd : fd < 255) (hf : table fd = 0)
    (truename : Option Exec.Bytes) (openFlags : UInt32) :
    Inv { s.attach table fd p truename with
      mem := (s.attach table fd p truename).mem.modify p (openFd openFlags) }
      (p :: active) cached := by
  have hsfd := fd_eq ht
  have hca : p ∉ cached := fun hin => ((h.mem_cached p).mp hin).2.2 rfl
  have hdi : active.Disjoint cached := fun q hq hq' => ((h.mem_cached q).mp hq').2.1 hq
  have hu : ∀ i < 255, table i ≠ p := fun i hi heq =>
    h.not_mem ((h.mem_active p).mpr ⟨h.ne_zero, i, hi, by rw [hsfd, heq]⟩)
  obtain ⟨m, hm⟩ : ∃ m : Mem, m = s.mem.modify p fun q =>
    { q with refCount := 1, filename := truename } :=
    ⟨_, rfl⟩
  have ha : IsList m s.activeFds active := by
    rw [hm]
    exact h.activeList.modify_other h.not_mem _
  have hc : IsList m s.cachedFds cached := by
    rw [hm]
    exact h.cachedList.modify_other hca _
  have hd := insertList_sameData m s.activeFds p
  have hs : ∀ q, q ≠ p → m q = s.mem q := fun q hq => by rw [hm, modify_of_ne _ hq]
  have hl : ∀ q, (openFd openFlags q).next = q.next ∧ (openFd openFlags q).prev = q.prev :=
    fun _ => ⟨rfl, rfl⟩
  unfold State.attach
  rw [← hm]
  exact
    { activeList := (insertList_isList ha h.not_mem h.ne_zero).modify_data hl p
      cachedList :=
        (hc.insertList_other ha h.not_mem h.ne_zero hca hdi).modify_data hl p
      mem_active := by
        intro q
        rw [mem_cons, h.mem_active, hsfd]
        constructor
        · rintro (rfl | ⟨hq, hex⟩)
          · exact ⟨h.ne_zero, fd, hfd, update_self ..⟩
          · exact ⟨hq, (exists_update_iff hfd (hf ▸ hq.symm)).mpr (.inr hex)⟩
        · rintro ⟨hq, hex⟩
          exact ((exists_update_iff hfd (hf ▸ hq.symm)).mp hex).imp Eq.symm fun hex => ⟨hq, hex⟩
      mem_cached := by
        intro q
        rw [h.mem_cached, mem_cons, not_or]
        exact and_congr_right fun _ => and_comm
      refs := by
        intro q hq hqle
        show (Mem.modify _ p (openFd openFlags) q).refCount.toNat =
          occurrences 255 (update table fd p) q
        by_cases hqp : q = p
        · subst hqp
          have hz : occurrences 255 table q = 0 := occurrences_eq_zero_iff.mpr hu
          rw [occurrences_update_new hfd (by rw [hf]; exact hq.symm), hz, modify_self]
          show ((insertList m s.activeFds q).1 q).refCount.toNat = 0 + 1
          rw [(hd q).1, hm, modify_self]
          rfl
        · rw [modify_of_ne _ hqp, (hd q).1, hs q hqp, h.refs q hq hqle hqp, hsfd,
            occurrences_update_other (by rw [hf]; exact hq.symm) (Ne.symm hqp)]
      bound := by
        intro q hq
        rcases mem_cons.mp hq with rfl | hq
        · exact h.le
        · exact h.bound q hq
      fresh := fun hne => absurd h.started hne
      named := by
        intro q hq
        show (Mem.modify _ p (openFd openFlags) q).isTemporary →
          (Mem.modify _ p (openFd openFlags) q).filename.isSome
        by_cases hqp : q = p
        · rw [hqp, modify_self]
          exact openFd_named
        · rw [modify_of_ne _ hqp, isTemporary, (hd q).2.1, (hd q).2.2, hs q hqp]
          exact h.named q ((mem_cons.mp hq).resolve_left hqp) }

/-! ### The calls -/

/-- The flags of an object that is in use are set again. -/
theorem Inv.open_again (h : Inv s active cached) :
    Inv { s with mem := s.mem.modify p (openFd openFlags) } active cached := by
  have ho : Objects { s with mem := s.mem.modify p (openFd openFlags) } active cached := by
    refine h.toObjects.congr (fun x => ⟨?_, ?_⟩) (fun x => ?_) rfl rfl rfl rfl
    all_goals grind [modify_apply, openFd]
  refine { ho with bound := h.bound, fresh := h.fresh, named := fun q hq => ?_ }
  dsimp only
  rw [modify_apply]
  split_ifs with hqp
  · exact openFd_named
  · exact h.named q hq

variable {truename : Option Exec.Bytes} {openFlags : UInt32} {malloc : Bool × Bool}

theorem step_set (hs1 : s.init malloc.1 = s1) (ht : s1.fdProperties = some table) :
    step s (.set fd truename openFlags malloc) = .ok (if table fd = 0 then
        if (allocFdProperties s1 malloc.2).2 = 0 then (allocFdProperties s1 malloc.2).1
        else
          let s2 := (allocFdProperties s1 malloc.2).1.attach table fd
            (allocFdProperties s1 malloc.2).2
            truename
          { s2 with mem := s2.mem.modify (allocFdProperties s1 malloc.2).2 (openFd openFlags) }
      else { s1 with mem := s1.mem.modify (table fd) (openFd openFlags) }) := by
  rw [step, setFdProperties]
  rw [hs1, ht]
  dsimp only
  split_ifs <;> rfl

theorem step_set_none (hs1 : s.init malloc.1 = s1) (ht : s1.fdProperties = none) :
    step s (.set fd truename openFlags malloc) =
      if s.oldBssCount ≠ s.bssCount then .ok s1 else .error .nullTable := by
  rw [step, setFdProperties]
  rw [hs1, ht]
  split_ifs <;> rfl

theorem init_eq (s : State) (malloc : Bool) : s.init malloc = s ∧ s.oldBssCount = s.bssCount ∨
      s.oldBssCount ≠ s.bssCount ∧ (s.init malloc).cachedFds = 0 := by
  unfold init
  by_cases hf : s.oldBssCount ≠ s.bssCount
  · rw [if_pos hf]
    exact .inr ⟨hf, rfl⟩
  · rw [if_neg hf]
    exact .inl ⟨rfl, not_not.mp hf⟩

/-- `__set_fd_properties`. -/
theorem Inv.set (h : Inv s active cached) (hfd : fd < 255)
    (hfi : Fits s (.set fd truename openFlags malloc)) :
    ∃ s', step s (.set fd truename openFlags malloc) = .ok s' ∧
      ∃ active' cached', Inv s' active' cached' := by
  obtain ⟨hinv, hstarted⟩ := h.init malloc.1
  obtain ⟨s1, hs1⟩ : ∃ s1, s.init malloc.1 = s1 := ⟨_, rfl⟩
  have hin := init_eq s malloc.1
  rw [hs1] at hinv hstarted hin
  have hn : s1.fd fd = 0 → s1.cachedFds ≠ 0 → (s1.mem s1.cachedFds).next = 0 := by
    rcases hin with ⟨rfl, -⟩ | ⟨-, hz⟩
    · exact hfi.2
    · exact fun _ hne => absurd hz hne
  cases ht : s1.fdProperties with
  | none =>
    have hfr : s.oldBssCount ≠ s.bssCount := by
      rcases hin with ⟨rfl, heq⟩ | ⟨hne, -⟩
      · have hso := hfi.1 heq
        rw [ht] at hso
        cases hso
      · exact hne
    rw [step_set_none hs1 ht, if_pos hfr]
    exact ⟨s1, rfl, active, cached, hinv⟩
  | some table =>
    rw [step_set hs1 ht]
    have hsfd : s1.fd fd = table fd := by rw [State.fd, ht]
    refine ⟨_, rfl, ?_⟩
    by_cases hf : table fd = 0
    · rw [if_pos hf]
      rcases hinv.alloc hstarted (hn (hsfd.trans hf)) with hfa | ⟨ht', cached', hs⟩
      · rw [hfa]
        exact ⟨active, cached, hinv⟩
      · rw [if_neg hs.ne_zero]
        exact ⟨_, cached', hs.attach (ht'.trans ht) hfd hf truename openFlags⟩
    · rw [if_neg hf]
      exact ⟨active, cached, hinv.open_again⟩

/-- `__dup_fd_properties`. -/
theorem Inv.dup (h : Inv s active cached) (hs : source < 255)
    (ht : target < 255) (hf : s.fd target = 0) (hfi : s.fdProperties.isSome) :
    ∃ s', step s (.dup source target) = .ok s' ∧ Inv s' active cached := by
  obtain ⟨table, hta⟩ := isSome_iff_exists.mp hfi
  have hsfd := fd_eq hta
  rw [step, dupFdProperties, hta]
  dsimp only
  by_cases hne : table source ≠ 0
  · rw [if_pos hne]
    refine ⟨_, rfl, ?_⟩
    rw [hsfd] at hf
    have hl : ∀ q :
      FdProperties, ({ q with refCount := q.refCount + 1 } : FdProperties).next = q.next ∧
        ({ q with refCount := q.refCount + 1 } : FdProperties).prev = q.prev := fun _ => ⟨rfl, rfl⟩
    exact
      { activeList := h.activeList.modify_data hl _
        cachedList := h.cachedList.modify_data hl _
        mem_active := by
          intro q
          show q ∈ active ↔ q ≠ 0 ∧ ∃ i < 255, update table target (table source) i = q
          rw [h.mem_active, hsfd]
          refine and_congr_right fun hq => ?_
          rw [exists_update_iff ht (hf ▸ hq.symm)]
          exact ⟨.inr, fun hex => hex.elim (fun heq => ⟨source, hs, heq⟩) id⟩
        mem_cached := h.mem_cached
        refs := by
          intro q hq hqle
          show (Mem.modify _ (table source) _ q).refCount.toNat =
            occurrences 255 (update table target (table source)) q
          have hr := h.refs q hq hqle
          rw [hsfd] at hr
          by_cases hqs : q = table source
          · subst hqs
            have hnew := occurrences_update_new (f := table) ht (by rw [hf]; exact hq.symm)
            have hle := occurrences_le 255 (update table target (table source)) (table source)
            rw [modify_self, hnew, UInt8.toNat_add, hr]
            rw [hnew] at hle
            exact mod_eq_of_lt (by simpa using lt_succ_of_le hle)
          · rw [modify_of_ne _ hqs, hr,
              occurrences_update_other (by rw [hf]; exact hq.symm) (Ne.symm hqs)]
        bound := h.bound
        fresh := h.fresh
        named := by
          intro q hq
          have hn := h.named q hq
          grind [modify_apply, isTemporary] }
  · rw [if_neg hne]
    exact ⟨s, rfl, h⟩

/-! ### The last descriptor of an object -/

/-- What `close_fd` leaves. -/
structure Closed (s : State) (active : List ℕ) (p : ℕ) (s' : State) : Prop where
  rest : s' = { s with mem := s'.mem, removed := s'.removed }
  links : ∀ x, (s'.mem x).next = (s.mem x).next ∧ (s'.mem x).prev = (s.mem x).prev
  refCount : ∀ x, (s'.mem x).refCount = (s.mem x).refCount
  filename : ∀ x, (s'.mem x).filename = (s.mem x).filename
  temporary : ∀ x, (s'.mem x).isTemporary → (s.mem x).isTemporary ∨ (s.mem x).filename.isSome
  kept : (∃ q ∈ active, SameName s.mem p q) → s'.removed = s.removed
  deleted : ∀ name, (s.mem p).isTemporary → (s.mem p).filename = some name →
    (∀ q ∈ active, ¬ SameName s.mem p q) → s'.removed = name :: s.removed

/-- Another object has the name: it is marked, and nothing is deleted. -/
theorem closed_marked (hmem : q ∈ active) (hs : SameName s.mem p q) :
    Closed s active p { s with
      mem := s.mem.modify q fun p => { p with flags := p.flags ||| fileDescTemporary } } := by
  exact
    { rest := rfl
      links := by grind [modify_apply]
      refCount := by grind [modify_apply]
      filename := by grind [modify_apply]
      temporary := by
        intro x
        dsimp only
        rw [modify_apply]
        split_ifs with hx
        · obtain ⟨-, -, other, -, ho, -⟩ := hs
          rw [hx, ho]
          exact fun _ => .inr rfl
        · exact .inl
      kept := fun _ => rfl
      deleted := fun _ _ _ hn => absurd hs (hn q hmem) }

/-- `close_fd`, when the search meets no object without a name. -/
theorem closeFd_closed (hl : IsList s.mem s.activeFds active)
    (hlen : active.length ≤ s.allocated) (hn : (s.mem p).isTemporary → (s.mem p).filename.isSome)
    (hf : (s.mem p).isTemporary → s.findEqFilename p ≠ .error .nullName) :
    ∃ s', closeFd s p = .ok s' ∧ Closed s active p s' := by
  by_cases ht : (s.mem p).isTemporary
  · obtain ⟨name, hn⟩ := isSome_iff_exists.mp (hn ht)
    obtain ⟨q, hq⟩ := (findEqFilename_ends hl.leads (lt_succ_of_le hlen)).resolve_left (hf ht)
    have hs := findEqFilename_ok hl.leads hq
    have hc : closeFd s p = if q ≠ 0 then
        .ok { s with mem := s.mem.modify q fun p =>
          { p with flags := p.flags ||| fileDescTemporary } }
        else .ok { s with removed := name :: s.removed } := by
      have hq' : s.findEqFilename p = .ok q := hq
      rw [closeFd, if_pos ht, hq', hn]
      rfl
    by_cases hz : q = 0
    · rw [if_pos hz] at hs
      refine ⟨_, hc.trans (if_neg (not_not.mpr hz)), ?_⟩
      exact
        { rest := rfl
          links := fun x => ⟨rfl, rfl⟩
          refCount := fun x => rfl
          filename := fun x => rfl
          temporary := fun x => .inl
          kept := fun ⟨r, hr, hsa⟩ => absurd hsa (hs r hr)
          deleted := by
            intro name' _ hn' _
            rw [some.inj (hn.symm.trans hn')] }
    · rw [if_neg hz] at hs
      exact ⟨_, hc.trans (if_pos hz), closed_marked hs.1 hs.2⟩
  · refine ⟨s, if_neg ht, ?_⟩
    exact
      { rest := rfl
        links := fun x => ⟨rfl, rfl⟩
        refCount := fun x => rfl
        filename := fun x => rfl
        temporary := fun x => .inl
        kept := fun _ => rfl
        deleted := fun _ h => absurd h ht }

def State.dropped (s : State) (p : ℕ) : State :=
  { s with mem := s.mem.modify p fun q => { q with refCount := q.refCount - 1 } }

/-- The object `p` is put into the cache, and the descriptor `fd` has none. -/
def State.released (s : State) (table : ℕ → ℕ) (fd p : ℕ) : State :=
  { freeFdProperties { s with mem := s.mem.modify p fun q => { q with filename := none } } p with
    fdProperties := some (update table fd 0) }

@[simp] theorem dropped_refCount : ((s.dropped p).mem p).refCount = (s.mem p).refCount - 1 := by
  show ((s.mem.modify p _) p).refCount = _
  rw [modify_self]

theorem step_clear_shared (ht : s.fdProperties = some table) (hp : table fd ≠ 0)
    (hc : (s.mem (table fd)).refCount - 1 ≠ 0) :
    step s (.clear fd) =
      .ok { s.dropped (table fd) with fdProperties := some (update table fd 0) } := by
  have hd : ¬ ((s.dropped (table fd)).mem (table fd)).refCount = 0 := by
    rw [dropped_refCount]
    exact hc
  unfold dropped at hd ⊢
  cases s
  subst ht
  rw [step, clearFdProperties]
  dsimp only
  rw [if_neg hp, if_neg hd]
  rfl

theorem step_clear_last (ht : s.fdProperties = some table) (hp : table fd ≠ 0)
    (hco : (s.mem (table fd)).refCount - 1 = 0) :
    step s (.clear fd) =
      (fun s' => s'.released table fd (table fd)) <$> closeFd (s.dropped (table fd))
      (table fd) := by
  have hd : ((s.dropped (table fd)).mem (table fd)).refCount = 0 := by
    rw [dropped_refCount]
    exact hco
  cases hc : closeFd (s.dropped (table fd)) (table fd)
  all_goals
    unfold dropped at hd hc
    cases s
    subst ht
    rw [step, clearFdProperties]
    dsimp only
    rw [if_neg hp, if_pos hd, hc]
    rfl

theorem dropped_of_ne (hx : x ≠ p) : (s.dropped p).mem x = s.mem x := by
  unfold dropped
  dsimp only
  exact modify_of_ne _ hx

theorem dropped_data (s : State) (p x : ℕ) :
    (((s.dropped p).mem x).next = (s.mem x).next ∧ ((s.dropped p).mem x).prev = (s.mem x).prev) ∧
      ((s.dropped p).mem x).filename = (s.mem x).filename ∧
      ((s.dropped p).mem x).flags = (s.mem x).flags := by
  simp only [dropped]
  grind [modify_apply]

section

variable {table : ℕ → ℕ}

section

variable (h : Inv s active cached) (ht : s.fdProperties = some table) (hfd : fd < 255)
  (hp : table fd ≠ 0)
include h ht hfd hp

theorem Inv.refCount_eq :
    (s.mem (table fd)).refCount.toNat = occurrences 255 table (table fd) ∧
      0 < occurrences 255 table (table fd) := by
  have hsfd := fd_eq ht
  have hmem := h.fd_mem hfd (by rwa [hsfd])
  rw [hsfd] at hmem
  have hr := h.refs _ hp (h.bound _ hmem)
  rw [hsfd] at hr
  exact ⟨hr, occurrences_pos_iff.mpr ⟨fd, hfd, rfl⟩⟩

theorem Inv.refs_dropped (hq : q ≠ 0) (hqle : q ≤ s.allocated) :
    ((s.dropped (table fd)).mem q).refCount.toNat =
      occurrences 255 (update table fd 0) q := by
  have hsfd := fd_eq ht
  by_cases hqp : q = table fd
  · subst hqp
    obtain ⟨hc, hpos⟩ := h.refCount_eq ht hfd hp
    have hold := occurrences_update_old (f := table) hfd rfl hp.symm
    have hone : (1 : UInt8) ≤ (s.mem (table fd)).refCount := by
      rw [UInt8.le_iff_toNat_le, hc]
      exact hpos
    rw [dropped_refCount, UInt8.toNat_sub_of_le _ _ hone, hc, ← hold]
    rfl
  · rw [dropped_of_ne hqp, h.refs q hq hqle, hsfd, occurrences_update_other (Ne.symm hqp) hq.symm]

/-- The descriptor is not the last one of its object. -/
theorem Inv.clear_shared (hc : (s.mem (table fd)).refCount - 1 ≠ 0) :
    Inv { s.dropped (table fd) with fdProperties := some (update table fd 0) }
      active cached := by
  have hsfd := fd_eq ht
  have hr := fun q hq hqle => h.refs_dropped ht hfd hp (q := q) hq hqle
  have hd := dropped_data s (table fd)
  have hmem : table fd ∈ active := by
    rw [← hsfd] at hp ⊢
    exact h.fd_mem hfd hp
  -- another descriptor has the object
  have ho : ∃ i < 255, update table fd 0 i = table fd := by
    rw [← occurrences_pos_iff, ← hr _ hp (h.bound _ hmem), dropped_refCount, pos_iff_ne_zero]
    exact fun hz => hc (UInt8.toNat_inj.mp hz)
  exact
    { activeList := h.activeList.congr fun q _ => (hd q).1
      cachedList := h.cachedList.congr fun q _ => (hd q).1
      mem_active := by
        intro q
        show q ∈ active ↔ q ≠ 0 ∧ ∃ i < 255, update table fd 0 i = q
        rw [h.mem_active, hsfd]
        refine and_congr_right fun hq => ?_
        by_cases hqp : table fd = q
        · rw [← hqp]
          exact iff_of_true ⟨fd, hfd, rfl⟩ ho
        · rw [exists_update_iff hfd hqp]
          exact ⟨.inr, fun hex => hex.resolve_left hq.symm⟩
      mem_cached := h.mem_cached
      refs := hr
      bound := h.bound
      fresh := h.fresh
      named := by
        intro q hq
        rw [isTemporary, (hd q).2.1, (hd q).2.2]
        exact h.named q hq }

end

theorem Inv.length_le (h : Inv s active cached) : active.length ≤ s.allocated := by
  have hsub : active.toFinset ⊆ Finset.Icc 1 s.allocated := by
    intro q hq
    have hq' := mem_toFinset.mp hq
    exact Finset.mem_Icc.mpr ⟨Nat.one_le_iff_ne_zero.mpr ((h.mem_active q).mp hq').1, h.bound q hq'⟩
  have hc := Finset.card_le_card hsub
  rwa [toFinset_card_of_nodup h.activeList.nodup, Nat.card_Icc] at hc

def State.unnamed (s : State) (p : ℕ) : Mem := s.mem.modify p fun q => { q with filename := none }

theorem unnamed_of_ne (hx : x ≠ p) : s.unnamed p x = s.mem x := by
  exact modify_of_ne _ hx

theorem Closed.unnamed_links (h : Closed (s.dropped p) active p s') (q : ℕ) :
    ((s'.unnamed p q).next = (s.mem q).next ∧ (s'.unnamed p q).prev = (s.mem q).prev) ∧
      (s'.unnamed p q).refCount = ((s.dropped p).mem q).refCount := by
  have hl := h.links q
  rw [(dropped_data s p q).1.1, (dropped_data s p q).1.2] at hl
  rw [← h.refCount, unnamed]
  grind [modify_apply]

theorem Closed.released_eq (h : Closed (s.dropped p) active p s') :
    s'.released table fd p = { s with
      fdProperties := some (update table fd 0)
      activeFds := (removeList (s'.unnamed p) s.activeFds p).2
      cachedFds := p
      mem := (insertList (removeList (s'.unnamed p) s.activeFds p).1 s.cachedFds p).1
      removed := s'.removed } := by
  rw [h.rest]
  rfl

/-- The last object of the list is released. -/
theorem Inv.released (h : Inv s (active ++ [table fd]) cached)
    (ht : s.fdProperties = some table) (hfd : fd < 255) (hp : table fd ≠ 0)
    (hco : (s.mem (table fd)).refCount - 1 = 0)
    (hc : Closed (s.dropped (table fd)) (active ++ [table fd]) (table fd) s') :
    Inv (s'.released table fd (table fd)) active (table fd :: cached) := by
  have hsfd := fd_eq ht
  have hmem : table fd ∈ active ++ [table fd] := by simp
  have hnot : table fd ∉ active := fun hin =>
    (nodup_append.mp h.activeList.nodup).2.2 _ hin _ (mem_singleton_self _) rfl
  have hcac : table fd ∉ cached := fun hin => h.disjoint hmem hin
  have hre := fun q hq hqle => h.refs_dropped ht hfd hp (q := q) hq hqle
  have hno : ∀ i < 255, update table fd 0 i ≠ table fd := by
    rw [← occurrences_eq_zero_iff, ← hre _ hp (h.bound _ hmem), dropped_refCount, hco]
    rfl
  obtain ⟨m, hm⟩ : ∃ m : Mem, m = s'.unnamed (table fd) := ⟨_, rfl⟩
  have hl := hc.unnamed_links
  rw [← hm] at hl
  have ha : IsList m s.activeFds (active ++ [table fd]) := h.activeList.congr fun q _ => (hl q).1
  have hca : IsList m s.cachedFds cached := h.cachedList.congr fun q _ => (hl q).1
  have hr := removeList_isList ha
  have ho := hca.removeList_other ha hmem h.disjoint
  have hdi : cached.Disjoint active := fun q hq hq' => h.disjoint (mem_append_left _ hq') hq
  obtain ⟨m', hm'⟩ : ∃ m' : Mem, m' =
      (insertList (removeList m s.activeFds (table fd)).1 s.cachedFds (table fd)).1 := ⟨_, rfl⟩
  have hd : ∀ q, (m' q).refCount = (m q).refCount ∧ (m' q).filename = (m q).filename ∧
      (m' q).flags = (m q).flags := by
    intro q
    have h1 := removeList_sameData m s.activeFds (table fd) q
    have h2 := insertList_sameData (removeList m s.activeFds (table fd)).1 s.cachedFds (table fd) q
    rw [← hm'] at h2
    exact ⟨h2.1.trans h1.1, h2.2.1.trans h1.2.1, h2.2.2.trans h1.2.2⟩
  rw [hc.released_eq, ← hm, ← hm']
  exact
    { activeList := by
        rw [hm']
        exact hr.insertList_other ho hcac hp hnot hdi
      cachedList := by
        rw [hm']
        exact insertList_isList ho hcac hp
      mem_active := by
        intro q
        show q ∈ active ↔ q ≠ 0 ∧ ∃ i < 255, update table fd 0 i = q
        have hq := h.mem_active q
        rw [hsfd, mem_append, mem_singleton] at hq
        by_cases hqp : q = table fd
        · rw [hqp]
          exact iff_of_false hnot fun ⟨_, i, hi, heq⟩ => hno i hi heq
        rw [exists_update_iff hfd (Ne.symm hqp)]
        constructor
        · intro hqa
          obtain ⟨hqz, hex⟩ := hq.mp (.inl hqa)
          exact ⟨hqz, .inr hex⟩
        · rintro ⟨hqz, hex⟩
          exact (hq.mpr ⟨hqz, hex.resolve_left hqz.symm⟩).resolve_right hqp
      mem_cached := by
        intro q
        have hq := h.mem_cached q
        rw [mem_append, mem_singleton] at hq
        rw [mem_cons, hq]
        constructor
        · rintro (rfl | ⟨hb, hn⟩)
          · exact ⟨⟨hp, h.bound _ hmem⟩, hnot⟩
          · exact ⟨hb, fun hin => hn (.inl hin)⟩
        · rintro ⟨hb, hn⟩
          by_cases hqp : q = table fd
          · exact .inl hqp
          · exact .inr ⟨hb, fun hin => hin.elim hn hqp⟩
      refs := by
        intro q hq hqle
        rw [(hd q).1, (hl q).2]
        exact hre q hq hqle
      bound := fun q hq => h.bound q (mem_append_left _ hq)
      fresh := h.fresh
      named := by
        intro q hq
        have hqp : q ≠ table fd := ne_of_mem_of_not_mem hq hnot
        rw [isTemporary, (hd q).2.1, (hd q).2.2, hm, unnamed_of_ne hqp, hc.filename]
        intro hte
        rcases hc.temporary q hte with hold | hold
        · rw [dropped_of_ne hqp] at hold ⊢
          exact h.named q (mem_append_left _ hq) hold
        · exact hold }

end

end Properties
