import Dj64.Files.FdProps
import Dj64.Lib.LinkedList
import Dj64.Lib.Occurrences

/-!
# The lists of the properties of file descriptors

* `IsList`: a list of objects from a head on;
* `removeList_isList`: **the last object of a list is removed**;
* `removeList_head`, `removeList_prev`: what happens to the head and to the successor of an object
  that is not the last one.
-/

namespace Properties

open LinkedList List

variable {m m' : Mem} {head item x p he' : ℕ} {l l' : List ℕ}

theorem modify_apply (m : Mem) (p x : ℕ) (f : FdProperties → FdProperties) :
    m.modify p f x = if x = p then f (m p) else m x := by
  unfold Mem.modify
  rw [Function.update_apply]

@[simp] theorem modify_self (m : Mem) (p : ℕ) (f : FdProperties → FdProperties) :
    m.modify p f p = f (m p) := by rw [modify_apply, if_pos rfl]

theorem modify_of_ne (f : FdProperties → FdProperties) (h : x ≠ p) :
    m.modify p f x = m x := by rw [modify_apply, if_neg h]

/-- The objects of `l` are linked in this order, and `head` is the first. -/
structure IsList (m : Mem) (head : ℕ) (l : List ℕ) : Prop where
  head_eq : head = l.headD 0
  linked : DLinked (fun p => (m p).next) (fun p => (m p).prev) 0 l
  nodup : l.Nodup
  ne_zero : ∀ p ∈ l, p ≠ 0

theorem isList_nil (m : Mem) : IsList m 0 [] :=
  ⟨rfl, dlinked_nil _ _ _, nodup_nil, fun _ h => absurd h not_mem_nil⟩

theorem IsList.congr (h : IsList m head l)
    (hl : ∀ p ∈ l, (m' p).next = (m p).next ∧ (m' p).prev = (m p).prev) : IsList m' head l :=
  { h with linked := h.linked.congr hl }

theorem IsList.modify_other (h : IsList m head l) (hx : x ∉ l) (f : FdProperties → FdProperties) :
    IsList (m.modify x f) head l := by
  refine h.congr fun p hp => ?_
  rw [modify_of_ne f (ne_of_mem_of_not_mem hp hx)]
  exact ⟨rfl, rfl⟩

theorem IsList.modify_data (h : IsList m head l) {f : FdProperties → FdProperties}
    (hf : ∀ p, (f p).next = p.next ∧ (f p).prev = p.prev) (x : ℕ) :
    IsList (m.modify x f) head l := by
  refine h.congr fun p _ => ?_
  rw [modify_apply]
  split_ifs with hp
  · rw [hp]
    exact hf _
  · exact ⟨rfl, rfl⟩

theorem IsList.eq_nil (h : IsList m 0 l) : l = [] := by
  cases l with
  | nil => rfl
  | cons p l => exact absurd h.head_eq.symm (h.ne_zero p (.head _))

section

variable (h : IsList m head l)
include h

theorem IsList.head_mem (hne : head ≠ 0) : head ∈ l := by
  cases l with
  | nil => exact absurd h.head_eq hne
  | cons p l =>
    rw [h.head_eq]
    exact .head _

theorem IsList.head?_eq (hp : p ∈ l.head?) : head = p := by
  rw [h.head_eq, headD_eq_head?_getD, hp]
  rfl

theorem IsList.eq_append_of_next (hx : x ∈ l) (hn : (m x).next = 0) : ∃ l1, l = l1 ++ [x] := by
  obtain ⟨l1, l2, rfl⟩ := append_of_mem hx
  have hl := h.linked.around.2.1 (h.ne_zero x hx)
  dsimp only at hl
  rw [hn] at hl
  cases l2 with
  | nil => exact ⟨l1, rfl⟩
  | cons y l2 => exact absurd hl.symm (h.ne_zero y (by simp))

/-- The links of a member do not lead back to it. -/
theorem IsList.link_ne (hx : x ∈ l) : (m x).prev ≠ x ∧ (m x).next ≠ x := by
  obtain ⟨l1, l2, rfl⟩ := List.append_of_mem hx
  have hxz : x ≠ 0 := h.ne_zero x hx
  obtain ⟨hlo, hhi⟩ := h.linked.around
  have hnd := nodup_append.mp h.nodup
  constructor
  · intro heq
    have hp : (m x).prev = _ := hlo.2 hxz
    rw [heq] at hp
    have hmem := getLast_mem (l := 0 :: l1) (by simp)
    rw [← hp] at hmem
    rcases mem_cons.mp hmem with hz | hmem
    · exact hxz hz
    · exact hnd.2.2 x hmem x (.head _) rfl
  intro heq
  have hn : (m x).next = _ := hhi.1 hxz
  rw [heq] at hn
  have hmem := List.head_mem (l := l2 ++ [0]) (by simp)
  rw [← hn] at hmem
  rcases List.mem_append.mp hmem with hmem | hz
  · exact (nodup_cons.mp hnd.2.1).1 hmem
  · exact hxz (mem_singleton.mp hz)

theorem IsList.prev_next (hx : x ∈ l) (hne : (m x).next ≠ 0) :
    (m x).next ∈ l ∧ (m (m x).next).prev = x := by
  obtain ⟨l1, l2, rfl⟩ := append_of_mem hx
  have hn : (m x).next = _ := h.linked.around.2.1 (h.ne_zero x hx)
  have hp := h.linked.around.2.2
  rw [← hn] at hp
  exact ⟨(h.linked.fwd_mem hx (h.ne_zero x hx)).resolve_left hne, hp hne⟩

theorem IsList.prev_head (hne : head ≠ 0) : (m head).prev = 0 := by
  cases l with
  | nil => exact absurd h.head_eq hne
  | cons p l =>
    obtain rfl : head = p := h.head_eq
    exact h.linked.bwd_head hne

end

def SameData (m m' : Mem) : Prop := ∀ x, (m' x).refCount = (m x).refCount ∧
  (m' x).filename = (m x).filename ∧ (m' x).flags = (m x).flags

/-! ### Insertion -/

theorem insertList_next (hne : item ≠ head) :
    ((insertList m head item).1 x).next = if x = item then head else (m x).next := by
  unfold insertList
  grind [modify_apply]

theorem insertList_prev (x : ℕ) (hne : item ≠ head) : ((insertList m head item).1 x).prev =
      if x = item then 0 else if x = head ∧ head ≠ 0 then item else (m x).prev := by
  unfold insertList
  grind [modify_apply]

theorem insertList_sameData (m : Mem) (head item : ℕ) : SameData m (insertList m head item).1 := by
  intro x
  unfold insertList
  grind [modify_apply]

theorem IsList.ne_head (h : IsList m head l) (hit : item ∉ l) (hne : item ≠ 0) : item ≠ head := by
  rintro rfl
  exact hit (h.head_mem hne)

/-- An object is put in front of a list. -/
theorem insertList_isList (h : IsList m head l) (hit : item ∉ l) (hne : item ≠ 0) :
    IsList (insertList m head item).1 item (item :: l) where
  head_eq := rfl
  linked := by
    have hih := h.ne_head hit hne
    refine h.linked.push ?_ ?_ ?_ ?_ ?_
    · rw [insertList_next hih, if_pos rfl, ← h.head_eq]
    · rw [insertList_prev item hih, if_pos rfl]
    · intro y hy
      have hym : y ∈ l := mem_of_mem_head? hy
      rw [insertList_prev y hih, if_neg (ne_of_mem_of_not_mem hym hit), h.head?_eq hy,
        if_pos ⟨rfl, h.ne_zero y hym⟩]
    · intro y hy
      rw [insertList_next hih, if_neg (ne_of_mem_of_not_mem hy hit)]
    intro y hy
    rw [insertList_prev y hih, if_neg (ne_of_mem_of_not_mem (mem_of_mem_tail hy) hit), if_neg]
    rintro ⟨rfl, -⟩
    -- the head is not in the tail
    cases l with
    | nil => exact not_mem_nil hy
    | cons z l =>
      obtain rfl : y = z := h.head_eq
      exact (nodup_cons.mp h.nodup).1 hy
  nodup := nodup_cons.mpr ⟨hit, h.nodup⟩
  ne_zero := by
    intro p hp
    rcases mem_cons.mp hp with rfl | hp
    · exact hne
    · exact h.ne_zero p hp

theorem IsList.insertList_other (h' : IsList m he' l') (h : IsList m head l)
    (hit : item ∉ l) (hne : item ≠ 0) (hi' : item ∉ l') (hd : l.Disjoint l') :
    IsList (insertList m head item).1 he' l' := by
  have hih := h.ne_head hit hne
  refine h'.congr fun p hp => ?_
  have hpi : p ≠ item := ne_of_mem_of_not_mem hp hi'
  rw [insertList_next hih, insertList_prev p hih, if_neg hpi, if_neg hpi, if_neg]
  · exact ⟨rfl, rfl⟩
  · rintro ⟨rfl, hh⟩
    exact hd (h.head_mem hh) hp

/-! ### Removal -/

theorem removeList_next (head x : ℕ) (hp : (m item).prev ≠ item) :
    ((removeList m head item).1 x).next =
      if x = item then 0
      else if x = (m item).prev ∧ (m item).prev ≠ 0 then (m item).next
      else (m x).next := by
  unfold removeList
  grind [modify_apply]

theorem removeList_prev (head x : ℕ) (hp : (m item).prev ≠ item) (hn : (m item).next ≠ item) :
    ((removeList m head item).1 x).prev =
      if x = item then 0
      else if x = (m item).next ∧ (m item).next ≠ 0 then 0
      else (m x).prev := by
  unfold removeList
  grind [modify_apply]

theorem removeList_head (head : ℕ) (hp : (m item).prev ≠ item) :
    (removeList m head item).2 = if head = item then 0 else head := by
  have hn := removeList_next (m := m) item item hp
  unfold removeList at hn ⊢
  grind

theorem removeList_sameData (m : Mem) (head item : ℕ) : SameData m (removeList m head item).1 := by
  intro x
  unfold removeList
  grind [modify_apply]

/-- **The last object of a list is removed.** -/
theorem removeList_isList (h : IsList m head (l ++ [item])) :
    IsList (removeList m head item).1 (removeList m head item).2 l := by
  have hit : item ∈ l ++ [item] := by simp
  obtain ⟨hpr, hnex⟩ := h.link_ne hit
  have hl : (m item).next = 0 := h.linked.around.2.1 (h.ne_zero item hit)
  have hne : ∀ p ∈ l, p ≠ item := by
    rintro p hp rfl
    exact (nodup_append.mp h.nodup).2.2 p hp p (mem_singleton_self p) rfl
  refine ⟨?_, ?_, (nodup_append.mp h.nodup).1, fun p hp => h.ne_zero p (by simp [hp])⟩
  · rw [removeList_head head hpr, h.head_eq]
    cases l with
    | nil => exact if_pos rfl
    | cons p l => exact if_neg (hne p (.head _))
  have hu : DLinked (fun p => ((removeList m head item).1 p).next)
      (fun p => ((removeList m head item).1 p).prev) 0 (l ++ []) := by
    refine DLinked.unlink h.linked h.ne_zero ?_ ?_ ?_ ?_ h.nodup
    · exact fun hn => absurd hl hn
    · intro hp
      rw [removeList_next head _ hpr, if_neg hpr, if_pos ⟨rfl, hp⟩]
    · intro x hx hxp
      have hxl : x ∈ l := by simpa using hx
      rw [removeList_next head x hpr, if_neg (hne x hxl), if_neg fun hx => hxp hx.1]
    · intro x hx _
      have hxl : x ∈ l := by simpa using hx
      rw [removeList_prev head x hpr hnex, if_neg (hne x hxl), if_neg fun hx => hx.2 hl]
  rwa [append_nil] at hu

theorem IsList.removeList_other (h' : IsList m he' l') (h : IsList m head l)
    (hit : item ∈ l) (hd : l.Disjoint l') : IsList (removeList m head item).1 he' l' := by
  obtain ⟨hpr, hne⟩ := h.link_ne hit
  have hite := h.ne_zero item hit
  refine h'.congr fun p hp => ?_
  have hpl : p ∉ l := fun hpl => hd hpl hp
  have hpi : p ≠ item := fun heq => hpl (heq ▸ hit)
  rw [removeList_next head p hpr, removeList_prev head p hpr hne, if_neg hpi,
    if_neg hpi, if_neg, if_neg]
  · exact ⟨rfl, rfl⟩
  · rintro ⟨rfl, hn⟩
    exact hpl ((h.linked.fwd_mem hit hite).resolve_left hn)
  · rintro ⟨rfl, hz⟩
    exact hpl ((h.linked.bwd_mem hit hite).resolve_left hz)

/-! ### Search -/

/-- The links to the successors lead through `l`. -/
def Leads (m : Mem) : ℕ → List ℕ → Prop
  | ptr, [] => ptr = 0
  | ptr, p :: l => ptr = p ∧ p ≠ 0 ∧ Leads m (m p).next l

theorem IsList.leads (h : IsList m head l) : Leads m head l := by
  have hc : ∀ (x : ℕ) (l : List ℕ), (∀ p ∈ l, p ≠ 0) →
      List.IsChain (Linked (fun p => (m p).next) (fun p => (m p).prev) 0) (x :: (l ++ [0])) →
      x ≠ 0 → Leads m (m x).next l := by
    intro x l
    induction l generalizing x with
    | nil =>
      intro _ hc hx
      exact (isChain_cons_cons.mp hc).1.1 hx
    | cons p l ih =>
      intro hne hc hx
      obtain ⟨hl, hr⟩ := isChain_cons_cons.mp hc
      have hp := hne p (.head _)
      exact ⟨hl.1 hx, hp, ih p (forall_mem_cons.mp hne).2 hr hp⟩
  cases l with
  | nil => exact h.head_eq
  | cons p l =>
    have hp := h.ne_zero p (.head _)
    refine ⟨h.head_eq, hp, hc p l (forall_mem_cons.mp h.ne_zero).2 ?_ hp⟩
    exact (isChain_cons_cons.mp h.linked).2

/-- Another object with the name of `fd`. -/
def SameName (m : Mem) (fd p : ℕ) : Prop := p ≠ fd ∧ ∃ name other, (m fd).filename = some name ∧
  (m p).filename = some other ∧ Exec.sameName name other = true

variable {fd ptr fuel q : ℕ}

/-- The search returns the first other object with the name. -/
theorem findEqFilename_ok (h : Leads m ptr l) (hf : findEqFilename m fd fuel ptr = .ok q) :
    if q = 0 then ∀ p ∈ l, ¬ SameName m fd p else q ∈ l ∧ SameName m fd q := by
  induction l generalizing ptr fuel with
  | nil =>
    obtain rfl : ptr = 0 := h
    cases fuel with
    | zero => cases hf
    | succ fuel =>
      obtain rfl : 0 = q := Except.ok.inj hf
      exact fun p hp => absurd hp not_mem_nil
  | cons p l ih =>
    obtain ⟨rfl, hp, hl⟩ := h
    cases fuel with
    | zero => cases hf
    | succ fuel =>
      rw [findEqFilename, if_neg hp] at hf
      -- the search goes on behind `p`, which is not such an object
      have hsk : findEqFilename m fd fuel (m ptr).next = .ok q → ¬ SameName m fd ptr →
          if q = 0 then ∀ p ∈ ptr :: l, ¬ SameName m fd p else q ∈ ptr :: l ∧ SameName m fd q := by
        intro hr hptr
        have hih := ih hl hr
        split_ifs at hih ⊢ with hq
        · exact forall_mem_cons.mpr ⟨hptr, hih⟩
        · exact ⟨.tail _ hih.1, hih.2⟩
      by_cases hfd : ptr = fd
      · rw [if_neg (not_not.mpr hfd)] at hf
        exact hsk hf fun hs => hs.1 hfd
      rw [if_pos hfd] at hf
      split at hf
      · rename_i name other hn ho
        split_ifs at hf with hs
        · obtain rfl : ptr = q := Except.ok.inj hf
          rw [if_neg hp]
          exact ⟨.head _, hfd, name, other, hn, ho, hs⟩
        refine hsk hf ?_
        rintro ⟨-, name', other', hn', ho', hs'⟩
        rw [hn] at hn'
        rw [ho] at ho'
        cases hn'
        cases ho'
        exact hs hs'
      · cases hf

/-- The search ends, and fails only at an object without a name. -/
theorem findEqFilename_ends (h : Leads m ptr l) (hf : l.length < fuel) :
    findEqFilename m fd fuel ptr = .error .nullName ∨ ∃ q,
      findEqFilename m fd fuel ptr = .ok q := by
  induction l generalizing ptr fuel with
  | nil =>
    obtain rfl : ptr = 0 := h
    cases fuel with
    | zero => exact absurd hf (Nat.not_lt_zero _)
    | succ fuel => exact .inr ⟨0, rfl⟩
  | cons p l ih =>
    obtain ⟨rfl, hp, hl⟩ := h
    cases fuel with
    | zero => exact absurd hf (Nat.not_lt_zero _)
    | succ fuel =>
      have hr := ih hl (Nat.lt_of_succ_lt_succ hf)
      rw [findEqFilename, if_neg hp]
      split_ifs
      · split
        · split_ifs
          · exact .inr ⟨ptr, rfl⟩
          · exact hr
        · exact .inl rfl
      · exact hr

theorem findEqFilename_congr
    (h : ∀ x, (m' x).filename = (m x).filename ∧ (m' x).next = (m x).next) (fd fuel ptr : ℕ) :
    findEqFilename m' fd fuel ptr = findEqFilename m fd fuel ptr := by
  induction fuel generalizing ptr with
  | zero => rfl
  | succ fuel ih => rw [findEqFilename, findEqFilename, (h fd).1, (h ptr).1, (h ptr).2, ih]

end Properties
