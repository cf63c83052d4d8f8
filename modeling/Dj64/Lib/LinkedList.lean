import Mathlib.Tactic
import Mathlib.Data.List.Chain

/-!
# Doubly linked lists given by two link functions

A list of nodes is threaded through two functions: `fwd x` is the successor of the node `x` and
`bwd x` its predecessor, and one value `e`, which is no node, closes the list at both ends.
-/

namespace LinkedList

open List

variable {α : Type*} {fwd bwd fwd' bwd' : α → α} {e : α} {l l1 l2 : List α}

/-- `x` and `y` are neighbours; the end mark carries no links of its own. -/
def Linked (fwd bwd : α → α) (e x y : α) : Prop := (x ≠ e → fwd x = y) ∧ (y ≠ e → bwd y = x)

/-- The nodes of `l` are linked both ways, from the end mark to the end mark. -/
def DLinked (fwd bwd : α → α) (e : α) (l : List α) : Prop :=
  List.IsChain (Linked fwd bwd e) (e :: (l ++ [e]))

theorem dlinked_nil (fwd bwd : α → α) (e : α) : DLinked fwd bwd e [] :=
  isChain_pair.2 ⟨fun h => absurd rfl h, fun h => absurd rfl h⟩

theorem DLinked.congr (h : DLinked fwd bwd e l)
    (hl : ∀ x ∈ l, fwd' x = fwd x ∧ bwd' x = bwd x) : DLinked fwd' bwd' e l := by
  refine List.IsChain.imp_of_mem_imp ?_ h
  intro x y hx hy hxy
  have hmem : ∀ z, z ∈ e :: (l ++ [e]) → z ≠ e → z ∈ l := by
    intro z hz hne
    simpa [hne] using hz
  exact ⟨fun hne => (hl x (hmem x hx hne)).1.trans (hxy.1 hne),
    fun hne => (hl y (hmem y hy hne)).2.trans (hxy.2 hne)⟩

variable {m : α}

theorem DLinked.around (h : DLinked fwd bwd e (l1 ++ m :: l2)) :
    Linked fwd bwd e ((e :: l1).getLast (by simp)) m ∧
      Linked fwd bwd e m ((l2 ++ [e]).head (by simp)) := by
  have h' : List.IsChain (Linked fwd bwd e) ((e :: l1) ++ m :: (l2 ++ [e])) := by
    simpa [DLinked] using h
  rw [isChain_append] at h'
  obtain ⟨-, h2, h3⟩ := h'
  refine ⟨h3 _ (getLast?_eq_some_getLast (by simp)) _ rfl, ?_⟩
  rw [isChain_cons] at h2
  exact h2.1 _ (head?_eq_some_head (by simp))

theorem DLinked.fwd_mem (h : DLinked fwd bwd e l) (hm : m ∈ l) (hne : m ≠ e) :
    fwd m = e ∨ fwd m ∈ l := by
  obtain ⟨l1, l2, rfl⟩ := append_of_mem hm
  have hf := h.around.2.1 hne
  have hmem := head_mem (l := l2 ++ [e]) (by simp)
  rw [← hf] at hmem
  rcases mem_append.1 hmem with h2 | h2
  · right; simp [h2]
  · left; simpa using h2

theorem DLinked.bwd_mem (h : DLinked fwd bwd e l) (hm : m ∈ l) (hne : m ≠ e) :
    bwd m = e ∨ bwd m ∈ l := by
  obtain ⟨l1, l2, rfl⟩ := append_of_mem hm
  have hb := h.around.1.2 hne
  have hmem := getLast_mem (l := e :: l1) (by simp)
  rw [← hb] at hmem
  rcases mem_cons.1 hmem with h2 | h2
  · exact .inl h2
  · right; simp [h2]

theorem DLinked.bwd_head (h : DLinked fwd bwd e (m :: l)) (hne : m ≠ e) : bwd m = e := by
  have h' : List.IsChain (Linked fwd bwd e) (e :: m :: (l ++ [e])) := h
  exact (isChain_cons_cons.1 h').1.2 hne

theorem DLinked.eq_head_of_bwd (h : DLinked fwd bwd e l) (hm : m ∈ l)
    (hl : ∀ x ∈ l, x ≠ e) (hb : bwd m = e) : ∃ l', l = m :: l' := by
  obtain ⟨l1, l2, rfl⟩ := append_of_mem hm
  have h1 := h.around.1.2 (hl m hm)
  rw [hb] at h1
  rcases eq_nil_or_concat l1 with rfl | ⟨l0, x, rfl⟩
  · exact ⟨l2, rfl⟩
  · have hx : x = e := by simpa using h1.symm
    exact absurd hx (hl x (by simp))

/-- Put a new node in front. -/
theorem DLinked.push (h : DLinked fwd bwd e l) (hm : fwd' m = l.headD e)
    (hb : bwd' m = e) (hh : ∀ y ∈ l.head?, bwd' y = m)
    (hf : ∀ x ∈ l, fwd' x = fwd x) (hbw : ∀ x ∈ l.tail, bwd' x = bwd x) :
    DLinked fwd' bwd' e (m :: l) := by
  cases l with
  | nil =>
    refine isChain_cons_cons.2 ⟨⟨fun h => absurd rfl h, fun _ => hb⟩, ?_⟩
    exact isChain_pair.2 ⟨fun _ => hm, fun h => absurd rfl h⟩
  | cons y l =>
    have hy : bwd' y = m := hh y rfl
    have h' : List.IsChain (Linked fwd bwd e) (y :: (l ++ [e])) :=
      (isChain_cons_cons.1 (show List.IsChain _ (e :: y :: (l ++ [e])) from h)).2
    refine isChain_cons_cons.2 ⟨⟨fun h => absurd rfl h, fun _ => hb⟩,
      isChain_cons_cons.2 ⟨⟨fun _ => hm, fun _ => hy⟩, ?_⟩⟩
    -- behind the old head every predecessor link is the old one
    refine List.IsChain.imp_of_mem_tail_imp ?_ h'
    intro a b ha hb' hab
    have ha' : a ≠ e → a ∈ y :: l := fun hne => by simpa [hne] using ha
    have hb'' : b ≠ e → b ∈ l := fun hne => by simpa [hne] using hb'
    exact ⟨fun hne => (hf a (ha' hne)).trans (hab.1 hne),
      fun hne => (hbw b (hb'' hne)).trans (hab.2 hne)⟩

section Unlink

variable {l1 l2 : List α} {m x : α} (h : DLinked fwd bwd e (l1 ++ m :: l2))
  (hl : ∀ x ∈ l1 ++ m :: l2, x ≠ e)
  (hnext : fwd m ≠ e → bwd' (fwd m) = bwd m) (hprev : bwd m ≠ e → fwd' (bwd m) = fwd m)
  (hf : ∀ x ∈ l1 ++ l2, x ≠ bwd m → fwd' x = fwd x)
  (hb : ∀ x ∈ l1 ++ l2, x ≠ fwd m → bwd' x = bwd x) (hnd : (l1 ++ m :: l2).Nodup)

include h hl hnd

theorem DLinked.ne_fwd (hx : x ∈ l1) (hne : x ≠ e) : x ≠ fwd m := by
  intro heq
  have hmem := head_mem (l := l2 ++ [e]) (by simp)
  rw [← h.around.2.1 (hl m (by simp)), ← heq] at hmem
  rcases mem_append.1 hmem with hin | hin
  · exact disjoint_of_nodup_append hnd hx (by simp [hin])
  · exact hne (by simpa using hin)

theorem DLinked.ne_bwd (hx : x ∈ l2) (hne : x ≠ e) : x ≠ bwd m := by
  intro heq
  have hmem := getLast_mem (l := e :: l1) (by simp)
  rw [← h.around.1.2 (hl m (by simp)), ← heq] at hmem
  rcases mem_cons.1 hmem with hin | hin
  · exact hne hin
  · exact disjoint_of_nodup_append hnd hin (by simp [hx])

include hf hb

theorem DLinked.unlink_left (h1 : List.IsChain (Linked fwd bwd e) (e :: l1)) :
    List.IsChain (Linked fwd' bwd' e) (e :: l1) := by
  refine List.IsChain.imp_of_mem_tail_imp ?_ h1
  intro a b ha hb' hab
  have hb1 : b ∈ l1 := by simpa using hb'
  refine ⟨fun hne => ?_, fun hne => ?_⟩
  · have ha' : a ∈ l1 := by simpa [hne] using ha
    have hne' : a ≠ bwd m := by
      -- the last node before `m` leads to `m`, which is not in front of itself
      intro heq
      have hla := h.around.1.1
      rw [← h.around.1.2 (hl m (by simp)), ← heq] at hla
      have hbm : b = m := (hab.1 hne).symm.trans (hla hne)
      exact disjoint_of_nodup_append hnd (hbm ▸ hb1) (by simp)
    exact (hf a (by simp [ha']) hne').trans (hab.1 hne)
  · exact (hb b (by simp [hb1]) (h.ne_fwd hl hnd hb1 hne)).trans (hab.2 hne)

/-- The nodes behind `m` stay linked. -/
theorem DLinked.unlink_right (h2 : List.IsChain (Linked fwd bwd e) (l2 ++ [e])) :
    List.IsChain (Linked fwd' bwd' e) (l2 ++ [e]) := by
  refine List.IsChain.imp_of_mem_tail_imp ?_ h2
  intro a b ha hb' hab
  refine ⟨fun hne => ?_, fun hne => ?_⟩
  · have ha' : a ∈ l2 := by simpa [hne] using ha
    exact (hf a (by simp [ha']) (h.ne_bwd hl hnd ha' hne)).trans (hab.1 hne)
  -- `b` is not the first node after `m`
  cases l2 with
  | nil => simp at hb'
  | cons y l2 =>
    have hb2 : b ∈ l2 := by
      have hmem : b ∈ l2 ++ [e] := by simpa using hb'
      simpa [hne] using hmem
    have hfy : fwd m = y := by simpa using h.around.2.1 (hl m (by simp))
    have hne' : b ≠ fwd m := by
      intro heq
      rw [hfy] at heq
      have hnd2 := (nodup_append.1 hnd).2.1
      rw [nodup_cons, nodup_cons] at hnd2
      exact hnd2.2.1 (heq ▸ hb2)
    exact (hb b (by simp [hb2]) hne').trans (hab.2 hne)

include hnext hprev

/-- Take the node `m` out: its neighbours are linked to each other, every other link is kept. -/
theorem DLinked.unlink : DLinked fwd' bwd' e (l1 ++ l2) := by
  have hbm := h.around.1.2 (hl m (by simp))
  have hfm := h.around.2.1 (hl m (by simp))
  have h' : List.IsChain (Linked fwd bwd e) ((e :: l1) ++ m :: (l2 ++ [e])) := by
    simpa [DLinked] using h
  rw [isChain_append] at h'
  obtain ⟨h1, h2, -⟩ := h'
  have hg : List.IsChain (Linked fwd' bwd' e) ((e :: l1) ++ (l2 ++ [e])) := by
    refine isChain_append.2 ⟨h.unlink_left hl hf hb hnd h1,
      h.unlink_right hl hf hb hnd (isChain_cons.1 h2).2, ?_⟩
    intro x hx y hy
    have hx' : x = bwd m := by
      rw [hbm]
      simp only [getLast?_eq_some_getLast (l := e :: l1) (by simp), Option.mem_some_iff] at hx
      exact hx.symm
    have hy' : y = fwd m := by
      rw [hfm]
      simp only [head?_eq_some_head (l := l2 ++ [e]) (by simp), Option.mem_some_iff] at hy
      exact hy.symm
    subst hx' hy'
    exact ⟨hprev, hnext⟩
  simpa [DLinked] using hg

end Unlink

end LinkedList
