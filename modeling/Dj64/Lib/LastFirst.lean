import Mathlib.Data.List.Nodup
import Mathlib.Data.List.Infix
import Mathlib.Tactic

/-!
# Last in, first out, read off a trace

A trace records which things were added and which were taken, in order.
-/

namespace LastFirst

open List

/-- Something is added, or taken. -/
inductive Action (α : Type) where
  | add (a : α)
  | take (a : α)
  deriving DecidableEq, Repr

variable {α : Type} {a : α}

/-- What a trace adds. -/
def added (t : List (Action α)) : List α :=
  t.filterMap fun
    | .add a => some a
    | .take _ => none

/-- What a trace takes. -/
def taken (t : List (Action α)) : List α :=
  t.filterMap fun
    | .add _ => none
    | .take a => some a

@[simp] theorem added_nil : added ([] : List (Action α)) = [] := rfl

@[simp] theorem taken_nil : taken ([] : List (Action α)) = [] := rfl

@[simp] theorem added_append (t u : List (Action α)) : added (t ++ u) = added t ++ added u :=
  filterMap_append ..

@[simp] theorem taken_append {t u : List (Action α)} : taken (t ++ u) = taken t ++ taken u :=
  filterMap_append ..

@[simp] theorem added_add (a : α) : added [.add a] = [a] := rfl

@[simp] theorem added_take (a : α) : added [.take a] = [] := rfl

@[simp] theorem taken_add : taken [.add a] = [] := rfl

@[simp] theorem taken_take : taken [.take a] = [a] := rfl

variable [DecidableEq α]

def left (t : List (Action α)) : List α := (added t).filter fun a => a ∉ taken t

def Ordered (t : List (Action α)) : Prop :=
  ∀ t₁ a t₂, t = t₁ ++ .take a :: t₂ → (left t₁).getLast? = some a

variable {t u t1 t2 : List (Action α)} {a : α}

theorem mem_left : a ∈ left t ↔ a ∈ added t ∧ a ∉ taken t := by
  rw [left, mem_filter, decide_eq_true_iff]

/-! ### One more action -/

theorem left_add (ha : a ∉ taken t) : left (t ++ [.add a]) = left t ++ [a] := by
  simp [left, ha]

theorem left_take {l : List α} (hnd : (added t).Nodup)
    (hl : left t = l ++ [a]) : left (t ++ [.take a]) = l := by
  have hnd' : (l ++ [a]).Nodup := hl ▸ hnd.filter _
  have ha : a ∉ l := by
    rw [nodup_append] at hnd'
    exact fun hmem => hnd'.2.2 a hmem a (mem_singleton_self a) rfl
  have hf : left (t ++ [.take a]) = (left t).filter (· ≠ a) := by
    simp only [left, added_append, added_take, append_nil, taken_append, mem_append, filter_filter]
    refine filter_congr fun b _ => ?_
    by_cases hb : b = a <;> simp [hb]
  rw [hf, hl, filter_append, filter_eq_self.mpr]
  · simp
  · intro b hb
    exact decide_eq_true fun heq => ha (heq ▸ hb)

theorem Ordered.of_append (h : Ordered (t ++ u)) : Ordered t :=
  fun t1 a t2 heq => h t1 a (t2 ++ u) (by rw [heq, append_assoc]; rfl)

omit [DecidableEq α] in
theorem snoc_split {x y : Action α} (h : t ++ [x] = t1 ++ y :: t2) :
    (t1 = t ∧ x = y) ∨ ∃ t3, t = t1 ++ y :: t3 := by
  rcases eq_nil_or_concat t2 with rfl | ⟨t3, z, rfl⟩
  · obtain ⟨rfl, hx⟩ := append_inj' h rfl
    cases hx
    exact .inl ⟨rfl, rfl⟩
  · rw [concat_eq_append, ← cons_append, ← append_assoc] at h
    exact .inr ⟨t3, (append_inj' h rfl).1⟩

theorem ordered_nil : Ordered ([] : List (Action α)) :=
  fun _ _ _ h => absurd h.symm (append_ne_nil_of_right_ne_nil _ (cons_ne_nil _ _))

theorem ordered_add_iff : Ordered (t ++ [.add a]) ↔ Ordered t := by
  refine ⟨Ordered.of_append, fun h t1 b t2 heq => ?_⟩
  rcases snoc_split heq with ⟨-, hx⟩ | ⟨t3, ht⟩
  · cases hx
  · exact h t1 b t3 ht

theorem ordered_take_iff : Ordered (t ++ [.take a]) ↔ Ordered t ∧ (left t).getLast? = some a := by
  refine ⟨fun h => ⟨h.of_append, h t a [] rfl⟩, fun ⟨h, hl⟩ t1 b t2 heq => ?_⟩
  rcases snoc_split heq with ⟨rfl, hx⟩ | ⟨t3, ht⟩
  · cases hx
    exact hl
  · exact h t1 b t3 ht

/-! ### Whole traces -/

theorem Ordered.nodup_taken (h : Ordered t) : (taken t).Nodup := by
  induction t using List.reverseRecOn with
  | nil => exact nodup_nil
  | append_singleton t x ih =>
    have hnd := ih h.of_append
    cases x with
    | add a => simpa using hnd
    | take a =>
      have ha := mem_of_getLast? (ordered_take_iff.mp h).2
      rw [taken_append, nodup_append]
      refine ⟨hnd, nodup_singleton a, fun b hb c hc heq => ?_⟩
      rw [heq, mem_singleton.mp hc] at hb
      exact (mem_left.mp ha).2 hb

theorem Ordered.mem_added (h : Ordered t) (ha : a ∈ taken t) : a ∈ added t := by
  induction t using List.reverseRecOn with
  | nil => cases ha
  | append_singleton t x ih =>
    rw [added_append, mem_append]
    rw [taken_append, mem_append] at ha
    rcases ha with ha | ha
    · exact .inl (ih h.of_append ha)
    cases x with
    | add b => cases ha
    | take b =>
      rw [taken_take, mem_singleton] at ha
      have hb := mem_of_getLast? (ordered_take_iff.mp h).2
      exact .inl (ha ▸ (mem_left.mp hb).1)

/-- **Everything is taken once** in a trace that is ordered, exactly if nothing is left. -/
theorem Ordered.count_taken_iff (h : Ordered t) :
    (∀ a ∈ added t, (taken t).count a = 1) ↔ left t = [] := by
  constructor
  · intro hc
    refine eq_nil_iff_forall_not_mem.mpr fun a ha => ?_
    obtain ⟨hadd, ht⟩ := mem_left.mp ha
    have hone := hc a hadd
    rw [count_eq_zero_of_not_mem ht] at hone
    exact zero_ne_one hone
  intro hl a ha
  refine count_eq_one_of_mem h.nodup_taken ?_
  by_contra ht
  have hmem := mem_left.mpr ⟨ha, ht⟩
  rw [hl] at hmem
  cases hmem

end LastFirst
