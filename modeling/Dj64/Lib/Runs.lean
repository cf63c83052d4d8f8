import Mathlib.Tactic

/-!
# Runs of a fallible step function

`run step s os` applies the operations `os` one after the other and stops at the first failure.
`Admits step legal s os` says that every operation is legal in the state in which it is applied.
-/

namespace Runs

open List

variable {σ ω ε β : Type} (step : σ → ω → Except ε σ) (legal : σ → ω → Prop) {os os' : List ω}

/-- Apply the operations in turn. -/
def run : σ → List ω → Except ε σ
  | s, [] => .ok s
  | s, o :: os =>
    match step s o with
    | .ok s' => run s' os
    | .error e => .error e

/-- Every operation is legal where it is applied. -/
def Admits : σ → List ω → Prop
  | _, [] => True
  | s, o :: os => legal s o ∧
    match step s o with
    | .ok s' => Admits s' os
    | .error _ => True

variable {step legal}

/-- Legality can be decided along a run. -/
instance decidableAdmits [∀ s o, Decidable (legal s o)] : ∀ s os, Decidable (Admits step legal s os)
  | _, [] => isTrue trivial
  | s, o :: os =>
    match h : step s o with
    | .ok s' =>
      have := decidableAdmits s' os
      decidable_of_iff (legal s o ∧ Admits step legal s' os) (by rw [Admits, h])
    | .error _ => decidable_of_iff (legal s o) (by rw [Admits, h, and_true])

theorem admits_of_forall (h : ∀ s, ∀ o ∈ os, legal s o) : ∀ s, Admits step legal s os := by
  induction os with
  | nil => exact fun _ => trivial
  | cons o os ih =>
    intro s
    refine ⟨h s o (.head _), ?_⟩
    cases step s o with
    | ok s' => exact ih (fun s o' ho' => h s o' (.tail _ ho')) s'
    | error e => exact trivial

theorem Admits.of_prefix (hp : os' <+: os) :
    ∀ {s}, Admits step legal s os → Admits step legal s os' := by
  obtain ⟨rest, rfl⟩ := hp
  induction os' with
  | nil => exact fun _ => trivial
  | cons o os ih =>
    intro s h
    refine ⟨h.1, ?_⟩
    have h2 := h.2
    revert h2
    cases step s o with
    | ok s' => exact fun h2 => ih h2
    | error e => exact id

variable {os : List ω} {inv right : σ → Prop} {s s' : σ}

/-- **Invariants of runs**: if legal steps from states with `inv` succeed and lead to states with
`inv`, so do legal runs. -/
theorem run_invariant (hst : ∀ s o, inv s → legal s o → ∃ s', step s o = .ok s' ∧ inv s') :
    ∀ {s}, inv s → Admits step legal s os → ∃ s', run step s os = .ok s' ∧ inv s' := by
  induction os with
  | nil => exact fun {s} hs _ => ⟨s, rfl, hs⟩
  | cons o os ih =>
    intro s hs h
    obtain ⟨s', hok, hs'⟩ := hst s o hs h.1
    have h2 := h.2
    rw [hok] at h2
    obtain ⟨s'', hrun, hs''⟩ := ih hs' h2
    refine ⟨s'', ?_, hs''⟩
    rw [run, hok]
    exact hrun

theorem admits_iff {p q : σ → ω → Prop} (hiff : ∀ s o, inv s → legal s o → (p s o ↔ q s o))
    (hinv : ∀ s o s', inv s → legal s o → p s o → step s o = .ok s' → inv s') :
    ∀ {s}, inv s → Admits step legal s os → (Admits step p s os ↔ Admits step q s os) := by
  induction os with
  | nil => exact fun _ _ => Iff.rfl
  | cons o os ih =>
    intro s hs h
    obtain ⟨ho, hr⟩ := h
    rw [Admits, hiff s o hs ho]
    refine and_congr_right fun hq => ?_
    cases hst : step s o with
    | error e => exact Iff.rfl
    | ok s' =>
      rw [hst] at hr
      exact ih (hinv s o s' hs ho ((hiff s o hs ho).mpr hq) hst) hr

theorem run_ok_iff (h : ∀ s, ∀ o ∈ os, (∃ s', step s o = .ok s') ↔ legal s o) :
    ∀ {s}, (∃ s', run step s os = .ok s') ↔ Admits step legal s os := by
  induction os with
  | nil => exact fun {s} => iff_of_true ⟨s, rfl⟩ trivial
  | cons o os ih =>
    intro s
    rw [run, Admits, ← h s o (.head _)]
    cases hs : step s o with
    | error e => simp
    | ok s' =>
      rw [ih fun s o' ho' => h s o' (.tail _ ho'), and_iff_right ⟨s', rfl⟩]

theorem run_cons_ok {o : ω} (h : step s o = .ok s') (os : List ω) :
    run step s (o :: os) = run step s' os := by
  rw [run, h]

theorem run_append_ok (h : run step s os = .ok s') (os' : List ω) :
    run step s (os ++ os') = run step s' os' := by
  induction os generalizing s with
  | nil =>
    cases h
    rfl
  | cons o os ih =>
    rw [run] at h
    rw [cons_append, run]
    cases hs : step s o with
    | error e =>
      rw [hs] at h
      cases h
    | ok s1 =>
      rw [hs] at h
      exact ih h

/-- After every part of a run, a list has grown by what the operations add, if and only if every
operation adds its part. -/
theorem accumulates_iff (total : σ → List β) (part : ω → List β) : ∀ {s : σ},
    (∀ os', os' <+: os → ∀ s', run step s os' = .ok s' → total s' = total s ++ os'.flatMap part) ↔
      Admits step (fun s o => ∀ s', step s o = .ok s' → total s' = total s ++ part o) s os := by
  induction os with
  | nil =>
    refine iff_of_true (fun os' hpre s' hrun => ?_) trivial
    rw [prefix_nil.mp hpre] at hrun ⊢
    cases hrun
    exact (append_nil _).symm
  | cons o os ih =>
    intro s
    constructor
    · intro h
      have hone (s' : σ) (hs' : step s o = .ok s') : total s' = total s ++ part o := by
        have := h [o] ⟨os, rfl⟩ s' (run_cons_ok hs' [])
        rwa [flatMap_cons, flatMap_nil, append_nil] at this
      refine ⟨hone, ?_⟩
      cases hs : step s o with
      | error e => exact trivial
      | ok s' =>
        refine ih.mp fun os' hpre s'' hrun => ?_
        have := h (o :: os') (cons_prefix_cons.mpr ⟨rfl, hpre⟩) s''
          ((run_cons_ok hs os').trans hrun)
        rw [this, hone s' hs, flatMap_cons, append_assoc]
    rintro ⟨hone, hr⟩ os' hpre s'' hrun
    cases os' with
    | nil =>
      cases hrun
      exact (append_nil _).symm
    | cons o' os' =>
      obtain ⟨rfl, hp'⟩ := cons_prefix_cons.mp hpre
      rw [run] at hrun
      cases hs : step s o' with
      | error e =>
        rw [hs] at hrun
        cases hrun
      | ok s' =>
        rw [hs] at hrun hr
        rw [ih.mpr hr os' hp' s'' hrun, hone s' hs, flatMap_cons, append_assoc]

/-- If exactly the operations with `p` lead from states with an invariant to states that are right,
and they keep the invariant, then all parts of a run succeed and lead to states that are right if
and only if all operations have `p`. -/
theorem always_iff (inv : σ → Prop) {p : σ → ω → Prop} (hr : ∀ s, inv s → right s)
    (hg : ∀ s o, inv s → p s o → ∃ s', step s o = .ok s' ∧ inv s')
    (hbad : ∀ s o s', inv s → step s o = .ok s' → right s' → p s o) :
    ∀ {s}, inv s →
    ((∀ os', os' <+: os → ∃ s', run step s os' = .ok s' ∧ right s') ↔ Admits step p s os) := by
  induction os with
  | nil =>
    intro s hs
    refine iff_of_true (fun os' hpre => ?_) trivial
    rw [prefix_nil.mp hpre]
    exact ⟨s, rfl, hr s hs⟩
  | cons o os ih =>
    intro s hs
    constructor
    · intro h
      obtain ⟨s', hrun, hs'⟩ := h [o] ⟨os, rfl⟩
      have hst : step s o = .ok s' := by
        cases hone : step s o with
        | error e =>
          rw [run, hone] at hrun
          cases hrun
        | ok t => rwa [run_cons_ok hone] at hrun
      have hp := hbad s o s' hs hst hs'
      obtain ⟨t, ht, hinv⟩ := hg s o hs hp
      refine ⟨hp, ?_⟩
      rw [ht]
      refine (ih hinv).mp fun os' hpre => ?_
      rw [← run_cons_ok ht]
      exact h (o :: os') (cons_prefix_cons.mpr ⟨rfl, hpre⟩)
    · rintro ⟨hp, hre⟩ os' hpre
      obtain ⟨t, ht, hinv⟩ := hg s o hs hp
      rw [ht] at hre
      cases os' with
      | nil => exact ⟨s, rfl, hr s hs⟩
      | cons o' os' =>
        obtain ⟨rfl, hp'⟩ := cons_prefix_cons.mp hpre
        rw [run_cons_ok ht]
        exact (ih hinv).mpr hre os' hp'

variable {α β : Type} {e : Except ε α}

@[simp] theorem ok_bind (a : α) (k : α → Except ε β) : Except.ok a >>= k = k a := rfl

theorem error_bind (x : ε) (k : α → Except ε β) :
    (Except.error x : Except ε α) >>= k = .error x := rfl

theorem bind_eq_ok {k : α → Except ε β} {b : β}
    (h : e >>= k = .ok b) : ∃ a, e = .ok a ∧ k a = .ok b := by
  cases e with
  | ok a => exact ⟨a, rfl, h⟩
  | error e => cases h

/-- The computation succeeds, with a result that has `p`. -/
def succeeds {α : Type*} (e : Except ε α) (p : α → Bool) : Bool :=
  match e with
  | .ok a => p a
  | .error _ => false

theorem exists_of_succeeds {α : Type*} {e : Except ε α} {p : α → Bool} (h : succeeds e p) :
    ∃ a, e = .ok a ∧ p a := by
  cases e with
  | ok a => exact ⟨a, rfl, h⟩
  | error e => exact absurd h (by simp [succeeds])

end Runs
