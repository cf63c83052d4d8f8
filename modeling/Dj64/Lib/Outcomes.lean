import Mathlib.Tactic

/-!
# Outcomes of computations with state and failures

A computation of `EStateM ε σ α` keeps its state when it fails.  `Ends E Q r` says that the outcome
`r` is a value with `Q` or a failure with `E`; both may speak about the state in which it ended.
-/

namespace Outcomes

variable {ε σ α β : Type} {E E' : ε → σ → Prop}

/-- The outcome is a value with `Q` or a failure with `E`. -/
def Ends (E : ε → σ → Prop) (Q : α → σ → Prop) : EStateM.Result ε σ α → Prop
  | .ok a s => Q a s
  | .error e s => E e s

variable {r : EStateM.Result ε σ α}

theorem Ends.mono {Q Q' : α → σ → Prop} (h : Ends E Q r)
    (hQ : ∀ a s, Q a s → Q' a s) : Ends E Q' r := by
  cases r with
  | ok a s => exact hQ a s h
  | error e s => exact h

variable {Q : α → σ → Prop}

theorem Ends.imp (h : Ends E Q r) (hE : ∀ e s, E e s → E' e s) : Ends E' Q r := by
  cases r with
  | ok a s => exact h
  | error e s => exact hE e s h

variable {R : β → σ → Prop} {c : EStateM ε σ α} {f : α → EStateM ε σ β} {s s' : σ} {a : α} {e : ε}

theorem Ends.bind (h : Ends E Q (c s)) (hf : ∀ a s', Q a s' → Ends E R (f a s')) :
    Ends E R ((c >>= f) s) := by
  show Ends E R (EStateM.bind c f s)
  unfold EStateM.bind
  cases hc : c s with
  | ok a s' =>
    rw [hc] at h
    exact hf a s' h
  | error e s' =>
    rw [hc] at h
    exact h

theorem ends_pure (h : Q a s) : Ends E Q ((pure a : EStateM ε σ α) s) := h

theorem ends_throw (h : E e s) : Ends E Q ((throw e : EStateM ε σ α) s) := h

theorem ends_modify {g : σ → σ} {f : Unit → EStateM ε σ β}
    (h : Ends E R (f () (g s))) : Ends E R ((modify g >>= f) s) := h

theorem ends_get {f : σ → EStateM ε σ β} (h : Ends E R (f s s)) : Ends E R ((get >>= f) s) := h

theorem bind_ok (h : c s = .ok a s') : (c >>= f) s = f a s' := by
  show EStateM.bind c f s = f a s'
  rw [EStateM.bind, h]

theorem bind_error (h : c s = .error e s') : (c >>= f) s = .error e s' := by
  show EStateM.bind c f s = .error e s'
  rw [EStateM.bind, h]

/-- The state in which the computation ended. -/
def final : EStateM.Result ε σ α → σ
  | .ok _ s => s
  | .error _ s => s

/-- How the computation failed, if it did. -/
def failure : EStateM.Result ε σ α → Option ε
  | .ok _ _ => none
  | .error e _ => some e

theorem Ends.of_failure (h : Ends E Q r) (he : failure r = some e) : E e (final r) := by
  cases r with
  | ok a s => cases he
  | error e' s =>
    obtain rfl : e' = e := Option.some.inj he
    exact h

theorem Ends.final {P : σ → Prop} (h : Ends E Q r)
    (hE : ∀ e s, E e s → P s) (hQ : ∀ a s, Q a s → P s) : P (final r) := by
  cases r with
  | ok a s => exact hQ a s h
  | error e s => exact hE e s h

/-! ### Relations between the first and the last state -/

/-- However `c` ends, the last state is related to the first one. -/
def Within (R : σ → σ → Prop) (c : EStateM ε σ α) : Prop := ∀ s, R s (final (c s))

variable {R : σ → σ → Prop}

theorem within_pure [Std.Refl R] (a : α) : Within R (pure a : EStateM ε σ α) :=
  fun s => Std.Refl.refl s

theorem within_get [Std.Refl R] : Within R (get : EStateM ε σ σ) := fun s => Std.Refl.refl s

theorem Within.bind [IsTrans σ R] (hc : Within R c)
    (hf : ∀ a, Within R (f a)) : Within R (c >>= f) := by
  intro s
  show R s (Outcomes.final (EStateM.bind c f s))
  unfold EStateM.bind
  have h := hc s
  cases hcs : c s with
  | ok a s' =>
    rw [hcs] at h
    exact IsTrans.trans s s' _ h (hf a s')
  | error e s' =>
    rw [hcs] at h
    exact h

end Outcomes
