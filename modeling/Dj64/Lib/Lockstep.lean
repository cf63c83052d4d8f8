import Dj64.Lib.Runs

/-!
# Lockstep simulation

Two systems take the same operations, the first one possibly failing.  Operations are legal by what
the second one, the specification, is like.
-/

namespace Lockstep

open Runs

variable {σ τ ω ε : Type}

/-- Every operation is legal in the state of the specification in which it is applied. -/
def Legal (legal : τ → ω → Prop) (spec : τ → ω → τ) : τ → List ω → Prop
  | _, [] => True
  | t, o :: os => legal t o ∧ Legal legal spec (spec t o) os

/-- **Simulation of runs.** -/
theorem run_simulates {step : σ → ω → Except ε σ} {spec : τ → ω → τ} {legal : τ → ω → Prop}
    {r : σ → τ → Prop} (hs : ∀ s t o, r s t → legal t o → ∃ s', step s o = .ok s' ∧
      r s' (spec t o)) {os : List ω} :
    ∀ {s t}, r s t → Legal legal spec t os → ∃ s', run step s os = .ok s' ∧ r s'
      (os.foldl spec t) := by
  induction os with
  | nil => exact fun {s t} h _ => ⟨s, rfl, h⟩
  | cons o os ih =>
    rintro s t h ⟨ho, hos⟩
    obtain ⟨s', hok, h'⟩ := hs s t o h ho
    obtain ⟨s'', hrun, h''⟩ := ih h' hos
    exact ⟨s'', (run_cons_ok hok os).trans hrun, h''⟩

end Lockstep
