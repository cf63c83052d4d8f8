import Mathlib.Tactic

/-!
# Runs that deliver output

A step takes an operation and delivers a part of the output, or gives up.
-/

namespace Collect

variable {σ ω β : Type}

/-- The operations one after the other, and the parts of the output one after the other. -/
def collect (step : σ → ω → Option (List β × σ)) : σ → List ω → Option (List β × σ)
  | s, [] => some ([], s)
  | s, o :: os => do
    let (out, s) ← step s o
    let (outs, s) ← collect step s os
    some (out ++ outs, s)

theorem collect_delivers {step : σ → ω → Option (List β × σ)} {inv : σ → Prop} {coming : σ → List β}
    {os : List ω}
    (hst : ∀ s, ∀ o ∈ os, inv s → ∃ out s', step s o = some (out, s') ∧ inv s' ∧ coming s =
      out ++ coming s') :
    ∀ {s}, inv s → ∃ out s', collect step s os = some (out, s') ∧ inv s' ∧ coming s = out ++
      coming s' := by
  induction os with
  | nil => exact fun {s} hs => ⟨[], s, rfl, hs, rfl⟩
  | cons o os ih =>
    intro s hs
    obtain ⟨out, s', hok, hs', hc⟩ := hst s o (.head _) hs
    obtain ⟨outs, s'', hrun, hs'', hc'⟩ := ih (fun s o ho => hst s o (.tail _ ho)) hs'
    refine ⟨out ++ outs, s'', ?_, hs'', ?_⟩
    · rw [collect, hok]
      dsimp only [bind, Option.bind]
      rw [hrun]
    · rw [hc, hc', List.append_assoc]

end Collect
