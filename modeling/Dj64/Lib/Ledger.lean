import Mathlib.Tactic

/-!
# Ledgers

A computation takes things and gives them back; its ledger lists both in order.  A thing may be
taken several times, and has to be given back as often.
-/

namespace Ledger

/-- Something is taken, or given back. -/
inductive Entry (ρ : Type) where
  | take (r : ρ)
  | give (r : ρ)
  deriving DecidableEq, Repr

variable {ρ : Type} [DecidableEq ρ] {es es' : List (Entry ρ)}

/-- What is held after the entries; `none` if something is given back that is not held. -/
def settle : List ρ → List (Entry ρ) → Option (List ρ)
  | held, [] => some held
  | held, .take r :: es => settle (r :: held) es
  | held, .give r :: es => if r ∈ held then settle (held.erase r) es else none

def Settled (es : List (Entry ρ)) : Prop := settle [] es = some []

instance (es : List (Entry ρ)) : Decidable (Settled es) :=
  inferInstanceAs (Decidable (settle [] es = some []))

theorem settle_append (held : List ρ) (es es' : List (Entry ρ)) :
    settle held (es ++ es') = (settle held es).bind fun held => settle held es' := by
  induction es generalizing held with
  | nil => rfl
  | cons e es ih =>
    cases e with
    | take r => exact ih (r :: held)
    | give r =>
      rw [List.cons_append, settle, settle]
      split_ifs
      · exact ih (held.erase r)
      · rfl

theorem settled_nil : Settled ([] : List (Entry ρ)) := rfl

theorem settled_pair (r : ρ) : Settled [.take r, .give r] := by
  simp [Settled, settle]

theorem Settled.append (h : Settled es) (h' : Settled es') : Settled (es ++ es') := by
  rw [Settled, settle_append, h]
  exact h'

theorem not_settled_of_settle (held : List ρ) (h : settle [] es = some held) (hne : held ≠ []) :
    ¬ Settled es := by
  intro hs
  rw [Settled, h, Option.some.injEq] at hs
  exact hne hs

end Ledger
