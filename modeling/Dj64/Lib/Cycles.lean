import Mathlib.Data.Set.Finite.Basic
import Mathlib.Order.WellFounded
import Mathlib.Logic.Relation
import Mathlib.Order.RelClasses
import Mathlib.Tactic

/-!
# Descents along a relation

`Acc (flip r) a` says that every descent along `r` from `a` comes to an end.
-/

namespace Cycles

open Relation

variable {α : Type} {r : α → α → Prop} {a b : α}

theorem not_cycle_of_acc (h : Acc (flip r) a) : ¬ TransGen r a a := by
  intro hc
  have hacc : Acc (TransGen (flip r)) a := h.transGen
  have hf : TransGen (flip r) a a := transGen_swap.mpr hc
  clear h hc
  induction hacc with
  | intro a _ ih => exact ih a hf hf

theorem acc_of_reached (h : Acc (flip r) a) (hab : ReflTransGen r a b) : Acc (flip r) b := by
  induction hab with
  | refl => exact h
  | tail _ hbc ih => exact ih.inv hbc

/-- **Descents end exactly if no point reached is on a cycle**, if finitely many points are reached.
-/
theorem acc_iff_acyclic (hfin : {b | ReflTransGen r a b}.Finite) :
    Acc (flip r) a ↔ ∀ b, ReflTransGen r a b → ¬ TransGen r b b := by
  constructor
  · exact fun h b hab => not_cycle_of_acc (acc_of_reached h hab)
  intro ha
  have : Finite {b | ReflTransGen r a b} := hfin
  -- on the points that are reached, what comes later is smaller
  let later (x y : {b | ReflTransGen r a b}) : Prop := TransGen r y.1 x.1
  have : Std.Irrefl later := ⟨fun x => ha x.1 x.2⟩
  have hwf : WellFounded later := Finite.wellFounded_of_trans_of_irrefl later
  have hacc (x : {b | ReflTransGen r a b}) : Acc (flip r) x.1 := by
    induction x using hwf.induction with
    | _ x ih =>
      exact ⟨x.1, fun y hy => ih ⟨y, x.2.tail hy⟩ (TransGen.single hy)⟩
  exact hacc ⟨a, ReflTransGen.refl⟩

/-- **Enough fuel**: `done` needs one unit of fuel for each step along `r`. -/
theorem exists_bound_iff_acc (done : ℕ → α → Prop) (hz : ∀ a, done 0 a ↔ ∀ b, ¬ r a b)
    (hs : ∀ n a, done (n + 1) a ↔ ∀ b, r a b → done n b)
    (hf : ∀ a, {b | r a b}.Finite) : (∃ n, done n a) ↔ Acc (flip r) a := by
  have hm (n : ℕ) (a : α) (h : done n a) : done (n + 1) a := by
    induction n generalizing a with
    | zero => exact (hs 0 a).mpr fun b hab => absurd hab ((hz a).mp h b)
    | succ n ih => exact (hs _ a).mpr fun b hab => ih b ((hs n a).mp h b hab)
  constructor
  · rintro ⟨n, h⟩
    induction n generalizing a with
    | zero => exact ⟨a, fun b hab => absurd hab ((hz a).mp h b)⟩
    | succ n ih => exact ⟨a, fun b hab => ih ((hs n a).mp h b hab)⟩
  intro h
  induction h with
  | intro a _ ih =>
    choose! fuel hfu using ih
    obtain ⟨n, hn⟩ := ((hf a).image fuel).bddAbove
    refine ⟨n + 1, (hs n a).mpr fun b hab => ?_⟩
    exact monotone_nat_of_le_succ (f := fun n => done n b) (fun n => hm n b)
      (hn ⟨b, hab, rfl⟩) (hfu b hab)

end Cycles
