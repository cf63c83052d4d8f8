import Dj64.Lib.Runs

/-!
# Strings in a block

A block of memory is a list; a load or a store outside of it fails with `x`.  A string is what
stands in front of the terminator `z`.
-/

namespace Strings

open Runs List Nat

variable {ε α : Type} (x : ε)

def peek (buf : List α) (i : ℕ) : Except ε α :=
  match buf[i]? with
  | some a => .ok a
  | none => .error x

def poke (buf : List α) (i : ℕ) (a : α) : Except ε (List α) :=
  if i < buf.length then .ok (buf.set i a) else .error x

/-- `strcpy (buf + dst, buf + src)`, in at most `rounds` rounds. -/
def strcpy [DecidableEq α] (z : α) : ℕ → List α → ℕ → ℕ → Except ε (List α)
  | 0, _, _, _ => .error x
  | rounds + 1, buf, dst, src => do
    let a ← peek x buf src
    let buf ← poke x buf dst a
    if a = z then .ok buf else strcpy z rounds buf (dst + 1) (src + 1)

/-- The string `l` stands at `i`. -/
def Stands (z : α) (buf : List α) (i : ℕ) (l : List α) : Prop := ∃ tail, buf.drop i = l ++ z :: tail

variable {x} {z a : α} {buf l l' : List α} {i : ℕ}

theorem peek_of_drop {tail : List α} (h : buf.drop i = a :: tail) : peek x buf i = .ok a := by
  have hget : buf[i]? = some a := by
    rw [← add_zero i, ← List.getElem?_drop, h]
    rfl
  rw [peek, hget]

theorem Stands.peek_cons (h : Stands z buf i (a :: l)) : peek x buf i = .ok a := by
  obtain ⟨tail, h⟩ := h
  exact peek_of_drop h

theorem Stands.peek_nil (h : Stands z buf i []) : peek x buf i = .ok z := by
  obtain ⟨tail, h⟩ := h
  exact peek_of_drop h

theorem Stands.drop (h : Stands z buf i (l ++ l')) : Stands z buf (i + l.length) l' := by
  obtain ⟨tail, h⟩ := h
  refine ⟨tail, ?_⟩
  rw [← drop_drop, h, append_assoc, drop_left]

theorem Stands.tail (h : Stands z buf i (a :: l)) : Stands z buf (i + 1) l := by
  have h' : Stands z buf i ([a] ++ l) := h
  exact h'.drop

theorem Stands.length_lt (h : Stands z buf i l) : i + l.length < buf.length := by
  obtain ⟨tail, h⟩ := h
  have hlen := congrArg List.length h
  simp only [length_drop, length_append, length_cons] at hlen
  omega

theorem poke_cons {front tail : List α} {b : α} (a : α) :
    poke x (front ++ b :: tail) front.length a = .ok (front ++ a :: tail) := by
  rw [poke, if_pos (by simp), set_append_right _ _ le_rfl, Nat.sub_self]
  rfl

theorem poke_append {front mid tail : List α} {a : α} :
    poke x (front ++ (mid ++ a :: tail)) front.length a =
      .ok (front ++ ([a] ++ (mid ++ a :: tail).drop 1)) := by
  cases mid <;> exact poke_cons a

/-- **A string is moved to the left**, over what stands between. -/
theorem strcpy_eq [DecidableEq α] {rounds : ℕ} {front mid tail l : List α} (hz : z ∉ l)
    (hr : l.length < rounds) :
    ∃ tail', strcpy x z rounds (front ++ (mid ++ (l ++ z :: tail))) front.length
      (front.length + mid.length) = .ok (front ++ (l ++ z :: tail')) := by
  induction l generalizing rounds front mid with
  | nil =>
    obtain ⟨rounds, rfl⟩ := exists_eq_succ_of_ne_zero (ne_zero_of_lt hr)
    refine ⟨(mid ++ z :: tail).drop 1, ?_⟩
    have hp : peek x (front ++ (mid ++ ([] ++ z :: tail))) (front.length + mid.length) = .ok z :=
      peek_of_drop (by rw [← drop_drop, drop_left, drop_left]; rfl)
    rw [strcpy, hp, ok_bind, nil_append, poke_append, ok_bind, if_pos rfl]
    rfl
  | cons a l ih =>
    obtain ⟨rounds, rfl⟩ := exists_eq_succ_of_ne_zero (ne_zero_of_lt hr)
    rw [mem_cons, not_or] at hz
    have hp : peek x (front ++ (mid ++ (a :: l ++ z :: tail))) (front.length + mid.length) =
      .ok a :=
      peek_of_drop (by rw [← drop_drop, drop_left, drop_left]; rfl)
    rw [strcpy, hp, ok_bind, cons_append, poke_append, ok_bind, if_neg (Ne.symm hz.1)]
    -- the block between the two positions keeps its length
    obtain ⟨mid', hm', hlen⟩ : ∃ mid', (mid ++ a :: (l ++ z :: tail)).drop 1 = mid' ++
      (l ++ z :: tail) ∧ mid'.length = mid.length := by
      cases mid with
      | nil => exact ⟨[], rfl, rfl⟩
      | cons b mid => exact ⟨mid ++ [a], by simp, by simp⟩
    have hr' : l.length < rounds := by
      rw [length_cons] at hr
      omega
    obtain ⟨tail', ht'⟩ := @ih rounds (front ++ [a]) mid' hz.2 hr'
    rw [length_append, length_singleton, hlen] at ht'
    rw [hm', ← append_assoc front [a], show front.length + mid.length + 1 =
      front.length + 1 + mid.length by omega, ht']
    simp

theorem strcpy_left [DecidableEq α] {dst src : ℕ} (front mid l tail : List α)
    (hbuf : buf = front ++ (mid ++ (l ++ z :: tail))) (hdst : dst = front.length)
    (hsrc : src = front.length + mid.length) (hz : z ∉ l) :
    ∃ tail', strcpy x z (buf.length + 1) buf dst src = .ok (front ++ (l ++ z :: tail')) := by
  have hr : l.length < buf.length + 1 := by
    rw [hbuf]
    simp only [length_append]
    omega
  obtain ⟨tail', ht'⟩ := @strcpy_eq ε α x z _ (buf.length + 1) front mid tail l hz hr
  refine ⟨tail', ?_⟩
  rw [hdst, hsrc]
  rwa [← hbuf] at ht'

end Strings
