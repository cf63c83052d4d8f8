import Mathlib.Tactic

/-!
# Parts of lists that are replaced

* `splice`: the values from a position on are replaced;
* `padded`: a list is made longer;
* `length_splice`, `length_padded`: lengths.
-/

namespace Splice

open List

variable {α : Type*} {l d d' : List α} {p n : ℕ}

/-- The values from `p` on are replaced by those of `d`. -/
def splice (l : List α) (p : ℕ) (d : List α) : List α := l.take p ++ d ++ l.drop (p + d.length)

theorem length_splice (hp : p ≤ l.length) :
    (splice l p d).length = max l.length (p + d.length) := by
  simp only [splice, length_append, length_take, length_drop]
  omega

theorem splice_append (hp : p ≤ l.length) (d d' : List α) :
    splice (splice l p d) (p + d.length) d' = splice l p (d ++ d') := by
  have hf : (l.take p ++ d).length = p + d.length := by
    rw [length_append, length_take, min_eq_left hp]
  have ht : (splice l p d).take (p + d.length) = l.take p ++ d := by rw [splice, ← hf, take_left]
  have hd : (splice l p d).drop (p + d.length) = l.drop (p + d.length) := by
    rw [splice, ← hf, drop_left]
  rw [splice, ht, ← drop_drop, hd, drop_drop, splice, length_append,
    ← Nat.add_assoc, append_assoc (l.take p)]

theorem splice_length (l d : List α) : splice l l.length d = l ++ d := by
  rw [splice, take_length, drop_eq_nil_of_le (Nat.le_add_right ..), append_nil]

def padded (z : α) (l : List α) (n : ℕ) : List α := l ++ List.replicate (n - l.length) z

variable {z : α}

theorem length_padded : (padded z l n).length = max l.length n := by
  simp only [padded, length_append, length_replicate]
  omega

theorem padded_of_le (h : n ≤ l.length) : padded z l n = l := by
  rw [padded, Nat.sub_eq_zero_of_le h, replicate_zero, append_nil]

end Splice
