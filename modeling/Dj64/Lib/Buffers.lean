import Dj64.Lib.Runs

/-!
# Buffers of a fixed size

A buffer that is filled from its start, kept as the list of what has been stored; a store behind its
end fails with `x`.
-/

namespace Buffers

open Runs List

variable {ε α : Type} (x : ε) (size : ℕ)

def put (out : List α) (a : α) : Except ε (List α) :=
  if out.length < size then .ok (out ++ [a]) else .error x

/-- `*p++ = a` for every element of a list. -/
def puts : List α → List α → Except ε (List α)
  | out, [] => .ok out
  | out, a :: as => do
    let out ← put x size out a
    puts out as

def putIf (b : Bool) (out : List α) (a : α) : Except ε (List α) :=
  if b then put x size out a else .ok out

def terminate (out : List α) : Except ε (List α) := if out.length < size then .ok out else .error x

variable {x size} {out as : List α}

theorem put_ok (h : out.length < size) (a : α) : put x size out a = .ok (out ++ [a]) := if_pos h

theorem put_error (h : ¬ out.length < size) (a : α) : put x size out a = .error x := if_neg h

theorem terminate_ok (h : out.length < size) : terminate x size out = .ok out := if_pos h

theorem terminate_error (h : ¬ out.length < size) : terminate x size out = .error x := if_neg h

theorem puts_ok (h : out.length + as.length ≤ size) : puts x size out as = .ok (out ++ as) := by
  induction as generalizing out with
  | nil => simp [puts]
  | cons a as ih =>
    rw [length_cons] at h
    have hlen : (out ++ [a]).length = out.length + 1 := by simp
    rw [puts, put_ok (by omega), ok_bind, ih (by omega)]
    simp

theorem puts_error (hout : out.length ≤ size) (h : size < out.length + as.length) :
    puts x size out as = .error x := by
  induction as generalizing out with
  | nil => exact absurd h (not_lt.mpr hout)
  | cons a as ih =>
    rw [length_cons] at h
    have hlen : (out ++ [a]).length = out.length + 1 := by simp
    rw [puts]
    by_cases hlt : out.length < size
    · rw [put_ok hlt, ok_bind, ih (by omega) (by omega)]
    · rw [put_error hlt, error_bind]

theorem puts_append (as bs : List α) :
    puts x size out (as ++ bs) = puts x size out as >>= fun out => puts x size out bs := by
  induction as generalizing out with
  | nil => rfl
  | cons a as ih =>
    rw [cons_append, puts, puts]
    cases put x size out a with
    | ok out' => exact ih
    | error y => rfl

theorem putIf_eq_puts (b : Bool) (a : α) :
    putIf x size b out a = puts x size out (if b then [a] else []) := by
  cases b with
  | false => rfl
  | true =>
    show put x size out a = puts x size out [a]
    rw [puts]
    cases put x size out a <;> rfl

theorem put_eq_puts (a : α) : put x size out a = puts x size out [a] := putIf_eq_puts true a

theorem terminate_puts (as : List α) :
    (terminate x size out >>= fun out => puts x size out as >>= terminate x size) =
      puts x size out as >>= terminate x size := by
  by_cases h : out.length < size
  · rw [terminate_ok h, ok_bind]
  · rw [terminate_error h, error_bind]
    cases as with
    | nil => rw [puts, ok_bind, terminate_error h]
    | cons a as => rw [puts, put_error h, error_bind, error_bind]

theorem puts_terminate_eq (hout : out.length ≤ size) (as : List α) :
    puts x size out as >>= terminate x size =
      if out.length + as.length < size then .ok (out ++ as) else .error x := by
  by_cases h : out.length + as.length ≤ size
  · rw [puts_ok h, ok_bind, terminate, length_append]
  · rw [puts_error hout (not_le.mp h), error_bind, if_neg fun hlt => h hlt.le]

theorem puts_terminate_ok_iff (hout : out.length ≤ size) (as : List α) :
    (∃ out', puts x size out as >>= terminate x size = .ok out') ↔
      out.length + as.length < size := by
  rw [puts_terminate_eq hout]
  split_ifs with h
  · exact iff_of_true ⟨_, rfl⟩ h
  · exact iff_of_false (by simp) h

end Buffers
