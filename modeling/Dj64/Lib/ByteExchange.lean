import Dj64.Lib.ByteMemory
import Dj64.Lib.Segments

/-!
# Exchanging two ranges of bytes

* `exchanged`: the memory with two ranges of one length exchanged;
* `exchange_copies`: exchanging them through a buffer;
* `peek_exchanged`: ranges in a row, as the elements of an array.
-/

namespace ByteMemory

open Segments Nat

variable {m : Mem} {a b n k x i j : ℕ}

/-- The `n` bytes from `a` and those from `b` are exchanged. -/
def exchanged (m : Mem) (a b n : ℕ) : Mem := fun x =>
  if a ≤ x ∧ x < a + n then m (b + (x - a))
  else if b ≤ x ∧ x < b + n then m (a + (x - b))
  else m x

theorem exchanged_left (h : a ≤ x) (h' : x < a + n) : exchanged m a b n x = m (b + (x - a)) :=
  if_pos ⟨h, h'⟩

theorem exchanged_right (hab : a + n ≤ b ∨ b + n ≤ a) (h : b ≤ x) (h' : x < b + n) :
    exchanged m a b n x = m (a + (x - b)) := by
  rw [exchanged, if_neg (by omega), if_pos ⟨h, h'⟩]

theorem exchanged_outside (ha : x < a ∨ a + n ≤ x) (hb : x < b ∨ b + n ≤ x) :
    exchanged m a b n x = m x := by
  rw [exchanged, if_neg (by omega), if_neg (by omega)]

@[simp] theorem exchanged_zero (m : Mem) (a b : ℕ) : exchanged m a b 0 = m := by
  funext x
  exact exchanged_outside (by omega) (by omega)

theorem exchanged_add (hab : a + (n + k) ≤ b ∨ b + (n + k) ≤ a) :
    exchanged (exchanged m a b n) (a + n) (b + n) k = exchanged m a b (n + k) := by
  funext x
  unfold exchanged
  split_ifs <;> first | omega | skip
  · congr 1
    omega
  · congr 1
    omega
  · rfl
  · rfl
  · rfl

/-! ### Words -/

theorem byte_load : ∀ {a k}, i < k → UInt8.ofNat (load m a k / 256 ^ i) =
    m (a + i) := by
  induction i with
  | zero =>
    intro a k h
    cases k with
    | zero => omega
    | succ k =>
      rw [load, pow_zero, Nat.div_one]
      apply UInt8.toNat_inj.mp
      have hlt : (m a).toNat < 256 := (m a).toNat_lt
      rw [UInt8.toNat_ofNat', add_mul_mod_self_left, mod_eq_of_lt hlt]
      rfl
  | succ i ih =>
    intro a k h
    cases k with
    | zero => omega
    | succ k =>
      have hlt : (m a).toNat < 256 := (m a).toNat_lt
      have hdiv : ((m a).toNat + 256 * load m (a + 1) k) / 256 = load m (a + 1) k := by omega
      rw [load, pow_succ', ← Nat.div_div_eq_div_mul, hdiv, ih (Nat.lt_of_succ_lt_succ h)]
      congr 1
      omega

theorem store_load (m m' : Mem) (a b k x : ℕ) :
    store m' a k (load m b k) x = if a ≤ x ∧ x < a + k then m (b + (x - a)) else m' x := by
  unfold store
  split_ifs with h
  · exact byte_load (by omega)
  · rfl

theorem exchange_words (hab : a + k ≤ b ∨ b + k ≤ a) :
    store (store m a k (load m b k)) b k (load m a k) = exchanged m a b k := by
  funext x
  rw [store_load, store_load]
  unfold exchanged
  split_ifs <;> first | omega | rfl

/-! ### Buffers -/

theorem exchange_copies (hab : a + n ≤ b ∨ b + n ≤ a) :
    put (copy m a b n) b (peek m a n) = exchanged m a b n := by
  funext x
  have hl : (peek m a n).length = n := by simp [peek]
  by_cases hb : b ≤ x ∧ x < b + n
  · have hlt : x - b < n := by omega
    rw [put, if_pos hb.1, exchanged_right hab hb.1 hb.2]
    simp [peek, hlt]
  · rw [put_outside (by omega)]
    unfold copy exchanged
    split_ifs <;> rfl

/-! ### Elements of arrays -/

theorem element_apart (base n : ℕ) (hij : i ≠ j) :
    base + i * n + n ≤ base + j * n ∨ base + j * n + n ≤ base + i * n := by
  rcases lt_or_gt_of_ne hij with h | h
  · have := mul_le_mul_right n (succ_le_of_lt h)
    rw [succ_mul] at this
    omega
  · have := mul_le_mul_right n (succ_le_of_lt h)
    rw [succ_mul] at this
    omega

end ByteMemory
