import Mathlib.Tactic

/-!
# Byte-addressed memory

A memory gives one byte to every address.  A word is read and written little-endian, over an
explicit number of bytes, so that words of different widths live in one memory and may overlap.

Nothing here bounds addresses: a client that wraps addresses does so itself.
-/

namespace ByteMemory

open List Nat UInt8

abbrev Mem := ℕ → UInt8

/-- The little-endian number held in the `k` bytes from `a`. -/
def load (m : Mem) (a : ℕ) : ℕ → ℕ
  | 0 => 0
  | k + 1 => (m a).toNat + 256 * load m (a + 1) k

/-- Write `v` over the `k` bytes from `a`, little-endian; what does not fit is dropped. -/
def store (m : Mem) (a k v : ℕ) : Mem :=
  fun x => if a ≤ x ∧ x < a + k then ofNat (v / 256 ^ (x - a)) else m x

/-- Move `n` bytes from `src` to `dst`; the ranges may overlap. -/
def copy (m : Mem) (dst src n : ℕ) : Mem :=
  fun x => if dst ≤ x ∧ x < dst + n then m (src + (x - dst)) else m x

/-- Write the byte `b` over the `n` bytes from `a`. -/
def fill (m : Mem) (a n : ℕ) (b : UInt8) : Mem :=
  fun x => if a ≤ x ∧ x < a + n then b else m x

/-- Write a byte string at `a`. -/
def put (m : Mem) (a : ℕ) (bs : List UInt8) : Mem :=
  fun x => if a ≤ x then (bs[x - a]?).getD (m x) else m x

/-- The `n` bytes from `a`. -/
def peek (m : Mem) (a n : ℕ) : List UInt8 := (range n).map fun i => m (a + i)

variable {m m' : Mem} {a b k j v : ℕ}

/-! ### Words -/

theorem load_congr (h : ∀ x, a ≤ x → x < a + k → m x = m' x) : load m a k = load m' a k := by
  induction k generalizing a with
  | zero => rfl
  | succ k ih =>
    rw [load, load, h a le_rfl (by omega), ih fun x h1 h2 => h x (by omega) (by omega)]

theorem load_lt (m : Mem) (a k : ℕ) : load m a k < 256 ^ k := by
  induction k generalizing a with
  | zero => simp [load]
  | succ k ih =>
    have h1 := (m a).toNat_lt
    have h2 := ih (a + 1)
    rw [load]
    omega

variable {x i dst src n : ℕ} {c : UInt8}

theorem store_of_lt (h : x < a) : store m a k v x = m x := if_neg (by omega)

theorem store_of_ge (h : a + k ≤ x) : store m a k v x = m x := if_neg (by omega)

theorem store_outside (h : x < a ∨ a + k ≤ x) : store m a k v x = m x :=
  h.elim store_of_lt store_of_ge

theorem load_store_of_disjoint (h : a + k ≤ b ∨ b + j ≤ a) :
    load (store m b j v) a k = load m a k :=
  load_congr fun x h1 h2 => store_outside (by omega)

theorem load_store_part (h : i + k ≤ j) :
    load (store m a j v) (a + i) k = v / 256 ^ i % 256 ^ k := by
  induction k generalizing i with
  | zero => simp [load, mod_one]
  | succ k ih =>
    have hb : store m a j v (a + i) = ofNat (v / 256 ^ i) := by
      rw [store, if_pos (by omega), Nat.add_sub_cancel_left]
    have hr := ih (i := i + 1) (by omega)
    have hdiv : v / 256 ^ (i + 1) = v / 256 ^ i / 256 := by rw [pow_succ, Nat.div_div_eq_div_mul]
    have hpow : (256 : ℕ) ^ (k + 1) = 256 * 256 ^ k := by rw [pow_succ, mul_comm]
    rw [load, hb, add_assoc, hr, toNat_ofNat', hdiv, hpow, mod_mul]

theorem load_store_mod : load (store m a k v) a k = v % 256 ^ k := by
  have h := load_store_part (m := m) (a := a) (v := v) (i := 0) (k := k) (j := k) (by omega)
  simpa using h

theorem load_store_same (h : v < 256 ^ k) : load (store m a k v) a k = v := by
  rw [load_store_mod, mod_eq_of_lt h]

/-! ### Block moves -/

theorem copy_outside (h : x < dst ∨ dst + n ≤ x) :
    copy m dst src n x = m x := if_neg (by omega)

theorem copy_inside (h : i < n) : copy m dst src n (dst + i) = m (src + i) := by
  rw [copy, if_pos (by omega), Nat.add_sub_cancel_left]

theorem load_copy_of_disjoint (h : a + k ≤ dst ∨ dst + n ≤ a) :
    load (copy m dst src n) a k = load m a k :=
  load_congr fun x h1 h2 => copy_outside (by omega)

theorem load_copy_inside (h : i + k ≤ n) :
    load (copy m dst src n) (dst + i) k = load m (src + i) k := by
  induction k generalizing i with
  | zero => rfl
  | succ k ih =>
    rw [load, load, copy_inside (by omega), add_assoc, add_assoc, ih (by omega)]

theorem fill_inside (h1 : a ≤ x) (h2 : x < a + n) : fill m a n c x = c :=
  if_pos ⟨h1, h2⟩

theorem fill_outside (h : x < a ∨ a + n ≤ x) : fill m a n c x = m x :=
  if_neg (by omega)

/-! ### Byte strings -/

/-- The bytes from `a` on are `bs`. -/
def Holds (m : Mem) (a : ℕ) (bs : List UInt8) : Prop := ∀ i (h : i < bs.length), m (a + i) = bs[i]

variable {bs : List UInt8}

theorem put_outside (h : x < a ∨ a + bs.length ≤ x) : put m a bs x = m x := by
  unfold put
  split_ifs with hx
  · rw [getElem?_eq_none (by omega), Option.getD_none]
  · rfl

theorem holds_put (m : Mem) (a : ℕ) (bs : List UInt8) : Holds (put m a bs) a bs := by
  intro i hi
  rw [put, if_pos (by omega), Nat.add_sub_cancel_left, getElem?_eq_getElem hi, Option.getD_some]

theorem Holds.congr (h : Holds m a bs)
    (hm : ∀ i < bs.length, m' (b + i) = m (a + i)) : Holds m' b bs :=
  fun i hi => (hm i hi).trans (h i hi)

variable {bs cs : List UInt8}

theorem holds_append (hb : Holds m a bs) (hc : Holds m (a + bs.length) cs) :
    Holds m a (bs ++ cs) := by
  intro i hi
  rw [length_append] at hi
  by_cases h : i < bs.length
  · rw [getElem_append_left h]
    exact hb i h
  · have := hc (i - bs.length) (by omega)
    rw [getElem_append_right (by omega), ← this]
    congr 1
    omega

theorem Holds.left (h : Holds m a (bs ++ cs)) : Holds m a bs := by
  intro i hi
  rw [h i (by rw [length_append]; omega), getElem_append_left hi]

theorem Holds.right (h : Holds m a (bs ++ cs)) : Holds m (a + bs.length) cs := by
  intro i hi
  rw [add_assoc, h _ (by rw [length_append]; omega), getElem_append_right (by omega)]
  congr 1
  omega

theorem Holds.peek (h : Holds m a bs) (hn : bs.length ≤ n) :
    peek m a n = bs ++ peek m (a + bs.length) (n - bs.length) := by
  refine ext_getElem (by simp [ByteMemory.peek]; omega) fun i h1 h2 => ?_
  by_cases hi : i < bs.length
  · rw [getElem_append_left hi, ← h i hi]
    simp [ByteMemory.peek]
  · rw [getElem_append_right (by omega)]
    simp only [ByteMemory.peek, getElem_map, getElem_range]
    congr 1
    omega

end ByteMemory
