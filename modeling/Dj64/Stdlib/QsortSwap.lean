import Dj64.Lib.ByteExchange

/-!
# `Swap`

`Swap` exchanges two elements of `DataWidth` bytes.  It picks a type by the width, cast to `int`:
`char` for 1, `short` for 2 and `long` for 4, which has eight bytes in the 64-bit build.  Other
widths go through a buffer.
-/

namespace Qsort

open ByteMemory Segments

def sizeofLong : ℕ := 8

def maxSwap : ℕ := 256

/-- The exchange of two values of a type of `n` bytes. -/
def swapWords (n : ℕ) (m : Mem) (elem1 elem2 : ℕ) : Mem :=
  let xfer := load m elem1 n
  let m := store m elem1 n (load m elem2 n)
  store m elem2 n xfer

/-- The loop with the buffer. -/
def swapLoop (m : Mem) (elem1 elem2 xferSize : ℕ) : Mem :=
  if 0 < xferSize then
    let copySize := if xferSize < maxSwap then xferSize else maxSwap
    let tempBuf := peek m elem1 copySize
    let m := copy m elem1 elem2 copySize
    let m := put m elem2 tempBuf
    swapLoop m (elem1 + copySize) (elem2 + copySize) (xferSize - copySize)
  else m
termination_by xferSize
decreasing_by
  unfold maxSwap
  split_ifs <;> omega

def swapElements (dataWidth : ℕ) (m : Mem) (elem1 elem2 : ℕ) : Mem :=
  let width := (dataWidth : ℤ).bmod (2 ^ 32)
  if width = 1 then swapWords 1 m elem1 elem2
  else if width = 2 then swapWords 2 m elem1 elem2
  else if width = 4 then swapWords sizeofLong m elem1 elem2
  else swapLoop m elem1 elem2 dataWidth

variable {m : Mem} {a b n base i j dataWidth k p x : ℕ}

theorem swapWords_eq (hab : a + n ≤ b ∨ b + n ≤ a) : swapWords n m a b = exchanged m a b n :=
  exchange_words hab

theorem swapLoop_eq (hab : a + n ≤ b ∨ b + n ≤ a) : swapLoop m a b n = exchanged m a b n := by
  induction n using Nat.strong_induction_on generalizing m a b with
  | _ n ih =>
    rw [swapLoop]
    by_cases hn : 0 < n
    · rw [if_pos hn]
      obtain ⟨size, hs⟩ : ∃ size, size = if n < maxSwap then n else maxSwap := ⟨_, rfl⟩
      have hb : 0 < size ∧ size ≤ n := by
        rw [hs, maxSwap]
        split_ifs <;> omega
      dsimp only
      rw [← hs, exchange_copies (by omega), ih (n - size) (by omega) (by omega),
        exchanged_add (by omega), Nat.add_sub_cancel' hb.2]
    · rw [if_neg hn, Nat.eq_zero_of_not_pos hn, exchanged_zero]

/-- The widths for which the type that is picked has the right size: one and two, and those that are
not taken for one, two or four. -/
def Exact (dataWidth : ℕ) : Prop :=
  dataWidth = 1 ∨ dataWidth = 2 ∨ dataWidth % 2 ^ 32 ≠ 1 ∧ dataWidth % 2 ^ 32 ≠ 2 ∧
    dataWidth % 2 ^ 32 ≠ 4

instance : Decidable (Exact dataWidth) := inferInstanceAs (Decidable (_ ∨ _))

theorem bmod_eq_iff (hk : k < 2 ^ 31) :
    (dataWidth : ℤ).bmod (2 ^ 32) = k ↔ dataWidth % 2 ^ 32 = k := by
  unfold Int.bmod
  dsimp only
  split_ifs <;> omega

theorem swapElements_remainder :
    swapElements dataWidth m a b =
      if dataWidth % 2 ^ 32 = 1 then swapWords 1 m a b
      else if dataWidth % 2 ^ 32 = 2 then swapWords 2 m a b
      else if dataWidth % 2 ^ 32 = 4 then swapWords sizeofLong m a b
      else swapLoop m a b dataWidth := by
  have h1 : (dataWidth : ℤ).bmod (2 ^ 32) = 1 ↔ dataWidth % 2 ^ 32 = 1 :=
    bmod_eq_iff (k := 1) (by decide)
  have h2 : (dataWidth : ℤ).bmod (2 ^ 32) = 2 ↔ dataWidth % 2 ^ 32 = 2 :=
    bmod_eq_iff (k := 2) (by decide)
  have h4 : (dataWidth : ℤ).bmod (2 ^ 32) = 4 ↔ dataWidth % 2 ^ 32 = 4 :=
    bmod_eq_iff (k := 4) (by decide)
  unfold swapElements
  simp only [h1, h2, h4]

theorem swapElements_eq (hab : a + dataWidth ≤ b ∨ b + dataWidth ≤ a) (h : Exact dataWidth) :
    swapElements dataWidth m a b = exchanged m a b dataWidth := by
  rw [swapElements_remainder]
  rcases h with rfl | rfl | ⟨hn1, hn2, hn4⟩
  · exact swapWords_eq hab
  · exact swapWords_eq hab
  · rw [if_neg hn1, if_neg hn2, if_neg hn4]
    exact swapLoop_eq hab

def spot (p : ℕ) : Mem := fun x => if x = p then 1 else 0

theorem spot_self : spot p p = 1 := if_pos rfl

theorem spot_of_ne (h : x ≠ p) : spot p x = 0 := if_neg h

theorem exists_left (hab : a + dataWidth ≤ b ∨ b + dataWidth ≤ a) (hn : n < dataWidth) :
    ∃ m, swapWords n m a b ≠ exchanged m a b dataWidth := by
  refine ⟨spot (a + n), fun heq => ?_⟩
  have hb := congrFun heq (a + n)
  rw [swapWords_eq (by omega), exchanged_outside (by omega) (by omega), spot_self,
    exchanged_left (by omega) (by omega), spot_of_ne (by omega)] at hb
  cases hb

theorem exists_damaged (hab : a + 4 ≤ b ∨ b + 4 ≤ a) :
    ∃ m, swapWords sizeofLong m a b ≠ exchanged m a b 4 := by
  refine ⟨spot (a + 4), fun heq => ?_⟩
  have hb := congrFun heq (b + 4)
  have hr : exchanged (spot (a + 4)) a b 4 (b + 4) = 0 := by
    unfold exchanged
    split_ifs <;> exact spot_of_ne (by omega)
  unfold swapWords sizeofLong at hb
  rw [hr, store_load, if_pos (by omega), Nat.add_sub_cancel_left, spot_self] at hb
  cases hb

theorem exact_of_swapElements (hab : a + dataWidth ≤ b ∨ b + dataWidth ≤ a) (hw : 1 ≤ dataWidth)
    (h : ∀ m, swapElements dataWidth m a b = exchanged m a b dataWidth) : Exact dataWidth := by
  by_contra hnot
  unfold Exact at hnot
  simp only [swapElements_remainder] at h
  by_cases hm1 : dataWidth % 2 ^ 32 = 1
  · obtain ⟨m, hm⟩ := exists_left (n := 1) hab (by omega)
    apply hm
    rw [← h m, if_pos hm1]
  by_cases hm2 : dataWidth % 2 ^ 32 = 2
  · obtain ⟨m, hm⟩ := exists_left (n := 2) hab (by omega)
    apply hm
    rw [← h m, if_neg hm1, if_pos hm2]
  have hm4 : dataWidth % 2 ^ 32 = 4 := by omega
  have hs (m : Mem) : swapWords sizeofLong m a b = exchanged m a b dataWidth := by
    rw [← h m, if_neg hm1, if_neg hm2, if_pos hm4]
  by_cases hf : dataWidth = 4
  · rw [hf] at hab hs
    obtain ⟨m, hm⟩ := exists_damaged hab
    exact hm (hs m)
  · obtain ⟨m, hm⟩ := exists_left (n := sizeofLong) hab (by unfold sizeofLong; omega)
    exact hm (hs m)

/-- The address of an element, which `BASE` computes. -/
def elementAddress (base dataWidth i : ℕ) : ℕ := base + i * dataWidth

/-- **`Swap` exchanges two elements for the exact widths only**: for any two of them, it exchanges
their bytes and leaves all others, whatever there is in memory, if and only if the width is exact.
-/
theorem swap_exact_iff (hw : 1 ≤ dataWidth) (base : ℕ) (hij : i ≠ j) :
    (∀ m, swapElements dataWidth m (elementAddress base dataWidth i)
      (elementAddress base dataWidth j) =
      exchanged m (elementAddress base dataWidth i) (elementAddress base dataWidth j) dataWidth) ↔
    Exact dataWidth := by
  have hab := element_apart base dataWidth hij
  exact ⟨exact_of_swapElements hab hw, fun h m => swapElements_eq hab h⟩

/-- The theorem for the second and the third element of pairs of words. -/
theorem swap_exact_iff_sixteen :
    (∀ m, swapElements 16 m (elementAddress 256 16 1) (elementAddress 256 16 2) =
      exchanged m (elementAddress 256 16 1) (elementAddress 256 16 2) 16) ↔ Exact 16 :=
  swap_exact_iff (by decide) 256 (by decide)

/-- Exchanging the two `int`s of an array overwrites what is behind it. -/
theorem swap_damages_next :
    swapElements 4 (fun x => UInt8.ofNat x) (elementAddress 0 4 0) (elementAddress 0 4 1) 8 = 4 ∧
      exchanged (fun x => UInt8.ofNat x) (elementAddress 0 4 0) (elementAddress 0 4 1) 4 8 = 8 := by
  decide +kernel

end Qsort
