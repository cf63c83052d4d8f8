import Dj64.Lib.Segments

/-!
# `qsort`

The array is a function on the indices `1, …, N`, the elements' positions that `BASE` turns into
addresses; `Swap` exchanges two elements.  A comparison or an exchange of anything else is a fault.
Indices are natural numbers: the elements of an array in memory are far fewer than an `ULONG`
counts, and every index that the code computes stays between `0` and `N + 1`.
-/

namespace Qsort

open Segments

/-- What ends a run without a sorted array. -/
inductive Fault
  | outOfBounds
  | outOfFuel
  deriving DecidableEq

/-- Below this number of steps from the first to the last element, `InsertionSort` is used. -/
def qmin : ℕ := 9

section Model

variable {α : Type} (N : ℕ) (cmp : α → α → ℤ)

def InArray (i : ℕ) : Prop := 1 ≤ i ∧ i ≤ N

instance (i : ℕ) : Decidable (InArray N i) := inferInstanceAs (Decidable (_ ∧ _))

def cmpr (a : ℕ → α) (i j : ℕ) : Except Fault ℤ :=
  if InArray N i ∧ InArray N j then .ok (cmp (a i) (a j)) else .error .outOfBounds

def swap (a : ℕ → α) (i j : ℕ) : Except Fault (ℕ → α) :=
  if InArray N i ∧ InArray N j then .ok (exchange a i j) else .error .outOfBounds

/-- `SWAP`, unless the addresses are the same. -/
def swapDistinct (a : ℕ → α) (i j : ℕ) : Except Fault (ℕ → α) :=
  if i ≠ j then swap N a i j else .ok a

/-! ### `InsertionSort` -/

/-- The inner loop of `InsertionSort`, from `NextIdx` on. -/
def insertNext : ℕ → (ℕ → α) → Except Fault (ℕ → α)
  | prev + 2, a => do
    let c ← cmpr N cmp a (prev + 1) (prev + 2)
    if 0 ≥ c then .ok a
    else
      let a ← swap N a (prev + 1) (prev + 2)
      insertNext (prev + 1) a
  | _, a => .ok a

/-- The outer loop of `InsertionSort`, with the number of iterations that are left. -/
def insertAll : ℕ → ℕ → (ℕ → α) → Except Fault (ℕ → α)
  | 0, _, a => .ok a
  | n + 1, startIdx, a => do
    let a ← insertNext N cmp startIdx a
    insertAll n (startIdx + 1) a

def insertionSort (first last : ℕ) (a : ℕ → α) : Except Fault (ℕ → α) :=
  insertAll N cmp (last - first) (first + 1) a

/-! ### `Partition3` -/

/-- `GET_PIVOT_ADDR`, with indices. -/
def getPivotAddr (a : ℕ → α) (first mid last : ℕ) : Except Fault ℕ := do
  if (← cmpr N cmp a mid first) > 0 then
    if (← cmpr N cmp a first last) ≥ 0 then return first
    else if (← cmpr N cmp a last mid) ≥ 0 then return mid
    else return last
  else
    if (← cmpr N cmp a last first) > 0 then return first
    else if (← cmpr N cmp a mid last) > 0 then return mid
    else return last

/-- The array and the variables of `Partition3`. -/
structure Part (α : Type) where
  array : ℕ → α
  left : ℕ
  right : ℕ
  /-- `HiFatPvtAddr`, once `HiFatPvt` is set. -/
  hiFatPvt : Option ℕ
  fatPvtCtr : ℕ
  cmprLeft : ℤ

/-- What is done with an element at `Right` that is not less than the pivot: a greater one goes
above the elements that are equal to the pivot, an equal one is counted with them. -/
def place (c : ℤ) (p : Part α) : Except Fault (Part α) :=
  if 0 < c then
    match p.hiFatPvt with
    | some h => do
      let a ← swap N p.array h p.right
      .ok { p with array := a, hiFatPvt := some (h - 1) }
    | none => .ok p
  else .ok { p with fatPvtCtr := p.fatPvtCtr + 1, hiFatPvt := some (p.hiFatPvt.getD p.right) }

/-- The search from the left, with the number of iterations that are left. -/
def searchLeft (pivot : ℕ) : ℕ → Part α → Except Fault (Part α)
  | 0, p => .ok p
  | n + 1, p => do
    let c ← cmpr N cmp p.array p.left pivot
    if 0 ≤ c then .ok { p with cmprLeft := c }
    else searchLeft pivot n { p with cmprLeft := c, left := p.left + 1 }

/-- The search from the right, with the number of iterations that are left. -/
def searchRight (pivot : ℕ) : ℕ → Part α → Except Fault (Part α)
  | 0, p => .ok p
  | n + 1, p => do
    let c ← cmpr N cmp p.array p.right pivot
    if 0 > c then .ok p
    else
      let p ← place N c p
      searchRight pivot n { p with right := p.right - 1 }

/-- The loop of `Partition3`. -/
def partLoop (pivot : ℕ) : ℕ → Part α → Except Fault (Part α)
  | 0, _ => .error .outOfFuel
  | fuel + 1, p =>
    if p.left ≤ p.right then do
      let p ← searchLeft N cmp pivot (p.right + 1 - p.left) p
      let p ← searchRight N cmp pivot (p.right + 1 - p.left) p
      if p.left < p.right then
        let a ← swap N p.array p.left p.right
        let p ← place N p.cmprLeft { p with array := a }
        partLoop pivot fuel { p with left := p.left + 1, right := p.right - 1 }
      else .ok p
    else .ok p

/-- `Partition3`: the array, `LeftPivot` and `RightPivot`. -/
def partition3 (first last : ℕ) (a : ℕ → α) : Except Fault ((ℕ → α) × ℕ × ℕ) := do
  let mid := (first + last + 1) / 2
  let pivot ← getPivotAddr N cmp a ((first + mid) / 2) mid ((mid + last) / 2)
  let a ← swapDistinct N a first pivot
  let p ← partLoop N cmp first (last - first + 1) ⟨a, first + 1, last, none, 1, 0⟩
  let a ← swapDistinct N p.array first p.right
  .ok (a, p.right, p.right + (p.fatPvtCtr - 1))

/-! ### `QuickSort` -/

/-- `QuickSort`; the next iteration of its loop is a call. -/
def quickSort : ℕ → ℕ → ℕ → (ℕ → α) → Except Fault (ℕ → α)
  | 0, _, _, _ => .error .outOfFuel
  | fuel + 1, first, last, a =>
    if first < last then
      if last - first < qmin then insertionSort N cmp first last a
      else do
        let (a, leftPivot, rightPivot) ← partition3 N cmp first last a
        if leftPivot - first < last - rightPivot then
          let a ← quickSort fuel first (leftPivot - 1) a
          quickSort fuel (rightPivot + 1) last a
        else
          let a ← quickSort fuel (rightPivot + 1) last a
          quickSort fuel first (leftPivot - 1) a
    else .ok a

def qsort (fuel : ℕ) (a : ℕ → α) : Except Fault (ℕ → α) := quickSort N cmp fuel 1 N a

end Model

/-! ### Order -/

section Order

variable {α : Type}

/-- The comparison function is a total preorder: the sign of the result says which element is less,
and "not greater" is transitive. -/
structure TotalPreorder (cmp : α → α → ℤ) : Prop where
  neg_iff : ∀ x y, cmp x y < 0 ↔ 0 < cmp y x
  trans : ∀ x y z, cmp x y ≤ 0 → cmp y z ≤ 0 → cmp x z ≤ 0

/-- The elements from `lo` to `hi` are in order. -/
def Sorted (cmp : α → α → ℤ) (a : ℕ → α) (lo hi : ℕ) : Prop :=
  ∀ i j, lo ≤ i → i ≤ j → j ≤ hi → cmp (a i) (a j) ≤ 0

/-- No element before `lo` is greater than one from `lo` to `hi`. -/
def Below (cmp : α → α → ℤ) (a : ℕ → α) (lo hi : ℕ) : Prop :=
  ∀ i j, 1 ≤ i → i < lo → lo ≤ j → j ≤ hi → cmp (a i) (a j) ≤ 0

variable {cmp : α → α → ℤ} {x y : α}

theorem TotalPreorder.refl (h : TotalPreorder cmp) (x : α) : cmp x x = 0 := by
  have := h.neg_iff x x
  omega

theorem TotalPreorder.nonpos_iff (h : TotalPreorder cmp) : cmp x y ≤ 0 ↔ 0 ≤ cmp y x := by
  have := h.neg_iff y x
  omega

end Order

end Qsort
