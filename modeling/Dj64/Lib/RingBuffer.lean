import Mathlib.Tactic

/-!
# Ring buffers over cells kept elsewhere

A ring buffer is the record of a read position, a write position and a count.  The cells are not
part of it: they are a function on positions that the operations take and give back, so that several
records may lie over the same cells.
-/

namespace Rings

open List Nat Function

variable {α : Type*} {size i p : ℕ}

/-- The positions of a ring buffer of `size` cells. -/
structure Ring (size : ℕ) where
  count : ℕ
  rpos : ℕ
  wpos : ℕ
  rpos_lt : rpos < size
  count_le : count ≤ size
  wpos_eq : wpos = (rpos + count) % size

/-- The position after `i`, back at the start after the last one. -/
def advance (size i : ℕ) : ℕ := if size ≤ i + 1 then 0 else i + 1

theorem advance_eq (h : i < size) : advance size i = (i + 1) % size := by
  unfold advance
  split_ifs with hl
  · have hi : i + 1 = size := le_antisymm h hl
    rw [hi, mod_self]
  · exact (mod_eq_of_lt (not_le.mp hl)).symm

theorem advance_lt (h : i < size) : advance size i < size := by
  rw [advance_eq h]
  exact mod_lt _ (zero_lt_of_lt h)

namespace Ring

def empty (h : 0 < size) : Ring size := ⟨0, 0, 0, h, zero_le _, (zero_mod _).symm⟩

variable (r : Ring size) (cells : ℕ → α)

theorem wpos_lt : r.wpos < size := by
  rw [r.wpos_eq]
  exact mod_lt _ (zero_lt_of_lt r.rpos_lt)

def contents : List α := (List.range r.count).map fun i => cells ((r.rpos + i) % size)

@[simp] theorem length_contents : (r.contents cells).length = r.count := by
  simp [contents]

theorem contents_eq_nil : r.contents cells = [] ↔ r.count = 0 := by
  rw [← length_eq_zero_iff, length_contents]

/-- Append an element if there is room. -/
def put (x : α) : Ring size × (ℕ → α) :=
  if h : r.count < size then
    (⟨r.count + 1, r.rpos, advance size r.wpos, r.rpos_lt, h, by
      rw [advance_eq r.wpos_lt, r.wpos_eq, mod_add_mod, add_assoc]⟩,
      update cells r.wpos x)
  else (r, cells)

/-- Take the first element. -/
def get : Option (α × Ring size) :=
  if h : r.count = 0 then none
  else some (cells r.rpos, ⟨r.count - 1, advance size r.rpos, r.wpos, advance_lt r.rpos_lt,
    (sub_le _ _).trans r.count_le, by
      rw [advance_eq r.rpos_lt, r.wpos_eq, mod_add_mod]
      congr 1
      omega⟩)

variable {r cells}

theorem get_eq_none : r.get cells = none ↔ r.count = 0 := by
  unfold get
  split_ifs with h <;> simp [h]

theorem wpos_ne (hi : i < r.count) (hr : r.count < size) : (r.rpos + i) % size ≠ r.wpos := by
  intro heq
  rw [r.wpos_eq] at heq
  have hmod : i % size = r.count % size := Nat.ModEq.add_left_cancel' r.rpos heq
  rw [mod_eq_of_lt (hi.trans hr), mod_eq_of_lt hr] at hmod
  exact hi.ne hmod

/-- **Appending** puts the element after the others. -/
theorem contents_put (hr : r.count < size) (x : α) :
    (r.put cells x).1.contents (r.put cells x).2 = r.contents cells ++ [x] := by
  rw [put, dif_pos hr]
  simp only [contents, range_succ, map_append, map_cons, map_nil]
  congr 1
  · apply map_congr_left
    intro i hi
    exact update_of_ne (wpos_ne (mem_range.mp hi) hr) _ _
  · rw [← r.wpos_eq, update_self]

theorem put_full (hf : size ≤ r.count) (x : α) : r.put cells x = (r, cells) := by
  rw [put, dif_neg (not_lt.mpr hf)]

theorem count_put (hr : r.count < size) (x : α) : (r.put cells x).1.count = r.count + 1 := by
  rw [put, dif_pos hr]

/-- **Taking** gives the first element and leaves the others. -/
theorem contents_get {x : α} {r' : Ring size} (h : r.get cells = some (x, r')) :
    r.contents cells = x :: r'.contents cells := by
  unfold get at h
  split_ifs at h with hz
  obtain ⟨rfl, rfl⟩ := Prod.mk.inj (Option.some.inj h)
  obtain ⟨n, hn⟩ := exists_eq_succ_of_ne_zero hz
  simp only [contents, hn, range_succ_eq_map, map_cons, map_map, add_zero, mod_eq_of_lt r.rpos_lt]
  congr 1
  apply map_congr_left
  intro i _
  rw [comp_apply, advance_eq r.rpos_lt, mod_add_mod]
  congr 2
  omega

theorem head_contents (h : r.count ≠ 0) : (r.contents cells).head? = some (cells r.rpos) := by
  obtain ⟨n, hn⟩ := exists_eq_succ_of_ne_zero h
  simp [contents, hn, range_succ_eq_map, mod_eq_of_lt r.rpos_lt]

/-- **The elements of a full ring are all the cells.** -/
theorem cells_of_full (hf : r.count = size) (hp : p < size) : cells p ∈ r.contents cells := by
  refine mem_map.mpr ⟨(p + (size - r.rpos)) % size, ?_, ?_⟩
  · rw [mem_range, hf]
    exact mod_lt _ (zero_lt_of_lt hp)
  · have hr : r.rpos + (p + (size - r.rpos)) = p + size := by
      have := r.rpos_lt
      omega
    rw [add_mod_mod, hr, add_mod_right, mod_eq_of_lt hp]

end Ring

end Rings
