import Dj64.Malloc.Allocator

/-!
# Reading headers after writing headers

The headers of blocks that do not overlap behave like records.  `Apart T S len` says that the
blocks `S`, with their extents, do not overlap; `Cell S len a f` that the field `f` of the block
`a` lies inside the block, which for `prevfree` needs a block of at least `freeHeader` bytes.

`Edits S len K h h' w` follows a sequence of header writes from `h` to `h'`: the cells now read
as the record heap `w`, and the user data of the blocks in `K` has been kept.  `Cells` and `Traced`
say the same of cells of any shape, which need not lie inside blocks.
-/

namespace Nmalloc

open ByteMemory

abbrev Records := ℕ → Field → ℕ

def Records.upd (w : Records) (b : ℕ) (g : Field) (x : ℕ) : Records :=
  fun a f => if a = b ∧ f = g then x else w a f

@[simp] theorem Records.upd_self (w : Records) (b : ℕ) (g : Field) (x : ℕ) :
    w.upd b g x b g = x := if_pos ⟨rfl, rfl⟩

theorem Records.upd_of_ne (w : Records) {a b : ℕ} (f g : Field) (x : ℕ) (h : a ≠ b) :
    w.upd b g x a f = w a f := if_neg fun h' => h h'.1

@[simp] theorem Records.upd_of_field_ne (w : Records) (a b : ℕ) {f g : Field} (x : ℕ)
    (h : f ≠ g) : w.upd b g x a f = w a f := if_neg fun h' => h h'.2

namespace Target

variable (T : Target) {h h' k h2 : Heap} {a b m v : ℕ} {f g : Field}

theorem dataOffset_pos : 0 < T.dataOffset := by
  have := T.ptr_cases
  unfold dataOffset
  omega

theorem offset_width_le (h : f ≠ .prevfree) : T.offset f + T.width f ≤ T.dataOffset := by
  have := T.ptr_cases
  cases f <;> simp [offset, width, dataOffset] at h ⊢ <;> omega

theorem offset_width_le_free (f : Field) : T.offset f + T.width f ≤ T.freeHeader := by
  have := T.ptr_cases
  cases f <;> simp [offset, width, freeHeader] <;> omega

theorem offset_disjoint (h : f ≠ g) :
    T.offset f + T.width f ≤ T.offset g ∨ T.offset g + T.width g ≤ T.offset f := by
  have := T.ptr_cases
  cases f <;> cases g <;> simp [offset, width] at h ⊢ <;> omega

@[simp] theorem lastsbrk_setLastsbrk (h : Heap) (m : ℕ) : (h.setLastsbrk m).lastsbrk = m := by
  simp [Heap.setLastsbrk, Heap.setFreehdr, Heap.lastsbrk]

@[simp] theorem lastsbrk_set :
    (T.set h m f v).lastsbrk = h.lastsbrk := rfl

theorem get_set_self (hv : v < 256 ^ T.width f) : T.get (T.set h m f v) m f = v :=
  load_store_same hv

theorem get_set_field (hne : f ≠ g) : T.get (T.set h m g v) m f = T.get h m f := by
  have := T.offset_disjoint hne
  exact load_store_of_disjoint (by omega)

/-- The blocks `S` with extents `len` hold a header each and do not overlap. -/
structure Apart (S : Set ℕ) (len : ℕ → ℕ) : Prop where
  header : ∀ a ∈ S, T.dataOffset ≤ len a
  apart : ∀ a ∈ S, ∀ b ∈ S, a ≠ b → a + len a ≤ b ∨ b + len b ≤ a

/-- The field `f` of the block `a` lies inside the block. -/
def Cell (S : Set ℕ) (len : ℕ → ℕ) (a : ℕ) (f : Field) : Prop :=
  a ∈ S ∧ (f = .prevfree → T.freeHeader ≤ len a)

variable {T} {S K P : Set ℕ} {len : ℕ → ℕ} {w w' : Records}

theorem Cell.end_le (hS : T.Apart S len) (hc : T.Cell S len a f) :
    T.offset f + T.width f ≤ len a := by
  by_cases hf : f = .prevfree
  · exact (T.offset_width_le_free f).trans (hc.2 hf)
  · exact (T.offset_width_le hf).trans (hS.header a hc.1)

theorem get_lt (T : Target) (h : Heap) (a : ℕ) (f : Field) : T.get h a f < 256 ^ T.width f :=
  load_lt ..

/-- The state of a sequence of header writes: the cells read as `w`, the data of `K` is kept. -/
structure Edits (T : Target) (S : Set ℕ) (len : ℕ → ℕ) (K : Set ℕ) (h h' : Heap) (w : Records) :
    Prop where
  fields : ∀ a f, T.Cell S len a f → T.get h' a f = w a f
  data : ∀ a ∈ K, ∀ x, a + T.dataOffset ≤ x → x < a + len a → h'.mem x = h.mem x

theorem Edits.refl (T : Target) (S : Set ℕ) (len : ℕ → ℕ) (K : Set ℕ) (h : Heap) :
    Edits T S len K h h (T.get h) :=
  ⟨fun _ _ _ => rfl, fun _ _ _ _ _ => rfl⟩

theorem Edits.get (he : Edits T S len K h h' w) (ha : a ∈ S) (hf : f ≠ .prevfree) :
    T.get h' a f = w a f := he.fields a f ⟨ha, fun h => absurd h hf⟩

theorem Edits.congr (he : Edits T S len K h h' w) (hw : ∀ a f, w a f = w' a f) :
    Edits T S len K h h' w' := ⟨fun a f hc => (he.fields a f hc).trans (hw a f), he.data⟩

theorem Edits.setFreehdr (he : Edits T S len K h k w) (b m : ℕ) :
    Edits T S len K h (k.setFreehdr b m) w := ⟨he.fields, he.data⟩

/-! ### Cells of any shape -/

/-- Cells `C` that do not overlap; those that may be written, `W`, keep clear of the addresses `P`.
The blocks behind them need not be known. -/
structure Cells (T : Target) (C W : ℕ → Field → Prop) (P : Set ℕ) : Prop where
  disjoint : ∀ a f b g, C a f → C b g → (a = b → f ≠ g) →
    a + T.offset f + T.width f ≤ b + T.offset g ∨ b + T.offset g + T.width g ≤ a + T.offset f
  readable : ∀ a f, W a f → C a f
  clear : ∀ a f, W a f → ∀ x ∈ P, x < a + T.offset f ∨ a + T.offset f + T.width f ≤ x

/-- The state of a sequence of writes: the cells read as `w`, the bytes at `P` are kept. -/
structure Traced (T : Target) (C : ℕ → Field → Prop) (P : Set ℕ) (h h' : Heap) (w : Records) :
    Prop where
  fields : ∀ a f, C a f → T.get h' a f = w a f
  bytes : ∀ x ∈ P, h'.mem x = h.mem x

section

variable {C W : ℕ → Field → Prop} {P : Set ℕ}

theorem Cells.get_set_ne (hC : T.Cells C W P) (ha : C a f) (hb : W b g) (hne : a = b → f ≠ g) :
    T.get (T.set h b g v) a f = T.get h a f :=
  load_store_of_disjoint (hC.disjoint a f b g ha (hC.readable b g hb) hne)

theorem Traced.refl (T : Target) (C : ℕ → Field → Prop) (P : Set ℕ) (h : Heap) :
    Traced T C P h h (T.get h) :=
  ⟨fun _ _ _ => rfl, fun _ _ => rfl⟩

theorem Traced.congr (ht : Traced T C P h h' w) (hw : ∀ a f, w a f = w' a f) :
    Traced T C P h h' w' := ⟨fun a f hc => (ht.fields a f hc).trans (hw a f), ht.bytes⟩

/-- **Headers are records**: a write to one cell is read back there and nowhere else. -/
theorem Traced.set (ht : Traced T C P h k w) (hC : T.Cells C W P) (hb : W b g)
    (hv : v < 256 ^ T.width g) : Traced T C P h (T.set k b g v) (w.upd b g v) := by
  refine ⟨fun a f ha => ?_, fun x hx => ?_⟩
  · rw [Records.upd]
    split_ifs with heq
    · obtain ⟨rfl, rfl⟩ := heq
      exact get_set_self T hv
    · rw [hC.get_set_ne ha hb fun hab hfg => heq ⟨hab, hfg⟩, ht.fields a f ha]
  · exact (store_outside (hC.clear b g hb x hx)).trans (ht.bytes x hx)

theorem Traced.heap (ht : Traced T C P h k w) (hm : h2.mem = k.mem) : Traced T C P h h2 w := by
  refine ⟨fun a f hc => ?_, fun x hx => by rw [hm]; exact ht.bytes x hx⟩
  rw [← ht.fields a f hc, get, get, hm]

end

theorem Apart.cells (hS : T.Apart S len) (hK : K ⊆ S) :
    T.Cells (T.Cell S len) (fun a f => T.Cell S len a f ∧ (f = .prevfree → a ∉ K))
      {x | ∃ a ∈ K, a + T.dataOffset ≤ x ∧ x < a + len a} where
  disjoint a f b g ha hb hne := by
    by_cases hab : a = b
    · have := T.offset_disjoint (hne hab)
      omega
    · have h1 := ha.end_le hS
      have h2 := hb.end_le hS
      rcases hS.apart a ha.1 b hb.1 hab with h3 | h3 <;> omega
  readable a f h := h.1
  clear := by
    rintro b g ⟨hb, hbK⟩ x ⟨a, ha, h1, h2⟩
    by_cases hab : a = b
    · subst hab
      have hg : g ≠ .prevfree := fun hg => hbK hg ha
      have := T.offset_width_le hg
      omega
    · have := hb.end_le hS
      rcases hS.apart a (hK ha) b hb.1 hab with h3 | h3 <;> omega

theorem Traced.edits (ht : Traced T (T.Cell S len) P h h' w)
    (hP : ∀ a ∈ K, ∀ x, a + T.dataOffset ≤ x → x < a + len a → x ∈ P) :
    Edits T S len K h h' w := ⟨ht.fields, fun a ha x h1 h2 => ht.bytes x (hP a ha x h1 h2)⟩

theorem Edits.traced {he : Edits T S len K h h' w} :
    Traced T (T.Cell S len) {x | ∃ a ∈ K, a + T.dataOffset ≤ x ∧ x < a + len a} h h' w :=
  ⟨he.fields, fun x ⟨a, ha, h1, h2⟩ => he.data a ha x h1 h2⟩

theorem Edits.set (he : Edits T S len K h k w) (hS : T.Apart S len) (hK : K ⊆ S)
    (hb : T.Cell S len b g) (hv : v < 256 ^ T.width g) (hd : g = .prevfree → b ∉ K) :
    Edits T S len K h (T.set k b g v) (w.upd b g v) :=
  (he.traced.set (hS.cells hK) ⟨hb, hd⟩ hv).edits fun a ha _ h1 h2 => ⟨a, ha, h1, h2⟩

theorem Edits.put (he : Edits T S len K h k w) (hS : T.Apart S len) (hK : K ⊆ S) (hb : b ∈ S)
    (hv : v < 256 ^ T.width g) (hg : g ≠ .prevfree) :
    Edits T S len K h (T.set k b g v) (w.upd b g v) :=
  he.set hS hK ⟨hb, fun h => absurd h hg⟩ hv fun h => absurd h hg

end Target

end Nmalloc
