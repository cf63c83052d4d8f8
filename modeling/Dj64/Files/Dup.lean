import Dj64.Files.Tables

/-!
# Duplicated descriptors

`dup` and `dup2` copy what the library knows of a descriptor: its mode, the function of its
file-system extension and its properties.  `dup2` resets the mode and the function of the new
descriptor before it calls DOS, and neither of the two copies the data of an extension.  The tables
are functions of the descriptor here; the object behind a descriptor is a number, 0 for `NULL`.
-/

namespace Dup

open Function Nat Int

open Files (Entry oBinary oText)

/-- The tables of a program: those of `dosio.c`, of `fsext.c` with the number of extensions that
there is room for, and of `fd_props.c` with `ref_count` of the objects. -/
structure World where
  mode : ℕ → ℕ
  entry : ℕ → Entry
  numFds : ℕ
  object : ℕ → ℕ
  refCount : ℕ → UInt8

/-- What DOS answers: the device information of a handle, whether the handle can be duplicated
(with function 46h, and with function 45h, which returns the new handle), the device information of
the new handle and whether it can be set; and whether `realloc` succeeds.  DOS knows handles below
255, and a new handle was free.  Descriptors are `int`s of which DOS sees the low 16 bits; here they
have no others. -/
structure Dos where
  devInfo : ℤ → ℤ
  forceDuplicate : Bool
  duplicate : ℤ → Option ℕ
  newInfo : ℤ
  setInfo : Bool
  realloc : Bool × Bool
  devInfo_known : ∀ fd, devInfo fd ≠ -1 → 0 ≤ fd ∧ fd < 255
  duplicate_known : ∀ fd new, duplicate fd = some new →
    (0 ≤ fd ∧ fd < 255) ∧ new < 255 ∧ (new : ℤ) ≠ fd

def binaryText : ℕ := oBinary ||| oText

/-- `_DEV_CDEV`, in the device information. -/
def isDevice (info : ℤ) : Prop := info / 128 % 2 = 1

instance (info : ℤ) : Decidable (isDevice info) := inferInstanceAs (Decidable (_ = _))

/-- There is room for the entry of a descriptor, if `realloc` succeeds or it is not needed. -/
def room (numFds fd : ℕ) (realloc : Bool) : Prop := fd < numFds ∨ realloc = true

instance (numFds fd : ℕ) (realloc : Bool) : Decidable (room numFds fd realloc) :=
  inferInstanceAs (Decidable (_ ∨ _))

section Model

variable (d : Dos)

/-- `setmode` has got the device information and, for a device, has set it. -/
def Dos.setsMode : Prop := d.newInfo ≠ -1 ∧ (isDevice d.newInfo → d.setInfo = true)

instance : Decidable d.setsMode := inferInstanceAs (Decidable (_ ∧ _))

/-- `__file_handle_set`: the table has room for all descriptors, and consists of characters.  It is
the one in `Files.Tables` as long as that does not grow (`mode_fileHandleSet`). -/
def fileHandleSet (w : World) (fd mode : ℕ) : World :=
  { w with mode := update w.mode fd (mode % 256) }

/-- `__FSEXT_set_function`, whose result is not used. -/
def setFunction (w : World) (fd : ℕ) (realloc : Bool) (function : ℕ) : World :=
  if room w.numFds fd realloc then
    { w with
      numFds := if fd < w.numFds then w.numFds else (fd + 256) / 256 * 256
      entry := update w.entry fd { w.entry fd with function := function } }
  else w

/-- The mode that `setmode` stores. -/
def mixed (oldmode mode : ℕ) : ℕ := oldmode ^^^ (oldmode &&& binaryText) ||| mode &&& binaryText

/-- `setmode`, on the new handle; its result is not used. -/
def setmode (w : World) (handle mode : ℕ) : World :=
  if d.setsMode then fileHandleSet w handle (mixed (w.mode handle) mode) else w

/-- `__clear_fd_properties`, if the descriptor has any. -/
def clearFdProperties (w : World) (fd : ℕ) : World :=
  if w.object fd = 0 then w
  else { w with
    object := update w.object fd 0
    refCount := update w.refCount (w.object fd) (w.refCount (w.object fd) - 1) }

def dupFdProperties (w : World) (fd newfd : ℕ) : World :=
  if w.object fd = 0 then w
  else { w with
    object := update w.object newfd (w.object fd)
    refCount := update w.refCount (w.object fd) (w.refCount (w.object fd) + 1) }

/-- What `dup2` resets before it calls DOS. -/
def reset (w : World) (fd newfd : ℕ) : World :=
  setFunction (fileHandleSet w newfd (w.mode fd ^^^ binaryText)) newfd d.realloc.1 0

/-- The function and the mode are copied. -/
def copyHook (w : World) (fd newfd : ℕ) (realloc : Bool) : World :=
  let w := setFunction w newfd realloc (w.entry fd).function
  setmode d w newfd (w.mode fd)

/-- `dup2`: the tables and the result. -/
def dup2 (w : World) (fd newfd : ℤ) : World × ℤ :=
  if newfd < 0 ∨ 255 ≤ newfd ∨ d.devInfo fd = -1 then (w, -1)
  else if fd = newfd then (w, newfd)
  else
    let w := reset d w fd.toNat newfd.toNat
    if d.forceDuplicate = false then (w, -1)
    else
      let w := clearFdProperties w newfd.toNat
      let w := copyHook d w fd.toNat newfd.toNat d.realloc.2
      (dupFdProperties w fd.toNat newfd.toNat, newfd)

def dup (w : World) (fd : ℤ) : World × ℤ :=
  match d.duplicate fd with
  | none => (w, -1)
  | some new =>
    let w := copyHook d w fd.toNat new d.realloc.1
    (dupFdProperties w fd.toNat new, new)

end Model

/-! ### What the calls are to do -/

/-- The four tables are the same. -/
structure Same (w w' : World) : Prop where
  mode : w.mode = w'.mode
  entry : w.entry = w'.entry
  object : w.object = w'.object
  refCount : ∀ p, p ≠ 0 → w.refCount p = w'.refCount p

/-- The new descriptor has what `fd` has, the properties that it had are released, and nothing
happens to the other descriptors. -/
def World.copied (w : World) (fd new : ℕ) : World where
  mode := update w.mode new (w.mode fd)
  entry := update w.entry new (w.entry fd)
  numFds := w.numFds
  object := update w.object new (w.object fd)
  refCount p := w.refCount p - (if p = w.object new then 1 else 0) +
    if p = w.object fd then 1 else 0

/-- `dup2` copies everything, or fails and changes nothing. -/
def Dup2Right (d : Dos) (w : World) (fd newfd : ℤ) : Prop :=
  if (dup2 d w fd newfd).2 = -1 then Same (dup2 d w fd newfd).1 w
  else (dup2 d w fd newfd).2 = newfd ∧ Same (dup2 d w fd newfd).1
    (if fd = newfd then w else w.copied fd.toNat newfd.toNat)

/-- `dup` copies everything, or fails and changes nothing. -/
def DupRight (d : Dos) (w : World) (fd : ℤ) : Prop :=
  if (dup d w fd).2 = -1 then Same (dup d w fd).1 w
  else Same (dup d w fd).1 (w.copied fd.toNat (dup d w fd).2.toNat)

/-- A failure of DOS finds the mode and the function already as `dup2` resets them.  Otherwise the
two descriptors have the same data, the function can be stored and `setmode` succeeds. -/
def Dup2Fits (d : Dos) (w : World) (fd newfd : ℤ) : Prop :=
  0 ≤ newfd → newfd < 255 → d.devInfo fd ≠ -1 → fd ≠ newfd →
    (d.forceDuplicate = false → w.mode newfd.toNat = w.mode fd.toNat ^^^ binaryText ∧
      (w.entry newfd.toNat).function = 0) ∧
    (d.forceDuplicate = true → d.setsMode ∧
      ((w.entry fd.toNat).function = 0 ∨ room w.numFds newfd.toNat (d.realloc.1 || d.realloc.2)) ∧
      (w.entry newfd.toNat).data = (w.entry fd.toNat).data)

/-- The mode of the new descriptor differs from that of `fd` only as far as `setmode` changes it,
the function can be stored, the two have the same data, and the new one has no properties. -/
def DupFits (d : Dos) (w : World) (fd : ℤ) : Prop :=
  ∀ new, d.duplicate fd = some new →
    (if d.setsMode then w.mode new ||| binaryText = w.mode fd.toNat ||| binaryText
      else w.mode new = w.mode fd.toNat) ∧
    ((w.entry fd.toNat).function = 0 ∨ room w.numFds new d.realloc.1) ∧
    (w.entry new).data = (w.entry fd.toNat).data ∧ w.object new = 0

/-- Modes are characters, and there are no extensions where there is no room. -/
structure World.Valid (w : World) : Prop where
  chars : ∀ i, w.mode i < 256
  beyond : ∀ i, w.numFds ≤ i → w.entry i = ⟨0, 0⟩

variable {d : Dos} {w w' : World} {fd new m old : ℕ}

/-! ### The calls -/

theorem mode_fileHandleSet {t : Files.Tables} (ht : t.mode = w.mode)
    (hgrown : fd < t.count - 1 ∨ 255 ≤ t.count) :
    ((t.enlarge fd).write fd m).mode = (fileHandleSet w fd m).mode := by
  rw [Files.Tables.enlarge, if_neg (by omega), fileHandleSet, ← ht]
  funext i
  unfold Files.Tables.write Files.Tables.mode
  cases t.fileHandleModes <;> simp

theorem mixed_toggled (hm : m < 256) : mixed ((m ^^^ binaryText) % 256) m % 256 = m := by
  revert m
  decide +kernel

theorem toggled_ne (hm : m < 256) : (m ^^^ binaryText) % 256 ≠ m := by
  revert m
  decide +kernel

theorem mixed_eq_iff (hold : old < 256) (m : ℕ) :
    mixed old m % 256 = m ↔ old ||| binaryText = m ||| binaryText := by
  have hlt : mixed old m < 256 :=
    or_lt_two_pow (n := 8) (xor_lt_two_pow hold (and_lt_two_pow _ (by decide)))
      (and_lt_two_pow _ (by decide))
  -- bit by bit
  have hbit (o x b : Bool) : (o ^^ (o && b) || x && b) = x ↔ (o || b) = (x || b) := by
    cases o <;> cases x <;> cases b <;> decide
  rw [mod_eq_of_lt hlt, mixed, eq_iff_testBit_eq, eq_iff_testBit_eq]
  simp only [testBit_or, testBit_xor, testBit_and, hbit]

theorem setFunction_same (w : World) (fd : ℕ) (realloc : Bool) (f : ℕ) :
    (setFunction w fd realloc f).mode = w.mode ∧ (setFunction w fd realloc f).object = w.object ∧
      (setFunction w fd realloc f).refCount = w.refCount := by
  unfold setFunction
  split_ifs <;> exact ⟨rfl, rfl, rfl⟩

theorem setFunction_entry (w : World) (fd : ℕ) (realloc : Bool) (f : ℕ) :
    (setFunction w fd realloc f).entry = if room w.numFds fd realloc then
      update w.entry fd { w.entry fd with function := f } else w.entry := by
  unfold setFunction
  split_ifs <;> rfl

/-- The mode is copied as far as `setmode` changes it, and the function if there is room. -/
theorem copyHook_eq (d : Dos) (w : World) (fd new : ℕ) (realloc : Bool) :
    (copyHook d w fd new realloc).mode = update w.mode new
        (if d.setsMode then mixed (w.mode new) (w.mode fd) % 256 else w.mode new) ∧
      ((copyHook d w fd new realloc).entry = if room w.numFds new realloc then
        update w.entry new { w.entry new with function := (w.entry fd).function }
        else w.entry) ∧
      (copyHook d w fd new realloc).object = w.object ∧
      (copyHook d w fd new realloc).refCount = w.refCount := by
  obtain ⟨hm, ho, hc⟩ := setFunction_same w new realloc (w.entry fd).function
  have he := setFunction_entry w new realloc (w.entry fd).function
  unfold copyHook setmode
  by_cases hs : d.setsMode
  · rw [if_pos hs, if_pos hs]
    exact ⟨by rw [fileHandleSet, hm], he, ho, hc⟩
  · rw [if_neg hs, if_neg hs]
    exact ⟨by rw [hm, update_eq_self], he, ho, hc⟩

theorem reset_same (d : Dos) (w : World) (fd new : ℕ) :
    (reset d w fd new).mode = update w.mode new ((w.mode fd ^^^ binaryText) % 256) ∧
      (reset d w fd new).object = w.object ∧ (reset d w fd new).refCount = w.refCount :=
  setFunction_same ..

theorem reset_entry (d : Dos) (w : World) (fd new : ℕ) :
    (reset d w fd new).entry = if room w.numFds new d.realloc.1 then
      update w.entry new { w.entry new with function := 0 } else w.entry :=
  setFunction_entry ..

/-- The function is stored if there is room at one of the two times. -/
theorem reset_room {realloc : Bool} : room (reset d w fd new).numFds new realloc ↔
    room w.numFds new (d.realloc.1 || realloc) := by
  unfold reset setFunction room fileHandleSet
  split_ifs <;> simp <;> grind

/-- A failure of DOS leaves the tables as they were exactly if nothing had to be reset. -/
theorem reset_same_iff (hw : w.Valid) : Same (reset d w fd new) w ↔
    w.mode new = w.mode fd ^^^ binaryText ∧ (w.entry new).function = 0 := by
  obtain ⟨hmo, ho, hc⟩ := reset_same d w fd new
  have hen := reset_entry d w fd new
  rw [mod_eq_of_lt (xor_lt_two_pow (n := 8) (hw.chars fd) (by decide))] at hmo
  constructor
  · intro hu
    have hm := hu.mode
    have he := congrArg Entry.function (congrFun hu.entry new)
    rw [hmo, update_eq_iff] at hm
    rw [hen] at he
    refine ⟨hm.1.symm, ?_⟩
    split_ifs at he with hr
    · rw [← he, update_self]
    · rw [hw.beyond new (not_lt.1 fun hlt => hr (.inl hlt))]
  · rintro ⟨hm, hf⟩
    have hs : ({ w.entry new with function := 0 } : Entry) = w.entry new := by rw [← hf]
    refine ⟨?_, ?_, ho, fun p _ => by rw [hc]⟩
    · rw [hmo, ← hm, update_eq_self]
    · rw [hen, hs, update_eq_self, ite_self]

/-- When the entry is copied. -/
theorem entry_copied_iff (hw : w.Valid) (fd new : ℕ) (realloc : Bool) :
    (if room w.numFds new realloc then
      update w.entry new { w.entry new with function := (w.entry fd).function }
      else w.entry) = update w.entry new (w.entry fd) ↔
    ((w.entry fd).function = 0 ∨ room w.numFds new realloc) ∧
      (w.entry new).data = (w.entry fd).data := by
  rcases hfd : w.entry fd with ⟨function, data⟩
  split_ifs with hr
  · rw [(update_injective _ _).eq_iff]
    simp [hr]
  · rw [eq_update_self_iff, hw.beyond new (not_lt.1 fun hlt => hr (.inl hlt))]
    simp [hr, eq_comm]

theorem dupFdProperties_same :
    (dupFdProperties w fd new).mode = w.mode ∧ (dupFdProperties w fd new).entry = w.entry := by
  unfold dupFdProperties
  split_ifs <;> exact ⟨rfl, rfl⟩

theorem clearFdProperties_eq :
    (clearFdProperties w fd).object = update w.object fd 0 ∧ ∀ p, p ≠ 0 →
      (clearFdProperties w fd).refCount p = w.refCount p - if p = w.object fd then 1 else 0 := by
  unfold clearFdProperties
  split_ifs with h
  · refine ⟨by rw [← h, update_eq_self], fun p hp => ?_⟩
    grind
  · refine ⟨rfl, fun p _ => ?_⟩
    by_cases hp : p = w.object fd
    · simp [hp]
    · simp [hp]

theorem clearFdProperties_same :
    (clearFdProperties w fd).mode = w.mode ∧ (clearFdProperties w fd).entry = w.entry ∧
      (clearFdProperties w fd).numFds = w.numFds := by
  unfold clearFdProperties
  split_ifs <;> exact ⟨rfl, rfl, rfl⟩

/-- The properties of `fd` are shared with a descriptor whose own ones are released. -/
theorem same_copied_iff (hne : fd ≠ new) (ho : w'.object = update w.object new 0)
    (hc : ∀ p, p ≠ 0 → w'.refCount p = w.refCount p - if p = w.object new then 1 else 0) :
    Same (dupFdProperties w' fd new) (w.copied fd new) ↔
      w'.mode = update w.mode new (w.mode fd) ∧
        w'.entry = update w.entry new (w.entry fd) := by
  obtain ⟨hmo, hen⟩ := dupFdProperties_same
  constructor
  · exact fun h => ⟨hmo.symm.trans h.mode, hen.symm.trans h.entry⟩
  · rintro ⟨hm, he⟩
    refine ⟨hmo.trans hm, hen.trans he, ?_, fun p hp => ?_⟩
    · unfold dupFdProperties World.copied
      rw [ho, update_of_ne hne]
      split_ifs with h0
      · rw [ho, h0]
      · simp
    · unfold dupFdProperties World.copied
      rw [ho]
      split_ifs with h0
      all_goals grind

/-- `dup` does not release what the new descriptor has. -/
theorem object_of_same (ho : w'.object = w.object) (hco : w'.refCount = w.refCount)
    (h : Same (dupFdProperties w' fd new) (w.copied fd new)) : w.object new = 0 := by
  by_contra hold
  have hc := h.refCount (w.object new) hold
  unfold dupFdProperties World.copied at hc
  rw [ho] at hc
  by_cases hfd : w.object fd = 0
  · grind
  · rw [if_neg hfd] at hc
    by_cases hs : w.object new = w.object fd
    · grind
    · grind

/-- `dup2` is right exactly if it fits. -/
theorem dup2_right_iff (hw : w.Valid) {fd newfd : ℤ} :
    Dup2Right d w fd newfd ↔ Dup2Fits d w fd newfd := by
  have hr : Same w w := ⟨rfl, rfl, rfl, fun _ _ => rfl⟩
  unfold Dup2Right Dup2Fits
  by_cases hbad : newfd < 0 ∨ 255 ≤ newfd ∨ d.devInfo fd = -1
  · rw [dup2, if_pos hbad]
    exact iff_of_true hr fun h1 h2 h3 => by omega
  by_cases hsa : fd = newfd
  · rw [dup2, if_neg hbad, if_pos hsa, if_neg (by omega), if_pos hsa]
    exact iff_of_true ⟨rfl, hr⟩ fun _ _ _ hne => absurd hsa hne
  rw [dup2, if_neg hbad]
  push Not at hbad
  obtain ⟨h0, h255, hk⟩ := hbad
  obtain ⟨hfd0, -⟩ := d.devInfo_known fd hk
  obtain ⟨n, rfl⟩ := eq_ofNat_of_zero_le hfd0
  obtain ⟨new, rfl⟩ := eq_ofNat_of_zero_le h0
  have hne : n ≠ new := by omega
  simp only [h0, h255, hk, hsa, ne_eq, not_false_eq_true, toNat_natCast]
  cases hdos : d.forceDuplicate with
  | false => simpa using reset_same_iff hw
  | true =>
    -- the reset tables, with the properties of the new descriptor cleared
    simp only [Bool.true_eq_false, if_false, false_implies, true_and, forall_const]
    obtain ⟨hmod, hob, hco⟩ := reset_same d w n new
    obtain ⟨hobject1, hcount1⟩ := clearFdProperties_eq
    obtain ⟨hmode1, hentry1, hnum1⟩ := clearFdProperties_same
    generalize clearFdProperties (reset d w n new) new = w1 at *
    obtain ⟨hm, he, ho, hc⟩ := copyHook_eq d w1 n new d.realloc.2
    have hmo : (copyHook d w1 n new d.realloc.2).mode = update w.mode new
        (if d.setsMode then w.mode n else (w.mode n ^^^ binaryText) % 256) := by
      rw [hm, hmode1, hmod, update_idem, update_self, update_of_ne hne, mixed_toggled (hw.chars n)]
    have hen : (copyHook d w1 n new d.realloc.2).entry =
        if room w.numFds new (d.realloc.1 || d.realloc.2) then
          update w.entry new { w.entry new with function := (w.entry n).function }
          else w.entry := by
      rw [he, hnum1, hentry1, reset_entry]
      simp only [reset_room]
      by_cases h1 : room w.numFds new d.realloc.1
      · have h2 : room w.numFds new (d.realloc.1 || d.realloc.2) :=
          h1.imp_right fun h => by rw [h, Bool.true_or]
        rw [if_pos h1, update_of_ne hne, update_self, update_idem, if_pos h2, if_pos h2]
      · rw [if_neg h1]
    rw [same_copied_iff hne (by rw [ho, hobject1, hob])
      (fun p hp => by rw [hc, hcount1 p hp, hco, hob]), hmo, hen,
      (update_injective _ _).eq_iff, entry_copied_iff hw]
    refine and_congr_left fun _ => ?_
    split_ifs with hs
    · simp [hs]
    · exact iff_of_false (toggled_ne (hw.chars n)) hs

/-- `dup` is right exactly if it fits. -/
theorem dup_right_iff (hw : w.Valid) (d : Dos) (fd : ℤ) : DupRight d w fd ↔ DupFits d w fd := by
  unfold DupRight DupFits dup
  cases hdos : d.duplicate fd with
  | none => exact iff_of_true ⟨rfl, rfl, rfl, fun _ _ => rfl⟩ nofun
  | some new =>
    obtain ⟨⟨h0, -⟩, -, hne⟩ := d.duplicate_known fd new hdos
    obtain ⟨n, rfl⟩ := eq_ofNat_of_zero_le h0
    obtain ⟨hm, he, ho, hc⟩ := copyHook_eq d w n new d.realloc.1
    simp only [Option.some.injEq, forall_eq']
    have hmo : (if d.setsMode then mixed (w.mode new) (w.mode n) % 256 else w.mode new) =
        w.mode n ↔ if d.setsMode then w.mode new ||| binaryText = w.mode n ||| binaryText
          else w.mode new = w.mode n := by
      split_ifs with hs
      · exact mixed_eq_iff (hw.chars new) _
      · rfl
    have hco (hf : w.object new = 0) : Same (dupFdProperties _ n new) (w.copied n new) ↔ _ :=
      same_copied_iff (show n ≠ new by omega) (by rw [ho, ← hf, update_eq_self])
        fun p hp => show _ = w.refCount p - _ by
          grind
    simp only [hm, he, (update_injective _ _).eq_iff, entry_copied_iff hw, hmo] at hco
    constructor
    · intro h
      have hf := object_of_same ho hc h
      obtain ⟨h1, h2, h3⟩ := (hco hf).1 h
      exact ⟨h1, h2, h3, hf⟩
    · rintro ⟨h1, h2, h3, hf⟩
      exact (hco hf).2 ⟨h1, h2, h3⟩

/-- A program with a binary file 5 that has an extension with data. -/
def extended : World where
  mode _ := oBinary
  entry i := if i = 5 then ⟨7, 9⟩ else ⟨0, 0⟩
  numFds := 256
  object _ := 0
  refCount _ := 0

theorem extended_valid : extended.Valid where
  chars _ := show oBinary < 256 by decide
  beyond i hi := if_neg (show i ≠ 5 by have : 256 ≤ i := hi; omega)

/-- DOS with 255 handles, of which 6 and above are free. -/
def handles (forceDuplicate : Bool) : Dos where
  devInfo fd := if 0 ≤ fd ∧ fd < 255 then 0 else -1
  forceDuplicate := forceDuplicate
  duplicate fd := if 0 ≤ fd ∧ fd < 6 then some 6 else none
  newInfo := 0
  setInfo := true
  realloc := (true, true)
  devInfo_known fd h := by
    by_contra hno
    exact h (if_neg hno)
  duplicate_known fd new h := by
    split_ifs at h with hfd
    cases h
    omega

end Dup
