import Dj64.Lib.Runs

/-!
# Descriptor tables of programs that share the library

Each program has a table of file-system extensions (`fsext_state`) and a table of file modes
(`fh_state`), swapped with the other contexts.  Both are initialised again when `__bss_count` has
changed, which counts the programs started.  The count that `fh_state` compares is its own; the one
of the extensions is shared.
-/

namespace Files

open Option Function Runs

/-- `struct __FSEXT_entry`. -/
structure Entry where
  function : ℕ
  data : ℕ
  deriving DecidableEq

/-- `O_BINARY` and `O_TEXT`. -/
def oBinary : ℕ := 4

@[inherit_doc oBinary]
def oText : ℕ := 8

def initFh (fd : ℕ) : ℕ := if fd < 3 then oText else if fd < 5 then oBinary else 0

/-- `struct fsext_state` and `struct fh_state` of a program.  `fileHandleModes` is the table that
was allocated, or `none` for the initial one inside the context. -/
structure Tables where
  numFds : ℕ
  fsextList : Option (ℕ → Entry)
  initFileHandleModes : ℕ → ℕ
  dosioBssCount : ℤ
  count : ℕ
  fileHandleModes : Option (ℕ → ℕ)

/-- The contexts as `DJ64_INIT_FN` sets them up. -/
def Tables.fresh : Tables := ⟨0, none, initFh, -1, 20, none⟩

/-- `__bss_count`, the static `init_count` of `fsext.c`, and the tables of each program. -/
structure Library where
  bssCount : ℤ
  initCount : ℤ
  tables : ℕ → Tables

/-- A table pointer is `NULL`. -/
inductive Fault
  | nullList
  deriving DecidableEq

def Library.set (s : Library) (h : ℕ) (t : Tables) : Library :=
  { s with tables := update s.tables h t }

def Tables.withList (t : Tables) (numFds : ℕ) (list : Option (ℕ → Entry)) : Tables :=
  { t with numFds := numFds, fsextList := list }

/-! ### Operations -/

/-- `init` of `fsext.c`. -/
def init (s : Library) (h : ℕ) : Library :=
  if s.initCount = s.bssCount then s
  else { s.set h ((s.tables h).withList 0 none) with initCount := s.bssCount }

/-- The entries after `realloc` from `old` entries; the new ones are cleared. -/
def grown (list : Option (ℕ → Entry)) (old : ℕ) : ℕ → Entry := fun i =>
  if i < old then (list.getD fun _ => ⟨0, 0⟩) i else ⟨0, 0⟩

/-- `grow_table`, with whether `realloc` succeeds; the result is `false` for failure. -/
def growTable (s : Library) (h : ℕ) (fd : ℤ) (realloc : Bool) : Library × Bool :=
  let s := init s h
  let t := s.tables h
  if fd < 0 then (s, false)
  else if t.numFds ≤ fd.toNat then
    if realloc then
      (s.set h (t.withList ((fd.toNat + 256) / 256 * 256) (some (grown t.fsextList t.numFds))),
        true)
    else (s, false)
  else (s, true)

/-- A write to `fsext_list[fd]`. -/
def writeEntry (s : Library) (h : ℕ) (fd : ℤ) (f : Entry → Entry) : Except Fault Library :=
  match (s.tables h).fsextList with
  | some list => .ok (s.set h ((s.tables h).withList (s.tables h).numFds
      (some (update list fd.toNat (f (list fd.toNat))))))
  | none => .error .nullList

/-- `__FSEXT_set_function` and `__FSEXT_set_data`, which write the two fields of an entry; the
result tells whether they succeed. -/
def setEntry (s : Library) (h : ℕ) (fd : ℤ) (realloc : Bool) (f : Entry → Entry) :
    Except Fault (Library × Bool) := do
  let (s, ok) := growTable s h fd realloc
  if ok then return (← writeEntry s h fd f, true)
  else return (s, false)

def setFunction (s : Library) (h : ℕ) (fd : ℤ) (realloc : Bool) (function : ℕ) :
    Except Fault (Library × Bool) := setEntry s h fd realloc fun e =>
      { e with function := function }

def setData (s : Library) (h : ℕ) (fd : ℤ) (realloc : Bool) (data : ℕ) :
    Except Fault (Library × Bool) := setEntry s h fd realloc fun e => { e with data := data }

/-- `__FSEXT_get_function` and `__FSEXT_get_data`: the fields of the entry, zero outside the table.
-/
def getEntry (s : Library) (h : ℕ) (fd : ℤ) : Except Fault (Library × Entry) := do
  let s := init s h
  let t := s.tables h
  if fd < 0 ∨ (t.numFds : ℤ) ≤ fd then return (s, ⟨0, 0⟩)
  else
    match t.fsextList with
    | some list => return (s, list fd.toNat)
    | none => .error .nullList

/-- `__file_handle_set` when another program has been started since its last call. -/
def Tables.recount (t : Tables) (bssCount : ℤ) : Tables :=
  if t.dosioBssCount ≠ bssCount then { t with dosioBssCount := bssCount, count := 20 } else t

/-- `__file_handle_set` expands the table; `malloc` is assumed to succeed.  The new table starts
from the initial one, whatever the current one holds. -/
def Tables.enlarge (t : Tables) (fd : ℕ) : Tables :=
  if t.count - 1 ≤ fd ∧ t.count < 255 then
    { t with
      count := 255
      fileHandleModes := some fun i => if i < 20 ∧ i < t.count then t.initFileHandleModes i else 0 }
  else t

def Tables.write (t : Tables) (fd mode : ℕ) : Tables :=
  match t.fileHandleModes with
  | none => { t with
      initFileHandleModes := update t.initFileHandleModes fd (mode % 256) }
  | some modes => { t with fileHandleModes := some (update modes fd (mode % 256)) }

def fileHandleSet (s : Library) (h : ℕ) (fd : ℤ) (mode : ℕ) : Library :=
  let t := (s.tables h).recount s.bssCount
  if fd < 0 then s.set h t
  else s.set h ((t.enlarge fd.toNat).write fd.toNat mode)

def Tables.mode (t : Tables) (fd : ℕ) : ℕ :=
  match t.fileHandleModes with
  | none => t.initFileHandleModes fd
  | some modes => modes fd

/-- `__crt1_startup`, as far as the tables depend on it. -/
def crt1Startup (s : Library) : Library := { s with bssCount := s.bssCount + 1 }

/-! ### Runs -/

/-- What a program does with its tables. -/
inductive Op
  | setFunction (fd : ℤ) (realloc : Bool) (function : ℕ)
  | setData (fd : ℤ) (realloc : Bool) (data : ℕ)
  | getFunction (fd : ℤ)
  | getData (fd : ℤ)
  | fileHandleSet (fd : ℤ) (mode : ℕ)
  | readMode (fd : ℕ)

/-- An operation of a program, or the set-up, start or end of one.  At its end a program closes its
extensions, which are operations too, and frees its table. -/
inductive Event
  | op (h : ℕ) (op : Op)
  | load (h : ℕ)
  | startup (h : ℕ)
  | close (h : ℕ)

/-- The library, what the program `A` has set for each descriptor, and what it has observed: the
value seen and the value expected. -/
structure Session where
  lib : Library
  entries : ℕ → Entry
  modes : ℕ → Option ℕ
  observed : List (ℕ × ℕ)

namespace Session

/-- `A` has set an entry, if the call succeeded. -/
def record (s : Session) (mine ok : Bool) (fd : ℤ) (f : Entry → Entry) : Session :=
  if mine && ok then
    { s with entries := update s.entries fd.toNat (f (s.entries fd.toNat)) }
  else s

def recordMode (s : Session) (mine : Bool) (fd : ℤ) (mode : ℕ) : Session :=
  if mine && decide (0 ≤ fd) then
    { s with modes := update s.modes fd.toNat (some (mode % 256)) }
  else s

/-- `A` has observed a value. -/
def observe (s : Session) (mine : Bool) (seen expected : ℕ) : Session :=
  if mine then { s with observed := s.observed ++ [(seen, expected)] } else s

/-- What `A` expects of the entry of a descriptor. -/
def expected (s : Session) (fd : ℤ) : Entry := if fd < 0 then ⟨0, 0⟩ else s.entries fd.toNat

end Session

def step (A : ℕ) (s : Session) : Event → Except Fault Session
  | .op h (.setFunction fd realloc function) => do
    let (lib, ok) ← setFunction s.lib h fd realloc function
    return { s with lib := lib }.record (h = A) ok fd fun e => { e with function := function }
  | .op h (.setData fd realloc data) => do
    let (lib, ok) ← setData s.lib h fd realloc data
    return { s with lib := lib }.record (h = A) ok fd fun e => { e with data := data }
  | .op h (.getFunction fd) => do
    let (lib, e) ← getEntry s.lib h fd
    return { s with lib := lib }.observe (h = A) e.function (s.expected fd).function
  | .op h (.getData fd) => do
    let (lib, e) ← getEntry s.lib h fd
    return { s with lib := lib }.observe (h = A) e.data (s.expected fd).data
  | .op h (.fileHandleSet fd mode) =>
    return { s with lib := fileHandleSet s.lib h fd mode }.recordMode (h = A) fd mode
  | .op h (.readMode fd) =>
    return s.observe (h = A) ((s.lib.tables h).mode fd) ((s.modes fd).getD 0)
  | .load h => return { s with lib := s.lib.set h .fresh }
  | .startup _ => return { s with lib := crt1Startup s.lib }
  | .close h => return { s with lib := s.lib.set h { s.lib.tables h with fsextList := none } }

/-- `A` has been set up and has set nothing; other programs may have run before. -/
def Session.start (A : ℕ) (lib : Library) : Session :=
  ⟨lib.set A .fresh, fun _ => ⟨0, 0⟩, fun fd => if fd < 20 then some (initFh fd) else none, []⟩

def Tables.Listed (t : Tables) : Prop := t.fsextList.isNone → t.numFds = 0

/-- The descriptors of an operation are in the range of the tables. -/
def Op.InRange : Op → Prop
  | .setFunction fd _ _ => fd < 255
  | .setData fd _ _ => fd < 255
  | .getFunction fd => fd < 255
  | .getData fd => fd < 255
  | .fileHandleSet fd _ => fd < 255
  | .readMode fd => fd < 255

/-- The runs considered: the other programs come and go, and use their tables while they run; `A`
reads the modes of descriptors that it has set or that are there initially. -/
def Legal (A : ℕ) (s : Session) : Event → Prop
  | .op h op => op.InRange ∧ (h ≠ A → (s.lib.tables h).Listed) ∧
    match op with
    | .readMode fd => h = A → (s.modes fd).isSome
    | _ => True
  | .load h => h ≠ A
  | .startup h => h ≠ A
  | .close h => h ≠ A

/-- An extension call of `A` does not find a count that another program's start has changed, unless
its table is empty; a mode for a high descriptor is set while the mode table of `A` is the initial
one, or is enlarged and no program has been started since. -/
def Safe (A : ℕ) (s : Session) : Event → Prop
  | .op h (.fileHandleSet fd _) => h = A → 19 ≤ fd →
    (s.lib.tables A).fileHandleModes.isNone ∨
      (s.lib.tables A).dosioBssCount = s.lib.bssCount ∧ (s.lib.tables A).count = 255
  | .op _ (.readMode _) => True
  | .op h _ => h = A → s.lib.initCount = s.lib.bssCount ∨ (s.lib.tables A).numFds = 0
  | _ => True

/-! ### The table of extensions -/

variable {A h n old new seen expected : ℕ} {s s' : Session} {lib lib' lib'' : Library} {fd : ℤ}
  {t t' : Tables} {list : Option (ℕ → Entry)}

theorem set_self (lib : Library) (h : ℕ) (t : Tables) : (lib.set h t).tables h = t :=
  update_self ..

theorem set_of_ne (hA : A ≠ h) : (lib.set h t).tables A = lib.tables A :=
  update_of_ne hA ..

theorem grown_zero : grown list 0 = fun _ => ⟨0, 0⟩ := by
  funext i
  simp [grown]

/-- A call on the table of extensions of `h`: it is not freed, and nothing else changes. -/
structure Extends (h : ℕ) (lib lib' : Library) : Prop where
  listed : (lib'.tables h).Listed
  others : ∀ i, i ≠ h → lib'.tables i = lib.tables i
  modes : (lib'.tables h).count = (lib.tables h).count ∧
    (lib'.tables h).initFileHandleModes = (lib.tables h).initFileHandleModes ∧
    (lib'.tables h).fileHandleModes = (lib.tables h).fileHandleModes

/-- The table of extensions of `h` as a function of the descriptor. -/
def Library.entries (lib : Library) (h : ℕ) : ℕ → Entry :=
  grown (lib.tables h).fsextList (lib.tables h).numFds

/-- The condition under which `init` keeps the entries. -/
def Library.Current (lib : Library) (h : ℕ) : Prop :=
  lib.initCount = lib.bssCount ∨ (lib.tables h).numFds = 0

theorem Extends.of_withList (hl : list.isNone → n = 0)
    (ht : lib'.tables = (lib.set h ((lib.tables h).withList n list)).tables) :
    Extends h lib lib' := by
  have hs : lib'.tables h = (lib.tables h).withList n list := by rw [ht, set_self]
  refine ⟨?_, fun i hi => ?_, ?_⟩
  · rw [hs]
    exact hl
  · rw [ht, set_of_ne hi]
  · rw [hs]
    exact ⟨rfl, rfl, rfl⟩

theorem Extends.trans (h1 : Extends h lib lib') (h2 : Extends h lib' lib'') : Extends h lib lib'' :=
  ⟨h2.listed, fun i hi => (h2.others i hi).trans (h1.others i hi),
    h2.modes.1.trans h1.modes.1, h2.modes.2.1.trans h1.modes.2.1, h2.modes.2.2.trans h1.modes.2.2⟩

theorem Extends.refl (hl : (lib.tables h).Listed) : Extends h lib lib :=
  ⟨hl, fun _ _ => rfl, rfl, rfl, rfl⟩

theorem init_spec (hl : (lib.tables h).Listed) :
    Extends h lib (init lib h) ∧ (lib.Current h → (init lib h).entries h = lib.entries h) := by
  unfold init
  split_ifs with hc
  · exact ⟨.refl hl, fun _ => rfl⟩
  · refine ⟨Extends.of_withList (n := 0) (fun _ => rfl) rfl, fun hs => ?_⟩
    have h0 : (lib.tables h).numFds = 0 := hs.resolve_left hc
    show grown ((lib.set h _).tables h).fsextList ((lib.set h _).tables h).numFds = grown _ _
    rw [set_self, h0]
    exact grown_zero

theorem grown_grown (hle : old ≤ new) : grown (some (grown list old)) new = grown list old := by
  funext i
  show (if i < new then grown list old i else ⟨0, 0⟩) = grown list old i
  split_ifs with hi
  · rfl
  · rw [grown, if_neg (by omega)]

section

variable (hl : (lib.tables h).Listed)
include hl

theorem growTable_spec (fd : ℤ) (realloc : Bool) :
    Extends h lib (growTable lib h fd realloc).1 ∧
      (lib.Current h → (growTable lib h fd realloc).1.entries h = lib.entries h) ∧
      ((growTable lib h fd realloc).2 →
        0 ≤ fd ∧ fd.toNat < ((growTable lib h fd realloc).1.tables h).numFds) := by
  obtain ⟨he, hent⟩ := init_spec hl
  unfold growTable
  dsimp only
  split_ifs with hneg hle hre
  · exact ⟨he, hent, nofun⟩
  · have hg : ((init lib h).tables h).numFds ≤ (fd.toNat + 256) / 256 * 256 := by omega
    refine ⟨he.trans (Extends.of_withList (fun h => by cases h) rfl), fun hs => ?_, fun _ => ?_⟩
    · rw [← hent hs]
      show grown (Library.tables _ h).fsextList (Library.tables _ h).numFds = _
      rw [set_self]
      exact grown_grown hg
    · rw [set_self]
      exact ⟨by omega, by dsimp only [Tables.withList]; omega⟩
  · exact ⟨he, hent, nofun⟩
  · exact ⟨he, hent, fun _ => ⟨by omega, not_le.mp hle⟩⟩

theorem setEntry_spec (fd : ℤ) (realloc : Bool) (f : Entry → Entry) :
    ∃ lib' ok, setEntry lib h fd realloc f = .ok (lib', ok) ∧ Extends h lib lib' ∧
      (lib.Current h → lib'.entries h = if ok then
        update (lib.entries h) fd.toNat (f (lib.entries h fd.toNat))
          else lib.entries h) := by
  obtain ⟨he, hent, hfd⟩ := growTable_spec hl fd realloc
  unfold setEntry
  generalize growTable lib h fd realloc = r at he hent hfd
  obtain ⟨lib1, ok⟩ := r
  cases ok with
  | false => exact ⟨lib1, false, rfl, he, hent⟩
  | true =>
    obtain ⟨h0, hlt⟩ := hfd rfl
    cases hli : (lib1.tables h).fsextList with
    | none =>
      have := he.listed (by rw [hli]; rfl)
      omega
    | some list =>
      refine ⟨lib1.set h ((lib1.tables h).withList (lib1.tables h).numFds
        (some (update list fd.toNat (f (list fd.toNat))))), true, ?_,
        he.trans (Extends.of_withList (fun h => by cases h) rfl), fun hs => ?_⟩
      · simp only [writeEntry, hli]
        rfl
      rw [← hent hs]
      have hold : lib1.entries h = grown (some list) (lib1.tables h).numFds := by
        rw [Library.entries, hli]
      rw [hold]
      show grown (Library.tables _ h).fsextList (Library.tables _ h).numFds = _
      rw [set_self]
      funext i
      by_cases hi : i = fd.toNat
      · subst hi
        simp [grown, Tables.withList, hlt]
      · simp [grown, Tables.withList, hi]

theorem getEntry_spec (fd : ℤ) :
    ∃ lib' e, getEntry lib h fd = .ok (lib', e) ∧ Extends h lib lib' ∧
      (lib.Current h → lib'.entries h = lib.entries h ∧
        e = if fd < 0 then ⟨0, 0⟩ else lib.entries h fd.toNat) := by
  obtain ⟨he, hent⟩ := init_spec hl
  unfold getEntry
  by_cases hout : fd < 0 ∨ (((init lib h).tables h).numFds : ℤ) ≤ fd
  · rw [if_pos hout]
    refine ⟨_, _, rfl, he, fun hs => ⟨hent hs, ?_⟩⟩
    split_ifs with hneg
    · rfl
    · rw [← hent hs, Library.entries, grown, if_neg (by omega)]
  rw [if_neg hout]
  cases hli : ((init lib h).tables h).fsextList with
  | none =>
    have := he.listed (by rw [hli]; rfl)
    omega
  | some list =>
    refine ⟨_, _, rfl, he, fun hs => ⟨hent hs, ?_⟩⟩
    rw [if_neg (by omega), ← hent hs, Library.entries, hli, grown, if_pos (by omega)]
    rfl

end

/-! ### File modes -/

/-- The mode table holds the given modes. -/
structure Tables.Holds (t : Tables) (modes : ℕ → Option ℕ) : Prop where
  count : t.count = 20 ∨ t.count = 255
  initial : t.fileHandleModes = none → t.count = 20 ∧
    modes = fun fd => if fd < 20 then some (t.initFileHandleModes fd) else none
  enlarged : ∀ table, t.fileHandleModes = some table → ∀ fd v, modes fd = some v → table fd = v

variable {modes : ℕ → Option ℕ}

theorem Tables.Holds.congr (hh : t.Holds modes)
    (hc : t'.count = t.count ∧ t'.initFileHandleModes = t.initFileHandleModes ∧
      t'.fileHandleModes = t.fileHandleModes) : t'.Holds modes := by
  obtain ⟨h1, h2, h3⟩ := hh
  rw [← hc.1] at h1 h2
  rw [← hc.2.1, ← hc.2.2] at h2
  rw [← hc.2.2] at h3
  exact ⟨h1, h2, h3⟩

variable {t : Tables}

section

variable (hh : t.Holds modes)
include hh

theorem Tables.Holds.mode {fd : ℕ} (hm : (modes fd).isSome) : t.mode fd = (modes fd).getD 0 := by
  obtain ⟨v, hv⟩ := isSome_iff_exists.mp hm
  rw [hv, Tables.mode]
  cases ht : t.fileHandleModes with
  | none =>
    obtain ⟨_, hmo⟩ := hh.initial ht
    simp only [hmo] at hv
    split_ifs at hv
    exact some.inj hv
  | some table => exact hh.enlarged table ht fd v hv

theorem Tables.Holds.recount (bssCount : ℤ) : (t.recount bssCount).Holds modes := by
  unfold Tables.recount
  split_ifs with hb
  · exact ⟨.inl rfl, fun hn => ⟨rfl, (hh.initial hn).2⟩, hh.enlarged⟩
  · exact hh

theorem Tables.Holds.enlarge {fd : ℕ} (hs : 19 ≤ fd → t.fileHandleModes = none ∨ t.count = 255) :
    (t.enlarge fd).Holds modes ∧ ((t.enlarge fd).fileHandleModes = none → fd < 19) := by
  unfold Tables.enlarge
  split_ifs with hc
  · refine ⟨⟨.inr rfl, nofun, fun table ht i v hv => ?_⟩, nofun⟩
    have h19 : 19 ≤ fd := by
      have := hh.count
      omega
    have hn : t.fileHandleModes = none := (hs h19).resolve_right (by omega)
    obtain ⟨h20, hm⟩ := hh.initial hn
    obtain rfl := some.inj ht
    simp only [hm] at hv
    split_ifs at hv with hi
    exact (if_pos ⟨hi, by omega⟩).trans (some.inj hv)
  · refine ⟨hh, fun hn => ?_⟩
    have := (hh.initial hn).1
    omega

theorem Tables.Holds.write {fd : ℕ} (hfd : t.fileHandleModes = none → fd < 19) (mode : ℕ) :
    (t.write fd mode).Holds (update modes fd (some (mode % 256))) := by
  unfold Tables.write
  cases ht : t.fileHandleModes with
  | none =>
    obtain ⟨h20, hm⟩ := hh.initial ht
    have hlt : fd < 20 := (hfd ht).trans (by decide)
    refine ⟨hh.count, fun _ => ⟨h20, ?_⟩, fun table hta => ?_⟩
    · funext i
      by_cases hi : i = fd
      · subst hi
        simp [hlt]
      · simp [hi, hm]
    · cases hta
  | some table =>
    refine ⟨hh.count, nofun, fun table' ht' i v hv => ?_⟩
    obtain rfl := some.inj ht'
    by_cases hi : i = fd
    · subst hi
      simpa using hv
    · rw [update_of_ne hi] at hv ⊢
      exact hh.enlarged table ht i v hv

end

/-! ### What `A` has set is in its tables -/

/-- The tables of `A` hold what `A` has set, and `A` has observed what it expects. -/
structure Kept (A : ℕ) (s : Session) : Prop where
  listed : (s.lib.tables A).Listed
  entries : s.entries = s.lib.entries A
  modes : (s.lib.tables A).Holds s.modes
  observed : ∀ o ∈ s.observed, o.1 = o.2

theorem Kept.of_tables (hk : Kept A s) (ht : lib.tables A = s.lib.tables A) :
    Kept A { s with lib := lib } := by
  obtain ⟨h1, h2, h3, h4⟩ := hk
  rw [Library.entries, ← ht] at h2
  rw [← ht] at h1 h3
  exact ⟨h1, h2, h3, h4⟩

theorem Kept.of_extends (hk : Kept A s) (he : Extends A s.lib lib) {entries : ℕ → Entry}
    (hent : lib.entries A = entries) : Kept A { s with lib := lib, entries := entries } :=
  ⟨he.listed, hent.symm, hk.modes.congr he.modes, hk.observed⟩

theorem Kept.observe (hk : Kept A s) {mine : Bool}
    (ho : mine → seen = expected) : Kept A (s.observe mine seen expected) := by
  unfold Session.observe
  split_ifs with hm
  · refine ⟨hk.listed, hk.entries, hk.modes, fun o hmem => ?_⟩
    rcases List.mem_append.mp hmem with hold | hnew
    · exact hk.observed o hold
    · rw [List.mem_singleton.mp hnew]
      exact ho hm
  · exact hk

theorem kept_start : Kept A (Session.start A lib) := by
  have hf : (Session.start A lib).lib.tables A = .fresh := set_self lib A .fresh
  refine ⟨?_, ?_, ?_, nofun⟩
  · rw [hf]
    exact fun _ => rfl
  · rw [Library.entries, hf]
    exact grown_zero.symm
  · rw [hf]
    exact ⟨.inl rfl, fun _ => ⟨rfl, rfl⟩, nofun⟩

theorem fileHandleSet_of_ne (hA : A ≠ h) (fd : ℤ) (mode : ℕ) :
    (fileHandleSet lib h fd mode).tables A = lib.tables A := by
  unfold fileHandleSet
  split_ifs with hneg <;> exact set_of_ne hA

theorem Tables.recount_fields (t : Tables) (bssCount : ℤ) :
    (t.recount bssCount).numFds = t.numFds ∧ (t.recount bssCount).fsextList = t.fsextList ∧
      (t.recount bssCount).fileHandleModes = t.fileHandleModes := by
  unfold Tables.recount
  split_ifs <;> exact ⟨rfl, rfl, rfl⟩

theorem Tables.enlarge_write_fields (t : Tables) (fd mode : ℕ) :
    ((t.enlarge fd).write fd mode).numFds = t.numFds ∧
      ((t.enlarge fd).write fd mode).fsextList = t.fsextList := by
  unfold Tables.write Tables.enlarge
  split_ifs
  · exact ⟨rfl, rfl⟩
  · cases t.fileHandleModes <;> exact ⟨rfl, rfl⟩

section

variable (hk : Kept A s) {op : Op}
include hk

theorem Kept.of_modes
    (ht : t.numFds = (s.lib.tables A).numFds ∧ t.fsextList = (s.lib.tables A).fsextList)
    (hm : t.Holds modes) : Kept A { s with lib := s.lib.set A t, modes := modes } := by
  refine ⟨?_, ?_, ?_, hk.observed⟩
  · rw [set_self, Tables.Listed, ht.1, ht.2]
    exact hk.listed
  · rw [Library.entries, set_self, ht.1, ht.2]
    exact hk.entries
  · rwa [set_self]

theorem Kept.fileHandleSet {mode : ℕ} (hs : Safe A s (.op A (.fileHandleSet fd mode))) :
    Kept A ({ s with lib := fileHandleSet s.lib A fd mode }.recordMode true fd mode) := by
  obtain ⟨hn, hl, hm⟩ := (s.lib.tables A).recount_fields s.lib.bssCount
  have hh := hk.modes.recount s.lib.bssCount
  unfold Files.fileHandleSet Session.recordMode
  by_cases hneg : fd < 0
  · simp only [if_pos hneg, not_le.mpr hneg]
    exact hk.of_modes ⟨hn, hl⟩ hh
  simp only [if_neg hneg, not_lt.mp hneg]
  obtain ⟨hn', hl'⟩ := ((s.lib.tables A).recount s.lib.bssCount).enlarge_write_fields fd.toNat mode
  have hsa : 19 ≤ fd.toNat → ((s.lib.tables A).recount s.lib.bssCount).fileHandleModes = none ∨
      ((s.lib.tables A).recount s.lib.bssCount).count = 255 := fun hfd => by
    rcases hs rfl (by omega) with hno | ⟨hb, hc⟩
    · exact .inl (hm.trans (isNone_iff_eq_none.mp hno))
    · rw [Tables.recount, if_neg (not_not.mpr hb)]
      exact .inr hc
  obtain ⟨he, hfd⟩ := hh.enlarge hsa
  exact hk.of_modes ⟨hn'.trans hn, hl'.trans hl⟩ (he.write hfd mode)

theorem Kept.setEntry (hc : s.lib.Current A) (fd : ℤ) (realloc : Bool)
    (f : Entry → Entry) : ∃ lib' ok, Files.setEntry s.lib A fd realloc f = .ok (lib', ok) ∧
      Kept A ({ s with lib := lib' }.record true ok fd f) := by
  obtain ⟨lib', ok, hset, he, hent⟩ := setEntry_spec hk.listed fd realloc f
  refine ⟨lib', ok, hset, ?_⟩
  specialize hent hc
  cases ok with
  | false => exact hk.of_extends he (hent.trans hk.entries.symm)
  | true =>
    rw [← hk.entries] at hent
    exact hk.of_extends he hent

theorem Kept.getEntry (hc : s.lib.Current A) (fd : ℤ) :
    ∃ lib', Files.getEntry s.lib A fd = .ok (lib', s.expected fd) ∧ Kept A
      { s with lib := lib' } := by
  obtain ⟨lib', e, hget, he, hent⟩ := getEntry_spec hk.listed fd
  obtain ⟨hs, rfl⟩ := hent hc
  rw [← hk.entries] at hget hs
  exact ⟨lib', hget, hk.of_extends he hs⟩

theorem Kept.setEntry_of_ne (hA : A ≠ h) (hl : (s.lib.tables h).Listed) (fd : ℤ)
    (realloc : Bool) (f : Entry → Entry) :
    ∃ lib' ok, Files.setEntry s.lib h fd realloc f = .ok (lib', ok) ∧
      Kept A ({ s with lib := lib' }.record false ok fd f) := by
  obtain ⟨lib', ok, hset, he, -⟩ := setEntry_spec hl fd realloc f
  exact ⟨lib', ok, hset, hk.of_tables (he.others A hA)⟩

theorem Kept.getEntry_of_ne (hA : A ≠ h) (hl : (s.lib.tables h).Listed) (fd : ℤ) :
    ∃ lib' e, Files.getEntry s.lib h fd = .ok (lib', e) ∧ Kept A { s with lib := lib' } := by
  obtain ⟨lib', e, hget, he, -⟩ := getEntry_spec hl fd
  exact ⟨lib', e, hget, hk.of_tables (he.others A hA)⟩

/-- An operation of `A`. -/
theorem Kept.step_self (hl : Legal A s (.op A op))
    (hs : Safe A s (.op A op)) : ∃ s', step A s (.op A op) = .ok s' ∧ Kept A s' := by
  cases op with
  | setFunction fd realloc function =>
    obtain ⟨lib', ok, hset, hk'⟩ := hk.setEntry (hs rfl) fd realloc fun e =>
      { e with function := function }
    simp only [step, setFunction, hset]
    exact ⟨_, rfl, hk'⟩
  | setData fd realloc data =>
    obtain ⟨lib', ok, hset, hk'⟩ := hk.setEntry (hs rfl) fd realloc fun e => { e with data := data }
    simp only [step, setData, hset]
    exact ⟨_, rfl, hk'⟩
  | getFunction fd =>
    obtain ⟨lib', hget, hk'⟩ := hk.getEntry (hs rfl) fd
    simp only [step, hget]
    exact ⟨_, rfl, hk'.observe fun _ => rfl⟩
  | getData fd =>
    obtain ⟨lib', hget, hk'⟩ := hk.getEntry (hs rfl) fd
    simp only [step, hget]
    exact ⟨_, rfl, hk'.observe fun _ => rfl⟩
  | fileHandleSet fd mode =>
    simp only [step]
    exact ⟨_, rfl, hk.fileHandleSet hs⟩
  | readMode fd => exact ⟨_, rfl, hk.observe fun _ => hk.modes.mode (hl.2.2 rfl)⟩

/-- An operation of another program. -/
theorem Kept.step_of_ne (hA : A ≠ h) (hl : (s.lib.tables h).Listed) :
    ∃ s', step A s (.op h op) = .ok s' ∧ Kept A s' := by
  have hm : decide (h = A) = false := decide_eq_false (Ne.symm hA)
  cases op with
  | setFunction fd realloc function =>
    obtain ⟨lib', ok, hset, hk'⟩ := hk.setEntry_of_ne hA hl fd realloc fun e =>
      { e with function := function }
    simp only [step, setFunction, hset, hm]
    exact ⟨_, rfl, hk'⟩
  | setData fd realloc data =>
    obtain ⟨lib', ok, hset, hk'⟩ := hk.setEntry_of_ne hA hl fd realloc fun e =>
      { e with data := data }
    simp only [step, setData, hset, hm]
    exact ⟨_, rfl, hk'⟩
  | getFunction fd =>
    obtain ⟨lib', e, hget, hk'⟩ := hk.getEntry_of_ne hA hl fd
    simp only [step, hget, hm]
    exact ⟨_, rfl, hk'⟩
  | getData fd =>
    obtain ⟨lib', e, hget, hk'⟩ := hk.getEntry_of_ne hA hl fd
    simp only [step, hget, hm]
    exact ⟨_, rfl, hk'⟩
  | fileHandleSet fd mode =>
    simp only [step, hm]
    exact ⟨_, rfl, hk.of_tables (fileHandleSet_of_ne hA fd mode)⟩
  | readMode fd =>
    simp only [step, hm]
    exact ⟨_, rfl, hk⟩

end

theorem step_kept (s : Session) (e : Event) (hk : Kept A s) (hl : Legal A s e ∧ Safe A s e) :
    ∃ s', step A s e = .ok s' ∧ Kept A s' := by
  obtain ⟨hl, hs⟩ := hl
  cases e with
  | op h op =>
    by_cases hA : h = A
    · subst hA
      exact hk.step_self hl hs
    · exact hk.step_of_ne (Ne.symm hA) (hl.2.1 hA)
  | load h => exact ⟨_, rfl, hk.of_tables (set_of_ne (Ne.symm hl))⟩
  | startup h => exact ⟨_, rfl, hk.of_tables rfl⟩
  | close h => exact ⟨_, rfl, hk.of_tables (set_of_ne (Ne.symm hl))⟩

instance (t : Tables) : Decidable t.Listed := by unfold Tables.Listed; infer_instance

instance (op : Op) : Decidable op.InRange := by
  cases op <;> (unfold Op.InRange; infer_instance)

instance (A : ℕ) (s : Session) (e : Event) : Decidable (Legal A s e) := by
  rcases e with ⟨h, op⟩ | h | h | h
  · cases op <;> (unfold Legal; infer_instance)
  all_goals (unfold Legal; infer_instance)

instance (A : ℕ) (s : Session) (e : Event) : Decidable (Safe A s e) := by
  rcases e with ⟨h, op⟩ | h | h | h
  · cases op <;> (unfold Safe; infer_instance)
  all_goals (unfold Safe; infer_instance)

/-- **Starting other programs keeps the tables of a program** in every run whose steps are safe: it
observes, at every point, what it has set itself. -/
theorem parent_tables_kept (A : ℕ) (lib : Library) (es : List Event)
    (hes : Runs.Admits (step A) (fun s e => Legal A s e ∧ Safe A s e) (Session.start A lib) es) :
    ∀ es', es' <+: es → ∃ s, run (step A) (Session.start A lib) es' = .ok s ∧
      ∀ o ∈ s.observed, o.1 = o.2 := by
  intro es' hp
  obtain ⟨s, hrun, hk⟩ := run_invariant step_kept kept_start (hes.of_prefix hp)
  exact ⟨s, hrun, hk.observed⟩

def firstProgram : Library := crt1Startup ⟨-1, -1, fun _ => .fresh⟩

def childRuns (es : List Event) : List Event := [.load 1, .startup 1] ++ es ++ [.close 1]

theorem parent_tables_kept_run :
    ∃ s, run (step 0) (Session.start 0 firstProgram) ([.op 0 (.fileHandleSet 30 4)] ++
        childRuns [.op 1 (.setFunction 7 true 3)] ++
        [.op 0 (.setFunction 5 true 1), .op 0 (.getFunction 5), .op 0 (.readMode 30)]) = .ok s ∧
      ∀ o ∈ s.observed, o.1 = o.2 :=
  parent_tables_kept 0 firstProgram _ (by decide +kernel) _ (List.prefix_refl _)

/-- **A child that does nothing empties the tables of its parent**: the parent sets an extension and
then finds none; it sets the mode of descriptor 30, and the mode of descriptor 40 after the child,
and then finds no mode for 30. -/
theorem parent_tables_lost : (Runs.Admits (step 0) (Legal 0) (Session.start 0 firstProgram)
        ([.op 0 (.setFunction 5 true 1)] ++ childRuns [] ++ [.op 0 (.getFunction 5)]) ∧
      succeeds (run (step 0) (Session.start 0 firstProgram)
        ([.op 0 (.setFunction 5 true 1)] ++ childRuns [] ++ [.op 0 (.getFunction 5)]))
        (fun s => s.observed = [(0, 1)]) = true) ∧
    (Runs.Admits (step 0) (Legal 0) (Session.start 0 firstProgram)
        ([.op 0 (.fileHandleSet 30 4)] ++ childRuns [] ++
          [.op 0 (.fileHandleSet 40 8), .op 0 (.readMode 30)]) ∧
      succeeds (run (step 0) (Session.start 0 firstProgram)
        ([.op 0 (.fileHandleSet 30 4)] ++ childRuns [] ++
          [.op 0 (.fileHandleSet 40 8), .op 0 (.readMode 30)]))
        (fun s => s.observed = [(0, 4)]) = true) := by
  decide +kernel

end Files
