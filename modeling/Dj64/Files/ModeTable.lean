import Dj64.Files.Tables
import Mathlib.Data.List.TakeWhile

/-!
# The table of file modes in the two builds

`__file_handle_set` starts with a table of twenty modes and moves to one of 255 modes when a high
descriptor is set.  The new table is filled from `init_file_handle_modes`, a member of
`struct fh_state`.  With `USE64` this member is the table in use so far.  In the other build the
table in use is the static `init_file_handle_mo`, and the member, of a variable without an
initialiser, is zero.
-/

namespace ModeTable

open Files List Function Runs ModeTable

/-- With and without `USE64`. -/
inductive Build
  | use64
  | use32
  deriving DecidableEq

/-- What `__file_handle_modes` points to: `init_file_handle_mo`, the member
`init_file_handle_modes` of `fhs`, or a block from `malloc`. -/
inductive Home
  | static
  | member
  | heap
  deriving DecidableEq

/-- The number of modes in a table. -/
def Home.size : Home → ℕ
  | .static => 20
  | .member => 20
  | .heap => 255

/-- The tables, the one in use, and the other members of `struct fh_state`. -/
structure State where
  static : ℕ → ℤ
  member : ℕ → ℤ
  heap : ℕ → ℤ
  home : Home
  dosioBssCount : ℤ
  count : ℕ

/-- An access outside of the table in use. -/
inductive Fault
  | outOfTable
  deriving DecidableEq

/-- A mode is stored as a `char`. -/
def toChar (mode : ℤ) : ℤ := Int.bmod mode 256

def initialMode (fd : ℕ) : ℤ := initFh fd

/-- The variables when a program starts. -/
def start : Build → State
  | .use64 => ⟨initialMode, initialMode, fun _ => 0, .member, -1, 20⟩
  | .use32 => ⟨initialMode, fun _ => 0, fun _ => 0, .static, 0, 0⟩

/-- The table in use. -/
def State.table (s : State) : ℕ → ℤ :=
  match s.home with
  | .static => s.static
  | .member => s.member
  | .heap => s.heap

def State.write (s : State) (fd : ℕ) (mode : ℤ) : Except Fault State :=
  if fd < s.home.size then
    .ok (match s.home with
      | .static => { s with static := update s.static fd (toChar mode) }
      | .member => { s with member := update s.member fd (toChar mode) }
      | .heap => { s with heap := update s.heap fd (toChar mode) })
  else .error .outOfTable

/-- The check of `__bss_count`. -/
def State.recount (s : State) (bssCount : ℤ) : State :=
  if s.dosioBssCount ≠ bssCount then { s with dosioBssCount := bssCount, count := 20 } else s

/-- The table grows into a new block, whose contents are `block`.  `count - 1` is a `size_t`, and no
descriptor reaches it if `count` is zero. -/
def State.enlarge (s : State) (fd : ℕ) (block : ℕ → ℤ) : State :=
  if (0 < s.count ∧ s.count - 1 ≤ fd) ∧ s.count < 255 then
    { s with
      count := 255
      home := .heap
      heap := fun i => if s.count ≤ i then 0 else if i < 20 then s.member i else block i }
  else s

/-- `__file_handle_set`, when `malloc` succeeds. -/
def fileHandleSet (bssCount : ℤ) (s : State) (fd mode : ℤ) (block : ℕ → ℤ) : Except Fault State :=
  let s := s.recount bssCount
  if fd < 0 then .ok s else (s.enlarge fd.toNat block).write fd.toNat mode

/-- A call of `__file_handle_set`, and what the block holds that `malloc` returns. -/
structure SetCall where
  fd : Fin 255
  mode : ℤ
  block : ℕ → ℤ

/-- `__bss_count` starts at one and counts the programs. -/
def bssCount (programs : ℕ) : ℤ := 1 + programs

def step (programs : ℕ) (s : State) (c : SetCall) : Except Fault State :=
  fileHandleSet (bssCount programs) s c.fd c.mode c.block

/-! ### The map -/

def sets (m : ℕ → ℤ) (calls : List SetCall) : ℕ → ℤ :=
  calls.foldl (fun m c => update m c.fd c.mode) m

def afterGrowth (calls : List SetCall) : List SetCall := calls.dropWhile fun c => (c.fd : ℕ) < 19

/-- The calls stay inside of the table, and the table is the map. -/
def AsMap (b : Build) (programs : ℕ) (calls : List SetCall) : Prop :=
  ∃ s, run (step programs) (start b) calls = .ok s ∧
    ∀ fd < s.home.size, s.table fd = sets initialMode calls fd

/-- The modes are those of a `char`; without `USE64`, every low descriptor that has a mode is set
again once the table has grown. -/
def Kept (b : Build) (calls : List SetCall) : Prop :=
  (∀ fd, toChar (sets initialMode calls fd) = sets initialMode calls fd) ∧
    (b = .use32 → afterGrowth calls ≠ [] →
      ∀ fd < 20, (∀ c ∈ afterGrowth calls, (c.fd : ℕ) ≠ fd) → sets initialMode calls fd = 0)

variable {b : Build} {programs : ℕ} {s : State} {m m' : ℕ → ℤ} {c : SetCall}
  {calls calls' : List SetCall} {fd : ℕ}

@[simp] theorem sets_cons :
    sets m (c :: calls) = sets (update m c.fd c.mode) calls := rfl

@[simp] theorem sets_append : sets m (calls ++ calls') = sets (sets m calls) calls' := by
  simp [sets]

theorem sets_of_unset (h : ∀ c ∈ calls, (c.fd : ℕ) ≠ fd) : sets m calls fd = m fd := by
  induction calls generalizing m with
  | nil => rfl
  | cons c calls ih =>
    rw [sets_cons, ih fun c' hc' => h c' (by simp [hc'])]
    exact update_of_ne (h c (by simp)).symm ..

theorem sets_of_set (h : ∃ c ∈ calls, (c.fd : ℕ) = fd) : sets m calls fd = sets m' calls fd := by
  induction calls generalizing m m' with
  | nil => simp at h
  | cons c calls ih =>
    by_cases hl : ∃ c ∈ calls, (c.fd : ℕ) = fd
    · exact ih hl ..
    have hu : ∀ c ∈ calls, (c.fd : ℕ) ≠ fd := fun c hc heq => hl ⟨c, hc, heq⟩
    have hfd : (c.fd : ℕ) = fd := by
      obtain ⟨c', hc', heq⟩ := h
      rcases mem_cons.1 hc' with rfl | hmem
      · exact heq
      · exact absurd ⟨c', hmem, heq⟩ hl
    simp [sets_of_unset hu, hfd]

def chars (m : ℕ → ℤ) : ℕ → ℤ := fun fd => toChar (m fd)

theorem chars_update (m : ℕ → ℤ) (fd : ℕ) (mode : ℤ) :
    chars (update m fd mode) = update (chars m) fd (toChar mode) := by
  funext i
  by_cases hi : i = fd
  · simp [chars, hi]
  · simp [chars, hi]

theorem chars_initialMode : chars initialMode = initialMode := by
  funext i
  simp only [chars, initialMode, initFh]
  split_ifs <;> rfl

theorem initialMode_high (h : 20 ≤ fd) : initialMode fd = 0 := by
  simp [initialMode, initFh, show ¬ fd < 3 by omega, show ¬ fd < 5 by omega]

/-! ### Before the table has grown -/

/-- The table that a build starts with. -/
def Build.home : Build → Home
  | .use64 => .member
  | .use32 => .static

/-- The table is the initial one and holds `m`. -/
structure Low (b : Build) (programs : ℕ) (s : State) (m : ℕ → ℤ) : Prop where
  home : s.home = b.home
  table : s.table = m
  count : (s.recount (bssCount programs)).count = 20
  high : ∀ i, 20 ≤ i → m i = 0
  member : b = .use32 → ∀ i, s.member i = 0

theorem low_start (b : Build) (programs : ℕ) : Low b programs (start b) initialMode := by
  have hc : ∀ k : ℤ, k ≤ 0 → k ≠ bssCount programs := by
    unfold bssCount
    omega
  cases b with
  | use64 =>
    refine ⟨rfl, rfl, ?_, fun i => initialMode_high, nofun⟩
    simp [start, State.recount, hc (-1) (by omega)]
  | use32 =>
    refine ⟨rfl, rfl, ?_, fun i => initialMode_high, fun _ _ => rfl⟩
    simp [start, State.recount, hc 0 le_rfl]

theorem recount_home (s : State) (k : ℤ) : (s.recount k).home = s.home := by
  unfold State.recount
  split_ifs <;> rfl

theorem recount_member (s : State) (k : ℤ) : (s.recount k).member = s.member := by
  unfold State.recount
  split_ifs <;> rfl

theorem recount_table (s : State) (k : ℤ) : (s.recount k).table = s.table := by
  unfold State.recount
  split_ifs <;> rfl

theorem recount_dosioBssCount (s : State) (k : ℤ) : (s.recount k).dosioBssCount = k := by
  unfold State.recount
  split_ifs with h
  · rfl
  · exact not_not.1 h

theorem recount_idem (s : State) (k : ℤ) (h : s.dosioBssCount = k) : s.recount k = s :=
  if_neg (not_not_intro h)

theorem step_eq (programs : ℕ) (s : State) (c : SetCall) :
    step programs s c = ((s.recount (bssCount programs)).enlarge c.fd c.block).write c.fd c.mode :=
  rfl

theorem Build.home_size (b : Build) : b.home.size = 20 := by
  cases b <;> rfl

theorem write_ok (s : State) (fd : ℕ) (hfd : fd < s.home.size) (mode : ℤ) :
    ∃ s', s.write fd mode = .ok s' ∧ s'.home = s.home ∧
      s'.table = update s.table fd (toChar mode) ∧ s'.count = s.count ∧
      s'.dosioBssCount = s.dosioBssCount ∧ (s.home = .static → s'.member = s.member) := by
  rw [State.write, if_pos hfd]
  cases hh : s.home with
  | static => exact ⟨_, rfl, rfl, by simp [State.table, hh], rfl, rfl, fun _ => rfl⟩
  | member => exact ⟨_, rfl, rfl, by simp [State.table, hh], rfl, rfl, nofun⟩
  | heap => exact ⟨_, rfl, rfl, by simp [State.table, hh], rfl, rfl, nofun⟩

theorem Low.step (h : Low b programs s m) (hc : (c.fd : ℕ) < 19) :
    ∃ s', step programs s c = .ok s' ∧
      Low b programs s' (update m c.fd (toChar c.mode)) := by
  have hs : (s.recount (bssCount programs)).enlarge c.fd c.block =
      s.recount (bssCount programs) := by
    unfold State.enlarge
    rw [h.count, if_neg (by omega)]
  have hh : (s.recount (bssCount programs)).home = b.home := by rw [recount_home, h.home]
  obtain ⟨s', hok, hh', ht, hco, hbss, hm⟩ :=
    write_ok (s.recount (bssCount programs)) c.fd (by rw [hh, Build.home_size]; omega) c.mode
  refine ⟨s', by rw [step_eq, hs, hok], hh'.trans hh, ?_, ?_, ?_, ?_⟩
  · rw [ht, recount_table, h.table]
  · rw [recount_idem s' _ (by rw [hbss, recount_dosioBssCount]), hco, h.count]
  · intro i hi
    rw [update_of_ne (by omega)]
    exact h.high i hi
  · rintro rfl i
    rw [hm (by rw [hh]; rfl), recount_member]
    exact h.member rfl i

/-- Calls that keep the table `I` update what it holds. -/
theorem run_sets {I : State → (ℕ → ℤ) → Prop} (calls : List SetCall)
    (hst : ∀ c ∈ calls, ∀ s m, I s m →
      ∃ s', step programs s c = .ok s' ∧ I s' (update m c.fd (toChar c.mode)))
    (h : I s (chars m)) :
    ∃ s', run (step programs) s calls = .ok s' ∧ I s' (chars (sets m calls)) := by
  induction calls generalizing s m with
  | nil => exact ⟨s, rfl, h⟩
  | cons c calls ih =>
    obtain ⟨hc, hst⟩ := forall_mem_cons.1 hst
    obtain ⟨s1, hok, h1⟩ := hc s _ h
    rw [← chars_update] at h1
    obtain ⟨s', hrun, h'⟩ := ih hst h1
    exact ⟨s', (run_cons_ok hok calls).trans hrun, h'⟩

/-! ### The table grows -/

/-- The table is a block from `malloc`, which holds `m`. -/
structure High (programs : ℕ) (s : State) (m : ℕ → ℤ) : Prop where
  home : s.home = .heap
  table : s.table = m
  count : s.count = 255
  bss : s.dosioBssCount = bssCount programs

/-- What is copied into the new table. -/
def Build.copied (b : Build) (m : ℕ → ℤ) : ℕ → ℤ :=
  match b with
  | .use64 => m
  | .use32 => fun _ => 0

/-- A high descriptor moves the table to the heap. -/
theorem Low.grow (h : Low b programs s m) (hc : 19 ≤ (c.fd : ℕ)) :
    ∃ s', ModeTable.step programs s c = .ok s' ∧
      High programs s' (update (b.copied m) c.fd (toChar c.mode)) := by
  obtain ⟨s1, hs1⟩ : ∃ s1, s1 = (s.recount (bssCount programs)).enlarge c.fd c.block := ⟨_, rfl⟩
  have hg := hs1
  unfold State.enlarge at hg
  rw [h.count, if_pos (by omega), recount_member] at hg
  have hh : s1.home = .heap := by rw [hg]
  have ht : s1.table = b.copied m := by
    have hval : s1.table = fun i => if 20 ≤ i then 0 else if i < 20 then s.member i
        else c.block i := by
      rw [hg]
      rfl
    rw [hval]
    funext i
    by_cases hi : 20 ≤ i
    · cases b <;> simp [Build.copied, hi, h.high]
    rw [if_neg hi, if_pos (by omega)]
    cases b with
    | use64 =>
      have : s.table = s.member := by simp [State.table, h.home, Build.home]
      rw [← this, h.table]
      rfl
    | use32 => exact h.member rfl i
  obtain ⟨s', hok, hh', ht', hco, hbss, -⟩ := write_ok s1 c.fd (by rw [hh]; exact c.fd.isLt) c.mode
  refine ⟨s', by rw [step_eq, ← hs1, hok], hh'.trans hh, ?_, ?_, ?_⟩
  · rw [ht', ht]
  · rw [hco, hg]
  · rw [hbss, hg]
    exact recount_dosioBssCount ..

theorem High.step (h : High programs s m) (c : SetCall) :
    ∃ s', step programs s c = .ok s' ∧
      High programs s' (update m c.fd (toChar c.mode)) := by
  have hs : (s.recount (bssCount programs)).enlarge c.fd c.block = s := by
    rw [recount_idem s _ h.bss]
    unfold State.enlarge
    rw [h.count, if_neg (by omega)]
  obtain ⟨s', hok, hh, ht, hc, hbss, -⟩ := write_ok s c.fd (by rw [h.home]; exact c.fd.isLt) c.mode
  refine ⟨s', by rw [step_eq, hs, hok], hh.trans h.home, ?_, ?_, ?_⟩
  · rw [ht, h.table]
  · rw [hc, h.count]
  · rw [hbss, h.bss]

/-! ### Whole runs -/

theorem copied_chars (b : Build) (m : ℕ → ℤ) : b.copied (chars m) = chars (b.copied m) := by
  cases b with
  | use64 => rfl
  | use32 =>
    funext i
    simp [Build.copied, chars, toChar]

theorem mem_takeWhile_low
    (h : c ∈ calls.takeWhile fun c => decide ((c.fd : ℕ) < 19)) : (c.fd : ℕ) < 19 := by
  simpa using mem_takeWhile_imp h

def beforeGrowth (calls : List SetCall) : List SetCall := calls.takeWhile fun c => (c.fd : ℕ) < 19

theorem before_append_after (calls : List SetCall) :
    beforeGrowth calls ++ afterGrowth calls = calls := takeWhile_append_dropWhile ..

/-- **No call leaves the table**, and the table is known after every sequence of calls. -/
theorem run_eq (b : Build) (programs : ℕ) (calls : List SetCall) :
    ∃ s, run (step programs) (start b) calls = .ok s ∧
      ((afterGrowth calls = [] ∧ Low b programs s (chars (sets initialMode calls))) ∨
        (afterGrowth calls ≠ [] ∧ High programs s
          (chars (sets (b.copied (sets initialMode (beforeGrowth calls)))
            (afterGrowth calls))))) := by
  have h0 := low_start b programs
  rw [← chars_initialMode] at h0
  obtain ⟨s1, hrun1, h1⟩ := run_sets (beforeGrowth calls)
    (fun c hc s m h => Low.step h (mem_takeWhile_low hc)) h0
  cases ha : afterGrowth calls with
  | nil =>
    have hall : beforeGrowth calls = calls := by
      have := before_append_after calls
      rwa [ha, append_nil] at this
    rw [hall] at hrun1 h1
    exact ⟨s1, hrun1, .inl ⟨rfl, h1⟩⟩
  | cons c rest =>
    have hc : 19 ≤ (c.fd : ℕ) := by
      have := head_dropWhile_not (fun c : SetCall => decide ((c.fd : ℕ) < 19))
        (l := calls) (by rw [show calls.dropWhile _ = c :: rest from ha]; simp)
      simp only [show calls.dropWhile _ = c :: rest from ha, decide_eq_false_iff_not,
        not_lt] at this
      exact this
    obtain ⟨s2, hok, h2⟩ := h1.grow hc
    rw [copied_chars, ← chars_update] at h2
    obtain ⟨s, hrun, h⟩ := run_sets (I := High programs) rest (fun c _ s m h => h.step c) h2
    refine ⟨s, ?_, .inr ⟨by simp, h⟩⟩
    rw [← before_append_after calls, ha, run_append_ok hrun1, run_cons_ok hok]
    exact hrun

theorem sets_copied :
    sets (b.copied m) calls fd = if b = .use32 ∧ ∀ c ∈ calls, (c.fd : ℕ) ≠ fd then 0
      else sets m calls fd := by
  split_ifs with h
  · obtain ⟨rfl, hu⟩ := h
    rw [sets_of_unset hu]
    rfl
  cases b with
  | use64 => rfl
  | use32 =>
    apply sets_of_set
    by_contra hn
    exact h ⟨rfl, fun c hc heq => hn ⟨c, hc, heq⟩⟩

theorem sets_high (ha : afterGrowth calls = []) (hfd : 20 ≤ fd) :
    sets initialMode calls fd = 0 := by
  rw [sets_of_unset, initialMode_high hfd]
  intro c hc
  have hlow : (c.fd : ℕ) < 19 := by
    rw [← before_append_after calls, ha, append_nil] at hc
    exact mem_takeWhile_low hc
  omega

/-- **The table of file modes is a map** exactly if the modes are those of a `char` and, in the
build without `USE64`, the modes of the low descriptors are set again once the table has grown. -/
theorem modes_asMap_iff (b : Build) (programs : ℕ) (calls : List SetCall) :
    AsMap b programs calls ↔ Kept b calls := by
  obtain ⟨s, hrun, hs⟩ := run_eq b programs calls
  have hmap : AsMap b programs calls ↔
      ∀ fd < s.home.size, s.table fd = sets initialMode calls fd := by
    constructor
    · rintro ⟨s', hr', h⟩
      rw [hrun] at hr'
      cases hr'
      exact h
    · exact fun h => ⟨s, hrun, h⟩
  rw [hmap]
  rcases hs with ⟨ha, h⟩ | ⟨ha, h⟩
  · -- the initial table holds the map, as far as a `char` can
    rw [h.home, h.table, Build.home_size]
    constructor
    · intro hall
      refine ⟨fun fd => ?_, fun _ hne => absurd ha hne⟩
      by_cases hfd : fd < 20
      · exact hall fd hfd
      · rw [sets_high ha (by omega)]
        rfl
    · exact fun hk fd _ => hk.1 fd
  -- the new table holds what was copied and what was set since
  have hsp (fd : ℕ) : sets initialMode calls fd =
      sets (sets initialMode (beforeGrowth calls)) (afterGrowth calls) fd := by
    rw [← sets_append, before_append_after]
  have hv (fd : ℕ) : s.table fd = if b = .use32 ∧ ∀ c ∈ afterGrowth calls, (c.fd : ℕ) ≠ fd
      then 0 else toChar (sets initialMode calls fd) := by
    rw [h.table, chars, sets_copied, ← hsp]
    split_ifs <;> rfl
  rw [h.home]
  constructor
  · intro hall
    have hz (fd : ℕ) (hfd : fd < 255) (hb : b = .use32)
        (hu : ∀ c ∈ afterGrowth calls, (c.fd : ℕ) ≠ fd) : sets initialMode calls fd = 0 := by
      rw [← hall fd hfd, hv, if_pos ⟨hb, hu⟩]
    refine ⟨fun fd => ?_, fun hb _ fd hfd => hz fd (by omega) hb⟩
    by_cases hfd : fd < 255
    · by_cases hca : b = .use32 ∧ ∀ c ∈ afterGrowth calls, (c.fd : ℕ) ≠ fd
      · rw [hz fd hfd hca.1 hca.2]
        rfl
      · have := hall fd hfd
        rwa [hv, if_neg hca] at this
    · rw [sets_of_unset fun c _ => by omega, initialMode_high (by omega)]
      rfl
  · rintro ⟨hch, hag⟩ fd -
    rw [hv]
    split_ifs with hca
    · by_cases hfd : fd < 20
      · exact (hag hca.1 ha fd hfd hca.2).symm
      · -- a high descriptor is set for the first time when the table grows
        rw [hsp, sets_of_unset hca.2, sets_of_unset, initialMode_high (by omega)]
        intro c hc
        have := mem_takeWhile_low hc
        omega
    · exact hch fd

/-- Without `USE64`, the mode of the descriptor 5 and the initial mode of standard output are lost
when the descriptor 20 is set. -/
theorem modes_lost :
    let calls : List SetCall := [⟨5, oBinary, fun _ => 0⟩, ⟨20, oBinary, fun _ => 0⟩]
    (∃ s, run (step 1) (start .use32) calls = .ok s ∧ s.table 5 = 0 ∧ s.table 1 = 0) ∧
      sets initialMode calls 5 = oBinary ∧ sets initialMode calls 1 = oText ∧
      ¬ AsMap .use32 1 calls := by
  intro calls
  have h5 : sets initialMode calls 5 = oBinary := rfl
  refine ⟨⟨_, rfl, rfl, rfl⟩, h5, rfl, ?_⟩
  rintro ⟨s, hrun, h⟩
  cases hrun
  have h0 := h 5 (by decide)
  rw [h5] at h0
  cases h0

/-! ### The table of a program -/

/-- With `USE64`, the variables are those of `Files.Tables`, whose modes are not signed. -/
structure Refines (s : State) (t : Tables) : Prop where
  count : s.count = t.count ∧ (t.count = 20 ∨ t.count = 255)
  bssCount : s.dosioBssCount = t.dosioBssCount
  member : ∀ i, s.member i = toChar (t.initFileHandleModes i)
  initial : t.fileHandleModes = none → s.home = .member
  grown : ∀ table, t.fileHandleModes = some table →
    s.home = .heap ∧ ∀ i, s.heap i = toChar (table i)

theorem refines_start : Refines (start .use64) Tables.fresh :=
  ⟨⟨rfl, .inl rfl⟩, rfl, fun i => (congrFun chars_initialMode i).symm, fun _ => rfl, nofun⟩

/-- A call keeps the two models together. -/
theorem Refines.fileHandleSet {s s' : State} {t : Tables} (h : Refines s t) {bssCount : ℤ}
    {fd mode : ℕ} {block : ℕ → ℤ} (hs : fileHandleSet bssCount s fd mode block = .ok s') :
    Refines s' (((t.recount bssCount).enlarge fd).write fd mode) := by
  have h1 : Refines (s.recount bssCount) (t.recount bssCount) := by
    unfold State.recount Tables.recount
    rw [h.bssCount]
    split_ifs
    · exact { h with count := ⟨rfl, .inl rfl⟩, bssCount := rfl }
    · exact h
  have h2 : Refines ((s.recount bssCount).enlarge fd block) ((t.recount bssCount).enlarge fd) := by
    have hc := h1.count
    unfold State.enlarge Tables.enlarge
    rw [hc.1]
    by_cases hg : (t.recount bssCount).count - 1 ≤ fd ∧ (t.recount bssCount).count < 255
    · rw [if_pos hg, if_pos (by omega)]
      refine { h1 with count := ⟨rfl, .inr rfl⟩, initial := nofun, grown := ?_ }
      rintro _ ⟨⟩
      refine ⟨rfl, fun i => ?_⟩
      dsimp only
      split_ifs <;> first | omega | exact h1.member i | rfl
    · rw [if_neg hg, if_neg (by omega)]
      exact h1
  have hchar (x : ℕ) : toChar (x % 256) = toChar x := Int.emod_bmod x 256
  rw [ModeTable.fileHandleSet, if_neg (by omega), Int.toNat_natCast, State.write] at hs
  unfold Tables.write
  split_ifs at hs
  cases ht : ((t.recount bssCount).enlarge fd).fileHandleModes with
  | none =>
    rw [h2.initial ht] at hs
    cases hs
    refine { h2 with member := fun i => ?_, initial := fun _ => rfl, grown := nofun }
    by_cases hi : i = fd <;> simp [hi, hchar, h2.member]
  | some table =>
    obtain ⟨hhome, hheap⟩ := h2.grown table ht
    rw [hhome] at hs
    cases hs
    refine { h2 with initial := nofun, grown := ?_ }
    rintro _ ⟨⟩
    refine ⟨rfl, fun i => ?_⟩
    by_cases hi : i = fd <;> simp [hi, hchar, hheap]

end ModeTable
