import Mathlib.Tactic

/-!
# Swappable contexts

Several programs, told apart by their handles, share one instance of the library.  Variables of the
library that belong to a program are kept in swappable contexts: a context has one record for each
handle, a pointer to the record of the current one, and hooks that copy some fields of the record
to and from global variables.  The other fields are reached through the pointer.
-/

namespace Thunks

open Function Option

/-- The contexts defined in the library.  `nmalloc.inc` is compiled twice. -/
inductive Context
  | fsextState
  | fhState
  | nmState
  | nmState32
  | exitState
  | stdauxState
  | stdinState
  | stdoutState
  | stderrState
  | stdprnState
  | stdState
  | e387State
  | excInfo
  | tmState
  | tmrState
  | tmwState
  deriving DecidableEq

/-- `chooks`: the contexts whose hooks are registered. -/
def chooks : List Context :=
  [.fsextState, .fhState, .nmState, .nmState32, .exitState, .stdauxState, .stdinState, .stdoutState,
    .stderrState, .stdprnState, .stdState, .e387State, .excInfo, .tmState, .tmrState, .tmwState]

/-- The fields of the context records. -/
inductive Var
  | numFds
  | fsextList
  | fileHandleModes
  | initFileHandleModes
  | dosioBssCount
  | count
  | freehdrs
  | lastsbrkbgn
  | sbrkbgn
  | hookptr
  | atexitPtr
  | fsextExitHook
  | fdPropertiesCleanupHook
  | atexit2Hook
  | atexit2Arg
  | djStdaux
  | djStdin
  | djStdout
  | djStderr
  | djStdprn
  | stdioCleanupHook
  | x8087
  | emu387LoadHook
  | exceptOri
  | kbdOri
  | npxOri
  | timerOri
  | cbrkOri
  | cbrkRmcb
  | cbrkHooked
  | cbrkRegs
  | libcTtyInternal
  | libcTtyP
  | libcTermiosHookCommonCount
  | libcReadTermiosHook
  | libcWriteTermiosHook
  deriving DecidableEq

/-- The variables that `pre` copies to the record. -/
def saved : Context → List Var
  | .fsextState => []
  | .fhState => [.fileHandleModes]
  | .nmState => []
  | .nmState32 => []
  | .exitState => [.atexitPtr, .fsextExitHook, .fdPropertiesCleanupHook]
  | .stdauxState => [.djStdaux]
  | .stdinState => [.djStdin]
  | .stdoutState => [.djStdout]
  | .stderrState => [.djStderr]
  | .stdprnState => [.djStdprn]
  | .stdState => [.stdioCleanupHook]
  | .e387State => [.x8087, .emu387LoadHook]
  | .excInfo => []
  | .tmState => [.libcTtyInternal, .libcTtyP, .libcTermiosHookCommonCount]
  | .tmrState => [.libcReadTermiosHook]
  | .tmwState => [.libcWriteTermiosHook]

/-- The variables that `post` copies from the record. -/
def restored : Context → List Var
  | .fsextState => []
  | .fhState => [.fileHandleModes]
  | .nmState => []
  | .nmState32 => []
  | .exitState => [.atexitPtr, .fsextExitHook, .fdPropertiesCleanupHook]
  | .stdauxState => [.djStdaux]
  | .stdinState => [.djStdin]
  | .stdoutState => [.djStdout]
  | .stderrState => [.djStderr]
  | .stdprnState => [.djStdprn]
  | .stdState => [.stdioCleanupHook]
  | .e387State => [.x8087, .emu387LoadHook]
  | .excInfo => []
  | .tmState => [.libcTtyInternal, .libcTtyP, .libcTermiosHookCommonCount]
  | .tmrState => [.libcReadTermiosHook]
  | .tmwState => [.libcWriteTermiosHook]

theorem mem_saved_iff {t : Context} {v : Var} : v ∈ saved t ↔ v ∈ restored t := by
  cases t <;> rfl

variable {V : Type}

/-- What `DJ64_DEFINE_SWAPPABLE_CONTEXT3(t, c, init, pre, post, cinit)` declares: the records
`t_contexts`, the pointer `c` as the index of a record, and the global variables of `pre` and
`post`. -/
structure Slot (V : Type) where
  contexts : ℕ → Var → V
  c : Option ℕ
  vars : Var → V

namespace Slot

/-- `t_init`, where `init` is the record with `cinit` applied; fails if the record is current. -/
def init (init : Var → V) (idx : ℕ) (x : Slot V) : Option (Slot V) :=
  if x.c = some idx then none else some { x with contexts := update x.contexts idx init }

def deinit (x : Slot V) : Slot V := { x with c := none }

/-- The record `r` after `pre`. -/
def pre (t : Context) (vars r : Var → V) : Var → V := fun v => if v ∈ saved t then vars v else r v

/-- The global variables after `post`. -/
def post (t : Context) (vars r : Var → V) : Var → V :=
  fun v => if v ∈ restored t then r v else vars v

/-- `t_save`; fails if the pointer is `NULL`. -/
def save (t : Context) (x : Slot V) : Option (Slot V) :=
  x.c.map fun idx =>
    { x with contexts := update x.contexts idx (pre t x.vars (x.contexts idx)) }

def restore (t : Context) (idx : ℕ) (x : Slot V) : Slot V :=
  if x.c = some idx then x else { x with c := some idx, vars := post t x.vars (x.contexts idx) }

/-- The value of a variable as C code sees it: a global variable, or a field of `*c`. -/
def seen (t : Context) (x : Slot V) (v : Var) : Option V :=
  if v ∈ restored t then some (x.vars v) else x.c.map fun idx => x.contexts idx v

/-- An assignment by C code; fails if it goes through a `NULL` pointer. -/
def assign (t : Context) (v : Var) (val : V) (x : Slot V) : Option (Slot V) :=
  if v ∈ restored t then some { x with vars := update x.vars v val }
  else x.c.map fun idx =>
    { x with contexts := update x.contexts idx (update (x.contexts idx) v val) }

/-- A change of the record by code that reaches it through `c` only. -/
def mapRecord (f : (Var → V) → Var → V) (x : Slot V) : Option (Slot V) :=
  x.c.map fun idx => { x with contexts := update x.contexts idx (f (x.contexts idx)) }

end Slot

/-- What code of a handle sees when it starts or resumes, and what it saw when it last stopped. -/
structure Observation (V : Type) where
  seen : Context → Var → Option V
  expected : Context → Var → Option V

/-- All contexts; `last` and `starts` record what the code of each handle saw. -/
structure Swap (V : Type) where
  slots : Context → Slot V
  last : ℕ → Context → Var → Option V
  starts : List (Observation V)

namespace Swap

def seen (w : Swap V) : Context → Var → Option V := fun t => (w.slots t).seen t

/-- `chooks[i].init(idx)` for all contexts; fails if an assertion does. -/
def init (ini : Context → ℕ → Var → V) (idx : ℕ) (w : Swap V) : Option (Swap V) :=
  if ∃ t ∈ chooks, (w.slots t).c = some idx then none
  else some { w with
    slots := fun t => ((w.slots t).init (ini t idx) idx).getD (w.slots t)
    last := update w.last idx fun t v => some (ini t idx v) }

/-- `chooks[i].deinit()` for all contexts. -/
def deinit (w : Swap V) : Swap V := { w with slots := fun t => (w.slots t).deinit }

/-- `chooks[i].save()` for all contexts; fails if a pointer is `NULL`. -/
def save (w : Swap V) : Option (Swap V) :=
  if ∃ t ∈ chooks, (w.slots t).c = none then none
  else some { w with slots := fun t => ((w.slots t).save t).getD (w.slots t) }

/-- `chooks[i].restore(idx)` for all contexts. -/
def restore (idx : ℕ) (w : Swap V) : Swap V :=
  { w with slots := fun t => (w.slots t).restore t idx }

def assign (t : Context) (v : Var) (val : V) (w : Swap V) : Option (Swap V) :=
  ((w.slots t).assign t v val).map fun x => { w with slots := update w.slots t x }

/-- A call of the allocator behind `malloc32` and `free32`, which only changes its own record. -/
def heap32 (f : (Var → V) → Var → V) (w : Swap V) : Option (Swap V) :=
  ((w.slots .nmState32).mapRecord f).map fun x =>
    { w with slots := update w.slots .nmState32 x }

def start (h : ℕ) (w : Swap V) : Swap V := { w with starts := w.starts ++ [⟨w.seen, w.last h⟩] }

def stop (h : ℕ) (w : Swap V) : Swap V := { w with last := update w.last h w.seen }

/-! ### Invariants -/

variable {w w' : Swap V} {alive alive' : ℕ → Prop} {h : ℕ} {t : Context} {x : Slot V} {v : Var}

def At (w : Swap V) (h : ℕ) : Prop := ∀ t, (w.slots t).c = some h

def Synced (w : Swap V) : Prop :=
  ∀ t i, (w.slots t).c = some i → ∀ v ∈ restored t, (w.slots t).vars v = (w.slots t).contexts i v

/-- Code of the handle `h` is running. -/
structure Busy (w : Swap V) (alive : ℕ → Prop) (h : ℕ) : Prop where
  last : ∀ i, alive i → i ≠ h → ∀ t v, w.last i t v = some ((w.slots t).contexts i v)
  starts : ∀ o ∈ w.starts, o.seen = o.expected

/-- No C code is running. -/
structure Quiet (w : Swap V) (alive : ℕ → Prop) : Prop where
  synced : w.Synced
  last : ∀ i, alive i → ∀ t v, w.last i t v = some ((w.slots t).contexts i v)
  starts : ∀ o ∈ w.starts, o.seen = o.expected

theorem Quiet.busy (hq : w.Quiet alive) (h : ℕ) : w.Busy alive h :=
  ⟨fun i hi _ => hq.last i hi, hq.starts⟩

theorem seen_of_at (ha : w.At h) (hs : w.Synced) :
    w.seen t v = some ((w.slots t).contexts h v) := by
  unfold seen Slot.seen
  split_ifs with hv
  · rw [hs t h (ha t) v hv]
  · rw [ha t]
    rfl

theorem restore_at (w : Swap V) (h : ℕ) : (w.restore h).At h := by
  intro t
  show ((w.slots t).restore t h).c = some h
  unfold Slot.restore
  split_ifs with hc
  · exact hc
  · rfl

theorem restore_contexts : ((w.restore h).slots t).contexts = (w.slots t).contexts := by
  show ((w.slots t).restore t h).contexts = _
  unfold Slot.restore
  split_ifs <;> rfl

theorem Quiet.restore (hq : w.Quiet alive) (h : ℕ) : (w.restore h).Quiet alive := by
  refine ⟨fun t i hi v hv => ?_, fun i hi t v => ?_, hq.starts⟩
  · obtain rfl : h = i := some.inj ((w.restore_at h t).symm.trans hi)
    rw [restore_contexts]
    show ((w.slots t).restore t h).vars v = _
    unfold Slot.restore
    split_ifs with hc
    · exact hq.synced t h hc v hv
    · exact if_pos hv
  · rw [restore_contexts]
    exact hq.last i hi t v

theorem Quiet.start (hq : w.Quiet alive) (ha : w.At h) (hh : alive h) :
    (w.start h).Quiet alive := by
  refine ⟨hq.synced, hq.last, fun o ho => ?_⟩
  rcases List.mem_append.mp ho with ho | ho
  · exact hq.starts o ho
  · obtain rfl := List.mem_singleton.mp ho
    funext t v
    exact (seen_of_at ha hq.synced).trans (hq.last h hh t v).symm

theorem Busy.stop (hb : w.Busy alive h) (hs : w.Synced) (ha : w.At h) : (w.stop h).Quiet alive := by
  refine ⟨hs, fun i hi t v => ?_, hb.starts⟩
  by_cases hih : i = h
  · subst hih
    show update w.last i w.seen i t v = _
    rw [update_self]
    exact seen_of_at ha hs
  · show update w.last h w.seen i t v = _
    rw [update_of_ne hih]
    exact hb.last i hi hih t v

theorem Busy.congr (hb : w.Busy alive h) (hl : w'.last = w.last) (hs : w'.starts = w.starts)
    (hrec : ∀ t i, i ≠ h → (w'.slots t).contexts i = (w.slots t).contexts i) : w'.Busy alive h := by
  refine ⟨fun i hi hih t v => ?_, fun o ho => hb.starts o (hs ▸ ho)⟩
  rw [hl, hrec t i hih]
  exact hb.last i hi hih t v

/-- The save hooks find their contexts if code of `h` is running. -/
theorem At.save (ha : w.At h) (alive : ℕ → Prop) : ∃ w', w.save = some w' ∧ w'.At h ∧
    (w.Busy alive h → w'.Busy alive h ∧ w'.Synced) := by
  have hn : ¬ ∃ t ∈ chooks, (w.slots t).c = none := by
    rintro ⟨t, -, hc⟩
    rw [ha t] at hc
    cases hc
  have hs : ∀ t, ((w.slots t).save t).getD (w.slots t) = { w.slots t with
      contexts := update (w.slots t).contexts h
        (Slot.pre t (w.slots t).vars ((w.slots t).contexts h)) } := by
    intro t
    simp only [Slot.save, ha t, map_some, getD_some]
  refine ⟨_, if_neg hn, fun t => ?_, fun hb => ⟨hb.congr rfl rfl fun t i hih => ?_, ?_⟩⟩
  · dsimp only
    rw [hs]
    exact ha t
  · dsimp only
    rw [hs]
    exact update_of_ne hih ..
  intro t i hi v hv
  dsimp only at hi ⊢
  rw [hs] at hi ⊢
  obtain rfl : h = i := some.inj ((ha t).symm.trans hi)
  dsimp only
  rw [update_self]
  exact (if_pos (mem_saved_iff.mpr hv)).symm

theorem At.update (ha : w.At h) (hc : x.c = some h) :
    At { w with slots := update w.slots t x } h := by
  intro t'
  by_cases htt : t' = t
  · subst htt
    simpa using hc
  · simpa [update_of_ne htt] using ha t'

theorem Busy.update (hb : w.Busy alive h)
    (hrec : ∀ i, i ≠ h → x.contexts i = (w.slots t).contexts i) :
    Busy { w with slots := update w.slots t x } alive h := by
  refine hb.congr rfl rfl fun t' i hi => ?_
  by_cases htt : t' = t
  · subst htt
    simpa using hrec i hi
  · simp [update_of_ne htt]

theorem At.assign (ha : w.At h) (alive : ℕ → Prop) (t : Context) (v : Var) (val : V) :
    ∃ w', w.assign t v val = some w' ∧ w'.At h ∧ (w.Busy alive h → w'.Busy alive h) := by
  obtain ⟨x, hx, hc, hrec⟩ : ∃ x, (w.slots t).assign t v val = some x ∧ x.c = some h ∧
      ∀ i, i ≠ h → x.contexts i = (w.slots t).contexts i := by
    unfold Slot.assign
    split_ifs with hv
    · exact ⟨_, rfl, ha t, fun _ _ => rfl⟩
    · rw [ha t]
      exact ⟨_, rfl, rfl, fun i hi => update_of_ne hi ..⟩
  exact ⟨_, by rw [Swap.assign, hx]; rfl, ha.update hc, fun hb => hb.update hrec⟩

theorem At.heap32 (ha : w.At h) (alive : ℕ → Prop) (f : (Var → V) → Var → V) :
    ∃ w', w.heap32 f = some w' ∧ w'.At h ∧
    (w.Busy alive h → w'.Busy alive h) ∧ (w.Synced → w'.Synced) := by
  obtain ⟨x, hx, hc, hrec⟩ : ∃ x, (w.slots .nmState32).mapRecord f = some x ∧ x.c = some h ∧
      ∀ i, i ≠ h → x.contexts i = (w.slots .nmState32).contexts i := by
    unfold Slot.mapRecord
    rw [ha .nmState32]
    exact ⟨_, rfl, rfl, fun i hi => update_of_ne hi ..⟩
  refine ⟨_, by rw [Swap.heap32, hx]; rfl, ha.update hc, fun hb => hb.update hrec,
    fun hs t i hi v hv => ?_⟩
  by_cases ht : t = .nmState32
  · subst ht
    simp [restored] at hv
  · simp only [update_of_ne ht] at hi ⊢
    exact hs t i hi v hv

/-- A new handle starts with its initial values. -/
theorem init_spec (alive : ℕ → Prop) (ini : Context → ℕ → Var → V)
    (hc : ∀ t, (w.slots t).c ≠ some h) :
    ∃ w', w.init ini h = some w' ∧ (∀ t, (w'.slots t).c = (w.slots t).c) ∧ w'.starts = w.starts ∧
      (w.Quiet alive → w'.Quiet fun i => alive i ∨ i = h) := by
  have hs : ∀ t, ((w.slots t).init (ini t h) h).getD (w.slots t) =
      { w.slots t with contexts := update (w.slots t).contexts h (ini t h) } := by
    intro t
    rw [Slot.init, if_neg (hc t)]
    rfl
  refine ⟨_, if_neg (by rintro ⟨t, -, ht⟩; exact hc t ht), fun t => ?_, rfl,
    fun hq => ⟨?_, ?_, hq.starts⟩⟩
  · dsimp only
    rw [hs]
  · intro t i hi v hv
    dsimp only at hi ⊢
    rw [hs] at hi ⊢
    have hih : i ≠ h := by
      rintro rfl
      exact hc t hi
    dsimp only
    rw [update_of_ne hih]
    exact hq.synced t i hi v hv
  · intro i hi t v
    dsimp only
    rw [hs]
    dsimp only
    by_cases hih : i = h
    · subst hih
      rw [update_self, update_self]
    · rw [update_of_ne hih, update_of_ne hih]
      exact hq.last i (hi.resolve_right hih) t v

theorem Quiet.deinit (hq : w.Quiet alive) : w.deinit.Quiet alive :=
  ⟨fun _ _ hi => absurd hi (by simp [Swap.deinit, Slot.deinit]), hq.last, hq.starts⟩

theorem Quiet.mono (hq : w.Quiet alive) (hsub : ∀ i, alive' i → alive i) : w.Quiet alive' :=
  ⟨hq.synced, fun i hi => hq.last i (hsub i hi), hq.starts⟩

end Swap

end Thunks
