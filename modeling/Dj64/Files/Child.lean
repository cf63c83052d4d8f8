import Dj64.Files.FdRuns

/-!
# Streams and descriptors of a parent program

The list of streams and the table of descriptor properties are variables of the library, which a
parent and its child share.  The start of a program sets the list up anew, and it changes
`__bss_count`, after which the first `__set_fd_properties` allocates a new table.

A stream is a number; the five standard ones are `0` to `4`.  `World` has the records of the list,
the streams with a non-zero `_flag` and the variables of `fd_props.c`.
-/

namespace Child

open Properties Runs List Function

def fileRecMax : ℕ := 20

/-- The list of streams, the streams in use, the number of allocated streams, and the properties of
descriptors. -/
structure World where
  recs : List (List ℕ)
  flag : ℕ → Bool
  next : ℕ
  props : State

/-- The record that `__setup_file_rec_list` fills. -/
def standard : List ℕ := [0, 1, 2, 3, 4]

/-- The search of `__alloc_file`: a free stream of the records, or the records with a new one. -/
def search (flag : ℕ → Bool) (new : ℕ) : List (List ℕ) → ℕ × List (List ℕ)
  | [] => (new, [[new]])
  | files :: recs =>
    match files.find? fun f => !flag f with
    | some f => (f, files :: recs)
    | none =>
      if files.length = fileRecMax then
        let r := search flag new recs
        (r.1, files :: r.2)
      else (new, (files ++ [new]) :: recs)

/-- `__alloc_file`, and the flags that its callers set; `malloc` succeeds. -/
def allocFile (s : World) : World :=
  let r := search s.flag s.next s.recs
  { s with recs := r.2, flag := update s.flag r.1 true, next := s.next + 1 }

/-- The end of `fclose`. -/
def closeFile (s : World) (f : ℕ) : World := { s with flag := update s.flag f false }

/-- The streams that `_fwalk` visits. -/
def fwalk (s : World) : List ℕ := s.recs.flatten.filter s.flag

/-- `__crt1_startup`, as far as it changes these variables. -/
def startup (s : World) : World :=
  { s with recs := [standard], props := { s.props with bssCount := s.props.bssCount + 1 } }

/-- A step of some program: it starts, opens or closes a stream, or opens, duplicates or closes a
descriptor. -/
inductive Step
  | start
  | fopen
  | fclose (f : ℕ)
  | call (c : Call)

def step (s : World) : Step → Except Fault World
  | .start => .ok (startup s)
  | .fopen => .ok (allocFile s)
  | .fclose f => .ok (closeFile s f)
  | .call c => (fun p => { s with props := p }) <$> Properties.step s.props c

def boot : World := ⟨[standard], fun f => decide (f < 5), 5, State.start 0⟩

def Reached (s : World) : Prop := ∃ steps, run step boot steps = .ok s

/-! ### What a parent has -/

def getFdFlags (s : State) (fd : ℕ) : UInt64 := if s.fd fd = 0 then 0 else (s.mem (s.fd fd)).flags

def openFlags : UInt64 := fileDescTemporary ||| fileDescAppend

/-- The steps close or reopen the descriptor. -/
def Touches (fd : ℕ) : Step → Prop
  | .call (.set i _ _ _) => i = fd
  | .call (.dup _ i) => i = fd
  | .call (.clear i) => i = fd
  | _ => False

/-- The parent with the state `s` finds what it left, in the state `s'` after the steps of its child
and later ones of its own: its streams are visited, its descriptors have their flags, and its
temporary files are deleted when they are closed for the last time. -/
structure Keeps (s : World) (steps : List Step) (s' : World) : Prop where
  streams : ∀ f, s.flag f = true → Step.fclose f ∉ steps → f ∈ fwalk s'
  flags : ∀ fd < 255, (∀ c ∈ steps, ¬ Touches fd c) →
    getFdFlags s.props fd &&& openFlags ≠ 0 → getFdFlags s.props fd &&& openFlags &&&
      getFdFlags s'.props fd =
      getFdFlags s.props fd &&& openFlags
  deleted : ∀ fd < 255, (∀ c ∈ steps, ¬ Touches fd c) →
    getFdFlags s.props fd &&& fileDescTemporary ≠ 0 →
    (∀ i < 255, i ≠ fd → (s'.props.mem (s'.props.fd i)).filename ≠
      (s.props.mem (s.props.fd fd)).filename) →
    ∃ name p, (s.props.mem (s.props.fd fd)).filename = some name ∧
      Properties.step s'.props (.clear fd) = .ok p ∧ p.removed = name :: s'.props.removed

def AlwaysKeeps (s : World) : Prop := ∀ steps s', run step (startup s) steps = .ok s' →
    Keeps s steps s'

/-! ### Invariants -/

variable {s s' : World}

/-- The standard streams are the first of the list, and the count at the last initialisation of the
table is not ahead. -/
structure Sound (s : World) : Prop where
  head : ∃ files recs, s.recs = (standard ++ files) :: recs
  count : s.props.oldBssCount ≤ s.props.bssCount

theorem search_head {flag : ℕ → Bool} {new : ℕ} {files : List ℕ} {recs : List (List ℕ)} :
    ∃ files' recs', (search flag new ((standard ++ files) :: recs)).2 =
      (standard ++ files') :: recs' := by
  rw [search]
  cases (standard ++ files).find? fun f => !flag f with
  | some f => exact ⟨files, recs, rfl⟩
  | none =>
    split_ifs
    · exact ⟨files, _, rfl⟩
    · exact ⟨files ++ [new], recs, by rw [append_assoc]⟩

variable {p q : State} {fd i j f : ℕ} {c : Step} {steps : List Step}

theorem closeFd_counts (h : closeFd p fd = .ok q) :
    q.bssCount = p.bssCount ∧ q.oldBssCount = p.oldBssCount := by
  unfold closeFd at h
  split_ifs at h
  · obtain ⟨ptr, -, h⟩ := bind_eq_ok h
    split_ifs at h
    · cases h
      exact ⟨rfl, rfl⟩
    · split at h
      · cases h
        exact ⟨rfl, rfl⟩
      · cases h
  · cases h
    exact ⟨rfl, rfl⟩

theorem clear_counts (h : Properties.step p (.clear fd) = .ok q) :
    q.bssCount = p.bssCount ∧ q.oldBssCount = p.oldBssCount := by
  cases ht : p.fdProperties with
  | none =>
    rw [Properties.step, clearFdProperties, ht] at h
    cases h
  | some table =>
    by_cases hz : table fd = 0
    · rw [step_clear_none ht hz] at h
      cases h
      exact ⟨rfl, rfl⟩
    by_cases hco : (p.mem (table fd)).refCount - 1 = 0
    · rw [step_clear_last ht hz hco] at h
      cases hc : closeFd (p.dropped (table fd)) (table fd) with
      | error e =>
        rw [hc] at h
        cases h
      | ok p' =>
        rw [hc] at h
        cases h
        exact ⟨(closeFd_counts hc).1, (closeFd_counts hc).2⟩
    · rw [step_clear_shared ht hz hco] at h
      cases h
      exact ⟨rfl, rfl⟩

theorem dup_counts (h : Properties.step p (.dup i j) = .ok q) :
    q.bssCount = p.bssCount ∧ q.oldBssCount = p.oldBssCount := by
  rw [Properties.step, dupFdProperties] at h
  cases ht : p.fdProperties with
  | none =>
    rw [ht] at h
    cases h
  | some table =>
    rw [ht] at h
    dsimp only at h
    split_ifs at h
    · cases h
      exact ⟨rfl, rfl⟩
    · cases h
      exact ⟨rfl, rfl⟩

theorem init_counts (p : State) (malloc : Bool) :
    (p.init malloc).bssCount = p.bssCount ∧ (p.init malloc).oldBssCount = p.bssCount := by
  unfold State.init
  by_cases hf : p.oldBssCount ≠ p.bssCount
  · rw [if_pos hf]
    exact ⟨rfl, rfl⟩
  · rw [if_neg hf]
    exact ⟨rfl, not_not.mp hf⟩

theorem alloc_counts (p : State) (malloc : Bool) :
    (allocFdProperties p malloc).1.bssCount = p.bssCount ∧
      (allocFdProperties p malloc).1.oldBssCount = p.oldBssCount := by
  unfold allocFdProperties
  split_ifs <;> exact ⟨rfl, rfl⟩

theorem set_counts {name : Option Exec.Bytes} {flags : UInt32}
    {malloc : Bool × Bool} (h : Properties.step p (.set fd name flags malloc) = .ok q) :
    q.bssCount = p.bssCount ∧ q.oldBssCount = p.bssCount := by
  have hin := init_counts p malloc.1
  have ha := alloc_counts (p.init malloc.1) malloc.2
  cases ht : (p.init malloc.1).fdProperties with
  | none =>
    rw [step_set_none rfl ht] at h
    split_ifs at h
    cases h
    exact hin
  | some table =>
    rw [step_set rfl ht] at h
    cases h
    split_ifs
    · exact ⟨ha.1.trans hin.1, ha.2.trans hin.2⟩
    · exact ⟨ha.1.trans hin.1, ha.2.trans hin.2⟩
    · exact hin

theorem sound_boot : Sound boot := ⟨⟨[], [], rfl⟩, le_rfl⟩

theorem sound_startup (h : Sound s) : Sound (startup s) :=
  ⟨⟨[], [], rfl⟩, h.count.trans (le_of_lt (Int.lt_succ _))⟩

theorem sound_step (h : Sound s) (hs : step s c = .ok s') : Sound s' := by
  obtain ⟨files, recs, hr⟩ := h.head
  cases c with
  | start =>
    cases hs
    exact sound_startup h
  | fopen =>
    cases hs
    refine ⟨?_, h.count⟩
    change ∃ files' recs', (search s.flag s.next s.recs).2 = _
    rw [hr]
    exact search_head
  | fclose f =>
    cases hs
    exact ⟨⟨files, recs, hr⟩, h.count⟩
  | call c =>
    rw [step] at hs
    cases hp : Properties.step s.props c with
    | error e =>
      rw [hp] at hs
      cases hs
    | ok p =>
      rw [hp] at hs
      cases hs
      refine ⟨⟨files, recs, hr⟩, ?_⟩
      cases c with
      | set fd name flags malloc =>
        obtain ⟨hbss, hold⟩ := set_counts hp
        rw [hbss, hold]
      | dup i j =>
        obtain ⟨hbss, hold⟩ := dup_counts hp
        rw [hbss, hold]
        exact h.count
      | clear fd =>
        obtain ⟨hbss, hold⟩ := clear_counts hp
        rw [hbss, hold]
        exact h.count

theorem sound_run (h : Sound s) (hs : run step s steps = .ok s') : Sound s' := by
  induction steps generalizing s with
  | nil =>
    cases hs
    exact h
  | cons c steps ih =>
    rw [run] at hs
    cases hc : step s c with
    | error e =>
      rw [hc] at hs
      cases hs
    | ok s1 =>
      rw [hc] at hs
      exact ih (sound_step h hc) hs

/-! ### The standard streams stay -/

theorem flag_step (hf : s.flag f) (hc : c ≠ .fclose f) (hs : step s c = .ok s') : s'.flag f := by
  cases c with
  | start =>
    cases hs
    exact hf
  | fopen =>
    cases hs
    change update s.flag _ true f
    rw [update_apply]
    split_ifs
    · rfl
    · exact hf
  | fclose g =>
    cases hs
    have hfg : f ≠ g := fun heq => hc (heq ▸ rfl)
    change update s.flag g false f
    rw [update_of_ne hfg, hf]
  | call c =>
    rw [step] at hs
    cases hp : Properties.step s.props c with
    | error e =>
      rw [hp] at hs
      cases hs
    | ok p =>
      rw [hp] at hs
      cases hs
      exact hf

theorem flag_run (hf : s.flag f) (hc : Step.fclose f ∉ steps)
    (hs : run step s steps = .ok s') : s'.flag f := by
  induction steps generalizing s with
  | nil =>
    cases hs
    exact hf
  | cons c steps ih =>
    rw [run] at hs
    cases hst : step s c with
    | error e =>
      rw [hst] at hs
      cases hs
    | ok s1 =>
      rw [hst] at hs
      have hne : c ≠ .fclose f := fun heq => hc (heq ▸ .head _)
      exact ih (flag_step hf hne hst) (fun hmem => hc (.tail _ hmem)) hs

theorem mem_fwalk_standard (h : Sound s) (hf : f < 5) (hfl : s.flag f) : f ∈ fwalk s := by
  obtain ⟨files, recs, hr⟩ := h.head
  refine mem_filter.mpr ⟨?_, hfl⟩
  rw [hr]
  refine mem_append_left _ (mem_append_left _ ?_)
  have hall : ∀ g < 5, g ∈ standard := by decide
  exact hall f hf

/-! ### What is lost -/

theorem set_forgets (h : p.oldBssCount ≠ p.bssCount) :
    ∃ q, Properties.step p (.set fd none 0 (true, true)) = .ok q ∧ ∀ i, i ≠ fd → q.fd i = 0 := by
  have hin : (p.init true).fdProperties = some fun _ => 0 := by
    rw [State.init, if_pos h]
    rfl
  have hc : (p.init true).cachedFds = 0 := by rw [State.init, if_pos h]
  refine ⟨_, step_set rfl hin, fun i hi => ?_⟩
  rw [if_pos rfl, allocFdProperties, if_pos hc, if_pos rfl]
  change (update (fun _ => 0) fd _ : ℕ → ℕ) i = 0
  rw [update_of_ne hi]

/-- **A parent keeps its streams, its flags and its temporary files through every child if and only
if it has no stream but the standard ones, and no descriptor for appending or of a temporary file.**
-/
theorem child_keeps_iff (s : World) (hs : Reached s) :
    AlwaysKeeps s ↔ (∀ f, s.flag f = true → f < 5) ∧ ∀ fd < 255,
      getFdFlags s.props fd &&& openFlags = 0 := by
  obtain ⟨steps0, hrun0⟩ := hs
  have hso := sound_run sound_boot hrun0
  constructor
  · intro hk
    refine ⟨fun f hf => ?_, fun fd hfd => ?_⟩
    · have hmem := (hk [] (startup s) rfl).streams f hf not_mem_nil
      have hstd : f ∈ standard := by
        have := (mem_filter.mp hmem).1
        simpa [startup] using this
      have hall : ∀ g ∈ standard, g < 5 := by decide
      exact hall f hstd
    by_contra hne
    -- the child opens a file on another descriptor
    obtain ⟨i, hi⟩ : ∃ i, i ≠ fd := ⟨fd + 1, Nat.succ_ne_self fd⟩
    have hfr : (startup s).props.oldBssCount ≠ (startup s).props.bssCount := by
      have := hso.count
      change s.props.oldBssCount ≠ s.props.bssCount + 1
      omega
    obtain ⟨q, hq, hl⟩ := set_forgets hfr
    have hste : run step (startup s) [.call (.set i none 0 (true, true))] =
      .ok { startup s with props := q } := by
      rw [run, step, hq]
      rfl
    have hfl := (hk _ _ hste).flags fd hfd ?_ hne
    · have hz : getFdFlags q fd = 0 := if_pos (hl fd hi.symm)
      rw [hz, UInt64.and_zero] at hfl
      exact hne hfl.symm
    · intro c hc
      rw [mem_singleton.mp hc]
      exact hi
  · rintro ⟨hst, hfl⟩ steps s' hrun
    have hs' := sound_run (sound_startup hso) hrun
    refine ⟨fun f hf hnot => ?_, fun fd hfd _ hne => absurd (hfl fd hfd) hne, fun fd hfd _ ht => ?_⟩
    · exact mem_fwalk_standard hs' (hst f hf) (flag_run (s := startup s) hf hnot hrun)
    have hb : getFdFlags s.props fd &&& fileDescTemporary =
        getFdFlags s.props fd &&& openFlags &&& fileDescTemporary := by
      rw [UInt64.and_assoc]
      rfl
    rw [hb, hfl fd hfd] at ht
    exact absurd rfl ht

theorem child_keeps_iff_boot : AlwaysKeeps boot := by
  refine (child_keeps_iff boot ⟨[], rfl⟩).mpr ⟨fun f hf => of_decide_eq_true hf, fun fd _ => ?_⟩
  have hn : getFdFlags boot.props fd = 0 := rfl
  rw [hn, UInt64.zero_and]

/-- A parent opens a stream and a descriptor for appending; its child starts and opens a file. -/
theorem child_loses :
    succeeds (run step boot [.start, .fopen, .call (.set 5 none oAppend (true, true)), .start])
        (fun s => s.flag 5 && !(fwalk s).contains 5 && (getFdFlags s.props 5 == fileDescAppend)) ∧
      succeeds (run step boot [.start, .fopen, .call (.set 5 none oAppend (true, true)), .start,
          .call (.set 6 none 0 (true, true))])
        (fun s => getFdFlags s.props 5 == 0) := by
  decide +kernel

end Child
