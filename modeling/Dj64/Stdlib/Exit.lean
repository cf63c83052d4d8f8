import Dj64.Lib.LastFirst
import Dj64.Lib.Runs

/-!
# Exit functions

`atexit` puts a function in front of a list; `exit` detaches the list and calls the functions in it
one after the other. A function that is called may register others and may call `exit` again, which
does not return.
-/

namespace Exit

open LastFirst Runs List

/-- A block of `atexit`: a registration, told apart from others of the same function by its number.
-/
structure Block (F : Type) where
  id : ℕ
  function : F
  deriving DecidableEq, Repr

/-- The list at `__atexit_ptr`, and the variable `a` of each call of `exit` that has begun, the last
one first; the function of the first block there is running. `trace` has the registrations and the
calls. -/
structure State (F : Type) where
  atexitPtr : List (Block F)
  walks : List (List (Block F))
  exited : Bool
  next : ℕ
  trace : List (Action (Block F))

def start (F : Type) : State F := ⟨[], [], false, 0, []⟩

namespace State

variable {F : Type} (s : State F)

/-- `atexit`; `none` is `NULL`, and `mem` says whether there is memory for a block. -/
def atexit (a : Option F) (mem : Bool) : State F × ℤ :=
  match a with
  | none => (s, -1)
  | some function =>
    if !mem then (s, -1)
    else
      ({ s with
        atexitPtr := ⟨s.next, function⟩ :: s.atexitPtr
        next := s.next + 1
        trace := s.trace ++ [.add ⟨s.next, function⟩] }, 0)

/-- The test of the loop of `exit`: a function is called, or the program ends with `_exit`. -/
def loop (a : List (Block F)) (outer : List (List (Block F))) : State F :=
  match a with
  | [] => { s with walks := [] :: outer, exited := true }
  | b :: a => { s with walks := (b :: a) :: outer, trace := s.trace ++ [.take b] }

/-- `exit` is called. -/
def exit : State F := loop { s with atexitPtr := [] } s.atexitPtr s.walks

def pending : List (Block F) := s.atexitPtr ++ s.walks.flatMap tail

end State

/-- Why a step is not possible. -/
inductive Stuck where
  | exited
  | noExitFunction
  deriving DecidableEq, Repr

/-- The function that `exit` has called returns. -/
def State.ret {F : Type} (s : State F) : Except Stuck (State F) :=
  match s.walks with
  | (_ :: a) :: outer => .ok (s.loop a outer)
  | _ => .error .noExitFunction

/-- What the program does, or the exit function that is running. -/
inductive Event (F : Type) where
  | atexit (a : Option F) (mem : Bool)
  | exit
  | ret

/-- One step of the program. -/
def step {F : Type} (s : State F) (e : Event F) : Except Stuck (State F) :=
  if s.exited then .error .exited
  else
    match e with
    | .atexit a mem => .ok (s.atexit a mem).1
    | .exit => .ok s.exit
    | .ret => s.ret

/-- The loop goes on with what was registered last: an exit function does not return before what has
been registered since is called, and a loop ends only if no registration is left. -/
def Orderly {F : Type} (s : State F) : Event F → Prop
  | .atexit _ _ => True
  | .exit => s.atexitPtr ≠ [] ∨ s.pending = []
  | .ret => s.atexitPtr = [] ∧ ((s.walks.headD []).tail ≠ [] ∨ s.pending = [])

variable {F : Type} [DecidableEq F] {s s' : State F} {a : List (Block F)} {outer : List (List
  (Block F))} {e : Event F} {es : List (Event F)}

instance (s : State F) (e : Event F) : Decidable (Orderly s e) := by
  cases e <;> unfold Orderly <;> infer_instance

/-! ### Single steps -/

/-- What is pending is what the trace leaves. -/
structure Inv (s : State F) : Prop where
  left : left s.trace = s.pending.reverse
  ordered : Ordered s.trace
  nodup : (added s.trace).Nodup
  fresh : ∀ b ∈ added s.trace, b.id < s.next
  done : s.exited → s.pending = []

def Right (s : State F) : Prop := Ordered s.trace ∧ (s.exited → left s.trace = [])

theorem Inv.start : Inv (start F) := ⟨rfl, ordered_nil, nodup_nil, nofun, fun _ => rfl⟩

theorem Inv.right (h : Inv s) : Right s :=
  ⟨h.ordered, fun he => by rw [h.left, h.done he, reverse_nil]⟩

theorem Inv.atexit (h : Inv s) (he : s.exited = false) (a : Option F) (mem : Bool) :
    Inv (s.atexit a mem).1 := by
  cases a with
  | none => exact h
  | some function =>
    cases mem with
    | false => exact h
    | true =>
      have hnew : ⟨s.next, function⟩ ∉ added s.trace := fun hmem => lt_irrefl _ (h.fresh _ hmem)
      have ht : LastFirst.left (s.trace ++ [.add ⟨s.next, function⟩]) =
          LastFirst.left s.trace ++ [⟨s.next, function⟩] :=
            left_add fun hmem => hnew (h.ordered.mem_added hmem)
      have ha : added (s.trace ++ [.add ⟨s.next, function⟩]) =
          added s.trace ++ [⟨s.next, function⟩] := by
        rw [added_append, added_add]
      refine ⟨?_, ordered_add_iff.mpr h.ordered, ?_, ?_, fun he' => ?_⟩
      · rw [State.atexit, if_neg (by decide)]
        simp [ht, h.left, State.pending]
      · show (added (s.trace ++ [.add ⟨s.next, function⟩])).Nodup
        rw [ha, nodup_append]
        refine ⟨h.nodup, nodup_singleton _, ?_⟩
        rintro b hb c hc rfl
        exact hnew (mem_singleton.mp hc ▸ hb)
      · show ∀ b ∈ added (s.trace ++ [.add ⟨s.next, function⟩]), b.id < s.next + 1
        intro b hb
        rw [ha, mem_append, mem_singleton] at hb
        rcases hb with hb | rfl
        · exact (h.fresh b hb).trans (Nat.lt_succ_self _)
        · exact Nat.lt_succ_self _
      · rw [show (s.atexit (some function) true).1.exited = s.exited from rfl, he] at he'
        cases he'

/-- The loop is about to go on with `a`: that, the list at `__atexit_ptr` and the rests of the outer
loops are what the trace leaves. -/
structure Walking (s : State F) (a : List (Block F)) (outer : List (List (Block F))) : Prop where
  left : left s.trace = (s.atexitPtr ++ (a ++ outer.flatMap tail)).reverse
  ordered : Ordered s.trace
  nodup : (added s.trace).Nodup
  fresh : ∀ b ∈ added s.trace, b.id < s.next
  running : s.exited = false

theorem Inv.exit_walking (h : Inv s) (hr : s.exited = false) :
    Walking { s with atexitPtr := [] } s.atexitPtr s.walks :=
  ⟨h.left, h.ordered, h.nodup, h.fresh, hr⟩

theorem Inv.ret_walking (h : Inv s) (hr : s.exited = false) {b : Block F}
    (hw : s.walks = (b :: a) :: outer) : Walking s a outer := by
  refine ⟨?_, h.ordered, h.nodup, h.fresh, hr⟩
  rw [h.left, State.pending, hw]
  rfl

section

variable {a : List (Block F)} {outer : List (List (Block F))}

/-- What the test of the loop has to find. -/
theorem Walking.right_iff (h : Walking s a outer) : Right (s.loop a outer) ↔
    a ≠ [] ∧ s.atexitPtr = [] ∨ s.atexitPtr ++ (a ++ outer.flatMap tail) = [] := by
  cases a with
  | nil =>
    simp only [ne_eq, not_true, false_and, false_or, Right, State.loop, forall_const, h.left,
      reverse_eq_nil_iff]
    exact ⟨And.right, fun hnil => ⟨h.ordered, hnil⟩⟩
  | cons b a =>
    have hnd : (s.atexitPtr ++ (b :: a ++ outer.flatMap tail)).Nodup := by
      have hf : (LastFirst.left s.trace).Nodup := h.nodup.filter _
      rw [h.left] at hf
      exact nodup_reverse.mp hf
    simp only [ne_eq, reduceCtorEq, not_false_iff, true_and, Right, State.loop, ordered_take_iff,
      h.ordered, h.running, Bool.false_eq_true, false_imp_iff, and_true, h.left,
        getLast?_reverse]
    cases hptr : s.atexitPtr with
    | nil => simp
    | cons c ptr =>
      rw [hptr, cons_append, nodup_cons] at hnd
      simp only [cons_append, reduceCtorEq, false_or, head?_cons, Option.some_inj, iff_false]
      rintro rfl
      exact hnd.1 (mem_append_right _ (.head _))

theorem Walking.inv (h : Walking s a outer) (hr : Right (s.loop a outer)) :
    Inv (s.loop a outer) := by
  cases a with
  | nil =>
    refine ⟨h.left, h.ordered, h.nodup, h.fresh, fun _ => ?_⟩
    have hnil := hr.2 rfl
    rw [State.loop, h.left, reverse_eq_nil_iff] at hnil
    exact hnil
  | cons b a =>
    have hptr : s.atexitPtr = [] := by
      rcases h.right_iff.mp hr with ⟨-, hptr⟩ | hnil
      · exact hptr
      · exact (append_eq_nil_iff.mp hnil).1
    refine ⟨?_, hr.1, ?_, ?_, fun he => ?_⟩
    · refine left_take h.nodup ?_
      rw [h.left, State.pending, State.loop, hptr]
      simp
    · rw [State.loop, added_append, added_take, append_nil]
      exact h.nodup
    · rw [State.loop, added_append, added_take, append_nil]
      exact h.fresh
    · rw [State.loop, h.running] at he
      cases he

end

/-- An orderly step keeps what is right, and every other step spoils it. -/
theorem Inv.after (h : Inv s) (hs : step s e = .ok s') :
    (Orderly s e → Inv s') ∧ (Right s' → Orderly s e) := by
  have hr : s.exited = false := by
    by_contra he
    rw [step.eq_def, if_pos (by simpa using he)] at hs
    cases hs
  rw [step.eq_def, hr, if_neg Bool.false_ne_true] at hs
  cases e with
  | atexit a mem =>
    cases hs
    exact ⟨fun _ => h.atexit hr a mem, fun _ => trivial⟩
  | exit =>
    cases hs
    have hw := h.exit_walking hr
    have hiff : Orderly s .exit ↔ Right s.exit := by
      rw [State.exit, hw.right_iff]
      simp only [Orderly, and_true, nil_append]
      rfl
    exact ⟨fun ho => hw.inv (hiff.mp ho), hiff.mpr⟩
  | ret =>
    rcases hwa : s.walks with _ | ⟨_ | ⟨b, a⟩, outer⟩
    · simp only [State.ret, hwa, reduceCtorEq] at hs
    · simp only [State.ret, hwa, reduceCtorEq] at hs
    simp only [State.ret, hwa, Except.ok.injEq] at hs
    subst hs
    have hw := h.ret_walking hr hwa
    have hiff : Orderly s .ret ↔ Right (s.loop a outer) := by
      rw [hw.right_iff]
      simp only [Orderly, hwa, headD_cons, tail_cons, State.pending, flatMap_cons]
      constructor
      · rintro ⟨hptr, ha | hnil⟩
        · exact .inl ⟨ha, hptr⟩
        · exact .inr hnil
      · rintro (⟨ha, hptr⟩ | hnil)
        · exact ⟨hptr, .inl ha⟩
        · exact ⟨(append_eq_nil_iff.mp hnil).1, .inr hnil⟩
    exact ⟨fun ho => hw.inv (hiff.mp ho), hiff.mpr⟩

/-! ### Runs -/

omit [DecidableEq F] in
/-- The trace grows. -/
theorem step_trace (hs : step s e = .ok s') : ∃ u, s'.trace = s.trace ++ u := by
  have hl : ∀ (s : State F) (a) (outer), ∃ u, (s.loop a outer).trace = s.trace ++ u := by
    intro s a outer
    cases a with
    | nil => exact ⟨[], (append_nil _).symm⟩
    | cons b a => exact ⟨_, rfl⟩
  rw [step.eq_def] at hs
  split at hs
  · cases hs
  cases e with
  | atexit a mem =>
    cases hs
    rcases a with _ | function
    · exact ⟨[], (append_nil _).symm⟩
    · cases mem with
      | false => exact ⟨[], (append_nil _).symm⟩
      | true => exact ⟨_, rfl⟩
  | exit =>
    cases hs
    exact hl _ _ _
  | ret =>
    dsimp only at hs
    rw [State.ret] at hs
    split at hs
    · cases hs
      exact hl _ _ _
    · cases hs

theorem Right.of_run (hrun : run step s es = .ok s') (h : Right s') : Right s := by
  induction es generalizing s with
  | nil =>
    cases hrun
    exact h
  | cons e es ih =>
    rw [run] at hrun
    cases hs : step s e with
    | error _ =>
      rw [hs] at hrun
      cases hrun
    | ok s1 =>
      rw [hs] at hrun
      obtain ⟨u, hu⟩ := step_trace hs
      have hr := ih hrun
      refine ⟨(hu ▸ hr.1).of_append, fun he => ?_⟩
      rw [step.eq_def, if_pos he] at hs
      cases hs

theorem Inv.right_iff (h : Inv s) (hrun : run step s es = .ok s') :
    Right s' ↔ Admits step Orderly s es := by
  induction es generalizing s with
  | nil =>
    cases hrun
    exact iff_of_true h.right trivial
  | cons e es ih =>
    rw [run] at hrun
    cases hs : step s e with
    | error _ =>
      rw [hs] at hrun
      cases hrun
    | ok s1 =>
      rw [hs] at hrun
      rw [Admits, hs]
      obtain ⟨hk, hsp⟩ := h.after hs
      constructor
      · intro hr
        have ho := hsp (hr.of_run hrun)
        exact ⟨ho, (ih (hk ho) hrun).mp hr⟩
      · rintro ⟨ho, ha⟩
        exact (ih (hk ho) hrun).mpr ha

/-- **Every function is called once and the last one first**, if and only if every step is orderly:
at every call the function is the last of those registered and not called before, and when the
program exits each registration has been called exactly once. -/
theorem exit_lastFirst_iff {es : List (Event F)} (hrun : run step (start F) es = .ok s) :
    ((∀ t₁ b t₂, s.trace = t₁ ++ .take b :: t₂ → (left t₁).getLast? = some b) ∧
      (s.exited → ∀ b ∈ added s.trace, (taken s.trace).count b = 1)) ↔
    Admits step Orderly (start F) es := by
  rw [← Inv.start.right_iff hrun]
  refine and_congr_right fun ho => forall_congr' fun _ => ?_
  exact Ordered.count_taken_iff ho

/-- The last of two exit functions to be called registers another one and calls `exit`. -/
theorem exit_lastFirst_two : Runs.succeeds (run step (start ℕ)
      [.atexit (some 10) true, .atexit (some 11) true, .exit, .ret,
        .atexit (some 12) true, .exit, .ret])
      (fun s => s.exited && taken s.trace == [⟨1, 11⟩, ⟨0, 10⟩, ⟨2, 12⟩]) = true ∧
    ∀ s, run step (start ℕ)
      [.atexit (some 10) true, .atexit (some 11) true, .exit, .ret, .atexit (some 12) true,
        .exit, .ret] =
        .ok s →
      ∀ t₁ b t₂, s.trace = t₁ ++ .take b :: t₂ → (left t₁).getLast? = some b := by
  refine ⟨by decide +kernel, fun s hrun => ?_⟩
  exact ((exit_lastFirst_iff hrun).mpr (by decide +kernel)).1

/-- A function that an exit function registers is not called; if the exit function also calls
`exit`, it is, but the functions that were to be called after the exit function are not. -/
theorem exit_function_lost :
    (∃ s, run step (start ℕ) [.atexit (some 10) true, .exit, .atexit (some 11) true, .ret] = .ok s ∧
      s.exited = true ∧ ⟨1, 11⟩ ∈ added s.trace ∧ (taken s.trace).count ⟨1, 11⟩ = 0) ∧
    ∃ s, run step (start ℕ)
        [.atexit (some 10) true, .atexit (some 11) true, .exit, .atexit (some 12) true, .exit,
          .ret] = .ok s ∧
      s.exited = true ∧ ⟨0, 10⟩ ∈ added s.trace ∧ (taken s.trace).count ⟨0, 10⟩ = 0 :=
  ⟨⟨_, rfl, rfl, by decide, by decide⟩, ⟨_, rfl, rfl, by decide, by decide⟩⟩

end Exit
