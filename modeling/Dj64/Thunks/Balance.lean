import Dj64.Thunks.Invariant

/-!
# Frame balance and isolation of nested calls

* `runCode_spec`, `runHost_spec`: what code of a handle and the other side preserve, by induction on
  the run;
* `calls_balanced`: every return of `dj64_call` finds the handle as it was at entry, and every
  `longjmp` goes to the innermost active call of its handle;
* `contexts_isolated`: code of a handle always sees its own variables.
-/

namespace Thunks

open Outcomes List Function State Udisp

variable {V : Type} {L : Library V} {s s' s'' s0 : State V} {h fa addr i : ℕ} {body k : M V Exit}
  {host : M V Unit}

/-! ### DOS objects -/

theorem findOh_spec (hl : 0 < (s.udisps h).recurCnt)
    (hd : (s.udisps h).recurCnt ≤ maxRecur) (hm : ∃ i < maxObjs, (s.udisps h).row i = addr) :
    Ends (Stopped L) (fun i s' => s' = s ∧ i < maxObjs ∧ (s.udisps h).row i = addr)
      (findOh h addr s) := by
  refine ends_get (ends_ensure ⟨hl, hd⟩ _ ?_)
  obtain ⟨i, hi, hrow⟩ := hm
  cases hf : (range maxObjs).find? fun i => (s.udisps h).row i = addr with
  | none =>
    have := find?_eq_none.mp hf i (mem_range.mpr hi)
    simp [hrow] at this
  | some j =>
    have hj := mem_of_find?_eq_some hf
    have hr' := find?_some hf
    exact ⟨rfl, mem_range.mp hj, by simpa using hr'⟩

section

variable (hc : InCode L h s)
include hc

theorem InCode.heap32 (f : (Var → V) → Var → V) :
    ∃ w, s.swap.heap32 f = some w ∧ InCode L h (s.setSwap w) ∧ (s.swap.Synced → w.Synced) := by
  obtain ⟨w, hw, hat, hb, hs⟩ := hc.here.heap32 s.Live f
  exact ⟨w, hw, ⟨hc.toAwake.setSwap hat fun hp => hb (hc.busy hp), hc.level, hc.framed⟩, hs⟩

theorem doObjInit_spec {isDosPtr : Bool} {fa : ℕ} :
    Ends (Stopped L) (fun _ s' => InCode L h s' ∧ Same h s s') (doObjInit L h isDosPtr fa s) := by
  cases isDosPtr with
  | true => exact ⟨hc, (Kept.refl s).same h⟩
  | false =>
    refine ends_ensure (hc.handles h (hc.active h hc.level)) _ (ends_get (ends_assume hc.clean ?_))
    rintro ⟨hfa, hnew, hr⟩
    obtain ⟨w, hw, hc', -⟩ := hc.heap32 (L.malloc32 fa)
    refine ends_trySwap hw _ (ends_modifyUdisp ?_)
    refine (findOh_spec (by simpa using hc.level) (by simpa using (hc.good h).depth)
      (by simpa [row] using exists_zero_of_rowCount hr)).bind ?_
    rintro i _ ⟨rfl, hi, hrow⟩
    have hr' : (s.udisps h).row i = 0 := by simpa [row] using hrow
    obtain ⟨hc1, hs1⟩ := hc'.setUdisp ((hc.good h).insert hc.level hi hr' hfa hnew)
      ((Udisp.SameBelow.setRow _ i fa).objcnt _)
    show InCode L h (setUdisp _ h (setRow _ i fa)) ∧ Same h s (setUdisp _ h _)
    rw [setUdisp_setUdisp, setUdisp_self]
    exact ⟨hc1, hs1.others, hs1.below, hs1.frames⟩

theorem doRmDosobj_spec (hown : (s.udisps h).Owns fa) :
    Ends (Stopped L) (fun _ s' => InCode L h s' ∧ Same h s s' ∧ (s.swap.Synced → s'.swap.Synced) ∧
      ∃ i < maxObjs, (s.udisps h).row i = fa ∧
        (s'.udisps h).row = update (s.udisps h).row i 0) (doRmDosobj L h fa s) := by
  obtain ⟨w, hw, hc', hs⟩ := hc.heap32 (L.free32 fa)
  refine ends_trySwap hw _ ?_
  refine (findOh_spec (s := s.setSwap w) hc.level (hc.good h).depth hown.2).bind ?_
  rintro i _ ⟨rfl, hi, hrow⟩
  have hne : (s.udisps h).row i ≠ 0 := by
    rw [show (s.udisps h).row i = fa from hrow]
    exact hown.1
  obtain ⟨hc1, hs1⟩ := hc'.setUdisp ((hc.good h).remove hc.level hi hne)
    ((Udisp.SameBelow.setRow _ i 0).objcnt _)
  show InCode L h (setUdisp _ h _) ∧ Same h s (setUdisp _ h _) ∧ (_ → w.Synced) ∧
    ∃ i < maxObjs, _ ∧ ((setUdisp _ h _).udisps h).row = _
  rw [setUdisp_setUdisp, setUdisp_self]
  refine ⟨hc1, ⟨hs1.others, hs1.below, hs1.frames⟩, hs, i, hi, hrow, ?_⟩
  rw [setUdisp_self]
  exact setRow_objs_self (s.udisps h) i 0

theorem objDone_spec {isDosPtr : Bool} {fa : ℕ} :
    Ends (Stopped L) (fun _ s' => InCode L h s' ∧ Same h s s') (objDone L h isDosPtr fa s) := by
  cases isDosPtr with
  | true => exact ⟨hc, (Kept.refl s).same h⟩
  | false =>
    refine ends_ensure (hc.handles h (hc.active h hc.level)) _ (ends_get (ends_assume hc.clean ?_))
    exact fun hown => (doRmDosobj_spec hc hown).mono fun _ s' ⟨h1, h2, _⟩ => ⟨h1, h2⟩

theorem gcRound_spec (hi : i < maxObjs) :
    Ends (Stopped L) (fun _ s' => InCode L h s' ∧ Same h s s' ∧ (s.swap.Synced → s'.swap.Synced) ∧
      (∀ j, (s.udisps h).row j = 0 → (s'.udisps h).row j = 0) ∧ (s'.udisps h).row i = 0)
      (gcRound L h i s) := by
  refine ends_get ?_
  split_ifs with h0
  · refine (doRmDosobj_spec hc ⟨h0, i, hi, rfl⟩).mono ?_
    rintro - s' ⟨hc', hs', hs, k, hk, hrow, hr'⟩
    have hk0 : (s.udisps h).objs ((s.udisps h).recurCnt - 1) k ≠ 0 := by
      rw [show (s.udisps h).objs _ k = (s.udisps h).row i from hrow]
      exact h0
    obtain rfl : k = i := (hc.good h).distinct _ k i hk hi hrow hk0
    refine ⟨hc', hs', hs, fun j hj => ?_, by rw [hr', update_self]⟩
    rw [hr']
    by_cases hjk : j = k
    · rw [hjk, update_self]
    · rw [update_of_ne hjk, hj]
  · exact ⟨hc, (Kept.refl s).same h, id, fun _ => id, by simpa using h0⟩

end

theorem gc_spec (is : List ℕ) (his : ∀ i ∈ is, i < maxObjs) : ∀ {s : State V}, InCode L h s →
    Ends (Stopped L) (fun _ s' => InCode L h s' ∧ Same h s s' ∧ (s.swap.Synced → s'.swap.Synced) ∧
      (∀ j, (s.udisps h).row j = 0 → (s'.udisps h).row j = 0) ∧ ∀ i ∈ is, (s'.udisps h).row i = 0)
      (gc L h is s) := by
  induction is with
  | nil => exact fun {s} hc => ⟨hc, (Kept.refl s).same h, id, fun _ => id, by simp⟩
  | cons i is ih =>
    intro s hc
    refine (gcRound_spec hc (his i (by simp))).bind ?_
    rintro - s1 ⟨hc1, hs1, hsync1, hzero1, hi1⟩
    refine (ih (forall_mem_cons.mp his).2 hc1).mono ?_
    rintro - s2 ⟨hc2, hs2, hsync2, hzero2, his2⟩
    refine ⟨hc2, hs1.trans hs2, hsync2 ∘ hsync1, fun j hj => hzero2 j (hzero1 j hj), ?_⟩
    intro j hj
    rcases mem_cons.mp hj with rfl | hj
    · exact hzero2 j hi1
    · exact his2 j hj

/-! ### Calls -/

theorem longjmp_spec (hi : Idle L s) (hf : (s.udisps h).noretJmp ≠ none) {rc : Jump} :
    Ends (Stopped L) (fun e s' => Idle L s' ∧ Kept s s' ∧
      ∃ target, e = .jumped target rc ∧ (s.udisps h).noretJmp = some target) (longjmp h rc s) := by
  refine ends_get ?_
  obtain ⟨target, ht⟩ := Option.ne_none_iff_exists'.mp hf
  rw [ht]
  refine ends_modify ⟨⟨⟨⟨hi.clean.returns, fun j hj => ?_, hi.clean.starts⟩, hi.good, hi.active,
    hi.handles, hi.current, hi.jmp⟩, hi.quiet⟩, ⟨rfl, rfl⟩, target, rfl, rfl⟩
  rcases mem_append.mp hj with hj | hj
  · exact hi.clean.jumps j hj
  · obtain rfl := mem_singleton.mp hj
    exact (hi.jmp h).symm.trans ht

/-- How code of `h` that was entered in `s` leaves. -/
def Leaves (L : Library V) (h : ℕ) (s : State V) : Exit → State V → Prop
  | .returned, s' => InCode L h s' ∧ rowCount (s'.udisps h).row = 0
  | .jumped target _, s' => Idle L s' ∧ (s.udisps h).noretJmp = some target

/-- What the dispatched code of `h` keeps to. -/
def CodeSpec (L : Library V) (h : ℕ) (body : M V Exit) : Prop :=
  ∀ s, InCode L h s → Ends (Stopped L) (fun e s' => Same h s s' ∧ Leaves L h s e s') (body s)

def HostSpec (L : Library V) (host : M V Unit) : Prop :=
  ∀ s, Idle L s → Ends (Stopped L) (fun _ s' => Idle L s' ∧ Kept s s') (host s)

theorem Leaves.of_same {e : Exit} (hs : Same h s s') (hl : Leaves L h s' e s'') :
    Leaves L h s e s'' := by
  cases e with
  | returned => exact hl
  | jumped target rc => exact ⟨hl.1, hs.below.noretJmp ▸ hl.2⟩

theorem CodeSpec.after (hb : CodeSpec L h body) (hs : Same h s s') (hc : InCode L h s') :
    Ends (Stopped L) (fun e s'' => Same h s s'' ∧ Leaves L h s e s'') (body s') :=
  (hb s' hc).mono fun _ _ ⟨h1, h2⟩ => ⟨hs.trans h1, h2.of_same hs⟩

theorem resumed_spec (hc : InCode L h s) (hi : Idle L s') (hk : Same h s s') :
    Ends (Stopped L) (fun _ s'' => InCode L h s'' ∧ Idle L s'' ∧ Same h s s'') (resume h s') := by
  have hl : 0 < (s'.udisps h).recurCnt := by
    rw [hk.below.recurCnt]
    exact hc.level
  have hf : (s'.udisps h).noretJmp ≠ none := by
    rw [hk.below.noretJmp]
    exact hc.framed
  refine (resume_spec hi (hi.active h hl)).mono ?_
  rintro - s2 ⟨hi2, hat2, hk2⟩
  exact ⟨⟨hi2.awake hat2, by rwa [hk2.udisps], by rwa [hk2.udisps]⟩, hi2, hk.trans (hk2.same h)⟩

theorem jumped_spec (hc : InCode L h s) (hi : Idle L s') (hk : Same h s s') {rc : Jump} :
    Ends (Stopped L) (fun e s'' => Same h s s'' ∧ Leaves L h s e s'') (longjmp h rc s') := by
  have hf : (s'.udisps h).noretJmp ≠ none := by
    rw [hk.below.noretJmp]
    exact hc.framed
  refine (longjmp_spec hi hf).mono ?_
  rintro _ s2 ⟨hi2, hk2, target, rfl, ht⟩
  exact ⟨hk.trans (hk2.same h), hi2, hk.below.noretJmp ▸ ht⟩

theorem asmCall_spec (hh : HostSpec L host) (hk : CodeSpec L h k)
    {lib : Option ℕ} {abort : Bool} : CodeSpec L h (asmCall L h lib host abort k) := by
  intro s hc
  unfold asmCall
  by_cases ht : L.thunks h lib
  · rw [if_pos ht]
    refine (suspend_spec hc.toAwake).bind ?_
    rintro - s1 ⟨hi1, hk1⟩
    refine (hh s1 hi1).bind ?_
    rintro - s2 ⟨hi2, hk2⟩
    have hs2 := (hk1.trans hk2).same h
    cases abort with
    | true => exact jumped_spec hc hi2 hs2
    | false =>
      refine (resumed_spec hc hi2 hs2).bind ?_
      rintro - s3 ⟨hc3, -, hs3⟩
      exact hk.after hs3 hc3
  · rw [if_neg ht]
    exact hk s hc

theorem asmNoret_spec (hh : HostSpec L host) {lib : Option ℕ} :
    CodeSpec L h (asmNoret L h lib host) := by
  intro s hc
  unfold asmNoret
  split_ifs with ht
  · refine (suspend_spec hc.toAwake).bind ?_
    rintro - s1 ⟨hi1, hk1⟩
    refine (hh s1 hi1).bind ?_
    rintro - s2 ⟨hi2, hk2⟩
    refine (resumed_spec hc hi2 ((hk1.trans hk2).same h)).bind ?_
    rintro - s3 ⟨-, hi3, hs3⟩
    exact jumped_spec hc hi3 hs3
  -- user thunks are missing, so nothing is claimed about the contexts
  have ha : ¬ L.Present := by
    intro hp
    cases lib with
    | none => exact ht rfl
    | some libid => exact ht (hp h libid)
  exact jumped_spec hc ⟨hc.toCore, fun hp => absurd hp ha⟩ ((Kept.refl s).same h)

/-- The state in which `_dj64_call` runs the code: a new activation is the innermost one. -/
def State.enter (s : State V) (h : ℕ) : State V :=
  setUdisp { s with frames := (h, s.next) :: s.frames, next := s.next + 1 } h
    { s.udisps h with noretJmp := some s.next }

theorem innermost_cons_self {h id : ℕ} {frames : List (ℕ × ℕ)} :
    innermost h ((h, id) :: frames) = some id := by
  simp [innermost]

theorem innermost_cons_of_ne (hi : i ≠ h) {id : ℕ} {frames : List (ℕ × ℕ)} :
    innermost i ((h, id) :: frames) = innermost i frames := by
  simp [innermost, find?_cons_of_neg (l := frames) (a := (h, id)) (p := (·.1 = i))
    (by simpa using hi.symm)]

theorem InCode.enter (hi : Idle L s) (ha : s.swap.At h) (hl : 0 < (s.udisps h).recurCnt) :
    InCode L h (s.enter h) := by
  have hs : (s.enter h).udisps h = { s.udisps h with noretJmp := some s.next } := setUdisp_self ..
  have hg := hi.good h
  refine ⟨⟨hi.toCore.update (h := h) ⟨hi.clean.returns, hi.clean.jumps, hi.clean.starts⟩ rfl rfl rfl
    ⟨hg.depth, hg.above, hg.width, hg.count, hg.distinct⟩ (hi.active h) ?_ fun i hih => ?_, ha,
    fun hp => (hi.quiet hp).busy h⟩, by rwa [hs], by rw [hs]; simp⟩
  · exact innermost_cons_self.symm
  · exact (hi.jmp i).trans (innermost_cons_of_ne hih).symm

theorem dj64CallInner_spec (hb : CodeSpec L h body) (hi : Idle L s)
    (ha : s.swap.At h) (hl : 0 < (s.udisps h).recurCnt) :
    Ends (Stopped L) (fun ret s' => InCode L h s' ∧ Same h (s.enter h) s' ∧
      rowCount (s'.udisps h).row = 0 ∧ (ret ≠ .ok → L.Present → s'.swap.Synced))
      (dj64CallInner L h body s) := by
  have hc := InCode.enter hi ha hl
  refine (hb (s.enter h) hc).bind ?_
  rintro (_ | ⟨target, rc⟩) s1 ⟨hs1, hle⟩
  · exact ⟨hle.1, hs1, hle.2, fun hne => absurd rfl hne⟩
  obtain ⟨hi1, ht⟩ := hle
  have hid : target = s.next := by
    rw [enter, setUdisp_self] at ht
    exact (Option.some.inj ht).symm
  refine ends_ensure hid _ ?_
  refine (resumed_spec hc hi1 hs1).bind ?_
  rintro - s2 ⟨hc2, hi2, hs2⟩
  refine (gc_spec (range maxObjs) (fun i => mem_range.mp) hc2).bind ?_
  rintro - s3 ⟨hc3, hs3, hs, -, hz⟩
  refine ⟨hc3, hs2.trans hs3, ?_, fun _ hp => hs (hi2.quiet hp).synced⟩
  exact rowCount_of_zero fun i hi => hz i (mem_range.mpr hi)

/-- The state at the start of `dj64_call`, one level deeper. -/
theorem Idle.deepen (hi : Idle L s) (hl : s.Live h) (hd : (s.udisps h).recurCnt < maxRecur) :
    Idle L (s.setUdisp h { s.udisps h with recurCnt := (s.udisps h).recurCnt + 1 }) :=
  ⟨hi.toCore.update ⟨hi.clean.returns, hi.clean.jumps, hi.clean.starts⟩ rfl rfl rfl
    ((hi.good h).enter hd _) (fun _ => hl) (hi.jmp h) fun i _ => hi.jmp i, hi.quiet⟩

/-- The state before the contexts are left: the activation is gone. -/
theorem InCode.leave (hc : InCode L h s) (hi : Idle L s0)
    (hot : ∀ i, i ≠ h → s.udisps i = s0.udisps i) (hf : s.frames.tail = s0.frames) :
    Awake L h { s.setUdisp h { s.udisps h with noretJmp := (s0.udisps h).noretJmp } with
      frames := s.frames.tail } := by
  have hg := hc.good h
  refine ⟨hc.toCore.update (h := h) ⟨hc.clean.returns, hc.clean.jumps, hc.clean.starts⟩ rfl rfl rfl
    ⟨hg.depth, hg.above, hg.width, hg.count, hg.distinct⟩ (hc.active h) ?_ fun i hih => ?_,
    hc.here, hc.busy⟩
  · exact hf ▸ hi.jmp h
  · exact hot i hih ▸ hf ▸ hi.jmp i

theorem leaveContexts_spec {ret : Ret} (ha : Awake L h s)
    (hs : ret ≠ .ok → L.Present → s.swap.Synced) :
    Ends (Stopped L) (fun _ s' => Idle L s' ∧ Kept s s') (leaveContexts h ret s) := by
  unfold leaveContexts
  split_ifs with hret
  · exact suspend_spec ha
  · refine ⟨⟨ha.toCore.setSwap ?_ fun hp => (ha.busy hp).starts, fun hp => ?_⟩, rfl, rfl⟩
    · exact ha.current
    · exact (ha.busy hp).stop (hs hret hp) ha.here

/-- The end of `dj64_call`: the handle is as it was in `s₀`. -/
theorem Idle.return (hi : Idle L s) (hi0 : Idle L s0) (ret : Ret)
    (hl : s.Live h) (hf : s.frames = s0.frames)
    (hs : { s.udisps h with recurCnt := (s.udisps h).recurCnt - 1 } = s0.udisps h)
    (ho : ∀ i, i ≠ h → s.udisps i = s0.udisps i) :
    let s' := s.setUdisp h { s.udisps h with recurCnt := (s.udisps h).recurCnt - 1 }
    Idle L { s' with returns := s'.returns ++ [⟨h, s0.udisps h, s'.udisps h, ret⟩] } ∧
      Kept s0 { s' with returns := s'.returns ++ [⟨h, s0.udisps h, s'.udisps h, ret⟩] } := by
  intro s'
  have hu : s'.udisps = s0.udisps := by
    funext i
    by_cases hih : i = h
    · subst hih
      exact (setUdisp_self ..).trans hs
    · exact (setUdisp_of_ne _ h _ hih).trans (ho i hih)
  have hg := hi0.good h
  refine ⟨⟨⟨⟨fun r hr => ?_, hi.clean.jumps, hi.clean.starts⟩, fun i => ?_, fun i => ?_, hi.handles,
    hi.current, fun i => ?_⟩, hi.quiet⟩, hu, hf⟩
  · rcases mem_append.mp hr with hr | hr
    · exact hi.clean.returns r hr
    · obtain rfl := mem_singleton.mp hr
      have he : s'.udisps h = s0.udisps h := congrFun hu h
      exact ⟨by rw [he], by rw [he], by rw [he], by rw [he]; exact hg.above,
        by rw [he]; exact hg.count⟩
  · rw [hu]
    exact hi0.good i
  · by_cases hih : i = h
    · subst hih
      exact fun _ => hl
    · rw [show s'.udisps i = s.udisps i from setUdisp_of_ne _ h _ hih]
      exact hi.active i
  · show (s'.udisps i).noretJmp = innermost i s.frames
    rw [hu, hf]
    exact hi0.jmp i

/-- **`dj64_call`** leaves no trace in the state of the handles. -/
theorem dj64Call_spec (hb : CodeSpec L h body) (hi : Idle L s) :
    Ends (Stopped L) (fun _ s' => Idle L s' ∧ Kept s s') (dj64Call L h body s) := by
  refine ends_get (ends_get (ends_assume hi.clean ?_))
  rintro ⟨hl, hd⟩
  refine ends_ensure (hi.handles h hl) _ (ends_get (ends_ensure hd _ (ends_modifyUdisp ?_)))
  refine (resume_spec (hi.deepen hl hd) hl).bind ?_
  rintro - s1 ⟨hi1, hat1, hk1⟩
  have hu1 : s1.udisps h = { s.udisps h with recurCnt := (s.udisps h).recurCnt + 1 } := by
    rw [hk1.udisps, setUdisp_self]
  refine (dj64CallInner_spec hb hi1 hat1 (by rw [hu1]; exact Nat.succ_pos _)).bind ?_
  rintro ret s2 ⟨hc2, hs2, hrow, hs⟩
  have hbe := hs2.below
  rw [enter, setUdisp_self, hu1] at hbe
  obtain ⟨hcnt, heq⟩ := (hi.good h).eq_of_released (hc2.good h) hbe hrow
  have ho : ∀ i, i ≠ h → s2.udisps i = s.udisps i := by
    intro i hih
    rw [hs2.others i hih, enter, setUdisp_of_ne _ h _ hih]
    rw [hk1.udisps, setUdisp_of_ne _ h _ hih]
  have hf : s2.frames.tail = s.frames := by
    rw [hs2.frames]
    exact hk1.frames
  refine ends_get (ends_ensure hcnt _ (ends_modifyUdisp (ends_modify ?_)))
  refine (leaveContexts_spec (hc2.leave hi ho hf) hs).bind ?_
  rintro - s3 ⟨hi3, hk3⟩
  have hu3 : s3.udisps h = { s2.udisps h with noretJmp := (s.udisps h).noretJmp } := by
    rw [hk3.udisps]
    exact setUdisp_self ..
  have hli : s3.Live h := hi3.active h (by rw [hu3]; exact hc2.level)
  refine hi3.return hi ret hli (hk3.frames.trans hf) (by rw [hu3]; exact heq) fun i hih => ?_
  rw [hk3.udisps]
  exact (setUdisp_of_ne _ h _ hih).trans (ho i hih)

/-! ### Programs -/

theorem initFn_spec (hi : Idle L s) {h : ℕ} :
    Ends (Stopped L) (fun _ s' => Idle L s' ∧ Kept s s') (initFn L h s) := by
  refine ends_get (ends_assume hi.clean ?_)
  rintro ⟨hh, hd⟩
  have hc : ∀ t, (s.swap.slots t).c ≠ some h := by
    intro t ht
    have := hi.current t h ht
    rw [State.Live, hd] at this
    cases this
  obtain ⟨w, hw, hcur, hs, hq⟩ := Swap.init_spec s.Live L.init hc
  refine ends_ensure hh _ (ends_trySwap hw _ ?_)
  have hliv : ∀ i, update s.alive h true i ↔ s.Live i ∨ i = h := by
    intro i
    by_cases hih : i = h
    · simp [hih]
    · simp [hih, State.Live]
  refine ⟨⟨⟨⟨hi.clean.returns, hi.clean.jumps, fun hp o ho => ?_⟩, hi.good, fun i h0 =>
    ?_, fun i hli => ?_, fun t i hti => ?_, hi.jmp⟩, fun hp => (hq (hi.quiet hp)).mono fun i =>
    (hliv i).mp⟩, rfl, rfl⟩
  · exact hi.clean.starts hp o (hs ▸ ho)
  · exact (hliv i).mpr (.inl (hi.active i h0))
  · rcases (hliv i).mp hli with hl | rfl
    · exact hi.handles i hl
    · exact hh
  · exact (hliv i).mpr (.inl (hi.current t i ((hcur t).symm.trans hti)))

theorem doneFn_spec (hi : Idle L s) {h : ℕ} :
    Ends (Stopped L) (fun _ s' => Idle L s' ∧ Kept s s') (doneFn h s) := by
  refine ends_get (ends_get (ends_assume hi.clean ?_))
  rintro ⟨hl, h0⟩
  have hliv : ∀ i, update s.alive h false i ↔ s.Live i ∧ i ≠ h := by
    intro i
    by_cases hih : i = h
    · simp [hih]
    · simp [hih, State.Live]
  refine ends_modify (ends_ensure (hi.handles h hl) _ ?_)
  refine ⟨⟨⟨⟨hi.clean.returns, hi.clean.jumps, hi.clean.starts⟩, hi.good, fun i hact =>
    ?_, fun i hli => ?_, fun t i hti => ?_, hi.jmp⟩, fun hp =>
    (hi.quiet hp).deinit.mono fun i hli => ((hliv i).mp hli).1⟩, rfl, rfl⟩
  · refine (hliv i).mpr ⟨hi.active i hact, ?_⟩
    rintro rfl
    exact hact.ne' h0
  · exact hi.handles i ((hliv i).mp hli).1
  · cases hti

mutual

/-- Code of a handle, by induction on what it does. -/
theorem runCode_spec {L : Library V} {h : ℕ} : ∀ code : Code V, CodeSpec L h (runCode L h code)
  | .ret => by
    intro s hc
    rw [runCode]
    refine ends_get (ends_assume hc.clean fun hrow => ?_)
    exact ⟨(Kept.refl s).same h, hc, hrow⟩
  | .noret lib host => by
    rw [runCode]
    exact asmNoret_spec (runHost_spec host)
  | .assign t v val k => by
    intro s hc
    rw [runCode]
    obtain ⟨w, hw, hat, hb⟩ := hc.here.assign s.Live t v val
    refine ends_trySwap hw _ ?_
    refine (runCode_spec k).after (s := s) ⟨fun _ _ => rfl, .refl _, rfl⟩ ?_
    exact ⟨hc.toAwake.setSwap hat fun hp => hb (hc.busy hp), hc.level, hc.framed⟩
  | .objInit isDosPtr fa k => by
    intro s hc
    rw [runCode]
    refine (doObjInit_spec hc).bind ?_
    rintro - s1 ⟨hc1, hs1⟩
    exact (runCode_spec k).after hs1 hc1
  | .objDone isDosPtr fa k => by
    intro s hc
    rw [runCode]
    refine (objDone_spec hc).bind ?_
    rintro - s1 ⟨hc1, hs1⟩
    exact (runCode_spec k).after hs1 hc1
  | .asmCall lib host abort k => by
    rw [runCode]
    exact asmCall_spec (runHost_spec host) (runCode_spec k)

/-- The other side, by induction on what it does. -/
theorem runHost_spec {L : Library V} : ∀ host : Host V, HostSpec L (runHost L host)
  | .nil => by
    intro s hi
    rw [runHost]
    exact ⟨hi, .refl s⟩
  | .call h code rest => by
    intro s hi
    rw [runHost]
    refine (dj64Call_spec (runCode_spec code) hi).bind ?_
    rintro - s1 ⟨hi1, hk1⟩
    exact (runHost_spec rest s1 hi1).mono fun _ _ ⟨h1, h2⟩ => ⟨h1, hk1.trans h2⟩
  | .init h rest => by
    intro s hi
    rw [runHost]
    refine (initFn_spec hi).bind ?_
    rintro - s1 ⟨hi1, hk1⟩
    exact (runHost_spec rest s1 hi1).mono fun _ _ ⟨h1, h2⟩ => ⟨h1, hk1.trans h2⟩
  | .done h rest => by
    intro s hi
    rw [runHost]
    refine (doneFn_spec hi).bind ?_
    rintro - s1 ⟨hi1, hk1⟩
    exact (runHost_spec rest s1 hi1).mono fun _ _ ⟨h1, h2⟩ => ⟨h1, hk1.trans h2⟩

end

theorem idle_boot (L : Library V) (v : V) : Idle L (boot v) := by
  refine ⟨⟨⟨by simp [boot], by simp [boot], by simp [boot]⟩, fun h =>
    ?_, by simp [boot], by simp [boot, State.Live], by simp [boot], fun h => rfl⟩, fun _ =>
    ⟨by simp [Swap.Synced, boot], by simp [boot, State.Live], by simp [boot]⟩⟩
  exact ⟨Nat.zero_le _, fun _ _ _ => rfl, fun _ _ _ => rfl, by simp [boot, liveObjs,
    rowCount], fun _ _ _ _ _ _ h0 => absurd rfl h0⟩

theorem run_clean {L : Library V} {v : V} {run : Host V} :
    (∀ f, failure (runHost L run (boot v)) ≠ some (.fault f)) ∧
      Clean L (final (runHost L run (boot v))) := by
  have hen := runHost_spec run (boot v) (idle_boot L v)
  refine ⟨fun f hf => ?_, hen.final (fun _ _ he => he.2) fun _ _ hq => hq.1.clean⟩
  cases (hen.of_failure hf).1

/-- **Frame balance**: in every run no assertion fails and no `NULL` pointer is used, every return
of `dj64_call` finds the state of its handle as it was at entry, and every `longjmp` goes to the
innermost active call of its handle. -/
theorem calls_balanced (L : Library V) (v : V) (run : Host V) :
    (∀ f, failure (runHost L run (boot v)) ≠ some (.fault f)) ∧
      (∀ r ∈ (final (runHost L run (boot v))).returns, r.Balanced) ∧
      ∀ j ∈ (final (runHost L run (boot v))).jumps, j.innermost = some j.target := by
  obtain ⟨hf, hcl⟩ := run_clean
  exact ⟨hf, hcl.returns, hcl.jumps⟩

/-- **Isolation**: if the user thunks are present, code of a handle that starts or resumes sees the
values that code of this handle saw when it last stopped, and no save hook finds a `NULL`
pointer. -/
theorem contexts_isolated (init : Context → ℕ → Var → V) (malloc32 free32 : ℕ → (Var → V) → Var → V)
    (v : V) (run : Host V) :
    let r := runHost ⟨init, malloc32, free32, fun _ _ => true⟩ run (boot v)
    (∀ f, failure r ≠ some (.fault f)) ∧ ∀ o ∈ (final r).swap.starts, o.seen = o.expected := by
  obtain ⟨hf, hcl⟩ := run_clean
  exact ⟨hf, hcl.starts fun _ _ => rfl⟩

-- two programs, one of which interrupts the other and leaves through `dj64_asm_noret`
example :
    let r := runHost ⟨fun _ h _ => h, fun _ r => r, fun _ r => r, fun _ _ => true⟩
      (.init 0 (.init 1 (.call 0 (.assign .exitState .atexitPtr 7 (.objInit false 64 (.asmCall none
        (.call 1 (.objInit false 80 (.noret none .nil)) .nil) false (.objDone false 64 .ret))))
          .nil)))
      (boot 9)
    failure r = none ∧ (final r).returns.map (fun x => (x.handle, x.ret)) =
      [(1, .noret), (0, .ok)] ∧
      (final r).swap.starts.map (fun o => o.seen .exitState .atexitPtr) =
        [some 0, some 1, some 1, some 1, some 7] := by
  decide +kernel

end Thunks
