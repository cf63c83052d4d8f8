import Dj64.Thunks.Levels

/-!
# The invariant of nested calls

* `Clean`: every return, every `longjmp` and every start of C code so far was as it should be;
* `Idle`, `Awake`, `InCode`: what holds while the other side is running, while the contexts are
  those of a handle, and while its code is running;
* `suspend_spec`, `resume_spec`, …: how the steps of the library move between these.

With user thunks missing, `dj64_asm_noret_u` leaves the code without saving its variables; what is
said about the contents of the contexts is therefore conditional on `Library.Present`.
-/

namespace Thunks

open Outcomes Option Function

variable {V : Type} {L : Library V} {s s' s'' : State V} {h : ℕ}

def Library.Present (L : Library V) : Prop := ∀ h libid, L.pt h libid = true

/-- The call has restored the state of the handle. -/
structure Return.Balanced (r : Return) : Prop where
  recurCnt : r.exit.recurCnt = r.entry.recurCnt
  noretJmp : r.exit.noretJmp = r.entry.noretJmp
  objcnt : r.exit.objcnt = r.entry.objcnt
  above : ∀ i, r.exit.recurCnt ≤ i → ∀ j, r.exit.objs i j = 0
  count : r.exit.objcnt = r.exit.liveObjs

/-- Everything on record is as it should be. -/
structure Clean (L : Library V) (s : State V) : Prop where
  returns : ∀ r ∈ s.returns, r.Balanced
  jumps : ∀ j ∈ s.jumps, j.innermost = some j.target
  starts : L.Present → ∀ o ∈ s.swap.starts, o.seen = o.expected

def Stopped (L : Library V) (e : Stop) (s : State V) : Prop := e = .outside ∧ Clean L s

def State.Live (s : State V) (h : ℕ) : Prop := s.alive h = true

structure Core (L : Library V) (s : State V) : Prop where
  clean : Clean L s
  good : ∀ h, (s.udisps h).Good
  active : ∀ h, 0 < (s.udisps h).recurCnt → s.Live h
  handles : ∀ h, s.Live h → h < maxHandles
  current : ∀ t h, (s.swap.slots t).c = some h → s.Live h
  jmp : ∀ h, (s.udisps h).noretJmp = innermost h s.frames

/-- No C code is running. -/
structure Idle (L : Library V) (s : State V) : Prop extends Core L s where
  quiet : L.Present → s.swap.Quiet s.Live

/-- The contexts are those of `h`. -/
structure Awake (L : Library V) (h : ℕ) (s : State V) : Prop extends Core L s where
  here : s.swap.At h
  busy : L.Present → s.swap.Busy s.Live h

/-- Code of `h` is running. -/
structure InCode (L : Library V) (h : ℕ) (s : State V) : Prop extends Awake L h s where
  level : 0 < (s.udisps h).recurCnt
  framed : (s.udisps h).noretJmp ≠ none

/-- The calls made from `s` have returned. -/
structure Kept (s s' : State V) : Prop where
  udisps : s'.udisps = s.udisps
  frames : s'.frames = s.frames

/-- The calls made by code of `h` have returned; it may have created and released objects. -/
structure Same (h : ℕ) (s s' : State V) : Prop where
  others : ∀ h', h' ≠ h → s'.udisps h' = s.udisps h'
  below : (s.udisps h).SameBelow (s'.udisps h)
  frames : s'.frames = s.frames

theorem Kept.refl (s : State V) : Kept s s := ⟨rfl, rfl⟩

theorem Kept.trans (h1 : Kept s s') (h2 : Kept s' s'') : Kept s s'' :=
  ⟨h2.udisps.trans h1.udisps, h2.frames.trans h1.frames⟩

theorem Kept.same (hk : Kept s s') (h : ℕ) : Same h s s' :=
  ⟨fun h' _ => congrFun hk.udisps h', by rw [hk.udisps]; exact .refl _, hk.frames⟩

theorem Same.trans (h1 : Same h s s') (h2 : Same h s' s'') : Same h s s'' :=
  ⟨fun h' hne => (h2.others h' hne).trans (h1.others h' hne), h1.below.trans h2.below,
    h2.frames.trans h1.frames⟩

/-! ### Changing one part of the state -/

variable {w : Swap V} {u : Udisp}

theorem Core.setSwap (hc : Core L s) (hcur : ∀ t h, (w.slots t).c = some h → s.Live h)
    (hs : L.Present → ∀ o ∈ w.starts, o.seen = o.expected) : Core L (s.setSwap w) :=
  ⟨⟨hc.clean.returns, hc.clean.jumps, hs⟩, hc.good, hc.active, hc.handles, hcur, hc.jmp⟩

theorem Core.live_of_at (hc : Core L s) (ha : s.swap.At h) : s.Live h :=
  hc.current .nmState h (ha .nmState)

theorem Awake.setSwap (ha : Awake L h s) (hw : w.At h)
    (hb : L.Present → w.Busy s.Live h) : Awake L h (s.setSwap w) where
  toCore := ha.toCore.setSwap (fun t i hi => by
      obtain rfl : h = i := some.inj ((hw t).symm.trans hi)
      exact ha.toCore.live_of_at ha.here)
    fun hp => (hb hp).starts
  here := hw
  busy := hb

/-- The state of `h` is replaced, and its frames with it. -/
theorem Core.update (hc : Core L s) (hcl : Clean L s') (hl : s'.alive = s.alive)
    (hw : s'.swap = s.swap) (hu : s'.udisps = update s.udisps h u) (hg : u.Good)
    (ha : 0 < u.recurCnt → s.Live h) (hj : u.noretJmp = innermost h s'.frames)
    (hf : ∀ i, i ≠ h → (s.udisps i).noretJmp = innermost i s'.frames) : Core L s' := by
  have hs : s'.udisps h = u := by rw [hu, update_self]
  have ho : ∀ i, i ≠ h → s'.udisps i = s.udisps i := fun i hi => by rw [hu, update_of_ne hi]
  have hL : s'.Live = s.Live := by
    funext i
    rw [State.Live, hl, State.Live]
  refine ⟨hcl, fun i => ?_, fun i => ?_, ?_, ?_, fun i => ?_⟩
  · by_cases hi : i = h
    · rwa [hi, hs]
    · rw [ho i hi]
      exact hc.good i
  · rw [hL]
    by_cases hi : i = h
    · rwa [hi, hs]
    · rw [ho i hi]
      exact hc.active i
  · rw [hL]
    exact hc.handles
  · rw [hw, hL]
    exact hc.current
  · by_cases hi : i = h
    · rwa [hi, hs]
    · rw [ho i hi]
      exact hf i hi

/-- Code of `h` changes the row of its level. -/
theorem InCode.setUdisp (hc : InCode L h s) (hg : u.Good)
    (hs : (s.udisps h).SameBelow u) : InCode L h (s.setUdisp h u) ∧ Same h s (s.setUdisp h u) := by
  have hcl : Clean L (s.setUdisp h u) := ⟨hc.clean.returns, hc.clean.jumps, hc.clean.starts⟩
  refine ⟨⟨⟨hc.toCore.update hcl rfl rfl rfl hg ?_ ?_ fun i _ => hc.jmp i, hc.here, hc.busy⟩,
    ?_, ?_⟩, ⟨fun i hi => s.setUdisp_of_ne h u hi, ?_, rfl⟩⟩
  · exact hs.recurCnt ▸ hc.active h
  · exact hs.noretJmp.trans (hc.jmp h)
  · simpa [hs.recurCnt] using hc.level
  · simpa [hs.noretJmp] using hc.framed
  · simpa using hs

/-! ### Steps -/

variable {α : Type} {Q : α → State V → Prop} {k : Unit → M V α} {c : Prop}

theorem ends_assume [Decidable c] (hs : Clean L s) (hk : c → Ends (Stopped L) Q (k () s)) :
    Ends (Stopped L) Q ((assume c >>= k) s) := by
  unfold assume
  split_ifs with h
  · exact hk h
  · exact ⟨rfl, hs⟩

theorem ends_ensure [Decidable c] (hc : c) (f : Fault) (hk : Ends (Stopped L) Q (k () s)) :
    Ends (Stopped L) Q ((ensure c f >>= k) s) := by
  unfold ensure
  rw [if_pos hc]
  exact hk

theorem ends_trySwap {g : Swap V → Option (Swap V)} (hw : g s.swap = some w) (e : Fault)
    (hk : Ends (Stopped L) Q (k () (s.setSwap w))) :
    Ends (Stopped L) Q ((trySwap g e >>= k) s) := by
  have hs : trySwap g e s = .ok () (s.setSwap w) := by
    have hget : (get : M V (State V)) s = .ok s s := rfl
    simp only [trySwap, bind, EStateM.bind, hget, hw]
    rfl
  refine Ends.bind (Q := fun _ s' => s' = s.setSwap w) (by rw [hs]; rfl) ?_
  rintro ⟨⟩ _ rfl
  exact hk

theorem ends_modifyUdisp {f : Udisp → Udisp}
    (hk : Ends (Stopped L) Q (k () (s.setUdisp h (f (s.udisps h))))) :
    Ends (Stopped L) Q ((modifyUdisp h f >>= k) s) := hk

theorem suspend_spec (ha : Awake L h s) :
    Ends (Stopped L) (fun _ s' => Idle L s' ∧ Kept s s') (suspend h s) := by
  obtain ⟨w, hw, hat, hb⟩ := ha.here.save s.Live
  refine ends_trySwap hw _ ?_
  refine ⟨⟨ha.toCore.setSwap ?_ ?_, fun hp => ?_⟩, rfl, rfl⟩
  · intro t i hi
    obtain rfl : h = i := some.inj ((hat t).symm.trans hi)
    exact ha.toCore.live_of_at ha.here
  · exact fun hp => (hb (ha.busy hp)).1.starts
  · obtain ⟨h1, h2⟩ := hb (ha.busy hp)
    exact h1.stop h2 hat

theorem resume_spec (hi : Idle L s) (hl : s.Live h) :
    Ends (Stopped L) (fun _ s' => Idle L s' ∧ s'.swap.At h ∧ Kept s s') (resume h s) := by
  have hat : ((s.swap.restore h).start h).At h := s.swap.restore_at h
  have hq : L.Present → ((s.swap.restore h).start h).Quiet s.Live := fun hp =>
    ((hi.quiet hp).restore h).start (s.swap.restore_at h) hl
  refine ⟨⟨hi.toCore.setSwap (fun t i hc => ?_) fun hp => (hq hp).starts, hq⟩, hat, rfl, rfl⟩
  obtain rfl : h = i := some.inj ((hat t).symm.trans hc)
  exact hl

theorem Idle.awake (hi : Idle L s) (ha : s.swap.At h) : Awake L h s :=
  ⟨hi.toCore, ha, fun hp => (hi.quiet hp).busy h⟩

end Thunks
