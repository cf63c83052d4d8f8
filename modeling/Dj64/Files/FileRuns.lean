import Dj64.Files.PosixFile

/-!
# Holes read back as zeros

* `Moved`, `seek_safe`, `write_safe`: the calls keep what they rely on;
* `setFdProperties_opened`: the object that `open` makes;
* `file_simulates`: runs of calls.
-/

namespace DosFile

open Exec Properties Flags Splice Runs Lockstep Function List Nat Int State Properties.State

variable {env : Env} {s t : State} {p : Posix} {o fd n newFd : ℕ} {offset pos length : ℤ}
  {whence : Whence} {data : Bytes}

/-! ### Calls keep the mark -/

/-- The position was moved. -/
structure Moved (o : ℕ) (s t : State) (pos : ℤ) : Prop where
  safe : t.Safe o
  content : t.content = s.content
  handles : t.handles = s.handles
  pos : (t.pos : ℤ) = pos

theorem Sought.moved (h : s.Safe o)
    (hpos : 0 ≤ s.base whence + offset) (hlt : s.base whence + offset < 2 ^ 31)
    (hs : Sought o s t (s.base whence + offset) (0 < offset ∨ whence = .cur ∧ s.Marked o)) :
    Moved o s t (s.base whence + offset) := by
  have ht : (t.pos : ℤ) = s.base whence + offset := by rw [hs.pos, toNat_of_nonneg hpos]
  refine ⟨{ hs.owned with gap := fun hma => ?_, pos_lt := by omega, length_lt := ?_ },
    hs.content, hs.handles, ht⟩
  · -- the offset is not positive, so the position is at most what it was added to
    rw [hs.marked_iff, not_or] at hma
    obtain ⟨ho, hcur⟩ := hma
    have hb : s.base whence ≤ s.content.length := by
      cases whence with
      | set => exact zero_le _
      | cur => exact h.gap fun hm => hcur ⟨rfl, hm⟩
      | fromEnd => exact le_refl _
    rw [hs.content]
    omega
  · rw [hs.content]
    exact h.length_lt

theorem seek_safe (h : s.Safe o) (hfd : fd ∈ s.handles) (offset : ℤ) (whence : Whence)
    (hpos : 0 ≤ s.base whence + offset) (hlt : s.base whence + offset < 2 ^ 31) :
    ∃ t, s.llseek fd offset whence = .ok (s.base whence + offset, t) ∧ Moved o s t
      (s.base whence + offset) := by
  obtain ⟨t, hs, ht⟩ := llseek_ok h.toOwned hfd offset whence hpos hlt
  exact ⟨t, hs, ht.moved h hpos hlt⟩

theorem seek_set (h : s.Safe o) (hfd : fd ∈ s.handles) (hpos : 0 ≤ pos) (hlt : pos < 2 ^ 31) :
    ∃ t, s.llseek fd pos .set = .ok (pos, t) ∧ Moved o s t pos := by
  have hb : (s.base .set : ℤ) + pos = pos := zero_add pos
  have hs := seek_safe h hfd pos .set (by omega) (by omega)
  rwa [hb] at hs

theorem seek_here (h : s.Safe o) (hfd : fd ∈ s.handles) :
    ∃ t, s.llseek fd 0 .cur = .ok ((s.pos : ℤ), t) ∧ Moved o s t s.pos := by
  have hpos := h.pos_lt
  have hb : (s.base .cur : ℤ) + 0 = s.pos := add_zero _
  have hs := seek_safe h hfd 0 .cur (by omega) (by omega)
  rwa [hb] at hs

theorem length_written (content : Bytes) (pos : ℕ) (data : Bytes) :
    pos + data.length ≤ (written content pos data).length ∧
      (written content pos data).length ≤ max content.length (pos + data.length) := by
  have hp : pos ≤ (padded 0 content pos).length := by
    rw [length_padded]
    exact le_max_right ..
  by_cases hd : data = []
  · rw [written, if_pos hd, resize, length_take, hd, length_nil]
    omega
  · rw [written, if_neg hd, overwrite, length_splice hp, length_padded]
    omega

theorem lowWrite_safe (env : Env) (h : s.Safe o) (hfd : fd ∈ s.handles) (data : Bytes)
    (hlt : s.pos + data.length < 2 ^ 31) :
    ∃ t, s.lowWrite env fd data = .ok (data.length, t) ∧ t.Safe o ∧ t.handles = s.handles ∧
      t.content = written s.content s.pos data ∧ t.pos = s.pos + data.length := by
  obtain ⟨t, hw, ho, -, hh, hc, hpos⟩ := lowWrite_ok env h hfd data
  have hl := length_written s.content s.pos data
  rw [← hc, ← hpos] at hl
  have hs := h.length_lt
  exact ⟨t, hw,
    { ho with gap := fun _ => hl.1, pos_lt := by omega, length_lt := by omega }, hh,
    hc, hpos⟩

theorem write_safe (h : s.Safe o) (hfd : fd ∈ s.handles) (hlt : s.pos + data.length < 2 ^ 31) :
    ∃ t, s.write env fd data = .ok (data.length, t) ∧ t.Safe o ∧ t.handles = s.handles ∧
      t.content = (if data = [] then s.content else overwrite s.content s.pos data) ∧
      t.pos = s.pos + data.length := by
  unfold write
  by_cases hd : data = []
  · rw [if_pos hd, hd]
    exact ⟨s, rfl, h, rfl, rfl, rfl⟩
  · obtain ⟨t, hw, ht, hh, hc, hpos⟩ := lowWrite_safe env h hfd data hlt
    rw [if_neg hd, getFdFlags_eq h.toOwned hfd, if_neg h.notDirectory, if_neg fun ha =>
      h.notAppend ha.2, if_neg hd]
    rw [written, if_neg hd] at hc
    exact ⟨t, hw, ht, hh, hc, hpos⟩

/-! ### Simulation -/

/-- The file is that of POSIX, and there is no gap unless the object says so. -/
structure Simulates (o : ℕ) (s : State) (p : Posix) : Prop extends s.Safe o where
  content : s.content = p.content
  pos : s.pos = p.pos
  handles : s.handles = p.fds

section

variable (h : Simulates o s p) {data : Bytes}
include h

theorem Simulates.base (whence : Whence) : s.base whence = p.base whence := by
  cases whence with
  | set => rfl
  | cur => exact h.pos
  | fromEnd => exact congrArg length h.content

theorem Simulates.llseek (hl : p.legal (.llseek fd offset whence)) :
    ∃ t, step env s (.llseek fd offset whence) = .ok t ∧
      Simulates o t (p.step (.llseek fd offset whence)) := by
  obtain ⟨hfd, hpos, hlt⟩ := hl
  rw [← h.handles] at hfd
  rw [← h.base] at hpos hlt
  obtain ⟨t, hs, ht⟩ := seek_safe h.toSafe hfd offset whence hpos hlt
  refine ⟨t, ?_, { ht.safe with
    content := ht.content.trans h.content
    pos := ?_
    handles := ht.handles.trans h.handles }⟩
  · rw [step, hs]
    rfl
  · have htp := ht.pos
    rw [h.base] at htp
    change t.pos = (p.base whence + offset).toNat
    omega

theorem Simulates.write (hl : p.legal (.write fd data)) :
    ∃ t, step env s (.write fd data) = .ok t ∧ Simulates o t (p.step (.write fd data)) := by
  obtain ⟨hfd, hlt⟩ := hl
  rw [← h.handles] at hfd
  rw [← h.pos] at hlt
  obtain ⟨t, hw, ht, hh, hc, hpos⟩ := write_safe h.toSafe hfd hlt
  refine ⟨t, by rw [step, hw]; rfl, ?_⟩
  rw [h.content, h.pos] at hc
  rw [h.pos] at hpos
  unfold Posix.step
  dsimp only
  by_cases hd : data = []
  · rw [if_pos hd] at hc ⊢
    rw [hd] at hpos
    exact { ht with content := hc, pos := hpos, handles := hh.trans h.handles }
  · rw [if_neg hd] at hc ⊢
    exact { ht with content := hc, pos := hpos, handles := hh.trans h.handles }

/-- A call that writes at another position, and moves back. -/
theorem Simulates.elsewhere (hfd : fd ∈ s.handles) (hpos : 0 ≤ pos) (hlt : pos < 2 ^ 31)
    {W : State → Except Fault (ℤ × State)} {C : Bytes → ℕ → Bytes}
    (hW : ∀ v : State, v.Safe o → fd ∈ v.handles → (v.pos : ℤ) = pos → ∃ w, W v = .ok (↑n, w) ∧
      w.Safe o ∧ w.handles = v.handles ∧ w.content = C v.content v.pos ∧ w.pos = v.pos + n) :
    ∃ u v w t, s.llseek fd 0 .cur = .ok ((s.pos : ℤ), u) ∧ u.Safe o ∧
      u.llseek fd pos .set = .ok (pos, v) ∧ W v = .ok (↑n, w) ∧ w.Safe o ∧
      w.llseek fd s.pos .set = .ok ((s.pos : ℤ), t) ∧
      Simulates o t { p with content := C p.content pos.toNat } := by
  have hs := h.pos_lt
  obtain ⟨u, hu, hus⟩ := seek_here h.toSafe hfd
  have hufd : fd ∈ u.handles := by rwa [hus.handles]
  obtain ⟨v, hv, hvs⟩ := seek_set hus.safe hufd hpos hlt
  have hvp := hvs.pos
  obtain ⟨w, hw, hws, hwh, hwc, -⟩ := hW v hvs.safe (by rwa [hvs.handles]) hvp
  have hh : w.handles = s.handles := by rw [hwh, hvs.handles, hus.handles]
  obtain ⟨t, ht, hts⟩ := seek_set hws (by rwa [hh]) (natCast_nonneg s.pos) (by omega)
  refine ⟨u, v, w, t, hu, hus.safe, hv, hw, hws, ht, { hts.safe with
    content := ?_
    pos := (ofNat_inj.mp hts.pos).trans h.pos
    handles := by rw [hts.handles, hh, h.handles] }⟩
  rw [hts.content, hwc, hvs.content, hus.content, h.content, show v.pos = pos.toNat by omega]

theorem Simulates.pwrite (hl : p.legal (.pwrite fd data offset)) :
    ∃ t, step env s (.pwrite fd data offset) = .ok t ∧ Simulates o t
      (p.step (.pwrite fd data offset)) := by
  obtain ⟨hfd, ho, hlt⟩ := hl
  rw [← h.handles] at hfd
  obtain ⟨u, v, w, t, hu, hus, hv, hw, hws, ht, hts⟩ := h.elsewhere hfd ho (by omega)
    (C := fun c pos => if data = [] then c else overwrite c pos data)
    fun v hv hvfd hvp => write_safe hv hvfd (by omega)
  refine ⟨t, ?_, ?_⟩
  · rw [step, State.pwrite, if_pos hfd, if_neg (by rw [h.disk]; decide), hu]
    dsimp only [bind, Except.bind]
    rw [if_neg (by omega), pwriteAt, if_neg (by rw [hus.disk]; decide), hv]
    dsimp only [bind, Except.bind]
    rw [if_neg (by omega), hw]
    dsimp only
    rw [if_neg (by omega), if_neg (by rw [hws.disk]; decide), ht]
    rfl
  · unfold Posix.step
    by_cases hd : data = [] <;> simpa [hd] using hts

/-- `ftruncate` writes nothing at the new end. -/
theorem Simulates.ftruncate (hle : p.legal (.ftruncate fd length)) :
    ∃ t, step env s (.ftruncate fd length) = .ok t ∧ Simulates o t
      (p.step (.ftruncate fd length)) := by
  obtain ⟨hfd, hl, hlt⟩ := hle
  rw [← h.handles] at hfd
  have hs := h.pos_lt
  obtain ⟨u, v, w, t, hu, -, hv, hw, -, ht, hts⟩ := h.elsewhere hfd hl hlt
    (C := fun c pos => written c pos []) fun v hv hvfd hvp =>
      lowWrite_safe env hv hvfd [] (by rw [length_nil]; omega)
  refine ⟨t, ?_, hts⟩
  rw [step, State.ftruncate, getFdFlags_eq h.toOwned hfd, if_neg h.notDirectory,
    lseek_of_llseek hu (by omega)]
  dsimp only [bind, Except.bind]
  rw [if_neg (by omega), lseek_of_llseek hv hlt]
  dsimp only
  rw [if_neg (by omega), hw]
  dsimp only
  rw [lseek_of_llseek ht (by omega)]
  rfl

/-- A duplicate shares the object. -/
theorem Simulates.dup (hl : p.legal (.dup fd newFd)) :
    ∃ t, step env s (.dup fd newFd) = .ok t ∧ Simulates o t (p.step (.dup fd newFd)) := by
  obtain ⟨hfd, -⟩ := hl
  rw [← h.handles] at hfd
  have ho := h.object fd hfd
  obtain ⟨table, hta⟩ : ∃ table, s.props.fdProperties = some table := by
    cases hta : s.props.fdProperties with
    | some table => exact ⟨table, rfl⟩
    | none =>
      rw [Properties.State.fd, hta] at ho
      exact absurd ho.symm h.ne_null
  have htab : table fd = o := by rwa [Properties.State.fd, hta] at ho
  obtain ⟨t, ht⟩ : ∃ t : State, t = { s with
      handles := newFd :: s.handles
      props := { s.props with
        fdProperties := some (update table newFd o)
        mem := s.props.mem.modify o fun p => { p with refCount := p.refCount + 1 } } } := ⟨_, rfl⟩
  have hs : step env s (.dup fd newFd) = .ok t := by
    rw [step, State.dup, if_pos hfd]
    rw [if_pos (by rw [ho]; exact h.ne_null), dupFdProperties, hta]
    dsimp only
    rw [htab, if_pos h.ne_null, ht]
    rfl
  have hf : t.objectFlags o = s.objectFlags o := by
    rw [ht]
    simp [objectFlags, Mem.modify]
  have hm : t.Marked o ↔ s.Marked o := by rw [State.Marked, hf, State.Marked]
  have hc : t.content = s.content := by rw [ht]
  have hpos : t.pos = s.pos := by rw [ht]
  have how : t.Owned o := by
    refine ⟨h.ne_null, fun i hi => ?_, by rw [ht]; exact h.disk, by rw [hf]; exact h.fills,
      by rw [hf]; exact h.notPipe, by rw [hf]; exact h.notDirectory,
      by rw [hf]; exact h.notAppend⟩
    rw [ht] at hi ⊢
    change update table newFd o i = o
    by_cases hnew : i = newFd
    · rw [hnew, update_self]
    · have hi' := h.object i (mem_of_ne_of_mem hnew hi)
      rw [Properties.State.fd, hta] at hi'
      rwa [update_of_ne hnew]
  refine ⟨t, hs, { how with
    gap := ?_, pos_lt := ?_, length_lt := ?_, content := ?_, pos := ?_, handles := ?_ }⟩
  · rw [hm, hpos, hc]
    exact h.gap
  · rw [hpos]
    exact h.pos_lt
  · rw [hc]
    exact h.length_lt
  · exact hc.trans h.content
  · exact hpos.trans h.pos
  · rw [ht]
    exact congrArg (newFd :: ·) h.handles

end

/-- **Every call does what it does in POSIX.** -/
theorem step_simulates (env : Env) (s : State) (p : Posix) (op : Op) (h : Simulates o s p)
    (hl : p.legal op) : ∃ t, step env s op = .ok t ∧ Simulates o t (p.step op) := by
  cases op with
  | llseek fd offset whence => exact h.llseek hl
  | write fd data => exact h.write hl
  | pwrite fd data offset => exact h.pwrite hl
  | ftruncate fd length => exact h.ftruncate hl
  | dup fd newFd => exact h.dup hl

/-! ### Opened files -/

variable {props₀ props : Properties.State} {name : Option Bytes} {oflag : UInt32} {result : ℤ}
  {b : UInt64} {content : Bytes}

theorem openFd_flags (ha : oflag &&& oAppend = 0) {q : FdProperties}
    (hb : fileDescTemporary &&& b = 0) : ¬ has (openFd oflag q).flags b := by
  unfold openFd
  dsimp only
  rw [if_neg (not_not_intro ha)]
  split_ifs
  · rw [has_set_other hb, has, UInt64.zero_and]
    exact not_not_intro rfl
  · rw [has, UInt64.zero_and]
    exact not_not_intro rfl

theorem allocFdProperties_ne_null {s : Properties.State} : (allocFdProperties s true).2 ≠ 0 := by
  unfold allocFdProperties
  by_cases hc : s.cachedFds = 0
  · rw [if_pos hc]
    exact succ_ne_zero _
  · rw [if_neg hc]
    exact hc

/-- **A descriptor that was opened has an object**, with the flags of `open_fd`. -/
theorem setFdProperties_opened (h : setFdProperties props₀ fd name oflag (true, true) =
      .ok (props, result)) :
    props.fd fd ≠ 0 ∧ ∃ q, props.mem (props.fd fd) = openFd oflag q := by
  unfold setFdProperties at h
  dsimp only at h
  cases ht : (props₀.init true).fdProperties with
  | none =>
    rw [ht] at h
    by_cases hf : props₀.oldBssCount ≠ props₀.bssCount
    · rw [init, if_pos hf] at ht
      cases ht
    · rw [if_neg hf] at h
      cases h
  | some table =>
    rw [ht] at h
    dsimp only at h
    by_cases hn : table fd = 0
    · rw [if_pos hn, if_neg allocFdProperties_ne_null] at h
      injection h with h
      injection h with h
      have hfd : props.fd fd = (allocFdProperties (props₀.init true) true).2 := by
        rw [← h]
        exact update_self ..
      rw [hfd, ← h]
      exact ⟨allocFdProperties_ne_null, _, update_self ..⟩
    · rw [if_neg hn] at h
      injection h with h
      injection h with h
      rw [← h]
      exact ⟨hn, _, update_self ..⟩

/-- The disk file when `open` has returned. -/
def State.opened (props : Properties.State) (fd : ℕ) (content : Bytes) (tb : ℕ → UInt8)
    (writes : ℕ) : State :=
  { props := props, handles := [fd], device := false, content := content, pos := 0, tb := tb,
    writes := writes }

def Posix.opened (fd : ℕ) (content : Bytes) : Posix := { content := content, pos := 0, fds := [fd] }

theorem simulates_opened (h : setFdProperties props₀ fd name oflag (true, true) =
      .ok (props, result))
    (ha : oflag &&& oAppend = 0) (hc : content.length < 2 ^ 31) (tb : ℕ → UInt8) (writes : ℕ) :
    Simulates (props.fd fd) (opened props fd content tb writes)
    (Posix.opened fd content) := by
  obtain ⟨hne, q, hq⟩ := setFdProperties_opened h
  have hf {b : UInt64} (hb : fileDescTemporary &&& b = 0) :
      ¬ has ((opened props fd content tb writes).objectFlags (props.fd fd)) b := by
    unfold objectFlags opened
    rw [hq]
    exact openFd_flags ha hb
  refine
    { ne_null := hne
      object := ?_
      disk := rfl
      fills := hf (by decide)
      notPipe := hf (by decide)
      notDirectory := hf (by decide)
      notAppend := hf (by decide)
      gap := fun _ => zero_le _
      pos_lt := Nat.two_pow_pos 31
      length_lt := hc
      content := rfl
      pos := rfl
      handles := rfl }
  intro i hi
  rw [mem_singleton.mp hi]
  rfl

/-- **Holes read back as zeros**: after every run of calls on a descriptor that was opened, and on
its duplicates, the content and the position are those of a file in POSIX. -/
theorem file_simulates (env : Env)
    (hopen : setFdProperties props₀ fd name oflag (true, true) = .ok (props, result))
    (happend : oflag &&& oAppend = 0) {content : Bytes} (hcontent : content.length < 2 ^ 31)
    (tb : ℕ → UInt8) (writes : ℕ) {ops : List Op}
    (hlegal : Legal Posix.legal Posix.step (Posix.opened fd content) ops) :
    ∃ s, run (step env) (opened props fd content tb writes) ops = .ok s ∧
      s.content = (ops.foldl Posix.step (Posix.opened fd content)).content ∧
      s.pos = (ops.foldl Posix.step (Posix.opened fd content)).pos := by
  obtain ⟨s, hrun, hs⟩ := run_simulates (step_simulates env)
    (simulates_opened hopen happend hcontent tb writes) hlegal
  exact ⟨s, hrun, hs.content, hs.pos⟩

/-- A transfer buffer of three bytes, and gaps that are not of zeros. -/
def smallBuffer : Env :=
  { tbSize := 3, junk := fun _ _ => 7, info := fun _ => 9, tbSize_pos := by decide,
    tbSize_lt := by decide }

/-- A gap that is left by a seek, one that `pwrite` leaves and one that is cut off. -/
def leaveGaps : List Op :=
  [.llseek 5 6 .set, .dup 5 6, .write 6 [1, 2], .pwrite 5 [3] 12, .llseek 6 (-1) .fromEnd,
    .ftruncate 5 9, .write 5 [4]]

theorem legal_leaveGaps : Legal Posix.legal Posix.step (Posix.opened 5 [8]) leaveGaps := by
  simp [Lockstep.Legal, leaveGaps, Posix.legal, Posix.step, Posix.opened, Posix.base, overwrite,
    splice, padded]

/-- The properties after the first `open` of a program. -/
def firstOpen : Except Fault (Properties.State × ℤ) :=
  setFdProperties (start 1) 5 (some [97]) 0 (true, true)

theorem file_simulates_gaps : ∃ props, firstOpen = .ok (props, 0) ∧
      ∃ s, run (step smallBuffer) (opened props 5 [8] (fun _ => 0) 0) leaveGaps = .ok s ∧
        s.content = [8, 0, 0, 0, 0, 0, 1, 2, 0, 0, 0, 0, 4] ∧ s.pos = 13 := by
  have ho : firstOpen = .ok (_, 0) := rfl
  exact ⟨_, ho, file_simulates smallBuffer ho (by decide) (by decide) _ 0 legal_leaveGaps⟩

end DosFile
