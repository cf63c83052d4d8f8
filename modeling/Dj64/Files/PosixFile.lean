import Dj64.Files.DosFile
import Dj64.Lib.Lockstep
import Dj64.Lib.Splice

/-!
# Gaps are filled with zeros

* `Posix`: a file whose gaps are filled with zeros, and its position;
* `State.Safe`: there is no gap unless the object says so;
* `llseek_ok`, `writeInt_ok`, `lowWrite_ok`: what the functions do with such a file.
-/

namespace DosFile

open Exec Properties Flags Splice Runs List Nat State

/-! ### Files in POSIX -/

/-- Data at an offset, after zeros where there is a gap. -/
def overwrite (content : Bytes) (offset : ℕ) (data : Bytes) : Bytes :=
  splice (padded 0 content offset) offset data

/-- The file cut off or filled up with zeros. -/
def resize (content : Bytes) (size : ℕ) : Bytes := (padded 0 content size).take size

/-- A file with a position, and the descriptors for it. -/
structure Posix where
  content : Bytes
  pos : ℕ
  fds : List ℕ

/-- What an offset is added to. -/
def Posix.base (p : Posix) : Whence → ℕ
  | .set => 0
  | .cur => p.pos
  | .fromEnd => p.content.length

/-- What the calls do. -/
def Posix.step (p : Posix) : Op → Posix
  | .llseek _ offset whence => { p with pos := (p.base whence + offset).toNat }
  | .write _ data =>
    if data = [] then p
    else { p with content := overwrite p.content p.pos data, pos := p.pos + data.length }
  | .pwrite _ data offset =>
    if data = [] then p else { p with content := overwrite p.content offset.toNat data }
  | .ftruncate _ length => { p with content := resize p.content length.toNat }
  | .dup _ newFd => { p with fds := newFd :: p.fds }

/-- The call is on a descriptor for the file, and all positions and sizes are less than `2 ^ 31`. -/
def Posix.legal (p : Posix) : Op → Prop
  | .llseek fd offset whence =>
    fd ∈ p.fds ∧ 0 ≤ p.base whence + offset ∧ p.base whence + offset < 2 ^ 31
  | .write fd data => fd ∈ p.fds ∧ p.pos + data.length < 2 ^ 31
  | .pwrite fd data offset => fd ∈ p.fds ∧ 0 ≤ offset ∧ offset + data.length < 2 ^ 31
  | .ftruncate fd length => fd ∈ p.fds ∧ 0 ≤ length ∧ length < 2 ^ 31
  | .dup fd newFd => fd ∈ p.fds ∧ newFd ∉ p.fds

/-! ### The object of the open file -/

variable {env : Env} {s t : State} {o fd : ℕ}

def State.objectFlags (s : State) (o : ℕ) : UInt64 := (s.props.mem o).flags

/-- The descriptors of the open file share the object `o`, which is that of a disk file. -/
structure State.Owned (o : ℕ) (s : State) : Prop where
  ne_null : o ≠ 0
  object : ∀ fd ∈ s.handles, s.props.fd fd = o
  disk : s.device = false
  fills : ¬ has (s.objectFlags o) dontFillEofGap
  notPipe : ¬ has (s.objectFlags o) fileDescPipe
  notDirectory : ¬ has (s.objectFlags o) fileDescDirectory
  notAppend : ¬ has (s.objectFlags o) fileDescAppend

def State.Marked (o : ℕ) (s : State) : Prop := has (s.objectFlags o) zeroFillEofGap

section

variable (h : s.Owned o)
include h

section

variable (hfd : fd ∈ s.handles)
include hfd

theorem getFdFlags_eq : s.getFdFlags fd = s.objectFlags o := by
  rw [getFdFlags, h.object fd hfd, if_pos h.ne_null]
  rfl

theorem objectFlags_modifyFlags {f : UInt64 → UInt64} :
    (s.modifyFlags fd f).objectFlags o = f (s.objectFlags o) := by
  unfold modifyFlags objectFlags
  rw [h.object fd hfd]
  simp [Mem.modify]

theorem setFdFlags_owned :
    (s.setFdFlags fd zeroFillEofGap).Owned o ∧ (s.setFdFlags fd zeroFillEofGap).Marked o := by
  have hf : (s.setFdFlags fd zeroFillEofGap).objectFlags o = s.objectFlags o ||| zeroFillEofGap :=
    objectFlags_modifyFlags h hfd
  have ho (b : UInt64) (hb : zeroFillEofGap &&& b = 0) (hno : ¬ has (s.objectFlags o) b) :
      ¬ has ((s.setFdFlags fd zeroFillEofGap).objectFlags o) b := by
    rw [hf, has_set_other hb]
    exact hno
  constructor
  · exact ⟨h.ne_null, h.object, h.disk, ho _ (by decide) h.fills,
      ho _ (by decide) h.notPipe, ho _ (by decide) h.notDirectory,
      ho _ (by decide) h.notAppend⟩
  · rw [State.Marked, hf]
    exact has_set_self (by decide)

theorem clearFdFlags_owned :
    (s.clearFdFlags fd zeroFillEofGap).Owned o ∧ ¬ (s.clearFdFlags fd zeroFillEofGap).Marked o := by
  have hf : (s.clearFdFlags fd zeroFillEofGap).objectFlags o =
    s.objectFlags o &&& ~~~zeroFillEofGap :=
    objectFlags_modifyFlags h hfd
  have ho (b : UInt64) (hb : ~~~zeroFillEofGap &&& b = b) (hno : ¬ has (s.objectFlags o) b) :
      ¬ has ((s.clearFdFlags fd zeroFillEofGap).objectFlags o) b := by
    rw [hf, has_clear_other hb]
    exact hno
  constructor
  · exact ⟨h.ne_null, h.object, h.disk, ho _ (by decide) h.fills,
      ho _ (by decide) h.notPipe, ho _ (by decide) h.notDirectory,
      ho _ (by decide) h.notAppend⟩
  · rw [State.Marked, hf]
    exact has_clear_self (by decide)

end

theorem State.Owned.of_eq (hp : t.props = s.props)
    (hh : t.handles = s.handles) (hd : t.device = s.device) : t.Owned o := by
  have hf : t.objectFlags o = s.objectFlags o := by rw [objectFlags, hp, objectFlags]
  refine ⟨h.ne_null, ?_, hd.trans h.disk, ?_, ?_, ?_, ?_⟩
  · rw [hh, hp]
    exact h.object
  · rw [hf]
    exact h.fills
  · rw [hf]
    exact h.notPipe
  · rw [hf]
    exact h.notDirectory
  · rw [hf]
    exact h.notAppend

/-! ### `llseek` -/

/-- What a seek leaves. -/
structure Sought (o : ℕ) (s t : State) (pos : ℤ) (marked : Prop) : Prop where
  owned : t.Owned o
  content : t.content = s.content
  handles : t.handles = s.handles
  pos : t.pos = pos.toNat
  marked_iff : t.Marked o ↔ marked

/-- A seek to a position that fits marks the object if the offset is positive, and clears the mark
if it is not, unless it is relative to the position. -/
theorem llseek_ok (hfd : fd ∈ s.handles) (offset : ℤ) (whence : Whence)
    (hpos : 0 ≤ s.base whence + offset) (hlt : s.base whence + offset < 2 ^ 31) :
    ∃ t, s.llseek fd offset whence = .ok (s.base whence + offset, t) ∧
      Sought o s t (s.base whence + offset) (0 < offset ∨ whence = .cur ∧ s.Marked o) := by
  have hmod : (s.base whence + offset) % 2 ^ 32 = s.base whence + offset :=
    Int.emod_eq_of_lt hpos (hlt.trans (by decide))
  obtain ⟨u, hu⟩ : ∃ u : State, u = { s with pos := (s.base whence + offset).toNat } := ⟨_, rfl⟩
  have huo : u.Owned o := h.of_eq (by rw [hu]) (by rw [hu]) (by rw [hu])
  have hufd : fd ∈ u.handles := by
    rw [hu]
    exact hfd
  have hum : u.Marked o ↔ s.Marked o := by rw [hu]; rfl
  have hup : (u.pos : ℤ) = s.base whence + offset := by
    rw [hu]
    exact Int.toNat_of_nonneg hpos
  have hs : s.dosSeek fd offset whence = some u := by rw [dosSeek, if_pos hfd, hmod, hu]
  unfold llseek
  rw [getFdFlags_eq h hfd, if_neg h.notDirectory, if_neg h.notPipe, hs]
  dsimp only
  rw [← hup]
  have hr {t : State} {marked : Prop} (ht : t.Owned o) (hco : t.content = u.content)
      (hh : t.handles = u.handles) (hpos : t.pos = u.pos) (hm : t.Marked o ↔ marked) :
      Sought o s t u.pos marked := by
    refine ⟨ht, ?_, ?_, hpos, hm⟩
    · rw [hco, hu]
    · rw [hh, hu]
  unfold noteSeek
  rw [if_pos (.inr (by rw [getFdFlags_eq huo hufd]; exact huo.fills))]
  by_cases ho : offset > 0
  · rw [if_pos ho, markGap, if_neg (by rw [huo.object fd hufd]; exact huo.ne_null)]
    obtain ⟨how, hm⟩ := setFdFlags_owned huo hufd
    exact ⟨_, rfl, hr how rfl rfl rfl (iff_of_true hm (.inl ho))⟩
  rw [if_neg ho]
  by_cases hcl : whence = .set ∨ whence = .fromEnd
  · rw [if_pos ⟨by rw [huo.object fd hufd]; exact huo.ne_null, hcl⟩]
    obtain ⟨how, hm⟩ := clearFdFlags_owned huo hufd
    refine ⟨_, rfl, hr how rfl rfl rfl (iff_of_false hm ?_)⟩
    rintro (h | ⟨h, -⟩)
    · exact ho h
    · rcases hcl with hc | hc <;> rw [hc] at h <;> cases h
  rw [if_neg fun h => hcl h.2]
  have hcur : whence = .cur := by
    cases whence with
    | set => exact absurd (.inl rfl) hcl
    | cur => rfl
    | fromEnd => exact absurd (.inr rfl) hcl
  refine ⟨u, rfl, hr huo rfl rfl rfl ?_⟩
  rw [hum]
  exact ⟨fun h => .inr ⟨hcur, h⟩, fun h => (h.resolve_left ho).2⟩

end

theorem lseek_of_llseek {offset result : ℤ} {whence : Whence}
    (h : s.llseek fd offset whence = .ok (result, t)) (hlt : result < 2 ^ 31) :
    s.lseek fd offset whence = .ok (result, t) := by
  unfold lseek
  rw [h]
  dsimp only [bind, Except.bind]
  rw [if_neg (not_le.mpr hlt)]

/-! ### `_write_int` -/

/-- The data is in the buffer, or it is zeros and the transfer buffer has them. -/
def Supplies (s : State) (bufSize : ℕ) (data : Bytes) : Option Bytes → Prop
  | some buffer => buffer = data
  | none => data = replicate data.length 0 ∧ ∀ i < bufSize, s.tb i = 0

variable {bufSize chunk fuel cur : ℕ} {data : Bytes} {buffer : Option Bytes}

/-- The first bytes of the transfer buffer are those that are to be written. -/
theorem Supplies.bytes (h : Supplies s bufSize data buffer) (hd : chunk ≤ data.length)
    (hbuf : chunk ≤ bufSize) : (s.load buffer chunk).tbBytes chunk = data.take chunk := by
  unfold tbBytes
  cases buffer with
  | some buffer =>
    rw [show buffer = data from h]
    apply ext_getElem
    · simp [hd]
    · intro i hi hi'
      have hlt : i < chunk := by simpa using hi
      simp [load, hlt, getElem_take, show i < data.length by omega]
  | none =>
    obtain ⟨hz, htb⟩ := h
    rw [hz, take_replicate, min_eq_left (by simpa using hd)]
    apply ext_getElem
    · simp
    · intro i hi hi'
      have hlt : i < chunk := by simpa using hi
      simp [load, htb i (by omega)]

theorem Supplies.next (h : Supplies s bufSize data buffer) (htb : buffer = none → t.tb = s.tb) :
    Supplies t bufSize (data.drop chunk) (buffer.map (·.drop chunk)) := by
  cases buffer with
  | some buffer => exact congrArg (drop chunk) h
  | none =>
    obtain ⟨hz, hze⟩ := h
    refine ⟨?_, fun i hi => ?_⟩
    · rw [length_drop]
      conv_lhs => rw [hz]
      rw [drop_replicate]
    · rw [htb rfl]
      exact hze i hi

/-- The data was written at the position, which moved on. -/
structure Wrote (s t : State) (data : Bytes) : Prop where
  props : t.props = s.props
  handles : t.handles = s.handles
  device : t.device = s.device
  content : t.content = splice s.content s.pos data
  pos : t.pos = s.pos + data.length

theorem dosWrite_ok (env : Env) (hfd : fd ∈ s.handles)
    (hpos : s.pos ≤ s.content.length) (count : ℕ) :
    s.dosWrite env fd count = some { s with
      content := if count = 0 then s.content.take s.pos else splice s.content s.pos
        (s.tbBytes count)
      pos := s.pos + count
      writes := s.writes + 1 } := by
  have hn : s.extended env = s.content := by
    rw [extended, Nat.sub_eq_zero_of_le hpos, range_zero, map_nil, append_nil]
  have hl : (s.tbBytes count).length = count := by rw [tbBytes, length_map, length_range]
  rw [dosWrite, if_pos hfd, hn, splice, hl]

theorem load_eq (s : State) (buffer : Option Bytes) (count : ℕ) :
    (s.load buffer count).props = s.props ∧ (s.load buffer count).handles = s.handles ∧
      (s.load buffer count).device = s.device ∧ (s.load buffer count).content = s.content ∧
      (s.load buffer count).pos = s.pos ∧ (buffer = none → (s.load buffer count).tb = s.tb) := by
  cases buffer with
  | some data => exact ⟨rfl, rfl, rfl, rfl, rfl, nofun⟩
  | none => exact ⟨rfl, rfl, rfl, rfl, rfl, fun _ => rfl⟩

/-- The loop writes the data, chunk by chunk. -/
theorem writeLoop_ok (env : Env) (total : ℕ) (hfd : fd ∈ s.handles)
    (hpos : s.pos ≤ s.content.length) (hbuf : 0 < bufSize) (hd : data ≠ [])
    (h : Supplies s bufSize data buffer) (hf : data.length < fuel) :
    ∃ t, writeLoop env fd bufSize fuel buffer data.length total s = .ok
      ((total + data.length : ℕ), t) ∧
      Wrote s t data := by
  induction fuel generalizing s data buffer total with
  | zero => omega
  | succ fuel ih =>
    have hle := length_pos_of_ne_nil hd
    obtain ⟨chunk, hch⟩ : ∃ n, n = if data.length ≤ bufSize then data.length else bufSize :=
      ⟨_, rfl⟩
    have hb : 0 < chunk ∧ chunk ≤ data.length ∧ chunk ≤ bufSize := by
      rw [hch]
      split_ifs <;> omega
    obtain ⟨hcp, hc, hcb⟩ := hb
    obtain ⟨hlp, hlh, hld, hlc, hlpo, hltb⟩ := load_eq s buffer chunk
    have hw := dosWrite_ok env (s := s.load buffer chunk) (by rwa [hlh]) (by rwa [hlc, hlpo]) chunk
    rw [if_neg hcp.ne', h.bytes hc hcb, hlc, hlpo] at hw
    rw [writeLoop, ← hch, hw]
    dsimp only
    have hta : (data.take chunk).length = chunk := by rw [length_take, min_eq_left hc]
    by_cases hm : data.length - chunk ≠ 0
    · rw [if_pos hm]
      obtain ⟨u, hu⟩ : ∃ u : State, u = { s.load buffer chunk with
          content := splice s.content s.pos (data.take chunk)
          pos := s.pos + chunk
          writes := (s.load buffer chunk).writes + 1 } := ⟨_, rfl⟩
      have hr : data.drop chunk ≠ [] := by
        intro hnil
        have := congrArg length hnil
        rw [length_drop, length_nil] at this
        omega
      have hco : u.content = splice s.content s.pos (data.take chunk) := by rw [hu]
      have hup : u.pos = s.pos + chunk := by rw [hu]
      have hlen : u.pos ≤ u.content.length := by
        rw [hco, hup, length_splice hpos, hta]
        exact le_max_right ..
      have hs : Supplies u bufSize (data.drop chunk) (buffer.map (·.drop chunk)) :=
        h.next fun hn => by rw [hu]; exact hltb hn
      obtain ⟨t, hl, ht⟩ := ih (s := u) (total + chunk) (by rw [hu]; rwa [hlh]) hlen
        hr hs
        (by rw [length_drop]; omega)
      rw [length_drop, add_assoc, add_sub_of_le hc] at hl
      refine ⟨t, by rw [← hu]; exact hl, ?_⟩
      refine ⟨ht.props.trans ?_, ht.handles.trans ?_, ht.device.trans ?_, ?_, ?_⟩
      · rw [hu, hlp]
      · rw [hu, hlh]
      · rw [hu, hld]
      · have ha := splice_append hpos (data.take chunk) (data.drop chunk)
        rw [hta, take_append_drop] at ha
        rw [ht.content, hco, hup, ha]
      · rw [ht.pos, length_drop]
        omega
    · rw [if_neg hm]
      have hall : data.take chunk = data := take_of_length_le (by omega)
      have heq : chunk = data.length := by omega
      rw [heq] at hlp hlh hld
      rw [hall, heq]
      exact ⟨_, rfl, hlp, hlh, hld, rfl, rfl⟩

theorem writeInt_ok (env : Env) (hfd : fd ∈ s.handles) (hpos : s.pos ≤ s.content.length)
    (hd : data ≠ [])
    (h : Supplies s (if data.length ≤ env.tbSize then data.length else env.tbSize) data buffer) :
    ∃ t, s.writeInt env fd buffer data.length = .ok (data.length, t) ∧ Wrote s t data := by
  have hle := length_pos_of_ne_nil hd
  have htb := env.tbSize_pos
  have hbuf : 0 < if data.length ≤ env.tbSize then data.length else env.tbSize := by
    split_ifs <;> omega
  obtain ⟨t, hl, ht⟩ := writeLoop_ok env 0 hfd hpos hbuf hd h (lt_succ_self data.length)
  rw [zero_add] at hl
  exact ⟨t, hl, ht⟩

theorem writeInt_nil (hfd : fd ∈ s.handles) (hpos : s.pos ≤ s.content.length) :
    ∃ t, s.writeInt env fd (some []) 0 = .ok (0, t) ∧ t.props = s.props ∧ t.handles = s.handles ∧
      t.device = s.device ∧ t.content = s.content.take s.pos ∧ t.pos = s.pos := by
  unfold writeInt
  rw [writeLoop, if_pos (zero_le _), dosWrite_ok env (s := s.load (some []) 0) hfd hpos]
  exact ⟨_, rfl, rfl, rfl, rfl, rfl, rfl⟩

/-! ### `_write` -/

/-- A position that may be beyond the end only if the object says so. -/
structure State.Safe (o : ℕ) (s : State) : Prop extends s.Owned o where
  gap : ¬ s.Marked o → s.pos ≤ s.content.length
  pos_lt : s.pos < 2 ^ 31
  length_lt : s.content.length < 2 ^ 31

/-- The gap is filled with zeros. -/
theorem fillGap_ok (h : s.Owned o) (hfd : fd ∈ s.handles)
    (hl : s.content.length < 2 ^ 31) (hgap : s.content.length < cur) :
    ∃ (n : ℕ) (t : State), s.fillGap env fd s.content.length cur = .ok (n, t) ∧ t.Owned o ∧
      ¬ t.Marked o ∧
      t.handles = s.handles ∧ t.content = padded 0 s.content cur ∧ t.pos = cur := by
  obtain ⟨u, hse, hu⟩ := llseek_ok h hfd s.content.length .set
    (by simp [base]) (by simpa [base] using hl)
  have hufd : fd ∈ u.handles := by rwa [hu.handles]
  obtain ⟨hvo, hvm⟩ := clearFdFlags_owned hu.owned hufd
  obtain ⟨v, hv⟩ : ∃ v, v = u.clearFdFlags fd zeroFillEofGap := ⟨_, rfl⟩
  rw [← hv] at hvo hvm
  have hvc : v.content = s.content := by rw [hv]; exact hu.content
  have hvp : v.pos = s.content.length := by
    rw [hv]
    exact hu.pos.trans (by simp [base])
  have hvh : v.handles = s.handles := by rw [hv]; exact hu.handles
  obtain ⟨fill, hf⟩ : ∃ n, n = cur - s.content.length := ⟨_, rfl⟩
  have hc : ((cur : ℤ) - s.content.length).toNat = fill := by omega
  have hz : (replicate fill (0 : UInt8)).length = fill := length_replicate
  obtain ⟨bufSize, hb⟩ : ∃ n, n = if fill > env.tbSize then env.tbSize else fill := ⟨_, rfl⟩
  have hsa : bufSize = if fill ≤ env.tbSize then fill else env.tbSize := by
    rw [hb]
    split_ifs <;> omega
  have hs : Supplies (v.zeroTb bufSize)
      (if (replicate fill (0 : UInt8)).length ≤ env.tbSize then
        (replicate fill (0 : UInt8)).length
        else env.tbSize) (replicate fill 0) none := by
    refine ⟨by rw [hz], fun i hi => ?_⟩
    rw [hz] at hi
    exact if_pos (by omega)
  have hne : replicate fill (0 : UInt8) ≠ [] := by
    rw [ne_eq, replicate_eq_nil_iff]
    omega
  obtain ⟨t, hw, ht⟩ := writeInt_ok env (s := v.zeroTb bufSize) (show fd ∈ v.handles by rwa [hvh])
    (show v.pos ≤ v.content.length by rw [hvp, hvc]) hne hs
  rw [hz] at hw
  refine ⟨fill, t, ?_, hvo.of_eq ht.props ht.handles ht.device, ?_, ht.handles.trans hvh, ?_, ?_⟩
  · unfold fillGap
    rw [hse]
    dsimp only [bind, Except.bind]
    rw [← hv, hc, ← hb]
    exact hw
  · rw [State.Marked, objectFlags, ht.props]
    exact hvm
  · rw [ht.content]
    change splice v.content v.pos _ = _
    rw [hvp, hvc, splice_length, padded, hf]
  · rw [ht.pos]
    change v.pos + _ = _
    omega

/-- `_write_fill_seek_gap` leaves a file without a gap. -/
theorem writeFillSeekGap_ok (h : s.Safe o) (hfd : fd ∈ s.handles) :
    ∃ (n : ℕ) (t : State), s.writeFillSeekGap env fd = .ok (n, t) ∧ t.Owned o ∧ ¬ t.Marked o ∧
      t.handles = s.handles ∧ t.content = padded 0 s.content s.pos ∧ t.pos = s.pos := by
  obtain ⟨huo, hum⟩ := clearFdFlags_owned h.toOwned hfd
  obtain ⟨u, hu⟩ : ∃ u, u = s.clearFdFlags fd zeroFillEofGap := ⟨_, rfl⟩
  rw [← hu] at huo hum
  have hufd : fd ∈ u.handles := by rw [hu]; exact hfd
  obtain ⟨v, hv⟩ : ∃ v : State, v = { u with tb := env.info } := ⟨_, rfl⟩
  have hvo : v.Owned o := huo.of_eq (by rw [hv]) (by rw [hv]) (by rw [hv])
  have hvm : ¬ v.Marked o := by rw [hv]; exact hum
  have hvfd : fd ∈ v.handles := by rw [hv]; exact hufd
  have hvp : v.pos = s.pos := by rw [hv, hu]; rfl
  have hvc : v.content = s.content := by rw [hv, hu]; rfl
  have hvh : v.handles = s.handles := by rw [hv, hu]; rfl
  have hpos := h.pos_lt
  have hl := h.length_lt
  have hb : (v.base .cur : ℤ) + 0 = s.pos := by rw [base, hvp, Int.add_zero]
  obtain ⟨w, hs, hw⟩ := llseek_ok hvo hvfd 0 .cur (by omega) (by omega)
  rw [hb] at hs hw
  have hwc : w.content = s.content := hw.content.trans hvc
  have hwm : ¬ w.Marked o := by
    rw [hw.marked_iff]
    rintro (h | ⟨-, h⟩)
    · omega
    · exact hvm h
  have hlen : u.lfilelength env fd = ((s.content.length : ℤ), v) := by
    rw [lfilelength, if_pos hufd, hv, hu]
    rfl
  unfold writeFillSeekGap
  dsimp only
  rw [← hu, getFdFlags_eq huo hufd, if_neg huo.fills, if_neg (by rw [huo.disk]; decide), hlen]
  rw [hs]
  dsimp only [bind, Except.bind]
  by_cases hle : (s.pos : ℤ) ≤ s.content.length
  · rw [if_pos hle]
    refine ⟨0, w, rfl, hw.owned, hwm, hw.handles.trans hvh, ?_, hw.pos⟩
    rw [hwc, padded_of_le (by omega)]
  rw [if_neg hle]
  obtain ⟨n, t, hf, ht, htm, hth, htc, htp⟩ := fillGap_ok hw.owned
    (by rw [hw.handles]; exact hvfd) (by rw [hwc]; exact hl)
    (show w.content.length < s.pos by rw [hwc]; omega)
  rw [hwc] at hf htc
  exact ⟨n, t, hf, ht, htm, hth.trans (hw.handles.trans hvh), htc, htp⟩

/-- What `_write` leaves of the content. -/
def written (content : Bytes) (pos : ℕ) (data : Bytes) : Bytes :=
  if data = [] then resize content pos else overwrite content pos data

/-- **`_write` writes at the position**, with zeros in the gap before it. -/
theorem lowWrite_ok (env : Env) (h : s.Safe o) (hfd : fd ∈ s.handles) (data : Bytes) :
    ∃ t, s.lowWrite env fd data = .ok (data.length, t) ∧ t.Owned o ∧ ¬ t.Marked o ∧
      t.handles = s.handles ∧
      t.content = written s.content s.pos data ∧ t.pos = s.pos + data.length := by
  -- a file without a gap is written
  have hw {u : State} (huo : u.Owned o) (hu : ¬ u.Marked o) (hufd : fd ∈ u.handles)
      (hc : u.content = padded 0 s.content s.pos) (hpos : u.pos = s.pos) :
      ∃ t, u.writeInt env fd (some data) data.length = .ok (data.length, t) ∧ t.Owned o ∧
        ¬ t.Marked o ∧ t.handles = u.handles ∧ t.content = written s.content s.pos data ∧
        t.pos = s.pos + data.length := by
    have hle : u.pos ≤ u.content.length := by
      rw [hc, hpos, length_padded]
      exact le_max_right ..
    by_cases hd : data = []
    · obtain ⟨t, hnil, hp, hh, hde, htc, htp⟩ := writeInt_nil hufd hle
      rw [hd]
      refine ⟨t, hnil, huo.of_eq hp hh hde, ?_, hh, ?_, ?_⟩
      · rw [State.Marked, objectFlags, hp]
        exact hu
      · rw [htc, hc, hpos, written, if_pos rfl, resize]
      · rw [htp, hpos]
        rfl
    · obtain ⟨t, hint, ht⟩ := writeInt_ok env hufd hle hd
        (show Supplies u _ data (some data) from rfl)
      refine ⟨t, hint, huo.of_eq ht.props ht.handles ht.device, ?_, ht.handles, ?_, ?_⟩
      · rw [State.Marked, objectFlags, ht.props]
        exact hu
      · rw [ht.content, hc, hpos, written, if_neg hd, overwrite]
      · rw [ht.pos, hpos]
  unfold lowWrite
  rw [getFdFlags_eq h.toOwned hfd, h.object fd hfd]
  by_cases hma : s.Marked o
  · rw [if_pos ⟨h.ne_null, hma⟩]
    obtain ⟨n, u, hf, huo, hu, huh, huc, hup⟩ := writeFillSeekGap_ok h hfd
    obtain ⟨t, hint, ht, htm, hth, htc, htp⟩ := hw huo hu (by rwa [huh]) huc hup
    rw [hf]
    exact ⟨t, hint, ht, htm, hth.trans huh, htc, htp⟩
  · rw [if_neg fun hm => hma hm.2]
    exact hw h.toOwned hma hfd (padded_of_le (h.gap hma)).symm rfl

end DosFile
