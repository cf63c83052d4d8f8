import Dj64.Lib.Ledger
import Dj64.Lib.Runs

/-!
# Whose buffer a stream has

`_IOMYBUF` marks a buffer that stdio has allocated.  `setvbuf` frees such a buffer but leaves the
flag set, so that a buffer of the caller that takes its place is freed in turn.
-/

namespace Ownership

open Ledger Runs Option Bool

/-- A block of memory: a buffer of the caller, or one that stdio has allocated. -/
inductive Block
  | user (n : ℕ)
  | stdio (n : ℕ)
  deriving DecidableEq

/-- `_IOREAD`, `_IOWRT`, `_IORW`, `_IOEOF`, and whether the handle belongs to a directory. -/
structure Flags where
  reading : Bool
  writing : Bool
  readWrite : Bool
  eof : Bool
  directory : Bool

/-- A stream, and what `malloc` and `free` did for it. -/
structure File where
  isOpen : Bool
  flags : Flags
  /-- `_IONBF`. -/
  unbuffered : Bool
  /-- `_IOMYBUF`. -/
  myBuf : Bool
  base : Option Block
  ledger : List (Entry Block)

/-- The argument `type` of `setvbuf`. -/
inductive BufType
  | full
  | line
  | unbuffered
  | other

/-- What `fopen` opens: a file in a mode, or a directory. -/
inductive Mode
  | read
  | write
  | update
  | directory

/-- A call.  `malloc` says whether a block is found, and `atEnd` that nothing is read. -/
inductive Call
  | fopen (mode : Mode)
  | setvbuf (buf : Option ℕ) (type : BufType) (len : ℕ) (malloc : Bool)
  | filbuf (malloc atEnd : Bool)
  | flsbuf (malloc : Bool)
  | fflush
  | fclose

/-- `_filbuf` reads a stream for reading and writing. -/
def Flags.forReading (g : Flags) : Flags := if g.readWrite then { g with reading := true } else g

/-- `_flsbuf` writes one. -/
def Flags.forWriting (g : Flags) : Flags :=
  if g.readWrite then { g with writing := true, eof := false, reading := false } else g

def Flags.atEnd (g : Flags) : Flags :=
  { g with eof := true, reading := g.reading && !g.readWrite }

/-- `fflush` forgets whether the stream is read or written. -/
def Flags.flushed (g : Flags) : Flags :=
  if g.readWrite then { g with writing := false, reading := false } else g

/-- `fclose` frees the buffer. -/
def Flags.closes (g : Flags) : Bool := g.reading || g.writing || g.readWrite || g.directory

/-- `malloc` succeeds. -/
def File.took (f : File) : File :=
  { f with ledger := f.ledger ++ [.take (.stdio f.ledger.length)] }

/-- A stream without a buffer gets one, or becomes unbuffered. -/
def File.allocate (f : File) (malloc : Bool) : File :=
  if f.base.isNone && !f.unbuffered then
    if malloc then { f.took with base := some (.stdio f.ledger.length), myBuf := true }
    else { f with unbuffered := true }
  else f

/-- The buffer is freed, if it is marked; `free(NULL)` does nothing. -/
def File.free (f : File) : File :=
  { f with ledger := f.ledger ++ if f.myBuf then f.base.toList.map .give else [] }

def File.filbuf (f : File) (malloc atEnd : Bool) : File :=
  let f := { f with flags := f.flags.forReading }
  if !f.flags.reading || f.flags.eof then f
  else
    let f := f.allocate malloc
    -- without a buffer, a local variable is used
    let f := { f with base := if f.unbuffered then none else f.base }
    { f with flags := if atEnd then f.flags.atEnd else f.flags }

def File.flsbuf (f : File) (malloc : Bool) : File :=
  let f := { f with flags := f.flags.forWriting }
  if f.flags.writing then f.allocate malloc else f

def File.fflush (f : File) : File := { f with flags := f.flags.flushed }

def File.replace (f : File) (base : Option Block) (mine : Bool) : File :=
  { f.free with base := base, myBuf := f.myBuf || mine, unbuffered := base.isNone }

def File.setvbuf (f : File) (buf : Option ℕ) (type : BufType) (len : ℕ) (malloc : Bool) : File :=
  let f := f.fflush
  match type, buf with
  | .other, _ => f
  | .unbuffered, _ => f.replace none false
  | _, some n => if len = 0 then f else f.replace (some (.user n)) false
  | _, none =>
    if len = 0 || !malloc then f else f.took.replace (some (.stdio f.ledger.length)) true

def File.fclose (f : File) : File :=
  let f := if f.flags.closes then f.fflush.free else f
  ⟨false, ⟨false, false, false, false, false⟩, false, false, none, f.ledger⟩

def File.fopen (f : File) (mode : Mode) : File :=
  let flags := match mode with
    | .read => ⟨true, false, false, false, false⟩
    | .write => ⟨false, true, false, false, false⟩
    | .update => ⟨false, false, true, false, false⟩
    | .directory => ⟨false, false, false, true, true⟩
  ⟨true, flags, false, false, none, f.ledger⟩

/-- A call; `fopen` finds a stream that is closed, and the others one that is open. -/
def step (f : File) (c : Call) : Except Empty File :=
  match c, f.isOpen with
  | .fopen mode, false => .ok (f.fopen mode)
  | .setvbuf buf type len malloc, true => .ok (f.setvbuf buf type len malloc)
  | .filbuf malloc atEnd, true => .ok (f.filbuf malloc atEnd)
  | .flsbuf malloc, true => .ok (f.flsbuf malloc)
  | .fflush, true => .ok f.fflush
  | .fclose, true => .ok f.fclose
  | _, _ => .ok f

/-- Nothing was freed that stdio had not allocated or that was freed before; `_IOMYBUF` is set
exactly if `_base` is allocated by stdio and not freed; nothing is allocated after `fclose`. -/
def Right (f : File) : Prop :=
  ∃ held, settle [] f.ledger = some held ∧ (f.myBuf = true ↔ ∃ b ∈ f.base, b ∈ held) ∧
    (f.isOpen = false → held = [])

/-- `setvbuf` does not replace a buffer of stdio by one of the caller, or by none. -/
def Minds (f : File) : Call → Prop
  | .setvbuf _ .other _ _ => True
  | .setvbuf _ .unbuffered _ _ => f.isOpen = true → f.myBuf = false
  | .setvbuf buf _ len _ => f.isOpen = true → f.myBuf = true → len = 0 ∨ buf = none
  | _ => True

/-- What these calls keep. -/
structure Inv (f : File) : Prop where
  settled : settle [] f.ledger = some (if f.myBuf then f.base.toList else [])
  mine : f.myBuf = true ↔ ∃ n, f.base = some (.stdio n)
  shut : f.isOpen = false → f.base = none
  bare : f.unbuffered = true → f.base = none
  closes : f.isOpen = true → f.flags.closes = true

variable {f : File} {c : Call} {g : Flags}

theorem Inv.right (h : Inv f) : Right f := by
  refine ⟨_, h.settled, ?_, fun hs => by simp [h.shut hs]⟩
  cases hm : f.myBuf with
  | false => simp
  | true =>
    obtain ⟨n, hn⟩ := h.mine.1 hm
    simp [hn]

theorem Inv.unmarked (h : Inv f) (hb : f.base = none) : f.myBuf = false := by
  by_contra hm
  obtain ⟨n, hn⟩ := h.mine.1 (by simpa using hm)
  rw [hb] at hn
  cases hn

theorem Inv.withFlags (h : Inv f) (hg : f.flags.closes → g.closes) : Inv { f with flags := g } :=
  ⟨h.settled, h.mine, h.shut, h.bare, fun ho => hg (h.closes ho)⟩

theorem closes_mono (hg : g.closes) : g.forReading.closes ∧
    g.forWriting.closes ∧ g.atEnd.closes ∧ g.flushed.closes := by
  obtain ⟨reading, writing, readWrite, eof, directory⟩ := g
  revert reading writing readWrite eof directory
  decide

theorem Inv.fflush (h : Inv f) : Inv f.fflush := h.withFlags fun hg => (closes_mono hg).2.2.2

theorem settle_took {held : List Block} (h : settle [] f.ledger = some held) :
    settle [] f.took.ledger = some (.stdio f.ledger.length :: held) := by
  rw [File.took, settle_append, h]
  rfl

section

variable (h : Inv f) {base : Option Block}
include h

theorem Inv.allocate (ho : f.isOpen) (malloc : Bool) : Inv (f.allocate malloc) := by
  unfold File.allocate
  split_ifs with hn
  · simp only [and_eq_true, isNone_iff_eq_none, not_eq_true'] at hn
    have hl := h.settled
    rw [h.unmarked hn.1] at hl
    refine ⟨settle_took hl, by simp, fun hno => ?_, fun hno => ?_, h.closes⟩
    · exact absurd (ho.symm.trans hno) (by decide)
    · exact absurd (hn.2.symm.trans hno) (by decide)
  · simp only [and_eq_true, isNone_iff_eq_none] at hn
    exact ⟨h.settled, h.mine, h.shut, fun _ => hn.1, h.closes⟩
  · exact h

theorem Inv.settle_free : settle [] f.free.ledger = some [] := by
  rw [File.free, settle_append, h.settled]
  cases hm : f.myBuf with
  | false => rfl
  | true =>
    obtain ⟨n, hn⟩ := h.mine.1 hm
    simp [hn, settle]

theorem Inv.replace_mine (ho : f.isOpen) :
    Inv (f.took.replace (some (.stdio f.ledger.length)) true) := by
  have hmi : (f.took.replace (some (.stdio f.ledger.length)) true).myBuf := or_true _
  refine ⟨?_, iff_of_true hmi ⟨_, rfl⟩, fun hno => absurd (ho.symm.trans hno) (by decide),
    nofun, h.closes⟩
  rw [hmi]
  show settle [] (f.took.ledger ++ if f.myBuf then f.base.toList.map .give else []) = _
  rw [settle_append, settle_took h.settled]
  cases hm : f.myBuf with
  | false => rfl
  | true =>
    obtain ⟨n, hn⟩ := h.mine.1 hm
    rw [hn]
    by_cases hnew : Block.stdio f.ledger.length = .stdio n
    · simp [settle, File.replace, hnew]
    · simp [settle, File.replace, hnew]

theorem Inv.replace_other (ho : f.isOpen) (hm : f.myBuf = false)
    (hb : ∀ n, base ≠ some (.stdio n)) : Inv (f.replace base false) := by
  refine ⟨?_, by simp [File.replace, hm, hb], fun hno => ?_, fun hno => ?_, h.closes⟩
  · show settle [] f.free.ledger = some (if (f.myBuf || false) then _ else [])
    rw [h.settle_free, hm]
    rfl
  · exact absurd (ho.symm.trans hno) (by decide)
  · exact isNone_iff_eq_none.1 hno

theorem Inv.replace_wrong (hr : Right (f.replace base false)) : f.myBuf = false := by
  obtain ⟨held, hh, hiff, -⟩ := hr
  cases h.settle_free.symm.trans hh
  by_contra hm
  obtain ⟨b, -, hb⟩ := hiff.1 (by simpa [File.replace] using hm)
  cases hb

theorem Inv.setvbuf_iff (ho : f.isOpen) {buf : Option ℕ} {type : BufType}
    {len : ℕ} {malloc : Bool} :
    (Minds f (.setvbuf buf type len malloc) → Inv (f.setvbuf buf type len malloc)) ∧
      (Right (f.setvbuf buf type len malloc) → Minds f (.setvbuf buf type len malloc)) := by
  have hot {base : Option Block} (hb : ∀ n, base ≠ some (.stdio n))
      (hm : f.myBuf = false) : Inv (f.fflush.replace base false) :=
    h.fflush.replace_other ho hm hb
  have hs (hlen : len ≠ 0 ∧ malloc) :
      Inv (f.fflush.took.replace (some (.stdio f.ledger.length)) true) := h.fflush.replace_mine ho
  cases type with
  | other => exact ⟨fun _ => h.fflush, fun _ => trivial⟩
  | unbuffered =>
    exact ⟨fun hm => hot (by simp) (hm ho), fun hr _ => h.fflush.replace_wrong hr⟩
  | _ =>
    unfold File.setvbuf Minds
    cases buf with
    | none =>
      refine ⟨fun _ => ?_, fun _ _ _ => .inr rfl⟩
      dsimp only
      split_ifs with hlen
      · exact h.fflush
      · exact hs (by simpa using hlen)
    | some n =>
      dsimp only
      split_ifs with hlen
      · exact ⟨fun _ => h.fflush, fun _ _ _ => .inl hlen⟩
      · refine ⟨fun hm => hot (by simp) (by simpa [hlen] using hm ho), fun hr _ hm => ?_⟩
        exact absurd (hm.symm.trans (h.fflush.replace_wrong hr)) (by decide)

theorem Inv.filbuf (ho : f.isOpen) (malloc atEnd : Bool) : Inv (f.filbuf malloc atEnd) := by
  have hr := h.withFlags fun hg => (closes_mono hg).1
  unfold File.filbuf
  dsimp only
  by_cases hs : (!f.flags.forReading.reading || f.flags.forReading.eof)
  · rw [if_pos hs]
    exact hr
  rw [if_neg hs]
  have hall := hr.allocate ho malloc
  -- an unbuffered stream had no buffer
  generalize File.allocate _ malloc = g at hall ⊢
  have hsa : (if g.unbuffered then none else g.base) = g.base := by
    split_ifs with hb
    · exact (hall.bare hb).symm
    · rfl
  rw [hsa]
  refine hall.withFlags fun hg => ?_
  split_ifs
  · exact (closes_mono hg).2.2.1
  · exact hg

/-- The calls that mind are those after which the flag is right. -/
theorem Inv.step_iff : ∃ g, step f c = .ok g ∧ (Minds f c → Inv g) ∧ (Right g → Minds f c) := by
  cases ho : f.isOpen with
  | false =>
    cases c with
    | fopen mode =>
      refine ⟨f.fopen mode, by simp only [step, ho], fun _ => ?_, fun _ => trivial⟩
      have hl := h.settled
      rw [h.shut ho, toList_none, ite_self] at hl
      cases mode <;> exact ⟨hl, by simp [File.fopen], nofun, nofun, fun _ => rfl⟩
    | setvbuf buf type len malloc =>
      refine ⟨f, by simp only [step, ho], fun _ => h, fun _ => ?_⟩
      cases type <;> simp [Minds, ho]
    | _ => exact ⟨f, by simp only [step, ho], fun _ => h, fun _ => trivial⟩
  | true =>
    cases c with
    | fopen mode => exact ⟨f, by simp only [step, ho], fun _ => h, fun _ => trivial⟩
    | setvbuf buf type len malloc =>
      exact ⟨_, by simp only [step, ho], h.setvbuf_iff ho⟩
    | filbuf malloc atEnd =>
      exact ⟨_, by simp only [step, ho], fun _ => h.filbuf ho malloc atEnd, fun _ => trivial⟩
    | flsbuf malloc =>
      refine ⟨f.flsbuf malloc, by simp only [step, ho], fun _ => ?_, fun _ => trivial⟩
      have hw := h.withFlags fun hg => (closes_mono hg).2.1
      unfold File.flsbuf
      dsimp only
      split_ifs
      · exact hw.allocate ho malloc
      · exact hw
    | fflush => exact ⟨_, by simp only [step, ho], fun _ => h.fflush, fun _ => trivial⟩
    | fclose =>
      refine ⟨f.fclose, by simp only [step, ho], fun _ => ?_, fun _ => trivial⟩
      unfold File.fclose
      rw [h.closes ho]
      exact ⟨h.fflush.settle_free, by simp, fun _ => rfl, fun _ => rfl, nofun⟩

end

def closed : File := ⟨false, ⟨false, false, false, false, false⟩, false, false, none, []⟩

/-- **Buffers are owned correctly if and only if `setvbuf` never takes the place of a buffer that
stdio has allocated with one of the caller or with none.** -/
theorem buffers_owned_iff (cs : List Call) :
    (∀ cs', cs' <+: cs → ∃ f, run step closed cs' = .ok f ∧ Right f) ↔
      Admits step Minds closed cs := by
  have hs : Inv closed := ⟨rfl, by simp [closed], fun _ => rfl, nofun, nofun⟩
  refine always_iff Inv (fun f h => h.right) (fun f c h hc => ?_) (fun f c g h hg hr => ?_) hs
  · obtain ⟨g, hg, hinv, -⟩ := h.step_iff
    exact ⟨g, hg, hinv hc⟩
  · obtain ⟨g', hg', -, hm⟩ := h.step_iff
    cases hg'.symm.trans hg
    exact hm hr

/-- A stream is read, gets a buffer of the caller and is closed: that buffer is freed. -/
theorem user_buffer_freed : succeeds (run step closed
      [.fopen .read, .filbuf true false, .setvbuf (some 7) .full 512 true, .fclose])
      (fun f => f.ledger = [.take (.stdio 0), .give (.stdio 0), .give (.user 7)] ∧
        settle [] f.ledger = none) = true := by
  decide

end Ownership
