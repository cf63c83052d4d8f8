import Dj64.Exec.Arguments
import Dj64.Lib.Outcomes

/-!
# The transfer buffer

A program that starts another one lays out what DOS and the child need in a buffer in conventional
memory.  Space is taken from its end by `talloc`, after `check_talloc` has made sure that there is
enough; it moves the contents to a larger buffer when there is not.

When DOS has no memory for a larger buffer, `check_talloc` does not notice on a 64-bit host: the
result -1 becomes an `unsigned long` and is compared with `(unsigned)-1`.

* `Exec.checkTalloc`, `Exec.talloc`: the two functions.
* `Exec.checkTalloc_bounds`: what `check_talloc` has promised is there, if DOS provides the memory.
* `Exec.refused_breaks`: if DOS does not, the pointers are out of order.
-/

namespace Exec

open ByteMemory Outcomes List Option

/-- The answer to `__dpmi_allocate_dos_memory`. -/
inductive Alloc
  | block (segment selector : ℕ)
  | unavailable (maxAvail : ℕ)

/-- What a program finds outside: its first transfer buffer, whether long file names are in use, the
answers to the requests for memory (by their number, and for a number of paragraphs), a path as
`_put_path2` writes it, its short form if DOS knows one, and the file control blocks that DOS makes
of the command tail. -/
structure Dos where
  tb : ℕ
  tbSize : ℕ
  useLfn : Bool
  allocate : ℕ → ℕ → Alloc
  putPath : Bytes → Bytes
  truename : Bytes → Option Bytes
  fcb1 : Fin 16 → UInt8
  fcb2 : Fin 16 → UInt8

/-- What was done: `check_talloc` succeeded, `talloc` returned a region, a part of the buffer was
written, and the contents were copied to another buffer. -/
inductive Event
  | reserved (tbufBeg tbufPtr tbufEnd : ℕ)
  | allocated (tbufBeg tbufPtr tbufEnd : ℕ)
  | wrote (tbufBeg tbufLen la size : ℕ)
  | copied (size newLen : ℕ)

/-- A block of DOS memory. -/
structure Block where
  address : ℕ
  len : ℕ
  selector : ℕ
  deriving DecidableEq

/-- The transfer buffer, with the blocks that DOS has provided, latest first, and a log, latest
first. -/
structure State where
  mem : Mem
  tbufBeg : ℕ
  tbufPtr : ℕ
  tbufEnd : ℕ
  tbufLen : ℕ
  tbufSelector : ℕ
  requests : ℕ
  blocks : List Block
  log : List Event

/-- Why a program is not started by the modelled code; it is not followed any further when a refusal
of DOS has been taken for a buffer. -/
inductive Stop
  | tooBig
  | dosError
  | noProgram
  | script
  | misplaced

abbrev M := EStateM Stop State

namespace State

def start (dos : Dos) (mem : Mem) : State :=
  ⟨mem, dos.tb, dos.tb, dos.tb + dos.tbSize - 1, dos.tbSize, 0, 0, [], []⟩

def record (s : State) (e : Event) : State := { s with log := e :: s.log }

/-- `talloc`, which also takes space back. -/
def talloc (s : State) (amt : ℤ) : State :=
  let s := { s with tbufPtr := (s.tbufPtr + amt).toNat }
  s.record (.allocated s.tbufBeg s.tbufPtr s.tbufEnd)

/-- `dosmemput` to the buffer. -/
def put (s : State) (bs : Bytes) (la : ℕ) : State :=
  { s with mem := ByteMemory.put s.mem la bs }.record (.wrote s.tbufBeg s.tbufLen la bs.length)

/-- `_farpokew` to the buffer. -/
def poke (s : State) (la v : ℕ) : State :=
  { s with mem := store s.mem la 2 v }.record (.wrote s.tbufBeg s.tbufLen la 2)

/-- The contents are copied to a new buffer. -/
def moveTo (s : State) (requests segment selector len : ℕ) : State :=
  let newTb := segment * 16
  { s with
    mem := copy s.mem newTb s.tbufBeg (s.tbufPtr - s.tbufBeg)
    tbufPtr := newTb + (s.tbufPtr - s.tbufBeg)
    tbufBeg := newTb
    tbufEnd := newTb + len - 1
    tbufLen := len
    tbufSelector := selector
    requests := requests
    blocks := ⟨newTb, len, selector⟩ :: s.blocks }.record (.copied (s.tbufPtr - s.tbufBeg) len)

def used (s : State) : ℕ := s.tbufPtr - s.tbufBeg

/-- The values of an `unsigned long`. -/
def ulongs : ℕ := 0x10000000000000000

/-- The segment -1, as an `unsigned long`, is taken for that of a new buffer. -/
def misplace (s : State) (maxAvail len : ℕ) : State :=
  let newTb := (ulongs - 1) * 16 % ulongs
  let tbufPtr := (newTb + s.used) % ulongs
  let tbufEnd := (newTb + len - 1) % ulongs
  { s with
    tbufPtr := tbufPtr
    tbufBeg := newTb
    tbufEnd := tbufEnd
    tbufLen := len
    tbufSelector := maxAvail
    requests := s.requests + 1
    log := .reserved newTb tbufPtr tbufEnd :: .copied s.used len :: s.log }

end State

def maxLen : ℕ := 0x10000

/-- `while (tbuf_len <= max_len && tbuf_len < min_len) tbuf_len *= 2`, for at most `fuel` rounds. -/
def doubled (minLen : ℕ) : ℕ → ℕ → ℕ
  | 0, len => len
  | fuel + 1, len => if len ≤ maxLen ∧ len < minLen then doubled minLen fuel (len * 2) else len

/-- The length of the new buffer: doubled until it is enough, at most `max_len`, and rounded to
paragraphs. -/
def newLen (len minLen : ℕ) : ℕ := (min (doubled minLen 17 len) maxLen + 15) / 16 * 16

/-- `check_talloc` when the space is not enough.  Neither a segment nor -1, as an `unsigned long`,
is `(unsigned)-1`, so that a second request is never made. -/
def State.relocate (dos : Dos) (s : State) (amt : ℕ) : EStateM.Result Stop State Unit :=
  let minLen := s.tbufLen + amt
  if maxLen < minLen then .error .tooBig { s with tbufSelector := 0 }
  else if doubled minLen 17 s.tbufLen < minLen then .error .tooBig { s with tbufSelector := 0 }
  else
    let len := newLen s.tbufLen minLen
    match dos.allocate s.requests (len / 16) with
    | .block segment selector => .ok () (s.moveTo (s.requests + 1) segment selector len)
    | .unavailable maxAvail => .error .misplaced (s.misplace maxAvail len)

/-- `check_talloc`; all callers return at once when it fails. -/
def checkTalloc (dos : Dos) (amt : ℕ) : M Unit := fun s =>
  if s.tbufEnd < s.tbufPtr + amt then
    match s.relocate dos amt with
    | .ok _ s' => .ok () (s'.record (.reserved s'.tbufBeg s'.tbufPtr s'.tbufEnd))
    | .error e s' => .error e s'
  else .ok () (s.record (.reserved s.tbufBeg s.tbufPtr s.tbufEnd))

@[inherit_doc State.talloc]
def talloc (amt : ℤ) : M ℕ := fun s => .ok s.tbufPtr (s.talloc amt)

@[inherit_doc State.put]
def dosmemput (bs : Bytes) (la : ℕ) : M Unit := fun s => .ok () (s.put bs la)

@[inherit_doc State.poke]
def farpokew (la v : ℕ) : M Unit := fun s => .ok () (s.poke la v)

/-! ### The length of a new buffer -/

theorem le_doubled {minLen : ℕ} {fuel len : ℕ} (h : minLen ≤ 2 ^ fuel * len)
    (hmax : minLen ≤ maxLen) : minLen ≤ doubled minLen fuel len := by
  induction fuel generalizing len with
  | zero => simpa [doubled] using h
  | succ fuel ih =>
    unfold doubled
    split_ifs with hc
    · refine ih (h.trans_eq ?_)
      ring
    · omega

theorem le_doubled_of_pos {len minLen : ℕ} (hlen : 0 < len) (hmax : minLen ≤ maxLen) :
    minLen ≤ doubled minLen 17 len := by
  refine le_doubled ?_ hmax
  unfold maxLen at hmax
  omega

theorem le_newLen {len minLen : ℕ} (h : minLen ≤ doubled minLen 17 len) (hmax : minLen ≤ maxLen) :
    minLen ≤ newLen len minLen := by
  unfold newLen
  omega

/-! ### Bounds -/

/-- What the bounds of the buffer require of an event. -/
def Event.Ok : Event → Prop
  | .reserved tbufBeg tbufPtr tbufEnd => tbufBeg ≤ tbufPtr ∧ tbufPtr ≤ tbufEnd + 1
  | .allocated tbufBeg tbufPtr tbufEnd => tbufBeg ≤ tbufPtr ∧ tbufPtr ≤ tbufEnd + 1
  | .wrote tbufBeg tbufLen la size => tbufBeg ≤ la ∧ la + size ≤ tbufBeg + tbufLen
  | .copied size newLen => size ≤ newLen

instance (e : Event) : Decidable e.Ok := by cases e <;> (unfold Event.Ok; infer_instance)

def State.Ok (s : State) : Prop := ∀ e ∈ s.log, e.Ok

/-- Everything that was done is in bounds, `used` bytes of the buffer are in use and `n` more are
reserved. -/
structure Reserved (s : State) (used n : ℕ) : Prop where
  ok : s.Ok
  pos : 0 < s.tbufLen
  fin : s.tbufEnd + 1 = s.tbufBeg + s.tbufLen
  ptr : s.tbufPtr = s.tbufBeg + used
  room : used + n ≤ s.tbufLen

variable {dos : Dos} {s : State} {u n k requests segment selector len : ℕ} {e : Event}

theorem State.Ok.record (h : s.Ok) (he : e.Ok) : (s.record e).Ok := by
  intro e' hmem
  rcases mem_cons.mp hmem with rfl | hold
  · exact he
  · exact h e' hold

theorem Reserved.mono (h : Reserved s u n) (hk : k ≤ n) : Reserved s u k :=
  ⟨h.ok, h.pos, h.fin, h.ptr, (Nat.add_le_add_left hk u).trans h.room⟩

theorem Reserved.record (h : Reserved s u n) (he : e.Ok) : Reserved (s.record e) u n :=
  ⟨h.ok.record he, h.pos, h.fin, h.ptr, h.room⟩

theorem reserved_start (hs : 0 < dos.tbSize) (mem : Mem) : Reserved (State.start dos mem) 0 0 := by
  refine ⟨fun e he => absurd he not_mem_nil, hs, ?_, rfl, Nat.zero_le _⟩
  show dos.tb + dos.tbSize - 1 + 1 = dos.tb + dos.tbSize
  omega

theorem Reserved.moveTo (h : Reserved s u n) (hpos : 0 < len)
    (hlen : u + k ≤ len) : Reserved (s.moveTo requests segment selector len) u k := by
  have hu : s.tbufPtr - s.tbufBeg = u := by
    have := h.ptr
    omega
  have hok : (s.moveTo requests segment selector len).Ok :=
    State.Ok.record (s := { s.moveTo requests segment selector len with log := s.log }) h.ok <| by
      show s.tbufPtr - s.tbufBeg ≤ len
      omega
  refine ⟨hok, hpos, ?_, ?_, hlen⟩
  · show segment * 16 + len - 1 + 1 = segment * 16 + len
    omega
  · show segment * 16 + (s.tbufPtr - s.tbufBeg) = segment * 16 + u
    rw [hu]

variable {amt la v : ℕ} {s' : State}

/-- DOS has memory for every request. -/
def Dos.Grants (dos : Dos) : Prop :=
  ∀ i paragraphs, ∃ segment selector, dos.allocate i paragraphs = .block segment selector

abbrev Bounded {α : Type} (Q : α → State → Prop) (r : EStateM.Result Stop State α) : Prop :=
  Ends (fun _ s' => s'.Ok) Q r

variable {α : Type} {Q : α → State → Prop}

theorem relocate_bounds (hdos : dos.Grants) (h : Reserved s u n) :
    Bounded (fun _ s' => Reserved s' u amt) (s.relocate dos amt) := by
  have hr : u ≤ s.tbufLen := (Nat.le_add_right u n).trans h.room
  have hpos := h.pos
  unfold State.relocate
  dsimp only
  split_ifs with hmax hdbl
  · exact h.ok
  · exact h.ok
  · have hnew := le_newLen (not_lt.mp hdbl) (not_lt.mp hmax)
    obtain ⟨segment, selector, ha⟩ := hdos s.requests (newLen s.tbufLen (s.tbufLen + amt) / 16)
    rw [ha]
    exact h.moveTo (by omega) (by omega)

theorem checkTalloc_bounds (hdos : dos.Grants) (h : Reserved s u n) (amt : ℕ) :
    Bounded (fun _ s' => Reserved s' u amt) (checkTalloc dos amt s) := by
  have hst : ∀ s', Reserved s' u amt →
      Reserved (s'.record (.reserved s'.tbufBeg s'.tbufPtr s'.tbufEnd)) u amt := by
    intro s' h'
    have := h'.ptr
    have := h'.fin
    have := h'.room
    exact h'.record ⟨by omega, by omega⟩
  unfold checkTalloc
  split_ifs with hc
  · have hb : Bounded (fun _ s' => Reserved s' u amt) (s.relocate dos amt) :=
      relocate_bounds hdos h
    cases hs : s.relocate dos amt with
    | ok _ s' =>
      rw [hs] at hb
      exact hst s' hb
    | error e s' =>
      rw [hs] at hb
      exact hb
  · have := h.ptr
    have := h.fin
    exact hst s ⟨h.ok, h.pos, h.fin, h.ptr, by omega⟩

/-- A refusal breaks the bounds, whatever the buffer was. -/
theorem refused_breaks {maxAvail : ℕ} (hc : s.tbufEnd < s.tbufPtr + amt) (hpos : 0 < s.tbufLen)
    (hbig : 16 < s.tbufLen + amt) (hmax : s.tbufLen + amt ≤ maxLen)
    (ha : dos.allocate s.requests (newLen s.tbufLen (s.tbufLen + amt) / 16) =
      .unavailable maxAvail) : ¬ (final (checkTalloc dos amt s)).Ok := by
  have hdbl := le_doubled_of_pos hpos hmax
  have hlen : newLen s.tbufLen (s.tbufLen + amt) ≤ maxLen + 15 ∧
      newLen s.tbufLen (s.tbufLen + amt) % 16 = 0 := by
    unfold newLen
    omega
  have hnew := le_newLen hdbl hmax
  have hre : s.relocate dos amt =
      .error .misplaced (s.misplace maxAvail (newLen s.tbufLen (s.tbufLen + amt))) := by
    unfold State.relocate
    simp only [if_neg (not_lt.mpr hmax), if_neg (not_lt.mpr hdbl), ha]
  unfold checkTalloc
  rw [if_pos hc, hre]
  intro hok
  -- the end has wrapped around, and the beginning has not
  obtain ⟨hlo, hhi⟩ := hok (.reserved _ _ _) (.head _)
  unfold State.ulongs at hlo hhi
  unfold maxLen at hlen
  omega

variable {f : Unit → M α}

theorem ends_checkTalloc (hdos : dos.Grants) (h : Reserved s u n)
    (hf : ∀ s', Reserved s' u amt → Bounded Q (f () s')) :
    Bounded Q ((checkTalloc dos amt >>= f) s) :=
  (checkTalloc_bounds hdos h amt).bind fun _ s' h' => hf s' h'

/-- The buffer is the same, and memory is now `mem`. -/
structure SameBuffer (s s' : State) (mem : Mem) : Prop where
  mem : s'.mem = mem
  len : s'.tbufLen = s.tbufLen
  selector : s'.tbufSelector = s.tbufSelector
  requests : s'.requests = s.requests
  blocks : s'.blocks = s.blocks

variable {E : Stop → State → Prop}

theorem Reserved.talloc {amt : ℤ} (h : Reserved s u n) (hv : (v : ℤ) = u + amt)
    (hk : v + k ≤ u + n) : Reserved (s.talloc amt) v k := by
  have hptr := h.ptr
  have hfin := h.fin
  have hr := h.room
  have hp : ((s.tbufPtr : ℤ) + amt).toNat = s.tbufBeg + v := by omega
  refine ⟨State.Ok.record h.ok ?_, h.pos, h.fin, hp, hk.trans hr⟩
  show s.tbufBeg ≤ ((s.tbufPtr : ℤ) + amt).toNat ∧ ((s.tbufPtr : ℤ) + amt).toNat ≤ s.tbufEnd + 1
  omega

theorem ends_talloc (h : Reserved s u n) (hk : k ≤ n) {f : ℕ → M α}
    (hf : ∀ s', s'.tbufBeg = s.tbufBeg → Reserved s' (u + k) (n - k) → SameBuffer s s' s.mem →
      Ends E Q (f (s.tbufBeg + u) s')) :
    Ends E Q ((talloc k >>= f) s) := by
  show Ends E Q (f s.tbufPtr (s.talloc k))
  rw [h.ptr]
  exact hf _ rfl (h.talloc (by omega) (by omega)) ⟨rfl, rfl, rfl, rfl, rfl⟩

theorem ends_talloc_back (h : Reserved s (u + 1) n) {f : ℕ → M α}
    (hf : ∀ la s', s'.tbufBeg = s.tbufBeg → Reserved s' u (n + 1) → SameBuffer s s' s.mem →
      Ends E Q (f la s')) :
    Ends E Q ((talloc (-1) >>= f) s) :=
  hf s.tbufPtr _ rfl (h.talloc (by omega) (by omega)) ⟨rfl, rfl, rfl, rfl, rfl⟩

theorem ends_dosmemput (h : Reserved s u n) {bs : Bytes} (hlo : s.tbufBeg ≤ la)
    (hhi : la + bs.length ≤ s.tbufBeg + u)
    (hf : ∀ s', s'.tbufBeg = s.tbufBeg → Reserved s' u n →
      SameBuffer s s' (ByteMemory.put s.mem la bs) → Ends E Q (f () s')) :
    Ends E Q ((dosmemput bs la >>= f) s) := by
  have hr := h.room
  refine hf (s.put bs la) rfl ⟨State.Ok.record h.ok ?_, h.pos, h.fin, h.ptr, h.room⟩
    ⟨rfl, rfl, rfl, rfl, rfl⟩
  show s.tbufBeg ≤ la ∧ la + bs.length ≤ s.tbufBeg + s.tbufLen
  omega

theorem ends_farpokew (h : Reserved s u n) (hlo : s.tbufBeg ≤ la) (hhi : la + 2 ≤ s.tbufBeg + u)
    (hf : ∀ s', s'.tbufBeg = s.tbufBeg → Reserved s' u n → SameBuffer s s' (store s.mem la 2 v) →
      Ends E Q (f () s')) :
    Ends E Q ((farpokew la v >>= f) s) := by
  have hr := h.room
  refine hf (s.poke la v) rfl ⟨State.Ok.record h.ok ?_, h.pos, h.fin, h.ptr, h.room⟩
    ⟨rfl, rfl, rfl, rfl, rfl⟩
  show s.tbufBeg ≤ la ∧ la + 2 ≤ s.tbufBeg + s.tbufLen
  omega

/-! ### The log and the blocks -/

/-- The second state comes after the first one. -/
structure Later (s s' : State) : Prop where
  log : s.log <:+ s'.log
  blocks : s.blocks <:+ s'.blocks

instance : Std.Refl Later := ⟨fun _ => ⟨List.suffix_rfl, List.suffix_rfl⟩⟩

instance : IsTrans State Later :=
  ⟨fun _ _ _ h₁ h₂ => ⟨h₁.log.trans h₂.log, h₁.blocks.trans h₂.blocks⟩⟩

theorem State.Ok.of_later (h : s'.Ok) (hl : Later s s') : s.Ok := fun e he => h e (hl.log.subset he)

theorem later_record : Later s (s.record e) := ⟨suffix_cons .., suffix_rfl⟩

theorem later_moveTo : Later s (s.moveTo requests segment selector len) :=
  ⟨suffix_cons .., suffix_cons ..⟩

theorem later_misplace {maxAvail : ℕ} : Later s (s.misplace maxAvail len) := by
  unfold State.misplace
  exact ⟨(suffix_cons ..).trans (suffix_cons ..), suffix_rfl⟩

theorem within_checkTalloc (dos : Dos) (amt : ℕ) : Within Later (checkTalloc dos amt) := by
  intro s
  unfold checkTalloc State.relocate
  dsimp only
  split_ifs
  · exact ⟨suffix_rfl, suffix_rfl⟩
  · exact ⟨suffix_rfl, suffix_rfl⟩
  · cases dos.allocate s.requests (newLen s.tbufLen (s.tbufLen + amt) / 16) with
    | block segment selector => exact IsTrans.trans _ _ _ later_moveTo later_record
    | unavailable maxAvail => exact later_misplace
  · exact later_record

theorem within_talloc (amt : ℤ) : Within Later (talloc amt) := fun _ =>
  ⟨suffix_cons .., suffix_rfl⟩

theorem within_dosmemput (bs : Bytes) (la : ℕ) : Within Later (dosmemput bs la) := fun _ =>
  ⟨suffix_cons .., suffix_rfl⟩

theorem within_farpokew (la v : ℕ) : Within Later (farpokew la v) := fun _ =>
  ⟨suffix_cons .., suffix_rfl⟩

end Exec
