import Dj64.Termios.Read

/-!
# Whose bytes a read of the terminal returns

When the records of the queue are swapped correctly, a program can still find the bytes of another
one: the cells under the records and the edit line are shared.  A read returns bytes of its program
alone if the queue and the edit line hold no others, and reads of one program may write over
everything that waits for another.
-/

namespace Termios

open Rings List Function Option Ring Reader

variable {t : Settings} {h a n : ℕ} {r r' : Reader} {P : ℕ → Prop} {b : Typed} {bs : List Typed}

/-! ### The queue -/

theorem pending_putQueue (hr : r.queue.count < queueSize) (b : Typed) :
    (putQueue r b).pending = r.pending ++ [b] :=
  contents_put hr b

theorem putQueue_full (hf : ¬ r.queue.count < queueSize) : putQueue r b = r := by
  rw [putQueue, put_full (not_lt.mp hf)]

@[simp] theorem length_pending : r.pending.length = r.queue.count :=
  r.queue.length_contents r.cells

@[simp] theorem line_putQueue : (putQueue r b).line = r.line := rfl

theorem line_putsQueue : ∀ r : Reader, (putsQueue r bs).line = r.line := by
  induction bs with
  | nil => exact fun _ => rfl
  | cons b bs ih => exact fun r => ih (putQueue r b)

theorem pending_putsQueue :
    ∀ {r : Reader}, r.queue.count + bs.length ≤ queueSize →
    (putsQueue r bs).pending = r.pending ++ bs := by
  induction bs with
  | nil => exact fun _ => (append_nil _).symm
  | cons b bs ih =>
    intro r hr
    rw [length_cons] at hr
    have hone : r.queue.count < queueSize := by omega
    have hc : (putQueue r b).queue.count = r.queue.count + 1 := count_put hone b
    change (putsQueue (putQueue r b) bs).pending = _
    rw [ih (by omega), pending_putQueue hone, append_assoc, singleton_append]

variable {b : Typed} {bs : List Typed} {ch x : UInt8} {keys : List (Option Key)}

theorem getQueue_cons (hr : r.pending = b :: bs) :
    (getQueue h r).1 = b ∧ (getQueue h r).2.pending = bs ∧ (getQueue h r).2.cells = r.cells ∧
      (getQueue h r).2.line = r.line ∧ (getQueue h r).2.lnch = r.lnch := by
  unfold getQueue
  cases hget : r.queue.get r.cells with
  | none =>
    rw [pending, (r.queue.contents_eq_nil r.cells).mpr (get_eq_none.mp hget)] at hr
    cases hr
  | some p =>
    have hc := contents_get hget
    rw [← pending, hr] at hc
    obtain ⟨rfl, rfl⟩ := cons.inj hc
    exact ⟨rfl, rfl, rfl, rfl, rfl⟩

theorem existQueue_iff : r.existQueue ↔ r.pending ≠ [] := by
  simp [existQueue, pending, contents_eq_nil]

theorem existQueue_of_cons (hr : r.pending = b :: bs) :
    r.existQueue := existQueue_iff.mpr (by simp [hr])

theorem existQueue_of_nil (hr : r.pending = []) : r.existQueue = false := by
  rw [← Bool.not_eq_true, existQueue_iff, not_not]
  exact hr

/-- **The canonical loop** returns the first bytes of the queue and leaves the others. -/
theorem takeQueue_spec (h n : ℕ) : ∀ r : Reader,
    (takeQueue h n r).2 = r.pending.take n ∧ (takeQueue h n r).1.pending = r.pending.drop n ∧
      (takeQueue h n r).1.cells = r.cells ∧ (takeQueue h n r).1.line = r.line ∧
      (takeQueue h n r).1.lnch = r.lnch := by
  induction n with
  | zero => exact fun r => ⟨rfl, rfl, rfl, rfl, rfl⟩
  | succ n ih =>
    intro r
    rw [takeQueue]
    cases hr : r.pending with
    | nil =>
      rw [existQueue_of_nil hr]
      exact ⟨rfl, hr, rfl, rfl, rfl⟩
    | cons b bs =>
      rw [existQueue_of_cons hr, if_pos rfl]
      obtain ⟨hb, hbs, hc, hl, hln⟩ := getQueue_cons (h := h) hr
      obtain ⟨hout, hre, hc', hl', hln'⟩ := ih (getQueue h r).2
      refine ⟨?_, ?_, hc'.trans hc, hl'.trans hl, hln'.trans hln⟩
      · rw [hb, hout, hbs, take_succ_cons]
      · rw [hre, hbs, drop_succ_cons]

/-! ### Bytes that a program may return -/

/-- The queue and the edit line hold only bytes of programs with `P`. -/
structure Owns (P : ℕ → Prop) (r : Reader) : Prop where
  pending : ∀ b ∈ r.pending, P b.owner
  line : ∀ c ∈ r.line.cells, P c.byte.owner

theorem Owns.putQueue (hr : Owns P r) (hb : P b.owner) : Owns P (putQueue r b) := by
  by_cases hro : r.queue.count < queueSize
  · refine ⟨fun b' hb' => ?_, hr.line⟩
    rw [pending_putQueue hro, mem_append, mem_singleton] at hb'
    rcases hb' with hold | rfl
    · exact hr.pending b' hold
    · exact hb
  · rw [putQueue_full hro]
    exact hr

theorem Owns.putsQueue (bs : List Typed) : ∀ {r : Reader}, Owns P r → (∀ b ∈ bs, P b.owner) →
    Owns P (putsQueue r bs) := by
  induction bs with
  | nil => exact fun hr _ => hr
  | cons b bs ih =>
    intro r hr hbs
    exact ih (hr.putQueue (hbs b mem_cons_self)) (forall_mem_cons.mp hbs).2

theorem Owns.getQueue (hP : P h) (hr : Owns P r) :
    P (getQueue h r).1.owner ∧ Owns P (getQueue h r).2 := by
  unfold Termios.getQueue
  cases hget : r.queue.get r.cells with
  | none => exact ⟨hP, hr⟩
  | some p =>
    obtain ⟨b, q⟩ := p
    have hc : r.pending = b :: q.contents r.cells := contents_get hget
    refine ⟨hr.pending b ?_, fun b' hb' => hr.pending b' ?_, hr.line⟩
    · rw [hc]
      exact mem_cons_self
    · rw [hc]
      exact .tail _ hb'

theorem insertCells_owner {cells : List Cell} (hb : P b.owner)
    (hce : ∀ c ∈ cells, P c.byte.owner) : ∀ c ∈ (insertCells b cells).1, P c.byte.owner := by
  have hp (c : Cell) (hc : c ∈ openPart cells) : P c.byte.owner :=
    hce c ((takeWhile_sublist _).subset hc)
  have hr (c : Cell) (hc : c ∈ cells.dropWhile fun c => c.flag = -1) : P c.byte.owner :=
    hce c ((dropWhile_sublist _).subset hc)
  -- a changed part keeps the owners of its bytes
  have hch (f : Cell → Cell) (hf : ∀ c, (f c).byte.owner = c.byte.owner) (c0 : Cell)
      (hc0 : P c0.byte.owner) : ∀ c ∈ c0 :: (openPart cells).map f ++
        cells.dropWhile (fun c => c.flag = -1), P c.byte.owner := by
    intro c hc
    rcases mem_append.mp hc with hc | hc
    · rcases mem_cons.mp hc with rfl | hc
      · exact hc0
      · obtain ⟨c', hc', rfl⟩ := mem_map.mp hc
        rw [hf]
        exact hp c' hc'
    · exact hr c hc
  have ha (c0 : Cell) (hc0 : P c0.byte.owner) : ∀ c ∈ c0 :: cells, P c.byte.owner := by
    intro c hc
    rcases mem_cons.mp hc with rfl | hc
    · exact hc0
    · exact hce c hc
  unfold insertCells
  split
  · dsimp only
    split_ifs
    · apply hch
      · exact fun _ => rfl
      · exact hb
    · apply hch
      · exact fun _ => rfl
      · exact hb
    · exact ha ⟨-1, b⟩ hb
  · split_ifs <;> exact ha ⟨_, b⟩ hb

theorem Owns.insert (hP : P h) (hr : Owns P r) (ch : UInt8) : Owns P (insert h r ch) := by
  refine ⟨hr.pending, ?_⟩
  unfold Termios.insert insertEditline
  split_ifs
  · exact insertCells_owner hP hr.line
  · exact hr.line

theorem Owns.complete (hP : P h) (hr : Owns P r) (ch : UInt8) : Owns P (complete t h r ch) := by
  have hl : ∀ b ∈ r.line.bytes, P b.owner := by
    intro b hb
    obtain ⟨c, hc, rfl⟩ := mem_map.mp (mem_reverse.mp hb)
    exact hr.line c hc
  have hp : Owns P (Termios.putsQueue { r with line := .nil } r.line.bytes) :=
    Owns.putsQueue _ ⟨hr.pending, fun c hc => absurd hc not_mem_nil⟩ hl
  unfold Termios.complete
  split_ifs
  · exact hp.putQueue hP
  · exact hp

theorem Owns.store (hP : P h) (hr : Owns P r) (ch : UInt8) : Owns P (store t h r ch).1 := by
  -- the flag for literal characters does not matter
  have hcl : Owns P { r with lnch := false } := ⟨hr.pending, hr.line⟩
  unfold Termios.store
  split_ifs
  · exact hcl.insert hP ch
  · exact ⟨hr.pending, fun c hc => hr.line c ((eraseCells_sublist _).subset hc)⟩
  · refine ⟨hr.pending, ?_⟩
    rw [killEditline_eq]
    exact fun c hc => absurd hc not_mem_nil
  · exact hr.complete hP ch
  · exact hr.insert hP ch
  · exact hcl.putQueue (b := ⟨ch, h⟩) hP

theorem Owns.receive (hP : P h) (hr : Owns P r) (ch : UInt8) : Owns P (receive t h r ch).1 := by
  unfold Termios.receive
  cases process t r.lnch ch with
  | none => exact hr
  | some ch => exact hr.store hP ch

/-! ### What the steps of a read keep -/

/-- A property of the reader that the steps of a read keep, and one of the bytes it returns. -/
structure Steady (t : Settings) (h : ℕ) (I : Reader → Prop) (G : Typed → Prop) : Prop where
  own : ∀ ch, G ⟨ch, h⟩
  get : ∀ {r}, I r → G (getQueue h r).1 ∧ I (getQueue h r).2
  puts : ∀ {r} bs, I r → (∀ b ∈ bs, b.owner = h) → I (putsQueue r bs)
  receive : ∀ {r} ch, I r → I (receive t h r ch).1

def Good (I : Reader → Prop) (G : Typed → Prop) (out : Reader × Option (List Typed)) : Prop :=
  I out.1 ∧ ∀ bytes, out.2 = some bytes → ∀ b ∈ bytes, G b

section

variable {I : Reader → Prop} {G : Typed → Prop}

theorem Good.cons {out : Reader × Option (List Typed)} (hout : Good I G out)
    (hb : G b) : Good I G (out.1, out.2.map (b :: ·)) := by
  refine ⟨hout.1, fun bytes hby => ?_⟩
  obtain ⟨rest, hr, rfl⟩ := map_eq_some_iff.mp hby
  exact forall_mem_cons.mpr ⟨hb, hout.2 rest hr⟩

theorem good_none (hr : I r) : Good I G (r, none) := ⟨hr, fun _ hb => by cases hb⟩

theorem good_nil (hr : I r) : Good I G (r, some []) := by
  refine ⟨hr, fun bytes hby => ?_⟩
  cases hby
  exact fun b hb => absurd hb not_mem_nil

variable (hs : Steady t h I G)
include hs

theorem Steady.receiveAll (chs : List UInt8) : ∀ {r : Reader}, I r →
    I (receiveAll t h r chs).1 := by
  induction chs with
  | nil => exact id
  | cons ch chs ih =>
    intro r hr
    rw [Termios.receiveAll]
    split_ifs
    · exact hs.receive ch hr
    · exact ih (hs.receive ch hr)

theorem Steady.fillQueue (keys : List (Option Key)) (hr : I r) : I (fillQueue t h r keys).1 := by
  fun_induction Termios.fillQueue t h r keys with
  | case1 r => exact hr
  | case2 r keys hc ih => exact ih hr
  | case3 r keys hc => exact hr
  | case4 r k keys hd => exact hs.receiveAll k.chars hr
  | case5 r k keys hd ih => exact ih (hs.receiveAll k.chars hr)

theorem Steady.waitQueue (keys : List (Option Key)) (hr : I r) : I (waitQueue t h r keys).1 := by
  fun_induction Termios.waitQueue t h r keys with
  | case1 r keys he => exact hr
  | case2 r keys he r' hf =>
    have hr' := hs.fillQueue keys hr
    rwa [hf] at hr'
  | case3 r keys he r' rest hf ih =>
    have hr' := hs.fillQueue keys hr
    rw [hf] at hr'
    exact ih hr'

theorem Steady.takeQueue (n : ℕ) : ∀ {r : Reader}, I r →
    Good I G ((takeQueue h n r).1, some (takeQueue h n r).2) := by
  induction n with
  | zero => exact fun hr => good_nil hr
  | succ n ih =>
    intro r hr
    rw [Termios.takeQueue]
    split_ifs
    · exact (ih (hs.get hr).2).cons (hs.get hr).1
    · exact good_nil hr

theorem Steady.readLoop (n : ℕ) : ∀ {r : Reader} (keys : List (Option Key)), I r →
    Good I G (readLoop t h n r keys) := by
  induction n with
  | zero => exact fun _ hr => good_nil hr
  | succ n ih =>
    intro r keys hr
    obtain ⟨hb, hr1⟩ := hs.get hr
    rw [Termios.readLoop]
    split_ifs
    · exact (ih keys hr1).cons hb
    have hr2 := hs.fillQueue keys hr1
    split
    · next r2 hf =>
      rw [hf] at hr2
      exact good_none hr2
    · next r2 rest hf =>
      rw [hf] at hr2
      split_ifs
      · exact (ih rest hr2).cons hb
      · exact (good_nil hr2).cons hb

theorem Steady.readCookedTty (n : ℕ) (keys : List (Option Key)) (hr : I r) :
    Good I G (readCookedTty t h n r keys) := by
  unfold Termios.readCookedTty
  split_ifs
  · exact hs.takeQueue n hr
  · have hr' := hs.fillQueue keys hr
    split
    · next r' hf =>
      rw [hf] at hr'
      exact good_none hr'
    · next r' rest hf =>
      rw [hf] at hr'
      exact hs.takeQueue n hr'
  · have hr' := hs.waitQueue keys hr
    split
    · next r' hw =>
      rw [hw] at hr'
      exact good_none hr'
    · next r' rest hw =>
      rw [hw] at hr'
      exact hs.readLoop n rest hr'

theorem Steady.rawLoop (stored : Bool) (n : ℕ) (keys : List (Option Key)) (hr : I r) :
    Good I G (rawLoop h stored n r keys) := by
  fun_induction Termios.rawLoop h stored n r keys with
  | case1 => exact good_nil hr
  | case2 stored r keys n he ih => exact (ih (hs.get hr).2).cons (hs.get hr).1
  | case3 => exact good_none hr
  | case4 => exact good_nil hr
  | case5 stored r n he ch ctrl keys ih => exact (ih hr).cons (hs.own _)
  | case6 stored r n he first second rest keys r' ih =>
    refine (ih (hs.puts _ hr fun b hb => ?_)).cons (hs.own _)
    obtain ⟨ch, -, rfl⟩ := mem_map.mp hb
    rfl
  | case7 stored r n he keys ih => exact ih hr

end

theorem steady_owns (t : Settings) (hP : P h) : Steady t h (Owns P) (P ·.owner) where
  own _ := hP
  get hr := hr.getQueue hP
  puts bs hr hb := hr.putsQueue bs fun b hmem => hb b hmem ▸ hP
  receive ch hr := hr.receive hP ch

/-- **Reads return bytes of the programs whose bytes are there**, and leave no others. -/
theorem owns_termiosRead (hP : P h) (c : Call) (hr : Owns P r) :
    Good (Owns P) (P ·.owner) (termiosRead h c r) := by
  have hs := steady_owns c.settings hP
  unfold termiosRead
  split_ifs
  · exact good_nil hr
  · exact hs.rawLoop false c.count _ hr
  · exact hs.readCookedTty c.count c.keys hr

/-! ### The edit line after a read that returns -/

/-- Settings without special characters, with or without `ICANON`. -/
def plain (icanon : Bool) : Settings :=
  ⟨false, false, false, false, false, false, false, icanon, false, false, fun _ => vdisable⟩

/-- Without `ICANON` the line stays as it is. -/
theorem steady_line (hc : t.icanon = false) (h : ℕ) (l : Editline) :
    Steady t h (·.line = l) fun _ => True where
  own _ := trivial
  get {r} hr := by
    refine ⟨trivial, ?_⟩
    unfold getQueue
    cases r.queue.get r.cells <;> exact hr
  puts bs hr _ := (line_putsQueue _).trans hr
  receive {r} ch hr := by
    unfold receive
    cases process t r.lnch ch with
    | none => exact hr
    | some ch => simpa [store, hc] using hr

theorem line_receive_done (hd : (receive t h r ch).2) : (receive t h r ch).1.line = .nil := by
  unfold receive at hd ⊢
  cases hch : process t r.lnch ch with
  | none =>
    rw [hch] at hd
    cases hd
  | some ch =>
    rw [hch] at hd
    dsimp only at hd ⊢
    unfold store at hd ⊢
    split_ifs at hd ⊢
    unfold complete
    split_ifs <;> exact line_putsQueue _

theorem line_receiveAll_done {chs : List UInt8} : ∀ {r : Reader}, (receiveAll t h r chs).2 →
    (receiveAll t h r chs).1.line = .nil := by
  induction chs with
  | nil => exact nofun
  | cons ch chs ih =>
    intro r hd
    rw [receiveAll] at hd ⊢
    split_ifs at hd ⊢ with hone
    · exact line_receive_done hone
    · exact ih hd

theorem line_fillQueue_canon (hc : t.icanon)
    {rest : List (Option Key)} (hf : fillQueue t h r keys = (r', some rest)) : r'.line = .nil := by
  fun_induction fillQueue t h r keys with
  | case1 r => simp at hf
  | case2 r keys ht ih => exact ih hf
  | case3 r keys hfa => exact absurd hc hfa
  | case4 r k keys hd =>
    rw [← (Prod.mk.inj hf).1]
    exact line_receiveAll_done hd
  | case5 r k keys hd ih => exact ih hf

variable {bytes : List Typed} {c : Call}

/-- **A read that returns leaves no line behind** that was not there. -/
theorem line_termiosRead (hl : r.line = .nil)
    (hr : (termiosRead h c r).2 = some bytes) : (termiosRead h c r).1.line = .nil := by
  unfold termiosRead at hr ⊢
  split_ifs at hr ⊢ with hco hraw
  · exact hl
  · exact ((steady_line (t := plain false) rfl h .nil).rawLoop false c.count _ hl).1
  by_cases hc : c.settings.icanon
  case neg => exact ((steady_line (by simpa using hc) h .nil).readCookedTty _ _ hl).1
  unfold readCookedTty at hr ⊢
  split_ifs at hr ⊢
  · exact (takeQueue_spec h c.count r).2.2.2.1.trans hl
  · split at hr
    · cases hr
    · next r' rest hf =>
      exact (takeQueue_spec h c.count r').2.2.2.1.trans (line_fillQueue_canon hc hf)

/-! ### Runs of one program -/

variable {s s' : State} {out : List Typed}

@[simp] theorem reader_update (s : State) (h : ℕ) (r : Reader) : (s.update h r).reader h = r := by
  simp [State.reader, State.update]

variable {calls : List Call}

theorem returns_cons (hr : termiosRead h c (s.reader h) = (r, some bytes))
    (hc : returns h (s.update h r) calls = some (s', out)) :
    returns h s (c :: calls) = some (s', bytes ++ out) := by
  rw [returns, step, hr]
  simp only [hc, map_some]

/-- The reads of a run, one at a time. -/
theorem returns_induction (motive : State → Prop) (good : List Typed → Prop) (hnil : good [])
    (ha : ∀ {xs ys}, good xs → good ys → good (xs ++ ys))
    (hst : ∀ s c bytes, motive s → (termiosRead h c (s.reader h)).2 = some bytes →
      motive (step s h c) ∧ good bytes) (calls : List Call) :
    ∀ {s}, motive s → returns h s calls = some (s', out) → motive s' ∧ good out := by
  induction calls generalizing out with
  | nil =>
    intro s hs hrun
    obtain ⟨rfl, rfl⟩ := Prod.mk.inj (some.inj hrun)
    exact ⟨hs, hnil⟩
  | cons c calls ih =>
    intro s hs hrun
    rw [returns] at hrun
    split at hrun
    · cases hrun
    next bytes hr =>
    obtain ⟨⟨s1, rest⟩, hre, heq⟩ := map_eq_some_iff.mp hrun
    obtain ⟨rfl, rfl⟩ := Prod.mk.inj heq
    obtain ⟨hs1, hb⟩ := hst s c bytes hs hr
    obtain ⟨hs', hg⟩ := ih hs1 hre
    exact ⟨hs', ha hb hg⟩

theorem owns_returns (hP : P h) (hs : Owns P (s.reader h))
    (hrun : returns h s calls = some (s', out)) : ∀ b ∈ out, P b.owner := by
  refine (returns_induction (fun s => Owns P (s.reader h))
    (fun out => ∀ b ∈ out, P b.owner) (fun b hb => absurd hb not_mem_nil)
    (fun hxs hys b hb => (mem_append.mp hb).elim (hxs b) (hys b))
    (fun s c bytes hs hr => ?_) calls hs hrun).2
  have hg := owns_termiosRead hP c hs
  refine ⟨?_, hg.2 bytes hr⟩
  rw [step, reader_update]
  exact hg.1

theorem returns_frame (ha : a ≠ h) (hl : s.line = .nil)
    (hrun : returns h s calls = some (s', out)) : s'.tty a = s.tty a ∧ s'.line = .nil := by
  refine (returns_induction (fun s1 => s1.tty a = s.tty a ∧ s1.line = .nil)
    (fun _ => True) trivial (fun _ _ => trivial) (fun s1 c bytes hs1 hr => ?_) calls
    ⟨rfl, hl⟩ hrun).1
  refine ⟨⟨?_, line_termiosRead (r := s1.reader h) hs1.2 hr⟩, trivial⟩
  exact (update_of_ne ha _ _).trans hs1.1

/-! ### Reads that see and write everything -/

theorem process_plain {icanon lnch : Bool} : process (plain icanon) lnch ch = some ch := by
  have hc : convert (plain icanon) ch = some ch := by
    unfold convert
    split_ifs <;> first | rfl | simp_all [plain]
  have hf : flow (plain icanon) ch = some ch := by
    rw [flow, show (plain icanon).ixoff = false from rfl, Bool.and_false]
    exact hc
  unfold process
  split_ifs
  · rfl
  · simp_all [plain]
  · simp_all [plain]
  · simp_all [plain]
  · simp_all
  · exact hf

/-- Read `n` bytes of the queue that are there. -/
def take (n : ℕ) : Call := ⟨plain true, false, n, []⟩

/-- Read one byte, without `ICANON`, when `ch` is typed `n` times. -/
def type (ch : UInt8) (n : ℕ) : Call :=
  ⟨plain false, false, 1, replicate n (some (.reg ch false)) ++ [none, none]⟩

/-- Read a line of `n` bytes, when the end of the line is typed. -/
def enter (n : ℕ) : Call := ⟨plain true, false, n, [some (.reg 0x0a false)]⟩

theorem read_take (h : ℕ) (hn : n ≤ r.queue.count) : ∃ r', termiosRead h (take n) r =
    (r', some (r.pending.take n)) ∧ r'.pending = r.pending.drop n ∧ r'.cells = r.cells ∧
      r'.line = r.line := by
  obtain ⟨hout, hr, hc, hl, -⟩ := takeQueue_spec h n r
  unfold termiosRead
  by_cases hz : n = 0
  · subst hz
    exact ⟨r, rfl, rfl, rfl, rfl⟩
  have he : r.existQueue := by
    simp only [existQueue, bne_iff_ne]
    omega
  refine ⟨_, ?_, hr, hc, hl⟩
  rw [if_neg (show ¬ (take n).count = 0 from hz), ← hout]
  simp only [readCookedTty, he]
  rfl

/-- The reader after `ch` went to the queue. -/
def typed (h : ℕ) (ch : UInt8) (r : Reader) : Reader := putQueue { r with lnch := false } ⟨ch, h⟩

theorem receiveAll_plain :
    receiveAll (plain false) h r (Key.reg ch false).chars = (typed h ch r, false) := by
  have hc : (Key.reg ch false).chars = [ch] := by simp [Key.chars, keyChar]
  have hone : receive (plain false) h r ch = (typed h ch r, false) := by
    rw [receive, process_plain]
    rfl
  rw [hc, receiveAll, hone]
  rfl

theorem fillQueue_plain : ∀ r : Reader,
    fillQueue (plain false) h r (replicate n (some (.reg ch false)) ++ none :: keys) =
      ((typed h ch)^[n] r, some keys) := by
  induction n with
  | zero => exact fun r => rfl
  | succ n ih =>
    intro r
    rw [replicate_succ, cons_append, fillQueue, receiveAll_plain]
    exact ih _

theorem typed_iterate (ch : UInt8) (n : ℕ) : ∀ {r : Reader}, r.queue.count + n ≤ queueSize →
    ((typed h ch)^[n] r).pending = r.pending ++ replicate n ⟨ch, h⟩ ∧
      ((typed h ch)^[n] r).line = r.line ∧ (n ≠ 0 → ((typed h ch)^[n] r).lnch = false) := by
  induction n with
  | zero => exact fun _ => ⟨(append_nil _).symm, rfl, fun hne => absurd rfl hne⟩
  | succ n ih =>
    intro r hr
    have hone : r.queue.count < queueSize := by omega
    have hc : (typed h ch r).queue.count = r.queue.count + 1 := count_put hone _
    obtain ⟨hp, hl, hln⟩ := ih (r := typed h ch r) (by omega)
    rw [iterate_succ_apply]
    refine ⟨?_, hl, fun _ => ?_⟩
    · rw [hp, replicate_succ, append_cons]
      congr 1
      exact pending_putQueue (r := { r with lnch := false }) hone ⟨ch, h⟩
    · cases n with
      | zero => rfl
      | succ n => exact hln (Nat.succ_ne_zero n)

/-- Typing into an empty queue. -/
theorem read_type (ch : UInt8) (he : r.pending = []) (hfi : n + 1 ≤ queueSize) :
    ∃ r', termiosRead h (type ch (n + 1)) r = (r', some [⟨ch, h⟩]) ∧
      r'.pending = replicate n ⟨ch, h⟩ ∧ r'.cells = ((typed h ch)^[n + 1] r).cells ∧
      r'.line = r.line ∧ r'.lnch = false := by
  have hcou : r.queue.count = 0 := by rw [← length_pending, he, length_nil]
  obtain ⟨hp, hl, hln⟩ := typed_iterate (h := h) ch (n + 1) (r := r) (by omega)
  rw [he, nil_append] at hp
  obtain ⟨hb, hbs, hc, hl', hln'⟩ := getQueue_cons (h := h) hp
  obtain ⟨r1, hr1⟩ : ∃ r1, r1 = (typed h ch)^[n + 1] r := ⟨_, rfl⟩
  rw [← hr1] at hp hl hln hb hbs hc hl' hln' ⊢
  have hw : waitQueue (plain false) h r (type ch (n + 1)).keys = (r1, some [none]) := by
    rw [waitQueue, existQueue_of_nil he, if_neg Bool.false_ne_true]
    split
    · next r' hf =>
      rw [type, fillQueue_plain] at hf
      cases hf
    · next r' rest hf =>
      rw [type, fillQueue_plain, ← hr1] at hf
      obtain ⟨rfl, rfl⟩ : r1 = r' ∧ [none] = rest := by simpa using hf
      rw [waitQueue, existQueue_of_cons hp, if_pos rfl]
  have hr : termiosRead h (type ch (n + 1)) r = readLoop (plain false) h 1 r1 [none] := by
    have hco : termiosRead h (type ch (n + 1)) r =
        readCookedTty (plain false) h 1 r (type ch (n + 1)).keys := rfl
    rw [hco, readCookedTty, if_neg (show ¬ (plain false).icanon from Bool.false_ne_true), hw]
  refine ⟨(getQueue h r1).2, ?_, hbs, hc, hl'.trans hl, hln'.trans (hln (Nat.succ_ne_zero n))⟩
  rw [hr, readLoop]
  cases hex : (getQueue h r1).2.existQueue with
  | true => simp [readLoop, hb]
  | false => simp [fillQueue, plain, hb, hex]

/-- The end of a line typed when nothing waits returns the edit line. -/
theorem read_enter (he : r.pending = []) (hl : r.lnch = false) :
    ∃ r', termiosRead h (enter (r.line.cells.length + 1)) r =
      (r', some (r.line.bytes ++ [⟨0x0a, h⟩])) := by
  have hcou : r.queue.count = 0 := by rw [← length_pending, he, length_nil]
  have hf : r.line.bytes.length ≤ editlineSize := by
    simpa [Editline.bytes] using r.line.fits
  have hs : editlineSize < queueSize := by decide
  -- the line and its terminator fill the queue
  have hp : (putsQueue { r with line := .nil } r.line.bytes).pending = r.line.bytes := by
    rw [pending_putsQueue (by dsimp only; omega)]
    exact (congrArg (· ++ r.line.bytes) he).trans (nil_append _)
  have hc : (complete (plain true) h r 0x0a).pending = r.line.bytes ++ [⟨0x0a, h⟩] := by
    have hn : (plain true).ccNequ .veof 0x0a := by decide
    rw [complete, if_pos hn, pending_putQueue, hp]
    rw [← length_pending, hp]
    omega
  have hr : receiveAll (plain true) h r (Key.reg 0x0a false).chars =
      (complete (plain true) h r 0x0a, true) := by
    have hch : (Key.reg 0x0a false).chars = [0x0a] := rfl
    have hone : receive (plain true) h r 0x0a = (complete (plain true) h r 0x0a, true) := by
      rw [receive, process_plain]
      simp [store, hl, plain, Settings.ccEqu]
    rw [hch, receiveAll, hone]
    rfl
  have hre : termiosRead h (enter (r.line.cells.length + 1)) r =
      ((takeQueue h (r.line.cells.length + 1) (complete (plain true) h r 0x0a)).1,
        some (takeQueue h (r.line.cells.length + 1) (complete (plain true) h r 0x0a)).2) := by
    have hco : termiosRead h (enter (r.line.cells.length + 1)) r =
      readCookedTty (plain true) h (r.line.cells.length + 1) r [some (.reg 0x0a false)] := rfl
    rw [hco, readCookedTty, existQueue_of_nil he, fillQueue, hr]
    rfl
  refine ⟨_, hre.trans (Prod.ext rfl (congrArg some ?_))⟩
  rw [(takeQueue_spec h _ _).1, hc]
  exact take_of_length_le (by simp [Editline.bytes])

/-- **A program can read all bytes of its queue and of the edit line.** -/
theorem exposes : ∃ calls s' out, returns h s calls = some (s', out) ∧
    (∀ b ∈ (s.reader h).pending, b ∈ out) ∧ ∀ b ∈ s.line.bytes, b ∈ out := by
  obtain ⟨r1, hread1, hempty1, -, hline1⟩ := read_take h (le_refl (s.reader h).queue.count)
  rw [← length_pending, take_length] at hread1
  rw [← length_pending, drop_length] at hempty1
  obtain ⟨r2, hread2, hempty2, -, hline2, hlnch2⟩ :=
    read_type (h := h) 0x61 (n := 0) hempty1 (by decide)
  obtain ⟨r3, hread3⟩ := read_enter (h := h) hempty2 hlnch2
  have hnil : returns h (((s.update h r1).update h r2).update h r3) [] = some (_, []) := rfl
  have hrun3 := returns_cons (s := (s.update h r1).update h r2) (by rwa [reader_update]) hnil
  have hrun2 := returns_cons (s := s.update h r1) (by rwa [reader_update]) hrun3
  refine ⟨_, _, _, returns_cons hread1 hrun2, fun b hb => mem_append_left _ hb, fun b hb => ?_⟩
  have hl : r2.line = s.line := hline2.trans hline1
  rw [← hl] at hb
  exact mem_append_right _ (mem_append_right _ (mem_append_left _ (mem_append_left _ hb)))

/-- **A program can write every cell of the queue.** -/
theorem overwrites : ∃ calls s' out,
    returns h s calls = some (s', out) ∧ (∀ a ≠ h, s'.tty a = s.tty a) ∧
      ∀ p < queueSize, (s'.cells p).ch = ch := by
  obtain ⟨r1, hread1, hempty1, -, -⟩ := read_take h (le_refl (s.reader h).queue.count)
  rw [← length_pending, drop_length] at hempty1
  obtain ⟨k, hk⟩ : ∃ k, k + 1 = queueSize := ⟨2047, rfl⟩
  obtain ⟨r2, hread2, -, hcells2, -, -⟩ := read_type (h := h) ch hempty1 hk.le
  have hcount1 : r1.queue.count = 0 := by rw [← length_pending, hempty1, length_nil]
  obtain ⟨hf, -, -⟩ := typed_iterate (h := h) ch (k + 1) (r := r1) (by omega)
  rw [hempty1, nil_append] at hf
  have hnil : returns h ((s.update h r1).update h r2) [] = some (_, []) := rfl
  have hrun2 := returns_cons (s := s.update h r1) (by rwa [reader_update]) hnil
  refine ⟨_, _, _, returns_cons hread1 hrun2, fun a ha => ?_, fun p hp => ?_⟩
  · exact (update_of_ne ha _ _).trans (update_of_ne ha _ _)
  obtain ⟨r, hr⟩ : ∃ r, r = (typed h ch)^[k + 1] r1 := ⟨_, rfl⟩
  rw [← hr] at hf hcells2
  have hc : r.queue.count = queueSize := by rw [← length_pending, hf, length_replicate, hk]
  have hmem : r.cells p ∈ r.pending := cells_of_full hc hp
  rw [hf] at hmem
  change (r2.cells p).ch = ch
  rw [hcells2, eq_of_mem_replicate hmem]

/-! ### Privacy -/

/-- Reads of program `b` return no byte of program `a`, and after them the reads of `a` return the
bytes that waited for `a`, and then others of its own. -/
def Private (a b : ℕ) (s : State) : Prop :=
  ∀ calls s' out, returns b s calls = some (s', out) → (∀ x ∈ out, x.owner ≠ a) ∧
    ∀ calls' s'' out', returns a s' calls' = some (s'', out') → (∀ x ∈ out', x.owner = a) ∧
      (out'.map Typed.ch).take (s.reader a).pending.length =
        ((s.reader a).pending.map Typed.ch).take out'.length

theorem exists_other : ∃ ch, ch ≠ x := by
  by_cases hx : x = 0
  · exact ⟨1, by simp [hx]⟩
  · exact ⟨0, Ne.symm hx⟩

/-- After any reads of any programs, the terminal is private to `a` against `b` exactly if nothing
waits for `a`, no line is being typed, and what waits for `b` was not written over by `a`. -/
theorem private_iff (history : List (ℕ × Call)) {a b : ℕ} (hab : a ≠ b) :
    Private a b (play boot history) ↔
      ((play boot history).tty a).queue.count = 0 ∧ (play boot history).line.cells = [] ∧
        ∀ x ∈ ((play boot history).reader b).pending, x.owner ≠ a := by
  obtain ⟨s, hs⟩ : ∃ s, s = play boot history := ⟨_, rfl⟩
  rw [← hs]
  constructor
  · intro hp
    refine ⟨?_, ?_, ?_⟩
    · -- `b` types another character into every cell
      by_contra hco
      obtain ⟨ch, hch⟩ := exists_other
      obtain ⟨calls, s', out, hrun, htty, hce⟩ := overwrites
      have hq : (s'.reader a).queue = (s.reader a).queue := congrArg Tty.queue (htty a hab)
      have hpos : 1 ≤ (s'.reader a).queue.count := by
        rw [hq]
        exact Nat.one_le_iff_ne_zero.mpr hco
      obtain ⟨r', hre, -⟩ := read_take a hpos
      have hh' : (s'.reader a).pending.head? = some (s'.cells (s.tty a).queue.rpos) := by
        rw [pending, hq]
        exact head_contents hco
      have hh : (s.reader a).pending.head? = some (s.cells (s.tty a).queue.rpos) :=
        head_contents hco
      have hr' : returns a s' [take 1] = some (_, _) := returns_cons hre rfl
      have hsa := ((hp calls s' out hrun).2 _ _ _ hr').2
      obtain ⟨xs, hxs⟩ := head?_eq_some_iff.mp hh
      obtain ⟨xs', hxs'⟩ := head?_eq_some_iff.mp hh'
      rw [hxs, hxs'] at hsa
      have hcha : (s'.cells (s.tty a).queue.rpos).ch = (s.cells (s.tty a).queue.rpos).ch := by
        simpa using hsa
      rw [hce _ (s.tty a).queue.rpos_lt] at hcha
      exact hch hcha
    · -- a byte of the line is returned to `b` if it is of `a`, and to `a` if it is not
      obtain ⟨calls, s', out, hrun, -, hli⟩ := exposes
      obtain ⟨calls', s'', out', hr', -, hl'⟩ := exposes
      have hle := (hp calls s' out hrun).1
      have hr := ((hp [] s [] rfl).2 calls' s'' out' hr').1
      refine eq_nil_iff_forall_not_mem.mpr fun c hc => ?_
      have hmem : c.byte ∈ s.line.bytes := mem_reverse.mpr (mem_map_of_mem hc)
      exact hle _ (hli _ hmem) (hr _ (hl' _ hmem))
    · obtain ⟨calls, s', out, hrun, hpe, -⟩ := exposes
      exact fun x hx => (hp calls s' out hrun).1 x (hpe x hx)
  · rintro ⟨hco, hli, hpe⟩ calls s' out hrun
    have hnil : s.line = .nil := by
      cases hl : s.line with
      | mk cells fits =>
        rw [hl] at hli
        subst hli
        rfl
    have hn : (s.reader a).pending = [] := ((s.tty a).queue.contents_eq_nil s.cells).mpr hco
    refine ⟨?_, fun calls' s'' out' hr' => ⟨?_, ?_⟩⟩
    · refine owns_returns (P := fun i => i ≠ a) hab.symm ⟨hpe, fun c hc => ?_⟩ hrun
      exact absurd (hli ▸ hc) not_mem_nil
    · obtain ⟨htty, hl'⟩ := returns_frame hab hnil hrun
      refine owns_returns (P := fun i => i = a) rfl ⟨fun x hx => ?_, fun c hc => ?_⟩ hr'
      · have hc' : (s'.reader a).queue.count = 0 := (congrArg (·.queue.count) htty).trans hco
        rw [pending, (contents_eq_nil _ _).mpr hc'] at hx
        exact absurd hx not_mem_nil
      · have hce : (s'.reader a).line.cells = [] := congrArg Editline.cells hl'
        exact absurd (hce ▸ hc) not_mem_nil
    · rw [hn]
      simp

def keysOf (text : List Char) : List (Option Key) :=
  text.map fun c => some (.reg c.toNat.toUInt8 false)

/-- A program that has read its line leaves nothing. -/
theorem private_iff_whole_line :
    Private 1 2 (play boot [(1, ⟨ttyDefault, false, 10, keysOf ['a', 'b', '\n']⟩)]) :=
  (private_iff _ (by decide)).mpr ⟨by decide +kernel, by decide +kernel, by decide +kernel⟩

/-- Program 1 reads one byte of the line `ab`, program 2 reads the line `xyz`, and program 1 reads
two bytes more.  Program 1 is stopped when it has typed `s`, and program 2 reads an empty line. -/
theorem private_fails :
    ((returns 2 (play boot [(1, ⟨ttyDefault, false, 1, keysOf ['a', 'b', '\n']⟩)])
        [⟨ttyDefault, false, 4, keysOf ['x', 'y', 'z', '\n']⟩]).bind fun p =>
          (returns 1 p.1 [⟨ttyDefault, false, 2, []⟩]).map Prod.snd) = some [⟨0x79, 2⟩, ⟨0x7a, 2⟩] ∧
      (returns 2 (play boot [(1, ⟨ttyDefault, false, 10, keysOf ['s']⟩)])
        [⟨ttyDefault, false, 10, keysOf ['\n']⟩]).map Prod.snd = some [⟨0x73, 1⟩, ⟨0x0a, 2⟩] := by
  decide +kernel

end Termios
