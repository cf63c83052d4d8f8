import Dj64.Malloc.Sessions

/-!
# `memalign` and `valloc` on the heap of `nmalloc`

`memalign.c` cuts a block of `malloc` in pieces and frees those that are not needed.  It writes
block headers as `libc/malloc.h` declares them, a `size_t` that starts four bytes before the data
and another one at the end of the block.  In a block of `nmalloc` the word before the data is
`nextfree`, which is 0 while the block is in use.
-/

namespace Nmalloc

open ByteMemory

namespace Target

variable (T : Target)

/-! ### The functions -/

def sizeAt (h : Heap) (a : ℕ) : ℕ := load h.mem a T.ptr

def setSizeAt (h : Heap) (a v : ℕ) : Heap := { h with mem := store h.mem a T.ptr v }

/-- `align_val` and `align_ptr`, in the arithmetic of `size_t`. -/
def alignVal (val al : ℕ) : ℕ :=
  let mask := (al + T.sizeMod - 1) % T.sizeMod
  ((val + mask) % T.sizeMod) &&& (T.sizeMod - 1 - mask)

/-- The address of `ENDSZ(bp)`. -/
def endsz (h : Heap) (bp : ℕ) : ℕ := (bp + T.sizeAt h bp / 2 * 2 + 4) % T.sizeMod

def beforeBlock (h : Heap) (bp : ℕ) : ℕ :=
  (bp + 2 * T.sizeMod - T.sizeAt h (bp - 4) / 2 * 2 - 8) % T.sizeMod

/-- `DATA(bp)`: the field after `size`. -/
def dataOf (bp : ℕ) : ℕ := bp + T.ptr

def setEndsz (h : Heap) (bp : ℕ) : Heap := T.setSizeAt h (T.endsz h bp) (T.sizeAt h bp)

def splitSmallAlloc (h : Heap) (ptr splitPos : ℕ) : ℕ × Heap :=
  let b1 := ptr - 4
  let b1Size := T.sizeAt h b1
  let b2 := T.beforeBlock h b1
  let h := T.setSizeAt h b2 ((T.sizeAt h b2 + splitPos) % T.sizeMod)
  let b1 := b1 + splitPos
  let h := T.setSizeAt h b1 ((b1Size + T.sizeMod - splitPos) % T.sizeMod)
  let h := T.setEndsz h b1
  let h := T.setEndsz h b2
  (T.dataOf b1, h)

def splitAlloc (h : Heap) (ptr splitPos : ℕ) : ℕ × Heap :=
  let b1 := ptr - 4
  let b2 := ptr + splitPos - 4
  let h := T.setSizeAt h b2 (((T.sizeAt h b1 + T.sizeMod - splitPos) % T.sizeMod) ||| 1)
  let h := T.setSizeAt h b1 ((splitPos - 8) ||| 1)
  let h := T.setEndsz h b1
  let h := T.setEndsz h b2
  (T.dataOf b2, h)

/-- The part of `memalign` before the aligned address: it is split off and freed, or added to the
block below. -/
def releaseBefore (h : Heap) (ptr beforeSize : ℕ) : Except Fault (ℕ × Heap) := do
  if 8 < beforeSize then
    let (alignedPtr, h) := T.splitAlloc h ptr beforeSize
    let h ← T.nfree h ptr
    return (alignedPtr, h)
  else if beforeSize ≠ 0 then return T.splitSmallAlloc h ptr beforeSize
  else return (ptr, h)

/-- The part of `memalign` after the aligned block. -/
def releaseAfter (h : Heap) (alignedPtr amt afterSize : ℕ) : Except Fault Heap := do
  if 16 ≤ afterSize then
    let (after, h) := T.splitAlloc h alignedPtr (amt + 8)
    T.nfree h after
  else return h

/-- `memalign`; `ALIGN` of `libc/malloc.h` is 8. -/
def memalign (h : Heap) (sbrk : ℕ → ℕ) (al amt : ℕ) : Except Fault (ℕ × Heap) := do
  if al ≠ T.alignVal al al then return (0, h)
  else if al ≤ 8 then T.nmalloc h sbrk amt
  else
    let amt := T.alignVal amt 8
    let allocSize := (amt + al) % T.sizeMod
    let (ptr, h) ← T.nmalloc h sbrk allocSize
    if ptr = 0 then return (0, h)
    else
      let beforeSize := (T.alignVal ptr al + T.sizeMod - ptr) % T.sizeMod
      let (alignedPtr, h) ← T.releaseBefore h ptr beforeSize
      let h ← T.releaseAfter h alignedPtr amt
        ((allocSize + 2 * T.sizeMod - beforeSize - amt) % T.sizeMod)
      return (alignedPtr, h)

/-- `valloc`; `page` is what `getpagesize` returns. -/
def valloc (page : ℕ) (h : Heap) (sbrk : ℕ → ℕ) (amt : ℕ) : Except Fault (ℕ × Heap) :=
  T.memalign h sbrk page amt

end Target

/-! ### Runs -/

/-- The calls of a client, with `memalign` and `valloc`. -/
inductive AlignOp
  | plain (o : Op)
  | memalign (al amt : ℕ) (sbrk : ℕ → ℕ)
  | valloc (amt : ℕ) (sbrk : ℕ → ℕ)

/-- The alignment and the size that a call asks for. -/
def AlignOp.asks (page : ℕ) : AlignOp → Option (ℕ × ℕ)
  | .plain _ => none
  | .memalign al amt _ => some (al, amt)
  | .valloc amt _ => some (page, amt)

namespace Target

variable (T : Target) (page : ℕ)

/-- One call of the client. -/
def stepAlign (st : Session) : AlignOp → Except Fault Session
  | .plain o => T.step st o
  | .memalign al amt sbrk => do
    let (p, h) ← T.memalign st.heap sbrk al amt
    return Session.returned T st 0 p h
  | .valloc amt sbrk => do
    let (p, h) ← T.valloc page st.heap sbrk amt
    return Session.returned T st 0 p h

/-- The size that `memalign` asks `malloc` for. -/
def requested (al amt : ℕ) : ℕ := if al ≤ 8 then amt else (T.alignVal amt 8 + al) % T.sizeMod

/-- The call of `nmalloc` in it. -/
def inner : AlignOp → Op
  | .plain o => o
  | .memalign al amt sbrk => .malloc (T.requested al amt) sbrk
  | .valloc amt sbrk => .malloc (T.requested page amt) sbrk

/-- The alignment is a power of two, and the call of `nmalloc` is a legal one. -/
def LegalAlign (st : Session) (o : AlignOp) : Prop :=
  (∀ e ∈ o.asks page, e.1.isPowerOfTwo) ∧ T.Legal T.Fits st (T.inner page o)

/-- The call of `nmalloc` keeps the heap sound. -/
def SafeAlign (st : Session) (o : AlignOp) : Prop := T.Safe st (T.inner page o)

end Target

def AlignOp.Uncut (page : ℕ) (o : AlignOp) : Prop := ∀ e ∈ o.asks page, e.1 ≤ 8

/-- The pointer `p` is a new live block, aligned and large enough.  The other live blocks have kept
their bytes, the heap is sound, and `p` can be passed to `free` and `realloc`. -/
structure Served (T : Target) (st st' : Session) (p al amt : ℕ) : Prop where
  aligned : al ∣ p
  room : amt + T.dataOffset ≤ T.get st'.heap (p - T.dataOffset) .sz
  live : p ∈ st'.live
  fresh : p ∉ st.live
  frame : ∀ p' ∈ st.live, p' ∈ st'.live ∧ ∀ x, p' ≤ x →
    x < p' - T.dataOffset + T.get st.heap (p' - T.dataOffset) .sz → st'.heap.mem x = st.heap.mem x
  sound : st'.Sound T
  free : ∃ st'', T.step st' (.free p) = .ok st'' ∧ st''.Sound T
  realloc : ∀ size sbrk, T.Legal T.Fits st' (.realloc p size sbrk) →
    T.Safe st' (.realloc p size sbrk) →
    ∃ st'', T.step st' (.realloc p size sbrk) = .ok st'' ∧ st''.Sound T

/-- The call returns, and has been served unless there is no memory for `malloc`. -/
def Answered (T : Target) (page : ℕ) (st : Session) (o : AlignOp) (al amt : ℕ) : Prop :=
  ∃ st', T.stepAlign page st o = .ok st' ∧
    ((∃ size sbrk, T.inner page o = .malloc size sbrk ∧ T.nmalloc st.heap sbrk size =
      .ok (0, st'.heap)) ∨
      ∃ p, Served T st st' p al amt)

section Decidability

variable (T : Target) (page : ℕ) (st : Session) (o : AlignOp)

instance decidableLegalAlign : Decidable (T.LegalAlign page st o) :=
  inferInstanceAs (Decidable ((∀ e ∈ o.asks page, e.1.isPowerOfTwo) ∧
    T.Legal T.Fits st (T.inner page o)))

instance decidableSafeAlign : Decidable (T.SafeAlign page st o) :=
  inferInstanceAs (Decidable (T.Safe st (T.inner page o)))

instance decidableUncut : Decidable (o.Uncut page) :=
  inferInstanceAs (Decidable (∀ e ∈ o.asks page, e.1 ≤ 8))

end Decidability

namespace Target

variable {T : Target} {page al amt size p q x : ℕ} {st st' : Session} {o : AlignOp} {sbrk : ℕ → ℕ}

/-! ### Alignments up to 8 -/

theorem alignVal_self (hal : al ≤ 8) (hpow : al.isPowerOfTwo) : T.alignVal al al = al := by
  have hc : al = 1 ∨ al = 2 ∨ al = 4 ∨ al = 8 := by
    obtain ⟨k, rfl⟩ := hpow
    have hk : k < 4 := by
      by_contra hk
      have : 2 ^ 4 ≤ 2 ^ k := Nat.pow_le_pow_right (by decide) (by omega)
      omega
    interval_cases k <;> simp
  have hmod : T.sizeMod = 256 ^ 4 ∨ T.sizeMod = 256 ^ 8 := T.ptr_cases.imp (congrArg _) (congrArg _)
  rcases hmod with h | h <;> rcases hc with rfl | rfl | rfl | rfl <;> rw [alignVal, h] <;> decide

theorem memalign_eq_nmalloc (hal : al ≤ 8) (hpow : al.isPowerOfTwo) {h : Heap} :
    T.memalign h sbrk al amt = T.nmalloc h sbrk (T.requested al amt) := by
  rw [memalign, if_neg (not_not.mpr (alignVal_self hal hpow).symm), if_pos hal,
    requested, if_pos hal]

theorem stepAlign_uncut (hpow : ∀ e ∈ o.asks page, e.1.isPowerOfTwo) (hcut : o.Uncut page) :
    T.stepAlign page st o = T.step st (T.inner page o) := by
  cases o with
  | plain o => rfl
  | memalign al amt sbrk =>
    have hal : al ≤ 8 := hcut (al, amt) rfl
    rw [stepAlign, memalign_eq_nmalloc hal (hpow (al, amt) rfl), inner, step]
  | valloc amt sbrk =>
    have hal : page ≤ 8 := hcut (page, amt) rfl
    rw [stepAlign, valloc, memalign_eq_nmalloc hal (hpow (page, amt) rfl), inner, step]

theorem stepAlign_sane (st : Session) (o : AlignOp) (hs : T.Sane st)
    (ho : T.LegalAlign page st o ∧ T.SafeAlign page st o ∧ o.Uncut page) :
    ∃ st', T.stepAlign page st o = .ok st' ∧ T.Sane st' := by
  obtain ⟨⟨hpow, hl⟩, hsa, hcut⟩ := ho
  rw [stepAlign_uncut hpow hcut]
  exact step_sane T.Fits (fun _ => id) st _ hs ⟨hl, hsa⟩

theorem Ledger.mem_eq {h h1 : Heap} {R R' R1 : Set (ℕ × ℕ)} (hl : Ledger R R' q x h h1 R1) :
    h1.mem = h.mem := by
  rcases hl with ⟨rfl, -⟩ | ⟨rfl, -⟩ <;> rfl

/-- What a call of `malloc` does. -/
theorem Sane.malloc (hs : T.Sane st) (hl : T.Legal T.Fits st (.malloc size sbrk))
    (hsa : T.Safe st (.malloc size sbrk)) :
    ∃ st', T.step st (.malloc size sbrk) = .ok st' ∧ T.Sane st' ∧
      (T.nmalloc st.heap sbrk size = .ok (0, st'.heap) ∨
        ∃ p, size + T.dataOffset ≤ T.get st'.heap (p - T.dataOffset) .sz ∧
          p ∈ st'.live ∧ p ∉ st.live ∧
          ∀ p' ∈ st.live, p' ∈ st'.live ∧ ∀ x, p' ≤ x →
            x < p' - T.dataOffset + T.get st.heap (p' - T.dataOffset) .sz → st'.heap.mem x =
              st.heap.mem x) := by
  obtain ⟨fl, hw⟩ := hs.wf
  obtain ⟨ha, ho'⟩ := hw.answer hs.obtained hl.2 hsa
  obtain ⟨p, h', h1, R1, hrun, hled, hk, hres⟩ := hw.nmalloc hl.1 rfl ha
  refine ⟨_, by rw [step, hrun]; rfl, hs.allocated ho' hled hk hres, ?_⟩
  cases hres with
  | null fl' wf => exact .inl hrun
  | block m fl' wf fresh room =>
    have hdo := T.dataOffset_pos
    have hli : (Session.returned T st 0 (m + T.dataOffset) h').live =
      (m + T.dataOffset) :: st.live := by
      rw [Session.returned]
      rw [if_neg (by omega), List.erase_of_not_mem hs.zero_notMem]
    refine .inr ⟨m + T.dataOffset, ?_, ?_, fresh, ?_⟩
    · rwa [Nat.add_sub_cancel]
    · rw [hli]
      exact .head _
    intro p' hp'
    obtain ⟨m', hm', rfl⟩ := hs.exists_block hp'
    have hget : T.get h1 m' .sz = T.get st.heap m' .sz := by rw [get, get, hled.mem_eq]
    refine ⟨hli ▸ .tail _ hp', fun x hx hx' => ?_⟩
    rw [Nat.add_sub_cancel, ← hget] at hx'
    exact (hk.data m' hm' x hx hx').trans (congrFun hled.mem_eq x)

theorem Sane.released (hs : T.Sane st') (hp : p ∈ st'.live) :
    (∃ st'', T.step st' (.free p) = .ok st'' ∧ st''.Sound T) ∧
      ∀ size sbrk, T.Legal T.Fits st' (.realloc p size sbrk) → T.Safe st' (.realloc p size sbrk) →
        ∃ st'', T.step st' (.realloc p size sbrk) = .ok st'' ∧ st''.Sound T := by
  constructor
  · obtain ⟨st'', hst, hs''⟩ := step_sane T.Fits (fun _ => id) st' (.free p) hs ⟨.inr hp, trivial⟩
    exact ⟨st'', hst, hs''.sound⟩
  · intro size sbrk hl hsa
    obtain ⟨st'', hst, hs''⟩ := step_sane T.Fits (fun _ => id) st' _ hs ⟨hl, hsa⟩
    exact ⟨st'', hst, hs''.sound⟩

theorem Sane.answered (hs : T.Sane st)
    (ho : T.LegalAlign page st o ∧ T.SafeAlign page st o ∧ o.Uncut page)
    (ha : o.asks page = some (al, amt)) : Answered T page st o al amt := by
  obtain ⟨⟨hpow, hle⟩, hsa, hcut⟩ := ho
  have hal : al ≤ 8 := hcut (al, amt) ha
  obtain ⟨sbrk, hin⟩ : ∃ sbrk, T.inner page o = .malloc amt sbrk := by
    cases o with
    | plain o => cases ha
    | memalign al' amt' sbrk =>
      cases ha
      exact ⟨sbrk, by rw [inner, requested, if_pos hal]⟩
    | valloc amt' sbrk =>
      cases ha
      exact ⟨sbrk, by rw [inner, requested, if_pos hal]⟩
  unfold SafeAlign at hsa
  rw [hin] at hle hsa
  obtain ⟨st', hst, hs', hres⟩ := hs.malloc hle hsa
  refine ⟨st', by rw [stepAlign_uncut hpow hcut, hin, hst], ?_⟩
  rcases hres with hn | ⟨p, hro, hl, hfr, hf⟩
  · exact .inl ⟨amt, sbrk, hin, hn⟩
  obtain ⟨hfre, hr⟩ := hs'.released hl
  have hdvd : al ∣ align := by
    obtain ⟨k, hk⟩ := hpow (al, amt) ha
    have hk' : 2 ^ k ≤ 2 ^ 3 := by
      rw [← hk]
      exact hal
    dsimp only at hk
    rw [hk]
    exact Nat.pow_dvd_pow 2 (((Nat.pow_le_pow_iff_right (by decide)).mp hk').trans
      (by decide) : k ≤ 4)
  exact .inr ⟨p, hdvd.trans (hs'.sound.aligned p hl).1, hro, hl, hfr, hf, hs'.sound, hfre, hr⟩

end Target

/-! ### Whole runs -/

/-- **`memalign` without cuts**: in every run of legal and safe calls with alignments up to 8, the
heap is sound in every state reached, and every further such call of `memalign` or `valloc` is
served. -/
theorem memalign_served (T : Target) (page : ℕ) (mem : Mem) (os : List AlignOp)
    (hos : Runs.Admits (T.stepAlign page)
      (fun st o => T.LegalAlign page st o ∧ T.SafeAlign page st o ∧ o.Uncut page) (start mem) os) :
    ∀ os', os' <+: os → ∃ st, Runs.run (T.stepAlign page) (start mem) os' = .ok st ∧ st.Sound T ∧
      ∀ o al amt, o.asks page = some (al, amt) →
        T.LegalAlign page st o ∧ T.SafeAlign page st o ∧ o.Uncut page →
          Answered T page st o al amt := by
  intro os' hp
  obtain ⟨st, hrun, hs⟩ := Runs.run_invariant Target.stepAlign_sane (Target.sane_start mem)
    (hos.of_prefix hp)
  exact ⟨st, hrun, hs.sound, fun o al amt ha ho => hs.answered ho ha⟩

/-- A run with three alignments. -/
theorem memalign_served_run : ∃ st, Runs.run (dj64.stepAlign 4096) (start fun _ => 0)
        [.memalign 8 100 (answers 0x10000), .plain (.malloc 16 (answers (2 ^ 64 - 1))),
          .memalign 1 0 (answers (2 ^ 64 - 1)), .plain (.free 0x10020),
          .memalign 4 5000 (answers 0x20000)] = .ok st ∧ st.Sound dj64 ∧
      ∀ o al amt, o.asks 4096 = some (al, amt) →
        dj64.LegalAlign 4096 st o ∧ dj64.SafeAlign 4096 st o ∧ o.Uncut 4096 →
          Answered dj64 4096 st o al amt :=
  memalign_served dj64 4096 _ _ (by decide +kernel) _ (List.prefix_refl _)

/-- With an alignment of 64 the block is cut before the aligned address.  `split_alloc` writes the
size of the first piece over its `nextfree`, and `free` takes it for a block that was freed before.
-/
theorem memalign_aborts :
    (dj64.LegalAlign 4096 (start fun _ => 0) (.memalign 64 8 (answers 0x10000)) ∧
      dj64.SafeAlign 4096 (start fun _ => 0) (.memalign 64 8 (answers 0x10000)) ∧
      Runs.succeeds (dj64.nmalloc (initial fun _ => 0) (answers 0x10000) (dj64.requested 64 8))
      (fun r => r.1 ≠ 0)) ∧
      ∀ st', dj64.stepAlign 4096 (start fun _ => 0) (.memalign 64 8 (answers 0x10000))
        ≠ .ok st' := by
  refine ⟨by decide +kernel, fun st' hst' => ?_⟩
  have hf :
    Runs.succeeds (dj64.stepAlign 4096 (start fun _ => 0) (.memalign 64 8 (answers 0x10000)))
      (fun _ => true) = false := by
    decide +kernel
  rw [hst'] at hf
  cases hf

end Nmalloc
