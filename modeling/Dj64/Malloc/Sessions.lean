import Dj64.Malloc.Realloc

/-!
# Whole runs of the allocator

A `Session` is a heap with the pointers its client holds and the regions it has obtained.  Its
steps are the four calls, with an arbitrary answer of the memory source during each, and writes of
the client to its own blocks.
-/

namespace Nmalloc

open Tiling List Nat Function Set Runs Target

/-- What a client can do, with the answer of the memory source during the call: allocate, free,
reallocate, and write a byte of a block it holds. -/
inductive Op
  | malloc (size : ℕ) (sbrk : ℕ → ℕ)
  | calloc (n s : ℕ) (sbrk : ℕ → ℕ)
  | realloc (p size : ℕ) (sbrk : ℕ → ℕ)
  | free (p : ℕ)
  | write (a : ℕ) (b : UInt8)

/-- A heap with the pointers the client holds and the regions obtained from the source, the latter
without the bytes discarded for alignment. -/
structure Session where
  heap : Heap
  live : List ℕ
  regions : List (ℕ × ℕ)

namespace Target

variable (T : Target)

/-- The regions after the source answered `e.1` to a request of `e.2` bytes: a refusal changes
nothing, an answer at the end of `lastsbrk` extends the region that ends there. -/
def obtained (h : Heap) (rs : List (ℕ × ℕ)) (e : ℕ × ℕ) : List (ℕ × ℕ) :=
  if e.1 = T.sizeMod - 1 then rs
  else if e.1 = T.expected h then rs.map fun r => if r.2 = e.1 then (r.1, r.2 + e.2) else r
  else (alignUp e.1, e.1 + e.2) :: rs

/-- The session after a call that returned the pointer `p` in place of `old`. -/
def Session.returned (st : Session) (old p : ℕ) (h' : Heap) : Session where
  heap := h'
  live := if p = 0 then st.live else p :: st.live.erase old
  regions := (h'.sbrks.drop st.heap.sbrks.length).foldl (T.obtained st.heap) st.regions

/-- One action of the client. -/
def step (st : Session) : Op → Except Fault Session
  | .malloc size sbrk => do
    let (p, h) ← T.nmalloc st.heap sbrk size
    return Session.returned T st 0 p h
  | .calloc n s sbrk => do
    let (p, h) ← T.ncalloc st.heap sbrk n s
    return Session.returned T st 0 p h
  | .realloc p size sbrk => do
    let (p', h) ← T.nrealloc st.heap sbrk p size
    return Session.returned T st p p' h
  | .free p => do
    let h ← T.nfree st.heap p
    return { st with heap := h, live := st.live.erase p }
  | .write a b => .ok { st with heap := { st.heap with mem := update st.heap.mem a b } }

def total (h : Heap) : ℕ := ((h.sbrks.filter fun e => e.1 ≠ T.sizeMod - 1).map Prod.snd).sum

/-- The answer `q` to a request of `x` bytes is a refusal, or memory that is used for nothing else:
it is apart from the earlier regions and from `nm_state`, and the total stays below `2 ^ 32`. -/
def Sourced (st : Session) (q x : ℕ) : Prop :=
  q = T.sizeMod - 1 ∨ (0 < q ∧ q + x ≤ 256 ^ T.ptr ∧ T.total st.heap + x < 2 ^ 32 ∧
    (∀ r ∈ st.regions, q + x ≤ r.1 ∨ r.2 ≤ q) ∧ (q + x ≤ T.none ∨ T.none < q))

/-- A legal request: its size is acceptable and the source behaves during the call. -/
def Request (fits : ℕ → Prop) (st : Session) (size : ℕ) (sbrk : ℕ → ℕ) : Prop :=
  fits size ∧ T.Sourced st (sbrk (T.sbrkRequest st.heap (T.szneed size)))
    (T.sbrkRequest st.heap (T.szneed size))

/-- What the client and the source may do: requests of acceptable sizes, pointers that are live,
writes inside live blocks. -/
def Legal (fits : ℕ → Prop) (st : Session) : Op → Prop
  | .malloc size sbrk => T.Request fits st size sbrk
  | .calloc n s sbrk => T.Request fits st (n * s) sbrk
  | .realloc p size sbrk => (p = 0 ∨ p ∈ st.live) ∧ T.Request fits st size sbrk
  | .free p => p = 0 ∨ p ∈ st.live
  | .write a _ => ∃ p ∈ st.live, p ≤ a ∧ a < p - T.dataOffset + T.get st.heap (p - T.dataOffset) .sz

/-- The answer `q` does not displace a `lastsbrk` without room for free-list links, and no block can
outgrow the last bucket. -/
def Roomy (st : Session) (q x : ℕ) : Prop :=
  q = T.sizeMod - 1 ∨ ((q ≠ T.expected st.heap → st.heap.lastsbrk ≠ 0 →
      T.freeHeader ≤ T.get st.heap st.heap.lastsbrk .sz) ∧
    T.total st.heap + x < 2 ^ (T.nflists - 1))

/-- The further condition under which the heap stays sound. -/
def Safe (st : Session) : Op → Prop
  | .malloc size sbrk | .realloc _ size sbrk => T.Roomy st
      (sbrk (T.sbrkRequest st.heap (T.szneed size))) (T.sbrkRequest st.heap (T.szneed size))
  | .calloc n s sbrk => T.Roomy st
      (sbrk (T.sbrkRequest st.heap (T.szneed (n * s)))) (T.sbrkRequest st.heap (T.szneed (n * s)))
  | .free _ | .write _ _ => True

end Target

def start (mem : ByteMemory.Mem) : Session := ⟨initial mem, [], []⟩

def Session.held (T : Target) (st : Session) : Set ℕ := {m | m + T.dataOffset ∈ st.live}

/-- A sound heap, in the terms of the comment on the mechanism in `nmalloc.inc`. -/
structure Session.Sound (T : Target) (st : Session) : Prop where
  invariant : ∃ fl : ℕ → List ℕ,
    Tiled T.dataOffset (fun a => T.get st.heap a .prev) (fun a => T.get st.heap a .next)
      (fun a => T.get st.heap a .sz) {r | r ∈ st.regions}
      {a | a ∈ st.held T ∨ Free fl a ∨ (a = st.heap.lastsbrk ∧ a ≠ 0)} ∧
    (∀ a, a ∈ st.held T → ¬ Free fl a ∧ a ≠ st.heap.lastsbrk) ∧
    (∀ a, Free fl a → a ≠ st.heap.lastsbrk) ∧
    FreeLists T (T.get st.heap) st.heap.freehdrs fl ∧
    (∀ a, Free fl a → ¬ Free fl (T.get st.heap a .next) ∧
      (T.get st.heap a .next = st.heap.lastsbrk → st.heap.lastsbrk = 0)) ∧
    (st.heap.lastsbrk ≠ 0 → ¬ Free fl (T.get st.heap st.heap.lastsbrk .next))
  aligned : ∀ p ∈ st.live, align ∣ p ∧ T.dataOffset ≤ p
  nodup : st.live.Nodup
  disjoint : ∀ p ∈ st.live, ∀ p' ∈ st.live, p ≠ p' →
    p - T.dataOffset + T.get st.heap (p - T.dataOffset) .sz ≤ p' ∨
      p' - T.dataOffset + T.get st.heap (p' - T.dataOffset) .sz ≤ p

namespace Target

variable {T : Target} {st : Session} {h h' g : Heap} {R R' R1 : Set (ℕ × ℕ)} {L H : Set ℕ}
  {rs : List (ℕ × ℕ)} {q x p m size n old : ℕ} {sbrk : ℕ → ℕ} {fl fl' : ℕ → List ℕ}

/-! ### The regions -/

/-- The regions are apart, and none is larger than all that was obtained. -/
structure Obtained (T : Target) (h : Heap) (rs : List (ℕ × ℕ)) : Prop where
  apart : ∀ r ∈ rs, ∀ r' ∈ rs, r ≠ r' → r.2 ≤ r'.1 ∨ r'.2 ≤ r.1
  sizes : ∀ r ∈ rs, r.2 - r.1 ≤ T.total h

theorem total_asked (hq : q ≠ T.sizeMod - 1) : T.total (asked h q x) = T.total h + x := by
  simp [total, asked, hq]

theorem total_asked_refused (hq : q = T.sizeMod - 1) : T.total (asked h q x) = T.total h := by
  simp [total, asked, hq]

theorem mem_grown {r : ℕ × ℕ} (hr : r ∈ rs) (hq : r.2 = q)
    (hu : ∀ r' ∈ rs, r'.2 = q → r' = r) (r' : ℕ × ℕ) :
    r' ∈ rs.map (fun r => if r.2 = q then (r.1, r.2 + x) else r) ↔
      r' ∈ insert (r.1, r.2 + x) ({r | r ∈ rs} \ {r}) := by
  simp only [mem_map]
  constructor
  · rintro ⟨r0, hr0, rfl⟩
    split_ifs with h1
    · rw [hu r0 hr0 h1]
      exact .inl rfl
    · exact .inr ⟨hr0, fun heq => h1 (heq ▸ hq)⟩
  · rintro (rfl | ⟨h1, h2⟩)
    · exact ⟨r, hr, by rw [if_pos hq]⟩
    · exact ⟨r', h1, if_neg fun h3 => h2 (hu r' h1 h3)⟩

/-- The source's answer is proper, and the regions stay proper with it. -/
def Supplied (T : Target) (st : Session) (q x : ℕ) : Prop :=
  Answer T {r | r ∈ st.regions} st.heap q x {r | r ∈ T.obtained st.heap st.regions (q, x)} ∧
    T.Obtained (asked st.heap q x) (T.obtained st.heap st.regions (q, x))

/-- The bytes follow those of `lastsbrk`: its region grows. -/
theorem WF.answer_grown (hw : T.WF {r | r ∈ st.regions} L fl st.heap)
    (ho : T.Obtained st.heap st.regions) (hs : T.Sourced st q x) (hr : T.Roomy st q x)
    (hq : q ≠ T.sizeMod - 1) (hexp : q = T.expected st.heap) : T.Supplied st q x := by
  obtain ⟨hq0, hend, htot, hdis, hn⟩ := hs.resolve_left hq
  obtain ⟨hsm, hb⟩ := hr.resolve_left hq
  have hne : ∀ r ∈ st.regions, r.1 < r.2 := fun r hr => (hw.inv.tiled.region r hr).2
  have h0 : st.heap.lastsbrk ≠ 0 := by
    intro h0
    rw [expected, if_neg (by simpa using h0)] at hexp
    omega
  obtain ⟨r, hr, h1, h2, -⟩ := hw.inv.region (.inl (.inr ⟨rfl, h0⟩))
  have hr' : r ∈ st.regions := hr
  have hrq : r.2 = q := by rw [hexp, hw.expected_eq h0 hr h1 h2]
  have hu : ∀ r' ∈ st.regions, r'.2 = q → r' = r := by
    intro r' hr2 hq'
    by_contra hne'
    have := ho.apart r' hr2 r hr' hne'
    have := hne r' hr2
    omega
  have hob : T.obtained st.heap st.regions (q, x) =
      st.regions.map fun r => if r.2 = q then (r.1, r.2 + x) else r := by
    rw [obtained, if_neg hq, if_pos hexp]
  have hmem := mem_grown (x := x) hr' hrq hu
  -- the other regions stay clear of the grown one
  have hc : ∀ r' ∈ st.regions, r' ≠ r → r.2 + x ≤ r'.1 ∨ r'.2 ≤ r.1 := by
    intro r' hr2 hne'
    have := ho.apart r' hr2 r hr' hne'
    have := hdis r' hr2
    have := hne r' hr2
    omega
  have hsz := ho.sizes r hr'
  rw [Supplied, hob]
  refine ⟨?_, ?_, ?_⟩
  · rw [show {r' | r' ∈ st.regions.map fun r => if r.2 = q then (r.1, r.2 + x) else r} = _ from
      ext hmem]
    refine .grown h0 hr h1 h2 hrq.symm hc ⟨by omega, by omega, by omega⟩ ?_
    have := hw.inv.outside r hr
    omega
  · intro r1 h3 r2 h4 hne'
    rcases (hmem r1).1 h3 with rfl | ⟨h5, h5'⟩ <;> rcases (hmem r2).1 h4 with rfl | ⟨h6, h6'⟩
    · exact absurd rfl hne'
    · exact hc r2 h6 h6'
    · exact (hc r1 h5 h5').symm
    · exact ho.apart r1 h5 r2 h6 hne'
  · intro r1 h3
    rw [total_asked hq]
    rcases (hmem r1).1 h3 with rfl | ⟨h5, -⟩
    · omega
    · have := ho.sizes r1 h5
      omega

/-- The bytes are elsewhere: they are a new region. -/
theorem Obtained.answer_fresh (ho : T.Obtained st.heap st.regions) (hs : T.Sourced st q x)
    (hr : T.Roomy st q x) (hq : q ≠ T.sizeMod - 1) (hexp : q ≠ T.expected st.heap) :
    T.Supplied st q x := by
  obtain ⟨hq0, hend, htot, hdis, hn⟩ := hs.resolve_left hq
  obtain ⟨hsm, hb⟩ := hr.resolve_left hq
  have hob : T.obtained st.heap st.regions (q, x) = (alignUp q, q + x) :: st.regions := by
    rw [obtained, if_neg hq, if_neg hexp]
  obtain ⟨ha1, ha2, -⟩ := le_alignUp q
  rw [Supplied, hob]
  refine ⟨?_, ?_, ?_⟩
  · have hset : {r | r ∈ (alignUp q, q + x) :: st.regions} =
        insert (alignUp q, q + x) {r | r ∈ st.regions} := by
      ext r
      simp
    rw [hset]
    exact .fresh hq0 hexp hdis ⟨hend, by omega, by omega⟩ hn (hsm hexp)
  · have hnew : ∀ r ∈ st.regions, q + x ≤ r.1 ∨ r.2 ≤ alignUp q := fun r hr => by
      have := hdis r hr
      omega
    intro r1 h3 r2 h4 hne'
    rcases mem_cons.1 h3 with rfl | h5 <;> rcases mem_cons.1 h4 with rfl | h6
    · exact absurd rfl hne'
    · exact hnew r2 h6
    · exact (hnew r1 h5).symm
    · exact ho.apart r1 h5 r2 h6 hne'
  · intro r1 h3
    rw [total_asked hq]
    rcases mem_cons.1 h3 with rfl | h5
    · omega
    · have := ho.sizes r1 h5
      omega

theorem WF.answer (hw : T.WF {r | r ∈ st.regions} L fl st.heap)
    (ho : T.Obtained st.heap st.regions) (hs : T.Sourced st q x) (hr : T.Roomy st q x) :
    T.Supplied st q x := by
  by_cases hq : q = T.sizeMod - 1
  · have hob : T.obtained st.heap st.regions (q, x) = st.regions := if_pos hq
    rw [Supplied, hob]
    exact ⟨.refused hq, ho.apart, fun r hr => by rw [total_asked_refused hq]; exact ho.sizes r hr⟩
  · by_cases hexp : q = T.expected st.heap
    · exact hw.answer_grown ho hs hr hq hexp
    · exact ho.answer_fresh hs hr hq hexp

theorem Ledger.regions (hl : Ledger {r | r ∈ st.regions}
      {r | r ∈ T.obtained st.heap st.regions (q, x)} q x st.heap g R1)
    (hs : h'.sbrks = g.sbrks) (ho : T.Obtained st.heap st.regions)
    (ho' : T.Obtained (asked st.heap q x) (T.obtained st.heap st.regions (q, x))) :
    {r | r ∈ (Session.returned T st old p h').regions} = R1 ∧
      T.Obtained h' (Session.returned T st old p h').regions := by
  unfold Session.returned
  have htot : T.total h' = T.total g := by unfold total; rw [hs]
  rcases hl with ⟨rfl, rfl⟩ | ⟨rfl, rfl⟩
  · rw [hs, drop_length]
    exact ⟨rfl, ho.apart, fun r hr => by rw [htot]; exact ho.sizes r hr⟩
  · rw [hs, asked, drop_left]
    exact ⟨rfl, ho'.apart, fun r hr => by rw [htot]; exact ho'.sizes r hr⟩

/-! ### Steps -/

/-- The invariant of sessions. -/
structure Sane (T : Target) (st : Session) : Prop where
  wf : ∃ fl, T.WF {r | r ∈ st.regions} (st.held T) fl st.heap
  obtained : T.Obtained st.heap st.regions
  above : ∀ p ∈ st.live, T.dataOffset ≤ p
  nodup : st.live.Nodup
  fit : T.NodesFit st.heap

theorem Sane.zero_notMem (hs : T.Sane st) : 0 ∉ st.live := by
  intro h
  have h1 := hs.above 0 h
  have h2 := T.dataOffset_pos
  omega

theorem Sane.exists_block (hs : T.Sane st) (hp : p ∈ st.live) :
    ∃ m ∈ st.held T, p = m + T.dataOffset := by
  have h1 := hs.above p hp
  refine ⟨p - T.dataOffset, ?_, by omega⟩
  show p - T.dataOffset + T.dataOffset ∈ st.live
  rwa [Nat.sub_add_cancel h1]

theorem Ledger.fit (hl : Ledger R R' q x h g R1) (hf : T.NodesFit h) : T.NodesFit g := by
  rcases hl with ⟨rfl, -⟩ | ⟨rfl, -⟩
  · exact hf
  · exact hf

section

variable (hs : T.Sane st)
  (ho' : T.Obtained (asked st.heap q x) (T.obtained st.heap st.regions (q, x)))
  (hl : Ledger {r | r ∈ st.regions} {r | r ∈ T.obtained st.heap st.regions (q, x)} q x
    st.heap g R1)
include hs ho' hl

/-- A call returned the block `m`, and `H` are the blocks that are held besides. -/
theorem Sane.returned (hH : ∀ a, a + T.dataOffset ∈ st.live.erase old ↔ a ∈ H) (hm : m ∉ H)
    (hw : T.WF R1 (insert m H) fl' h') (hsb : h'.sbrks = g.sbrks) (hfit : T.NodesFit h') :
    T.Sane (Session.returned T st old (m + T.dataOffset) h') := by
  obtain ⟨hreg, hobt⟩ := hl.regions hsb hs.obtained ho'
  have hdo := T.dataOffset_pos
  have hli : (Session.returned T st old (m + T.dataOffset) h').live =
      (m + T.dataOffset) :: st.live.erase old := by
    rw [Session.returned]
    rw [if_neg (by omega)]
  have hh : (Session.returned T st old (m + T.dataOffset) h').held T = insert m H := by
    ext a
    rw [mem_insert_iff, ← hH]
    simp only [Session.held, hli, mem_ofPred_eq, mem_cons, add_right_cancel_iff]
  refine ⟨⟨fl', ?_⟩, hobt, ?_, ?_, hfit⟩
  · rw [hreg, hh]
    exact hw
  · rw [hli]
    intro p hp
    rcases mem_cons.1 hp with rfl | hp
    · omega
    · exact hs.above p (mem_of_mem_erase hp)
  · rw [hli]
    exact nodup_cons.2 ⟨fun h => hm ((hH m).1 h), hs.nodup.erase _⟩

/-- A call that returned `NULL` or a new block leads to a sane session. -/
theorem Sane.allocated (hk : T.Keeps (st.held T) g h')
    (ha : Allocated T R1 (st.held T) size h' p) : T.Sane (Session.returned T st 0 p h') := by
  have hfit : T.NodesFit h' := hk.linked (hl.fit hs.fit)
  cases ha with
  | null fl' wf =>
    obtain ⟨hreg, hobt⟩ := hl.regions hk.sbrks hs.obtained ho'
    exact ⟨⟨fl', hreg ▸ wf⟩, hobt, hs.above, hs.nodup, hfit⟩
  | block m fl' wf fresh room =>
    refine hs.returned ho' hl (fun a => ?_) fresh wf hk.sbrks hfit
    rw [erase_of_not_mem hs.zero_notMem]
    rfl

/-- A call that returned `NULL` or moved a block leads to a sane session. -/
theorem Sane.reallocated (ha : Reallocated T R1 (st.held T) m size g h' p) :
    T.Sane (Session.returned T st (m + T.dataOffset) p h') := by
  cases ha with
  | null fl' wf keeps =>
    obtain ⟨hreg, hobt⟩ := hl.regions keeps.sbrks hs.obtained ho'
    exact ⟨⟨fl', hreg ▸ wf⟩, hobt, hs.above, hs.nodup, keeps.linked (hl.fit hs.fit)⟩
  | block m' s room moved =>
    obtain ⟨fl', hw⟩ := moved.wf
    refine hs.returned ho' hl (fun a => ?_) moved.fresh hw moved.keeps.sbrks
      (moved.keeps.linked (hl.fit hs.fit))
    rw [hs.nodup.mem_erase_iff]
    simp only [ne_eq, add_right_cancel_iff]
    exact and_comm

end

theorem Sane.freed (hs : T.Sane st) (hw : T.WF {r | r ∈ st.regions} (st.held T \ {m}) fl' h')
    (hk : T.Keeps (st.held T \ {m}) st.heap h') :
    T.Sane { st with heap := h', live := st.live.erase (m + T.dataOffset) } := by
  have htot : T.total h' = T.total st.heap := by unfold total; rw [hk.sbrks]
  refine ⟨⟨fl', ?_⟩, ⟨hs.obtained.apart, ?_⟩, ?_, hs.nodup.erase _, hk.linked hs.fit⟩
  · have hh : Session.held T { st with heap := h', live := st.live.erase (m + T.dataOffset) } =
        st.held T \ {m} := by
      ext a
      simp only [Session.held, hs.nodup.mem_erase_iff, mem_sdiff, ne_eq, add_right_cancel_iff]
      exact and_comm
    rw [hh]
    exact hw
  · intro r hr
    rw [htot]
    exact hs.obtained.sizes r hr
  · exact fun p hp => hs.above p (mem_of_mem_erase hp)

/-- **Steps**: a legal and safe action of the client succeeds and leads to a sane session. -/
theorem step_sane (fits : ℕ → Prop) (hf : ∀ n, fits n → T.Fits n) (st : Session) (o : Op)
    (hs : T.Sane st) (hle : T.Legal fits st o ∧ T.Safe st o) :
    ∃ st', T.step st o = .ok st' ∧ T.Sane st' := by
  obtain ⟨hl, hsa⟩ := hle
  obtain ⟨fl, hw⟩ := hs.wf
  cases o with
  | malloc size sbrk =>
    obtain ⟨ha, ho'⟩ := hw.answer hs.obtained hl.2 hsa
    obtain ⟨p, h', g, R1, hrun, hled, hk, hres⟩ := hw.nmalloc (hf _ hl.1) rfl ha
    exact ⟨_, by rw [step, hrun]; rfl, hs.allocated ho' hled hk hres⟩
  | calloc n s sbrk =>
    obtain ⟨ha, ho'⟩ := hw.answer hs.obtained hl.2 hsa
    obtain ⟨p, h', g, R1, hrun, hled, hk, hres, -⟩ := hw.ncalloc (hf _ hl.1) rfl ha
    exact ⟨_, by rw [step, hrun]; rfl, hs.allocated ho' hled hk hres⟩
  | realloc p size sbrk =>
    obtain ⟨ha, ho'⟩ := hw.answer hs.obtained hl.2.2 hsa
    by_cases hp0 : p = 0
    · subst hp0
      obtain ⟨p', h', g, R1, hrun, hled, hk, hres⟩ := hw.nmalloc (hf _ hl.2.1) rfl ha
      refine ⟨_, ?_, hs.allocated ho' hled hk hres⟩
      rw [step, nrealloc, hrun]
      rfl
    · obtain ⟨m, hm, rfl⟩ := hs.exists_block (hl.1.resolve_left hp0)
      obtain ⟨p', h', g, R1, hrun, hled, hres⟩ := hw.nrealloc hm (hf _ hl.2.1) rfl ha
      exact ⟨_, by rw [step, hrun]; rfl, hs.reallocated ho' hled hres⟩
  | free p =>
    by_cases hp0 : p = 0
    · subst hp0
      refine ⟨_, rfl, ?_⟩
      rw [erase_of_not_mem hs.zero_notMem]
      exact hs
    · obtain ⟨m, hm, rfl⟩ := hs.exists_block (Or.resolve_left hl hp0)
      obtain ⟨h', fl', hrun, hw', hk⟩ := hw.nfree hm
      exact ⟨_, by rw [step, hrun]; rfl, hs.freed hw' hk⟩
  | write a b =>
    obtain ⟨p, hp, h1, h2⟩ := hl
    obtain ⟨m, hm, rfl⟩ := hs.exists_block hp
    rw [Nat.add_sub_cancel] at h2
    obtain ⟨hw', -, -⟩ := hw.overwrite hm (update st.heap.mem a b)
      fun x hx => update_of_ne (by omega) ..
    exact ⟨_, rfl, ⟨fl, hw'⟩, ⟨hs.obtained.apart, hs.obtained.sizes⟩, hs.above, hs.nodup, hs.fit⟩

theorem wf_initial (mem : ByteMemory.Mem) : T.WF ∅ ∅ (fun _ => []) (initial mem) := by
  have hbl : blocks (inUse (∅ : Set ℕ) (initial mem).lastsbrk) (fun _ => []) = ∅ := by
    simp [blocks, inUse, Free, initial, Heap.lastsbrk]
  refine ⟨⟨?_, ⟨?_, ?_, ?_, ?_⟩, ?_, ?_, ?_, ?_, ?_, ?_⟩, ?_, ?_, ?_⟩
  · rw [hbl]
    exact ⟨T.dataOffset_pos, by simp, by simp, by simp, by simp, by simp, by simp, by simp⟩
  · intro b _ _
    rfl
  · exact fun b => LinkedList.dlinked_nil ..
  · exact fun b => nodup_nil
  · intro b a ha
    simp at ha
  · rw [hbl]; simp
  · simp
  · simp
  · rintro a ⟨b, hb⟩
    simp at hb
  · rintro a (ha | ⟨rfl, ha⟩)
    · simp at ha
    · exact absurd rfl ha
  · rintro a ⟨b, hb⟩
    simp at hb
  · simp
  · exact fun h0 => absurd rfl h0
  · simp

theorem sane_start (mem : ByteMemory.Mem) : T.Sane (start mem) := by
  have hh : (start mem).held T = ∅ := by ext a; simp [Session.held, start]
  have hr : {r | r ∈ (start mem).regions} = (∅ : Set (ℕ × ℕ)) := by ext r; simp [start]
  refine ⟨⟨fun _ => [], ?_⟩, ⟨?_, ?_⟩, ?_, nodup_nil, ?_⟩
  · rw [hh, hr]
    exact wf_initial mem
  · simp [start]
  · simp [start]
  · simp [start]
  · simp [NodesFit, start, initial]

/-- A sane session is sound. -/
theorem Sane.sound (hs : T.Sane st) : st.Sound T := by
  obtain ⟨fl, hw⟩ := hs.wf
  have hb : blocks (inUse (st.held T) st.heap.lastsbrk) fl =
      {a | a ∈ st.held T ∨ Free fl a ∨ (a = st.heap.lastsbrk ∧ a ≠ 0)} := by
    ext a
    simp only [blocks, inUse]
    grind
  have hh : ∀ {p}, p ∈ st.live → p - T.dataOffset ∈ st.held T := by
    intro p hp
    show p - T.dataOffset + T.dataOffset ∈ st.live
    rwa [Nat.sub_add_cancel (hs.above p hp)]
  refine ⟨⟨fl, ?_, ?_, ?_, hw.inv.lists, ?_, ?_⟩, ?_, hs.nodup, ?_⟩
  · rw [← hb]
    exact hw.inv.tiled
  · intro a ha
    refine ⟨hw.inv.inUse a (.inl ha), fun heq => ?_⟩
    have h0 : st.heap.lastsbrk ≠ 0 := heq ▸ hw.inv.ne_zero (.inl (.inl ha))
    exact (hw.last h0).1 (heq ▸ ha)
  · rintro a ha rfl
    have h0 := hw.inv.ne_zero (B := inUse (st.held T) st.heap.lastsbrk) (.inr ha)
    exact hw.inv.inUse _ (.inr ⟨rfl, h0⟩) ha
  · intro a ha
    obtain ⟨h1, h2⟩ := hw.inv.aboveFree a ha
    exact ⟨h1, fun heq => by_contra fun h0 => h2 h0 heq⟩
  · intro h0 hf
    rw [(hw.last h0).2.2] at hf
    exact hw.inv.ne_zero (B := inUse (st.held T) st.heap.lastsbrk) (.inr hf) rfl
  · intro p hp
    have h1 := hw.inv.aligned _ (.inl (.inl (hh hp)))
    have h2 := hs.above p hp
    have h3 := T.ptr_cases
    unfold align dataOffset at *
    omega
  · intro p hp p' hp' hne
    have h1 := hs.above p hp
    have h2 := hs.above p' hp'
    have h3 := hw.inv.tiled.apart _ (.inl (.inl (hh hp))) _ (.inl (.inl (hh hp'))) (by omega)
    omega

end Target

/-! ### Whole runs -/

def requestLimit : ℕ := 2147483647 - 65536 - 64

theorem fits_of_lt {T : Target} {size : ℕ} (h : size < requestLimit) : T.Fits size := by
  have := T.ptr_cases
  unfold requestLimit at h
  unfold Target.Fits padded dataOffset align
  omega

section Decidability

variable (T : Target) (st : Session) (o : Op)

instance (size : ℕ) : Decidable (T.Fits size) := inferInstanceAs (Decidable (_ < _))

instance (q x : ℕ) : Decidable (T.Sourced st q x) := inferInstanceAs (Decidable (_ ∨ _))

instance (q x : ℕ) : Decidable (T.Roomy st q x) := inferInstanceAs (Decidable (_ ∨ _))

instance decidableLegal (fits : ℕ → Prop) [DecidablePred fits] : Decidable (T.Legal fits st o) :=
  match o with
  | .malloc _ _ | .calloc _ _ _ => inferInstanceAs (Decidable (_ ∧ _))
  | .realloc _ _ _ => inferInstanceAs (Decidable (_ ∧ _ ∧ _))
  | .free _ => inferInstanceAs (Decidable (_ ∨ _))
  | .write _ _ => inferInstanceAs (Decidable (∃ p ∈ st.live, _))

instance decidableSafe : Decidable (T.Safe st o) :=
  match o with
  | .malloc _ _ | .calloc _ _ _ | .realloc _ _ _ => inferInstanceAs (Decidable (T.Roomy ..))
  | .free _ | .write _ _ => isTrue trivial

end Decidability

/-- **Heap invariant**: in every run of legal and safe actions all calls return, and the heap is
sound in every state reached. -/
theorem session_sound (T : Target) (mem : ByteMemory.Mem) (os : List Op)
    (hos : Runs.Admits T.step (fun st o => T.Legal (· < requestLimit) st o ∧ T.Safe st o)
      (start mem) os) :
    ∀ os', os' <+: os → ∃ st, run T.step (start mem) os' = .ok st ∧ st.Sound T := by
  intro os' hp
  obtain ⟨st, hrun, hs⟩ := run_invariant
    (step_sane (T := T) (· < requestLimit) fun _ => fits_of_lt)
    (sane_start mem) (hos.of_prefix hp)
  exact ⟨st, hrun, hs.sound⟩

/-- A 64-bit build, with `freehdrs` at some address. -/
def dj64 : Target := ⟨8, 0x500008, .inr rfl, by decide, by decide⟩

/-- The source answers `q` whatever it is asked for. -/
def answers (q : ℕ) : ℕ → ℕ := fun _ => q

theorem session_sound_run :
    ∃ st, run dj64.step (start fun _ => 0) [.malloc 16 (answers 0x10000),
      .calloc 100 20 (answers 0x10400), .write 0x10020 7, .realloc 0x10020 4000 (answers 0x20000),
      .free 0x20020] = .ok st ∧ st.Sound dj64 :=
  session_sound dj64 _ _ (by decide +kernel) _ (List.prefix_refl _)

/-- Three calls leave a `lastsbrk` of 32 bytes and displace it to the free lists; the fourth
obtains the memory behind it, where its `prevfree` link lies. -/
def unsoundRun : List Op :=
  [.malloc 16 (answers 0x10000), .malloc 912 (answers (2 ^ 64 - 1)), .malloc 16 (answers 0x20000),
    .malloc 2000 (answers 0x10400)]

/-- **Legal runs are not enough**: the header written into the new region ends the free list of
bucket 6 with `NULL` instead of `NONE`. -/
theorem session_unsound :
    Runs.Admits dj64.step (dj64.Legal (· < requestLimit)) (start fun _ => 0) unsoundRun ∧
      ¬ ∃ st, run dj64.step (start fun _ => 0) unsoundRun = .ok st ∧ st.Sound dj64 := by
  refine ⟨by decide +kernel, ?_⟩
  rintro ⟨st, hrun, hs⟩
  obtain ⟨st', hr', hval⟩ := exists_of_succeeds
    (e := run dj64.step (start fun _ => 0) unsoundRun)
    (p := fun st => st.heap.freehdrs 6 = 66528 ∧ dj64.get st.heap 66528 .prevfree = 0)
    (by decide +kernel)
  obtain rfl : st = st' := by
    rw [hrun] at hr'
    exact Except.ok.inj hr'
  obtain ⟨hh, hp⟩ := of_decide_eq_true hval
  obtain ⟨fl, -, -, -, hli, -⟩ := hs.invariant
  have h6 := hli.heads 6 (by decide) (by decide)
  rw [hh] at h6
  cases hl : fl 6 with
  | nil => rw [hl] at h6; cases h6
  | cons a l =>
    rw [hl] at h6
    obtain rfl : 66528 = a := h6
    have hlin := hli.links 6
    rw [hl] at hlin
    have hn := hlin.bwd_head (by decide)
    rw [hp] at hn
    cases hn

/-- **Free-list nodes fit**: in every run of legal and safe actions whose requests do not wrap,
every block that `mv2freelist` links has room for both links. -/
theorem session_nodesFit (T : Target) (mem : ByteMemory.Mem) (os : List Op)
    (hos : Runs.Admits T.step (fun st o => T.Legal T.Fits st o ∧ T.Safe st o) (start mem) os) :
    ∃ st, run T.step (start mem) os = .ok st ∧ ∀ e ∈ st.heap.linked, T.freeHeader ≤ e.2 := by
  obtain ⟨st, hrun, hs⟩ := run_invariant
    (step_sane (T := T) T.Fits fun _ => id) (sane_start mem) hos
  exact ⟨st, hrun, hs.fit⟩

theorem session_nodesFit_run :
    ∃ st, run dj64.step (start fun _ => 0) [Op.malloc 16 (answers 0x10000),
        .malloc 100 (answers 0x20000), .free 0x10020, .malloc 2000 (answers 0x20000)] = .ok st ∧
      ∀ e ∈ st.heap.linked, dj64.freeHeader ≤ e.2 :=
  session_nodesFit dj64 _ _ (by decide +kernel)

/-- The displaced `lastsbrk` of 32 bytes is linked although its `prevfree` ends at byte 40. -/
theorem session_nodes_overlap :
    Runs.Admits dj64.step (dj64.Legal dj64.Fits) (start fun _ => 0) (unsoundRun.take 3) ∧
      ∃ st, run dj64.step (start fun _ => 0) (unsoundRun.take 3) = .ok st ∧
        (66528, 32) ∈ st.heap.linked ∧ dj64.freeHeader = 40 := by
  refine ⟨by decide +kernel, ?_⟩
  obtain ⟨st, hrun, hval⟩ := exists_of_succeeds
    (e := run dj64.step (start fun _ => 0) (unsoundRun.take 3))
    (p := fun st => (66528, 32) ∈ st.heap.linked) (by decide +kernel)
  exact ⟨st, hrun, of_decide_eq_true hval, by decide⟩

end Nmalloc
