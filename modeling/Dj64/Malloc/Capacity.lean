import Dj64.Malloc.Sessions

/-!
# The capacity of allocated blocks

`roundup` computes in `size_t` and returns a 32-bit `ulong`, so the rounded size of a huge request
wraps around.  `nmalloc` and `ncalloc` then hand out a block that is too small unless the wrapped
size happens to exceed the bound on allocations; `nrealloc` compares the wrapped size with the old
block first and does so in either case.
-/

namespace Nmalloc

open Nat Set Target ByteMemory

namespace Target

variable {T : Target} {h h' : Heap} {R R' : Set (ℕ × ℕ)} {L : Set ℕ} {fl : ℕ → List ℕ}
  {a m n c q s x size : ℕ} {sbrk : ℕ → ℕ}

/-- What `nmalloc` returns for `size` has room for `size` bytes. -/
def NmallocRoomy (T : Target) (size : ℕ) : Prop :=
  ∀ R L fl h sbrk R' p h', T.WF R L fl h →
    Answer T R h (sbrk (T.sbrkRequest h (T.szneed size))) (T.sbrkRequest h (T.szneed size)) R' →
    T.nmalloc h sbrk size = .ok (p, h') → p ≠ 0 →
      size + T.dataOffset ≤ T.get h' (p - T.dataOffset) .sz

/-- What `nrealloc` returns for `NULL` or a live pointer has room for `size` bytes. -/
def NreallocRoomy (T : Target) (size : ℕ) : Prop :=
  ∀ R L fl h sbrk R' ptr p h', T.WF R L fl h →
    Answer T R h (sbrk (T.sbrkRequest h (T.szneed size))) (T.sbrkRequest h (T.szneed size)) R' →
    (ptr = 0 ∨ ∃ m ∈ L, ptr = m + T.dataOffset) →
    T.nrealloc h sbrk ptr size = .ok (p, h') → p ≠ 0 →
      size + T.dataOffset ≤ T.get h' (p - T.dataOffset) .sz

/-- What `ncalloc` returns has room for `n * c` bytes, and they are zero. -/
def NcallocRoomy (T : Target) (n c : ℕ) : Prop :=
  ∀ R L fl h sbrk R' p h', T.WF R L fl h →
    Answer T R h (sbrk (T.sbrkRequest h (T.szneed (n * c))))
      (T.sbrkRequest h (T.szneed (n * c))) R' →
    T.ncalloc h sbrk n c = .ok (p, h') → p ≠ 0 →
      n * c + T.dataOffset ≤ T.get h' (p - T.dataOffset) .sz ∧ ∀ i < n * c, h'.mem (p + i) = 0

/-! ### Sizes that do not wrap -/

theorem nmallocRoomy_of_fits (hf : T.Fits size) : T.NmallocRoomy size := by
  intro R L fl h sbrk R' p h' hw ha hrun hp
  obtain ⟨p', h1, _, _, hr', -, -, hres⟩ := hw.nmalloc hf rfl ha
  rw [hrun] at hr'
  obtain ⟨rfl, rfl⟩ : p = p' ∧ h' = h1 := by simpa using hr'
  cases hres with
  | null => exact absurd rfl hp
  | block m _ _ _ room => rwa [Nat.add_sub_cancel]

theorem nreallocRoomy_of_fits (hf : T.Fits size) : T.NreallocRoomy size := by
  intro R L fl h sbrk R' ptr p h' hw ha hptr hrun hp
  by_cases h0 : ptr = 0
  · rw [nrealloc, if_pos h0] at hrun
    exact nmallocRoomy_of_fits hf R L fl h sbrk R' p h' hw ha hrun hp
  obtain ⟨m, hm, rfl⟩ := hptr.resolve_left h0
  obtain ⟨p', h1, _, _, hr', -, hres⟩ := hw.nrealloc hm hf rfl ha
  rw [hrun] at hr'
  obtain ⟨rfl, rfl⟩ : p = p' ∧ h' = h1 := by simpa using hr'
  cases hres with
  | null => exact absurd rfl hp
  | block m' s room moved =>
    rw [Nat.add_sub_cancel]
    exact room.trans moved.size

theorem ncallocRoomy_of_fits (hf : T.Fits (n * c)) : T.NcallocRoomy n c := by
  intro R L fl h sbrk R' p h' hw ha hrun hp
  obtain ⟨p', h1, _, _, hr', -, -, hres, hz⟩ := hw.ncalloc hf rfl ha
  rw [hrun] at hr'
  obtain ⟨rfl, rfl⟩ : p = p' ∧ h' = h1 := by simpa using hr'
  refine ⟨?_, hz hp⟩
  cases hres with
  | null => exact absurd rfl hp
  | block m _ _ _ room => rwa [Nat.add_sub_cancel]

theorem nmalloc_oversize (hs : oversize ≤ T.szneed size) : T.nmalloc h sbrk size = .ok (0, h) := by
  unfold nmalloc
  dsimp only
  rw [← szneed, if_neg (by omega)]
  rfl

/-! ### Sizes that wrap -/

theorem szneed_lt (T : Target) (size : ℕ) :
    T.szneed size ≤ 2 ^ 32 - 16 ∧ align ∣ T.szneed size := by
  have hp := T.ptr_cases
  have hdvd : align ∣ T.szneed size := by
    unfold szneed roundup u32 sizeMod dataOffset align
    rcases hp with hp | hp <;> rw [hp] <;> norm_num <;> omega
  have hlt : T.szneed size < 2 ^ 32 := mod_lt _ (by norm_num)
  unfold align at *
  exact ⟨by omega, hdvd⟩

theorem szneed_lt_of_wrap (hf : ¬ T.Fits size) : T.szneed size < size + T.dataOffset := by
  have h1 := (T.szneed_lt size).1
  have h2 := T.ptr_cases
  unfold Fits padded align dataOffset at hf
  unfold dataOffset
  omega

theorem split_zero (hm0 : m ≠ 0) (hlt : m < 256 ^ T.ptr) (hs : T.dataOffset ≤ T.get h m .sz) :
    ∃ h', T.split h m 0 = .ok (m, h') ∧ T.get h' m .sz = 0 := by
  have hmw : m < 256 ^ T.width .next := hlt
  have hmp : m < 256 ^ T.width .prev := hlt
  unfold split
  simp only [add_zero, zero_add, if_neg (not_lt.mpr hs)]
  rw [if_pos (by simpa [get_set_field, get_set_self T hmw] using hm0)]
  simp only [get_set_field T (f := Field.next) (g := .nextfree) nofun,
    get_set_field T (f := Field.next) (g := .sz) nofun, get_set_self T hmw]
  rw [if_neg (by simp [get_set_field, get_set_self T hmp])]
  refine ⟨_, rfl, ?_⟩
  simp [get_set_field, get_set_self T (show 0 < 256 ^ T.width .sz from T.zero_lt_width _)]

theorem split_sixteen (hp : T.ptr = 8) (hs : 16 + T.dataOffset ≤ T.get h m .sz) :
    ∃ h', T.split h m 16 = .ok (m + 16, h') ∧ T.get h' m .sz = 16 := by
  -- the field `next` of the upper part lies on the field `nextfree` of the block
  have ho : ∀ g : Heap, T.get g (m + 16) .next = T.get g m .nextfree := by
    simp [get, offset, width, hp]
  unfold split
  rw [if_neg (by omega), if_neg (by simp [ho, get_set_self T (T.zero_lt_width _)])]
  refine ⟨_, rfl, ?_⟩
  rw [get_set_field T (by simp), get_set_self T (by norm_num [width])]

/-- `splitLast` for any rounded size, the ones below a header included. -/
theorem WF.splitLast_sz (hw : T.WF R L fl h) (h0 : h.lastsbrk ≠ 0) (hal : align ∣ s)
    (hsi : s + T.dataOffset ≤ T.get h h.lastsbrk .sz) :
    ∃ h', T.splitLast h s = .ok (h.lastsbrk, h') ∧ T.get h' h.lastsbrk .sz = s := by
  have hmB : h.lastsbrk ∈ inUse L h.lastsbrk := .inr ⟨rfl, h0⟩
  have hsp : ∃ m1 h', T.split h h.lastsbrk s = .ok (m1, h') ∧ T.get h' h.lastsbrk .sz = s := by
    by_cases hks : T.dataOffset ≤ s
    · obtain ⟨h', hrun, hc⟩ := split_spec hw.inv hmB hks hsi hal (empty_subset _) nofun
      exact ⟨_, h', hrun, hc.sz⟩
    have hs : s = 0 ∨ s = 16 ∧ T.ptr = 8 := by
      have := T.ptr_cases
      unfold align at hal
      unfold dataOffset at hks
      omega
    rcases hs with rfl | ⟨rfl, hp⟩
    · have := hw.inv.lt_pow (.inl hmB)
      exact ⟨_, split_zero h0 this (by omega)⟩
    · exact ⟨_, split_sixteen hp hsi⟩
  obtain ⟨m1, h', hrun, hsz⟩ := hsp
  refine ⟨h'.setLastsbrk m1, ?_, hsz⟩
  unfold Target.splitLast
  simp only [hrun]
  rfl

/-! ### Heaps in which a wrapped size is served -/

theorem exists_place (T : Target) (hx : x + 32 ≤ 2 ^ 31) :
    ∃ q, 0 < q ∧ q + x ≤ 256 ^ T.ptr ∧ (q + x ≤ T.none ∨ T.none < q) := by
  have hpow : 2 ^ 32 ≤ 256 ^ T.ptr := by rcases T.ptr_cases with hp | hp <;> rw [hp] <;> norm_num
  by_cases hn : 16 + x ≤ T.none
  · exact ⟨16, by norm_num, by omega, .inl hn⟩
  · exact ⟨T.none + 1, by omega, by omega, .inr (by omega)⟩

section

variable (mem : ByteMemory.Mem)
include mem

theorem searchfree_initial : T.searchfree (initial mem) s = 0 := by
  obtain ⟨-, h2, h3⟩ := scanfree_le (initial mem) (T.nflists - (size2bucket s + 1))
    (size2bucket s + 1)
  have h4 : ¬ scanfree (initial mem) (T.nflists - (size2bucket s + 1)) (size2bucket s + 1)
    < T.nflists :=
    fun hlt => h3 (by omega) rfl
  have he : (initial mem).freehdrs (size2bucket s) = 0 ∨
      T.get (initial mem) ((initial mem).freehdrs (size2bucket s)) .sz < s := .inl rfl
  unfold searchfree
  dsimp only
  rw [if_pos he, if_neg h4]

theorem sbrkRequest_initial (hs : s < oversize) :
    T.sbrkRequest (initial mem) s + 32 ≤ 2 ^ 31 := by
  have hp := T.ptr_cases
  unfold oversize at hs
  unfold sbrkRequest
  dsimp only
  unfold u32 minsbrk align dataOffset
  split_ifs <;> omega

/-- The first allocation of a program, when the source answers. -/
theorem exists_allocblock (hs : s < oversize) (hal : align ∣ s) :
    ∃ sbrk R' m h', Answer T ∅ (initial mem) (sbrk (T.sbrkRequest (initial mem) s))
      (T.sbrkRequest (initial mem) s) R' ∧
      T.allocblock (initial mem) sbrk s = .ok (m, h') ∧ m ≠ 0 ∧ T.get h' m .sz = s := by
  have hw := wf_initial (T := T) mem
  have hx := sbrkRequest_initial (T := T) mem hs
  obtain ⟨q, hq, hb, hout⟩ := T.exists_place hx
  have hpow : 2 ^ 31 ≤ 2 ^ (T.nflists - 1) := by
    rcases T.ptr_cases with hp | hp <;> simp only [nflists, hp] <;> omega
  obtain ⟨R', ha, hR'⟩ :
      ∃ R', Answer T ∅ (initial mem) q (T.sbrkRequest (initial mem) s) R' ∧ R' ≠ ∅ :=
    ⟨_, .fresh hq (by rw [show T.expected (initial mem) = 0 from rfl]; omega) nofun
      ⟨hb, by omega, by omega⟩ hout (fun h0 => absurd rfl h0), (insert_nonempty _ _).ne_empty⟩
  obtain ⟨sbrk, hsb⟩ : ∃ sbrk : ℕ → ℕ, ∀ x, sbrk x = q := ⟨fun _ => q, fun _ => rfl⟩
  rw [← hsb (T.sbrkRequest (initial mem) s)] at ha
  rcases hw.extendsbrk hs.le rfl ha with ⟨hR, -⟩ | ⟨h1, fl1, hrun, hw1, -, h0, hsz⟩
  · exact absurd hR hR'
  have hle := T.dataOffset_le_minsave
  obtain ⟨h', hr', hsz'⟩ := hw1.splitLast_sz h0 hal (by omega)
  refine ⟨sbrk, R', h1.lastsbrk, h', ha, ?_, h0, hsz'⟩
  unfold allocblock
  have hnl : ¬ ((initial mem).lastsbrk ≠ 0 ∧
      s + T.dataOffset ≤ T.get (initial mem) (initial mem).lastsbrk .sz) := fun hc => hc.1 rfl
  rw [searchfree_initial mem, if_neg nofun, if_neg hnl, hrun, ok_bind]
  dsimp only
  rw [if_pos h0, if_neg (by omega), hr']

theorem exists_nmalloc (hs : T.szneed size < oversize) :
    ∃ sbrk R' m h', Answer T ∅ (initial mem) (sbrk (T.sbrkRequest (initial mem) (T.szneed size)))
        (T.sbrkRequest (initial mem) (T.szneed size)) R' ∧
      T.nmalloc (initial mem) sbrk size = .ok (m + T.dataOffset, h') ∧
      T.get h' m .sz = T.szneed size := by
  obtain ⟨sbrk, R', m, h', ha, hrun, hm0, hsz⟩ := exists_allocblock mem hs (T.szneed_lt size).2
  refine ⟨sbrk, R', m, h', ha, ?_, hsz⟩
  unfold nmalloc
  dsimp only
  rw [← szneed, if_pos hs, hrun]
  exact if_pos hm0

end

theorem not_nmallocRoomy (hf : ¬ T.Fits size) (hs : T.szneed size < oversize) :
    ¬ T.NmallocRoomy size := by
  intro hr
  obtain ⟨sbrk, R', m, h', ha, hrun, hsz⟩ := exists_nmalloc (fun _ => 0) hs
  have hpos := T.dataOffset_pos
  have := hr _ _ _ _ _ _ _ _ (wf_initial _) ha hrun (by omega)
  rw [Nat.add_sub_cancel] at this
  have := szneed_lt_of_wrap hf
  omega

/-- A new region may hold one block of the client. -/
theorem WF.newBlock (hw : T.WF R L fl h) (h0 : h.lastsbrk ≠ 0) (hm0 : 0 < m) (hal : align ∣ m)
    (hk : T.freeHeader ≤ s) (hR : ∀ r ∈ R, m + s ≤ r.1 ∨ r.2 ≤ m)
    (hb : m + s ≤ 256 ^ T.ptr ∧ s < 2 ^ 32 ∧ s < 2 ^ (T.nflists - 1))
    (hout : m + s ≤ T.none ∨ T.none < m) :
    T.WF (insert (m, m + s) R) (insert m L) fl (T.newHeader h m s) ∧
      T.get (T.newHeader h m s) m .sz = s := by
  have hle : T.dataOffset ≤ T.freeHeader := by unfold dataOffset freeHeader; omega
  obtain ⟨hinv, hke, hnB, hma, -, hsz⟩ := hw.newHeader (m := m) (m + s) hm0 hal (by omega) hR
    (by rwa [Nat.add_sub_cancel_left]) hout
  rw [Nat.add_sub_cancel_left] at hinv hke hma hsz
  have hl : h.lastsbrk ∈ inUse L h.lastsbrk := .inr ⟨rfl, h0⟩
  refine ⟨Freeing.wf ⟨?_, fun hm => hnB (.inl hm), by rwa [hsz], ?_, ?_, h0⟩ hma, hsz⟩
  · rw [← inUse_insert]
    exact hinv
  · exact hke.live (fun a ha => .inl ha) hw.live
  · intro _
    obtain ⟨h1, h2, h3⟩ := hw.last h0
    refine ⟨h1, fun heq => hnB (heq ▸ hl), ?_, ?_⟩
    · exact (hke.get hl (by simp)).trans h2
    · exact (hke.get hl (by simp)).trans h3

/-- In the 64-bit build a block of the client may have any extent below `2 ^ 32`. -/
theorem exists_live (hp : T.ptr = 8) (hk : T.freeHeader ≤ s) (hs : s < 2 ^ 32) :
    ∃ R fl h m, T.WF R {m} fl h ∧ T.get h m .sz = s := by
  have hn : T.nflists = 64 := by simp [nflists, hp]
  -- both regions lie on the same side of `NONE`
  obtain ⟨m, q, hm0, hal, hq, hup, hsi⟩ : ∃ m q, 0 < m ∧ align ∣ m ∧ m + 2 ^ 32 ≤ q ∧
      q + minsbrk ≤ 256 ^ T.ptr ∧ (q + minsbrk ≤ T.none ∨ T.none < m) := by
    unfold align minsbrk
    rw [hp]
    by_cases hsi : T.none < 2 ^ 40
    · exact ⟨2 ^ 40, 2 ^ 41, by norm_num, by norm_num, by norm_num, by norm_num, .inr hsi⟩
    · exact ⟨16, 2 ^ 34, by norm_num, by norm_num, by norm_num, by norm_num, .inl (by omega)⟩
  obtain ⟨hq1, hq2, -⟩ := le_alignUp q
  obtain ⟨h1, fl, -, hw, -, hls, -⟩ := (wf_initial (T := T) fun _ => 0).newLastsbrk (q := q)
    (by omega) le_rfl nofun ⟨hup, by norm_num [minsbrk], by norm_num [minsbrk, hn]⟩ (by omega)
    (fun h0 => absurd rfl h0)
  obtain ⟨hw', hsz⟩ := hw.newBlock (m := m) (s := s) (by rw [hls]; omega) hm0 hal hk
    (by simp only [mem_insert_iff, mem_empty_iff_false, or_false, forall_eq]; omega)
    ⟨by omega, hs, by rw [hn]; omega⟩ (by omega)
  rw [show insert m (∅ : Set ℕ) = {m} from insert_empty_eq m] at hw'
  exact ⟨_, fl, _, m, hw', hsz⟩

theorem ptr_of_wrap (hf : ¬ T.Fits size) (hsi : size < T.sizeMod) (hs : oversize ≤ T.szneed size) :
    T.ptr = 8 := by
  rcases T.ptr_cases with hp | hp
  · unfold Fits padded align dataOffset at hf
    unfold szneed roundup oversize sizeMod u32 align dataOffset at hs
    unfold sizeMod at hsi
    rw [hp] at hf hs hsi
    split_ifs at hs <;> omega
  · exact hp

theorem not_nreallocRoomy (hf : ¬ T.Fits size) (hsi : size < T.sizeMod) :
    ¬ T.NreallocRoomy size := by
  intro hr
  by_cases hs : T.szneed size < oversize
  · refine not_nmallocRoomy hf hs fun R L fl h sbrk R' p h' hw ha hrun hp => ?_
    exact hr R L fl h sbrk R' 0 p h' hw ha (.inl rfl) (by rw [nrealloc, if_pos rfl, hrun]) hp
  -- a live block of the wrapped extent is returned as it is
  have hp := ptr_of_wrap hf hsi (by omega)
  have hl : T.freeHeader ≤ T.szneed size := by
    unfold oversize at hs
    unfold freeHeader
    omega
  have hpos := T.dataOffset_pos
  obtain ⟨R, fl, h, m, hw, hsz⟩ := exists_live hp hl (by have := (T.szneed_lt size).1; omega)
  have hm : m ∈ ({m} : Set ℕ) := rfl
  have hok : (T.isFree h m || T.fouled h m) = false := by
    simp [hw.isFree_false hm, fouled, hw.lastsbrk_ne_zero (.inl (.inl hm)), (hw.live m hm).1]
  have hk : ¬ T.minsave ≤ T.get h m .sz - T.szneed size := by
    unfold minsave align
    omega
  have hrun : T.nrealloc h (fun _ => T.sizeMod - 1) (m + T.dataOffset) size =
      .ok (m + T.dataOffset, h) := by
    unfold nrealloc trim
    rw [if_neg (by omega)]
    dsimp only
    rw [Nat.add_sub_cancel, ← szneed, hok, if_pos hsz.ge, if_neg hk]
    rfl
  have := hr _ _ _ _ _ _ _ _ _ hw (.refused rfl) (.inr ⟨m, hm, rfl⟩) hrun (by omega)
  rw [Nat.add_sub_cancel] at this
  have := szneed_lt_of_wrap hf
  omega

theorem mul_lt_sizeMod (hc : n = 0 ∨ c < (T.sizeMod - 1) / n) : n * c < T.sizeMod := by
  have hpos : 0 < T.sizeMod := Nat.pow_pos (by norm_num)
  rcases hc with rfl | hc
  · simpa using hpos
  have hn : 0 < n := by
    rcases Nat.eq_zero_or_pos n with rfl | hn
    · simp at hc
    · exact hn
  have := (lt_div_iff_mul_lt hn).mp hc
  rw [mul_comm]
  omega

theorem not_ncallocRoomy (hc : n = 0 ∨ c < (T.sizeMod - 1) / n) (hf : ¬ T.Fits (n * c))
    (hs : T.szneed (n * c) < oversize) : ¬ T.NcallocRoomy n c := by
  intro hr
  obtain ⟨sbrk, R', m, h', ha, hrun, hsz⟩ := exists_nmalloc (fun _ => 0) hs
  have hpos := T.dataOffset_pos
  have hm0 : m + T.dataOffset ≠ 0 := by omega
  have hr' : T.ncalloc (initial fun _ => 0) sbrk n c = .ok (m + T.dataOffset,
      { h' with mem := fill h'.mem (m + T.dataOffset) (n * c) 0 }) := by
    unfold ncalloc
    rw [if_pos hc]
    dsimp only
    rw [mod_eq_of_lt (mul_lt_sizeMod hc), hrun]
    exact if_pos hm0
  have hro := (hr _ _ _ _ _ _ _ _ (wf_initial _) ha hr' hm0).1
  have hh : T.get { h' with mem := fill h'.mem (m + T.dataOffset) (n * c) 0 } m .sz =
      T.get h' m .sz := by
    have := T.offset_width_le (f := .sz) nofun
    exact load_congr fun i _ hi => fill_outside (by omega)
  rw [Nat.add_sub_cancel, hh] at hro
  have := szneed_lt_of_wrap hf
  omega

theorem ncallocRoomy_of_refused (hn : ∀ h : Heap, ∀ sbrk, T.ncalloc h sbrk n c = .ok (0, h)) :
    T.NcallocRoomy n c := by
  intro R L fl h sbrk R' p h' _ _ hrun hp
  rw [hn] at hrun
  obtain ⟨rfl, -⟩ : 0 = p ∧ h = h' := by simpa using hrun
  exact absurd rfl hp

end Target

/-- **The capacity of returned blocks**: `nmalloc` and `ncalloc` hand out too little exactly for
the sizes that wrap to something below the bound, and `nrealloc` for every size that wraps. -/
theorem capacity_iff (T : Target) (size n c : ℕ) (hsize : size < T.sizeMod) :
    (T.NmallocRoomy size ↔ T.Fits size ∨ oversize ≤ T.szneed size) ∧
      (T.NreallocRoomy size ↔ T.Fits size) ∧
      (T.NcallocRoomy n c ↔ ¬ (n = 0 ∨ c < (T.sizeMod - 1) / n) ∨ T.Fits (n * c) ∨
        oversize ≤ T.szneed (n * c)) := by
  refine ⟨⟨fun hr => ?_, ?_⟩, ⟨fun hr => ?_, nreallocRoomy_of_fits⟩, ⟨fun hr => ?_, ?_⟩⟩
  · by_contra! hc
    exact not_nmallocRoomy hc.1 hc.2 hr
  · rintro (hf | hs)
    · exact nmallocRoomy_of_fits hf
    · intro R L fl h sbrk R' p h' _ _ hrun hp
      rw [nmalloc_oversize hs] at hrun
      obtain ⟨rfl, -⟩ : 0 = p ∧ h = h' := by simpa using hrun
      exact absurd rfl hp
  · by_contra hf
    exact not_nreallocRoomy hf hsize hr
  · by_contra! hc
    exact not_ncallocRoomy hc.1 hc.2.1 hc.2.2 hr
  · rintro (hc | hf | hs)
    · exact ncallocRoomy_of_refused fun h sbrk => if_neg hc
    · exact ncallocRoomy_of_fits hf
    by_cases hc : n = 0 ∨ c < (T.sizeMod - 1) / n
    · refine ncallocRoomy_of_refused fun h sbrk => ?_
      unfold ncalloc
      rw [if_pos hc]
      dsimp only
      rw [mod_eq_of_lt (mul_lt_sizeMod hc), nmalloc_oversize hs]
      rfl
    · exact ncallocRoomy_of_refused fun h sbrk => if_neg hc

theorem capacity_iff_page : dj64.NmallocRoomy 4096 ∧ dj64.NreallocRoomy 4096 ∧
    dj64.NcallocRoomy 64 64 := by
  obtain ⟨h1, h2, h3⟩ := capacity_iff dj64 4096 64 64 (by decide)
  have hf : dj64.Fits 4096 := by decide
  exact ⟨h1.mpr (.inl hf), h2.mpr hf, h3.mpr (.inr (.inl hf))⟩

/-- A request for 4 GiB is served with a block of 32 bytes, all of them header. -/
theorem nmalloc_four_gigabytes : ∃ p h',
    dj64.nmalloc (initial fun _ => 0) (answers 0x10000) (2 ^ 32) = .ok (p, h') ∧ p ≠ 0 ∧
      dj64.get h' (p - dj64.dataOffset) .sz = dj64.dataOffset := by
  obtain ⟨⟨p, h'⟩, hrun, hp⟩ := Runs.exists_of_succeeds
    (e := dj64.nmalloc (initial fun _ => 0) (answers 0x10000) (2 ^ 32))
    (p := fun r => r.1 ≠ 0 ∧ dj64.get r.2 (r.1 - dj64.dataOffset) .sz = dj64.dataOffset)
    (by decide +kernel)
  exact ⟨p, h', hrun, of_decide_eq_true hp⟩

end Nmalloc
