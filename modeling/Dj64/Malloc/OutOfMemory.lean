import Dj64.Malloc.Capacity

/-!
# Failing memory sources

In the 64-bit build `malloc` takes its memory from `djsbrk`, which fails with `NULL`, and
`malloc32` takes it from `sbrk`, which fails with the pointer that belongs to the DOS address
`base - 1`.  `extendsbrk` only knows `(void *)-1`.
-/

namespace Nmalloc

open Runs

/-- `djsbrk`, over `dj64api->malloc`. -/
def djsbrk (malloc : ℕ → ℕ) : ℕ → ℕ := fun increment => malloc increment

/-- `sbrk`: `DATA_PTR(__sbrk(delta))`, over `dj64api->addr2ptr`, the base address and `__sbrk`. -/
def sbrk (addr2ptr : ℕ → ℕ) (base : ℕ) (dosSbrk : ℕ → ℕ) : ℕ → ℕ := fun delta =>
  addr2ptr (u32 (base + dosSbrk delta))

/-- The calls that may need memory. -/
inductive Call
  | nmalloc (size : ℕ)
  | nrealloc (ptr size : ℕ)
  | ncalloc (n s : ℕ)

/-- The pointer passed to `nrealloc` is `NULL` or has room for a header below it. -/
def Call.Proper (T : Target) : Call → Prop
  | .nrealloc ptr _ => ptr = 0 ∨ T.dataOffset < ptr
  | _ => True

namespace Target

variable {T : Target} {h h' h1 : Heap} {c : Call} {m n s x size q ptr : ℕ} {src src' : ℕ → ℕ}
  {r : ℕ × Heap}

/-- A call with its memory source. -/
def call (T : Target) (h : Heap) (src : ℕ → ℕ) : Call → Except Fault (ℕ × Heap)
  | .nmalloc size => T.nmalloc h src size
  | .nrealloc ptr size => T.nrealloc h src ptr size
  | .ncalloc n s => T.ncalloc h src n s

/-- The call asks its source for `x` bytes: its outcome depends on the source, and only through
the answer for `x`. -/
def Asks (T : Target) (h : Heap) (c : Call) (x : ℕ) : Prop :=
  (∃ src src', T.call h src c ≠ T.call h src' c) ∧
    ∀ src src' : ℕ → ℕ, src x = src' x → T.call h src c = T.call h src' c

/-! ### `extendsbrk` takes a failure for an address -/

theorem extendsbrk_congr (hx : src (T.sbrkRequest h s) = src' (T.sbrkRequest h s)) :
    T.extendsbrk h src s = T.extendsbrk h src' s := by
  unfold extendsbrk fakesbrk
  simp only [hx]

theorem extendsbrk_null (hv : src (T.sbrkRequest h s) = 0) :
    T.extendsbrk h src s = .error .nullAccess := by
  have hne : (0 : ℕ) ≠ T.sizeMod - 1 := by
    have : 1 < 256 ^ T.ptr := Nat.one_lt_pow (by have := T.ptr_cases; omega) (by norm_num)
    unfold sizeMod
    omega
  unfold extendsbrk fakesbrk
  simp only [hv, if_neg hne]
  by_cases h0 : h.lastsbrk = 0
  · -- `NULL` is where the first region was expected
    have hexp : T.expected h = 0 := if_neg (by simpa using h0)
    rw [hexp, if_pos rfl, if_pos (by exact h0)]
    rfl
  · have hexp : 0 ≠ T.expected h := by
      rw [expected, if_pos h0]
      omega
    rw [if_neg hexp]
    rfl

theorem newLastsbrk_lastsbrk (hrun : T.newLastsbrk h q x = .ok r) :
    r.1 = r.2.lastsbrk ∧ r.1 ≠ 0 := by
  unfold newLastsbrk at hrun
  dsimp only at hrun
  rw [show q + (if q % align ≠ 0 then align - q % align else 0) = alignUp q from rfl] at hrun
  by_cases h0 : alignUp q = 0
  · rw [if_pos h0] at hrun
    cases hrun
  rw [if_neg h0] at hrun
  obtain ⟨h1, -, hret⟩ := bind_eq_ok hrun
  obtain ⟨l, hl⟩ := recordnewsbrk_eq (h1.setLastsbrk (alignUp q)) (alignUp q)
  rw [hl] at hret
  cases hret
  exact ⟨(lastsbrk_setLastsbrk h1 (alignUp q)).symm, h0⟩

theorem extendsbrk_lastsbrk (hv : src (T.sbrkRequest h s) ≠ T.sizeMod - 1)
    (hrun : T.extendsbrk h src s = .ok r) : r.1 = r.2.lastsbrk ∧ r.1 ≠ 0 := by
  unfold extendsbrk fakesbrk at hrun
  simp only [if_neg hv] at hrun
  split_ifs at hrun with hexp h0
  · cases hrun
  · cases hrun
    exact ⟨by simp, h0⟩
  · exact newLastsbrk_lastsbrk hrun

/-! ### Calls that reach the source -/

/-- The outcome does not depend on the source; or the heap is extended first and, given a new
`lastsbrk`, the result is not `NULL`. -/
def Defers (T : Target) (h : Heap) (f : (ℕ → ℕ) → Except Fault (ℕ × Heap)) : Prop :=
  (∀ src src', f src = f src') ∨
    ∃ s k, (∀ src, f src = T.extendsbrk h src s >>= k) ∧
      ∀ h₁ h', h₁.lastsbrk ≠ 0 → k (h₁.lastsbrk, h₁) ≠ .ok (0, h')

theorem Defers.bind {f : (ℕ → ℕ) → Except Fault (ℕ × Heap)} {k : ℕ × Heap → Except Fault (ℕ × Heap)}
    (hf : T.Defers h f) (hk : ∀ m h₁ h', m ≠ 0 → k (m, h₁) ≠ .ok (0, h')) :
    T.Defers h fun src => f src >>= k := by
  rcases hf with hin | ⟨s, k', hrun, hn⟩
  · exact .inl fun src src' => congrArg (· >>= k) (hin src src')
  refine .inr ⟨s, fun r => k' r >>= k, fun src => ?_, fun h₁ h' h0 hret => ?_⟩
  · dsimp only
    rw [hrun]
    cases T.extendsbrk h src s <;> rfl
  · obtain ⟨⟨m, h₂⟩, h1, h2⟩ := bind_eq_ok hret
    refine hk m h₂ h' ?_ h2
    rintro rfl
    exact hn h₁ h₂ h0 h1

theorem ok_ne_null (hm : m ≠ 0) : (.ok (m, h1) : Except Fault (ℕ × Heap)) ≠ .ok (0, h') :=
  fun heq => hm (congrArg Prod.fst (Except.ok.inj heq))

theorem pointer_ne_null (m : ℕ) (h1 h' : Heap) (hm : m ≠ 0) :
    (if m ≠ 0 then return (m + T.dataOffset, h1) else return (0, h1) :
      Except Fault (ℕ × Heap)) ≠ .ok (0, h') := by
  rw [if_pos hm]
  exact ok_ne_null (by omega)

theorem splitLast_ne_null (h0 : h.lastsbrk ≠ 0) : T.splitLast h s ≠ .ok (0, h') := by
  intro heq
  obtain ⟨r, -, hret⟩ := bind_eq_ok heq
  exact ok_ne_null h0 hret

theorem mv2lastsbrk_ne_null (h0 : h.lastsbrk ≠ 0) : T.mv2lastsbrk h m s ≠ .ok (0, h') := by
  intro heq
  obtain ⟨⟨m1, h₁⟩, h1, h2⟩ := bind_eq_ok heq
  obtain ⟨h₂, -, hret⟩ := bind_eq_ok h2
  refine ok_ne_null ?_ hret
  rintro rfl
  exact splitLast_ne_null h0 h1

theorem growlast_ne_null (hm : m ≠ 0) : T.growlast h m s ≠ .ok (0, h') := by
  intro heq
  obtain ⟨h1, -, h2⟩ := bind_eq_ok heq
  obtain ⟨r, -, hret⟩ := bind_eq_ok h2
  exact ok_ne_null hm hret

theorem allocblock_defers : T.Defers h fun src => T.allocblock h src s := by
  unfold allocblock
  dsimp only
  split_ifs
  · exact .inl fun _ _ => rfl
  · exact .inl fun _ _ => rfl
  refine .inr ⟨s, _, fun _ => rfl, fun h1 h' h0 => ?_⟩
  dsimp only
  split_ifs
  · exact ok_ne_null h0
  · exact splitLast_ne_null h0

theorem nmalloc_defers (h : Heap) (size : ℕ) : T.Defers h fun src => T.nmalloc h src size := by
  unfold nmalloc
  by_cases hlt : T.roundup (if size = 0 then size + 1 else size) < oversize
  · simp only [if_pos hlt]
    exact allocblock_defers.bind pointer_ne_null
  · simp only [if_neg hlt]
    exact .inl fun _ _ => rfl

theorem ncalloc_defers : T.Defers h fun src => T.ncalloc h src n s := by
  unfold ncalloc
  by_cases hc : n = 0 ∨ s < (T.sizeMod - 1) / n
  · simp only [if_pos hc]
    refine (nmalloc_defers h _).bind fun m h1 h' hm => ?_
    rw [if_pos hm]
    exact ok_ne_null hm
  · simp only [if_neg hc]
    exact .inl fun _ _ => rfl

theorem growblock_defers (h : Heap) (hm : m ≠ 0) (s : ℕ) :
    T.Defers h fun src => T.growblock h src m s := by
  unfold growblock
  dsimp only
  split_ifs
  · exact .inl fun _ _ => rfl
  · exact .inl fun _ _ => rfl
  · exact .inl fun _ _ => rfl
  · exact .inl fun _ _ => rfl
  · exact .inl fun _ _ => rfl
  refine .inr ⟨s, _, fun _ => rfl, fun h1 h' h0 => ?_⟩
  dsimp only
  split_ifs
  · exact growlast_ne_null hm
  · exact mv2lastsbrk_ne_null h0

theorem nrealloc_defers (h : Heap) (hptr : ptr = 0 ∨ T.dataOffset < ptr) (size : ℕ) :
    T.Defers h fun src => T.nrealloc h src ptr size := by
  unfold nrealloc
  by_cases h0 : ptr = 0
  · simp only [if_pos h0]
    exact nmalloc_defers h size
  have hm : ptr - T.dataOffset ≠ 0 := by omega
  simp only [if_neg h0]
  generalize T.roundup (if size = 0 then size + 1 else size) = s
  split_ifs
  · exact .inl fun _ _ => rfl
  · exact .inl fun _ _ => rfl
  · exact .inl fun _ _ => rfl
  · exact (growblock_defers h hm _).bind pointer_ne_null

theorem call_defers (hc : c.Proper T) : T.Defers h fun src => T.call h src c := by
  cases c with
  | nmalloc size => exact nmalloc_defers h size
  | nrealloc ptr size => exact nrealloc_defers h hc size
  | ncalloc n s => exact ncalloc_defers

theorem Asks.extends (ha : T.Asks h c x) (hc : c.Proper T) (src : ℕ → ℕ) :
    ∃ s k, T.call h src c = T.extendsbrk h (fun _ => src x) s >>= k ∧
      ∀ h1 h', h1.lastsbrk ≠ 0 → k (h1.lastsbrk, h1) ≠ .ok (0, h') := by
  obtain ⟨⟨src1, src2, hne⟩, hdet⟩ := ha
  rcases call_defers hc with hin | ⟨s, k, hrun, hn⟩
  · exact absurd (hin src1 src2) hne
  · exact ⟨s, k, (hdet src (fun _ => src x) rfl).trans (hrun _), hn⟩

theorem exists_asks (hc : c.Proper T) (hne : T.call h src c ≠ T.call h src' c) :
    ∃ x, T.Asks h c x := by
  rcases call_defers hc with hin | ⟨s, k, hrun, -⟩
  · exact absurd (hin src src') hne
  · refine ⟨T.sbrkRequest h s, ⟨src, src', hne⟩, fun src1 src2 hx => ?_⟩
    exact (hrun src1).trans ((congrArg (· >>= k) (extendsbrk_congr hx)).trans (hrun src2).symm)

end Target

/-- **Failures are never reported**: a call that needs memory dereferences `NULL` if `djsbrk`
fails, and does not return `NULL` if `sbrk` fails.  The host's `addr2ptr` is only assumed to stay
below the last 16 addresses. -/
theorem failure_never_reported (T : Target) (h : Heap) (c : Call) (x : ℕ) (hc : c.Proper T)
    (ha : T.Asks h c x) :
    (∀ malloc : ℕ → ℕ, malloc x = 0 → T.call h (djsbrk malloc) c = .error .nullAccess) ∧
      ∀ (addr2ptr dosSbrk : ℕ → ℕ) (base : ℕ), (∀ a, addr2ptr a + 16 ≤ T.sizeMod) →
        dosSbrk x = 2 ^ 32 - 1 → ∀ h', T.call h (sbrk addr2ptr base dosSbrk) c ≠ .ok (0, h') := by
  refine ⟨fun malloc hm => ?_, fun addr2ptr dosSbrk base hptr hs h' hret => ?_⟩
  · obtain ⟨s, k, hrun, -⟩ := ha.extends hc (djsbrk malloc)
    rw [hrun, Target.extendsbrk_null (show djsbrk malloc x = 0 from hm)]
    rfl
  obtain ⟨s, k, hrun, hn⟩ := ha.extends hc (sbrk addr2ptr base dosSbrk)
  rw [hrun] at hret
  obtain ⟨⟨m, h₁⟩, h1, h2⟩ := bind_eq_ok hret
  have hv : sbrk addr2ptr base dosSbrk x ≠ T.sizeMod - 1 := by
    have := hptr (u32 (base + dosSbrk x))
    show addr2ptr (u32 (base + dosSbrk x)) ≠ _
    omega
  obtain ⟨hm, h0⟩ := Target.extendsbrk_lastsbrk hv h1
  dsimp only at hm h0
  subst hm
  exact hn h₁ h' h0 h2

theorem failure_never_reported_first : ∃ x, dj64.Asks (initial fun _ => 0) (.nmalloc 16) x ∧
    dj64.call (initial fun _ => 0) (djsbrk fun _ => 0) (.nmalloc 16) = .error .nullAccess := by
  have hok : succeeds (dj64.call (initial fun _ => 0) (answers 0x10000) (.nmalloc 16))
      (fun _ => true) := by decide +kernel
  have hf : succeeds (dj64.call (initial fun _ => 0) (answers 0) (.nmalloc 16))
      (fun _ => true) = false := by decide +kernel
  have hne : dj64.call (initial fun _ => 0) (answers 0x10000) (.nmalloc 16) ≠
      dj64.call (initial fun _ => 0) (answers 0) (.nmalloc 16) := by
    intro heq
    rw [heq, hf] at hok
    cases hok
  obtain ⟨x, hx⟩ := Target.exists_asks (c := .nmalloc 16) trivial hne
  exact ⟨x, hx, (failure_never_reported dj64 _ (.nmalloc 16) x trivial hx).1 _ rfl⟩

/-- Out of memory at the first allocation: `malloc(16)` faults, and `malloc32(16)` returns a
pointer into memory that nobody has allocated. -/
theorem failure_unreported :
    dj64.nmalloc (initial fun _ => 0) (djsbrk fun _ => 0) 16 = .error .nullAccess ∧
      ∃ h', dj64.nmalloc (initial fun _ => 0)
        (sbrk (fun a => 0x700000000000 + a) 0x110000 fun _ => 2 ^ 32 - 1) 16 =
          .ok (0x700000110020, h') := by
  refine ⟨rfl, ?_⟩
  obtain ⟨⟨p, h'⟩, hrun, hp⟩ := exists_of_succeeds (e := dj64.nmalloc (initial fun _ => 0)
      (sbrk (fun a => 0x700000000000 + a) 0x110000 fun _ => 2 ^ 32 - 1) 16)
    (p := fun r => r.1 = 0x700000110020) (by decide +kernel)
  exact ⟨h', by rw [hrun, ← of_decide_eq_true hp]⟩

end Nmalloc
