import Dj64.Stdlib.EnvironRuns

/-!
# putenv without memory

`putenv` and `setenv` once more, for any strings in the array, with `errno` and a note of whether an
allocation has failed.
-/

namespace Environ.Failures

open Exec Runs List Env

/-- The error codes of `errno.h` that are used here. -/
def EINVAL : ℤ := 14

@[inherit_doc EINVAL] def ENOMEM : ℤ := 25

/-- What a call leaves; `refused` says that an allocation it made returned `NULL`. -/
structure Call where
  env : Env
  ret : ℤ
  errno : ℤ
  refused : Bool

/-- A new entry. -/
def create (s : Env) (mem : Malloc) (errno : ℤ) (val : Bytes) : Except Fault Call := do
  if s.emax ≤ s.ecount ∧ !mem.table then
    return ⟨{ s with emax := s.emax + 10 }, -1, ENOMEM, true⟩
  else
    let s ← s.makeRoom mem
    if !mem.entry then
      return ⟨{ s with slots := ← store s.slots s.ecount none }, -1, ENOMEM, true⟩
    else
      let slots ← store s.slots s.ecount (some val)
      return ⟨{ s with
        slots := ← store slots (s.ecount + 1) none
        ecount := s.ecount + 1
        environChanged := s.environChanged + 1 }, 0, errno, false⟩

/-- The length of the name in `val`, with the equals sign. -/
def nameLength (val : Bytes) : ℕ := if val.contains 61 then val.idxOf 61 + 1 else val.length

/-- `putenv`, behind the computation of the counters. -/
def edit (s : Env) (mem : Malloc) (errno : ℤ) (val : Bytes) : Except Fault Call := do
  let nlen := nameLength val
  let (eindex, found) ← scan (isEntry val nlen) 0 s.slots
  match found with
  | some oval =>
    if !val.contains 61 then return ⟨← s.delete eindex, 0, errno, false⟩
    else if oval.drop nlen = val.drop nlen then return ⟨s, 0, errno, false⟩
    else if val.length ≠ oval.length ∧ !mem.entry then return ⟨s, -1, ENOMEM, true⟩
    else
      return ⟨{ s with
        slots := ← store s.slots eindex (some val)
        environChanged := s.environChanged + 1 }, 0, errno, false⟩
  | none => if !val.contains 61 then return ⟨s, 0, errno, false⟩ else create s mem errno val

def putenv (s : Env) (mem : Malloc) (errno : ℤ) (val : Bytes) : Except Fault Call := do
  let s ← s.recount
  edit s mem errno val

/-- `setenv`; `none` is `NULL`. -/
def setenv (s : Env) (mem : Malloc) (var val : Option Bytes) (replace : Bool) :
    Except Fault Call :=
  match var, val with
  | some var, some val => do
    let prev ← s.getenv var
    if prev.isSome ∧ !replace then return ⟨s, 0, 0, false⟩
    else putenv s mem 0 (var.takeWhile (· != 61) ++ 61 :: stripEquals val)
  | _, _ => .ok ⟨s, -1, EINVAL, false⟩

/-! ### The calls without errno -/

/-- What the calls of `Environ` give. -/
def Call.result (c : Call) : Env × ℤ := (c.env, c.ret)

theorem result_ite {p : Prop} [Decidable p] {x y : Except Fault Call} :
    Call.result <$> (if p then x else y) = if p then Call.result <$> x else Call.result <$> y :=
  apply_ite _ _ _ _

theorem create_erase {s : Env} {mem : Malloc} {errno : ℤ} {val : Bytes} :
    Call.result <$> create s mem errno val = s.create mem val := by
  simp only [create, Env.create, result_ite, map_bind, map_pure, Call.result]

theorem putenv_erase {s : Env} {mem : Malloc} {errno : ℤ} {val : Bytes} :
    Call.result <$> putenv s mem errno val = s.putenv mem val := by
  simp only [putenv, edit, map_bind]
  congr 1
  funext t
  congr 1
  funext r
  obtain ⟨eindex, found⟩ := r
  cases found with
  | none => simp only [result_ite, create_erase, map_pure, Call.result]
  | some oval => simp only [result_ite, map_bind, map_pure, Call.result, nameLength]

theorem setenv_erase {s : Env} {mem : Malloc} {var val : Option Bytes} {replace : Bool} :
    Call.result <$> setenv s mem var val replace = s.setenv mem var val replace := by
  cases var with
  | none => rfl
  | some var =>
    cases val with
    | none => rfl
    | some val =>
      simp only [setenv, Env.setenv, result_ite, map_bind, map_pure, putenv_erase, Call.result,
        stripEquals]

/-! ### What a call can do -/

/-- The array has as many slots as before, and the same counter for them. -/
structure SameArray (t t' : Env) : Prop where
  length : t'.slots.length = t.slots.length
  emax : t'.emax = t.emax
  counted : t'.Counted ↔ t.Counted

theorem SameArray.refl (t : Env) : SameArray t t := ⟨rfl, rfl, Iff.rfl⟩

/-- The call asks for a larger array. -/
def Asks (t : Env) (val : Bytes) : Prop :=
  val.contains 61 = true ∧ (∃ i, scan (isEntry val (nameLength val)) 0 t.slots =
    .ok (i, none)) ∧
    t.emax ≤ t.ecount

/-- The effect of a call on an array with the entries `es`. -/
inductive Effect (t : Env) (es : List Bytes) (mem : Malloc) (errno : ℤ) (val : Bytes) :
    Except Fault Call → Prop where
  | edited {t' : Env} {es' : List Bytes} (hasks : ¬ Asks t val) (h : Listed t' es')
    (hsame : SameArray t t') :
    Effect t es mem errno val (.ok ⟨t', 0, errno, false⟩)
  | refused {t' : Env} (hasks : ¬ Asks t val) (h : Listed t' es) (hsame : SameArray t t') :
    Effect t es mem errno val (.ok ⟨t', -1, ENOMEM, true⟩)
  | starved (htable : mem.table = false) (hasks : Asks t val) :
    Effect t es mem errno val (.ok ⟨{ t with emax := t.emax + 10 }, -1, ENOMEM, true⟩)
  | grown {t' : Env} {es' : List Bytes} {ret errno' : ℤ} {fails : Bool} (htable : mem.table = true)
    (hfull : t.emax ≤ t.ecount) (h : Listed t' es') (hroom : t'.emax < t'.slots.length)
    (hclean : fails = true → ret = -1 ∧ errno' = ENOMEM ∧ es' = es) :
    Effect t es mem errno val (.ok ⟨t', ret, errno', fails⟩)
  | overrun (hlast : t.ecount + 1 = t.slots.length) (hroom : t.ecount < t.emax) :
    Effect t es mem errno val (.error .outOfBounds)

section

variable {t : Env} {es : List Bytes} {mem : Malloc} {val : Bytes} {errno : ℤ}

section

variable (h : Listed t es)
include h

theorem store_refused : store t.slots t.ecount none = .ok t.slots := by
  have hlt := h.lt_length
  obtain ⟨rest, hs⟩ := h.slots
  rw [store_eq (by rw [h.ecount]; exact hlt), h.ecount, hs, set_entries]

/-- A new entry in this array. -/
theorem create_here (hr : t.ecount < t.emax) (hen : mem.entry) (val : Bytes) (errno : ℤ) :
    (t.ecount + 1 = t.slots.length ∧ create t mem errno val = .error .outOfBounds) ∨
      ∃ t', create t mem errno val = .ok ⟨t', 0, errno, false⟩ ∧ Listed t' (es ++ [val]) ∧
        t'.ecount = t.ecount + 1 ∧ SameArray t t' := by
  have hlt := h.lt_length
  have he := h.ecount
  obtain ⟨rest, hs⟩ := h.slots
  have hc : create t mem errno val =
      store (t.slots.set t.ecount (some val)) (t.ecount + 1) none >>= fun slots =>
        pure ⟨{ t with
          slots := slots
          ecount := t.ecount + 1
          environChanged := t.environChanged + 1 }, 0, errno, false⟩ := by
    rw [create, if_neg fun hf => absurd hf.1 (not_le.mpr hr), makeRoom, if_neg (not_le.mpr hr)]
    show (if (!mem.entry) then _ else _) = _
    rw [hen, if_neg (by decide)]
    rw [store_eq (by rw [he]; exact hlt)]
    rfl
  rw [hc]
  cases rest with
  | nil =>
    left
    have hl : t.ecount + 1 = t.slots.length := by simp [hs, he]
    refine ⟨hl, ?_⟩
    rw [store, if_neg (by rw [length_set]; omega)]
    rfl
  | cons y rest =>
    right
    have hlen : t.ecount + 1 < t.slots.length := by simp [hs, he]
    rw [store_eq (by rw [length_set]; exact hlen)]
    refine ⟨_, rfl, ⟨⟨rest, ?_⟩, ?_, hr⟩, rfl, ⟨?_, rfl, Iff.rfl⟩⟩
    · rw [hs, he]
      simp
    · rw [he, length_append, length_singleton]
    · rw [length_set, length_set]

/-- A new entry in a larger array. -/
theorem create_grown (hf : t.emax ≤ t.ecount) (ht : mem.table)
    : Effect t es mem errno val (create t mem errno val) := by
  have he := h.ecount
  obtain ⟨x, y, rest, hg, hlen⟩ := h.grow hf mem
  obtain ⟨t', ht'⟩ : ∃ t' : Env, t' = { t with
      emax := t.emax + 10
      slots := es.map some ++ x :: y :: rest
      environ := t.environ + 1
      prevEnviron := some (t.environ + 1) } := ⟨_, rfl⟩
  rw [← ht'] at hg
  have hs : t'.slots = es.map some ++ x :: y :: rest := by rw [ht']
  have he' : t'.ecount = es.length := by rw [ht', ← he]
  have hem : t'.emax + 1 = t'.slots.length := by rw [hs, hlen, ht']
  have hl' : t'.slots.length = es.length + (rest.length + 2) := by simp [hs]
  have hle : es.length < t'.emax := by omega
  rw [create, if_neg (by simp [ht]), hg]
  show Effect t es mem errno val (if (!mem.entry) then _ else _)
  split_ifs with hen
  · rw [store_eq (by omega)]
    refine .grown ht hf ⟨⟨y :: rest, ?_⟩, he', he' ▸ hle.le⟩ ?_ fun _ =>
      ⟨rfl, rfl, rfl⟩
    · rw [hs, he', set_entries]
    · show t'.emax < (t'.slots.set t'.ecount none).length
      rw [length_set]
      omega
  rw [store_eq (by omega)]
  show Effect t es mem errno val
    (store (t'.slots.set t'.ecount (some val)) (t'.ecount + 1) none >>= _)
  rw [store_eq (by rw [length_set]; omega)]
  have hs' : (t'.slots.set t'.ecount (some val)).set (t'.ecount + 1) none =
      (es ++ [val]).map some ++ none :: rest := by
    rw [hs, he']
    simp
  refine .grown ht hf ⟨⟨rest, hs'⟩, ?_, ?_⟩ ?_ nofun
  · rw [he', length_append, length_singleton]
  · show t'.ecount + 1 ≤ t'.emax
    omega
  · show t'.emax < ((t'.slots.set t'.ecount (some val)).set (t'.ecount + 1) none).length
    rw [length_set, length_set]
    omega

/-- **What a call does**, once the counters are right. -/
theorem edit_effect : Effect t es mem errno val (edit t mem errno val) := by
  obtain ⟨rest, hsl⟩ := h.slots
  rw [edit]
  rcases search_slots hsl (isEntry val (nameLength val)) with
    ⟨i, hs, -⟩ | ⟨es1, e, es2, rfl, -, hs⟩
  · rw [hs]
    by_cases hval : val.contains 61
    · rw [hval, if_neg (by decide)]
      by_cases hfu : t.emax ≤ t.ecount
      · cases ht : mem.table with
        | true => exact create_grown h hfu ht
        | false =>
          rw [create, if_pos ⟨hfu, by rw [ht]; rfl⟩]
          exact .starved ht ⟨hval, ⟨i, hs⟩, hfu⟩
      have hr := not_le.mp hfu
      have ha : ¬ Asks t val := fun ha => hfu ha.2.2
      cases he : mem.entry with
      | true =>
        rcases create_here h hr he val errno with
          ⟨hla, hc⟩ | ⟨t', hc, hl, -, hsa⟩
        · rw [hc]
          exact .overrun hla hr
        · rw [hc]
          exact .edited ha hl hsa
      | false =>
        rw [create, if_neg fun hf => hfu hf.1, makeRoom, if_neg hfu]
        show Effect t es mem errno val (if (!mem.entry) then _ else _)
        rw [he, store_refused h]
        exact .refused ha h (SameArray.refl t)
    · rw [Bool.not_eq_true] at hval
      rw [hval]
      refine .edited (fun ha => ?_) h (SameArray.refl t)
      rw [Asks, hval] at ha
      cases ha.1
  · have ha : ¬ Asks t val := by
      rintro ⟨-, ⟨i, hn⟩, -⟩
      rw [hs] at hn
      cases hn
    rw [hs]
    show Effect t _ mem errno val (if (!val.contains 61) then _ else _)
    split_ifs with hval hsa hfa
    · obtain ⟨slots, es', hd, hlen, hp, hs'⟩ := h.delete
      rw [hd]
      refine .edited ha ⟨hs', rfl, ?_⟩ ⟨hlen, rfl, Iff.rfl⟩
      have hle := h.le_emax
      have hec := h.ecount
      have hl' := hp.length_eq
      simp only [length_append, length_cons] at hec hl' ⊢
      omega
    · exact .edited ha h (SameArray.refl t)
    · exact .refused ha h (SameArray.refl t)
    have hlt := h.lt_length
    rw [length_append] at hlt
    rw [store_eq (by omega)]
    refine .edited ha ⟨⟨rest, by rw [hsl, set_middle]⟩, ?_, h.le_emax⟩ ⟨?_, rfl, Iff.rfl⟩
    · rw [h.ecount, length_append, length_append, length_cons, length_cons]
    · rw [length_set]

end

end

/-! ### The counters -/

/-- The array ends with `NULL`, and its counters are right if they will not be computed again. -/
def Sound (s : Env) : Prop :=
  ∃ es rest, s.slots = es.map some ++ none :: rest ∧
    (s.Counted → Listed s es ∧ s.emax < s.slots.length)

def Overcounted (s : Env) : Prop := ∃ es, Listed s es ∧ s.Counted ∧ s.slots.length ≤ s.emax

section

variable {s t : Env} {es : List Bytes} {mem : Malloc} {val : Bytes} {errno : ℤ} {c : Call}

theorem Sound.recount (h : Sound s) : ∃ t es, s.recount = .ok t ∧ t.slots = s.slots ∧ Listed t es ∧
    t.emax < t.slots.length := by
  obtain ⟨es, rest, hs, hco⟩ := h
  by_cases hc : s.Counted
  · exact ⟨s, es, recount_counted hc, rfl, hco hc⟩
  have hlt : es.length < s.slots.length := by simp [hs]
  have hor : s.putenvBssCount ≠ s.bssCount ∨ s.prevEnviron ≠ some s.environ := by
    rwa [← not_and_or]
  rw [Env.recount, if_pos hor, scan_end hs]
  show ∃ t es', (if s.putenvBssCount ≠ s.bssCount then _ else _) = _ ∧ _
  split_ifs with hbss <;> exact ⟨_, es, rfl, rfl, ⟨⟨rest, hs⟩, rfl, le_rfl⟩, hlt⟩

theorem Listed.sound (h : Listed s es) (hr : s.emax < s.slots.length) : Sound s := by
  obtain ⟨rest, hs⟩ := h.slots
  exact ⟨es, rest, hs, fun _ => ⟨h, hr⟩⟩

theorem Listed.getenv_eq (h : Listed s es) (h' : Listed t es) (name : Bytes) :
    s.getenv name = t.getenv name := by
  obtain ⟨rest, hs⟩ := h.slots
  obtain ⟨rest', hs'⟩ := h'.slots
  rw [getenv_slots hs, getenv_slots hs']

/-- The array has room for ten more entries than the counter says, or the counter will be computed
again. -/
def Spare (t : Env) : Prop := t.Counted → t.emax + 10 < t.slots.length

def Call.Clean (c : Call) (s : Env) : Prop :=
  c.refused = true → c.ret = -1 ∧ c.errno = ENOMEM ∧ ∀ name, c.env.getenv name = s.getenv name

def Granted (t : Env) (mem : Malloc) (val : Bytes) : Prop :=
  Asks t val → mem.table = false → Spare t

variable {r : Except Fault Call}

/-- A call from a sound state. -/
theorem Effect.of_sound (h : Effect t es mem errno val r)
    (hl : Listed t es) (hr : t.emax < t.slots.length) : ∃ c, r = .ok c ∧ c.Clean t ∧
      (Granted t mem val → Sound c.env) ∧ (¬ Granted t mem val → Overcounted c.env) := by
  cases h with
  | edited ha h hs =>
    refine ⟨_, rfl, nofun, fun _ => Listed.sound h ?_, fun hnot => absurd (absurd · ha) hnot⟩
    rw [hs.emax, hs.length]
    exact hr
  | refused ha h hs =>
    refine ⟨_, rfl, fun _ => ⟨rfl, rfl, Listed.getenv_eq h hl⟩, fun _ => Listed.sound h ?_,
      fun hnot => absurd (absurd · ha) hnot⟩
    rw [hs.emax, hs.length]
    exact hr
  | starved ht ha =>
    obtain ⟨rest, hsl⟩ := hl.slots
    have hl' : Listed { t with emax := t.emax + 10 } es :=
      ⟨hl.slots, hl.ecount, hl.le_emax.trans (Nat.le_add_right _ _)⟩
    refine ⟨_, rfl, fun _ => ⟨rfl, rfl, Listed.getenv_eq hl' hl⟩, fun hg => ?_, fun hnot => ?_⟩
    · exact ⟨es, rest, hsl, fun hc => ⟨hl', hg ha ht hc⟩⟩
    · have hsp : ¬ Spare t := fun hsp => hnot fun _ _ => hsp
      rw [Spare, Classical.not_imp, not_lt] at hsp
      exact ⟨es, hl', hsp⟩
  | grown ht hfu h hr hcl =>
    refine ⟨_, rfl, fun hre => ?_, fun _ => Listed.sound h hr, fun hnot => ?_⟩
    · obtain ⟨hret, he, rfl⟩ := hcl hre
      exact ⟨hret, he, Listed.getenv_eq h hl⟩
    · refine absurd (fun _ hf => ?_) hnot
      rw [ht] at hf
      cases hf
  | overrun hla hmax => omega

theorem Effect.of_overcounted (h : Effect t es mem errno val r)
    (hl : Listed t es) (hc : t.Counted) (ho : t.slots.length ≤ t.emax) :
    (∃ e, r = .error e) ∨ ∃ c, r = .ok c ∧ Overcounted c.env := by
  have hlt := hl.lt_length
  rw [← hl.ecount] at hlt
  cases h with
  | edited ha h hs =>
    refine .inr ⟨_, rfl, _, h, hs.counted.mpr hc, ?_⟩
    rw [hs.emax, hs.length]
    exact ho
  | refused ha h hs =>
    refine .inr ⟨_, rfl, _, h, hs.counted.mpr hc, ?_⟩
    rw [hs.emax, hs.length]
    exact ho
  | starved ht ha =>
    have hf := ha.2.2
    omega
  | grown ht hf h hr hcl => omega
  | overrun hla hmax => exact .inl ⟨_, rfl⟩

end

/-! ### Runs -/

/-- A call that changes the environment. -/
inductive Request where
  | putenv (val : Bytes)
  | setenv (var val : Option Bytes) (replace : Bool)

/-- The environment, and `errno`. -/
structure Process where
  env : Env
  errno : ℤ

/-- The call. -/
def Request.call (p : Process) (mem : Malloc) : Request → Except Fault Call
  | .putenv val => Failures.putenv p.env mem p.errno val
  | .setenv var val replace => Failures.setenv p.env mem var val replace

/-- The calls are those of `Environ`. -/
theorem call_erase (r : Request) (p : Process) (mem : Malloc) : Call.result <$> r.call p mem =
    match r with
    | .putenv val => p.env.putenv mem val
    | .setenv var val replace => p.env.setenv mem var val replace := by
  cases r with
  | putenv val => exact putenv_erase
  | setenv var val replace => exact setenv_erase

def step (p : Process) (call : Request × Malloc) : Except Fault Process :=
  (fun c => ⟨c.env, c.errno⟩) <$> call.1.call p call.2

/-- The string that `putenv` gets. -/
def Request.string (s : Env) : Request → Option Bytes
  | .putenv val => some val
  | .setenv (some var) (some val) replace =>
    match s.getenv var with
    | .ok prev =>
      if prev.isSome ∧ !replace then none else some (var.takeWhile (· != 61) ++
        61 :: stripEquals val)
    | .error _ => none
  | .setenv _ _ _ => none

/-- `putenv` gets a larger array when it asks for one, or the array is one whose counters it
computes again at the next call, or one that has ten more slots than it has counted. -/
def Provided (p : Process) (call : Request × Malloc) : Prop :=
  ∀ val t, call.1.string p.env = some val → p.env.recount = .ok t → Asks t val →
    call.2.table = false → t.Counted → t.emax + 10 < t.slots.length

def Clean (p : Process) (call : Request × Malloc) : Prop :=
  ∃ c, call.1.call p call.2 = .ok c ∧ c.Clean p.env

section

variable {p p' : Process} {call : Request × Malloc} {s t : Env} {es : List Bytes} {c : Call}

theorem Request.call_eq {rest : List (Option Bytes)}
    (hs : p.env.slots = es.map some ++ none :: rest) (mem : Malloc) (req : Request) :
    (req.string p.env = none ∧ ∃ ret errno, req.call p mem = .ok ⟨p.env, ret, errno, false⟩) ∨
      ∃ val errno, req.string p.env = some val ∧ req.call p mem =
        Failures.putenv p.env mem errno val := by
  cases req with
  | putenv val => exact .inr ⟨val, p.errno, rfl, rfl⟩
  | setenv var val replace =>
    rcases var with _ | var
    · exact .inl ⟨rfl, _, _, rfl⟩
    rcases val with _ | val
    · exact .inl ⟨rfl, _, _, rfl⟩
    have hget := getenv_slots hs var
    rw [Request.string, Request.call, Failures.setenv, hget]
    by_cases hk : (Environ.getenv es var).isSome ∧ !replace
    · exact .inl ⟨if_pos hk, 0, 0, if_pos hk⟩
    · exact .inr ⟨_, 0, if_neg hk, if_neg hk⟩

theorem step_ok (h : call.1.call p call.2 = .ok c) : step p call = .ok ⟨c.env, c.errno⟩ := by
  rw [step, h]
  rfl

/-- **A call from a sound state** is clean, and leaves a sound state exactly if it was provided for.
-/
theorem step_sound (h : Sound p.env) (call : Request × Malloc) :
    Clean p call ∧ ∃ p', step p call = .ok p' ∧
      (Provided p call → Sound p'.env) ∧ (¬ Provided p call → Overcounted p'.env) := by
  obtain ⟨req, mem⟩ := call
  obtain ⟨es, rest, hsl, -⟩ := id h
  rcases Request.call_eq hsl mem req with ⟨hs, ret, errno, hca⟩ | ⟨val, errno, hs, hca⟩
  · refine ⟨⟨_, hca, nofun⟩, _, step_ok hca, fun _ => h, fun hnot => ?_⟩
    refine absurd (fun val t hval => ?_) hnot
    rw [hs] at hval
    cases hval
  obtain ⟨t, es', hr, hsa, hl, hro⟩ := Sound.recount h
  obtain ⟨c, hc, hcl, hso, ho⟩ := (edit_effect hl).of_sound hl hro
  have hc' : req.call p mem = .ok c := by
    rw [hca, Failures.putenv, hr]
    exact hc
  have hiff : Provided p (req, mem) ↔ Granted t mem val := by
    constructor
    · exact fun hp => hp val t hs hr
    · intro hg val' t' hv' ht'
      rw [hs, Option.some_inj] at hv'
      rw [hr, Except.ok.injEq] at ht'
      subst hv' ht'
      exact hg
  rw [hiff]
  refine ⟨⟨c, hc', fun hre => ?_⟩, _, step_ok hc', hso, ho⟩
  obtain ⟨hret, he, hget⟩ := hcl hre
  refine ⟨hret, he, fun name => (hget name).trans ?_⟩
  rw [Env.getenv, Env.getenv, hsa]

theorem step_overcounted (h : Overcounted p.env) (call : Request × Malloc)
    (hs : step p call = .ok p') : Overcounted p'.env := by
  obtain ⟨req, mem⟩ := call
  obtain ⟨es, hl, hc, ho⟩ := h
  obtain ⟨rest, hsl⟩ := hl.slots
  rcases Request.call_eq hsl mem req with ⟨-, ret, errno, hca⟩ | ⟨val, errno, -, hca⟩
  · rw [step_ok hca] at hs
    cases hs
    exact ⟨es, hl, hc, ho⟩
  rw [Failures.putenv, recount_counted hc] at hca
  change req.call p mem = edit p.env mem errno val at hca
  rcases (edit_effect hl).of_overcounted hl hc ho with
    ⟨e, he⟩ | ⟨c, hok, ho'⟩
  · rw [step, hca, he] at hs
    cases hs
  · rw [step_ok (hca.trans hok)] at hs
    cases hs
    exact ho'

/-! ### Out of the array -/

/-- A name that is longer than all entries. -/
theorem exists_new (es : List Bytes) :
    ∃ val : Bytes, val.contains 61 ∧ ∀ e ∈ es, isEntry val
      (nameLength val) e ≠ true := by
  obtain ⟨n, hn⟩ : ∃ n, ∀ e ∈ es, e.length ≤ n := by
    induction es with
    | nil => exact ⟨0, nofun⟩
    | cons e es ih =>
      obtain ⟨n, hn⟩ := ih
      refine ⟨max e.length n, fun e' he' => ?_⟩
      rcases mem_cons.mp he' with rfl | he'
      · exact le_max_left _ _
      · exact (hn e' he').trans (le_max_right _ _)
  have hc : (replicate n 97 ++ [61] : Bytes).contains 61 := by simp
  have hna : nameLength (replicate n 97 ++ [61]) = n + 1 := by
    rw [nameLength, hc, idxOf_append_of_notMem (by simp)]
    simp
  refine ⟨replicate n 97 ++ [61], hc, fun e he heq => ?_⟩
  rw [isEntry, Bool.and_eq_true, beq_iff_eq] at heq
  have hlen := congrArg length heq.1
  have hle := hn e he
  simp only [length_take, length_append, length_replicate, length_singleton] at hlen
  omega

def Available (mem : Malloc) : Prop := mem.table = true ∧ mem.entry = true

/-- **A counter that is too large** lets later calls leave the array, although they get all memory.
-/
theorem Overcounted.overrun (h : Overcounted p.env) :
    ∃ later : List (Request × Malloc), (∀ call ∈ later, Available call.2) ∧
      run step p later = .error .outOfBounds := by
  obtain ⟨es, hl, hc, ho⟩ := h
  obtain ⟨n, hn⟩ : ∃ n, n = p.env.slots.length - p.env.ecount := ⟨_, rfl⟩
  -- the entries that are still free, each filled by a name that is not in the array
  induction n generalizing p es with
  | zero =>
    have hlt := hl.lt_length
    have hec := hl.ecount
    omega
  | succ n ih =>
    obtain ⟨rest, hsl⟩ := hl.slots
    obtain ⟨val, hval, hnew⟩ := exists_new es
    have hca : (Request.putenv val).call p enough = create p.env enough p.errno val := by
      rw [Request.call, Failures.putenv, recount_counted hc]
      show edit p.env enough p.errno val = _
      rw [edit]
      rcases search_slots hsl (isEntry val (nameLength val)) with
        ⟨i, hsc, -⟩ | ⟨es1, e, es2, rfl, he, -⟩
      · rw [hsc]
        show (if (!val.contains 61) then _ else _) = _
        rw [hval, if_neg (by decide)]
      · exact absurd he (hnew e (by simp))
    rcases create_here hl (by omega) (show enough.entry from rfl) val p.errno with
      ⟨-, hcr⟩ | ⟨t, hcr, hl', he', hs⟩
    · refine ⟨[(.putenv val, enough)], ?_, ?_⟩
      · intro call hmem
        rw [mem_singleton.mp hmem]
        exact ⟨rfl, rfl⟩
      · rw [run, step, hca, hcr]
        rfl
    have hst : step p (.putenv val, enough) = .ok ⟨t, p.errno⟩ := by
      rw [step, hca, hcr]
      rfl
    obtain ⟨later, ha, hrun⟩ := ih (p := ⟨t, p.errno⟩) _ hl'
      (hs.counted.mpr hc) (by rw [hs.length, hs.emax]; exact ho)
      (by rw [hs.length, he']; omega)
    refine ⟨(.putenv val, enough) :: later, ?_, ?_⟩
    · intro call hmem
      rcases mem_cons.mp hmem with rfl | hmem
      · exact ⟨rfl, rfl⟩
      · exact ha call hmem
    · rw [run_cons_ok hst]
      exact hrun

variable {calls : List (Request × Malloc)}

theorem overcounted_run (h : Overcounted p.env)
    (hrun : run step p calls = .ok p') : Overcounted p'.env := by
  induction calls generalizing p with
  | nil =>
    cases hrun
    exact h
  | cons call calls ih =>
    rw [run] at hrun
    cases hs : step p call with
    | error e =>
      rw [hs] at hrun
      cases hrun
    | ok p1 =>
      rw [hs] at hrun
      exact ih (step_overcounted h call hs) hrun

theorem provided_of_available (h : Available call.2) : Provided p call := by
  intro val t _ _ _ ht
  rw [h.1] at ht
  cases ht

theorem admits_available (h : ∀ call ∈ calls, Available call.2) : Admits step Provided p calls :=
  admits_of_forall (fun _ call hc => provided_of_available (h call hc)) p

theorem sound_run (h : Sound p.env)
    (ha : Admits step Provided p calls) : ∃ p', run step p calls = .ok p' ∧ Sound p'.env := by
  refine run_invariant (fun p call hp hpr => ?_) h ha
  obtain ⟨-, p', hst, hs, -⟩ := step_sound hp call
  exact ⟨p', hst, hs hpr⟩

theorem clean_of_provided (h : Sound p.env)
    (ha : Admits step Provided p calls) : Admits step Clean p calls := by
  refine (admits_iff (q := Clean) (fun p call (hp : Sound p.env) hc =>
    iff_of_true hc (step_sound hp call).1) (fun p call p' hp hc _ hs => ?_) h ha).mp ha
  obtain ⟨-, p1, hs1, hso, -⟩ := step_sound hp call
  rw [hs1] at hs
  cases hs
  exact hso hc

theorem provided_of_safe (h : Sound p.env)
    (hsa : ∀ later : List (Request × Malloc), (∀ call ∈ later, Available call.2) →
      ∃ p', run step p (calls ++ later) = .ok p') : Admits step Provided p calls := by
  induction calls generalizing p with
  | nil => exact trivial
  | cons call calls ih =>
    obtain ⟨-, p', hs, hso, ho⟩ := step_sound h call
    have hs' (later : List (Request × Malloc)) (ha : ∀ call ∈ later, Available call.2) :
        ∃ p'', run step p' (calls ++ later) = .ok p'' := by
      have hrun := hsa later ha
      rwa [cons_append, run_cons_ok hs] at hrun
    by_cases hp : Provided p call
    · refine ⟨hp, ?_⟩
      rw [hs]
      exact ih (hso hp) hs'
    obtain ⟨p'', hrun⟩ := hs' [] nofun
    rw [append_nil] at hrun
    obtain ⟨later, ha, he⟩ := (overcounted_run (ho hp) hrun).overrun
    obtain ⟨p3, hok⟩ := hs' later ha
    rw [run_append_ok hrun, he] at hok
    cases hok

theorem sound_of_new (hend : none ∈ s.slots) (hnew : ¬ s.Counted) : Sound s := by
  obtain ⟨es, rest, hs⟩ : ∃ es rest, s.slots = map some es ++ none :: rest := by
    revert hend
    induction s.slots with
    | nil => exact nofun
    | cons x slots ih =>
      intro hend
      cases x with
      | none => exact ⟨[], slots, rfl⟩
      | some e =>
        rw [mem_cons, or_iff_right nofun] at hend
        obtain ⟨es, rest, hs⟩ := ih hend
        exact ⟨e :: es, rest, by rw [hs]; rfl⟩
  exact ⟨es, rest, hs, fun hc => absurd hc hnew⟩

/-- **`putenv` and `setenv` fail cleanly** in every run of calls, and later calls that get all
memory stay inside of the array, if and only if `putenv` was provided with each larger array that it
asked for. -/
theorem putenv_clean_iff (hend : none ∈ p.env.slots) (hnew : ¬ p.env.Counted)
    (calls : List (Request × Malloc)) :
    (Admits step Clean p calls ∧
      ∀ later : List (Request × Malloc), (∀ call ∈ later, Available call.2) →
        ∃ p', run step p (calls ++ later) = .ok p') ↔
    Admits step Provided p calls := by
  have hs := sound_of_new hend hnew
  constructor
  · rintro ⟨-, hsa⟩
    exact provided_of_safe hs hsa
  · intro ha
    refine ⟨clean_of_provided hs ha, fun later hav => ?_⟩
    obtain ⟨p1, hrun, hsound1⟩ := sound_run hs ha
    obtain ⟨p', hl, -⟩ := sound_run hsound1 (admits_available hav)
    exact ⟨p', (run_append_ok hrun later).trans hl⟩

end

def noEntry : Malloc := ⟨true, false, fun _ => none⟩

def noTable : Malloc := ⟨false, true, fun _ => none⟩

/-- `putenv ("A=")` gets a larger array but no memory for the entry, and is called again. -/
theorem putenv_clean_noEntry :
    Admits step Clean ⟨newEnv, 0⟩ [(.putenv [65, 61], noEntry), (.putenv [65, 61], enough)] ∧
      ∀ later : List (Request × Malloc), (∀ call ∈ later, Available call.2) →
        ∃ p', run step ⟨newEnv, 0⟩
          ([(.putenv [65, 61], noEntry), (.putenv [65, 61], enough)] ++ later) =
          .ok p' := by
  refine (putenv_clean_iff (by decide) (fun hc => absurd hc.1 (by decide)) _).mpr ?_
  have hp (p : Process) (val : Bytes) (mem : Malloc) (hmem : mem.table) :
      Provided p (.putenv val, mem) := by
    intro val' t _ _ _ ht
    rw [hmem] at ht
    cases ht
  exact ⟨hp _ _ _ rfl, hp _ _ _ rfl, trivial⟩

/-- `putenv ("A=")` fails because there is no memory for a larger array, and the next call writes
outside of the array. -/
theorem putenv_overrun :
    (∃ c, (Request.putenv [65, 61]).call ⟨newEnv, 0⟩ noTable = .ok c ∧ c.refused =
      true ∧ c.ret = -1) ∧
      run step ⟨newEnv, 0⟩ [(.putenv [65, 61], noTable), (.putenv [65, 61], enough)] =
        .error .outOfBounds :=
  ⟨⟨_, rfl, rfl, rfl⟩, rfl⟩

end Environ.Failures
