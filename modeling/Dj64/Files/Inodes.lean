import Mathlib.Tactic

/-!
# Invented inode numbers

`_invent_inode` numbers files that have no cluster number.  Its table is a numbering of files
(`State.lookup`), and a number that was returned keeps its owner for the rest of the run (`Used`).
-/

namespace Inodes

open List Nat

structure Key where
  name : List UInt8
  mtime : UInt32
  size : UInt64
  deriving DecidableEq

structure NameList extends Key where
  inode : ℕ

/-- The static variables; a chain of `nameList` is a list. -/
structure State where
  inodeCount : ℕ
  nameList : ℕ → List NameList
  xstatCount : ℤ

/-- The arguments, and whether memory for a new element can be obtained. -/
structure Call where
  name : List UInt8
  timeStamp : UInt32
  fsize : UInt64
  malloc : Bool

def inventedInodeStart : ℕ := 2 ^ 28 + 1

/-- What follows a device and a leading slash. -/
def skipDrive : List UInt8 → Option (List UInt8)
  | _ :: colon :: slash :: name =>
    if colon = 58 ∧ (slash = 92 ∨ slash = 47) then some name else none
  | _ => none

/-- What a file is known by. -/
def Call.key (q : Call) : Key := ⟨(skipDrive q.name).getD q.name, q.timeStamp, q.fsize⟩

/-- The sum of the characters, which are signed. -/
def hash (name : List UInt8) : ℕ := ((name.map fun c => c.toInt8.toInt).sum % 256).toNat

def fresh (bssCount : ℤ) : State := ⟨inventedInodeStart, fun _ => [], bssCount⟩

/-- `_invent_inode`, before the number is converted to `ino_t`. -/
def inventInode (bssCount : ℤ) (s : State) (q : Call) : ℕ × State :=
  let s := if s.xstatCount ≠ bssCount then fresh bssCount else s
  if skipDrive q.name = some [] then (1, s)
  else if q.key.name = [] then (s.inodeCount, { s with inodeCount := s.inodeCount + 1 })
  else
    let h := hash q.key.name
    match (s.nameList h).find? (·.toKey = q.key) with
    | some e => (e.inode, s)
    | none =>
      if q.malloc then
        (s.inodeCount, { s with
          inodeCount := s.inodeCount + 1
          nameList := Function.update s.nameList h (s.nameList h ++ [⟨q.key, s.inodeCount⟩]) })
      else (0, s)

def after (bssCount : ℤ) (s : State) (qs : List Call) : State :=
  qs.foldl (fun s q => (inventInode bssCount s q).2) s

/-- The calls with the values that they return, as an `int`. -/
def answers (bssCount : ℤ) : State → List Call → List (Call × ℤ)
  | _, [] => []
  | s, q :: qs =>
    let r := inventInode bssCount s q
    (q, Int.bmod r.1 (2 ^ 32)) :: answers bssCount r.2 qs

/-! ### The numbering -/

/-- Whose number it is; a call without a name has it for itself. -/
inductive Owner where
  | root
  | nameless
  | file (k : Key)
  deriving DecidableEq

def Call.owner (q : Call) : Owner :=
  if skipDrive q.name = some [] then .root
  else if q.key.name = [] then .nameless
  else .file q.key

def State.lookup (s : State) : Owner → Option ℕ
  | .root => some 1
  | .nameless => none
  | .file k => ((s.nameList (hash k.name)).find? (·.toKey = k)).map (·.inode)

structure Used (s : State) (x : ℕ) (o : Owner) : Prop where
  range : if o = .root then x = 1 else 2 ^ 28 < x
  lt : x < s.inodeCount
  lookup_iff : ∀ p, s.lookup p = some x ↔ o = p ∧ p ≠ .nameless

structure Good (bssCount : ℤ) (s : State) : Prop where
  current : s.xstatCount = bssCount
  start : 2 ^ 28 < s.inodeCount
  used : ∀ o x, s.lookup o = some x → Used s x o

/-- The number is found, or the next one is given to the owner. -/
inductive Numbers (s : State) (o : Owner) : ℕ × State → Prop
  | found {x} : s.lookup o = some x → Numbers s o (x, s)
  | next {s'} : s.lookup o = none → s'.inodeCount = s.inodeCount + 1 →
      s'.xstatCount = s.xstatCount →
      (∀ p, s'.lookup p = if o = p ∧ p ≠ .nameless then some s.inodeCount else s.lookup p) →
      Numbers s o (s.inodeCount, s')

variable {bssCount : ℤ} {s : State} {q : Call}

theorem inventInode_numbers (hs : s.xstatCount = bssCount) (hm : q.malloc) :
    Numbers s q.owner (inventInode bssCount s q) := by
  subst hs
  simp only [inventInode, ne_eq, not_true_eq_false, if_false, hm, if_true, Call.owner]
  by_cases hr : skipDrive q.name = some []
  · simp only [hr, if_true]
    exact .found rfl
  simp only [hr, if_false]
  by_cases hn : q.key.name = []
  · simp only [hn, if_true]
    refine .next rfl rfl rfl fun p => ?_
    cases p <;> simp [State.lookup]
  simp only [hn, if_false]
  cases hf : (s.nameList (hash q.key.name)).find? (·.toKey = q.key) with
  | some e => exact .found (by simp [State.lookup, hf])
  | none =>
    refine .next (by simp [State.lookup, hf]) rfl rfl fun p => ?_
    cases p with
    | root => simp [State.lookup]
    | nameless => simp [State.lookup]
    | file k =>
      by_cases hk : q.key = k
      · subst hk
        simp [State.lookup, hf]
      by_cases hh : hash k.name = hash q.key.name
      · simp [State.lookup, hk, hh, find?_append]
      · simp [State.lookup, hk, hh]

variable {o : Owner} {r : ℕ × State}

theorem Numbers.le (h : Numbers s o r) : s.inodeCount ≤ r.2.inodeCount := by
  cases h with
  | found => exact le_rfl
  | next _ hc => exact hc ▸ le_succ _

/-- **One call**: its number is in use, and is another one's only if both have the same owner. -/
theorem Numbers.used (h : Numbers s o r) (hg : Good bssCount s) :
    Good bssCount r.2 ∧ Used r.2 r.1 o ∧
      ∀ x p, Used s x p → Used r.2 x p ∧ (x = r.1 ↔ p = o ∧ o ≠ .nameless) := by
  cases h with
  | @found x hk =>
    have hu := hg.used o x hk
    refine ⟨hg, hu, fun y p hy => ⟨hy, ?_⟩⟩
    rw [← hy.lookup_iff, hk, Option.some_inj, eq_comm]
  | @next s' ho hc hx hl =>
    have hold : ∀ x p, Used s x p → Used s' x p := by
      intro x p hu
      refine ⟨hu.range, by rw [hc]; exact hu.lt.trans (lt_succ_self _), fun k => ?_⟩
      rw [hl, ← hu.lookup_iff]
      split_ifs with hk
      · simp [← hk.1, ho, hu.lt.ne']
      · rfl
    have hnew : Used s' s.inodeCount o := by
      refine ⟨?_, by rw [hc]; exact lt_succ_self _, fun k => ?_⟩
      · rw [if_neg (by rintro rfl; cases ho)]
        exact hg.start
      rw [hl]
      split_ifs with hk
      · simp [hk]
      · exact iff_of_false (fun h => lt_irrefl _ (hg.used k _ h).lt) hk
    refine ⟨⟨hx.trans hg.current, by rw [hc]; exact hg.start.trans (lt_succ_self _), ?_⟩, hnew,
      fun x p hu => ⟨hold x p hu, iff_of_false hu.lt.ne ?_⟩⟩
    · intro k x hk
      rw [hl] at hk
      split_ifs at hk with h
      · obtain rfl := Option.some.inj hk
        exact h.1 ▸ hnew
      · exact hold x _ (hg.used k x hk)
    · rw [← hu.lookup_iff, ho]
      simp

/-! ### Runs -/

variable {qs : List Call}

theorem Good.after_le (hg : Good bssCount s) (hm : ∀ q ∈ qs, q.malloc) :
    s.inodeCount ≤ (after bssCount s qs).inodeCount := by
  induction qs generalizing s with
  | nil => exact le_rfl
  | cons q qs ih =>
    have h := inventInode_numbers hg.current (hm q (by simp))
    exact h.le.trans (ih (h.used hg).1 fun p hp => hm p (by simp [hp]))

/-- Two calls return the same number exactly if both are for a root directory, or for the same
remaining name, which is not empty, time stamp and size; root directories get 1, and the others a
number above `2 ^ 28`. -/
def Identified (as : List (Call × ℤ)) : Prop :=
  as.Pairwise (fun a b => a.2 = b.2 ↔ a.1.owner = b.1.owner ∧ b.1.owner ≠ .nameless) ∧
    ∀ a ∈ as, if a.1.owner = .root then a.2 = 1 else 2 ^ 28 < a.2

theorem Good.answers (hg : Good bssCount s) (hm : ∀ q ∈ qs, q.malloc)
    (hl : (after bssCount s qs).inodeCount ≤ 2 ^ 31) :
    Identified (answers bssCount s qs) ∧ ∀ a ∈ answers bssCount s qs, ∀ x p, Used s x p →
      (x = a.2 ↔ p = a.1.owner ∧ a.1.owner ≠ .nameless) := by
  induction qs generalizing s with
  | nil => simp [Identified, Inodes.answers]
  | cons q qs ih =>
    have h := inventInode_numbers hg.current (hm q (by simp))
    have hm' : ∀ p ∈ qs, p.malloc := fun p hp => hm p (by simp [hp])
    obtain ⟨hg', hu, hold⟩ := h.used hg
    obtain ⟨⟨hpair, hrange⟩, hlater⟩ := ih hg' hm' hl
    have hr : Int.bmod (inventInode bssCount s q).1 (2 ^ 32) = (inventInode bssCount s q).1 := by
      have := hu.lt.trans_le ((hg'.after_le hm').trans hl)
      rw [Int.bmod_eq_of_le] <;> omega
    simp only [Identified, Inodes.answers, hr, pairwise_cons, forall_mem_cons]
    refine ⟨⟨⟨fun a ha => hlater a ha _ _ hu, hpair⟩, ?_, hrange⟩, fun x p hx => ?_, ?_⟩
    · exact_mod_cast hu.range
    · exact_mod_cast (hold x p hx).2
    · exact fun a ha x p hx => hlater a ha x p (hold x p hx).1

theorem good_fresh : Good bssCount (fresh bssCount) := by
  refine ⟨rfl, lt_succ_self _, fun o x ho => ?_⟩
  cases o with
  | root =>
    cases ho
    refine ⟨rfl, show 1 < inventedInodeStart by decide, fun p => ?_⟩
    cases p <;> simp [State.lookup, fresh]
  | nameless => cases ho
  | file k => cases ho

/-- **Invented numbers identify files**, from the start of a program or of a restarted one. -/
theorem inodes_identify (hs : s.xstatCount ≠ bssCount) (hm : ∀ q ∈ qs, q.malloc = true)
    (hn : (after bssCount s qs).inodeCount - inventedInodeStart < 2 ^ 30) :
    Identified (answers bssCount s qs) := by
  cases qs with
  | nil => simp [Identified, answers]
  | cons q qs =>
    have hi : inventInode bssCount s q = inventInode bssCount (fresh bssCount) q := by
      simp [inventInode, hs, fresh]
    simp only [after, foldl_cons, answers, hi] at hn ⊢
    refine (good_fresh.answers hm ?_).1
    simp only [after, foldl_cons, inventedInodeStart] at hn ⊢
    omega

theorem inodes_identify_drives :
    Identified (answers 1 (fresh 0) [⟨[99, 58, 47, 97], 1, 2, true⟩, ⟨[97], 1, 2, true⟩]) :=
  inodes_identify (by decide) (by simp) (by decide +kernel)

end Inodes
