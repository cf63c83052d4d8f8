import Mathlib.Data.List.Forall2
import Mathlib.Data.List.TakeWhile

/-!
# Globbing

`fnmatch` matches a string with a pattern by backtracking; `Glob` says which strings a pattern
denotes when nothing is escaped.

* `fnmatch_iff`: without escapes, the two agree, and no read is behind a terminator;
* `escape_literal`: an escaped string matches itself only if nothing was escaped.
-/

namespace Fnmatch

open List Nat

def isSlash (c : Char) : Bool := c = '\\' || c = '/'

/-- `FNM_NOESCAPE`, `FNM_PATHNAME` and `FNM_NOCASE`. -/
structure Flags where
  noescape : Bool
  pathname : Bool
  nocase : Bool

/-- A `char` as a number. -/
def signed (c : Char) : ℤ := if c.toNat < 128 then c.toNat else c.toNat - 256

def toupper (c : Char) : ℕ := if 97 ≤ c.toNat ∧ c.toNat ≤ 122 then c.toNat - 32 else c.toNat

/-- A character of the pattern and one of the string. -/
def same (nocase : Bool) (c test : Char) : Bool := c = test || nocase && toupper c = toupper test

def inRange (nocase : Bool) (c c2 test : Char) : Bool :=
  signed c ≤ signed test && signed test ≤ signed c2 ||
    nocase && (toupper c ≤ toupper test && toupper test ≤ toupper c2)

/-- The loop of `rangematch`: `ok`, and the pattern after the bracket. -/
def rangeLoop (nocase : Bool) (test : Char) : List Char → Bool → Option (Bool × List Char)
  | [], _ => none
  | c :: s, ok =>
    if c = ']' then some (ok, s)
    else
      match s with
      | d :: c2 :: s' =>
        if d = '-' ∧ c2 ≠ ']' then rangeLoop nocase test s' (ok || inRange nocase c c2 test)
        else rangeLoop nocase test (d :: c2 :: s') (ok || same nocase c test)
      | s => rangeLoop nocase test s (ok || same nocase c test)

/-- The pattern after the bracket, if the character is in it. -/
def rangematch (nocase : Bool) (pattern : List Char) (test : Char) : Option (List Char) :=
  let negate : Bool := pattern.head? = some '!'
  (rangeLoop nocase test (if negate then pattern.tail else pattern) false).bind fun r =>
    if r.1 = negate then none else some r.2

/-- The strings that are tried for what follows a star. -/
def starts (pathname : Bool) : List Char → List (List Char)
  | [] => []
  | t :: s => (t :: s) :: if isSlash t && pathname then [] else starts pathname s

/-- What is inside of a bracket. -/
def body (p : List Char) : List Char := p.takeWhile (· ≠ ']')

/-- What is behind it. -/
def after (p : List Char) : List Char := (p.dropWhile (· ≠ ']')).tail

/-- The characters and ranges of a list. -/
def member (nocase : Bool) (test : Char) : List Char → Bool
  | [] => false
  | c :: s =>
    match s with
    | d :: c2 :: s' =>
      if d = '-' then inRange nocase c c2 test || member nocase test s'
      else same nocase c test || member nocase test (d :: c2 :: s')
    | s => same nocase c test || member nocase test s

theorem rangeLoop_eq {nocase : Bool} {test : Char} {p : List Char} {ok : Bool} :
    rangeLoop nocase test p ok =
      if ']' ∈ p then some (ok || member nocase test (body p), after p) else none := by
  fun_induction rangeLoop nocase test p ok with
  | case1 => simp
  | case2 => simp [body, after, member]
  | case3 c ok hc d c2 s' hd ih =>
    obtain ⟨rfl, hc2⟩ := hd
    simp [ih, hc, Ne.symm hc, Ne.symm hc2, hc2, body, after, member, Bool.or_assoc]
  | case4 c ok hc d c2 s' hd ih =>
    have hm : member nocase test (body (c :: d :: c2 :: s')) =
        (same nocase c test || member nocase test (body (d :: c2 :: s'))) := by
      by_cases h : d = '-'
      · have hc2 : c2 = ']' := by simpa [h] using hd
        simp [h, hc2, hc, body, member]
      · by_cases hd' : d = ']' <;> by_cases h2 : c2 = ']' <;> simp [h, hd', h2, hc, body, member]
    rw [ih, hm, Bool.or_assoc]
    simp [hc, Ne.symm hc, after]
  | case5 c ok hc s hs ih =>
    rw [ih]
    rcases s with _ | ⟨d, _ | ⟨c2, s⟩⟩
    · simp [Ne.symm hc]
    · by_cases hd : d = ']' <;> simp [hd, @eq_comm _ ']', hc, body, after, member]
    · exact (hs d c2 s rfl).elim

/-- The bracket takes the character. -/
def listed (nocase : Bool) (test : Char) (p : List Char) : Bool :=
  if p.head? = some '!' then !member nocase test (body p.tail) else member nocase test (body p)

theorem rangematch_eq {nocase : Bool} {p : List Char} {test : Char} : rangematch nocase p test =
      if ']' ∈ p ∧ listed nocase test p then some (after p) else none := by
  rw [rangematch]
  by_cases hneg : p.head? = some '!'
  · obtain ⟨p, rfl⟩ := head?_eq_some_iff.mp hneg
    by_cases hp : ']' ∈ p <;> cases h : member nocase test (body p) <;>
      simp [rangeLoop_eq, listed, hp, h, after]
  · by_cases hp : ']' ∈ p <;> cases h : member nocase test (body p) <;>
      simp [rangeLoop_eq, listed, hneg, hp, h]

theorem length_after_le {p : List Char} : (after p).length ≤ p.length := by
  rw [after, length_tail]
  exact (sub_le ..).trans (dropWhile_suffix _).length_le

variable (f : Flags) {t c : Char}

/-- `fnmatch` returns 0. -/
def fnmatch (pattern string : List Char) : Bool :=
  match pattern with
  | [] => string.isEmpty
  | c :: p =>
    if c = '*' then
      match _h : p.dropWhile (· = '*') with
      | [] => !(f.pathname && string.any isSlash)
      | d :: p' =>
        if isSlash d && f.pathname then
          string.any isSlash && fnmatch (d :: p') (string.dropWhile (!isSlash ·))
        else (starts f.pathname string).any fun t => fnmatch (d :: p') t
    else if c = '\\' && !f.noescape && (p[1]?).any ("*?[\\".toList.contains ·) then
      p.head? = string.head? && fnmatch p.tail string.tail
    else
      match string with
      | [] => false
      | test :: s =>
        if c = '?' then !(isSlash test && f.pathname) && fnmatch p s
        else if c = '[' then
          match _h : rangematch f.nocase p test with
          | none => false
          | some p' => !(isSlash test && f.pathname) && fnmatch p' s
        else (isSlash c && isSlash test || same f.nocase c test) && fnmatch p s
termination_by pattern.length
decreasing_by
  · exact lt_succ_of_le (_h ▸ (dropWhile_suffix _).length_le)
  · exact lt_succ_of_le (_h ▸ (dropWhile_suffix _).length_le)
  · exact lt_succ_of_le (by simp)
  · exact lt_succ_self _
  · rw [rangematch_eq] at _h
    split_ifs at _h
    cases _h
    exact lt_succ_of_le length_after_le
  · exact lt_succ_self _

/-! ### What a pattern denotes -/

/-- A wildcard may take the character. -/
def Visible (t : Char) : Prop := (isSlash t && f.pathname) = false

theorem visible_iff : (!(isSlash t && f.pathname)) ↔ Visible f t := by
  rw [Visible, Bool.not_eq_true']

/-- A character with a property, and a string of `L`. -/
def One (P : Char → Prop) (L : List Char → Prop) (s : List Char) : Prop :=
  ∃ t v, s = t :: v ∧ P t ∧ L v

/-- Characters with a property, and a string of `L`. -/
def Any (P : Char → Prop) (L : List Char → Prop) (s : List Char) : Prop :=
  ∃ u v, s = u ++ v ∧ (∀ t ∈ u, P t) ∧ L v

/-- The strings that a pattern denotes. -/
def Glob : List Char → List Char → Prop
  | [] => (· = [])
  | c :: p =>
    if c = '*' then Any (Visible f) (Glob p)
    else if c = '?' then One (Visible f) (Glob p)
    else if c = '[' then
      fun s => ']' ∈ p ∧ One (fun t => Visible f t ∧ listed f.nocase t p) (Glob (after p)) s
    else One (fun t => isSlash c ∧ isSlash t ∨ same f.nocase c t) (Glob p)
termination_by p => p.length
decreasing_by
  · exact lt_succ_self _
  · exact lt_succ_self _
  · exact lt_succ_of_le length_after_le
  · exact lt_succ_self _

variable {f} {P : Char → Prop} {L : List Char → Prop} {s v p : List Char} {nocase : Bool}

theorem not_one_nil : ¬ One P L [] := by simp [One]

theorem one_cons : One P L (t :: s) ↔ P t ∧ L s :=
  ⟨by rintro ⟨_, _, ⟨⟩, h⟩; exact h, fun h => ⟨t, s, rfl, h⟩⟩

theorem any_any : Any P (Any P L) s ↔ Any P L s := by
  constructor
  · rintro ⟨u, _, rfl, hu, v, w, rfl, hv, hw⟩
    exact ⟨u ++ v, w, by simp, by grind, hw⟩
  · rintro ⟨u, v, rfl, hu, hv⟩
    exact ⟨u, v, rfl, hu, [], v, rfl, by simp, hv⟩

/-- Stars in a row are like one. -/
theorem glob_star : Glob f ('*' :: p) s ↔ Any (Visible f) (Glob f (p.dropWhile (· = '*'))) s := by
  rw [Glob, if_pos rfl]
  induction p generalizing s with
  | nil => rfl
  | cons c p ih =>
    by_cases hc : c = '*'
    · rw [hc, dropWhile_cons_of_pos (by simp), ← ih]
      simp only [Glob, if_true]
      exact any_any
    · rw [dropWhile_cons_of_neg (by simpa using hc)]

/-- What is left of a string after the word for a star. -/
theorem mem_starts : v ∈ starts f.pathname s ↔ v ≠ [] ∧ ∃ u, s = u ++ v ∧ ∀ t ∈ u, Visible f t := by
  induction s with
  | nil => simp +contextual [starts]
  | cons t s ih =>
    rw [starts, mem_cons]
    constructor
    · rintro (rfl | hv)
      · exact ⟨by simp, [], by simp⟩
      · split_ifs at hv with ht
        · simp at hv
        · obtain ⟨hne, u, rfl, hu⟩ := ih.mp hv
          exact ⟨hne, t :: u, rfl, forall_mem_cons.mpr ⟨by simpa [Visible] using ht, hu⟩⟩
    · rintro ⟨hne, _ | ⟨t', u⟩, heq, hu⟩
      · exact .inl heq.symm
      · cases heq
        have ht : Visible f t := hu t mem_cons_self
        rw [if_neg (by simpa [Visible] using ht)]
        exact .inr (ih.mpr ⟨hne, u, rfl, (forall_mem_cons.mp hu).2⟩)

theorem not_glob_nil (hc : c ≠ '*') : ¬ Glob f (c :: p) [] := by
  rw [Glob, if_neg hc]
  split_ifs <;> simp [not_one_nil]

theorem isSlash_of_same (hc : isSlash c) (h : same nocase c t) : isSlash t := by
  have hu : toupper c = toupper t := by
    simp only [same, Bool.or_eq_true, Bool.and_eq_true, decide_eq_true_eq] at h
    rcases h with rfl | h
    · rfl
    · exact h.2
  have ht : t = c := by
    apply Char.toNat_inj.mp
    have hco : c.toNat = 92 ∨ c.toNat = 47 := by
      simp only [isSlash, Bool.or_eq_true, decide_eq_true_eq] at hc
      rcases hc with rfl | rfl <;> decide
    unfold toupper at hu
    split_ifs at hu <;> omega
  rwa [ht]

/-- A star before a slash takes what comes before the first slash. -/
theorem any_slash (hc : isSlash c) (hf : f.pathname) :
    Any (Visible f) (Glob f (c :: p)) s ↔
      s.any isSlash ∧ Glob f (c :: p) (s.dropWhile (!isSlash ·)) := by
  have hvi (t : Char) : Visible f t ↔ (!isSlash t) := by simp [Visible, hf]
  constructor
  · rintro ⟨u, v, rfl, hu, hv⟩
    obtain ⟨t, v, rfl, ht⟩ : ∃ t v', v = t :: v' ∧ isSlash t := by
      have hp : c ≠ '*' ∧ c ≠ '?' ∧ c ≠ '[' := by
        refine ⟨?_, ?_, ?_⟩ <;> rintro rfl <;> simp [isSlash] at hc
      rw [Glob, if_neg hp.1, if_neg hp.2.1, if_neg hp.2.2] at hv
      obtain ⟨t, v, rfl, ht, -⟩ := hv
      exact ⟨t, v, rfl, ht.elim And.right (isSlash_of_same hc)⟩
    rw [dropWhile_append_of_pos fun x hx => (hvi x).mp (hu x hx)]
    simpa [ht] using hv
  · rintro ⟨-, h⟩
    exact ⟨s.takeWhile (!isSlash ·), _, takeWhile_append_dropWhile.symm,
      fun t ht => (hvi t).mpr (@mem_takeWhile_imp _ (!isSlash ·) _ _ ht), h⟩

/-- Without escapes, `fnmatch` decides the language of a pattern. -/
theorem fnmatch_glob (hf : f.noescape = true) (p s : List Char) :
    fnmatch f p s = true ↔ Glob f p s := by
  fun_induction fnmatch f p s with
  | case1 => simp [Glob]
  | case2 s p hp =>
    rw [glob_star, hp]
    simp [Any, Glob, Visible]
    grind
  | case3 s p d p' hp hd ih =>
    rw [Bool.and_eq_true] at hd
    rw [glob_star, hp, any_slash hd.1 hd.2, Bool.and_eq_true, ih]
  | case4 s p d p' hp hd ih =>
    have hs : d ≠ '*' := by
      have := head?_dropWhile_not (· = '*') p
      simpa [hp] using this
    rw [glob_star, hp, any_eq_true]
    constructor
    · rintro ⟨v, hv, h⟩
      obtain ⟨-, u, rfl, hu⟩ := mem_starts.mp hv
      exact ⟨u, v, rfl, hu, (ih v).mp h⟩
    · rintro ⟨u, v, rfl, hu, hv⟩
      refine ⟨v, mem_starts.mpr ⟨?_, u, rfl, hu⟩, (ih v).mpr hv⟩
      rintro rfl
      exact not_glob_nil hs hv
  | case5 s c p hc he ih => simp [hf] at he
  | case6 c p hc he => simp [not_glob_nil hc]
  | case7 p t s hc he ih =>
    rw [Bool.and_eq_true, visible_iff, ih]
    simp [Glob, one_cons]
  | case8 p t s hr hc he hq =>
    rw [rangematch_eq] at hr
    simp [Glob, one_cons]
    grind
  | case9 p t s p' hr hc he hq ih =>
    rw [rangematch_eq] at hr
    split_ifs at hr with hl
    cases hr
    rw [Bool.and_eq_true, visible_iff, ih]
    simp [Glob, one_cons, hl]
  | case10 c p hc he t s hq hb ih => simp [Glob, hc, hq, hb, one_cons, ih]

/-! ### The terminators -/

/-- `find_slash`.  A string ends with its terminator, and `none` is a read behind that. -/
def findSlash : List Char → Option (Option (List Char))
  | [] => none
  | c :: s =>
    if c = '\x00' then some none else if isSlash c then some (some (c :: s)) else findSlash s

/-- The pattern behind stars. -/
def skipStars : List Char → Option (List Char)
  | [] => none
  | c :: p => if c = '*' then skipStars p else some (c :: p)

/-- The loop over the string for what follows a star. -/
def starLoop (pathname : Bool) (fnmatch : List Char → Option Bool) : List Char → Option Bool
  | [] => none
  | t :: s =>
    if t = '\x00' then some false
    else (fnmatch (t :: s)).bind fun ok =>
      if ok then some true
      else if isSlash t && pathname then some false else starLoop pathname fnmatch s

/-- The loop of `rangematch`, which returns nothing for an illegal pattern. -/
def rangeAt (nocase : Bool) (test : Char) : List Char → Bool → Option (Option (Bool × List Char))
  | [], _ => none
  | c :: s, ok =>
    if c = ']' then some (some (ok, s))
    else if c = '\x00' then some none
    else
      match s with
      | d :: c2 :: s' =>
        if d = '-' ∧ c2 ≠ '\x00' ∧ c2 ≠ ']' then
          rangeAt nocase test s' (ok || inRange nocase c c2 test)
        else rangeAt nocase test (d :: c2 :: s') (ok || same nocase c test)
      | [d] => if d = '-' then none else rangeAt nocase test [d] (ok || same nocase c test)
      | [] => none

def rangematchAt (nocase : Bool) (pattern : List Char) (test : Char) :
    Option (Option (List Char)) :=
  let negate : Bool := pattern.head? = some '!'
  (rangeAt nocase test (if negate then pattern.tail else pattern) false).map fun r =>
    r.bind fun r => if r.1 = negate then none else some r.2

/-- `fnmatch` with its reads; each round takes a character of the pattern or more. -/
def fnmatchAt (f : Flags) : ℕ → List Char → List Char → Option Bool
  | 0, _, _ | _, [], _ => none
  | fuel + 1, c :: p, string =>
    if c = '\x00' then string.head?.map (· = '\x00')
    else if c = '*' then
      (skipStars p).bind fun p =>
        if p.head? = some '\x00' then
          if f.pathname then (findSlash string).map Option.isNone else some true
        else if p.head?.any isSlash && f.pathname then
          (findSlash string).bind fun s => s.elim (some false) (fnmatchAt f fuel p)
        else starLoop f.pathname (fnmatchAt f fuel p) string
    else
      (if c = '\\' && !f.noescape then (p[1]?).map ("*?[\\".toList.contains ·) else some false).bind
        fun escaped => string.head?.bind fun test =>
          if escaped then
            if p.head? = some '\x00' then
              if test = '\\' then fnmatchAt f fuel p string.tail else some false
            else if p.head? = some test then fnmatchAt f fuel p.tail string.tail
            else some false
          else if c = '?' ∨ c = '[' then
            if test = '\x00' ∨ isSlash test ∧ f.pathname then some false
            else if c = '?' then fnmatchAt f fuel p string.tail
            else (rangematchAt f.nocase p test).bind fun p =>
              p.elim (some false) fun p => fnmatchAt f fuel p string.tail
          else if isSlash c && isSlash test || same f.nocase c test then
            fnmatchAt f fuel p string.tail
          else some false

variable {ok : Bool} {test : Char} {fuel : ℕ}

theorem findSlash_nul (hs : '\x00' ∉ s) : findSlash (s ++ ['\x00']) =
    some (if s.any isSlash then some (s.dropWhile (!isSlash ·) ++ ['\x00']) else none) := by
  induction s with
  | nil => rfl
  | cons c s ih =>
    rw [mem_cons, not_or] at hs
    cases hc : isSlash c <;> simp [findSlash, hc, ih hs.2, Ne.symm hs.1]

theorem skipStars_nul : skipStars (p ++ ['\x00']) =
    some (p.dropWhile (· = '*') ++ ['\x00']) := by
  induction p with
  | nil => rfl
  | cons c p ih => by_cases hc : c = '*' <;> simp [skipStars, hc, ih]

theorem starLoop_nul {m : List Char → Option Bool} {g : List Char → Bool} (hs : '\x00' ∉ s)
    (h : ∀ v, '\x00' ∉ v → m (v ++ ['\x00']) = some (g v)) :
    starLoop f.pathname m (s ++ ['\x00']) = some ((starts f.pathname s).any g) := by
  induction s with
  | nil => rfl
  | cons c s ih =>
    have hm := h _ hs
    rw [mem_cons, not_or] at hs
    rw [cons_append] at hm
    rw [cons_append, starLoop, if_neg (Ne.symm hs.1), hm, ih hs.2, starts]
    cases hg : g (c :: s) <;> cases isSlash c && f.pathname <;> simp [hg]

theorem not_mem_of_suffix {q r : List Char} (hr : '\x00' ∉ r) (hq : q <:+ r) : '\x00' ∉ q :=
  fun h => hr (hq.mem h)

theorem rangeAt_nul (hp : '\x00' ∉ p) : rangeAt nocase test (p ++ ['\x00']) ok =
    some ((rangeLoop nocase test p ok).map fun r => (r.1, r.2 ++ ['\x00'])) := by
  fun_induction rangeLoop nocase test p ok with
  | case1 => simp [rangeAt]
  | case2 => rw [cons_append, rangeAt.eq_def]; simp
  | case3 c ok hc d c2 s' hd ih =>
    simp only [mem_cons, not_or] at hp
    simp [rangeAt, hc, Ne.symm hp.1, hd, Ne.symm hp.2.2.1, ih hp.2.2.2]
  | case4 c ok hc d c2 s' hd ih =>
    rw [mem_cons, not_or] at hp
    rw [← ih hp.2]
    simp [rangeAt, hc, Ne.symm hp.1]
    intro h1 h2 h3
    exact absurd ⟨h1, h3⟩ hd
  | case5 c ok hc s hs ih =>
    rw [mem_cons, not_or] at hp
    rcases s with _ | ⟨d, _ | ⟨c2, s⟩⟩
    · simp [rangeAt, hc, Ne.symm hp.1, rangeLoop]
    · rw [← ih hp.2]
      simp [rangeAt, hc, Ne.symm hp.1]
    · exact (hs d c2 s rfl).elim

theorem rangematchAt_nul (hp : '\x00' ∉ p) : rangematchAt nocase (p ++ ['\x00']) test =
    some ((rangematch nocase p test).map (· ++ ['\x00'])) := by
  have key {q : List Char} {negate : Bool} (hq : '\x00' ∉ q) :
      (rangeAt nocase test (q ++ ['\x00']) false).map (fun r =>
        r.bind fun r => if r.1 = negate then none else some r.2) =
      some (((rangeLoop nocase test q false).bind fun r =>
        if r.1 = negate then none else some r.2).map (· ++ ['\x00'])) := by
    rw [rangeAt_nul hq]
    cases rangeLoop nocase test q false with
    | none => rfl
    | some r => by_cases h : r.1 = negate <;> simp [h]
  rw [rangematchAt, rangematch]
  cases p with
  | nil => simp [rangeAt, rangeLoop]
  | cons c p =>
    by_cases hc : c = '!'
    · simpa [hc] using key (not_or.mp (mem_cons.not.mp hp)).2
    · simpa [hc] using key hp

theorem not_same_nul {c : Char} (hc : c ≠ '\x00') : same nocase c '\x00' = false := by
  have h0 : c.toNat ≠ 0 := fun h => hc (Char.toNat_inj.mp h)
  simp only [same, hc, toupper]
  split_ifs <;> simp <;> omega

/-- No read is behind a terminator. -/
theorem fnmatchAt_nul (hf : f.noescape = true) (hp : '\x00' ∉ p) (hs : '\x00' ∉ s)
    (hfuel : p.length < fuel) :
    fnmatchAt f fuel (p ++ ['\x00']) (s ++ ['\x00']) = some (fnmatch f p s) := by
  have pos {n m : ℕ} (h : n < m) : ∃ k, m = k + 1 := exists_eq_succ_of_ne_zero (by omega)
  fun_induction fnmatch f p s generalizing fuel with
  | case1 s =>
    obtain ⟨fuel, rfl⟩ := pos hfuel
    cases s with
    | nil => rfl
    | cons t s => simp [fnmatchAt, Ne.symm (not_or.mp (mem_cons.not.mp hs)).1]
  | case2 s p hst =>
    obtain ⟨fuel, rfl⟩ := pos hfuel
    cases hsl : s.any isSlash <;> cases hn : f.pathname <;>
      simp [fnmatchAt, skipStars_nul, hst, findSlash_nul hs, hsl, hn, -any_eq_false, -any_eq_true]
  | case3 s p d p' hst hd ih =>
    obtain ⟨fuel, rfl⟩ := pos hfuel
    have hsuf : d :: p' <:+ p := hst ▸ dropWhile_suffix _
    have hd0 := not_mem_of_suffix hp (hsuf.trans (suffix_cons ..))
    have hfu : (d :: p').length < fuel := hsuf.length_le.trans_lt (by simpa using hfuel)
    rw [Bool.and_eq_true] at hd
    have := ih hd0 (not_mem_of_suffix hs (dropWhile_suffix _)) hfu
    rw [cons_append] at this
    cases hsl : s.any isSlash <;>
      simp [fnmatchAt, skipStars_nul, hst, findSlash_nul hs, hsl, hd, -any_eq_false, -any_eq_true,
        Ne.symm (not_or.mp (mem_cons.not.mp hd0)).1, this]
  | case4 s p d p' hst hd ih =>
    obtain ⟨fuel, rfl⟩ := pos hfuel
    have hsuf : d :: p' <:+ p := hst ▸ dropWhile_suffix _
    have hd0 := not_mem_of_suffix hp (hsuf.trans (suffix_cons ..))
    have hfu : (d :: p').length < fuel := hsuf.length_le.trans_lt (by simpa using hfuel)
    have := starLoop_nul (f := f) hs fun v hv => ih v hd0 hv hfu
    rw [cons_append] at this
    rw [Bool.not_eq_true, Bool.and_eq_false_iff] at hd
    rw [← this]
    simp [fnmatchAt, skipStars_nul, hst, Ne.symm (not_or.mp (mem_cons.not.mp hd0)).1]
    grind
  | case5 s c p hc he ih => simp [hf] at he
  | case6 c p hc he =>
    obtain ⟨fuel, rfl⟩ := pos hfuel
    rw [mem_cons, not_or] at hp
    simp [fnmatchAt, hc, hf, Ne.symm hp.1, not_same_nul (Ne.symm hp.1), isSlash]
  | case7 p t s hc he ih =>
    obtain ⟨fuel, rfl⟩ := pos hfuel
    rw [mem_cons, not_or] at hp hs
    cases hsl : isSlash t && f.pathname <;> simp_all [fnmatchAt, Ne.symm hs.1]
  | case8 p t s hr hc he hq =>
    obtain ⟨fuel, rfl⟩ := pos hfuel
    rw [mem_cons, not_or] at hp hs
    simp [fnmatchAt, hf, Ne.symm hs.1, rangematchAt_nul hp.2, hr]
  | case9 p t s p' hr hc he hq ih =>
    obtain ⟨fuel, rfl⟩ := pos hfuel
    rw [mem_cons, not_or] at hp hs
    have hsuf : p' <:+ p := by
      rw [rangematch_eq] at hr
      split_ifs at hr
      cases hr
      exact (tail_suffix _).trans (dropWhile_suffix _)
    have hih := ih (not_mem_of_suffix hp.2 hsuf) hs.2
      (hsuf.length_le.trans_lt (by simpa using hfuel))
    cases hsl : isSlash t && f.pathname <;>
      simp_all [fnmatchAt, Ne.symm hs.1, rangematchAt_nul hp.2]
  | case10 c p hc he t s hq hb ih =>
    obtain ⟨fuel, rfl⟩ := pos hfuel
    rw [mem_cons, not_or] at hp hs
    simp [fnmatchAt, hf, hc, hq, hb, Ne.symm hp.1, ih hp.2 hs.2 (by simpa using hfuel)]
    grind

/-- **`fnmatch` is globbing**: with `FNM_NOESCAPE`, it decides the language of a pattern, and reads
nothing behind the terminators. -/
theorem fnmatch_iff (hf : f.noescape = true) (hp : '\x00' ∉ p) (hs : '\x00' ∉ s)
    (hfuel : p.length < fuel) :
    ∃ ok, fnmatchAt f fuel (p ++ ['\x00']) (s ++ ['\x00']) = some ok ∧ (ok ↔ Glob f p s) :=
  ⟨_, fnmatchAt_nul hf hp hs hfuel, fnmatch_glob hf p s⟩

theorem fnmatch_iff_backup : ∃ ok, fnmatchAt ⟨true, true, false⟩ 8 ("*.[!co]".toList ++ ['\x00'])
      ("a.h".toList ++ ['\x00']) = some ok ∧
    (ok ↔ Glob ⟨true, true, false⟩ "*.[!co]".toList "a.h".toList) :=
  fnmatch_iff rfl (by decide) (by decide) (by decide)

/-! ### Escapes -/

/-- The characters that are escaped. -/
def special (c : Char) : Bool := "*?[\\".toList.contains c

/-- The pattern for one string. -/
def escape (s : List Char) : List Char := s.flatMap fun c => if special c then ['\\', c] else [c]

/-- The same, up to the kind of the slashes. -/
def Alike : List Char → List Char → Prop := Forall₂ fun a b => a = b ∨ isSlash a ∧ isSlash b

/-- A character that is not special stands for itself, and a slash for both of them. -/
theorem fnmatch_plain (hc : special c = false) :
    fnmatch f (c :: p) (t :: s) =
      ((isSlash c && isSlash t || same f.nocase c t) && fnmatch f p s) := by
  obtain ⟨h1, h2, h3, h4⟩ : c ≠ '*' ∧ c ≠ '?' ∧ c ≠ '[' ∧ c ≠ '\\' := by
    simpa [special] using hc
  simp [fnmatch, h1, h2, h3, h4]

/-- The pattern of a string without special characters matches what is like the string. -/
theorem fnmatch_escape_iff (hcase : f.nocase = false) (hs : ∀ c ∈ s, special c = false)
    (t : List Char) : fnmatch f (escape s) t = true ↔ Alike s t := by
  induction s generalizing t with
  | nil => simp [escape, fnmatch, Alike]
  | cons c s ih =>
    obtain ⟨hc, hs⟩ := forall_mem_cons.mp hs
    have he : escape (c :: s) = c :: escape s := by simp [escape, hc]
    rw [he]
    cases t with
    | nil =>
      have h : c ≠ '*' ∧ c ≠ '\\' := by
        constructor <;> rintro rfl <;> simp [special] at hc
      simp [fnmatch, h, Alike]
    | cons d t => simp [fnmatch_plain hc, ih hs, Alike, same, hcase, or_comm]

/-! A backslash that escapes looks at the character after the next one.  Where that is an ordinary
character, it is a slash like any other, and what follows falls behind the string. -/

theorem escape_cons : escape (c :: s) = (if special c then ['\\', c] else [c]) ++ escape s := rfl

/-- The pattern of a string starts with a special character if the string does. -/
theorem special_of_escape (h : (escape s)[0]?.any special) : s.head?.any special := by
  cases s with
  | nil => simp [escape] at h
  | cons c s =>
    by_contra hc
    rw [head?_cons, Option.any_some] at hc
    rw [escape_cons, if_neg hc] at h
    exact hc (by simpa using h)

/-- What a slash in a pattern takes: a slash, or, after a backslash that escapes, the next
character of the pattern. -/
theorem fnmatch_slash (hc : isSlash c) (h : fnmatch f (c :: p) s) :
    (∃ t v, s = t :: v ∧ isSlash t ∧ fnmatch f p v) ∨
      c = '\\' ∧ (p[1]?).any special ∧ p.head? = s.head? ∧ fnmatch f p.tail s.tail := by
  have hp : c ≠ '*' ∧ c ≠ '?' ∧ c ≠ '[' := by
    refine ⟨?_, ?_, ?_⟩ <;> rintro rfl <;> simp [isSlash] at hc
  rw [fnmatch.eq_def] at h
  dsimp only at h
  rw [if_neg hp.1] at h
  by_cases he : (c = '\\' && !f.noescape && (p[1]?).any ("*?[\\".toList.contains ·)) = true
  · rw [if_pos he] at h
    simp only [Bool.and_eq_true, decide_eq_true_eq] at he h
    exact .inr ⟨he.1.1, he.2, h.1, h.2⟩
  · rw [if_neg he] at h
    cases s with
    | nil => cases h
    | cons t v =>
      dsimp only at h
      rw [if_neg hp.2.1, if_neg hp.2.2, Bool.and_eq_true, Bool.or_eq_true] at h
      refine .inl ⟨t, v, rfl, h.1.elim (fun hs => ?_) (isSlash_of_same hc), h.2⟩
      exact (Bool.and_eq_true_iff.mp hs).2

theorem escape_slash (hc : isSlash c) :
    c = '/' ∧ escape (c :: s) = '/' :: escape s ∨
      c = '\\' ∧ escape (c :: s) = '\\' :: '\\' :: escape s := by
  simp only [isSlash, Bool.or_eq_true, decide_eq_true_eq] at hc
  rcases hc with rfl | rfl
  · exact .inr ⟨rfl, rfl⟩
  · exact .inl ⟨rfl, rfl⟩

/-- The string `v` is what is left of `w` behind one slash or more. -/
def Ahead (w v : List Char) : Prop := ∃ u, w = u ++ v ∧ u ≠ [] ∧ ∀ t ∈ u, isSlash t

theorem Ahead.skip (h : Ahead w (t :: v)) (ht : isSlash t) : Ahead w v := by
  obtain ⟨u, rfl, -, hu⟩ := h
  refine ⟨u ++ [t], by simp, by simp, ?_⟩
  simpa [or_imp, forall_and] using ⟨hu, ht⟩

theorem Ahead.next (h : Ahead (c :: w) (t :: v)) (ht : isSlash t) : Ahead w v := by
  obtain ⟨_ | ⟨_, u⟩, heq, hne, hu⟩ := h
  · exact absurd rfl hne
  · obtain ⟨rfl, rfl⟩ := cons_eq_cons.mp heq
    refine ⟨u ++ [t], by simp, by simp, ?_⟩
    simpa [or_imp, forall_and] using ⟨(forall_mem_cons.mp hu).2, ht⟩

theorem Ahead.head (h : Ahead (c :: w) v) : isSlash c := by
  obtain ⟨_ | ⟨_, u⟩, heq, hne, hu⟩ := h
  · exact absurd rfl hne
  · rw [(cons_eq_cons.mp heq).1]
    exact hu _ mem_cons_self

/-- Once the string is ahead of its pattern, by slashes, the pattern does not match it any more,
with or without one more backslash. -/
theorem not_fnmatch_ahead (h : Ahead w v) :
    ¬ fnmatch f (escape w) v ∧ ¬ fnmatch f ('\\' :: escape w) v := by
  induction w generalizing v with
  | nil =>
    obtain ⟨u, hu, hne, -⟩ := h
    exact absurd (append_eq_nil_iff.mp hu.symm).1 hne
  | cons c w ih =>
    have hplain {v : List Char} (h : Ahead (c :: w) v) : ¬ fnmatch f (escape (c :: w)) v := by
      intro hm
      rcases escape_slash (s := w) h.head with ⟨rfl, he⟩ | ⟨rfl, he⟩ <;> rw [he] at hm
      · rcases fnmatch_slash (by decide) hm with ⟨t, v, rfl, ht, hm⟩ | ⟨hf, -⟩
        · exact (ih (h.next ht)).1 hm
        · cases hf
      · rcases fnmatch_slash (by decide) hm with ⟨t, v, rfl, ht, hm⟩ | ⟨-, -, hhead, hm⟩
        · exact (ih (h.next ht)).2 hm
        · obtain ⟨v, rfl⟩ := head?_eq_some_iff.mp hhead.symm
          exact (ih (h.next (by decide))).1 hm
    refine ⟨hplain h, fun hm => ?_⟩
    rcases fnmatch_slash (by decide) hm with ⟨t, v, rfl, ht, hm⟩ | ⟨-, -, hhead, hm⟩
    · exact hplain (h.skip ht) hm
    rcases escape_slash (s := w) h.head with ⟨rfl, he⟩ | ⟨rfl, he⟩ <;> rw [he] at hhead hm <;>
      obtain ⟨v, rfl⟩ := head?_eq_some_iff.mp hhead.symm
    · exact (ih (h.next (by decide))).1 hm
    · exact (ih (h.next (by decide))).2 hm

/-- The pattern of a string that starts with a special character does not match it, and one more
backslash before the pattern of a string makes it not match. -/
theorem not_fnmatch_special :
    (s.head?.any special → ¬ fnmatch f (escape s) s) ∧ ¬ fnmatch f ('\\' :: escape s) s := by
  induction s with
  | nil => exact ⟨by simp, by simp [escape, fnmatch]⟩
  | cons c s ih =>
    constructor
    · intro hc hm
      rw [head?_cons, Option.any_some] at hc
      rw [escape_cons, if_pos hc] at hm
      rcases fnmatch_slash (by decide) hm with ⟨_, _, ⟨⟩, ht, hm⟩ | ⟨-, hn, -, hm⟩
      · have hb : c = '\\' := by
          simp only [isSlash, Bool.or_eq_true, decide_eq_true_eq] at ht
          rcases ht with rfl | rfl
          · rfl
          · exact absurd hc (by decide)
        subst hb
        exact ih.2 hm
      · exact ih.1 (special_of_escape (by simpa using hn)) hm
    · intro hm
      rcases fnmatch_slash (by decide) hm with ⟨_, _, ⟨⟩, ht, hm⟩ | ⟨-, hn, hhead, hm⟩
      · exact (not_fnmatch_ahead ⟨[c], rfl, by simp, by simpa using ht⟩).1 hm
      by_cases hc : special c
      · rw [escape_cons, if_pos hc] at hhead hm
        obtain rfl : '\\' = c := Option.some.inj hhead
        exact ih.2 hm
      · rw [escape_cons, if_neg hc] at hn hm
        exact ih.1 (special_of_escape (by simpa using hn)) hm

/-- The pattern of a string with a special character does not match it. -/
theorem not_fnmatch_escape (h : ∃ c ∈ s, special c) : ¬ fnmatch f (escape s) s := by
  induction s with
  | nil => simp at h
  | cons c s ih =>
    by_cases hc : special c
    · exact not_fnmatch_special.1 (by simpa using hc)
    · intro hm
      rw [escape_cons, if_neg hc, singleton_append, fnmatch_plain (by simpa using hc)] at hm
      exact ih (by simpa [hc] using h) (Bool.and_eq_true_iff.mp hm).2

/-- **Escapes fail**: the pattern of a string matches the string if and only if it has no special
character, so that nothing is escaped; then it matches what is like the string, and nothing else. -/
theorem escape_literal (hcase : f.nocase = false) (s : List Char) :
    (fnmatch f (escape s) s = true ↔ ∀ c ∈ s, special c = false) ∧
      ((∀ c ∈ s, special c = false) → ∀ t, fnmatch f (escape s) t = true ↔ Alike s t) := by
  refine ⟨⟨fun hm => ?_, fun hs => ?_⟩, fnmatch_escape_iff hcase⟩
  swap
  · exact (fnmatch_escape_iff hcase hs s).mpr (forall₂_same.mpr fun c _ => .inl rfl)
  by_contra hs
  simp only [not_forall, Bool.not_eq_false] at hs
  obtain ⟨c, hc, hsp⟩ := hs
  exact not_fnmatch_escape ⟨c, hc, hsp⟩ hm

theorem escape_literal_path :
    (fnmatch ⟨false, false, false⟩ (escape "a/b".toList) "a/b".toList = true ↔
      ∀ c ∈ "a/b".toList, special c = false) ∧
      ((∀ c ∈ "a/b".toList, special c = false) → ∀ t,
        fnmatch ⟨false, false, false⟩ (escape "a/b".toList) t = true ↔ Alike "a/b".toList t) :=
  escape_literal rfl _

/-- The character after the one that is escaped is looked at. -/
theorem escape_ignored : fnmatch ⟨false, false, false⟩ (escape ['*']) ['*'] = false := by
  decide +kernel

end Fnmatch
