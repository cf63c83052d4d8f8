import Mathlib.Data.List.TakeWhile
import Mathlib.Data.Option.Basic

/-!
# The parts of a path

`fnsplit` and `fnmerge` take a path apart and put it together; `dirname` and `basename` return what
comes before and after the last separator.
-/

namespace Names

open List Nat Option

def isSep (c : Char) : Bool := c = '/' || c = '\\'

/-- The last position with `p`: `strrchr`, for one character or more. -/
def strrchr (p : Char → Bool) : List Char → Option ℕ
  | [] => none
  | c :: s => ((strrchr p s).map (· + 1)).or (if p c then some 0 else none)

variable {p : Char → Bool} {s fname : List Char} {i n : ℕ}

theorem strrchr_eq_none : strrchr p s = none ↔ ∀ c ∈ s, p c = false := by
  induction s with
  | nil => simp [strrchr]
  | cons c s ih => simp [strrchr, ih, and_comm]

theorem strrchr_eq_some (h : strrchr p s = some i) :
    ∃ pre c post, s = pre ++ c :: post ∧ pre.length = i ∧ p c ∧ ∀ x ∈ post, p x = false := by
  induction s generalizing i with
  | nil => simp [strrchr] at h
  | cons c s ih =>
    rcases or_eq_some_iff.mp h with h | ⟨hn, h⟩
    · obtain ⟨j, hj, rfl⟩ := map_eq_some_iff.mp h
      obtain ⟨pre, x, post, rfl, rfl, hx, hp⟩ := ih hj
      exact ⟨c :: pre, x, post, rfl, rfl, hx, hp⟩
    · split_ifs at h with hc
      cases h
      exact ⟨[], c, s, rfl, rfl, hc, strrchr_eq_none.mp (by simpa using hn)⟩

/-! ### `fnsplit` and `fnmerge` -/

/-- The flags that `fnsplit` returns. -/
structure Flags where
  drive : Bool
  directory : Bool
  filename : Bool
  extension : Bool
  wildcards : Bool
  deriving DecidableEq

/-- What `fnsplit` stores. -/
structure Parts where
  drive : List Char
  dir : List Char
  name : List Char
  ext : List Char
  deriving DecidableEq

/-- The length of the drive. -/
def driveLen (path : List Char) : ℕ :=
  if path.head?.any (fun c => c.isAlpha || "[\\]^_`".toList.contains c) ∧ path[1]? = some ':' then 2
  else 0

def dirLen (pp : List Char) : ℕ := ((strrchr isSep pp).map (· + 1)).getD 0

/-- The length of the name: the dots at its start are not those of an extension. -/
def nameLen (file : List Char) : ℕ :=
  let pp := file.dropWhile (· = '.')
  (file.takeWhile (· = '.')).length + (strrchr (· = '.') pp).getD pp.length

/-- `fnsplit`, for a path that is not empty and places for all parts. -/
def fnsplit (path : List Char) : Flags × Parts :=
  let pp := path.drop (driveLen path)
  let file := pp.drop (dirLen pp)
  (⟨driveLen path ≠ 0, dirLen pp ≠ 0, nameLen file ≠ 0,
      (strrchr (· = '.') (file.dropWhile (· = '.'))).isSome,
      (path.takeWhile (!"*?[".toList.contains ·)).length < path.length⟩,
    ⟨path.take (driveLen path), pp.take (dirLen pp), file.take (nameLen file),
      file.drop (nameLen file)⟩)

def fnmerge (t : Parts) : List Char :=
  (match t.drive with
    | [] => []
    | d :: _ => [d, ':']) ++
  (if t.dir = [] then []
    else t.dir ++
      if t.dir.getLast?.any isSep then [] else if '\\' ∈ t.dir then ['\\'] else ['/']) ++
  t.name ++
  (if t.ext = [] then [] else (if t.ext.head? = some '.' then [] else ['.']) ++ t.ext)

theorem drive_spec (path : List Char) : (driveLen path ≠ 0 ↔ path.take (driveLen path) ≠ []) ∧
      (path.take (driveLen path) = [] ∨ ∃ c, path.take (driveLen path) = [c, ':']) := by
  unfold driveLen
  split_ifs with h
  · obtain ⟨c, _ | ⟨d, s⟩, rfl⟩ := exists_cons_of_ne_nil (show path ≠ [] by rintro rfl; simp at h)
    · simp at h
    · simpa using h.2
  · simp

/-- The directory ends with a separator. -/
theorem dir_spec (pp : List Char) : (dirLen pp ≠ 0 ↔ pp.take (dirLen pp) ≠ []) ∧
      (pp.take (dirLen pp) = [] ∨ (pp.take (dirLen pp)).getLast?.any isSep) := by
  unfold dirLen
  cases h : strrchr isSep pp with
  | none => simp
  | some i =>
    obtain ⟨pre, c, post, rfl, rfl, hc, -⟩ := strrchr_eq_some h
    simp [take_append, hc]

/-- The extension starts with a dot. -/
theorem ext_spec (file : List Char) :
    ((strrchr (· = '.') (file.dropWhile (· = '.'))).isSome ↔ file.drop (nameLen file) ≠ []) ∧
      (file.drop (nameLen file) = [] ∨ (file.drop (nameLen file)).head? = some '.') := by
  have hf : file.drop (nameLen file) = (file.dropWhile (· = '.')).drop
      ((strrchr (· = '.') (file.dropWhile (· = '.'))).getD (file.dropWhile (· = '.')).length) := by
    have hd := @drop_left _ (file.takeWhile (· = '.')) (file.dropWhile (· = '.'))
    rw [takeWhile_append_dropWhile] at hd
    rw [nameLen, ← drop_drop, hd]
  rw [hf]
  generalize file.dropWhile (· = '.') = pp
  cases h : strrchr (· = '.') pp with
  | none => simp
  | some i =>
    obtain ⟨pre, c, post, rfl, rfl, hc, -⟩ := strrchr_eq_some h
    simpa using hc

theorem fnmerge_eq {t : Parts} (hd : t.drive = [] ∨ ∃ c, t.drive = [c, ':'])
    (hdir : t.dir = [] ∨ t.dir.getLast?.any isSep) (hext : t.ext = [] ∨ t.ext.head? = some '.') :
    fnmerge t = t.drive ++ t.dir ++ t.name ++ t.ext := by
  unfold fnmerge
  congr 1
  · congr 2
    · rcases hd with h | ⟨c, h⟩ <;> simp [h]
    · rcases hdir with h | h <;> simp [h]
  · rcases hext with h | h <;> simp [h]

theorem takeWhile_shorter_iff (s : List Char) (p : Char → Bool) :
    (s.takeWhile (!p ·)).length < s.length ↔ s.any p := by
  induction s with
  | nil => simp
  | cons c s ih => cases hc : p c <;> simp_all

/-- **Splitting and merging is the identity**, and the flags say which parts there are. -/
theorem split_merge (c : Char) (path : List Char) :
    fnmerge (fnsplit (c :: path)).2 = c :: path ∧ (fnsplit (c :: path)).1 =
      ⟨(fnsplit (c :: path)).2.drive ≠ [], (fnsplit (c :: path)).2.dir ≠ [],
        (fnsplit (c :: path)).2.name ≠ [], (fnsplit (c :: path)).2.ext ≠ [],
        (c :: path).any ("*?[".toList.contains ·)⟩ := by
  generalize c :: path = path
  have hd := drive_spec path
  have hdir := dir_spec (path.drop (driveLen path))
  have hext := ext_spec ((path.drop (driveLen path)).drop (dirLen (path.drop (driveLen path))))
  constructor
  · rw [fnmerge_eq hd.2 hdir.2 hext.2]
    dsimp only [fnsplit]
    rw [append_assoc, take_append_drop, append_assoc, take_append_drop, take_append_drop]
  · have hn (file : List Char) : nameLen file ≠ 0 ↔ file.take (nameLen file) ≠ [] := by
      cases file <;> simp [nameLen, strrchr]
    have hw := takeWhile_shorter_iff path ("*?[".toList.contains ·)
    rw [Flags.mk.injEq]
    exact ⟨decide_eq_decide.mpr hd.1, decide_eq_decide.mpr hdir.1,
      decide_eq_decide.mpr (hn _), Bool.eq_iff_iff.mpr (hext.1.trans decide_eq_true_iff.symm),
      Bool.eq_iff_iff.mpr (decide_eq_true_iff.trans hw)⟩

/-! ### `dirname` and `basename` -/

def colonLen (fname : List Char) : ℕ := if fname[1]? = some ':' then 2 else 0

def basename (fname : List Char) : List Char :=
  (fname.drop (colonLen fname)).drop (dirLen (fname.drop (colonLen fname)))

/-- `slash` after its loop: the last separator, or else the colon of a drive. -/
def slash (fname : List Char) : Option ℕ :=
  ((strrchr isSep (fname.drop (colonLen fname))).map (colonLen fname + ·)).or
    (if colonLen fname = 0 then none else some 1)

/-- The loop that removes separators before `slash`. -/
def trim (fname : List Char) : ℕ → ℕ
  | 0 => 0
  | i + 1 => if (fname[i]?).any isSep then trim fname i else i + 1

/-- `dirlen` for a `slash`. -/
def dirlen (fname : List Char) (slash : ℕ) : ℕ :=
  let n := slash + if slash = 0 ∨ fname[slash - 1]? = some ':' then 1 else 0
  if fname[slash]? = some ':' ∧ n = 1 then n + 2 else n

/-- A block of `n + 1` bytes after `strlcpy`. -/
def strlcpy (init : ℕ → Char) (src : List Char) (n : ℕ) : ℕ → Char :=
  fun i => ((src.take n ++ ['\x00'])[i]?).getD (init i)

/-- `dirname`: the size of the block, in which `init` was found, and its bytes. -/
def dirname (init : ℕ → Char) (fname : List Char) : ℕ × (ℕ → Char) :=
  match (slash fname).map (trim fname) with
  | none => (2, strlcpy init ['.'] 1)
  | some i =>
    let part := strlcpy init fname (dirlen fname i)
    (dirlen fname i + 1,
      if fname[i]? = some ':' ∧ dirlen fname i = 3 then Function.update part 2 '.' else part)

/-- The indices that the loop of `trim` reads. -/
def trimReads (fname : List Char) : ℕ → List ℤ
  | 0 => []
  | i + 1 => ((i + 1 : ℤ) - 1) :: if (fname[i]?).any isSep then trimReads fname i else []

/-- The indices that both functions read up to the end of their first loop. -/
def firstReads (fname : List Char) : List ℤ :=
  (if fname = [] then [0] else [0, 1]) ++
    (range' (colonLen fname) (fname.length + 1 - colonLen fname)).map Nat.cast

/-- The indices that `dirname` reads; `strlcpy` reads the whole path. -/
def dirnameReads (fname : List Char) : List ℤ :=
  firstReads fname ++ match slash fname with
    | none => []
    | some n =>
      let i := trim fname n
      trimReads fname n ++ (if i = 0 then [] else [(i : ℤ) - 1]) ++ [(i : ℤ)] ++
        (range (fname.length + 1)).map Nat.cast

/-- The two results make up the path: separators stand between them, or there is no directory. -/
def Agree (dir fname base : List Char) : Prop :=
  (∃ seps, (∀ c ∈ seps, isSep c) ∧ fname = dir ++ seps ++ base) ∨ dir = ['.'] ∧ fname = base ∨
    ∃ d, dir = [d, ':', '.'] ∧ fname = d :: ':' :: base

/-- A string in a block, with its `NUL`. -/
def Holds (block : ℕ × (ℕ → Char)) (t : List Char) : Prop :=
  t.length < block.1 ∧ ∀ i ≤ t.length, (t ++ ['\x00'])[i]? = some (block.2 i)

/-- `dirname` returns a string in its block, `basename` a part without separators and drive, they
agree, and read nothing but the path with its terminator. -/
def NamesRight (init : ℕ → Char) (fname : List Char) : Prop :=
  (∀ c ∈ basename fname, isSep c = false) ∧ basename fname <:+ fname.drop (colonLen fname) ∧
    (∀ i ∈ dirnameReads fname ++ firstReads fname, 0 ≤ i ∧ i ≤ fname.length) ∧
    ∃ dir, Holds (dirname init fname) dir ∧ Agree dir fname (basename fname)

def Bare (fname : List Char) : Prop :=
  ∃ d s, fname = d :: ':' :: s ∧ (∀ c ∈ s, isSep c = false) ∧ (isSep d ∨ d ≠ ':' ∧ s = [])

theorem trim_spec (fname : List Char) (n : ℕ) :
    trim fname n ≤ n ∧ ∀ i, trim fname n ≤ i → i < n → (fname[i]?).any isSep := by
  induction n with
  | zero => simp [trim]
  | succ n ih =>
    rw [trim]
    split_ifs with hsep
    · refine ⟨by omega, fun i hi hn => ?_⟩
      rcases Nat.lt_succ_iff_lt_or_eq.mp hn with hlt | rfl
      · exact ih.2 i hi hlt
      · exact hsep
    · exact ⟨le_rfl, fun i hi hn => absurd hn (not_lt.mpr hi)⟩

theorem mem_trimReads (fname : List Char) (n : ℕ) : ∀ i ∈ trimReads fname n, 0 ≤ i ∧ i ≤ n := by
  induction n with
  | zero => simp [trimReads]
  | succ n ih =>
    rw [trimReads]
    split_ifs <;> grind

theorem reads_inside (fname : List Char) :
    ∀ i ∈ dirnameReads fname ++ firstReads fname, 0 ≤ i ∧ i ≤ fname.length := by
  have hfirst : ∀ i ∈ firstReads fname, 0 ≤ i ∧ i ≤ fname.length := by
    unfold firstReads colonLen
    cases fname <;> simp
    grind
  rw [forall_mem_append, and_iff_left hfirst, dirnameReads, forall_mem_append]
  refine ⟨hfirst, ?_⟩
  cases hs : slash fname with
  | none => simp
  | some n =>
    have hn : n < fname.length := by
      rcases or_eq_some_iff.mp hs with h | ⟨-, h⟩
      · obtain ⟨i, hi, rfl⟩ := map_eq_some_iff.mp h
        obtain ⟨pre, c, post, heq, rfl, -⟩ := strrchr_eq_some hi
        have hl := congrArg length heq
        simp at hl
        omega
      · by_cases hc : fname[1]? = some ':'
        · obtain rfl : 1 = n := by simpa [colonLen, hc] using h
          exact (List.getElem?_eq_some_iff.mp hc).1
        · simp [colonLen, hc] at h
    have ht := (trim_spec fname n).1
    have hr := mem_trimReads fname n
    simp
    grind

theorem base_spec (s : List Char) : (∀ c ∈ s.drop (dirLen s), isSep c = false) ∧
      (strrchr isSep s = none ∧ dirLen s = 0 ∨
        ∃ i, strrchr isSep s = some i ∧ dirLen s = i + 1 ∧ (s[i]?).any isSep) := by
  unfold dirLen
  cases h : strrchr isSep s with
  | none => simpa using strrchr_eq_none.mp h
  | some i =>
    obtain ⟨pre, c, post, rfl, rfl, hc, hp⟩ := strrchr_eq_some h
    simpa [hc] using hp

/-- With a separator, the results agree. -/
theorem agree_of_slash (hn : (fname[n]?).any isSep) :
    dirlen fname (trim fname n) ≤ n + 1 ∧ fname[trim fname n]? ≠ some ':' ∧
      Agree (fname.take (dirlen fname (trim fname n))) fname (fname.drop (n + 1)) := by
  obtain ⟨hle, hs⟩ := trim_spec fname n
  have hsep : ∀ i, trim fname n ≤ i → i < n + 1 → (fname[i]?).any isSep := by
    intro i hi hlt
    rcases Nat.lt_succ_iff_lt_or_eq.mp hlt with hlt | rfl
    · exact hs i hi hlt
    · exact hn
  have hco : fname[trim fname n]? ≠ some ':' := by
    intro h
    have := hsep _ le_rfl (by omega)
    simp [h, isSep] at this
  have hlen : dirlen fname (trim fname n) ≤ n + 1 ∧ trim fname n ≤ dirlen fname (trim fname n) := by
    simp only [dirlen, hco, false_and, if_false]
    split_ifs <;> omega
  refine ⟨hlen.1, hco, .inl ⟨(fname.take (n + 1)).drop (dirlen fname (trim fname n)), ?_, ?_⟩⟩
  · intro c hc
    obtain ⟨i, hi⟩ := mem_iff_getElem?.mp hc
    rw [getElem?_drop, getElem?_take] at hi
    split_ifs at hi with hlt
    simpa [hi] using hsep _ (hlen.2.trans (le_add_right _ i)) hlt
  · have ht : fname.take (dirlen fname (trim fname n)) =
        (fname.take (n + 1)).take (dirlen fname (trim fname n)) := by
      rw [take_take, min_eq_left hlen.1]
    rw [ht, take_append_drop, take_append_drop]

theorem strlcpy_holds (init : ℕ → Char) (src : List Char) (n : ℕ) :
    Holds (n + 1, strlcpy init src n) (src.take n) := by
  refine ⟨lt_succ_of_le (length_take_le ..), fun i hi => ?_⟩
  have hlt : i < (src.take n ++ ['\x00']).length := by
    rw [length_append]
    exact lt_succ_of_le hi
  simp only [strlcpy, getElem?_eq_getElem hlt, getD_some]

/-- Without a separator after the drive `d:`. -/
theorem names_drive (d : Char) (hs : ∀ c ∈ s, isSep c = false) :
    (∀ init, NamesRight init (d :: ':' :: s)) ↔ ¬ Bare (d :: ':' :: s) := by
  have hn := strrchr_eq_none.mpr hs
  have hbas : basename (d :: ':' :: s) = s := by simp [basename, colonLen, dirLen, hn]
  have hsl : slash (d :: ':' :: s) = some 1 := by simp [slash, colonLen, hn]
  have hba : Bare (d :: ':' :: s) ↔ isSep d ∨ d ≠ ':' ∧ s = [] := by
    simp only [Bare, cons.injEq, true_and]
    exact ⟨by rintro ⟨_, _, ⟨rfl, rfl⟩, -, h⟩; exact h, fun h => ⟨d, s, ⟨rfl, rfl⟩, hs, h⟩⟩
  rw [hba]
  have hb' : ∀ init, NamesRight init (d :: ':' :: s) ↔
      ∃ dir, Holds (dirname init (d :: ':' :: s)) dir ∧ Agree dir (d :: ':' :: s) s := by
    intro init
    rw [NamesRight, hbas]
    exact ⟨fun h => h.2.2.2, fun h => ⟨hs, suffix_refl s, reads_inside _, h⟩⟩
  simp only [hb']
  by_cases hsep : isSep d
  · -- the colon is lost
    have hd : d ≠ ':' ∧ d ≠ '.' ∧ d ≠ '\x00' := by
      refine ⟨?_, ?_, ?_⟩ <;> rintro rfl <;> simp [isSep] at hsep
    have hdir : dirname (fun _ => 'x') (d :: ':' :: s) =
        (2, strlcpy (fun _ => 'x') (d :: ':' :: s) 1) := by
      simp [dirname, hsl, trim, hsep, dirlen, hd.1]
    refine iff_of_false (fun h => ?_) (by simp [hsep])
    obtain ⟨dir, ⟨hlen, hb⟩, ha⟩ := h fun _ => 'x'
    rw [hdir] at hlen hb
    rcases dir with _ | ⟨x, _ | ⟨y, dir⟩⟩
    · exact hd.2.2 (by simpa [strlcpy] using (hb 0 le_rfl).symm)
    · obtain rfl : x = d := by simpa [strlcpy] using hb 0 (zero_le _)
      rcases ha with ⟨seps, hse, heq⟩ | ⟨heq, -⟩ | ⟨_, heq, -⟩
      · have hc : [':'] = seps := append_cancel_right (by simpa using heq)
        simp [← hc, isSep] at hse
      · exact hd.2.1 (by simpa using heq)
      · simp at heq
    · exact absurd hlen (by simp)
  by_cases hd : d = ':'
  · subst hd
    have hdir (init : ℕ → Char) : dirname init (':' :: ':' :: s) =
        (3, strlcpy init (':' :: ':' :: s) 2) := by
      simp [dirname, hsl, trim, hsep, dirlen]
    refine iff_of_true (fun init => ⟨[':', ':'], ?_, .inl ⟨[], by simp, rfl⟩⟩) (by simp [hsep])
    rw [hdir]
    exact strlcpy_holds init (':' :: ':' :: s) 2
  · have hdir (init : ℕ → Char) : dirname init (d :: ':' :: s) =
        (4, Function.update (strlcpy init (d :: ':' :: s) 3) 2 '.') := by
      simp [dirname, hsl, trim, hsep, dirlen, hd]
    simp only [hdir]
    cases s with
    | nil =>
      -- the byte after the dot is not stored
      refine iff_of_false (fun h => ?_) (by simp [hd])
      obtain ⟨dir, ⟨hlen, hb⟩, ha⟩ := h fun _ => 'x'
      rcases dir with _ | ⟨a, _ | ⟨b, _ | ⟨c, _ | ⟨e, dir⟩⟩⟩⟩
      · simp [Agree, isSep] at ha
      · simpa [strlcpy] using hb 1 le_rfl
      · simpa using hb 2 le_rfl
      · simpa [strlcpy] using hb 3 le_rfl
      · exact absurd hlen (by simp)
    | cons c s =>
      refine iff_of_true (fun init => ⟨[d, ':', '.'], ⟨by simp, ?_⟩, .inr (.inr ⟨d, rfl, rfl⟩)⟩)
        (by simp [hsep])
      rintro (_ | _ | _ | _ | i) hi
      · simp [strlcpy]
      · simp [strlcpy]
      · simp
      · simp [strlcpy]
      · exact absurd hi (by simp)

/-- **`dirname` and `basename` agree** on all other paths. -/
theorem names_right_iff (fname : List Char) : (∀ init, NamesRight init fname) ↔ ¬ Bare fname := by
  obtain ⟨hb, hsl⟩ := base_spec (fname.drop (colonLen fname))
  rcases hsl with ⟨hno, hz⟩ | ⟨i, hso, hlen, hsep⟩
  · by_cases hc : fname[1]? = some ':'
    · obtain ⟨d, _ | ⟨c, s⟩, rfl⟩ := exists_cons_of_ne_nil
        (show fname ≠ [] by rintro rfl; simp at hc)
      · simp at hc
      · obtain rfl : c = ':' := by simpa using hc
        exact names_drive d (by simpa [colonLen] using strrchr_eq_none.mp hno)
    · have hz' : colonLen fname = 0 := if_neg hc
      rw [hz', drop_zero] at hno hz
      have hdir (init : ℕ → Char) : dirname init fname = (2, strlcpy init ['.'] 1) := by
        simp [dirname, slash, hno, hz']
      have hb' : fname = basename fname := by simp [basename, hz, hz']
      have ha : Agree ['.'] fname (basename fname) := .inr (.inl ⟨rfl, hb'⟩)
      refine iff_of_true (fun init => ⟨hb, drop_suffix .., reads_inside _, ['.'], ?_, ha⟩) ?_
      · rw [hdir]
        exact strlcpy_holds init ['.'] 1
      · rintro ⟨d, s, rfl, -⟩
        simp at hc
  · -- a separator after the drive
    have hn : (fname[colonLen fname + i]?).any isSep := by rwa [getElem?_drop] at hsep
    obtain ⟨-, hc, ha⟩ := agree_of_slash hn
    have hdir (init : ℕ → Char) : dirname init fname =
        (dirlen fname (trim fname (colonLen fname + i)) + 1,
          strlcpy init fname (dirlen fname (trim fname (colonLen fname + i)))) := by
      simp [dirname, slash, hso, hc]
    have hb' : basename fname = fname.drop (colonLen fname + i + 1) := by
      rw [basename, hlen, drop_drop, ← Nat.add_assoc]
    refine iff_of_true (fun init => ⟨hb, drop_suffix .., reads_inside _, _, ?_, hb' ▸ ha⟩) ?_
    · rw [hdir]
      exact strlcpy_holds ..
    · rintro ⟨d, s, rfl, hs, -⟩
      simp [colonLen, strrchr_eq_none.mpr hs] at hso

/-- No `NUL` is stored for `c:`, and `/` and `x` do not make up `/:x`. -/
theorem names_differ : (dirname (fun _ => 'x') ['c', ':']).1 = 4 ∧
      (List.range 4).map (dirname (fun _ => 'x') ['c', ':']).2 = ['c', ':', '.', 'x'] ∧
      (List.range 2).map (dirname (fun _ => 'x') ['/', ':', 'x']).2 = ['/', '\x00'] ∧
      basename ['/', ':', 'x'] = ['x'] := by
  decide

end Names
