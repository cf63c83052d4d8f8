import Mathlib.Algebra.Group.Nat.Defs
import Mathlib.Data.List.TakeWhile

/-!
# Files that are symbolic links

A link is a file of 510 bytes: a prefix, the target, a line end and a filling text.  `symlink`
writes it to a new file, which is open in binary mode, and `__internal_readlink` reads it back.
-/

namespace Symlinks

open List

def fileLen : ℕ := 510

def linkPrefix : List Char := "!<symlink>".toList

/-- The array `fill_buf`, without its `NUL`. -/
def fillBuf : List Char :=
  let text := ("This is just a text to force symlink file to be 510 bytes long. " ++
    "Do not delete it nor spaces following it.").toList
  text ++ replicate (fileLen - text.length) ' '

/-- The length of the last `write` of `symlink`, a `size_t`. -/
def fillLen (source : List Char) : ℕ :=
  (2 ^ 64 + fileLen - linkPrefix.length - source.length - 1) % 2 ^ 64

/-- What `symlink` writes; `beyond` is what lies in memory from the `NUL` of `fill_buf` on. -/
def symlink (beyond : ℕ → Char) (source : List Char) : List Char :=
  linkPrefix ++ source ++ ['\n'] ++
    (range (fillLen source)).map fun i => (fillBuf[i]?).getD (beyond (i - fileLen))

inductive Error
  | read
  | einval
  deriving DecidableEq

/-- The end of a call: the bytes that are stored, how many bytes of `buf` were looked at, and how
often the descriptor was closed. -/
structure Outcome where
  result : Except Error (List Char)
  seen : ℕ
  closed : ℕ

/-- How many bytes `strncmp` looks at, and whether all of them are equal. -/
def strncmp : List Char → List Char → ℕ × Bool
  | a :: s, b :: t => if a = b then ((strncmp s t).1 + 1, (strncmp s t).2) else (1, false)
  | _, _ => (0, true)

def isEol (c : Char) : Bool := c = '\r' || c = '\n'

/-- The bytes that `__internal_readlink` copies after `strpbrk` has found a line end, or has not:
the difference of `NULL` and the address `addr` of `data_buf` is a `size_t`. -/
def copied (addr max : ℕ) (data : List Char) : ℕ :=
  let k := data.findIdx fun c => isEol c || c = '\x00'
  let n := if (data[k]?).any isEol then k else 2 ^ 64 - addr
  if max < n % 2 ^ 32 then max else n

/-- `__internal_readlink` on a file with 510 bytes, by its path or by a handle: `_read` delivers
`got`, or fails, and `rest` is what `buf` and the memory after it hold from there on. -/
def internalReadlink (byPath : Bool) (got : Option (List Char)) (rest : List Char) (addr max : ℕ) :
    Outcome :=
  let closed := if byPath then 1 else 0
  match got with
  | none => ⟨.error .read, 0, closed⟩
  | some got =>
    let buf := got ++ rest
    let cmp := strncmp buf linkPrefix
    if !cmp.2 then ⟨.error .einval, cmp.1, 2 * closed⟩
    else
      let data := buf.drop linkPrefix.length
      ⟨.ok (data.take (copied addr max data)),
        linkPrefix.length + (data.findIdx fun c => isEol c || c = '\x00') + 1, closed⟩

/-! ### What is read -/

/-- The target in what was read of a file. -/
def target (got : List Char) : Option (List Char) :=
  if linkPrefix <+: got ∧ (got.drop linkPrefix.length).any isEol then
    some ((got.drop linkPrefix.length).takeWhile (!isEol ·))
  else none

/-- Only bytes that were read are looked at, at most `max` bytes are stored, the descriptor is
closed once, and the target is returned if there is one. -/
def ReadRight (byPath : Bool) (got rest : List Char) (addr max : ℕ) : Prop :=
  let out := internalReadlink byPath (some got) rest addr max
  out.seen ≤ got.length ∧ out.closed = (if byPath then 1 else 0) ∧
    out.result = (target got).elim (.error .einval) fun t => .ok (t.take max)

/-- A line end comes before any `NUL`; or what was read, from a handle, differs from the prefix. -/
def Readable (byPath : Bool) (got : List Char) : Prop :=
  (∃ t s, got = linkPrefix ++ t ++ s ∧ (∀ c ∈ t, ¬ isEol c ∧ c ≠ '\x00') ∧ s.head?.any isEol) ∨
    byPath = false ∧ ∃ p a b s t, linkPrefix = p ++ a :: s ∧ got = p ++ b :: t ∧ a ≠ b

theorem strncmp_append (s t u : List Char) :
    strncmp (s ++ t) (s ++ u) = ((strncmp t u).1 + s.length, (strncmp t u).2) := by
  induction s with
  | nil => rfl
  | cons c s ih => simp [strncmp, ih, Nat.add_assoc]

theorem strncmp_nil (s : List Char) : strncmp s [] = (0, true) := by cases s <;> rfl

/-- Two strings differ, or one is the start of the other. -/
theorem differ_cases (got pre : List Char) :
    (∃ p a b s t, pre = p ++ a :: s ∧ got = p ++ b :: t ∧ a ≠ b) ∨ pre <+: got ∨
      ∃ a s, pre = got ++ a :: s := by
  induction pre generalizing got with
  | nil => exact .inr (.inl nil_prefix)
  | cons a pre ih =>
    cases got with
    | nil => exact .inr (.inr ⟨a, pre, rfl⟩)
    | cons b got =>
      by_cases hab : a = b
      · subst hab
        rcases ih got with ⟨p, x, y, s, t, rfl, rfl, hne⟩ | hpre | ⟨x, s, rfl⟩
        · exact .inl ⟨a :: p, x, y, s, t, rfl, rfl, hne⟩
        · exact .inr (.inl (by simpa using hpre))
        · exact .inr (.inr ⟨x, s, rfl⟩)
      · exact .inl ⟨[], a, b, pre, got, rfl, rfl, hab⟩

variable {byPath : Bool} {got rest t s p : List Char} {addr max : ℕ}

theorem target_eq (ht : ∀ c ∈ t, ¬ isEol c ∧ c ≠ '\x00') (hs : s.head?.any isEol) :
    target (linkPrefix ++ t ++ s) = some t := by
  obtain ⟨c, s, rfl⟩ := exists_cons_of_ne_nil (show s ≠ [] by rintro rfl; simp at hs)
  have hta : (t ++ c :: s).takeWhile (!isEol ·) = t := by
    rw [takeWhile_append_of_pos (by simpa using fun c hc => (ht c hc).1)]
    simpa using hs
  have hany : (t ++ c :: s).any isEol := by
    have hc : isEol c := by simpa using hs
    simp [hc]
  simp [target, hta, hany]

/-- What is read from a file with a target that no `NUL` ends. -/
theorem readRight_target (hlen : t.length < 2 ^ 32)
    (ht : ∀ c ∈ t, ¬ isEol c ∧ c ≠ '\x00') (hs : s.head?.any isEol) :
    ReadRight byPath (linkPrefix ++ t ++ s) rest addr max := by
  have hta := target_eq ht hs
  obtain ⟨c, s, rfl⟩ := exists_cons_of_ne_nil (show s ≠ [] by rintro rfl; simp at hs)
  have hc : isEol c := by simpa using hs
  have hidx : (t ++ c :: (s ++ rest)).findIdx (fun c => isEol c || c = '\x00') = t.length := by
    rw [findIdx_append, findIdx_eq_length_of_false (by simpa using ht)]
    simp [hc, findIdx_cons]
  have hco : copied addr max (t ++ c :: (s ++ rest)) = min max t.length := by
    have hget : ((t ++ c :: (s ++ rest))[t.length]?).any isEol := by simp [hc]
    simp only [copied, hidx]
    split_ifs <;> omega
  have hcmp : strncmp (linkPrefix ++ (t ++ c :: (s ++ rest))) linkPrefix = (10, true) := by
    have h := strncmp_append linkPrefix (t ++ c :: (s ++ rest)) []
    rwa [strncmp_nil] at h
  have hbuf : linkPrefix ++ t ++ c :: s ++ rest = linkPrefix ++ (t ++ c :: (s ++ rest)) := by simp
  dsimp only [ReadRight, internalReadlink]
  rw [hta, hbuf, hcmp, drop_left, hco]
  refine ⟨?_, rfl, ?_⟩
  · simp only [Bool.not_true, Bool.false_eq_true, if_false, length_append, length_cons]
    omega
  · have hsh : min max t.length ≤ t.length := Nat.min_le_right ..
    simp [take_append_of_le_length hsh]

theorem strncmp_differ {a b : Char} (hab : a ≠ b) (s u : List Char) :
    strncmp (p ++ b :: u) (p ++ a :: s) = (p.length + 1, false) := by
  rw [strncmp_append]
  simp [strncmp, Ne.symm hab, Nat.add_comm]

/-- **When links are read safely**: exactly for a target whose line end comes before any `NUL`, and,
by a handle, for what is not a link. -/
theorem readlink_right_iff (byPath : Bool) (hgot : got.length ≤ fileLen) :
    (∀ rest addr max, fileLen ≤ got.length + rest.length → ReadRight byPath got rest addr max) ↔
      Readable byPath got := by
  constructor
  · intro h
    obtain ⟨hse, hcl, hr⟩ := h (replicate fileLen 'x') (2 ^ 32) 0 (by simp)
    dsimp only [internalReadlink] at hse hcl hr
    rcases differ_cases got linkPrefix with
      ⟨p, a, b, s, t, hpre, rfl, hne⟩ | ⟨d, rfl⟩ | ⟨a, s, hpre⟩
    · refine .inr ⟨?_, p, a, b, s, t, hpre, rfl, hne⟩
      rw [hpre, append_assoc, cons_append, strncmp_differ hne] at hcl
      cases byPath
      · rfl
      · simp at hcl
    · have hcmp : strncmp (linkPrefix ++ d ++ replicate fileLen 'x') linkPrefix = (10, true) := by
        have h := strncmp_append linkPrefix (d ++ replicate fileLen 'x') []
        rwa [strncmp_nil] at h
      rw [hcmp, append_assoc, drop_left] at hse hr
      cases hf : d.find? (fun c => isEol c || c = '\x00') with
      | none =>
        have hfr := find?_eq_none.mp hf
        rw [findIdx_append, findIdx_eq_length_of_false (by simpa using hfr)] at hse
        simp only [lt_irrefl, if_false, length_append, Bool.not_true, Bool.false_eq_true] at hse
        omega
      | some c =>
        obtain ⟨hc, t, s, rfl, ht⟩ := find?_eq_some_iff_append.mp hf
        simp only [Bool.or_eq_true, decide_eq_true_eq] at hc ht
        rcases hc with hc | rfl
        · exact .inl ⟨t, c :: s, by simp, by simpa using ht, by simpa using hc⟩
        · -- the difference of `NULL` and the address is taken for a length
          have hco : copied (2 ^ 32) 0 (t ++ '\x00' :: s ++ replicate fileLen 'x') =
              2 ^ 64 - 2 ^ 32 := by
            have hidx : (t ++ '\x00' :: s ++ replicate fileLen 'x').findIdx
                (fun c => isEol c || c = '\x00') = t.length := by
              rw [append_assoc, findIdx_append, findIdx_eq_length_of_false (by simpa using ht)]
              simp [findIdx_cons]
            rw [copied, hidx]
            simp [isEol]
          rw [hco] at hr
          cases hta : target (linkPrefix ++ (t ++ '\x00' :: s)) <;> simp [hta] at hr
    · have hcmp : got.length < (strncmp (got ++ replicate fileLen 'x') linkPrefix).1 := by
        rw [hpre, strncmp_append, fileLen, replicate_succ, strncmp]
        split_ifs <;> dsimp only <;> omega
      have hlen : got.length < linkPrefix.length := by simp [hpre]
      split at hse <;> dsimp only at hse <;> omega
  · rintro (⟨t, s, rfl, ht, hs⟩ | ⟨rfl, p, a, b, s, t, hpre, rfl, hne⟩) rest addr max hre
    · refine readRight_target ?_ ht hs
      simp [fileLen] at hgot
      omega
    · have hta : target (p ++ b :: t) = none := by
        simp [target, hpre]
        grind
      dsimp only [ReadRight, internalReadlink]
      rw [hta, hpre, append_assoc, cons_append, strncmp_differ hne]
      simp
theorem readlink_right_iff_short :
    (∀ rest addr max, fileLen ≤ ['a'].length + rest.length → ReadRight false ['a'] rest addr max) ↔
      Readable false ['a'] :=
  readlink_right_iff false (by decide)

/-- A file without the prefix is closed twice; without a line end, what lies behind is searched; and
with a `NUL` in front of it, all that the caller has room for is stored. -/
theorem readlink_unsafe : (internalReadlink true (some "abc".toList) [] 1 9).closed = 2 ∧
      (internalReadlink true (some linkPrefix) ['x'] 1 9).seen = 12 ∧
      (internalReadlink true (some (linkPrefix ++ ['a', '\x00', 'b', '\n'])) [] 1 4).result.toOption
        = some ['a', '\x00', 'b', '\n'] := by
  decide

/-! ### The round trip -/

/-- Only `fill_buf` and the arguments are written, to 510 bytes, from which the source is read. -/
def SymlinkRight (beyond : ℕ → Char) (source : List Char) : Prop :=
  fillLen source ≤ fileLen + 1 ∧ (symlink beyond source).length = fileLen ∧
    ∀ rest addr size, (internalReadlink true (some (symlink beyond source)) rest addr size).result =
      .ok (source.take size)

/-- **A link is read as it was made** exactly if the source has room in its file. -/
theorem symlink_right_iff (beyond : ℕ → Char) {source : List Char}
    (hsource : ∀ c ∈ source, ¬ isEol c ∧ c ≠ '\x00') :
    SymlinkRight beyond source ↔ source.length ≤ fileLen - linkPrefix.length - 1 := by
  have hten : linkPrefix.length = 10 := rfl
  have hl : (symlink beyond source).length = 10 + source.length + 1 + fillLen source := by
    simp [symlink]
    omega
  constructor
  · rintro ⟨-, hlen, -⟩
    rw [fileLen] at hlen
    rw [fileLen]
    omega
  · intro hle
    rw [fileLen] at hle
    have hf : fillLen source = 499 - source.length := by
      rw [fillLen, fileLen]
      omega
    refine ⟨by rw [fileLen]; omega, by rw [hl, fileLen]; omega, ?_⟩
    intro rest addr size
    have hfi : symlink beyond source = linkPrefix ++ source ++ '\n' ::
        (range (fillLen source)).map (fun i => (fillBuf[i]?).getD (beyond (i - fileLen))) := by
      simp [symlink]
    obtain ⟨-, -, hr⟩ := @readRight_target true rest source _ addr size (by omega) hsource
      (show ('\n' :: (range (fillLen source)).map fun i =>
        (fillBuf[i]?).getD (beyond (i - fileLen))).head?.any isEol from rfl)
    rwa [target_eq hsource rfl, ← hfi] at hr

theorem symlink_right_iff_path :
    SymlinkRight (fun _ => 'x') "../lib".toList ↔ "../lib".toList.length ≤ 499 :=
  symlink_right_iff (fun _ => 'x') (by simp [isEol])

/-- For 500 characters, `write` is asked for all but one of the addresses. -/
theorem symlink_overruns : fillLen (replicate 500 'a') = 2 ^ 64 - 1 := by
  decide +kernel

end Symlinks
