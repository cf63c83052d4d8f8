import Dj64.Lib.Splice
import Dj64.Stdlib.QsortRuns

/-!
# The results of `glob`

`glob` gathers the paths of a call in a list and stores them in the array of a `glob_t`, after those
of earlier calls.

* `glob`: what a call does to a `glob_t`;
* `qsort_listed`: the order of the paths is the one that `qsort` makes;
* `glob_right_iff`: when the layout is the documented one.
-/

namespace Glob

open List Splice

/-- An entry of an array; what `malloc` returns is junk. -/
inductive Cell
  | junk
  | null
  | path (s : List Char)
  deriving DecidableEq

/-- `glob_t`; the array is empty for a null pointer. -/
structure GlobT where
  pathc : ℕ
  pathv : List Cell
  offs : ℕ
  deriving DecidableEq

/-- A call, with `GLOB_APPEND`, `GLOB_DOOFFS`, `GLOB_NOSORT` and the paths in the order in which
they were added. -/
structure Call where
  append : Bool
  dooffs : Bool
  nosort : Bool
  found : List (List Char)

/-- `strcmp` does not return more than 0. -/
def strcmpLe : List Char → List Char → Bool
  | [], _ => true
  | _ :: _, [] => false
  | a :: s, b :: t => if a = b then strcmpLe s t else a.toNat < b.toNat

/-- The order in which the paths of a call are stored: `qsort` sorts them. -/
def Call.listed (c : Call) : List (List Char) :=
  if c.nosort then c.found else c.found.mergeSort strcmpLe

/-- `realloc` to `n` entries. -/
def realloc (v : List Cell) (n : ℕ) : List Cell := v.take n ++ replicate (n - v.length) .junk

/-- `glob`, with memory. -/
def glob (g : GlobT) (c : Call) : GlobT :=
  let g := if c.append then g else ⟨0, [], if c.dooffs then g.offs else 0⟩
  if c.found = [] then g
  else
    let ofs := if c.dooffs then g.offs else 0
    let v := if c.append then realloc g.pathv (ofs + g.pathc + c.found.length + 1)
      else replicate ofs .null ++ replicate (c.found.length + 1) .junk
    ⟨ofs + g.pathc + c.found.length,
      splice v (ofs + g.pathc) (c.listed.map .path ++ [.null]), g.offs⟩

/-- The documented layout: the reserved entries, the paths and a null pointer. -/
def Layout (g : GlobT) (paths : List (List Char)) : Prop :=
  g.pathc = paths.length ∧ g.pathv = replicate g.offs .null ++ paths.map .path ++ [.null]

theorem listed_perm {c : Call} : c.listed ~ c.found := by
  unfold Call.listed
  split_ifs
  · rfl
  · exact mergeSort_perm ..

theorem strcmpLe_total (s t : List Char) : strcmpLe s t || strcmpLe t s := by
  induction s generalizing t with
  | nil => simp [strcmpLe]
  | cons a s ih =>
    cases t with
    | nil => simp [strcmpLe]
    | cons b t =>
      by_cases hab : a = b
      · simpa [strcmpLe, hab] using ih t
      · have hne : a.toNat ≠ b.toNat := fun h => hab (Char.toNat_inj.mp h)
        simp [strcmpLe, hab, Ne.symm hab]
        omega

theorem strcmpLe_trans (s t u : List Char) (h : strcmpLe s t) (h' : strcmpLe t u) :
    strcmpLe s u := by
  induction s generalizing t u with
  | nil => simp [strcmpLe]
  | cons a s ih =>
    rcases t with _ | ⟨b, t⟩ <;> rcases u with _ | ⟨c, u⟩ <;> simp [strcmpLe] at h h' ⊢
    split_ifs at h h' ⊢ <;> grind

theorem listed_sorted {c : Call} (h : c.nosort = false) : c.listed.Pairwise (strcmpLe · ·) := by
  simpa [Call.listed, h] using pairwise_mergeSort strcmpLe_trans strcmpLe_total c.found

theorem strcmpLe_antisymm (s t : List Char) (h : strcmpLe s t) (h' : strcmpLe t s) : s = t := by
  induction s generalizing t with
  | nil => cases t <;> simp_all [strcmpLe]
  | cons a s ih =>
    cases t with
    | nil => simp [strcmpLe] at h
    | cons b t =>
      by_cases hab : a = b
      · subst hab
        simp only [strcmpLe, if_true] at h h'
        rw [ih t h h']
      · simp only [strcmpLe, if_neg hab, if_neg (Ne.symm hab), decide_eq_true_eq] at h h'
        exact absurd h h'.not_gt

/-- The sign of what `strcmp`, and so `str_compare`, returns. -/
def strcmp (s t : List Char) : ℤ := if strcmpLe s t then if strcmpLe t s then 0 else -1 else 1

theorem strcmp_nonpos_iff {s t : List Char} : strcmp s t ≤ 0 ↔ strcmpLe s t := by
  unfold strcmp
  split_ifs <;> simp_all

theorem strcmp_preorder : Qsort.TotalPreorder strcmp := by
  refine ⟨fun s t => ?_, fun s t u h h' => ?_⟩
  · have := strcmpLe_total s t
    unfold strcmp
    split_ifs <;> simp_all
  · rw [strcmp_nonpos_iff] at h h' ⊢
    exact strcmpLe_trans s t u h h'

/-- The model of `qsort` brings the paths that were found into this order, wherever they are in an
array. -/
theorem qsort_listed {c : Call} (h : c.nosort = false) (a : ℕ → List Char)
    (ha : (range' 1 c.found.length).map a = c.found) :
    ∃ b, (∀ fuel, c.found.length < fuel → Qsort.qsort c.found.length strcmp fuel a = .ok b) ∧
      (range' 1 c.found.length).map b = c.listed := by
  obtain ⟨b, hb, hs, hp, -⟩ := Qsort.qsort_ok strcmp_preorder c.found.length a
  refine ⟨b, hb, ?_⟩
  rw [ha] at hp
  refine (hp.trans listed_perm.symm).eq_of_pairwise (fun _ _ _ _ => strcmpLe_antisymm _ _) ?_
    (listed_sorted h)
  have hlt : (range' 1 c.found.length).Pairwise (· < ·) := pairwise_lt_range'
  refine pairwise_map.mpr (hlt.imp_of_mem fun {i j} hi hj hij => ?_)
  rw [mem_range'_1] at hi hj
  exact strcmp_nonpos_iff.mp (hs i j hi.1 hij.le (by omega))

/-- The paths of the calls. -/
def total (calls : List Call) : List (List Char) := calls.flatMap Call.listed

/-- After every call the paths are counted, and the layout is right as soon as there are any. -/
def GlobRight (g : GlobT) (first : Call) (later : List Call) : Prop :=
  ∀ pre, pre <+: later →
    (pre.foldl glob (glob g first)).pathc = (total (first :: pre)).length ∧
      (total (first :: pre) ≠ [] →
        Layout (pre.foldl glob (glob g first)) (total (first :: pre)))

variable {g : GlobT} {c first : Call} {later calls : List Call} {paths : List (List Char)}

theorem listed_eq_nil_iff : c.listed = [] ↔ c.found = [] :=
  ⟨fun h => (h ▸ listed_perm).symm.eq_nil, fun h => (h ▸ listed_perm).eq_nil⟩

theorem total_eq_nil_iff : total calls = [] ↔ ∀ c ∈ calls, c.found = [] := by
  simp [total, listed_eq_nil_iff]

theorem take_realloc {u tail : List Cell} {n : ℕ} (h : u.length ≤ n) :
    (realloc (u ++ tail) n).take u.length = u := by
  have ht : (u ++ tail).take n = u ++ tail.take (n - u.length) := by
    rw [take_append, take_of_length_le h]
  rw [realloc, ht, append_assoc, take_left]

theorem splice_end {v u cells : List Cell} {i : ℕ} (ht : v.take i = u)
    (hlen : v.length ≤ i + cells.length) : splice v i cells = u ++ cells := by
  rw [splice, ht, drop_eq_nil_of_le hlen, append_nil]

/-- No entry is reserved, and the layout is right if the array has been allocated. -/
def Plain (g : GlobT) (paths : List (List Char)) : Prop :=
  g.offs = 0 ∧ (Layout g paths ∨ g.pathc = 0 ∧ g.pathv = [] ∧ paths = [])

theorem Plain.glob (h : Plain g paths) (ha : c.append) : Plain (glob g c) (paths ++ c.listed) := by
  obtain ⟨ho, h⟩ := h
  have hlen : c.listed.length = c.found.length := listed_perm.length_eq
  by_cases hf : c.found = []
  · simpa [Glob.glob, ha, hf, listed_eq_nil_iff.mpr hf] using ⟨ho, h⟩
  · have hp : g.pathc = paths.length ∧ ∃ tail, g.pathv = paths.map .path ++ tail ∧
        tail.length ≤ 1 := by
      rcases h with ⟨hc, hv⟩ | ⟨hc, hv, rfl⟩
      · exact ⟨hc, [.null], by simp [hv, ho], le_rfl⟩
      · exact ⟨hc, [], by simp [hv], by simp⟩
    obtain ⟨hc, tail, hv, hta⟩ := hp
    refine ⟨by simp [Glob.glob, ha, hf, ho], .inl ⟨?_, ?_⟩⟩
    · simp [Glob.glob, ha, hf, ho, hc, hlen]
    · simp only [Glob.glob, ha, if_true, hf, if_false, ho, ite_self, hc, hv, Nat.zero_add]
      rw [splice_end (u := paths.map .path)]
      · simp
      · have ht := @take_realloc (paths.map .path) tail (paths.length + c.found.length + 1)
          (by simp; omega)
        rwa [length_map] at ht
      · simp [realloc, hlen]
        omega

theorem plain_foldl (hl : ∀ c ∈ later, c.append) (h : Plain g paths) :
    Plain (later.foldl glob g) (paths ++ total later) := by
  induction later generalizing g paths with
  | nil => simpa [total] using h
  | cons c later ih =>
    obtain ⟨hc, hl⟩ := forall_mem_cons.mp hl
    simpa [total] using ih hl (h.glob hc)

theorem plain_first (hfi : first.append = false) (h : first.dooffs → g.offs = 0) :
    Plain (glob g first) first.listed := by
  have ho : (if first.dooffs then g.offs else 0) = 0 := by
    split_ifs with hd
    · exact h hd
    · rfl
  by_cases hf : first.found = []
  · simp [Plain, glob, hfi, hf, ho, listed_eq_nil_iff.mpr hf]
  · have hlen : first.listed.length = first.found.length := listed_perm.length_eq
    refine ⟨by simp [glob, hfi, hf, ho], .inl ⟨?_, ?_⟩⟩
    · simp [glob, hfi, hf, ho, hlen]
    · simp [glob, hfi, hf, ho, splice, hlen]

/-- With reserved entries, the first paths that are found are not where they should be. -/
theorem not_layout_first (hf : first.append = false) (hd : first.dooffs)
    (ho : g.offs ≠ 0) (hfo : first.found ≠ []) : ¬ Layout (glob g first) first.listed := by
  rintro ⟨hc, -⟩
  simp [glob, hf, hfo, hd, listed_perm.length_eq, ho] at hc

theorem not_layout_later (ha : c.append) (hf : c.found ≠ []) {offs : ℕ}
    (ho : offs ≠ 0) : ¬ Layout (glob ⟨0, [], offs⟩ c) c.listed := by
  rintro ⟨hc, hv⟩
  have hlen : c.listed.length = c.found.length := listed_perm.length_eq
  cases hd : c.dooffs with
  | true => simp [glob, hf, hd, hlen, ho] at hc
  | false =>
    have hl := congrArg length hv
    simp [glob, ha, hf, hd, hlen, splice, realloc] at hl
    omega

theorem foldl_nothing (hl : ∀ c ∈ later, c.append) (h : ∀ c ∈ later, c.found = []) :
    later.foldl glob g = g := by
  induction later with
  | nil => rfl
  | cons c later ih =>
    obtain ⟨hc, hl⟩ := forall_mem_cons.mp hl
    obtain ⟨hf, h⟩ := forall_mem_cons.mp h
    simpa [glob, hc, hf] using ih hl h

/-- **When `glob` keeps its documented layout**: exactly without reserved entries, or if nothing is
found; the paths of a call are sorted. -/
theorem glob_right_iff (g : GlobT) (hfirst : first.append = false)
    (hlater : ∀ c ∈ later, c.append = true) :
    (∀ c : Call, c.listed ~ c.found ∧ (c.nosort = false → c.listed.Pairwise (strcmpLe · ·))) ∧
      (GlobRight g first later ↔
        (first.dooffs = true → g.offs = 0) ∨ total (first :: later) = []) := by
  refine ⟨fun c => ⟨listed_perm, listed_sorted⟩, fun h => ?_, ?_⟩
  · by_contra hno
    simp only [not_or, Classical.not_imp] at hno
    obtain ⟨⟨hd, ho⟩, ht⟩ := hno
    by_cases hf : first.found = []
    · have hs : glob g first = ⟨0, [], g.offs⟩ := by simp [glob, hfirst, hf, hd]
      cases hfi : later.find? (·.found ≠ []) with
      | none =>
        have hn : ∀ c ∈ later, c.found = [] := by simpa using hfi
        exact ht (total_eq_nil_iff.mpr (forall_mem_cons.mpr ⟨hf, hn⟩))
      | some c =>
        obtain ⟨hc, pre, post, rfl, hpre⟩ := find?_eq_some_iff_append.mp hfi
        have he : ∀ c ∈ pre, c.found = [] := by simpa using hpre
        have hfo : (pre ++ [c]).foldl glob ⟨0, [], g.offs⟩ = glob ⟨0, [], g.offs⟩ c := by
          rw [foldl_append, foldl_nothing (fun c hc => hlater c (mem_append_left _ hc)) he]
          rfl
        have hall : total (first :: (pre ++ [c])) = c.listed := by
          have hpre := total_eq_nil_iff.mpr (forall_mem_cons.mpr ⟨hf, he⟩)
          simp only [total, ← cons_append, flatMap_append] at hpre ⊢
          simp [hpre]
        have hc' : c.found ≠ [] := of_decide_eq_true hc
        have hr := (h (pre ++ [c]) ⟨post, by simp⟩).2 (by rwa [hall, Ne, listed_eq_nil_iff])
        rw [hs, hfo, hall] at hr
        exact not_layout_later (hlater c (by simp)) hc' ho hr
    · refine not_layout_first hfirst hd ho hf ?_
      simpa [total, listed_eq_nil_iff, hf] using (h [] nil_prefix).2
  · rintro (ho | hn) pre hpre
    · have happ : ∀ c ∈ pre, c.append = true := fun c hc => hlater c (hpre.subset hc)
      obtain ⟨-, hl | ⟨hz, -, hnil⟩⟩ := plain_foldl happ (plain_first hfirst ho)
      · exact ⟨hl.1, fun _ => hl⟩
      · exact ⟨by rw [hz]; exact (congrArg length hnil).symm, fun hne => absurd hnil hne⟩
    · have hnone : ∀ c ∈ first :: pre, c.found = [] := fun c hc =>
        total_eq_nil_iff.mp hn c (cons_subset_cons first hpre.subset hc)
      obtain ⟨hf, hpre'⟩ := forall_mem_cons.mp hnone
      have hnil := total_eq_nil_iff.mpr hnone
      refine ⟨?_, fun hne => absurd hnil hne⟩
      rw [hnil, foldl_nothing (fun c hc => hlater c (hpre.subset hc)) hpre']
      simp [glob, hfirst, hf]

/-- Two calls that find a path each. -/
theorem glob_right_iff_two :
    (∀ c : Call, c.listed ~ c.found ∧ (c.nosort = false → c.listed.Pairwise (strcmpLe · ·))) ∧
      (GlobRight ⟨7, [], 5⟩ ⟨false, false, false, [['b']]⟩ [⟨true, false, false, [['a']]⟩] ↔
        (false = true → 5 = 0) ∨
          total [⟨false, false, false, [['b']]⟩, ⟨true, false, false, [['a']]⟩] = []) :=
  glob_right_iff ⟨7, [], 5⟩ rfl (by simp)

/-- With one reserved entry, `gl_pathc` counts it, and the next call leaves a gap. -/
theorem glob_counts_reserved :
    glob ⟨0, [], 1⟩ ⟨false, true, true, [['b']]⟩ = ⟨2, [.null, .path ['b'], .null], 1⟩ ∧
      glob ⟨2, [.null, .path ['b'], .null], 1⟩ ⟨true, true, true, [['a']]⟩ =
        ⟨4, [.null, .path ['b'], .null, .path ['a'], .null], 1⟩ := by
  decide

end Glob
