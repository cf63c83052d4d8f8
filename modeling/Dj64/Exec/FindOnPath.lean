import Dj64.Lib.Buffers
import Dj64.Exec.CommandLines

/-!
# The search for a program

`__dosexec_find_on_path` tries a name with several extensions, first as it is given and then in the
directories of `PATH`, in a buffer of `FILENAME_MAX` bytes.
-/

namespace Exec.FindOnPath

open Buffers Runs List Bool

def filenameMax : ℕ := 260

/-- `interpreters`, up to the first null pointer: the extensions, and `INTERP_FLAG_SKIP_SEARCH`. -/
def interpreters : List (Bytes × Bool) :=
  [(text ".com", false), (text ".exe", false), (text ".bat", false), (text ".btm", false),
    (text ".sh", true), (text ".ksh", true), (text ".pl", true), (text ".sed", true), ([], false)]

/-- What the function finds in the file system: whether there is a file of a name that is not a
directory, and whether there are long file names where it is. -/
structure Files where
  runs : Bytes → Bool
  useLfn : Bytes → Bool

/-- A store outside of the buffer, or a search that does not end in the number of rounds given to
it. -/
inductive Fault where
  | overrun
  | rounds
  deriving DecidableEq, Repr

/-! ### The function -/

/-- The loop over the extensions: what is in the buffer then, and whether that is a program. -/
def tryExtensions (fs : Files) (rp : Bytes) : List Bytes → Bytes → Except Fault (Bytes × Bool)
  | [], buf => .ok (buf, false)
  | extension :: exts, _ => do
    let buf ← puts .overrun filenameMax rp extension
    let buf ← terminate .overrun filenameMax buf
    if fs.runs buf then .ok (buf, true) else tryExtensions fs rp exts buf

/-- A name with the extensions, if they are tried, and then what is in the buffer. -/
def lookup (fs : Files) (tries : Bool) (exts : List Bytes) (rp : Bytes) :
    Except Fault (Option Bytes) := do
  let (buf, found) ← tryExtensions fs rp (if tries then exts else []) rp
  return if found || fs.runs buf then some buf else none

/-- The characters `/`, `\` and `:`. -/
def isSeparator (c : UInt8) : Bool := c == 47 || c == 92 || c == 58

/-- The loop over the name: `has_dot` and `has_path`. -/
def scanName : Bytes → Bool × Bool → Bool × Bool
  | [], r => r
  | c :: ptr, (hasDot, hasPath) =>
    if isSeparator c then scanName ptr (false, true) else scanName ptr (hasDot || c == 46, hasPath)

@[inherit_doc scanName] def hasDot (program : Bytes) : Bool := (scanName program (false, false)).1

@[inherit_doc scanName] def hasPath (program : Bytes) : Bool := (scanName program (false, false)).2

def searched : List Bytes := (interpreters.filter fun i => !i.2).map (·.1)

/-- The extensions of the search in the directories of `PATH`. -/
def extensions : List Bytes := interpreters.map (·.1)

/-- The last value of `PATH` in an environment. -/
def pathOf (envp : List Bytes) : Option Bytes :=
  (envp.reverse.find? (text "PATH=").isPrefixOf).map (·.drop 5)

def needsSlash (dir : Bytes) : Bool := dir.getLast?.any fun c => !isSeparator c

/-- The loop over the directories, in at most `rounds` rounds. -/
def pathLoop (fs : Files) (program : Bytes) : ℕ → Bool → Bytes → Except Fault (Option Bytes)
  | 0, _, _ => .error .rounds
  | rounds + 1, triedDot, pp => do
    let rp ← puts .overrun filenameMax [] (if triedDot then pp.takeWhile (· != 59) else [])
    let rp ← putIf .overrun filenameMax (needsSlash rp) rp 47
    let rp ← puts .overrun filenameMax rp program
    let rp ← terminate .overrun filenameMax rp
    match ← lookup fs (!hasDot program || fs.useLfn rp) extensions rp with
    | some buf => return some buf
    | none =>
      match if triedDot then pp.dropWhile (· != 59) else pp with
      | [] => return none
      | _ :: pe => pathLoop fs program rounds true (if triedDot then pe else pp)

/-- `__dosexec_find_on_path`; `none` is `NULL`. -/
def findOnPath (fs : Files) (program : Bytes) (envp : Option (List Bytes)) :
    Except Fault (Option Bytes) :=
  if filenameMax - 1 < program.length then .ok none
  else do
    let rp ← puts .overrun filenameMax [] program
    let rp ← terminate .overrun filenameMax rp
    match ← lookup fs (!hasDot program || fs.useLfn program) searched rp with
    | some buf => return some buf
    | none =>
      if hasPath program then return none
      else
        match envp.bind pathOf with
        | none => return none
        | some pp => pathLoop fs program (pp.length + 2) false pp

/-! ### The names that are tried -/

def spellings (tries : Bool) (exts : List Bytes) (name : Bytes) : List Bytes :=
  (if tries then exts.map (name ++ ·) else []) ++ [name]

/-- A directory of `PATH` in front of a name. -/
def inFront (dir : Bytes) : Bytes := if needsSlash dir then dir ++ [47] else dir

/-- The directories of `PATH`, as they stand in front of a name. -/
def pathDirs (pp : Bytes) : List Bytes := if pp = [] then [] else (pp.splitOn 59).map inFront

/-- The directories that are searched: the current one, and for a name without a path those of
`PATH`. -/
def directories (program : Bytes) (envp : Option (List Bytes)) : List Bytes :=
  [] :: if hasPath program then [] else ((envp.bind pathOf).map pathDirs).getD []

/-- A name in a directory of `PATH`. -/
def spelled (fs : Files) (program dir : Bytes) : List Bytes :=
  spellings (!hasDot program || fs.useLfn (dir ++ program)) extensions (dir ++ program)

def searches (program : Bytes) (envp : Option (List Bytes)) : Bool :=
  !hasPath program && (envp.bind pathOf).isSome

/-- The names that the function tries, in order. -/
def names (fs : Files) (program : Bytes) (envp : Option (List Bytes)) : List Bytes :=
  spellings (!hasDot program || fs.useLfn program) searched program ++
    if searches program envp then (directories program envp).flatMap (spelled fs program) else []

/-- A search in a list of names. -/
def search (fs : Files) : List Bytes → Except Fault (Option Bytes)
  | [] => .ok none
  | name :: names =>
    if name.length < filenameMax then if fs.runs name then .ok (some name) else search fs names
    else .error .overrun

section

variable {fs : Files} {program name : Bytes} {l l' exts : List Bytes}

theorem search_append : search fs (l ++ l') = search fs l >>= fun r =>
      match r with
      | some buf => .ok (some buf)
      | none => search fs l' := by
  induction l with
  | nil => rfl
  | cons name l ih =>
    rw [cons_append, search, search]
    split_ifs
    · rfl
    · exact ih
    · rfl

def tried (fs : Files) (l : List Bytes) : List Bytes :=
  l.takeWhile (fun name => !fs.runs name) ++ (l.find? fs.runs).toList

/-- **A search** finds the first name of a program, if the names up to it fit in the buffer. -/
theorem search_eq :
    ((∀ name ∈ tried fs l, name.length < filenameMax) ∧ search fs l = .ok (l.find? fs.runs)) ∨
      (¬ ∀ name ∈ tried fs l, name.length < filenameMax) ∧ search fs l = .error .overrun := by
  induction l with
  | nil => exact .inl ⟨by simp [tried], rfl⟩
  | cons name l ih =>
    rw [search]
    cases hr : fs.runs name with
    | true =>
      have ht : tried fs (name :: l) = [name] := by simp [tried, hr]
      rw [ht, find?_cons_of_pos hr]
      simp only [mem_singleton, forall_eq]
      by_cases hlt : name.length < filenameMax
      · exact .inl ⟨hlt, by rw [if_pos hlt]; rfl⟩
      · exact .inr ⟨hlt, if_neg hlt⟩
    | false =>
      have hnot : ¬ fs.runs name := by rw [hr]; exact false_ne_true
      have ht : tried fs (name :: l) = name :: tried fs l := by simp [tried, hr]
      rw [ht, find?_cons_of_neg hnot]
      simp only [forall_mem_cons]
      by_cases hlt : name.length < filenameMax
      · rw [if_pos hlt]
        exact ih.imp (fun h => ⟨⟨hlt, h.1⟩, h.2⟩) fun h => ⟨fun hall => h.1 hall.2, h.2⟩
      · exact .inr ⟨fun hall => hlt hall.1, if_neg hlt⟩

variable {rp dir w dir' ext c buf : Bytes}

/-- The loop over the extensions is a search, after which the last extension is in the buffer. -/
theorem tryExtensions_eq (hrp : rp.length < filenameMax) :
    tryExtensions fs rp exts buf = search fs (exts.map (rp ++ ·)) >>= fun r =>
      match r with
      | some name => .ok (name, true)
      | none => .ok ((exts.getLast?.map (rp ++ ·)).getD buf, false) := by
  induction exts generalizing buf with
  | nil => rfl
  | cons extension exts ih =>
    rw [tryExtensions, ← bind_assoc, puts_terminate_eq hrp.le, map_cons, search, length_append]
    by_cases hlt : rp.length + extension.length < filenameMax
    · rw [if_pos hlt, if_pos hlt, ok_bind]
      cases hr : fs.runs (rp ++ extension) with
      | true => rfl
      | false =>
        rw [if_neg Bool.false_ne_true, if_neg Bool.false_ne_true, ih]
        congr 1
        funext r
        cases r with
        | some name => rfl
        | none => cases exts <;> simp [getLast?_cons]
    · rw [if_neg hlt, if_neg hlt]
      rfl

variable {exts dirs : List Bytes} {envp : Option (List Bytes)}

theorem lookup_eq (hrp : rp.length < filenameMax) (tries : Bool) (he : exts.getLast? = some []) :
    lookup fs tries exts rp = search fs (spellings tries exts rp) := by
  have hl : ((if tries then exts else []).getLast?.map (rp ++ ·)).getD rp = rp := by
    cases tries with
    | false => rfl
    | true => simp [he]
  have hmap : (if tries then exts else []).map (rp ++ ·) = if tries then
    exts.map (rp ++ ·) else [] := by
    cases tries <;> rfl
  rw [lookup, tryExtensions_eq hrp, hl, hmap, spellings, search_append, bind_assoc]
  congr 1
  funext r
  cases r with
  | some name => rfl
  | none =>
    rw [ok_bind, search, if_pos hrp]
    cases hr : fs.runs rp with
    | true => simp [hr, pure, Except.pure]
    | false => simp [hr, search, pure, Except.pure]

theorem search_spellings_error (hrp : ¬ rp.length < filenameMax) (tries : Bool)
    (exts : List Bytes) : search fs (spellings tries exts rp) = .error .overrun := by
  rw [spellings]
  cases tries with
  | false => exact if_neg hrp
  | true =>
    cases exts with
    | nil => exact if_neg hrp
    | cons extension exts =>
      rw [if_pos rfl, map_cons, cons_append, search, if_neg]
      rw [length_append]
      omega

theorem length_inFront (dir : Bytes) :
    (inFront dir).length = dir.length + (if needsSlash dir then [47] else ([] : Bytes)).length := by
  rw [inFront]
  split_ifs <;> simp

/-- A directory and the name behind it are looked up. -/
theorem round_eq (dir : Bytes) {β : Type} (k : Option Bytes → Except Fault β) : (do
      let rp ← puts .overrun filenameMax [] dir
      let rp ← putIf .overrun filenameMax (needsSlash rp) rp 47
      let rp ← puts .overrun filenameMax rp program
      let rp ← terminate .overrun filenameMax rp
      let r ← lookup fs (!hasDot program || fs.useLfn rp) extensions rp
      k r) = search fs (spelled fs program (inFront dir)) >>= k := by
  have hlen := length_inFront dir
  rw [spelled]
  by_cases hdir : dir.length ≤ filenameMax
  · rw [puts_ok (by simpa using hdir), ok_bind, nil_append]
    have hrp : dir ++ ((if needsSlash dir then [47] else []) ++ program) =
      inFront dir ++ program := by
      rw [inFront]
      split_ifs <;> simp
    simp only [putIf_eq_puts, ← bind_assoc, ← puts_append]
    rw [puts_terminate_eq hdir, hrp]
    have hf : dir.length + ((if needsSlash dir then [47] else ([] : Bytes)) ++ program).length =
        (inFront dir ++ program).length := by
      rw [length_append, length_append]
      omega
    rw [hf]
    split_ifs with hlt
    · rw [ok_bind, lookup_eq hlt]
      rfl
    · rw [search_spellings_error hlt]
      rfl
  · rw [puts_error (Nat.zero_le _) (by simpa using hdir), error_bind, search_spellings_error]
    · rfl
    · rw [length_append]
      omega

theorem splitOn_eq (pp : Bytes) : pp.splitOn 59 = pp.takeWhile (· != 59) ::
      match pp.dropWhile (· != 59) with
      | [] => []
      | _ :: pe => pe.splitOn 59 := by
  induction pp with
  | nil => rfl
  | cons c pp ih =>
    rw [splitOn, splitOnP_cons_eq_if_modifyHead]
    by_cases hc : c = 59
    · simp [hc, splitOn]
    · rw [splitOn] at ih
      simp [hc, ih]

/-- The directories of `PATH`, one after the other. -/
theorem pathLoop_eq (rounds : ℕ) (pp : Bytes) (h : pp.length < rounds) :
    pathLoop fs program rounds true pp =
      search fs ((pp.splitOn 59).flatMap fun dir => spelled fs program (inFront dir)) := by
  induction rounds generalizing pp with
  | zero => exact absurd h (Nat.not_lt_zero _)
  | succ rounds ih =>
    rw [pathLoop, splitOn_eq, flatMap_cons, search_append]
    refine (round_eq _ _).trans ?_
    congr 1
    funext r
    cases r with
    | some buf => rfl
    | none =>
      have hlen := (dropWhile_suffix (l := pp) (· != 59)).length_le
      cases hpe : pp.dropWhile (· != 59) with
      | nil => rfl
      | cons c pe =>
        rw [hpe, length_cons] at hlen
        exact ih pe (by omega)

theorem pathLoop_start (pp : Bytes) : pathLoop fs program (pp.length + 2) false pp =
      search fs (([] :: pathDirs pp).flatMap (spelled fs program)) := by
  rw [pathLoop, flatMap_cons, search_append]
  refine (round_eq [] _).trans ?_
  congr 1
  funext r
  cases r with
  | some buf => rfl
  | none =>
    rw [if_neg Bool.false_ne_true, pathDirs]
    cases pp with
    | nil => rfl
    | cons c pe =>
      dsimp only
      rw [if_neg (cons_ne_nil c pe), if_neg Bool.false_ne_true, flatMap_map]
      exact pathLoop_eq _ _ (Nat.lt_succ_self _)

/-- **The function is a search** in the list of the names that it tries. -/
theorem findOnPath_eq (h : program.length < filenameMax) :
    findOnPath fs program envp = search fs (names fs program envp) := by
  rw [findOnPath, if_neg (by omega), puts_ok (by simpa using h.le), ok_bind, nil_append,
    terminate_ok h, ok_bind, lookup_eq h _ (by decide), names, search_append]
  congr 1
  funext r
  cases r with
  | some buf => rfl
  | none =>
    rw [searches, directories]
    cases hp : hasPath program with
    | true => rfl
    | false =>
      cases hpp : envp.bind pathOf with
      | none => rfl
      | some pp => exact pathLoop_start pp

/-! ### The documented order -/

/-- The names in the documented order: in each directory the name with every extension of the table,
or the name itself if it has an extension. -/
def candidates (program : Bytes) (envp : Option (List Bytes)) : List Bytes :=
  (directories program envp).flatMap fun dir =>
    if hasDot program then [dir ++ program] else extensions.map (dir ++ program ++ ·)

def skipped : List Bytes := (interpreters.filter fun i => i.2).map (·.1)

def leading : List Bytes := [text ".com", text ".exe", text ".bat", text ".btm"]

/-- The two orders come to the same program. For a name with an extension: the first name that is
tried and found is not one with another extension behind it. For other names: there is a program
with one of the leading extensions in the current directory, or none with a skipped one, or there
the name itself is not a program and the directories are searched. -/
def Regular (fs : Files) (program : Bytes) (envp : Option (List Bytes)) : Prop :=
  if hasDot program then
    ∀ name, (names fs program envp).find? fs.runs = some name → name ∈ candidates program envp
  else
    (∃ ext ∈ leading, fs.runs (program ++ ext) = true) ∨
      (∀ ext ∈ skipped, fs.runs (program ++ ext) = false) ∨
      fs.runs program = false ∧ searches program envp = true

section

variable {envp : Option (List Bytes)} {tries : Bool}

theorem directories_of_not_searches (h : searches program envp = false) :
    directories program envp = [[]] := by
  rw [searches, and_eq_false_iff] at h
  rw [directories]
  cases hp : hasPath program with
  | true => rfl
  | false =>
    rw [hp] at h
    have hn : envp.bind pathOf = none := by simpa using h
    rw [hn]
    rfl

theorem find_spelled (hdot : hasDot program = false) :
    (spelled fs program dir).find? fs.runs =
      (extensions.map (dir ++ program ++ ·)).find? fs.runs := by
  rw [spelled, spellings, hdot, Bool.not_false, Bool.true_or, if_pos rfl, find?_append]
  cases hf : (extensions.map (dir ++ program ++ ·)).find? fs.runs with
  | some name => rfl
  | none =>
    have hn := find?_eq_none.mp hf (dir ++ program) (mem_map.mpr ⟨[], by decide, append_nil _⟩)
    rw [Option.none_or, find?_cons_of_neg hn]
    rfl

theorem find_flatMap_congr {α β : Type} {p : β → Bool} {f g : α → List β} {l : List α}
    (h : ∀ a ∈ l, (f a).find? p = (g a).find? p) :
    (l.flatMap f).find? p = (l.flatMap g).find? p := by
  induction l with
  | nil => rfl
  | cons a l ih =>
    rw [flatMap_cons, flatMap_cons, find?_append, find?_append,
      h a (.head _), ih (forall_mem_cons.mp h).2]

/-- **Names without an extension.** -/
theorem find_names_iff (hdot : hasDot program = false) :
    (names fs program envp).find? fs.runs = (candidates program envp).find? fs.runs ↔
      Regular fs program envp := by
  obtain ⟨rest, hre, hnil⟩ : ∃ rest, candidates program envp =
      leading.map (program ++ ·) ++ (skipped.map (program ++ ·) ++ ([program] ++ rest)) ∧
        (searches program envp = false → rest = []) := by
    rw [candidates]
    simp only [hdot, Bool.false_eq_true, if_false]
    refine ⟨(directories program envp).tail.flatMap fun dir => extensions.map (dir ++ program ++ ·),
      ?_, fun h => by rw [directories_of_not_searches h]; rfl⟩
    have hc : extensions.map ([] ++ program ++ ·) =
        leading.map (program ++ ·) ++ (skipped.map (program ++ ·) ++ [program]) := by
      rw [show extensions = leading ++ (skipped ++ [[]]) from rfl]
      simp
    rw [directories, flatMap_cons, hc, tail_cons]
    simp only [append_assoc]
  have hd : ((directories program envp).flatMap (spelled fs program)).find? fs.runs =
      (candidates program envp).find? fs.runs := by
    rw [candidates]
    simp only [hdot, Bool.false_eq_true, if_false]
    exact find_flatMap_congr fun dir _ => find_spelled hdot
  have hf : (spellings (!hasDot program || fs.useLfn program) searched program).find? fs.runs =
      ((leading.map (program ++ ·)).find? fs.runs).or ([program].find? fs.runs) := by
    rw [spellings, hdot, Bool.not_false, Bool.true_or, if_pos rfl,
      show searched = leading ++ [[]] from rfl, map_append, find?_append, find?_append,
      map_singleton, append_nil, Option.or_assoc, Option.or_self]
  have hn : (names fs program envp).find? fs.runs =
      (((leading.map (program ++ ·)).find? fs.runs).or ([program].find? fs.runs)).or
        (if searches program envp then (candidates program envp).find? fs.runs else none) := by
    rw [names, find?_append, hf]
    cases searches program envp with
    | true => rw [if_pos rfl, if_pos rfl, hd]
    | false => rfl
  rw [Regular, hdot, if_neg Bool.false_ne_true, hn, hre, find?_append, find?_append, find?_append]
  cases hl : (leading.map (program ++ ·)).find? fs.runs with
  | some name =>
    obtain ⟨ext, hext, rfl⟩ := mem_map.mp (mem_of_find?_eq_some hl)
    exact iff_of_true rfl (.inl ⟨ext, hext, find?_some hl⟩)
  | none =>
    have hno : ¬ ∃ ext ∈ leading, fs.runs (program ++ ext) := by
      rintro ⟨ext, hext, hr⟩
      exact find?_eq_none.mp hl _ (mem_map_of_mem hext) hr
    rw [or_iff_right hno, Option.none_or, Option.none_or]
    cases hs : (skipped.map (program ++ ·)).find? fs.runs with
    | none =>
      have hall : ∀ ext ∈ skipped, fs.runs (program ++ ext) = false := fun ext hext => by
        simpa using find?_eq_none.mp hs _ (mem_map_of_mem hext)
      refine iff_of_true ?_ (.inl hall)
      cases hse : searches program envp with
      | true => rw [if_pos rfl, Option.none_or, ← Option.or_assoc, Option.or_self]
      | false =>
        rw [if_neg Bool.false_ne_true, hnil hse]
        rfl
    | some name =>
      obtain ⟨ext, hext, rfl⟩ := mem_map.mp (mem_of_find?_eq_some hs)
      have hne : program ≠ program ++ ext := by
        have hlen : ∀ ext ∈ skipped, ext ≠ [] := by decide
        intro heq
        exact hlen ext hext (self_eq_append_right.mp heq)
      have hr := find?_some hs
      have hnot : ¬ ∀ ext ∈ skipped, fs.runs (program ++ ext) = false := fun hall => by
        rw [hall ext hext] at hr
        cases hr
      rw [or_iff_right hnot, Option.some_or]
      cases hp : fs.runs program with
      | true => simp [hp, hne]
      | false =>
        rw [find?_cons_of_neg (by rw [hp]; exact Bool.false_ne_true)]
        cases searches program envp <;> simp

/-! ### Names with an extension -/

def Ends (dir : Bytes) : Prop := dir = [] ∨ ∃ init c, dir = init ++ [c] ∧ isSeparator c = true

theorem ends_inFront : Ends (inFront dir) := by
  rw [inFront]
  split_ifs with hs
  · exact .inr ⟨dir, 47, rfl, rfl⟩
  · rcases eq_nil_or_concat dir with rfl | ⟨init, c, rfl⟩
    · exact .inl rfl
    · refine .inr ⟨init, c, concat_eq_append .., ?_⟩
      simpa [needsSlash] using hs

theorem ends_of_mem (h : dir ∈ directories program envp) : Ends dir := by
  rw [directories, mem_cons] at h
  rcases h with rfl | h
  · exact .inl rfl
  split_ifs at h with hp
  · cases h
  cases hpp : envp.bind pathOf with
  | none =>
    rw [hpp] at h
    cases h
  | some pp =>
    rw [hpp] at h
    change dir ∈ pathDirs pp at h
    rw [pathDirs] at h
    split_ifs at h with he
    · cases h
    · obtain ⟨e, -, rfl⟩ := mem_map.mp h
      exact ends_inFront

theorem takeWhile_reverse (hdir : Ends dir) (hw : ∀ c ∈ w, isSeparator c = false) :
    (dir ++ w).reverse.takeWhile (fun c => !isSeparator c) = w.reverse := by
  rw [reverse_append, takeWhile_append_of_pos]
  · rcases hdir with rfl | ⟨init, c, rfl, hc⟩
    · simp
    · simp [hc]
  · intro c hc
    rw [hw c (mem_reverse.mp hc)]
    rfl

theorem not_separator_of_scan {r : Bool × Bool} (h : (scanName program r).2 = false) :
    r.2 = false ∧ ∀ c ∈ program, isSeparator c = false := by
  induction program generalizing r with
  | nil => exact ⟨h, nofun⟩
  | cons c ptr ih =>
    rw [scanName] at h
    cases hc : isSeparator c with
    | true =>
      rw [hc, if_pos rfl] at h
      cases (ih h).1
    | false =>
      rw [hc, if_neg Bool.false_ne_true] at h
      obtain ⟨hr, hptr⟩ := ih h
      refine ⟨hr, fun c' hc' => ?_⟩
      rcases mem_cons.mp hc' with rfl | hc'
      · exact hc
      · exact hptr c' hc'

/-- A name with another extension is not a name in one of the directories. -/
theorem extended_ne (hdir : dir ∈ directories program envp)
    (hd' : dir' ∈ directories program envp) (hext : ext ∈ extensions) (hne : ext ≠ []) :
    dir ++ program ++ ext ≠ dir' ++ program := by
  intro heq
  cases hpa : hasPath program with
  | true =>
    have hnil : directories program envp = [[]] := by rw [directories, hpa]; rfl
    rw [hnil, mem_singleton] at hdir hd'
    rw [hdir, hd'] at heq
    exact hne (append_right_eq_self.mp heq)
  | false =>
    have hp := (not_separator_of_scan hpa).2
    have he : ∀ ext ∈ extensions, ∀ c ∈ ext, isSeparator c = false := by decide +kernel
    have hn : ∀ c ∈ program ++ ext, isSeparator c = false := by
      intro c hc
      rcases mem_append.mp hc with hc | hc
      · exact hp c hc
      · exact he ext hext c hc
    have hr := takeWhile_reverse (ends_of_mem hdir) hn
    rw [← append_assoc, heq, takeWhile_reverse (ends_of_mem hd') hp,
      reverse_inj, self_eq_append_right] at hr
    exact hne hr

theorem find_spellings (h : (spellings tries exts name).find? fs.runs = some c) :
    (c = name ∧ fs.runs name) ∨ ∃ ext ∈ exts, ext ≠ [] ∧ c = name ++ ext := by
  have hmem := mem_of_find?_eq_some h
  have hr := find?_some h
  rw [spellings, mem_append, mem_singleton] at hmem
  rcases hmem with hmem | rfl
  · cases tries with
    | false => cases hmem
    | true =>
      obtain ⟨ext, hext, rfl⟩ := mem_map.mp hmem
      by_cases hnil : ext = []
      · rw [hnil, append_nil] at hr ⊢
        exact .inl ⟨rfl, hr⟩
      · exact .inr ⟨ext, hext, hnil, rfl⟩
  · exact .inl ⟨rfl, hr⟩

theorem not_runs_of_find_spellings
    (h : (spellings tries exts name).find? fs.runs = none) : fs.runs name = false := by
  simpa using find?_eq_none.mp h name (mem_append_right _ (mem_singleton_self _))

/-- If what is found in the directories is a name in one of them, it is the first one. -/
theorem find_dirs (hdi : ∀ dir ∈ dirs, dir ∈ directories program envp)
    {c : Option Bytes} (h : (dirs.flatMap (spelled fs program)).find? fs.runs = c)
    (hc : ∀ name, c = some name → ∃ dir ∈ directories program envp, name = dir ++ program) :
    (dirs.map (· ++ program)).find? fs.runs = c := by
  induction dirs with
  | nil => exact h
  | cons dir dirs ih =>
    rw [flatMap_cons, find?_append] at h
    rw [map_cons]
    cases hf : (spelled fs program dir).find? fs.runs with
    | none =>
      rw [hf, Option.none_or] at h
      have hnot := not_runs_of_find_spellings hf
      rw [find?_cons_of_neg (by rw [hnot]; exact false_ne_true)]
      exact ih (forall_mem_cons.mp hdi).2 h
    | some name =>
      rw [hf, Option.some_or] at h
      subst h
      obtain ⟨dir', hd', heq⟩ := hc name rfl
      rcases find_spellings hf with ⟨rfl, hr⟩ | ⟨ext, hext, hne, hn⟩
      · exact find?_cons_of_pos hr
      · exact absurd (hn.symm.trans heq) (extended_ne (hdi dir (.head _)) hd' hext hne)

/-- **Names with an extension.** -/
theorem find_names_dot_iff (hdot : hasDot program) :
    (names fs program envp).find? fs.runs = (candidates program envp).find? fs.runs ↔
      Regular fs program envp := by
  have hc : candidates program envp = (directories program envp).map (· ++ program) := by
    rw [candidates]
    simp only [hdot]
    exact flatMap_pure_eq_map ..
  rw [Regular, if_pos hdot]
  constructor
  · intro heq name hn
    rw [heq] at hn
    exact mem_of_find?_eq_some hn
  intro h
  have hmem : ∀ name, (names fs program envp).find? fs.runs = some name →
      ∃ dir ∈ directories program envp, name = dir ++ program := by
    intro name hn
    have hn := h name hn
    rw [hc, mem_map] at hn
    obtain ⟨dir, hdir, rfl⟩ := hn
    exact ⟨dir, hdir, rfl⟩
  have hcu : [] ∈ directories program envp := .head _
  rw [hc]
  rw [names, find?_append] at hmem ⊢
  cases hf : (spellings (!hasDot program || fs.useLfn program) searched program).find? fs.runs with
  | some name =>
    rw [hf] at hmem
    rcases find_spellings hf with ⟨rfl, hr⟩ | ⟨ext, hext, hne, hn⟩
    · exact (find?_cons_of_pos hr).symm
    · obtain ⟨dir, hdir, heq⟩ := hmem name rfl
      have hsub : ∀ ext ∈ searched, ext ∈ extensions := by decide
      exact absurd (hn.symm.trans heq) (extended_ne hcu hdir (hsub ext hext) hne)
  | none =>
    rw [hf] at hmem
    cases hs : searches program envp with
    | true =>
      rw [hs] at hmem
      exact (find_dirs (fun _ hdir => hdir) rfl hmem).symm
    | false =>
      have hnot := not_runs_of_find_spellings hf
      rw [directories_of_not_searches hs]
      rw [map_cons, nil_append, find?_cons_of_neg]
      · rfl
      · rw [hnot]
        exact false_ne_true

theorem find_eq_iff :
    (names fs program envp).find? fs.runs = (candidates program envp).find? fs.runs ↔
      Regular fs program envp := by
  cases hdot : hasDot program with
  | true => exact find_names_dot_iff hdot
  | false => exact find_names_iff hdot

end

end

def ofNames (l : List Bytes) : Files := ⟨fun name => l.contains name, fun _ => false⟩

end Exec.FindOnPath
