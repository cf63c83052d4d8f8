import Dj64.Lib.Cycles
import Dj64.Exec.Arguments

/-!
# Response files that mention each other

`expand_response_files` calls itself for the arguments that it has read from a file, whatever files
it is in the middle of.
-/

namespace Exec

open Relation Option Set

/-- The argument is replaced by those in a file with the contents `bytes`. -/
def Opens (files : Bytes → Option Bytes) (a : Arg) (bytes : Bytes) : Prop :=
  a.wasQuoted = false ∧ a.arg.head? = some 64 ∧ files (a.arg.drop 1) = some bytes

/-- One of the arguments is replaced by those in a file with the contents `bytes`. -/
def Mentions (files : Bytes → Option Bytes) (args : List Arg) (bytes : Bytes) : Prop :=
  ∃ a ∈ args, Opens files a bytes

/-- A file with the contents `outer` leads to one with the contents `inner`. -/
def Nested (files : Bytes → Option Bytes) (unquote : Bool) (outer inner : Bytes) : Prop :=
  Mentions files (responseArgs unquote outer) inner

variable {files : Bytes → Option Bytes} {unquote : Bool} {args : List Arg} {expand : Bytes → Option
  (List Node)} {bytes : Bytes}

theorem expandResponseFile_isSome_iff {a : Arg} :
    (expandResponseFile files expand a).isSome ↔ ∀ bytes, Opens files a bytes →
      (expand bytes).isSome := by
  rw [expandResponseFile]
  split_ifs with h
  · cases hf : files (a.arg.drop 1) with
    | none =>
      refine iff_of_true rfl fun bytes ho => ?_
      rw [ho.2.2] at hf
      cases hf
    | some bytes =>
      simp only [isSome_map]
      constructor
      · intro hs bytes' ho
        rw [ho.2.2, some_inj] at hf
        rwa [hf]
      · exact fun hall => hall bytes ⟨h.1, h.2, hf⟩
  · refine iff_of_true rfl fun bytes ho => absurd ⟨ho.1, ho.2.1⟩ h

theorem mapM_isSome_iff {α β : Type} {f : α → Option β} {l : List α} :
    (l.mapM f).isSome ↔ ∀ a ∈ l, (f a).isSome := by
  induction l with
  | nil => simp
  | cons a l ih =>
    cases hf : f a with
    | none => simp [hf]
    | some b =>
      cases hl : l.mapM f with
      | none =>
        simpa [hf, hl] using ih
      | some bs =>
        simpa [hf, hl] using ih

theorem expand_list_isSome_iff :
    (args.mapM (expandResponseFile files expand)).isSome ↔
      ∀ bytes, Mentions files args bytes → (expand bytes).isSome := by
  rw [mapM_isSome_iff]
  constructor
  · rintro h bytes ⟨a, ha, ho⟩
    exact expandResponseFile_isSome_iff.mp (h a ha) bytes ho
  · intro h a ha
    exact expandResponseFile_isSome_iff.mpr fun bytes ho => h bytes ⟨a, ha, ho⟩

/-- **The expansion up to a depth.** -/
theorem expandResponseFiles_isSome_iff {depth : ℕ} :
    (expandResponseFiles files unquote depth args).isSome ↔
      ∀ bytes, Mentions files args bytes → ∃ n, depth = n + 1 ∧
        (expandResponseFiles files unquote n (responseArgs unquote bytes)).isSome := by
  cases depth with
  | zero =>
    rw [expandResponseFiles, expand_list_isSome_iff]
    simp
  | succ n =>
    rw [expandResponseFiles, expand_list_isSome_iff]
    simp

theorem mentions_finite : {bytes | Mentions files args bytes}.Finite := by
  refine (args.finite_toSet.image fun a => (files (a.arg.drop 1)).getD []).subset ?_
  rintro bytes ⟨a, ha, -, -, hf⟩
  exact ⟨a, ha, by simp only [hf, getD_some]⟩

theorem expand_file_iff : (∃ depth,
        (expandResponseFiles files unquote depth (responseArgs unquote bytes)).isSome) ↔
      Acc (flip (Nested files unquote)) bytes := by
  refine Cycles.exists_bound_iff_acc (fun depth bytes => (expandResponseFiles files unquote depth
      (responseArgs unquote bytes)).isSome)
    (fun bytes => ?_) (fun n bytes => ?_) fun bytes => mentions_finite
  · rw [expandResponseFiles_isSome_iff]
    simp [Nested]
  · rw [expandResponseFiles_isSome_iff]
    simp [Nested]

theorem expandResponseFiles_mono {m n : ℕ} (hmn : m ≤ n)
    (h : (expandResponseFiles files unquote m args).isSome) :
    (expandResponseFiles files unquote n args).isSome := by
  induction m generalizing n args with
  | zero =>
    rw [expandResponseFiles_isSome_iff] at h ⊢
    intro bytes hm
    obtain ⟨k, hk, -⟩ := h bytes hm
    cases hk
  | succ m ih =>
    rw [expandResponseFiles_isSome_iff] at h ⊢
    intro bytes hm
    obtain ⟨k, hk, hs⟩ := h bytes hm
    obtain ⟨n, rfl⟩ : ∃ l, n = l + 1 := ⟨n - 1, by omega⟩
    obtain rfl : m = k := by omega
    exact ⟨n, rfl, ih (by omega) hs⟩

theorem expand_list_iff :
    (∃ depth, (expandResponseFiles files unquote depth args).isSome) ↔
      ∀ bytes, Mentions files args bytes → Acc (flip (Nested files unquote)) bytes := by
  constructor
  · rintro ⟨depth, h⟩ bytes hm
    obtain ⟨n, -, hs⟩ := expandResponseFiles_isSome_iff.mp h bytes hm
    exact expand_file_iff.mp ⟨n, hs⟩
  intro h
  choose! depth hd using fun bytes hm => expand_file_iff.mpr (h bytes hm)
  obtain ⟨n, hn⟩ := (mentions_finite.image depth).bddAbove
  refine ⟨n + 1, expandResponseFiles_isSome_iff.mpr fun bytes hm => ⟨n, rfl, ?_⟩⟩
  exact expandResponseFiles_mono (hn ⟨bytes, hm, rfl⟩) (hd bytes hm)

theorem reached_finite (hfin : (range files).Finite) :
    {b | ReflTransGen (Nested files unquote) bytes b}.Finite := by
  refine ((hfin.image fun contents => contents.getD []).insert bytes).subset fun b hb => ?_
  rcases ReflTransGen.cases_tail hb with rfl | ⟨c, -, a, -, -, -, hf⟩
  · exact mem_insert _ _
  · exact mem_insert_of_mem _ ⟨some b, ⟨_, hf⟩, rfl⟩

/-- **The expansion of response files comes to an end** if and only if none of the files it comes to
leads back to itself. -/
theorem expand_finishes_iff (files : Bytes → Option Bytes) (hfin : (range files).Finite)
    (unquote : Bool) (args : List Arg) :
    (∃ depth nodes, expandResponseFiles files unquote depth args = some nodes) ↔
      ∀ first, Mentions files args first → ∀ bytes, ReflTransGen
        (Nested files unquote) first bytes →
        ¬ TransGen (Nested files unquote) bytes bytes := by
  simp only [← isSome_iff_exists]
  rw [expand_list_iff]
  refine forall_congr' fun first => imp_congr_right fun _ => ?_
  exact Cycles.acc_iff_acyclic (reached_finite hfin)

/-- The file `a` mentions `b`. -/
def chain (name : Bytes) : Option Bytes :=
  if name = text "a" then some (text "x @b") else if name = text "b" then some (text "y") else none

theorem chain_finite : (range chain).Finite := by
  refine (toFinite {some (text "x @b"), some (text "y"), none}).subset ?_
  rintro - ⟨name, rfl⟩
  unfold chain
  split_ifs <;> simp

/-- The two files are read, and neither leads back to itself. -/
theorem expand_finishes_chain : expandResponseFiles chain true 2 [⟨text "@a", false⟩] =
      some [.file [.plain ⟨text "x", false⟩, .file [.plain ⟨text "y", false⟩]]] ∧
    ∀ first, Mentions chain [⟨text "@a", false⟩] first → ∀ bytes,
      ReflTransGen (Nested chain true) first bytes → ¬ TransGen (Nested chain true) bytes bytes :=
  have hrun : expandResponseFiles chain true 2 [⟨text "@a", false⟩] =
      some [.file [.plain ⟨text "x", false⟩, .file [.plain ⟨text "y", false⟩]]] := by rfl
  ⟨hrun, (expand_finishes_iff chain chain_finite true [⟨text "@a", false⟩]).mp ⟨2, _, hrun⟩⟩

/-- The file `a` mentions itself. -/
def loopFile (name : Bytes) : Option Bytes := if name = text "a" then some (text "@a") else none

/-- One file that mentions itself is expanded without end. -/
theorem expand_never_finishes : (range loopFile).Finite ∧
    ∀ depth, expandResponseFiles loopFile true depth [⟨text "@a", false⟩] = none := by
  constructor
  · refine (toFinite {some (text "@a"), none}).subset ?_
    rintro - ⟨name, rfl⟩
    unfold loopFile
    split_ifs <;> simp
  intro depth
  have ha : responseArgs true (text "@a") = [⟨text "@a", false⟩] := by decide
  have hf : loopFile ((text "@a").drop 1) = some (text "@a") := by decide
  have ho : Opens loopFile ⟨text "@a", false⟩ (text "@a") := ⟨rfl, rfl, hf⟩
  induction depth with
  | zero => rfl
  | succ depth ih =>
    rw [← not_isSome_iff_eq_none, expandResponseFiles_isSome_iff]
    intro h
    obtain ⟨n, hn, hs⟩ := h (text "@a") ⟨_, List.mem_singleton_self _, ho⟩
    obtain rfl : depth = n := by omega
    rw [ha, ih] at hs
    cases hs

end Exec
