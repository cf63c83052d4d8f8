import Dj64.Lib.Buffers
import Dj64.Exec.CommandLines
import Dj64.Stdlib.EnvironMap

/-!
# The environment file

`__crt0_load_environment_file` reads the file that the variable `DJGPP` names, and builds a string
for `putenv` from each line of the sections for all programs and for this one.
-/

namespace EnvironFile

open Buffers Exec Runs List Nat

/-- A store behind the buffer, or a read behind the terminator of the line. -/
inductive Fault where
  | buf
  | line
  deriving DecidableEq, Repr

/-- The environment, as far as it is used. -/
structure Calls (E : Type) where
  getenv : E → Bytes → Option Bytes
  putenv : E → Bytes → E

/-! ### A line -/

/-- The letters between `%` and the name of a variable. -/
structure Flags where
  dirpart : Bool
  apsemi : Bool
  mapup : Bool
  maplow : Bool
  mapfs : Bool
  mapbs : Bool
  deriving DecidableEq

def noFlags : Flags := ⟨false, false, false, false, false, false⟩

/-- The loop over the flags, with what follows `sp`. `strchr` also finds the terminator of the line;
the test after that reads what is behind it. -/
def readFlags (f : Flags) : Bytes → Except Fault (Flags × Bytes)
  | [] => .error .line
  | c :: sp =>
    if c = 58 then readFlags { f with dirpart := true } sp
    else if c = 59 then readFlags { f with apsemi := true } sp
    else if c = 47 then readFlags { f with mapfs := true } sp
    else if c = 92 then readFlags { f with mapbs := true } sp
    else if c = 60 then readFlags { f with mapup := true } sp
    else if c = 62 then readFlags { f with maplow := true } sp
    else .ok (f, c :: sp)

/-- `toupper` of the C locale. -/
def toupper (c : UInt8) : UInt8 := if 97 ≤ c ∧ c ≤ 122 then c - 32 else c

/-- A character of a value. -/
def Flags.map (f : Flags) (ec : UInt8) : UInt8 :=
  let ec := if f.mapup then toupper ec else ec
  let ec := if f.maplow then tolower ec else ec
  let ec := if f.mapfs ∧ ec = 92 then 47 else ec
  if f.mapbs ∧ ec = 47 then 92 else ec

def isSeparator (ec : UInt8) : Bool := ec == 92 || ec == 47 || ec == 58

/-- The loop over a value; `dirend` is where its last separator is. -/
def copyValue (size : ℕ) (f : Flags) : Bytes → ℕ → Bytes → Except Fault (Bytes × ℕ)
  | out, dirend, [] => .ok (out, dirend)
  | out, dirend, ec :: e => do
    let dirend := if isSeparator ec then out.length else dirend
    let out ← put Fault.buf size out (f.map ec)
    copyValue size f out dirend e

/-- What a reference stands for. -/
def reference (size : ℕ) (f : Flags) (out : Bytes) (e : Option Bytes) : Except Fault Bytes := do
  let (out, dirend) ← match e with
    | some e => copyValue size f out out.length e
    | none => .ok (out, out.length)
  let out := if f.dirpart then out.take dirend else out
  if f.apsemi ∧ e.isSome then put Fault.buf size out 59 else .ok out

/-- The loop over the value in a line; each round takes a character, so that `fuel` bounds the
rounds. -/
def expandLoop (size : ℕ) (getenv : Bytes → Option Bytes) : ℕ → Bytes → Bytes → Except Fault Bytes
  | 0, out, _ => .ok out
  | _ + 1, out, [] => .ok out
  | fuel + 1, out, c :: sp =>
    if c ≠ 37 then do
      let out ← put Fault.buf size out c
      expandLoop size getenv fuel out sp
    else if sp.head? = some 37 then do
      let out ← put Fault.buf size out 37
      expandLoop size getenv fuel out (sp.drop 1)
    else do
      let (f, sp) ← readFlags noFlags sp
      let out ← reference size f out (getenv (sp.takeWhile (· != 37)))
      match sp.dropWhile (· != 37) with
      | [] => .ok out
      | _ :: sp => expandLoop size getenv fuel out sp

/-- The name at the start of a line. -/
def nameLoop (size : ℕ) : Bytes → Bytes → Except Fault (Bytes × Bytes)
  | out, [] => .ok (out, [])
  | out, c :: sp =>
    if c = 61 ∨ c = 10 then .ok (out, c :: sp)
    else do
      let out ← put Fault.buf size out c
      nameLoop size out sp

/-- What follows a plus sign at the start of the buffer. In front of an empty name, which leaves the
buffer as it was, `stale` is what follows one there. -/
def afterPlus (name : Bytes) (stale : Option Bytes) : Option Bytes :=
  match name with
  | [] => stale
  | c :: name => if c = 43 then some name else none

/-- A line of a section that counts. -/
def buildLine {E : Type} (calls : Calls E) (size : ℕ) (env : E) (line : Bytes)
    (stale : Option Bytes) :
    Except Fault E := do
  let (out, sp) ← nameLoop size [] line
  match sp with
  | [] => .ok env
  | c :: sp =>
    if c = 10 then .ok env
    else
      let plus := afterPlus out stale
      -- the terminator behind the name is stored before the variable is looked up
      if plus.isSome ∧ size ≤ out.length then .error .buf
      else if (plus.bind (calls.getenv env)).isSome then .ok env
      else
        let out ← put Fault.buf size out c
        let out ← expandLoop size (calls.getenv env) sp.length out sp
        let _ ← put Fault.buf size out 0
        return calls.putenv env (if plus.isSome then out.drop 1 else out)

/-! ### The file -/

/-- The environment, and whether the section is one for this program. -/
structure State (E : Type) where
  env : E
  thisProg : Bool

def isBlank (c : UInt8) : Bool := c == 32 || c == 9

/-- A line, with what is in the buffer for it. -/
def step {E : Type} (calls : Calls E) (size : ℕ) (base : Bytes) (s : State E)
    (l : Bytes × Option Bytes) :
    Except Fault (State E) :=
  if l.1.head? = some 35 then .ok s
  else if l.1.head? = some 91 then
    .ok { s with thisProg := (l.1.reverse.dropWhile isBlank).reverse == base }
  else if s.thisProg then (fun env => { s with env := env }) <$> buildLine calls size s.env l.1 l.2
  else .ok s

/-- The lines in the file, from one of which `tb` has been read; a zero byte ends the file. -/
def lines : Bytes → Bytes → List Bytes
  | _, [] => []
  | tb, c :: bp =>
    if c = 0 then []
    else if c = 10 ∨ c = 13 then if tb = [] then lines [] bp else tb :: lines [] bp
    else lines (tb ++ [c]) bp

/-- The name of the section for a program. -/
def sectionName (appName : Bytes) : Bytes :=
  let bp := (appName.reverse.takeWhile fun c => !isSeparator c).reverse
  91 :: (bp.takeWhile (· != 46)).map tolower ++ [93]

/-- The lines of a file, each with what is in the buffer for it. -/
def fileLines (content : Bytes) (stale : ℕ → Option Bytes) : List (Bytes × Option Bytes) :=
  let file := if content.getLast? = some 10 then content else content ++ [10]
  (lines [] file).zipIdx.map fun l => (l.1, stale l.2)

/-- `__crt0_load_environment_file`; `files` gives the contents of the files that can be opened,
`mem` says whether there is memory for them, and `stale` what the buffer for a line holds. -/
def loadEnvironmentFile {E : Type} (calls : Calls E) (files : Bytes → Option Bytes) (mem : Bool)
    (stale : ℕ → Option Bytes) (appName : Bytes) (env : E) : Except Fault E :=
  match (calls.getenv env (text "DJGPP")).bind files with
  | none => .ok env
  | some content =>
    if !mem then .ok env
    else
      State.env <$> run (step calls content.length (sectionName appName)) ⟨env, true⟩
        (fileLines content stale)

/-! ### The room for a line -/

/-- A part of a value: a character, a reference to a variable, or a percent sign with flags that
ends the line. -/
inductive Item where
  | char (c : UInt8)
  | ref (f : Flags) (name : Bytes)
  | dangling
  deriving DecidableEq

/-- The flags in front of a name, if there is something behind them. -/
def splitFlags (f : Flags) : Bytes → Option (Flags × Bytes)
  | [] => none
  | c :: sp =>
    if c = 58 then splitFlags { f with dirpart := true } sp
    else if c = 59 then splitFlags { f with apsemi := true } sp
    else if c = 47 then splitFlags { f with mapfs := true } sp
    else if c = 92 then splitFlags { f with mapbs := true } sp
    else if c = 60 then splitFlags { f with mapup := true } sp
    else if c = 62 then splitFlags { f with maplow := true } sp
    else some (f, c :: sp)

/-- The parts of a value. -/
def items : ℕ → Bytes → List Item
  | 0, _ => []
  | _ + 1, [] => []
  | fuel + 1, c :: sp =>
    if c ≠ 37 then .char c :: items fuel sp
    else if sp.head? = some 37 then .char 37 :: items fuel (sp.drop 1)
    else
      match splitFlags noFlags sp with
      | none => [.dangling]
      | some (f, sp) =>
        .ref f (sp.takeWhile (· != 37)) ::
          match sp.dropWhile (· != 37) with
          | [] => []
          | _ :: sp => items fuel sp

/-- The bytes of a value in front of its last separator, if it has one. -/
def directoryLength : Bytes → ℕ
  | [] => 0
  | _ :: e => if e.any isSeparator then directoryLength e + 1 else 0

/-- The bytes that a reference leaves. -/
def referenceLength (f : Flags) (e : Option Bytes) : ℕ :=
  (if f.dirpart then directoryLength (e.getD []) else (e.getD []).length) +
    if f.apsemi ∧ e.isSome then 1 else 0

/-- The parts fit in the buffer with a terminator behind them, and before it is cut at its last
separator the whole value of each variable does; `n` bytes have been stored. -/
def Fits (size : ℕ) (getenv : Bytes → Option Bytes) : ℕ → List Item → Prop
  | n, [] => n < size
  | n, .char _ :: is => Fits size getenv (n + 1) is
  | n, .ref f name :: is =>
    n + ((getenv name).getD []).length ≤ size ∧
      Fits size getenv (n + referenceLength f (getenv name)) is
  | _, .dangling :: _ => False

section

variable {size n dirend : ℕ} {getenv : Bytes → Option Bytes}

theorem Fits.lt {is : List Item} (h : Fits size getenv n is) : n < size := by
  induction is generalizing n with
  | nil => exact h
  | cons i is ih =>
    cases i with
    | char c => exact (lt_succ_self n).trans (ih h)
    | ref f name => exact lt_of_le_of_lt (le_add_right _ _) (ih h.2)
    | dangling => exact absurd h id

theorem readFlags_eq (f : Flags) (sp : Bytes) : readFlags f sp = match splitFlags f sp with
      | some r => .ok r
      | none => .error .line := by
  induction sp generalizing f with
  | nil => rfl
  | cons c sp ih =>
    rw [readFlags, splitFlags]
    split_ifs <;> simp only [ih]

variable {out line : Bytes} {e : Bytes} {f : Flags}

theorem copyValue_ok (h : out.length + e.length ≤ size) :
    copyValue size f out dirend e = .ok (out ++ e.map f.map,
      if e.any isSeparator then out.length + directoryLength e else dirend) := by
  induction e generalizing out dirend with
  | nil => simp [copyValue]
  | cons ec e ih =>
    rw [length_cons] at h
    have hlen : (out ++ [f.map ec]).length = out.length + 1 := by simp
    rw [copyValue, put_ok (by omega)]
    show copyValue size f (out ++ [f.map ec]) _ e = _
    rw [ih (by omega)]
    cases hsep : isSeparator ec <;> cases hany : e.any isSeparator <;>
      simp [directoryLength, hsep, hany, add_assoc, add_comm 1]

theorem copyValue_error (f : Flags) (hout : out.length ≤ size)
    (h : size < out.length + e.length) (dirend : ℕ) :
    copyValue size f out dirend e = .error .buf := by
  induction e generalizing out dirend with
  | nil => exact absurd h (not_lt.mpr hout)
  | cons ec e ih =>
    rw [length_cons] at h
    have hlen : (out ++ [f.map ec]).length = out.length + 1 := by simp
    rw [copyValue]
    by_cases hlt : out.length < size
    · rw [put_ok hlt]
      exact ih (by omega) (by omega) _
    · rw [put_error hlt]
      rfl

theorem directoryLength_le : directoryLength e ≤ e.length := by
  induction e with
  | nil => exact le_rfl
  | cons c e ih =>
    rw [directoryLength, length_cons]
    split_ifs <;> omega

theorem directoryLength_of_not_any (h : e.any isSeparator = false) : directoryLength e = 0 := by
  cases e with
  | nil => rfl
  | cons c e =>
    rw [any_cons, Bool.or_eq_false_iff] at h
    rw [directoryLength, h.2, if_neg Bool.false_ne_true]

theorem reference_some (h : out.length + e.length ≤ size) :
    reference size f out (some e) =
      let out' := (out ++ e.map f.map).take
        (out.length + if f.dirpart then directoryLength e else e.length)
      if f.apsemi then put Fault.buf size out' 59 else .ok out' := by
  have hd : (if e.any isSeparator then out.length + directoryLength e else out.length) =
      out.length + directoryLength e := by
    cases hany : e.any isSeparator with
    | true => rfl
    | false => rw [directoryLength_of_not_any hany]; rfl
  have hf : (out ++ e.map f.map).take (out.length + e.length) = out ++ e.map f.map :=
    take_of_length_le (by simp)
  rw [reference]
  rw [copyValue_ok h, hd]
  cases f.dirpart with
  | true => simp
  | false => simp [hf]

/-- **A reference**: how much is stored for it, and when that is too much. -/
theorem reference_spec (f : Flags) (hout : out.length ≤ size) (e : Option Bytes) :
    (∃ out', reference size f out e = .ok out' ∧ out'.length = out.length + referenceLength f e ∧
      out.length + (e.getD []).length ≤ size ∧ out'.length ≤ size) ∨
    (∃ x, reference size f out e = .error x) ∧
      (size < out.length + (e.getD []).length ∨ size < out.length + referenceLength f e) := by
  cases e with
  | none =>
    have hn : reference size f out none = .ok out := by
      rw [reference]
      cases f.dirpart <;> simp
    refine .inl ⟨out, hn, ?_, by simpa using hout, hout⟩
    cases hdir : f.dirpart <;> simp [referenceLength, directoryLength]
  | some e =>
    by_cases hf : out.length + e.length ≤ size
    · obtain ⟨k, hk⟩ : ∃ k, k = if f.dirpart then directoryLength e else e.length := ⟨_, rfl⟩
      have hke : k ≤ e.length := by
        rw [hk]
        split_ifs
        · exact directoryLength_le
        · exact le_rfl
      have hlen : ((out ++ e.map f.map).take (out.length + k)).length = out.length + k := by
        rw [length_take, length_append, length_map]
        omega
      rw [reference_some hf, ← hk]
      cases hs : f.apsemi with
      | false =>
        refine .inl ⟨_, rfl, ?_, hf, by omega⟩
        rw [hlen, hk]
        simp [referenceLength, hs]
      | true =>
        have href : referenceLength f (some e) = k + 1 := by simp [referenceLength, hs, hk]
        rw [href]
        show (∃ out', put Fault.buf size _ 59 = _ ∧ _) ∨ _
        by_cases hlt : out.length + k < size
        · rw [put_ok (by omega)]
          refine .inl ⟨_, rfl, ?_, hf, ?_⟩ <;> rw [length_append, hlen]
          · rfl
          · exact hlt
        · exact .inr ⟨⟨_, put_error (by omega) _⟩, .inr (by omega)⟩
    · refine .inr ⟨⟨.buf, ?_⟩, .inl (not_le.mp hf)⟩
      rw [reference]
      rw [copyValue_error f hout (not_le.mp hf), error_bind]

/-- **The loop over a value** ends in the buffer if and only if its parts fit. -/
theorem expandLoop_iff (fuel : ℕ) (hout : out.length ≤ size) (sp : Bytes) :
    (∃ out', expandLoop size getenv fuel out sp = .ok out' ∧ out'.length < size) ↔
      Fits size getenv out.length (items fuel sp) := by
  induction fuel generalizing out sp with
  | zero => simp [expandLoop, items, Fits]
  | succ fuel ih =>
    have hc (c : UInt8) (sp : Bytes) :
        (∃ out', put Fault.buf size out c >>= (expandLoop size getenv fuel · sp) = .ok out' ∧
          out'.length < size) ↔
          Fits size getenv (out.length + 1) (items fuel sp) := by
      by_cases hlt : out.length < size
      · have hlen : (out ++ [c]).length = out.length + 1 := by simp
        rw [put_ok hlt, ok_bind, ih (by omega), hlen]
      · rw [put_error hlt]
        refine iff_of_false ?_ fun hf => hlt ((lt_succ_self _).trans hf.lt)
        rintro ⟨out', heq, -⟩
        cases heq
    cases sp with
    | nil => simp [expandLoop, items, Fits]
    | cons c sp =>
      rw [expandLoop, items]
      split_ifs with hp hd
      · exact hc c sp
      · exact hc 37 (sp.drop 1)
      rw [readFlags_eq]
      cases hfl : splitFlags noFlags sp with
      | none =>
        refine iff_of_false ?_ id
        rintro ⟨out', heq, -⟩
        cases heq
      | some r =>
        obtain ⟨f, sp'⟩ := r
        rw [ok_bind, Fits]
        dsimp only
        rcases reference_spec f hout (getenv (sp'.takeWhile (· != 37))) with
          ⟨out', href, hlen, hv, ho'⟩ | ⟨⟨x, href⟩, ho⟩
        · rw [href, ← hlen, and_iff_right hv]
          cases sp'.dropWhile (· != 37) with
          | nil => simp [Fits]
          | cons c sp'' => exact ih ho' sp''
        rw [href]
        refine iff_of_false ?_ ?_
        · rintro ⟨out', heq, -⟩
          cases heq
        · rintro ⟨hv, hf⟩
          have := hf.lt
          omega

theorem nameLoop_eq (h : out.length + line.length ≤ size) :
    nameLoop size out line = .ok (out ++ line.takeWhile (fun c => c != 61 && c != 10),
        line.dropWhile fun c => c != 61 && c != 10) := by
  induction line generalizing out with
  | nil => simp [nameLoop]
  | cons c sp ih =>
    rw [length_cons] at h
    rw [nameLoop]
    split_ifs with hc
    · have hend : (c != 61 && c != 10) = false := by
        rcases hc with rfl | rfl <;> rfl
      simp [hend]
    have hgo : (c != 61 && c != 10) := by
      rw [not_or] at hc
      simp [hc.1, hc.2]
    have hlen : (out ++ [c]).length = out.length + 1 := by simp
    rw [put_ok (by omega), ok_bind, ih (by omega)]
    simp [hgo]

end

/-! ### Lines that fit -/

section

variable {E : Type} {calls : Calls E} {size : ℕ} {base tb bp line content : Bytes} {s : State E}
    {l : Bytes × Option Bytes}

/-- The name and the value in a line from which a string for `putenv` is built. -/
def builds (calls : Calls E) (s : State E) (l : Bytes × Option Bytes) : Option (Bytes × Bytes) :=
  if l.1.head? = some 35 ∨ l.1.head? = some 91 ∨ s.thisProg = false then none
  else
    let name := l.1.takeWhile fun c => c != 61 && c != 10
    match l.1.dropWhile fun c => c != 61 && c != 10 with
    | [] => none
    | c :: value =>
      if c = 10 ∨ ((afterPlus name l.2).bind (calls.getenv s.env)).isSome then none
      else some (name, value)

/-- The string that is built from a line fits in the buffer, and the line does not end in the middle
of a reference. -/
def FitsLine (calls : Calls E) (size : ℕ) (s : State E) (l : Bytes × Option Bytes) : Prop :=
  ∀ name value, builds calls s l = some (name, value) →
    Fits size (calls.getenv s.env) (name.length + 1) (items value.length value)

theorem buildLine_ok_iff (hl : l.1.length ≤ size)
    (hh : ¬ (l.1.head? = some 35 ∨ l.1.head? = some 91)) (ht : s.thisProg) :
    (∃ env, buildLine calls size s.env l.1 l.2 = .ok env) ↔ FitsLine calls size s l := by
  have hb : builds calls s l =
      match l.1.dropWhile fun c => c != 61 && c != 10 with
      | [] => none
      | c :: value =>
        if c = 10 ∨ ((afterPlus (l.1.takeWhile fun c => c != 61 && c != 10) l.2).bind
          (calls.getenv s.env)).isSome then none
        else some (l.1.takeWhile fun c => c != 61 && c != 10, value) :=
    if_neg (by simpa [ht] using hh)
  have hlen : (l.1.takeWhile fun c => c != 61 && c != 10).length +
      (l.1.dropWhile fun c => c != 61 && c != 10).length ≤ size := by
    rw [← length_append, takeWhile_append_dropWhile]
    exact hl
  rw [buildLine, nameLoop_eq (by simpa using hl), ok_bind, nil_append, FitsLine, hb]
  generalize (l.1.takeWhile fun c => c != 61 && c != 10) = name at hlen ⊢
  generalize (l.1.dropWhile fun c => c != 61 && c != 10) = rest at hlen ⊢
  cases rest with
  | nil => simp
  | cons c value =>
    rw [length_cons] at hlen
    have hr : ¬ ((afterPlus name l.2).isSome ∧ size ≤ name.length) := by omega
    dsimp only
    by_cases hc : c = 10
    · simp [hc]
    by_cases hset : ((afterPlus name l.2).bind (calls.getenv s.env)).isSome
    · rw [if_neg hr, if_pos hset, if_pos (Or.inr hset)]
      simp
    have hl' : (name ++ [c]).length = name.length + 1 := by simp
    have hf : (∀ name' value', some (name, value) = some (name', value') →
        Fits size (calls.getenv s.env) (name'.length + 1) (items value'.length value')) ↔
        Fits size (calls.getenv s.env) (name.length + 1) (items value.length value) := by
      constructor
      · exact fun h => h name value rfl
      · rintro h name' value' heq
        cases heq
        exact h
    rw [if_neg hc, if_neg hr, if_neg hset, if_neg (not_or.mpr ⟨hc, hset⟩), hf,
      put_ok (by omega), ok_bind, ← hl', ← expandLoop_iff _ (by omega)]
    constructor
    · rintro ⟨env, heq⟩
      obtain ⟨out', ho', heq⟩ := bind_eq_ok heq
      obtain ⟨_, hput, -⟩ := bind_eq_ok heq
      refine ⟨out', ho', ?_⟩
      by_contra hlt
      rw [put_error hlt] at hput
      cases hput
    · rintro ⟨out', ho', hlt⟩
      rw [ho', ok_bind, put_ok hlt]
      exact ⟨_, rfl⟩

theorem step_ok_iff (hl : l.1.length ≤ size) :
    (∃ s', step calls size base s l = .ok s') ↔ FitsLine calls size s l := by
  have hn (h : l.1.head? = some 35 ∨ l.1.head? = some 91 ∨ s.thisProg = false) :
      FitsLine calls size s l := by
    intro name value hb
    rw [builds, if_pos h] at hb
    cases hb
  rw [step]
  split_ifs with hc hs ht
  · exact iff_of_true ⟨_, rfl⟩ (hn (.inl hc))
  · exact iff_of_true ⟨_, rfl⟩ (hn (.inr (.inl hs)))
  · rw [← buildLine_ok_iff hl (not_or.mpr ⟨hc, hs⟩) ht]
    cases buildLine calls size s.env l.1 l.2 with
    | ok env => exact iff_of_true ⟨_, rfl⟩ ⟨_, rfl⟩
    | error x =>
      refine iff_of_false ?_ ?_
      · rintro ⟨s', heq⟩
        cases heq
      · rintro ⟨env, heq⟩
        cases heq
  · exact iff_of_true ⟨_, rfl⟩ (hn (.inr (.inr (by simpa using ht))))

theorem length_of_mem_lines (h : line ∈ lines tb bp) : line.length + 1 ≤ tb.length + bp.length := by
  induction bp generalizing tb with
  | nil => cases h
  | cons c bp ih =>
    rw [length_cons]
    rw [lines] at h
    split_ifs at h with hz hend he
    · cases h
    · have := ih h
      rw [length_nil] at this
      omega
    · rcases mem_cons.mp h with rfl | h
      · omega
      · have := ih h
        rw [length_nil] at this
        omega
    · have := ih h
      rw [length_append, length_singleton] at this
      omega

theorem length_of_mem_fileLines {stale : ℕ → Option Bytes}
    (h : l ∈ fileLines content stale) : l.1.length ≤ content.length := by
  rw [fileLines, mem_map] at h
  obtain ⟨l', hl', rfl⟩ := h
  have hmem := length_of_mem_lines (fst_mem_of_mem_zipIdx hl')
  split_ifs at hmem
  · rw [length_nil] at hmem
    dsimp only
    omega
  · rw [length_nil, length_append, length_singleton] at hmem
    dsimp only
    omega

/-- **Loading the environment file stays in bounds** if and only if each line from which a string is
built fits: `buf` has as many bytes as the file. -/
theorem load_inBounds_iff (calls : Calls E) (files : Bytes → Option Bytes) (mem : Bool)
    (stale : ℕ → Option Bytes) (appName : Bytes) (env : E) :
    (∃ env', loadEnvironmentFile calls files mem stale appName env = .ok env') ↔
      ∀ content, (calls.getenv env (text "DJGPP")).bind files = some content → mem = true →
        Admits (step calls content.length (sectionName appName)) (FitsLine calls content.length)
          ⟨env, true⟩ (fileLines content stale) := by
  rw [loadEnvironmentFile]
  cases (calls.getenv env (text "DJGPP")).bind files with
  | none => simp
  | some content =>
    cases mem with
    | false => simp
    | true =>
      simp only [Bool.not_true, Option.some_inj, forall_eq', forall_const]
      rw [← run_ok_iff fun s l hl => step_ok_iff (length_of_mem_fileLines hl)]
      cases run (step calls content.length (sectionName appName)) ⟨env, true⟩
        (fileLines content stale) with
      | ok s => exact iff_of_true ⟨_, rfl⟩ ⟨_, rfl⟩
      | error x =>
        refine iff_of_false ?_ ?_
        · rintro ⟨s', heq⟩
          cases heq
        · rintro ⟨env, heq⟩
          cases heq

end

def listCalls : Calls (List Bytes) :=
  ⟨Environ.getenv, fun es val => val :: Environ.without (Environ.nameOf val) es⟩

/-- A file that does not end with a newline, and a reference to a longer value, are written behind
the buffer; at a percent sign that ends a line the function reads on behind the line. -/
theorem load_overruns : (∀ appName, loadEnvironmentFile listCalls (fun _ => some (text "A=b")) true
      (fun _ => none) appName
      [text "DJGPP=f"] = .error .buf) ∧
    (∀ appName, loadEnvironmentFile listCalls (fun _ => some (text "A=%P%\n")) true
      (fun _ => none) appName
      [text "DJGPP=f", text "P=123456"] = .error .buf) ∧
    ∀ appName, loadEnvironmentFile listCalls (fun _ => some (text "A=%\n")) true
      (fun _ => none) appName
      [text "DJGPP=f"] = .error .line :=
  ⟨fun _ => rfl, fun _ => rfl, fun _ => rfl⟩

end EnvironFile
