import Dj64.Stdio.Asprintf
import Dj64.Stdio.Integers
import Dj64.Stdio.Positional

/-!
# `vsnprintf`

The stream of `vsnprintf` is open on the caller's string with room for one character less, or on
none; what does not fit is counted but not stored.  Arguments may have numbers: the formatter is the
one of `Doprnt` with the argument lists of `Positional`.

* `doprnt`: the formatter, with a bound on its steps and on the passes of its traversals.
* `doprnt_unnumbered`: without numbers it is `Doprnt.doprnt`.
* `vsnprintf_right_iff`: `vsnprintf` is right for all sizes if and only if the formatter returns.
-/

namespace Snprintf

open Asprintf ByteMemory Doprnt List Nat
open Positional (Lists act)

/-- What a number in a format stands for. -/
inductive Numbered
  | index
  | width
  | prec
  deriving DecidableEq

/-- The number before a `$`, and what follows. -/
def dollar (fmt : List Char) : Option (ℕ × List Char) :=
  if (number 0 fmt).1 ≤ intMax ∧ (number 0 fmt).2.head? = some '$' then
    some ((number 0 fmt).1, (number 0 fmt).2.tail)
  else none

/-- The cases of the switch at `rflag` that find a number and a `$`. -/
def numbered (c : Char) (fmt : List Char) : Option (Numbered × ℕ × List Char) :=
  if c = '*' then (dollar fmt).map (.width, ·)
  else if c = '.' ∧ fmt.head? = some '*' then (dollar fmt.tail).map (.prec, ·)
  else if c.isDigit ∧ c ≠ '0' then (dollar (c :: fmt)).map (.index, ·)
  else none

section Model

variable (e : Env) (k : ℕ) (fmt0 : List Char)

/-- The switch at `rflag` for an argument with a number. -/
def Numbered.switch (s : Spec) (l : Lists) (n : ℕ) (fmt : List Char) :
    Numbered → Doprnt.Switch × Lists
  | .index =>
    match act k fmt0 l (.index n) with
    | .ok l => (.again s l.argp fmt, l)
    | .error _ => (.undefined, l)
  | .width =>
    match act k fmt0 l (.numbered n) with
    | .ok l =>
      let w := vaInt e (l.argp - 1)
      if w = -2 ^ 31 then (.undefined, l)
      else
        (.again { s with width := w.natAbs, ladjust := s.ladjust || decide (w < 0) } l.argp fmt, l)
    | .error _ => (.undefined, l)
  | .prec =>
    match act k fmt0 l (.numbered n) with
    | .ok l =>
      let p := vaInt e (l.argp - 1)
      (.again { s with prec := if p < 0 then none else some p.toNat } l.argp fmt, l)
    | .error _ => (.undefined, l)

/-- The switch at `rflag`. -/
def switch (s : Spec) (l : Lists) (c : Char) (fmt : List Char) : Doprnt.Switch × Lists :=
  match numbered c fmt with
  | some (a, n, rest) => a.switch e k fmt0 s l n rest
  | none =>
    match Doprnt.switch e s l.argp c fmt with
    | .again s i fmt => (.again s i fmt, if i = l.argp then l else l.vaArg i)
    | r => (r, l)

/-- The part from `rflag` on. -/
def rflag : ℕ → Spec → Lists → List Char → Option (Spec × Lists × List Char)
  | _, s, l, [] => some (s, l, [])
  | 0, _, _, _ :: _ => none
  | fuel + 1, s, l, c :: fmt =>
    match switch e k fmt0 s l c fmt with
    | (.again s _ fmt, l) => rflag fuel s l fmt
    | (.convert, l) => some (s, l, c :: fmt)
    | (.undefined, _) => none

/-- The lists behind a conversion, and where its argument is. -/
def argument (l : Lists) (c : Char) : Option (Lists × ℕ) :=
  if c ∈ "cDdiAEFGaefgnOopsUuXx".toList then
    match act k fmt0 l (.convert (c = 'c')) with
    | .ok l => some (l, l.argp - 1)
    | .error _ => none
  else some (l, l.argp)

/-- `_doprnt`. -/
def doprnt : ℕ → Lists → List Char → State → Option State
  | _, _, [], st => some st
  | 0, _, _ :: _, _ => none
  | fuel + 1, l, c :: fmt, st =>
    if c ≠ '%' then
      (if intMax < st.cnt + 1 then none
        else some { st with cnt := st.cnt + 1, fp := st.fp.putc c }).bind (doprnt fuel l fmt)
    else
      match rflag e k fmt0 fuel {} l fmt with
      | none => none
      | some (_, l, []) => some { st with argp := l.argp }
      | some (s, l, c :: fmt) =>
        match argument k fmt0 l c with
        | none => none
        | some (l, i) => (conversion e s c { st with argp := i }).bind (doprnt fuel l fmt)

/-- `_doprnt` to a stream with room for `n` characters. -/
def printTo (n : ℕ) (mem : Mem) : Option State :=
  doprnt e k fmt0 k {} fmt0 ⟨0, mem, 0, ⟨[], n⟩⟩

/-- `vsnprintf`: the result and the bytes of the string, which were `init`. -/
def vsnprintf (init : ℕ → Char) (n : ℕ) (mem : Mem) : Option (ℤ × (ℕ → Char)) :=
  if intMax < n then some (-1, init)
  else
    (printTo e k fmt0 (n - 1) mem).map fun st =>
      (st.cnt, if 0 < n then strclosew (stored init st.fp) st.fp else init)

end Model

variable {e : Env} {k fuel i : ℕ} {fmt0 fmt fmt' : List Char} {l : Lists} {s s' : Spec} {c : Char}
  {mem : Mem}

/-- What is printed does not depend on the stream. -/
theorem doprnt_prints (fuel : ℕ) (l : Lists) (fmt : List Char) :
    Prints (doprnt e k fmt0 fuel l fmt) := by
  induction fuel generalizing l fmt with
  | zero =>
    intro argp mem cnt
    cases fmt with
    | nil => exact printsOn_some
    | cons c fmt => exact printsOn_none
  | succ fuel ih =>
    intro argp mem cnt
    cases fmt with
    | nil => exact printsOn_some
    | cons c fmt =>
      simp only [doprnt]
      refine .ite ((printsOn_putc argp mem cnt c).bind (ih l fmt)) ?_
      cases rflag e k fmt0 fuel {} l fmt with
      | none => exact printsOn_none
      | some r =>
        obtain ⟨s, l, _ | ⟨c, fmt⟩⟩ := r
        · exact printsOn_some
        · dsimp only
          cases argument k fmt0 l c with
          | none => exact printsOn_none
          | some r => exact (conversion_prints r.2 mem cnt).bind (ih r.1 fmt)

/-- `vsnprintf` is right for a text: it stores what fits, with a `NUL`, and nothing from `n` on; and
it returns the length of the whole text. -/
def VsnprintfRight (e : Env) (k : ℕ) (fmt : List Char) (init : ℕ → Char) (mem : Mem)
    (t : List Char) (n : ℕ) : Prop :=
  ∃ bytes, vsnprintf e k fmt init n mem = some ((t.length : ℤ), bytes) ∧
    (∀ i, n ≤ i → bytes i = init i) ∧ (0 < n → Block.Holds ⟨n, bytes⟩ (t.take (n - 1)))

theorem vsnprintf_stores {t : List Char} {argp : ℕ} {mem' : Mem} (init : ℕ → Char)
    (h : ∀ n, printTo e k fmt n mem = some ⟨argp, mem', t.length, ⟨t.take n, n - t.length⟩⟩)
    {n : ℕ} (hn : n ≤ intMax) : VsnprintfRight e k fmt init mem t n := by
  refine ⟨_, by rw [vsnprintf, if_neg (by omega), h]; rfl, ?_, ?_⟩
  · intro i hi
    have hle : (t.take (n - 1)).length ≤ i := (length_take_le ..).trans (by omega)
    by_cases h0 : 0 < n
    · have hne : i ≠ (t.take (n - 1)).length := by
        have := length_take_le (n - 1) t
        omega
      rw [if_pos h0, strclosew, Function.update_of_ne hne]
      simp [stored, getElem?_eq_none hle]
    · rw [if_neg h0]
  · intro h0
    rw [if_pos h0]
    obtain ⟨-, hbytes, hnul⟩ := strclosew_holds init (t.take (n - 1)) (n - 1 - t.length)
    refine ⟨?_, hbytes, hnul⟩
    have := length_take_le (n - 1) t
    change (t.take (n - 1)).length < n
    omega

/-- **`vsnprintf` is bounded, and its text is cut off**, for one text and all sizes, if and only if
the formatter returns. -/
theorem vsnprintf_right_iff (e : Env) (fmt : List Char) (init : ℕ → Char) (mem : Mem) :
    (∃ k t, ∀ n ≤ intMax, VsnprintfRight e k fmt init mem t n) ↔
      ∃ k st, printTo e k fmt intMax mem = some st := by
  refine exists_congr fun k => ⟨fun ⟨t, h⟩ => ?_, fun ⟨st, h⟩ => ?_⟩
  · obtain ⟨bytes, hb, -⟩ := h 0 (Nat.zero_le _)
    rcases doprnt_prints (e := e) k {} fmt 0 mem 0 with hn | ⟨x, argp, mem', -, hs⟩
    · rw [vsnprintf, if_neg (by decide), printTo,
        show doprnt e k fmt k {} fmt _ = none from hn _] at hb
      cases hb
    · exact ⟨_, hs _⟩
  · rcases doprnt_prints (e := e) k {} fmt 0 mem 0 with hn | ⟨x, argp, mem', -, hs⟩
    · cases h.symm.trans (hn _)
    · have hp (m : ℕ) : printTo e k fmt m mem =
          some ⟨argp, mem', x.length, ⟨x.take m, m - x.length⟩⟩ := by
        rw [printTo, show doprnt e k fmt k {} fmt _ = some _ from hs _, File.puts_eq, zero_add,
          nil_append]
      exact ⟨x, fun n hn => vsnprintf_stores init hp hn⟩

/-- `"%2$d %1$5d|"` is a format for two arguments, and the lookup of the second one never ends. -/
theorem vsnprintf_never_returns : ¬ ∃ k r,
    vsnprintf counting k "%2$d %1$5d|".toList (fun _ => 'x') 8 (fun _ => 0) = some r := by
  rintro ⟨k, r, hr⟩
  have hno (l : Lists) : act k "%2$d %1$5d|".toList l (.index 2) = .error () := by
    have hne (n : ℕ) : Positional.traverse 2 "%2$d %1$5d|".toList k ≠ .returned n := fun h =>
      absurd ((Positional.returned_iff (by decide)).mp ⟨k, h⟩).1 (by decide)
    simp only [act, Lists.lookup]
    cases ht : Positional.traverse 2 "%2$d %1$5d|".toList k with
    | returned n => exact absurd ht (hne n)
    | overrun | wrapped p => rfl
  have hp : printTo counting k "%2$d %1$5d|".toList 7 (fun _ => 0) = none := by
    unfold printTo
    rcases k with - | - | k
    · rfl
    · rfl
    · have hd : numbered '2' "$d %1$5d|".toList = some (.index, 2, "d %1$5d|".toList) := by decide
      change doprnt counting (k + 2) "%2$d %1$5d|".toList (k + 2) {}
        ('%' :: '2' :: "$d %1$5d|".toList) _ = none
      rw [doprnt, if_neg (by decide), rflag, switch, hd]
      dsimp only
      rw [Numbered.switch, hno]
  have hnone : vsnprintf counting k "%2$d %1$5d|".toList (fun _ => 'x') 8 (fun _ => 0) = none := by
    rw [vsnprintf, if_neg (by decide)]
    exact congrArg (Option.map _) hp
  rw [hnone] at hr
  cases hr

/-! ### Formats without numbers -/

/-- The lists while no number has been met. -/
structure Plain (l : Lists) (i : ℕ) : Prop where
  argp : l.argp = i
  aliased : l.aliased = false
  numeric : l.usingNumericConvSpec = false

theorem Plain.vaArg (h : Plain l i) (n : ℕ) : Plain (l.vaArg n) (i + 1) := by
  obtain ⟨hi, ha, hn⟩ := h
  constructor <;> simp_all [Lists.vaArg, Lists.setArgp, Lists.argp]

theorem dollar_eq_none (h : unnumbered fmt) : dollar fmt = none := by
  simp_all [unnumbered, dollar]

/-- The switch without numbers is not defined where there is one. -/
theorem numbered_eq_none (h : Doprnt.switch e s i c fmt ≠ .undefined) : numbered c fmt = none := by
  unfold numbered
  split_ifs with h1 h2 h3
  · subst h1
    rw [Doprnt.switch, show s.flag '*' = none from rfl] at h
    simp only [if_true] at h
    split_ifs at h with hu
    · rw [dollar_eq_none (Bool.and_eq_true_iff.mp hu).1]
      rfl
    · exact absurd rfl h
  · obtain ⟨rfl, h2⟩ := h2
    rw [Doprnt.switch, show s.flag '.' = none from rfl] at h
    simp only [h1, h2, if_true, if_false] at h
    by_cases hu : unnumbered fmt.tail
    · rw [dollar_eq_none hu]
      rfl
    · rw [if_neg hu] at h
      exact absurd rfl h
  · have hdot : c ≠ '.' := by
      rintro rfl
      cases h3.1
    rw [Doprnt.switch, Integers.flag_digit h3.1 h3.2] at h
    simp only [h1, hdot, h3.1, if_true, if_false] at h
    split_ifs at h with hu
    · rw [dollar_eq_none hu]
      rfl
    · exact absurd rfl h
  · rfl

/-- The switch takes at most one argument. -/
theorem switch_args {i' : ℕ} (h : Doprnt.switch e s i c fmt = .again s' i' fmt') :
    i' = i ∨ i' = i + 1 := by
  unfold Doprnt.switch at h
  split at h
  · cases h
    exact .inl rfl
  · split_ifs at h <;> cases h
    all_goals simp

theorem rflag_unnumbered {i' : ℕ} (h : Doprnt.rflag e s i fmt = some (s', i', fmt'))
    (hl : Plain l i) (hf : fmt.length ≤ fuel) :
    ∃ l', rflag e k fmt0 fuel s l fmt = some (s', l', fmt') ∧ Plain l' i' := by
  induction fuel generalizing s i l fmt with
  | zero =>
    obtain rfl : fmt = [] := length_eq_zero_iff.mp (Nat.le_zero.mp hf)
    rw [Doprnt.rflag] at h
    cases h
    exact ⟨l, rfl, hl⟩
  | succ fuel ih =>
    cases fmt with
    | nil =>
      rw [Doprnt.rflag] at h
      cases h
      exact ⟨l, rfl, hl⟩
    | cons c fmt =>
      rw [length_cons] at hf
      rw [Doprnt.rflag] at h
      obtain ⟨hi, -, -⟩ := id hl
      split at h
      · next s1 i1 fmt1 hs =>
        have hle := switch_length hs
        have hnum := numbered_eq_none (by rw [hs]; simp)
        have hl1 : Plain (if i1 = l.argp then l else l.vaArg i1) i1 := by
          rw [hi]
          rcases switch_args hs with rfl | rfl
          · rwa [if_pos rfl]
          · rw [if_neg (by omega)]
            exact hl.vaArg _
        obtain ⟨l', hr, hp⟩ := ih h hl1 (by omega)
        exact ⟨l', by rw [rflag, switch, hnum, hi, hs]; rwa [hi] at hr, hp⟩
      · next hs =>
        have hnum := numbered_eq_none (by rw [hs]; simp)
        cases h
        exact ⟨l, by rw [rflag, switch, hnum, hi, hs], hl⟩
      · cases h

theorem pforw_argp {sign hexlead : Option Char} {dprec : ℕ} {t : List Char} {st st' : State}
    (h : pforw s sign hexlead dprec t st = some st') : st'.argp = st.argp := by
  unfold pforw at h
  dsimp only at h
  split_ifs at h
  cases h
  rfl

theorem printNumber_argp {sign hexlead : Option Char} {base v : ℕ} {upper finite : Bool}
    {st st' : State} (h : printNumber e s sign hexlead base upper finite v st = some st') :
    st'.argp = st.argp := by
  unfold printNumber at h
  dsimp only at h
  split_ifs at h <;> exact pforw_argp h

theorem conversion_argp {st st' : State} (h : conversion e s c st = some st') :
    st'.argp = if c ∈ "cDdiAEFGaefgnOopsUuXx".toList then st.argp + 1 else st.argp := by
  by_cases hc : c ∈ "cDdiAEFGaefgnOopsUuXx".toList
  · rw [if_pos hc]
    simp only [String.reduceToList, mem_cons, not_mem_nil, or_false] at hc
    rcases hc with rfl | rfl | rfl | rfl | rfl | rfl | rfl | rfl | rfl | rfl | rfl | rfl | rfl |
      rfl | rfl | rfl | rfl | rfl | rfl | rfl | rfl
    all_goals simp only [conversion, Char.reduceEq, if_true, if_false, or_true, or_false,
      mem_cons, not_mem_nil] at h
    all_goals first
      | exact pforw_argp h
      | exact printNumber_argp h
      | cases h
      | skip
    · split_ifs at h
      cases h
      rfl
    · cases ht : stringArg e st.mem s.prec (e.args st.argp).toNat with
      | none =>
        rw [ht] at h
        cases h
      | some t =>
        rw [ht] at h
        exact pforw_argp h
  · rw [if_neg hc]
    simp only [String.reduceToList, mem_cons, not_mem_nil, or_false, not_or] at hc
    simp only [conversion, hc, mem_cons, not_mem_nil, if_false, or_false] at h
    split_ifs at h
    cases h
    rfl

theorem Plain.argument (h : Plain l i) (k : ℕ) (fmt0 : List Char) (c : Char) :
    ∃ l', Snprintf.argument k fmt0 l c = some (l', i) ∧
      Plain l' (if c ∈ "cDdiAEFGaefgnOopsUuXx".toList then i + 1 else i) := by
  unfold Snprintf.argument
  split_ifs
  · refine ⟨l.vaArg (l.argp + 1), ?_, h.vaArg _⟩
    have hv := (h.vaArg (l.argp + 1)).argp
    obtain ⟨-, ha, hn⟩ := h
    cases l
    cases ha
    cases hn
    simp [act, hv]
  · exact ⟨l, by rw [h.argp], h⟩

/-- Without numbers, the formatter is that of `Doprnt`. -/
theorem doprnt_unnumbered {st st' : State} (h : Doprnt.doprnt e fmt st = some st')
    (hl : Plain l st.argp) (hf : fmt.length ≤ fuel) :
    doprnt e k fmt0 fuel l fmt st = some st' := by
  induction fuel generalizing l fmt st with
  | zero =>
    obtain rfl : fmt = [] := length_eq_zero_iff.mp (Nat.le_zero.mp hf)
    rwa [Doprnt.doprnt] at h
  | succ fuel ih =>
    cases fmt with
    | nil => rwa [Doprnt.doprnt] at h
    | cons c fmt =>
      rw [length_cons] at hf
      rw [doprnt]
      by_cases hc : c = '%'
      · subst hc
        rw [doprnt_percent] at h
        obtain ⟨⟨s, i, fmt'⟩, hr, h⟩ := Option.bind_eq_some_iff.mp h
        obtain ⟨l', hr', hl'⟩ : ∃ l', rflag e k fmt0 fuel {} l fmt = some (s, l', fmt') ∧
            Plain l' i := rflag_unnumbered hr hl (by omega)
        have hle := rflag_length hr
        rw [if_neg (by simp), hr']
        cases fmt' with
        | nil =>
          rw [← hl'.argp] at h
          exact h
        | cons c fmt' =>
          rw [length_cons] at hle
          obtain ⟨st1, hconv, h⟩ := Option.bind_eq_some_iff.mp h
          have hargp := conversion_argp hconv
          obtain ⟨l2, ha, hl2⟩ := hl'.argument k fmt0 c
          simp only [ha]
          rw [hconv, Option.bind_some]
          exact ih h (hargp ▸ hl2) (by omega)
      · rw [doprnt_plain hc] at h
        obtain ⟨st1, h1, h⟩ := Option.bind_eq_some_iff.mp h
        rw [if_pos hc, h1, Option.bind_some]
        split_ifs at h1
        cases h1
        exact ih h hl (by omega)

/-- `vsnprintf` stores what fits of what `vsprintf` prints. -/
theorem vsnprintf_of_vsprintf {t : List Char} {len argp : ℕ} {mem' : Mem} (init : ℕ → Char)
    (h : vsprintf e fmt 0 mem = some (len, t, argp, mem')) {n : ℕ} (hn : n ≤ intMax) :
    VsnprintfRight e fmt.length fmt init mem t n := by
  have hp (m : ℕ) : printTo e fmt.length fmt m mem =
      some ⟨argp, mem', t.length, ⟨t.take m, m - t.length⟩⟩ :=
    doprnt_unnumbered (printTo_eq h m).2 ⟨rfl, rfl, rfl⟩ le_rfl
  exact vsnprintf_stores init hp hn

end Snprintf
