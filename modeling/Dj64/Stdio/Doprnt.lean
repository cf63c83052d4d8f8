import Dj64.Lib.ByteMemory

/-!
# The formatter

`_doprnt` prints a format to a stream that is open on a string.  The argument list is a position in
the words that the caller passed; it moves by one word for every argument that is taken, also for a
width or a precision.  What lies in the words after the last argument is part of the environment.

Nothing is returned where the source has no defined result: a counter that passes `INT_MAX`, a
string argument that runs into unmapped memory or over 2 GiB, digits that are grouped although the
buffer they are copied from has no end.  Floating conversions and numbered arguments are left out; a
format that has one gives nothing, either.
-/

namespace Doprnt

open ByteMemory List Nat Option

def intMax : ℕ := 2 ^ 31 - 1

/-- A stream that is open on a string: what was stored, and the room that is left. -/
structure File where
  written : List Char
  cnt : ℕ
  deriving DecidableEq

/-- `putc`; a full string takes nothing. -/
def File.putc (f : File) (c : Char) : File := if 0 < f.cnt then ⟨f.written ++ [c], f.cnt - 1⟩ else f

/-- A `putc` for each character. -/
def File.puts (f : File) (cs : List Char) : File := cs.foldl File.putc f

/-- What a call finds: the words of the arguments, the memory that can be used, and the separator of
the locale. -/
structure Env where
  args : ℕ → UInt64
  mapped : ℕ → Bool
  thousandsSep : Char

/-- The flags, the sign, the width and the precision of a conversion. -/
structure Spec where
  longint : Bool := false
  longdbl : Bool := false
  shortint : Bool := false
  charint : Bool := false
  alt : Bool := false
  ladjust : Bool := false
  zeropad : Bool := false
  grouping : Bool := false
  sign : Option Char := none
  width : ℕ := 0
  prec : Option ℕ := none

/-- The next argument, the memory, the counter and the stream. -/
structure State where
  argp : ℕ
  mem : Mem
  cnt : ℕ
  fp : File

section Model

variable (e : Env) {s s' : Spec} {i i' : ℕ} {c : Char} {fmt fmt' : List Char}

/-! ### Flags -/

def vaInt (i : ℕ) : ℤ := Int.bmod (e.args i).toNat (2 ^ 32)

/-- The number that the digits spell, and what follows them. -/
def number : ℕ → List Char → ℕ × List Char
  | n, [] => (n, [])
  | n, c :: fmt => if c.isDigit then number (10 * n + (c.toNat - '0'.toNat)) fmt else (n, c :: fmt)

theorem number_length (n : ℕ) (fmt : List Char) : (number n fmt).2.length ≤ fmt.length := by
  induction fmt generalizing n with
  | nil => exact le_rfl
  | cons c fmt ih =>
    rw [number]
    split_ifs
    · exact (ih _).trans (le_succ _)
    · exact le_rfl

/-- No `$` follows the digits, so that they do not number an argument. -/
def unnumbered (fmt : List Char) : Bool :=
  decide ((number 0 fmt).1 ≤ intMax) && decide ((number 0 fmt).2.head? ≠ some '$')

/-- What the switch at `rflag` does with a character. -/
inductive Switch
  | again (s : Spec) (i : ℕ) (fmt : List Char)
  | convert
  | undefined

/-- The cases of the switch that read no further than the character. -/
def Spec.flag (s : Spec) : Char → Option Spec
  | '\'' => some { s with grouping := true }
  | ' ' => some { s with sign := s.sign.or (some ' ') }
  | '#' => some { s with alt := true }
  | '-' => some { s with ladjust := true }
  | '+' => some { s with sign := some '+' }
  | '0' => some { s with zeropad := true }
  | 'L' => some { s with longdbl := true }
  | 'h' => some (if s.shortint then { s with charint := true, shortint := false } else
      { s with shortint := true })
  | 'l' => some (if s.longint then { s with longdbl := true } else { s with longint := true })
  | 'j' => some { s with longdbl := true }
  | 'z' => some { s with longint := true }
  | 't' => some s
  | _ => none

/-- The switch at `rflag`, as far as it goes back there. -/
def switch (s : Spec) (i : ℕ) (c : Char) (fmt : List Char) : Switch :=
  match s.flag c with
  | some s => .again s i fmt
  | none =>
    if c = '*' then
      -- a negative width is a flag `-` and a width
      if unnumbered fmt && decide (vaInt e i ≠ -2 ^ 31) then
        .again { s with
          width := (vaInt e i).natAbs
          ladjust := s.ladjust || decide (vaInt e i < 0) } (i + 1) fmt
      else .undefined
    else if c = '.' then
      if fmt.head? = some '*' then
        if unnumbered fmt.tail then
          .again { s with prec := if vaInt e i < 0 then none else some (vaInt e i).toNat }
            (i + 1) fmt.tail
        else .undefined
      else if (number 0 fmt).1 ≤ intMax then .again { s with prec := some (number 0 fmt).1 } i
        (number 0 fmt).2
      else .undefined
    else if c.isDigit then
      if unnumbered (c :: fmt) then .again { s with width := (number 0 (c :: fmt)).1 } i
        (number 0 (c :: fmt)).2
      else .undefined
    else .convert

variable {e} in
/-- No case goes back in the format. -/
theorem switch_length (h : switch e s i c fmt = .again s' i' fmt') : fmt'.length ≤ fmt.length := by
  have hd : c.isDigit → (number 0 (c :: fmt)).2.length ≤ fmt.length := by
    intro hc
    rw [number, if_pos hc]
    exact number_length _ _
  unfold switch at h
  cases hf : s.flag c with
  | some s1 =>
    rw [hf] at h
    injection h with _ _ h
    exact h ▸ le_rfl
  | none =>
    rw [hf] at h
    split_ifs at h
    · injection h with _ _ h
      exact h ▸ le_rfl
    · injection h with _ _ h
      exact h ▸ length_tail.trans_le (sub_le _ _)
    · injection h with _ _ h
      exact h ▸ length_tail.trans_le (sub_le _ _)
    · injection h with _ _ h
      exact h ▸ number_length _ _
    · injection h with _ _ h
      exact h ▸ hd ‹_›

/-- The part from `rflag` on: all that is before the character of the conversion. -/
def rflag (s : Spec) (i : ℕ) : List Char → Option (Spec × ℕ × List Char)
  | [] => some (s, i, [])
  | c :: fmt =>
    match _h : switch e s i c fmt with
    | .again s i fmt => rflag s i fmt
    | .convert => some (s, i, c :: fmt)
    | .undefined => none
termination_by fmt => fmt.length
decreasing_by exact lt_succ_of_le (switch_length _h)

variable {e} in
theorem rflag_length (h : rflag e s i fmt = some (s', i', fmt')) : fmt'.length ≤ fmt.length := by
  induction hn : fmt.length using Nat.strong_induction_on generalizing s i fmt with
  | _ n ih =>
    cases fmt with
    | nil =>
      rw [rflag] at h
      cases h
      exact hn.le
    | cons c fmt =>
      rw [rflag] at h
      split at h
      · next s1 i1 fmt1 hs =>
        have hle := switch_length hs
        rw [length_cons] at hn
        have := ih fmt1.length (by omega) h rfl
        omega
      · cases h
        exact hn.le
      · cases h

/-! ### Conversions -/

def Spec.modulus (s : Spec) : ℕ :=
  if s.longdbl then 2 ^ 64 else if s.longint then 2 ^ 64 else if s.shortint then 2 ^ 16 else 2 ^ 32

def argSigned (s : Spec) (i : ℕ) : ℤ := Int.bmod (e.args i).toNat s.modulus

def argUnsigned (s : Spec) (i : ℕ) : ℕ := (e.args i).toNat % s.modulus

/-- The field: `t` with what leads it and with its padding; `realsz` characters are needed. -/
def field (s : Spec) (lead : List Char) (dprec realsz : ℕ) (t : List Char) : List Char :=
  (if s.ladjust || s.zeropad then [] else replicate (s.width - realsz) ' ') ++ lead ++
    (if s.zeropad && !s.ladjust then replicate (s.width - realsz) '0' else []) ++
    replicate (dprec - t.length) '0' ++ t ++
    (if s.ladjust then replicate (s.width - realsz) ' ' else [])

/-- The part from `pforw` on: `t` is printed with its sign and its prefix. -/
def pforw (s : Spec) (sign hexlead : Option Char) (dprec : ℕ) (t : List Char) (st : State) :
    Option State :=
  let lead := sign.toList ++ (hexlead.map fun x => ['0', x]).getD []
  let realsz := max dprec t.length + lead.length
  if intMax < st.cnt + max s.width realsz then none
  else some { st with
    cnt := st.cnt + max s.width realsz
    fp := st.fp.puts (field s lead dprec realsz t) }

def convert (base : ℕ) (upper : Bool) (v : ℕ) : List Char :=
  (toDigits base v).map fun c => if upper then c.toUpper else c

/-- The part from `number` on; `finite` is the flag `FINITENUMBER`. -/
def printNumber (s : Spec) (sign hexlead : Option Char) (base : ℕ) (upper finite : Bool) (v : ℕ)
    (st : State) :
    Option State :=
  let s := if s.prec.isSome then { s with zeropad := false } else s
  let t := if v ≠ 0 ∨ s.prec ≠ some 0 then convert base upper v else []
  let t := if s.alt && base == 8 && !t.isEmpty && t.head? != some '0' then '0' :: t else t
  if finite && s.grouping && base == 10 && e.thousandsSep != '\x00' then none
  else pforw s sign hexlead (s.prec.getD 0) t st

/-- The bytes before the first `NUL` among the `n` bytes from `a`, and whether there is one. -/
def memchr (mem : Mem) : ℕ → ℕ → Option (List Char × Bool)
  | 0, _ => some ([], false)
  | n + 1, a =>
    if !e.mapped a then none
    else if mem a = 0 then some ([], true)
    else (memchr mem n (a + 1)).map fun r => (Char.ofNat (mem a).toNat :: r.1, r.2)

/-- The string argument at `a`, cut at the precision. -/
def stringArg (mem : Mem) (prec : Option ℕ) (a : ℕ) : Option (List Char) :=
  match prec with
  | some p => if a = 0 then some ("(null)".toList.take p) else (memchr e mem p a).map Prod.fst
  | none =>
    if a = 0 then some "(null)".toList
    else
      match memchr e mem (intMax + 1) a with
      | some (t, true) => some t
      | _ => none

/-- The bytes that `%n` stores. -/
def Spec.storeWidth (s : Spec) : ℕ :=
  if s.longdbl then 8 else if s.longint then 8 else if s.shortint then 2
    else if s.charint then 1 else 4

/-- The conversion with the character `c`. -/
def conversion (s : Spec) (c : Char) (st : State) : Option State :=
  let i := st.argp
  let next := { st with argp := i + 1 }
  if c = 'c' then pforw s none none 0 [Char.ofNat ((e.args i).toNat % 256)] next
  else if c = 'D' ∨ c = 'd' ∨ c = 'i' then
    let s := if c = 'D' then { s with longint := true } else s
    let v := argSigned e s i
    printNumber e s (if v < 0 then some '-' else s.sign) none 10 false true v.natAbs next
  else if c ∈ ['A', 'E', 'F', 'G', 'a', 'e', 'f', 'g'] then none
  else if c = 'n' then
    if (range s.storeWidth).all fun k => e.mapped ((e.args i).toNat + k) then
      some { next with mem := store st.mem (e.args i).toNat s.storeWidth st.cnt }
    else none
  else if c = 'O' ∨ c = 'o' then
    let s := if c = 'O' then { s with longint := true } else s
    printNumber e s none none 8 false true (argUnsigned e s i) next
  else if c = 'p' then printNumber e s none none 16 false false (e.args i).toNat next
  else if c = 's' then
    match stringArg e st.mem s.prec (e.args i).toNat with
    | none => none
    | some t => pforw s none none 0 t next
  else if c = 'U' ∨ c = 'u' then
    let s := if c = 'U' then { s with longint := true } else s
    printNumber e s none none 10 false true (argUnsigned e s i) next
  else if c = 'X' ∨ c = 'x' then
    let v := argUnsigned e s i
    printNumber e s none (if s.alt && v != 0 then some c else none) 16 (c == 'X') true v next
  else if intMax < st.cnt + 1 then none
  else some { st with cnt := st.cnt + 1, fp := st.fp.putc c }

def doprnt (fmt : List Char) (st : State) : Option State :=
  match fmt with
  | [] => some st
  | c :: fmt =>
    if c ≠ '%' then
      if intMax < st.cnt + 1 then none
      else doprnt fmt { st with cnt := st.cnt + 1, fp := st.fp.putc c }
    else
      match _h : rflag e {} st.argp fmt with
      | none => none
      | some (_, i, []) => some { st with argp := i }
      | some (s, i, c :: fmt) =>
        match conversion e s c { st with argp := i } with
        | none => none
        | some st => doprnt fmt st
termination_by fmt.length
decreasing_by
  · exact lt_succ_self _
  · have := rflag_length _h
    simp only [length_cons] at this ⊢
    omega

end Model

/-! ### What is printed -/

theorem File.puts_nil (f : File) : f.puts [] = f := rfl

theorem File.puts_append (f : File) (xs ys : List Char) : f.puts (xs ++ ys) = (f.puts xs).puts ys :=
  foldl_append

theorem File.puts_eq (f : File) (xs : List Char) :
    f.puts xs = ⟨f.written ++ xs.take f.cnt, f.cnt - xs.length⟩ := by
  induction xs generalizing f with
  | nil => simp [File.puts_nil]
  | cons x xs ih =>
    change (f.putc x).puts xs = _
    rw [ih, File.putc]
    split_ifs with hr
    · obtain ⟨k, hk⟩ := Nat.exists_eq_add_of_lt hr
      simp only [hk, length_cons]
      simp
    · have hf : f.cnt = 0 := by omega
      simp [hf]

/-- A text is printed and its characters are counted, whatever the stream; the counter does not pass
`INT_MAX`. -/
def PrintsOn (cnt : ℕ) (r : File → Option State) : Prop :=
  (∀ fp, r fp = none) ∨ ∃ x argp mem, (x = [] ∨ cnt + x.length ≤ intMax) ∧
    ∀ fp, r fp = some ⟨argp, mem, cnt + x.length, fp.puts x⟩

def Prints (step : State → Option State) : Prop :=
  ∀ argp mem cnt, PrintsOn cnt fun fp => step ⟨argp, mem, cnt, fp⟩

theorem printsOn_none {cnt : ℕ} : PrintsOn cnt fun _ => none := .inl fun _ => rfl

theorem printsOn_some {argp : ℕ} {mem : Mem} {cnt : ℕ} :
    PrintsOn cnt fun fp => some ⟨argp, mem, cnt, fp⟩ :=
  .inr ⟨[], argp, mem, .inl rfl, fun _ => rfl⟩

theorem printsOn_puts (argp : ℕ) (mem : Mem) (cnt : ℕ) (x : List Char) : PrintsOn cnt fun fp =>
      if intMax < cnt + x.length then none else some ⟨argp, mem, cnt + x.length, fp.puts x⟩ := by
  split_ifs with hmax
  · exact printsOn_none
  · exact .inr ⟨x, argp, mem, .inr (not_lt.mp hmax), fun _ => rfl⟩

theorem printsOn_putc (argp : ℕ) (mem : Mem) (cnt : ℕ) (c : Char) :
    PrintsOn cnt fun fp => if intMax < cnt + 1 then none
      else some ⟨argp, mem, cnt + 1, fp.putc c⟩ :=
  printsOn_puts argp mem cnt [c]

theorem PrintsOn.ite {cnt : ℕ} {p : Prop} [Decidable p] {r r' : File → Option State}
    (h : PrintsOn cnt r) (h' : PrintsOn cnt r') : PrintsOn cnt fun fp => if p then r fp
      else r' fp := by
  split_ifs
  · exact h
  · exact h'

theorem PrintsOn.bind {cnt : ℕ} {r : File → Option State} {g : State → Option State}
    (hr : PrintsOn cnt r) (hg : Prints g) : PrintsOn cnt fun fp => (r fp).bind g := by
  rcases hr with hn | ⟨x, argp, mem, hx, hs⟩
  · exact .inl fun fp => by simp only [hn, bind_none]
  rcases hg argp mem (cnt + x.length) with hn | ⟨y, argp', mem', hy, hs'⟩
  · exact .inl fun fp => by simp only [hs, bind_some, hn]
  refine .inr ⟨x ++ y, argp', mem', ?_, fun fp => ?_⟩
  · rcases hy with rfl | hy
    · simpa using hx
    · exact .inr (by rw [length_append]; omega)
  · simp only [hs, bind_some, hs', File.puts_append, length_append, add_assoc]

variable {e : Env} {c : Char} {s : Spec} {sign he : Option Char}

theorem field_length (s : Spec) (lead : List Char) (dprec : ℕ) (t : List Char) :
    (field s lead dprec (max dprec t.length + lead.length) t).length =
      max s.width (max dprec t.length + lead.length) := by
  unfold field
  cases s.ladjust with
  | true =>
    simp
    omega
  | false =>
    cases s.zeropad with
    | true =>
      simp
      omega
    | false =>
      simp
      omega

theorem pforw_prints {dprec : ℕ} {t : List Char} : Prints (pforw s sign he dprec t) := by
  intro argp mem cnt
  unfold pforw
  dsimp only
  rw [← field_length]
  exact printsOn_puts argp mem cnt _

theorem printNumber_prints {base : ℕ}
    {upper finite : Bool} {v : ℕ} : Prints (printNumber e s sign he base upper finite v) := by
  intro argp mem cnt
  exact PrintsOn.ite printsOn_none (pforw_prints argp mem cnt)

/-- A conversion prints. -/
theorem conversion_prints : Prints (conversion e s c) := by
  intro argp mem cnt
  have hn : ∀ s sign he base upper finite v,
      PrintsOn cnt fun fp => printNumber e s sign he base upper finite v ⟨argp + 1, mem, cnt, fp⟩ :=
    fun s sign he base upper finite v => printNumber_prints _ _ _
  have hf : ∀ t, PrintsOn cnt fun fp => pforw s none none 0 t ⟨argp + 1, mem, cnt, fp⟩ :=
    fun t => pforw_prints _ _ _
  unfold conversion
  dsimp only
  refine .ite (hf _) (.ite (hn _ _ _ _ _ _ _) (.ite printsOn_none (.ite ?_
    (.ite (hn _ _ _ _ _ _ _) (.ite (hn _ _ _ _ _ _ _) (.ite ?_ (.ite (hn _ _ _ _ _ _ _)
      (.ite (hn _ _ _ _ _ _ _) ?_))))))))
  · exact .ite printsOn_some printsOn_none
  · cases stringArg e mem s.prec (e.args argp).toNat with
    | none => exact printsOn_none
    | some t => exact hf t
  · exact printsOn_putc argp mem cnt c

/-- What follows the flags. -/
def afterFlags (e : Env) (st : State) : Spec × ℕ × List Char → Option State
  | (_, i, []) => some { st with argp := i }
  | (s, i, c :: fmt) => (conversion e s c { st with argp := i }).bind (doprnt e fmt)

theorem doprnt_percent (fmt : List Char) (st : State) :
    doprnt e ('%' :: fmt) st = (rflag e {} st.argp fmt).bind (afterFlags e st) := by
  rw [doprnt, if_neg (by simp)]
  split
  · next hf => rw [hf, bind_none]
  · next hf =>
    rw [hf]
    rfl
  · next s i c fmt hf =>
    rw [hf, bind_some, afterFlags]
    cases conversion e s c { st with argp := i } <;> rfl

theorem doprnt_plain (hc : c ≠ '%') (fmt : List Char) (st : State) :
    doprnt e (c :: fmt) st = (if intMax < st.cnt + 1 then none
      else some { st with cnt := st.cnt + 1, fp := st.fp.putc c }).bind (doprnt e fmt) := by
  rw [doprnt]
  split_ifs <;> rfl

/-- **The formatter prints.** -/
theorem doprnt_prints (fmt : List Char) : Prints (doprnt e fmt) := by
  induction hn : fmt.length using Nat.strong_induction_on generalizing fmt with
  | _ n ih =>
    intro argp mem cnt
    cases fmt with
    | nil =>
      simp only [doprnt]
      exact printsOn_some
    | cons c fmt =>
      rw [length_cons] at hn
      by_cases hc : c = '%'
      · subst hc
        simp only [doprnt_percent]
        cases hf : rflag e {} argp fmt with
        | none => exact printsOn_none
        | some r =>
          obtain ⟨s, i, _ | ⟨c, fmt'⟩⟩ := r
          · exact printsOn_some
          · have hle := rflag_length hf
            rw [length_cons] at hle
            exact (conversion_prints i mem cnt).bind (ih fmt'.length (by omega) fmt' rfl)
      · simp only [doprnt_plain hc]
        exact (printsOn_putc argp mem cnt c).bind (ih fmt.length (by omega) fmt rfl)

/-- `"a%#06x|%+-4d|%%"` with 255 and 7. -/
example : (doprnt ⟨fun i => if i = 0 then 255 else 7, fun _ => true, '\x00'⟩
    "a%#06x|%+-4d|%%".toList
    ⟨0, fun _ => 0, 0, ⟨[], intMax⟩⟩).map (fun st => (st.cnt, st.argp, st.fp.written)) =
      some (14, 2, "a0x00ff|+7  |%".toList) := by
  decide +kernel

end Doprnt
