import Dj64.Stdio.Doprnt

/-!
# `vasprintf` and `vasnprintf`

Both format twice, first to measure and then to store, from one argument list.  A list that is
passed on is the caller's list: the second pass takes the arguments from where the first one left
it.
-/

namespace Asprintf

open ByteMemory Doprnt List Nat Function

/-- A block of memory. -/
structure Block where
  size : ℕ
  byte : ℕ → Char

/-- A text and its `NUL` lie at the start of the block. -/
def Block.Holds (b : Block) (t : List Char) : Prop :=
  t.length < b.size ∧ (∀ i c, t[i]? = some c → b.byte i = c) ∧ b.byte t.length = '\x00'

section Model

variable (e : Env)

/-- `_doprnt` to a stream with room for `n` characters. -/
def printTo (n : ℕ) (fmt : List Char) (argp : ℕ) (mem : Mem) : Option State :=
  doprnt e fmt ⟨argp, mem, 0, ⟨[], n⟩⟩

/-- `vsprintf`: the length, the text, and the list and the memory as they are left. -/
def vsprintf (fmt : List Char) (argp : ℕ) (mem : Mem) : Option (ℕ × List Char × ℕ × Mem) :=
  (printTo e intMax fmt argp mem).map fun st => (st.cnt, st.fp.written, st.argp, st.mem)

def stored (init : ℕ → Char) (fp : File) : ℕ → Char := fun i => (fp.written[i]?).getD (init i)

def strclosew (bytes : ℕ → Char) (fp : File) : ℕ → Char :=
  update bytes fp.written.length '\x00'

/-- `vasprintf`: the length, or `EOF`, and the string.  `malloc` gives the bytes of the new block.
-/
def vasprintf (malloc : ℕ → Option (ℕ → Char)) (fmt : List Char) (argp : ℕ) (mem : Mem) :
    Option (ℤ × Option Block) :=
  match printTo e 0 fmt argp mem with
  | none => none
  | some st =>
    if intMax < st.cnt + 1 then none
    else
      match malloc (st.cnt + 1) with
      | none => some (-1, none)
      | some init =>
        match printTo e st.cnt fmt st.argp st.mem with
        | none => none
        | some st' => some (st'.cnt, some ⟨st.cnt + 1, strclosew (stored init st'.fp) st'.fp⟩)

/-- What `vasnprintf` does with its buffer, which has room for `len` characters and a `NUL`. -/
def fillBuffer (len : ℕ) (init : ℕ → Char) (np : ℕ) (fmt : List Char) (argp : ℕ) (mem : Mem) :
    Option (ℕ × Option Block) :=
  match printTo e len fmt argp mem with
  | none => none
  | some st =>
    if 0 < st.cnt then some (st.cnt, some ⟨len + 1, strclosew (stored init st.fp) st.fp⟩)
    else some (np, some ⟨len + 1, stored init st.fp⟩)

/-- `vasnprintf(str, np, fmt, argsp)`: the value of `*np` and the string.  The size is an `int`. -/
def vasnprintf (malloc : ℕ → Option (ℕ → Char)) (str : Option (ℕ → Char)) (np : ℕ)
    (fmt : List Char) (argp : ℕ) (mem : Mem) : Option (ℕ × Option Block) :=
  match str, decide (0 < Int.bmod np (2 ^ 32)) with
  | some init, true => fillBuffer e ((Int.bmod np (2 ^ 32)).toNat - 1) init np fmt argp mem
  | _, _ =>
    match printTo e 0 fmt argp mem with
    | none => none
    | some st =>
      if intMax < st.cnt + 1 then none
      else
        match malloc (st.cnt + 1) with
        | none => some (np, none)
        | some init => fillBuffer e st.cnt init np fmt st.argp st.mem

end Model

/-! ### Two passes -/

variable {e : Env} {fmt t x : List Char} {argp argp' len n np : ℕ} {mem mem' : Mem}
  {init : ℕ → Char}

theorem printTo_eq (h : vsprintf e fmt argp mem = some (len, t, argp', mem')) (n : ℕ) :
    len = t.length ∧ printTo e n fmt argp mem = some
      ⟨argp', mem', t.length, ⟨t.take n, n - t.length⟩⟩ := by
  rcases doprnt_prints (e := e) fmt argp mem 0 with hn | ⟨x, argp1, mem1, hx, hs⟩
  · rw [vsprintf, printTo, show doprnt e fmt _ = none from hn _] at h
    cases h
  have hf : x.take intMax = x := by
    apply take_of_length_le
    rcases hx with rfl | hx
    · exact zero_le _
    · omega
  have hall :
    ∀ n, printTo e n fmt argp mem = some ⟨argp1, mem1, x.length, ⟨x.take n, n - x.length⟩⟩ := by
    intro n
    rw [printTo, show doprnt e fmt _ = some _ from hs _, File.puts_eq, zero_add, nil_append]
  rw [vsprintf, hall, hf] at h
  cases h
  exact ⟨rfl, hall n⟩

theorem printTo_none (h : vsprintf e fmt argp mem = none) : printTo e n fmt argp mem = none := by
  rcases doprnt_prints (e := e) fmt argp mem 0 with hn | ⟨x, argp1, mem1, -, hs⟩
  · exact hn _
  · rw [vsprintf, printTo, show doprnt e fmt _ = some _ from hs _] at h
    cases h

theorem vsprintf_plain (hp : ∀ c ∈ fmt, c ≠ '%') (hmax : fmt.length ≤ intMax) :
    vsprintf e fmt argp mem = some (fmt.length, fmt, argp, mem) := by
  have hrun : ∀ cnt fp, cnt + fmt.length ≤ intMax →
      doprnt e fmt ⟨argp, mem, cnt, fp⟩ = some ⟨argp, mem, cnt + fmt.length, fp.puts fmt⟩ := by
    clear hmax
    induction fmt with
    | nil => simp [doprnt, File.puts_nil]
    | cons c fmt ih =>
      intro cnt fp hle
      rw [length_cons] at hle
      rw [doprnt_plain (hp c (.head _)),
        if_neg (show ¬ intMax < cnt + 1 by omega), Option.bind_some,
        ih (forall_mem_cons.mp hp).2 (cnt + 1) (fp.putc c) (by omega),
        add_assoc, add_comm 1]
      rfl
  rw [vsprintf, printTo, hrun 0 _ (by omega), File.puts_eq]
  simp [take_of_length_le hmax]

def Again (e : Env) (fmt : List Char) (argp : ℕ) (mem : Mem) (t : List Char) : Prop :=
  ∃ len argp' mem', vsprintf e fmt argp mem = some (len, t, argp', mem')

/-- `vasprintf` returns the text. -/
def VasprintfRight (e : Env) (malloc : ℕ → Option (ℕ → Char)) (fmt : List Char)
    (argp : ℕ) (mem : Mem) (t : List Char) : Prop :=
  ∃ b : Block, vasprintf e malloc fmt argp mem = some ((t.length : ℤ), some b) ∧ b.Holds t

/-- `vasnprintf` returns the text. -/
def VasnprintfRight (e : Env) (malloc : ℕ → Option (ℕ → Char)) (str : Option (ℕ → Char)) (np : ℕ)
    (fmt : List Char) (argp : ℕ) (mem : Mem) (t : List Char) : Prop :=
  ∃ b : Block, vasnprintf e malloc str np fmt argp mem = some (t.length, some b) ∧ b.Holds t

/-! ### What is stored -/

theorem strclosew_holds (init : ℕ → Char) (t : List Char) (n : ℕ) :
    Block.Holds ⟨t.length + 1, strclosew (stored init ⟨t, n⟩) ⟨t, n⟩⟩ t := by
  refine ⟨lt_succ_self _, fun i c hi => ?_, update_self ..⟩
  obtain ⟨hlt, -⟩ := List.getElem?_eq_some_iff.mp hi
  change strclosew (stored init ⟨t, n⟩) ⟨t, n⟩ i = c
  rw [strclosew, update_of_ne (show i ≠ t.length by omega)]
  simp [stored, hi]

theorem strclosew_holds_iff (init : ℕ → Char) :
    (x.length = t.length ∧ Block.Holds ⟨t.length + 1, strclosew (stored init ⟨x.take t.length, n⟩)
      ⟨x.take t.length, n⟩⟩ t) ↔ x = t := by
  constructor
  · rintro ⟨hlen, h⟩
    rw [take_of_length_le hlen.le] at h
    apply ext_getElem hlen
    intro i hx ht
    have hi := h.2.1 i _ (getElem?_eq_getElem ht)
    rw [← hi]
    change _ = strclosew (stored init ⟨x, n⟩) ⟨x, n⟩ i
    rw [strclosew, update_of_ne (show i ≠ x.length by omega)]
    simp [stored, getElem?_eq_getElem hx]
  · rintro rfl
    rw [take_of_length_le le_rfl]
    exact ⟨rfl, strclosew_holds init x n⟩

/-! ### The two functions -/

/-- What either function returns is right if its `answer` to the second pass is. -/
theorem second_pass_iff {β : Type} {r : Option (β × Option Block)} {k : β} {Q : List Char → Prop}
    {answer : State → β × Option Block}
    (hr : r = if intMax < t.length + 1 then none
      else (printTo e t.length fmt argp mem).map answer)
    (hQ : ∀ x argp' mem', (∃ b, answer ⟨argp', mem', x.length,
      ⟨x.take t.length, t.length - x.length⟩⟩ = (k, some b) ∧ b.Holds t) ↔ Q x) :
    (∃ b, r = some (k, some b) ∧ b.Holds t) ↔
      t.length < intMax ∧ ∃ x, Again e fmt argp mem x ∧ Q x := by
  by_cases hmax : intMax < t.length + 1
  · simp [hr, hmax, show ¬ t.length < intMax by omega]
  cases hs : vsprintf e fmt argp mem with
  | none => simp [hr, printTo_none hs, Again, hs]
  | some s =>
    obtain ⟨len, x, argp', mem'⟩ := s
    simp [hr, hmax, (printTo_eq hs t.length).2, hQ, Again, hs, show t.length < intMax by omega]

variable {malloc : ℕ → Option (ℕ → Char)}

theorem vasprintf_eq (h : vsprintf e fmt argp mem = some (t.length, t, argp', mem'))
    (hm : malloc (t.length + 1) = some init) :
    vasprintf e malloc fmt argp mem = if intMax < t.length + 1 then none
      else (printTo e t.length fmt argp' mem').map fun st =>
        ((st.cnt : ℤ), some ⟨t.length + 1, strclosew (stored init st.fp) st.fp⟩) := by
  simp only [vasprintf, (printTo_eq h 0).2, hm]
  cases printTo e t.length fmt argp' mem' <;> rfl

variable {str : Option (ℕ → Char)}

theorem vasnprintf_eq (h : vsprintf e fmt argp mem = some (t.length, t, argp', mem'))
    (hm : malloc (t.length + 1) = some init) (hz : str = none ∨ np = 0) :
    vasnprintf e malloc str np fmt argp mem = if intMax < t.length + 1 then none
      else (printTo e t.length fmt argp' mem').map fun st =>
        if 0 < st.cnt then (st.cnt, some ⟨t.length + 1, strclosew (stored init st.fp) st.fp⟩)
        else (np, some ⟨t.length + 1, stored init st.fp⟩) := by
  have hn : vasnprintf e malloc str np fmt argp mem = if intMax < t.length + 1 then none
      else fillBuffer e t.length init np fmt argp' mem' := by
    unfold vasnprintf
    rcases hz with rfl | rfl
    · simp [(printTo_eq h 0).2, hm]
    · cases str <;> simp [(printTo_eq h 0).2, hm]
  rw [hn, fillBuffer]
  cases printTo e t.length fmt argp' mem' <;> simp [apply_ite some]

/-- **When `vasprintf` and `vasnprintf` return what `vsprintf` prints**: when the second pass, which
takes what lies behind the arguments, prints the same text; and for the empty text, after which
`vasnprintf` closes nothing, when the new block starts with a `NUL` by chance. -/
theorem asprintf_right_iff (malloc : ℕ → Option (ℕ → Char))
    (h : vsprintf e fmt argp mem = some (len, t, argp', mem'))
    (hmalloc : malloc (len + 1) = some init) (hzero : str = none ∨ np = 0) :
    (VasprintfRight e malloc fmt argp mem t ↔ len < intMax ∧ Again e fmt argp' mem' t) ∧
      (VasnprintfRight e malloc str np fmt argp mem t ↔
        len < intMax ∧ ((t ≠ [] ∧ Again e fmt argp' mem' t) ∨
          (Again e fmt argp' mem' [] ∧ np = t.length ∧ Block.Holds ⟨t.length + 1, init⟩ t))) := by
  obtain ⟨rfl, -⟩ := printTo_eq h 0
  constructor
  · rw [VasprintfRight, second_pass_iff (vasprintf_eq h hmalloc) (Q := (· = t)), exists_eq_right]
    simp [strclosew_holds_iff]
  rw [VasnprintfRight, second_pass_iff (vasnprintf_eq h hmalloc hzero) (Q := fun x =>
    (t ≠ [] ∧ x = t) ∨ (x = [] ∧ np = t.length ∧ Block.Holds ⟨t.length + 1, init⟩ t))]
  · simp [and_or_left, exists_or, and_comm]
  intro x _ _
  cases x with
  | nil =>
    have hst : stored init ⟨[], t.length⟩ = init := by
      funext i
      simp [stored]
    simp +contextual [hst]
  | cons c x =>
    have hx : t ≠ [] ∧ c :: x = t ↔ c :: x = t := and_iff_right_of_imp fun h => h ▸ cons_ne_nil c x
    rw [hx, ← strclosew_holds_iff init (n := t.length - (c :: x).length)]
    simp

def counting : Env := ⟨fun i => UInt64.ofNat (i + 1), fun _ => false, '\x00'⟩

theorem asprintf_right_iff_plain :
    VasprintfRight counting (fun _ => some fun _ => 'x') "dos".toList 0 (fun _ => 0) "dos".toList ∧
      VasnprintfRight counting (fun _ => some fun _ => 'x') none 9 "dos".toList 0
        (fun _ => 0) "dos".toList := by
  have hp : vsprintf counting "dos".toList 0 (fun _ => 0) = some (3, "dos".toList, 0, fun _ => 0) :=
    vsprintf_plain (by simp) (by decide)
  have ha : Again counting "dos".toList 0 (fun _ => 0) "dos".toList := ⟨3, 0, _, hp⟩
  have hz : (none : Option (ℕ → Char)) = none ∨ 9 = 0 := .inl rfl
  have hiff := asprintf_right_iff (fun _ => some fun _ => 'x') hp rfl hz
  exact ⟨hiff.1.mpr ⟨by decide, ha⟩, hiff.2.mpr ⟨by decide, .inl ⟨by decide, ha⟩⟩⟩

/-- `vasprintf` prints the second argument for `%d`; and `vasnprintf` neither stores a `NUL` nor a
length for the empty format. -/
theorem asprintf_second_argument :
    (vsprintf counting "%d".toList 0 (fun _ => 0)).map (fun r => r.2.1) = some "1".toList ∧
      (vasprintf counting (fun _ => some fun _ => 'x') "%d".toList 0 (fun _ => 0)).map
        (fun r => (r.1, r.2.map fun b => (range b.size).map b.byte)) = some
          (1, some ['2', '\x00']) ∧
      (vasnprintf counting (fun _ => some fun _ => 'x') none 9 [] 0 (fun _ => 0)).map
        (fun r => (r.1, r.2.map fun b => (range b.size).map b.byte)) = some
          (9, some ['x']) := by
  decide +kernel

end Asprintf
