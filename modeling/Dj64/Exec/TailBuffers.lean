import Dj64.Lib.Buffers
import Dj64.Exec.Spawn

/-!
# The buffers for command tails

The loops of `direct_exec`, `__dosexec_command_exec` and `go32_exec` that write a command tail, with
every store checked against the size of the buffer.

* `directExecStores`, `commandStores`, `go32Stores`: the loops.
* `argWidth`, `commandWidth`: the bytes that an argument takes with its quotes.
* `tails_inBounds_iff`: when all stores are inside of the buffers.
-/

namespace Exec

open Buffers Runs List Nat

/-- A store outside of a buffer. -/
inductive Overrun where
  | overrun
  deriving DecidableEq, Repr

namespace TailBuffers

/-! ### The stores -/

/-- The loop of `direct_exec` over an argument. -/
def argLoop (size limit : ℕ) (escape unescape : Bool) : Bytes → Bytes → Except Overrun Bytes
  | [], line => .ok line
  | c :: rest, line =>
    if limit < line.length then .ok line
    else if c = doubleQuote ∧ escape then do
      let line ← put .overrun size line backslash
      if limit < line.length then .ok line
      else
        let line ← put .overrun size line c
        argLoop size limit escape unescape rest line
    else
      match rest with
      | [] => put .overrun size line c
      | d :: rest' =>
        if c = backslash ∧ d = singleQuote ∧ unescape then do
          let line ← put .overrun size line d
          argLoop size limit escape unescape rest' line
        else do
          let line ← put .overrun size line c
          argLoop size limit escape unescape (d :: rest') line

/-- The loop of `direct_exec` over the arguments. -/
def argsLoop (size limit : ℕ) (needQuote unescape : Bool) :
    List Bytes → Bytes → Except Overrun Bytes
  | [], line => .ok line
  | p :: args, line =>
    let quoted := needQuote && p.any fun c => c == 32 || c == 9
    if limit < line.length then .ok line
    else do
      let line ← put .overrun size line blank
      if quoted && limit < line.length then .ok line
      else
        let line ← putIf .overrun size quoted line doubleQuote
        let line ← argLoop size limit needQuote unescape p line
        let line ← putIf .overrun size (quoted && line.length ≤ limit) line doubleQuote
        argsLoop size limit needQuote unescape args line

/-- `direct_exec` does not use its buffer for shells with a larger limit. -/
def passedOn (sys : System) (program : Bytes) : Bool :=
  (isDosShell program || isUnixyShell program) && cmdlenLimit < shellCmdlineLimit sys program

/-- `direct_exec`, up to the call of `direct_exec_tail`. -/
def directExecStores (sys : System) (program : Bytes) (argv : List Bytes) :
    Except Overrun (Option Bytes) :=
  if passedOn sys program then .ok none
  else do
    let argp ← argsLoop (cmdlenLimit + 1) cmdlenLimit (needQuote sys program argv)
      (unescapeQuote sys program) (argv.drop 1) []
    let args ← terminate .overrun (cmdlenLimit + 1) argp
    return some args

/-- `cmdlen` of `__dosexec_command_exec`. -/
def cmdlen (real : Bytes) (argv : List Bytes) : ℕ :=
  real.length + 4 + 2 + (argv.map fun arg => 2 * arg.length + 1).sum

/-- The loop of `__dosexec_command_exec` over an argument with special characters. -/
def escapeLoop (size : ℕ) : Bool → Bytes → Bytes → Except Overrun Bytes
  | _, [], d => .ok d
  | outside, c :: s, d =>
    if c = doubleQuote then do
      let d ← put .overrun size d backslash
      let d ← put .overrun size d c
      escapeLoop size (!outside) s d
    else if outside ∧ (text "|<>").contains c then do
      let d ← put .overrun size d doubleQuote
      let d ← put .overrun size d c
      let d ← put .overrun size d doubleQuote
      escapeLoop size outside s d
    else if c = 37 then do
      let d ← put .overrun size d c
      let d ← put .overrun size d c
      escapeLoop size outside s d
    else do
      let d ← put .overrun size d c
      escapeLoop size outside s d

/-- An argument of `__dosexec_command_exec`, without the terminator. -/
def commandArgStores (sys : System) (size : ℕ) (arg line : Bytes) : Except Overrun Bytes :=
  if !sys.inSystem && arg.any (text " \t<>|'\"%").contains then do
    let d ← put .overrun size line doubleQuote
    let d ← escapeLoop size false arg d
    put .overrun size d doubleQuote
  else puts .overrun size line arg

/-- The loop of `__dosexec_command_exec` over the arguments. -/
def commandArgsLoop (sys : System) (size : ℕ) : List Bytes → Bytes → Except Overrun Bytes
  | [], line => .ok line
  | arg :: args, line => do
    let line ← puts .overrun size line [blank]
    let line ← terminate .overrun size line
    let line ← commandArgStores sys size arg line
    let line ← terminate .overrun size line
    commandArgsLoop sys size args line

/-- `__dosexec_command_exec`, up to the search for the shell. -/
def commandStores (sys : System) (program real : Bytes) (argv : List Bytes) :
    Except Overrun Bytes := do
  let size := cmdlen real argv
  let wasQuoted := real.contains 32 || real.contains 9
  let line ← puts .overrun size [] (text "/c ")
  let line ← terminate .overrun size line
  let line ← putIf .overrun size wasQuoted line doubleQuote
  let line ← puts .overrun size line (commandName program real)
  let line ← putIf .overrun size wasQuoted line doubleQuote
  let line ← terminate .overrun size line
  commandArgsLoop sys size (argv.drop 1) line

/-- The inner loop of `go32_exec` over an argument. -/
def copyLoop (size : ℕ) : Bytes → Bytes → Except Overrun Bytes
  | [], cmdp => .ok cmdp
  | c :: p, cmdp =>
    if cmdlenLimit < cmdp.length then .ok cmdp
    else do
      let cmdp ← put .overrun size cmdp c
      copyLoop size p cmdp

/-- The loop of `go32_exec` over the arguments. -/
def systemLoop (size : ℕ) : List Bytes → Bytes → Except Overrun Bytes
  | [], cmdp => .ok cmdp
  | p :: args, cmdp =>
    if cmdlenLimit < cmdp.length then .ok cmdp
    else do
      let cmdp ← put .overrun size cmdp blank
      let cmdp ← copyLoop size p cmdp
      systemLoop size args cmdp

/-- The command tail that `go32_exec` makes in its own buffer for v2.0 programs run by `system`. -/
def go32Stores (sys : System) (type : ProgType) (program : Bytes) (argv : List Bytes) :
    Except Overrun (Option Bytes) :=
  let argv := program :: argv.drop 1
  if sys.inSystem && 1 < type.major then do
    let cmdp ← systemLoop (cmdlenLimit + 2) (if type.execFormat = .stubCoff then
      argv.drop 1 else argv) []
    let cmdline ← terminate .overrun (cmdlenLimit + 2) cmdp
    return some cmdline
  else .ok none

/-! ### Lines with a limit -/

section

variable {size limit : ℕ} {cmdp p line program s d arg real : Bytes} {args argv : List Bytes}
  {sys : System}

/-- The loop over an argument stores nothing behind the limit. -/
theorem argLoop_eq (h : limit < size) {escape unescape : Bool} :
    argLoop size limit escape unescape p line = .ok (copyArg limit escape unescape p line) := by
  fun_induction copyArg limit escape unescape p line with
  | case1 line => rfl
  | case2 c rest line hf =>
    rw [argLoop.eq_def]
    exact if_pos hf
  | case3 c rest line hr hq hf =>
    rw [argLoop.eq_def]
    dsimp only
    rw [if_neg hr, if_pos hq, put_ok (by omega), ok_bind, if_pos (by simpa using hf)]
  | case4 c rest line hr hq hr' ih =>
    have hlen : (line ++ [backslash]).length = line.length + 1 := by simp
    rw [argLoop.eq_def]
    dsimp only
    rw [if_neg hr, if_pos hq, put_ok (by omega), ok_bind, if_neg (by omega),
      put_ok (by omega), ok_bind, append_assoc]
    exact ih
  | case5 c line hr hq =>
    rw [argLoop.eq_def]
    dsimp only
    rw [if_neg hr, if_neg hq, put_ok (by omega)]
  | case6 c line hr hq d rest he ih =>
    rw [argLoop.eq_def]
    dsimp only
    rw [if_neg hr, if_neg hq, if_pos he, put_ok (by omega), ok_bind]
    exact ih
  | case7 c line hr hq d rest he ih =>
    rw [argLoop.eq_def]
    dsimp only
    rw [if_neg hr, if_neg hq, if_neg he, put_ok (by omega), ok_bind]
    exact ih

/-- The loop over the arguments stores nothing behind the limit. -/
theorem argsLoop_eq (h : limit < size) {quotes unescape : Bool} :
    argsLoop size limit quotes unescape args line = .ok
      (copyArgs limit quotes unescape args line) := by
  induction args generalizing line with
  | nil => rfl
  | cons p args ih =>
    rw [argsLoop, copyArgs]
    dsimp only
    generalize (quotes && p.any fun c => c == 32 || c == 9) = quoted
    by_cases hf : limit < line.length
    · rw [if_pos hf, if_pos hf]
    rw [if_neg hf, if_neg hf, put_ok (by omega), ok_bind, length_append, length_singleton]
    by_cases hb : (quoted && decide (limit < line.length + 1))
    · rw [if_pos hb, if_pos hb]
    have ho : putIf Overrun.overrun size quoted (line ++ [blank]) doubleQuote =
        .ok (line ++ [blank] ++ if quoted then [doubleQuote] else []) := by
      rw [putIf_eq_puts, puts_ok]
      cases quoted with
      | false =>
        simp
        omega
      | true =>
        have hr : line.length + 1 ≤ limit := by simpa using hb
        simp
        omega
    rw [if_neg hb, if_neg hb, ho, ok_bind, argLoop_eq h, ok_bind]
    generalize copyArg limit quotes unescape p
      (line ++ [blank] ++ if quoted then [doubleQuote] else []) = line'
    by_cases hc : (quoted && decide (line'.length ≤ limit))
    · have hr : line'.length ≤ limit := by simpa using (Bool.and_eq_true_iff.mp hc).2
      rw [hc, if_pos rfl, putIf, if_pos rfl, put_ok (by omega), ok_bind, ih]
    · rw [putIf, if_neg hc, if_neg hc, ok_bind, ih]

/-- **The buffer of `direct_exec`** has no room for the terminator of a tail of 127 bytes. -/
theorem directExecStores_ok_iff :
    (∃ args, directExecStores sys program argv = .ok args) ↔
      passedOn sys program ∨ (directExecArgs sys program argv).length ≤ cmdlenLimit := by
  rw [directExecStores, directExecArgs]
  by_cases hp : passedOn sys program
  · rw [if_pos hp]
    exact iff_of_true ⟨_, rfl⟩ (.inl hp)
  rw [if_neg hp, argsLoop_eq (Nat.lt_succ_self _), ok_bind, or_iff_right hp, ← Nat.lt_succ_iff]
  generalize copyArgs cmdlenLimit (needQuote sys program argv) (unescapeQuote sys program)
    (argv.drop 1) [] = argp
  by_cases hlt : argp.length < cmdlenLimit + 1
  · rw [terminate_ok hlt]
    exact iff_of_true ⟨_, rfl⟩ hlt
  · rw [terminate_error hlt]
    exact iff_of_false (by simp) hlt

theorem copyLoop_eq (h : cmdlenLimit < size) (hc : cmdp.length ≤ cmdlenLimit + 1) :
    copyLoop size p cmdp = .ok (cmdp ++ p.take (cmdlenLimit + 1 - cmdp.length)) := by
  induction p generalizing cmdp with
  | nil => simp [copyLoop]
  | cons c p ih =>
    have hlen : (cmdp ++ [c]).length = cmdp.length + 1 := by simp
    rw [copyLoop]
    by_cases hf : cmdlenLimit < cmdp.length
    · rw [if_pos hf, show cmdlenLimit + 1 - cmdp.length = 0 by omega]
      simp
    · obtain ⟨n, hn⟩ : ∃ n, cmdlenLimit + 1 - cmdp.length = n + 1 :=
        ⟨cmdlenLimit - cmdp.length, by omega⟩
      rw [if_neg hf, put_ok (by omega), ok_bind, ih (by omega), hlen, hn, take_succ_cons,
        append_assoc, show cmdlenLimit + 1 - (cmdp.length + 1) = n by omega]
      rfl

theorem systemLoop_eq (h : cmdlenLimit < size) (hc : cmdp.length ≤ cmdlenLimit + 1) :
    systemLoop size args cmdp = .ok (systemTail args cmdp) ∧
      (systemTail args cmdp).length ≤ cmdlenLimit + 1 := by
  induction args generalizing cmdp with
  | nil => exact ⟨rfl, hc⟩
  | cons p args ih =>
    rw [systemLoop, systemTail]
    by_cases hf : cmdlenLimit < cmdp.length
    · rw [if_pos hf, if_pos hf]
      exact ⟨rfl, hc⟩
    have hlen : (cmdp ++ [blank]).length = cmdp.length + 1 := by simp
    rw [if_neg hf, if_neg hf, put_ok (by omega), ok_bind, copyLoop_eq h (by omega), ok_bind, hlen]
    refine ih ?_
    rw [length_append, length_take, hlen]
    omega

theorem go32Stores_ok {type : ProgType} :
    ∃ cmdline, go32Stores sys type program argv = .ok cmdline := by
  rw [go32Stores]
  by_cases hs : (sys.inSystem && decide (1 < type.major))
  · rw [if_pos hs]
    generalize (if type.execFormat = .stubCoff then (program :: argv.drop 1).drop 1
      else program :: argv.drop 1) = args
    obtain ⟨hl, hlen⟩ := systemLoop_eq (show cmdlenLimit < cmdlenLimit + 2 by omega)
      (show ([] : Bytes).length ≤ cmdlenLimit + 1 from zero_le _)
    rw [hl, ok_bind, terminate_ok (by omega), ok_bind]
    exact ⟨_, rfl⟩
  · rw [if_neg hs]
    exact ⟨_, rfl⟩

/-! ### The command line for a shell -/

theorem escapeLoop_eq {outside : Bool} :
    escapeLoop size outside s d = puts .overrun size d (commandEscape outside s) := by
  induction s generalizing outside d with
  | nil => rfl
  | cons c s ih =>
    rw [escapeLoop, commandEscape]
    split_ifs
    · simp only [ih]
      rfl
    · simp only [ih]
      rfl
    · simp only [ih]
      rfl
    · simp only [ih]
      rfl

theorem commandArgStores_eq :
    commandArgStores sys size arg line = puts .overrun size line (commandArg sys arg) := by
  rw [commandArgStores, commandArg]
  split_ifs
  · rw [puts_append, puts_append]
    simp only [escapeLoop_eq, put_eq_puts, bind_assoc]
  · rfl

/-- The arguments behind the name of the program, with the terminators in between. -/
theorem commandArgsLoop_eq :
    (terminate .overrun size line >>= commandArgsLoop sys size args) =
      puts .overrun size line (args.flatMap fun arg => blank :: commandArg sys arg) >>=
        terminate .overrun size := by
  induction args generalizing line with
  | nil =>
    rw [flatMap_nil, puts, ok_bind]
    cases terminate Overrun.overrun size line <;> rfl
  | cons arg args ih =>
    have hr (l : Bytes) : (terminate .overrun size l >>= fun l =>
        commandArgStores sys size arg l >>= fun l =>
          terminate .overrun size l >>= commandArgsLoop sys size args) =
        puts .overrun size l (commandArg sys arg ++ args.flatMap fun arg =>
          blank :: commandArg sys arg) >>=
          terminate .overrun size := by
      simp only [ih, commandArgStores_eq, ← bind_assoc, ← puts_append]
      simp only [bind_assoc, terminate_puts]
    calc
      _ = terminate .overrun size line >>= fun line => puts .overrun size line [blank] >>= fun l =>
            terminate .overrun size l >>= fun l => commandArgStores sys size arg l >>= fun l =>
              terminate .overrun size l >>= commandArgsLoop sys size args := rfl
      _ = terminate .overrun size line >>= fun line => puts .overrun size line ([blank] ++
            (commandArg sys arg ++ args.flatMap fun arg => blank :: commandArg sys arg)) >>=
              terminate .overrun size := by
        simp only [hr, puts_append, bind_assoc]
      _ = _ := terminate_puts _

/-- **The command line for a shell** is stored with its terminator. -/
theorem commandStores_eq :
    commandStores sys program real argv =
      puts .overrun (cmdlen real argv) [] (commandLine sys program real argv) >>=
        terminate .overrun (cmdlen real argv) := by
  obtain ⟨quote, hq⟩ : ∃ quote : Bytes,
      quote = if real.contains 32 || real.contains 9 then [doubleQuote] else [] := ⟨_, rfl⟩
  have hn : (if real.contains 32 || real.contains 9 then
        [doubleQuote] ++ commandName program real ++ [doubleQuote] else commandName program real) =
      quote ++ commandName program real ++ quote := by
    rw [hq]
    split_ifs
    · rfl
    · rw [nil_append, append_nil]
  rw [commandStores, commandLine, hn]
  simp only [putIf_eq_puts, ← hq, commandArgsLoop_eq, ← bind_assoc, ← puts_append]
  simp only [bind_assoc, terminate_puts]
  rw [← bind_assoc, ← puts_append]
  simp only [append_assoc]

/-! ### How long the lines are -/

/-- The quotes behind a backslash. -/
def pairs : Bytes → ℕ
  | c :: d :: p => (if c = backslash ∧ d = singleQuote then 1 else 0) + pairs (d :: p)
  | _ => 0

theorem pairs_le_length (p : Bytes) : pairs p ≤ p.length := by
  fun_induction pairs p with
  | case1 c d p ih =>
    rw [length_cons]
    split_ifs <;> omega
  | case2 => exact Nat.zero_le _

theorem pairs_of_ne {c : UInt8} (hc : c ≠ backslash) (p : Bytes) : pairs (c :: p) = pairs p := by
  cases p with
  | nil => rfl
  | cons d p => rw [pairs, if_neg fun h => hc h.1, Nat.zero_add]

/-- An argument in the tail of `direct_exec`: the blank, and what is added and left out. -/
def argWidth (quotes : Bool) (p : Bytes) : ℕ :=
  1 + p.length + if quotes then
    p.count doubleQuote + if p.any fun c => c == 32 || c == 9 then 2 else 0 else 0

theorem copyArg_length (limit : ℕ) (escape unescape : Bool) (p line : Bytes) :
    (copyArg limit escape unescape p line).length + (if unescape then pairs p else 0) =
        line.length + p.length + (if escape then p.count doubleQuote else 0) ∨
      limit < (copyArg limit escape unescape p line).length ∧
        limit + (if unescape then pairs p else 0) <
          line.length + p.length + if escape then p.count doubleQuote else 0 := by
  fun_induction copyArg limit escape unescape p line with
  | case1 line => simp [pairs]
  | case2 c rest line hf =>
    have := pairs_le_length (c :: rest)
    right
    split_ifs <;> omega
  | case3 c rest line hr hq hf =>
    have := pairs_le_length rest
    right
    rw [hq.1, pairs_of_ne (by decide), hq.2, if_pos rfl, count_cons_self]
    simp only [length_append, length_cons, length_nil]
    split_ifs <;> omega
  | case4 c rest line hr hq hr' ih =>
    rw [hq.2, if_pos rfl] at ih ⊢
    rw [hq.1] at ih ⊢
    rw [pairs_of_ne (by decide), count_cons_self]
    simp only [length_append, length_cons, length_nil] at ih ⊢
    omega
  | case5 c line hr hq =>
    have hcount : (if escape then [c].count doubleQuote else 0) = 0 := by
      split_ifs with he
      · exact count_eq_zero.mpr fun h => hq ⟨(mem_singleton.mp h).symm, he⟩
      · rfl
    left
    rw [hcount]
    simp [pairs]
  | case6 c line hr hq d rest he ih =>
    obtain ⟨hc, hd, hu⟩ := he
    rw [hu, if_pos rfl] at ih ⊢
    rw [hd] at ih
    rw [hc, hd, pairs, if_pos ⟨rfl, rfl⟩, pairs_of_ne (by decide), count_cons_of_ne (by decide),
      count_cons_of_ne (by decide)]
    simp only [length_append, length_cons, length_nil] at ih ⊢
    omega
  | case7 c line hr hq d rest he ih =>
    have hpairs : (if unescape then pairs (c :: d :: rest) else 0) =
        if unescape then pairs (d :: rest) else 0 := by
      split_ifs with hu
      · rw [pairs, if_neg fun h => he ⟨h.1, h.2, hu⟩, Nat.zero_add]
      · rfl
    have hcount : (if escape then (c :: d :: rest).count doubleQuote else 0) =
        if escape then (d :: rest).count doubleQuote else 0 := by
      split_ifs with hes
      · rw [count_cons_of_ne fun h => hq ⟨h, hes⟩]
      · rfl
    rw [hpairs, hcount]
    simp only [length_append, length_cons, length_nil] at ih ⊢
    omega

theorem copyArgs_length (limit : ℕ) (quotes unescape : Bool) (args : List Bytes) (line : Bytes) :
    (copyArgs limit quotes unescape args line).length +
        (if unescape then (args.map pairs).sum else 0) =
        line.length + (args.map (argWidth quotes)).sum ∨
      limit < (copyArgs limit quotes unescape args line).length ∧
        limit + (if unescape then (args.map pairs).sum else 0) <
          line.length + (args.map (argWidth quotes)).sum := by
  have hle (args : List Bytes) : (if unescape then (args.map pairs).sum else 0) ≤
      (args.map (argWidth quotes)).sum := by
    split_ifs
    · refine sum_le_sum fun p _ => (pairs_le_length p).trans ?_
      rw [argWidth]
      omega
    · exact Nat.zero_le _
  induction args generalizing line with
  | nil => simp [copyArgs]
  | cons p args ih =>
    have hargs := hle args
    have hp := pairs_le_length p
    have hsum : (if unescape then ((p :: args).map pairs).sum else 0) =
        (if unescape then pairs p else 0) + if unescape then (args.map pairs).sum else 0 := by
      split_ifs <;> simp
    have hp' : (if unescape then pairs p else 0) ≤ p.length := by
      split_ifs
      exacts [hp, Nat.zero_le _]
    have hw : argWidth quotes p = 1 + p.length + (if quotes then p.count doubleQuote else 0) +
        if quotes && p.any fun c => c == 32 || c == 9 then 2 else 0 := by
      unfold argWidth
      cases quotes <;> simp [Nat.add_assoc]
    rw [hsum, map_cons, sum_cons, hw, copyArgs]
    dsimp only
    generalize (quotes && p.any fun c => c == 32 || c == 9) = quoted
    have harg := copyArg_length limit quotes unescape p
      (line ++ [blank] ++ if quoted then [doubleQuote] else [])
    generalize copyArg limit quotes unescape p
      (line ++ [blank] ++ if quoted then [doubleQuote] else []) = line' at *
    generalize (if unescape then pairs p else 0) = pp at *
    by_cases hf : limit < line.length
    · rw [if_pos hf]
      omega
    rw [if_neg hf]
    by_cases hb : (quoted && decide (limit < line.length + 1))
    · rw [if_pos hb, length_append, length_singleton]
      simp only [Bool.and_eq_true, decide_eq_true_eq] at hb
      omega
    rw [if_neg hb]
    have hlast := ih (if (quoted && decide (line'.length ≤ limit)) = true then
      line' ++ [doubleQuote] else line')
    generalize copyArgs limit quotes unescape args _ = last at *
    cases quoted with
    | false =>
      simp only [Bool.false_and, Bool.false_eq_true, if_false, append_nil, length_append,
        length_singleton] at harg hlast ⊢
      omega
    | true =>
      by_cases hl : line'.length ≤ limit
      · simp only [hl, Bool.true_and, decide_true, if_true, length_append, length_singleton]
          at harg hlast ⊢
        omega
      · simp only [hl, Bool.true_and, decide_false, Bool.false_eq_true, if_false, if_true,
          length_append, length_singleton] at harg hlast ⊢
        omega

theorem directExecArgs_length_le_iff : (directExecArgs sys program argv).length ≤ cmdlenLimit ↔
    ((argv.drop 1).map (argWidth (needQuote sys program argv))).sum ≤
      cmdlenLimit + if unescapeQuote sys program then ((argv.drop 1).map pairs).sum else 0 := by
  have := copyArgs_length cmdlenLimit (needQuote sys program argv) (unescapeQuote sys program)
    (argv.drop 1) []
  rw [length_nil, Nat.zero_add] at this
  rw [directExecArgs]
  omega

/-- The bytes `|`, `<` and `>` that stand outside of the inner quotes. -/
def exposed : Bool → Bytes → ℕ
  | _, [] => 0
  | outside, c :: s =>
    if c = doubleQuote then exposed (!outside) s
    else (if outside ∧ (text "|<>").contains c then 1 else 0) + exposed outside s

/-- An argument in the command of `__dosexec_command_exec`, with its quotes. -/
def commandWidth (sys : System) (arg : Bytes) : ℕ :=
  arg.length + if !sys.inSystem && arg.any (text " \t<>|'\"%").contains then
    2 + arg.count doubleQuote + arg.count 37 + 2 * exposed false arg else 0

theorem commandEscape_length (outside : Bool) (s : Bytes) : (commandEscape outside s).length =
    s.length + s.count doubleQuote + s.count 37 + 2 * exposed outside s := by
  induction s generalizing outside with
  | nil => rfl
  | cons c s ih =>
    rw [commandEscape, exposed]
    by_cases hq : c = doubleQuote
    · simp only [hq, if_true, length_cons, ih, count_cons_self]
      rw [count_cons_of_ne (by decide)]
      omega
    simp only [hq, if_false]
    rw [count_cons_of_ne hq]
    by_cases ho : outside ∧ (text "|<>").contains c
    · have h37 : c ≠ 37 := by
        rintro rfl
        exact absurd ho.2 (by decide)
      simp only [ho, and_self, if_true, length_cons, ih]
      rw [count_cons_of_ne h37]
      omega
    · rw [if_neg ho, if_neg ho]
      by_cases h37 : c = 37
      · simp only [h37, if_true, length_cons, ih, count_cons_self]
        omega
      · rw [if_neg h37, count_cons_of_ne h37, length_cons, length_cons, ih]
        omega

theorem commandName_length (program real : Bytes) :
    (commandName program real).length = real.length := by
  induction real generalizing program with
  | nil => rfl
  | cons c real ih =>
    rw [commandName]
    split_ifs <;> simp [ih]

theorem commandLine_length : (commandLine sys program real argv).length =
    3 + real.length + (if real.contains 32 || real.contains 9 then 2 else 0) +
      ((argv.drop 1).map fun arg => 1 + commandWidth sys arg).sum := by
  have harg (arg : Bytes) : (blank :: commandArg sys arg).length = 1 + commandWidth sys arg := by
    rw [commandArg, commandWidth, length_cons]
    split_ifs
    · simp only [length_append, length_cons, length_nil, commandEscape_length]
      omega
    · omega
  have htext : (text "/c ").length = 3 := by decide
  rw [commandLine, length_append, length_append, length_flatMap, htext]
  simp only [harg]
  split_ifs <;> simp [commandName_length]
  omega

end

/-- **When command tails stay in their buffers.**  That of `go32_exec` always does.  For
`direct_exec`, a blank, the bytes and the quotes of each argument must not be more than 126, less a
backslash before each quote for `system` (or the program is a shell that is passed on).  For
`__dosexec_command_exec`, the blanks and quotes must not be more than the bytes of the arguments and
what is left for `argv[0]`. -/
theorem tails_inBounds_iff (sys : System) (type : ProgType) (program real : Bytes)
    (argv : List Bytes) :
    ((∃ args, directExecStores sys program argv = .ok args) ∧
      (∃ cmdline, commandStores sys program real argv = .ok cmdline) ∧
      ∃ cmdline, go32Stores sys type program argv = .ok cmdline) ↔
    (passedOn sys program = true ∨
      ((argv.drop 1).map (argWidth (needQuote sys program argv))).sum ≤
        cmdlenLimit + if unescapeQuote sys program then ((argv.drop 1).map pairs).sum else 0) ∧
      (if real.contains 32 || real.contains 9 then 2 else 0) +
          ((argv.drop 1).map fun arg => 1 + commandWidth sys arg).sum <
        3 + (argv.map fun arg => 2 * arg.length + 1).sum := by
  have hc : (∃ cmdline, commandStores sys program real argv = .ok cmdline) ↔
      (commandLine sys program real argv).length < cmdlen real argv := by
    rw [commandStores_eq, puts_terminate_ok_iff (zero_le _), length_nil, zero_add]
  rw [directExecStores_ok_iff, directExecArgs_length_le_iff, hc, and_iff_left go32Stores_ok,
    commandLine_length, cmdlen]
  refine and_congr_right fun _ => ?_
  omega

/-- An argument of 126 bytes, and six arguments that are a blank each. -/
theorem tails_overrun :
    directExecStores ⟨false, 6, true, []⟩ (text "p") [text "p", List.replicate 126 97] =
      .error .overrun ∧
      commandStores ⟨false, 6, true, []⟩ (text "p") (text "p")
      (text "p" :: List.replicate 6 (text " ")) = .error .overrun :=
  ⟨by decide +kernel, by decide +kernel⟩

end TailBuffers

end Exec
