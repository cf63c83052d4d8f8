import Dj64.Shell.Running

/-!
# The words that `system` hands over

Whatever the redirections and the programs do, each call of `system1` gets the words of its command,
but white space at the end of the command is removed after the words have been found.  A word may
end in a vertical tab, a form feed or a carriage return, which do not end words.
-/

namespace Shell

open Exec List Nat Option Command

/-! ### The calls of a line -/

/-- The events until `system` ends. -/
def World.Outcome.log : World.Outcome → List Event
  | .returned s => s.log
  | .shell s => s.log
  | .overflow s => s.log
  | .exhausted => []

/-- The names of programs and the words that `system1` gets. -/
def handed (multi : Bool) (log : List Event) : List (Bytes × Option (List Bytes)) :=
  (calls multi log).map fun c => (c.prog, c.args)

/-- The commands for which `system1` is called, from a result, a number of calls and a number of
temporary files on. -/
def called (w : World) : ℤ → ℕ → ℕ → List Command → List Command
  | _, _, _, [] => []
  | result, n, k, c :: cs =>
    let k' := if c.sink = .pipe then k + 1 else k
    if Callable w c ∧ Opens w (c.call w k) then
      if result = 0 then c :: if 0 ≤ w.status n then called w (w.status n) (n + 1) k' cs else []
      else called w result n k' cs
    else []

def Command.words (w : World) (c : Command) : Bytes × Option (List Bytes) :=
  (unquote w.unquoteMulti c.prog, some c.args)

def Command.stripped (w : World) (c : Command) : Bytes × Option (List Bytes) :=
  (unquote w.unquoteMulti c.prog, some (stripLast c.args))

/-! ### The whole line -/

theorem calls_of_report {multi : Bool} {o : World.Outcome} {r : Report}
    (h : o.report multi = some r) : calls multi o.log = r.calls := by
  cases o with
  | exhausted => cases h
  | _ =>
    obtain rfl := Option.some.inj h
    rfl

theorem serve_calls {w : World} {result : ℤ} {n k : ℕ} {cmds : List Command} :
    (w.serve result n k cmds).calls.map (fun c => (c.prog, c.args)) =
      (called w result n k cmds).map (stripped w) := by
  induction cmds generalizing result n k with
  | nil => rfl
  | cons c cmds ih =>
    rw [World.serve, called]
    split_ifs <;> simp_all [Report.behind, stripped, call]

theorem stripLast_eq_iff {args : List Bytes} :
    stripLast args = args ↔ ∀ word ∈ args.getLast?, ∀ d ∈ word.getLast?, isspace d = false := by
  induction args with
  | nil => simp [stripLast]
  | cons arg args ih =>
    cases args with
    | nil =>
      have hs : World.stripEnd arg = arg ↔ ∀ d ∈ arg.getLast?, isspace d = false := by
        rw [World.stripEnd, rdropWhile_eq_self_iff]
        constructor
        · intro h d hd
          obtain ⟨hne, rfl⟩ := mem_getLast?_eq_getLast hd
          exact Bool.eq_false_of_not_eq_true (h hne)
        · intro h hne
          rw [h _ (getLast_mem_getLast? hne)]
          exact Bool.false_ne_true
      simpa [stripLast] using hs
    | cons arg' args =>
      rw [stripLast, List.cons.injEq, ih]
      · exact and_iff_right rfl
      · exact cons_ne_nil arg' args

/-- Every call of `system1` gets the words of its command. -/
def World.HandsOver (w : World) (line : Bytes) (cmds : List Command) : Prop :=
  handed w.multi (w.system line).log = (called w 0 0 0 cmds).map (words w)

/-- **The words of a line are handed over exactly if no command that is called ends in white space
that is part of its last word.** -/
theorem system_words_iff (w : World) (line : Bytes) (fuel : ℕ) (ts : List Token)
    (cmds : List Command) (hshell : w.callShell = false)
    (htokens : tokens w.multi fuel line = some ts)
    (hcmds : commands (unquote w.unquoteMulti) (.fresh .inherited) ts = some cmds) :
    w.HandsOver line cmds ↔ ∀ c ∈ called w 0 0 0 cmds,
      ∀ word ∈ c.args.getLast?, ∀ d ∈ word.getLast?, isspace d = false := by
  have hs : handed w.multi (w.system line).log =
      (called w 0 0 0 cmds).map (stripped w) := by
    rw [handed, calls_of_report (system_served hshell htokens hcmds), serve_calls]
  rw [World.HandsOver, hs, map_inj_left]
  refine forall₂_congr fun c _ => ?_
  rw [← stripLast_eq_iff]
  simp [stripped, words]

/-- A world in which everything succeeds. -/
def allSucceed : World :=
  { redirect := true, multi := true, unquoteMulti := true, callShell := false,
    tmpnam := fun _ => [116], openInput := fun _ => none, openOutput := fun _ _ => none, dup :=
    none, status := fun _ => 0 }

/-- The command `p` of `p  a>f 'b c' <g d`. -/
def redirected : Command :=
  ⟨text "p", [text "a", text "'b c'", text "d"], .file (text "g"), .file (text "f") false⟩

/-- Redirections between the words. -/
theorem system_words_iff_redirected :
    allSucceed.HandsOver (text "p  a>f 'b c' <g d") [redirected] :=
  (system_words_iff allSucceed (text "p  a>f 'b c' <g d") 10
    [.word (text "p"), .word (text "a"), .output false, .word (text "f"),
      .word (text "'b c'"), .input, .word (text "g"), .word (text "d")] [redirected] rfl
      (by decide +kernel) (by decide +kernel)).mpr
    (by decide +kernel)

/-- The last word of `a b` loses the carriage return behind it. -/
theorem last_word_cut : tokens true 5 [97, 32, 98, 13] = some [.word [97], .word [98, 13]] ∧
      commands (unquote true) (.fresh .inherited) [.word [97], .word [98, 13]] =
        some [⟨[97], [[98, 13]], .inherited, .inherited⟩] ∧
      (∃ s, allSucceed.system [97, 32, 98, 13] = .returned s ∧
        s.log = [.system1 [97] [98] none none]) ∧
      ¬ allSucceed.HandsOver [97, 32, 98, 13] [⟨[97], [[98, 13]], .inherited, .inherited⟩] := by
  obtain ⟨s, hs, hlog⟩ : ∃ s, allSucceed.system [97, 32, 98, 13] = .returned s ∧
      s.log = [.system1 [97] [98] none none] := ⟨_, rfl, by decide +kernel⟩
  refine ⟨by decide +kernel, by decide +kernel, ⟨s, hs, hlog⟩, fun ho => ?_⟩
  rw [World.HandsOver, hs, World.Outcome.log, hlog] at ho
  exact absurd ho (by decide +kernel)

end Shell
