import Dj64.Exec.CommandLines
import Dj64.Stdlib.Environ

/-!
# Long command lines in the environment

A command tail of more than 126 bytes is passed in `CMDLINE`, behind the name of the program.  The
child skips the name: up to the first blank, or up to the quote with which the name starts.  As the
scan for that quote starts at the quote itself, a quoted name is not skipped.
-/

namespace Exec

open List
open Option hiding map_id

/-! ### The bytes of the words -/

def countIn (b : UInt8) (args : List Arg) : ℕ := (args.map fun a => a.arg.count b).sum

variable {b c quote d q : UInt8} {unquote mark : Bool} {program tail v name rest shell bs : Bytes}

theorem ne_of_isspace (hb : Plain b) (hc : isspace c) : c ≠ b := by
  rintro rfl
  exact Bool.false_ne_true (hb.1.symm.trans hc)

theorem count_pushArg {r : Arg × Bytes} :
    (pushArg bs mark r).1.arg.count b + ((pushArg bs mark r).2.drop 1).count b =
      bs.count b + (r.1.arg.count b + (r.2.drop 1).count b) := by
  rw [pushArg, count_append, Nat.add_assoc]

theorem count_parseArg (hb : Plain b) (hq : IsQuote quote) (bytes : Bytes) :
    (parseArg unquote quote bytes).1.arg.count b +
      ((parseArg unquote quote bytes).2.drop 1).count b =
      bytes.count b := by
  have hm : ∀ {c : UInt8}, c = singleQuote ∨ c = doubleQuote → c ≠ b := by
    rintro c (rfl | rfl)
    · exact Ne.symm hb.2.1
    · exact Ne.symm hb.2.2.1
  -- a quote that is removed does not count
  have hd : ∀ {c : UInt8}, c ≠ b → (if unquote then [] else [c]).count b = 0 := by
    intro c hc
    split_ifs
    · rfl
    · exact count_eq_zero.mpr fun h => hc (mem_singleton.mp h).symm
  fun_induction parseArg unquote quote bytes with
  | case1 => rfl
  | case2 quote c rest h =>
    rw [count_cons_of_ne (ne_of_isspace hb h.2)]
    exact Nat.zero_add _
  | case3 quote c rest _ hcl ih =>
    have hc : c ≠ b := hm (hcl.2 ▸ hq.resolve_left hcl.1)
    rw [count_pushArg, hd hc, ih (.inl rfl), count_cons_of_ne hc, Nat.zero_add]
  | case4 quote c rest _ _ ho ih =>
    have hc : c ≠ b := hm ho.2
    rw [count_pushArg, hd hc, ih (.inr ho.2), count_cons_of_ne hc, Nat.zero_add]
  | case5 => rfl
  | case6 quote c _ _ _ d rest hba ih =>
    have hc : c ≠ b := by
      rw [hba.1]
      exact Ne.symm hb.2.2.2
    have hbs : (if unquote then [d] else [c, d]).count b = [d].count b := by
      split_ifs
      · rfl
      · exact count_cons_of_ne hc
    rw [count_pushArg, hbs, ih hq, count_cons_of_ne hc, ← count_append, singleton_append]
  | case7 quote c _ _ _ d rest _ ih =>
    rw [count_pushArg, ih hq, ← count_append, singleton_append]

theorem count_dropWhile_isspace (hb : Plain b) (bytes : Bytes) :
    (bytes.dropWhile isspace).count b = bytes.count b := by
  induction bytes with
  | nil => rfl
  | cons c bytes ih =>
    by_cases hc : isspace c
    · rw [dropWhile_cons_of_pos hc, ih, count_cons_of_ne (ne_of_isspace hb hc)]
    · rw [dropWhile_cons_of_neg hc]

/-- **The words of a line have the ordinary bytes of the line.** -/
theorem countIn_parseBytes (hb : Plain b) (bytes : Bytes) :
    countIn b (parseBytes bytes unquote) = bytes.count b := by
  induction hn : bytes.length using Nat.strong_induction_on generalizing bytes with
  | _ n ih =>
    have hc := count_dropWhile_isspace hb bytes
    have hlen := (dropWhile_suffix (l := bytes) isspace).length_le
    rw [parseBytes_eq]
    cases hd : bytes.dropWhile isspace with
    | nil =>
      rw [hd] at hc
      exact hc
    | cons c rest =>
      rw [hd] at hc hlen
      have harg := parseArg_length_le unquote 0 (c :: rest)
      have hr : ((parseArg unquote 0 (c :: rest)).2.drop 1).length < n := by
        rw [length_drop]
        rw [length_cons] at harg hlen
        omega
      have hp : (parseArg unquote 0 (c :: rest)).1.arg.count b +
          ((parseArg unquote 0 (c :: rest)).2.drop 1).count b = (c :: rest).count b :=
        count_parseArg hb (.inl rfl) (c :: rest)
      show _ + countIn b (parseBytes ((parseArg unquote 0 (c :: rest)).2.drop 1) unquote) = _
      rw [ih _ hr _ rfl, hp, hc]

/-! ### The name of the program -/

/-- The three functions that build `CMDLINE`, for a program and a command tail. -/
inductive Builds : Bytes → Bytes → Bytes → Prop
  | directPe {sys : System} {program tail v : Bytes} {argv : List Bytes}
      (h : directPeExecArgs sys program argv = (tail, some v)) : Builds program tail v
  | command {sys : System} {shell cmdline tail v : Bytes}
      (h : commandExecArgs sys shell cmdline = (tail, some v)) : Builds shell tail v
  | shell {sys : System} {shell prog cmdline tail v : Bytes}
      (h : shellCommandArgs sys shell prog cmdline = some (tail, some v)) : Builds shell tail v

theorem copyArg_extends (limit : ℕ) (escape unescape : Bool) (p line : Bytes) :
    line <+: copyArg limit escape unescape p line := by
  fun_induction copyArg limit escape unescape p line with
  | case1 => exact prefix_rfl
  | case2 => exact prefix_rfl
  | case3 => exact prefix_append ..
  | case4 _ _ _ _ _ _ ih => exact (prefix_append ..).trans ih
  | case5 => exact prefix_append ..
  | case6 _ _ _ _ _ _ _ ih => exact (prefix_append ..).trans ih
  | case7 _ _ _ _ _ _ _ ih => exact (prefix_append ..).trans ih

/-- What is appended starts with a blank. -/
theorem copyArgs_extends (limit : ℕ) (quotes unescape : Bool) (args : List Bytes) (line : Bytes) :
    copyArgs limit quotes unescape args line = line ∨
      line ++ [blank] <+: copyArgs limit quotes unescape args line := by
  induction args generalizing line with
  | nil => exact .inl rfl
  | cons p args ih =>
    rw [copyArgs]
    dsimp only
    generalize hq : (quotes && p.any fun c => c == 32 || c == 9) = quoted
    generalize hl : copyArg limit quotes unescape p
      (line ++ [blank] ++ if quoted then [doubleQuote] else []) = next
    have hn : line ++ [blank] <+: next := by
      rw [← hl]
      exact (prefix_append ..).trans (copyArg_extends ..)
    have hr : ∀ line', next <+: line' →
        line ++ [blank] <+: copyArgs limit quotes unescape args line' := by
      intro line' h
      rcases ih line' with heq | hpre
      · rw [heq]
        exact hn.trans h
      · exact (hn.trans h).trans ((prefix_append ..).trans hpre)
    split_ifs
    · exact .inl rfl
    · exact .inr prefix_rfl
    · exact .inr (hr _ (prefix_append ..))
    · exact .inr (hr _ prefix_rfl)

def Renames (f : UInt8 → UInt8) : Prop := (∀ c, c ≠ 47 → f c = c) ∧ (f 47 = 47 ∨ f 47 = backslash)

theorem Renames.eq_iff {f : UInt8 → UInt8} (hf : Renames f) (hd : d ≠ 47)
    (hd' : d ≠ backslash) : f c = d ↔ c = d := by
  by_cases hc : c = 47
  · rw [hc]
    refine iff_of_false (fun h => ?_) (Ne.symm hd)
    rcases hf.2 with h47 | h47
    · exact hd (h.symm.trans h47)
    · exact hd' (h.symm.trans h47)
  · rw [hf.1 c hc]

/-- `CMDLINE` is the name, a blank and the command tail; the blank may be part of the tail. -/
theorem Builds.form (h : Builds program tail v) :
    ∃ f t, Renames f ∧ v = cmdlineStr ++ ((quotedName program).map f ++ blank :: t) ∧
      (tail = t ∨ tail = blank :: t) := by
  have hid : Renames id := ⟨fun _ _ => rfl, .inl rfl⟩
  have hvar : ∀ shell tail, cmdlineVar shell tail =
      cmdlineStr ++ ((quotedName shell).map id ++ blank :: tail) := by
    intro shell tail
    rw [cmdlineVar, map_id, append_assoc, append_assoc, singleton_append]
  cases h with
  | @directPe sys _ _ _ argv h =>
    obtain ⟨ht, hv⟩ := Prod.mk.inj h
    have hs : Renames fun c => if c = 47 then backslash else c := ⟨fun _ hc => if_neg hc, .inr rfl⟩
    split_ifs at hv with hlen
    rw [ht] at hlen
    rw [some.inj hv] at ht
    have hext := copyArgs_extends cmdlineMax (needQuote sys program argv)
      (unescapeQuote sys program) (argv.drop 1) (peName program)
    rw [some.inj hv] at hext
    -- the tail is not empty, so that a blank stands behind the name
    rcases hext with rfl | ⟨t, rfl⟩
    · rw [drop_length] at ht
      rw [← ht] at hlen
      exact absurd hlen (Nat.not_lt_zero _)
    · rw [append_assoc, drop_left] at ht
      refine ⟨_, t, hs, ?_, .inr ht.symm⟩
      rw [peName, append_assoc, append_assoc, singleton_append]
  | command h =>
    unfold commandExecArgs at h
    split_ifs at h
    · cases (Prod.mk.inj h).2
    · obtain ⟨rfl, hv⟩ := Prod.mk.inj h
      exact ⟨id, _, hid, by rw [← hvar, some.inj hv], .inl rfl⟩
    · cases (Prod.mk.inj h).2
  | shell h =>
    unfold shellCommandArgs at h
    dsimp only at h
    split_ifs at h
    · obtain ⟨rfl, hv⟩ := Prod.mk.inj (some.inj h)
      exact ⟨id, _, hid, by rw [← hvar, some.inj hv], .inl rfl⟩
    · cases (Prod.mk.inj (some.inj h)).2

theorem skipName_blank (hb : blank ∉ name)
    (hq : name.head? ≠ some doubleQuote ∧ name.head? ≠ some singleQuote) :
    skipName (name ++ blank :: rest) = some rest := by
  have hf : ¬ ((name ++ blank :: rest).headD 0 = doubleQuote ∨
      (name ++ blank :: rest).headD 0 = singleQuote) := by
    cases name with
    | nil =>
      show ¬ (blank = doubleQuote ∨ blank = singleQuote)
      decide
    | cons c name =>
      rintro (h | h)
      · exact hq.1 (congrArg some h)
      · exact hq.2 (congrArg some h)
  have hd : (name ++ blank :: rest).dropWhile (· != blank) = blank :: rest := by
    rw [dropWhile_append_of_pos, dropWhile_cons_of_neg (by simp)]
    intro c hc
    rw [bne_iff_ne]
    rintro rfl
    exact hb hc
  rw [skipName, if_neg hf, hd]

/-- **The scan for a quote stops at once**, at the quote that starts the name. -/
theorem skipName_quote (hq : q = doubleQuote ∨ q = singleQuote) :
    skipName (q :: rest) = some rest := by
  rw [skipName, headD_cons, if_pos hq, dropWhile_cons_of_neg (by simp)]

/-! ### The child -/

/-- **When the child has the words of the command tail**: the program path has a byte that is not a
separator, a blank or a quote. -/
theorem scan_builds_iff {program tail v : Bytes} (h : Builds program tail v)
    (hname : ∃ b ∈ program, Plain b ∧ b ≠ 47) (c : Child) (hlen : c.doscmd.headD 0 = 127)
    (henv : c.getenv (text "CMDLINE") = Environ.getenv [v] (text "CMDLINE")) :
    c.scan = some (parseBytes tail !c.keepQuotes) ↔
      blank ∉ program ∧ program.head? ≠ some doubleQuote ∧ program.head? ≠ some singleQuote := by
  obtain ⟨f, t, hf, rfl, hta⟩ := h.form
  obtain ⟨b, hmem, hb, hb'⟩ := hname
  have he : cmdlineStr ++ ((quotedName program).map f ++ blank :: t) =
      text "CMDLINE" ++ 61 :: ((quotedName program).map f ++ blank :: t) := rfl
  have hv : c.getenv (text "CMDLINE") = some ((quotedName program).map f ++ blank :: t) := by
    rw [henv, Environ.getenv, List.findSome?_cons, (Environ.valueOf_eq_some_iff (by decide)).mpr he]
  have hsc : c.scan = (skipName ((quotedName program).map f ++ blank :: t)).map
      fun line => parseBytes line !c.keepQuotes := by
    rw [Child.scan, hlen, hv]
    rfl
  have hp : parseBytes tail (!c.keepQuotes) = parseBytes t !c.keepQuotes := by
    rcases hta with rfl | rfl
    · rfl
    · exact parseBytes_space rfl
  rw [hsc, hp]
  have hfb : f b = b := hf.1 b hb'
  have hl : ∀ name rest : Bytes, b ∈ name → t.count b ≤ rest.count b →
      some (parseBytes (name.map f ++ rest) !c.keepQuotes) ≠ some (parseBytes t !c.keepQuotes) := by
    intro name rest hin hle heq
    have hc := congrArg (countIn b) (some.inj heq)
    rw [countIn_parseBytes hb, countIn_parseBytes hb, count_append] at hc
    have hpos : 0 < (name.map f).count b := count_pos_iff.mpr (mem_map.mpr ⟨b, hin, hfb⟩)
    omega
  have ht : ∀ start : Bytes, t.count b ≤ (start ++ blank :: t).count b := fun start => by
    rw [count_append]
    exact (count_le_count_cons).trans (Nat.le_add_left ..)
  by_cases hbl : blank ∈ program
  · have hvar : (quotedName program).map f ++ blank :: t =
        doubleQuote :: (program.map f ++ ([doubleQuote] ++ blank :: t)) := by
      have hfq : f doubleQuote = doubleQuote := hf.1 _ (by decide)
      rw [quotedName, if_pos (contains_iff_mem.mpr hbl)]
      simp [hfq]
    rw [hvar, skipName_quote (.inl rfl)]
    exact iff_of_false (hl program _ hmem (ht [doubleQuote])) fun hok => hok.1 hbl
  rw [quotedName, if_neg fun h => hbl (contains_iff_mem.mp h)]
  obtain ⟨q, name, rfl⟩ := exists_cons_of_ne_nil (ne_nil_of_mem hmem)
  by_cases hq : q = doubleQuote ∨ q = singleQuote
  · have hfq : f q = q := hf.1 q (by rcases hq with rfl | rfl <;> decide)
    have hbq : b ≠ q := by
      rcases hq with rfl | rfl
      · exact hb.2.2.1
      · exact hb.2.1
    rw [map_cons, hfq, cons_append, skipName_quote hq]
    refine iff_of_false (hl name _ ((mem_cons.mp hmem).resolve_left hbq) (ht [])) ?_
    rintro ⟨-, hdo, hs⟩
    rcases hq with rfl | rfl
    · exact hdo rfl
    · exact hs rfl
  · have hsk : skipName ((q :: name).map f ++ blank :: t) = some t := by
      refine skipName_blank (fun hin => ?_) ⟨fun hh => ?_, fun hh => ?_⟩
      · obtain ⟨d, hd, hfd⟩ := mem_map.mp hin
        exact hbl ((hf.eq_iff (by decide) (by decide)).mp hfd ▸ hd)
      · exact hq (.inl ((hf.eq_iff (by decide) (by decide)).mp (some.inj hh)))
      · exact hq (.inr ((hf.eq_iff (by decide) (by decide)).mp (some.inj hh)))
    rw [hsk]
    refine iff_of_true rfl ⟨hbl, fun h => ?_, fun h => ?_⟩
    · exact hq (.inl (some.inj h))
    · exact hq (.inr (some.inj h))

/-- A child with a command tail that is in `CMDLINE`. -/
def cmdlineChild (v : Bytes) : Child where
  doscmd := [127]
  mem := fun _ => 0
  getenv := Environ.getenv [v]
  keepQuotes := false
  disallowResponseFiles := false
  argv0 := []
  files := fun _ => none
  glob := fun _ => none

def longTail : Bytes := text "/c" ++ blank :: List.replicate 124 98

theorem length_longTail : longTail.length = 127 := by
  rfl

theorem builds_longTail (h : shellCmdlineLimit ⟨false, 6, true, []⟩ shell = noLimit) :
    Builds shell longTail (cmdlineVar shell longTail) := by
  have ha : commandExecArgs ⟨false, 6, true, []⟩ shell longTail =
      (longTail, some (cmdlineVar shell longTail)) := by
    rw [commandExecArgs, tailLimit, h, length_longTail]
    rfl
  exact .command ha

theorem scan_builds_iff_bash : (cmdlineChild (cmdlineVar (text "c:/bash.exe") longTail)).scan = some
      (parseBytes longTail true) ↔
      blank ∉ text "c:/bash.exe" ∧ (text "c:/bash.exe").head? ≠ some doubleQuote ∧
        (text "c:/bash.exe").head? ≠ some singleQuote :=
  scan_builds_iff (builds_longTail (by decide +kernel))
    ⟨99, by decide, by unfold Plain; decide, by decide⟩ (cmdlineChild _) rfl rfl

/-- **A shell in a directory whose name has a blank** becomes an argument of its own. -/
theorem scan_quoted_shell :
    Builds (text "c:/my bin/bash.exe") longTail (cmdlineVar (text "c:/my bin/bash.exe") longTail) ∧
      126 < longTail.length ∧
      (cmdlineChild (cmdlineVar (text "c:/my bin/bash.exe") longTail)).scan ≠
        some (parseBytes longTail true) :=
  ⟨builds_longTail (by decide +kernel), by rw [length_longTail]; decide, by decide +kernel⟩

end Exec
