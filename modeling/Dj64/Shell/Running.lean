import Dj64.Shell.Joined

/-!
# Running the commands of a line

The loop of `system` follows the grammar of the line.  As one variable holds both the status of the
previous command and the error of a redirection, a command is not run after one that has failed.
-/

namespace Shell

open Exec List Nat Option World Sys Token World.Outcome

/-- The calls in a log, with the words of their command tails. -/
def calls (multi : Bool) (log : List Event) : List Call :=
  log.reverse.filterMap fun
    | .system1 prog tail stdin stdout => some ⟨prog, plainWords multi tail, stdin, stdout⟩
    | .remove _ => none
    | .emiterror _ _ => none

/-- The calls that are made, from a result and a number of calls on, and the result at the end. -/
def performed (w : World) : ℤ → ℕ → List Call → List Call × ℤ
  | result, _, [] => ([], result)
  | result, n, c :: cs =>
    if result = 0 then (c :: (performed w (w.status n) (n + 1) cs).1,
      (performed w (w.status n) (n + 1) cs).2)
    else performed w result n cs

/-- The redirections of a call succeed. -/
@[mk_iff]
structure Opens (w : World) (c : Call) : Prop where
  input : ∀ f ∈ c.stdin, w.openInput f = none
  output : ∀ f ∈ c.stdout, w.openOutput f.1 f.2 = none
  dup : c.stdin.isSome ∨ c.stdout.isSome → w.dup = none

/-- Symbols that do not need `__system_redirect`. -/
def Token.plain : Token → Bool
  | .word _ => true
  | .semicolon => true
  | _ => false

variable {w : World} {s s1 s2 : Sys} {p p1 : Partial}

/-- The loop is in the middle of a command. -/
structure Reads (w : World) (s : Sys) (p : Partial) : Prop where
  needcmd : s.needcmd = p.prog.isNone
  prog : ∀ word ∈ p.prog, s.prog = unquote w.unquoteMulti word
  short : ∀ word ∈ p.prog, (unquote w.unquoteMulti word).length < lTmpnam
  args : Joined w.multi s.pre p.args
  noargs : p.prog = none → p.args = []
  boundary : s.pre ≠ [] → ∀ d ∈ s.post.head?, endsWord w.multi d = true
  source : s.fIn = p.source.stdin w s.temps
  sink : s.fOut.map (·, s.appendOut) = p.sink.stdout w s.temps
  appended : s.fOut = none → s.appendOut = false
  notPipe : p.sink ≠ .pipe
  stdin : s.stdin = none
  stdout : s.stdout = none
  result : 0 ≤ s.result

/-! ### The end of a command -/

theorem calls_removeIf (multi : Bool) (s : Sys) (rm : Bool) (f : Option Bytes) :
    calls multi (s.removeIf rm f).log = calls multi s.log := by
  unfold removeIf
  split
  · split_ifs
    · simp [calls, record]
    · rfl
  · rfl

variable {c : Call}

theorem inputHandle_eq (hs : s.stdin = none) (hin : c.stdin = s.fIn)
    (ho : Opens w c) : w.inputHandle s = c.stdin := by
  rw [inputHandle, hin]
  cases hf : s.fIn with
  | none => exact hs
  | some f => exact if_pos (by rw [ho.input f (by rw [hin, hf]; rfl)]; rfl)

theorem outputHandle_eq (hs : s.stdout = none)
    (hout : c.stdout = s.fOut.map (·, s.appendOut)) (ho : Opens w c) :
    w.outputHandle s = c.stdout := by
  have hn : ∀ f ∈ s.fOut, w.openOutput f s.appendOut = none := fun f hf =>
    ho.output (f, s.appendOut) (by rw [hout, hf]; rfl)
  rw [outputHandle, hout]
  cases hf : s.fOut with
  | none => exact hs
  | some f => exact if_pos (by rw [hn f hf]; rfl)

/-- There is no message exactly if the redirections succeed. -/
theorem redirectError_eq_none (hin : c.stdin = s.fIn)
    (hout : c.stdout = s.fOut.map (·, s.appendOut)) : w.redirectError s = none ↔ Opens w c := by
  have hi : s.fIn.bind w.openInput = none ↔ ∀ f ∈ c.stdin, w.openInput f = none := by simp [hin]
  have hd : (if s.fIn.isSome ∨ s.fOut.isSome then w.dup else none) = none ↔
      (c.stdin.isSome ∨ c.stdout.isSome → w.dup = none) := by
    simp [hin, hout]
  have ho : (s.fOut.bind fun f => w.openOutput f s.appendOut) = none ↔
      ∀ f ∈ c.stdout, w.openOutput f.1 f.2 = none := by
    simp [hout]
  rw [opens_iff, ← hi, ← hd, ← ho, redirectError]
  clear hi hd ho
  cases s.fIn.bind w.openInput with
  | some err => simp
  | none =>
    dsimp only
    split
    · simp_all
    · split <;> simp_all

/-- The state after the end of a command. -/
def Sys.after (w : World) (s : Sys) (tail : Bytes) (c : Call) : Sys :=
  if s.result = 0 then
    { s.record (.system1 s.prog tail c.stdin c.stdout) with
      result := w.status s.calls
      calls := s.calls + 1 }
  else s

/-- A command whose redirections succeed. -/
theorem call_eq (hst : s.stdin = none) (hs : s.stdout = none)
    (hin : c.stdin = s.fIn) (hout : c.stdout = s.fOut.map (·, s.appendOut)) (ho : Opens w c)
    (tail : Bytes) : w.disconnect s (w.call (w.connect s) tail) = s.after w tail c := by
  have herr : w.redirectError { s with stdin := c.stdin, stdout := c.stdout } = none :=
    (redirectError_eq_none hin hout).mpr ho
  -- the handles are restored, or were not redirected
  have hin' : (if s.fIn.isSome ∧ w.dup.isNone then s.stdin else c.stdin) = s.stdin := by
    split_ifs with hso
    · rfl
    · rw [hin, hst]
      by_contra hf
      obtain ⟨f, hf⟩ := ne_none_iff_exists'.mp hf
      exact hso ⟨by rw [hf]; rfl, by rw [ho.dup (.inl (by rw [hin, hf]; rfl))]; rfl⟩
  have ho' : (if s.fOut.isSome ∧ w.dup.isNone then s.stdout else c.stdout) = s.stdout := by
    split_ifs with hso
    · rfl
    · rw [hout, hs, map_eq_none_iff]
      by_contra hf
      obtain ⟨f, hf⟩ := ne_none_iff_exists'.mp hf
      exact hso ⟨by rw [hf]; rfl, by rw [ho.dup (.inr (by rw [hout, hf]; rfl))]; rfl⟩
  rw [connect, inputHandle_eq hst hin ho, outputHandle_eq hs hout ho, call, herr, Sys.after]
  split_ifs
  · unfold disconnect Sys.record
    congr 1
  · unfold disconnect
    congr 1

/-! ### Symbols -/

/-- The symbol that `get_sym` returns. -/
def Token.sym : Token → CmdSym
  | .word _ => .word
  | .input => .redirInput
  | .output false => .redirOutput
  | .output true => .redirAppend
  | .pipe => .pipe
  | .semicolon => .semicolon

variable {multi append : Bool} {fuel fuel' : ℕ} {bytes sp text rest prog rest' tail : Bytes}
  {t : Token}
  {ts : List Token}

theorem tokens_nil (h : tokens multi fuel bytes = some []) :
    0 < fuel ∧ (getSym multi bytes).sym = .eol := by
  cases fuel with
  | zero => cases h
  | succ fuel =>
    rw [tokens] at h
    cases hsym : (getSym multi bytes).sym
    all_goals simp [hsym] at h ⊢

theorem tokens_cons (h : tokens multi fuel bytes = some (t :: ts)) :
    ∃ k, fuel = k + 1 ∧ (getSym multi bytes).sym = t.sym ∧
      (∀ text, t = .word text → (getSym multi bytes).text = text) ∧
      tokens multi k (getSym multi bytes).rest = some ts := by
  cases fuel with
  | zero => cases h
  | succ fuel =>
    refine ⟨fuel, rfl, ?_⟩
    rw [tokens] at h
    cases hsym : (getSym multi bytes).sym
    all_goals
      simp only [hsym, map_eq_some_iff, cons.injEq] at h
      first
        | (obtain ⟨ts', hts', rfl, rfl⟩ := h
           refine ⟨rfl, fun text ht => ?_, hts'⟩
           cases ht
           try rfl)
        | cases h

theorem Token.sym_ne (t : Token) : t.sym ≠ .eol ∧ t.sym ≠ .unmatchedQuote := by
  cases t with
  | output append => cases append <;> decide
  | _ => exact ⟨nofun, nofun⟩

theorem scanWord_append_rest (multi : Bool) (quote : UInt8) (l : Bytes) :
    (scanWord multi quote l).word ++ (scanWord multi quote l).rest = l := by
  fun_induction scanWord multi quote l with
  | case1 => rfl
  | case2 => rfl
  | case3 quote c s he hc ih => rw [Scan.push, append_assoc, ih]; rfl
  | case4 quote c s he hc ho ih => rw [Scan.push, append_assoc, ih]; rfl
  | case5 => rfl
  | case6 quote c he hc ho d s hb ih => rw [Scan.push, append_assoc, ih]; rfl
  | case7 quote c he hc ho d s hb ih => rw [Scan.push, append_assoc, ih]; rfl

theorem getSym_append (multi : Bool) (l : Bytes) :
    (getSym multi l).text ++ (getSym multi l).rest = l.dropWhile isspace := by
  rw [getSym]
  cases hl : l.dropWhile isspace with
  | nil => rfl
  | cons c s =>
    dsimp only
    split_ifs with hlt hgt ha
    · rfl
    · cases s with
      | nil => cases ha
      | cons d s =>
        obtain rfl : d = 62 := some.inj ha
        rfl
    all_goals first | rfl | exact scanWord_append_rest multi 0 (c :: s)

theorem getSym_text_ne_nil (heol : (getSym multi bytes).sym ≠ .eol)
    (hu : (getSym multi bytes).sym ≠ .unmatchedQuote) : (getSym multi bytes).text ≠ [] := by
  by_cases hw : (getSym multi bytes).sym = .word
  · have hget : getSym multi bytes =
        ⟨.word, (getSym multi bytes).text, (getSym multi bytes).rest⟩ := by rw [← hw]
    exact (getSym_eq_word hget).1.ne_nil
  rw [getSym] at heol hu hw ⊢
  cases hd : bytes.dropWhile isspace with
  | nil =>
    rw [hd] at heol
    exact absurd rfl heol
  | cons c s =>
    rw [hd] at hu hw
    dsimp only at hu hw ⊢
    split_ifs at hu hw ⊢
    all_goals
      first
      | exact cons_ne_nil _ _
      | exact absurd rfl hu
      | exact absurd rfl hw

theorem getSym_length (multi : Bool) (bytes : Bytes) :
    (bytes.takeWhile isspace).length +
      ((getSym multi bytes).text.length + (getSym multi bytes).rest.length) = bytes.length := by
  have ha := congrArg length (getSym_append multi bytes)
  have hs := congrArg length (takeWhile_append_dropWhile (p := isspace) (l := bytes))
  rw [length_append] at ha hs
  omega

theorem getSym_rest_lt (hsym : (getSym multi bytes).sym = t.sym) :
    (getSym multi bytes).rest.length < bytes.length := by
  have hne := t.sym_ne
  rw [← hsym] at hne
  have hpos := length_pos_iff.mpr (getSym_text_ne_nil hne.1 hne.2)
  have hlen := getSym_length multi bytes
  omega

theorem tokens_eq_cons (hsym : (getSym multi bytes).sym = t.sym)
    (hw : ∀ text, t = .word text → (getSym multi bytes).text = text)
    (h : tokens multi fuel (getSym multi bytes).rest = some ts) :
    tokens multi (fuel + 1) bytes = some (t :: ts) := by
  rw [tokens]
  cases t with
  | word text => simp [hsym, sym, h, hw text rfl]
  | output append => cases append <;> simp [hsym, sym, h]
  | _ => simp [hsym, sym, h]

theorem tokens_enough (h : tokens multi fuel bytes = some ts)
    (hf : bytes.length < fuel') : tokens multi fuel' bytes = some ts := by
  induction ts generalizing fuel fuel' bytes with
  | nil =>
    obtain ⟨-, hsym⟩ := tokens_nil h
    obtain ⟨n, rfl⟩ := exists_eq_succ_of_ne_zero (ne_zero_of_lt hf)
    rw [tokens, hsym]
  | cons t ts ih =>
    obtain ⟨k, rfl, hsym, hw, hre⟩ := tokens_cons h
    obtain ⟨n, rfl⟩ := exists_eq_succ_of_ne_zero (ne_zero_of_lt hf)
    have hlt := getSym_rest_lt hsym
    exact tokens_eq_cons hsym hw (ih hre (by omega))

theorem tokens_space (hsp : ∀ d ∈ sp, isspace d) :
    tokens multi fuel (sp ++ bytes) = tokens multi fuel bytes := by
  induction sp with
  | nil => rfl
  | cons d sp ih =>
    rw [cons_append, ← ih (forall_mem_cons.mp hsp).2]
    cases fuel with
    | zero => rfl
    | succ fuel => rw [tokens, tokens, getSym_space (hsp d (.head _))]

/-! ### The loop -/

def Short (w : World) (c : Command) : Prop := (unquote w.unquoteMulti c.prog).length < lTmpnam

/-- The end of the command is reached: the name fits its buffer, does not start with a parenthesis,
and there is no redirection that is left to the shell. -/
def Callable (w : World) (c : Command) : Prop :=
  Short w c ∧ (unquote w.unquoteMulti c.prog).head? ≠ some 40 ∧
    (w.redirect = true ∨ c.source = .inherited ∧ c.sink = .inherited)

instance (w : World) (c : Command) : Decidable (Callable w c) :=
  inferInstanceAs (Decidable ((unquote w.unquoteMulti c.prog).length < lTmpnam ∧ _ ∧ _))

instance (w : World) (c : Call) : Decidable (Opens w c) :=
  decidable_of_iff ((∀ f ∈ c.stdin, w.openInput f = none) ∧
      (∀ f ∈ c.stdout, w.openOutput f.1 f.2 = none) ∧
      (c.stdin.isSome ∨ c.stdout.isSome → w.dup = none))
    ⟨fun h => ⟨h.1, h.2.1, h.2.2⟩, fun h => ⟨h.input, h.output, h.dup⟩⟩

/-- Whether `system` returns without the shell, the calls it has made, and the result. -/
structure Report where
  returned : Bool
  calls : List Call
  result : ℤ

/-- Other calls come before. -/
def Report.behind (before : List Call) (r : Report) : Report :=
  { r with calls := before ++ r.calls }

theorem behind_behind {a b : List Call} {r : Report} :
    (r.behind b).behind a = r.behind (a ++ b) := by
  simp [Report.behind]

/-- What the commands do, from a result, a number of calls and a number of temporary files on. -/
def World.serve (w : World) : ℤ → ℕ → ℕ → List Command → Report
  | result, _, _, [] => ⟨true, [], result⟩
  | result, n, k, c :: cs =>
    let k' := if c.sink = .pipe then k + 1 else k
    if Callable w c then
      if Opens w (c.call w k) then
        if result = 0 then
          (if 0 ≤ w.status n then w.serve (w.status n) (n + 1) k' cs
            else ⟨true, [], w.status n⟩).behind [c.call w k]
        else w.serve result n k' cs
      else ⟨true, [], -1⟩
    else ⟨false, [], result⟩

def World.Outcome.report (multi : Bool) : World.Outcome → Option Report
  | .returned s => some ⟨true, Shell.calls multi s.log, s.result⟩
  | .shell s => some ⟨false, Shell.calls multi s.log, s.result⟩
  | .overflow s => some ⟨false, Shell.calls multi s.log, s.result⟩
  | .exhausted => none

/-- From a state in front of commands on, the loop does what the commands do. -/
def Served (w : World) (s : Sys) (cmds : List Command) (o : World.Outcome) : Prop :=
  o.report w.multi = some ((w.serve s.result s.calls s.temps cmds).behind (calls w.multi s.log))

variable {cmds : List Command} {o : World.Outcome} {sink : Sink} {source : Source}

theorem Served.congr (h : Served w s1 cmds o)
    (hlog : calls w.multi s1.log = calls w.multi s2.log) (hre : s1.result = s2.result)
    (hc : s1.calls = s2.calls) (ht : s1.temps = s2.temps) : Served w s2 cmds o := by
  unfold Served at h ⊢
  rwa [hlog, hre, hc, ht] at h

theorem word_source : (p.word text).source = p.source := by
  unfold Partial.word
  cases p.prog <;> rfl

theorem word_sink : (p.word text).sink = p.sink := by
  unfold Partial.word
  cases p.prog <;> rfl

def Partial.complete (p : Partial) (prog : Bytes) (sink : Sink) : Command :=
  ⟨prog, p.args, p.source, sink⟩

theorem Partial.command_eq {f : Command → List Command} (h : (p.command sink).map f = some cmds) :
    ∃ prog, p.prog = some prog ∧ cmds = f (p.complete prog sink) := by
  obtain ⟨c, hc, rfl⟩ := map_eq_some_iff.mp h
  obtain ⟨prog, hp, rfl⟩ := map_eq_some_iff.mp hc
  exact ⟨prog, hp, rfl⟩

theorem Partial.command_cons {l : Option (List Command)}
    (h : ((p.command sink).bind fun c => l.map (c :: ·)) = some cmds) :
    ∃ prog cs, p.prog = some prog ∧ l = some cs ∧ cmds = p.complete prog sink :: cs := by
  obtain ⟨c, hc, hmap⟩ := bind_eq_some_iff.mp h
  obtain ⟨cs, hl, rfl⟩ := map_eq_some_iff.mp hmap
  obtain ⟨prog, hp, rfl⟩ := map_eq_some_iff.mp hc
  exact ⟨prog, cs, hp, hl, rfl⟩

/-- The first command is the one that is being read. -/
theorem commands_first {name : Bytes → Bytes} (h : commands name p ts = some cmds) :
    ∃ c cs, cmds = c :: cs ∧ (∀ prog ∈ p.prog, c.prog = prog) ∧
      (p.source ≠ .inherited → c.source ≠ .inherited) ∧
        (p.sink ≠ .inherited → c.sink ≠ .inherited) := by
  fun_induction commands name p ts generalizing cmds with
  | case1 p =>
    obtain ⟨prog, hp, rfl⟩ := Partial.command_eq h
    exact ⟨_, _, rfl, fun prog' hp' => some.inj (hp.symm.trans hp'), id, id⟩
  | case2 p text ts ih =>
    obtain ⟨c, cs, rfl, hn, hso, hsi⟩ := ih h
    rw [word_source] at hso
    rw [word_sink] at hsi
    refine ⟨c, cs, rfl, fun prog hp => hn prog ?_, hso, hsi⟩
    rw [Partial.word, hp]
    rfl
  | case3 p text ts hs ih =>
    obtain ⟨c, cs, rfl, hn, hso, hsi⟩ := ih h
    exact ⟨c, cs, rfl, hn, fun _ => hso (nofun), hsi⟩
  | case4 => cases h
  | case5 p append text ts hs ih =>
    obtain ⟨c, cs, rfl, hn, hso, hsi⟩ := ih h
    exact ⟨c, cs, rfl, hn, hso, fun _ => hsi (nofun)⟩
  | case6 => cases h
  | case7 p ts hs ih =>
    obtain ⟨prog, cs, hp, -, rfl⟩ := Partial.command_cons h
    exact ⟨_, _, rfl, fun prog' hp' => some.inj (hp.symm.trans hp'), id, fun hne => absurd hs hne⟩
  | case8 => cases h
  | case9 p ts ih =>
    obtain ⟨prog, cs, hp, -, rfl⟩ := Partial.command_cons h
    exact ⟨_, _, rfl, fun prog' hp' => some.inj (hp.symm.trans hp'), id, id⟩
  | case10 => cases h

theorem isspace_of_mem_lead {d : UInt8} (hd : d ∈ s.lead) : isspace d := by
  unfold lead at hd
  split_ifs at hd
  · cases hd
  · exact mem_takeWhile_imp (mem_of_mem_take hd)

section

variable (hr : Reads w s p)
include hr

theorem Reads.lead_eq (hsym : getSym w.multi s.post = ⟨.word, text, rest⟩) (hpre : s.pre ≠ []) :
    ∃ d, IsBlank d ∧ s.lead = [d] := by
  obtain ⟨hw, ha, -⟩ := getSym_eq_word hsym
  obtain ⟨c, t, rfl, hs, hop⟩ := hw.start
  rw [lead, if_neg hpre]
  cases hp : s.post with
  | nil =>
    rw [hp] at ha
    cases ha
  | cons d post =>
    have he := hr.boundary hpre d (by rw [hp]; rfl)
    have hd : isspace d := by
      by_contra hd
      rw [hp, dropWhile_cons_of_neg hd] at ha
      obtain rfl : c = d := (cons.inj ha).1
      exact hd (isspace_of_endsWord hop he).isspace
    refine ⟨d, isspace_of_endsWord (not_operator_of_isspace hd) he, ?_⟩
    rw [takeWhile_cons_of_pos hd]
    rfl

theorem Reads.name (rest : Bytes) (hp : p.prog = none)
    (hs : (unquote w.unquoteMulti text).length < lTmpnam) :
    Reads w { s with prog := unquote w.unquoteMulti text, post := rest, needcmd := false }
      (p.word text) := by
  have ha := hr.noargs hp
  have hpre : s.pre = [] := by
    have hj := hr.args
    rw [ha] at hj
    exact hj.eq_nil
  have hwo : p.word text = { p with prog := some text } := by rw [Partial.word, hp]
  rw [hwo]
  exact { hr with
      needcmd := rfl
      prog := fun word hw => by rw [← some.inj hw]
      short := fun word hw => by rwa [← some.inj hw]
      noargs := nofun
      boundary := fun h => absurd hpre h }

/-- An argument is read. -/
theorem Reads.arg (hsym : getSym w.multi s.post = ⟨.word, text, rest⟩) (hpr : p.prog = some prog) :
    Reads w { s with pre := s.pre ++ s.lead ++ text, post := rest } (p.word text) := by
  obtain ⟨hw, -, hb⟩ := getSym_eq_word hsym
  have hp : p.word text = { p with args := p.args ++ [text] } := by rw [Partial.word, hpr]
  have ha : Joined w.multi (s.pre ++ s.lead ++ text) (p.args ++ [text]) := by
    have hj := hr.args
    cases hpa : p.args with
    | nil =>
      have hpre : s.pre = [] := by
        rw [hpa] at hj
        exact hj.eq_nil
      rw [lead, if_pos hpre, hpre]
      exact .last hw
    | cons v args =>
      rw [hpa] at hj
      obtain ⟨d, hd, hl⟩ := hr.lead_eq hsym hj.ne_nil
      rw [hl, append_assoc, singleton_append]
      exact hj.snoc hd hw
  rw [hp]
  exact { hr with
      args := ha
      noargs := fun h => by rw [hpr] at h; cases h
      boundary := fun _ => hb }

theorem Reads.removed (hsym : getSym w.multi rest = ⟨.word, text, rest'⟩) :
    Reads w { s with post := s.lead ++ rest' } p := by
  obtain ⟨-, -, hb⟩ := getSym_eq_word hsym
  refine { hr with boundary := fun hpre d hd => ?_ }
  have hh := hr.boundary hpre
  unfold lead at hd
  rw [if_neg hpre] at hd
  cases hp : s.post with
  | nil =>
    rw [hp] at hd
    exact hb d hd
  | cons e post =>
    by_cases he : isspace e
    · rw [hp, takeWhile_cons_of_pos he] at hd
      obtain rfl : e = d := some.inj hd
      exact hh e (by rw [hp]; rfl)
    · rw [hp, takeWhile_cons_of_neg he] at hd
      exact hb d hd

theorem Reads.unredirected (hsi : p.sink = .inherited) : s.fOut = none ∧ s.appendOut = false := by
  have hs := hr.sink
  rw [hsi] at hs
  have hout := map_eq_none_iff.mp hs
  exact ⟨hout, hr.appended hout⟩

end

/-! ### The next command -/

theorem after_eq : s.after w tail c = { s with
      result := (s.after w tail c).result
      calls := (s.after w tail c).calls
      log := (s.after w tail c).log } := by
  unfold Sys.after
  split_ifs <;> rfl

theorem removeIf_eq (s : Sys) (rm : Bool) (f : Option Bytes) :
    s.removeIf rm f = { s with log := (s.removeIf rm f).log } := by
  unfold removeIf
  split
  · split_ifs <;> rfl
  · rfl

section

variable (tail : Bytes) (c : Call) (rm : Bool) (f : Option Bytes)

@[simp] theorem after_fOut : (s.after w tail c).fOut = s.fOut := by rw [after_eq]

@[simp] theorem after_stdin : (s.after w tail c).stdin = s.stdin := by rw [after_eq]

@[simp] theorem after_stdout : (s.after w tail c).stdout = s.stdout := by rw [after_eq]

@[simp] theorem after_temps : (s.after w tail c).temps = s.temps := by rw [after_eq]

@[simp] theorem removeIf_result : (s.removeIf rm f).result = s.result := by rw [removeIf_eq]

@[simp] theorem removeIf_stdin : (s.removeIf rm f).stdin = s.stdin := by rw [removeIf_eq]

@[simp] theorem removeIf_stdout : (s.removeIf rm f).stdout = s.stdout := by rw [removeIf_eq]

@[simp] theorem removeIf_temps : (s.removeIf rm f).temps = s.temps := by rw [removeIf_eq]

@[simp] theorem removeIf_calls : (s.removeIf rm f).calls = s.calls := by rw [removeIf_eq]

@[simp] theorem beginCommand_post (s : Sys) : s.beginCommand.post = s.post := by
  rw [beginCommand, removeIf_eq]

end

theorem reads_beginCommand (hin : s.fOut = source.stdin w s.temps)
    (hst : s.stdin = none) (hs : s.stdout = none) (hre : 0 ≤ s.result) :
    Reads w s.beginCommand (.fresh source) := by
  rw [beginCommand, removeIf_eq]
  exact
    { needcmd := rfl
      prog := fun word hw => by cases hw
      short := fun word hw => by cases hw
      args := .nil
      noargs := fun _ => rfl
      boundary := fun h => absurd rfl h
      source := hin
      sink := rfl
      appended := fun _ => rfl
      notPipe := nofun
      stdin := hst
      stdout := hs
      result := hre }

def Sys.ended (w : World) (s : Sys) :
    Sys := w.disconnect s (w.call (w.connect s) (stripEnd s.pre))

def Sys.piped (w : World) (s : Sys) : Sys :=
  { s with fOut := some (w.tmpnam s.temps), temps := s.temps + 1, rmOut := true }

variable {prog line : Bytes}

theorem Reads.needcmd_eq (hr : Reads w s p) (hp : p.prog = some prog) : s.needcmd = false := by
  rw [hr.needcmd, hp]
  rfl

theorem Reads.needcmd_none (hr : Reads w s p) (hp : p.prog = none) : s.needcmd := by
  rw [hr.needcmd, hp, isNone_none]

theorem served_beginCommand (h : Served w s.beginCommand cmds o) : Served w s cmds o := by
  have hlog := calls_removeIf w.multi s s.rmIn s.fIn
  refine h.congr hlog ?_ ?_ ?_
  all_goals
    rw [beginCommand, removeIf_eq]

theorem ended_fails (hin : c.stdin = s.fIn)
    (hout : c.stdout = s.fOut.map (·, s.appendOut)) (hf : ¬ Opens w c) :
    (s.ended w).result = -1 ∧ ∀ multi, calls multi (s.ended w).log = calls multi s.log := by
  have herr : w.redirectError (w.connect s) ≠ none := fun hn =>
    hf ((redirectError_eq_none (s := w.connect s) hin hout).mp hn)
  obtain ⟨⟨message, err⟩, herr⟩ := ne_none_iff_exists'.mp herr
  have hc : w.call (w.connect s) (stripEnd s.pre) = (w.connect s).fail message err := by
    rw [call, herr]
    exact if_neg (show ¬ (-1 : ℤ) = 0 by decide)
  rw [ended, hc]
  simp [disconnect, fail, record, calls, connect]

/-- A command is complete; `s'` is the state in which it is called. -/
structure Completed (w : World) (s : Sys) (p : Partial) (prog : Bytes) (sink : Sink) (s' : Sys) :
    Prop where
  prog : s'.prog = unquote w.unquoteMulti prog
  args : Joined w.multi s'.pre p.args
  log : s'.log = s.log
  nonneg : 0 ≤ s.result
  result : s'.result = s.result
  calls : s'.calls = s.calls
  temps : s'.temps = if sink = .pipe then s.temps + 1 else s.temps
  stdin : s'.stdin = none
  stdout : s'.stdout = none
  source : p.source.stdin w s.temps = s'.fIn
  sink : sink.stdout w s.temps = s'.fOut.map (·, s'.appendOut)

theorem Reads.completed (hr : Reads w s p) (hp : p.prog = some prog) :
    Completed w s p prog p.sink s :=
  ⟨hr.prog prog hp, hr.args, rfl, hr.result, rfl, rfl, (if_neg hr.notPipe).symm, hr.stdin,
    hr.stdout, hr.source.symm, hr.sink.symm⟩

theorem Reads.piped_sink (hr : Reads w s p) (hs : p.sink = .inherited) :
    Sink.stdout w s.temps .pipe = (s.piped w).fOut.map (·, (s.piped w).appendOut) := by
  have ha : (s.piped w).appendOut = false := (hr.unredirected hs).2
  rw [ha]
  rfl

theorem Reads.completed_piped (hr : Reads w s p) (hp : p.prog = some prog)
    (hs : p.sink = .inherited) : Completed w s p prog .pipe (s.piped w) :=
  ⟨hr.prog prog hp, hr.args, rfl, hr.result, rfl, rfl, rfl, hr.stdin, hr.stdout, hr.source.symm,
    hr.piped_sink hs⟩

section

variable {s' : Sys} {sink : Sink} (he : Completed w s p prog sink s')
include he

theorem Completed.ended (ho : Opens w ((p.complete prog sink).call w s.temps)) :
    s'.ended w = s'.after w (stripEnd s'.pre) ((p.complete prog sink).call w s.temps) :=
  call_eq he.stdin he.stdout he.source he.sink ho _

theorem Completed.after (hre : 0 ≤ (s'.ended w).result) :
    s'.ended w = s'.after w (stripEnd s'.pre) ((p.complete prog sink).call w s.temps) := by
  refine he.ended (by_contra fun ho => ?_)
  rw [(ended_fails he.source he.sink ho).1] at hre
  cases hre

theorem served_complete (hca : Callable w (p.complete prog sink))
    (h : if 0 ≤ (s'.ended w).result then Served w (s'.ended w) cmds o
      else o.report w.multi =
        some ⟨true, calls w.multi (s'.ended w).log, (s'.ended w).result⟩) :
    Served w s (p.complete prog sink :: cmds) o := by
  unfold Served at h ⊢
  rw [serve, if_pos hca]
  by_cases ho : Opens w ((p.complete prog sink).call w s.temps)
  · have ht := he.ended ho
    rw [if_pos ho]
    by_cases hz : s.result = 0
    · -- the command is called
      rw [Sys.after, if_pos (he.result.trans hz)] at ht
      have hre : (s'.ended w).result = w.status s.calls := by rw [ht, he.calls]
      have hc : (s'.ended w).calls = s.calls + 1 := by rw [ht, he.calls]
      have hte : (s'.ended w).temps = s'.temps := by rw [ht]; rfl
      have hlog : calls w.multi (s'.ended w).log =
          calls w.multi s.log ++ [(p.complete prog sink).call w s.temps] := by
        rw [ht]
        simp [calls, he.args.strip.words_eq, he.prog, he.log, Command.call, Partial.complete,
          record]
      rw [hre, hc, hte, hlog, he.temps] at h
      rw [if_pos hz, behind_behind]
      by_cases hs : 0 ≤ w.status s.calls
      · rw [if_pos hs] at h ⊢
        exact h
      · rw [if_neg hs] at h ⊢
        rw [h, Report.behind, append_nil]
    · -- an earlier one has failed
      rw [Sys.after, if_neg (he.result ▸ hz)] at ht
      rw [ht, he.result, he.calls, he.temps, he.log, if_pos he.nonneg] at h
      rw [if_neg hz]
      exact h
  · obtain ⟨hre, hlog⟩ := ended_fails he.source he.sink ho
    rw [hre, hlog, he.log, if_neg (by decide)] at h
    rw [if_neg ho, h, Report.behind, append_nil]

end

theorem calls_leave : calls multi s.leave.log = calls multi s.log := by
  rw [leave, calls_removeIf, calls_removeIf]

theorem report_leave :
    (returned s.leave).report multi = some ⟨true, calls multi s.log, s.result⟩ := by
  rw [report, calls_leave, leave, removeIf_result, removeIf_result]

theorem tokens_word (h : tokens multi fuel bytes = some (.word text :: ts)) :
    ∃ k rest, fuel = k + 1 ∧ getSym multi bytes = ⟨.word, text, rest⟩ ∧
      tokens multi k rest = some ts := by
  obtain ⟨k, hk, hsym, ht, hre⟩ := tokens_cons h
  refine ⟨k, _, hk, ?_, hre⟩
  rw [← ht text rfl]
  show getSym multi bytes = ⟨sym (.word text), _, _⟩
  rw [← hsym]

variable {cmds : List Command} {k : ℕ}

/-! ### The symbols of a command -/

/-- The loop has come to `rest` in the middle of a command, without a call. -/
structure Continues (w : World) (s s₁ : Sys) (p : Partial) (rest : Bytes) : Prop where
  reads : Reads w s₁ p
  post : s₁.post = rest
  temps : s₁.temps = s.temps
  log : s₁.log = s.log
  result : s₁.result = s.result
  calls : s₁.calls = s.calls

section

variable {text rest : Bytes}

section

variable (hr : Reads w s p)
include hr

theorem symbol_name (hp : p.prog = none) (hsym : getSym w.multi s.post = ⟨.word, text, rest⟩)
    (hpa : (unquote w.unquoteMulti text).head? ≠ some 40)
    (hs : (unquote w.unquoteMulti text).length < lTmpnam) :
    ∃ s1, w.symbol s = .again s1 ∧ Continues w s s1 (p.word text) rest := by
  have hn := hr.needcmd_none hp
  refine ⟨_, ?_, ⟨hr.name rest hp hs, rfl, rfl, rfl, rfl, rfl⟩⟩
  rw [symbol, hsym]
  rw [if_pos hn, if_neg (not_le.mpr hs), if_neg hpa]

theorem symbol_long (hp : p.prog = none) (hsym : getSym w.multi s.post = ⟨.word, text, rest⟩)
    (hl : lTmpnam ≤ (unquote w.unquoteMulti text).length) : w.symbol s = .overflow s := by
  have hn := hr.needcmd_none hp
  rw [symbol, hsym]
  rw [if_pos hn, if_pos hl]

theorem symbol_arg (hp : p.prog = some prog) (hsym : getSym w.multi s.post = ⟨.word, text, rest⟩) :
    ∃ s1, w.symbol s = .again s1 ∧ Continues w s s1 (p.word text) rest := by
  refine ⟨_, ?_, ⟨hr.arg hsym hp, rfl, rfl, rfl, rfl, rfl⟩⟩
  rw [symbol, hsym]
  rw [if_neg (by rw [hr.needcmd_eq hp]; decide)]

theorem symbol_input (hre : w.redirect)
    (hs : p.source = .inherited) (hsym : (getSym w.multi s.post).sym = .redirInput)
    (ht : getSym w.multi (getSym w.multi s.post).rest = ⟨.word, text, rest⟩) :
    ∃ s1, w.symbol s = .again s1 ∧
      Continues w s s1 { p with source := .file (unquote w.unquoteMulti text) }
      (s.lead ++ rest) := by
  have hin : s.fIn = none := by
    rw [hr.source, hs]
    rfl
  have hr' := hr.removed ht
  refine ⟨{ s with post := s.lead ++ rest, fIn := some (unquote w.unquoteMulti text) }, ?_,
    ⟨{ hr' with source := rfl }, rfl, rfl, rfl, rfl, rfl⟩⟩
  rw [symbol]
  simp only [hsym, hre, hin, redirectTo, ht]
  rfl

/-- A redirection of the output. -/
theorem symbol_output (hre : w.redirect)
    (hs : p.sink = .inherited) (hsym : (getSym w.multi s.post).sym = sym (.output append))
    (ht : getSym w.multi (getSym w.multi s.post).rest = ⟨.word, text, rest⟩) :
    ∃ s1, w.symbol s = .again s1 ∧
      Continues w s s1 { p with sink := .file (unquote w.unquoteMulti text) append }
        (s.lead ++ rest) := by
  obtain ⟨hout, ha⟩ := hr.unredirected hs
  have hr' := hr.removed ht
  refine ⟨{ s with
      post := s.lead ++ rest
      fOut := some (unquote w.unquoteMulti text)
      appendOut := append }, ?_,
    ⟨{ hr' with sink := rfl, appended := ?_, notPipe := ?_ }, rfl, rfl, rfl, rfl, rfl⟩⟩
  · rw [symbol]
    cases append
    · simp only [hsym, sym, redirectOutput, hre, hout, redirectTo, ht, ← ha]
      rfl
    · simp only [hsym, redirectOutput, hre, hout, redirectTo, ht]
      rfl
  · intro h
    cases h
  · intro h
    cases h

end

/-! ### The end of a command -/

theorem symbol_eol (hn : s.needcmd = false) (hsym : (getSym w.multi s.post).sym = .eol) :
    w.symbol s = .leave (s.ended w) := by
  rw [symbol]
  simp only [hsym]
  rw [finish, if_neg (by rw [hn]; decide)]
  rfl

/-- The loop has come to `rest` behind a command; `t` is the state after the call. -/
structure Behind (t u : Sys) (rest : Bytes) : Prop where
  post : u.post = rest
  temps : u.temps = t.temps
  result : u.result = t.result
  calls : u.calls = t.calls
  stdin : u.stdin = t.stdin
  stdout : u.stdout = t.stdout
  log : ∀ multi, Shell.calls multi u.log = Shell.calls multi t.log

theorem symbol_semicolon (hn : s.needcmd = false)
    (hsym : (getSym w.multi s.post).sym = .semicolon) :
    ∃ u, w.symbol s = .command u ∧ Behind (s.ended w) u (getSym w.multi s.post).rest ∧
      u.fOut = none := by
  obtain ⟨t, ht⟩ : ∃ t, t = s.ended w := ⟨_, rfl⟩
  rw [← ht]
  refine ⟨{ (t.removeIf t.rmIn t.fIn).removeIf t.rmOut t.fOut with
    fIn := none
    fOut := none
    post := (getSym w.multi s.post).rest }, ?_, ?_, rfl⟩
  · rw [symbol]
    simp only [hsym]
    rw [finish, if_neg (by rw [hn]; decide), ht]
    rfl
  · constructor
    case log => exact fun multi => (calls_removeIf ..).trans (calls_removeIf ..)
    all_goals simp

theorem symbol_pipe (hn : s.needcmd = false) (hre : w.redirect)
    (hout : s.fOut = none) (hsym : (getSym w.multi s.post).sym = .pipe) :
    ∃ u, w.symbol s = .command u ∧ Behind ((s.piped w).ended w) u (getSym w.multi s.post).rest ∧
      u.fOut = ((s.piped w).ended w).fOut := by
  refine ⟨{ (s.piped w).ended w with post := (getSym w.multi s.post).rest }, ?_,
    ⟨rfl, rfl, rfl, rfl, rfl, rfl, fun _ => rfl⟩, rfl⟩
  rw [symbol]
  simp only [hsym, hre, hout]
  have hn' : (s.piped w).needcmd = false := hn
  change w.finish .pipe (getSym w.multi s.post).rest (s.piped w) = _
  rw [finish, if_neg (by rw [hn']; decide)]
  rfl

theorem Behind.reads {t u : Sys} (hu : Behind t u rest)
    (hin : u.fOut = source.stdin w u.temps) (hst : t.stdin = none) (hs : t.stdout = none)
    (hre : 0 ≤ u.result) : Reads w u.beginCommand (.fresh source) :=
  reads_beginCommand hin (hu.stdin.trans hst) (hu.stdout.trans hs) hre

end

/-! ### What is called -/

/-- What is known of a command while it is read. -/
structure Allowed (w : World) (p : Partial) : Prop where
  simple : ∀ prog ∈ p.prog, (unquote w.unquoteMulti prog).head? ≠ some 40
  redirect : w.redirect = true ∨ p.source = .inherited ∧ p.sink = .inherited

theorem Allowed.callable (ha : Allowed w p) (hr : Reads w s p)
    (hp : p.prog = some prog) : Callable w (p.complete prog p.sink) :=
  ⟨hr.short prog hp, ha.simple prog hp, ha.redirect⟩

theorem Allowed.callable_pipe (ha : Allowed w p) (hr : Reads w s p)
    (hp : p.prog = some prog) (hre : w.redirect) : Callable w (p.complete prog .pipe) :=
  ⟨hr.short prog hp, ha.simple prog hp, .inl hre⟩

theorem symbol_shell (hr : w.redirect = false) (ht : t.plain = false)
    (hsym : (getSym w.multi s.post).sym = t.sym) : w.symbol s = .shell s := by
  rw [symbol]
  cases t with
  | word text => cases ht
  | semicolon => cases ht
  | input => simp [hsym, sym, hr]
  | pipe => simp [hsym, sym, hr]
  | output append =>
    cases append
    · simp [hsym, sym, hr, redirectOutput]
    · simp [hsym, sym, hr, redirectOutput]

theorem symbol_paren (hr : Reads w s p) (hpr : p.prog = none)
    (hsym : getSym w.multi s.post = ⟨.word, text, rest⟩)
    (hs : (unquote w.unquoteMulti text).length < lTmpnam)
    (hp : (unquote w.unquoteMulti text).head? = some 40) : w.symbol s = .shell s := by
  have hn := hr.needcmd_none hpr
  rw [symbol, hsym]
  rw [if_pos hn, if_neg (not_le.mpr hs), if_pos hp]

theorem served_again (hsym : w.symbol s = .again s1)
    (hs1 : Continues w s s1 p1 rest) (h : Served w s1 cmds (w.run k s1)) :
    Served w s cmds (w.run (k + 1) s) := by
  rw [run, hsym]
  exact h.congr (by rw [hs1.log]) hs1.result hs1.calls hs1.temps

theorem served_stop {c : Command}
    (h : o.report w.multi = some ⟨false, calls w.multi s.log, s.result⟩) (hc : ¬ Callable w c) :
    Served w s (c :: cmds) o := by
  rw [Served, h, serve, if_neg hc, Report.behind, append_nil]

theorem served_shell {c : Command} (hre : w.redirect = false) (ht : t.plain = false)
    (hsym : (getSym w.multi s.post).sym = t.sym)
    (hc : ¬ (c.source = .inherited ∧ c.sink = .inherited)) :
    Served w s (c :: cmds) (w.run (k + 1) s) := by
  rw [run, symbol_shell hre ht hsym]
  refine served_stop rfl fun hca => hc (hca.2.2.resolve_left ?_)
  rw [hre]
  exact Bool.false_ne_true

theorem served_command {u t : Sys} (hsym : w.symbol s = .command u) (hu : Behind t u rest)
    (h : 0 ≤ u.result → Served w u.beginCommand cmds (w.run k u.beginCommand)) :
    if 0 ≤ t.result then Served w t cmds (w.run (k + 1) s)
      else (w.run (k + 1) s).report w.multi = some ⟨true, calls w.multi t.log, t.result⟩ := by
  rw [run, hsym]
  dsimp only
  rw [← hu.result]
  split_ifs with hr
  · exact (served_beginCommand (h hr)).congr (hu.log w.multi) hu.result hu.calls hu.temps
  · rw [report_leave, hu.log]

section

variable (hr : Reads w s p)
include hr

section

variable (ha : Allowed w p)
include ha

theorem served_eol (hp : p.prog = some prog) (hsym : (getSym w.multi s.post).sym = .eol) :
    Served w s [p.complete prog p.sink] (w.run (k + 1) s) := by
  rw [run, symbol_eol (hr.needcmd_eq hp) hsym]
  refine served_complete (hr.completed hp) (ha.callable hr hp) ?_
  split_ifs
  · rw [Served, report_leave, serve, Report.behind, append_nil]
  · exact report_leave ..

theorem served_semicolon (hp : p.prog = some prog) (hsym : (getSym w.multi s.post).sym = .semicolon)
    (h : ∀ s1, Reads w s1 (.fresh .inherited) → s1.post = (getSym w.multi s.post).rest →
      Served w s1 cmds (w.run k s1)) :
    Served w s (p.complete prog p.sink :: cmds) (w.run (k + 1) s) := by
  obtain ⟨u, hc, hu, hf⟩ := symbol_semicolon (hr.needcmd_eq hp) hsym
  refine served_complete (hr.completed hp) (ha.callable hr hp) (served_command hc hu fun hre => ?_)
  rw [(hr.completed hp).after (hu.result ▸ hre)] at hu
  refine h _ (hu.reads hf ?_ ?_ hre) (by simp [hu.post])
  · simp [hr.stdin]
  · simp [hr.stdout]

/-- A pipe follows. -/
theorem served_pipe (hred : w.redirect) (hp : p.prog = some prog) (hs : p.sink = .inherited)
    (hsym : (getSym w.multi s.post).sym = .pipe)
    (h : ∀ s1, Reads w s1 (.fresh .pipe) → s1.post = (getSym w.multi s.post).rest →
      Served w s1 cmds (w.run k s1)) :
    Served w s (p.complete prog .pipe :: cmds) (w.run (k + 1) s) := by
  obtain ⟨u, hc, hu, hf⟩ := symbol_pipe (hr.needcmd_eq hp) hred (hr.unredirected hs).1 hsym
  have hco := hr.completed_piped hp hs
  refine served_complete hco (ha.callable_pipe hr hp hred) (served_command hc hu fun hre => ?_)
  have he := hco.after (hu.result ▸ hre)
  rw [he] at hu hf
  refine h _ (hu.reads ?_ ?_ ?_ hre) (by simp [hu.post])
  · rw [hf, hu.temps, after_fOut, after_temps]
    rfl
  · rw [after_stdin]
    exact hr.stdin
  · rw [after_stdout]
    exact hr.stdout

/-- A word follows: the name of a program, or an argument. -/
theorem served_word (hsym : getSym w.multi s.post = ⟨.word, text, rest⟩)
    (hcm : commands (unquote w.unquoteMulti) (p.word text) ts = some cmds)
    (h : ∀ s1, Continues w s s1 (p.word text) rest → Allowed w (p.word text) →
      Served w s1 cmds (w.run k s1)) :
    Served w s cmds (w.run (k + 1) s) := by
  have hre : w.redirect ∨
      (p.word text).source = .inherited ∧ (p.word text).sink = .inherited := by
    rw [word_source, word_sink]
    exact ha.redirect
  cases hp : p.prog with
  | some prog =>
    obtain ⟨s1, hag, hs1⟩ := symbol_arg hr hp hsym
    refine served_again hag hs1 (h s1 hs1 ⟨fun prog' hp' => ?_, hre⟩)
    rw [Partial.word, hp] at hp'
    exact ha.simple prog' (hp.trans hp')
  | none =>
    obtain ⟨c, cs, rfl, hf, -, -⟩ := commands_first hcm
    have hn : c.prog = text := hf text (by rw [Partial.word, hp]; rfl)
    by_cases hl : lTmpnam ≤ (unquote w.unquoteMulti text).length
    · rw [run, symbol_long hr hp hsym hl]
      refine served_stop rfl fun hc => ?_
      have hs := hc.1
      rw [Short, hn] at hs
      exact (not_le.mpr hs) hl
    by_cases hpa : (unquote w.unquoteMulti text).head? = some 40
    · rw [run, symbol_paren hr hp hsym (not_le.mp hl) hpa]
      exact served_stop rfl fun hc => hc.2.1 (hn ▸ hpa)
    · obtain ⟨s1, hag, hs1⟩ := symbol_name hr hp hsym hpa (not_le.mp hl)
      refine served_again hag hs1 (h s1 hs1 ⟨fun prog' hp' => ?_, hre⟩)
      rw [Partial.word, hp] at hp'
      rwa [← some.inj hp']

end

end

/-- A redirection and its file. -/
theorem tokens_redirection (h : tokens w.multi fuel s.post = some (t :: .word text :: ts)) :
    ∃ n rest, fuel = n + 2 ∧ (getSym w.multi s.post).sym = t.sym ∧
      getSym w.multi (getSym w.multi s.post).rest = ⟨.word, text, rest⟩ ∧
      tokens w.multi n (s.lead ++ rest) = some ts := by
  obtain ⟨m, rfl, hsym, -, hre⟩ := tokens_cons h
  obtain ⟨n, rest, rfl, hw, hre⟩ := tokens_word hre
  exact ⟨n, rest, rfl, hsym, hw, (tokens_space fun d => isspace_of_mem_lead).trans hre⟩

/-- **The loop does what the commands do.** -/
theorem run_served (ht : tokens w.multi fuel s.post = some ts)
    (hf : fuel ≤ fuel') (hcm : commands (unquote w.unquoteMulti) p ts = some cmds)
    (hr : Reads w s p) (ha : Allowed w p) : Served w s cmds (w.run fuel' s) := by
  fun_induction commands (unquote w.unquoteMulti) p ts generalizing s fuel fuel' cmds with
  | case1 p =>
    obtain ⟨hpos, hsym⟩ := tokens_nil ht
    obtain ⟨k, rfl⟩ := Nat.exists_eq_add_of_le' (hpos.trans_le hf)
    obtain ⟨prog, hp, rfl⟩ := Partial.command_eq hcm
    exact served_eol hr ha hp hsym
  | case2 p text ts ih =>
    obtain ⟨n, rest, rfl, hsym, hres⟩ := tokens_word ht
    obtain ⟨k, rfl⟩ := Nat.exists_eq_add_of_le' hf
    refine served_word hr ha hsym hcm fun s1 hs1 ha1 => ?_
    exact ih (hs1.post ▸ hres) (n.le_add_left k) hcm hs1.reads ha1
  | case3 p text ts hs ih =>
    obtain ⟨n, rest, rfl, hsym, hw, hres⟩ := tokens_redirection ht
    obtain ⟨k, rfl⟩ := Nat.exists_eq_add_of_le' hf
    cases hre : w.redirect with
    | false =>
      obtain ⟨c, cs, rfl, -, hso, -⟩ := commands_first hcm
      exact served_shell hre rfl hsym fun hc => hso nofun hc.1
    | true =>
      obtain ⟨s1, hag, hs1⟩ := symbol_input hr hre hs hsym hw
      exact served_again hag hs1
        (ih (hs1.post ▸ hres) (n.le_succ.trans (le_add_left _ k)) hcm hs1.reads
          ⟨ha.simple, .inl hre⟩)
  | case4 => cases hcm
  | case5 p append text ts hs ih =>
    obtain ⟨n, rest, rfl, hsym, hw, hres⟩ := tokens_redirection ht
    obtain ⟨k, rfl⟩ := Nat.exists_eq_add_of_le' hf
    cases hre : w.redirect with
    | false =>
      obtain ⟨c, cs, rfl, -, -, hsi⟩ := commands_first hcm
      exact served_shell hre rfl hsym fun hc => hsi nofun hc.2
    | true =>
      obtain ⟨s1, hag, hs1⟩ := symbol_output hr hre hs hsym hw
      exact served_again hag hs1
        (ih (hs1.post ▸ hres) (n.le_succ.trans (le_add_left _ k)) hcm hs1.reads
          ⟨ha.simple, .inl hre⟩)
  | case6 => cases hcm
  | case7 p ts hs ih =>
    obtain ⟨n, rfl, hsym, -, hres⟩ := tokens_cons ht
    obtain ⟨k, rfl⟩ := Nat.exists_eq_add_of_le' hf
    obtain ⟨prog, cmds, hp, hcs, rfl⟩ := Partial.command_cons hcm
    cases hre : w.redirect with
    | false => exact served_shell hre rfl hsym fun hc => by cases hc.2
    | true =>
      refine served_pipe hr ha hre hp hs hsym fun s1 hr1 hpo => ?_
      exact ih (hpo ▸ hres) (n.le_add_left k) hcs hr1 ⟨fun prog hp => (by cases hp), .inl hre⟩
  | case8 => cases hcm
  | case9 p ts ih =>
    obtain ⟨n, rfl, hsym, -, hres⟩ := tokens_cons ht
    obtain ⟨k, rfl⟩ := Nat.exists_eq_add_of_le' hf
    obtain ⟨prog, cmds, hp, hcs, rfl⟩ := Partial.command_cons hcm
    refine served_semicolon hr ha hp hsym fun s1 hr1 hpo => ?_
    exact ih (hpo ▸ hres) (n.le_add_left k) hcs hr1 ⟨fun prog hp => (by cases hp), .inr ⟨rfl, rfl⟩⟩
  | case10 => cases hcm

/-- What is asked of the rest of a line. -/
structure Runnable (w : World) (temps : ℕ) (ts : List Token) (cmds : List Command) : Prop where
  redirect : w.redirect = true ∨ ∀ t ∈ ts, t.plain = true
  simple : ∀ c ∈ cmds, (unquote w.unquoteMulti c.prog).head? ≠ some 40
  opens : ∀ call ∈ connected w temps cmds, Opens w call
  status : ∀ k, 0 ≤ w.status k

/-! ### The whole line -/

theorem connected_length (w : World) (k : ℕ) (cmds : List Command) :
    (connected w k cmds).length = cmds.length := by
  induction cmds generalizing k with
  | nil => rfl
  | cons c cmds ih => rw [connected, length_cons, ih, length_cons]

theorem length_performed_le (w : World) (result : ℤ) (n : ℕ) (cs : List Call) :
    (performed w result n cs).1.length ≤ cs.length := by
  induction cs generalizing result n with
  | nil => exact le_rfl
  | cons c cs ih =>
    rw [performed]
    split_ifs
    · exact succ_le_succ (ih _ _)
    · exact (ih _ _).trans (le_succ _)

/-- All calls are made exactly if all but the last succeed. -/
theorem performed_eq_iff (w : World) (n : ℕ) (c : Call) (cs : List Call) :
    performed w 0 n (c :: cs) = (c :: cs, w.status (n + cs.length)) ↔
      ∀ k < cs.length, w.status (n + k) = 0 := by
  induction cs generalizing n c with
  | nil => exact ⟨fun _ k hk => absurd hk k.not_lt_zero, fun _ => rfl⟩
  | cons d cs ih =>
    have hs : ∀ k, n + 1 + k = n + (k + 1) := fun k => by omega
    rw [performed, if_pos rfl]
    by_cases hz : w.status n = 0
    · rw [hz, length_cons, ← hs]
      trans performed w 0 (n + 1) (d :: cs) = (d :: cs, w.status (n + 1 + cs.length))
      · simp [Prod.ext_iff, hs]
      rw [ih]
      constructor
      · rintro h (_ | k) hk
        · exact hz
        · rw [← hs]
          exact h k (lt_of_succ_lt_succ hk)
      · intro h k hk
        rw [hs]
        exact h (k + 1) (succ_lt_succ hk)
    · refine iff_of_false (fun h => ?_) fun h => hz (h 0 (succ_pos _))
      -- nothing is called any more
      have ht := (cons.inj (Prod.ext_iff.mp h).1).2
      have hlen := length_performed_le w (w.status n) (n + 1) cs
      rw [performed, if_neg hz] at ht
      rw [ht] at hlen
      exact not_succ_le_self _ hlen

/-- Every command of a line is run, in order and with its streams, and the status of the last one is
returned. -/
def World.Runs (w : World) (line : Bytes) (cmds : List Command) : Prop :=
  ∃ s, w.system line = .returned s ∧ calls w.multi s.log = connected w 0 cmds ∧
    s.result = w.status (cmds.length - 1)

theorem commands_ne_nil {name : Bytes → Bytes} (h : commands name p ts = some cmds) :
    cmds ≠ [] := by
  obtain ⟨c, cs, rfl, -⟩ := commands_first h
  exact cons_ne_nil c cs

theorem system_eq_run (hs : w.callShell = false) (ht : tokens w.multi fuel line = some ts)
    (hc : commands (unquote w.unquoteMulti) (.fresh .inherited) ts = some cmds) :
    ∃ n, w.system line = w.run n (start (line.dropWhile isspace)).beginCommand ∧
      tokens w.multi n (start (line.dropWhile isspace)).beginCommand.post = some ts := by
  have hd : tokens w.multi fuel (line.dropWhile isspace) = some ts := by
    rw [← ht, ← tokens_space fun d => mem_takeWhile_imp, takeWhile_append_dropWhile]
  have hne : line.dropWhile isspace ≠ [] := by
    intro hnil
    rw [hnil] at hd
    cases ts with
    | nil => cases hc
    | cons t ts =>
      obtain ⟨k, rfl, hsym, -⟩ := tokens_cons hd
      exact t.sym_ne.1 hsym.symm
  refine ⟨(line.dropWhile isspace).length + 1, ?_, ?_⟩
  · rw [system, if_neg (by simp [hne, hs])]
  · rw [beginCommand_post]
    exact tokens_enough hd (lt_succ_self _)

/-- **`system` does what the commands do.** -/
theorem system_served (hs : w.callShell = false) (ht : tokens w.multi fuel line = some ts)
    (hc : commands (unquote w.unquoteMulti) (.fresh .inherited) ts = some cmds) :
    (w.system line).report w.multi = some (w.serve 0 0 0 cmds) := by
  obtain ⟨n, hs, he⟩ := system_eq_run hs ht hc
  rw [hs]
  exact served_beginCommand (run_served he le_rfl hc (reads_beginCommand rfl rfl rfl le_rfl)
    ⟨fun prog hp => (by cases hp), .inr ⟨rfl, rfl⟩⟩)

theorem commands_inherited {name : Bytes → Bytes} (h : commands name p ts = some cmds)
    (ht : ∀ t ∈ ts, t.plain) (hp : p.source = .inherited ∧ p.sink = .inherited) :
    ∀ c ∈ cmds, c.source = .inherited ∧ c.sink = .inherited := by
  fun_induction commands name p ts generalizing cmds with
  | case1 p =>
    obtain ⟨prog, -, rfl⟩ := Partial.command_eq h
    simpa [Partial.complete] using hp
  | case2 p text ts ih =>
    exact ih h (forall_mem_of_forall_mem_cons ht) (by rwa [word_source, word_sink])
  | case9 p ts ih =>
    obtain ⟨prog, cs, -, hcs, rfl⟩ := Partial.command_cons h
    exact forall_mem_cons.mpr ⟨hp, ih hcs (forall_mem_of_forall_mem_cons ht) ⟨rfl, rfl⟩⟩
  | _ => simp_all [plain]

section

variable {temps : ℕ} (ho : ∀ call ∈ connected w temps cmds, Opens w call)
  (hst : ∀ k, 0 ≤ w.status k)
include ho hst

theorem serve_performed (result : ℤ) (n : ℕ) (hca : ∀ c ∈ cmds, Callable w c) :
    w.serve result n temps cmds =
      ⟨true, (performed w result n (connected w temps cmds)).1,
        (performed w result n (connected w temps cmds)).2⟩ := by
  induction cmds generalizing result n temps with
  | nil => rfl
  | cons c cmds ih =>
    obtain ⟨hc, hcs⟩ := forall_mem_cons.mp hca
    obtain ⟨h1, h2⟩ := forall_mem_cons.mp ho
    rw [serve, if_pos hc, if_pos h1, if_pos (hst n), connected, performed]
    by_cases hz : result = 0
    · rw [if_pos hz, if_pos hz, ih h2 _ _ hcs]
      rfl
    · rw [if_neg hz, if_neg hz]
      exact ih h2 _ _ hcs

theorem serve_stopped (result : ℤ) (n : ℕ) (hca : ∃ c ∈ cmds, ¬ Callable w c) :
    (w.serve result n temps cmds).returned = false := by
  induction cmds generalizing result n temps with
  | nil => simp at hca
  | cons c cmds ih =>
    obtain ⟨h1, h2⟩ := forall_mem_cons.mp ho
    rw [serve]
    by_cases hc : Callable w c
    · have hcs : ∃ d ∈ cmds, ¬ Callable w d := by simpa [hc] using hca
      rw [if_pos hc, if_pos h1, if_pos (hst n)]
      by_cases hz : result = 0
      · rw [if_pos hz]
        exact ih h2 _ _ hcs
      · rw [if_neg hz]
        exact ih h2 _ _ hcs
    · rw [if_neg hc]

end

/-- **Every command of a line is run exactly if all but the last succeed** and no name overflows the
buffer. -/
theorem system_runs_iff (w : World) (line : Bytes) (fuel : ℕ) (ts : List Token)
    (cmds : List Command) (hshell : w.callShell = false)
    (htokens : tokens w.multi fuel line = some ts)
    (hcmds : commands (unquote w.unquoteMulti) (.fresh .inherited) ts = some cmds)
    (hline : Runnable w 0 ts cmds) :
    w.Runs line cmds ↔ (∀ k, k + 1 < cmds.length → w.status k = 0) ∧ ∀ c ∈ cmds, Short w c := by
  have hre := system_served hshell htokens hcmds
  have hca : (∀ c ∈ cmds, Short w c) → ∀ c ∈ cmds, Callable w c := fun hs c hc =>
    ⟨hs c hc, hline.simple c hc, hline.redirect.imp_right fun ht =>
      commands_inherited hcmds ht ⟨rfl, rfl⟩ c hc⟩
  have hall :
    performed w 0 0 (connected w 0 cmds) = (connected w 0 cmds, w.status (cmds.length - 1)) ↔
      ∀ k, k + 1 < cmds.length → w.status k = 0 := by
    cases cmds with
    | nil => exact absurd rfl (commands_ne_nil hcmds)
    | cons c cmds =>
      have hiff := performed_eq_iff w 0 (c.call w 0)
        (connected w (if c.sink = .pipe then 0 + 1 else 0) cmds)
      simp only [connected_length, zero_add] at hiff
      simpa [connected] using hiff
  constructor
  · rintro ⟨s, hs, hc, hr⟩
    rw [hs] at hre
    have hsh : ∀ c ∈ cmds, Short w c := by
      by_contra hn
      obtain ⟨c, hc, hn⟩ := not_forall₂.mp hn
      have hst := serve_stopped hline.opens hline.status 0 0 ⟨c, hc, fun h => hn h.1⟩
      rw [← some.inj hre] at hst
      cases hst
    rw [serve_performed hline.opens hline.status 0 0 (hca hsh)] at hre
    obtain ⟨-, h1, h2⟩ := Report.mk.inj (some.inj hre)
    exact ⟨hall.mp (Prod.ext (h1.symm.trans hc) (h2.symm.trans hr)), hsh⟩
  · rintro ⟨hz, hsh⟩
    rw [serve_performed hline.opens hline.status 0 0 (hca hsh), hall.mpr hz] at hre
    cases hs : w.system line with
    | returned s =>
      rw [hs] at hre
      obtain ⟨-, h1, h2⟩ := Report.mk.inj (some.inj hre)
      exact ⟨s, hs, h1, h2⟩
    | _ => simp [hs, report] at hre

/-- A world in which everything succeeds, apart from the first program. -/
def failingFirst : World :=
  { redirect := true, multi := true, unquoteMulti := true, callShell := false,
    tmpnam := fun _ => [116], openInput := fun _ => none, openOutput :=
    fun _ _ => none, dup := none, status := fun k => if k = 0 then 1 else 0 }

/-- The commands `a` and `b`. -/
def twoCommands : List Command :=
  [⟨[97], [], .inherited, .inherited⟩, ⟨[98], [], .inherited, .inherited⟩]

theorem runnable_twoCommands :
    Runnable failingFirst 0 [.word [97], .semicolon, .word [98]] twoCommands where
  redirect := .inl rfl
  simple := by decide +kernel
  opens := fun call _ => ⟨fun _ _ => rfl, fun _ _ => rfl, fun _ => rfl⟩
  status := fun k => by
    show 0 ≤ if k = 0 then (1 : ℤ) else 0
    split_ifs <;> decide

/-- `a;b`, when `a` fails. -/
theorem system_runs_iff_failing : failingFirst.Runs [97, 59, 98] twoCommands ↔
      (∀ k, k + 1 < twoCommands.length → failingFirst.status k = 0) ∧
        ∀ c ∈ twoCommands, Short failingFirst c :=
  system_runs_iff failingFirst [97, 59, 98] 4 [.word [97], .semicolon, .word [98]] twoCommands rfl
    (by decide +kernel) (by decide +kernel) runnable_twoCommands

/-- `a;b` does not run `b` when `a` fails. -/
theorem second_command_skipped :
    tokens true 4 [97, 59, 98] = some [.word [97], .semicolon, .word [98]] ∧
      commands (unquote true) (.fresh .inherited) [.word [97], .semicolon, .word [98]] =
        some twoCommands ∧
      Runnable failingFirst 0 [.word [97], .semicolon, .word [98]] twoCommands ∧
      (∃ s, failingFirst.system [97, 59, 98] = .returned s ∧
        s.log = [.system1 [97] [] none none] ∧ s.result = 1) ∧
      ¬ failingFirst.Runs [97, 59, 98] twoCommands := by
  obtain ⟨t, ht, hlog, hre⟩ : ∃ t, failingFirst.system [97, 59, 98] = .returned t ∧
      t.log = [.system1 [97] [] none none] ∧ t.result = 1 :=
    ⟨_, rfl, by decide +kernel, by decide +kernel⟩
  refine ⟨by decide +kernel, by decide +kernel, runnable_twoCommands, ⟨t, ht, hlog, hre⟩, ?_⟩
  rintro ⟨s, hs, hc, -⟩
  obtain rfl : t = s := by
    rw [ht] at hs
    exact returned.inj hs
  rw [hlog] at hc
  exact absurd hc (by decide +kernel)

end Shell
