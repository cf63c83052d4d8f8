import Dj64.Shell.CommandCopy

/-!
# The loops of `system` on the copy

The loops on the copy follow the loops on lists, symbol by symbol, as long as the names that are put
into buffers of a fixed size are short enough.
-/

namespace Shell

open Exec Buffers Strings Runs List Nat World Sys Fault

/-! ### The variables that are not in the copy -/

def Sys.erase (s : Sys) : Sys := { s with pre := [], post := [] }

theorem erase_removeIf {s : Sys} {rm : Bool} {f : Option Bytes} :
    (s.removeIf rm f).erase = s.erase.removeIf rm f := by
  cases f with
  | none => rfl
  | some name => cases rm <;> rfl

theorem erase_leave {s : Sys} : s.leave.erase = s.erase.leave := by
  rw [leave, erase_removeIf, erase_removeIf]
  rfl

theorem erase_beginCommand {s : Sys} : s.beginCommand.erase = s.erase.beginCommand := by
  rw [beginCommand, beginCommand]
  rw [← erase_removeIf]
  rfl

theorem erase_call {w : World} {s : Sys} {tail : Bytes} :
    (w.call s tail).erase = w.call s.erase tail := by
  have he : w.redirectError s.erase = w.redirectError s := rfl
  rw [call, call, he]
  cases w.redirectError s with
  | none =>
    by_cases hz : s.result = 0
    · exact (congrArg erase (if_pos hz)).trans (if_pos hz).symm
    · exact (congrArg erase (if_neg hz)).trans (if_neg hz).symm
  | some p => rfl

theorem erase_ended {w : World} {s : Sys} {tail : Bytes} :
    (w.disconnect s (w.call (w.connect s) tail)).erase =
      w.disconnect s.erase (w.call (w.connect s.erase) tail) := by
  have hc : w.connect s.erase = (w.connect s).erase := rfl
  rw [hc, ← erase_call]
  rfl

/-! ### What is in the copy -/

/-- The copy when the loop on lists is in a given state: the command is between `front` and the end
of the line, and `tail` is what is left of the line from before it was shortened. -/
structure Holds (front tail : Bytes) (m : Copy) (s : Sys) : Prop where
  buf : m.buf = front ++ (s.pre ++ (s.post ++ 0 :: tail))
  cmdstart : m.cmdstart = front.length
  pos : m.s = front.length + s.pre.length
  pre : 0 ∉ s.pre
  post : 0 ∉ s.post
  sys : m.sys = s.erase

/-- The copy when the symbol `r` is from `t` to `u`, with the white space in front of it removed. -/
structure Placed (front tail : Bytes) (r : Lexeme) (m : Copy) (s : Sys) (t u : ℕ) : Prop where
  buf : m.buf = front ++ (s.pre ++ (s.lead ++ (r.text ++ (r.rest ++ 0 :: tail))))
  cmdstart : m.cmdstart = front.length
  pos : m.s = front.length + s.pre.length
  start : t = front.length + s.pre.length + s.lead.length
  fin : u = front.length + s.pre.length + s.lead.length + r.text.length
  pre : 0 ∉ s.pre
  text : 0 ∉ r.text
  rest : 0 ∉ r.rest
  sys : m.sys = s.erase

/-- What follows a symbol, on the copy and on lists. -/
inductive Follows : NextAt → Next → Prop
  | again {front tail : Bytes} {m : Copy} {s : Sys} (h : Holds front tail m s) :
      Follows (.again m) (.again s)
  | command {front tail : Bytes} {m : Copy} {s : Sys} (hsys : m.sys = s.erase)
      (h : Holds front tail (beginAt m) s.beginCommand) : Follows (.command m) (.command s)
  | leave (s : Sys) : Follows (.leave s.erase) (.leave s)
  | shell (s : Sys) : Follows (.shell s.erase) (.shell s)

variable {w : World} {front tail a b c cmd more mid l : Bytes} {m : Copy} {s : Sys} {r : Lexeme}
  {t u src rounds n fuel : ℕ} {multi : Bool} {token : CmdSym}

theorem drop_append_add : (a ++ (b ++ c)).drop (a.length + b.length) = c := by
  rw [← drop_drop, drop_left, drop_left]

section

variable (h : Holds front tail m s)
include h

theorem Holds.stands : Stands 0 m.buf m.s s.post := by
  refine ⟨tail, ?_⟩
  rw [h.buf, h.pos, drop_append_add]

/-- The white space in front of a symbol is the byte that is left and others. -/
theorem lead_append : ∃ more, s.post.takeWhile isspace = s.lead ++ more ∧
      ((if m.s = m.cmdstart then m.s else m.s + 1) < m.s + (s.post.takeWhile isspace).length ↔
        more ≠ []) ∧
      (more ≠ [] → (if m.s = m.cmdstart then m.s else m.s + 1) = m.s + s.lead.length) := by
  by_cases hpre : s.pre = []
  · have heq : m.s = m.cmdstart := by rw [h.pos, h.cmdstart, hpre, length_nil, add_zero]
    refine ⟨s.post.takeWhile isspace, ?_, ?_, fun _ => ?_⟩
    · rw [lead, if_pos hpre, nil_append]
    · rw [if_pos heq, ← length_pos_iff]
      omega
    · rw [if_pos heq, lead, if_pos hpre, length_nil, add_zero]
  have hpos := length_pos_iff.mpr hpre
  have hne : m.s ≠ m.cmdstart := by
    rw [h.pos, h.cmdstart]
    omega
  have hm : (s.post.takeWhile isspace).drop 1 ≠ [] ↔ 1 < (s.post.takeWhile isspace).length := by
    rw [ne_eq, drop_eq_nil_iff, not_le]
  refine ⟨(s.post.takeWhile isspace).drop 1, ?_, ?_, fun hm' => ?_⟩
  · rw [lead, if_neg hpre, take_append_drop]
  · rw [if_neg hne, hm]
    omega
  · rw [hm] at hm'
    rw [if_neg hne, lead, if_neg hpre, length_take, min_eq_left hm'.le]

/-- **The white space in front of a symbol is removed.** -/
theorem weedOut_placed :
    ∃ buf t u tail', weedOut m (m.s + (s.post.takeWhile isspace).length)
        (m.s + (s.post.takeWhile isspace).length + (getSym multi s.post).text.length) =
          .ok (buf, t, u) ∧
      Placed front tail' (getSym multi s.post) { m with buf := buf } s t u := by
  obtain ⟨more, hw, hlt, hv⟩ := lead_append h
  have ha := getSym_append multi s.post
  have hp :
    s.post = s.lead ++ (more ++ ((getSym multi s.post).text ++ (getSym multi s.post).rest)) := by
    rw [ha, ← append_assoc, ← hw, takeWhile_append_dropWhile]
  have hmem : ∀ c ∈ (getSym multi s.post).text ++ (getSym multi s.post).rest, c ∈ s.post := by
    intro c hc
    rw [ha] at hc
    exact (dropWhile_sublist isspace).mem hc
  have hz : 0 ∉ (getSym multi s.post).text ++ (getSym multi s.post).rest :=
    fun hc => h.post (hmem 0 hc)
  have ht : 0 ∉ (getSym multi s.post).text := fun hc => hz (mem_append_left _ hc)
  have hr : 0 ∉ (getSym multi s.post).rest := fun hc => hz (mem_append_right _ hc)
  rw [weedOut]
  by_cases hm : more = []
  · rw [hm, nil_append] at hp
    rw [hm, append_nil] at hw
    rw [if_neg fun hlt' => hlt.mp hlt' hm]
    refine ⟨m.buf, _, _, tail, rfl, ?_, h.cmdstart, h.pos, ?_, ?_, h.pre, ht, hr, h.sys⟩
    · rw [h.buf]
      conv_lhs => rw [hp]
      simp only [append_assoc]
    · rw [h.pos, hw]
    · rw [h.pos, hw]
  rw [if_pos (hlt.mpr hm), hv hm]
  have hbuf : m.buf = (front ++ (s.pre ++ s.lead)) ++ (more ++
      (((getSym multi s.post).text ++ (getSym multi s.post).rest) ++ 0 :: tail)) := by
    rw [h.buf]
    conv_lhs => rw [hp]
    simp only [append_assoc]
  have hlen : (front ++ (s.pre ++ s.lead)).length = m.s + s.lead.length := by
    rw [h.pos, length_append, length_append, add_assoc]
  have hsrc : m.s + (s.post.takeWhile isspace).length =
      (front ++ (s.pre ++ s.lead)).length + more.length := by
    rw [hlen, hw, length_append, add_assoc]
  obtain ⟨tail', ht'⟩ := strcpy_left (x := copy) _ _ _ _ hbuf hlen.symm hsrc hz
  rw [ht']
  refine ⟨_, _, _, tail', rfl, ?_, h.cmdstart, h.pos, ?_, ?_, h.pre, ht, hr, h.sys⟩
  · simp only [append_assoc]
  · rw [h.pos]
  · rw [h.pos, hw, length_append]
    omega

end

/-! ### The end of a command -/

theorem holds_begin (hbuf : m.buf = front ++ (s.post ++ 0 :: tail)) (hpos : m.s = front.length)
    (hp : 0 ∉ s.post) (hsys : m.sys = s.erase) :
    Holds front tail (beginAt m) s.beginCommand where
  buf := by
    rw [beginCommand_post]
    exact hbuf
  cmdstart := hpos
  pos := hpos
  pre := not_mem_nil
  post := by rwa [beginCommand_post]
  sys := by
    rw [erase_beginCommand, ← hsys]
    rfl

/-- Where the white space at the end of a command starts, the command is cut; what is behind its
symbol stays. -/
theorem Placed.cut (h : Placed front tail r m s t u) :
    ∃ b more, m.buf = front ++ (stripEnd s.pre ++ b :: more) ∧
      backSpace m.buf m.cmdstart m.s = .ok (front.length + (stripEnd s.pre).length) ∧
      backSpace m.buf (front.length + (stripEnd s.pre).length) t =
        .ok (front.length + (stripEnd s.pre).length) ∧
      (r.text ≠ [] → ∃ more', more = more' ++ (r.rest ++ 0 :: tail) ∧
        u = front.length + (stripEnd s.pre).length + (more'.length + 1)) := by
  obtain ⟨sp, hsp, hall⟩ := stripEnd_append s.pre
  have hb : ∀ c ∈ sp ++ s.lead, isspace c := by
    intro c hc
    rcases mem_append.mp hc with hc | hc
    · exact hall c hc
    · exact isspace_of_mem_lead hc
  have hlen : s.pre.length = (stripEnd s.pre).length + sp.length := by rw [← length_append, ← hsp]
  have hbuf : m.buf = front ++ (stripEnd s.pre ++
      ((sp ++ s.lead) ++ (r.text ++ (r.rest ++ 0 :: tail)))) := by
    rw [h.buf, append_assoc sp, ← append_assoc (stripEnd s.pre), ← hsp]
  have hf : backSpace m.buf m.cmdstart m.s =
      .ok (front.length + (stripEnd s.pre).length) := by
    have hd : m.buf.drop front.length = s.pre ++ (s.lead ++ (r.text ++ (r.rest ++ 0 :: tail))) := by
      rw [h.buf, drop_left]
    rw [h.cmdstart, h.pos, backSpace_eq hd]
  have hs : backSpace m.buf (front.length + (stripEnd s.pre).length) t =
      .ok (front.length + (stripEnd s.pre).length) := by
    have hd : m.buf.drop (front.length + (stripEnd s.pre).length) =
        (sp ++ s.lead) ++ (r.text ++ (r.rest ++ 0 :: tail)) := by
      rw [hbuf, drop_append_add]
    have hnil : stripEnd (sp ++ s.lead) = [] := rdropWhile_eq_nil_iff.mpr hb
    have ht : t = front.length + (stripEnd s.pre).length + (sp ++ s.lead).length := by
      rw [h.start, length_append]
      omega
    rw [ht, backSpace_eq hd, hnil]
    rfl
  cases hcut : (sp ++ s.lead) ++ r.text with
  | nil =>
    have hte : r.text = [] := (append_eq_nil_iff.mp hcut).2
    obtain ⟨b, more, hm⟩ : ∃ b more, r.rest ++ 0 :: tail = b :: more :=
      exists_cons_of_ne_nil (append_ne_nil_of_right_ne_nil _ (cons_ne_nil _ _))
    refine ⟨b, more, ?_, hf, hs, fun hne => absurd hte hne⟩
    rw [hbuf, ← append_assoc (sp ++ s.lead), hcut, hm]
    rfl
  | cons b more' =>
    refine ⟨b, more' ++ (r.rest ++ 0 :: tail), ?_, hf, hs, fun _ => ⟨more', rfl, ?_⟩⟩
    · rw [hbuf, ← append_assoc (sp ++ s.lead), hcut]
      rfl
    · rw [← length_cons, ← hcut, h.fin, length_append, length_append]
      omega

theorem takeWhile_cut (h0 : 0 ∉ cmd) : (cmd ++ 0 :: more).takeWhile (· != 0) = cmd := by
  have hall : ∀ c ∈ cmd, (c != 0) := by
    intro c hc
    rw [bne_iff_ne]
    rintro rfl
    exact h0 hc
  rw [takeWhile_append_of_pos hall, takeWhile_cons_of_neg (by decide), append_nil]

/-- **The end of a command**, on the copy and on lists. -/
theorem finishAt_follows (h : Placed front tail r m s t u) (ht : token ≠ .eol → r.text ≠ []) :
    ∃ n, w.finishAt token m t u = .ok n ∧ Follows n (w.finish token r.rest s) := by
  have hn : m.sys.needcmd = s.needcmd := by rw [h.sys]; rfl
  rw [finishAt, finish, hn]
  by_cases hcmd : s.needcmd
  · rw [if_pos hcmd, if_pos hcmd, h.sys]
    exact ⟨_, rfl, .leave (s.fail "No command name seen." 0)⟩
  rw [if_neg hcmd, if_neg hcmd]
  obtain ⟨b, more, hbuf, hfi, hse, hr⟩ := h.cut
  have hst : 0 ∉ stripEnd s.pre := by
    obtain ⟨sp, hsp, -⟩ := stripEnd_append s.pre
    intro hmem
    apply h.pre
    rw [hsp]
    exact mem_append_left sp hmem
  have hp : poke copy m.buf (front.length + (stripEnd s.pre).length) 0 =
      .ok (front ++ (stripEnd s.pre ++ 0 :: more)) := by
    rw [hbuf, ← append_assoc, ← length_append, poke_cons, append_assoc]
  rw [hfi, ok_bind, hse, ok_bind, hp, ok_bind]
  dsimp only
  rw [h.cmdstart, drop_left, takeWhile_cut hst, h.sys, ← erase_ended]
  obtain ⟨s', hs'⟩ : ∃ s', s' = w.disconnect s (w.call (w.connect s) (stripEnd s.pre)) := ⟨_, rfl⟩
  rw [← hs']
  by_cases heol : token = .eol
  · rw [if_pos heol, if_pos heol]
    exact ⟨_, rfl, .leave s'⟩
  rw [if_neg heol, if_neg heol]
  -- the next command starts behind the symbol
  obtain ⟨more', rfl, hu⟩ := hr (ht heol)
  have hf : front ++ (stripEnd s.pre ++ 0 :: (more' ++ (r.rest ++ 0 :: tail))) =
      (front ++ (stripEnd s.pre ++ 0 :: more')) ++ (r.rest ++ 0 :: tail) := by
    simp only [append_assoc, cons_append]
  have hlen : u = (front ++ (stripEnd s.pre ++ 0 :: more')).length := by
    rw [hu, length_append, length_append, length_cons, add_assoc]
  by_cases hs : token = .semicolon
  · rw [if_pos hs, if_pos hs]
    have hsys : { (s'.erase.removeIf s'.rmIn s'.fIn).removeIf s'.rmOut s'.fOut with
        fIn := none, fOut := none } = erase { (s'.removeIf s'.rmIn s'.fIn).removeIf
          s'.rmOut s'.fOut with
        fIn := none, fOut := none, post := r.rest } := by
      rw [← erase_removeIf, ← erase_removeIf]
      rfl
    exact ⟨_, rfl, .command hsys (holds_begin hf hlen h.rest hsys)⟩
  · rw [if_neg hs, if_neg hs]
    exact ⟨_, rfl, .command rfl (holds_begin hf hlen h.rest rfl)⟩

/-! ### Redirections -/

theorem Placed.drop_rest (h : Placed front tail r m s t u) :
    m.buf.drop u = r.rest ++ 0 :: tail := by
  rw [h.buf, h.fin]
  simp only [← drop_drop, drop_left]

theorem Placed.copy (h : Placed front tail r m s t u)
    (hr : r.text ++ r.rest = mid ++ l) (hsrc : src = t + mid.length) (hz : 0 ∉ l) :
    ∃ tail', strcpy copy 0 (m.buf.length + 1) m.buf t src =
      .ok (front ++ (s.pre ++ (s.lead ++ (l ++ 0 :: tail')))) := by
  have hbuf : m.buf = (front ++ (s.pre ++ s.lead)) ++ (mid ++ (l ++ 0 :: tail)) := by
    rw [h.buf, ← append_assoc r.text, hr]
    simp only [append_assoc]
  have hlen : (front ++ (s.pre ++ s.lead)).length = t := by
    rw [h.start, length_append, length_append, add_assoc]
  obtain ⟨tail', ht'⟩ := strcpy_left (x := Fault.copy) _ _ _ _ hbuf hlen.symm
    (hsrc.trans (by rw [hlen])) hz
  refine ⟨tail', ht'.trans ?_⟩
  simp only [append_assoc]

theorem zero_not_mem_lead : 0 ∉ s.lead := by
  intro hmem
  exact absurd (isspace_of_mem_lead hmem) (by decide)

variable {set : Bytes → Sys → Sys} {f : Option Bytes}

/-- **A redirection**, on the copy and on lists: there is always enough room for the name. -/
theorem redirectAt_follows (h : Placed front tail r m s t u)
    (hpre : ∀ name s, (set name s).pre = s.pre) (hp : ∀ name s, (set name s).post = s.post)
    (he : ∀ name (s : Sys) post, (set name { s with post := post }).erase = set name s.erase) :
    ∃ n, w.redirectAt m t u set = .ok n ∧ Follows n (w.redirectTo s r.rest set) := by
  have hd := h.drop_rest
  rw [redirectAt, getSymAt_eq ⟨tail, hd⟩ h.rest, ok_bind, redirectTo]
  dsimp only
  by_cases hsym : (getSym w.multi r.rest).sym = .word
  · have ha := getSym_append w.multi r.rest
    have hw : r.rest = r.rest.takeWhile isspace ++
        ((getSym w.multi r.rest).text ++ (getSym w.multi r.rest).rest) := by
      rw [ha, takeWhile_append_dropWhile]
    have hz : 0 ∉ (getSym w.multi r.rest).rest := by
      intro hmem
      apply h.rest
      rw [hw]
      exact mem_append_right _ (mem_append_right _ hmem)
    have hl : r.rest ++ 0 :: tail = r.rest.takeWhile isspace ++
        ((getSym w.multi r.rest).text ++ ((getSym w.multi r.rest).rest ++ 0 :: tail)) := by
      rw [← append_assoc (getSym w.multi r.rest).text,
        ← append_assoc (r.rest.takeWhile isspace), ← hw]
    have hd' : m.buf.drop (u + (r.rest.takeWhile isspace).length) =
        (getSym w.multi r.rest).text ++ ((getSym w.multi r.rest).rest ++ 0 :: tail) := by
      rw [← drop_drop, hd, hl, drop_left]
    have hr : (unquote w.unquoteMulti (getSym w.multi r.rest).text).length <
        u + (r.rest.takeWhile isspace).length + (getSym w.multi r.rest).text.length -
          (u + (r.rest.takeWhile isspace).length) + 1 := by
      have hle := length_unquoteLoop_le w.unquoteMulti 0 (getSym w.multi r.rest).text
      rw [← unquote] at hle
      omega
    have hmid :
      r.text ++ r.rest = (r.text ++ (r.rest.takeWhile isspace ++ (getSym w.multi r.rest).text)) ++
        (getSym w.multi r.rest).rest := by
      conv_lhs => rw [hw]
      simp only [append_assoc]
    have hsrc : u + (r.rest.takeWhile isspace).length + (getSym w.multi r.rest).text.length =
        t + (r.text ++ (r.rest.takeWhile isspace ++ (getSym w.multi r.rest).text)).length := by
      rw [h.fin, h.start, length_append, length_append]
      omega
    obtain ⟨tail', ht'⟩ := h.copy hmid hsrc hz
    rw [if_pos hsym, if_pos hsym, unquoteAt_word hsym hd', if_pos hr, ht']
    refine ⟨_, rfl, @Follows.again front tail' _ _ ⟨?_, h.cmdstart, ?_, ?_, ?_, ?_⟩⟩
    · rw [hpre, hp]
      simp only [append_assoc]
    · rw [hpre]
      exact h.pos
    · rw [hpre]
      exact h.pre
    · rw [hp, mem_append, not_or]
      exact ⟨zero_not_mem_lead, hz⟩
    · rw [he, ← h.sys]
  · rw [if_neg hsym, if_neg hsym, h.sys]
    exact ⟨_, rfl, .leave (s.fail "Target of redirect is not a filename." 0)⟩

/-! ### One symbol -/

/-- The names that the next symbol puts into buffers of `L_tmpnam` bytes are short enough: that of a
program, and that of the file behind a pipe. -/
structure Fits (w : World) (s : Sys) : Prop where
  prog : (getSym w.multi s.post).sym = .word → s.needcmd = true →
    (unquote w.unquoteMulti (getSym w.multi s.post).text).length < lTmpnam
  tmp : (getSym w.multi s.post).sym = .pipe → w.redirect = true → s.fOut = none →
    (w.tmpnam s.temps).length < lTmpnam

/-- What is asked before a redirection, on the copy and on lists. -/
theorem guarded_follows (hsys : m.sys = s.erase) {text : String}
    {k : Except Fault NextAt} {next : Next}
    (hk : w.redirect → f = none → ∃ n, k = .ok n ∧ Follows n next) :
    ∃ n, (if !w.redirect then .ok (.shell m.sys)
      else if f.isSome then .ok (.leave (m.sys.fail text 0)) else k) = .ok n ∧
      Follows n (if !w.redirect then .shell s
        else if f.isSome then .leave (s.fail text 0) else next) := by
  rw [hsys]
  by_cases hr : (!w.redirect)
  · rw [if_pos hr, if_pos hr]
    exact ⟨_, rfl, .shell s⟩
  rw [if_neg hr, if_neg hr]
  by_cases hf : f.isSome
  · rw [if_pos hf, if_pos hf]
    exact ⟨_, rfl, .leave (s.fail text 0)⟩
  rw [if_neg hf, if_neg hf]
  exact hk (by simpa using hr) (by simpa using hf)

theorem redirectOutputAt_follows (h : Placed front tail r m s t u)
    (hpre : ∀ name s, (set name s).pre = s.pre) (hp : ∀ name s, (set name s).post = s.post)
    (he : ∀ name (s : Sys) post, (set name { s with post := post }).erase = set name s.erase) :
    ∃ n, w.redirectOutputAt m t u set = .ok n ∧ Follows n (w.redirectOutput s r.rest set) := by
  have hout : m.sys.fOut = s.fOut := by rw [h.sys]; rfl
  rw [redirectOutputAt, redirectOutput, hout]
  exact guarded_follows h.sys fun _ _ => redirectAt_follows h hpre hp he

theorem Placed.unquote_prog (h : Placed front tail (getSym w.multi s.post) m s t u)
    (hsym : (getSym w.multi s.post).sym = .word) :
    unquoteAt w.unquoteMulti .prog lTmpnam m.buf u (m.buf.length + 1) 0 t [] =
      if (unquote w.unquoteMulti (getSym w.multi s.post).text).length < lTmpnam then
        .ok (unquote w.unquoteMulti (getSym w.multi s.post).text)
      else .error .prog := by
  have hd : m.buf.drop t =
      (getSym w.multi s.post).text ++ ((getSym w.multi s.post).rest ++ 0 :: tail) := by
    rw [h.buf, h.start]
    simp only [← drop_drop, drop_left]
  have hu : u = t + (getSym w.multi s.post).text.length := h.fin.trans (by rw [h.start])
  rw [hu, unquoteAt_word hsym hd]

theorem Placed.remove (h : Placed front tail r m s t u) :
    ∃ tail', strcpy Fault.copy 0 (m.buf.length + 1) m.buf m.s u =
      .ok (front ++ (s.pre ++ (r.rest ++ 0 :: tail'))) := by
  have hbuf : m.buf = (front ++ s.pre) ++ ((s.lead ++ r.text) ++ (r.rest ++ 0 :: tail)) := by
    rw [h.buf]
    simp only [append_assoc]
  have hdst : m.s = (front ++ s.pre).length := by rw [h.pos, length_append]
  have hsrc : u = (front ++ s.pre).length + (s.lead ++ r.text).length := by
    rw [h.fin, length_append, length_append, add_assoc]
  obtain ⟨tail', ht'⟩ := strcpy_left (x := Fault.copy) _ _ _ _ hbuf hdst hsrc h.rest
  refine ⟨tail', ht'.trans ?_⟩
  rw [append_assoc]

/-- **One symbol**, on the copy and on lists. -/
theorem symbolAt_follows (h : Holds front tail m s) (hf : Fits w s) :
    ∃ n, w.symbolAt m = .ok n ∧ Follows n (w.symbol s) := by
  obtain ⟨buf, t, u, tail', hw, hp⟩ := weedOut_placed h
  have hn : m.sys.needcmd = s.needcmd := by rw [h.sys]; rfl
  have hin : m.sys.fIn = s.fIn := by rw [h.sys]; rfl
  have hout : m.sys.fOut = s.fOut := by rw [h.sys]; rfl
  rw [symbolAt, getSymAt_eq h.stands h.post, ok_bind]
  dsimp only
  rw [hw, ok_bind, symbol]
  cases hsym : (getSym w.multi s.post).sym with
  | word =>
    rw [hn]
    by_cases hcmd : s.needcmd
    · have hl := hf.prog hsym hcmd
      rw [if_pos hcmd, if_pos hcmd, hp.unquote_prog hsym, if_pos hl, ok_bind,
        if_neg (not_le.mpr hl)]
      by_cases hpa : (unquote w.unquoteMulti (getSym w.multi s.post).text).head? = some 40
      · rw [if_pos hpa, if_pos hpa, h.sys]
        exact ⟨_, rfl, .shell s⟩
      · obtain ⟨tail'', hre⟩ := hp.remove
        rw [if_neg hpa, if_neg hpa, hre, h.sys]
        exact ⟨_, rfl, @Follows.again front tail'' _ _
          ⟨rfl, h.cmdstart, h.pos, h.pre, hp.rest, rfl⟩⟩
    · rw [if_neg hcmd, if_neg hcmd]
      refine ⟨_, rfl, @Follows.again front tail' _ _ ⟨?_, h.cmdstart, ?_, ?_, hp.rest, h.sys⟩⟩
      · refine hp.buf.trans ?_
        simp only [append_assoc]
      · refine hp.fin.trans ?_
        simp only [length_append]
        omega
      · simp only [mem_append, not_or]
        exact ⟨⟨h.pre, zero_not_mem_lead⟩, hp.text⟩
  | redirInput =>
    dsimp only
    rw [hin]
    refine guarded_follows h.sys fun _ _ => ?_
    exact redirectAt_follows hp (fun _ _ => rfl) (fun _ _ => rfl) fun _ _ _ => rfl
  | redirOutput =>
    exact redirectOutputAt_follows hp (fun _ _ => rfl) (fun _ _ => rfl) fun _ _ _ => rfl
  | redirAppend =>
    exact redirectOutputAt_follows hp (fun _ _ => rfl) (fun _ _ => rfl) fun _ _ _ => rfl
  | pipe =>
    dsimp only
    rw [hout]
    refine guarded_follows h.sys fun hr hs => ?_
    have hsh : (w.tmpnam s.erase.temps).length < lTmpnam := hf.tmp hsym hr hs
    rw [h.sys, puts_ok (by rw [length_nil]; omega), ok_bind, nil_append, terminate_ok hsh]
    refine @finishAt_follows w front tail' _ _ _ _ _ _ ?_ fun _ => ?_
    swap
    · exact getSym_text_ne_nil (by rw [hsym]; rintro ⟨⟩) (by rw [hsym]; rintro ⟨⟩)
    exact ⟨hp.buf, h.cmdstart, h.pos, hp.start, hp.fin, h.pre, hp.text, hp.rest, rfl⟩
  | semicolon =>
    refine finishAt_follows hp fun _ => ?_
    exact getSym_text_ne_nil (by rw [hsym]; rintro ⟨⟩) (by rw [hsym]; rintro ⟨⟩)
  | eol => exact finishAt_follows hp fun hne => absurd rfl hne
  | unmatchedQuote =>
    rw [h.sys]
    exact ⟨_, rfl, .leave (s.fail "Unmatched quote character." 0)⟩

/-- **A name that is too long** is stored behind the end of its buffer. -/
theorem symbolAt_overruns (h : Holds front tail m s) (hf : ¬ Fits w s) :
    ∃ x, w.symbolAt m = .error x := by
  obtain ⟨buf, t, u, tail', hw, hpl⟩ := weedOut_placed h
  have hne : m.sys.needcmd = s.needcmd := by rw [h.sys]; rfl
  have hout : m.sys.fOut = s.fOut := by rw [h.sys]; rfl
  have ht : m.sys.temps = s.temps := by rw [h.sys]; rfl
  rw [symbolAt, getSymAt_eq h.stands h.post, ok_bind]
  dsimp only
  rw [hw, ok_bind]
  by_cases hp : (getSym w.multi s.post).sym = .word ∧ s.needcmd ∧
      ¬ (unquote w.unquoteMulti (getSym w.multi s.post).text).length < lTmpnam
  · obtain ⟨hsym, hcmd, hl⟩ := hp
    rw [hsym]
    rw [hne, if_pos hcmd, hpl.unquote_prog hsym, if_neg hl]
    exact ⟨_, rfl⟩
  by_cases htmp : (getSym w.multi s.post).sym = .pipe ∧ w.redirect ∧ s.fOut = none ∧
      ¬ (w.tmpnam s.temps).length < lTmpnam
  · obtain ⟨hsym, hr, hn, hl⟩ := htmp
    rw [hsym]
    dsimp only
    rw [hout, ht, hr, hn, if_neg (by decide), if_neg (by decide), ← bind_assoc,
      puts_terminate_eq (zero_le _), if_neg (by rwa [length_nil, zero_add])]
    exact ⟨_, rfl⟩
  · refine absurd ⟨fun hsym hcmd => ?_, fun hsym hr hn => ?_⟩ hf
    · by_contra hl
      exact hp ⟨hsym, hcmd, hl⟩
    · by_contra hl
      exact htmp ⟨hsym, hr, hn, hl⟩

/-! ### The loops -/

namespace World

/-- The states in which the loops on lists read a symbol. -/
def states (w : World) : ℕ → Sys → List Sys
  | 0, _ => []
  | fuel + 1, s =>
    s :: match w.symbol s with
      | .again s => w.states fuel s
      | .command s => if 0 ≤ s.result then w.states fuel s.beginCommand else []
      | _ => []

/-- An outcome without the parts of the line. -/
def Outcome.erase : Outcome → Outcome
  | .returned s => .returned s.erase
  | .shell s => .shell s.erase
  | .overflow s => .overflow s.erase
  | .exhausted => .exhausted

end World

/-- **The loops**, on the copy and on lists; they store behind the end of a buffer if some name is
too long. -/
theorem runAt_spec (h : Holds front tail m s) :
    ((∀ s' ∈ w.states rounds s, Fits w s') → w.runAt rounds m = .ok (w.run rounds s).erase) ∧
      ((∃ s' ∈ w.states rounds s, ¬ Fits w s') → ∃ x, w.runAt rounds m = .error x) := by
  induction rounds generalizing front tail m s with
  | zero => exact ⟨fun _ => rfl, by simp [states]⟩
  | succ rounds ih =>
    rw [runAt, states, forall_mem_cons, exists_mem_cons_iff]
    by_cases hh : Fits w s
    · obtain ⟨n, hn, hf⟩ := symbolAt_follows h hh
      rw [hn, ok_bind, World.run, and_iff_right hh, or_iff_right (not_not_intro hh)]
      generalize w.symbol s = next at hf ⊢
      cases hf with
      | again h' => exact ih h'
      | @command front' tail' m' s' hsys h' =>
        have hr : m'.sys.result = s'.result := by rw [hsys]; rfl
        dsimp only
        rw [hr]
        by_cases hle : 0 ≤ s'.result
        · rw [if_pos hle, if_pos hle, if_pos hle]
          exact ih h'
        · rw [if_neg hle, if_neg hle, if_neg hle, hsys, ← erase_leave]
          exact ⟨fun _ => rfl, by simp⟩
      | leave s' =>
        dsimp only
        rw [← erase_leave]
        exact ⟨fun _ => rfl, by simp⟩
      | shell s' => exact ⟨fun _ => rfl, by simp⟩
    · obtain ⟨x, hx⟩ := symbolAt_overruns h hh
      rw [hx]
      exact ⟨fun hfi => absurd hfi.1 hh, fun _ => ⟨x, rfl⟩⟩

/-! ### Every round shortens the line -/

theorem length_lead_le (s : Sys) : s.lead.length ≤ (s.post.takeWhile isspace).length := by
  rw [lead]
  split_ifs
  · exact zero_le _
  · rw [length_take]
    exact min_le_right _ _

theorem lead_rest_lt (heol : (getSym multi s.post).sym ≠ .eol)
    (hu : (getSym multi s.post).sym ≠ .unmatchedQuote) :
    s.lead.length + (getSym multi s.post).rest.length < s.post.length := by
  have hlen := getSym_length multi s.post
  have hl := length_lead_le s
  have hpos := length_pos_iff.mpr (getSym_text_ne_nil heol hu)
  omega

/-- What follows a symbol, with less than `n` bytes of the line left. -/
def Next.Leaves (n : ℕ) : Next → Prop
  | .again s => s.post.length < n
  | .command s => s.post.length < n
  | .leave _ => True
  | .shell _ => True
  | .overflow _ => True

variable {rest line : Bytes}

theorem finish_leaves (hr : rest.length < n) : (w.finish token rest s).Leaves n := by
  rw [finish]
  split_ifs
  · trivial
  · trivial
  · exact hr
  · exact hr

theorem redirectTo_leaves
    (hp : ∀ name s, (set name s).post = s.post) (hr : s.lead.length + rest.length < n) :
    (w.redirectTo s rest set).Leaves n := by
  have hlen := getSym_length w.multi rest
  rw [redirectTo]
  split_ifs
  · change (set _ _).post.length < n
    rw [hp, length_append]
    omega
  · trivial

theorem redirectOutput_leaves
    (hp : ∀ name s, (set name s).post = s.post) (hr : s.lead.length + rest.length < n) :
    (w.redirectOutput s rest set).Leaves n := by
  rw [redirectOutput]
  split_ifs
  · trivial
  · trivial
  · exact redirectTo_leaves hp hr

/-- **A symbol shortens the line.** -/
theorem symbol_leaves (w : World) (s : Sys) : (w.symbol s).Leaves s.post.length := by
  have hl := @lead_rest_lt s w.multi
  rw [symbol]
  cases hsym : (getSym w.multi s.post).sym with
  | word =>
    have hlt := hl (by simp [hsym]) (by simp [hsym])
    dsimp only
    split_ifs
    · trivial
    · trivial
    · change (getSym w.multi s.post).rest.length < _
      omega
    · change (getSym w.multi s.post).rest.length < _
      omega
  | redirInput =>
    dsimp only
    split_ifs
    · trivial
    · trivial
    · exact redirectTo_leaves (fun _ _ => rfl) (hl (by simp [hsym]) (by simp [hsym]))
  | redirOutput =>
    exact redirectOutput_leaves (fun _ _ => rfl) (hl (by simp [hsym]) (by simp [hsym]))
  | redirAppend =>
    exact redirectOutput_leaves (fun _ _ => rfl) (hl (by simp [hsym]) (by simp [hsym]))
  | pipe =>
    have hlt := hl (by simp [hsym]) (by simp [hsym])
    dsimp only
    split_ifs
    · trivial
    · trivial
    · exact finish_leaves (by omega)
  | semicolon =>
    have hlt := hl (by simp [hsym]) (by simp [hsym])
    exact finish_leaves (by omega)
  | eol =>
    change (w.finish .eol _ s).Leaves _
    rw [finish]
    split_ifs <;> trivial
  | unmatchedQuote => trivial

/-- **As many rounds as there are bytes**, and one for the end of the line, are enough. -/
theorem run_ne_exhausted (hf : s.post.length < fuel) : w.run fuel s ≠ .exhausted := by
  induction fuel generalizing s with
  | zero => exact absurd hf (not_lt_zero _)
  | succ fuel ih =>
    have hl := symbol_leaves w s
    rw [World.run]
    cases hn : w.symbol s with
    | again s' =>
      rw [hn, Next.Leaves] at hl
      exact ih (by omega)
    | command s' =>
      rw [hn, Next.Leaves] at hl
      dsimp only
      split_ifs
      · exact ih (by rw [beginCommand_post]; omega)
      · rintro ⟨⟩
    | leave s' => rintro ⟨⟩
    | shell s' => rintro ⟨⟩
    | overflow s' => rintro ⟨⟩

/-! ### The function -/

/-- The states in which `system` reads a symbol. -/
def World.visited (w : World) (cmdline : Bytes) : List Sys :=
  let line := cmdline.dropWhile isspace
  if line = [] ∨ w.callShell then [] else w.states (line.length + 1) (start line).beginCommand

theorem holds_start (h0 : 0 ∉ line) :
    Holds [] [] (beginAt ⟨line ++ [0], 0, 0, start []⟩) (start line).beginCommand :=
  holds_begin rfl rfl h0 rfl

/-- **All loads and stores are inside of their buffers**, and the loops end, exactly if every name
of a program, and every name that `tmpnam` makes, is shorter than `L_tmpnam`. -/
theorem systemAt_inBounds_iff (w : World) {cmdline : Bytes} (h0 : 0 ∉ cmdline) :
    (∃ o, w.systemAt cmdline = .ok o ∧ o ≠ .exhausted) ↔ ∀ s ∈ w.visited cmdline, Fits w s := by
  rw [systemAt, visited]
  by_cases hsh : cmdline.dropWhile isspace = [] ∨ w.callShell
  · rw [if_pos hsh, if_pos hsh]
    refine iff_of_true ⟨.shell (start []), rfl, nofun⟩ fun s hs => ?_
    cases hs
  rw [if_neg hsh, if_neg hsh]
  have hh := holds_start fun hmem =>
    h0 ((dropWhile_sublist isspace (l := cmdline)).mem hmem)
  constructor
  · rintro ⟨o, hok, -⟩ s hs
    by_contra hf
    obtain ⟨x, hx⟩ := (runAt_spec hh).2 ⟨s, hs, hf⟩
    rw [hx] at hok
    cases hok
  intro hf
  refine ⟨_, (runAt_spec hh).1 hf, ?_⟩
  have hend := @run_ne_exhausted w (start (cmdline.dropWhile isspace)).beginCommand
    ((cmdline.dropWhile isspace).length + 1) (lt_succ_self _)
  cases hrun : w.run ((cmdline.dropWhile isspace).length + 1)
      (start (cmdline.dropWhile isspace)).beginCommand with
  | exhausted => exact absurd hrun hend
  | returned s => nofun
  | shell s => nofun
  | overflow s => nofun

/-- The line `a;b`. -/
theorem systemAt_inBounds_twoCommands : (0 : UInt8) ∉ [97, 59, 98] ∧
      ((∃ o, failingFirst.systemAt [97, 59, 98] = .ok o ∧ o ≠ .exhausted) ↔
        ∀ s ∈ failingFirst.visited [97, 59, 98], Fits failingFirst s) :=
  ⟨by decide, systemAt_inBounds_iff failingFirst (by decide)⟩

/-- The name of a program of 260 bytes is stored behind the end of its buffer. -/
theorem systemAt_prog_overrun : 0 ∉ replicate 260 (97 : UInt8) ∧
      failingFirst.systemAt (replicate 260 97) = .error .prog := by
  refine ⟨by decide +kernel, ?_⟩
  have hrun : (failingFirst.systemAt (replicate 260 97)).map (fun _ => ()) = .error .prog := by
    decide +kernel
  cases hsys : failingFirst.systemAt (replicate 260 97) with
  | error x =>
    rw [hsys] at hrun
    cases hrun
    rfl
  | ok o =>
    rw [hsys] at hrun
    cases hrun

end Shell
