import Dj64.Exec.Layout
import Dj64.Exec.Bounds
import Dj64.Stdlib.Environ

/-!
# Arguments handed over through memory

`spawn` leaves the arguments of a v2 program in the transfer buffer, and a command tail that says
where.  The child reads them back, unless the buffer is out of space, or the segment in the command
tail is not the one where the buffer ended.
-/

namespace Exec

open ByteMemory Outcomes List Room Exec.Child
open Option hiding or_self map_map

/-! ### What the child reads -/

theorem mapM_eq_map {α β : Type} {l : List α} {f : α → Option β} {g : α → β}
    (h : ∀ a ∈ l, f a = some (g a)) : l.mapM f = some (l.map g) := by
  induction l with
  | nil => rfl
  | cons a l ih =>
    rw [mapM_cons, h a (.head _), ih (forall_mem_cons.mp h).2]
    rfl

theorem mapM_range {α β : Type} {l : List α} {f : ℕ → Option β} {g : α → β}
    (h : ∀ j (hj : j < l.length), f j = some (g l[j])) :
    (range l.length).mapM f = some (l.map g) := by
  have hl : (range l.length).map f = l.map fun a => some (g a) := by
    refine ext_getElem (by simp) fun j h1 h2 => ?_
    rw [getElem_map, getElem_map, getElem_range]
    exact h j (by simpa using h2)
  have hmap : ((range l.length).map f).mapM id = (range l.length).mapM f := mapM_map
  rw [← hmap, hl, mapM_map]
  exact mapM_eq_map fun _ _ => rfl

theorem farStrlen_holds {m : Mem} {arg : Bytes} {a fuel : ℕ} (h : Holds m a (arg ++ [0]))
    (h0 : 0 ∉ arg) (hf : arg.length < fuel) : farStrlen m a fuel = some arg.length := by
  obtain ⟨fuel, rfl⟩ := Nat.exists_eq_succ_of_ne_zero (Nat.ne_of_gt (Nat.zero_lt_of_lt hf))
  induction arg generalizing a fuel with
  | nil =>
    have ha : m (a + 0) = 0 := h 0 (by decide)
    exact if_pos ha
  | cons c arg ih =>
    rw [mem_cons, not_or] at h0
    have ha : m (a + 0) = c := h 0 (by simp)
    have hc : Holds m a ([c] ++ (arg ++ [0])) := h
    have hr : Holds m (a + 1) (arg ++ [0]) := hc.right
    rw [length_cons] at hf
    obtain ⟨fuel, rfl⟩ := Nat.exists_eq_succ_of_ne_zero (n := fuel) (by omega)
    have hne : ¬ m a = 0 := fun h => h0.1 (h.symm.trans ha)
    have hlen : farStrlen m (a + 1) (fuel + 1) = some arg.length := ih hr h0.2 fuel (by omega)
    rw [farStrlen, if_neg hne, hlen]
    rfl

/-- **A string is read back.** -/
theorem farString_holds {m : Mem} {arg : Bytes} {a : ℕ} (h : Holds m a (arg ++ [0])) (h0 : 0 ∉ arg)
    (hlen : arg.length < dosMemory) : farString m a = some arg := by
  rw [farString, farStrlen_holds h h0 hlen, map_some, h.left.peek le_rfl, Nat.sub_self]
  exact congrArg some (append_nil arg)

/-- **The words of a `!proxy` command line.** -/
theorem parseBytes_proxyLine {argc : ℕ} {upper : Bool} {v : ℕ} {unquote : Bool} :
    parseBytes (proxyLine argc (hex4 upper v)) unquote =
      [⟨proxyName.drop 1, false⟩, ⟨hex4 false argc, false⟩, ⟨hex4 upper v, false⟩,
        ⟨hex4 false 0, false⟩] := by
  have hl : proxyLine argc (hex4 upper v) = blank :: (proxyName.drop 1 ++ blank ::
      (hex4 false argc ++ blank :: (hex4 upper v ++ blank :: hex4 false 0))) := by
    have hn : proxyName = blank :: proxyName.drop 1 := rfl
    rw [proxyLine, hn]
    simp
  have hhex : ∀ {upper v}, ∀ c ∈ hex4 upper v, Plain c := fun c hc => (mem_hex4 hc).1
  have hn : ∀ c ∈ proxyName.drop 1, Plain c := by decide +kernel
  have hne : ∀ {upper v}, hex4 upper v ≠ [] := fun h => cons_ne_nil _ _ h
  rw [hl, parseBytes_space rfl, parseBytes_word (by decide) hn, parseBytes_word hne hhex,
    parseBytes_word hne hhex, parseBytes_last hne hhex]

variable {c : Child} {argc v u depth : ℕ} {upper : Bool} {args : List Arg}

theorem Child.scan_proxyLine (hta : dosTail (proxyLine argc (hex4 upper v)) <+: c.doscmd) :
    c.scan = some (parseBytes (proxyLine argc (hex4 upper v)) !c.keepQuotes) := by
  obtain ⟨t, ht⟩ := hta
  have hlen : (proxyLine argc (hex4 upper v)).length = 22 := length_proxyLine argc rfl
  have hcmd : c.doscmd = 22 :: (proxyLine argc (hex4 upper v) ++ ([13] ++ t)) := by
    rw [← ht, dosTail, hlen]
    simp
  rw [scan, hcmd, headD_cons, drop_one, tail_cons]
  have hl : ((22 : UInt8) &&& 0x7f).toNat = (proxyLine argc (hex4 upper v)).length := by
    rw [hlen]
    rfl
  split
  · exact absurd ‹(22 : UInt8) = 127› (by decide)
  · rw [hl, take_left]

section

variable (hproxy : c.getenv proxyName = none) {args : List Arg}
include hproxy

theorem Child.gather_proxyLine
    (ht : dosTail (proxyLine argc (hex4 upper v)) <+: c.doscmd) (ha : argc < 0x10000)
    (hv : v < 0x10000) : c.gather = (c.proxied argc v 0).map fun args => (args, false) := by
  rw [gather, scan_proxyLine ht, hproxy, parseBytes_proxyLine]
  dsimp only [bind_eq_bind, bind_some]
  rw [if_pos rfl, atohex_hex4 false ha, atohex_hex4 upper hv, atohex_hex4 false (by decide)]
  cases c.proxied argc v 0 <;> rfl

theorem Child.proxied_table {s : State} {argv : List Bytes}
    (hmem : c.mem = s.mem) (hv : v * 16 = s.tbufBeg) (ht : Table s argv u)
    (hu : u ≤ 0x10000) (h0 : ∀ a ∈ argv, 0 ∉ a) : c.proxied argv.length v 0 = some
      (argv.map fun a => ⟨a, false⟩) := by
  refine mapM_range fun j hj => ?_
  obtain ⟨o, -, ho, hl, hh⟩ := ht j hj
  have hs : load c.mem (v * 16 + 0 + 2 * j) 2 = o := by
    rw [hmem, hv, Nat.add_assoc]
    exact hl
  have harg : farString c.mem (v * 16 + o) = some argv[j] := by
    rw [hmem, hv]
    refine farString_holds hh (h0 _ (getElem_mem hj)) ?_
    unfold dosMemory
    omega
  rw [hs, harg, hproxy]
  rfl

theorem Child.proxied_zero (h0 : c.mem (v * 16) = 0)
    (h1 : c.mem (v * 16 + 1) = 0) (h : c.proxied (argc + 1) v 0 = some args) :
    ∃ rest, args = ⟨[], false⟩ :: rest := by
  have hs : load c.mem (v * 16 + 0 + 2 * 0) 2 = 0 := by
    rw [Nat.mul_zero, Nat.add_zero, load, load, h0, h1]
    rfl
  have harg : farString c.mem (v * 16 + 0) = some [] := by
    rw [Nat.add_zero, farString, dosMemory, farStrlen, if_pos h0]
    rfl
  rw [proxied, range_succ_eq_map, mapM_cons, hs, harg, hproxy] at h
  obtain ⟨first, hf, h⟩ := bind_eq_some_iff.mp h
  obtain ⟨rest, -, h⟩ := bind_eq_some_iff.mp h
  obtain rfl : ⟨[], false⟩ = first := some.inj hf
  exact ⟨rest, (some.inj h).symm⟩

end

theorem fillArgs_plain : fillArgs (args.map .plain) = args.map Arg.arg := by
  induction args with
  | nil => rfl
  | cons a args ih => rw [map_cons, fillArgs, ih, fillArg, map_cons,
      singleton_append]

theorem expandResponseFiles_plain (files : Bytes → Option Bytes) (unquote : Bool) (depth : ℕ)
    (h : ∀ a ∈ args, a.arg.head? ≠ some 64) :
    expandResponseFiles files unquote depth args = some (args.map .plain) := by
  have hone : ∀ expand, ∀ a ∈ args, expandResponseFile files expand a = some (.plain a) :=
    fun _ a ha => if_neg fun hat => h a ha hat.2
  cases depth <;> exact mapM_eq_map (hone _)

/-- The arguments of the parent, as `__crt0_setup_arguments` takes them from memory. -/
def plainArgs (args : List Bytes) : List Arg := args.map fun a => ⟨a, false⟩

variable {args env : List Bytes}

theorem mem_plainArgs (h : ∀ a ∈ args, a.head? ≠ some 64) :
    ∀ a ∈ plainArgs args, a.arg.head? ≠ some 64 := by
  intro a ha
  obtain ⟨b, hb, rfl⟩ := mem_map.mp ha
  exact h b hb

theorem fillArgs_plainArgs (args : List Bytes) : fillArgs ((plainArgs args).map .plain) = args := by
  rw [fillArgs_plain, plainArgs, map_map]
  exact map_id args

section

variable (hproxy : c.getenv proxyName = none)
include hproxy

theorem Child.setupArguments_of_gather {args : List Arg}
    (hg : c.gather = some (args, false)) (depth : ℕ) :
    c.setupArguments depth = if c.disallowResponseFiles then some (args.map Arg.arg)
      else (expandResponseFiles c.files (!c.keepQuotes) depth args).map fillArgs := by
  rw [setupArguments, hg]
  simp only [bind_eq_bind, bind_some, hproxy, isSome_none, Bool.false_eq_true,
    or_self, if_false]
  split_ifs
  · exact congrArg some fillArgs_plain
  · cases expandResponseFiles c.files (!c.keepQuotes) depth args <;> rfl

theorem Child.setupArguments_plain
    (hg : c.gather = some (plainArgs args, false)) (hat : ∀ a ∈ args, a.head? ≠ some 64)
    : c.setupArguments depth = some args := by
  have ha : (plainArgs args).map Arg.arg = args := by
    rw [← fillArgs_plain]
    exact fillArgs_plainArgs args
  rw [setupArguments_of_gather hproxy hg, expandResponseFiles_plain _ _ _ (mem_plainArgs hat),
    map_some, fillArgs_plainArgs, ha, ite_self]

/-- A first argument that names an empty response file is lost. -/
theorem Child.setupArguments_response
    (hf : c.disallowResponseFiles = false) (he : ∀ file, c.files file = some [])
    {first : Bytes} (hg : c.gather = some (plainArgs (first :: args), false))
    (hfi : first.head? = some 64) (depth : ℕ) (hat : ∀ a ∈ args, a.head? ≠ some 64) :
    c.setupArguments depth ≠ some (first :: args) := by
  intro h
  rw [setupArguments_of_gather hproxy hg, hf] at h
  have hn : ∀ expand, expandResponseFile c.files expand ⟨first, false⟩ =
      (expand []).map Node.file := fun expand => by
    rw [expandResponseFile, if_pos ⟨rfl, hfi⟩, he]
  cases depth with
  | zero =>
    rw [expandResponseFiles, plainArgs, map_cons, mapM_cons, hn] at h
    cases h
  | succ depth =>
    have hnil :
      expandResponseFiles c.files (!c.keepQuotes) depth (responseArgs (!c.keepQuotes) []) =
        some [] := expandResponseFiles_plain _ _ _ fun _ ha => absurd ha not_mem_nil
    have hr := expandResponseFiles_plain c.files (!c.keepQuotes) (depth + 1) (mem_plainArgs hat)
    rw [expandResponseFiles] at h hr
    have hl : plainArgs (first :: args) = ⟨first, false⟩ :: plainArgs args := rfl
    rw [hl, mapM_cons, hn, hnil, hr] at h
    -- the arguments behind the first one are as many as before
    have hlen := congrArg length (some.inj h)
    have hfil := fillArgs_plainArgs args
    simp [fillArgs, fillArg, hfil] at hlen

end

/-! ### The blocks of a run -/

/-- The blocks are in conventional memory and apart from each other. -/
def FreshBlocks (bs : List Block) : Prop :=
  (∀ b ∈ bs, b.address + b.len ≤ 0x100000) ∧
    bs.Pairwise fun b b' => b.address + b.len ≤ b'.address ∨ b'.address + b'.len ≤ b.address

variable {dos : Dos} {s s' : State} {r r' : Room} {n n' tbSize k : ℕ}

theorem FreshBlocks.of_suffix {bs bs' : List Block} (h : FreshBlocks bs) (hs : bs' <:+ bs) :
    FreshBlocks bs' :=
  ⟨fun b hb => h.1 b (hs.subset hb), h.2.sublist hs.sublist⟩

theorem Placed.conventional (h : Placed dos s r n) (hdos : dos.tb + dos.tbSize ≤ 0x100000)
    (hf : FreshBlocks s.blocks) : s.tbufBeg + s.tbufLen ≤ 0x100000 := by
  by_cases hm : r.moves = 0
  · obtain ⟨hbeg, hlen⟩ := h.first hm
    rw [hbeg, hlen]
    exact hdos
  · obtain ⟨bs, hbs⟩ := h.blocks_eq hm
    exact hf.1 ⟨s.tbufBeg, s.tbufLen, s.tbufSelector⟩ (by rw [hbs]; exact .head _)

theorem Placed.beg_eq (h : Placed dos s r n) (h' : Placed dos s' r' n')
    (hs : s.blocks <:+ s'.blocks) (hm : r.moves = r'.moves) : s'.tbufBeg = s.tbufBeg := by
  by_cases h0 : r.moves = 0
  · rw [(h.first h0).1, (h'.first (hm ▸ h0)).1]
  · have heq : s.blocks = s'.blocks := hs.eq_of_length (by rw [h.count, h'.count, hm])
    have hcur := h.current h0
    rw [heq, h'.current (hm ▸ h0)] at hcur
    exact (Block.mk.inj (some.inj hcur)).1

theorem Placed.beg_apart (h : Placed dos s r n) (h' : Placed dos s' r' n')
    (hs : s.blocks <:+ s'.blocks) (hm : r.moves ≠ r'.moves) (hf : FreshBlocks s'.blocks) :
    s'.tbufBeg + s'.tbufLen ≤ s.tbufBeg ∨ s.tbufBeg + s.tbufLen ≤ s'.tbufBeg := by
  have hle : r.moves ≤ r'.moves := by
    rw [← h.count, ← h'.count]
    exact hs.length_le
  by_cases h0 : r.moves = 0
  · obtain ⟨hbeg, hlen⟩ := h.first h0
    rw [hbeg, hlen]
    exact h'.apart (by omega)
  obtain ⟨bs, hbs⟩ := h.blocks_eq h0
  obtain ⟨bs', hbs'⟩ := h'.blocks_eq (by omega)
  rw [hbs, hbs'] at hs
  -- the old block is behind the new one in the list
  rcases suffix_cons_iff.mp hs with heq | hs
  · have hc := congrArg length heq
    rw [← hbs, ← hbs', h.count, h'.count] at hc
    exact absurd hc hm
  · rw [hbs'] at hf
    exact (pairwise_cons.mp hf.2).1 _ (hs.subset (.head _))

/-! ### A program is started -/

/-- A call of `spawn`, outside of `system`, for a v2 program with a stub.  `real` is the file behind
`program`, and `progname` its DOS name. -/
structure Spawn where
  dos : Dos
  sys : System
  disk : Disk
  mem : Mem
  program : Bytes
  argv0 : Bytes
  args : List Bytes
  envp : List Bytes
  real : Bytes
  progname : Bytes
  provides : dos.Provides
  tbSize_pos : 0 < dos.tbSize
  tb_aligned : dos.tb % 16 = 0
  tb_le : dos.tb + dos.tbSize ≤ 0x100000
  not_inSystem : sys.inSystem = false
  real_eq : disk.solveSymlinks program = some real
  objectFormat_eq : (disk.checkV2Prog real).objectFormat = .coff
  execFormat_eq : (disk.checkV2Prog real).execFormat = .stubCoff
  one_lt_major : 1 < (disk.checkV2Prog real).major
  progname_eq : (if dos.useLfn then dos.truename (dos.putPath real)
    else some (dos.putPath real)) = some progname
  progname_le : progname.length + 1 ≤ dos.tbSize
  program_ne_nil : program ≠ []
  nul_free : ∀ a ∈ program :: args, 0 ∉ a
  args_plain : ∀ a ∈ args, a.head? ≠ some 64
  envp_plain : ∀ ep ∈ envp, isProxyVar ep = false
  image_le : ((program :: args).length + 1) * 2 + total (program :: args) ≤ 0x10000

namespace Spawn

def argv (sp : Spawn) : List Bytes := sp.program :: sp.args

def run (sp : Spawn) : EStateM.Result Stop State Launch :=
  go32Exec sp.dos sp.sys sp.disk sp.program (sp.argv0 :: sp.args) sp.envp (.start sp.dos sp.mem)

/-- The rooms after the image of the arguments and at the end, if there is space. -/
def rooms (sp : Spawn) : Option (Room × Room) :=
  (imageRoom ⟨sp.dos.tbSize, 0, 0⟩ sp.argv).bind fun r₁ =>
    (tailRoom r₁ sp.real sp.progname sp.envp).map fun r₂ => (r₁, r₂)

/-- How a run ended: `s` is the state after the image of the arguments. -/
structure Ran (sp : Spawn) (launch : Launch) (s' : State) (s : State) (r₁ r₂ : Room) : Prop where
  rooms_eq : sp.rooms = some (r₁, r₂)
  image : Placed sp.dos s r₁ 0
  placed : Placed sp.dos s' r₂ 0
  frame : Frame s s' r₁.used
  used : r₁.used = (sp.argv.length + 1) * 2 + total sp.argv
  table : Table s' sp.argv r₁.used
  env : launch.env = sp.envp
  tail : ∃ argOff, Launched launch s' r₂.used sp.argv.length
    (if s.tbufSelector = s'.tbufSelector then hex4 false (s.tbufBeg / 16)
      else hex4 true (s'.tbufBeg / 16)) argOff

end Spawn

theorem imageRoom_used {argv : List Bytes} (h : imageRoom r argv = some r') :
    r'.used = r.used + (argv.length + 1) * 2 + total argv := by
  obtain ⟨r₁, h1, h2⟩ := bind_eq_some_iff.mp h
  rw [strings_used h2, ← reserve_used h1]
  rfl

theorem tailRoom_used_le {program progname : Bytes}
    (h : tailRoom r program progname env = some r') : r.used ≤ r'.used := by
  obtain ⟨a, ha, h⟩ := bind_eq_some_iff.mp h
  obtain ⟨b, hb, h⟩ := bind_eq_some_iff.mp h
  obtain ⟨c, hc, h⟩ := bind_eq_some_iff.mp h
  obtain ⟨d, hd, h⟩ := bind_eq_some_iff.mp h
  have hua := Room.reserve_used ha
  have hub := Room.reserve_used hb
  have huc := Room.strings_used hc
  have hud := Room.reserve_used hd
  have hh : b.used ≤ (headRoom b progname 22).used := by
    show _ ≤ (b.used + (progname.length + 1 + (22 + 3) + sizeofExecp + 16 + 16) + 15) / 16 * 16
    omega
  rw [← some.inj h, Room.take]
  dsimp only
  omega

theorem Spawn.run_lays (sp : Spawn) :
    Ends (fun _ _ => sp.rooms = none) (fun launch s' => ∃ s r₁ r₂, sp.Ran launch s' s r₁ r₂)
      sp.run := by
  have hn : (sp.disk.checkV2Prog sp.real).stubinfo = none := by
    cases hin : (sp.disk.checkV2Prog sp.real).stubinfo with
    | none => rfl
    | some info =>
      have hm := (sp.disk.checkV2Prog sp.real).major_of_stubinfo (by rw [hin]; rfl)
      have hlt := sp.one_lt_major
      omega
  have hrun : sp.run = (putImage sp.dos blank none sp.argv >>= fun proxy =>
      directExecTail sp.dos sp.real proxy sp.envp none sp.dos.useLfn none)
        (.start sp.dos sp.mem) := by
    simp [run, go32Exec, sp.real_eq, sp.objectFormat_eq, sp.execFormat_eq, loaderPath,
      sp.one_lt_major, proxyExec, sp.not_inSystem, hn, argv]
  have hs := placed_start sp.tbSize_pos sp.tb_aligned sp.mem
  have him : (sp.argv.length + 1) * 2 + total sp.argv ≤ 0x10000 := sp.image_le
  rw [hrun]
  refine Ends.bind ((putImage_lays sp.provides hs rfl blank him).imp
    fun _ _ hr => by rw [rooms, hr, bind_none]) fun proxy s h => ?_
  obtain ⟨r₁, hr1, h1, hb, rfl, ht⟩ := h
  refine ((directExecTail_lays sp.provides h1 sp.real sp.progname_eq sp.progname_le sp.envp_plain
    sp.argv.length (s.tbufBeg / 16)).imp fun _ _ hr => ?_).mono fun launch s' h' => ?_
  · rw [rooms, hr1, bind_some, hr, map_none]
  · obtain ⟨henv, r₂, hr2, h2, hf, hta⟩ := h'
    have hu := imageRoom_used hr1
    rw [Nat.zero_add] at hu
    refine ⟨s, r₁, r₂, ?_, h1, h2, hf, hu, hf.table ht (by omega), henv, hta⟩
    rw [rooms, hr1, bind_some, hr2, map_some]

/-! ### The child -/

/-- What DOS gives to the program: the command tail, the environment, and memory, where only the
buffer is sure to be as it was. -/
structure Child.Started (c : Child) (launch : Launch) (s : State) : Prop where
  doscmd : c.doscmd = peek s.mem (launch.parm.argseg * 16 + launch.parm.argoff) 128
  getenv : c.getenv = Environ.getenv launch.env
  mem : ∀ i < s.tbufLen, c.mem (s.tbufBeg + i) = s.mem (s.tbufBeg + i)

namespace Spawn

variable {sp : Spawn} {launch : Launch} {r₁ r₂ : Room}

/-- The program is started, and finds the arguments of the parent. -/
def HandsOver (sp : Spawn) : Prop :=
  ∃ launch s', sp.run = .ok launch s' ∧
    ∀ c : Child, c.Started launch s' → ∃ depth, c.setupArguments depth = some sp.argv

/-- There is space, the buffer did not move behind the command line's back, and the program path
does not look like a response file. -/
def Fits (sp : Spawn) : Prop :=
  ∃ r₁ r₂, sp.rooms = some (r₁, r₂) ∧
    (r₁.moves = r₂.moves ∨ sp.dos.selectorAt r₁ ≠ sp.dos.selectorAt r₂) ∧
    sp.program.head? ≠ some 64

section

variable (h : sp.Ran launch s' s r₁ r₂)
include h

theorem Ran.getenv (hc : c.Started launch s') : c.getenv proxyName = none := by
  have hn : (61 : UInt8) ∉ proxyName := by decide
  rw [hc.getenv, h.env, Environ.getenv, findSome?_eq_none_iff]
  intro ep hep
  rw [eq_none_iff_forall_not_mem]
  intro value hv
  have hep' := sp.envp_plain ep hep
  rw [(Environ.valueOf_eq_some_iff hn).mp hv, isProxyVar, ← Bool.not_eq_true,
    isPrefixOf_iff_prefix] at hep'
  exact hep' ⟨value, by rw [append_assoc]; rfl⟩

/-- The segment in the command line. -/
theorem Ran.gather (hf : FreshBlocks s'.blocks) (hc : c.Started launch s') :
    c.gather = (c.proxied sp.argv.length
      ((if s.tbufSelector = s'.tbufSelector then s.tbufBeg else s'.tbufBeg) / 16) 0).map
        fun args => (args, false) := by
  obtain ⟨argOff, hl⟩ := h.tail
  have ha : sp.argv.length < 0x10000 := by
    have him : (sp.argv.length + 1) * 2 + total sp.argv ≤ 0x10000 := sp.image_le
    omega
  have hs := h.image.conventional sp.tb_le (hf.of_suffix h.frame.blocks)
  have hs' := h.placed.conventional sp.tb_le hf
  have hpos := h.image.reserved.pos
  have hp' := h.placed.reserved.pos
  have hin := h.placed.reserved.room
  have had : launch.parm.argseg * 16 + launch.parm.argoff = s'.tbufBeg + argOff := by
    have := hl.within
    rw [hl.argseg, hl.argoff]
    omega
  have ht := hl.tail
  rw [← had] at ht
  have hta : ∀ {bs : Bytes}, bs.length ≤ 128 →
      Holds s'.mem (launch.parm.argseg * 16 + launch.parm.argoff) bs → bs <+: c.doscmd := by
    intro bs hbs hb
    rw [hc.doscmd, hb.peek hbs]
    exact prefix_append ..
  have hlen : ∀ upper v, (dosTail (proxyLine sp.argv.length (hex4 upper v))).length ≤ 128 :=
    fun _ _ => Nat.le_of_ble_eq_true rfl
  split_ifs at ht ⊢
  · exact gather_proxyLine (h.getenv hc) (hta (hlen _ _) ht) ha (by omega)
  · exact gather_proxyLine (h.getenv hc) (hta (hlen _ _) ht) ha (by omega)

theorem Ran.proxied (hle : r₁.used ≤ s'.tbufLen)
    (hc : c.Started launch s') (hv : v * 16 = s'.tbufBeg) :
    c.proxied sp.argv.length v 0 = some (plainArgs sp.argv) := by
  have him : (sp.argv.length + 1) * 2 + total sp.argv ≤ 0x10000 := sp.image_le
  have hu := h.used
  have hf : Frame s' { s' with mem := c.mem } r₁.used :=
    ⟨suffix_rfl, fun i hi => hc.mem i (by omega)⟩
  have ht := hf.table h.table (by omega)
  exact proxied_table (s := { s' with mem := c.mem }) (h.getenv hc) rfl hv ht (by omega) sp.nul_free

theorem Ran.segment (hm : r₁.moves = r₂.moves ∨ sp.dos.selectorAt r₁ ≠ sp.dos.selectorAt r₂) :
    (if s.tbufSelector = s'.tbufSelector then s.tbufBeg else s'.tbufBeg) / 16 * 16 =
      s'.tbufBeg := by
  have hal := h.placed.aligned
  rcases hm with hm | hsel
  · have hbeg := h.image.beg_eq h.placed h.frame.blocks hm
    rw [hbeg, ite_self]
    omega
  · rw [if_neg (by rw [h.image.selector, h.placed.selector]; exact hsel)]
    omega

theorem Ran.used_le : r₁.used ≤ s'.tbufLen := by
  obtain ⟨r, -, hr⟩ := bind_eq_some_iff.mp h.rooms_eq
  obtain ⟨r', hr', heq⟩ := map_eq_some_iff.mp hr
  obtain ⟨rfl, rfl⟩ := Prod.mk.inj heq
  have hro := h.placed.reserved.room
  have hle := tailRoom_used_le hr'
  omega

/-- **The child has the arguments**, for every memory around the buffer. -/
theorem Ran.setupArguments (hf : FreshBlocks s'.blocks)
    (hm : r₁.moves = r₂.moves ∨ sp.dos.selectorAt r₁ ≠ sp.dos.selectorAt r₂)
    (hp : sp.program.head? ≠ some 64) (hc : c.Started launch s') (depth : ℕ) :
    c.setupArguments depth = some sp.argv := by
  have hg := h.gather hf hc
  rw [h.proxied h.used_le hc (h.segment hm)] at hg
  refine setupArguments_plain (h.getenv hc) hg (fun a ha => ?_)
  rcases mem_cons.mp ha with rfl | ha
  · exact hp
  · exact sp.args_plain a ha

/-- A child of a launch, with memory, settings and files of its own. -/
def child (launch : Launch) (s : State) (mem : Mem) (disallowResponseFiles : Bool)
    (files : Bytes → Option Bytes) : Child where
  doscmd := peek s.mem (launch.parm.argseg * 16 + launch.parm.argoff) 128
  mem := mem
  getenv := Environ.getenv launch.env
  keepQuotes := false
  disallowResponseFiles := disallowResponseFiles
  argv0 := []
  files := files
  glob := fun _ => none

/-- **A stale segment**: the buffer has moved on, and the memory where it was may be zero. -/
theorem Ran.fails_of_stale (hf : FreshBlocks s'.blocks)
    (hm : r₁.moves ≠ r₂.moves) (hsel : sp.dos.selectorAt r₁ = sp.dos.selectorAt r₂) :
    ∃ c : Child, c.Started launch s' ∧ ∀ depth, c.setupArguments depth ≠ some sp.argv := by
  set c := child launch s' (fun x => if s'.tbufBeg ≤ x ∧ x < s'.tbufBeg + s'.tbufLen then s'.mem x
    else 0) true (fun _ => none) with hcd
  have hc : c.Started launch s' := ⟨rfl, rfl, fun i hi => if_pos (by omega)⟩
  refine ⟨c, hc, fun depth hs => ?_⟩
  have hg := h.gather hf hc
  rw [if_pos (by rw [h.image.selector, h.placed.selector, hsel])] at hg
  have ha := h.image.beg_apart h.placed h.frame.blocks hm hf
  have hal := h.image.aligned
  have hro := h.image.reserved.room
  have hu := h.used
  have hz : c.mem (s.tbufBeg / 16 * 16) = 0 := if_neg (by omega)
  have hz' : c.mem (s.tbufBeg / 16 * 16 + 1) = 0 := if_neg (by omega)
  cases hp : c.proxied sp.argv.length (s.tbufBeg / 16) 0 with
  | none =>
    rw [hp] at hg
    rw [Child.setupArguments, hg] at hs
    cases hs
  | some args =>
    rw [hp] at hg
    obtain ⟨rest, hr⟩ := proxied_zero (h.getenv hc) hz hz' hp
    rw [hr] at hg
    rw [setupArguments_of_gather (h.getenv hc) hg] at hs
    -- the first argument is empty, and the program path is not
    have hfi := (cons.inj (some.inj hs)).1
    exact sp.program_ne_nil hfi.symm

/-- **A program path that looks like a response file.** -/
theorem Ran.fails_of_response (hf : FreshBlocks s'.blocks)
    (hm : r₁.moves = r₂.moves ∨ sp.dos.selectorAt r₁ ≠ sp.dos.selectorAt r₂)
    (hp : sp.program.head? = some 64) :
    ∃ c : Child, c.Started launch s' ∧ ∀ depth, c.setupArguments depth ≠ some sp.argv := by
  set c := child launch s' s'.mem false (fun _ => some []) with hcd
  have hc : c.Started launch s' := ⟨rfl, rfl, fun i hi => rfl⟩
  refine ⟨c, hc, fun depth => ?_⟩
  have hg := h.gather hf hc
  rw [h.proxied h.used_le hc (h.segment hm)] at hg
  exact setupArguments_response (h.getenv hc) rfl (fun _ => rfl) hg hp depth sp.args_plain

end

theorem not_handsOver_of_rooms (h : sp.rooms = none) : ¬ sp.HandsOver := by
  rintro ⟨launch, s', hrun, -⟩
  have hl := sp.run_lays
  rw [hrun] at hl
  obtain ⟨s, r₁, r₂, hran⟩ := hl
  rw [hran.rooms_eq] at h
  cases h

theorem not_handsOver_of_stale (hf : FreshBlocks (final sp.run).blocks)
    (hr : sp.rooms = some (r₁, r₂)) (hm : r₁.moves ≠ r₂.moves)
    (hsel : sp.dos.selectorAt r₁ = sp.dos.selectorAt r₂) : ¬ sp.HandsOver := by
  rintro ⟨launch, s', hrun, hch⟩
  have hl := sp.run_lays
  rw [hrun] at hl hf
  obtain ⟨s, r1', r2', hran⟩ := hl
  have heq := hran.rooms_eq
  rw [hr] at heq
  obtain ⟨rfl, rfl⟩ := Prod.mk.inj (some.inj heq)
  obtain ⟨c, hc, hfa⟩ := hran.fails_of_stale hf hm hsel
  obtain ⟨depth, hd⟩ := hch c hc
  exact hfa depth hd

/-- **When the arguments are handed over**, for DOS memory blocks that are fresh. -/
theorem handsOver_iff (sp : Spawn) (hfresh : FreshBlocks (final sp.run).blocks) :
    sp.HandsOver ↔ sp.Fits := by
  have hl := sp.run_lays
  refine ⟨fun ho => ?_, fun hfi => ?_⟩
  · obtain ⟨launch, s', hrun, hch⟩ := id ho
    have hf' := hfresh
    rw [hrun] at hl hf'
    obtain ⟨s, r₁, r₂, hran⟩ := hl
    have hm : r₁.moves = r₂.moves ∨ sp.dos.selectorAt r₁ ≠ sp.dos.selectorAt r₂ := by
      by_contra hs
      rw [not_or, not_not] at hs
      exact not_handsOver_of_stale hfresh hran.rooms_eq hs.1 hs.2 ho
    refine ⟨r₁, r₂, hran.rooms_eq, hm, fun hp => ?_⟩
    obtain ⟨c, hc, hf⟩ := hran.fails_of_response hf' hm hp
    obtain ⟨depth, hd⟩ := hch c hc
    exact hf depth hd
  obtain ⟨r₁, r₂, hr, hm, hp⟩ := hfi
  cases hrun : sp.run with
  | error e s' =>
    rw [hrun] at hl
    exact absurd (hr.symm.trans hl) (some_ne_none _)
  | ok launch s' =>
    rw [hrun] at hl hfresh
    obtain ⟨s, r1', r2', hran⟩ := hl
    have heq := hran.rooms_eq
    rw [hr] at heq
    obtain ⟨rfl, rfl⟩ := Prod.mk.inj (some.inj heq)
    exact ⟨launch, s', hrun, fun c hc =>
      ⟨0, hran.setupArguments hfresh hm hp hc 0⟩⟩

/-- The space of all that is laid out. -/
def layoutSize (sp : Spawn) : ℕ :=
  ((sp.argv.length + 1) * 2 + total sp.argv +
    (sp.progname.length + 1 + (22 + 3) + sizeofExecp + 16 + 16) + 15) / 16 * 16 +
    total sp.envp + (3 + (sp.progname.length + 1))

end Spawn

/-! ### Examples of calls -/

/-- Blocks of 64 KB one after the other, with the given selectors. -/
def freshDos (tbSize : ℕ) (selector : ℕ → ℕ) : Dos :=
  { conventional with
    tbSize := tbSize
    allocate := fun i _ => .block (0x2000 + 0x1000 * i) (selector i) }

theorem freshDos_provides (h : tbSize ≤ 0x10000) {selector : ℕ → ℕ} :
    (freshDos tbSize selector).Provides := by
  refine fun i paragraphs => ⟨_, _, rfl, .inr ?_⟩
  show 0x10000 + tbSize ≤ (0x2000 + 0x1000 * i) * 16
  omega

/-- Every program is a v2 program with a stub. -/
def v2Disk : Disk where
  solveSymlinks := some
  checkV2Prog _ := ⟨.stubCoff, .coff, 2, none, fun h => nomatch h⟩
  findOnPath _ _ := none

/-- What is asked of the arguments of a call. -/
def Sendable (tbSize : ℕ) (program : Bytes) (args envp : List Bytes) : Prop :=
  (program ≠ [] ∧ program.length + 1 ≤ tbSize) ∧ (∀ a ∈ program :: args, 0 ∉ a) ∧
    (∀ a ∈ args, a.head? ≠ some 64) ∧ (∀ ep ∈ envp, isProxyVar ep = false) ∧
    ((program :: args).length + 1) * 2 + total (program :: args) ≤ 0x10000

/-- A call that starts a v2 program. -/
def v2Spawn (tbSize : ℕ) (selector : ℕ → ℕ) (program : Bytes) (args envp : List Bytes)
    (htb : 0 < tbSize ∧ tbSize ≤ 0x10000) (hsend : Sendable tbSize program args envp) : Spawn where
  dos := freshDos tbSize selector
  sys := plainDos
  disk := v2Disk
  mem := fun _ => 0
  program := program
  argv0 := program
  args := args
  envp := envp
  real := program
  progname := program
  provides := freshDos_provides htb.2
  tbSize_pos := htb.1
  tb_aligned := by
    show 0x10000 % 16 = 0
    rfl
  tb_le := by
    show 0x10000 + tbSize ≤ 0x100000
    omega
  not_inSystem := rfl
  real_eq := rfl
  objectFormat_eq := rfl
  execFormat_eq := rfl
  one_lt_major := Nat.lt_succ_self 1
  progname_eq := rfl
  progname_le := hsend.1.2
  program_ne_nil := hsend.1.1
  nul_free := hsend.2.1
  args_plain := hsend.2.2.1
  envp_plain := hsend.2.2.2.1
  image_le := hsend.2.2.2.2

/-- A call with one short argument. -/
def shortArgument : Spawn :=
  v2Spawn 2048 (fun i => 8 * i + 7) (text "a.exe") [text "b"] [text "A=b"] (by decide)
    (by unfold Sendable; decide)

theorem handsOver_iff_shortArgument : shortArgument.HandsOver ↔ shortArgument.Fits :=
  shortArgument.handsOver_iff (by
    have hbl : (final shortArgument.run).blocks = [] := by decide +kernel
    rw [hbl]
    exact ⟨fun b hb => absurd hb not_mem_nil, List.Pairwise.nil⟩)

def padded (start : String) (k : ℕ) : Bytes := text start ++ replicate k 98

theorem length_padded (start : String) (k : ℕ) :
    (padded start k).length = (text start).length + k := by
  rw [padded, length_append, length_replicate]

theorem zero_notMem_padded {start : String} (h : 0 ∉ text start) : 0 ∉ padded start k := by
  rw [padded, mem_append, mem_replicate]
  rintro (hmem | ⟨-, hz⟩)
  · exact h hmem
  · cases hz

theorem sendable_padded (htb : 6 ≤ tbSize) (hk : k + 14 ≤ 0x10000) (sizes : List ℕ) :
    Sendable tbSize (text "a.exe") [padded "b" k] (sizes.map (padded "A=")) := by
  refine ⟨⟨by decide, htb⟩, ?_, ?_, ?_, ?_⟩
  · rintro a (_ | ⟨_, _ | ⟨_, h⟩⟩)
    · decide
    · exact zero_notMem_padded (by decide)
    · cases h
  · rintro a (_ | ⟨_, h⟩)
    · exact fun h => absurd (some.inj h) (by decide)
    · cases h
  · intro ep hep
    obtain ⟨size, -, rfl⟩ := mem_map.mp hep
    rfl
  · show (1 + 1 + 1) * 2 + (5 + 1 + ((padded "b" k).length + 1 + 0)) ≤ 0x10000
    rw [length_padded]
    show (1 + 1 + 1) * 2 + (5 + 1 + (1 + k + 1 + 0)) ≤ 0x10000
    omega

/-- An argument of 50001 bytes, for a buffer of 16 KB. -/
def longArgument : Spawn :=
  v2Spawn 0x4000 (fun i => 8 * i + 7) (text "a.exe") [padded "b" 50000] [] (by decide)
    (sendable_padded (by decide) (by decide) [])

/-- The buffer moves once for the arguments and twice for the environment, and the third block has
the selector of the first one, which is free again. -/
def reusedSelector : Spawn :=
  v2Spawn 2048 (fun i => 8 * (i % 2) + 0xa7) (text "a.exe") [padded "b" 2040]
    ([4000, 3000].map (padded "A=")) (by decide) (sendable_padded (by decide) (by decide) _)

theorem longArgument_rooms : longArgument.rooms = none := by
  have him : imageRoom ⟨0x4000, 0, 0⟩ [text "a.exe", padded "b" 50000] = none := by
    have hlen : (padded "b" 50000).length = 50001 := length_padded "b" 50000
    simp only [imageRoom, strings, hlen]
    decide
  have htb : longArgument.dos.tbSize = 0x4000 := rfl
  have ha : longArgument.argv = [text "a.exe", padded "b" 50000] := rfl
  rw [Spawn.rooms, htb, ha, him, bind_none]

theorem reusedSelector_rooms : reusedSelector.rooms = some (⟨4096, 2054, 1⟩, ⟨16384, 9159, 3⟩) := by
  decide +kernel

theorem reusedSelector_blocks : (final reusedSelector.run).blocks =
    [⟨0x40000, 16384, 0xa7⟩, ⟨0x30000, 8192, 0xaf⟩, ⟨0x20000, 4096, 0xa7⟩] := by
  decide +kernel

theorem reusedSelector_fresh : FreshBlocks (final reusedSelector.run).blocks := by
  rw [reusedSelector_blocks]
  unfold FreshBlocks
  decide

/-- **Arguments that fit into 64 KB and are not handed over**: the buffer cannot grow although there
is space, and a segment is not corrected because the selector of its block is in use again. -/
theorem arguments_lost : (longArgument.layoutSize ≤ 0x10000 ∧ ¬ longArgument.HandsOver) ∧
      reusedSelector.layoutSize ≤ 0x10000 ∧ FreshBlocks (final reusedSelector.run).blocks ∧
      ¬ reusedSelector.HandsOver := by
  have hlen : (padded "b" 50000).length = 50001 := length_padded "b" 50000
  have ht : total longArgument.argv = 6 + (50001 + 1) := by
    have ha : longArgument.argv = [text "a.exe", padded "b" 50000] := rfl
    rw [ha, total, map_cons, map_cons, hlen]
    rfl
  have hc : longArgument.argv.length = 2 := rfl
  have hn : longArgument.progname.length = 5 := rfl
  have he : total longArgument.envp = 0 := rfl
  have hs : reusedSelector.dos.selectorAt ⟨4096, 2054, 1⟩ =
      reusedSelector.dos.selectorAt ⟨16384, 9159, 3⟩ := rfl
  refine ⟨⟨?_, Spawn.not_handsOver_of_rooms longArgument_rooms⟩, ?_, reusedSelector_fresh, ?_⟩
  · rw [Spawn.layoutSize, ht, hc, hn, he]
    decide
  · decide +kernel
  · exact Spawn.not_handsOver_of_stale reusedSelector_fresh reusedSelector_rooms (by decide) hs

end Exec
