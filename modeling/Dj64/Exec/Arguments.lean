import Dj64.Lib.ByteMemory

/-!
# The command line of a program at its start

`__crt0_setup_arguments` takes the arguments from the command tail that DOS passes, from the
variable `CMDLINE`, or from the memory of the parent when the command line is a `!proxy` one.
-/

namespace Exec

open ByteMemory List

abbrev Bytes := List UInt8

def text (s : String) : Bytes := s.toList.map fun c => UInt8.ofNat c.toNat

def blank : UInt8 := 32

def doubleQuote : UInt8 := 34

def singleQuote : UInt8 := 39

def backslash : UInt8 := 92

/-- `isspace` of the C locale. -/
def isspace (c : UInt8) : Bool := c == 32 || (9 ≤ c && c ≤ 13)

/-- `struct Arg` before globbing and the expansion of response files. -/
structure Arg where
  arg : Bytes
  wasQuoted : Bool
  deriving DecidableEq

/-- The argument starts with `bs`; it is marked as quoted if `mark` is set. -/
def pushArg (bs : Bytes) (mark : Bool) (r : Arg × Bytes) : Arg × Bytes :=
  (⟨bs ++ r.1.arg, mark || r.1.wasQuoted⟩, r.2)

/-- `strchr("'\"", c)`, which also finds the terminator of its first argument. -/
def isQuoteOrNul (c : UInt8) : Bool := c == singleQuote || c == doubleQuote || c == 0

def startsPattern (ep : Bytes) : Bool :=
  (ep.headD 0 == 0 || (text "[?*").contains (ep.headD 0)) || ep.take 3 == text "..."

/-- `parse_arg`, from the quote that is open (zero for none): the argument, and what is left of the
line from the blank after it. -/
def parseArg (unquote : Bool) : UInt8 → Bytes → Arg × Bytes
  | _, [] => (⟨[], false⟩, [])
  | quote, c :: rest =>
    if quote = 0 ∧ isspace c then (⟨[], false⟩, c :: rest)
    else if quote ≠ 0 ∧ c = quote then
      pushArg (if unquote then [] else [c]) false (parseArg unquote 0 rest)
    else if quote = 0 ∧ (c = singleQuote ∨ c = doubleQuote) then
      pushArg (if unquote then [] else [c]) false (parseArg unquote c rest)
    else
      match rest with
      | [] => (⟨[c], quote ≠ 0 && startsPattern [c] && unquote⟩, [])
      | d :: rest' =>
        if c = backslash ∧ isQuoteOrNul d then
          pushArg (if unquote then [d] else [c, d]) false (parseArg unquote quote rest')
        else
          pushArg [c] (quote ≠ 0 && startsPattern (c :: d :: rest') && unquote)
            (parseArg unquote quote (d :: rest'))

/-- The loop of `parse_bytes`; each round consumes a byte, so that `fuel` bounds the rounds. -/
def parseWords (unquote : Bool) : ℕ → Bytes → List Arg
  | 0, _ => []
  | fuel + 1, bytes =>
    match bytes.dropWhile isspace with
    | [] => []
    | c :: rest =>
      let r := parseArg unquote 0 (c :: rest)
      r.1 :: parseWords unquote fuel (r.2.drop 1)

def parseBytes (bytes : Bytes) (unquote : Bool) : List Arg := parseWords unquote bytes.length bytes

/-! ### Words -/

def IsQuote (quote : UInt8) : Prop := quote = 0 ∨ quote = singleQuote ∨ quote = doubleQuote

variable {unquote : Bool} {quote c : UInt8} {bytes word rest : Bytes}

theorem parseArg_length_le (unquote : Bool) (quote : UInt8) (bytes : Bytes) :
    (parseArg unquote quote bytes).2.length ≤ bytes.length := by
  fun_induction parseArg unquote quote bytes with
  | case1 => exact le_rfl
  | case2 => exact le_rfl
  | case3 _ _ _ _ _ ih => exact ih.trans (Nat.le_succ _)
  | case4 _ _ _ _ _ _ ih => exact ih.trans (Nat.le_succ _)
  | case5 => exact Nat.zero_le _
  | case6 _ _ _ _ _ _ _ _ ih => exact ih.trans (by simp only [length_cons]; omega)
  | case7 _ _ _ _ _ _ _ _ ih => exact ih.trans (Nat.le_succ _)

/-- More rounds than bytes make no difference. -/
theorem parseWords_congr {k l : ℕ} (hk : bytes.length ≤ k) (hl : bytes.length ≤ l) :
    parseWords unquote k bytes = parseWords unquote l bytes := by
  induction k generalizing l bytes with
  | zero =>
    obtain rfl : bytes = [] := length_eq_zero_iff.mp (Nat.le_zero.mp hk)
    cases l <;> rfl
  | succ k ih =>
    cases l with
    | zero =>
      obtain rfl : bytes = [] := length_eq_zero_iff.mp (Nat.le_zero.mp hl)
      rfl
    | succ l =>
      unfold parseWords
      have hdr := (dropWhile_suffix (l := bytes) isspace).length_le
      cases hd : bytes.dropWhile isspace with
      | nil => rfl
      | cons c rest =>
        dsimp only
        rw [hd] at hdr
        have hlen := parseArg_length_le unquote 0 (c :: rest)
        have hr := length_drop (i := 1) (l := (parseArg unquote 0 (c :: rest)).2)
        rw [ih (l := l) (by omega) (by omega)]

theorem parseWords_eq_parseBytes {fuel : ℕ} (h : bytes.length ≤ fuel) :
    parseWords unquote fuel bytes = parseBytes bytes unquote := parseWords_congr h le_rfl

/-- **The words of a line**, one after the other. -/
theorem parseBytes_eq (bytes : Bytes) (unquote : Bool) : parseBytes bytes unquote =
      match bytes.dropWhile isspace with
      | [] => []
      | c :: rest => (parseArg unquote 0 (c :: rest)).1 ::
        parseBytes ((parseArg unquote 0 (c :: rest)).2.drop 1) unquote := by
  rw [← parseWords_eq_parseBytes (Nat.le_succ bytes.length), parseWords]
  have hdr := (dropWhile_suffix (l := bytes) isspace).length_le
  cases hd : bytes.dropWhile isspace with
  | nil => rfl
  | cons c rest =>
    dsimp only
    rw [hd] at hdr
    have hlen := parseArg_length_le unquote 0 (c :: rest)
    rw [parseWords_eq_parseBytes]
    simp only [length_drop] at hdr hlen ⊢
    omega

theorem parseBytes_space (hc : isspace c) :
    parseBytes (c :: bytes) unquote = parseBytes bytes unquote := by
  rw [parseBytes_eq, parseBytes_eq bytes, dropWhile_cons_of_pos hc]

def Plain (c : UInt8) : Prop :=
  isspace c = false ∧ c ≠ singleQuote ∧ c ≠ doubleQuote ∧ c ≠ backslash

instance (c : UInt8) : Decidable (Plain c) := by unfold Plain; infer_instance

theorem parseArg_plain (hc : Plain c) :
    parseArg unquote 0 (c :: rest) = pushArg [c] false (parseArg unquote 0 rest) := by
  obtain ⟨hsp, hs, hd, hb⟩ := hc
  cases rest <;> simp [parseArg, pushArg, hsp, hs, hd, hb]

theorem parseArg_word (hw : ∀ c ∈ word, Plain c) :
    parseArg unquote 0 (word ++ blank :: rest) = (⟨word, false⟩, blank :: rest) := by
  induction word with
  | nil => cases rest <;> rfl
  | cons c word ih =>
    rw [cons_append, parseArg_plain (hw c (.head _)), ih (forall_mem_cons.mp hw).2]
    rfl

theorem parseBytes_word (hne : word ≠ []) (hw : ∀ c ∈ word, Plain c) :
    parseBytes (word ++ blank :: rest) unquote = ⟨word, false⟩ :: parseBytes rest unquote := by
  obtain ⟨c, word, rfl⟩ := exists_cons_of_ne_nil hne
  have hc : ¬ isspace c := by
    rw [(hw c (.head _)).1]
    exact Bool.false_ne_true
  rw [parseBytes_eq, cons_append, dropWhile_cons_of_neg hc]
  dsimp only
  rw [← cons_append, parseArg_word hw]
  rfl

theorem parseBytes_last (hne : word ≠ []) (hw : ∀ c ∈ word, Plain c) :
    parseBytes word unquote = [⟨word, false⟩] := by
  have harg : ∀ w : Bytes, (∀ c ∈ w, Plain c) → parseArg unquote 0 w = (⟨w, false⟩, []) := by
    intro w hw
    induction w with
    | nil => rfl
    | cons c w ih =>
      rw [parseArg_plain (hw c (.head _)), ih (forall_mem_cons.mp hw).2]
      rfl
  obtain ⟨c, word, rfl⟩ := exists_cons_of_ne_nil hne
  have hc : ¬ isspace c := by
    rw [(hw c (.head _)).1]
    exact Bool.false_ne_true
  rw [parseBytes_eq, dropWhile_cons_of_neg hc]
  dsimp only
  rw [harg _ hw]
  rfl

/-! ### Lists of arguments -/

/-- `parse_print0`; the last byte is zero. -/
def parsePrint0 : Bytes → Bytes → List Arg
  | _, [] => []
  | word, c :: rest => if c = 0 then ⟨word, true⟩ :: parsePrint0 [] rest
    else parsePrint0 (word ++ [c]) rest

/-- `struct Arg`: with the names that it matches, or with the arguments in its response file. -/
inductive Node
  | plain (arg : Arg)
  | globbed (names : List Bytes)
  | file (nodes : List Node)

mutual

/-- `fill_args` for one argument. -/
def fillArg : Node → List Bytes
  | .plain a => [a.arg]
  | .globbed names => names
  | .file nodes => fillArgs nodes

def fillArgs : List Node → List Bytes
  | [] => []
  | node :: nodes => fillArg node ++ fillArgs nodes

end

/-- The contents of a response file as arguments; a last byte `^Z` is dropped. -/
def responseArgs (unquote : Bool) (bytes : Bytes) : List Arg :=
  let bytes := if bytes.getLast? = some 0x1a then bytes.dropLast else bytes
  if bytes.getLast? = some 0 then parsePrint0 [] bytes else parseBytes bytes unquote

/-- One argument of `expand_response_files`; `files` gives the contents of the files that can be
opened, and `expand` the arguments in such contents. -/
def expandResponseFile (files : Bytes → Option Bytes)
    (expand : Bytes → Option (List Node)) (a : Arg) :
    Option Node :=
  if a.wasQuoted = false ∧ a.arg.head? = some 64 then
    match files (a.arg.drop 1) with
    | none => some (.plain a)
    | some bytes => (expand bytes).map .file
  else some (.plain a)

/-- `expand_response_files`, for at most `depth` files inside each other. -/
def expandResponseFiles (files : Bytes → Option Bytes) (unquote : Bool) :
    ℕ → List Arg → Option (List Node)
  | 0, args => args.mapM (expandResponseFile files fun _ => none)
  | depth + 1, args => args.mapM (expandResponseFile files fun bytes =>
      expandResponseFiles files unquote depth (responseArgs unquote bytes))

mutual

/-- `expand_wildcards` for one argument. -/
def expandWildcard (glob : Bytes → Option (List Bytes)) : Node → Node
  | .plain a =>
    if a.wasQuoted = false ∧ (a.arg.contains 42 ∨ a.arg.contains 63) then
      match glob a.arg with
      | some names => .globbed names
      | none => .plain a
    else .plain a
  | .globbed names => .globbed names
  | .file nodes => .file (expandWildcards glob nodes)

def expandWildcards (glob : Bytes → Option (List Bytes)) : List Node → List Node
  | [] => []
  | node :: nodes => expandWildcard glob node :: expandWildcards glob nodes

end

/-- `atohex`: a digit is taken modulo 16 after the correction for letters. -/
def atohex (s : Bytes) : ℕ :=
  s.foldl (fun rv c =>
    let v : ℤ := (c.toNat : ℤ) - 48
    rv * 16 + ((if 9 < v then v - 7 else v) % 16).toNat) 0

def dosMemory : ℕ := 0x10fff0

/-- `far_strlen`, which fails when it runs out of memory. -/
def farStrlen (mem : Mem) (a : ℕ) : ℕ → Option ℕ
  | 0 => none
  | fuel + 1 => if mem a = 0 then some 0 else (farStrlen mem (a + 1) fuel).map (· + 1)

def farString (mem : Mem) (a : ℕ) : Option Bytes :=
  (farStrlen mem a dosMemory).map (peek mem a)

def proxyName : Bytes := text " !proxy"

/-- What a program finds at its start: the command tail in its PSP, with the length byte; real-mode
memory; its environment; its startup flags; the name it was started with; files; and the names that
match a pattern. -/
structure Child where
  doscmd : Bytes
  mem : Mem
  getenv : Bytes → Option Bytes
  keepQuotes : Bool
  disallowResponseFiles : Bool
  argv0 : Bytes
  files : Bytes → Option Bytes
  glob : Bytes → Option (List Bytes)

/-- Skip the name of the program at the start of `CMDLINE`; the scan for the token does not stop at
the end of the string. -/
def skipName (cmdline : Bytes) : Option Bytes :=
  let first := cmdline.headD 0
  let stopToken := if first = doubleQuote ∨ first = singleQuote then first else blank
  match cmdline.dropWhile (· != stopToken) with
  | [] => none
  | _ :: rest => some rest

/-- The scan of the command line that DOS passes. -/
def Child.scan (c : Child) : Option (List Arg) :=
  match c.doscmd.headD 0, c.getenv (text "CMDLINE") with
  | 127, some cmdline => (skipName cmdline).map fun line => parseBytes line !c.keepQuotes
  | length, _ => some (parseBytes ((c.doscmd.drop 1).take (length &&& 0x7f).toNat) !c.keepQuotes)

/-- The arguments that a `!proxy` command line points to; those passed by `system`, through the
environment, still have their quotes. -/
def Child.proxied (c : Child) (argc seg ofs : ℕ) : Option (List Arg) :=
  (List.range argc).mapM fun i => do
    let arg ← farString c.mem (seg * 16 + load c.mem (seg * 16 + ofs + 2 * i) 2)
    if (c.getenv proxyName).isSome ∧ c.keepQuotes = false then return (parseArg true 0 arg).1
    else return ⟨arg, false⟩

/-- The arguments before the expansions, and whether the program name is still missing. -/
def Child.gather (c : Child) : Option (List Arg × Bool) := do
  let args ← c.scan
  let args := match c.getenv proxyName with
    | some v => parseBytes (proxyName ++ [blank] ++ v) false
    | none => args
  match args with
  | name :: argc :: seg :: ofs :: _ =>
    if name.arg = proxyName.drop 1 then
      return (← c.proxied (atohex argc.arg) (atohex seg.arg) (atohex ofs.arg), false)
    else return (args, true)
  | _ => return (args, true)

/-- `__crt0_setup_arguments`, for at most `depth` response files inside each other. -/
def Child.setupArguments (c : Child) (depth : ℕ) : Option (List Bytes) := do
  let (args, prependArgv0) ← c.gather
  let nodes ← if c.disallowResponseFiles then some (args.map .plain)
    else expandResponseFiles c.files (!c.keepQuotes) depth args
  -- arguments handed over by `spawn` are not expanded
  let nodes := if prependArgv0 ∨ (c.getenv proxyName).isSome then expandWildcards c.glob nodes
    else nodes
  return if prependArgv0 then c.argv0 :: fillArgs nodes else fillArgs nodes

end Exec
