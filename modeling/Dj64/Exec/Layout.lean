import Dj64.Exec.Room

/-!
# The layout of the arguments and for DOS

What `go32_exec` and `direct_exec_tail_1` leave in the transfer buffer for a v2 program started by
`spawn`: the table of the arguments, the arguments, and the command tail that points to them.
-/

namespace Exec

open ByteMemory Outcomes List Nat UInt8 Room

variable {dos : Dos} {s s' s'' : State} {r r' : Room}
  {n off lo hi hi' argvOff u a b v argc argOff seg fuel proxyOff initialSelector : ℕ}
  {str arg progname bs cs program : Bytes}
  {strs args argv envp env : List Bytes} {lfn upper : Bool} {c : UInt8} {m : Mem}

theorem strings_cons_none
    (h : r.reserve (str.length + 1) = none) : r.strings (str :: strs) = none := by
  rw [strings, h, Option.bind_none]

theorem strings_cons_some (h : r.reserve (str.length + 1) = some r') :
    r.strings (str :: strs) = (r'.take (str.length + 1)).strings strs := by
  rw [strings, h, Option.bind_some]

/-! ### The table of the arguments -/

/-- A slot of the table: it holds the offset, between `lo` and `hi`, of the argument. -/
def Entry (s : State) (off : ℕ) (arg : Bytes) (lo hi : ℕ) : Prop :=
  ∃ o, lo ≤ o ∧ o + arg.length + 1 ≤ hi ∧ load s.mem (s.tbufBeg + off) 2 = o ∧
    Holds s.mem (s.tbufBeg + o) (arg ++ [0])

theorem Entry.congr (h : Entry s off arg lo hi) (hhi : hi ≤ hi')
    (hm : ∀ i < hi, off ≤ i ∧ i < off + 2 ∨ lo ≤ i →
      s'.mem (s'.tbufBeg + i) = s.mem (s.tbufBeg + i)) (hoff : off + 2 ≤ hi) :
    Entry s' off arg lo hi' := by
  obtain ⟨o, hlo, ho, hl, hh⟩ := h
  refine ⟨o, hlo, by omega, ?_, hh.congr fun i hi => ?_⟩
  · have hs : ∀ i < 2, s'.mem (s'.tbufBeg + (off + i)) = s.mem (s.tbufBeg + (off + i)) :=
      fun i hi => hm (off + i) (by omega) (.inl (by omega))
    have h0 := hs 0 (by omega)
    have h1 := hs 1 (by omega)
    rw [← hl]
    simp only [load, add_assoc]
    rw [h1]
    rw [add_zero] at h0
    rw [h0]
  · rw [length_append, length_singleton] at hi
    rw [add_assoc, add_assoc]
    exact hm (o + i) (by omega) (.inr (by omega))

/-- The arguments `args` are in the slots from `off` on. -/
def Entries (s : State) (off : ℕ) (args : List Bytes) (lo hi : ℕ) : Prop :=
  ∀ j (h : j < args.length), Entry s (off + 2 * j) args[j] lo hi

/-- What was laid out before the slots from `off` on and behind `lo` is still there. -/
def SameAround (s s' : State) (off lo u : ℕ) : Prop :=
  ∀ i < u, i < off ∨ lo ≤ i → s'.mem (s'.tbufBeg + i) = s.mem (s.tbufBeg + i)

theorem putArgs_lays (hdos : dos.Provides) (lo : ℕ)
    (h : Placed dos s r n) (hlo : argvOff + 2 * args.length ≤ lo) (hu : lo ≤ r.used)
    (hsi : r.used + total args ≤ 0x10000) :
    Ends (fun _ _ => r.strings args = none)
      (fun off s' => off = argvOff + 2 * args.length ∧ ∃ r', r.strings args = some r' ∧
        Placed dos s' r' 0 ∧ s.blocks <:+ s'.blocks ∧
        Entries s' argvOff args lo r'.used ∧ SameAround s s' argvOff lo r.used)
      (putArgs dos args argvOff s) := by
  induction args generalizing s r n argvOff with
  | nil =>
    exact ends_pure ⟨rfl, r, rfl, h.mono (zero_le n), suffix_rfl,
      fun j hj => absurd hj (not_lt_zero j), fun _ _ _ => rfl⟩
  | cons arg args ih =>
    have ht : total (arg :: args) = arg.length + 1 + total args := by
      simp only [total, map_cons, sum_cons]
    rw [length_cons] at hlo
    refine lays_string hdos h (fun hn _ _ => strings_cons_none hn)
      fun r1 s1 hr1 h1 hframe1 hstr => ends_get ?_
    have hu1 : (r1.take (arg.length + 1)).used = r.used + (arg.length + 1) :=
      congrArg (· + (arg.length + 1)) (reserve_used hr1)
    rw [strings_cons_some hr1]
    refine lays_farpokew h1 (by omega) (by omega) fun s2 hb2 hs2 h2 => ?_
    -- the slot that was just written, and everything else
    have hs : ∀ i, i < argvOff ∨ argvOff + 2 ≤ i →
        s2.mem (s2.tbufBeg + i) = s1.mem (s1.tbufBeg + i) := by
      intro i hi
      rw [hb2, hs2.mem]
      exact store_outside (by omega)
    have hen : Entry s2 argvOff arg lo (r1.take (arg.length + 1)).used := by
      refine ⟨r.used, hu, by omega, ?_, hstr.congr fun i _ => ?_⟩
      · rw [hb2, hs2.mem, Nat.add_sub_cancel_left]
        exact load_store_same (by omega)
      · rw [add_assoc, add_assoc]
        exact hs _ (.inr (by omega))
    refine ((ih h2 (by omega) (by omega) (by omega)).mono fun off s' h' => ?_)
    obtain ⟨rfl, r', hr', hp', hb, he, ha⟩ := h'
    have hu' := strings_used hr'
    refine ⟨by rw [length_cons]; ring, r', hr', hp', ?_, fun j hj => ?_, fun i hi hout => ?_⟩
    · rw [hs2.blocks] at hb
      exact hframe1.blocks.trans hb
    · cases j with
      | zero => exact hen.congr (by omega) (fun i hi hout => ha i hi (by omega)) (by omega)
      | succ j =>
        have := he j (by simpa using hj)
        rwa [getElem_cons_succ, show argvOff + 2 * (j + 1) = argvOff + 2 + 2 * j by ring]
    · rw [ha i (by omega) (by omega), hs i (by omega), hframe1.same i hi]

/-- The table of the arguments and the arguments take the first `u` bytes of the buffer. -/
def Table (s : State) (argv : List Bytes) (u : ℕ) : Prop :=
  Entries s 0 argv ((argv.length + 1) * 2) u

theorem Frame.table (h : Frame s s' u) (ht : Table s argv u)
    (hu : (argv.length + 1) * 2 ≤ u) : Table s' argv u := fun j hj =>
  (ht j hj).congr le_rfl (fun i hi _ => h.same i hi) (by omega)

/-- The room after the image of the arguments. -/
def imageRoom (r : Room) (argv : List Bytes) : Option Room :=
  (r.reserve (0 + (argv.length + 1) * 2)).bind fun r =>
    (r.take ((argv.length + 1) * 2)).strings argv

theorem putImage_lays (hdos : dos.Provides) (h : Placed dos s r n) (hr : r.used = 0) (sep : UInt8)
    (hs : (argv.length + 1) * 2 + total argv ≤ 0x10000) :
    Ends (fun _ _ => imageRoom r argv = none)
      (fun proxy s' => ∃ r', imageRoom r argv = some r' ∧ Placed dos s' r' 0 ∧
        s.blocks <:+ s'.blocks ∧ proxy = proxyCmdline sep argv.length (s'.tbufBeg / 16) 0 none ∧
        Table s' argv r'.used)
      (putImage dos sep none argv s) := by
  unfold imageRoom
  refine lays_checkTalloc hdos h (fun hn _ _ => by rw [imageRequest] at hn; rw [hn]; rfl)
    fun r1 s1 hr1 h1 hframe1 => ?_
  rw [imageRequest] at hr1 h1
  rw [hr1]
  have hu1 := reserve_used hr1
  show Ends _ _ (putTable dos sep argv none s1)
  refine lays_talloc h1 (by omega) fun s2 hb2 hs2 h2 => ends_get ?_
  have hu2 : (r1.take ((argv.length + 1) * 2)).used = (argv.length + 1) * 2 := by
    show r1.used + _ = _
    omega
  have hrm : s1.tbufBeg + r1.used - s2.tbufBeg = 0 := by omega
  rw [hrm]
  refine (putArgs_lays hdos ((argv.length + 1) * 2) h2 (by omega) (by omega) (by omega)).bind
    fun argvOff s3 h3 => ends_get ?_
  obtain ⟨rfl, r3, hr3, h3, hblocks3, he, -⟩ := h3
  have hu3 := strings_used hr3
  refine lays_farpokew h3 (by omega) (by omega) fun s4 hb4 hs4 h4 => ?_
  refine ends_pure ⟨r3, hr3, h4, ?_, by rw [hb4], fun j hj => ?_⟩
  · rw [hs4.blocks]
    rw [hs2.blocks] at hblocks3
    exact hframe1.blocks.trans hblocks3
  · refine (he j hj).congr le_rfl (fun i _ hi => ?_) (by omega)
    rw [hb4, hs4.mem]
    exact store_outside (by omega)

/-! ### The layout for DOS -/

theorem programName_lays (hdos : dos.Provides) (h : Placed dos s r n)
    (hn : (if lfn then dos.truename (dos.putPath program)
      else some (dos.putPath program)) = some progname) (hfit : progname.length + 1 ≤ dos.tbSize) :
    Ends (fun _ _ => r.reserve (program.length + 1) = none)
      (fun name s' => name = progname ∧ ∃ r', r.reserve (program.length + 1) = some r' ∧
        Placed dos s' r' 0 ∧ Frame s s' r.used)
      (programName dos program lfn s) := by
  refine lays_checkTalloc hdos h (fun hno _ _ => hno) fun r1 s1 hr1 h1 hframe1 => ?_
  rw [hn]
  have hu1 := reserve_used hr1
  have hro := h1.reserved.room
  have hptr := h1.reserved.ptr
  refine ⟨rfl, r1, hr1, ?_, hframe1.trans ⟨suffix_rfl, fun i hi => ?_⟩ le_rfl⟩
  · have hr : Reserved s1 r1.used 0 := h1.reserved.mono (zero_le _)
    refine Placed.same h1 rfl ⟨rfl, rfl, rfl, rfl, rfl⟩ ?_ rfl rfl
    exact ⟨hr.ok, hr.pos, hr.fin, hr.ptr, hr.room⟩
  refine put_outside ?_
  rw [length_append, length_singleton]
  show s1.tbufBeg + i < _ ∨ _ ≤ s1.tbufBeg + i
  split_ifs with hf
  · omega
  · -- the name is made in the first buffer, which is not the current one
    have ha := h1.apart fun h0 => hf (h1.first h0).1
    omega

theorem SameBuffer.trans {mem mem' : Mem} (h : SameBuffer s s' mem)
    (h' : SameBuffer s' s'' mem') : SameBuffer s s'' mem' :=
  ⟨h'.mem, h'.len.trans h.len, h'.selector.trans h.selector, h'.requests.trans h.requests,
    h'.blocks.trans h.blocks⟩

/-- The place of the environment is the next paragraph. -/
theorem tallocAligned_lays (h : Placed dos s r n)
    (hf : (r.used + 15) / 16 * 16 ≤ r.used + fuel) (hn : fuel < n) :
    Ends (fun _ _ => False) (fun _ s' => s'.tbufBeg = s.tbufBeg ∧ SameBuffer s s' s.mem ∧
        ∃ m, Placed dos s' (r.aligned.take 1) m)
      (tallocAligned fuel s) := by
  have hal := h.aligned
  induction fuel generalizing s r n with
  | zero =>
    rw [Room.aligned_of_mod (r := r) (by omega)]
    exact lays_talloc (f := pure) h hn fun s' hbeg hs h' => ends_pure ⟨hbeg, hs, n - 1, h'⟩
  | succ fuel ih =>
    refine lays_talloc h (k := 1) (by omega) fun s1 hbeg hs1 h1 => ?_
    split_ifs with hmod
    · rw [Room.aligned_of_mod (r := r) (by omega)]
      exact ends_pure ⟨hbeg, hs1, n - 1, h1⟩
    have hu : (r.take 1).aligned = r.aligned := by
      simp only [Room.aligned, Room.take, Room.mk.injEq, true_and, and_true]
      omega
    have hf' : ((r.take 1).used + 15) / 16 * 16 ≤ (r.take 1).used + fuel := by
      show (r.used + 1 + 15) / 16 * 16 ≤ r.used + 1 + fuel
      omega
    refine (ih h1 hf' (by omega) h1.aligned).mono fun la s' h' => ?_
    obtain ⟨hb', hs', m, hp⟩ := h'
    rw [hu] at hp
    rw [hs1.mem] at hs'
    exact ⟨hb'.trans hbeg, hs1.trans hs', m, hp⟩

theorem holds_put_of_disjoint (h : Holds m a bs)
    (hd : b + cs.length ≤ a ∨ a + bs.length ≤ b) : Holds (put m b cs) a bs :=
  h.congr fun _ _ => put_outside (by omega)

def dosTail (args : Bytes) : Bytes := [ofNat args.length] ++ args ++ [13]

theorem holds_dosTail {args : Bytes} :
    Holds (put (put (put m a [ofNat args.length]) (a + 1) args) (a + 1 + args.length) [13]) a
      (dosTail args) := by
  have h1 : Holds (put (put m a [ofNat args.length]) (a + 1) args) a
      ([ofNat args.length] ++ args) :=
    holds_append (holds_put_of_disjoint (holds_put m a _) (.inr le_rfl))
      (holds_put _ (a + 1) args)
  have hlen : ([ofNat args.length] ++ args).length = 1 + args.length := by simp; omega
  refine holds_append (holds_put_of_disjoint h1 (.inr (by omega))) ?_
  rw [hlen, ← add_assoc]
  exact holds_put _ _ _

def headRoom (r : Room) (progname : Bytes) (argLen : ℕ) : Room :=
  (r.take (progname.length + 1 + (argLen + 3) + sizeofExecp + 16 + 16)).aligned

theorem putHead_lays (hdos : dos.Provides) (h : Placed dos s r n) {args : Bytes}
    (har : args.length ≤ cmdlenLimit) :
    Ends (fun _ _ => r.reserve (progname.length + 1 + args.length + 3 + sizeofExecp + 48) = none)
      (fun off s' => ∃ r', r.reserve (progname.length + 1 + args.length + 3 + sizeofExecp + 48) =
        some r' ∧
        Placed dos s' (headRoom r' progname args.length) 0 ∧ Frame s s' r.used ∧
        off.arg = r.used + progname.length + 1 ∧ off.parm = off.arg + args.length + 3 ∧
        Holds s'.mem (s'.tbufBeg + off.arg) (dosTail args))
      (putHead dos progname args none s) := by
  have hl : args.take cmdlenLimit = args := take_of_length_le har
  have hmin : min args.length cmdlenLimit = args.length := min_eq_left har
  have ht : tailLength args none = ofNat args.length := by
    simp only [tailLength, longArgs, Option.isSome_none, Bool.and_false,
      Bool.false_eq_true, if_false, hmin]
  unfold putHead
  rw [hl, hmin, ht]
  refine lays_checkTalloc hdos h (fun hn _ _ => hn) fun r1 s1 hr1 h1 hf1 => ?_
  have hu := Room.reserve_used hr1
  refine lays_talloc h1 (by omega) fun s2 hb2 hs2 h2 => ?_
  refine lays_talloc h2 (by omega) fun s3 hb3 hs3 h3 => ?_
  refine lays_talloc h3 (k := sizeofExecp) (by omega) fun s4 hb4 hs4 h4 => ?_
  simp only [Room.take] at h2 h3 h4 ⊢
  refine lays_dosmemput h4 (by omega) (by simp; omega) fun s5 hb5 hs5 h5 => ?_
  refine lays_dosmemput h5 (by omega) (by simp; omega) fun s6 hb6 hs6 h6 => ?_
  refine lays_dosmemput h6 (by omega) (by simp; omega) fun s7 hb7 hs7 h7 => ?_
  refine lays_dosmemput h7 (by omega) (by simp; omega) fun s8 hb8 hs8 h8 => ?_
  refine lays_talloc h8 (k := 16) (by omega) fun s9 hb9 hs9 h9 => ?_
  simp only [Room.take] at h9 ⊢
  refine lays_dosmemput h9 (by omega) (by simp; omega) fun s10 hb10 hs10 h10 => ?_
  refine lays_talloc h10 (k := 16) (by omega) fun s11 hb11 hs11 h11 => ?_
  simp only [Room.take] at h11 ⊢
  refine lays_dosmemput h11 (by omega) (by simp; omega) fun s12 hb12 hs12 h12 => ?_
  refine Ends.bind ((tallocAligned_lays h12 (by omega) (by omega)).imp fun _ _ => False.elim)
    fun envLa s13 h13 => ?_
  obtain ⟨hb13, hs13, m, h13⟩ := h13
  refine lays_talloc_back h13 fun _ s14 hb14 hs14 h14 => ends_get (ends_pure ?_)
  have hall := hs2.trans <| hs3.trans <| hs4.trans <| hs5.trans <| hs6.trans <| hs7.trans <|
    hs8.trans <| hs9.trans <| hs10.trans <| hs11.trans <| hs12.trans <| hs13.trans hs14
  rw [hs13.mem, hs12.mem, hs11.mem, hs10.mem, hs9.mem, hs8.mem, hs7.mem, hs6.mem, hs5.mem, hs4.mem,
    hs3.mem, hs2.mem] at hall
  have hbeg : s14.tbufBeg = s1.tbufBeg := by omega
  have harg : s2.tbufBeg + (r1.used + (progname.length + 1)) - s14.tbufBeg =
      r.used + progname.length + 1 := by omega
  refine ⟨r1, hr1, ?_, hf1.trans (frame_of_same hbeg hall fun i hi => ?_) le_rfl, harg, ?_, ?_⟩
  · have hr : headRoom r1 progname args.length =
        (Room.mk r1.len (r1.used + (progname.length + 1) + (args.length + 3) + sizeofExecp +
          16 + 16) r1.moves).aligned := by
      simp only [headRoom, Room.take, add_assoc]
    rw [hr]
    exact h14.mono (zero_le _)
  · have hlen : (progname ++ [0]).length = progname.length + 1 := by simp
    rw [put_outside (by omega), put_outside (by omega), put_outside (by omega),
      put_outside (by omega), put_outside (by omega), put_outside (by omega)]
  · dsimp only
    omega
  · rw [hall.mem, hbeg]
    have ha : s1.tbufBeg + (s2.tbufBeg + (r1.used + (progname.length + 1)) - s1.tbufBeg) =
        s2.tbufBeg + (r1.used + (progname.length + 1)) := by omega
    rw [ha]
    have hlen : (dosTail args).length = args.length + 2 := by simp [dosTail]
    refine holds_put_of_disjoint (holds_put_of_disjoint holds_dosTail ?_) ?_
    · exact .inr (by omega)
    · exact .inr (by omega)

theorem putEnvironment_lays (hdos : dos.Provides) (h : Placed dos s r n) :
    Ends (fun _ _ => r.strings env = none)
      (fun off s' => off = proxyOff ∧ ∃ r', r.strings env = some r' ∧ Placed dos s' r' 0 ∧
        Frame s s' r.used)
      (putEnvironment dos (env.map (·, false)) proxyOff s) := by
  induction env generalizing s r n with
  | nil => exact ends_pure ⟨rfl, r, rfl, h.mono (zero_le n), .refl s r.used⟩
  | cons ep env ih =>
    refine lays_string hdos h (fun hn _ _ => strings_cons_none hn)
      fun r1 s1 hr1 h1 hframe1 _ => ends_get ?_
    rw [strings_cons_some hr1]
    refine (ih h1).mono fun off s' h' => ?_
    obtain ⟨hoff, r', hr', hp', hf'⟩ := h'
    have hu : r.used ≤ (r1.take (ep.length + 1)).used := by
      rw [← reserve_used hr1]
      exact Nat.le_add_right ..
    exact ⟨hoff, r', hr', hp', hframe1.trans hf' hu⟩

theorem putOwner_lays (hdos : dos.Provides) (h : Placed dos s r n) :
    Ends (fun _ _ => r.reserve (3 + (progname.length + 1)) = none)
      (fun _ s' => ∃ r', r.reserve (3 + (progname.length + 1)) = some r' ∧
        Placed dos s' (r'.take (3 + (progname.length + 1))) 0 ∧ Frame s s' r.used)
      (putOwner dos progname s) := by
  refine lays_checkTalloc hdos h (fun hn _ _ => hn) fun r1 s1 hr1 h1 hf1 => ?_
  have hu := Room.reserve_used hr1
  refine lays_talloc h1 (k := 3) (by omega) fun s2 hb2 hs2 h2 => ?_
  simp only [Room.take] at h2 ⊢
  refine lays_dosmemput h2 (by omega) (by simp; omega) fun s3 hb3 hs3 h3 => ?_
  refine lays_talloc h3 (by omega) fun s4 hb4 hs4 h4 => ?_
  simp only [Room.take] at h4 ⊢
  refine lays_dosmemput (f := pure) h4 (by omega) (by simp; omega) fun s5 hb5 hs5 h5 => ?_
  have hall := hs2.trans <| hs3.trans <| hs4.trans hs5
  rw [hs4.mem, hs3.mem, hs2.mem] at hall
  refine ends_pure ⟨r1, hr1, ?_, hf1.trans (frame_of_same (by omega) hall fun i hi => ?_) le_rfl⟩
  · rw [add_assoc] at h5
    exact h5.mono (zero_le _)
  · rw [put_outside (by omega), put_outside (by omega)]

/-! ### The `!proxy` command line -/

theorem hexDigit_spec (upper : Bool) (d : Fin 16) :
    Plain (hexDigit upper d) ∧ hexDigit upper d ≠ 0 ∧
      ((if 9 < ((hexDigit upper d).toNat : ℤ) - 48 then ((hexDigit upper d).toNat : ℤ) - 48 - 7
        else ((hexDigit upper d).toNat : ℤ) - 48) % 16).toNat = d := by
  revert upper d
  decide

theorem mem_hex4 (h : c ∈ hex4 upper v) : Plain c ∧ c ≠ 0 := by
  obtain ⟨d, hd, rfl⟩ := mem_map.mp h
  have hlt : d < 16 := by
    simp only [mem_cons, not_mem_nil, or_false] at hd
    omega
  obtain ⟨hp, hne, -⟩ := hexDigit_spec upper ⟨d, hlt⟩
  exact ⟨hp, hne⟩

/-- **Hexadecimal numbers are read back**, whether written by `%04x` or by `%04X`. -/
theorem atohex_hex4 (upper : Bool) (hv : v < 0x10000) : atohex (hex4 upper v) = v := by
  have hd : ∀ w : ℕ, ((if 9 < ((hexDigit upper (w % 16)).toNat : ℤ) - 48
      then ((hexDigit upper (w % 16)).toNat : ℤ) - 48 - 7
      else ((hexDigit upper (w % 16)).toNat : ℤ) - 48) % 16).toNat = w % 16 := fun w =>
    (hexDigit_spec upper ⟨w % 16, mod_lt w (by decide)⟩).2.2
  simp only [atohex, hex4, map_cons, map_nil, foldl_cons, foldl_nil, hd]
  omega

/-- The `!proxy` command line for arguments at the start of a segment. -/
def proxyLine (argc : ℕ) (seg : Bytes) : Bytes :=
  proxyName ++ [blank] ++ hex4 false argc ++ [blank] ++ seg ++ [blank] ++ hex4 false 0

theorem length_proxyLine (argc : ℕ) {seg : Bytes} (hseg : seg.length = 4) :
    (proxyLine argc seg).length = 22 := by
  have hn : proxyName.length = 7 := rfl
  have hhex : ∀ v, (hex4 false v).length = 4 := fun _ => rfl
  simp only [proxyLine, length_append, hn, hhex, hseg, length_singleton]

theorem mem_proxyLine (h : c ∈ proxyLine argc (hex4 upper v)) : c ≠ 13 ∧ c ≠ 0 := by
  have hp : ∀ {upper v}, c ∈ hex4 upper v → c ≠ 13 ∧ c ≠ 0 := by
    intro upper v hc
    obtain ⟨⟨hs, -⟩, hne⟩ := mem_hex4 hc
    refine ⟨fun h13 => ?_, hne⟩
    rw [h13] at hs
    cases hs
  have hn : ∀ c ∈ proxyName ++ [blank], c ≠ 13 ∧ c ≠ 0 := by decide +kernel
  have hb : ∀ c ∈ [blank], c ≠ 13 ∧ c ≠ 0 := by decide +kernel
  simp only [proxyLine, mem_append] at h hn
  rcases h with ((((hc | hc) | hc) | hc) | hc) | hc
  · exact hn c hc
  · exact hp hc
  · exact hb c hc
  · exact hp hc
  · exact hb c hc
  · exact hp hc

theorem dosTail_proxyLine {seg : Bytes} (hseg : seg.length = 4) :
    dosTail (proxyLine argc seg) =
      ([22] ++ (proxyName ++ [blank] ++ hex4 false argc ++ [blank])) ++ seg ++
        ([blank] ++ hex4 false 0 ++ [13]) := by
  rw [dosTail, length_proxyLine argc hseg]
  simp [proxyLine]

/-- The segment in the command tail is the current one, if the selector has changed. -/
theorem patchProxy_lays (h : Placed dos s r 0) (hoff : argOff + 18 ≤ r.used)
    (hh : Holds s.mem (s.tbufBeg + argOff) (dosTail (proxyLine argc (hex4 false seg)))) :
    Ends (fun _ _ => False)
      (fun _ s' => Placed dos s' r 0 ∧ s'.tbufBeg = s.tbufBeg ∧ s'.blocks = s.blocks ∧
        s'.tbufSelector = s.tbufSelector ∧ Frame s s' argOff ∧
        Holds s'.mem (s.tbufBeg + argOff) (dosTail (proxyLine argc
          (if initialSelector = s.tbufSelector then hex4 false seg else
            hex4 true (s.tbufBeg / 16)))))
      (patchProxy initialSelector (argOff + 1) s) := by
  refine ends_get ?_
  by_cases hsel : initialSelector = s.tbufSelector
  · have hco : ¬ (initialSelector ≠ s.tbufSelector ∧ argOff + 1 ≠ 0) := fun hc => hc.1 hsel
    rw [if_neg hco, if_pos hsel]
    exact ends_pure ⟨h, rfl, rfl, rfl, .refl s argOff, hh⟩
  have hco : initialSelector ≠ s.tbufSelector ∧ argOff + 1 ≠ 0 := ⟨hsel, succ_ne_zero _⟩
  rw [if_pos hco, if_neg hsel]
  have hlen : ∀ upper v, (hex4 upper v).length = 4 := fun _ _ => rfl
  -- the line is too short to have a second segment
  have hl : Holds s.mem (s.tbufBeg + (argOff + 1)) (proxyLine argc (hex4 false seg) ++ [13]) := by
    rw [dosTail, append_assoc] at hh
    exact hh.right
  have hs : ((peek s.mem (s.tbufBeg + (argOff + 1)) 64).takeWhile
      fun c => c != 13 && c != 0).length = 22 := by
    have hpos : ∀ c ∈ proxyLine argc (hex4 false seg), (c != 13 && c != 0) := fun c hc => by
      simpa using mem_proxyLine hc
    have hle : (proxyLine argc (hex4 false seg) ++ [13]).length ≤ 64 := by
      rw [length_append, length_proxyLine argc (hlen ..), length_singleton]
      omega
    rw [hl.peek hle, append_assoc, takeWhile_append_of_pos hpos, length_append,
      length_proxyLine argc (hlen ..), singleton_append, takeWhile_cons_of_neg (by decide),
      length_nil]
  refine lays_dosmemput h (by omega) (by rw [hlen]; omega) fun s1 hb1 hs1 h1 => ?_
  rw [hs]
  refine ends_pure ⟨h1, hb1, hs1.blocks, hs1.selector, frame_of_same hb1 hs1 fun i hi => ?_, ?_⟩
  · exact put_outside (.inl (by omega))
  rw [dosTail_proxyLine (hlen ..)] at hh ⊢
  rw [hs1.mem]
  have hpre : ([22] ++ (proxyName ++ [blank] ++ hex4 false argc ++ [blank])).length = 14 := rfl
  have hat : s.tbufBeg + (argOff + 1) + 13 = s.tbufBeg + argOff + 14 := by omega
  rw [hat]
  refine holds_append (holds_append ?_ ?_) ?_
  · exact holds_put_of_disjoint hh.left.left (.inr (by omega))
  · rw [hpre]
    exact holds_put _ _ _
  · rw [length_append, hpre, hlen]
    have hp := hh.right
    exact holds_put_of_disjoint hp (.inl (by rw [hlen]))

theorem putParm_lays (h : Placed dos s r 0) {off : Offsets} (hoff : off.parm + sizeofExecp ≤ r.used)
    :
    Ends (fun _ _ => False)
      (fun launch s' => Placed dos s' r 0 ∧ s'.tbufBeg = s.tbufBeg ∧ s'.blocks = s.blocks ∧
        s'.tbufSelector = s.tbufSelector ∧ Frame s s' off.parm ∧ launch.env = env ∧
        launch.parm.argseg = (s.tbufBeg + off.arg) / 16 % 0x10000 ∧
        launch.parm.argoff = (s.tbufBeg + off.arg) % 16)
      (putParm off env s) := by
  unfold sizeofExecp at hoff
  have hlen : ∀ parm : Execp, parm.bytes.length = 14 := fun _ => rfl
  refine ends_get (lays_dosmemput h (by omega) (by rw [hlen]; omega) fun s1 hb1 hs1 h1 => ?_)
  refine ends_pure ⟨h1, hb1, hs1.blocks, hs1.selector, frame_of_same hb1 hs1 fun i hi => ?_, rfl,
    rfl, rfl⟩
  exact put_outside (.inl (by omega))

/-! ### The whole layout -/

/-- The room after the layout for DOS, with a command tail of 22 bytes. -/
def tailRoom (r : Room) (program progname : Bytes) (env : List Bytes) : Option Room := do
  let r ← r.reserve (program.length + 1)
  let r ← r.reserve (progname.length + 1 + 22 + 3 + sizeofExecp + 48)
  let r ← (headRoom r progname 22).strings env
  let r ← r.reserve (3 + (progname.length + 1))
  return r.take (3 + (progname.length + 1))

theorem environment_eq (henv : ∀ ep ∈ envp, isProxyVar ep = false) :
    environment envp none false none = envp.map (·, false) := by
  have he : envp.filterMap (envEntry none false none) = envp.map (·, false) := by
    rw [← filterMap_eq_map]
    refine filterMap_congr fun ep hep => ?_
    rw [envEntry, henv ep hep]
    rfl
  simp [environment, he]

theorem prefix_proxyLine {seg : Bytes} :
    (proxyName ++ [blank]).isPrefixOf (proxyLine argc seg) := by
  rw [ isPrefixOf_iff_prefix]
  exact ⟨hex4 false argc ++ [blank] ++ seg ++ [blank] ++ hex4 false 0, by simp [proxyLine]⟩

/-- What DOS and the child find: the command tail is at an offset that the parameter block gives,
with the segment of the arguments. -/
structure Launched (launch : Launch) (s : State) (u argc : ℕ) (seg : Bytes) (argOff : ℕ) :
    Prop where
  within : argOff + 24 ≤ u
  argseg : launch.parm.argseg = (s.tbufBeg + argOff) / 16 % 0x10000
  argoff : launch.parm.argoff = (s.tbufBeg + argOff) % 16
  tail : Holds s.mem (s.tbufBeg + argOff) (dosTail (proxyLine argc seg))

theorem directExecTail_lays (hdos : dos.Provides) (h : Placed dos s r n) (program : Bytes)
    (hna : (if lfn then dos.truename (dos.putPath program)
      else some (dos.putPath program)) = some progname) (hfit : progname.length + 1 ≤ dos.tbSize)
    (henv : ∀ ep ∈ envp, isProxyVar ep = false) (argc seg : ℕ) :
    Ends (fun _ _ => tailRoom r program progname envp = none)
      (fun launch s' => launch.env = envp ∧ ∃ r', tailRoom r program progname envp = some r' ∧
        Placed dos s' r' 0 ∧ Frame s s' r.used ∧ ∃ argOff,
          Launched launch s' r'.used argc (if s.tbufSelector = s'.tbufSelector then hex4 false seg
            else hex4 true (s'.tbufBeg / 16)) argOff)
      (directExecTail dos program (proxyLine argc (hex4 false seg)) envp none lfn none s) := by
  have hlen : ∀ upper v, (proxyLine argc (hex4 upper v)).length = 22 := fun _ _ =>
    length_proxyLine argc rfl
  have hlo : longArgs (proxyLine argc (hex4 false seg)) none = false := by
    rw [longArgs, Option.isSome_none, Bool.and_false]
  unfold directExecTail tailRoom
  rw [hlo, environment_eq henv, prefix_proxyLine]
  refine ends_get ?_
  refine Ends.bind ((programName_lays hdos h hna hfit).imp fun _ _ hn => by rw [hn]; rfl)
    fun name s1 h1 => ?_
  obtain ⟨rfl, r1, hr1, h1, hf1⟩ := h1
  rw [hr1, Option.bind_eq_bind, Option.bind_some]
  refine Ends.bind ((putHead_lays hdos h1 (by rw [hlen]; decide)).imp fun _ _ hn => by
    rw [hlen] at hn
    rw [hn]
    rfl) fun off s2 h2 => ?_
  obtain ⟨r2, hr2, h2, hf2, harg, hp, ht⟩ := h2
  rw [hlen] at hr2 h2 hp
  rw [hr2, Option.bind_some]
  refine Ends.bind ((putEnvironment_lays hdos h2).imp fun _ _ hn => by
    rw [hn]
    rfl) fun proxyOff s3 h3 => ?_
  obtain ⟨rfl, r3, hr3, h3, hf3⟩ := h3
  rw [hr3, Option.bind_some]
  refine Ends.bind ((putOwner_lays hdos h3).imp fun _ _ hn => by rw [hn]; rfl)
    fun _ s4 h4 => ?_
  obtain ⟨r4, hr4, h4, hf4⟩ := h4
  rw [hr4, Option.bind_some]
  have hu1 := reserve_used hr1
  have hu2 := reserve_used hr2
  have hu3 := strings_used hr3
  have hu4 : (r4.take (3 + (name.length + 1))).used = r3.used + (3 + (name.length + 1)) := by
    rw [← reserve_used hr4]
    rfl
  have hh : off.parm + sizeofExecp ≤ (headRoom r2 name 22).used := by
    show _ ≤ (r2.used + (name.length + 1 + (22 + 3) + sizeofExecp + 16 + 16) + 15) / 16 * 16
    omega
  -- the command tail is still there after the environment
  have hdos : ∀ upper v, (dosTail (proxyLine argc (hex4 upper v))).length = 24 := fun _ _ => rfl
  have htail4 := (hf3.trans hf4 (by omega)).holds ht (by rw [hdos]; omega)
  refine Ends.bind ((patchProxy_lays h4 (by omega) htail4).imp
    fun _ _ => False.elim) fun _ s5 h5 => ?_
  obtain ⟨h5, hb5, hblocks5, hsel5, hf5, htail5⟩ := h5
  refine ((putParm_lays h5 (by omega)).imp fun _ _ => False.elim).mono fun launch s6 h6 => ?_
  obtain ⟨h6, hb6, hblocks6, hsel6, hf6, hl, hseg, hoff⟩ := h6
  have hf : Frame s s4 r.used :=
    hf1.trans (hf2.trans (hf3.trans hf4 (by omega)) (by omega)) (by omega)
  refine ⟨?_, _, rfl, h6, hf.trans (hf5.trans hf6 (by omega)) (by omega), off.arg,
    ?_, ?_, ?_, ?_⟩
  · rw [hl, map_map]
    exact map_id envp
  · omega
  · rw [hseg, hb6]
  · rw [hoff, hb6]
  · rw [hsel6, hsel5, hb6, hb5]
    have := hf6.holds (by rw [hb5]; exact htail5) (by split_ifs <;> rw [hdos] <;> omega)
    rwa [hb6, hb5] at this

end Exec
