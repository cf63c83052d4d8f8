import Dj64.Thunks.Machine

/-!
# The registers of nested calls

Every handle has one block of registers, `s_regs`.  A call from the 32-bit side leaves its registers
there; `dj64api->asm_call` takes the registers for the called code from it, and leaves there those
that the code ends with.  `do_asm_call` makes its result from `eax` and `edx`, and `dj64_asm_call`
and `dj64_asm_call_u` pass it on through an `int`.

Runs are trees, as those of `Machine`, with the contexts and the objects left out, which do not
touch the registers: what C code does next may depend on what a call returned, and the other side
may go on with what C code left.
-/

namespace Thunks.Registers

open Nat

/-- The registers of `dpmi_regs` that the library uses. -/
structure Regs where
  eax : UInt32
  ebx : UInt32
  ecx : UInt32
  edx : UInt32
  esi : UInt32
  deriving DecidableEq

def Regs.wide (r : Regs) : UInt64 := r.eax.toUInt64 ||| r.edx.toUInt64 <<< 32

/-- An assignment to an `int`, which is returned as an `uint64_t`. -/
def throughInt (x : UInt64) : UInt64 := x.toUInt32.toInt32.toInt64.toUInt64

/-- What lies outside: the libraries with user thunks, for every handle, and the value of
`ASM_CALL_ABORT`. -/
structure Outside where
  pt : ℕ → ℕ → Bool
  asmCallAbort : UInt64

/-- The thunks exist: the core ones always do. -/
def Outside.thunks (L : Outside) (h : ℕ) : Option ℕ → Bool
  | none => true
  | some libid => L.pt h libid

mutual

/-- What an activation of C code does: return `res`, of `len` bytes, leave through `dj64_asm_noret`
or call 32-bit code, which returns with registers or aborts. -/
inductive Code
  | ret (len : ℕ) (res : UInt32)
  | noret (lib : Option ℕ) (host : Host)
  | asmCall (lib : Option ℕ) (host : Host) (left : Option Regs) (k : UInt64 → Code)

/-- What the other side does: call C code with registers. -/
inductive Host
  | nil
  | call (h : ℕ) (regs : Regs) (code : Code) (rest : Ret → Regs → Host)

end

/-- How the dispatched code ends. -/
inductive Exit
  | returned (len : ℕ) (res : UInt32)
  | jumped (rc : Jump)

/-- A call of 32-bit code that returned. -/
structure Call where
  handle : ℕ
  left : Regs
  returned : UInt64
  deriving DecidableEq

/-- The blocks of the handles, and the calls that have returned. -/
structure State where
  sRegs : ℕ → Regs
  calls : List Call

def State.setRegs (s : State) (h : ℕ) (r : Regs) : State :=
  { s with sRegs := Function.update s.sRegs h r }

/-- `do_asm_call` when `dj64api->asm_call` has left its registers in the block. -/
def doAsmCall (s : State) (h : ℕ) : UInt64 := (s.sRegs h).wide

/-- `_dj64_call`: the registers that C code returned, or left as they were. -/
def dj64Call (s : State) (h : ℕ) (regs : Regs) (body : State → Exit × State) : Ret × Regs × State :=
  match body (s.setRegs h regs) with
  | (.returned len res, s) =>
    let regs := s.sRegs h
    (.ok, if len = 1 ∨ len = 2 ∨ len = 4 then { regs with eax := res } else regs, s)
  | (.jumped rc, s) => (if rc = .noret then .noret else .abort, regs, s)

mutual

/-- C code of the handle `h`. -/
def runCode (L : Outside) (h : ℕ) : Code → State → Exit × State
  | .ret len res, s => (.returned len res, s)
  | .noret lib host, s => if L.thunks h lib then (.jumped .noret, runHost L host s)
      else (.jumped .abort, s)
  | .asmCall lib host left k, s =>
    if L.thunks h lib then
      match left with
      | none => (.jumped .abort, runHost L host s)
      | some left =>
        let s := (runHost L host s).setRegs h left
        let ret := throughInt (doAsmCall s h)
        runCode L h (k ret) { s with calls := s.calls ++ [⟨h, left, ret⟩] }
    else runCode L h (k L.asmCallAbort) s

/-- The other side. -/
def runHost (L : Outside) : Host → State → State
  | .nil, s => s
  | .call h regs code rest, s =>
    let r := dj64Call s h regs (runCode L h code)
    runHost L (rest r.1 r.2.1) r.2.2

end

def boot (sRegs : ℕ → Regs) : State := ⟨sRegs, []⟩

/-! ### Results -/

/-- The result of every call is that of the registers it left, passed on through an `int`. -/
def Told (s : State) : Prop := ∀ c ∈ s.calls, c.returned = throughInt c.left.wide

theorem Told.push {s : State} (hs : Told s) (h : ℕ) (left : Regs) :
    Told { s.setRegs h left with calls := s.calls ++
      [⟨h, left, throughInt (doAsmCall (s.setRegs h left) h)⟩] } := by
  intro c hc
  rcases List.mem_append.mp hc with hc | hc
  · exact hs c hc
  · rw [List.mem_singleton.mp hc]
    simp [doAsmCall, State.setRegs]

mutual

theorem told_runCode (L : Outside) (h : ℕ) :
    ∀ (code : Code) (s : State), Told s → Told (runCode L h code s).2
  | .ret _ _, s, hs => hs
  | .noret lib host, s, hs => by
    rw [runCode]
    split_ifs
    · exact told_runHost L host s hs
    · exact hs
  | .asmCall lib host none k, s, hs => by
    rw [runCode]
    split_ifs
    · exact told_runHost L host s hs
    · exact told_runCode L h (k _) s hs
  | .asmCall lib host (some left) k, s, hs => by
    rw [runCode]
    split_ifs
    · exact told_runCode L h (k _) _ ((told_runHost L host s hs).push h left)
    · exact told_runCode L h (k _) s hs

theorem told_runHost (L : Outside) : ∀ (host : Host) (s : State), Told s → Told (runHost L host s)
  | .nil, s, hs => hs
  | .call h regs code rest, s, hs => by
    have hb := told_runCode L h code (s.setRegs h regs) hs
    rw [runHost]
    apply told_runHost L (rest _ _)
    unfold dj64Call
    revert hb
    rcases runCode L h code (s.setRegs h regs) with ⟨exit, s'⟩
    intro hb
    cases exit <;> exact hb

end

theorem toNat_wide {r : Regs} : r.wide.toNat = r.edx.toNat * 2 ^ 32 + r.eax.toNat := by
  have heax : r.eax.toNat < 2 ^ 32 := r.eax.toNat_lt
  have hedx : r.edx.toNat < 2 ^ 32 := r.edx.toNat_lt
  have hs : (r.edx.toUInt64 <<< 32).toNat = r.edx.toNat <<< 32 := by
    have hw : (32 : UInt64).toNat % 64 = 32 := by decide
    rw [UInt64.toNat_shiftLeft, UInt32.toNat_toUInt64, hw]
    exact mod_eq_of_lt (by omega)
  rw [Regs.wide, UInt64.toNat_or, hs, UInt32.toNat_toUInt64, Nat.or_comm,
    ← shiftLeft_add_eq_or_of_lt heax, shiftLeft_eq]

theorem toNat_throughInt {x : UInt64} :
    (throughInt x).toNat =
      x.toNat % 2 ^ 32 + if 2 ^ 31 ≤ x.toNat % 2 ^ 32 then 2 ^ 64 - 2 ^ 32 else 0 := by
  change ((x.toBitVec.setWidth 32).signExtend 64).toNat = _
  rw [BitVec.toNat_signExtend, BitVec.msb_eq_decide]
  simp
  omega

/-- The result fits an `int`, that is, `edx` repeats the sign of `eax`. -/
def Regs.FitsInt (r : Regs) : Prop :=
  r.edx = 0 ∧ r.eax < 0x80000000 ∨ r.edx = 0xffffffff ∧ 0x80000000 ≤ r.eax

instance (r : Regs) : Decidable r.FitsInt := inferInstanceAs (Decidable (_ ∨ _))

theorem throughInt_wide_iff {r : Regs} : throughInt r.wide = r.wide ↔ r.FitsInt := by
  have heax : r.eax.toNat < 2 ^ 32 := r.eax.toNat_lt
  rw [← UInt64.toNat_inj, toNat_throughInt, toNat_wide]
  unfold Regs.FitsInt
  rw [← UInt32.toNat_inj, ← UInt32.toNat_inj, UInt32.lt_iff_toNat_lt]
  change _ ↔ r.edx.toNat = 0 ∧ r.eax.toNat < 2 ^ 31 ∨ r.edx.toNat = 2 ^ 32 - 1 ∧
    2 ^ 31 ≤ r.eax.toNat
  split_ifs <;> omega

/-- **Calls of 32-bit code return their whole result if it fits an `int`, and only then**, whatever
happens on the other side meanwhile. -/
theorem asm_call_whole_iff (L : Outside) (sRegs : ℕ → Regs) (host : Host) {c : Call}
    (hc : c ∈ (runHost L host (boot sRegs)).calls) : c.returned = c.left.wide ↔ c.left.FitsInt := by
  have ht : Told (boot sRegs) := fun c hc => absurd hc List.not_mem_nil
  rw [told_runHost L host (boot sRegs) ht c hc]
  exact throughInt_wide_iff

def allThunks : Outside := ⟨fun _ _ => true, 1⟩

def noRegs : Regs := ⟨0, 0, 0, 0, 0⟩

/-- C code calls 32-bit code, which calls C code again before it returns `left`. -/
def reenter (left : Regs) : Host :=
  .call 0 noRegs
    (.asmCall none (.call 0 ⟨9, 9, 9, 9, 9⟩ (.asmCall (some 1) .nil (some ⟨5, 0, 0, 0, 0⟩) fun _ =>
      .ret 4 8) fun _ _ => .nil)
      (some left) fun _ => .ret 0 0)
    fun _ _ => .nil

theorem asm_call_whole_iff_seven :
    (⟨0, ⟨7, 0, 0, 0, 0⟩, 7⟩ : Call) ∈ (runHost allThunks (reenter ⟨7, 0, 0, 0, 0⟩)
      (boot fun _ => noRegs)).calls ∧
      ((7 : UInt64) = Regs.wide ⟨7, 0, 0, 0, 0⟩ ↔ Regs.FitsInt ⟨7, 0, 0, 0, 0⟩) := by
  have hc : (⟨0, ⟨7, 0, 0, 0, 0⟩, 7⟩ : Call) ∈
      (runHost allThunks (reenter ⟨7, 0, 0, 0, 0⟩) (boot fun _ => noRegs)).calls := by
        decide +kernel
  exact ⟨hc, asm_call_whole_iff allThunks _ _ hc⟩

/-- A result of `0x1000000080000000` comes back as `0xffffffff80000000`. -/
theorem asm_call_truncated : (⟨0, ⟨0x80000000, 0, 0, 0x10000000, 0⟩, 0xffffffff80000000⟩ : Call) ∈
        (runHost allThunks (reenter ⟨0x80000000, 0, 0, 0x10000000, 0⟩)
          (boot fun _ => noRegs)).calls ∧
      Regs.wide ⟨0x80000000, 0, 0, 0x10000000, 0⟩ = 0x1000000080000000 := by
  decide +kernel

end Thunks.Registers
