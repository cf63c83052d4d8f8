import Dj64.Lib.Ledger
import Dj64.Exec.Arguments

/-!
# Running an ELF file

`elfexec` reads an ELF file into a block of shared memory and has the host run it from there.  It
opens the file and allocates the block, and returns early at each step that fails.
-/

namespace Exec.Elfexec

open Ledger

/-! ### The function -/

/-- `__dpmi_regs`, the registers that are used here. -/
structure Regs where
  edi : UInt32
  esi : UInt32
  ebx : UInt32
  edx : UInt32
  ecx : UInt32
  eax : UInt32
  flags : UInt16
  deriving DecidableEq, Repr

/-- The registers after `memset`. -/
def Regs.zero : Regs := ⟨0, 0, 0, 0, 0, 0, 0⟩

def Regs.carry (regs : Regs) : Bool := regs.flags &&& 1 != 0

def setLow (e : UInt32) (x : UInt32) : UInt32 := (e &&& 0xffff0000) ||| (x &&& 0xffff)

/-- `__dpmi_shminfo`, what the host fills in. -/
structure Shminfo where
  size : UInt32
  handle : UInt32
  address : UInt32
  deriving DecidableEq, Repr

/-- An argument of `fprintf`. -/
inductive Arg where
  | int (i : ℤ)
  | str (s : Bytes)
  deriving DecidableEq, Repr

/-- The calls of `elfexec`, with those results that matter later. -/
inductive Call where
  | fprintf (format : String) (args : List Arg)
  | getVendorSpecificApiEntryPoint (id : Bytes)
  | pltcall32 (regs : Regs)
  | openFile (path : Bytes) (fd : ℤ)
  | filelength (fd : ℤ)
  | malloc32 (size : ℕ)
  | strcpy (fname : UInt32) (p : Bytes)
  | allocateSharedMemory (sizeRequested nameOffset : UInt32) (err : ℤ) (handle : UInt32)
  | free32 (fname : UInt32)
  | nearptrEnable
  | read (fd : ℤ) (address : UInt32) (len : ℤ)
  | nearptrDisable
  | close (fd : ℤ)
  | freePhysicalAddressMapping (shmi : Shminfo)
  | pltctrl32 (regs : Regs) (fn arg : ℕ)
  | upltinit32 (regs : Regs)
  | djelfRun (eid : UInt32) (argc : ℤ) (argv : List Bytes)
  | freeSharedMemory (handle : UInt32)
  deriving DecidableEq, Repr

/-- What `elfexec` finds: the fields of `_stubinfo`, `_crt0_startup_flags`, and the results of its
calls. -/
structure Host where
  stubinfoVer : UInt32
  flags : UInt32
  uplBase : UInt32
  uplSize : UInt32
  memBase : UInt32
  startupFlags : UInt32
  getVendorSpecificApiEntryPoint : ℤ
  pltcall32 : Regs → Regs
  pltctrl32 : Regs → Regs
  openFile : ℤ
  filelength : ℤ
  malloc32 : ℕ → UInt32
  allocateSharedMemory : ℤ × Shminfo
  read : ℤ
  freePhysicalAddressMapping : ℤ
  djelfRun : ℤ
  strerror : Bytes

/-- How `elfexec` ends: it returns, or an assertion fails. -/
inductive Outcome where
  | returned (ret : ℤ)
  | aborted
  deriving DecidableEq, Repr

def strrchr (s : Bytes) (c : UInt8) : Option ℕ :=
  (s.reverse.findIdx? (· == c)).map fun i => s.length - 1 - i

/-- `strrpbrk`: the index of the last occurrence of one of the characters. -/
def strrpbrk (s chars : Bytes) : Option ℕ :=
  chars.foldl (fun p0 c =>
    match strrchr s c with
    | none => p0
    | some p1 => if p0.all (· < p1) then some p1 else p0) none

def blockName (path : Bytes) : Bytes := path.drop ((strrpbrk path (text "/\\")).getD 0)

/-- The library id, `ELFEXEC_LIBID`. -/
def elfexecLibid : ℕ := 2

/-- A message to `stderr` and the return of `-1`. -/
def fails (format : String) (args : List Arg) : Outcome × List Call :=
  (.returned (-1), [.fprintf format args])

def after (calls : List Call) (r : Outcome × List Call) : Outcome × List Call := (r.1, calls ++ r.2)

/-- The end of the function: the image is run. -/
def runImage (h : Host) (regs : Regs) (shmi : Shminfo) (argc : ℤ) (argv : List Bytes) :
    Outcome × List Call :=
  let eid := regs.eax
  let regs := { regs with ebx := h.uplBase, ecx := h.uplSize, edx := h.memBase }
  let ctrl := h.pltctrl32 regs
  after (.pltctrl32 regs 2 elfexecLibid ::
      if ctrl.carry then [] else [.upltinit32 { ctrl with ebx := UInt32.ofNat elfexecLibid }])
    (.returned (if h.djelfRun ≠ 0 then 65535 else 0),
      [.djelfRun eid argc argv, .freeSharedMemory shmi.handle])

/-- The registers of the call that makes an image of the block. -/
def execRegs (regs : Regs) (shmi : Shminfo) : Regs :=
  { regs with
    ebx := (2 : UInt32) ||| (UInt32.ofNat elfexecLibid <<< 16)
    edi := setLow regs.edi (shmi.handle &&& 0xffff)
    esi := setLow regs.esi (shmi.handle >>> 16) }

/-- The part of the function after the file is in the block. -/
def execImage (h : Host) (regs : Regs) (shmi : Shminfo) (argc : ℤ) (argv : List Bytes) :
    Outcome × List Call :=
  after [.freePhysicalAddressMapping shmi]
    (if h.freePhysicalAddressMapping ≠ 0 then (.aborted, [])
    else
      let regs := execRegs regs shmi
      after [.pltcall32 regs]
        (if (h.pltcall32 regs).carry then (.returned (-1), [])
        else runImage h (h.pltcall32 regs) shmi argc argv))

/-- The part of the function after the block is there. -/
def readImage (h : Host) (regs : Regs) (path : Bytes) (len : ℤ) (shmi : Shminfo) (argc : ℤ)
    (argv : List Bytes) : Outcome × List Call :=
  let enDis := h.startupFlags &&& 0x80 == 0
  after ((if enDis then [.nearptrEnable] else []) ++ [.read h.openFile shmi.address len] ++
      (if enDis then [.nearptrDisable] else []) ++ [.close h.openFile])
    (if h.read = -1 then fails "error reading %s: %s\n" [.str path, .str h.strerror]
    else if h.read ≠ len then fails "read returned %i, need %i\n" [.int h.read, .int len]
    else execImage h regs shmi argc argv)

/-- The part of the function after the file is open. -/
def loadImage (h : Host) (regs : Regs) (path : Bytes) (argc : ℤ) (argv : List Bytes) :
    Outcome × List Call :=
  let len := h.filelength
  let p := blockName path
  let fname := h.malloc32 (p.length + 1)
  let (err, shmi) := h.allocateSharedMemory
  after [.filelength h.openFile, .malloc32 (p.length + 1), .strcpy fname p,
      .allocateSharedMemory (UInt32.ofInt len) fname err shmi.handle, .free32 fname]
    (if err ≠ 0 then after [.close h.openFile] (fails "Can't allocate shmem for %s\n" [.str p])
    else readImage h regs path len shmi argc argv)

def elfexec (h : Host) (path : Bytes) (argc : ℤ) (argv : List Bytes) : Outcome × List Call :=
  if (h.stubinfoVer >>> 16) &&& 0xff < 4 then
    fails "unsupported stub version %i\n" [.int h.stubinfoVer.toInt32.toInt]
  else if h.flags &&& 0x40 ≠ 0 then fails "unsupported due to static linking\n" []
  else
    after [.getVendorSpecificApiEntryPoint (text "DJ64")]
      (if h.getVendorSpecificApiEntryPoint ≠ 0 then fails "DJ64 support missing\n" []
      else
        let regs := { Regs.zero with ebx := 3 }
        after [.pltcall32 regs]
          (let regs := h.pltcall32 regs
          if regs.eax < 3 then fails "unsupported DJ64 version %i\n" [.int regs.eax.toInt32.toInt]
          else
            after [.openFile path h.openFile]
              (if h.openFile = -1 then fails "failed to open %s: %s\n" [.str path, .str h.strerror]
              else loadImage h regs path argc argv)))

/-! ### What it takes and gives back -/

/-- A file descriptor, or a block of shared memory. -/
inductive Resource where
  | fd (fd : ℤ)
  | shm (handle : UInt32)
  deriving DecidableEq, Repr

/-- The calls that take something, and those that give it back. -/
def entry : Call → Option (Entry Resource)
  | .openFile _ fd => if fd = -1 then none else some (.take (.fd fd))
  | .close fd => some (.give (.fd fd))
  | .allocateSharedMemory _ _ err handle => if err = 0 then some (.take (.shm handle)) else none
  | .freeSharedMemory handle => some (.give (.shm handle))
  | _ => none

def entries (r : Outcome × List Call) : List (Entry Resource) := r.2.filterMap entry

theorem entries_after {calls : List Call} {r : Outcome × List Call} :
    entries (after calls r) = calls.filterMap entry ++ entries r :=
  List.filterMap_append

theorem entries_fails {format : String} {args : List Arg} : entries (fails format args) = [] := rfl

def versionRegs (h : Host) : Regs := h.pltcall32 { Regs.zero with ebx := 3 }

/-- The function opens its file. -/
def Opens (h : Host) : Prop :=
  ¬ (h.stubinfoVer >>> 16) &&& 0xff < 4 ∧ h.flags &&& 0x40 = 0 ∧
    h.getVendorSpecificApiEntryPoint = 0 ∧ ¬ (versionRegs h).eax < 3 ∧ h.openFile ≠ -1

def Allocates (h : Host) : Prop := Opens h ∧ h.allocateSharedMemory.1 = 0

def Reads (h : Host) : Prop := h.read ≠ -1 ∧ h.read = h.filelength

def Unmaps (h : Host) : Prop := h.freePhysicalAddressMapping = 0

def Accepts (h : Host) : Prop :=
  (h.pltcall32 (execRegs (versionRegs h) h.allocateSharedMemory.2)).carry = false

instance (h : Host) : Decidable (Opens h) := by unfold Opens; infer_instance
instance (h : Host) : Decidable (Allocates h) := by unfold Allocates; infer_instance
instance (h : Host) : Decidable (Reads h) := by unfold Reads; infer_instance
instance (h : Host) : Decidable (Unmaps h) := by unfold Unmaps; infer_instance
instance (h : Host) : Decidable (Accepts h) := by unfold Accepts; infer_instance

section

variable (h : Host) (path : Bytes) (argc : ℤ) (argv : List Bytes)

theorem runImage_entries {regs : Regs} {shmi : Shminfo} :
    entries (runImage h regs shmi argc argv) = [.give (.shm shmi.handle)] := by
  rw [runImage]
  split_ifs <;> rfl

theorem execImage_entries :
    entries (execImage h (versionRegs h) h.allocateSharedMemory.2 argc argv) =
      if Unmaps h ∧ Accepts h then [.give (.shm h.allocateSharedMemory.2.handle)] else [] := by
  rw [execImage, entries_after]
  by_cases hu : h.freePhysicalAddressMapping = 0
  · rw [if_neg (not_not.mpr hu), entries_after]
    cases hc : (h.pltcall32 (execRegs (versionRegs h) h.allocateSharedMemory.2)).carry with
    | true =>
      rw [if_pos rfl, if_neg fun hand => Bool.noConfusion (hc.symm.trans hand.2)]
      rfl
    | false =>
      rw [if_neg Bool.false_ne_true, runImage_entries, if_pos ⟨hu, hc⟩]
      rfl
  · rw [if_pos hu, if_neg fun hand => hu hand.1]
    rfl

/-- The file is closed as soon as it is read. -/
theorem readImage_entries :
    entries (readImage h (versionRegs h) path h.filelength h.allocateSharedMemory.2 argc argv) =
      .give (.fd h.openFile) ::
        if Reads h ∧ Unmaps h ∧ Accepts h then [.give (.shm h.allocateSharedMemory.2.handle)]
        else [] := by
  have hc : ∀ enDis : Bool, ((if enDis then [Call.nearptrEnable] else []) ++
      [Call.read h.openFile h.allocateSharedMemory.2.address h.filelength] ++
      (if enDis then [Call.nearptrDisable] else []) ++ [Call.close h.openFile]).filterMap entry =
        [.give (.fd h.openFile)] := by
    intro enDis
    cases enDis <;> rfl
  rw [readImage, entries_after, hc, List.singleton_append]
  congr 1
  by_cases he : h.read = -1
  · rw [if_pos he, if_neg fun hand => hand.1.1 he]
    rfl
  rw [if_neg he]
  by_cases hlen : h.read = h.filelength
  · rw [if_neg (not_not.mpr hlen), execImage_entries]
    exact if_congr (and_iff_right (show Reads h from ⟨he, hlen⟩)).symm rfl rfl
  · rw [if_pos hlen, if_neg fun hand => hlen hand.1.2]
    rfl

/-- **What `elfexec` takes and gives back**, in order. -/
theorem elfexec_entries : entries (elfexec h path argc argv) =
      if Opens h then
        .take (.fd h.openFile) ::
          if Allocates h then
            .take (.shm h.allocateSharedMemory.2.handle) :: .give (.fd h.openFile) ::
              if Reads h ∧ Unmaps h ∧ Accepts h then
                [.give (.shm h.allocateSharedMemory.2.handle)]
              else []
          else [.give (.fd h.openFile)]
      else [] := by
  rw [elfexec]
  by_cases hver : (h.stubinfoVer >>> 16) &&& 0xff < 4
  · rw [if_pos hver, if_neg fun hand => hand.1 hver, entries_fails]
  rw [if_neg hver]
  by_cases hf : h.flags &&& 0x40 = 0
  swap
  · rw [if_pos hf, if_neg fun hand => hf hand.2.1, entries_fails]
  rw [if_neg (not_not.mpr hf), entries_after]
  by_cases hapi : h.getVendorSpecificApiEntryPoint = 0
  swap
  · rw [if_pos hapi, if_neg fun hand => hapi hand.2.2.1]
    rfl
  rw [if_neg (not_not.mpr hapi), entries_after]
  change _ ++ (_ ++ entries (if (versionRegs h).eax < 3 then _ else _)) = _
  by_cases heax : (versionRegs h).eax < 3
  · rw [if_pos heax, if_neg fun hand => hand.2.2.2.1 heax]
    rfl
  rw [if_neg heax, entries_after]
  by_cases ho : h.openFile = -1
  · rw [if_pos ho, if_neg fun hand => hand.2.2.2.2 ho, ho]
    rfl
  have hop : Opens h := ⟨hver, hf, hapi, heax, ho⟩
  rw [if_neg ho, if_pos hop, loadImage, entries_after]
  by_cases ha : h.allocateSharedMemory.1 = 0
  · rw [if_neg (not_not.mpr ha), if_pos ⟨hop, ha⟩]
    change _ ++ (_ ++ (_ ++ (_ ++ entries (readImage h (versionRegs h) path h.filelength
      h.allocateSharedMemory.2 argc argv)))) = _
    rw [readImage_entries]
    simp [List.filterMap_cons, entry, ho, ha]
  · rw [if_pos ha, if_neg fun hand => ha hand.2, entries_after, entries_fails]
    simp [List.filterMap_cons, entry, ho, ha]

theorem runImage_returns (regs : Regs) (shmi : Shminfo) :
    (runImage h regs shmi argc argv).1 ≠ .aborted := nofun

/-- The assertion is reached with the file in the block. -/
theorem elfexec_aborted_iff :
    (elfexec h path argc argv).1 = .aborted ↔ Allocates h ∧ Reads h ∧ ¬ Unmaps h := by
  have hex : ∀ regs shmi, (execImage h regs shmi argc argv).1 = .aborted ↔ ¬ Unmaps h := by
    intro regs shmi
    rw [execImage]
    simp only [after]
    split_ifs with hu hc
    · exact iff_of_true rfl hu
    · exact iff_of_false nofun hu
    · exact iff_of_false (runImage_returns h argc argv (h.pltcall32 (execRegs regs shmi)) shmi) hu
  have hr : ∀ regs shmi,
      (readImage h regs path h.filelength shmi argc argv).1 = .aborted ↔ Reads h ∧ ¬ Unmaps h := by
    intro regs shmi
    rw [readImage]
    simp only [after]
    split_ifs with he hlen
    · exact iff_of_false nofun fun hand => hand.1.1 he
    · exact iff_of_false nofun fun hand => hlen hand.1.2
    · rw [hex]
      exact (and_iff_right ⟨he, not_not.mp hlen⟩).symm
  rw [elfexec, Allocates, Opens]
  simp only [after, loadImage]
  split_ifs with hver hf hapi heax ho ha
  · exact iff_of_false nofun fun hand => hand.1.1.1 hver
  · exact iff_of_false nofun fun hand => hf hand.1.1.2.1
  · exact iff_of_false nofun fun hand => hapi hand.1.1.2.2.1
  · exact iff_of_false nofun fun hand => hand.1.1.2.2.2.1 heax
  · exact iff_of_false nofun fun hand => hand.1.1.2.2.2.2 ho
  · exact iff_of_false nofun fun hand => ha hand.1.2
  · rw [hr]
    exact (and_iff_right ⟨⟨hver, not_not.mp hf, not_not.mp hapi, heax, ho⟩, not_not.mp ha⟩).symm

end

/-- **Files and blocks.** Whenever `elfexec` returns it has closed the file it opened and freed the
block it allocated, each once, exactly if it gets no block, or reads the whole file and then stops
at the assertion or has the image accepted by the host. -/
theorem elfexec_releases_iff (h : Host) (path : Bytes) (argc : ℤ) (argv : List Bytes) :
    (∀ ret, (elfexec h path argc argv).1 = .returned ret →
      Settled (entries (elfexec h path argc argv))) ↔
      (Allocates h → Reads h ∧ (Unmaps h → Accepts h)) := by
  have hr : (∀ ret, (elfexec h path argc argv).1 = .returned ret →
      Settled (entries (elfexec h path argc argv))) ↔ ((elfexec h path argc argv).1 = .aborted ∨
          Settled (entries (elfexec h path argc argv))) := by
    cases (elfexec h path argc argv).1 <;> simp
  rw [hr, elfexec_aborted_iff, elfexec_entries]
  by_cases ho : Opens h
  swap
  · rw [if_neg ho]
    exact iff_of_true (.inr settled_nil) fun ha => absurd ha.1 ho
  rw [if_pos ho]
  by_cases ha : Allocates h
  swap
  · rw [if_neg ha]
    exact iff_of_true (.inr (settled_pair _)) fun h => absurd h ha
  rw [if_pos ha]
  by_cases hd : Reads h ∧ Unmaps h ∧ Accepts h
  · rw [if_pos hd]
    refine iff_of_true (.inr ?_) fun _ => ⟨hd.1, fun _ => hd.2.2⟩
    simp [Settled, settle]
  rw [if_neg hd]
  -- The file is closed, and the block is held at the end.
  have hh : ¬ Settled [Entry.take (Resource.fd h.openFile),
      .take (.shm h.allocateSharedMemory.2.handle), .give (.fd h.openFile)] :=
    not_settled_of_settle [.shm h.allocateSharedMemory.2.handle] (by simp [settle])
      (List.cons_ne_nil _ _)
  tauto

/-- A host that gives descriptor 5 and block 7, for a file of 100 bytes of which `read` bytes are
read; the second call sets the carry flag if the image is refused. -/
def host (read : ℤ) (refuses : Bool) : Host where
  stubinfoVer := 0x40000
  flags := 0
  uplBase := 0
  uplSize := 0
  memBase := 0
  startupFlags := 0
  getVendorSpecificApiEntryPoint := 0
  pltcall32 regs := { regs with eax := 3, flags := if refuses && regs.ebx != 3 then 1 else 0 }
  pltctrl32 regs := regs
  openFile := 5
  filelength := 100
  malloc32 _ := 4096
  allocateSharedMemory := (0, ⟨100, 7, 8192⟩)
  read := read
  freePhysicalAddressMapping := 0
  djelfRun := 0
  strerror := []

/-- After a failed or short `read`, and if the image is refused, `elfexec` returns `-1` and the
block is not freed. -/
theorem elfexec_leaks : [host (-1) false, host 40 false, host 100 true].all fun h => decide (
      (elfexec h (text "/a.elf") 0 []).1 = .returned (-1) ∧
      entries (elfexec h (text "/a.elf") 0 []) = [.take (.fd 5), .take (.shm 7), .give (.fd 5)] ∧
      ¬ Settled (entries (elfexec h (text "/a.elf") 0 []))) := by
  decide +kernel

end Exec.Elfexec
