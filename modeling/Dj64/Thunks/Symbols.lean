import Dj64.Lib.Ledger
import Dj64.Thunks.Machine

/-!
# Loading the symbols of an image

`dj64_ctrl` opens the ELF images of a program and fills in the tables of its asm symbols and of its
thunks.  A request opens one image or two, one after the other in the same variable, and a symbol
that is missing ends it at any entry of any table.
-/

namespace Thunks.Symbols

open Outcomes Ledger List Nat Option Function

/-! ### Tables and requests -/

/-- `struct athunks`: the names of `num` symbols and the table of their values. -/
structure Athunks where
  names : List String
  tab : List UInt32
  length_tab : tab.length = names.length

def Athunks.set (t : Athunks) (i : ℕ) (v : UInt32) : Athunks :=
  ⟨t.names, t.tab.set i v, by rw [length_set, t.length_tab]⟩

/-- The tables of asm symbols, and those of pthunks. -/
inductive Kind where
  | asm
  | plt
  deriving DecidableEq, Repr

/-- A `struct athunks`: the one in `struct udisp`, or one that was registered. -/
inductive Ref where
  | core
  | registered (k : ℕ)
  deriving DecidableEq, Repr

abbrev Table := Kind × Ref

def maxDisps : ℕ := 5

/-- `struct udisp`: the tables of each library id, among which `DJ64_INIT_FN` has put the core
tables. -/
structure Udisp where
  athunks : ℕ → Option Ref
  pthunks : ℕ → Option Ref
  athunks_zero : athunks 0 = some .core
  pthunks_zero : pthunks 0 = some .core

/-- The registers of a request. -/
structure Regs where
  eax : UInt32
  ebx : UInt32
  ecx : UInt32
  edx : UInt32
  esi : UInt32
  deriving DecidableEq, Repr

/-- The calls of a request, with their results. -/
inductive Call where
  | openElf (elf : UInt64) (size : UInt32) (eh : UInt64)
  | openDyn (handle : ℕ) (cplFd : UInt32) (eh : UInt64)
  | elfparse64H (handle : ℕ) (elf : UInt64) (esize : UInt32)
  | elfparse64 (fd : UInt32) (elf : UInt64) (esize : UInt32)
  | reloc (eh : UInt64) (base size addr : UInt32) (ret : ℤ) (entry : UInt32)
  | getsym (eh : UInt64) (name : String) (off : UInt32)
  | close (eh : UInt64)
  | versionMismatch (ver : ℤ)
  | exit (status : ℤ)
  | notResolved (name : String)
  | setStartupFlags (addr : UInt32)
  deriving DecidableEq, Repr

/-- The state of a request. -/
structure State where
  tables : Table → Athunks
  cs : UInt32
  regs : Regs
  calls : List Call

/-- The results of the host's functions, each by the number of calls made before. -/
structure Ops where
  addr2ptr : UInt32 → UInt64
  openElf : ℕ → UInt64
  openDyn : ℕ → UInt64
  elfparse64H : ℕ → UInt64 × UInt32
  elfparse64 : ℕ → UInt64 × UInt32
  reloc : ℕ → ℤ × UInt32
  getsym : ℕ → UInt32

abbrev M := EStateM Unit State

def call {α : Type} (result : ℕ → α) (c : α → Call) : M α := fun s =>
  .ok (result s.calls.length) { s with calls := s.calls ++ [c (result s.calls.length)] }

def say (c : Call) : M Unit := call (fun _ => ()) fun _ => c

def setTab (t : Table) (i : ℕ) (v : UInt32) : M Unit :=
  modify fun s => { s with tables := update s.tables t ((s.tables t).set i v) }

/-- The loop of `process_athunks`, from entry `i` on. -/
def athunksLoop (ops : Ops) (t : Table) (memBase : UInt32) (eh : UInt64) : List String → ℕ → M ℤ
  | [], _ => pure 0
  | name :: names, i => do
    let off ← call ops.getsym (.getsym eh name)
    if off ≠ 0 then do
      setTab t i (memBase + off)
      athunksLoop ops t memBase eh names (i + 1)
    else do
      say (.notResolved name)
      pure (-1)

def processAthunks (ops : Ops) (t : Table) (memBase : UInt32) (eh : UInt64) : M ℤ := fun s =>
  athunksLoop ops t memBase eh (s.tables t).names 0 s

/-- The loop of `process_pthunks`, from entry `i` on: what is not resolved is stored too. -/
def pthunksLoop (ops : Ops) (t : Table) (eh : UInt64) : List String → ℕ → M ℤ
  | [], _ => pure 0
  | name :: names, i => do
    let off ← call ops.getsym (.getsym eh name)
    setTab t i off
    if off = 0 then do
      say (.notResolved name)
      pure (-1)
    else pthunksLoop ops t eh names (i + 1)

def processPthunks (ops : Ops) (t : Table) (eh : UInt64) : M ℤ := fun s =>
  pthunksLoop ops t eh (s.tables t).names 0 s

/-- The pass over a table, by its kind. -/
def process (ops : Ops) (memBase : UInt32) (eh : UInt64) (t : Table) : M ℤ :=
  match t.1 with
  | .asm => processAthunks ops t memBase eh
  | .plt => processPthunks ops t eh

/-- Passes over tables; the first one that fails goes to `err`. -/
def processTables (ops : Ops) (memBase : UInt32) (eh : UInt64) : List Table → M ℤ → M ℤ
  | [], next => next
  | t :: ts, next => do
    let ret ← process ops memBase eh t
    if ret ≠ 0 then do
      say (.close eh)
      pure (-1)
    else processTables ops memBase eh ts next

def doThunkGet (name : String) : List String → List UInt32 → UInt32
  | n :: names, v :: tab => if n = name then v else doThunkGet name names tab
  | _, _ => 0xffffffff

/-- The loop of `djthunk_get_h` over the tables of the handle. -/
def thunkGetLoop (tables : Table → Athunks) (name : String) : List (Option Ref) → UInt32 → UInt32
  | [], ret => ret
  | none :: refs, ret => thunkGetLoop tables name refs ret
  | some r :: refs, _ =>
    let ret := doThunkGet name (tables (.asm, r)).names (tables (.asm, r)).tab
    if ret ≠ 0xffffffff then ret else thunkGetLoop tables name refs ret

def Udisp.refs (u : Udisp) : List (Option Ref) := (range maxDisps).map u.athunks

/-- `djthunk_get_h`, for a handle that exists; `none` is its failed assertion. -/
def djthunkGetH (u : Udisp) (tables : Table → Athunks) (name : String) : Option UInt32 :=
  let ret := thunkGetLoop tables name u.refs 0xffffffff
  if ret = 0xffffffff then none else some ret

def doEarlyInit (u : Udisp) : M Unit := do
  let s ← get
  match djthunkGetH u s.tables "__crt0_startup_flags" with
  | none => throw ()
  | some addr => say (.setStartupFlags addr)

def coreTables : List Table := [(.asm, .core), (.plt, .core)]

def userTables (u : Udisp) (libid : ℕ) : List Table :=
  (u.athunks libid).toList.map (Prod.mk .asm) ++ (u.pthunks libid).toList.map (Prod.mk .plt)

/-- The flag `0x4000`. -/
def Regs.haveCore (regs : Regs) : Bool := regs.eax &&& 0x4000 != 0

/-- The flag `SIFLG_SPLITPL`. -/
def Regs.splitPl (regs : Regs) : Bool := regs.eax &&& 0x20000 != 0

def Regs.haveUpl (regs : Regs) : Bool := !regs.haveCore || !regs.splitPl

/-- The end of `DL_SET_SYMTAB`: the core image, if it has not been there yet. -/
def setSymtabCore (ops : Ops) (u : Udisp) (handle : ℕ) (regs : Regs) : M ℤ :=
  if regs.haveCore then do
    doEarlyInit u
    pure 0
  else if regs.esi = 0xffffffff then pure (-1)
  else do
    let eh ← call ops.openDyn (.openDyn handle regs.esi)
    if eh = 0 then pure (-1)
    else
      processTables ops regs.edx eh coreTables do
        say (.close eh)
        doEarlyInit u
        pure 0

def setSymtab (ops : Ops) (u : Udisp) (handle libid : ℕ) (esi : UInt32) (regs : Regs) : M ℤ := do
  modify fun s => { s with cs := esi }
  if regs.ebx ≠ 0 then do
    let eh ← call ops.openElf (.openElf (ops.addr2ptr regs.ebx) regs.ecx)
    if eh = 0 then pure (-1)
    else
      processTables ops regs.edx eh
        ((if regs.haveCore then coreTables else []) ++ if regs.haveUpl then
          userTables u libid else []) do
          say (.close eh)
          setSymtabCore ops u handle regs
  else if regs.haveCore then pure (-1)
  else setSymtabCore ops u handle regs

/-- `DL_ELFLOAD` and `DL_ELFLOAD_FD`, from the parsed file on. -/
def elfload (ops : Ops) (u : Udisp) (libid : ℕ) (regs : Regs) (parse : M (UInt64 × UInt32)) :
    M ℤ := do
  let (elf, esize) ← parse
  if elf = 0 then pure (-1)
  else do
    let eh ← call ops.openElf (.openElf elf esize)
    if eh = 0 then pure (-1)
    else do
      let (ret, entry) ← call ops.reloc fun r =>
        .reloc eh (regs.edx + regs.ebx) regs.ecx regs.ebx r.1 r.2
      if ret ≠ 0 then do
        say (.close eh)
        pure (-1)
      else
        processTables ops regs.edx eh (userTables u libid) do
          say (.close eh)
          modify fun s => { s with regs := { s.regs with eax := entry } }
          pure 0

/-- The functions of `dj64_ctrl`. -/
inductive Fn where
  | setSymtab
  | elfload
  | elfloadFd
  | other
  deriving DecidableEq, Repr

def dlApiVer : ℤ := 1

def dj64Ctrl (ops : Ops) (u : Udisp) (handle : ℕ) (libid : ℤ) (fn : Fn) (esi : UInt32) : M ℤ := do
  let ver := libid / 256
  let lib := (libid % 256).toNat
  if maxDisps ≤ lib then throw ()
  else if maxHandles ≤ handle then throw ()
  else if ver ≠ dlApiVer then do
    say (.versionMismatch ver)
    if ver = 0 then do
      say (.exit 1)
      pure (-1)
    else pure (-1)
  else do
    let s ← get
    match fn with
    | .setSymtab => setSymtab ops u handle lib esi s.regs
    | .elfload =>
      elfload ops u lib s.regs (call ops.elfparse64H fun r => .elfparse64H handle r.1 r.2)
    | .elfloadFd =>
      elfload ops u lib s.regs (call ops.elfparse64 fun r => .elfparse64 s.regs.eax r.1 r.2)
    | .other => pure (-1)

/-! ### Passes over tables -/

/-- The calls that obtain a handle, and those that close one. -/
def entry : Call → Option (Entry UInt64)
  | .openElf _ _ eh => if eh = 0 then none else some (.take eh)
  | .openDyn _ _ eh => if eh = 0 then none else some (.take eh)
  | .close eh => some (.give eh)
  | _ => none

def State.entries (s : State) : List (Entry UInt64) := s.calls.filterMap entry

/-- What is added to the symbols in a table. -/
def base (memBase : UInt32) : Kind → UInt32
  | .asm => memBase
  | .plt => 0

/-- The first `n` entries of a table come from the symbols of their names: each is the value that
`getsym` has returned for its name, which is not zero, and for an asm table `mem_base` is added. -/
def LoadedTo (memBase : UInt32) (eh : UInt64) (s : State) (t : Table) (n : ℕ) : Prop :=
  ∀ i < n, ∀ name, (s.tables t).names[i]? = some name →
    ∃ off, off ≠ 0 ∧ .getsym eh name off ∈ s.calls ∧
      (s.tables t).tab[i]? = some (base memBase t.1 + off)

def Loaded (memBase : UInt32) (eh : UInt64) (s : State) (t : Table) : Prop :=
  LoadedTo memBase eh s t (s.tables t).names.length

/-- What passes over some tables leave as it is: the other tables, all names, the registers, and the
handles. -/
structure Pass (ts : List Table) (s s' : State) : Prop where
  calls : ∃ l, s'.calls = s.calls ++ l ∧ l.filterMap entry = []
  tables : ∀ t ∉ ts, s'.tables t = s.tables t
  names : ∀ t, (s'.tables t).names = (s.tables t).names
  regs : s'.regs = s.regs

section

variable {ops : Ops} {memBase off v esi : UInt32} {eh : UInt64} {t t' : Table} {ts ts' : List Table}
    {s s' s'' : State}

theorem Pass.refl (ts : List Table) (s : State) : Pass ts s s :=
  ⟨⟨[], (append_nil _).symm, rfl⟩, fun _ _ => rfl, fun _ => rfl, rfl⟩

variable {c : Call}

section

variable (h : Pass ts s s')
include h

theorem Pass.mem (hc : c ∈ s.calls) : c ∈ s'.calls := by
  obtain ⟨l, hl, -⟩ := h.calls
  rw [hl]
  exact mem_append_left l hc

theorem Pass.entries : s'.entries = s.entries := by
  obtain ⟨l, hl, hnil⟩ := h.calls
  rw [State.entries, hl, filterMap_append, hnil, append_nil, State.entries]

theorem Pass.trans (h' : Pass ts s' s'') : Pass ts s s'' where
  calls := by
    obtain ⟨l, hl, hnil⟩ := h.calls
    obtain ⟨l', hl', hn'⟩ := h'.calls
    refine ⟨l ++ l', by rw [hl', hl, append_assoc], ?_⟩
    rw [filterMap_append, hnil, hn']
    rfl
  tables t ht := by rw [h'.tables t ht, h.tables t ht]
  names t := by rw [h'.names, h.names]
  regs := by rw [h'.regs, h.regs]

theorem Pass.mono (hsub : ts ⊆ ts') : Pass ts' s s' :=
  ⟨h.calls, fun t ht => h.tables t fun hmem => ht (hsub hmem), h.names, h.regs⟩

/-- Calls are only added, names stay, and so do the tables that are not listed. -/
structure Keeps (ts : List Table) (s s' : State) : Prop where
  mem : ∀ c ∈ s.calls, c ∈ s'.calls
  tables : ∀ t ∉ ts, s'.tables t = s.tables t
  names : ∀ t, (s'.tables t).names = (s.tables t).names

theorem Pass.keeps : Keeps ts s s' := ⟨fun _ => h.mem, h.tables, h.names⟩

end

theorem Keeps.trans (h : Keeps ts s s') (h' : Keeps ts s' s'') : Keeps ts s s'' where
  mem c hc := h'.mem c (h.mem c hc)
  tables t ht := (h'.tables t ht).trans (h.tables t ht)
  names t := (h'.names t).trans (h.names t)

theorem LoadedTo.of_keeps {n : ℕ} (h : LoadedTo memBase eh s t n) (hk : Keeps ts s s')
    (ht : t ∉ ts) : LoadedTo memBase eh s' t n := by
  rw [LoadedTo, hk.tables t ht]
  intro i hi name hn
  obtain ⟨off, hne, hmem, htab⟩ := h i hi name hn
  exact ⟨off, hne, hk.mem _ hmem, htab⟩

theorem Loaded.of_keeps (h : Loaded memBase eh s t) (hk : Keeps ts s s') (ht : t ∉ ts) :
    Loaded memBase eh s' t := by
  rw [Loaded, hk.tables t ht]
  exact LoadedTo.of_keeps h hk ht

def State.add (s : State) (c : Call) : State := { s with calls := s.calls ++ [c] }

theorem pass_add (hc : entry c = none) : Pass ts s (s.add c) where
  calls := ⟨[c], rfl, by rw [filterMap_cons, hc]; rfl⟩
  tables _ _ := rfl
  names _ := rfl
  regs := rfl

theorem keeps_add (c : Call) (s : State) : Keeps ts s (s.add c) :=
  ⟨fun _ hc => mem_append_left [c] hc, fun _ _ => rfl, fun _ => rfl⟩

theorem entries_add : (s.add c).entries = s.entries ++ [c].filterMap entry :=
  filterMap_append

def State.put (s : State) (t : Table) (i : ℕ) (v : UInt32) : State :=
  { s with tables := update s.tables t ((s.tables t).set i v) }

theorem put_self (s : State) (t : Table) (i : ℕ) (v : UInt32) :
    (s.put t i v).tables t = (s.tables t).set i v := update_self ..

theorem put_of_ne (s : State) (h : t' ≠ t) (i : ℕ) (v : UInt32) :
    (s.put t i v).tables t' = s.tables t' := update_of_ne h ..

theorem pass_put (t : Table) {i : ℕ} : Pass [t] s (s.put t i v) where
  calls := ⟨[], (append_nil _).symm, rfl⟩
  tables _ ht' := put_of_ne s (fun h => ht' (mem_singleton.mpr h)) i v
  names t' := by
    by_cases h : t' = t
    · rw [h, put_self]
      rfl
    · rw [put_of_ne s h]
  regs := rfl

variable {i m n : ℕ} {name : String} {α : Type} {l l' : List α} {a : α}

theorem LoadedTo.put (h : LoadedTo memBase eh s t i)
    (hn : (s.tables t).names[i]? = some name) (hne : off ≠ 0)
    (hmem : .getsym eh name off ∈ s.calls) :
    LoadedTo memBase eh (s.put t i (base memBase t.1 + off)) t (i + 1) := by
  intro j hj name' hn'
  rw [put_self] at hn' ⊢
  rcases Nat.lt_succ_iff_lt_or_eq.mp hj with hlt | rfl
  · obtain ⟨off', hne', hm', ht'⟩ := h j hlt name' hn'
    refine ⟨off', hne', hm', ?_⟩
    rw [Athunks.set, getElem?_set_ne (ne_of_gt hlt)]
    exact ht'
  obtain rfl : name = name' := some.inj (hn.symm.trans hn')
  refine ⟨off, hne, hmem, ?_⟩
  have hlen : j < (s.tables t).tab.length := by
    rw [(s.tables t).length_tab]
    exact (List.getElem?_eq_some_iff.mp hn).1
  exact getElem?_set_self hlen

theorem LoadedTo.mono (h : LoadedTo memBase eh s t n) (hmn : m ≤ n) :
    LoadedTo memBase eh s t m := fun i hi => h i (hi.trans_le hmn)

theorem getElem?_of_drop (h : l.drop i = a :: l') : l[i]? = some a := by
  rw [← add_zero i, ← getElem?_drop, h]
  rfl

theorem drop_succ_of_drop (h : l.drop i = a :: l') : l.drop (i + 1) = l' := by
  rw [← drop_drop, h]
  rfl

variable {α β : Type} {E : Unit → State → Prop} {R : β → State → Prop} {f : Unit → M β}
  {names : List String}

theorem ends_call {result : ℕ → α} {c : α → Call} {f : α → M β}
    (h : ∀ a, Ends E R (f a (s.add (c a)))) : Ends E R ((call result c >>= f) s) :=
  h (result s.calls.length)

theorem ends_say (h : Ends E R (f () (s.add c))) : Ends E R ((say c >>= f) s) := h

theorem ends_setTab (h : Ends E R (f () (s.put t i v))) :
    Ends E R ((setTab t i v >>= f) s) := h

/-- The state of a pass before entry `i`. -/
structure At (memBase : UInt32) (eh : UInt64) (t : Table) (s s' : State) (i : ℕ) : Prop where
  pass : Pass [t] s s'
  loaded : LoadedTo memBase eh s' t i

theorem At.start (s : State) : At memBase eh t s s 0 :=
  ⟨Pass.refl _ _, fun _ hi => absurd hi (not_lt_zero _)⟩

theorem At.next (h : At memBase eh t s s' i)
    (hn : (s'.tables t).names[i]? = some name) (hne : off ≠ 0) :
    At memBase eh t s ((s'.add (.getsym eh name off)).put t i (base memBase t.1 + off))
    (i + 1) where
  pass := h.pass.trans ((pass_add rfl).trans (pass_put t))
  loaded := by
    have hadd : LoadedTo memBase eh (s'.add (.getsym eh name off)) t i :=
      h.loaded.of_keeps (pass_add rfl).keeps not_mem_nil
    exact hadd.put hn hne (mem_append_right _ (mem_singleton_self _))

theorem At.done (h : At memBase eh t s s' i) (hd : (s'.tables t).names.drop i = []) :
    Loaded memBase eh s' t :=
  h.loaded.mono (drop_eq_nil_iff.mp hd)

def Passed (memBase : UInt32) (eh : UInt64) (t : Table) (s : State) (ret : ℤ) (s' : State) : Prop :=
  Pass [t] s s' ∧ (ret = 0 → Loaded memBase eh s' t)

theorem athunksLoop_ends (ht : t.1 = .asm)
    (h : At memBase eh t s s' i) (hd : (s'.tables t).names.drop i = names) :
    Ends (fun _ _ => False) (Passed memBase eh t s) (athunksLoop ops t memBase eh names i s') := by
  induction names generalizing i s' with
  | nil => exact ends_pure ⟨h.pass, fun _ => h.done hd⟩
  | cons name names ih =>
    apply ends_call
    intro off
    by_cases hoff : off = 0
    · rw [if_neg (not_not.mpr hoff)]
      apply ends_say
      refine ends_pure ⟨h.pass.trans ((pass_add rfl).trans (pass_add rfl)), nofun⟩
    rw [if_pos hoff]
    apply ends_setTab
    have hn := h.next (getElem?_of_drop hd) hoff
    rw [ht] at hn
    refine ih hn ?_
    rw [put_self]
    exact drop_succ_of_drop hd

theorem pthunksLoop_ends (ht : t.1 = .plt)
    (h : At memBase eh t s s' i) (hd : (s'.tables t).names.drop i = names) :
    Ends (fun _ _ => False) (Passed memBase eh t s) (pthunksLoop ops t eh names i s') := by
  induction names generalizing i s' with
  | nil => exact ends_pure ⟨h.pass, fun _ => h.done hd⟩
  | cons name names ih =>
    apply ends_call
    intro off
    apply ends_setTab
    by_cases hoff : off = 0
    · rw [if_pos hoff]
      refine ends_pure ⟨?_, nofun⟩
      exact h.pass.trans ((pass_add rfl).trans ((pass_put t).trans (pass_add rfl)))
    rw [if_neg hoff]
    have hn := h.next (getElem?_of_drop hd) hoff
    rw [ht, base, UInt32.zero_add] at hn
    refine ih hn ?_
    rw [put_self]
    exact drop_succ_of_drop hd

/-- **A pass over a table.** -/
theorem process_ends (t : Table) :
    Ends (fun _ _ => False) (Passed memBase eh t s) (process ops memBase eh t s) := by
  rw [process]
  cases ht : t.1 with
  | asm => exact athunksLoop_ends ht (At.start s) rfl
  | plt => exact pthunksLoop_ends ht (At.start s) rfl

variable {R : ℤ → State → Prop} {dyn : Bool}

/-- **Passes over tables.** They come to what follows with all the tables loaded, or close the
handle. -/
theorem processTables_ends {next : M ℤ}
    (hn : ∀ s', Pass ts s s' → (∀ t ∈ ts, Loaded memBase eh s' t) → Ends E R (next s'))
    (herr : ∀ s', Pass ts s s' → R (-1) (s'.add (.close eh))) :
    Ends E R (processTables ops memBase eh ts next s) := by
  induction ts generalizing s with
  | nil => exact hn s (Pass.refl _ _) nofun
  | cons t ts ih =>
    refine Ends.bind ((process_ends t).imp fun _ _ => False.elim) ?_
    rintro ret s1 ⟨hp, hl⟩
    have hpass1 : Pass (t :: ts) s s1 := hp.mono (by simp)
    by_cases hret : ret = 0
    · rw [if_neg (not_not.mpr hret)]
      apply ih
      · intro s' hp' hall
        have hpass2 : Pass (t :: ts) s1 s' := hp'.mono (subset_cons_self t ts)
        refine hn s' (hpass1.trans hpass2) fun t' ht' => ?_
        by_cases hmem : t' ∈ ts
        · exact hall t' hmem
        · obtain rfl : t' = t := (mem_cons.mp ht').resolve_right hmem
          exact (hl hret).of_keeps hp'.keeps hmem
      · intro s' hp'
        exact herr s' (hpass1.trans (hp'.mono (subset_cons_self t ts)))
    · rw [if_pos hret]
      exact herr s1 hpass1

/-! ### Requests -/

/-- The handle that a call to `open`, or to `open_dyn`, has obtained. -/
def opened : Bool → Call → Option UInt64
  | false, .openElf _ _ eh => if eh = 0 then none else some eh
  | true, .openDyn _ _ eh => if eh = 0 then none else some eh
  | _, _ => none

def Complete (memBase : UInt32) (dyn : Bool) (s : State) (t : Table) : Prop :=
  ∃ eh, (∃ c ∈ s.calls, opened dyn c = some eh) ∧ Loaded memBase eh s t

theorem Complete.of_keeps (h : Complete memBase dyn s t) (hk : Keeps ts s s') (ht : t ∉ ts) :
    Complete memBase dyn s' t := by
  obtain ⟨eh, ⟨c, hc, ho⟩, hl⟩ := h
  exact ⟨eh, ⟨c, hk.mem c hc, ho⟩, hl.of_keeps hk ht⟩

theorem complete_of_pass (hc : opened dyn c = some eh)
    (hp : Pass ts (s.add c) s') (hl : Loaded memBase eh s' t) : Complete memBase dyn s' t :=
  ⟨eh, ⟨c, hp.mem (mem_append_right _ (mem_singleton_self _)), hc⟩, hl⟩

theorem settled_close (hs : Settled s.entries) (hc : entry c = some (.take eh))
    (hp : Pass ts (s.add c) s') : Settled (s'.add (.close eh)).entries := by
  have he : (s'.add (.close eh)).entries = s.entries ++ [.take eh, .give eh] := by
    rw [entries_add, hp.entries, entries_add, append_assoc, filterMap_cons, hc]
    rfl
  rw [he]
  exact hs.append (settled_pair eh)

theorem entries_add_none (hc : entry c = none) (s : State) : (s.add c).entries = s.entries :=
  Pass.entries (pass_add hc : Pass [] s (s.add c))

variable {u : Udisp} {handle libid l : ℕ} {regs : Regs} {fn : Fn}

theorem doEarlyInit_ends :
    Ends (fun _ s' => s' = s) (fun _ s' => ∃ addr, s' = s.add (.setStartupFlags addr))
      (doEarlyInit u s) := by
  apply ends_get
  cases djthunkGetH u s.tables "__crt0_startup_flags" with
  | none => exact ends_throw rfl
  | some addr => exact ⟨addr, rfl⟩

theorem earlyInit_ends (hE : E () s) (hR : ∀ addr, R 0 (s.add (.setStartupFlags addr))) :
    Ends E R ((do doEarlyInit u; pure 0 : M ℤ) s) := by
  refine Ends.bind (Ends.imp doEarlyInit_ends ?_) ?_
  · rintro - s' rfl
    exact hE
  · rintro - s' ⟨addr, rfl⟩
    exact hR addr

/-- The core image. -/
theorem setSymtabCore_ends (hs : Settled s.entries) : Ends (fun _ s' => Settled s'.entries)
      (fun ret s' => Settled s'.entries ∧ (ret = 0 →
        Keeps (if regs.haveCore then [] else coreTables) s s' ∧
          (regs.haveCore = false → ∀ t ∈ coreTables, Complete regs.edx true s' t)))
      (setSymtabCore ops u handle regs s) := by
  rw [setSymtabCore]
  cases hco : regs.haveCore with
  | true =>
    refine earlyInit_ends hs fun addr => ⟨?_, fun _ => ⟨keeps_add _ s, nofun⟩⟩
    rw [entries_add_none rfl]
    exact hs
  | false =>
    by_cases hfd : regs.esi = 0xffffffff
    · rw [if_pos hfd]
      exact ends_pure ⟨hs, nofun⟩
    rw [if_neg hfd]
    apply ends_call
    intro eh
    by_cases heh : eh = 0
    · rw [if_pos heh]
      refine ends_pure ⟨?_, nofun⟩
      rw [entries_add_none (by rw [heh]; rfl)]
      exact hs
    rw [if_neg heh]
    have hta : entry (.openDyn handle regs.esi eh) = some (.take eh) := if_neg heh
    apply processTables_ends
    · intro s' hp hl
      have hc := settled_close hs hta hp
      refine earlyInit_ends hc fun addr => ⟨?_, fun _ => ⟨?_, fun _ t ht => ?_⟩⟩
      · rw [entries_add_none rfl]
        exact hc
      · exact (keeps_add _ s).trans (hp.keeps.trans ((keeps_add _ s').trans (keeps_add _ _)))
      · have hk : Keeps [] s' ((s'.add (.close eh)).add (.setStartupFlags addr)) :=
          (keeps_add _ s').trans (keeps_add _ _)
        have ho : opened true (.openDyn handle regs.esi eh) = some eh := if_neg heh
        exact (complete_of_pass ho hp (hl t ht)).of_keeps hk not_mem_nil
    · intro s' hp
      exact ⟨settled_close hs hta hp, nofun⟩

/-- The image of the user part is given. -/
def userImage (fn : Fn) (regs : Regs) : Bool :=
  match fn with
  | .setSymtab => regs.ebx != 0 && regs.haveUpl
  | .elfload | .elfloadFd => true
  | .other => false

/-- The tables that a request covers. -/
def covered (u : Udisp) (libid : ℕ) (fn : Fn) (regs : Regs) : List Table :=
  (if fn = .setSymtab then coreTables else []) ++ if userImage fn regs then
    userTables u libid else []

def fromDyn (fn : Fn) (regs : Regs) (t : Table) : Bool :=
  fn = .setSymtab ∧ regs.haveCore = false ∧ t ∈ coreTables

/-- What a request ends with: no handle is open, and if it returns `0` the tables it covers are
loaded. -/
def Requested (u : Udisp) (libid : ℕ) (fn : Fn) (regs : Regs) (s : State) (ret : ℤ) (s' : State) :
    Prop :=
  Settled s'.entries ∧ (ret = 0 → (∀ t, (s'.tables t).names = (s.tables t).names) ∧
    ∀ t ∈ covered u libid fn regs, Complete regs.edx (fromDyn fn regs t) s' t)

theorem setSymtab_ends (hs : Settled s.entries) :
    Ends (fun _ s' => Settled s'.entries) (Requested u libid .setSymtab regs s)
      (setSymtab ops u handle libid esi regs s) := by
  apply ends_modify
  obtain ⟨s0, hs0⟩ : ∃ s0 : State, s0 = { s with cs := esi } := ⟨_, rfl⟩
  have hsettled0 : Settled s0.entries := by rw [hs0]; exact hs
  have hnames0 : ∀ t, (s0.tables t).names = (s.tables t).names := fun t => by rw [hs0]
  rw [← hs0]
  by_cases ha : regs.ebx = 0
  · rw [if_neg (not_not.mpr ha)]
    have hc : covered u libid .setSymtab regs = coreTables := by simp [covered, userImage, ha]
    cases hco : regs.haveCore with
    | true => exact ends_pure ⟨hsettled0, nofun⟩
    | false =>
      refine (setSymtabCore_ends hsettled0).mono fun ret s' h => ⟨h.1, fun hret => ?_⟩
      refine ⟨fun t => ((h.2 hret).1.names t).trans (hnames0 t), fun t ht => ?_⟩
      rw [hc] at ht
      have hdyn : fromDyn .setSymtab regs t := by simp [fromDyn, hco, ht]
      rw [hdyn]
      exact (h.2 hret).2 hco t ht
  rw [if_pos ha]
  apply ends_call
  intro eh
  by_cases heh : eh = 0
  · rw [if_pos heh]
    refine ends_pure ⟨?_, nofun⟩
    rw [entries_add_none (by rw [heh]; rfl)]
    exact hsettled0
  rw [if_neg heh]
  have hta : entry (.openElf (ops.addr2ptr regs.ebx) regs.ecx eh) = some (.take eh) := if_neg heh
  have ho : opened false (.openElf (ops.addr2ptr regs.ebx) regs.ecx eh) = some eh := if_neg heh
  apply processTables_ends
  · intro s' hp hl
    have hcl := settled_close hsettled0 hta hp
    refine (setSymtabCore_ends hcl).mono fun ret s'' h => ⟨h.1, fun hret => ?_⟩
    obtain ⟨hk, hdyn⟩ := h.2 hret
    refine ⟨fun t => (hk.names t).trans ((hp.names t).trans (hnames0 t)), fun t ht => ?_⟩
    cases hf : fromDyn .setSymtab regs t with
    | true =>
      obtain ⟨-, hco, hmem⟩ : _ ∧ _ ∧ _ := of_decide_eq_true hf
      exact hdyn hco t hmem
    | false =>
      have hnot : ¬ (Fn.setSymtab = .setSymtab ∧ regs.haveCore = false ∧ t ∈ coreTables) :=
        of_decide_eq_false hf
      have hc : t ∈ coreTables ++ if regs.haveUpl then userTables u libid else [] := by
        simpa [covered, userImage, ha] using ht
      -- Without the core part in this image, `t` is one of the user tables.
      have hca : t ∈ (if regs.haveCore then coreTables else []) ++
          (if regs.haveUpl then userTables u libid else []) ∧
          t ∉ if regs.haveCore then [] else coreTables := by
        cases hco : regs.haveCore with
        | true => exact ⟨hc, not_mem_nil⟩
        | false =>
          have hmem : t ∉ coreTables := fun hmem => hnot ⟨rfl, hco, hmem⟩
          exact ⟨(mem_append.mp hc).resolve_left hmem, hmem⟩
      have hcom := complete_of_pass ho hp (hl t hca.1)
      exact (hcom.of_keeps (keeps_add _ s') not_mem_nil).of_keeps hk hca.2
  · intro s' hp
    exact ⟨settled_close hsettled0 hta hp, nofun⟩

theorem elfload_ends (hfn : fn = .elfload ∨ fn = .elfloadFd)
    {result : ℕ → UInt64 × UInt32} {c : UInt64 × UInt32 → Call} (hc : ∀ r, entry (c r) = none)
    (hs : Settled s.entries) :
    Ends (fun _ s' => Settled s'.entries) (Requested u libid fn regs s)
      (elfload ops u libid regs (call result c) s) := by
  have hco : covered u libid fn regs = userTables u libid ∧ ∀ t, fromDyn fn regs t = false := by
    rcases hfn with rfl | rfl
    · exact ⟨rfl, fun _ => rfl⟩
    · exact ⟨rfl, fun _ => rfl⟩
  apply ends_call
  rintro ⟨elf, esize⟩
  have hsettled1 : Settled (s.add (c (elf, esize))).entries := by
    rw [entries_add_none (hc _)]
    exact hs
  have hnames1 : ∀ t, ((s.add (c (elf, esize))).tables t).names = (s.tables t).names := fun _ => rfl
  generalize s.add (c (elf, esize)) = s1 at hsettled1 hnames1
  dsimp only
  by_cases helf : elf = 0
  · rw [if_pos helf]
    exact ends_pure ⟨hsettled1, nofun⟩
  rw [if_neg helf]
  apply ends_call
  intro eh
  by_cases heh : eh = 0
  · rw [if_pos heh]
    refine ends_pure ⟨?_, nofun⟩
    rw [entries_add_none (by rw [heh]; rfl)]
    exact hsettled1
  rw [if_neg heh]
  have hta : entry (.openElf elf esize eh) = some (.take eh) := if_neg heh
  have ho : opened false (.openElf elf esize eh) = some eh := if_neg heh
  apply ends_call
  rintro ⟨ret, entry⟩
  have hr : Pass (userTables u libid) (s1.add (.openElf elf esize eh))
      ((s1.add (.openElf elf esize eh)).add
        (.reloc eh (regs.edx + regs.ebx) regs.ecx regs.ebx ret entry)) := pass_add rfl
  by_cases hret : ret = 0
  swap
  · rw [if_pos hret]
    exact ⟨settled_close hsettled1 hta hr, nofun⟩
  rw [if_neg (not_not.mpr hret)]
  apply processTables_ends
  · intro s' hp hl
    apply ends_say
    refine ends_pure ⟨settled_close hsettled1 hta (hr.trans hp), fun _ => ?_⟩
    refine ⟨fun t => (hp.names t).trans (hnames1 t), fun t ht => ?_⟩
    rw [hco.1] at ht
    rw [hco.2]
    have hcom := complete_of_pass ho (hr.trans hp) (hl t ht)
    refine Complete.of_keeps hcom (?_ : Keeps [] s' _) not_mem_nil
    exact ⟨fun _ hc => mem_append_left _ hc, fun _ _ => rfl, fun _ => rfl⟩
  · intro s' hp
    exact ⟨settled_close hsettled1 hta (hr.trans hp), nofun⟩

/-- A request, from any state in which no handle is open. -/
theorem dj64Ctrl_ends {libid : ℤ} (hs : Settled s.entries) :
    Ends (fun _ s' => Settled s'.entries) (Requested u (libid % 256).toNat fn s.regs s)
      (dj64Ctrl ops u handle libid fn esi s) := by
  rw [dj64Ctrl]
  by_cases hlib : maxDisps ≤ (libid % 256).toNat
  · rw [if_pos hlib]
    exact ends_throw hs
  rw [if_neg hlib]
  by_cases hh : maxHandles ≤ handle
  · rw [if_pos hh]
    exact ends_throw hs
  rw [if_neg hh]
  by_cases hver : libid / 256 = dlApiVer
  swap
  · rw [if_pos hver]
    apply ends_say
    by_cases hz : libid / 256 = 0
    · rw [if_pos hz]
      apply ends_say
      refine ends_pure ⟨?_, nofun⟩
      rw [entries_add_none rfl, entries_add_none rfl]
      exact hs
    · rw [if_neg hz]
      refine ends_pure ⟨?_, nofun⟩
      rw [entries_add_none rfl]
      exact hs
  rw [if_neg (not_not.mpr hver)]
  apply ends_get
  cases fn with
  | setSymtab => exact setSymtab_ends hs
  | elfload => exact elfload_ends (.inl rfl) (fun _ => rfl) hs
  | elfloadFd => exact elfload_ends (.inr rfl) (fun _ => rfl) hs
  | other => exact ends_pure ⟨hs, nofun⟩

/-! ### Lookups -/

def occurrences (tables : Table → Athunks) (name : String) (refs : List (Option Ref)) : ℕ :=
  (refs.flatMap fun r => (r.map fun r => (tables (.asm, r)).names).getD []).count name

section

variable {name : String} {names : List String} {tab : List UInt32} {v : UInt32}

theorem doThunkGet_of_not_mem (h : name ∉ names) (tab : List UInt32) :
    doThunkGet name names tab = 0xffffffff := by
  induction names generalizing tab with
  | nil => rfl
  | cons n names ih =>
    cases tab with
    | nil => rfl
    | cons v tab =>
      rw [mem_cons, not_or] at h
      rw [doThunkGet, if_neg (Ne.symm h.1)]
      exact ih h.2 tab

theorem doThunkGet_of_getElem? (hc : names.count name ≤ 1)
    (hna : names[i]? = some name) (htab : tab[i]? = some v) : doThunkGet name names tab = v := by
  induction names generalizing tab i with
  | nil => cases hna
  | cons n names ih =>
    cases tab with
    | nil => cases htab
    | cons w tab =>
      rw [doThunkGet]
      by_cases hn : n = name
      · rw [if_pos hn]
        rw [hn, count_cons_self] at hc
        cases i with
        | zero => exact some.inj htab
        | succ i =>
          have hmem : name ∈ names := mem_of_getElem? hna
          exact absurd (count_pos_iff.mpr hmem) (by omega)
      · rw [if_neg hn]
        cases i with
        | zero => exact absurd (some.inj hna) hn
        | succ i =>
          rw [count_cons_of_ne hn] at hc
          exact ih hc hna htab

variable {tables : Table → Athunks} {r : Ref}

theorem thunkGetLoop_eq {refs : List (Option Ref)}
    (hc : occurrences tables name refs = 1) (hr : some r ∈ refs)
    (hn : (tables (.asm, r)).names[i]? = some name) (htab : (tables (.asm, r)).tab[i]? = some v)
    (hv : v ≠ 0xffffffff) (ret : UInt32) : thunkGetLoop tables name refs ret = v := by
  induction refs generalizing ret with
  | nil => cases hr
  | cons r' refs ih =>
    have hmem : name ∈ (tables (.asm, r)).names := mem_of_getElem? hn
    rw [occurrences, flatMap_cons, count_append] at hc
    cases r' with
    | none =>
      refine ih ?_ ((mem_cons.mp hr).resolve_left nofun) ret
      simpa [occurrences] using hc
    | some r' =>
      rw [thunkGetLoop]
      change (tables (.asm, r')).names.count name + occurrences tables name refs = 1 at hc
      by_cases hm' : name ∈ (tables (.asm, r')).names
      · have hpos := count_pos_iff.mpr hm'
        -- All other tables are without the name, so that `r` is the first one.
        have hz : occurrences tables name refs = 0 := by omega
        rw [occurrences, count_eq_zero, mem_flatMap] at hz
        have heq : some r = some r' :=
          (mem_cons.mp hr).resolve_right fun hr => hz ⟨some r, hr, hmem⟩
        obtain rfl := some.inj heq
        have hget := doThunkGet_of_getElem? (by omega) hn htab
        rw [hget, if_pos hv]
      · have hz := count_eq_zero.mpr hm'
        rw [doThunkGet_of_not_mem hm', if_neg (not_not.mpr rfl)]
        refine ih (by omega) ((mem_cons.mp hr).resolve_left fun heq => ?_) _
        obtain rfl := some.inj heq
        exact hm' hmem

/-- **The lookup of a name** that occurs once. -/
theorem djthunkGetH_eq (hl : l < maxDisps)
    (hr : u.athunks l = some r) (hn : (tables (.asm, r)).names[i]? = some name)
    (htab : (tables (.asm, r)).tab[i]? = some v) (hv : v ≠ 0xffffffff)
    (hc : occurrences tables name u.refs = 1) : djthunkGetH u tables name = some v := by
  have hmem : some r ∈ u.refs := mem_map.mpr ⟨l, mem_range.mpr hl, hr⟩
  rw [djthunkGetH, thunkGetLoop_eq hc hmem hn htab hv]
  exact if_neg hv

end

end

/-- **Symbols.** A request passes every handle it has obtained to `close` exactly once, and no other
value, however it ends.  When it returns `0`, every entry of the tables it covers comes from the
non-zero value of its own symbol in the image, and the lookup of a name that occurs once in the asm
tables of the handle returns the entry. -/
theorem dj64Ctrl_loads (ops : Ops) (u : Udisp) (handle : ℕ) (libid : ℤ) (fn : Fn) (esi : UInt32)
    (tables : Table → Athunks) (cs : UInt32) (regs : Regs) :
    Settled (final (dj64Ctrl ops u handle libid fn esi ⟨tables, cs, regs, []⟩)).entries ∧
      ∀ s', dj64Ctrl ops u handle libid fn esi ⟨tables, cs, regs, []⟩ = .ok 0 s' →
        (∀ t, (s'.tables t).names = (tables t).names) ∧
        (∀ t ∈ covered u (libid % 256).toNat fn regs, Complete regs.edx (fromDyn fn regs t) s' t) ∧
        ∀ l < maxDisps, ∀ r, u.athunks l = some r → (.asm, r) ∈ covered u
          (libid % 256).toNat fn regs →
          ∀ (i : ℕ) name v, (tables (.asm, r)).names[i]? = some name →
            (s'.tables (.asm, r)).tab[i]? = some v →
            v ≠ 0xffffffff → occurrences tables name u.refs = 1 →
              djthunkGetH u s'.tables name = some v := by
  have he : Ends (fun _ s' => Settled s'.entries)
      (Requested u (libid % 256).toNat fn regs ⟨tables, cs, regs, []⟩)
      (dj64Ctrl ops u handle libid fn esi ⟨tables, cs, regs, []⟩) := dj64Ctrl_ends settled_nil
  refine ⟨he.final (fun _ _ h => h) fun _ _ h => h.1, fun s' hok => ?_⟩
  rw [hok] at he
  obtain ⟨hn, hc⟩ := he.2 rfl
  refine ⟨hn, hc, fun l hl r hr _ i name v hna htab hv hco => ?_⟩
  have hc' : occurrences s'.tables name u.refs = 1 := by
    simp only [occurrences, hn]
    exact hco
  rw [← hn] at hna
  exact djthunkGetH_eq hl hr hna htab hv hc'

/-- A handle whose library 1 has one table of asm symbols. -/
def oneLibrary : Udisp where
  athunks l := if l = 0 then some .core else if l = 1 then some (.registered 0) else none
  pthunks l := if l = 0 then some .core else none
  athunks_zero := rfl
  pthunks_zero := rfl

def oneName (name : String) : Athunks := ⟨[name], [0], rfl⟩

/-- The state before the image of both parts is loaded at `0x1000`. -/
def beforeLoad : State where
  tables t :=
    match t with
    | (.asm, .core) => oneName "__crt0_startup_flags"
    | (.plt, _) => oneName "_main"
    | (.asm, .registered _) => oneName "_table"
  cs := 0
  regs := ⟨0x4000, 0x20000, 0x400, 0x1000, 0xffffffff⟩
  calls := []

/-- A host that opens every image as handle 7, with the `n`th answer as the symbol. -/
def oneImage : Ops :=
  ⟨fun _ => 64, fun _ => 7, fun _ => 8, fun _ => (64, 0), fun _ => (64, 0), fun _ => (0, 0),
    fun n => UInt32.ofNat (16 * n)⟩

theorem dj64Ctrl_loads_oneLibrary :
    ∃ s', dj64Ctrl oneImage oneLibrary 0 257 .setSymtab 0 beforeLoad = .ok 0 s' ∧
      djthunkGetH oneLibrary s'.tables "_table" = some 0x1030 := by
  refine ⟨final (dj64Ctrl oneImage oneLibrary 0 257 .setSymtab 0 beforeLoad), rfl, ?_⟩
  exact ((dj64Ctrl_loads oneImage oneLibrary 0 257 .setSymtab 0 beforeLoad.tables 0
    beforeLoad.regs).2
    _ rfl).2.2 1 (by decide) (.registered 0) rfl (by decide) 0 "_table" 0x1030 rfl rfl (by decide)
    (by decide)

end Thunks.Symbols
