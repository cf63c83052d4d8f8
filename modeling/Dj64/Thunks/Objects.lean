import Dj64.Thunks.Levels

/-!
# DOS objects when low memory runs out

`dj64_obj_init` allocates low memory with `malloc32`, which returns zero when there is none, and
enters the address into the table of the current level.  A zero entry is a free one, so that an
object at address zero is counted but not entered.

A run is a tree: `Body` is what one `dj64_call` does with its objects, and the calls that are made
meanwhile, of the same handle or of others.  The world keeps a record of what was copied, of what
was freed, of the state of a handle after every step and of what an abort has collected.
-/

namespace Thunks

open List Function List.Subset
open Option (bind_eq_some_iff bind_some)

namespace Objects

/-- What an abort has collected: the objects that the code held, what was freed, and the counter at
entry and at exit. -/
structure Abort where
  held : List ℕ
  freed : List ℕ
  entry : ℤ
  exit : ℤ

def Abort.Right (a : Abort) : Prop := a.freed.Perm (a.held.filter (· ≠ 0)) ∧ a.exit = a.entry

/-- The handles and the records. -/
structure World where
  udisps : ℕ → Udisp
  copies : List (ℕ × ℕ)
  frees : List ℕ
  seen : List Udisp
  aborts : List Abort

namespace World

def put (s : World) (h : ℕ) (u : Udisp) : World :=
  { s with udisps := update s.udisps h u, seen := s.seen ++ [u] }

/-- `memcpy` between a program's data and the `len` bytes from the DOS address `fa` on. -/
def copy (s : World) (fa len : ℕ) : World := { s with copies := s.copies ++ [(fa, len)] }

def free (s : World) (fa : ℕ) : World := { s with frees := s.frees ++ [fa] }

/-- No data is copied to or from address zero, the counter is the number of the non-zero entries,
and aborts collect what is held. -/
def Fine (s : World) : Prop :=
  (∀ c ∈ s.copies, c.1 ≠ 0 ∨ c.2 = 0) ∧ (∀ u ∈ s.seen, u.objcnt = u.liveObjs) ∧
    ∀ a ∈ s.aborts, a.Right

end World

/-! ### The model -/

/-- `find_oh`, which returns `NULL` if there is no such entry. -/
def findOh (u : Udisp) (addr : ℕ) : Option ℕ := (range maxObjs).find? fun i => u.row i = addr

/-- The object is counted and entered; nothing follows a write through `NULL`. -/
def enterObj (h fa : ℕ) (s : World) : Option World :=
  let u := { s.udisps h with objcnt := (s.udisps h).objcnt + 1 }
  (findOh u 0).map fun i => s.put h (u.setRow i fa)

/-- `do_obj_init`, where `fa` is what `malloc32` returns. -/
def doObjInit (h : ℕ) (isDosPtr isOut : Bool) (len fa : ℕ) (s : World) : Option World :=
  if isDosPtr then some s else enterObj h fa (if isOut then s else s.copy fa len)

def doRmDosobj (h fa : ℕ) (s : World) : Option World :=
  let u := s.udisps h
  (findOh u fa).map fun i => (s.free fa).put h { u.setRow i 0 with objcnt := u.objcnt - 1 }

/-- `dj64_obj_done`; `dj64_rm_dosobj` copies nothing back (`len = none`). -/
def objDone (h : ℕ) (isDosPtr : Bool) (fa : ℕ) (len : Option ℕ) (s : World) : Option World :=
  if isDosPtr then some s
  else
    match len with
    | some len => doRmDosobj h fa (s.copy fa len)
    | none => doRmDosobj h fa s

/-- The loop of `_dj64_call` that collects lost objects. -/
def gc (h : ℕ) : List ℕ → World → Option World
  | [], s => some s
  | i :: is, s =>
    if (s.udisps h).row i ≠ 0 then (doRmDosobj h ((s.udisps h).row i) s).bind (gc h is)
      else gc h is s

/-- The end of `dj64_call`; `u` is the state at entry. -/
def leave (h : ℕ) (u : Udisp) (s : World) : Option World :=
  if (s.udisps h).objcnt = u.objcnt then
    some (s.put h { s.udisps h with recurCnt := (s.udisps h).recurCnt - 1 })
  else none

/-- `_dj64_call` after the dispatched code has ended: by a return, or by a `longjmp` while it held
objects. -/
def collect (h : ℕ) (u : Udisp) : Option (List ℕ) × World → Option World
  | (none, s) => leave h u s
  | (some held, s) =>
    (gc h (range maxObjs) s).bind fun s' =>
      leave h u { s' with aborts := s'.aborts ++ [⟨held, s'.frees.drop s.frees.length, u.objcnt,
        (s'.udisps h).objcnt⟩] }

def dj64Call (h : ℕ) (body : World → Option (Option (List ℕ) × World)) (s : World) : Option World :=
  let u := s.udisps h
  if h < maxHandles ∧ u.recurCnt < maxRecur then
    (body (s.put h { u with recurCnt := u.recurCnt + 1 })).bind (collect h u)
  else none

/-- What the dispatched code does: it creates and releases objects, calls 32-bit code which calls C
code of some handle, and ends by a return or by a `longjmp`. -/
inductive Body
  | ret
  | abort
  | init (isDosPtr isOut : Bool) (len fa : ℕ) (k : Body)
  | done (isDosPtr : Bool) (fa : ℕ) (len : Option ℕ) (k : Body)
  | call (h : ℕ) (inner k : Body)

def hold (isDosPtr : Bool) (fa : ℕ) (held : List ℕ) : List ℕ :=
  if isDosPtr then held else fa :: held

def release (isDosPtr : Bool) (fa : ℕ) (held : List ℕ) : List ℕ :=
  if isDosPtr then held else held.erase fa

/-- The code of the handle `h`, which holds the addresses `held`; after a `longjmp` they are
returned. -/
def run (h : ℕ) : Body → List ℕ → World → Option (Option (List ℕ) × World)
  | .ret, _, s => some (none, s)
  | .abort, held, s => some (some held, s)
  | .init isDosPtr isOut len fa k, held, s => (doObjInit h isDosPtr isOut len fa s).bind
      (run h k (hold isDosPtr fa held))
  | .done isDosPtr fa len k, held, s => (objDone h isDosPtr fa len s).bind
      (run h k (release isDosPtr fa held))
  | .call h' inner k, held, s => (dj64Call h' (run h' inner []) s).bind (run h k held)

/-- Calls, one after the other. -/
def runCalls : List (ℕ × Body) → World → Option World
  | [], s => some s
  | (h, body) :: calls, s => (dj64Call h (run h body []) s).bind (runCalls calls)

def boot : World := ⟨fun _ => ⟨0, 0, none, fun _ _ => 0⟩, [], [], [], []⟩

/-! ### Legal runs and served ones -/

/-- The code returns without objects, releases what it holds and does not call too deeply, and
`malloc32` returns zero or an address that is not in use; `depth` is the number of active calls of
each handle. -/
def Body.Legal (depth : ℕ → ℕ) : List ℕ → Body → Prop
  | held, .ret => held = []
  | _, .abort => True
  | held, .init isDosPtr _ _ fa k => (isDosPtr = false → fa ∈ held → fa = 0) ∧
      k.Legal depth (hold isDosPtr fa held)
  | held, .done isDosPtr fa _ k => (isDosPtr = false → fa ∈ held) ∧
      k.Legal depth (release isDosPtr fa held)
  | held, .call h inner k =>
    (h < maxHandles ∧ depth h < maxRecur) ∧ inner.Legal (update depth h (depth h + 1)) [] ∧
      k.Legal depth held

/-- Every allocation returns memory, and there is room for it in the table of the level. -/
def Body.Served : List ℕ → Body → Prop
  | _, .ret => True
  | _, .abort => True
  | held, .init isDosPtr _ _ fa k => (isDosPtr = false → fa ≠ 0 ∧ held.length < maxObjs) ∧
      k.Served (hold isDosPtr fa held)
  | held, .done isDosPtr fa _ k => k.Served (release isDosPtr fa held)
  | held, .call _ inner k => inner.Served [] ∧ k.Served held

/-! ### The entries of a level -/

open Udisp (SameBelow)

variable {u : Udisp} {s s' s'' s0 s1 : World} {h fa i len : ℕ} {held he' is : List ℕ}
  {body : Body}

def entries (u : Udisp) (is : List ℕ) : List ℕ := (is.map u.row).filter (· ≠ 0)

def Tracks (u : Udisp) (held : List ℕ) : Prop := held.Nodup ∧ ∀ fa, fa ∈ held ↔ u.Owns fa

theorem mem_entries : fa ∈ entries u (range maxObjs) ↔ u.Owns fa := by
  simp only [entries, mem_filter, mem_map, mem_range, decide_eq_true_eq]
  constructor
  · rintro ⟨⟨i, hi, rfl⟩, hne⟩
    exact ⟨hne, i, hi, rfl⟩
  · rintro ⟨hne, i, hi, rfl⟩
    exact ⟨⟨i, hi, rfl⟩, hne⟩

theorem nodup_entries (hg : u.Good) : (entries u (range maxObjs)).Nodup := by
  rw [entries, filter_map]
  refine List.Nodup.map_on ?_ (nodup_range.filter _)
  intro i hi j hj heq
  obtain ⟨hi, hne⟩ := mem_filter.mp hi
  exact hg.distinct _ i j (mem_range.mp hi) (mem_range.mp (mem_filter.mp hj).1) heq
    (of_decide_eq_true hne)

theorem length_entries : (entries u (range maxObjs)).length = Udisp.rowCount u.row := by
  rw [entries, filter_map, length_map]
  rfl

theorem Tracks.perm (ht : Tracks u held) (hg : u.Good) : (entries u (range maxObjs)).Perm held :=
  (perm_ext_iff_of_nodup (nodup_entries hg) ht.1).mpr fun fa =>
    mem_entries.trans (ht.2 fa).symm

theorem Tracks.rowCount (ht : Tracks u held) (hg : u.Good) :
    Udisp.rowCount u.row = held.length := by
  rw [← length_entries, (ht.perm hg).length_eq]

theorem Tracks.ne_zero (ht : Tracks u held) (hmem : fa ∈ held) : fa ≠ 0 := ((ht.2 fa).mp hmem).1

theorem findOh_spec (hi : findOh u fa = some i) : i < maxObjs ∧ u.row i = fa := by
  have hrow := find?_some hi
  have hmem := mem_of_find?_eq_some hi
  exact ⟨mem_range.mp hmem, by simpa using hrow⟩

theorem findOh_exists (hex : ∃ i < maxObjs, u.row i = fa) : ∃ i, findOh u fa = some i := by
  obtain ⟨i, hi, hrow⟩ := hex
  cases hf : findOh u fa with
  | some j => exact ⟨j, rfl⟩
  | none =>
    have hn := find?_eq_none.mp hf i (mem_range.mpr hi)
    simp [hrow] at hn

theorem row_setRow (u : Udisp) (i fa : ℕ) : (u.setRow i fa).row = update u.row i fa :=
  Udisp.setRow_objs_self u i fa

theorem Tracks.insert (ht : Tracks u held) (hi : i < maxObjs) (hrow : u.row i = 0) (hfa : fa ≠ 0)
    (hnew : fa ∉ held) (n : ℤ) : Tracks { u.setRow i fa with objcnt := n } (fa :: held) := by
  refine ⟨nodup_cons.mpr ⟨hnew, ht.1⟩, fun x => ?_⟩
  rw [mem_cons, ht.2]
  change _ ↔ x ≠ 0 ∧ ∃ j < maxObjs, (u.setRow i fa).row j = x
  rw [row_setRow]
  constructor
  · rintro (rfl | ⟨hx, j, hj, hro⟩)
    · exact ⟨hfa, i, hi, update_self ..⟩
    · have hji : j ≠ i := by
        rintro rfl
        exact hx (hro.symm.trans hrow)
      exact ⟨hx, j, hj, by rw [update_of_ne hji, hro]⟩
  rintro ⟨hx, j, hj, hro⟩
  by_cases hji : j = i
  · rw [hji, update_self] at hro
    exact .inl hro.symm
  · rw [update_of_ne hji] at hro
    exact .inr ⟨hx, j, hj, hro⟩

/-- A released object is no longer held. -/
theorem Tracks.remove (ht : Tracks u held) (hg : u.Good) (hi : i < maxObjs) (hrow : u.row i = fa)
    (hfa : fa ≠ 0) (n : ℤ) : Tracks { u.setRow i 0 with objcnt := n } (held.erase fa) := by
  refine ⟨ht.1.erase fa, fun x => ?_⟩
  rw [ht.1.mem_erase_iff, ht.2]
  change _ ↔ x ≠ 0 ∧ ∃ j < maxObjs, (u.setRow i 0).row j = x
  rw [row_setRow]
  constructor
  · rintro ⟨hxfa, hx, j, hj, hro⟩
    have hji : j ≠ i := by
      rintro rfl
      exact hxfa (hro.symm.trans hrow)
    exact ⟨hx, j, hj, by rw [update_of_ne hji, hro]⟩
  rintro ⟨hx, j, hj, hro⟩
  have hji : j ≠ i := by
    rintro rfl
    rw [update_self] at hro
    exact hx hro.symm
  rw [update_of_ne hji] at hro
  refine ⟨?_, hx, j, hj, hro⟩
  rintro rfl
  exact hji (hg.distinct _ j i hj hi (hro.trans hrow.symm) (by
    change u.row j ≠ 0
    rwa [hro]))

/-! ### Steps of a served run -/

/-- The state between two steps of the code of `h`. -/
structure Ready (h : ℕ) (held : List ℕ) (s : World) : Prop where
  good : ∀ i, (s.udisps i).Good
  level : 0 < (s.udisps h).recurCnt
  tracks : Tracks (s.udisps h) held

/-- What a step does to the world: the other handles are as before, and so are the other levels. -/
structure Keeps (h : ℕ) (s s' : World) : Prop where
  others : ∀ i, i ≠ h → s'.udisps i = s.udisps i
  below : SameBelow (s.udisps h) (s'.udisps h)
  fine : s.Fine → s'.Fine

theorem Keeps.refl (h : ℕ) (s : World) : Keeps h s s := ⟨fun _ _ => rfl, .refl _, id⟩

theorem Keeps.trans (h1 : Keeps h s s') (h2 : Keeps h s' s'') : Keeps h s s'' :=
  ⟨fun i hi => (h2.others i hi).trans (h1.others i hi), h1.below.trans h2.below, h2.fine ∘ h1.fine⟩

theorem Keeps.recurCnt (hk : Keeps h s s') (i : ℕ) :
    (s'.udisps i).recurCnt = (s.udisps i).recurCnt := by
  by_cases hi : i = h
  · rw [hi, hk.below.recurCnt]
  · rw [hk.others i hi]

theorem put_self (s : World) (h : ℕ) (u : Udisp) : (s.put h u).udisps h = u := update_self ..

theorem put_of_ne (s : World) (u : Udisp) (hi : i ≠ h) : (s.put h u).udisps i = s.udisps i :=
  update_of_ne hi ..

theorem World.Fine.put (hf : s.Fine) (hu : u.objcnt = u.liveObjs) (h : ℕ) : (s.put h u).Fine := by
  refine ⟨hf.1, fun v hv => ?_, hf.2.2⟩
  rcases mem_append.mp hv with hv | hv
  · exact hf.2.1 v hv
  · rw [mem_singleton.mp hv]
    exact hu

theorem keeps_copy (hfa : fa ≠ 0) : Keeps h s (s.copy fa len) := by
  refine ⟨fun _ _ => rfl, .refl _, fun hf => ⟨fun c hc => ?_, hf.2⟩⟩
  rcases mem_append.mp hc with hc | hc
  · exact hf.1 c hc
  · rw [mem_singleton.mp hc]
    exact .inl hfa

theorem Ready.copy (hr : Ready h held s) (fa len : ℕ) : Ready h held (s.copy fa len) :=
  ⟨hr.good, hr.level, hr.tracks⟩

theorem keeps_free : Keeps h s (s.free fa) := ⟨fun _ _ => rfl, .refl _, id⟩

theorem Ready.free (hr : Ready h held s) (fa : ℕ) : Ready h held (s.free fa) :=
  ⟨hr.good, hr.level, hr.tracks⟩

theorem keeps_put (hb : SameBelow (s.udisps h) u) (hg : u.Good) : Keeps h s (s.put h u) :=
  ⟨fun _ hi => put_of_ne s u hi, by rwa [put_self], fun hf => hf.put hg.count h⟩

section

variable (hr : Ready h held s)
include hr

theorem ready_put (hb : SameBelow (s.udisps h) u) (hg : u.Good) (ht : Tracks u he') :
    Ready h he' (s.put h u) := by
  refine ⟨fun i => ?_, ?_, ?_⟩
  · by_cases hi : i = h
    · rwa [hi, put_self]
    · rw [put_of_ne s u hi]
      exact hr.good i
  · rw [put_self, hb.recurCnt]
    exact hr.level
  · rwa [put_self]

theorem enterObj_served (hfa : fa ≠ 0) (hro : held.length < maxObjs) (hnew : fa ∉ held) :
    ∃ s', enterObj h fa s = some s' ∧ Ready h (fa :: held) s' ∧ Keeps h s s' := by
  have hg := hr.good h
  rw [← hr.tracks.rowCount hg] at hro
  obtain ⟨i, hi⟩ := findOh_exists (Udisp.exists_zero_of_rowCount hro)
  obtain ⟨hlt, hrow⟩ := findOh_spec hi
  have hgo := hg.insert hr.level hlt hrow hfa fun hown => hnew ((hr.tracks.2 fa).mpr hown)
  have hb := (SameBelow.setRow (s.udisps h) i fa).objcnt ((s.udisps h).objcnt + 1)
  refine ⟨s.put h { (s.udisps h).setRow i fa with objcnt := (s.udisps h).objcnt + 1 }, ?_,
    ready_put hr hb hgo (hr.tracks.insert hlt hrow hfa hnew _), keeps_put hb hgo⟩
  exact congrArg (Option.map _) hi

theorem doObjInit_served (isDosPtr isOut : Bool) (len : ℕ)
    (hs : isDosPtr = false → fa ≠ 0 ∧ held.length < maxObjs)
    (hnew : isDosPtr = false → fa ∈ held → fa = 0) :
    ∃ s', doObjInit h isDosPtr isOut len fa s = some s' ∧ Ready h (hold isDosPtr fa held) s' ∧
      Keeps h s s' := by
  cases isDosPtr with
  | true => exact ⟨s, rfl, hr, .refl h s⟩
  | false =>
    obtain ⟨hfa, hro⟩ := hs rfl
    have hnot : fa ∉ held := fun hmem => hfa (hnew rfl hmem)
    cases isOut with
    | true => exact enterObj_served hr hfa hro hnot
    | false =>
      obtain ⟨s', hs', hre, hk⟩ := enterObj_served (hr.copy fa len) hfa hro hnot
      exact ⟨s', hs', hre, (keeps_copy hfa).trans hk⟩

theorem doRmDosobj_held (hmem : fa ∈ held) :
    ∃ s', doRmDosobj h fa s = some s' ∧ Ready h (held.erase fa) s' ∧ Keeps h s s' ∧ s'.frees =
      s.frees ++ [fa] ∧
      ∃ i < maxObjs, (s.udisps h).row i = fa ∧ (s'.udisps h).row = update
        (s.udisps h).row i 0 := by
  have hg := hr.good h
  obtain ⟨hfa, hex⟩ := (hr.tracks.2 fa).mp hmem
  obtain ⟨i, hi⟩ := findOh_exists hex
  obtain ⟨hlt, hrow⟩ := findOh_spec hi
  have hgo := hg.remove hr.level hlt (hrow.trans_ne hfa)
  have hb := (SameBelow.setRow (s.udisps h) i 0).objcnt ((s.udisps h).objcnt - 1)
  refine ⟨(s.free fa).put h { (s.udisps h).setRow i 0 with objcnt := (s.udisps h).objcnt - 1 }, ?_,
    ready_put (hr.free fa) hb hgo (hr.tracks.remove hg hlt hrow hfa _),
    keeps_free.trans (keeps_put hb hgo), rfl, i, hlt, hrow, ?_⟩
  · exact congrArg (Option.map _) hi
  · rw [put_self]
    exact row_setRow (s.udisps h) i 0

theorem objDone_held (isDosPtr : Bool) (len : Option ℕ) (hmem : isDosPtr = false → fa ∈ held) :
    ∃ s', objDone h isDosPtr fa len s = some s' ∧ Ready h (release isDosPtr fa held) s' ∧
      Keeps h s s' := by
  cases isDosPtr with
  | true => exact ⟨s, rfl, hr, .refl h s⟩
  | false =>
    have hfa := hr.tracks.ne_zero (hmem rfl)
    cases len with
    | none =>
      obtain ⟨s', hs', hre, hk, -⟩ := doRmDosobj_held hr (hmem rfl)
      exact ⟨s', hs', hre, hk⟩
    | some len =>
      obtain ⟨s', hs', hre, hk, -⟩ := doRmDosobj_held (hr.copy fa len) (hmem rfl)
      exact ⟨s', hs', hre, (keeps_copy hfa).trans hk⟩

end

/-! ### Collecting -/

/-- **The collection** frees the entries in the order of the table; by induction on the entries that
are still to be looked at. -/
theorem gc_spec (is : List ℕ) (hr : Ready h held s) (hn : is.Nodup) (hlt : ∀ i ∈ is, i < maxObjs) :
    ∃ s' he', gc h is s = some s' ∧ Ready h he' s' ∧ Keeps h s s' ∧
      s'.frees = s.frees ++ entries (s.udisps h) is ∧
      ∀ j, (s'.udisps h).row j = if j ∈ is then 0 else (s.udisps h).row j := by
  induction is generalizing s held with
  | nil => exact ⟨s, held, rfl, hr, .refl h s, by simp [entries], by simp⟩
  | cons i is ih =>
    obtain ⟨hi, hn⟩ := nodup_cons.mp hn
    have hlti := hlt i (.head _)
    have hlts : ∀ j ∈ is, j < maxObjs := (forall_mem_cons.mp hlt).2
    by_cases hrow : (s.udisps h).row i = 0
    · obtain ⟨s', he', hgc, hre, hke, hf, hro⟩ := ih hr hn hlts
      refine ⟨s', he', ?_, hre, hke, ?_, fun j => ?_⟩
      · rw [gc, if_neg (not_not.mpr hrow), hgc]
      · rw [hf, entries, entries, map_cons, filter_cons_of_neg (by simpa using hrow)]
      · rw [hro]
        by_cases hji : j = i
        · simp [hji, hrow]
        · simp [hji]
    have hmem : (s.udisps h).row i ∈ held := (hr.tracks.2 _).mpr ⟨hrow, i, hlti, rfl⟩
    obtain ⟨s1, hrm, hready1, hkeeps1, hfrees1, j, hj, hrowj, hu⟩ := doRmDosobj_held hr hmem
    have hji : j = i := (hr.good h).distinct _ j i hj hlti hrowj (hrowj.trans_ne hrow)
    rw [hji] at hu
    obtain ⟨s', he', hgc, hre, hke, hf, hro⟩ := ih hready1 hn hlts
    have he : entries (s1.udisps h) is = entries (s.udisps h) is := by
      unfold entries
      congr 1
      apply map_congr_left
      intro k hk
      rw [hu, update_of_ne (by rintro rfl; exact hi hk)]
    refine ⟨s', he', ?_, hre, hkeeps1.trans hke, ?_, fun k => ?_⟩
    · rw [gc, if_pos hrow, hrm, bind_some, hgc]
    · rw [hf, hfrees1, he, entries, entries, map_cons, filter_cons_of_pos
        (by simpa using hrow), append_assoc, singleton_append]
    · rw [hro, hu]
      by_cases hki : k = i
      · simp [hki]
      · simp [hki]

theorem gc_all (hr : Ready h held s) :
    ∃ s', gc h (range maxObjs) s = some s' ∧ (∀ i, (s'.udisps i).Good) ∧ Keeps h s s' ∧
      Udisp.rowCount (s'.udisps h).row = 0 ∧ (s'.frees.drop s.frees.length).Perm held := by
  obtain ⟨s', he', hgc, hre, hk, hf, hro⟩ :=
    gc_spec (range maxObjs) hr nodup_range fun i hi => mem_range.mp hi
  refine ⟨s', hgc, hre.good, hk, ?_, ?_⟩
  · refine Udisp.rowCount_of_zero fun i hi => ?_
    rw [hro, if_pos (mem_range.mpr hi)]
  · rw [hf, drop_left]
    exact hr.tracks.perm (hr.good h)

/-! ### Calls -/

/-- A handle that has ended its call is in the state of the entry. -/
theorem leave_spec (hg : ∀ i, (s0.udisps i).Good) (hg' : (s.udisps h).Good)
    (ho : ∀ i, i ≠ h → s.udisps i = s0.udisps i)
    (hb : SameBelow { s0.udisps h with recurCnt := (s0.udisps h).recurCnt + 1 } (s.udisps h))
    (hrow : Udisp.rowCount (s.udisps h).row = 0) :
    (s.udisps h).objcnt = (s0.udisps h).objcnt ∧
      ∃ s', leave h (s0.udisps h) s = some s' ∧ s'.udisps = s0.udisps ∧ (s.Fine → s'.Fine) := by
  have hb' : SameBelow { s0.udisps h with
      recurCnt := (s0.udisps h).recurCnt + 1, noretJmp := (s0.udisps h).noretJmp }
      (s.udisps h) := hb
  obtain ⟨hcnt, heq⟩ := (hg h).eq_of_released hg' hb' hrow
  have hjmp : (s.udisps h).noretJmp = (s0.udisps h).noretJmp := hb.noretJmp
  have heq' : { s.udisps h with recurCnt := (s.udisps h).recurCnt - 1 } = s0.udisps h := by
    rw [← heq, ← hjmp]
  refine ⟨hcnt, _, if_pos hcnt, ?_, fun hf => ?_⟩
  · rw [heq']
    funext i
    by_cases hi : i = h
    · rw [hi, put_self]
    · rw [put_of_ne _ _ hi, ho i hi]
  · refine hf.put ?_ h
    rw [heq']
    exact (hg h).count

def entered (h : ℕ) (s : World) :
    World := s.put h { s.udisps h with recurCnt := (s.udisps h).recurCnt + 1 }

/-- How the code of a call ends. -/
structure Ended (h : ℕ) (s : World) (r : Option (List ℕ) × World) : Prop where
  ready : Ready h (r.1.getD []) r.2
  keeps : Keeps h s r.2

theorem ready_entered (hg : ∀ i, (s.udisps i).Good) (hd : (s.udisps h).recurCnt < maxRecur) :
    Ready h [] (entered h s) := by
  have hgo := (hg h).enter hd (s.udisps h).noretJmp
  refine ⟨fun i => ?_, ?_, ?_⟩
  · by_cases hi : i = h
    · rw [hi, entered, put_self]
      exact hgo
    · rw [entered, put_of_ne _ _ hi]
      exact hg i
  · rw [entered, put_self]
    exact Nat.succ_pos _
  · rw [entered, put_self]
    refine ⟨nodup_nil, fun fa => ⟨fun hmem => absurd hmem not_mem_nil, ?_⟩⟩
    rintro ⟨hfa, i, -, hrow⟩
    -- the new level has no objects
    exact absurd ((hg h).above _ (Nat.add_sub_cancel (s.udisps h).recurCnt 1).ge i)
      (hrow.trans_ne hfa)

variable {r : Option (List ℕ) × World}

theorem collect_spec (hg : ∀ i, (s.udisps i).Good) (hr : Ended h (entered h s) r) :
    ∃ s', collect h (s.udisps h) r = some s' ∧ s'.udisps = s.udisps ∧ (s.Fine → s'.Fine) := by
  obtain ⟨stop, s1⟩ := r
  have hfi : s.Fine → (entered h s).Fine := fun hf =>
    hf.put (u := { s.udisps h with recurCnt := (s.udisps h).recurCnt + 1 }) (hg h).count h
  have ho : ∀ i, i ≠ h → s1.udisps i = s.udisps i := by
    intro i hi
    rw [hr.keeps.others i hi, entered, put_of_ne _ _ hi]
  have hb := hr.keeps.below
  rw [entered, put_self] at hb
  cases stop with
  | none =>
    have hrow : Udisp.rowCount (s1.udisps h).row = 0 := hr.ready.tracks.rowCount (hr.ready.good h)
    obtain ⟨-, s', hl, hs, hf'⟩ := leave_spec hg (hr.ready.good h) ho hb hrow
    exact ⟨s', hl, hs, fun hf => hf' (hr.keeps.fine (hfi hf))⟩
  | some held =>
    obtain ⟨s2, hgc, hgo, hk, hrow, hfr⟩ := gc_all hr.ready
    obtain ⟨s3, hs3⟩ : ∃ s3 : World, s3 = { s2 with aborts := s2.aborts ++
        [⟨held, s2.frees.drop s1.frees.length, (s.udisps h).objcnt, (s2.udisps h).objcnt⟩] } :=
      ⟨_, rfl⟩
    have hsame3 : s3.udisps = s2.udisps := by rw [hs3]
    obtain ⟨hcnt, s', hl, hs, hf'⟩ := leave_spec (s := s3) hg (hsame3 ▸ hgo h)
      (fun i hi => by rw [hsame3, hk.others i hi, ho i hi])
        (hsame3 ▸ hb.trans hk.below) (hsame3 ▸ hrow)
    refine ⟨s', ?_, hs, fun hf => hf' ?_⟩
    · rw [collect, hgc, bind_some, ← hs3, hl]
    have hf2 := hk.fine (hr.keeps.fine (hfi hf))
    rw [hs3]
    refine ⟨hf2.1, hf2.2.1, fun a ha => ?_⟩
    rcases mem_append.mp ha with ha | ha
    · exact hf2.2.2 a ha
    rw [mem_singleton.mp ha]
    refine ⟨?_, by rw [← hcnt, hsame3]⟩
    -- nothing that is held is zero
    have hall : held.filter (· ≠ 0) = held :=
      filter_eq_self.mpr fun fa hfa => decide_eq_true (hr.ready.tracks.ne_zero hfa)
    rw [hall]
    exact hfr

variable {code : World → Option (Option (List ℕ) × World)}

theorem dj64Call_spec
    (hg : ∀ i, (s.udisps i).Good) (hh : h < maxHandles) (hd : (s.udisps h).recurCnt < maxRecur)
    (hco : ∃ r, code (entered h s) = some r ∧ Ended h (entered h s) r) :
    ∃ s', dj64Call h code s = some s' ∧ s'.udisps = s.udisps ∧ (s.Fine → s'.Fine) := by
  obtain ⟨r, hrun, he⟩ := hco
  obtain ⟨s', hc, hs, hf⟩ := collect_spec hg he
  refine ⟨s', ?_, hs, hf⟩
  rw [dj64Call, if_pos ⟨hh, hd⟩]
  change (code (entered h s)).bind _ = _
  rw [hrun, bind_some, hc]

theorem Ready.of_same (hr : Ready h held s) (hs : s'.udisps = s.udisps) (hf : s.Fine → s'.Fine) :
    Ready h held s' ∧ Keeps h s s' := by
  refine ⟨⟨hs ▸ hr.good, hs ▸ hr.level, hs ▸ hr.tracks⟩, fun i _ => by rw [hs], ?_, hf⟩
  rw [hs]
  exact .refl _

variable {depth : ℕ → ℕ}

theorem entered_depth (hd : ∀ i, (s.udisps i).recurCnt = depth i) (h : ℕ) (i : ℕ) :
    ((entered h s).udisps i).recurCnt = update depth h (depth h + 1) i := by
  by_cases hi : i = h
  · rw [hi, entered, put_self, update_self, ← hd h]
  · rw [entered, put_of_ne _ _ hi, update_of_ne hi, hd i]

/-! ### What goes wrong otherwise -/

theorem enterObj_seen (hs : enterObj h fa s = some s') : s.seen ⊆ s'.seen := by
  obtain ⟨i, -, rfl⟩ := Option.map_eq_some_iff.mp hs
  exact subset_append_left ..

variable {isDosPtr isOut : Bool}

theorem doObjInit_seen (hs : doObjInit h isDosPtr isOut len fa s = some s') : s.seen ⊆ s'.seen := by
  cases isDosPtr with
  | true =>
    cases hs
    exact refl _
  | false =>
    cases isOut with
    | true => exact enterObj_seen hs
    | false => exact enterObj_seen (s := s.copy fa len) hs

theorem doRmDosobj_seen (hs : doRmDosobj h fa s = some s') : s.seen ⊆ s'.seen := by
  obtain ⟨i, -, rfl⟩ := Option.map_eq_some_iff.mp hs
  exact subset_append_left ..

theorem objDone_seen {len : Option ℕ} (hs : objDone h isDosPtr fa len s = some s') :
    s.seen ⊆ s'.seen := by
  cases isDosPtr with
  | true =>
    cases hs
    exact refl _
  | false =>
    cases len with
    | none => exact doRmDosobj_seen hs
    | some len => exact doRmDosobj_seen (s := s.copy fa len) hs

theorem gc_seen (hs : gc h is s = some s') : s.seen ⊆ s'.seen := by
  induction is generalizing s with
  | nil =>
    cases hs
    exact refl _
  | cons i is ih =>
    rw [gc] at hs
    split_ifs at hs
    · obtain ⟨s1, hrm, hgc⟩ := bind_eq_some_iff.mp hs
      exact List.Subset.trans (doRmDosobj_seen hrm) (ih hgc)
    · exact ih hs

theorem leave_seen (hs : leave h u s = some s') : s.seen ⊆ s'.seen := by
  unfold leave at hs
  split_ifs at hs
  cases hs
  exact subset_append_left ..

theorem collect_seen (hs : collect h u r = some s') : r.2.seen ⊆ s'.seen := by
  obtain ⟨stop, s1⟩ := r
  cases stop with
  | none => exact leave_seen hs
  | some held =>
    obtain ⟨s2, hgc, hl⟩ := bind_eq_some_iff.mp hs
    have hsub := leave_seen hl
    exact List.Subset.trans (gc_seen hgc) hsub

theorem dj64Call_seen (hs : dj64Call h code s = some s') :
    ∃ r, code (entered h s) = some r ∧ r.2.seen ⊆ s'.seen := by
  unfold dj64Call at hs
  dsimp only at hs
  split_ifs at hs
  obtain ⟨r, hco, hc⟩ := bind_eq_some_iff.mp hs
  exact ⟨r, hco, collect_seen hc⟩

theorem run_seen (hrun : run h body held s = some r) : s.seen ⊆ r.2.seen := by
  induction body generalizing h held s r with
  | ret =>
    cases hrun
    exact refl _
  | abort =>
    cases hrun
    exact refl _
  | init isDosPtr isOut len fa k ih =>
    obtain ⟨s1, hini, hk⟩ := bind_eq_some_iff.mp hrun
    exact List.Subset.trans (doObjInit_seen hini) (ih hk)
  | done isDosPtr fa len k ih =>
    obtain ⟨s1, hd, hk⟩ := bind_eq_some_iff.mp hrun
    exact List.Subset.trans (objDone_seen hd) (ih hk)
  | call h' inner k ihInner ih =>
    obtain ⟨s1, hc, hk⟩ := bind_eq_some_iff.mp hrun
    obtain ⟨r', hco, hsub⟩ := dj64Call_seen hc
    have he : s.seen ⊆ (entered h' s).seen := subset_append_left ..
    have hin : s.seen ⊆ r'.2.seen := List.Subset.trans he (ihInner hco)
    exact List.Subset.trans (List.Subset.trans hin hsub) (ih hk)

def Wrong (s : World) : Prop := ∃ u ∈ s.seen, u.objcnt ≠ u.liveObjs

theorem Wrong.mono (hw : Wrong s) (hsub : s.seen ⊆ s'.seen) : Wrong s' := by
  obtain ⟨u, hu, hne⟩ := hw
  exact ⟨u, hsub hu, hne⟩

theorem enterObj_unserved (hr : Ready h held s) (hnot : ¬ (fa ≠ 0 ∧ held.length < maxObjs))
    (hs : enterObj h fa s = some s') : Wrong s' := by
  obtain ⟨i, hi, rfl⟩ := Option.map_eq_some_iff.mp hs
  obtain ⟨hlt, hrow⟩ := findOh_spec hi
  have hr' : (s.udisps h).row i = 0 := hrow
  by_cases hfa : fa = 0
  · refine ⟨_, mem_append_right _ (mem_singleton.mpr rfl), ?_⟩
    have hsa : (s.udisps h).setRow i fa = s.udisps h := by
      rw [Udisp.setRow, hfa, ← hr', update_eq_self, Udisp.row, update_eq_self]
    have hc := (hr.good h).count
    change (s.udisps h).objcnt + 1 ≠ (((s.udisps h).setRow i fa).liveObjs : ℤ)
    rw [hsa]
    omega
  · exfalso
    have hro : Udisp.rowCount (update (s.udisps h).row i fa) ≤ maxObjs :=
      (Finset.card_filter_le _ _).trans (Finset.card_range _).le
    rw [Udisp.rowCount_insert hlt hr' hfa, hr.tracks.rowCount (hr.good h)] at hro
    exact hnot ⟨hfa, hro⟩

theorem doObjInit_unserved (hr : Ready h held s)
    (hnot : ¬ (isDosPtr = false → fa ≠ 0 ∧ held.length < maxObjs))
    (hs : doObjInit h isDosPtr isOut len fa s = some s') : Wrong s' := by
  cases isDosPtr with
  | true => exact absurd (fun hdos => absurd hdos (by decide)) hnot
  | false =>
    have hn' : ¬ (fa ≠ 0 ∧ held.length < maxObjs) := fun hse => hnot fun _ => hse
    cases isOut with
    | true => exact enterObj_unserved hr hn' hs
    | false => exact enterObj_unserved (hr.copy fa len) hn' hs

theorem Ended.after (he : Ended h s1 r) (hk : Keeps h s s1) : Ended h s r :=
  ⟨he.ready, hk.trans he.keeps⟩

/-- **A served run ends well, and any other goes wrong** if it ends at all; one case for each step
of the code. -/
theorem run_spec (hl : body.Legal depth held) (hd : ∀ i, (s.udisps i).recurCnt = depth i)
    (hr : Ready h held s) :
    (body.Served held → ∃ r, run h body held s = some r ∧ Ended h s r) ∧
      (¬ body.Served held → ∀ r, run h body held s = some r → Wrong r.2) := by
  induction body generalizing h held s depth with
  | ret =>
    have hnil : held = [] := hl
    subst hnil
    exact ⟨fun _ => ⟨(none, s), rfl, hr, .refl h s⟩, fun hnot => absurd trivial hnot⟩
  | abort => exact ⟨fun _ => ⟨(some held, s), rfl, hr, .refl h s⟩, fun hnot => absurd trivial hnot⟩
  | init isDosPtr isOut len fa k ih =>
    by_cases hs : isDosPtr = false → fa ≠ 0 ∧ held.length < maxObjs
    · obtain ⟨s1, hini, hre, hke⟩ := doObjInit_served hr isDosPtr isOut len hs hl.1
      obtain ⟨h1, h2⟩ := ih hl.2 (fun i => (hke.recurCnt i).trans (hd i)) hre
      rw [run, hini, bind_some]
      exact ⟨fun hse => (h1 hse.2).imp fun r he => ⟨he.1, he.2.after hke⟩,
        fun hnot => h2 fun hk => hnot ⟨hs, hk⟩⟩
    · refine ⟨fun hse => absurd hse.1 hs, fun _ r hrun => ?_⟩
      obtain ⟨s1, hini, hk⟩ := bind_eq_some_iff.mp hrun
      exact (doObjInit_unserved hr hs hini).mono (run_seen hk)
  | done isDosPtr fa len k ih =>
    obtain ⟨s1, hdo, hre, hke⟩ := objDone_held hr isDosPtr len hl.1
    obtain ⟨h1, h2⟩ := ih hl.2 (fun i => (hke.recurCnt i).trans (hd i)) hre
    rw [run, hdo, bind_some]
    exact ⟨fun hse => (h1 hse).imp fun r he => ⟨he.1, he.2.after hke⟩, h2⟩
  | call h' inner k ihInner ih =>
    obtain ⟨⟨hh, hlt⟩, hin, hres⟩ := hl
    rw [← hd h'] at hlt
    obtain ⟨hi1, hi2⟩ := ihInner hin (entered_depth hd h') (ready_entered hr.good hlt)
    by_cases hs : inner.Served []
    · obtain ⟨s1, hc, hsa, hf⟩ := dj64Call_spec hr.good hh hlt (hi1 hs)
      obtain ⟨hre, hke⟩ := hr.of_same hsa hf
      obtain ⟨h1, h2⟩ := ih hres (fun i => (hke.recurCnt i).trans (hd i)) hre
      rw [run, hc, bind_some]
      exact ⟨fun hse => (h1 hse.2).imp fun r he => ⟨he.1, he.2.after hke⟩,
        fun hnot => h2 fun hk => hnot ⟨hs, hk⟩⟩
    · refine ⟨fun hse => absurd hse.1 hs, fun _ r hrun => ?_⟩
      obtain ⟨s1, hca, hk⟩ := bind_eq_some_iff.mp hrun
      obtain ⟨r', hc, hsub⟩ := dj64Call_seen hca
      exact ((hi2 hs r' hc).mono hsub).mono (run_seen hk)

/-! ### Calls from outside -/

/-- No call is active, and the tables are good. -/
structure Idle (s : World) : Prop where
  good : ∀ i, (s.udisps i).Good
  idle : ∀ i, (s.udisps i).recurCnt = 0

theorem idle_boot : Idle boot := by
  refine ⟨fun i => ⟨Nat.zero_le _, fun _ _ _ => rfl, fun _ _ _ => rfl, ?_, fun _ _ _ _ _ _ hne =>
    absurd rfl hne⟩, fun _ => rfl⟩
  rfl

def LegalCalls (calls : List (ℕ × Body)) : Prop :=
  ∀ c ∈ calls, c.1 < maxHandles ∧ c.2.Legal (update (fun _ => 0) c.1 1) []

variable {calls : List (ℕ × Body)}

theorem runCalls_seen (hs : runCalls calls s = some s') : s.seen ⊆ s'.seen := by
  induction calls generalizing s with
  | nil =>
    cases hs
    exact refl _
  | cons c calls ih =>
    obtain ⟨s1, hca, hc⟩ := bind_eq_some_iff.mp hs
    obtain ⟨r, hco, hsub⟩ := dj64Call_seen hca
    have he : s.seen ⊆ (entered c.1 s).seen := subset_append_left ..
    have hin : s.seen ⊆ r.2.seen := List.Subset.trans he (run_seen hco)
    exact List.Subset.trans (List.Subset.trans hin hsub) (ih hc)

theorem runCalls_spec (hi : Idle s) (hl : LegalCalls calls) :
    ((∀ c ∈ calls, c.2.Served []) → ∃ s', runCalls calls s = some s' ∧ (s.Fine → s'.Fine)) ∧
      (¬ (∀ c ∈ calls, c.2.Served []) → ∀ s', runCalls calls s = some s' → Wrong s') := by
  induction calls generalizing s with
  | nil => exact ⟨fun _ => ⟨s, rfl, id⟩, fun hnot => absurd (by simp) hnot⟩
  | cons c calls ih =>
    obtain ⟨⟨hh, hcal⟩, hl⟩ := forall_mem_cons.mp hl
    have hlt : (s.udisps c.1).recurCnt < maxRecur := by
      rw [hi.idle]
      decide
    obtain ⟨h1, h2⟩ := run_spec hcal (entered_depth hi.idle c.1) (ready_entered hi.good hlt)
    rw [forall_mem_cons]
    by_cases hse : c.2.Served []
    · obtain ⟨s1, hc, hsa, hf⟩ := dj64Call_spec hi.good hh hlt (h1 hse)
      obtain ⟨h3, h4⟩ := ih ⟨hsa ▸ hi.good, hsa ▸ hi.idle⟩ hl
      rw [runCalls, hc, bind_some]
      exact ⟨fun hs => (h3 hs.2).imp fun s' h' => ⟨h'.1, h'.2 ∘ hf⟩,
        fun hnot => h4 fun hs => hnot ⟨hse, hs⟩⟩
    · refine ⟨fun hs => absurd hs.1 hse, fun _ s' hs => ?_⟩
      obtain ⟨s1, hca, hk⟩ := bind_eq_some_iff.mp hs
      obtain ⟨r, hco, hsub⟩ := dj64Call_seen hca
      exact ((h2 hse r hco).mono hsub).mono (runCalls_seen hk)

/-- **The world stays fine if and only if every allocation is served.** -/
theorem objects_fine_iff (calls : List (ℕ × Body)) (hlegal : LegalCalls calls) :
    (∃ s, runCalls calls boot = some s ∧ s.Fine) ↔ ∀ c ∈ calls, c.2.Served [] := by
  constructor
  · rintro ⟨s, hrun, hf⟩
    by_contra hnot
    obtain ⟨u, hu, hne⟩ := (runCalls_spec idle_boot hlegal).2 hnot s hrun
    exact hne (hf.2.1 u hu)
  intro hs
  obtain ⟨s, hrun, hf⟩ := (runCalls_spec idle_boot hlegal).1 hs
  refine ⟨s, hrun, hf ⟨?_, ?_, ?_⟩⟩
  · exact fun c hc => absurd hc not_mem_nil
  · exact fun u hu => absurd hu not_mem_nil
  · exact fun a ha => absurd ha not_mem_nil

/-- A call that makes an object, calls code that aborts with two, and releases its own. -/
def nested (fa : ℕ) : Body :=
  .init false false 8 16 (.call 1 (.init false true 4 32 (.init false false 4 fa .abort))
    (.done false 16 (some 8) .ret))

theorem objects_fine_iff_nested : ∃ s, runCalls [(1, nested 48)] boot = some s ∧ s.Fine := by
  refine (objects_fine_iff [(1, nested 48)] ?_).mpr ?_
  · intro c hc
    rw [mem_singleton.mp hc]
    refine ⟨by decide, by simp, ⟨by decide, by simp [maxRecur]⟩, ⟨by simp, by simp [hold],
      trivial⟩, by simp [hold], rfl⟩
  · intro c hc
    rw [mem_singleton.mp hc]
    exact ⟨by decide, ⟨by decide, by decide, trivial⟩, trivial⟩

/-- With the second allocation failing, four bytes are copied to address zero, and after the abort
the counter of the handle is not what it was: the assertion of `dj64_call` fails. -/
theorem objects_zero_copied :
    ((doObjInit 1 false false 4 0 (entered 1 boot)).map fun s => (s.copies, (s.udisps 1).objcnt)) =
      some ([(0, 4)], 1) ∧
      (runCalls [(1, nested 0)] boot).isNone := by
  decide +kernel

end Objects

end Thunks
