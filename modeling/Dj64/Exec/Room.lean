import Dj64.Exec.Spawn

/-!
# The space of the transfer buffer

How much space is in use, and whether the next request can be met, depends on lengths only.  `Room`
is this abstraction of the transfer buffer; the operations of the buffer follow it, and keep what
has been laid out at the same offsets while the buffer moves.
-/

namespace Exec

open ByteMemory Outcomes Nat List Option

/-- The length of the buffer, the space in use and the number of moves. -/
structure Room where
  len : ℕ
  used : ℕ
  moves : ℕ
  deriving DecidableEq

namespace Room

/-- `check_talloc`, when DOS provides every block that is asked for. -/
def reserve (r : Room) (amt : ℕ) : Option Room :=
  if r.used + amt < r.len then some r
  else if maxLen < r.len + amt then none
  else some ⟨newLen r.len (r.len + amt), r.used, r.moves + 1⟩

def take (r : Room) (k : ℕ) : Room := { r with used := r.used + k }

/-- Strings are laid out one after the other. -/
def strings (r : Room) : List Bytes → Option Room
  | [] => some r
  | str :: strs => (r.reserve (str.length + 1)).bind fun r => (r.take (str.length + 1)).strings strs

def aligned (r : Room) : Room := { r with used := (r.used + 15) / 16 * 16 }

theorem aligned_of_mod {r : Room} (h : r.used % 16 = 0) : r.aligned = r := by
  have hu : (r.used + 15) / 16 * 16 = r.used := by omega
  rw [aligned, hu]

theorem reserve_used {r r' : Room} {amt : ℕ} (h : r.reserve amt = some r') : r'.used = r.used := by
  unfold reserve at h
  split_ifs at h
  · rw [some.inj h]
  · rw [← some.inj h]

def total (strs : List Bytes) : ℕ := (strs.map fun str => str.length + 1).sum

theorem strings_used {strs : List Bytes} {r r' : Room} (h : r.strings strs = some r') :
    r'.used = r.used + total strs := by
  induction strs generalizing r with
  | nil => rw [← some.inj h, total, map_nil, sum_nil, add_zero]
  | cons str strs ih =>
    obtain ⟨r1, h1, h2⟩ := bind_eq_some_iff.mp h
    have hu : (r1.take (str.length + 1)).used = r1.used + (str.length + 1) := rfl
    rw [ih h2, hu, reserve_used h1, total, total, map_cons, sum_cons]
    omega

end Room

/-! ### Blocks -/

/-- DOS provides every block, apart from the first buffer. -/
def Dos.Provides (dos : Dos) : Prop :=
  ∀ i paragraphs, ∃ segment selector, dos.allocate i paragraphs = .block segment selector ∧
    (segment * 16 + paragraphs * 16 ≤ dos.tb ∨ dos.tb + dos.tbSize ≤ segment * 16)

theorem Dos.Provides.grants {dos : Dos} (h : dos.Provides) : dos.Grants := fun i paragraphs =>
  have ⟨segment, selector, ha, _⟩ := h i paragraphs
  ⟨segment, selector, ha⟩

/-- The selector of the buffer after the moves of a room; the first buffer counts as having none. -/
def Dos.selectorAt (dos : Dos) (r : Room) : ℕ :=
  if r.moves = 0 then 0
  else
    match dos.allocate (r.moves - 1) (r.len / 16) with
    | .block _ selector => selector
    | .unavailable _ => 0

variable {dos : Dos} {s s' s'' : State} {r r' : Room} {n k u u' o amt la v : ℕ} {mem : Mem}
  {bs str : Bytes}

/-- The buffer is as its room says, and `n` bytes are reserved. -/
structure Placed (dos : Dos) (s : State) (r : Room) (n : ℕ) : Prop where
  reserved : Reserved s r.used n
  len : s.tbufLen = r.len
  requests : s.requests = r.moves
  selector : s.tbufSelector = dos.selectorAt r
  aligned : s.tbufBeg % 16 = 0
  count : s.blocks.length = r.moves
  first : r.moves = 0 → s.tbufBeg = dos.tb ∧ s.tbufLen = dos.tbSize
  apart : r.moves ≠ 0 → s.tbufBeg + s.tbufLen ≤ dos.tb ∨ dos.tb + dos.tbSize ≤ s.tbufBeg
  current : r.moves ≠ 0 → s.blocks.head? = some ⟨s.tbufBeg, s.tbufLen, s.tbufSelector⟩

theorem placed_start (hs : 0 < dos.tbSize) (htb : dos.tb % 16 = 0) (mem : Mem) :
    Placed dos (.start dos mem) ⟨dos.tbSize, 0, 0⟩ 0 :=
  ⟨reserved_start hs mem, rfl, rfl, rfl, htb, rfl, fun _ => ⟨rfl, rfl⟩, fun h => absurd rfl h,
    fun h => absurd rfl h⟩

theorem Placed.mono (h : Placed dos s r n) (hk : k ≤ n) : Placed dos s r k :=
  { h with reserved := h.reserved.mono hk }

theorem Placed.blocks_eq (h : Placed dos s r n) (hm : r.moves ≠ 0) :
    ∃ bs, s.blocks = ⟨s.tbufBeg, s.tbufLen, s.tbufSelector⟩ :: bs := by
  have hcur := h.current hm
  cases hb : s.blocks with
  | nil =>
    rw [hb] at hcur
    cases hcur
  | cons b bs =>
    rw [hb] at hcur
    exact ⟨bs, by rw [some.inj hcur]⟩

theorem Placed.same (h : Placed dos s r n)
    (hbeg : s'.tbufBeg = s.tbufBeg) (hs : SameBuffer s s' mem) (hr : Reserved s' r'.used k)
    (hlen : r'.len = r.len) (hm : r'.moves = r.moves) : Placed dos s' r' k := by
  refine ⟨hr, ?_, ?_, ?_, ?_, ?_, ?_, ?_, ?_⟩
  · rw [hs.len, h.len, hlen]
  · rw [hs.requests, h.requests, hm]
  · rw [hs.selector, h.selector, Dos.selectorAt, Dos.selectorAt, hlen, hm]
  · rw [hbeg, h.aligned]
  · rw [hs.blocks, h.count, hm]
  · rw [hbeg, hs.len, hm]
    exact h.first
  · rw [hbeg, hs.len, hm]
    exact h.apart
  · rw [hbeg, hs.blocks, hs.len, hs.selector, hm]
    exact h.current

/-! ### What was laid out stays -/

/-- The first `u` bytes of the buffer are the same. -/
def Same (s s' : State) (u : ℕ) : Prop :=
  ∀ i < u, s'.mem (s'.tbufBeg + i) = s.mem (s.tbufBeg + i)

/-- What was laid out in the first `u` bytes is still there. -/
structure Frame (s s' : State) (u : ℕ) : Prop where
  blocks : s.blocks <:+ s'.blocks
  same : Same s s' u

theorem Frame.refl (s : State) (u : ℕ) : Frame s s u := ⟨suffix_rfl, fun _ _ => rfl⟩

theorem Frame.trans (h : Frame s s' u) (h' : Frame s' s'' u') (hu : u ≤ u') : Frame s s'' u := by
  refine ⟨h.blocks.trans h'.blocks, fun i hi => ?_⟩
  rw [h'.same i (by omega), h.same i hi]

theorem Frame.holds (h : Frame s s' u) (hb : Holds s.mem (s.tbufBeg + o) bs)
    (ho : o + bs.length ≤ u) : Holds s'.mem (s'.tbufBeg + o) bs := by
  refine hb.congr fun i hi => ?_
  rw [add_assoc, add_assoc]
  exact h.same (o + i) (by omega)

theorem frame_of_same (hbeg : s'.tbufBeg = s.tbufBeg) (hs : SameBuffer s s' mem)
    (hm : ∀ i < u, mem (s.tbufBeg + i) = s.mem (s.tbufBeg + i)) : Frame s s' u := by
  refine ⟨by rw [hs.blocks], fun i hi => ?_⟩
  rw [hbeg, hs.mem, hm i hi]

/-! ### The operations -/

variable {α : Type} {E : Stop → State → Prop} {Q : α → State → Prop}

theorem checkTalloc_lays (hdos : dos.Provides) (h : Placed dos s r n) :
    Ends (fun _ _ => r.reserve amt = none)
      (fun _ s' => ∃ r', r.reserve amt = some r' ∧ Placed dos s' r' amt ∧ Frame s s' r.used)
      (checkTalloc dos amt s) := by
  have hptr := h.reserved.ptr
  have hfin := h.reserved.fin
  have hpos := h.reserved.pos
  have hlen := h.len
  have hb : Bounded (fun _ s' => Reserved s' r.used amt) (checkTalloc dos amt s) :=
    checkTalloc_bounds hdos.grants h.reserved amt
  unfold checkTalloc at hb ⊢
  by_cases hc : s.tbufEnd < s.tbufPtr + amt
  · rw [if_pos hc] at hb ⊢
    unfold State.relocate at hb ⊢
    by_cases hmax : maxLen < s.tbufLen + amt
    · rw [if_pos hmax]
      show r.reserve amt = none
      rw [Room.reserve, if_neg (by omega), if_pos (by omega)]
    have hdbl := le_doubled_of_pos hpos (not_lt.mp hmax)
    obtain ⟨segment, selector, ha, hap⟩ := hdos s.requests (newLen s.tbufLen (s.tbufLen + amt) / 16)
    simp only [if_neg hmax, if_neg (not_lt.mpr hdbl), ha] at hb ⊢
    have hr : r.reserve amt = some ⟨newLen r.len (r.len + amt), r.used, r.moves + 1⟩ := by
      rw [Room.reserve, if_neg (by omega), if_neg (by omega)]
    refine ⟨_, hr, ⟨hb, ?_, ?_, ?_, ?_, ?_, ?_, ?_, ?_⟩, ?_, ?_⟩
    · show newLen s.tbufLen (s.tbufLen + amt) = newLen r.len (r.len + amt)
      rw [hlen]
    · show s.requests + 1 = r.moves + 1
      rw [h.requests]
    · show selector = dos.selectorAt _
      rw [Dos.selectorAt, if_neg (succ_ne_zero _)]
      rw [← h.requests, ← hlen, Nat.add_sub_cancel, ha]
    · exact mul_mod_left segment 16
    · show s.blocks.length + 1 = r.moves + 1
      rw [h.count]
    · exact fun h0 => absurd h0 (succ_ne_zero _)
    · intro _
      show segment * 16 + newLen s.tbufLen (s.tbufLen + amt) ≤ dos.tb ∨ _ ≤ segment * 16
      unfold newLen at hap ⊢
      omega
    · exact fun _ => rfl
    · exact suffix_cons ..
    · intro i hi
      exact copy_inside (by omega)
  · rw [if_neg hc] at hb ⊢
    have hr : r.reserve amt = some r := by rw [Room.reserve, if_pos (by omega)]
    exact ⟨r, hr, { h with reserved := hb }, suffix_rfl, fun _ _ => rfl⟩

variable {f : Unit → M α}

theorem lays_checkTalloc (hdos : dos.Provides) (h : Placed dos s r n)
    (hE : r.reserve amt = none → ∀ e s', E e s')
    (hf : ∀ r' s', r.reserve amt = some r' → Placed dos s' r' amt → Frame s s' r.used →
      Ends E Q (f () s')) :
    Ends E Q ((checkTalloc dos amt >>= f) s) := by
  refine Ends.bind ((checkTalloc_lays hdos h).imp fun e s' hn => hE hn e s') fun _ s' h' => ?_
  obtain ⟨r', hr, hp, hfr⟩ := h'
  exact hf r' s' hr hp hfr

theorem lays_talloc (h : Placed dos s r n) (hk : k ≤ n) {f : ℕ → M α}
    (hf : ∀ s', s'.tbufBeg = s.tbufBeg → SameBuffer s s' s.mem → Placed dos s' (r.take k) (n - k) →
      Ends E Q (f (s.tbufBeg + r.used) s')) :
    Ends E Q ((talloc k >>= f) s) :=
  ends_talloc h.reserved hk fun s' hbeg hr hs => hf s' hbeg hs (h.same hbeg hs hr rfl rfl)

theorem lays_talloc_back (h : Placed dos s (r.take 1) n) {f : ℕ → M α}
    (hf : ∀ la s', s'.tbufBeg = s.tbufBeg → SameBuffer s s' s.mem → Placed dos s' r (n + 1) →
      Ends E Q (f la s')) :
    Ends E Q ((talloc (-1) >>= f) s) :=
  ends_talloc_back h.reserved fun la s' hbeg hr hs => hf la s' hbeg hs (h.same hbeg hs hr rfl rfl)

theorem lays_dosmemput (h : Placed dos s r n) (hlo : s.tbufBeg ≤ la)
    (hhi : la + bs.length ≤ s.tbufBeg + r.used)
    (hf : ∀ s', s'.tbufBeg = s.tbufBeg → SameBuffer s s' (put s.mem la bs) → Placed dos s' r n →
      Ends E Q (f () s')) :
    Ends E Q ((dosmemput bs la >>= f) s) :=
  ends_dosmemput h.reserved hlo hhi fun s' hbeg hr hs => hf s' hbeg hs (h.same hbeg hs hr rfl rfl)

theorem lays_farpokew (h : Placed dos s r n) (hlo : s.tbufBeg ≤ la)
    (hhi : la + 2 ≤ s.tbufBeg + r.used)
    (hf : ∀ s', s'.tbufBeg = s.tbufBeg → SameBuffer s s' (store s.mem la 2 v) → Placed dos s' r n →
      Ends E Q (f () s')) :
    Ends E Q ((farpokew la v >>= f) s) :=
  ends_farpokew h.reserved hlo hhi fun s' hbeg hr hs => hf s' hbeg hs (h.same hbeg hs hr rfl rfl)

/-- A string is laid out at the end of the part in use. -/
theorem lays_string (hdos : dos.Provides) (h : Placed dos s r n) {f : ℕ → M α}
    (hE : r.reserve (str.length + 1) = none → ∀ e s', E e s')
    (hf : ∀ r' s', r.reserve (str.length + 1) = some r' →
      Placed dos s' (r'.take (str.length + 1)) 0 → Frame s s' r.used →
      Holds s'.mem (s'.tbufBeg + r.used) (str ++ [0]) → Ends E Q (f (s'.tbufBeg + r.used) s')) :
    Ends E Q ((do
      checkTalloc dos (str.length + 1)
      let la ← talloc (str.length + 1 : ℕ)
      dosmemput (str ++ [0]) la
      f la : M α) s) := by
  refine lays_checkTalloc hdos h hE fun r1 s1 hr1 h1 hframe1 => ?_
  have hu := Room.reserve_used hr1
  refine lays_talloc h1 le_rfl fun s2 hb2 hs2 h2 => ?_
  have hlen : (str ++ [0]).length = str.length + 1 := by simp
  have ht : (r1.take (str.length + 1)).used = r1.used + (str.length + 1) := rfl
  refine lays_dosmemput h2 (by omega) (by omega) fun s3 hb3 hs3 h3 => ?_
  have hfr : Frame s1 s3 r.used := by
    refine (frame_of_same (u := r.used) hb2 hs2 fun _ _ => rfl).trans
      (frame_of_same hb3 hs3 fun i hi => ?_) le_rfl
    exact put_outside (.inl (by omega))
  have hbeg : s1.tbufBeg + r1.used = s3.tbufBeg + r.used := by omega
  rw [hbeg]
  refine hf r1 s3 hr1 (h3.mono (zero_le _)) (hframe1.trans hfr le_rfl) ?_
  rw [hs3.mem, hbeg]
  exact holds_put _ _ _

end Exec
