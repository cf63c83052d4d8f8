import Dj64.Malloc.Neighbours

/-!
# The free-list operations without the invariant

`extractfree`, `linkfree` and the joining of neighbours need little of the heap invariant: the lists
must be linked, and the links and sizes of their members must be cells that do not overlap.  The
members need not have room for their links, and the chains need not be whole.
-/

namespace Nmalloc

open Function

variable {T : Target} {h h' g : Heap} {fl fl' : ℕ → List ℕ} {a b m x l u : ℕ} {f : Field}

namespace Target

theorem ite_bind {α β ε : Type} {c : Prop} [Decidable c] (x y : Except ε α) (k : α → Except ε β) :
    ((if c then x else y) >>= k) = if c then x >>= k else y >>= k := by
  split_ifs <;> rfl

/-! ### Free lists over cells -/

/-- Free lists whose members have their links and sizes in cells that do not overlap. -/
structure Threaded (T : Target) (C W : ℕ → Field → Prop) (P : Set ℕ) (fl : ℕ → List ℕ) (h : Heap) :
    Prop where
  cells : T.Cells C W P
  lists : FreeLists T (T.get h) h.freehdrs fl
  proper : ∀ a, Free fl a → a ≠ 0 ∧ a ≠ T.none
  below : ∀ a, Free fl a → a < 256 ^ T.ptr
  range : ∀ a, Free fl a →
    size2bucket (T.get h a .sz) ≠ 0 ∧ size2bucket (T.get h a .sz) < T.nflists
  member : ∀ a, Free fl a → W a .nextfree ∧ W a .prevfree ∧ C a .sz

def Ended (T : Target) (x : ℕ) : Prop := x = 0 ∨ x = T.none

/-- What an operation on the free lists leaves alone: the links of the blocks outside `A`, all
other fields, and the bytes `P`. -/
structure Relinked (T : Target) (C : ℕ → Field → Prop) (P : Set ℕ) (A : ℕ → Prop) (h h' : Heap) :
    Prop where
  fields : ∀ a f, C a f → (A a → f ≠ .nextfree ∧ f ≠ .prevfree) → T.get h' a f = T.get h a f
  bytes : ∀ x ∈ P, h'.mem x = h.mem x
  last : h'.lastsbrk = h.lastsbrk

section

variable {C W : ℕ → Field → Prop} {P : Set ℕ}

section

variable (ht : Threaded T C W P fl h)
include ht

theorem Threaded.congr (hhd : ∀ b, b ≠ 0 → h'.freehdrs b = h.freehdrs b)
    (hv : ∀ a, Free fl a → ∀ f, C a f → T.get h' a f = T.get h a f) : Threaded T C W P fl h' := by
  have hsz : ∀ a, Free fl a → T.get h' a .sz = T.get h a .sz := fun a ha =>
    hv a ha _ (ht.member a ha).2.2
  refine ⟨ht.cells, ht.lists.congr hhd fun a ha => ?_, ht.proper, ht.below, fun a ha => ?_,
    ht.member⟩
  · obtain ⟨h1, h2, -⟩ := ht.member a ha
    exact ⟨hv a ha _ (ht.cells.readable _ _ h1), hv a ha _ (ht.cells.readable _ _ h2), hsz a ha⟩
  · rw [hsz a ha]
    exact ht.range a ha

theorem Threaded.isFree (ha : Free fl a) : T.isFree h a := by
  have h1 := ht.lists.links_ne_zero ht.proper ha
  simp [Target.isFree, (ht.proper a ha).1, (ht.proper a ha).2, h1]

/-- `extractfree` takes a member out. -/
theorem Threaded.extractfree (hm : Free fl m) :
    ∃ h' fl', T.extractfree h m = .ok h' ∧ Threaded T C W P fl' h' ∧
      (∀ a, Free fl' a ↔ Free fl a ∧ a ≠ m) ∧ Relinked T C P (Free fl) h h' ∧
      ∀ a, Free fl a → T.Ended (T.get h a .prevfree) → T.Ended (T.get h' a .prevfree) := by
  obtain ⟨hb0, hbn⟩ := ht.range m hm
  obtain ⟨h', hrun, htr, hhd, -, -⟩ := extractfree_trace ht.cells ht.lists ht.proper
    (fun a ha => ⟨(ht.member a ha).1, (ht.member a ha).2.1⟩) hm hbn
  have hm' := hm
  obtain ⟨b, hb⟩ := hm
  have hbk := ht.lists.bucket b m hb
  rw [hbk] at hb0 hbn
  obtain ⟨l1, l2, hbl⟩ := List.append_of_mem hb
  have hfr : ∀ a, Free (update fl b (l1 ++ l2)) a ↔ Free fl a ∧ a ≠ m := fun a =>
    ht.lists.free_update hbl
  have hce : ∀ a, Free fl a → ∀ f, f = .nextfree ∨ f = .prevfree ∨ f = .sz →
      T.get h' a f = T.unlinked (T.get h) m a f := by
    rintro a ha f hf
    obtain ⟨h1, h2, h3⟩ := ht.member a ha
    rcases hf with rfl | rfl | rfl
    · exact htr.fields a _ (ht.cells.readable _ _ h1)
    · exact htr.fields a _ (ht.cells.readable _ _ h2)
    · exact htr.fields a _ h3
  have hl := unlinked_lists ht.lists ht.proper hbl hb0 hbn
  refine ⟨h', _, hrun, ⟨ht.cells, hl.congr (fun c _ => by rw [hhd]) ?_, ?_, ?_, ?_, ?_⟩, hfr,
    ⟨?_, htr.bytes, ?_⟩, ?_⟩
  · intro a ha
    have ha' := ((hfr a).1 ha).1
    exact ⟨hce a ha' _ (by simp), hce a ha' _ (by simp), hce a ha' _ (by simp)⟩
  · exact fun a ha => ht.proper a ((hfr a).1 ha).1
  · exact fun a ha => ht.below a ((hfr a).1 ha).1
  · intro a ha
    have ha' := ((hfr a).1 ha).1
    rw [hce a ha' _ (by simp), show T.unlinked (T.get h) m a .sz = T.get h a .sz by simp [unlinked]]
    exact ht.range a ha'
  · exact fun a ha => ht.member a ((hfr a).1 ha).1
  · intro a f hc hA
    rw [htr.fields a f hc]
    -- only members have their links changed
    have hne : T.get h m .nextfree ≠ T.none → Free fl (T.get h m .nextfree) := fun h0 =>
      (ht.lists.nextfree_spec ht.proper hm' h0).1
    have hp : T.get h m .prevfree ≠ T.none → Free fl (T.get h m .prevfree) := fun h0 =>
      (ht.lists.prevfree_spec ht.proper hm' h0).1
    simp only [unlinked]
    grind
  · show h'.freehdrs 0 = h.freehdrs 0
    rw [hhd, unlinkedHeads_of_ne (by rw [hbk]; exact hb0.symm)]
  · intro a ha hend
    rw [hce a ha _ (by simp)]
    by_cases ham : a = m
    · exact .inl (by simp [unlinked, ham])
    by_cases han : a = T.get h m .nextfree
    · -- the successor of `m` leads back to `m`, so it was no head
      have hn : T.get h m .nextfree ≠ T.none := han ▸ (ht.proper a ha).2
      have hba := (ht.lists.nextfree_spec ht.proper hm' hn).2.2
      rw [← han] at hba
      rw [hba] at hend
      exact absurd hend fun h => h.elim (ht.proper m hm').1 (ht.proper m hm').2
    · simpa [unlinked, ham, han] using hend

/-- `linkfree` puts a block in front of its list. -/
theorem Threaded.linkfree (hm : ¬ Free fl m)
    (hce : W m .nextfree ∧ W m .prevfree ∧ C m .sz) (hm0 : m ≠ 0 ∧ m ≠ T.none)
    (hmlt : m < 256 ^ T.ptr)
    (hb : size2bucket (T.get h m .sz) ≠ 0 ∧ size2bucket (T.get h m .sz) < T.nflists) :
    ∃ h' fl', T.linkfree h m = .ok h' ∧ Threaded T C W P fl' h' ∧
      (∀ a, Free fl' a ↔ a = m ∨ Free fl a) ∧
      Relinked T C P (fun a => a = m ∨ Free fl a) h h' ∧ T.get h' m .prevfree = T.none := by
  obtain ⟨hb0, hbn⟩ := hb
  set b := size2bucket (T.get h m .sz) with hbd
  have hh : h.freehdrs b ≠ 0 → Free fl (h.freehdrs b) := by
    intro h0
    obtain ⟨l, hl⟩ := ht.lists.head_mem hb0 hbn h0
    exact ⟨b, by rw [hl]; simp⟩
  obtain ⟨h', hrun, htr, hhd, -, -⟩ := linkfree_trace ht.cells hce hmlt hbd.symm hbn fun h0 =>
    ⟨(ht.member _ (hh h0)).2.1, fun heq => hm (heq ▸ hh h0), ht.below _ (hh h0)⟩
  have hall : ∀ a, a = m ∨ Free fl a → W a .nextfree ∧ W a .prevfree ∧ C a .sz := by
    rintro a (rfl | ha)
    · exact hce
    · exact ht.member a ha
  have hval : ∀ a, a = m ∨ Free fl a → ∀ f, f = .nextfree ∨ f = .prevfree ∨ f = .sz →
      T.get h' a f = T.pushed (T.get h) (h.freehdrs b) m a f := by
    rintro a ha f hf
    obtain ⟨h1, h2, h3⟩ := hall a ha
    rcases hf with rfl | rfl | rfl
    · exact htr.fields a _ (ht.cells.readable _ _ h1)
    · exact htr.fields a _ (ht.cells.readable _ _ h2)
    · exact htr.fields a _ h3
  have hli := pushed_lists ht.lists ht.proper hm hbd.symm hb0 hbn
  have hfr : ∀ a, Free (update fl b (m :: fl b)) a ↔ a = m ∨ Free fl a := fun a =>
    FreeLists.free_push
  refine ⟨h', _, hrun, ⟨ht.cells, hli.congr (fun c _ => by rw [hhd]) ?_, ?_, ?_, ?_, ?_⟩, hfr,
    ⟨?_, htr.bytes, ?_⟩, ?_⟩
  · intro a ha
    have ha' := (hfr a).1 ha
    exact ⟨hval a ha' _ (by simp), hval a ha' _ (by simp), hval a ha' _ (by simp)⟩
  · exact fun a ha => ((hfr a).1 ha).elim (fun h => h ▸ hm0) (ht.proper a)
  · exact fun a ha => ((hfr a).1 ha).elim (fun h => h ▸ hmlt) (ht.below a)
  · intro a ha
    have ha' := (hfr a).1 ha
    rw [hval a ha' _ (by simp),
      show T.pushed (T.get h) (h.freehdrs b) m a .sz = T.get h a .sz by simp [pushed]]
    rcases ha' with rfl | ha'
    · exact ⟨hb0, hbn⟩
    · exact ht.range a ha'
  · exact fun a ha => hall a ((hfr a).1 ha)
  · intro a f hc hA
    rw [htr.fields a f hc]
    simp only [pushed]
    grind
  · show h'.freehdrs 0 = h.freehdrs 0
    rw [hhd, update_of_ne hb0.symm]
  · rw [hval m (.inl rfl) _ (by simp)]
    simp [pushed]

/-- What joining `u` to `l` changes: the extent of `l`, the `prev` field of the block above, and
links of the blocks `A`. -/
structure Absorbed (T : Target) (C : ℕ → Field → Prop) (P : Set ℕ) (A : ℕ → Prop) (l u : ℕ)
    (h h' : Heap) : Prop where
  sz : T.get h' l .sz = T.get h l .sz + T.get h u .sz
  next : T.get h' l .next = T.get h u .next
  fields : ∀ a f, C a f → (A a → f ≠ .nextfree ∧ f ≠ .prevfree) → (a = l → f ≠ .next ∧ f ≠ .sz) →
    (f = .prev → a ≠ T.get h u .next) → T.get h' a f = T.get h a f
  bytes : ∀ x ∈ P, h'.mem x = h.mem x
  last : h'.lastsbrk = h.lastsbrk

/-- The member `x`, one of two neighbours, leaves its list and the two are joined. -/
theorem Threaded.join (hx : Free fl x)
    (hlo : W l .next ∧ W l .sz) (hhi : C u .next ∧ C u .sz) (hout : Free fl l → l = x)
    (hlol : l < 256 ^ T.ptr) (hc : T.get h u .next ≠ 0 → W (T.get h u .next) .prev)
    (hlt : T.get h l .sz + T.get h u .sz < 2 ^ 32) :
    ∃ g fl', T.extractfree h x = .ok g ∧ Relinked T C P (Free fl) h g ∧
      Threaded T C W P fl' (T.joinWrites g l u) ∧ (∀ a, Free fl' a ↔ Free fl a ∧ a ≠ x) ∧
      Absorbed T C P (Free fl) l u h (T.joinWrites g l u) ∧
      ∀ a, Free fl a → T.Ended (T.get h a .prevfree) →
        T.Ended (T.get (T.joinWrites g l u) a .prevfree) := by
  obtain ⟨g, fl', hrun, ht', hf, hrel, hend⟩ := ht.extractfree hx
  have clo : C l .next ∧ C l .sz := ⟨ht.cells.readable _ _ hlo.1, ht.cells.readable _ _ hlo.2⟩
  have rchain : ∀ a f, C a f → f ≠ .nextfree → f ≠ .prevfree → T.get g a f = T.get h a f :=
    fun a f hC h1 h2 => hrel.fields a f hC fun _ => ⟨h1, h2⟩
  have hn : T.get g u .next = T.get h u .next := rchain u _ hhi.1 nofun nofun
  have hsl : T.get g l .sz = T.get h l .sz := rchain l _ clo.2 nofun nofun
  have hsh : T.get g u .sz = T.get h u .sz := rchain u _ hhi.2 nofun nofun
  have htr : Traced T C P g (T.joinWrites g l u) _ := joinWrites_trace ht.cells hlo hhi.2 hlol
    (by rw [hn]; exact hc) (by rw [hsl, hsh]; exact hlt)
  have hhd : (T.joinWrites g l u).freehdrs = g.freehdrs := by
    unfold joinWrites
    dsimp only
    split_ifs <;> rfl
  have hne : ∀ a, Free fl' a → a ≠ l := by
    rintro a ha rfl
    obtain ⟨h1, h2⟩ := (hf a).1 ha
    exact h2 (hout h1)
  refine ⟨g, fl', hrun, hrel, ⟨ht.cells, ht'.lists.congr (fun b _ => by rw [hhd]) ?_, ht'.proper,
    ht'.below, ?_, ht'.member⟩, hf, ⟨?_, ?_, ?_, ?_, ?_⟩, ?_⟩
  · intro a ha
    obtain ⟨h1, h2, h3⟩ := ht'.member a ha
    rw [htr.fields a _ (ht.cells.readable _ _ h1), htr.fields a _ (ht.cells.readable _ _ h2),
      htr.fields a _ h3]
    simp [joined, hne a ha]
  · intro a ha
    rw [htr.fields a _ (ht'.member a ha).2.2]
    simpa [joined, hne a ha] using ht'.range a ha
  · rw [htr.fields l _ clo.2, ← hsl, ← hsh]
    simp [joined]
  · rw [htr.fields l _ clo.1, ← hn]
    simp [joined]
  · intro a f hC hA hl hp
    rw [htr.fields a f hC, ← hrel.fields a f hC hA]
    simp only [joined]
    grind
  · exact fun y hy => (htr.bytes y hy).trans (hrel.bytes y hy)
  · show (T.joinWrites g l u).freehdrs 0 = h.freehdrs 0
    rw [hhd]
    exact hrel.last
  · intro a ha he
    rw [htr.fields a _ (ht.cells.readable _ _ (ht.member a ha).2.1)]
    simpa [joined] using hend a ha he

theorem Threaded.combinehi (hm : ¬ Free fl m) (hm0 : m ≠ 0)
    (hn : Free fl (T.get h m .next)) (hp : T.get h (T.get h m .next) .prev = m)
    (hls : T.get h m .next ≠ h.lastsbrk) (hce : W m .next ∧ W m .sz)
    (hcn : C (T.get h m .next) .next) (hmlt : m < 256 ^ T.ptr)
    (hc : T.get h (T.get h m .next) .next ≠ 0 → W (T.get h (T.get h m .next) .next) .prev)
    (hlt : T.get h m .sz + T.get h (T.get h m .next) .sz < 2 ^ 32) :
    ∃ h' fl', T.combinehi h m = .ok h' ∧ Threaded T C W P fl' h' ∧
      (∀ a, Free fl' a ↔ Free fl a ∧ a ≠ T.get h m .next) ∧
      Absorbed T C P (Free fl) m (T.get h m .next) h h' ∧
      ∀ a, Free fl a → T.Ended (T.get h a .prevfree) → T.Ended (T.get h' a .prevfree) := by
  obtain ⟨g, fl', hrun, hrel, ht', hf, habs, hend⟩ := ht.join (l := m) hn hce
    ⟨hcn, (ht.member _ hn).2.2⟩ (fun h => absurd h hm) hmlt hc hlt
  have hne : T.get g m .next = T.get h m .next :=
    hrel.fields m _ (ht.cells.readable _ _ hce.1) fun _ => by simp
  refine ⟨_, fl', ?_, ht', hf, habs, hend⟩
  unfold Target.combinehi
  rw [if_pos ⟨hm0, (ht.proper _ hn).1⟩, if_neg (not_not.2 hp)]
  simp [hls, hrun, joinWrites, hne]

theorem Threaded.combinelo (hm : C m .next ∧ C m .sz)
    (hp : Free fl (T.get h m .prev)) (hn : T.get h (T.get h m .prev) .next = m)
    (hce : W (T.get h m .prev) .next ∧ W (T.get h m .prev) .sz)
    (hc : T.get h m .next ≠ 0 → W (T.get h m .next) .prev)
    (hlt : T.get h (T.get h m .prev) .sz + T.get h m .sz < 2 ^ 32) :
    ∃ h' fl', T.combinelo h m = .ok (T.get h m .prev, h') ∧ Threaded T C W P fl' h' ∧
      (∀ a, Free fl' a ↔ Free fl a ∧ a ≠ T.get h m .prev) ∧
      Absorbed T C P (Free fl) (T.get h m .prev) m h h' ∧
      ∀ a, Free fl a → T.Ended (T.get h a .prevfree) → T.Ended (T.get h' a .prevfree) := by
  obtain ⟨g, fl', hrun, -, ht', hf, habs, hend⟩ := ht.join (u := m) hp hce hm (fun _ => rfl)
    (ht.below _ hp) hc hlt
  refine ⟨_, fl', ?_, ht', hf, habs, hend⟩
  unfold Target.combinelo
  rw [if_pos (ht.isFree hp)]
  simp [hn, hrun, joinWrites]

end

end

end Target

end Nmalloc
