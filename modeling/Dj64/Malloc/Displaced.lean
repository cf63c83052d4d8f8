import Dj64.Malloc.Realloc
import Dj64.Malloc.Threads

/-!
# Freeing a block when `lastsbrk` has become another range

`extendsbrk` can leave a heap that is not well formed.  If the source answers with an unexpected
address, the old `lastsbrk` is linked into a free list even if it has no room for `prevfree`: the
link then lies behind the block, possibly on the `prev` field of the block there.  And a region may
become longer than the largest bucket.  The `dofree` that follows in the same `nrealloc` still ends
well, because what it reads and writes are cells that do not overlap.
-/

namespace Nmalloc

open Set

variable {T : Target} {h k k' : Heap} {R : Set (ℕ × ℕ)} {L P : Set ℕ}
  {fl fl' : ℕ → List ℕ} {a b m n x : ℕ} {f g : Field}

namespace Target

/-! ### The cells around a displaced block -/

/-- The blocks outside the new region: those of the client, the free ones, and `X`. -/
def allBlocks (L : Set ℕ) (fl : ℕ → List ℕ) (X : Set ℕ) : Set ℕ := {a | a ∈ L ∨ a ∈ X ∨ Free fl a}

/-- The blocks that have links: the free ones, `X` and `A`. -/
def linkBlocks (fl : ℕ → List ℕ) (X A : Set ℕ) : Set ℕ := {a | Free fl a ∨ a ∈ X ∨ a ∈ A}

/-- The fields that can be told apart though the blocks `X` are linked without room for `prevfree`:
the link lies on the `prev` field of a block right behind the header. -/
def Stray (T : Target) (L : Set ℕ) (fl : ℕ → List ℕ) (X A : Set ℕ) (a : ℕ) (f : Field) : Prop :=
  a ∈ allBlocks L fl X ∧ (f = .prevfree → a ∈ linkBlocks fl X A) ∧
    (f = .prev → ∀ d ∈ X, a ≠ d + T.dataOffset)

/-- The fields that are written: those of the blocks with links, and `prev` of any block. -/
def StrayWrite (T : Target) (L : Set ℕ) (fl : ℕ → List ℕ) (X A : Set ℕ) (a : ℕ) (f : Field) :
    Prop :=
  T.Stray L fl X A a f ∧ (a ∈ linkBlocks fl X A ∨ f = .prev)

/-- The bytes that are spared: the blocks `K` but for their `prev` field, and the new region. -/
def Spared (T : Target) (K : Set ℕ) (len : ℕ → ℕ) (lo up : ℕ) : Set ℕ :=
  {x | (∃ a ∈ K, a + T.ptr ≤ x ∧ x < a + len a) ∨ lo ≤ x ∧ x < up}

/-- The heap `h` before `lastsbrk` becomes the range from `lo` to `up`.  The old `lastsbrk` is in
`X` if it is displaced, and in the range otherwise. -/
structure Displaced (T : Target) (R : Set (ℕ × ℕ)) (L : Set ℕ) (fl : ℕ → List ℕ) (h : Heap)
    (X : Set ℕ) (lo up : ℕ) : Prop where
  wf : T.WF R L fl h
  last : h.lastsbrk ≠ 0
  old : ∀ d ∈ X, d = h.lastsbrk
  pos : 0 < lo
  apart : ∀ a ∈ allBlocks L fl X, up ≤ a ∨ a + T.get h a .sz ≤ lo
  gap : ∀ d ∈ X, up ≤ d ∨ d + T.freeHeader ≤ lo
  outside : up ≤ T.none ∨ T.none < lo

/-- The free lists `fl'` of a heap whose blocks are still laid out as in `h`. -/
abbrev Loose (T : Target) (L : Set ℕ) (fl : ℕ → List ℕ) (h : Heap) (X : Set ℕ) (lo up : ℕ)
    (A : Set ℕ) (fl' : ℕ → List ℕ) (g : Heap) : Prop :=
  Threaded T (T.Stray L fl X A) (T.StrayWrite L fl X A)
    (T.Spared (L \ A) (fun a => T.get h a .sz) lo up) fl' g

/-- Only the new region and `lastsbrk` have changed. -/
structure Inside (lo up : ℕ) (g g' : Heap) : Prop where
  mem : ∀ x, x < lo ∨ up ≤ x → g'.mem x = g.mem x
  heads : ∀ b, b ≠ 0 → g'.freehdrs b = g.freehdrs b

namespace Displaced

variable {X A : Set ℕ} {lo up d : ℕ}

section

variable (hd : T.Displaced R L fl h X lo up)
include hd

section

variable (ha : a ∈ allBlocks L fl X)
include ha

theorem mem_blocks : a ∈ blocks (inUse L h.lastsbrk) fl := by
  rcases ha with ha | ha | ha
  · exact .inl (.inl ha)
  · exact .inl (.inr ⟨hd.old a ha, hd.last⟩)
  · exact .inr ha

theorem dataOffset_le :
    T.dataOffset ≤ T.get h a .sz := hd.wf.inv.dataOffset_le (hd.mem_blocks ha)

theorem not_mem_new (h1 : lo ≤ a) (h2 : a < up) : False := by
  have h3 := hd.apart a ha
  have h4 := hd.dataOffset_le ha
  have h5 := T.dataOffset_pos
  omega

end

theorem old_next (ha : a = h.lastsbrk) : T.get h a .next = 0 := by
  rw [ha]
  exact (hd.wf.last hd.last).2.2

theorem prev_behind (hdX : d ∈ X)
    (ha : d + T.dataOffset ∈ allBlocks L fl X) : T.get h (d + T.dataOffset) .prev = 0 := by
  by_contra h0
  have hpos := T.dataOffset_pos
  have hdm := hd.mem_blocks (.inr (.inl hdX))
  have ham := hd.mem_blocks ha
  obtain ⟨hp, he, hn⟩ := hd.wf.inv.tiled.prev_spec ham h0
  -- the block below would end where `d` ends
  have heq : T.get h (d + T.dataOffset) .prev = d := by
    by_contra hne
    have h1 := hd.wf.inv.tiled.apart _ hp _ hdm hne
    have h4 := hd.wf.inv.dataOffset_le hp
    omega
  rw [heq, hd.old_next (hd.old d hdX)] at hn
  omega

end

theorem link_mem (hA : A ⊆ L) (ha : a ∈ linkBlocks fl X A) : a ∈ allBlocks L fl X := by
  rcases ha with ha | ha | ha
  · exact .inr (.inr ha)
  · exact .inr (.inl ha)
  · exact .inl (hA ha)

section

variable (hd : T.Displaced R L fl h X lo up)
include hd

theorem not_link (ha : a ∈ L \ A) : a ∉ linkBlocks fl X A := by
  rintro (h1 | h1 | h1)
  · exact hd.wf.inv.inUse a (.inl ha.1) h1
  · exact (hd.wf.last hd.last).1 (hd.old a h1 ▸ ha.1)
  · exact ha.2 h1

variable (hA : A ⊆ L)
include hA

theorem cell_end (hc : T.Stray L fl X A a f) :
    T.offset f + T.width f ≤ T.get h a .sz ∨ a ∈ X ∧ f = .prevfree := by
  by_cases hf : f = .prevfree
  · have hl := T.offset_width_le_free f
    rcases hc.2.1 hf with ha | ha | ha
    · exact .inl (hl.trans (hd.wf.inv.large a ha))
    · exact .inr ⟨ha, hf⟩
    · exact .inl (hl.trans (hd.wf.live a (hA ha)).2)
  · exact .inl ((T.offset_width_le hf).trans (hd.dataOffset_le hc.1))

theorem cell_before (ha : T.Stray L fl X A a f) (hb : T.Stray L fl X A b g)
    (hab : a + T.get h a .sz ≤ b) : a + T.offset f + T.width f ≤ b + T.offset g := by
  rcases hd.cell_end hA ha with h1 | ⟨haX, rfl⟩
  · omega
  -- blocks are aligned: the next one starts right behind the header or leaves room for the link
  have h1 := hd.dataOffset_le ha.1
  have h2 := hd.wf.inv.aligned _ (hd.mem_blocks ha.1)
  have h3 := hd.wf.inv.aligned _ (hd.mem_blocks hb.1)
  have hp := T.ptr_cases
  have hend : T.offset .prevfree + T.width .prevfree = T.dataOffset + T.ptr := rfl
  by_cases hg : g = .prev
  · have hb' := hb.2.2 hg a haX
    unfold dataOffset align at *
    omega
  · have hb' : T.ptr ≤ T.offset g := by
      cases g <;> simp [offset] at hg ⊢ <;> omega
    omega

theorem cell_clear_new (hc : T.Stray L fl X A a f) (h1 : lo ≤ x) (h2 : x < up) :
    x < a + T.offset f ∨ a + T.offset f + T.width f ≤ x := by
  rcases hd.apart a hc.1 with h3 | h3
  · left; omega
  rcases hd.cell_end hA hc with h4 | ⟨haX, rfl⟩
  · omega
  · have h5 := T.offset_width_le_free .prevfree
    have h6 := hd.gap a haX
    omega

/-- **The cells do not overlap**, and what is written is clear of the bytes to spare. -/
theorem cells : T.Cells (T.Stray L fl X A) (T.StrayWrite L fl X A)
      (T.Spared (L \ A) (fun a => T.get h a .sz) lo up) where
  disjoint a f b g ha hb hne := by
    by_cases hab : a = b
    · have := T.offset_disjoint (hne hab)
      omega
    · exact (hd.wf.inv.tiled.apart a (hd.mem_blocks ha.1) b (hd.mem_blocks hb.1) hab).imp
        (hd.cell_before hA ha hb) (hd.cell_before hA hb ha)
  readable a f h := h.1
  clear := by
    rintro a f ⟨hc, hw⟩ x (⟨c, ⟨hcL, hcA⟩, h1, h2⟩ | ⟨h1, h2⟩)
    · have hcm : c ∈ allBlocks L fl X := .inl hcL
      dsimp only at h2
      by_cases hac : a = c
      · -- only the `prev` field of a block in use is written
        subst hac
        have hf := hw.resolve_left (hd.not_link ⟨hcL, hcA⟩)
        subst hf
        right
        simpa [offset, width] using h1
      rcases hd.wf.inv.tiled.apart a (hd.mem_blocks hc.1) c (hd.mem_blocks hcm) hac with h3 | h3
      · right
        rcases hd.cell_end hA hc with h4 | ⟨-, rfl⟩
        · omega
        · have h5 := hd.dataOffset_le hc.1
          have hend : T.offset .prevfree + T.width .prevfree = T.dataOffset + T.ptr := rfl
          omega
      · left; omega
    · exact hd.cell_clear_new hA hc h1 h2

end

variable {g g' : Heap}

theorem link_write (hA : A ⊆ L) (ha : a ∈ linkBlocks fl X A) (hf : f ≠ .prev) :
    T.StrayWrite L fl X A a f :=
  ⟨⟨link_mem hA ha, fun _ => ha, fun h => absurd h hf⟩, .inl ha⟩

theorem loose (hd : T.Displaced R L fl h X lo up) (hA : A ⊆ L) : T.Loose L fl h X lo up A fl h where
  cells := hd.cells hA
  lists := hd.wf.inv.lists
  proper := hd.wf.inv.proper
  below _ ha := hd.wf.inv.lt_pow (.inr ha)
  range _ ha := hd.wf.inv.bucket_range (.inr ha)
  member _ ha :=
    ⟨link_write hA (.inl ha) nofun, link_write hA (.inl ha) nofun,
      (link_write hA (.inl ha) (by simp)).1⟩

theorem widen (hd : T.Displaced R L fl h X lo up) (hA : A ⊆ L)
    (ht : T.Loose L fl h X lo up ∅ fl' g) : T.Loose L fl h X lo up A fl' g := by
  have hF : linkBlocks fl X ∅ ⊆ linkBlocks fl X A := by
    rintro a (ha | ha | ha)
    · exact .inl ha
    · exact .inr (.inl ha)
    · cases ha
  have hC : ∀ a f, T.Stray L fl X ∅ a f → T.Stray L fl X A a f :=
    fun a f hc => ⟨hc.1, fun hf => hF (hc.2.1 hf), hc.2.2⟩
  have hW : ∀ a f, T.StrayWrite L fl X ∅ a f → T.StrayWrite L fl X A a f :=
    fun a f hc => ⟨hC a f hc.1, hc.2.imp (fun ha => hF ha) id⟩
  exact ⟨hd.cells hA, ht.lists, ht.proper, ht.below, ht.range, fun a ha =>
    ⟨hW _ _ (ht.member a ha).1, hW _ _ (ht.member a ha).2.1, hC _ _ (ht.member a ha).2.2⟩⟩

theorem link_of_free (ht : T.Loose L fl h X lo up A fl' g) (ha : Free fl' a) :
    a ∈ linkBlocks fl X A := (ht.member a ha).1.2.resolve_right nofun

theorem get_inside (hd : T.Displaced R L fl h X lo up) (hA : A ⊆ L) (hin : Inside lo up g g')
    (hc : T.Stray L fl X A a f) : T.get g' a f = T.get g a f := by
  refine ByteMemory.load_congr fun x h1 h2 => hin.mem x ?_
  by_contra hx
  have := hd.cell_clear_new hA hc (x := x) (by omega) (by omega)
  omega

theorem loose_inside (hd : T.Displaced R L fl h X lo up) (hA : A ⊆ L) (hin : Inside lo up g g')
    (ht : T.Loose L fl h X lo up A fl' g) : T.Loose L fl h X lo up A fl' g' :=
  ht.congr hin.heads fun _ _ _ hc => hd.get_inside hA hin hc

end Displaced

open Displaced (link_mem link_write link_of_free)

/-! ### Freeing the moved block -/

/-- The bytes `P` and `lastsbrk` are as they were. -/
structure Spares (P : Set ℕ) (g g' : Heap) : Prop where
  bytes : ∀ x ∈ P, g'.mem x = g.mem x
  last : g'.lastsbrk = g.lastsbrk

theorem Spares.trans (h1 : Spares P h k) (h2 : Spares P k k') : Spares P h k' :=
  ⟨fun x hx => (h2.bytes x hx).trans (h1.bytes x hx), h2.last.trans h1.last⟩

/-- The block `n` is about to be freed, and nothing above it is free: the end of `dofree`. -/
structure Parting (T : Target) (R : Set (ℕ × ℕ)) (L : Set ℕ) (fl : ℕ → List ℕ) (h : Heap)
    (X : Set ℕ) (lo up m : ℕ) (fl' : ℕ → List ℕ) (n : ℕ) (g : Heap) : Prop where
  loose : T.Loose L fl h X lo up {m} fl' g
  link : n ∈ linkBlocks fl X {m}
  out : ¬ Free fl' n
  span : ∃ r ∈ R, r.1 ≤ n ∧ n + T.get g n .sz ≤ r.2
  size : 0 < T.get g n .sz
  above : T.get g n .next ≠ 0 → T.get g n .next ∈ L \ {m} ∧
    T.StrayWrite L fl X {m} (T.get g n .next) .prev
  marks : ∀ a ∈ L \ {m}, T.get g a .nextfree = 0
  last : lo ≤ g.lastsbrk ∧ g.lastsbrk < up

section

variable {X : Set ℕ} {lo up : ℕ} {g : Heap}

theorem Parting.bucket (hd : T.Displaced R L fl h X lo up)
    (hp : T.Parting R L fl h X lo up m fl' n g) :
    size2bucket (T.get g n .sz) ≠ 0 ∧ size2bucket (T.get g n .sz) < T.nflists := by
  obtain ⟨r, hr, h1, h2⟩ := hp.span
  have h3 := hd.wf.inv.bounded r hr
  have h4 : T.get g n .sz < 2 ^ 32 := by omega
  have h5 := size2bucket_le h4 (n := T.nflists - 1) (by omega)
  have h6 := T.ptr_cases
  refine ⟨size2bucket_pos h4 hp.size, ?_⟩
  unfold nflists at h5 ⊢
  omega

theorem Parting.release (hd : T.Displaced R L fl h X lo up) (hm : m ∈ L)
    (hp : T.Parting R L fl h X lo up m fl' n g) :
    ∃ g', T.mv2freelist g n = .ok g' ∧
      Spares (T.Spared (L \ {m}) (fun a => T.get h a .sz) lo up) g g' := by
  have hA : {m} ⊆ L := singleton_subset_iff.2 hm
  have hmem := hd.mem_blocks (link_mem hA hp.link)
  have hn0 : n ≠ 0 := hd.wf.inv.ne_zero hmem
  have hfa : T.isFree g (T.get g n .next) = false :=
    isFree_eq_false fun h0 => hp.marks _ (hp.above h0).1
  have hl : ¬ (g.lastsbrk ≠ 0 ∧ T.get g n .next = g.lastsbrk) := by
    rintro ⟨h0, heq⟩
    have hL := (hp.above (heq ▸ h0)).1.1
    rw [heq] at hL
    exact hd.not_mem_new (.inl hL) hp.last.1 hp.last.2
  obtain ⟨g', fl2, hrun, -, -, hrel, -⟩ := hp.loose.linkfree hp.out
    ⟨link_write hA hp.link nofun, link_write hA hp.link nofun, (link_write hA hp.link (by simp)).1⟩
    ⟨hn0, hd.wf.inv.ne_none hmem⟩
    (hd.wf.inv.lt_pow hmem) (hp.bucket hd)
  exact ⟨g', (mv2freelist_eq_linkfree hn0 hfa hl).trans hrun, hrel.bytes, hrel.last⟩

theorem Ended.isFree (he : T.Ended a) : T.isFree g a = false := by
  rcases he with rfl | rfl <;> simp [Target.isFree]

theorem Displaced.prev_mem (hd : T.Displaced R L fl h X lo up) (ha : a ∈ allBlocks L fl X)
    (h0 : T.get h a .prev ≠ 0) : T.get h a .prev ∈ L ∨ Free fl (T.get h a .prev) := by
  have ham := hd.mem_blocks ha
  obtain ⟨hp, -, hn⟩ := hd.wf.inv.tiled.prev_spec ham h0
  rcases hp with (hL | ⟨heq, -⟩) | hf
  · exact .inl hL
  · rw [hd.old_next heq] at hn
    exact absurd hn.symm (hd.wf.inv.ne_zero ham)
  · exact .inr hf

/-- A block behind a displaced one reads its link as `prev`; the others read what they did. -/
structure LowRead (T : Target) (L : Set ℕ) (fl : ℕ → List ℕ) (X : Set ℕ) (h g : Heap) (a : ℕ) :
    Prop where
  mem : a ∈ allBlocks L fl X
  same : (∀ d ∈ X, a ≠ d + T.dataOffset) → T.get g a .prev = T.get h a .prev
  ended : ∀ d ∈ X, T.Ended (T.get g d .prevfree)

theorem LowRead.cases (hr : T.LowRead L fl X h g a) :
    T.Ended (T.get g a .prev) ∨ T.get g a .prev = T.get h a .prev := by
  by_cases hb : ∀ d ∈ X, a ≠ d + T.dataOffset
  · exact .inr (hr.same hb)
  · push Not at hb
    obtain ⟨d, hdX, rfl⟩ := hb
    exact .inl (hr.ended d hdX)

section

variable (hd : T.Displaced R L fl h X lo up)
include hd

theorem LowRead.ne_new (hr : T.LowRead L fl X h g a)
    (h1 : lo ≤ x) (h2 : x < up) : T.get g a .prev ≠ x := by
  have hpos := hd.pos
  have hout := hd.outside
  rcases hr.cases with he | he
  · rcases he with he | he <;> omega
  · rw [he]
    rintro rfl
    exact hd.not_mem_new ((hd.prev_mem hr.mem (by omega)).imp id .inr) h1 h2

/-- What the step for the block above leaves for the step for the block below. -/
structure LowSide (T : Target) (L : Set ℕ) (fl : ℕ → List ℕ) (h : Heap) (X : Set ℕ) (m : ℕ)
    (fl' : ℕ → List ℕ) (g : Heap) : Prop where
  chain : ∀ a f, T.Stray L fl X {m} a f → a ≤ m → f ≠ .nextfree → f ≠ .prevfree →
    (a = m → f = .prev) → T.get g a f = T.get h a f
  free : ∀ a, a < m → Free fl a → Free fl' a
  ended : ∀ d ∈ X, T.Ended (T.get g d .prevfree)

/-- A free block below is joined. -/
theorem Parting.lowerFree (hm : m ∈ L)
    (hp : T.Parting R L fl h X lo up m fl' m g) (hl : T.LowSide L fl h X m fl' g)
    (hpm : T.get g m .prev = T.get h m .prev) (hpf : Free fl (T.get h m .prev)) :
    ∃ g' fl2, T.combinelo g m = .ok (T.get h m .prev, g') ∧
      T.Parting R L fl h X lo up m fl2 (T.get h m .prev) g' ∧
      T.get g' (T.get h m .prev) .prev ≠ g'.lastsbrk ∧
      Spares (T.Spared (L \ {m}) (fun a => T.get h a .sz) lo up) g g' := by
  have hA : {m} ⊆ L := singleton_subset_iff.2 hm
  have hmS : m ∈ allBlocks L fl X := .inl hm
  have hmb := hd.mem_blocks hmS
  have hdo := T.dataOffset_pos
  have hpF : T.get h m .prev ∈ linkBlocks fl X {m} := .inl hpf
  have hpS := link_mem hA hpF
  have h0 : T.get h m .prev ≠ 0 := hd.wf.inv.ne_zero (hd.mem_blocks hpS)
  obtain ⟨-, hpe, hpn⟩ := hd.wf.inv.tiled.prev_spec hmb h0
  have hpl := hd.dataOffset_le hpS
  have hpsz : T.get g (T.get h m .prev) .sz = T.get h (T.get h m .prev) .sz :=
    hl.chain _ _ (link_write hA hpF (by simp)).1 (by omega) (by simp) (by simp) (by omega)
  have hpnx : T.get g (T.get h m .prev) .next = m :=
    (hl.chain _ _ (link_write hA hpF (by simp)).1 (by omega) (by simp) (by simp)
      (by omega)).trans hpn
  obtain ⟨r, hr, hr1, hr2⟩ := hp.span
  have hr3 := hd.wf.inv.bounded r hr
  have hpr : r.1 ≤ T.get h m .prev := by
    have hsz := hp.size
    rcases hd.wf.inv.tiled.down r hr m hmb hr1 (by omega) with ⟨-, h2⟩ | ⟨-, -, h2, -⟩
    · exact absurd h2 h0
    · exact h2
  have hfl' := hl.free _ (by omega) hpf
  obtain ⟨g', fl2, hrun, ht, hfr, habs, hend⟩ := hp.loose.combinelo
    ⟨(link_write hA hp.link (by simp)).1, (link_write hA hp.link (by simp)).1⟩
    (by rw [hpm]; exact hfl')
    (by rw [hpm]; exact hpnx)
    (by rw [hpm]; exact ⟨link_write hA hpF nofun, link_write hA hpF nofun⟩)
    (fun h0 => (hp.above h0).2) (by rw [hpm]; omega)
  rw [hpm] at hrun hfr habs
  have hsz : T.get g' (T.get h m .prev) .sz = T.get h (T.get h m .prev) .sz + T.get g m .sz := by
    rw [habs.sz, hpsz]
  have hr' : T.LowRead L fl X h g' (T.get h m .prev) := by
    refine ⟨hpS, fun hb => ?_, fun d hdX => ?_⟩
    · have hcp : T.Stray L fl X {m} (T.get h m .prev) .prev := ⟨hpS, by simp, fun _ => hb⟩
      rw [habs.fields _ _ hcp (by simp) (by simp) fun _ heq => ?_]
      · exact hl.chain _ _ hcp (by omega) (by simp) (by simp) fun _ => rfl
      · -- the block above is in use
        rw [heq] at hpF h0
        exact hd.not_link (hp.above h0).1 hpF
    have hcd : T.Stray L fl X {m} d .prevfree :=
      ⟨.inr (.inl hdX), fun _ => .inr (.inl hdX), by simp⟩
    by_cases hdf : Free fl' d
    · exact hend _ hdf (hl.ended d hdX)
    · rw [habs.fields _ _ hcd (fun h => absurd h hdf) (by simp) (by simp)]
      exact hl.ended d hdX
  refine ⟨g', fl2, hrun, ⟨ht, hpF, fun hc => ((hfr _).1 hc).2 rfl, ⟨r, hr, hpr, ?_⟩, ?_, ?_, ?_,
    ?_⟩, ?_, habs.bytes, habs.last⟩
  · omega
  · omega
  · rw [habs.next]
    exact hp.above
  · intro a ha
    have haF : ¬ Free fl' a := fun hc => hd.not_link ha (link_of_free hp.loose hc)
    rw [habs.fields a _ ⟨.inl ha.1, by simp, by simp⟩ (fun h => absurd h haF) (by simp) (by simp)]
    exact hp.marks a ha
  · rw [habs.last]
    exact hp.last
  · rw [habs.last]
    exact hr'.ne_new hd hp.last.1 hp.last.2

theorem Parting.lowerUsed (hm : m ∈ L)
    (hp : T.Parting R L fl h X lo up m fl' m g) (hr : T.LowRead L fl X h g m)
    (hpf : ¬ (T.get g m .prev = T.get h m .prev ∧ Free fl (T.get h m .prev))) :
    T.isFree g (T.get g m .prev) = false := by
  have hmS : m ∈ allBlocks L fl X := .inl hm
  have hmb := hd.mem_blocks hmS
  have hdo := T.dataOffset_pos
  rcases hr.cases with he | he
  · exact he.isFree
  rw [he]
  refine isFree_eq_false fun h0 => ?_
  rcases hd.prev_mem hmS h0 with hL | hf
  · have hlt := (hd.wf.inv.tiled.prev_spec hmb h0).2.1
    have hlen := hd.dataOffset_le (.inl hL)
    exact hp.marks _ ⟨hL, fun heq => by rw [mem_singleton_iff.1 heq] at hlt hlen; omega⟩
  · exact absurd ⟨he, hf⟩ hpf

theorem Parting.lower (hm : m ∈ L)
    (hp : T.Parting R L fl h X lo up m fl' m g) (hl : T.LowSide L fl h X m fl' g) :
    ∃ n g' fl2, (if T.isFree g (T.get g m .prev) then T.combinelo g m else .ok (m, g)) =
        .ok (n, g') ∧ T.Parting R L fl h X lo up m fl2 n g' ∧ T.get g' n .prev ≠ g'.lastsbrk ∧
      Spares (T.Spared (L \ {m}) (fun a => T.get h a .sz) lo up) g g' := by
  have hmS : m ∈ allBlocks L fl X := .inl hm
  have hr : T.LowRead L fl X h g m := ⟨hmS, fun hb =>
    hl.chain m .prev ⟨hmS, by simp, fun _ => hb⟩ le_rfl nofun nofun fun _ => rfl, hl.ended⟩
  by_cases hpf : T.get g m .prev = T.get h m .prev ∧ Free fl (T.get h m .prev)
  · obtain ⟨g', fl2, hrun, hp', hne, hs⟩ := hp.lowerFree hd hm hl hpf.1 hpf.2
    have hlt := (hd.wf.inv.tiled.prev_spec (hd.mem_blocks hmS)
      (hd.wf.inv.ne_zero (hd.mem_blocks (.inr (.inr hpf.2))))).2.1
    have hlen := hd.dataOffset_le (X := X) (.inr (.inr hpf.2))
    have hdo := T.dataOffset_pos
    refine ⟨_, g', fl2, ?_, hp', hne, hs⟩
    rw [hpf.1, hp.loose.isFree (hl.free _ (by omega) hpf.2)]
    exact hrun
  · exact ⟨m, g, fl', by rw [hp.lowerUsed hd hm hr hpf]; rfl, hp,
      hr.ne_new hd hp.last.1 hp.last.2, fun _ _ => rfl, rfl⟩

/-- The heap when `dofree` starts: the lists hold the free blocks and the displaced ones, and the
chains are those of `h`. -/
structure Starting (T : Target) (L : Set ℕ) (fl : ℕ → List ℕ) (h : Heap) (X : Set ℕ) (lo up m : ℕ)
    (fl' : ℕ → List ℕ) (g : Heap) : Prop where
  loose : T.Loose L fl h X lo up {m} fl' g
  free : ∀ a, Free fl' a ↔ a ∈ X ∨ Free fl a
  chain : ∀ a f, T.Stray L fl X {m} a f → f ≠ .nextfree → f ≠ .prevfree → T.get g a f = T.get h a f
  marks : ∀ a ∈ L \ {m}, T.get g a .nextfree = 0
  ended : ∀ d ∈ X, T.Ended (T.get g d .prevfree)
  last : lo ≤ g.lastsbrk ∧ g.lastsbrk < up

theorem Starting.out (hm : m ∈ L) (hs : T.Starting L fl h X lo up m fl' g) : ¬ Free fl' m := by
  intro hc
  rcases (hs.free m).1 hc with hX | hf
  · exact (hd.wf.last hd.last).1 (hd.old m hX ▸ hm)
  · exact hd.wf.inv.inUse m (.inl hm) hf

theorem Displaced.prev_writable (ha : a ∈ allBlocks L fl X)
    (h0 : T.get h a .prev ≠ 0) : T.StrayWrite L fl X {m} a .prev := by
  refine ⟨⟨ha, by simp, fun _ d hdX heq => ?_⟩, .inr rfl⟩
  rw [heq] at ha h0
  exact h0 (hd.prev_behind hdX ha)

theorem Starting.above_inUse (hm : m ∈ L)
    (hs : T.Starting L fl h X lo up m fl' g) (hn : Free fl' (T.get h m .next))
    (h0 : T.get h (T.get h m .next) .next ≠ 0) :
    T.get h (T.get h m .next) .next ∈ L \ {m} ∧
      T.StrayWrite L fl X {m} (T.get h (T.get h m .next) .next) .prev := by
  have hmb := hd.mem_blocks (.inl hm)
  have hn0 := (hs.loose.proper _ hn).1
  obtain ⟨-, hnb, -⟩ := hd.wf.inv.tiled.next_spec hmb hn0
  obtain ⟨hb, hne, -⟩ := (hd.wf.inv.neighbours hmb hn0).2.2 h0
  obtain ⟨-, -, hpp⟩ := hd.wf.inv.tiled.next_spec hnb h0
  have hL : T.get h (T.get h m .next) .next ∈ L := by
    rcases (hs.free _).1 hn with hX | hfr
    · exact absurd (hd.old_next (hd.old _ hX)) h0
    · obtain ⟨h1, h2⟩ := hd.wf.inv.aboveFree _ hfr
      exact (hb.resolve_right h1).resolve_right fun hc => h2 hd.last hc.1
  exact ⟨⟨hL, hne⟩, hd.prev_writable (.inl hL) (by rw [hpp]; exact hn0)⟩

/-- The step of `dofree` when a member lies above, which may be a displaced block. -/
theorem Starting.upperFree (hm : m ∈ L)
    (hs : T.Starting L fl h X lo up m fl' g) (hn : Free fl' (T.get h m .next)) :
    ∃ g' fl2, T.combinehi g m = .ok g' ∧ T.Parting R L fl h X lo up m fl2 m g' ∧
      T.LowSide L fl h X m fl2 g' ∧
      Spares (T.Spared (L \ {m}) (fun a => T.get h a .sz) lo up) g g' := by
  have hA : {m} ⊆ L := singleton_subset_iff.2 hm
  have hmb := hd.mem_blocks (.inl hm)
  have hm0 : m ≠ 0 := hd.wf.inv.ne_zero hmb
  have hmF : m ∈ linkBlocks fl X {m} := .inr (.inr rfl)
  have hnx : T.get g m .next = T.get h m .next :=
    hs.chain m _ (link_write hA hmF (by simp)).1 (by simp) (by simp)
  have hsz : T.get g m .sz = T.get h m .sz :=
    hs.chain m _ (link_write hA hmF (by simp)).1 (by simp) (by simp)
  have hdo := T.dataOffset_pos
  obtain ⟨r, hr, hr1, hr2, hr3⟩ := hd.wf.inv.region hmb
  have hn0 := (hs.loose.proper _ hn).1
  obtain ⟨hnsz, hnb, hnp⟩ := hd.wf.inv.tiled.next_spec hmb hn0
  have hnF := link_of_free hs.loose hn
  have hnS := link_mem hA hnF
  have hcn : T.StrayWrite L fl X {m} (T.get h m .next) .prev :=
    hd.prev_writable hnS (by rw [hnp]; exact hm0)
  have hgn : T.get g (T.get h m .next) .next = T.get h (T.get h m .next) .next :=
    hs.chain _ _ (link_write hA hnF (by simp)).1 (by simp) (by simp)
  have hgs : T.get g (T.get h m .next) .sz = T.get h (T.get h m .next) .sz :=
    hs.chain _ _ (link_write hA hnF (by simp)).1 (by simp) (by simp)
  have hnl := hd.dataOffset_le hnS
  have hab := Starting.above_inUse hd hm hs hn
  obtain ⟨g', fl2, hrun, ht, hfr, habs, hend⟩ := hs.loose.combinehi (hs.out hd hm) hm0
    (by rw [hnx]; exact hn) (by rw [hnx, hs.chain _ _ hcn.1 nofun nofun]; exact hnp)
    (by
      rw [hnx]
      intro heq
      exact hd.not_mem_new hnS (heq ▸ hs.last.1) (heq ▸ hs.last.2))
    ⟨link_write hA hmF nofun, link_write hA hmF nofun⟩
    (by rw [hnx]; exact (link_write hA hnF (by simp)).1)
    (hd.wf.inv.lt_pow hmb) (by rw [hnx, hgn]; exact fun h0 => (hab h0).2)
    (by rw [hnx, hsz, hgs]; exact hd.wf.inv.sz_add_lt hmb hn0)
  rw [hnx] at hfr habs
  have hnr : T.get h m .next + T.get h (T.get h m .next) .sz ≤ r.2 := by
    rcases hd.wf.inv.tiled.up r hr m hmb hr1 hr2 with ⟨-, h1⟩ | ⟨h1, h2, -⟩
    · exact absurd h1 hn0
    · exact hd.wf.inv.tiled.end_le hr hnb (by omega) (by omega)
  have hsz' : T.get g' m .sz = T.get h m .sz + T.get h (T.get h m .next) .sz := by
    rw [habs.sz, hsz, hgs]
  refine ⟨g', fl2, hrun, ⟨ht, hmF, fun hc => hs.out hd hm ((hfr m).1 hc).1,
    ⟨r, hr, hr1, ?_⟩, ?_, ?_, ?_, ?_⟩, ⟨?_, ?_, ?_⟩, habs.bytes, habs.last⟩
  · omega
  · omega
  · rw [habs.next, hgn]
    exact hab
  · intro a ha
    have haF : ¬ Free fl' a := fun hc => hd.not_link ha (link_of_free hs.loose hc)
    rw [habs.fields a _ ⟨.inl ha.1, by simp, by simp⟩ (fun h => absurd h haF) (by simp) (by simp)]
    exact hs.marks a ha
  · rw [habs.last]
    exact hs.last
  · intro a f hc hle h1 h2 hm1
    rw [habs.fields a f hc (fun _ => ⟨h1, h2⟩) ?_ ?_]
    · exact hs.chain a f hc h1 h2
    · intro heq
      rw [hm1 heq]
      simp
    -- the block above the two is higher than `m`
    rintro - rfl
    rw [hgn] at hle hc
    have h0 : T.get h (T.get h m .next) .next ≠ 0 := hd.wf.inv.ne_zero (hd.mem_blocks hc.1)
    have := (hd.wf.inv.tiled.next_spec hnb h0).1
    omega
  · intro a hlt ha
    refine (hfr a).2 ⟨(hs.free a).2 (.inr ha), ?_⟩
    omega
  · exact fun d hdX => hend d ((hs.free d).2 (.inl hdX)) (hs.ended d hdX)

/-- The step of `dofree` that joins the block above. -/
theorem Starting.upper (hm : m ∈ L) (hadj : T.get h m .next = h.lastsbrk → h.lastsbrk ∈ X)
    (hs : T.Starting L fl h X lo up m fl' g) :
    ∃ g' fl2, (if T.isFree g (T.get g m .next) then T.combinehi g m else .ok g) = .ok g' ∧
      T.Parting R L fl h X lo up m fl2 m g' ∧ T.LowSide L fl h X m fl2 g' ∧
      Spares (T.Spared (L \ {m}) (fun a => T.get h a .sz) lo up) g g' := by
  have hA : {m} ⊆ L := singleton_subset_iff.2 hm
  have hmb := hd.mem_blocks (.inl hm)
  have hmF : m ∈ linkBlocks fl X {m} := .inr (.inr rfl)
  have hnx : T.get g m .next = T.get h m .next :=
    hs.chain m _ (link_write hA hmF (by simp)).1 (by simp) (by simp)
  have hsz : T.get g m .sz = T.get h m .sz :=
    hs.chain m _ (link_write hA hmF (by simp)).1 (by simp) (by simp)
  by_cases hn : Free fl' (T.get h m .next)
  · obtain ⟨g', fl2, hrun, hre⟩ := hs.upperFree hd hm hn
    refine ⟨g', fl2, ?_, hre⟩
    rw [hnx, hs.loose.isFree hn]
    exact hrun
  -- the block above is in use
  have hnL : T.get h m .next ≠ 0 → T.get h m .next ∈ L \ {m} := by
    intro h0
    obtain ⟨hne, hnb, -⟩ := hd.wf.inv.neighbours hmb h0
    rcases hnb with (hL | ⟨heq, -⟩) | hfr
    · exact ⟨hL, fun heq => hne heq.symm⟩
    · exact absurd ((hs.free _).2 (.inl (by rw [heq]; exact hadj heq))) hn
    · exact absurd ((hs.free _).2 (.inr hfr)) hn
  have hfa : T.isFree g (T.get g m .next) = false := by
    rw [hnx]
    exact isFree_eq_false fun h0 => hs.marks _ (hnL h0)
  obtain ⟨r, hr, hr1, hr2, hr3⟩ := hd.wf.inv.region hmb
  have hlen := hd.dataOffset_le (.inl hm)
  have hdo := T.dataOffset_pos
  refine ⟨g, fl', by rw [hfa]; rfl, ⟨hs.loose, hmF, hs.out hd hm, ⟨r, hr, hr1, ?_⟩, ?_, ?_,
    hs.marks, hs.last⟩, ⟨fun a f hc _ h1 h2 _ => hs.chain a f hc h1 h2,
    fun a _ ha => (hs.free a).2 (.inr ha), hs.ended⟩, fun _ _ => rfl, rfl⟩
  · rw [hsz]
    exact hr3
  · omega
  · intro h0
    rw [hnx] at h0 ⊢
    obtain ⟨-, -, hnp⟩ := hd.wf.inv.tiled.next_spec hmb h0
    exact ⟨hnL h0, hd.prev_writable (.inl (hnL h0).1) (by rw [hnp]; exact hd.wf.inv.ne_zero hmb)⟩

end

theorem dofree_eq : T.dofree g m =
    let g1 := T.set (T.set g m .prevfree T.none) m .nextfree T.none
    (if T.isFree g1 (T.get g1 m .next) then T.combinehi g1 m else .ok g1) >>= fun g2 =>
      (if T.isFree g2 (T.get g2 m .prev) then T.combinelo g2 m else .ok (m, g2)) >>= fun p =>
        if p.2.lastsbrk ≠ 0 ∧ p.2.lastsbrk = T.get p.2 p.1 .prev then .ok p.2
        else T.mv2freelist p.2 p.1 := by
  simp only [ite_bind]
  rfl

/-- Marking the block changes its links only. -/
theorem Starting.mark (hd : T.Displaced R L fl h X lo up) (hm : m ∈ L)
    (hs : T.Starting L fl h X lo up m fl' g) :
    T.Starting L fl h X lo up m fl' (T.set (T.set g m .prevfree T.none) m .nextfree T.none) ∧
      Spares (T.Spared (L \ {m}) (fun a => T.get h a .sz) lo up) g
        (T.set (T.set g m .prevfree T.none) m .nextfree T.none) := by
  have hA : {m} ⊆ L := singleton_subset_iff.2 hm
  have hmF : m ∈ linkBlocks fl X {m} := .inr (.inr rfl)
  have htr := ((Traced.refl T _ _ g).set hs.loose.cells (g := .prevfree) (link_write hA hmF nofun)
    T.none_lt).set hs.loose.cells (g := .nextfree) (link_write hA hmF nofun) T.none_lt
  obtain ⟨g1, hg1⟩ : ∃ g1, T.set (T.set g m .prevfree T.none) m .nextfree T.none = g1 := ⟨_, rfl⟩
  have hl1 : g1.freehdrs = g.freehdrs := by rw [← hg1]; rfl
  have hl : g1.lastsbrk = g.lastsbrk := congrFun hl1 0
  rw [hg1] at htr ⊢
  have ho : ∀ a f, T.Stray L fl X {m} a f → (a = m → f ≠ .nextfree ∧ f ≠ .prevfree) →
      T.get g1 a f = T.get g a f := by
    intro a f hc hne
    rw [htr.fields a f hc]
    simp only [Records.upd]
    grind
  refine ⟨⟨?_, hs.free, ?_, ?_, ?_, ?_⟩, htr.bytes, hl⟩
  · refine hs.loose.congr (fun b _ => by rw [hl1]) fun a ha f hc => ho a f hc fun heq => ?_
    exact absurd (heq ▸ ha) (hs.out hd hm)
  · exact fun a f hc h1 h2 => (ho a f hc fun _ => ⟨h1, h2⟩).trans (hs.chain a f hc h1 h2)
  · intro a ha
    rw [ho a _ ⟨.inl ha.1, by simp, by simp⟩ fun heq => absurd heq ha.2]
    exact hs.marks a ha
  · intro d hdX
    rw [ho d _ ⟨.inr (.inl hdX), fun _ => .inr (.inl hdX), by simp⟩ fun heq => ?_]
    · exact hs.ended d hdX
    · exact absurd ((hs.free d).2 (.inl hdX)) (heq ▸ hs.out hd hm)
  · rw [hl]
    exact hs.last

/-- **`dofree`** of a block of the client when `lastsbrk` is a new range: it ends, and what is in
use stays as it is. -/
theorem Starting.dofree (hd : T.Displaced R L fl h X lo up) (hm : m ∈ L)
    (hadj : T.get h m .next = h.lastsbrk → h.lastsbrk ∈ X)
    (hs : T.Starting L fl h X lo up m fl' g) :
    ∃ g', T.dofree g m = .ok g' ∧
      Spares (T.Spared (L \ {m}) (fun a => T.get h a .sz) lo up) g g' := by
  obtain ⟨hs1, hsp1⟩ := hs.mark hd hm
  obtain ⟨g2, fl2, hrun2, hp2, hl2, hsp2⟩ := hs1.upper hd hm hadj
  obtain ⟨n, g3, fl3, hrun3, hp3, hne, hsp3⟩ := hp2.lower hd hm hl2
  obtain ⟨g4, hrun4, hsp4⟩ := hp3.release hd hm
  refine ⟨g4, ?_, ((hsp1.trans hsp2).trans hsp3).trans hsp4⟩
  have hst : ¬ (g3.lastsbrk ≠ 0 ∧ g3.lastsbrk = T.get g3 n .prev) := fun hc => hne hc.2.symm
  rw [dofree_eq]
  dsimp only
  rw [hrun2, ok_bind, hrun3, ok_bind]
  rw [if_neg hst]
  exact hrun4

end

end Target

end Nmalloc
