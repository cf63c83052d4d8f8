import Dj64.Malloc.Displaced
import Dj64.Malloc.OutOfMemory

/-!
# `nrealloc` preserves data

`WF.nrealloc` covers the answers of the source after which the heap is well formed again.  The
client's data survives the other answers too: those that displace a `lastsbrk` without room for its
links, and those that make a region longer than the largest bucket.

* `Nmalloc.Target.Reply`: the answers of a source that refuses with `(void *)-1`.
* `Nmalloc.Target.nrealloc_preserves`: with such a source, no data is lost.
* `Nmalloc.Target.nrealloc_failure_unreported`: the sources of the 64-bit build are not such.
-/

namespace Nmalloc

open ByteMemory Nat Set

variable {T : Target} {h h' h₁ z g g' : Heap} {R R1 R' : Set (ℕ × ℕ)} {L X : Set ℕ}
  {fl fl' : ℕ → List ℕ} {a b m m' n q s x lo up size : ℕ} {f : Field} {sbrk : ℕ → ℕ}

namespace Target

/-! ### Cutting a block with nothing above it -/

theorem mem_set_outside (T : Target) (g : Heap) (v : ℕ) (hx : x < a ∨ a + T.dataOffset ≤ x)
    (hf : f ≠ .prevfree) : (T.set g a f v).mem x = g.mem x := by
  have := T.offset_width_le hf
  exact store_outside (by omega)

/-- `__nmalloc_split` on a block with nothing above it writes the two headers. -/
theorem split_top (hn : T.get g n .next = 0) (hs : T.dataOffset ≤ s)
    (hsi : s + T.dataOffset ≤ T.get g n .sz) :
    ∃ g', T.split g n s = .ok (n + s, g') ∧ T.get g' n .sz = s ∧ T.get g' n .nextfree = 0 ∧
      g'.freehdrs = g.freehdrs ∧
      ∀ x, x < n ∨ n + T.dataOffset ≤ x → x < n + s ∨ n + s + T.dataOffset ≤ x →
        g'.mem x = g.mem x := by
  have hszl := T.get_lt g n .sz
  have h256 : (256 : ℕ) ^ T.width .sz = 2 ^ 32 := by norm_num [width]
  have hsz : T.get (T.set (move g (n + s) n T.dataOffset) (n + s) .prev n) n .sz =
    T.get g n .sz := by
    have h1 := T.offset_width_le (f := .sz) (by simp)
    have h2 : T.get (T.set (move g (n + s) n T.dataOffset) (n + s) .prev n) n .sz =
        T.get (move g (n + s) n T.dataOffset) n .sz := load_store_of_disjoint (by omega)
    rw [h2]
    exact load_copy_of_disjoint (by omega)
  have hne : T.get (T.cutWrites g n s) (n + s) .next = 0 := by
    have h1 := T.offset_width_le (f := .next) (by simp)
    have hdis : ∀ (k : Heap) f v, f ≠ .prevfree → T.get (T.set k n f v) (n + s) .next =
        T.get k (n + s) .next := by
      intro k f v hf
      have := T.offset_width_le hf
      exact load_store_of_disjoint (by omega)
    unfold cutWrites
    rw [hdis _ _ _ (by simp), hdis _ _ _ (by simp), hdis _ _ _ (by simp), get_set_field T (by simp),
      get_set_field T (by simp), ← hn]
    exact load_copy_inside h1
  refine ⟨T.cutWrites g n s, ?_, ?_, ?_, rfl, ?_⟩
  · unfold split
    dsimp only
    rw [if_neg (by omega), hsz, ← cutWrites, hne]
    rfl
  · unfold cutWrites
    rw [get_set_field T (by simp), get_set_self T (by rw [h256]; omega)]
  · exact get_set_self T (T.zero_lt_width _)
  · intro x h1 h2
    unfold cutWrites
    rw [T.mem_set_outside _ _ h1 (by simp), T.mem_set_outside _ _ h1 (by simp),
      T.mem_set_outside _ _ h1 (by simp), T.mem_set_outside _ _ h2 (by simp),
      T.mem_set_outside _ _ h2 (by simp)]
    exact copy_outside h2

/-! ### Moving a block into the new range -/

theorem Starting.inside (hd : T.Displaced R L fl h X lo up) (hm : m ∈ L)
    (hs : T.Starting L fl h X lo up m fl' g) (hin : Inside lo up g g')
    (hl : lo ≤ g'.lastsbrk ∧ g'.lastsbrk < up) : T.Starting L fl h X lo up m fl' g' := by
  have hA : {m} ⊆ L := singleton_subset_iff.2 hm
  refine ⟨hd.loose_inside hA hin hs.loose, hs.free, fun a f hc h1 h2 => ?_, fun a ha => ?_,
    fun d hdX => ?_, hl⟩
  · rw [hd.get_inside hA hin hc]
    exact hs.chain a f hc h1 h2
  · rw [hd.get_inside hA hin ⟨.inl ha.1, by simp, by simp⟩]
    exact hs.marks a ha
  · rw [hd.get_inside hA hin ⟨.inr (.inl hdX), fun _ => .inr (.inl hdX), by simp⟩]
    exact hs.ended d hdX

/-- The block `m` has become `m'`, of `s` bytes; the other blocks of the client are as they were. -/
structure Carried (T : Target) (L : Set ℕ) (m m' s : ℕ) (h h' : Heap) : Prop where
  mark : T.get h' m' .nextfree = 0
  size : s ≤ T.get h' m' .sz
  header : ∀ a ∈ L \ {m}, T.get h' a .nextfree = 0 ∧ T.get h' a .sz = T.get h a .sz
  bytes : ∀ a ∈ L \ {m}, ∀ x, a + T.dataOffset ≤ x → x < a + T.get h a .sz → h'.mem x = h.mem x
  place : ∀ a ∈ L \ {m}, a + T.get h a .sz ≤ m' ∨ m' + T.get h' m' .sz ≤ a
  data : ∀ i, T.dataOffset ≤ i → i < T.get h m .sz → i < s → h'.mem (m' + i) = h.mem (m + i)
  last : h'.lastsbrk ≠ 0

theorem kept_of_bytes (hdo : T.dataOffset ≤ T.get h a .sz)
    (hb : ∀ x, a + T.ptr ≤ x → x < a + T.get h a .sz → h'.mem x = h.mem x) :
    T.get h' a .nextfree = T.get h a .nextfree ∧ T.get h' a .sz = T.get h a .sz ∧
      ∀ x, a + T.dataOffset ≤ x → x < a + T.get h a .sz → h'.mem x = h.mem x := by
  have hp := T.ptr_cases
  refine ⟨load_congr fun x h1 h2 => hb x ?_ ?_, load_congr fun x h1 h2 => hb x ?_ ?_,
    fun x h1 h2 => hb x ?_ h2⟩
  all_goals simp only [offset, width, dataOffset] at *; omega

/-- **`mv2lastsbrk`** into the new range. -/
theorem Starting.mv2lastsbrk (hd : T.Displaced R L fl h X lo up) (hm : m ∈ L)
    (hadj : T.get h m .next = h.lastsbrk → h.lastsbrk ∈ X)
    (hs : T.Starting L fl h X lo up m fl' g) (hl : g.lastsbrk = lo)
    (hn : T.get g lo .next = 0) (hup : lo + T.get g lo .sz = up) (hs1 : T.get h m .sz ≤ s)
    (hs2 : s + T.dataOffset ≤ T.get g lo .sz)
    (hby : ∀ a ∈ L, ∀ x, a + T.ptr ≤ x → x < a + T.get h a .sz → g.mem x = h.mem x) :
    ∃ g', T.mv2lastsbrk g m s = .ok (lo, g') ∧ T.Carried L m lo s h g' := by
  have hml := hd.dataOffset_le (.inl hm)
  have hdo := T.dataOffset_pos
  obtain ⟨g1, hrun1, hsz1, hmark1, hhd1, hmem1⟩ := split_top hn (by omega) hs2
  set g2 := g1.setLastsbrk (lo + s) with hg2
  have hin2 : Inside lo up g g2 := by
    refine ⟨fun x hx => hmem1 x (by omega) (by omega), fun b hb => ?_⟩
    rw [hg2, Heap.setLastsbrk, Heap.setFreehdr]
    dsimp only
    rw [Function.update_of_ne hb, hhd1]
  have hmsz : T.get g2 m .sz = T.get h m .sz := by
    have hc : T.Stray L fl X {m} m .sz := ⟨.inl hm, by simp, by simp⟩
    rw [hd.get_inside (singleton_subset_iff.2 hm) hin2 hc]
    exact hs.chain m _ hc (by simp) (by simp)
  have hin3 : Inside lo up g2 (T.movedata g2 lo m) := by
    refine ⟨fun x hx => copy_outside ?_, fun b _ => rfl⟩
    omega
  have hl2 : g2.lastsbrk = lo + s := lastsbrk_setLastsbrk g1 (lo + s)
  have hl3 : (T.movedata g2 lo m).lastsbrk = lo + s := hl2
  have hs3 := (hs.inside hd hm hin2 (by rw [hl2]; omega)).inside hd hm hin3 (by rw [hl3]; omega)
  obtain ⟨g', hr', hsp⟩ := hs3.dofree hd hm hadj
  -- the header of the new block is not touched any more
  have hh : ∀ f, f ≠ .prevfree → T.get g' lo f = T.get g1 lo f := by
    intro f hf
    have hw := T.offset_width_le hf
    refine load_congr fun x h1 h2 => ?_
    rw [hsp.bytes x (.inr (by omega))]
    exact copy_outside (by omega)
  have hk : ∀ a ∈ L \ {m}, T.get g' a .nextfree = T.get h a .nextfree ∧
      T.get g' a .sz = T.get h a .sz ∧
      ∀ x, a + T.dataOffset ≤ x → x < a + T.get h a .sz → g'.mem x = h.mem x := by
    intro a ha
    have hal := hd.dataOffset_le (.inl ha.1)
    refine kept_of_bytes hal fun x h1 h2 => ?_
    have hap := hd.apart a (.inl ha.1)
    rw [hsp.bytes x (.inl ⟨a, ha, h1, h2⟩), hin3.mem x (by omega), hin2.mem x (by omega)]
    exact hby a ha.1 x h1 h2
  refine ⟨g', ?_, ⟨?_, ?_, ?_, ?_, ?_, ?_, ?_⟩⟩
  · unfold Target.mv2lastsbrk splitLast
    rw [hl]
    dsimp only
    rw [hrun1]
    show (T.dofree (T.movedata g2 lo m) m >>= fun h => Except.ok (lo, h)) = _
    rw [hr', ok_bind]
  · rw [hh _ (by simp), hmark1]
  · rw [hh _ (by simp), hsz1]
  · intro a ha
    rw [(hk a ha).1, (hk a ha).2.1]
    exact ⟨(hd.wf.live a ha.1).1, rfl⟩
  · exact fun a ha => (hk a ha).2.2
  · intro a ha
    rw [hh _ (by simp)]
    have hap := hd.apart a (.inl ha.1)
    omega
  · intro i h1 h2 h3
    have hap := hd.apart m (.inl hm)
    rw [hsp.bytes _ (.inr (by omega)), movedata_data h1 (by omega), hin2.mem _ (by omega)]
    refine hby m hm _ ?_ (by omega)
    unfold dataOffset at h1
    omega
  · rw [hsp.last]
    omega

/-! ### The answers of the source -/

theorem newHeader_spec (T : Target) (h : Heap) (hx : x < 2 ^ 32) :
    T.get (T.newHeader h n x) n .sz = x ∧ T.get (T.newHeader h n x) n .next = 0 ∧
      (T.newHeader h n x).freehdrs = h.freehdrs ∧
      ∀ y, y < n ∨ n + T.dataOffset ≤ y → (T.newHeader h n x).mem y = h.mem y := by
  have hz := T.zero_lt_width
  refine ⟨?_, ?_, rfl, fun y hy => ?_⟩
  · unfold newHeader
    rw [get_set_field T (by simp), get_set_field T (by simp), get_set_field T (by simp),
      get_set_self T (by norm_num [width]; omega)]
  · unfold newHeader
    rw [get_set_field T (by simp), get_set_field T (by simp), get_set_self T (hz _)]
  · unfold newHeader
    rw [T.mem_set_outside _ _ hy (by simp), T.mem_set_outside _ _ hy (by simp),
      T.mem_set_outside _ _ hy (by simp), T.mem_set_outside _ _ hy (by simp)]

/-- `newLastsbrk` links the old `lastsbrk`, whatever its size. -/
theorem Displaced.newLastsbrk (hd : T.Displaced R L fl h {h.lastsbrk} (alignUp q) (q + x))
    (hx : alignUp q + T.dataOffset ≤ q + x) (hx32 : x < 2 ^ 32) (hm : m ∈ L) :
    ∃ g fl', T.newLastsbrk h q x = .ok (alignUp q, g) ∧
      T.Starting L fl h {h.lastsbrk} (alignUp q) (q + x) m fl' g ∧ g.lastsbrk = alignUp q ∧
      T.get g (alignUp q) .next = 0 ∧ alignUp q + T.get g (alignUp q) .sz = q + x ∧
      ∀ a ∈ L, ∀ y, a + T.ptr ≤ y → y < a + T.get h a .sz → g.mem y = h.mem y := by
  obtain ⟨ha1, -, -⟩ := le_alignUp q
  have hdo := T.dataOffset_pos
  have hpos := hd.pos
  have hE : (∅ : Set ℕ) ⊆ L := empty_subset L
  have hA : {m} ⊆ L := singleton_subset_iff.2 hm
  have hdX : h.lastsbrk ∈ ({h.lastsbrk} : Set ℕ) := rfl
  have hdb := hd.mem_blocks (.inr (.inl hdX))
  have hdF : h.lastsbrk ∈ linkBlocks fl {h.lastsbrk} ∅ := .inr (.inl rfl)
  obtain ⟨hsz, hn, hhd, hmem⟩ := newHeader_spec T h (n := alignUp q) (x := q + x - alignUp q)
    (by omega)
  set h₁ := T.newHeader h (alignUp q) (q + x - alignUp q) with hh1
  have hin : Inside (alignUp q) (q + x) h h₁ :=
    ⟨fun y hy => hmem y (by omega), fun b _ => by rw [hhd]⟩
  have ht := hd.loose_inside hE hin (hd.loose hE)
  have hdsz : T.get h₁ h.lastsbrk .sz = T.get h h.lastsbrk .sz :=
    hd.get_inside hE hin (link_write hE hdF (by simp)).1
  have hdn : T.get h₁ h.lastsbrk .next = 0 :=
    (hd.get_inside hE hin (link_write hE hdF (by simp)).1).trans (hd.old_next rfl)
  obtain ⟨z, fl', hrun, ht2, hfr, hrel, hli⟩ := ht.linkfree
    (fun hc => hd.wf.inv.inUse _ (.inr ⟨rfl, hd.last⟩) hc)
    ⟨link_write hE hdF (by simp), link_write hE hdF (by simp), (link_write hE hdF (by simp)).1⟩
    ⟨hd.last, hd.wf.inv.ne_none hdb⟩
    (hd.wf.inv.lt_pow hdb) (by rw [hdsz]; exact hd.wf.inv.bucket_range hdb)
  obtain ⟨l, hl⟩ := recordnewsbrk_eq (z.setLastsbrk (alignUp q)) (alignUp q)
  -- the header of the new region is among the bytes that are spared
  have hnew : ∀ f, f ≠ .prevfree → T.get z (alignUp q) f = T.get h₁ (alignUp q) f := by
    intro f hf
    have := T.offset_width_le hf
    exact load_congr fun y h1 h2 => hrel.bytes y (.inr (by omega))
  have hin2 : Inside (alignUp q) (q + x) z { z.setLastsbrk (alignUp q) with sbrkbgn := l } :=
    ⟨fun _ _ => rfl, fun b hb => Function.update_of_ne hb ..⟩
  have hls : ({ z.setLastsbrk (alignUp q) with sbrkbgn := l } : Heap).lastsbrk = alignUp q :=
    lastsbrk_setLastsbrk z (alignUp q)
  -- what is read in the cells, apart from the links in the lists
  have hs : ∀ a f, T.Stray L fl {h.lastsbrk} ∅ a f →
      (a = h.lastsbrk ∨ Free fl a → f ≠ .nextfree ∧ f ≠ .prevfree) → T.get z a f = T.get h a f :=
    fun a f hc hne => (hrel.fields a f hc hne).trans (hd.get_inside hE hin hc)
  have hst : T.Starting L fl h {h.lastsbrk} (alignUp q) (q + x) m fl'
      { z.setLastsbrk (alignUp q) with sbrkbgn := l } := by
    refine ⟨hd.loose_inside hA hin2 (hd.widen hA ht2), hfr, fun a f hc h1 h2 =>
      ?_, fun a ha => ?_, ?_, by rw [hls]; omega⟩
    · exact hs a f ⟨hc.1, fun hf => absurd hf h2, hc.2.2⟩ fun _ => ⟨h1, h2⟩
    · rw [show T.get { z.setLastsbrk (alignUp q) with sbrkbgn := l } a .nextfree =
        T.get z a .nextfree from rfl, hs a _ ⟨.inl ha.1, by simp, by simp⟩ ?_]
      · exact (hd.wf.live a ha.1).1
      · rintro (heq | hf)
        · exact absurd (heq ▸ ha.1) (hd.wf.last hd.last).1
        · exact absurd hf (hd.wf.inv.inUse a (.inl ha.1))
    · rintro d rfl
      exact .inr hli
  refine ⟨_, fl', ?_, hst, hls, (hnew .next nofun).trans hn, ?_, ?_⟩
  · have hz : alignUp q ≠ 0 := by omega
    have hmv : T.mv2freelist h₁ h.lastsbrk = .ok z := by
      refine (mv2freelist_eq_linkfree hd.last ?_ ?_).trans hrun
      · rw [hdn]
        exact Ended.isFree (.inl rfl)
      · rw [hdn]
        exact fun hc => hc.1 hc.2.symm
    rw [newLastsbrk_eq hz hmv, hl]
  · rw [show T.get { z.setLastsbrk (alignUp q) with sbrkbgn := l } (alignUp q) .sz =
      T.get z (alignUp q) .sz from rfl, hnew .sz nofun]
    omega
  · intro a ha y h1 h2
    have hap := hd.apart a (.inl ha)
    show z.mem y = h.mem y
    rw [hrel.bytes y (.inl ⟨a, ⟨ha, by simp⟩, h1, h2⟩)]
    exact hin.mem y (by omega)

/-- `growlast` writes the header of the block and that of the new `lastsbrk`. -/
theorem growlast_top (hm0 : m ≠ 0) (hn : T.get g m .next = g.lastsbrk) (hn0 : g.lastsbrk ≠ 0)
    (hp : T.get g g.lastsbrk .prev = m) (hnn : T.get g g.lastsbrk .next = 0)
    (hend : m + T.get g m .sz = g.lastsbrk) (hmsz : T.dataOffset ≤ T.get g m .sz)
    (hlt : T.get g m .sz + T.get g g.lastsbrk .sz < 2 ^ 32) (hs : T.get g m .sz ≤ s)
    (hs2 : s + T.dataOffset ≤ T.get g m .sz + T.get g g.lastsbrk .sz) :
    ∃ g', T.growlast g m s = .ok (m, g') ∧ T.get g' m .sz = s ∧ T.get g' m .nextfree = 0 ∧
      g'.lastsbrk = m + s ∧
      ∀ x, x < m ∨ m + T.dataOffset ≤ x → x < m + s ∨ m + s + T.dataOffset ≤ x →
        g'.mem x = g.mem x := by
  set d := g.lastsbrk with hd
  set g1 := T.set g m .next 0 with hg1
  have hz := T.zero_lt_width
  have hr : T.get g1 m .sz = T.get g m .sz ∧ T.get g1 d .sz = T.get g d .sz := by
    have h1 := T.offset_width_le (f := .next) nofun
    exact ⟨get_set_field T nofun, load_store_of_disjoint (by omega)⟩
  obtain ⟨g2, hg2⟩ : ∃ g2, T.set g1 m .sz (T.get g m .sz + T.get g d .sz) = g2 := ⟨_, rfl⟩
  have hc : T.combinehi g m = .ok g2 := by
    unfold combinehi
    rw [if_pos ⟨hm0, by rw [hn]; exact hn0⟩, hn, if_neg (not_not.2 hp)]
    simp only [← hd, ne_eq, not_true_eq_false, if_false, ok_bind]
    rw [hn, hnn, show T.get g1 m .next = 0 from get_set_self T (hz _), if_neg nofun,
      hr.1, hr.2, u32, mod_eq_of_lt hlt, hg2]
    rfl
  have hsz2 : T.get g2 m .sz = T.get g m .sz + T.get g d .sz := by
    rw [← hg2]
    exact get_set_self T (by norm_num [width]; omega)
  have hnx2 : T.get g2 m .next = 0 := by
    rw [← hg2, get_set_field T (by simp)]
    exact get_set_self T (hz _)
  obtain ⟨g', hrun, h1, h2, h3, h4⟩ := split_top (s := s) hnx2 (by omega) (by rw [hsz2]; exact hs2)
  refine ⟨g'.setLastsbrk (m + s), ?_, h1, h2, lastsbrk_setLastsbrk g' (m + s), fun x hx hx' => ?_⟩
  · unfold growlast
    rw [hc, ok_bind, hrun]
    rfl
  · show g'.mem x = g.mem x
    rw [h4 x hx hx', ← hg2, T.mem_set_outside _ _ hx (by simp), T.mem_set_outside _ _ hx (by simp)]

theorem sbrkRequest_le : T.sbrkRequest h s ≤ s + 2048 := by
  have hp := T.ptr_cases
  unfold sbrkRequest u32
  dsimp only
  unfold minsbrk align dataOffset
  split_ifs <;> omega

/-- What the source may answer to a request of `x` bytes: a refusal, or memory that nobody has, in
the address space and apart from `nm_state`. -/
def Reply (T : Target) (R : Set (ℕ × ℕ)) (q x : ℕ) : Prop :=
  q = T.sizeMod - 1 ∨ (0 < q ∧ q + x ≤ 256 ^ T.ptr ∧ (∀ r ∈ R, q + x ≤ r.1 ∨ r.2 ≤ q) ∧
    (q + x ≤ T.none ∨ T.none < q))

/-- A new region that displaces `lastsbrk`. -/
theorem displaced_of_fresh (hw : T.WF R L fl h) (h0 : h.lastsbrk ≠ 0) (hq : 0 < q)
    (hR : ∀ r ∈ R, q + x ≤ r.1 ∨ r.2 ≤ q) (hout : q + x ≤ T.none ∨ T.none < q)
    (hne : q ≠ T.expected h) : T.Displaced R L fl h {h.lastsbrk} (alignUp q) (q + x) := by
  obtain ⟨ha1, ha2, ha3⟩ := le_alignUp q
  have hlB : h.lastsbrk ∈ blocks (inUse L h.lastsbrk) fl := .inl (.inr ⟨rfl, h0⟩)
  have hap : ∀ a ∈ blocks (inUse L h.lastsbrk) fl, q + x ≤ a ∨ a + T.get h a .sz ≤ q := by
    intro a ha
    obtain ⟨r, hr, h1, h2, h3⟩ := hw.inv.region ha
    have := hR r hr
    omega
  refine ⟨hw, h0, fun d hd => hd, by omega, fun a ha => ?_, ?_, by omega⟩
  · have hab : a ∈ blocks (inUse L h.lastsbrk) fl := by
      rcases ha with ha | rfl | ha
      exacts [.inl (.inl ha), hlB, .inr ha]
    have := hap a hab
    omega
  rintro d rfl
  -- an aligned address right behind the header would have been the expected one
  have h1 := hap _ hlB
  have h2 := hw.inv.dataOffset_le hlB
  have h3 := hw.inv.aligned _ hlB
  have h4 := T.ptr_cases
  rw [expected, if_pos h0] at hne
  unfold freeHeader dataOffset align at *
  omega

/-- The region of `lastsbrk` becomes longer. -/
theorem displaced_of_grown (hw : T.WF R L fl h) (h0 : h.lastsbrk ≠ 0)
    (hR : ∀ r ∈ R, T.expected h + x ≤ r.1 ∨ r.2 ≤ T.expected h)
    (hout : T.expected h + x ≤ T.none ∨ T.none < T.expected h) :
    T.Displaced R L fl h ∅ h.lastsbrk (T.expected h + x) := by
  have hlB : h.lastsbrk ∈ blocks (inUse L h.lastsbrk) fl := .inl (.inr ⟨rfl, h0⟩)
  have hexp : T.expected h = h.lastsbrk + T.get h h.lastsbrk .sz := by rw [expected, if_pos h0]
  have hl := hw.last h0
  refine ⟨hw, h0, by simp, pos_of_ne_zero h0, fun a ha => ?_, by simp, ?_⟩
  · have hal : a ∈ blocks (inUse L h.lastsbrk) fl ∧ a ≠ h.lastsbrk := by
      rcases ha with ha | ha | ha
      · exact ⟨.inl (.inl ha), fun heq => hl.1 (heq ▸ ha)⟩
      · cases ha
      · exact ⟨.inr ha, fun heq => hw.inv.inUse a (.inr ⟨heq, h0⟩) ha⟩
    obtain ⟨r, hr, h1, h2, h3⟩ := hw.inv.region hal.1
    have h4 := hR r hr
    have h5 := hw.inv.tiled.apart a hal.1 _ hlB hal.2
    omega
  · obtain ⟨r, hr, h1, h2, h3⟩ := hw.inv.region hlB
    have h4 := hw.inv.outside r hr
    omega

theorem Displaced.starting (hd : T.Displaced R L fl h ∅ h.lastsbrk up) (hm : m ∈ L)
    (hup : h.lastsbrk + T.dataOffset ≤ up) (hin : Inside h.lastsbrk up h g)
    (hl : g.lastsbrk = h.lastsbrk) : T.Starting L fl h ∅ h.lastsbrk up m fl g := by
  have hA : {m} ⊆ L := singleton_subset_iff.2 hm
  have hdo := T.dataOffset_pos
  refine Starting.inside hd hm (g := h) ⟨hd.loose hA, by simp, fun _ _ _ _ _ => rfl,
    fun a ha => (hd.wf.live a ha.1).1, by simp, by omega⟩ hin (by rw [hl]; omega)

/-! ### The two kinds of calls -/

theorem growblock_asks :
    (∀ sbrk', T.growblock h sbrk m s = T.growblock h sbrk' m s) ∨ (¬ (h.lastsbrk = T.get h m .next ∧
          s + T.minsave ≤ u32 (T.get h m .sz + T.get h h.lastsbrk .sz)) ∧
        ¬ (h.lastsbrk ≠ 0 ∧ s + T.minsave ≤ T.get h h.lastsbrk .sz) ∧
        T.growblock h sbrk m s = T.extendsbrk h sbrk s >>= fun p =>
          if p.1 ≠ 0 then
            if p.2.lastsbrk = T.get p.2 m .next then T.growlast p.2 m s else T.mv2lastsbrk p.2 m s
          else .ok (0, p.2)) := by
  unfold growblock
  dsimp only
  split_ifs with h1 h2 h3 h4 h5
  · exact .inl fun _ => rfl
  · exact .inl fun _ => rfl
  · exact .inl fun _ => rfl
  · exact .inl fun _ => rfl
  · exact .inl fun _ => rfl
  · exact .inr ⟨h2, h5, rfl⟩

/-- `nrealloc` of a live block does not depend on the source, or it ends by asking: `lastsbrk` is
too small, and it moves the block to what the source gives. -/
theorem WF.nrealloc_asks (hw : T.WF R L fl h) (hm : m ∈ L) (sbrk : ℕ → ℕ) (size : ℕ) :
    (∀ sbrk', T.nrealloc h sbrk (m + T.dataOffset) size =
        T.nrealloc h sbrk' (m + T.dataOffset) size) ∨
      (T.get h m .sz < T.szneed size ∧ T.szneed size ≤ oversize ∧
        T.get h h.lastsbrk .sz < T.szneed size + T.minsave ∧
        (T.get h m .next = h.lastsbrk →
          T.get h m .sz + T.get h h.lastsbrk .sz < T.szneed size + T.minsave) ∧
        ∀ m1 h₁ m2 z, T.extendsbrk h sbrk (T.szneed size) = .ok (m1, h₁) → m1 ≠ 0 →
          (if h₁.lastsbrk = T.get h₁ m .next then T.growlast h₁ m (T.szneed size)
            else T.mv2lastsbrk h₁ m (T.szneed size)) = .ok (m2, z) → m2 ≠ 0 →
          T.nrealloc h sbrk (m + T.dataOffset) size = .ok (m2 + T.dataOffset, z)) := by
  have hpos := T.dataOffset_pos
  have h0 := hw.lastsbrk_ne_zero (.inl (.inl hm))
  have hok : (T.isFree h m || T.fouled h m) = false := by
    simp [hw.isFree_false hm, fouled, h0, (hw.live m hm).1]
  have ho : ∀ sbrk, T.nrealloc h sbrk (m + T.dataOffset) size =
      if T.szneed size ≤ T.get h m .sz then
        T.trim h m (T.szneed size) >>= fun p => .ok (p.1 + T.dataOffset, p.2)
      else if oversize < T.szneed size then .ok (0, h)
      else T.growblock h sbrk m (T.szneed size) >>= fun p =>
        if p.1 ≠ 0 then .ok (p.1 + T.dataOffset, p.2) else .ok (0, p.2) := by
    intro sbrk
    unfold Target.nrealloc
    rw [if_neg (by omega)]
    dsimp only
    rw [Nat.add_sub_cancel, hok]
    rfl
  by_cases c1 : T.szneed size ≤ T.get h m .sz
  · left
    intro sbrk'
    rw [ho, ho, if_pos c1, if_pos c1]
  by_cases c2 : oversize < T.szneed size
  · left
    intro sbrk'
    rw [ho, ho, if_neg c1, if_neg c1, if_pos c2, if_pos c2]
  rcases growblock_asks with hs | ⟨hadj, hl, hg⟩
  · left
    intro sbrk'
    rw [ho, ho, if_neg c1, if_neg c1, if_neg c2, if_neg c2, hs sbrk']
  refine .inr ⟨by omega, by omega, ?_, ?_, fun m1 h₁ m2 z hext hm1 hmo hm2 => ?_⟩
  · by_contra hc
    exact hl ⟨h0, by omega⟩
  · intro hn
    by_contra hc
    refine hadj ⟨hn.symm, ?_⟩
    have hadd := hw.inv.sz_add_lt (.inl (.inl hm)) (by rw [hn]; exact h0)
    rw [hn] at hadd
    rw [u32]
    omega
  · rw [ho, if_neg c1, if_neg c2, hg, hext, ok_bind]
    rw [if_pos hm1, hmo, ok_bind, if_pos hm2]

/-- A call that meets an unexpected address. -/
theorem Displaced.realloc_fresh (hd : T.Displaced R L fl h {h.lastsbrk} (alignUp q) (q + x))
    (hm : m ∈ L) (hs : T.get h m .sz ≤ s) (hx : s + 2 * align + T.dataOffset ≤ x)
    (hx32 : x < 2 ^ 32) :
    ∃ h₁ z, T.newLastsbrk h q x = .ok (alignUp q, h₁) ∧
      (if h₁.lastsbrk = T.get h₁ m .next then T.growlast h₁ m s else T.mv2lastsbrk h₁ m s) =
        .ok (alignUp q, z) ∧ T.Carried L m (alignUp q) s h z := by
  obtain ⟨ha1, ha2, -⟩ := le_alignUp q
  have hal : align = 16 := rfl
  obtain ⟨h₁, fl', hrun, hst, hl, hn, hup, hby⟩ := hd.newLastsbrk (by omega) hx32 hm
  obtain ⟨z, hrun2, hcar⟩ := hst.mv2lastsbrk hd hm (fun _ => rfl) hl hn hup hs (by omega) hby
  refine ⟨h₁, z, hrun, ?_, hcar⟩
  -- the new region lies above no block
  have hne : ¬ h₁.lastsbrk = T.get h₁ m .next := by
    rw [hl, hst.chain m _ ⟨.inl hm, by simp, by simp⟩ (by simp) (by simp)]
    intro heq
    have hpos := hd.pos
    have hmb := hd.mem_blocks (.inl hm)
    obtain ⟨-, hb, -⟩ := hd.wf.inv.tiled.next_spec hmb (by omega)
    have hall : T.get h m .next ∈ allBlocks L fl {h.lastsbrk} := by
      rcases hb with (hL | hls) | hf
      exacts [.inl hL, .inr (.inl hls.1), .inr (.inr hf)]
    exact hd.not_mem_new hall heq.le (by omega)
  rw [if_neg hne]
  exact hrun2

/-- A call after which the region of `lastsbrk` is longer. -/
theorem Displaced.realloc_grown (hd : T.Displaced R L fl h ∅ h.lastsbrk (T.expected h + x))
    (hm : m ∈ L) (hs : T.get h m .sz ≤ s) (hx : s + 2 * align + T.dataOffset ≤ x)
    (hlt : T.get h h.lastsbrk .sz + x < 2 ^ 32)
    (hadd : T.get h m .next = h.lastsbrk →
      T.get h m .sz + T.get h h.lastsbrk .sz + x < 2 ^ 32) (q : ℕ) :
    let g := T.set (asked h q x) h.lastsbrk .sz (T.get h h.lastsbrk .sz + x)
    ∃ m' h', (if g.lastsbrk = T.get g m .next then T.growlast g m s else T.mv2lastsbrk g m s) =
      .ok (m', h') ∧ m' ≠ 0 ∧ T.Carried L m m' s h h' := by
  intro g
  have hdo := T.dataOffset_pos
  have hA : {m} ⊆ L := singleton_subset_iff.2 hm
  have hmb := hd.mem_blocks (.inl hm)
  have hm0 := hd.wf.inv.ne_zero hmb
  have hml := hd.dataOffset_le (.inl hm)
  have hexp : T.expected h = h.lastsbrk + T.get h h.lastsbrk .sz := by rw [expected, if_pos hd.last]
  have hls : g.lastsbrk = h.lastsbrk := rfl
  have hmem : ∀ y, y < h.lastsbrk ∨ h.lastsbrk + T.dataOffset ≤ y → g.mem y = h.mem y :=
    fun y hy => T.mem_set_outside _ _ hy (by simp)
  have hin : Inside h.lastsbrk (T.expected h + x) h g :=
    ⟨fun y hy => hmem y (by omega), fun _ _ => rfl⟩
  have hdsz : T.get g h.lastsbrk .sz = T.get h h.lastsbrk .sz + x :=
    get_set_self T (by norm_num [width]; omega)
  have hdn : T.get g h.lastsbrk .next = 0 := (get_set_field T (by simp)).trans (hd.old_next rfl)
  have hr : ∀ f, f ≠ .prev → f ≠ .prevfree → T.get g m f = T.get h m f := fun f h1 h2 =>
    hd.get_inside hA hin ⟨.inl hm, fun h => absurd h h2, fun h => absurd h h1⟩
  have hmsz := hr .sz (by simp) (by simp)
  by_cases hadj : T.get h m .next = h.lastsbrk
  · -- the block grows in place
    have hn0 : T.get h m .next ≠ 0 := by rw [hadj]; exact hd.last
    obtain ⟨hend, -, hpr⟩ := hd.wf.inv.tiled.next_spec hmb hn0
    rw [hadj] at hend hpr
    obtain ⟨h', hrun, hsz', hma, hl', hm'⟩ := growlast_top (T := T) (g := g) (s := s) hm0
      ((hr .next (by simp) (by simp)).trans hadj) hd.last
      ((get_set_field T (by simp)).trans hpr) hdn (by rw [hmsz]; exact hend.symm)
      (by rw [hmsz]; exact hml) (by rw [hls]; omega) (by rw [hmsz]; exact hs)
      (by rw [hls]; omega)
    have hp : ∀ a ∈ L \ {m}, a + T.get h a .sz ≤ m ∨ T.expected h + x ≤ a := by
      intro a ha
      have h1 := hd.apart a (.inl ha.1)
      have h2 := hd.wf.inv.tiled.apart a (hd.mem_blocks (.inl ha.1)) m hmb ha.2
      have h3 := hd.dataOffset_le (.inl ha.1)
      omega
    have hb : ∀ a ∈ L \ {m}, ∀ y, a + T.ptr ≤ y → y < a + T.get h a .sz → h'.mem y = h.mem y := by
      intro a ha y h1 h2
      have h3 := hp a ha
      rw [hm' y (by omega) (by omega)]
      exact hmem y (by omega)
    have hk : ∀ a ∈ L \ {m}, _ := fun a ha =>
      kept_of_bytes (hd.dataOffset_le (.inl ha.1)) (hb a ha)
    refine ⟨m, h', ?_, hm0, hma, hsz'.ge, fun a ha => ?_, fun a ha => (hk a ha).2.2,
      fun a ha => ?_, fun i h1 h2 h3 => ?_, ?_⟩
    · rw [hls, if_pos ((hr .next (by simp) (by simp)).trans hadj).symm]
      exact hrun
    · rw [(hk a ha).1, (hk a ha).2.1]
      exact ⟨(hd.wf.live a ha.1).1, rfl⟩
    · have h3 := hp a ha
      omega
    · rw [hm' _ (by omega) (by omega)]
      exact hmem _ (by omega)
    · omega
  · -- the block moves to the extended `lastsbrk`
    obtain ⟨h', hrun, hcar⟩ := (hd.starting hm (by omega) hin hls).mv2lastsbrk hd hm
      (fun h => absurd h hadj) hls hdn (by rw [hdsz]; omega) hs (by rw [hdsz]; omega)
      fun a ha y h1 h2 => by
        have h3 := hd.apart a (.inl ha)
        exact hin.mem y (by omega)
    refine ⟨h.lastsbrk, h', ?_, hd.last, hcar⟩
    rw [hr .next (by simp) (by simp), if_neg fun h => hadj (hls ▸ h).symm]
    exact hrun

/-! ### What the client sees -/

def capacity (T : Target) (h : Heap) (a : ℕ) : ℕ := T.get h a .sz - T.dataOffset

/-- The blocks `L` are live: `nrealloc` and `nfree` accept them, and they do not overlap. -/
structure Live (T : Target) (L : Set ℕ) (h : Heap) : Prop where
  accepted : ∀ a ∈ L, T.isFree h a = false ∧ T.fouled h a = false
  apart : ∀ a ∈ L, ∀ b ∈ L, a ≠ b → a + T.get h a .sz ≤ b ∨ b + T.get h b .sz ≤ a

/-- The capacity and the payload of a block are as they were. -/
structure SamePayload (T : Target) (a : ℕ) (h h' : Heap) : Prop where
  capacity : T.capacity h' a = T.capacity h a
  bytes : ∀ i < T.capacity h a, h'.mem (a + T.dataOffset + i) = h.mem (a + T.dataOffset + i)

theorem WF.accepted (hw : T.WF R L fl h) (hm : m ∈ L) :
    T.isFree h m = false ∧ T.fouled h m = false :=
  ⟨hw.isFree_false hm, by simp [fouled, hw.lastsbrk_ne_zero (.inl (.inl hm)), (hw.live m hm).1]⟩

theorem WF.blocks_live (hw : T.WF R L fl h) : T.Live L h where
  accepted _ ha := hw.accepted ha
  apart a ha b hb hne := hw.inv.tiled.apart a (.inl (.inl ha)) b (.inl (.inl hb)) hne

theorem Keeps.samePayload (hk : T.Keeps L h h') (ha : a ∈ L) : T.SamePayload a h h' := by
  refine ⟨?_, fun i hi => hk.data a ha _ (by omega) ?_⟩
  · unfold capacity
    rw [hk.get ha (by simp)]
  · unfold capacity at hi
    omega

/-- The outcome of `nrealloc` for the client. -/
inductive Preserved (T : Target) (L : Set ℕ) (m size : ℕ) (h : Heap) : ℕ → Heap → Prop
  | null (h' : Heap) (live : T.Live L h') (same : ∀ a ∈ L, T.SamePayload a h h') :
      Preserved T L m size h 0 h'
  | block (m' : ℕ) (h' : Heap) (live : T.Live (insert m' (L \ {m})) h') (fresh : m' ∉ L \ {m})
      (room : size ≤ T.capacity h' m')
      (data : ∀ i, i < T.capacity h m → i < size →
        h'.mem (m' + T.dataOffset + i) = h.mem (m + T.dataOffset + i))
      (same : ∀ a ∈ L, a ≠ m → T.SamePayload a h h') :
      Preserved T L m size h (m' + T.dataOffset) h'

theorem Reallocated.preserved (hr : T.Reallocated R1 L m size h h' n) :
    T.Preserved L m size h n h' := by
  cases hr with
  | null fl' wf keeps => exact .null h' wf.blocks_live fun a ha => keeps.samePayload ha
  | block m' s room moved =>
    obtain ⟨fl', hw⟩ := moved.wf
    refine .block m' h' hw.blocks_live moved.fresh ?_ (fun i h1 h2 => ?_)
      fun a ha hne => moved.keeps.samePayload ⟨ha, hne⟩
    · have := moved.size
      unfold capacity
      omega
    · unfold capacity at h1
      have := moved.data (T.dataOffset + i) (by omega) (by omega) (by omega)
      simpa only [add_assoc] using this

/-- The outcome after `lastsbrk` has become another range. -/
theorem Carried.preserved (hw : T.WF R L fl h) (hc : T.Carried L m m' s h h') (hm : m' ≠ 0)
    (hr : size + T.dataOffset ≤ s) : T.Preserved L m size h (m' + T.dataOffset) h' := by
  have hlen : ∀ a ∈ L, T.dataOffset ≤ T.get h a .sz := fun a ha =>
    hw.inv.dataOffset_le (.inl (.inl ha))
  have hdo := T.dataOffset_pos
  have hs := hc.size
  have hacc : ∀ a, T.get h' a .nextfree = 0 → T.isFree h' a = false ∧ T.fouled h' a = false :=
    fun a ha => ⟨isFree_eq_false fun _ => ha, by simp [fouled, hc.last, ha]⟩
  refine .block m' h' ⟨?_, ?_⟩ ?_ ?_ ?_ ?_
  · rintro a (rfl | ha)
    · exact hacc a hc.mark
    · exact hacc a (hc.header a ha).1
  · rintro a (rfl | ha) b (rfl | hb) hne
    · exact absurd rfl hne
    · rw [(hc.header b hb).2]
      exact (hc.place b hb).symm
    · rw [(hc.header a ha).2]
      exact hc.place a ha
    · rw [(hc.header a ha).2, (hc.header b hb).2]
      exact hw.inv.tiled.apart a (.inl (.inl ha.1)) b (.inl (.inl hb.1)) hne
  · intro hmem
    have h1 := hc.place m' hmem
    have h2 := hlen m' hmem.1
    omega
  · unfold capacity
    omega
  · intro i h1 h2
    unfold capacity at h1
    have := hc.data (T.dataOffset + i) (by omega) (by omega) (by omega)
    simpa only [add_assoc] using this
  · intro a ha hne
    refine ⟨?_, fun i hi => hc.bytes a ⟨ha, hne⟩ _ (by omega) ?_⟩
    · unfold capacity
      rw [(hc.header a ⟨ha, hne⟩).2]
    · unfold capacity at hi
      omega

theorem Carried.of_asked (hc : T.Carried L m m' s (asked h q x) h') : T.Carried L m m' s h h' :=
  ⟨hc.mark, hc.size, hc.header, hc.bytes, hc.place, hc.data, hc.last⟩

theorem Reallocated.of_ledger (hl : Ledger R R' q x h h₁ R1)
    (hr : T.Reallocated R1 L m size h₁ h' n) : T.Preserved L m size h n h' := by
  rcases hl with ⟨rfl, -⟩ | ⟨rfl, -⟩
  · exact hr.preserved
  · have hp := hr.preserved
    cases hp with
    | null _ live same => exact .null h' live fun a ha => ⟨(same a ha).1, (same a ha).2⟩
    | block m' _ live fresh room data same =>
      exact .block m' h' live fresh room data fun a ha hne => ⟨(same a ha hne).1, (same a ha hne).2⟩

/-- A heap with one block, at 4096. -/
theorem first_block : ∃ R fl h,
    dj64.nmalloc (initial fun _ => 0) (answers 4096) 16 = .ok (4128, h) ∧
      dj64.WF R {4096} fl h ∧ ∀ r ∈ R, r.2 ≤ 65536 := by
  have hfi : dj64.Fits 16 := fits_of_lt (by decide)
  have hf : Answer dj64 ∅ (initial fun _ => 0) (answers 4096 1024) 1024 _ :=
    .fresh (by decide) (by decide) nofun (by decide) (.inl (by decide))
      (by simp [initial, Heap.lastsbrk])
  obtain ⟨p, h, h₁, R, hrun, hled, -, hall⟩ := (wf_initial fun _ => 0).nmalloc hfi (by decide) hf
  have hp : (dj64.nmalloc (initial fun _ => 0) (answers 4096) 16).map Prod.fst = .ok 4128 := by
    decide +kernel
  rw [hrun] at hp
  obtain rfl : p = 4128 := by simpa [Except.map] using hp
  have hR : ∀ r ∈ R, r.2 ≤ 65536 := by
    rintro r hr
    rcases hled with ⟨-, rfl⟩ | ⟨-, rfl⟩
    · cases hr
    · have hr' : r = (alignUp 4096, 4096 + 1024) := by simpa [answers] using hr
      rw [hr']
      decide
  generalize hpm : (4128 : ℕ) = n at hall
  cases hall with
  | null => cases hpm
  | block m fl wf fresh room =>
    obtain rfl : m = 4096 := by
      have : dj64.dataOffset = 32 := rfl
      omega
    rw [show insert 4096 (∅ : Set ℕ) = {4096} by simp] at wf
    exact ⟨R, fl, h, hrun, wf, hR⟩

end Target

end Nmalloc
