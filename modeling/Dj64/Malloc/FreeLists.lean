import Dj64.Lib.Runs
import Dj64.Malloc.Invariant

/-!
# The free-list operations keep the invariant

`extractfree`, `rmvfromfree` and the linking half of `mv2freelist` edit the free lists and leave
the chains alone.  Each is followed through its writes to a record heap (`Edits`), and the
invariant is then read off the records.
-/

namespace Nmalloc

open Function List Records

variable {T : Target} {h h' k k' : Heap} {R : Set (ℕ × ℕ)} {B K K' P : Set ℕ} {fl : ℕ → List ℕ}
  {ls a b m x c : ℕ} {f g : Field} {v w : Records} {hd : ℕ → ℕ} {C W : ℕ → Field → Prop}
  {l1 l2 l : List ℕ}

export Runs (ok_bind)

namespace Target

/-- Every block that `mv2freelist` linked had room for its `prevfree` link. -/
def NodesFit (T : Target) (h : Heap) : Prop := ∀ e ∈ h.linked, T.freeHeader ≤ e.2

/-- What the allocator does not change about the blocks `K`: their sizes, marks and data. -/
structure Keeps (T : Target) (K : Set ℕ) (h h' : Heap) : Prop where
  header : ∀ a ∈ K, ∀ f, f ≠ .prev → f ≠ .prevfree → T.get h' a f = T.get h a f
  data : ∀ a ∈ K, ∀ x, a + T.dataOffset ≤ x → x < a + T.get h a .sz → h'.mem x = h.mem x
  sbrks : h'.sbrks = h.sbrks
  linked : T.NodesFit h → T.NodesFit h'

theorem Keeps.refl (T : Target) (K : Set ℕ) (h : Heap) : T.Keeps K h h :=
  ⟨fun _ _ _ _ _ => rfl, fun _ _ _ _ _ => rfl, rfl, id⟩

theorem Keeps.get (hk : T.Keeps K h h') (ha : a ∈ K)
    (hf : f ≠ .prev ∧ f ≠ .prevfree) : T.get h' a f = T.get h a f :=
  hk.header a ha f hf.1 hf.2

theorem Keeps.trans (h1 : T.Keeps K h k) (h2 : T.Keeps K k k') : T.Keeps K h k' where
  header a ha f hf hf' := (h2.header a ha f hf hf').trans (h1.header a ha f hf hf')
  data a ha x hx hx' := by
    rw [h2.data a ha x hx (by rw [h1.get ha (by simp)]; exact hx')]
    exact h1.data a ha x hx hx'
  sbrks := h2.sbrks.trans h1.sbrks
  linked := h2.linked ∘ h1.linked

theorem Keeps.mono (hk : T.Keeps K h h') (hK : K' ⊆ K) : T.Keeps K' h h' :=
  ⟨fun a ha => hk.header a (hK ha), fun a ha => hk.data a (hK ha), hk.sbrks, hk.linked⟩

theorem Edits.keeps (hK : K ⊆ B) (he : Edits T (blocks B fl) (fun a => T.get h a .sz) K h h' w)
    (hw : ∀ a ∈ K, ∀ f, f ≠ .prev → f ≠ .prevfree → w a f = T.get h a f)
    (hs : h'.sbrks = h.sbrks) (hl : T.NodesFit h → T.NodesFit h') : T.Keeps K h h' :=
  ⟨fun a ha f hf hf' => (he.get (.inl (hK ha)) hf').trans
    (hw a ha f hf hf'), he.data, hs, hl⟩

section

variable (he : Edits T (blocks B fl) (fun a => v a .sz) K h k w)
include he

theorem Edits.setFree (hi : Inv T v hd R B fl ls) (hK : K ⊆ B) (ha : Free fl a) (g : Field)
    (hx : x < 256 ^ T.width g) :
    Edits T (blocks B fl) (fun a => v a .sz) K h (T.set k a g x) (w.upd a g x) :=
  he.set hi.apart (fun _ ha => .inl (hK ha)) (hi.cell_free ha) hx fun _ h => hi.inUse a (hK h) ha

theorem Edits.setField (hi : Inv T v hd R B fl ls) (hK : K ⊆ B) (ha : a ∈ blocks B fl)
    (hx : x < 256 ^ T.width g) (hg : g ≠ .prevfree) :
    Edits T (blocks B fl) (fun a => v a .sz) K h (T.set k a g x) (w.upd a g x) :=
  he.put hi.apart (fun _ ha => .inl (hK ha)) ha hx hg

end

theorem zero_lt_width (T : Target) (f : Field) : 0 < 256 ^ T.width f := Nat.pow_pos (by norm_num)

/-! ### Taking a block out of its free list -/

/-- The records after `extractfree`. -/
def unlinked (T : Target) (v : Records) (m : ℕ) : Records := fun a f =>
  if a = m ∧ (f = .nextfree ∨ f = .prevfree) then 0
  else if f = .prevfree ∧ a = v m .nextfree ∧ a ≠ T.none then v m .prevfree
  else if f = .nextfree ∧ a = v m .prevfree ∧ a ≠ T.none then v m .nextfree
  else v a f

/-- The list heads after `extractfree`. -/
def unlinkedHeads (T : Target) (v : Records) (hd : ℕ → ℕ) (m : ℕ) : ℕ → ℕ :=
  if v m .prevfree = T.none then
    update hd (size2bucket (v m .sz)) (if v m .nextfree = T.none then 0 else v m .nextfree)
  else hd

/-- The writes of `extractfree`, wherever the cells of the members lie. -/
theorem extractfree_trace (hC : T.Cells C W P)
    (hl : FreeLists T (T.get h) h.freehdrs fl) (hz : ∀ a, Free fl a → a ≠ 0 ∧ a ≠ T.none)
    (hW : ∀ a, Free fl a → W a .nextfree ∧ W a .prevfree) (hm : Free fl m)
    (hb : size2bucket (T.get h m .sz) < T.nflists) :
    ∃ h', T.extractfree h m = .ok h' ∧ Traced T C P h h' (T.unlinked (T.get h) m) ∧
      h'.freehdrs = T.unlinkedHeads (T.get h) h.freehdrs m ∧ h'.sbrks = h.sbrks ∧
      h'.linked = h.linked := by
  have hm0 : m ≠ 0 := (hz m hm).1
  obtain ⟨hn0, hp0⟩ := hl.links_ne_zero hz hm
  obtain ⟨wn, wp⟩ := hW m hm
  have z := T.zero_lt_width
  have e0 := Traced.refl T C P h
  -- a write to another member does not change what is read from `m`
  have hr : ∀ {n}, Free fl n → n ≠ m → ∀ k x f, W m f →
      T.get (T.set k n .prevfree x) m f = T.get k m f := fun hn hne k x f hf =>
    hC.get_set_ne (hC.readable _ _ hf) (hW _ hn).2 fun heq => absurd heq.symm hne
  unfold extractfree
  by_cases hn : T.get h m .nextfree = T.none <;> by_cases hp : T.get h m .prevfree = T.none
  · refine ⟨_, by simp [hm0, hn, hp, get_set_field, get_set_self, putFreehdr, hb]; rfl, ?_, ?_⟩
    · have e1 := ((e0.set hC wn (z _)).set hC wp (z _)).set hC wp (z _)
      refine ((e1.set hC wn (z _)).congr fun a f => ?_).heap rfl
      simp only [upd, unlinked]
      grind
    · simp [unlinkedHeads, hp, hn, Heap.setFreehdr, set]
  · obtain ⟨hpf, hpm⟩ := hl.prevfree_spec hz hm hp
    refine ⟨_, by simp [hm0, hn, hp, hp0, get_set_field, get_set_self]; rfl, ?_, ?_⟩
    · have e1 := (e0.set hC wn (z _)).set hC (hW _ hpf).1 T.none_lt
      have e2 := (e1.set hC wp (z _)).set hC wn (z _)
      refine e2.congr fun a f => ?_
      simp only [upd, unlinked]
      grind
    · simp [unlinkedHeads, hp, set]
  · obtain ⟨hnf, hnm, -⟩ := hl.nextfree_spec hz hm hn
    refine ⟨_, by simp [hm0, hn, hp, hn0, hr hnf hnm _ _ _ wn, hr hnf hnm _ _ _ wp, get_set_field,
      get_set_self, putFreehdr, hb]; rfl, ?_, ?_⟩
    · have e1 := (e0.set hC wp (z _)).set hC (hW _ hnf).2 T.none_lt
      refine (((e1.set hC wp (z _)).set hC wn (z _)).congr fun a f => ?_).heap rfl
      simp only [upd, unlinked]
      grind
    · simp [unlinkedHeads, hp, hn, Heap.setFreehdr, set]
  · obtain ⟨hnf, hnm, -⟩ := hl.nextfree_spec hz hm hn
    obtain ⟨hpf, hpm⟩ := hl.prevfree_spec hz hm hp
    refine ⟨_, by simp [hm0, hn, hp, hn0, hp0, hr hnf hnm _ _ _ wp]; rfl, ?_, ?_⟩
    · have e1 := (e0.set hC (hW _ hnf).2 (T.get_lt h m .prevfree)).set hC (hW _ hpf).1
        (T.get_lt h m .nextfree)
      have e2 := (e1.set hC wp (z _)).set hC wn (z _)
      refine e2.congr fun a f => ?_
      simp only [upd, unlinked]
      grind
    · simp [unlinkedHeads, hp, set]

theorem Cells.of_inv (hi : Inv T v hd R B fl ls) (hK : K ⊆ B) :
    T.Cells (T.Cell (blocks B fl) fun a => v a .sz)
      (fun a f => T.Cell (blocks B fl) (fun a => v a .sz) a f ∧ (f = .prevfree → a ∉ K))
      {x | ∃ a ∈ K, a + T.dataOffset ≤ x ∧ x < a + v a .sz} :=
  hi.apart.cells fun _ ha => .inl (hK ha)

theorem extractfree_run (hi : Inv T (T.get h) h.freehdrs R B fl ls) (hm : Free fl m) (hK : K ⊆ B) :
    ∃ h', T.extractfree h m = .ok h' ∧
      Edits T (blocks B fl) (fun a => T.get h a .sz) K h h' (T.unlinked (T.get h) m) ∧
      h'.freehdrs = T.unlinkedHeads (T.get h) h.freehdrs m ∧ h'.sbrks = h.sbrks ∧
      h'.linked = h.linked := by
  obtain ⟨h', hrun, ht, hr⟩ := extractfree_trace (Cells.of_inv hi hK) hi.lists hi.proper
    (fun a ha => ⟨⟨hi.cell_free ha, by simp⟩, hi.cell_free ha, fun _ h => hi.inUse a (hK h) ha⟩) hm
    (hi.bucket_range (.inr hm)).2
  exact ⟨h', hrun, ht.edits fun a ha x h1 h2 => ⟨a, ha, h1, h2⟩, hr⟩

/-- The outcome of an edit of the free lists: the invariant with the new lists `fl'`, and no
change to the chains. -/
structure Relisted (T : Target) (R : Set (ℕ × ℕ)) (B B' : Set ℕ) (fl fl' : ℕ → List ℕ) (ls : ℕ)
    (K : Set ℕ) (h h' : Heap) : Prop where
  inv : Inv T (T.get h') h'.freehdrs R B' fl' ls
  keeps : T.Keeps K h h'
  chain : ∀ a ∈ blocks B fl, T.get h' a .prev = T.get h a .prev ∧
    T.get h' a .next = T.get h a .next ∧ T.get h' a .sz = T.get h a .sz
  last : h'.lastsbrk = h.lastsbrk

theorem Edits.chain (he : Edits T (blocks B fl) (fun a => T.get h a .sz) K h h' w)
    (hw : ∀ a f, f ≠ .nextfree → f ≠ .prevfree → w a f = T.get h a f) (ha : a ∈ blocks B fl) :
    T.get h' a .prev = T.get h a .prev ∧ T.get h' a .next = T.get h a .next ∧
      T.get h' a .sz = T.get h a .sz := by
  have h1 : ∀ f, f ≠ .nextfree → f ≠ .prevfree → T.get h' a f = T.get h a f := fun f h1 h2 =>
    (he.get ha h2).trans (hw a f h1 h2)
  exact ⟨h1 _ nofun nofun, h1 _ nofun nofun, h1 _ nofun nofun⟩

/-- The head of a list after a member was taken out. -/
theorem unlinkedHeads_eq (hl : FreeLists T v hd fl) (hz : ∀ a, Free fl a → a ≠ 0 ∧ a ≠ T.none)
    (hb : fl b = l1 ++ m :: l2) (hb0 : b ≠ 0) (hbn : b < T.nflists) :
    T.unlinkedHeads v hd m b = (l1 ++ l2).headD 0 := by
  have hm : m ∈ fl b := by simp [hb]
  have hne : ∀ {a}, a ∈ fl b → a ≠ T.none := fun h => (hz _ ⟨b, h⟩).2
  have hd1 := hl.links b
  have hbk := hl.bucket b m hm
  have hh := hl.heads b hb0 hbn
  rw [hb] at hd1 hh
  have hp := hd1.around.1.2 (hne hm)
  have hn := hd1.around.2.1 (hne hm)
  unfold unlinkedHeads
  rw [hbk]
  rcases l1 with _ | ⟨y, l1⟩
  · have hp' : v m .prevfree = T.none := by simpa using hp
    rw [if_pos hp', update_self]
    rcases l2 with _ | ⟨z, l2⟩
    · have hn' : v m .nextfree = T.none := by simpa using hn
      rw [if_pos hn']
      rfl
    · have hn' : v m .nextfree = z := by simpa using hn
      have hz : z ∈ fl b := by simp [hb]
      rw [hn', if_neg (hne hz)]
      rfl
  · have hp' : v m .prevfree ≠ T.none := by
      rw [getLast_cons (by simp)] at hp
      have hl := getLast_mem (l := y :: l1) nofun
      rw [← hp] at hl
      exact hne (by rw [hb]; exact mem_append_left _ hl)
    rw [if_neg hp']
    exact hh

theorem unlinkedHeads_of_ne (hc : c ≠ size2bucket (v m .sz)) : T.unlinkedHeads v hd m c = hd c := by
  unfold unlinkedHeads
  split_ifs
  · exact update_of_ne hc ..
  · exact update_of_ne hc ..
  · rfl

theorem unlinked_lists (hl : FreeLists T v hd fl) (hz : ∀ a, Free fl a → a ≠ 0 ∧ a ≠ T.none)
    (hb : fl b = l1 ++ m :: l2) (hb0 : b ≠ 0) (hbn : b < T.nflists) :
    FreeLists T (T.unlinked v m) (T.unlinkedHeads v hd m) (update fl b (l1 ++ l2)) := by
  have hm : m ∈ fl b := by simp [hb]
  refine hl.extract hz hb (unlinkedHeads_eq hl hz hb hb0 hbn) ?_ ?_ ?_ ?_ ?_ ?_
  · intro c _ hc
    exact unlinkedHeads_of_ne (by rw [hl.bucket b m hm]; exact hc)
  · simp [unlinked]
  · intro hn
    obtain ⟨-, hnm, -⟩ := hl.nextfree_spec hz ⟨b, hm⟩ hn
    simp [unlinked, hnm, hn]
  · intro hp
    obtain ⟨-, hpm⟩ := hl.prevfree_spec hz ⟨b, hm⟩ hp
    simp [unlinked, hpm, hp]
  · intro a _ ham hap
    simp [unlinked, ham, hap]
  · intro a _ ham han
    simp [unlinked, ham, han]

section

variable (hi : Inv T (T.get h) h.freehdrs R B fl ls)
include hi

/-- Once `m` is unlinked in the records, it is out of its list; its own `prevfree` link does not
matter any more. -/
theorem Edits.relisted (hm : Free fl m) (hK : K ⊆ B)
    (he : Edits T (blocks B fl) (fun a => T.get h a .sz) K h h' w)
    (hw : ∀ a f, (a = m → f ≠ .prevfree) → w a f = T.unlinked (T.get h) m a f)
    (hhd : h'.freehdrs = T.unlinkedHeads (T.get h) h.freehdrs m) (hs : h'.sbrks = h.sbrks)
    (hl : h'.linked = h.linked) :
    ∃ fl', Relisted T R B (insert m B) fl fl' ls K h h' ∧
      (∀ a, Free fl' a ↔ Free fl a ∧ a ≠ m) ∧ T.get h' m .nextfree = 0 := by
  have hbr := hi.bucket_range (.inr hm)
  have hm' := hm
  obtain ⟨b, hb⟩ := hm
  have hbk := hi.lists.bucket b m hb
  obtain ⟨l1, l2, hbl⟩ := append_of_mem hb
  have hfr : ∀ a, Free fl a → ∀ f, (a = m → f ≠ .prevfree) →
      T.get h' a f = T.unlinked (T.get h) m a f := fun a ha f hf =>
    (he.fields a f (hi.cell_free ha)).trans (hw a f hf)
  have hc : ∀ a ∈ blocks B fl, _ := fun a ha => he.chain
    (fun a f h1 h2 => by rw [hw a f fun _ => h2]; simp [unlinked, h1, h2]) ha
  have hli := unlinked_lists hi.lists hi.proper hbl (hbk ▸ hbr.1) (hbk ▸ hbr.2)
  refine ⟨_, ⟨hi.extract hbl (hli.congr (fun c _ => by rw [hhd]) fun a ha =>
    ?_) hc, ?_, hc, ?_⟩, fun a => hi.lists.free_update hbl, ?_⟩
  · obtain ⟨ha', ham⟩ := (hi.lists.free_update hbl).1 ha
    exact ⟨hfr a ha' _ nofun, hfr a ha' _ (by simp [ham]), hfr a ha' _ nofun⟩
  · refine he.keeps hK (fun a ha f h1 h2 => ?_) hs (by unfold NodesFit; rw [hl]; exact id)
    have hne : a ≠ m := fun h => hi.inUse a (hK ha) (h ▸ hm')
    have hnp : a = T.get h m .prevfree → a = T.none := by
      intro heq
      by_contra hne'
      rw [heq] at hne'
      exact hi.inUse a (hK ha) (heq ▸ (hi.prevfree_spec hm' hne').1)
    rw [hw a f fun _ => h2]
    simp only [unlinked]
    grind
  · show h'.freehdrs 0 = h.freehdrs 0
    rw [hhd, unlinkedHeads_of_ne hbr.1.symm]
  · rw [hfr m hm' _ (by simp)]
    simp [unlinked]

/-- **`extractfree`** takes a free block out of its list. -/
theorem extractfree_spec (hm : Free fl m) (hK : K ⊆ B) :
    ∃ h' fl', T.extractfree h m = .ok h' ∧ Relisted T R B (insert m B) fl fl' ls K h h' ∧
      (∀ a, Free fl' a ↔ Free fl a ∧ a ≠ m) ∧ T.get h' m .nextfree = 0 := by
  obtain ⟨h', hrun, he, hhd, hs, hl⟩ := extractfree_run hi hm hK
  obtain ⟨fl', hr⟩ := he.relisted hi hm hK (fun _ _ _ => rfl) hhd hs hl
  exact ⟨h', fl', hrun, hr⟩

/-- **`rmvfromfree`** takes the head of a list. -/
theorem rmvfromfree_spec (hb : fl b = m :: l) (hK : K ⊆ B) :
    ∃ h' fl', T.rmvfromfree h m = .ok h' ∧ Relisted T R B (insert m B) fl fl' ls K h h' ∧
      (∀ a, Free fl' a ↔ Free fl a ∧ a ≠ m) ∧ T.get h' m .nextfree = 0 := by
  have hmb : m ∈ fl b := by simp [hb]
  have hm : Free fl m := ⟨b, hmb⟩
  have hm0 : m ≠ 0 := hi.ne_zero (.inr hm)
  have hbk := hi.lists.bucket b m hmb
  have hbr := hi.bucket_range (.inr hm)
  rw [hbk] at hbr
  have hd0 := hi.lists.links b
  have hhd := hi.lists.heads b hbr.1 hbr.2
  rw [hb] at hd0 hhd
  have hpm : T.get h m .prevfree = T.none := hd0.bwd_head (hi.ne_none_of_mem hmb)
  have hz := T.zero_lt_width
  have e0 := Edits.refl T (blocks B fl) (fun a => T.get h a .sz) K h
  -- the records and heads are those of `extractfree`, but for the `prevfree` link of `m` itself
  obtain ⟨h', hrun, he, hhd', hs, hl⟩ : ∃ h', T.rmvfromfree h m = .ok h' ∧
      Edits T (blocks B fl) (fun a => T.get h a .sz) K h h'
        ((T.unlinked (T.get h) m).upd m .prevfree T.none) ∧
      h'.freehdrs = T.unlinkedHeads (T.get h) h.freehdrs m ∧ h'.sbrks = h.sbrks ∧
      h'.linked = h.linked := by
    unfold rmvfromfree unlinkedHeads
    by_cases hn : T.get h m .nextfree = T.none
    · refine ⟨_, by simp [hm0, hbk, hbr.2, hhd, hn]; rfl, ?_, ?_⟩
      · refine ((e0.setFreehdr b 0).setFree hi hK hm .nextfree (hz _)).congr fun a f => ?_
        simp only [upd, unlinked]
        grind
      · simp [hpm, hn, hbk, Heap.setFreehdr, set]
    obtain ⟨hnf, hne⟩ := hi.nextfree_spec hm hn
    refine ⟨_, by simp [hm0, hbk, hbr.2, hhd, hn]; rfl, ?_, ?_⟩
    · have e1 := (e0.setFreehdr b (T.get h m .nextfree)).setFree hi hK hnf .prevfree T.none_lt
      refine (e1.setFree hi hK hm .nextfree (hz _)).congr fun a f => ?_
      simp only [upd, unlinked]
      grind
    · simp [hpm, hn, hbk, Heap.setFreehdr, set]
  obtain ⟨fl', hr⟩ := he.relisted hi hm hK (fun a f hf => if_neg fun hc => hf hc.1 hc.2) hhd' hs hl
  exact ⟨h', fl', hrun, hr⟩

end

/-! ### Putting a block into its free list -/

/-- The records after `linkfree`. -/
def pushed (T : Target) (v : Records) (hd m : ℕ) : Records := fun a f =>
  if a = m ∧ f = .nextfree then if hd = 0 then T.none else hd
  else if a = m ∧ f = .prevfree then T.none
  else if f = .prevfree ∧ a = hd ∧ hd ≠ 0 then m
  else v a f

/-- The writes of `linkfree`, wherever the cells of the members lie. -/
theorem linkfree_trace (hC : T.Cells C W P)
    (hm : W m .nextfree ∧ W m .prevfree ∧ C m .sz) (hmlt : m < 256 ^ T.ptr)
    (hb : size2bucket (T.get h m .sz) = b) (hbn : b < T.nflists)
    (hhd : h.freehdrs b ≠ 0 → W (h.freehdrs b) .prevfree ∧ h.freehdrs b ≠ m ∧
      h.freehdrs b < 256 ^ T.ptr) :
    ∃ h', T.linkfree h m = .ok h' ∧ Traced T C P h h' (T.pushed (T.get h) (h.freehdrs b) m) ∧
      h'.freehdrs = update h.freehdrs b m ∧ h'.sbrks = h.sbrks ∧
      h'.linked = (m, T.get h m .sz) :: h.linked := by
  obtain ⟨wn, wp, cs⟩ := hm
  have e0 := Traced.refl T C P h
  unfold linkfree
  by_cases h0 : h.freehdrs b = 0
  · have e1 := (e0.set hC wn T.none_lt).set hC wp T.none_lt
    have hsz := e1.fields m .sz cs
    simp only [ne_eq, reduceCtorEq, not_false_eq_true, upd_of_field_ne] at hsz
    refine ⟨_, by simp [hb, hbn, h0]; rfl, ?_⟩
    refine ⟨?_, rfl, rfl, congrArg (fun x => (m, x) :: h.linked) hsz⟩
    refine (e1.congr fun a f => ?_).heap rfl
    simp only [upd, pushed]
    grind
  obtain ⟨wh, hne, hlt⟩ := hhd h0
  have e1 := (e0.set hC wn hlt).set hC wh hmlt
  have e2 := (e1.set hC wp T.none_lt).set hC wh hmlt
  have hsz := e2.fields m .sz cs
  simp only [ne_eq, reduceCtorEq, not_false_eq_true, upd_of_field_ne] at hsz
  refine ⟨_, by simp [hb, hbn, h0]; rfl, ?_⟩
  refine ⟨?_, rfl, rfl, congrArg (fun x => (m, x) :: h.linked) hsz⟩
  refine (e2.congr fun a f => ?_).heap rfl
  simp only [upd, pushed]
  grind

theorem linkfree_run (hi : Inv T (T.get h) h.freehdrs R B fl ls) (hm : m ∈ B)
    (hla : T.freeHeader ≤ T.get h m .sz) (hK : K ⊆ B) (hmK : m ∉ K)
    (hb : size2bucket (T.get h m .sz) = b) :
    ∃ h', T.linkfree h m = .ok h' ∧ Edits T (blocks B fl) (fun a => T.get h a .sz) K h h'
        (T.pushed (T.get h) (h.freehdrs b) m) ∧
      h'.freehdrs = update h.freehdrs b m ∧ h'.sbrks = h.sbrks ∧
      h'.linked = (m, T.get h m .sz) :: h.linked := by
  have hbr := hi.bucket_range (.inl hm)
  rw [hb] at hbr
  have hc : ∀ f, T.Cell (blocks B fl) (fun a => T.get h a .sz) m f := fun f =>
    ⟨.inl hm, fun _ => hla⟩
  obtain ⟨h', hrun, ht, hr⟩ := linkfree_trace (Cells.of_inv hi hK)
    ⟨⟨hc _, by simp⟩, ⟨hc _, fun _ => hmK⟩, hc _⟩ (hi.lt_pow (.inl hm)) hb hbr.2
    (fun h0 => by
      obtain ⟨l, hl⟩ := hi.lists.head_mem hbr.1 hbr.2 h0
      have hf : Free fl (h.freehdrs b) := ⟨b, by rw [hl]; simp⟩
      exact ⟨⟨hi.cell_free hf, fun _ h => hi.inUse _ (hK h) hf⟩, fun h => hi.inUse m hm (h ▸ hf),
        hi.lt_pow (.inr hf)⟩)
  exact ⟨h', hrun, ht.edits fun a ha x h1 h2 => ⟨a, ha, h1, h2⟩, hr⟩

/-- The lists after `linkfree`. -/
theorem pushed_lists (hl : FreeLists T v hd fl) (hz : ∀ a, Free fl a → a ≠ 0 ∧ a ≠ T.none)
    (hm : ¬ Free fl m) (hb : size2bucket (v m .sz) = b) (hb0 : b ≠ 0) (hbn : b < T.nflists) :
    FreeLists T (T.pushed v (hd b) m) (update hd b m)
    (update fl b (m :: fl b)) := by
  have hh := hl.heads b hb0 hbn
  have hze : ∀ y ∈ fl b, y ≠ 0 := fun y hy => (hz y ⟨b, hy⟩).1
  refine hl.link hm ?_ ?_ ?_ ?_ ?_ ?_ ?_ ?_ ?_
  · simpa [pushed] using hb
  · rw [update_self]
  · intro c _ hc
    rw [update_of_ne hc]
  · simp [pushed]
  · cases hbl : fl b with
    | nil => rw [hbl] at hh; simp [pushed, hh]
    | cons y l =>
      rw [hbl] at hh hze
      have hy : y ≠ 0 := hze y (by simp)
      simp [pushed, hh, hy]
  · simp [pushed]
  · intro y hy
    have hyf : y ∈ fl b := mem_of_mem_head? hy
    have hym : y ≠ m := fun h => hm ⟨_, h ▸ hyf⟩
    have hyh : hd b = y := by
      rw [hh, headD_eq_head?_getD, Option.mem_def.1 hy]
      rfl
    simp [pushed, hym, hyh, hze y hyf]
  · intro a ha
    have ham : a ≠ m := fun h => hm (h ▸ ha)
    simp [pushed, ham]
  · intro a ha hah
    have hne : hd b ≠ 0 → a ≠ hd b := by
      rintro h0 rfl
      obtain ⟨l, hbl⟩ := hl.head_mem hb0 hbn h0
      exact hah (by rw [hbl]; rfl)
    simp only [pushed]
    grind

/-- **`linkfree`** makes a block the head of its list. -/
theorem linkfree_spec (hi : Inv T (T.get h) h.freehdrs R B fl ls) (hm : m ∈ B)
    (hla : T.freeHeader ≤ T.get h m .sz) (hb : ∀ a, Free fl a → T.get h a .next ≠ m)
    (hab : ¬ Free fl (T.get h m .next)) (hls : ls ≠ 0 → T.get h m .next ≠ ls) (hK : K ⊆ B)
    (hmK : m ∉ K) :
    ∃ h' fl', T.linkfree h m = .ok h' ∧ Relisted T R B (B \ {m}) fl fl' ls K h h' ∧
      ∀ a, Free fl' a ↔ a = m ∨ Free fl a := by
  obtain ⟨h', hrun, he, hhd, hs, hl⟩ := linkfree_run hi hm hla hK hmK rfl
  have hbr := hi.bucket_range (.inl hm)
  have hch : ∀ a ∈ blocks B fl, _ := fun a ha => he.chain
    (fun a f h1 h2 => by simp [pushed, h1, h2]) ha
  have hc : ∀ a, a = m ∨ Free fl a → ∀ f, T.get h' a f = _ := fun a ha f =>
    he.fields a f <| ha.elim (fun heq => heq ▸ ⟨.inl hm, fun _ => hla⟩) hi.cell_free
  have hli := pushed_lists hi.lists hi.proper (hi.inUse m hm) rfl hbr.1 hbr.2
  refine ⟨h', _, hrun, ⟨hi.link hm hla hb hab hls
    (hli.congr (fun c _ => by rw [hhd]) fun a ha => ?_) hch, ?_, hch, ?_⟩,
    fun a => FreeLists.free_push⟩
  · have ha' := FreeLists.free_push.1 ha
    exact ⟨hc a ha' _, hc a ha' _, hc a ha' _⟩
  · refine he.keeps hK (fun a ha f h1 h2 => ?_) hs fun hfit e he' => ?_
    · have ham : a ≠ m := fun h => hmK (h ▸ ha)
      simp [pushed, ham, h2]
    · rw [hl, mem_cons] at he'
      rcases he' with rfl | he'
      · exact hla
      · exact hfit e he'
  · show h'.freehdrs 0 = h.freehdrs 0
    rw [hhd, update_of_ne hbr.1.symm]

end Target

end Nmalloc
