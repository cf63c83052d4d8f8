import Dj64.Lib.LinkedList
import Dj64.Lib.Tiling
import Dj64.Malloc.Fields
import Mathlib.Data.Nat.Size

/-!
# The invariant of the allocator's heap

The invariant is stated about the header records `v` and the list heads `hd`, so that nothing
below this point speaks of bytes.  Its ghost parameters are the regions `R` obtained from the
memory source, the set `B` of the blocks that are in no free list (those of the client, `lastsbrk`,
and those a call is working on), the members `fl b` of the free list of every bucket `b`, and the
block `ls` that must not lie above a free block.
-/

namespace Nmalloc

open LinkedList Tiling List Function Nat Set

/-! ### Buckets -/

theorem size_half {sz : ℕ} (h : sz ≠ 0) : size sz = size (sz / 2) + 1 := by
  conv_lhs => rw [← bit_bodd_div2 sz]
  rw [size_bit (by rwa [bit_bodd_div2]), div2_val]

theorem size2bucketLoop_eq {fuel : ℕ} : ∀ sz b, sz < 2 ^ fuel →
    size2bucketLoop fuel sz b = b + size sz := by
  induction fuel with
  | zero =>
    intro sz b h
    have h0 : sz = 0 := by simpa using h
    rw [h0]
    rfl
  | succ fuel ih =>
    intro sz b h
    rw [size2bucketLoop]
    split_ifs with h0
    · rw [h0, size_zero, add_zero]
    · rw [ih _ _ (by rw [pow_succ] at h; omega), size_half h0]
      omega

theorem size2bucket_eq {sz : ℕ} (h : sz < 2 ^ 32) : size2bucket sz = size sz := by
  rw [size2bucket, size2bucketLoop_eq _ _ h, zero_add]

theorem lt_of_size2bucket_lt {s t : ℕ} (hs : s < 2 ^ 32) (ht : t < 2 ^ 32)
    (h : size2bucket s < size2bucket t) : s < t := by
  rw [size2bucket_eq hs, size2bucket_eq ht, lt_size] at h
  exact (lt_size_self s).trans_le h

theorem size2bucket_pos {s : ℕ} (hs : s < 2 ^ 32) (h : 0 < s) : size2bucket s ≠ 0 := by
  rw [size2bucket_eq hs]
  exact (size_pos.2 h).ne'

theorem size2bucket_le {s n : ℕ} (hs : s < 2 ^ 32) (h : s < 2 ^ n) : size2bucket s ≤ n := by
  rw [size2bucket_eq hs]
  exact size_le.2 h

/-! ### The invariant -/

/-- `a` is a member of a free list. -/
def Free (fl : ℕ → List ℕ) (a : ℕ) : Prop := ∃ b, a ∈ fl b

def blocks (B : Set ℕ) (fl : ℕ → List ℕ) : Set ℕ := {a | a ∈ B ∨ Free fl a}

/-- The free lists: their heads, their links, and the bucket of each member. -/
structure FreeLists (T : Target) (v : Records) (hd : ℕ → ℕ) (fl : ℕ → List ℕ) : Prop where
  heads : ∀ b, b ≠ 0 → b < T.nflists → hd b = (fl b).headD 0
  links : ∀ b, DLinked (fun a => v a .nextfree) (fun a => v a .prevfree) T.none (fl b)
  nodup : ∀ b, (fl b).Nodup
  bucket : ∀ b, ∀ a ∈ fl b, size2bucket (v a .sz) = b

/-- The heap invariant. -/
structure Inv (T : Target) (v : Records) (hd : ℕ → ℕ) (R : Set (ℕ × ℕ)) (B : Set ℕ)
    (fl : ℕ → List ℕ) (ls : ℕ) : Prop where
  tiled : Tiled T.dataOffset (fun a => v a .prev) (fun a => v a .next) (fun a => v a .sz) R
    (blocks B fl)
  lists : FreeLists T v hd fl
  aligned : ∀ a ∈ blocks B fl, align ∣ a
  bounded : ∀ r ∈ R, r.2 ≤ 256 ^ T.ptr ∧ r.2 - r.1 < 2 ^ 32 ∧ r.2 - r.1 < 2 ^ (T.nflists - 1)
  outside : ∀ r ∈ R, r.2 ≤ T.none ∨ T.none < r.1
  large : ∀ a, Free fl a → T.freeHeader ≤ v a .sz
  inUse : ∀ a ∈ B, ¬ Free fl a
  aboveFree : ∀ a, Free fl a → ¬ Free fl (v a .next) ∧ (ls ≠ 0 → v a .next ≠ ls)

variable {T : Target} {v v' : Records} {hd hd' : ℕ → ℕ} {R R' : Set (ℕ × ℕ)} {B B' : Set ℕ}
  {fl : ℕ → List ℕ} {ls a b m s lo up x : ℕ} {f : Field} {l1 l2 : List ℕ}

/-! ### The free lists by themselves -/

namespace FreeLists

section

variable (hl : FreeLists T v hd fl) {l1 l2 : List ℕ}
include hl

theorem bucket_unique {b'} (h1 : a ∈ fl b) (h2 : a ∈ fl b') : b = b' :=
  (hl.bucket b a h1).symm.trans (hl.bucket b' a h2)

section

variable (hz : ∀ a, Free fl a → a ≠ 0 ∧ a ≠ T.none)
include hz

theorem links_ne_zero (ha : Free fl a) : v a .nextfree ≠ 0 ∧ v a .prevfree ≠ 0 := by
  obtain ⟨b, hb⟩ := ha
  have hne := (hz a ⟨b, hb⟩).2
  have hz : ∀ x ∈ fl b, x ≠ 0 := fun x hx => (hz x ⟨b, hx⟩).1
  refine ⟨fun h => ?_, fun h => ?_⟩
  · rcases (hl.links b).fwd_mem hb hne with h1 | h1
    · exact T.none_pos (h1.symm.trans h)
    · exact hz _ h1 h
  · rcases (hl.links b).bwd_mem hb hne with h1 | h1
    · exact T.none_pos (h1.symm.trans h)
    · exact hz _ h1 h

theorem nextfree_spec (ha : Free fl a) (hn : v a .nextfree ≠ T.none) :
    Free fl (v a .nextfree) ∧ v a .nextfree ≠ a ∧ v (v a .nextfree) .prevfree = a := by
  obtain ⟨b, hb⟩ := ha
  obtain ⟨l1, l2, hlb⟩ := append_of_mem hb
  have hnd := hl.nodup b
  have hd := hl.links b
  rw [hlb] at hd hnd
  have hf := hd.around.2
  cases l2 with
  | nil => exact absurd (by simpa using hf.1 (hz a ⟨b, hb⟩).2) hn
  | cons y l2 =>
    have hy : v a .nextfree = y := by simpa using hf.1 (hz a ⟨b, hb⟩).2
    have hyb : y ∈ fl b := by simp [hlb]
    rw [hy]
    refine ⟨⟨b, hyb⟩, fun h => ?_, by simpa using hf.2 (hz y ⟨b, hyb⟩).2⟩
    simp [h, nodup_append] at hnd

theorem prevfree_spec (ha : Free fl a) (hp : v a .prevfree ≠ T.none) :
    Free fl (v a .prevfree) ∧ v a .prevfree ≠ a := by
  obtain ⟨b, hb⟩ := ha
  obtain ⟨l1, l2, hlb⟩ := append_of_mem hb
  have hnd := hl.nodup b
  have hd := hl.links b
  rw [hlb] at hd hnd
  have hf := hd.around.1.2 (hz a ⟨b, hb⟩).2
  rcases eq_nil_or_concat l1 with rfl | ⟨l, y, rfl⟩
  · exact absurd (by simpa using hf) hp
  · have hy : v a .prevfree = y := by simpa using hf
    rw [hy]
    refine ⟨⟨b, by simp [hlb]⟩, fun h => ?_⟩
    simp [h, nodup_append] at hnd

end

theorem head_mem (hb : b ≠ 0) (hb' : b < T.nflists) (h : hd b ≠ 0) : ∃ l, fl b = hd b :: l := by
  have h1 := hl.heads b hb hb'
  cases hlb : fl b with
  | nil => rw [hlb] at h1; exact absurd h1 h
  | cons x l => rw [hlb] at h1; exact ⟨l, by rw [h1]; rfl⟩

theorem congr (hhd : ∀ b, b ≠ 0 → hd' b = hd b)
    (hv : ∀ a, Free fl a → v' a .nextfree = v a .nextfree ∧ v' a .prevfree = v a .prevfree ∧
      v' a .sz = v a .sz) : FreeLists T v' hd' fl := by
  refine ⟨?_, ?_, hl.nodup, ?_⟩
  · intro b h1 h2
    rw [hhd b h1]
    exact hl.heads b h1 h2
  · exact fun b => (hl.links b).congr fun x hx => ⟨(hv x ⟨b, hx⟩).1, (hv x ⟨b, hx⟩).2.1⟩
  · intro b a ha
    rw [(hv a ⟨b, ha⟩).2.2]
    exact hl.bucket b a ha

/-- Taking a member out of its list leaves the other members. -/
theorem free_update (hb : fl b = l1 ++ m :: l2) :
    Free (update fl b (l1 ++ l2)) a ↔ Free fl a ∧ a ≠ m := by
  have hnd := hl.nodup b
  rw [hb, nodup_middle, nodup_cons] at hnd
  have hm : m ∈ fl b := by simp [hb]
  constructor
  · rintro ⟨b', h⟩
    by_cases hbb : b' = b
    · subst hbb
      rw [update_self] at h
      refine ⟨⟨b', ?_⟩, fun heq => hnd.1 (heq ▸ h)⟩
      rw [hb]
      rcases mem_append.1 h with h1 | h1 <;> simp [h1]
    · rw [update_of_ne hbb] at h
      exact ⟨⟨b', h⟩, fun heq => hbb (hl.bucket_unique (heq ▸ h) hm)⟩
  · rintro ⟨⟨b', h⟩, hne⟩
    refine ⟨b', ?_⟩
    by_cases hbb : b' = b
    · subst hbb
      simpa [hb, hne] using h
    · rwa [update_of_ne hbb]

end

theorem free_push : Free (update fl b (m :: fl b)) a ↔ a = m ∨ Free fl a := by
  constructor
  · rintro ⟨b', h⟩
    by_cases hbb : b' = b
    · subst hbb
      rw [update_self, mem_cons] at h
      exact h.imp id fun h => ⟨b', h⟩
    · rw [update_of_ne hbb] at h
      exact .inr ⟨b', h⟩
  · rintro (rfl | ⟨b', h⟩)
    · exact ⟨b, by simp⟩
    · refine ⟨b', ?_⟩
      by_cases hbb : b' = b
      · subst hbb; simp [h]
      · rwa [update_of_ne hbb]

/-- A member leaves its list: its neighbours are linked to each other, and the head moves if it
was the member. -/
theorem extract (hl : FreeLists T v hd fl) (hz : ∀ a, Free fl a → a ≠ 0 ∧ a ≠ T.none)
    (hb : fl b = l1 ++ m :: l2)
    (hhd : hd' b = (l1 ++ l2).headD 0) (hhd' : ∀ c, c ≠ 0 → c ≠ b → hd' c = hd c)
    (hsz : ∀ a, Free fl a → v' a .sz = v a .sz)
    (hn : v m .nextfree ≠ T.none → v' (v m .nextfree) .prevfree = v m .prevfree)
    (hp : v m .prevfree ≠ T.none → v' (v m .prevfree) .nextfree = v m .nextfree)
    (hf : ∀ a, Free fl a → a ≠ m → a ≠ v m .prevfree → v' a .nextfree = v a .nextfree)
    (hbk : ∀ a, Free fl a → a ≠ m → a ≠ v m .nextfree → v' a .prevfree = v a .prevfree) :
    FreeLists T v' hd' (update fl b (l1 ++ l2)) := by
  have hm : m ∈ fl b := by simp [hb]
  have hnd := hl.nodup b
  have hnd' : m ∉ l1 ++ l2 := by
    rw [hb, nodup_middle, nodup_cons] at hnd
    exact hnd.1
  have hin : ∀ a ∈ l1 ++ l2, a ∈ fl b := by
    intro a ha
    rw [hb]
    rcases mem_append.1 ha with h1 | h1 <;> simp [h1]
  have hne : ∀ {a c}, a ∈ fl c → a ≠ T.none := fun h => (hz _ ⟨_, h⟩).2
  refine ⟨?_, ?_, ?_, ?_⟩
  · intro c h1 h2
    by_cases hcb : c = b
    · subst hcb; rw [update_self, hhd]
    · rw [update_of_ne hcb, hhd' c h1 hcb]
      exact hl.heads c h1 h2
  · intro c
    by_cases hcb : c = b
    · subst hcb
      rw [update_self]
      have hlc := hl.links c
      rw [hb] at hlc hnd
      refine hlc.unlink ?_ hn hp ?_ ?_ hnd
      · exact fun x hx => hne (hb ▸ hx)
      · exact fun x hx => hf x ⟨c, hin x hx⟩ fun h => hnd' (h ▸ hx)
      · exact fun x hx => hbk x ⟨c, hin x hx⟩ fun h => hnd' (h ▸ hx)
    rw [update_of_ne hcb]
    -- the neighbours of `m` are in its own list
    refine (hl.links c).congr fun x hx => ?_
    have hxm : x ∉ fl b := fun h => hcb (hl.bucket_unique hx h)
    refine ⟨hf x ⟨c, hx⟩ (fun h => hxm (h ▸ hm)) fun h => ?_,
      hbk x ⟨c, hx⟩ (fun h => hxm (h ▸ hm)) fun h => ?_⟩
    · rcases (hl.links b).bwd_mem hm (hne hm) with h1 | h1
      · exact hne hx (h.trans h1)
      · exact hxm (h ▸ h1)
    · rcases (hl.links b).fwd_mem hm (hne hm) with h1 | h1
      · exact hne hx (h.trans h1)
      · exact hxm (h ▸ h1)
  · intro c
    by_cases hcb : c = b
    · subst hcb
      rw [update_self]
      rw [hb, nodup_middle, nodup_cons] at hnd
      exact hnd.2
    · rw [update_of_ne hcb]
      exact hl.nodup c
  · intro c a ha
    have ha' : a ∈ fl c := by
      by_cases hcb : c = b
      · subst hcb; rw [update_self] at ha; exact hin a ha
      · rwa [update_of_ne hcb] at ha
    rw [hsz a ⟨c, ha'⟩]
    exact hl.bucket c a ha'

/-- A block becomes the head of its list. -/
theorem link (hl : FreeLists T v hd fl) (hm : ¬ Free fl m) (hb : size2bucket (v' m .sz) = b)
    (hhd : hd' b = m) (hhd' : ∀ c, c ≠ 0 → c ≠ b → hd' c = hd c)
    (hsz : ∀ a, Free fl a → v' a .sz = v a .sz)
    (hn : v' m .nextfree = (fl b).headD T.none) (hp : v' m .prevfree = T.none)
    (hh : ∀ y ∈ (fl b).head?, v' y .prevfree = m)
    (hf : ∀ a, Free fl a → v' a .nextfree = v a .nextfree)
    (hbk : ∀ a, Free fl a → a ∉ (fl b).head? → v' a .prevfree = v a .prevfree) :
    FreeLists T v' hd' (update fl b (m :: fl b)) := by
  refine ⟨?_, ?_, ?_, ?_⟩
  · intro c h1 h2
    by_cases hcb : c = b
    · subst hcb; rw [update_self, hhd]; rfl
    · rw [update_of_ne hcb, hhd' c h1 hcb]
      exact hl.heads c h1 h2
  · intro c
    by_cases hcb : c = b
    · subst hcb
      rw [update_self]
      refine (hl.links c).push hn hp hh (fun x hx => hf x ⟨c, hx⟩) fun x hx => ?_
      refine hbk x ⟨c, mem_of_mem_tail hx⟩ fun h => ?_
      -- the head does not occur again behind itself
      have hnd := hl.nodup c
      cases hlc : fl c with
      | nil => rw [hlc] at hx; cases hx
      | cons y l =>
        rw [hlc] at hx h hnd
        have hxy : y = x := by simpa using h
        exact (nodup_cons.1 hnd).1 (hxy ▸ hx)
    · rw [update_of_ne hcb]
      refine (hl.links c).congr fun x hx => ⟨hf x ⟨c, hx⟩, hbk x ⟨c, hx⟩ fun h => ?_⟩
      exact hcb (hl.bucket_unique hx (mem_of_mem_head? h))
  · intro c
    by_cases hcb : c = b
    · subst hcb
      rw [update_self]
      exact nodup_cons.2 ⟨fun h => hm ⟨c, h⟩, hl.nodup c⟩
    · rw [update_of_ne hcb]
      exact hl.nodup c
  · intro c a ha
    have ha' : a = m ∧ c = b ∨ a ∈ fl c := by
      by_cases hcb : c = b
      · subst hcb
        rw [update_self, mem_cons] at ha
        exact ha.imp (fun h => ⟨h, rfl⟩) id
      · rw [update_of_ne hcb] at ha
        exact .inr ha
    rcases ha' with ⟨rfl, rfl⟩ | ha'
    · exact hb
    · rw [hsz a ⟨c, ha'⟩]
      exact hl.bucket c a ha'

end FreeLists

/-! ### What the invariant says of one block -/

namespace Inv

section

variable (hi : Inv T v hd R B fl ls)
include hi

section

variable (ha : a ∈ blocks B fl)
include ha

theorem ne_zero : a ≠ 0 := hi.tiled.ne_zero ha

theorem dataOffset_le : T.dataOffset ≤ v a .sz := hi.tiled.least a ha

theorem region : ∃ r ∈ R, r.1 ≤ a ∧ a < r.2 ∧ a + v a .sz ≤ r.2 := by
  obtain ⟨r, hr, h1, h2⟩ := hi.tiled.covered a ha
  exact ⟨r, hr, h1, h2, hi.tiled.end_le hr ha h1 h2⟩

theorem lt_pow : a < 256 ^ T.ptr := by
  obtain ⟨r, hr, -, h2, -⟩ := hi.region ha
  exact h2.trans_le (hi.bounded r hr).1

theorem sz_lt : v a .sz < 2 ^ 32 ∧ v a .sz < 2 ^ (T.nflists - 1) := by
  obtain ⟨r, hr, h1, -, h2⟩ := hi.region ha
  have h3 := hi.bounded r hr
  omega

theorem ne_none : a ≠ T.none := by
  obtain ⟨r, hr, h1, h2, -⟩ := hi.region ha
  have h4 := hi.outside r hr
  omega

theorem sz_add_lt (hn : v a .next ≠ 0) : v a .sz + v (v a .next) .sz < 2 ^ 32 := by
  obtain ⟨r, hr, h1, h2, -⟩ := hi.region ha
  have h3 := hi.bounded r hr
  rcases hi.tiled.up r hr a ha h1 h2 with ⟨-, h0⟩ | ⟨hlt, hnx, hm, -⟩
  · exact absurd h0 hn
  · have h4 := hi.tiled.end_le hr hm (by omega) hlt
    rw [hnx]
    omega

theorem bucket_range : size2bucket (v a .sz) ≠ 0 ∧ size2bucket (v a .sz) < T.nflists := by
  obtain ⟨h1, h2⟩ := hi.sz_lt ha
  have h3 := T.dataOffset_pos.trans_le (hi.dataOffset_le ha)
  have h4 := T.ptr_cases
  have h5 := size2bucket_le h1 h2
  refine ⟨size2bucket_pos h1 h3, ?_⟩
  unfold Target.nflists at h5 ⊢
  omega

end

theorem apart : T.Apart (blocks B fl) (fun a => v a .sz) := ⟨hi.tiled.least, hi.tiled.apart⟩

theorem cell_free (ha : Free fl a) :
    T.Cell (blocks B fl) (fun a => v a .sz) a f := ⟨.inr ha, fun _ => hi.large a ha⟩

theorem proper : ∀ a, Free fl a → a ≠ 0 ∧ a ≠ T.none :=
  fun _ ha => ⟨hi.ne_zero (B := B) (.inr ha), hi.ne_none (B := B) (.inr ha)⟩

theorem ne_none_of_mem (h : a ∈ fl b) : a ≠ T.none := (hi.proper a ⟨b, h⟩).2

theorem free_links (ha : Free fl a) :
    v a .nextfree ≠ 0 ∧ v a .prevfree ≠ 0 := hi.lists.links_ne_zero hi.proper ha

theorem nextfree_spec (ha : Free fl a) (hn : v a .nextfree ≠ T.none) :
    Free fl (v a .nextfree) ∧ v a .nextfree ≠ a :=
  have h := hi.lists.nextfree_spec hi.proper ha hn
  ⟨h.1, h.2.1⟩

theorem prevfree_spec (ha : Free fl a) (hp : v a .prevfree ≠ T.none) :
    Free fl (v a .prevfree) ∧ v a .prevfree ≠ a := hi.lists.prevfree_spec hi.proper ha hp

theorem congr (hhd : ∀ b, b ≠ 0 → hd' b = hd b)
    (hc : ∀ a ∈ blocks B fl, v' a .prev = v a .prev ∧ v' a .next = v a .next ∧ v' a .sz = v a .sz)
    (hl : ∀ a, Free fl a → v' a .nextfree = v a .nextfree ∧ v' a .prevfree = v a .prevfree) :
    Inv T v' hd' R B fl ls := by
  have hF : ∀ a, Free fl a → v' a .next = v a .next ∧ v' a .sz = v a .sz :=
    fun a ha => (hc a (.inr ha)).2
  refine ⟨hi.tiled.congr hc, hi.lists.congr hhd fun a ha => ?_, hi.aligned, hi.bounded, hi.outside,
    ?_, hi.inUse, ?_⟩
  · exact ⟨(hl a ha).1, (hl a ha).2, (hF a ha).2⟩
  · intro a ha
    rw [(hF a ha).2]
    exact hi.large a ha
  · intro a ha
    rw [(hF a ha).1]
    exact hi.aboveFree a ha

theorem setLast (hm : ∀ a, Free fl a → v a .next ≠ m) : Inv T v hd R B fl m :=
  ⟨hi.tiled, hi.lists, hi.aligned, hi.bounded, hi.outside, hi.large, hi.inUse,
    fun a ha => ⟨(hi.aboveFree a ha).1, fun _ => hm a ha⟩⟩

theorem neighbours (hm : m ∈ blocks B fl) (hn : v m .next ≠ 0) :
    m ≠ v m .next ∧ v m .next ∈ blocks B fl ∧
      (v (v m .next) .next ≠ 0 → v (v m .next) .next ∈ blocks B fl ∧ v (v m .next) .next ≠ m ∧
        v (v m .next) .next ≠ v m .next) := by
  obtain ⟨h1, h2, h3⟩ := hi.tiled.next_spec hm hn
  have hk := T.dataOffset_pos
  have k1 := hi.dataOffset_le hm
  have k2 := hi.dataOffset_le h2
  refine ⟨by omega, h2, fun hnn => ?_⟩
  obtain ⟨h4, h5, -⟩ := hi.tiled.next_spec h2 hnn
  exact ⟨h5, by omega, by omega⟩

/-! ### Edits of the free lists -/

/-- **Extraction**: a member leaves its list, its neighbours are linked to each other, and the
head moves if it was the member. -/
theorem extract (hb : fl b = l1 ++ m :: l2) (hl : FreeLists T v' hd' (update fl b (l1 ++ l2)))
    (hc : ∀ a ∈ blocks B fl, v' a .prev = v a .prev ∧ v' a .next = v a .next ∧ v' a .sz = v a .sz) :
    Inv T v' hd' R (insert m B) (update fl b (l1 ++ l2)) ls := by
  have hm : m ∈ fl b := by simp [hb]
  have hf : ∀ a, Free (update fl b (l1 ++ l2)) a ↔ Free fl a ∧ a ≠ m :=
    fun a => hi.lists.free_update hb
  -- no block comes or goes
  have hbl : blocks (insert m B) (update fl b (l1 ++ l2)) = blocks B fl := by
    ext a
    simp only [blocks, mem_ofPred_eq, hf]
    constructor
    · rintro ((rfl | h) | h)
      exacts [.inr ⟨b, hm⟩, .inl h, .inr h.1]
    · rintro (h | h)
      · exact .inl (.inr h)
      · by_cases ham : a = m
        · exact .inl (.inl ham)
        · exact .inr ⟨h, ham⟩
  refine ⟨by rw [hbl]; exact hi.tiled.congr hc, hl, by rw [hbl]; exact hi.aligned,
    hi.bounded, hi.outside, ?_, ?_, ?_⟩
  · intro a ha
    have ha' := ((hf a).1 ha).1
    rw [(hc a (.inr ha')).2.2]
    exact hi.large a ha'
  · rintro a (rfl | ha) h
    · exact ((hf a).1 h).2 rfl
    · exact hi.inUse a ha ((hf a).1 h).1
  · intro a ha
    have ha' := ((hf a).1 ha).1
    rw [(hc a (.inr ha')).2.1]
    exact ⟨fun h => (hi.aboveFree a ha').1 ((hf _).1 h).1, (hi.aboveFree a ha').2⟩

/-- **Linking**: a block becomes the head of its list.  It must be large enough, and there must be
no free block next to it. -/
theorem link (hm : m ∈ B) (hla : T.freeHeader ≤ v m .sz)
    (hbe : ∀ a, Free fl a → v a .next ≠ m) (hab : ¬ Free fl (v m .next))
    (hls : ls ≠ 0 → v m .next ≠ ls) (hl : FreeLists T v' hd' (update fl b (m :: fl b)))
    (hc : ∀ a ∈ blocks B fl, v' a .prev = v a .prev ∧ v' a .next = v a .next ∧ v' a .sz = v a .sz) :
    Inv T v' hd' R (B \ {m}) (update fl b (m :: fl b)) ls := by
  have hmB : m ∈ blocks B fl := .inl hm
  have hf : ∀ a, Free (update fl b (m :: fl b)) a ↔ a = m ∨ Free fl a :=
    fun a => FreeLists.free_push
  have hb : blocks (B \ {m}) (update fl b (m :: fl b)) = blocks B fl := by
    ext a
    simp only [blocks, mem_sdiff, hf]
    constructor
    · rintro (h | rfl | h)
      exacts [.inl h.1, .inl hm, .inr h]
    · rintro (h | h)
      · by_cases ham : a = m
        · exact .inr (.inl ham)
        · exact .inl ⟨h, ham⟩
      · exact .inr (.inr h)
  have hsz : ∀ a, a = m ∨ Free fl a → v' a .next = v a .next ∧ v' a .sz = v a .sz := by
    rintro a (rfl | ha)
    · exact (hc a hmB).2
    · exact (hc a (.inr ha)).2
  refine ⟨by rw [hb]; exact hi.tiled.congr hc, hl, by rw [hb]; exact hi.aligned,
    hi.bounded, hi.outside, ?_, ?_, ?_⟩
  · intro a ha
    rw [(hsz a ((hf a).1 ha)).2]
    rcases (hf a).1 ha with rfl | h
    · exact hla
    · exact hi.large a h
  · rintro a ⟨ha, ham⟩ h
    rcases (hf a).1 h with h | h
    · exact ham h
    · exact hi.inUse a ha h
  intro a ha
  rw [(hsz a ((hf a).1 ha)).1, hf]
  rcases (hf a).1 ha with rfl | h
  · refine ⟨?_, hls⟩
    rintro (h | h)
    · -- a block is not its own successor
      have hne : v a .next ≠ 0 := by rw [h]; exact hi.ne_zero hmB
      have h1 := (hi.tiled.next_spec hmB hne).1
      have h2 := hi.dataOffset_le hmB
      have h3 := T.dataOffset_pos
      omega
    · exact hab h
  · refine ⟨?_, (hi.aboveFree a h).2⟩
    rintro (h' | h')
    · exact hbe a h h'
    · exact (hi.aboveFree a h).1 h'

/-! ### Edits of the block chains -/

theorem of_tiled
    (ht : Tiled T.dataOffset (fun a => v' a .prev) (fun a => v' a .next) (fun a => v' a .sz) R'
      (blocks B' fl))
    (hal : ∀ a ∈ B', align ∣ a)
    (hR : ∀ r ∈ R', r.2 ≤ 256 ^ T.ptr ∧ r.2 - r.1 < 2 ^ 32 ∧ r.2 - r.1 < 2 ^ (T.nflists - 1))
    (hout : ∀ r ∈ R', r.2 ≤ T.none ∨ T.none < r.1) (hB : ∀ a ∈ B', ¬ Free fl a)
    (hF : ∀ a, Free fl a → ∀ f, f ≠ .prev → v' a f = v a f) : Inv T v' hd R' B' fl ls := by
  refine ⟨ht, hi.lists.congr (fun _ _ => rfl) fun a ha => ?_, ?_, hR, hout, ?_, hB, ?_⟩
  · exact ⟨hF a ha _ nofun, hF a ha _ nofun, hF a ha _ nofun⟩
  · rintro a (ha | ha)
    · exact hal a ha
    · exact hi.aligned a (.inr ha)
  · intro a ha
    rw [hF a ha _ (by simp)]
    exact hi.large a ha
  · intro a ha
    rw [hF a ha _ (by simp)]
    exact hi.aboveFree a ha

/-- **Joining**: a block takes over the block above it. -/
theorem join (hm : m ∈ B) (hn : v m .next ≠ 0) (hnB : v m .next ∈ B)
    (hsm : v' m .sz = v m .sz + v (v m .next) .sz) (hnm : v' m .next = v (v m .next) .next)
    (hpn : v (v m .next) .next ≠ 0 → v' (v (v m .next) .next) .prev = m)
    (hs : ∀ a ∈ blocks B fl, a ≠ m → a ≠ v m .next → v' a .sz = v a .sz ∧ v' a .next = v a .next)
    (hp : ∀ a ∈ blocks B fl, a ≠ v m .next → a ≠ v (v m .next) .next → v' a .prev = v a .prev)
    (hF : ∀ a, Free fl a → v' a .nextfree = v a .nextfree ∧ v' a .prevfree = v a .prevfree) :
    Inv T v' hd R (B \ {v m .next}) fl ls := by
  have hnf := hi.inUse _ hnB
  have hmf := hi.inUse _ hm
  have hb : blocks (B \ {v m .next}) fl = blocks B fl \ {v m .next} := by
    ext a
    constructor
    · rintro (h | h)
      · exact ⟨.inl h.1, h.2⟩
      · exact ⟨.inr h, fun heq => hnf (heq ▸ h)⟩
    · rintro ⟨h | h, hne⟩
      · exact .inl ⟨h, hne⟩
      · exact .inr h
  refine hi.of_tiled ?_ (fun a ha => hi.aligned a (.inl ha.1)) hi.bounded hi.outside
    (fun a ha => hi.inUse a ha.1) fun a ha f hf => ?_
  · rw [hb]
    exact hi.tiled.join (.inl hm) hn hsm hnm hpn hs hp
  have h1 := hs a (.inr ha) (fun h => hmf (h ▸ ha)) fun h => hnf (h ▸ ha)
  have h2 := hF a ha
  cases f with
  | prev => exact absurd rfl hf
  | next => exact h1.2
  | sz => exact h1.1
  | nextfree => exact h2.1
  | prevfree => exact h2.2

theorem not_mem_inside (hm : m ∈ blocks B fl) (h0 : 0 < s)
    (hs : s < v m .sz) : m + s ∉ blocks B fl := by
  intro h
  have h1 := hi.dataOffset_le h
  have h2 := T.dataOffset_pos
  have := hi.tiled.eq_of_overlap hm h (x := m + s) (by omega) (by omega) le_rfl (by omega)
  omega

/-- **Cutting**: the upper part of a block becomes a block of its own. -/
theorem cut (hm : m ∈ B) (hks : T.dataOffset ≤ s)
    (hsi : s + T.dataOffset ≤ v m .sz) (hal : align ∣ s) (hsm : v' m .sz = s)
    (hnm : v' m .next = m + s) (hs1 : v' (m + s) .sz = v m .sz - s)
    (hn1 : v' (m + s) .next = v m .next) (hp1 : v' (m + s) .prev = m)
    (hpn : v m .next ≠ 0 → v' (v m .next) .prev = m + s)
    (hs : ∀ a ∈ blocks B fl, a ≠ m → v' a .sz = v a .sz ∧ v' a .next = v a .next)
    (hp : ∀ a ∈ blocks B fl, a ≠ v m .next → v' a .prev = v a .prev)
    (hF : ∀ a, Free fl a → v' a .nextfree = v a .nextfree ∧ v' a .prevfree = v a .prevfree) :
    Inv T v' hd R (insert (m + s) B) fl ls := by
  have hmf := hi.inUse _ hm
  have hk := T.dataOffset_pos
  have hnew := hi.not_mem_inside (s := s) (.inl hm) (by omega) (by omega)
  refine hi.of_tiled ?_ ?_ hi.bounded hi.outside ?_ fun a ha f hf => ?_
  · have hb : blocks (insert (m + s) B) fl = insert (m + s) (blocks B fl) := by
      ext a
      simp only [blocks, mem_ofPred_eq, mem_insert_iff, or_assoc]
    rw [hb]
    exact hi.tiled.cut (.inl hm) hks hsi hsm hnm hs1 hn1 hp1 hpn hs hp
  · rintro a (rfl | ha)
    · exact Dvd.dvd.add (hi.aligned m (.inl hm)) hal
    · exact hi.aligned a (.inl ha)
  · rintro a (rfl | ha) h
    · exact hnew (.inr h)
    · exact hi.inUse a ha h
  · have h1 := hs a (.inr ha) fun h => hmf (h ▸ ha)
    have h2 := hF a ha
    cases f with
    | prev => exact absurd rfl hf
    | next => exact h1.2
    | sz => exact h1.1
    | nextfree => exact h2.1
    | prevfree => exact h2.2

/-- **A new region** consists of a single block. -/
theorem addRegion (hlo : 0 < lo) (hal : align ∣ lo)
    (hk : lo + T.dataOffset ≤ up) (hR : ∀ r ∈ R, up ≤ r.1 ∨ r.2 ≤ lo)
    (hbo : up ≤ 256 ^ T.ptr ∧ up - lo < 2 ^ 32 ∧ up - lo < 2 ^ (T.nflists - 1))
    (hout : up ≤ T.none ∨ T.none < lo) (hs : v' lo .sz = up - lo) (hn : v' lo .next = 0)
    (hp : v' lo .prev = 0) (hS : ∀ a ∈ blocks B fl, ∀ f, (f = .prevfree → Free fl a) →
      v' a f = v a f) :
    Inv T v' hd (insert (lo, up) R) (insert lo B) fl ls := by
  have ho' : ∀ a ∈ blocks B fl, a ≠ lo := by
    rintro a ha rfl
    have h0 := T.dataOffset_pos
    obtain ⟨r, hr, h1, h2, -⟩ := hi.region ha
    rcases hR r hr with h3 | h3 <;> omega
  refine hi.of_tiled ?_ ?_ ?_ ?_ ?_ fun a ha f _ => hS a (.inr ha) f fun _ => ha
  · have hb : blocks (insert lo B) fl = insert lo (blocks B fl) := by
      ext a
      simp only [blocks, mem_ofPred_eq, mem_insert_iff, or_assoc]
    rw [hb]
    exact hi.tiled.addRegion hlo hk hR hs hn hp fun a ha =>
      ⟨hS a ha _ nofun, hS a ha _ nofun, hS a ha _ nofun⟩
  · rintro a (rfl | ha)
    · exact hal
    · exact hi.aligned a (.inl ha)
  · rintro r (rfl | hr)
    · exact hbo
    · exact hi.bounded r hr
  · rintro r (rfl | hr)
    · exact hout
    · exact hi.outside r hr
  · rintro a (rfl | ha) h
    · exact ho' a (.inr h) rfl
    · exact hi.inUse a ha h

/-- **A grown region**: its last block gets the new bytes. -/
theorem extend {r0 : ℕ × ℕ} (hr0 : r0 ∈ R) (hm : m ∈ B)
    (h1 : r0.1 ≤ m) (h2 : m < r0.2) (hn : v m .next = 0)
    (hR : ∀ r ∈ R, r ≠ r0 → r0.2 + x ≤ r.1 ∨ r.2 ≤ r0.1)
    (hb : r0.2 + x ≤ 256 ^ T.ptr ∧ r0.2 + x - r0.1 < 2 ^ 32 ∧ r0.2 + x - r0.1 < 2 ^ (T.nflists - 1))
    (hout : r0.2 + x ≤ T.none ∨ T.none < r0.1) (hsm : v' m .sz = v m .sz + x)
    (hS : ∀ a ∈ blocks B fl, ∀ f, (f = .prevfree → Free fl a) → (f = .sz → a ≠ m) →
      v' a f = v a f) :
    Inv T v' hd (insert (r0.1, r0.2 + x) (R \ {r0})) B fl ls := by
  have hmf := hi.inUse _ hm
  refine hi.of_tiled ?_ (fun a ha => hi.aligned a (.inl ha)) ?_ ?_ hi.inUse fun a ha f _ => ?_
  · exact hi.tiled.extend hr0 (.inl hm) h1 h2 hn hR hsm
      (fun a ha hne => hS a ha _ nofun fun _ => hne)
      fun a ha => ⟨hS a ha _ nofun nofun, hS a ha _ nofun nofun⟩
  · rintro r (rfl | hr)
    · exact hb
    · exact hi.bounded r hr.1
  · rintro r (rfl | hr)
    · exact hout
    · exact hi.outside r hr.1
  · exact hS a (.inr ha) f (fun _ => ha) fun _ h => hmf (h ▸ ha)

end

end Inv

end Nmalloc
