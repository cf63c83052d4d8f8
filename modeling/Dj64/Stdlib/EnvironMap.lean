import Dj64.Stdlib.Environ

/-!
# The environment as a map

* `nameOf`, `IsEntry`, `Entries`: well-formed entries with distinct names;
* `without`: the entries of the other variables;
* `getenv_perm`, `getenv_cons`, `getenv_without`: what `getenv` finds after a change.
-/

namespace Environ

open Exec List Function

def nameOf (e : Bytes) : Bytes := e.takeWhile (· != 61)

def IsName (name : Bytes) : Prop := name ≠ [] ∧ 61 ∉ name

def IsEntry (e : Bytes) : Prop := ∃ name value, IsName name ∧ e = name ++ 61 :: value

variable {name value n v e e1 e2 : Bytes} {es es' : List Bytes}

theorem nameOf_entry (hn : 61 ∉ name) (value : Bytes) : nameOf (name ++ 61 :: value) = name := by
  unfold nameOf
  rw [takeWhile_append_of_pos]
  · simp
  · intro c hc
    rw [bne_iff_ne]
    rintro rfl
    exact hn hc

theorem IsEntry.eq (h : IsEntry e) : ∃ value, IsName (nameOf e) ∧ e = nameOf e ++ 61 :: value := by
  obtain ⟨name, value, hn, rfl⟩ := h
  rw [nameOf_entry hn.2]
  exact ⟨value, hn, rfl⟩

/-- Well-formed entries with distinct names. -/
structure Entries (es : List Bytes) : Prop where
  isEntry : ∀ e ∈ es, IsEntry e
  nodup : (es.map nameOf).Nodup

theorem entries_nil : Entries [] := ⟨fun _ h => absurd h not_mem_nil, nodup_nil⟩

theorem Entries.perm (h : Entries es) (hp : es.Perm es') : Entries es' :=
  ⟨fun e he => h.isEntry e (hp.mem_iff.mpr he), (hp.map nameOf).nodup_iff.mp h.nodup⟩

theorem Entries.eq_of_nameOf (h : Entries es) (h1 : e1 ∈ es) (h2 : e2 ∈ es)
    (heq : nameOf e1 = nameOf e2) : e1 = e2 := inj_on_of_nodup_map h.nodup h1 h2 heq

/-! ### Lookup -/

theorem not_mem_of_valueOf (h : valueOf e n = some v) : 61 ∉ n := by
  induction n generalizing e with
  | nil => exact not_mem_nil
  | cons c n ih =>
    cases e with
    | nil => cases h
    | cons d e =>
      rw [valueOf] at h
      split_ifs at h with hc
      rw [mem_cons, not_or]
      exact ⟨hc.2.symm, ih h⟩

theorem mem_of_getenv (h : getenv es n = some v) : 61 ∉ n ∧ n ++ 61 :: v ∈ es := by
  obtain ⟨e, he, hv⟩ := exists_of_findSome?_eq_some h
  have hn := not_mem_of_valueOf hv
  rw [valueOf_eq_some_iff hn] at hv
  exact ⟨hn, hv ▸ he⟩

theorem Entries.getenv_eq_some_iff (h : Entries es) :
    getenv es n = some v ↔ 61 ∉ n ∧ n ++ 61 :: v ∈ es := by
  refine ⟨mem_of_getenv, ?_⟩
  rintro ⟨hn, hmem⟩
  cases hget : getenv es n with
  | none =>
    have hno := findSome?_eq_none_iff.mp hget _ hmem
    rw [(valueOf_eq_some_iff hn).mpr rfl] at hno
    cases hno
  | some v' =>
    have hm' := (mem_of_getenv hget).2
    have heq := h.eq_of_nameOf hm' hmem (by rw [nameOf_entry hn, nameOf_entry hn])
    rw [append_cancel_left_eq, cons.injEq] at heq
    rw [heq.2]

theorem Entries.getenv_perm (h : Entries es) (hp : es.Perm es') : getenv es = getenv es' := by
  ext v
  rw [h.getenv_eq_some_iff, (h.perm hp).getenv_eq_some_iff, hp.mem_iff]

def without (name : Bytes) (es : List Bytes) : List Bytes := es.filter fun e => nameOf e != name

theorem mem_without : e ∈ without name es ↔ e ∈ es ∧ nameOf e ≠ name := by
  rw [without, mem_filter, bne_iff_ne]

section

variable (h : Entries es)
include h

theorem entries_without : Entries (without name es) :=
  ⟨fun e he => h.isEntry e (mem_without.mp he).1, h.nodup.sublist ((filter_sublist).map nameOf)⟩

theorem Entries.cons (hn : IsName name) (value : Bytes) :
    Entries ((name ++ 61 :: value) :: without name es) where
  isEntry := by
    intro e he
    rcases mem_cons.mp he with rfl | he
    · exact ⟨name, value, hn, rfl⟩
    · exact (entries_without h).isEntry e he
  nodup := by
    rw [map_cons, nodup_cons, nameOf_entry hn.2]
    refine ⟨?_, (entries_without h).nodup⟩
    rw [mem_map]
    rintro ⟨e, he, heq⟩
    exact (mem_without.mp he).2 heq

/-- A variable has been set. -/
theorem Entries.getenv_cons (hna : IsName name) (value : Bytes) :
    getenv ((name ++ 61 :: value) :: without name es) =
      update (getenv es) name (some value) := by
  funext n
  ext v
  rw [(h.cons hna value).getenv_eq_some_iff, mem_cons, mem_without]
  by_cases hn : n = name
  · subst hn
    rw [update_self, nameOf_entry hna.2, Option.some.injEq]
    constructor
    · rintro ⟨-, heq | ⟨-, hne⟩⟩
      · rw [append_cancel_left_eq, cons.injEq] at heq
        exact heq.2.symm
      · exact absurd rfl hne
    · rintro rfl
      exact ⟨hna.2, .inl rfl⟩
  · rw [update_of_ne hn, h.getenv_eq_some_iff]
    refine and_congr_right fun hn' => ?_
    rw [nameOf_entry hn', or_iff_right, and_iff_left hn]
    intro heq
    apply hn
    rw [← nameOf_entry hn' v, heq, nameOf_entry hna.2]

theorem Entries.getenv_without (name : Bytes) :
    getenv (without name es) = update (getenv es) name none := by
  funext n
  ext v
  rw [(entries_without h).getenv_eq_some_iff, mem_without]
  by_cases hn : n = name
  · subst hn
    rw [update_self]
    refine iff_of_false ?_ nofun
    rintro ⟨hn, -, hne⟩
    exact hne (nameOf_entry hn v)
  · rw [update_of_ne hn, h.getenv_eq_some_iff]
    refine and_congr_right fun hn' => ?_
    rw [nameOf_entry hn', and_iff_left hn]

end

/-! ### The array -/

variable {rest : List (Option Bytes)}

theorem scan_eq (p : Bytes → Bool) (i : ℕ) :
    scan p i (es.map some ++ none :: rest) = .ok (i + es.findIdx p, es.find? p) := by
  induction es generalizing i with
  | nil => rfl
  | cons e es ih =>
    rw [map_cons, cons_append, scan, findIdx_cons, find?_cons]
    cases p e with
    | true => rfl
    | false =>
      rw [if_neg Bool.false_ne_true, ih, cond_false, Nat.add_right_comm, Nat.add_assoc]

theorem bind_find_isSome {α β : Type} {f : α → Option β} {l : List α} :
    (l.find? fun a => (f a).isSome).bind f = l.findSome? f := by
  induction l with
  | nil => rfl
  | cons a l ih =>
    rw [find?_cons, findSome?_cons]
    cases h : f a with
    | none => exact ih
    | some b => exact h

theorem getenv_slots {s : Env} (hs : s.slots = es.map some ++ none :: rest) (n : Bytes) :
    s.getenv n = .ok (getenv es n) := by
  rw [Env.getenv, hs, scan_eq]
  exact congrArg Except.ok bind_find_isSome

end Environ
