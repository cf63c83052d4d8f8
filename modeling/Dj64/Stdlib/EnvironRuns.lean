import Mathlib.Data.List.TakeWhile
import Dj64.Lib.Runs
import Dj64.Stdlib.EnvironMap

/-!
# Runs of calls that change the environment

* `Valid`: well-formed entries in the array, and the counters;
* `Env.Started`: the environment that `crt1` sets up;
* `Op`, `step`: the calls, and `Op.apply`: what they mean for a map from names to values;
* `environ_map`: the environment is that map after every run of calls.
-/

namespace Environ

open Exec List Nat Function Env

variable {s s' : Env} {es : List Bytes} {name value e e' : Bytes}

/-! ### The entry for a name -/

theorem nameOf_eq_iff (he : IsEntry e) (hn : IsName name) :
    nameOf e = name ↔ ∃ value, e = name ++ 61 :: value := by
  constructor
  · rintro rfl
    obtain ⟨value, -, heq⟩ := he.eq
    exact ⟨value, heq⟩
  · rintro ⟨value, rfl⟩
    exact nameOf_entry hn.2 value

theorem isEntry_set (he : IsEntry e) (hn : IsName name) (value : Bytes) :
    isEntry (name ++ 61 :: value) (name.length + 1) e = (nameOf e == name) := by
  have hc : (name ++ 61 :: value).contains 61 := by simp
  have ht : ∀ w : Bytes, (name ++ 61 :: w).take (name.length + 1) = name ++ [61] := fun w => by
    rw [take_length_add_append]
    rfl
  rw [Bool.eq_iff_iff, beq_iff_eq, nameOf_eq_iff he hn, isEntry, hc, Bool.true_or,
    Bool.and_true, beq_iff_eq, ht value]
  constructor
  · intro heq
    obtain ⟨rest, hr⟩ := take_prefix (name.length + 1) e
    rw [heq, append_assoc] at hr
    exact ⟨rest, hr.symm⟩
  · rintro ⟨w, rfl⟩
    exact ht w

theorem isEntry_unset (he : IsEntry e) (hn : IsName name) :
    isEntry name name.length e = (nameOf e == name) := by
  have hc : name.contains 61 = false := by simpa using hn.2
  rw [Bool.eq_iff_iff, beq_iff_eq, nameOf_eq_iff he hn, isEntry, hc, Bool.false_or,
    Bool.and_eq_true, beq_iff_eq, beq_iff_eq, take_length]
  constructor
  · rintro ⟨ht, hget⟩
    obtain ⟨hlt, heq⟩ := List.getElem?_eq_some_iff.mp hget
    refine ⟨e.drop (name.length + 1), ?_⟩
    calc
      e = e.take name.length ++ e.drop name.length := (take_append_drop _ _).symm
      _ = name ++ 61 :: e.drop (name.length + 1) := by
        rw [ht, drop_eq_getElem_cons hlt, heq]
  · rintro ⟨w, rfl⟩
    simp

variable {es1 es2 es' : List Bytes} {rest : List (Option Bytes)} {mem : Malloc}

theorem Entries.without_append (h : Entries (es1 ++ e :: es2)) :
    without (nameOf e) (es1 ++ e :: es2) = es1 ++ es2 := by
  have hnd := h.nodup
  rw [map_append, map_cons, nodup_append, nodup_cons] at hnd
  obtain ⟨-, ⟨hes2, -⟩, hes1⟩ := hnd
  rw [without, filter_append, filter_cons, bne_self_eq_false]
  congr 1
  · refine filter_eq_self.mpr fun e' he' => bne_iff_ne.mpr ?_
    exact hes1 _ (mem_map_of_mem he') _ (.head _)
  · refine filter_eq_self.mpr fun e' he' => bne_iff_ne.mpr fun heq => hes2 ?_
    rw [← heq]
    exact mem_map_of_mem he'

theorem without_eq_self (h : ∀ e ∈ es, nameOf e ≠ name) : without name es = es :=
  filter_eq_self.mpr fun e he => bne_iff_ne.mpr (h e he)

/-! ### The counters -/

/-- The counters of `putenv` are those of the array. -/
def Env.Counted (s : Env) : Prop := s.putenvBssCount = s.bssCount ∧ s.prevEnviron = some s.environ

/-- The entries in the array, which ends with `NULL` inside its `emax + 1` slots, and the counters.
-/
structure Valid (s : Env) (es : List Bytes) : Prop where
  entries : Entries es
  slots : ∃ rest, s.slots = es.map some ++ none :: rest
  counted : s.Counted
  ecount : s.ecount = es.length
  size : s.slots.length = s.emax + 1

theorem recount_counted (hc : s.Counted) : s.recount = .ok s := by
  rw [recount, if_neg]
  · rfl
  · rw [not_or, not_not, not_not]
    exact hc

theorem scan_end (hs : s.slots = es.map some ++ none :: rest) :
    scan (fun _ => false) 0 s.slots = .ok (es.length, none) := by
  rw [hs, scan_eq, findIdx_eq_length_of_false (fun _ _ => rfl), find?_eq_none.mpr]
  · rw [zero_add]
  · exact fun _ _ => Bool.false_ne_true

/-- The counters are computed when a program is started. -/
theorem recount_started (hs : s.slots = es.map some ++ [none])
    (hbss : s.putenvBssCount ≠ s.bssCount) : s.recount = .ok { s with
      ecount := es.length
      emax := es.length
      environChanged := s.environChanged + 1
      putenvBssCount := s.bssCount
      prevEnviron := some s.environ } := by
  rw [Env.recount, if_pos (.inl hbss), scan_end hs]
  show (if s.putenvBssCount ≠ s.bssCount then _ else _) = _
  rw [if_pos hbss]
  rfl

/-- The environment as `crt1` sets it up: the array has a slot for each entry and one for `NULL`,
and `putenv("")` has computed the counters. -/
def Env.Started (s : Env) (es : List Bytes) : Prop :=
  ∃ (s₀ : Env) (mem : Malloc), s₀.slots = es.map some ++ [none] ∧
    s₀.putenvBssCount ≠ s₀.bssCount ∧ s₀.putenv mem [] = .ok (s, 0)

theorem Env.Started.valid (h : s.Started es) (hes : Entries es) : Valid s es := by
  obtain ⟨s₀, mem, hs, hbss, hp⟩ := h
  -- no entry starts with an equals sign
  have hno : ∀ e ∈ es, isEntry [] 0 e ≠ true := by
    intro e he
    obtain ⟨name, value, ⟨hne, hn⟩, rfl⟩ := hes.isEntry e he
    obtain ⟨c, name, rfl⟩ := exists_cons_of_ne_nil hne
    have hc : c ≠ 61 := fun hc => hn (hc ▸ mem_cons_self)
    simp [isEntry, hc]
  rw [Env.putenv, recount_started hs hbss] at hp
  change scan (isEntry [] 0) 0 s₀.slots >>= _ = _ at hp
  rw [hs, scan_eq, find?_eq_none.mpr hno] at hp
  obtain rfl := congrArg Prod.fst (Except.ok.inj hp)
  exact ⟨hes, ⟨[], rfl⟩, ⟨rfl, rfl⟩, rfl, by simp⟩

/-! ### Changes of the array -/

section

variable {rest slots : List (Option Bytes)} {i : ℕ} {mem : Malloc}

theorem store_eq (h : i < slots.length) (x : Option Bytes) :
    store slots i x = .ok (slots.set i x) := if_pos h

theorem set_entries (es : List Bytes) (x y : Option Bytes) :
    (es.map some ++ x :: rest).set es.length y = es.map some ++ y :: rest := by
  rw [set_append_right (h := by rw [length_map]), length_map, Nat.sub_self]
  rfl

theorem set_middle (es1 es2 : List Bytes) (e e' : Bytes) :
    ((es1 ++ e :: es2).map some ++ none :: rest).set es1.length (some e') =
      (es1 ++ e' :: es2).map some ++ none :: rest := by
  rw [map_append, map_cons, append_assoc, cons_append, set_entries, map_append, map_cons,
    append_assoc, cons_append]

theorem set_entry (hi : i ≤ es.length) (e : Bytes) (x : Option Bytes) :
    ((es.map some ++ x :: rest).set i (some e)).set es.length none =
      (es.set i e).map some ++ none :: rest := by
  rcases lt_or_eq_of_le hi with hlt | rfl
  · rw [set_append_left (h := by rwa [length_map]), ← map_set,
      ← length_set (i := i) (a := e), set_entries]
  · rw [set_set, set_entries, set_eq_of_length_le le_rfl]

theorem set_last_perm {α : Type} {l : List α} (hi : i ≤ l.length) (last : α) :
    (l.set i last).Perm ((l ++ [last]).eraseIdx i) := by
  rcases lt_or_eq_of_le hi with hlt | rfl
  · rw [set_eq_take_append_cons_drop, if_pos hlt, eraseIdx_eq_take_drop_succ,
      take_append_of_le_length hi, drop_append_of_le_length hlt]
    exact (perm_append_singleton _ _).symm.append_left _
  · rw [set_eq_of_length_le le_rfl, eraseIdx_append_of_length_le le_rfl, Nat.sub_self,
      eraseIdx_cons_zero, append_nil]

theorem Valid.congr (h : Valid s es)
    (hes' : Entries es') (hs : ∃ rest, s'.slots = es'.map some ++ none :: rest)
    (he : s'.ecount = es'.length) (hlen : s'.slots.length = s.slots.length)
    (hem : s'.emax = s.emax) (hc' : s'.Counted) : Valid s' es' :=
  ⟨hes', hs, hc', he, by rw [hlen, hem, h.size]⟩

/-- The entries in the array, and the counter for them. -/
structure Listed (s : Env) (es : List Bytes) : Prop where
  slots : ∃ rest, s.slots = es.map some ++ none :: rest
  ecount : s.ecount = es.length
  le_emax : s.ecount ≤ s.emax

theorem Listed.lt_length (h : Listed s es) : es.length < s.slots.length := by
  obtain ⟨rest, hs⟩ := h.slots
  simp [hs]

theorem Valid.listed (h : Valid s es) : Listed s es := by
  have he := h.ecount
  have hlen := h.size
  obtain ⟨rest, hs⟩ := h.slots
  refine ⟨h.slots, he, ?_⟩
  have := congrArg length hs
  simp only [length_append, length_map, length_cons] at this
  omega

/-- The last of the entries takes the place of one that is deleted. -/
theorem Listed.delete (h : Listed s (es1 ++ e :: es2)) :
    ∃ (slots : List (Option Bytes)) (es' : List Bytes), s.delete es1.length = .ok { s with
        slots := slots
        ecount := es'.length
        environChanged := s.environChanged + 1 } ∧
      slots.length = s.slots.length ∧ es'.Perm (es1 ++ es2) ∧
      ∃ rest, slots = es'.map some ++ none :: rest := by
  have he := h.ecount
  obtain ⟨rest, hs⟩ := h.slots
  obtain ⟨pre, last, hpre⟩ : ∃ pre last, es1 ++ e :: es2 = pre ++ [last] :=
    ⟨_, _, (dropLast_append_getLast (append_ne_nil_of_right_ne_nil _ (cons_ne_nil _ _))).symm⟩
  have hi : es1.length ≤ pre.length := by
    have hlen := congrArg length hpre
    simp only [length_append, length_cons, length_nil] at hlen
    omega
  have hp : (pre.set es1.length last).Perm (es1 ++ es2) := by
    have hset := set_last_perm hi last
    rwa [← hpre, eraseIdx_append_of_length_le le_rfl, Nat.sub_self] at hset
  rw [hpre, length_append, length_singleton] at he
  rw [hpre, map_append, append_assoc] at hs
  have hl : load s.slots pre.length = .ok (some last) := by
    rw [load, hs, getElem?_append_right (by rw [length_map]), length_map, Nat.sub_self]
    rfl
  have hlen : s.slots.length = pre.length + (rest.length + 2) := by
    rw [hs, length_append, length_map]
    rfl
  refine ⟨(s.slots.set es1.length (some last)).set pre.length none, pre.set es1.length last,
    ?_, ?_, hp, none :: rest, ?_⟩
  · rw [Env.delete, he, Nat.add_sub_cancel, hl]
    show store s.slots es1.length (some last) >>= _ = _
    rw [store_eq (by omega)]
    show store (s.slots.set es1.length (some last)) pre.length none >>= _ = _
    rw [store_eq (by rw [length_set]; omega), length_set]
    rfl
  · rw [length_set, length_set]
  · rw [hs]
    exact set_entry hi last (some last)

theorem Valid.delete (h : Valid s (es1 ++ e :: es2)) :
    ∃ s' es', s.delete es1.length = .ok s' ∧ es'.Perm (es1 ++ es2) ∧ Valid s' es' ∧
      s'.environChanged = s.environChanged + 1 := by
  obtain ⟨slots, es', hd, hlen, hp, hs⟩ := h.listed.delete
  have he := h.entries
  have hes' : Entries (es1 ++ es2) := ⟨fun e' he' => he.isEntry e' (mem_append.mpr
      ((mem_append.mp he').imp_right (mem_cons_of_mem e))),
      he.nodup.sublist (((sublist_cons_self e es2).append_left es1).map nameOf)⟩
  exact ⟨_, es', hd, hp, h.congr (hes'.perm hp.symm) hs rfl hlen rfl h.counted, rfl⟩

/-- The value of a variable is replaced. -/
theorem Valid.replace (h : Valid s (es1 ++ e :: es2)) (he' : IsEntry e')
    (hn : nameOf e' = nameOf e) :
    ∃ slots, store s.slots es1.length (some e') = .ok slots ∧
      Valid { s with slots := slots, environChanged := s.environChanged + 1 }
      (es1 ++ e' :: es2) := by
  have he := h.ecount
  obtain ⟨rest, hs⟩ := h.slots
  have hlt : es1.length < s.slots.length := by
    rw [hs]
    simp only [length_append, length_map, length_cons]
    omega
  refine ⟨_, store_eq hlt _, h.congr ?_ ?_ ?_ ?_ rfl h.counted⟩
  · refine ⟨fun x hx => ?_, ?_⟩
    · rcases mem_append.mp hx with hx | hx
      · exact h.entries.isEntry x (mem_append_left _ hx)
      · rcases mem_cons.mp hx with rfl | hx
        · exact he'
        · exact h.entries.isEntry x (mem_append_right _ (.tail _ hx))
    · have hnd := h.entries.nodup
      rw [map_append, map_cons] at hnd ⊢
      rwa [hn]
  · exact ⟨rest, by rw [hs, set_middle]⟩
  · rw [he, length_append, length_append, length_cons, length_cons]
  · rw [length_set]

/-- There is room for an entry and for `NULL` behind it, in a larger array. -/
theorem Listed.grow (h : Listed s es) (hf : s.emax ≤ s.ecount) (mem : Malloc) :
    ∃ x y rest, s.makeRoom mem = .ok { s with
        emax := s.emax + 10
        slots := es.map some ++ x :: y :: rest
        environ := s.environ + 1
        prevEnviron := some (s.environ + 1) } ∧
      (es.map some ++ x :: y :: rest).length = s.emax + 10 + 1 := by
  have he := h.ecount
  have hem := h.le_emax
  have hlt := h.lt_length
  obtain ⟨rest, hs⟩ := h.slots
  obtain ⟨x, y, garbage, hg⟩ : ∃ x y garbage,
      (range (s.emax + 10 + 1 - s.ecount)).map mem.garbage = x :: y :: garbage := by
    have hn : s.emax + 10 + 1 - s.ecount = 9 + 2 := by omega
    rw [hn, range_succ_eq_map, range_succ_eq_map, map_cons]
    exact ⟨_, _, _, rfl⟩
  refine ⟨x, y, garbage, ?_, ?_⟩
  · rw [Env.makeRoom, if_pos hf, Env.grow, if_neg (by omega), hg, hs, he, take_left' (length_map _)]
    rfl
  · rw [← hg, length_append, length_map, length_map, length_range]
    omega

theorem Valid.room (h : Valid s es) (mem : Malloc) :
    ∃ t x y rest, s.makeRoom mem = .ok t ∧
      t.slots = es.map some ++ x :: y :: rest ∧ t.ecount = es.length ∧ t.slots.length = t.emax + 1 ∧
      t.Counted ∧ t.environChanged = s.environChanged := by
  have he := h.ecount
  have hlen := h.size
  by_cases hf : s.emax ≤ s.ecount
  · obtain ⟨x, y, rest, hg, hl'⟩ := h.listed.grow hf mem
    exact ⟨_, x, y, rest, hg, rfl, he, hl', ⟨h.counted.1, rfl⟩, rfl⟩
  obtain ⟨rest, hs⟩ := h.slots
  rw [makeRoom, if_neg hf]
  cases rest with
  | nil =>
    rw [hs, length_append, length_map, length_singleton] at hlen
    omega
  | cons y rest => exact ⟨s, none, y, rest, rfl, hs, he, hlen, h.counted, rfl⟩

/-- A new entry behind the others. -/
theorem Valid.create (h : Valid s es) (hta : mem.table)
    (hen : mem.entry) (hes' : Entries (es ++ [e'])) :
    ∃ s', s.create mem e' = .ok (s', 0) ∧ Valid s' (es ++ [e']) ∧
      s'.environChanged = s.environChanged + 1 := by
  obtain ⟨t, x, y, rest, ht, hs, he, hlen, hct, hch⟩ := h.room mem
  have hl' : t.slots.length = es.length + (rest.length + 2) := by
    rw [hs, length_append, length_map]
    rfl
  have hs' : (t.slots.set es.length (some e')).set (es.length + 1) none =
      (es ++ [e']).map some ++ none :: rest := by
    rw [hs]
    simp
  have hcr : s.create mem e' = .ok ({ t with
      slots := (t.slots.set es.length (some e')).set (es.length + 1) none
      ecount := es.length + 1
      environChanged := t.environChanged + 1 }, 0) := by
    rw [Env.create, if_neg (by simp [hta]), ht]
    show (if (!mem.entry) then _ else _) = _
    rw [hen, if_neg (by decide)]
    rw [he, store_eq (by omega)]
    show store (t.slots.set es.length (some e')) (es.length + 1) none >>= _ = _
    rw [store_eq (by rw [length_set]; omega)]
    rfl
  refine ⟨_, hcr, ⟨hes', ⟨rest, hs'⟩, hct, ?_, ?_⟩, ?_⟩
  · rw [length_append, length_singleton]
  · rw [length_set, length_set, hlen]
  · rw [hch]

end

/-! ### putenv -/

theorem search_slots (hs : s.slots = es.map some ++ none :: rest) (p : Bytes → Bool) :
    (∃ i, scan p 0 s.slots = .ok (i, none) ∧ ∀ e ∈ es, p e ≠ true) ∨
      ∃ es1 e es2, es = es1 ++ e :: es2 ∧ p e ∧ scan p 0 s.slots = .ok
        (es1.length, some e) := by
  rw [hs, scan_eq, zero_add]
  cases hf : es.find? p with
  | none => exact .inl ⟨_, rfl, find?_eq_none.mp hf⟩
  | some e =>
    obtain ⟨hpe, es1, es2, rfl, hes1⟩ := find?_eq_some_iff_append.mp hf
    have hlen : es1.findIdx p = es1.length :=
      findIdx_eq_length_of_false fun x hx => by simpa using hes1 x hx
    refine .inr ⟨es1, e, es2, rfl, hpe, ?_⟩
    rw [findIdx_append, hlen, if_neg (lt_irrefl _), findIdx_cons, hpe, cond_true, zero_add]

theorem Valid.search (h : Valid s es) {p : Bytes → Bool} (hp : ∀ e ∈ es, p e = (nameOf e == name)) :
    (∃ i, scan p 0 s.slots = .ok (i, none) ∧ ∀ e ∈ es, nameOf e ≠ name) ∨
      ∃ es1 e es2, es = es1 ++ e :: es2 ∧ nameOf e = name ∧
        scan p 0 s.slots = .ok (es1.length, some e) := by
  have hn (e : Bytes) (he : e ∈ es) : p e ↔ nameOf e = name := by rw [hp e he, beq_iff_eq]
  obtain ⟨rest, hsl⟩ := h.slots
  rcases search_slots hsl p with ⟨i, hs, hno⟩ | ⟨es1, e, es2, rfl, hpe, hs⟩
  · exact .inl ⟨i, hs, fun e he heq => hno e he ((hn e he).mpr heq)⟩
  · exact .inr ⟨es1, e, es2, rfl, (hn e (by simp)).mp hpe, hs⟩

/-- A variable gets a value. -/
theorem Valid.putenv_set (h : Valid s es) (hta : mem.table)
    (hent : mem.entry) (hn : IsName name) (value : Bytes) :
    ∃ s' es', s.putenv mem (name ++ 61 :: value) = .ok (s', 0) ∧ Valid s' es' ∧
      es'.Perm ((name ++ 61 :: value) :: without name es) ∧
      (s'.environChanged = s.environChanged + 1 ∨ es' = es) := by
  have hco : (name ++ 61 :: value).contains 61 := by simp
  have hidx : (name ++ 61 :: value).idxOf 61 = name.length := by
    rw [idxOf_append_of_notMem hn.2, idxOf_cons_self, add_zero]
  have hpu : s.putenv mem (name ++ 61 :: value) =
      scan (isEntry (name ++ 61 :: value) (name.length + 1)) 0 s.slots >>= fun r =>
        r.2.elim (s.create mem (name ++ 61 :: value)) fun oval =>
          if oval.drop (name.length + 1) = (name ++ 61 :: value).drop (name.length + 1)
            then pure (s, 0)
          else store s.slots r.1 (some (name ++ 61 :: value)) >>= fun slots =>
            pure ({ s with slots := slots, environChanged := s.environChanged + 1 }, 0) := by
    rw [putenv, hco, if_pos rfl, hidx, recount_counted h.counted]
    show scan _ 0 s.slots >>= _ = _
    congr 1
    funext r
    obtain ⟨i, found⟩ := r
    cases found with
    | none => rfl
    | some oval =>
      dsimp only [Option.elim_some]
      rw [if_neg (by decide), hent]
      split_ifs with hs hf
      · rfl
      · simp at hf
      · rfl
  rw [hpu]
  rcases h.search fun e he => isEntry_set (h.entries.isEntry e he) hn value with
    ⟨i, hsc, hno⟩ | ⟨es1, e, es2, rfl, hen, hsc⟩
  · have hp : (es ++ [name ++ 61 :: value]).Perm ((name ++ 61 :: value) :: without name es) := by
      rw [without_eq_self hno]
      exact perm_append_singleton _ _
    obtain ⟨s', hcr, hv', hc'⟩ := h.create hta hent ((h.entries.cons hn value).perm hp.symm)
    refine ⟨s', _, ?_, hv', hp, ?_⟩
    · rw [hsc]
      exact hcr
    · exact .inl hc'
  have hp : (es1 ++ (name ++ 61 :: value) :: es2).Perm
      ((name ++ 61 :: value) :: without name (es1 ++ e :: es2)) := by
    rw [← hen, h.entries.without_append]
    exact perm_middle
  rw [hsc]
  by_cases hs : e.drop (name.length + 1) = (name ++ 61 :: value).drop (name.length + 1)
  · have he : e = name ++ 61 :: value := by
      obtain ⟨w, rfl⟩ := (nameOf_eq_iff (h.entries.isEntry e (by simp)) hn).mp hen
      simpa using hs
    refine ⟨s, es1 ++ e :: es2, if_pos hs, h, ?_, .inr rfl⟩
    rw [he] at hp ⊢
    exact hp
  obtain ⟨slots, hst, hv'⟩ := h.replace ⟨name, value, hn, rfl⟩
    ((nameOf_entry hn.2 value).trans hen.symm)
  refine ⟨_, _, ?_, hv', hp, .inl rfl⟩
  show (if _ then _ else _) = _
  rw [if_neg hs, hst]
  rfl

/-- A variable is deleted. -/
theorem Valid.putenv_unset (h : Valid s es) (hn : IsName name) :
    ∃ s' es', s.putenv mem name = .ok (s', 0) ∧ Valid s' es' ∧ es'.Perm (without name es) ∧
      (s'.environChanged = s.environChanged + 1 ∨ es' = es) := by
  have hco : name.contains 61 = false := by simpa using hn.2
  have hp : s.putenv mem name = scan (isEntry name name.length) 0 s.slots >>= fun r =>
      r.2.elim (pure (s, 0)) fun _ => s.delete r.1 >>= fun s' => pure (s', (0 : ℤ)) := by
    rw [putenv, hco, recount_counted h.counted]
    change scan _ 0 s.slots >>= _ = _
    congr 1
    funext r
    obtain ⟨i, _ | _⟩ := r <;> rfl
  rw [hp]
  rcases h.search fun e he => isEntry_unset (h.entries.isEntry e he) hn with
    ⟨i, hs, hno⟩ | ⟨es1, e, es2, rfl, hen, hs⟩
  · rw [hs]
    refine ⟨s, es, rfl, h, ?_, .inr rfl⟩
    rw [without_eq_self hno]
  obtain ⟨s', es', hd, hpe, hv', hc'⟩ := h.delete
  rw [hs]
  refine ⟨s', es', ?_, hv', ?_, .inl hc'⟩
  · show s.delete es1.length >>= _ = _
    rw [hd]
    rfl
  · rw [← hen, h.entries.without_append]
    exact hpe

/-! ### Runs -/

/-- A call that changes the environment. -/
inductive Op
  | put (name value : Bytes)
  | del (name : Bytes)
  | setenv (var val : Bytes) (replace : Bool)
  | unsetenv (name : Bytes)

/-- The variable of a call. -/
def Op.target : Op → Bytes
  | .put name _ => name
  | .del name => name
  | .setenv var _ _ => var
  | .unsetenv name => name

/-- The state after a call. -/
def step (s : Env) (call : Op × Malloc) : Except Fault Env :=
  match call.1 with
  | .put name value => (·.1) <$> s.putenv call.2 (name ++ 61 :: value)
  | .del name => (·.1) <$> s.putenv call.2 name
  | .setenv var val replace => (·.1) <$> s.setenv call.2 (some var) (some val) replace
  | .unsetenv name => (·.1) <$> s.unsetenv call.2 (some name)

/-- The name is not empty and has no equals sign, and `malloc` does not fail. -/
def Legal (call : Op × Malloc) : Prop :=
  IsName call.1.target ∧ call.2.table = true ∧ call.2.entry = true

/-- The value that `setenv` stores: one equals sign at the start does not count. -/
def stripEquals (val : Bytes) : Bytes := if val.head? = some 61 then val.tail else val

/-- What a call means for a map from names to values. -/
def Op.apply (m : Bytes → Option Bytes) : Op → Bytes → Option Bytes
  | .put name value => update m name (some value)
  | .del name => update m name none
  | .setenv var val replace =>
    if (m var).isSome ∧ !replace then m else update m var (some (stripEquals val))
  | .unsetenv name => update m name none

theorem Valid.getenv_eq (h : Valid s es) (n : Bytes) : s.getenv n = .ok (getenv es n) := by
  obtain ⟨rest, hs⟩ := h.slots
  exact getenv_slots hs n

/-- **A call does to the array what it means for the map**, and changes the count if it changes the
entries. -/
theorem step_valid (h : Valid s es) {call : Op × Malloc} (hl : Legal call) :
    ∃ s' es', step s call = .ok s' ∧ Valid s' es' ∧ getenv es' = call.1.apply (getenv es) ∧
      (s'.environChanged = s.environChanged + 1 ∨ getenv es' = getenv es) := by
  obtain ⟨op, mem⟩ := call
  obtain ⟨hn, ht, he⟩ := hl
  cases op with
  | put name value =>
    change IsName name at hn
    obtain ⟨s', es', hput, hv, hp, hch⟩ := h.putenv_set ht he hn value
    refine ⟨s', es', ?_, hv, ?_, hch.imp_right (congrArg getenv)⟩
    · show (·.1) <$> s.putenv mem (name ++ 61 :: value) = _
      rw [hput]
      rfl
    · rw [hv.entries.getenv_perm hp, h.entries.getenv_cons hn]
      rfl
  | del name =>
    change IsName name at hn
    obtain ⟨s', es', hput, hv, hp, hch⟩ := h.putenv_unset hn
    refine ⟨s', es', ?_, hv, ?_, hch.imp_right (congrArg getenv)⟩
    · show (·.1) <$> s.putenv mem name = _
      rw [hput]
      rfl
    · rw [hv.entries.getenv_perm hp, h.entries.getenv_without]
      rfl
  | setenv var val replace =>
    change IsName var at hn
    have hvar : var.takeWhile (· != 61) = var :=
      takeWhile_eq_self_iff.mpr fun c hc => bne_iff_ne.mpr fun heq => hn.2 (heq ▸ hc)
    have hs : s.setenv mem (some var) (some val) replace =
        if (getenv es var).isSome ∧ !replace then .ok (s, 0)
        else s.putenv mem (var ++ 61 :: stripEquals val) := by
      rw [setenv, h.getenv_eq, hvar]
      rfl
    by_cases hk : (getenv es var).isSome ∧ !replace
    · refine ⟨s, es, ?_, h, ?_, .inr rfl⟩
      · show (·.1) <$> s.setenv mem (some var) (some val) replace = _
        rw [hs, if_pos hk]
        rfl
      · exact (if_pos hk).symm
    obtain ⟨s', es', hput, hv, hp, hch⟩ := h.putenv_set ht he hn (stripEquals val)
    refine ⟨s', es', ?_, hv, ?_, hch.imp_right (congrArg getenv)⟩
    · show (·.1) <$> s.setenv mem (some var) (some val) replace = _
      rw [hs, if_neg hk, hput]
      rfl
    · rw [hv.entries.getenv_perm hp, h.entries.getenv_cons hn]
      exact (if_neg hk).symm
  | unsetenv name =>
    change IsName name at hn
    obtain ⟨s', es', hput, hv, hp, hch⟩ := h.putenv_unset hn
    refine ⟨s', es', ?_, hv, ?_, hch.imp_right (congrArg getenv)⟩
    · have hok : ¬ (name = [] ∨ name.contains 61) := by
        rw [not_or, contains_iff_mem]
        exact hn
      show (·.1) <$> s.unsetenv mem (some name) = _
      rw [unsetenv, if_neg hok, hput]
      rfl
    · rw [hv.entries.getenv_perm hp, h.entries.getenv_without]
      rfl

/-- **Every run of calls does to the array what it means for the map.** -/
theorem run_valid (h : Valid s es) {calls : List (Op × Malloc)} (hl : ∀ call ∈ calls, Legal call) :
    ∃ s' es', Runs.run step s calls = .ok s' ∧ Valid s' es' ∧
      getenv es' = calls.foldl (fun m call => call.1.apply m) (getenv es) := by
  induction calls generalizing s es with
  | nil => exact ⟨s, es, rfl, h, rfl⟩
  | cons call calls ih =>
    obtain ⟨s1, es1, hs, h1, hget, -⟩ := step_valid h (hl call (.head _))
    obtain ⟨s', es', hrun, h', hg'⟩ := ih h1 (forall_mem_cons.mp hl).2
    refine ⟨s', es', ?_, h', ?_⟩
    · rw [Runs.run, hs]
      exact hrun
    · rw [hg', hget]
      rfl

/-- **The environment is a map.**  After every run of calls it has the values that were stored last,
where `setenv` drops an equals sign at the start of a value; each name occurs once in the array,
which ends with `NULL` inside of its slots, and a call that changes a value increments the count,
modulo `2 ^ 32`. -/
theorem environ_map (s₀ : Env) (es : List Bytes) (hs₀ : s₀.Started es) (hes : Entries es)
    (calls : List (Op × Malloc)) (hlegal : ∀ call ∈ calls, Legal call) :
    ∃ s es', Runs.run step s₀ calls = .ok s ∧ Valid s es' ∧ (∀ name, s.getenv name =
        .ok (calls.foldl (fun m call => call.1.apply m) (Environ.getenv es) name)) ∧
      ∀ call s', Legal call → step s call = .ok s' → (∃ name, s'.getenv name ≠ s.getenv name) →
        s'.environChanged = s.environChanged + 1 := by
  obtain ⟨s, es', hrun, hv, hget⟩ := run_valid (hs₀.valid hes) hlegal
  refine ⟨s, es', hrun, hv, fun name => ?_, ?_⟩
  · rw [hv.getenv_eq, hget]
  rintro call s' hca hst ⟨name, hne⟩
  obtain ⟨s'', es'', hs', hv', -, hc⟩ := step_valid hv hca
  obtain rfl : s'' = s' := by
    rw [hst] at hs'
    exact (Except.ok.inj hs').symm
  refine hc.resolve_right fun hs => hne ?_
  rw [hv'.getenv_eq, hv.getenv_eq, hs]

/-- The empty environment, before `putenv` is called. -/
def newEnv : Env := ⟨2, -1, 1, none, [none], 0, 0, 1⟩

/-- The empty environment, after the first start of a program. -/
def emptyEnv : Env := ⟨2, 2, 1, some 1, [none], 0, 0, 2⟩

def enough : Malloc := ⟨true, true, fun _ => none⟩

theorem started_emptyEnv : emptyEnv.Started [] :=
  ⟨newEnv, enough, rfl, by decide, rfl⟩

def setEquals : List (Op × Malloc) := [(.setenv [65] [61, 120] true, enough)]

theorem legal_setEquals : ∀ call ∈ setEquals, Legal call := by
  intro call hc
  rw [mem_singleton.mp hc]
  exact ⟨⟨by decide, by decide⟩, rfl, rfl⟩

/-- The theorem for an empty environment and one call. -/
theorem environ_map_setEquals : ∃ s es', Runs.run step emptyEnv setEquals = .ok s ∧ Valid s es' ∧
      (∀ name, s.getenv name =
        .ok (setEquals.foldl (fun m call => call.1.apply m) (Environ.getenv []) name)) ∧
      ∀ call s', Legal call → step s call = .ok s' → (∃ name, s'.getenv name ≠ s.getenv name) →
        s'.environChanged = s.environChanged + 1 :=
  environ_map emptyEnv [] started_emptyEnv entries_nil setEquals legal_setEquals

/-- The value of `A` becomes longer. -/
def lengthen (n : ℕ) : Op × Malloc := (.put [65] (replicate n 120), enough)

theorem legal_lengthen (n : ℕ) : Legal (lengthen n) :=
  ⟨⟨cons_ne_nil _ _, by simp [lengthen, Op.target]⟩, rfl, rfl⟩

theorem lengthen_step (h : Valid s es) {n : ℕ} (hn : getenv es [65] ≠ some (replicate n 120)) :
    ∃ s' es', step s (lengthen n) = .ok s' ∧ Valid s' es' ∧
      getenv es' [65] = some (replicate n 120) ∧ s'.environChanged = s.environChanged + 1 := by
  obtain ⟨s', es', hs, hv, hget, hc⟩ := step_valid h (legal_lengthen n)
  have hval : getenv es' [65] = some (replicate n 120) := by
    rw [hget]
    exact update_self [65] (some (replicate n 120)) (getenv es)
  exact ⟨s', es', hs, hv, hval, hc.resolve_right fun heq => hn (heq ▸ hval)⟩

/-- Every change counts. -/
theorem lengthen_run (n : ℕ) : ∃ s es,
    Runs.run step emptyEnv ((range n).map lengthen) = .ok s ∧ Valid s es ∧
      (∀ m ≥ n, getenv es [65] ≠ some (replicate m 120)) ∧
      s.environChanged = 2 + UInt32.ofNat n := by
  induction n with
  | zero => exact ⟨emptyEnv, [], rfl, started_emptyEnv.valid entries_nil, fun _ _ => nofun, rfl⟩
  | succ n ih =>
    obtain ⟨s, es, hrun, hv, hne, hc⟩ := ih
    obtain ⟨s', es', hs, hv', hget, hc'⟩ := lengthen_step hv (hne n le_rfl)
    refine ⟨s', es', ?_, hv', fun m hm heq => ?_, ?_⟩
    · rw [range_succ, map_append, Runs.run_append_ok hrun, map_singleton, Runs.run_cons_ok hs]
      rfl
    · have := congrArg length (Option.some.inj (hget.symm.trans heq))
      rw [length_replicate, length_replicate] at this
      omega
    · rw [hc', hc, UInt32.add_assoc]
      congr 1
      exact (UInt32.ofNat_add n 1).symm

/-- The value `=x` is stored as `x`; and after enough changes, one more makes the count smaller. -/
theorem equals_dropped_count_wraps : emptyEnv.Started [] ∧
    (∃ s, (∀ call ∈ setEquals, Legal call) ∧ Runs.run step emptyEnv setEquals = .ok s ∧
      s.getenv [65] = .ok (some [120]) ∧ s.getenv [65] ≠ .ok (some [61, 120])) ∧
    ∃ n s s', Runs.run step emptyEnv ((range n).map lengthen) = .ok s ∧
      step s (lengthen n) = .ok s' ∧ s'.getenv [65] ≠ s.getenv [65] ∧
      s'.environChanged < s.environChanged := by
  refine ⟨started_emptyEnv, ⟨_, legal_setEquals, rfl, rfl, ?_⟩, ?_⟩
  · rw [show Env.getenv _ [65] = .ok (some [120]) from rfl]
    simp
  · obtain ⟨s, es, hrun, hv, hne, hc⟩ := lengthen_run 4294967293
    obtain ⟨s', es', hs, hv', hget, hc'⟩ := lengthen_step hv (hne _ le_rfl)
    refine ⟨4294967293, s, s', hrun, hs, ?_, ?_⟩
    · rw [hv'.getenv_eq, hv.getenv_eq, hget]
      exact fun heq => hne _ le_rfl (Except.ok.inj heq).symm
    · rw [hc', hc]
      decide

end Environ
