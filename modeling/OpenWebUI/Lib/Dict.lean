import Mathlib.Data.List.Basic
import Mathlib.Data.List.Nodup
import Mathlib.Data.List.Perm.Subperm

/-! # Insertion-ordered dictionaries

Python's `dict`: an association list whose keys are distinct, in the order of
their first insertion. The operations on bare association lists come first
(nested JSON objects use those); `Dict` packs a list with the distinctness of
its keys, so every lemma about a map may use it without carrying it around.
-/

namespace Py

variable {κ ν ν' : Type*} [DecidableEq κ]

/-! ## Association lists -/

namespace Assoc

/-- The keys, in insertion order. -/
def keys (l : List (κ × ν)) : List κ := l.map Prod.fst

/-- `key in d`. -/
def has (l : List (κ × ν)) (k : κ) : Bool := (l.lookup k).isSome

/-- `d[k] = v`: replaces in place, or appends a new key. -/
def set (l : List (κ × ν)) (k : κ) (v : ν) : List (κ × ν) :=
  if has l k then l.map fun p => if p.1 = k then (k, v) else p else l ++ [(k, v)]

/-- `d.pop(k, None)`. -/
def erase (l : List (κ × ν)) (k : κ) : List (κ × ν) := l.filter fun p => p.1 ≠ k

/-- `{**a, **b}`: the keys of `a` in place with the later values, then the new keys of `b`. -/
def update (a b : List (κ × ν)) : List (κ × ν) :=
  a.map (fun p => (p.1, (b.lookup p.1).getD p.2)) ++ b.filter fun p => !has a p.1

theorem lookup_cons (p : κ × ν) (l : List (κ × ν)) (k : κ) :
    (p :: l).lookup k = if k = p.1 then some p.2 else l.lookup k := by
  by_cases h : k = p.1
  · rw [if_pos h, h]
    exact List.lookup_cons_self
  · rw [if_neg h, List.lookup_cons, beq_eq_false_iff_ne.mpr h]

theorem mem_keys_iff (l : List (κ × ν)) (k : κ) : k ∈ keys l ↔ (l.lookup k).isSome := by
  induction l with
  | nil => simp [keys]
  | cons p l ih =>
      rw [lookup_cons]
      by_cases h : k = p.1
      · simp [keys, h]
      · simp only [keys, List.map_cons, List.mem_cons, h, false_or, if_false]
        exact ih

theorem has_iff (l : List (κ × ν)) (k : κ) : has l k = true ↔ k ∈ keys l :=
  (mem_keys_iff l k).symm

theorem lookup_eq_none_iff_keys (l : List (κ × ν)) (k : κ) : l.lookup k = none ↔ k ∉ keys l := by
  rw [mem_keys_iff, Option.not_isSome_iff_eq_none]

theorem lookup_append (l₁ l₂ : List (κ × ν)) (k : κ) :
    (l₁ ++ l₂).lookup k = (l₁.lookup k).or (l₂.lookup k) := by
  induction l₁ with
  | nil => simp
  | cons p l ih =>
      by_cases h : k = p.1 <;> simp [lookup_cons, h, ih]

/-- A map over the values that may read the key commutes with lookup. -/
theorem lookup_map_val (l : List (κ × ν)) (f : κ → ν → ν') (k : κ) :
    (l.map fun p => (p.1, f p.1 p.2)).lookup k = (l.lookup k).map (f k) := by
  induction l with
  | nil => simp
  | cons p l ih =>
      rw [List.map_cons, lookup_cons, lookup_cons, ih]
      by_cases h : k = p.1 <;> simp [h]

/-- A filter on keys keeps or hides each key as a whole. -/
theorem lookup_filter_key (l : List (κ × ν)) (q : κ → Bool) (k : κ) :
    (l.filter fun p => q p.1).lookup k = if q k then l.lookup k else none := by
  induction l with
  | nil => simp
  | cons p l ih =>
      rw [List.filter_cons]
      by_cases h : k = p.1
      · subst h
        by_cases hq : q p.1 <;> simp [hq, lookup_cons, ih]
      · by_cases hq : q p.1 <;> simp [hq, lookup_cons, h, ih]

/-- With distinct keys, a filter on values keeps or hides the one entry of each key. -/
theorem lookup_filter_val {l : List (κ × ν)} (h : (keys l).Nodup) (q : ν → Bool) (k : κ) :
    (l.filter fun p => q p.2).lookup k = (l.lookup k).filter q := by
  induction l with
  | nil => simp
  | cons p l ih =>
      rw [keys, List.map_cons, List.nodup_cons] at h
      rw [List.filter_cons, lookup_cons]
      by_cases hk : k = p.1
      · have hrest : l.lookup k = none := by
          rw [lookup_eq_none_iff_keys, hk]
          exact h.1
        have ih' := ih h.2
        rw [hrest, Option.filter_none] at ih'
        rw [if_pos hk]
        by_cases hq : q p.2
        · simp [hq, hk, lookup_cons, Option.filter_some]
        · rw [if_neg hq, ih', Option.filter_some, if_neg hq]
      · by_cases hq : q p.2 <;> simp [hq, lookup_cons, hk, ih h.2]

theorem lookup_set (l : List (κ × ν)) (k k' : κ) (v : ν) :
    (set l k v).lookup k' = if k' = k then some v else l.lookup k' := by
  unfold set
  by_cases hk : has l k
  · have hmap : (l.map fun p => if p.1 = k then (k, v) else p) =
        l.map fun p => (p.1, if p.1 = k then v else p.2) := by
      apply List.map_congr_left
      intro p _
      by_cases h : p.1 = k <;> simp [h]
    rw [if_pos hk, hmap, lookup_map_val l (fun a b => if a = k then v else b)]
    by_cases h : k' = k
    · subst h
      obtain ⟨w, hw⟩ := Option.isSome_iff_exists.mp hk
      simp [hw]
    · simp [h]
  · have hn : l.lookup k = none := Option.not_isSome_iff_eq_none.mp hk
    rw [if_neg hk, lookup_append, lookup_cons]
    by_cases h : k' = k <;> simp [h, hn]

/-- Replacing a key that is not there changes nothing. -/
theorem map_replace_of_not_mem {l : List (κ × ν)} {k : κ} (h : k ∉ keys l) (v : ν) :
    (l.map fun p => if p.1 = k then (k, v) else p) = l := by
  refine (List.map_congr_left fun p hp => ?_).trans (List.map_id l)
  refine if_neg ?_
  rintro rfl
  exact h (List.mem_map_of_mem hp)

/-- A second write to a key overwrites the first in place. -/
theorem set_set (l : List (κ × ν)) (k : κ) (v w : ν) : set (set l k v) k w = set l k w := by
  have hhas : has (set l k v) k = true := by simp [has, lookup_set]
  rw [set, if_pos hhas]
  unfold set
  by_cases hk : has l k
  · rw [if_pos hk, if_pos hk, List.map_map]
    refine List.map_congr_left fun p _ => ?_
    by_cases hp : p.1 = k <;> simp [hp]
  · rw [if_neg hk, if_neg hk, List.map_append]
    rw [map_replace_of_not_mem (fun hmem => hk ((has_iff _ _).mpr hmem))]
    simp

@[simp] theorem lookup_set_self (l : List (κ × ν)) (k : κ) (v : ν) :
    (set l k v).lookup k = some v := by
  simp [lookup_set]

theorem lookup_set_ne (l : List (κ × ν)) {k k' : κ} (v : ν) (h : k' ≠ k) :
    (set l k v).lookup k' = l.lookup k' := by
  simp [lookup_set, h]

theorem lookup_erase (l : List (κ × ν)) (k k' : κ) :
    (erase l k).lookup k' = if k' = k then none else l.lookup k' := by
  have hfilter := lookup_filter_key l (fun a => decide (a ≠ k)) k'
  by_cases h : k' = k
  · simpa [erase, h] using hfilter
  · simpa [erase, h] using hfilter

/-- The later dictionary wins, key by key. -/
theorem lookup_update (a b : List (κ × ν)) (k : κ) :
    (update a b).lookup k = (b.lookup k).or (a.lookup k) := by
  unfold update
  rw [lookup_append, lookup_map_val a (fun x y => (b.lookup x).getD y),
    lookup_filter_key b (fun x => !has a x)]
  cases ha : a.lookup k <;> cases hb : b.lookup k <;> simp [has, ha]

theorem keys_set (l : List (κ × ν)) (k : κ) (v : ν) :
    keys (set l k v) = if has l k then keys l else keys l ++ [k] := by
  unfold set keys
  by_cases hk : has l k
  · rw [if_pos hk, if_pos hk, List.map_map]
    apply List.map_congr_left
    intro p _
    by_cases h : p.1 = k <;> simp [h]
  · simp [hk]

theorem keys_update (a b : List (κ × ν)) :
    keys (update a b) = keys a ++ keys (b.filter fun p => !has a p.1) := by
  simp [update, keys, Function.comp_def]

omit [DecidableEq κ] in
theorem nodup_keys_filter {l : List (κ × ν)} (h : (keys l).Nodup) (q : κ × ν → Bool) :
    (keys (l.filter q)).Nodup :=
  h.sublist (List.filter_sublist.map _)

theorem nodup_keys_set {l : List (κ × ν)} (h : (keys l).Nodup) (k : κ) (v : ν) :
    (keys (set l k v)).Nodup := by
  rw [keys_set]
  by_cases hk : has l k
  · simpa [hk] using h
  · have hmem : k ∉ keys l := by rwa [← has_iff]
    rw [if_neg hk, List.nodup_append]
    refine ⟨h, List.nodup_singleton k, ?_⟩
    intro a ha b hb hab
    rw [List.mem_singleton] at hb
    exact hmem (hb ▸ hab ▸ ha)

/-- Setting a key counts its new value for its old one. -/
theorem countP_set {l : List (κ × ν)} (h : (keys l).Nodup) (k : κ) (v : ν) (q : ν → Bool) :
    ((set l k v).countP fun p => q p.2) + ((l.lookup k).elim 0 fun m => (q m).toNat) =
      (l.countP fun p => q p.2) + (q v).toNat := by
  have hcount : ∀ m : ν, (q m).toNat = if q m then 1 else 0 := fun m => by cases q m <;> rfl
  unfold set
  split_ifs with hk
  · rw [has_iff] at hk
    induction l with
    | nil => exact absurd hk List.not_mem_nil
    | cons p l ih =>
        have ⟨hp, hl⟩ := List.nodup_cons.mp h
        rw [List.map_cons, List.countP_cons, List.countP_cons, lookup_cons]
        by_cases hpk : p.1 = k
        · -- the head is replaced, and the key is not in the tail
          obtain rfl := hpk
          rw [map_replace_of_not_mem hp, if_pos rfl, if_pos rfl, Option.elim_some, hcount, hcount]
          dsimp only
          omega
        · have hmem : k ∈ keys l := (List.mem_cons.mp hk).resolve_left (Ne.symm hpk)
          have := ih hl hmem
          rw [if_neg hpk, if_neg (Ne.symm hpk)]
          omega
  · have hnone : l.lookup k = none := (lookup_eq_none_iff_keys l k).mpr (by rwa [← has_iff])
    rw [hnone, Option.elim_none, List.countP_append, List.countP_singleton, hcount]
    rfl

theorem nodup_keys_update {a b : List (κ × ν)} (ha : (keys a).Nodup) (hb : (keys b).Nodup) :
    (keys (update a b)).Nodup := by
  rw [keys_update, List.nodup_append]
  refine ⟨ha, nodup_keys_filter hb _, ?_⟩
  intro x hx y hy hxy
  obtain ⟨p, hp, rfl⟩ := List.mem_map.mp hy
  have hnot : has a p.1 = false := by simpa using (List.mem_filter.mp hp).2
  have hin : has a p.1 = true := by rw [has_iff]; exact hxy ▸ hx
  simp [hnot] at hin

/-- With distinct keys, an entry is found under its own key. -/
theorem lookup_of_mem {l : List (κ × ν)} (h : (keys l).Nodup) {k : κ} {v : ν}
    (hm : (k, v) ∈ l) : l.lookup k = some v := by
  induction l with
  | nil => simp at hm
  | cons p l ih =>
      rw [keys, List.map_cons, List.nodup_cons] at h
      rw [lookup_cons]
      rcases List.mem_cons.mp hm with rfl | hm
      · simp
      · have hne : k ≠ p.1 := by
          rintro rfl
          exact h.1 (List.mem_map.mpr ⟨(p.1, v), hm, rfl⟩)
        rw [if_neg hne]
        exact ih h.2 hm

/-- Setting a key to the value it has changes nothing. -/
theorem set_of_lookup {l : List (κ × ν)} (hnodup : (keys l).Nodup) {k : κ} {v : ν}
    (h : l.lookup k = some v) : set l k v = l := by
  have hhas : has l k = true := by rw [has, h]; rfl
  rw [set, if_pos hhas]
  refine (List.map_congr_left fun p hp => ?_).trans (List.map_id l)
  split_ifs with hk
  · have hlookup := lookup_of_mem hnodup hp
    rw [hk, h] at hlookup
    exact Prod.ext hk.symm (Option.some.inj hlookup)
  · rfl

theorem lookup_filterMap_val {l : List (κ × ν)} (h : (keys l).Nodup) (f : ν → Option ν') (k : κ) :
    (l.filterMap fun p => (f p.2).map fun w => (p.1, w)).lookup k = (l.lookup k).bind f := by
  induction l with
  | nil => simp
  | cons p l ih =>
      rw [keys, List.map_cons, List.nodup_cons] at h
      rw [lookup_cons]
      by_cases hk : k = p.1
      · have hrest : l.lookup k = none := by
          rw [lookup_eq_none_iff_keys, hk]
          exact h.1
        have ih' := ih h.2
        rw [hrest, Option.bind_none] at ih'
        rw [if_pos hk, Option.bind_some, List.filterMap_cons]
        cases hf : f p.2 with
        | none => exact ih'
        | some w => simp [lookup_cons, hk]
      · cases hf : f p.2 <;> simp [hf, hk, lookup_cons, ih h.2]

theorem mem_of_lookup {l : List (κ × ν)} {k : κ} {v : ν} (h : l.lookup k = some v) :
    (k, v) ∈ l := by
  induction l with
  | nil => simp at h
  | cons p l ih =>
      rw [lookup_cons] at h
      by_cases hk : k = p.1
      · rw [if_pos hk, Option.some.injEq] at h
        exact List.mem_cons.mpr (Or.inl (Prod.ext hk h.symm))
      · rw [if_neg hk] at h
        exact List.mem_cons_of_mem _ (ih h)

end Assoc

/-! ## Dictionaries -/

/-- An insertion-ordered dictionary. -/
structure Dict (κ ν : Type*) where
  entries : List (κ × ν)
  nodup_keys : (Assoc.keys entries).Nodup

namespace Dict

omit [DecidableEq κ] in
/-- Dictionaries are equal where their entries are. -/
@[ext] theorem ext {d e : Dict κ ν} (h : d.entries = e.entries) : d = e := by
  cases d
  cases e
  simpa using h

instance [DecidableEq ν] : DecidableEq (Dict κ ν) := fun d e =>
  decidable_of_iff (d.entries = e.entries) ⟨Dict.ext, fun h => h ▸ rfl⟩

/-- `{}`. -/
def empty : Dict κ ν := ⟨[], List.nodup_nil⟩

instance : EmptyCollection (Dict κ ν) := ⟨empty⟩

/-- `d.get(k)`. -/
def get? (d : Dict κ ν) (k : κ) : Option ν := d.entries.lookup k

/-- `list(d)`. -/
def keys (d : Dict κ ν) : List κ := Assoc.keys d.entries

instance : Membership κ (Dict κ ν) := ⟨fun d k => k ∈ d.keys⟩

instance (k : κ) (d : Dict κ ν) : Decidable (k ∈ d) := inferInstanceAs (Decidable (k ∈ d.keys))

def size (d : Dict κ ν) : Nat := d.entries.length

/-- `d[k] = v`. -/
def set (d : Dict κ ν) (k : κ) (v : ν) : Dict κ ν :=
  ⟨Assoc.set d.entries k v, Assoc.nodup_keys_set d.nodup_keys k v⟩

/-- `d.pop(k, None)`. -/
def erase (d : Dict κ ν) (k : κ) : Dict κ ν :=
  ⟨Assoc.erase d.entries k, Assoc.nodup_keys_filter d.nodup_keys _⟩

/-- `{**d, **e}`. -/
def update (d e : Dict κ ν) : Dict κ ν :=
  ⟨Assoc.update d.entries e.entries, Assoc.nodup_keys_update d.nodup_keys e.nodup_keys⟩

/-- `{k: f(k, v) for k, v in d.items()}`. -/
def mapVal (d : Dict κ ν) (f : κ → ν → ν') : Dict κ ν' :=
  ⟨d.entries.map fun p => (p.1, f p.1 p.2), by
    simpa [Assoc.keys, Function.comp_def] using d.nodup_keys⟩

/-- Rewrites the value stored under `k`, if any, in place. -/
def modify (d : Dict κ ν) (k : κ) (f : ν → ν) : Dict κ ν :=
  d.mapVal fun k' v => if k' = k then f v else v

/-- `{k: w for k, v in d.items() if f(v) is w}`: the entries on which `f` is defined. -/
def filterMapVal (d : Dict κ ν) (f : ν → Option ν') : Dict κ ν' :=
  ⟨d.entries.filterMap fun p => (f p.2).map fun w => (p.1, w), by
    have hsub : (Assoc.keys (d.entries.filterMap fun p => (f p.2).map fun w => (p.1, w))).Sublist
        (Assoc.keys d.entries) := by
      generalize d.entries = l
      induction l with
      | nil => simp [Assoc.keys]
      | cons p l ih =>
          cases hf : f p.2 with
          | none => simpa [Assoc.keys, hf] using ih.cons p.1
          | some w => simpa [Assoc.keys, hf] using ih.cons_cons p.1
    exact d.nodup_keys.sublist hsub⟩

/-- The dictionary with the entries of `l`, a later one overwriting an earlier one. -/
def ofList (l : List (κ × ν)) : Dict κ ν := l.foldl (fun d p => d.set p.1 p.2) empty

theorem mem_iff (d : Dict κ ν) (k : κ) : k ∈ d ↔ (d.get? k).isSome :=
  Assoc.mem_keys_iff d.entries k

theorem mem_of_get? {d : Dict κ ν} {k : κ} {v : ν} (h : d.get? k = some v) : k ∈ d := by
  rw [mem_iff, h]
  rfl

theorem mem_iff_exists (d : Dict κ ν) (k : κ) : k ∈ d ↔ ∃ v, d.get? k = some v := by
  rw [mem_iff, Option.isSome_iff_exists]

theorem get?_eq_none_iff (d : Dict κ ν) (k : κ) : d.get? k = none ↔ k ∉ d := by
  rw [mem_iff, Option.not_isSome_iff_eq_none]

theorem mem_entries_iff (d : Dict κ ν) (k : κ) (v : ν) : (k, v) ∈ d.entries ↔ d.get? k = some v :=
  ⟨Assoc.lookup_of_mem d.nodup_keys, Assoc.mem_of_lookup⟩

theorem mem_entries_of_get? {d : Dict κ ν} {k : κ} {v : ν} (h : d.get? k = some v) :
    (k, v) ∈ d.entries :=
  (mem_entries_iff d k v).mpr h

@[simp] theorem get?_empty (k : κ) : (∅ : Dict κ ν).get? k = none := rfl

theorem get?_set (d : Dict κ ν) (k k' : κ) (v : ν) :
    (d.set k v).get? k' = if k' = k then some v else d.get? k' :=
  Assoc.lookup_set d.entries k k' v

@[simp] theorem get?_set_self (d : Dict κ ν) (k : κ) (v : ν) : (d.set k v).get? k = some v := by
  simp [get?_set]

@[simp] theorem get?_set_ne (d : Dict κ ν) {k k' : κ} (v : ν) (h : k' ≠ k) :
    (d.set k v).get? k' = d.get? k' := by
  simp [get?_set, h]

theorem get?_erase (d : Dict κ ν) (k k' : κ) :
    (d.erase k).get? k' = if k' = k then none else d.get? k' :=
  Assoc.lookup_erase d.entries k k'

/-- A new key comes last. -/
theorem keys_set_new {d : Dict κ ν} {k : κ} (h : k ∉ d) (v : ν) :
    (d.set k v).keys = d.keys ++ [k] :=
  (Assoc.keys_set d.entries k v).trans (if_neg fun hk => h ((Assoc.has_iff d.entries k).mp hk))

/-- Dictionaries with the same keys in the same order and the same values are equal. -/
theorem ext_get? {d e : Dict κ ν} (hkeys : d.keys = e.keys) (h : ∀ k, d.get? k = e.get? k) :
    d = e := by
  have hassoc : ∀ l m : List (κ × ν), (Assoc.keys l).Nodup → Assoc.keys l = Assoc.keys m →
      (∀ k, l.lookup k = m.lookup k) → l = m := by
    intro l
    induction l with
    | nil =>
        intro m _ hlm _
        exact (List.map_eq_nil_iff.mp hlm.symm).symm
    | cons p l ih =>
        intro m hnodup hlm hlookup
        obtain _ | ⟨q, m⟩ := m
        · cases hlm
        · obtain ⟨hpq, hlm⟩ := List.cons.inj hlm
          have hnodup' := List.nodup_cons.mp hnodup
          have hv := hlookup p.1
          rw [Assoc.lookup_cons, Assoc.lookup_cons, if_pos rfl, if_pos hpq, Option.some.injEq] at hv
          have hrest : l = m := by
            refine ih m hnodup'.2 hlm fun k => ?_
            have hk := hlookup k
            rw [Assoc.lookup_cons, Assoc.lookup_cons, ← hpq] at hk
            split_ifs at hk with hkp
            · have hl : l.lookup k = none :=
                (Assoc.lookup_eq_none_iff_keys _ _).mpr (hkp ▸ hnodup'.1)
              have hm : m.lookup k = none := by
                rw [Assoc.lookup_eq_none_iff_keys, Assoc.keys, ← hlm, hkp]
                exact hnodup'.1
              rw [hl, hm]
            · exact hk
          rw [hrest, Prod.ext hpq hv]
  exact Dict.ext (hassoc d.entries e.entries d.nodup_keys hkeys h)

/-- A list with distinct keys is the dictionary of its entries. -/
theorem entries_ofList {l : List (κ × ν)} (h : (Assoc.keys l).Nodup) : (ofList l).entries = l := by
  have hfold : ∀ (l : List (κ × ν)) (d : Dict κ ν), (Assoc.keys (d.entries ++ l)).Nodup →
      (l.foldl (fun d p => d.set p.1 p.2) d).entries = d.entries ++ l := by
    intro l
    induction l with
    | nil => exact fun d _ => (List.append_nil _).symm
    | cons p l ih =>
        intro d hnodup
        have hnew : p.1 ∉ Assoc.keys d.entries := by
          intro hmem
          rw [Assoc.keys, List.map_append, List.nodup_append] at hnodup
          exact hnodup.2.2 p.1 hmem p.1 List.mem_cons_self rfl
        have hset : (d.set p.1 p.2).entries = d.entries ++ [p] := by
          show Assoc.set d.entries p.1 p.2 = _
          rw [Assoc.set, if_neg]
          rwa [Assoc.has_iff]
        rw [List.foldl_cons, ih, hset, List.append_assoc, List.singleton_append]
        rw [hset]
        simpa using hnodup
  exact hfold l empty (by simpa [empty] using h)

theorem get?_update (d e : Dict κ ν) (k : κ) :
    (d.update e).get? k = (e.get? k).or (d.get? k) :=
  Assoc.lookup_update d.entries e.entries k

@[simp] theorem get?_mapVal (d : Dict κ ν) (f : κ → ν → ν') (k : κ) :
    (d.mapVal f).get? k = (d.get? k).map (f k) :=
  Assoc.lookup_map_val d.entries f k

omit [DecidableEq κ] in
@[simp] theorem keys_mapVal (d : Dict κ ν) (f : κ → ν → ν') : (d.mapVal f).keys = d.keys := by
  simp [keys, mapVal, Assoc.keys, Function.comp_def]

omit [DecidableEq κ] in
theorem mem_mapVal (d : Dict κ ν) (f : κ → ν → ν') (k : κ) : k ∈ d.mapVal f ↔ k ∈ d := by
  change k ∈ (d.mapVal f).keys ↔ k ∈ d.keys
  rw [keys_mapVal]

theorem get?_modify (d : Dict κ ν) (k k' : κ) (f : ν → ν) :
    (d.modify k f).get? k' = if k' = k then (d.get? k').map f else d.get? k' := by
  rw [modify, get?_mapVal]
  by_cases h : k' = k <;> simp [h]

theorem keys_modify (d : Dict κ ν) (k : κ) (f : ν → ν) : (d.modify k f).keys = d.keys :=
  keys_mapVal d _

theorem get?_filterMapVal (d : Dict κ ν) (f : ν → Option ν') (k : κ) :
    (d.filterMapVal f).get? k = (d.get? k).bind f :=
  Assoc.lookup_filterMap_val d.nodup_keys f k

theorem get?_foldl_erase (l : List κ) (d : Dict κ ν) (k : κ) :
    (l.foldl Dict.erase d).get? k = if k ∈ l then none else d.get? k := by
  induction l generalizing d with
  | nil => simp
  | cons a l ih =>
      rw [List.foldl_cons, ih, get?_erase]
      by_cases hk : k = a
      · simp [hk]
      · simp [hk]

/-- After storing every pair of a list, a value was listed or is an old one of a key that
is not listed, and every listed or old key is stored. -/
theorem foldl_set_spec (l : List (κ × ν)) (d : Dict κ ν) (k : κ) :
    (∀ v, (l.foldl (fun d p => d.set p.1 p.2) d).get? k = some v →
      (k, v) ∈ l ∨ k ∉ Assoc.keys l ∧ d.get? k = some v) ∧
    (k ∈ Assoc.keys l ∨ k ∈ d → k ∈ l.foldl (fun d p => d.set p.1 p.2) d) := by
  induction l generalizing d with
  | nil => simp [Assoc.keys]
  | cons p l ih =>
      obtain ⟨hval, hkey⟩ := ih (d.set p.1 p.2)
      constructor
      · intro v hv
        rcases hval v hv with hmem | ⟨hnot, hset⟩
        · exact Or.inl (List.mem_cons_of_mem p hmem)
        · rw [get?_set] at hset
          split_ifs at hset with hk
          · rw [Option.some.injEq] at hset
            exact Or.inl (List.mem_cons.mpr (Or.inl (Prod.ext hk hset.symm)))
          · refine Or.inr ⟨?_, hset⟩
            intro hmem
            rcases List.mem_cons.mp hmem with heq | hmem
            · exact hk heq
            · exact hnot hmem
      · intro h
        apply hkey
        rw [mem_iff, get?_set]
        by_cases hk : k = p.1
        · exact Or.inr (by simp [hk])
        · rcases h with hl | hd
          · exact Or.inl ((List.mem_cons.mp hl).resolve_left hk)
          · exact Or.inr (by rwa [if_neg hk, ← mem_iff])

/-- Every entry of the dictionary was listed, and every listed key is stored. -/
theorem ofList_spec (l : List (κ × ν)) (k : κ) :
    (∀ v, (ofList l).get? k = some v → (k, v) ∈ l) ∧ ((∃ v, (k, v) ∈ l) → k ∈ ofList l) := by
  obtain ⟨hval, hkey⟩ := foldl_set_spec l empty k
  constructor
  · intro v hv
    rcases hval v hv with h | ⟨_, h⟩
    · exact h
    · cases h
  · rintro ⟨v, hv⟩
    exact hkey (Or.inl (List.mem_map_of_mem hv))

omit [DecidableEq κ] in
theorem size_eq_keys (d : Dict κ ν) : d.size = d.keys.length := by
  simp [size, keys, Assoc.keys]

omit [DecidableEq κ] in
/-- Distinct stored keys number at most the size. -/
theorem length_le_size (d : Dict κ ν) {l : List κ} (hl : l.Nodup) (h : ∀ k ∈ l, k ∈ d) :
    l.length ≤ d.size := by
  rw [size_eq_keys]
  exact (List.subperm_of_subset hl h).length_le

end Dict

end Py
