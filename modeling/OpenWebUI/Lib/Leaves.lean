import OpenWebUI.Lib.Json

/-! # The leaves of nested dictionaries

A leaf is a value that is no dictionary, found at the path of keys that leads to it. Nested
dictionaries without an empty one are told apart by their leaves.
-/

namespace Py

namespace Json

/-- The path leads from a value through dictionaries to a leaf. -/
inductive LeafAt : Json → List String → Json → Prop
  | here {v : Json} (h : v.asObj = none) : LeafAt v [] v
  | down {o : Obj} {k : String} {w v : Json} {path : List String} (h : o.lookup k = some w)
      (hw : LeafAt w path v) : LeafAt (obj o) (k :: path) v

/-- The keys of each dictionary are distinct, and none is empty. -/
inductive Nested : Json → Prop
  | leaf {v : Json} (h : v.asObj = none) : Nested v
  | node {o : Obj} (hne : o ≠ []) (hnodup : (Assoc.keys o).Nodup)
      (h : ∀ k w, o.lookup k = some w → Nested w) : Nested (obj o)

/-- The members of a nested dictionary, or none yet. -/
structure Members (o : Obj) : Prop where
  nodup : (Assoc.keys o).Nodup
  nested : ∀ k w, o.lookup k = some w → Nested w

variable {j v w : Json} {o : Obj} {k : String} {p q : List String}

/-- A leaf is no object. -/
theorem LeafAt.leaf (h : LeafAt j p v) : v.asObj = none := by
  induction h with
  | here h => exact h
  | down _ _ ih => exact ih

theorem leafAt_nil : LeafAt j [] v ↔ j.asObj = none ∧ v = j := by
  constructor
  · intro h
    cases h with
    | here h => exact ⟨h, rfl⟩
  · rintro ⟨h, rfl⟩
    exact .here h

theorem leafAt_cons : LeafAt (obj o) (k :: p) v ↔ ∃ w, o.lookup k = some w ∧ LeafAt w p v := by
  constructor
  · intro h
    cases h with
    | down h hw => exact ⟨_, h, hw⟩
  · rintro ⟨w, h, hw⟩
    exact .down h hw

/-- A leaf has no other leaf. -/
theorem leafAt_leaf (h : w.asObj = none) : LeafAt w p v ↔ p = [] ∧ v = w := by
  constructor
  · intro hw
    cases hw with
    | here _ => exact ⟨rfl, rfl⟩
    | down _ _ => cases h
  · rintro ⟨rfl, rfl⟩
    exact .here h

/-- The leaves of a dictionary, member by member. -/
theorem leafAt_member : LeafAt (obj ((k, w) :: o)) p v ↔
    (∃ q, p = k :: q ∧ LeafAt w q v) ∨ (∀ q, p ≠ k :: q) ∧ LeafAt (obj o) p v := by
  cases p with
  | nil => simp [leafAt_nil, asObj]
  | cons l p =>
      rw [leafAt_cons, leafAt_cons, Assoc.lookup_cons]
      by_cases hl : l = k
      · subst hl
        simp
      · simp [hl]

theorem not_leafAt_nil (o : Obj) (v : Json) : ¬ LeafAt (obj o) [] v := by
  intro h
  cases h with
  | here h => cases h

/-- The empty object has no leaf. -/
theorem not_leafAt_empty (p : List String) (v : Json) : ¬ LeafAt (obj []) p v := by
  intro h
  cases h with
  | here h => cases h
  | down h _ => cases h

/-- The leaves after a member is set: those of its value, and those below other keys. -/
theorem leafAt_set : LeafAt (obj (Assoc.set o k w)) p v ↔
    (∃ q, p = k :: q ∧ LeafAt w q v) ∨ (∀ q, p ≠ k :: q) ∧ LeafAt (obj o) p v := by
  cases p with
  | nil => simp [not_leafAt_nil]
  | cons l p =>
      rw [leafAt_cons, leafAt_cons, Assoc.lookup_set]
      by_cases hl : l = k
      · subst hl
        simp
      · simp [hl]

/-- No leaf lies below another. -/
theorem LeafAt.prefix_eq (h : LeafAt j p v) (h' : LeafAt j q w) (hpq : p <+: q) :
    p = q ∧ v = w := by
  induction h generalizing q with
  | here hleaf =>
      cases h' with
      | here _ => exact ⟨rfl, rfl⟩
      | down _ _ => cases hleaf
  | @down o k u v p hk _ ih =>
      cases q with
      | nil => exact absurd (List.prefix_nil.mp hpq) (List.cons_ne_nil _ _)
      | cons k' q =>
          obtain ⟨rfl, hrest⟩ := List.cons_prefix_cons.mp hpq
          obtain ⟨u', hk', hu'⟩ := leafAt_cons.mp h'
          obtain rfl := Option.some.inj (hk.symm.trans hk')
          obtain ⟨rfl, rfl⟩ := ih hu' hrest
          exact ⟨rfl, rfl⟩

/-- A nested value has a leaf. -/
theorem Nested.exists_leaf (h : Nested j) : ∃ p v, LeafAt j p v := by
  induction h with
  | leaf h => exact ⟨[], _, .here h⟩
  | @node o hne _ _ ih =>
      obtain ⟨⟨k, w⟩, o, rfl⟩ := List.exists_cons_of_ne_nil hne
      have hk : ((k, w) :: o).lookup k = some w := List.lookup_cons_self
      obtain ⟨p, v, hp⟩ := ih k w hk
      exact ⟨k :: p, v, .down hk hp⟩

theorem Members.nil : Members [] := ⟨List.nodup_nil, fun _ _ h => by cases h⟩

/-- The members of a nested object are nested. -/
theorem Nested.members (h : Nested (obj o)) : Members o := by
  cases h with
  | leaf h => cases h
  | node _ hnodup h => exact ⟨hnodup, h⟩

/-- A dictionary with nested members is nested, unless it is empty. -/
theorem Members.node (h : Members o) (hne : o ≠ []) : Nested (obj o) := .node hne h.nodup h.nested

theorem Members.set (h : Members o) (k : String) (hw : Nested w) : Members (Assoc.set o k w) := by
  refine ⟨Assoc.nodup_keys_set h.nodup k w, fun k' w' hlookup => ?_⟩
  rw [Assoc.lookup_set] at hlookup
  split_ifs at hlookup
  · exact Option.some.inj hlookup ▸ hw
  · exact h.nested k' w' hlookup

theorem set_ne_nil (o : Obj) (k : String) (w : Json) : Assoc.set o k w ≠ [] := by
  intro h
  have hlookup := Assoc.lookup_set_self o k w
  rw [h] at hlookup
  cases hlookup

/-- Nested dictionaries with the same leaves are equal. -/
theorem pyEq_of_leaves {a b : Json} (ha : Nested a) (hb : Nested b)
    (h : ∀ p v, LeafAt a p v ↔ LeafAt b p v) :
    pyEq a b = true := by
  induction ha generalizing b with
  | @leaf a hleaf =>
      obtain ⟨_, rfl⟩ := leafAt_nil.mp ((h [] a).mp (.here hleaf))
      exact pyEq_refl _
  | @node o hne hnodup hmembers ih =>
      cases hb with
      | leaf hleaf => exact absurd ((h [] b).mpr (.here hleaf)) (not_leafAt_nil o b)
      | @node o' hne' hnodup' hmembers' =>
          refine pyEq_of_lookup hnodup hnodup' fun k => ?_
          -- a key with a value has a leaf below it
          cases hk : o.lookup k with
          | none =>
              cases hk' : o'.lookup k with
              | none => rfl
              | some w' =>
                  obtain ⟨p, v, hp⟩ := (hmembers' k w' hk').exists_leaf
                  obtain ⟨w, hw, _⟩ := leafAt_cons.mp ((h (k :: p) v).mpr (.down hk' hp))
                  rw [hk] at hw
                  cases hw
          | some w =>
              obtain ⟨p, v, hp⟩ := (hmembers k w hk).exists_leaf
              obtain ⟨w', hk', _⟩ := leafAt_cons.mp ((h (k :: p) v).mp (.down hk hp))
              have hbelow : ∀ p v, LeafAt w p v ↔ LeafAt w' p v := by
                intro p v
                have hkp := h (k :: p) v
                rw [leafAt_cons, leafAt_cons, hk, hk'] at hkp
                simpa using hkp
              rw [hk', Option.map_some, Option.map_some,
                (pyEq_iff _ _).mp (ih k w hk (hmembers' k w' hk') hbelow)]

end Json

end Py
