import Mathlib
import OpenWebUI.Groups.Table

/-! # Merged permissions

The permissions of all groups of a user are combined into one dictionary. On nested
dictionaries of booleans of one shape this is a join: each permission has the most
permissive value, in whatever order the groups come.
-/

namespace OpenWebUI.Groups

open Py

mutual

/-- The value of one key, from the value so far. Descending into a value that is no
dictionary raises. -/
def combineValue (old : Option Json) : Json → Option Json
  | .obj members =>
      match old.getD (.obj []) with
      | .obj permissions => (combinePermissions permissions members).map .obj
      | other => if members.isEmpty then some other else none
  | value => some ((old.map (·.or value)).getD value)

/-- `combine_permissions`. -/
def combinePermissions (permissions : Obj) : Obj → Option Obj
  | [] => some permissions
  | (key, value) :: rest =>
      (combineValue (permissions.lookup key) value).bind fun new =>
        combinePermissions (Assoc.set permissions key new) rest

end

/-- The permissions of the groups, combined in their order into the default ones. -/
def mergedPermissions (base : Obj) (groups : List (String × Group)) : Option Obj :=
  groups.foldlM (fun permissions g => combinePermissions permissions (g.2.permissions.getD [])) base

/-! ## Shapes -/

/-- Which permissions are flags, and which are dictionaries of permissions. -/
inductive Shape where
  | flag
  | dict (fields : String → Shape)

inductive Fits : Shape → Json → Prop where
  | flag (b : Bool) : Fits .flag (.bool b)
  | dict {fields : String → Shape} {members : Obj} (hkeys : (Assoc.keys members).Nodup)
      (h : ∀ k v, members.lookup k = some v → Fits (fields k) v) :
        Fits (.dict fields) (.obj members)

/-- What stands under a path: a flag, `false` for a dictionary, nothing elsewhere. -/
def reads : List String → Json → WithBot Bool
  | [], .bool b => b
  | [], .obj _ => false
  | k :: path, .obj members => ((members.lookup k).map (reads path)).getD ⊥
  | _, _ => ⊥

def readsAt (path : List String) (value : Option Json) : WithBot Bool :=
    (value.map (reads path)).getD ⊥

variable {shape : Shape} {fields : String → Shape} {p q members : Obj} {path : List String}

@[simp] theorem readsAt_none : readsAt path none = ⊥ := rfl

@[simp] theorem readsAt_some (value : Json) : readsAt path (some value) = reads path value := rfl

@[simp] theorem reads_cons (k : String) (members : Obj) :
    reads (k :: path) (.obj members) = readsAt path (members.lookup k) := by
  rw [reads, readsAt]

@[simp] theorem reads_nil_obj (members : Obj) : reads [] (.obj members) = false := by
  rw [reads]

/-- Values of one shape that read alike are equal. -/
theorem Fits.pyEq {x y : Json} (hx : Fits shape x) (hy : Fits shape y)
    (h : ∀ path, reads path x = reads path y) : Json.pyEq x y = true := by
  induction hx generalizing y with
  | flag a =>
      obtain ⟨b⟩ | _ := hy
      have : a = b := WithBot.coe_injective (h [])
      rw [this]
      exact Json.pyEq_refl _
  | @dict fields p hkeys hfit ih =>
      obtain _ | ⟨hkeys', hfit'⟩ := hy
      rename_i q
      refine Json.pyEq_of_lookup hkeys hkeys' fun k => ?_
      have hk : ∀ path, readsAt path (p.lookup k) = readsAt path (q.lookup k) := by
        intro path
        have := h (k :: path)
        rwa [reads_cons, reads_cons] at this
      -- a value that fits a shape reads something at the empty path
      have hsome : ∀ {sh v}, Fits sh v → reads [] v ≠ ⊥ := by
        rintro _ _ (⟨b⟩ | _)
        · exact WithBot.coe_ne_bot
        · rw [reads_nil_obj]
          exact WithBot.coe_ne_bot
      cases hp : p.lookup k with
      | none =>
          cases hq : q.lookup k with
          | none => rfl
          | some w =>
              have := hk []
              rw [hp, hq] at this
              exact absurd this.symm (hsome (hfit' k w hq))
      | some v =>
          cases hq : q.lookup k with
          | none =>
              have := hk []
              rw [hp, hq] at this
              exact absurd this (hsome (hfit k v hp))
          | some w =>
              rw [hp, hq] at hk
              rw [Option.map_some, Option.map_some,
                (Json.pyEq_iff _ _).mp (ih k v hp (hfit' k w hq) hk)]

/-- Equal values of one shape read alike. -/
theorem Fits.reads_congr {x y : Json} (hx : Fits shape x) (hy : Fits shape y)
    (h : Json.pyEq x y = true) : reads path x = reads path y := by
  induction hx generalizing y path with
  | flag a =>
      obtain ⟨b⟩ | _ := hy
      have : a = b := by
        cases a <;> cases b <;> simp_all [Json.pyEq, Json.canon]
      rw [this]
  | @dict fields p hkeys hfit ih =>
      obtain _ | ⟨hkeys', hfit'⟩ := hy
      rename_i q
      cases path with
      | nil => rw [reads_nil_obj, reads_nil_obj]
      | cons k path =>
          rw [reads_cons, reads_cons]
          have hk := Json.lookup_of_pyEq h k
          cases hp : p.lookup k with
          | none =>
              rw [hp] at hk
              rw [Option.map_eq_none_iff.mp hk.symm]
          | some v =>
              rw [hp, Option.map_some] at hk
              obtain ⟨w, hw, hvw⟩ := Option.map_eq_some_iff.mp hk.symm
              rw [hw, readsAt_some, readsAt_some]
              exact ih k v hp (hfit' k w hw) ((Json.pyEq_iff _ _).mpr hvw.symm)

/-! ## Combining is a join -/

@[simp] theorem reads_cons_bool (k : String) (a : Bool) : reads (k :: path) (.bool a) = ⊥ := by
  simp [reads]

/-- What combining one value gives: a value of the shape that reads as the join. -/
def Joins (shape : Shape) (old : Option Json) (value : Json) : Prop :=
  ∃ r, combineValue old value = some r ∧ Fits shape r ∧
    ∀ path, reads path r = readsAt path old ⊔ reads path value

/-- A flag joins flags. -/
theorem joins_flag {old : Option Json} (hold : ∀ x ∈ old, Fits .flag x) (b : Bool) :
    Joins .flag old (.bool b) := by
  cases old with
  | none =>
      refine ⟨.bool b, ?_, .flag b, fun path => ?_⟩
      · rw [combineValue]
        · rfl
        · exact fun _ => Json.noConfusion
      · rw [readsAt_none, bot_sup_eq]
  | some x =>
      obtain ⟨a⟩ := hold x rfl
      refine ⟨.bool (a || b), ?_, .flag _, fun path => ?_⟩
      · rw [combineValue]
        · cases a <;> rfl
        · exact fun _ => Json.noConfusion
      · cases path with
        | nil => exact (WithBot.coe_sup a b)
        | cons k path =>
            rw [readsAt_some, reads_cons_bool, reads_cons_bool, reads_cons_bool, bot_sup_eq]

/-- The members of a dictionary are combined one by one. -/
theorem joins_members (hp : Fits (.dict fields) (.obj p)) (hkeys : (Assoc.keys members).Nodup)
    (hmembers : ∀ k v, members.lookup k = some v →
      ∀ old, (∀ x ∈ old, Fits (fields k) x) → Joins (fields k) old v) :
    ∃ r, combinePermissions p members = some r ∧ Fits (.dict fields) (.obj r) ∧
      ∀ k path, readsAt path (r.lookup k) = readsAt path (p.lookup k) ⊔
        readsAt path (members.lookup k) := by
  induction members generalizing p with
  | nil =>
      refine ⟨p, by rw [combinePermissions], hp, fun k path => ?_⟩
      rw [List.lookup_nil, readsAt_none, sup_bot_eq]
  | cons e rest ih =>
      obtain ⟨key, value⟩ := e
      rw [Assoc.keys, List.map_cons, List.nodup_cons] at hkeys
      have hrest : rest.lookup key = none := (Assoc.lookup_eq_none_iff_keys _ _).mpr hkeys.1
      obtain _ | ⟨hpkeys, hpfit⟩ := hp
      obtain ⟨new, hnew, hfit, hreads⟩ := hmembers key value (by simp [Assoc.lookup_cons])
        (p.lookup key) fun x hx => hpfit key x hx
      have hset : Fits (.dict fields) (.obj (Assoc.set p key new)) := by
        refine .dict (Assoc.nodup_keys_set hpkeys key new) fun k v hk => ?_
        rw [Assoc.lookup_set] at hk
        split_ifs at hk with hkey
        · cases hk
          exact hkey ▸ hfit
        · exact hpfit k v hk
      obtain ⟨r, hr, hrfit, hrreads⟩ := ih hset hkeys.2 fun k v hk => by
        refine hmembers k v ?_
        rw [Assoc.lookup_cons, if_neg, hk]
        rintro rfl
        rw [hrest] at hk
        cases hk
      refine ⟨r, ?_, hrfit, fun k path => ?_⟩
      · rw [combinePermissions, hnew, Option.bind_some, hr]
      · rw [hrreads, Assoc.lookup_set, Assoc.lookup_cons]
        by_cases hk : k = key
        · rw [if_pos hk, if_pos hk, hk, hrest, readsAt_none, sup_bot_eq, readsAt_some, readsAt_some,
            hreads]
        · rw [if_neg hk, if_neg hk]

/-- Values of one shape join. -/
theorem Fits.joins {value : Json} (h : Fits shape value) :
    ∀ old, (∀ x ∈ old, Fits shape x) → Joins shape old value := by
  induction h with
  | flag b => exact fun old hold => joins_flag hold b
  | @dict fields members hkeys hfit ih =>
      intro old hold
      have hdict : ∃ p, old.getD (.obj []) = .obj p ∧ Fits (.dict fields) (.obj p) ∧
          (∀ k path, readsAt path (p.lookup k) = readsAt (k :: path) old) ∧
            readsAt [] old ≤ false := by
        cases old with
        | none =>
            refine ⟨[], rfl, ?_, fun _ _ => rfl, bot_le⟩
            exact .dict List.nodup_nil fun _ _ hk => by cases hk
        | some x =>
            have hx := hold x rfl
            obtain _ | ⟨hpkeys, hpfit⟩ := hx
            rename_i p
            refine ⟨p, rfl, .dict hpkeys hpfit, fun k path => ?_, ?_⟩
            · rw [readsAt_some, reads_cons]
            · rw [readsAt_some, reads_nil_obj]
      obtain ⟨p, hold', hp, hpreads, hroot⟩ := hdict
      obtain ⟨r, hr, hrfit, hrreads⟩ := joins_members hp hkeys ih
      refine ⟨.obj r, ?_, hrfit, fun path => ?_⟩
      · rw [combineValue, hold']
        dsimp only
        rw [hr, Option.map_some]
      · cases path with
        | nil => rw [reads_nil_obj, reads_nil_obj, sup_eq_right.mpr hroot]
        | cons k path => rw [reads_cons, reads_cons, hrreads, hpreads]

/-- Combining dictionaries of one shape never raises and reads as their join. -/
theorem combinePermissions_join (hp : Fits (.dict fields) (.obj p))
    (hq : Fits (.dict fields) (.obj q)) :
    ∃ r, combinePermissions p q = some r ∧ Fits (.dict fields) (.obj r) ∧
      ∀ path, reads path (.obj r) = reads path (.obj p) ⊔ reads path (.obj q) := by
  obtain ⟨x, hx, hfit, hreads⟩ := hq.joins (some (.obj p)) fun y hy => by
    cases hy
    exact hp
  rw [combineValue, Option.getD_some] at hx
  obtain ⟨r, hr, rfl⟩ := Option.map_eq_some_iff.mp hx
  exact ⟨r, hr, hfit, hreads⟩

/-! ## All groups of a user -/

/-- Permissions of one shape merge, and the merge is their least upper bound. -/
theorem mergedPermissions_lub {base : Obj} {groups : List (String × Group)}
    (hbase : Fits (.dict fields) (.obj base))
    (hgroups : ∀ g ∈ groups, Fits (.dict fields) (groupPermissions g.2)) :
    ∃ r, mergedPermissions base groups = some r ∧ Fits (.dict fields) (.obj r) ∧
      ∀ path c, reads path (.obj r) ≤ c ↔
        reads path (.obj base) ≤ c ∧ ∀ g ∈ groups, reads path (groupPermissions g.2) ≤ c := by
  induction groups generalizing base with
  | nil => exact ⟨base, rfl, hbase, fun path c => by simp⟩
  | cons g groups ih =>
      obtain ⟨next, hnext, hfit, hreads⟩ := combinePermissions_join hbase
        (hgroups g List.mem_cons_self)
      obtain ⟨r, hr, hrfit, hlub⟩ := ih hfit fun g' hg' => hgroups g' (List.mem_cons_of_mem _ hg')
      refine ⟨r, ?_, hrfit, fun path c => ?_⟩
      · rw [mergedPermissions, List.foldlM_cons, hnext]
        exact hr
      · rw [hlub, hreads, sup_le_iff, List.forall_mem_cons, and_assoc]
        rfl

/-- Groups with the same permissions, in any order, merge to the same permissions. -/
theorem mergedPermissions_congr {base : Obj} {groups groups' : List (String × Group)}
    (hbase : Fits (.dict fields) (.obj base))
    (hgroups : ∀ g ∈ groups, Fits (.dict fields) (groupPermissions g.2))
    (hgroups' : ∀ g ∈ groups', Fits (.dict fields) (groupPermissions g.2))
    (hsame : ∀ g ∈ groups, ∃ g' ∈ groups',
      Json.pyEq (groupPermissions g.2) (groupPermissions g'.2) = true)
    (hsame' : ∀ g ∈ groups', ∃ g' ∈ groups,
      Json.pyEq (groupPermissions g.2) (groupPermissions g'.2) = true) :
    ∃ r r', mergedPermissions base groups = some r ∧ mergedPermissions base groups' = some r' ∧
      Json.pyEq (.obj r) (.obj r') = true := by
  obtain ⟨r, hr, hfit, hlub⟩ := mergedPermissions_lub hbase hgroups
  obtain ⟨r', hr', hfit', hlub'⟩ := mergedPermissions_lub hbase hgroups'
  refine ⟨r, r', hr, hr', hfit.pyEq hfit' fun path => eq_of_forall_ge_iff fun c => ?_⟩
  rw [hlub, hlub']
  refine and_congr_right fun _ => ⟨fun h g hg => ?_, fun h g hg => ?_⟩
  · obtain ⟨g', hg', heq⟩ := hsame' g hg
    rw [(hgroups' g hg).reads_congr (hgroups g' hg') heq]
    exact h g' hg'
  · obtain ⟨g', hg', heq⟩ := hsame g hg
    rw [(hgroups g hg).reads_congr (hgroups' g' hg') heq]
    exact h g' hg'

end OpenWebUI.Groups
