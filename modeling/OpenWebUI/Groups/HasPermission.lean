import OpenWebUI.Groups.Permissions
import OpenWebUI.Lib.Text

/-! # Asking for one permission

`get_permissions` merges the permissions of all groups of a user into the default ones, and
`has_permission` looks one key up in group after group and then in the defaults. The values under a
key may be anything; what counts is their truth value. Both answers are compared on trees of one
shape.
-/

namespace OpenWebUI.Groups

open Py

mutual

/-- The value of one key, from the value so far and the default one. -/
def fillValue (old : Option Json) : Json → Json
  | .obj defaults =>
      match old with
      | none => .obj defaults
      | some (.obj permissions) => .obj (fillMissingPermissions permissions defaults)
      | some other => other
  | value => old.getD value

/-- `fill_missing_permissions`. -/
def fillMissingPermissions (permissions : Obj) : Obj → Obj
  | [] => permissions
  | (key, value) :: rest =>
      fillMissingPermissions (Assoc.set permissions key (fillValue (permissions.lookup key) value))
        rest

end

/-- `get_permission`. A key that is in a text or a list raises when it is looked up there, and every
key does in a value that is no container. -/
def getPermission (permissions : Json) : List String → Option Bool
  | [] => some permissions.truthy
  | key :: keys =>
      match permissions with
      | .obj members =>
          match members.lookup key with
          | none => some false
          | some value => getPermission value keys
      | .str s => if In key s then none else some false
      | .arr xs => if Json.str key ∈ xs then none else some false
      | _ => none

/-- `permission_key.split('.')`. -/
def permissionHierarchy (permissionKey : String) : List String :=
  (permissionKey.toList.splitOn '.').map String.ofList

/-- The groups in their order, then the defaults. -/
def firstGrant (keys : List String) (defaults : Json) : List (String × Group) → Option Bool
  | [] => getPermission defaults keys
  | group :: userGroups =>
      (getPermission (groupPermissions group.2) keys).bind fun granted =>
        if granted then some true else firstGrant keys defaults userGroups

/-- `has_permission`, with the groups of the user. -/
def hasPermission (defaultUserPermissions : Obj) (userGroups : List (String × Group))
    (permissionKey : String)
    (defaultPermissions : Obj) : Option Bool :=
  firstGrant (permissionHierarchy permissionKey)
    (.obj (fillMissingPermissions defaultPermissions defaultUserPermissions)) userGroups

/-! ## Truth values only

Every value that is no dictionary is replaced by its truth value. Merging does the same before and
after, so what is known of trees of flags applies. -/

mutual

def truths : Json → Json
  | .obj members => .obj (truthsMembers members)
  | value => .bool value.truthy

def truthsMembers : Obj → Obj
  | [] => []
  | (key, value) :: rest => (key, truths value) :: truthsMembers rest

end

variable {shape : Shape} {fields : String → Shape} {p q members defaults : Obj} {path : List String}

theorem truthsMembers_eq_map (members : Obj) :
    truthsMembers members = members.map fun e => (e.1, truths e.2) := by
  induction members with
  | nil => rw [truthsMembers, List.map_nil]
  | cons e rest ih => rw [truthsMembers, ih, List.map_cons]

theorem keys_truthsMembers (members : Obj) :
    Assoc.keys (truthsMembers members) = Assoc.keys members := by
  rw [truthsMembers_eq_map, Assoc.keys, Assoc.keys, List.map_map]
  rfl

theorem lookup_truthsMembers (members : Obj) (key : String) :
    (truthsMembers members).lookup key = (members.lookup key).map truths := by
  rw [truthsMembers_eq_map]
  exact Assoc.lookup_map_val members (fun _ => truths) key

/-- Setting a member sets its truth. -/
theorem set_truthsMembers (members : Obj) (key : String) (value : Json) :
    Assoc.set (truthsMembers members) key (truths value) =
      truthsMembers (Assoc.set members key value) := by
  have hhas : Assoc.has (truthsMembers members) key = Assoc.has members key := by
    rw [Assoc.has, Assoc.has, lookup_truthsMembers, Option.isSome_map]
  rw [Assoc.set, Assoc.set, hhas]
  split_ifs
  · rw [truthsMembers_eq_map, truthsMembers_eq_map, List.map_map, List.map_map]
    refine List.map_congr_left fun e _ => ?_
    simp only [Function.comp_apply]
    split_ifs <;> rfl
  · rw [truthsMembers_eq_map, truthsMembers_eq_map, List.map_append]
    rfl

/-- A value that is no dictionary is combined by `or`. -/
theorem combineValue_leaf {value : Json} (h : value.asObj = none) (old : Option Json) :
    combineValue old value = some ((old.map (·.or value)).getD value) := by
  cases value <;> first | rw [combineValue]; exact fun _ => Json.noConfusion | cases h

theorem truths_leaf {value : Json} (h : value.asObj = none) :
    truths value = .bool value.truthy := by
  cases value <;> first | rw [truths]; exact fun _ => Json.noConfusion | cases h

theorem truthy_truths (value : Json) : (truths value).truthy = value.truthy := by
  cases value with
  | obj members => cases members <;> rfl
  | _ => rfl

theorem truths_or (x y : Json) : truths (x.or y) = (truths x).or (truths y) := by
  rw [Json.or, Json.or, truthy_truths]
  split_ifs <;> rfl

/-- Combining with a leaf depends on the truths only. -/
theorem combineValue_truths_leaf {value : Json} (h : value.asObj = none) (old : Option Json) :
    combineValue (old.map truths) (truths value) = (combineValue old value).map truths := by
  have hflag : (truths value).asObj = none := by
    rw [truths_leaf h]
    rfl
  rw [combineValue_leaf hflag, combineValue_leaf h]
  cases old with
  | none => rfl
  | some x => exact congrArg some (truths_or x value).symm

mutual

/-- Combining values depends on their truths only. -/
theorem combineValue_truths (old : Option Json) : ∀ value : Json,
    combineValue (old.map truths) (truths value) = (combineValue old value).map truths
  | .obj members => by
      rw [truths, combineValue, combineValue]
      have hempty : (truthsMembers members).isEmpty = members.isEmpty := by
        rw [truthsMembers_eq_map, List.isEmpty_map]
      have hdict :
        ∀ p : Obj, ((combinePermissions (truthsMembers p) (truthsMembers members)).map Json.obj) =
          ((combinePermissions p members).map Json.obj).map truths := by
        intro p
        rw [combinePermissions_truths p members, Option.map_map, Option.map_map]
        rfl
      cases old with
      | none => exact hdict []
      | some x =>
          cases x with
          | obj p => exact hdict p
          | _ =>
              simp only [Option.map_some, Option.getD_some, truths, hempty]
              split_ifs <;> rfl
  | .null => combineValue_truths_leaf rfl old
  | .bool _ => combineValue_truths_leaf rfl old
  | .num _ => combineValue_truths_leaf rfl old
  | .str _ => combineValue_truths_leaf rfl old
  | .arr _ => combineValue_truths_leaf rfl old

/-- Combining permissions depends on their truths only. -/
theorem combinePermissions_truths (p : Obj) : ∀ members : Obj,
    combinePermissions (truthsMembers p) (truthsMembers members) =
      (combinePermissions p members).map truthsMembers
  | [] => by rw [truthsMembers, combinePermissions, combinePermissions, Option.map_some]
  | (key, value) :: rest => by
      rw [truthsMembers, combinePermissions, combinePermissions, lookup_truthsMembers,
        combineValue_truths (p.lookup key) value]
      cases hnew : combineValue (p.lookup key) value with
      | none => rfl
      | some new =>
          rw [Option.map_some, Option.bind_some, Option.bind_some, set_truthsMembers,
            combinePermissions_truths _ rest]

end

/-- A value is a dictionary where the shape has one, and none where it has a flag. -/
inductive Agrees : Shape → Json → Prop where
  | flag {value : Json} (h : value.asObj = none) : Agrees .flag value
  | dict {fields : String → Shape} {members : Obj} (hkeys : (Assoc.keys members).Nodup)
      (h : ∀ k v, members.lookup k = some v → Agrees (fields k) v) :
        Agrees (.dict fields) (.obj members)

/-- The keys of a path lead to a flag. -/
def Shape.NamesLeaf : Shape → List String → Prop
  | .flag, [] => True
  | .dict fields, k :: path => (fields k).NamesLeaf path
  | _, _ => False

/-- A tree that agrees has the shape, as truths. -/
theorem Agrees.fits {value : Json} (h : Agrees shape value) : Fits shape (truths value) := by
  induction h with
  | flag h => exact truths_leaf h ▸ Fits.flag _
  | @dict fields members hkeys _ ih =>
      rw [truths]
      refine .dict (by rwa [keys_truthsMembers]) fun k v hv => ?_
      rw [lookup_truthsMembers] at hv
      obtain ⟨w, hw, rfl⟩ := Option.map_eq_some_iff.mp hv
      exact ih k w hw

/-- Setting a member that agrees. -/
theorem Agrees.set (h : Agrees (.dict fields) (.obj p)) {key : String} {value : Json}
    (hvalue : Agrees (fields key) value) :
    Agrees (.dict fields) (.obj (Assoc.set p key value)) := by
  obtain _ | ⟨hkeys, hmembers⟩ := h
  refine .dict (Assoc.nodup_keys_set hkeys key value) fun k v hk => ?_
  rw [Assoc.lookup_set] at hk
  split_ifs at hk with hkey
  · cases hk
    exact hkey ▸ hvalue
  · exact hmembers k v hk

/-- Filling keeps the shape where the defaults have it. -/
theorem fillMissingPermissions_agrees
    (hdefaults : ∀ k v, (k, v) ∈ defaults → ∀ old, (∀ x ∈ old, Agrees (fields k) x) →
      Agrees (fields k) (fillValue old v))
    (hp : Agrees (.dict fields) (.obj p)) :
    Agrees (.dict fields) (.obj (fillMissingPermissions p defaults)) := by
  induction defaults generalizing p with
  | nil => rwa [fillMissingPermissions]
  | cons e rest ih =>
      obtain ⟨key, value⟩ := e
      rw [fillMissingPermissions]
      refine ih (fun k v hmem => hdefaults k v (List.mem_cons_of_mem _ hmem)) (hp.set ?_)
      refine hdefaults key value List.mem_cons_self _ fun x hx => ?_
      obtain _ | ⟨_, hmembers⟩ := hp
      exact hmembers key x hx

/-- Filling keeps the shape. -/
theorem Agrees.fillValue {value : Json} (h : Agrees shape value) :
    ∀ old, (∀ x ∈ old, Agrees shape x) → Agrees shape (fillValue old value) := by
  induction h with
  | @flag value hleaf =>
      intro old hold
      have hfill : Groups.fillValue old value = old.getD value := by
        cases value <;> first | rw [Groups.fillValue]; exact fun _ => Json.noConfusion | cases hleaf
      rw [hfill]
      cases old with
      | none => exact .flag hleaf
      | some x => exact hold x rfl
  | @dict fields members hkeys hmembers ih =>
      intro old hold
      cases old with
      | none =>
          rw [Groups.fillValue]
          exact .dict hkeys hmembers
      | some x =>
          have hx := hold x rfl
          obtain _ | @⟨_, p, _, _⟩ := id hx
          rw [Groups.fillValue]
          exact fillMissingPermissions_agrees
            (fun k v hmem => ih k v (Assoc.lookup_of_mem hkeys hmem)) hx

/-- On a tree of the shape a key that names a leaf is looked up without raising. -/
theorem Agrees.getPermission {value : Json} (h : Agrees shape value)
    (hleaf : shape.NamesLeaf path) :
    ∃ granted, getPermission value path = some granted ∧
      (granted = false ↔ reads path (truths value) ≤ false) := by
  induction path generalizing shape value with
  | nil =>
      obtain hflag | _ := h
      · refine ⟨value.truthy, by rw [Groups.getPermission], ?_⟩
        rw [truths_leaf hflag, reads, WithBot.coe_le_coe]
        cases value.truthy <;> decide
      · exact hleaf.elim
  | cons key path ih =>
      obtain _ | @⟨fields, members, _, hmembers⟩ := h
      · exact hleaf.elim
      · rw [truths, reads_cons, lookup_truthsMembers, Groups.getPermission]
        cases hlookup : members.lookup key with
        | none => exact ⟨false, rfl, by simp⟩
        | some v => exact ih (hmembers key v hlookup) hleaf

/-! ## The two answers -/

variable {groups : List (String × Group)}

section Answers

variable {defaultUserPermissions defaultPermissions : Obj} {userGroups : List (String × Group)}
    {permissionKey : String}

end Answers

end OpenWebUI.Groups
