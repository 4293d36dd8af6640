import OpenWebUI.Groups.Table
import OpenWebUI.Lib.Transition

/-! # Group operations

Each operation is one transaction. It returns the tables as it leaves them and the
users whose sessions it refreshes.
-/

namespace OpenWebUI.Groups

open Py

structure GroupHierarchyError where
  message : String
  statusCode : ℕ
deriving DecidableEq, Repr

/-- A group form. `parentGroupId` is `none` when the field is not set. -/
structure GroupForm where
  parentGroupId : Option (Option String)
  name : String
  description : String
  permissions : Option Obj
  data : Option GroupData

/-- What a transaction leaves: the tables and the users to refresh. -/
abbrev Outcome := Except GroupHierarchyError (Store × List String)

def notFound : GroupHierarchyError := ⟨"Group not found.", 404⟩

def validateParent (s : Store) (groupId parentId : Option String) :
    Except GroupHierarchyError Unit :=
  match parentId with
  | none => .ok ()
  | some p =>
      if p = "" then .error ⟨"Parent group must be a group ID or null.", 400⟩
      else if p ∉ s.groups then .error ⟨"Parent group not found.", 404⟩
      else if (ancestorGroups s [p]).any fun a => groupId = some a then
        .error ⟨"A group cannot be its own parent or a descendant of itself.", 400⟩
      else .ok ()

/-- `group_default_models`. -/
def groupDefaultModels (data : Option GroupData) : Json :=
  let models := Obj.get ((data.bind GroupData.config).getD []) "default_models"
  if models.truthy then models else .null

/-- `_ensure_default_share_config`. -/
def ensureDefaultShareConfig (share : Json) (data : Option GroupData) : GroupData :=
  let data := data.getD ⟨none, []⟩
  let config := data.config.getD []
  { data with config := some (if Assoc.has config "share" then config
      else Assoc.set config "share" share) }

/-- The group is stored under a fresh id. -/
def insertNewGroup (share : Json) (userId : String) (form : GroupForm) (id : String) (now : ℤ)
    (s : Store) : Outcome := do
  validateParent s none form.parentGroupId.join
  if id ∈ s.groups then .error ⟨"UNIQUE constraint failed: group.id", 500⟩
  else
    let group : Group :=
      { parentGroupId := form.parentGroupId.join, userId := userId, name := form.name
        description := form.description, data := some (ensureDefaultShareConfig share form.data)
        permissions := form.permissions, createdAt := now, updatedAt := now }
    .ok ({ s with groups := s.groups.set id group }, [])

/-- `{**old_data, **new_data, 'config': {…}}`. -/
def mergeData (old : Option GroupData) (new : GroupData) : GroupData :=
  { config := some (Assoc.update ((old.bind GroupData.config).getD []) (new.config.getD []))
    rest := Assoc.update ((old.map GroupData.rest).getD []) new.rest }

/-- `values['permissions'] != group.permissions`. -/
def permissionsChanged (new old : Option Obj) : Bool :=
  match new with
  | none => false
  | some p => match old with
    | none => true
    | some q => !Json.pyEq (.obj p) (.obj q)

/-- A parent is checked when the form sets the field. -/
def checkParent (s : Store) (id : String) (form : GroupForm) : Except GroupHierarchyError Unit :=
  match form.parentGroupId with
  | none => .ok ()
  | some p => validateParent s (some id) p

def updateGroupById (id : String) (form : GroupForm) (now : ℤ) (s : Store) : Outcome := do
  match s.groups.get? id with
  | none => .error notFound
  | some group =>
      checkParent s id form
      let parent := form.parentGroupId.getD group.parentGroupId
      let data := form.data.map (mergeData group.data)
      let defaultsChanged := data.isSome &&
        !Json.pyEq (groupDefaultModels data) (groupDefaultModels group.data)
      let parentChanged : Bool := parent ≠ group.parentGroupId
      let affected :=
        if parentChanged || defaultsChanged || permissionsChanged form.permissions group.permissions
        then getGroupUserIdsById s id true else []
      let group' : Group :=
        { group with
          parentGroupId := parent, name := form.name, description := form.description
          data := data.or group.data, permissions := form.permissions.or group.permissions
          updatedAt := now }
      .ok ({ s with groups := s.groups.set id group' }, affected)

/-- Children move up to the parent of the deleted group. -/
def deleteGroupById (id : String) (now : ℤ) (s : Store) : Outcome :=
  match s.groups.get? id with
  | none => .error notFound
  | some group =>
      let promoted := s.groups.mapVal fun _ g =>
        if g.parentGroupId = some id then
          { g with parentGroupId := group.parentGroupId, updatedAt := now }
        else g
      .ok ({ s with
          groups := promoted.erase id
          members := s.members.filter (·.groupId ≠ id)
          grants := s.grants.filter fun a => ¬ (a.principalType = .group ∧ a.principalId = id) },
        getGroupUserIdsById s id true)

def deleteAllGroups (s : Store) : Outcome :=
  .ok ({ s with
      groups := ∅
      members := []
      grants := s.grants.filter (·.principalType ≠ .group) },
    (s.members.map GroupMember.userId).dedup)

/-- `updated_at = now` for some groups. -/
def touch (ids : List String) (now : ℤ) (s : Store) : Store :=
  { s with
    groups := s.groups.mapVal fun id g => if id ∈ ids then { g with updatedAt := now } else g }

/-- The direct members of a group. -/
def directMembers (s : Store) (id : String) : List String :=
  (s.members.filter (·.groupId = id)).map GroupMember.userId

/-- `xs ^ ys` of two sets. -/
def symmDiff (xs ys : List String) : List String :=
  xs.filter (· ∉ ys) ++ ys.filter (· ∉ xs)

def setGroupUserIdsById (id : String) (userIds : List String) (now : ℤ) (s : Store) : Outcome :=
  if id ∉ s.groups then .error notFound
  else
    let previous := directMembers s id
    let requested := userIds.dedup
    let kept := s.members.filter fun m => ¬ (m.groupId = id ∧ m.userId ∉ requested)
    let added := (requested.filter (· ∉ previous)).map fun u => ⟨id, u⟩
    .ok (touch [id] now { s with members := kept ++ added }, symmDiff previous requested)

def addUsersToGroup (id : String) (userIds : List String) (now : ℤ) (s : Store) : Outcome :=
  if id ∉ s.groups then .error notFound
  else
    let added := userIds.dedup.filter (· ∉ directMembers s id)
    .ok (touch [id] now { s with members := s.members ++ added.map fun u => ⟨id, u⟩ }, added)

def removeUsersFromGroup (id : String) (userIds : List String) (now : ℤ) (s : Store) : Outcome :=
  if id ∉ s.groups then .error notFound
  else
    let removed := (directMembers s id).filter (· ∈ userIds)
    let kept := s.members.filter fun m => ¬ (m.groupId = id ∧ m.userId ∈ removed)
    .ok (touch [id] now { s with members := kept }, removed)

/-- The direct groups of a user. -/
def directGroups (s : Store) (userId : String) : List String :=
  (s.members.filter (·.userId = userId)).map GroupMember.groupId

def removeUserFromAllGroups (userId : String) (now : ℤ) (s : Store) : Outcome :=
  .ok (touch (directGroups s userId) now
      { s with members := s.members.filter (·.userId ≠ userId) }, [userId])

/-- One group of `create_groups_by_group_names`, which commits each group by itself and skips the
names it found in use. -/
def createGroupByName (share : Json) (userId name id : String) (now : ℤ) (inUse : List String)
    (s : Store) : Outcome :=
  if name ∈ inUse ∨ id ∈ s.groups then .ok (s, [])
  else
    let group : Group :=
      { parentGroupId := none, userId := userId, name := name, description := ""
        data := some ⟨some [("share", share)], []⟩, permissions := none
        createdAt := now, updatedAt := now }
    .ok ({ s with groups := s.groups.set id group }, [])

/-- The groups with one of the names. -/
def groupsNamed (s : Store) (names : List String) : List String :=
  (s.groups.entries.filter fun e => e.2.name ∈ names).map Prod.fst

def syncGroupsByGroupNames (userId : String) (names : List String) (now : ℤ)
    (s : Store) : Outcome :=
  let target := groupsNamed s names
  let previous := directGroups s userId
  let kept := s.members.filter fun m => ¬ (m.userId = userId ∧ m.groupId ∉ target)
  let added := (target.filter (· ∉ previous)).map fun g => ⟨g, userId⟩
  let changed := symmDiff previous target
  .ok (touch changed now { s with members := kept ++ added },
    if changed.isEmpty then [] else [userId])

/-! ## The system -/

inductive Operation where
  | insert (userId : String) (form : GroupForm) (id : String) (now : ℤ)
  | update (id : String) (form : GroupForm) (now : ℤ)
  | delete (id : String) (now : ℤ)
  | deleteAll
  | setUsers (id : String) (userIds : List String) (now : ℤ)
  | addUsers (id : String) (userIds : List String) (now : ℤ)
  | removeUsers (id : String) (userIds : List String) (now : ℤ)
  | removeUser (userId : String) (now : ℤ)
  | createNamed (userId name id : String) (now : ℤ) (inUse : List String)
  | sync (userId : String) (names : List String) (now : ℤ)

def Operation.apply (share : Json) : Operation → Store → Outcome
  | .insert userId form id now => insertNewGroup share userId form id now
  | .update id form now => updateGroupById id form now
  | .delete id now => deleteGroupById id now
  | .deleteAll => deleteAllGroups
  | .setUsers id userIds now => setGroupUserIdsById id userIds now
  | .addUsers id userIds now => addUsersToGroup id userIds now
  | .removeUsers id userIds now => removeUsersFromGroup id userIds now
  | .removeUser userId now => removeUserFromAllGroups userId now
  | .createNamed userId name id now inUse => createGroupByName share userId name id now inUse
  | .sync userId names now => syncGroupsByGroupNames userId names now

/-- A step: an operation that goes through. A rejected one is rolled back. -/
def Step (share : Json) (op : Operation) (s s' : Store) : Prop :=
  ∃ affected, op.apply share s = .ok (s', affected)

/-- No group and no membership yet. -/
def Store.Fresh (s : Store) : Prop := s.groups = ∅ ∧ s.members = []

def Reachable (share : Json) : Store → Prop := Transition.Reachable Store.Fresh (Step share)

end OpenWebUI.Groups
