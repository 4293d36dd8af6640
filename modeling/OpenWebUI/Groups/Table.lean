import OpenWebUI.Lib.Json
import OpenWebUI.Lib.Recursive

/-! # Groups and memberships

The tables behind access control: groups with their parent links, memberships, users and
access grants. The recursive queries climb from groups to ancestors and descend from
groups to descendants; both views of inherited membership are built on them.
-/

namespace OpenWebUI.Groups

open Py

/-- `data` of a group: `config`, where the default models are, and the rest. -/
structure GroupData where
  config : Option Obj
  rest : Obj

structure Group where
  parentGroupId : Option String
  userId : String
  name : String
  description : String
  data : Option GroupData
  permissions : Option Obj
  createdAt : ℤ
  updatedAt : ℤ

structure GroupMember where
  groupId : String
  userId : String
deriving DecidableEq

inductive PrincipalType where
  | user
  | group
  | anyone
  | other (name : String)
deriving DecidableEq

structure AccessGrant where
  resourceType : String
  resourceId : String
  principalType : PrincipalType
  principalId : String
  permission : String
deriving DecidableEq

structure User where
  role : String

/-- The tables. Groups and users are known by their ids. -/
structure Store where
  groups : Dict String Group
  members : List GroupMember
  grants : List AccessGrant
  users : Dict String User

/-- `group.permissions or {}`. -/
def groupPermissions (group : Group) : Json := .obj (group.permissions.getD [])

/-- `parent_group_id` of the group, if there is such a group and it has a parent. -/
def Store.parent (s : Store) (id : String) : Option String :=
  (s.groups.get? id).bind Group.parentGroupId

/-- The groups whose parent is the given one. -/
def Store.children (s : Store) (id : String) : List String :=
  s.groups.keys.filter fun g => s.parent g = some id

/-! ## Recursive queries -/

/-- `ancestor_groups`: the groups and everything above them. -/
def ancestorGroups (s : Store) (groupIds : List String) : List String :=
  let base := s.groups.keys.filter (· ∈ groupIds)
  Recursive.recursiveUnion (fun g => (s.parent g).toList) (base.length + s.groups.size) base

/-- `descendant_groups`: each group with everything below it. -/
def descendantGroups (s : Store) (groupIds : List String) : List (String × String) :=
  let base := (s.groups.keys.filter (· ∈ groupIds)).map fun g => (g, g)
  Recursive.recursiveUnion (fun row => (s.children row.2).map (row.1, ·))
    (base.length + base.length * s.groups.size) base

/-- `user_group_memberships`: rows of a user and a group. -/
def userGroupMemberships (s : Store) (userIds : List String) (includeInherited : Bool) :
    List (String × String) :=
  let direct := (s.members.filter (·.userId ∈ userIds)).map fun m => (m.userId, m.groupId)
  if includeInherited then
    Recursive.recursiveUnion (fun row => (s.parent row.2).toList.map (row.1, ·))
      (direct.length + direct.length * s.groups.size) direct
  else direct

/-- `group_user_memberships`: rows of a group and a user. -/
def groupUserMemberships (s : Store) (groupIds : List String) (includeInherited : Bool) :
    List (String × String) :=
  if includeInherited then
    ((descendantGroups s groupIds).flatMap fun row =>
      (s.members.filter (·.groupId = row.2)).map fun m => (row.1, m.userId)).dedup
  else (s.members.filter (·.groupId ∈ groupIds)).map fun m => (m.groupId, m.userId)

/-! ## Views -/

/-- `ORDER BY updated_at DESC, id`. -/
def newestFirst (a b : String × Group) : Prop :=
  b.2.updatedAt < a.2.updatedAt ∨ a.2.updatedAt = b.2.updatedAt ∧ a.1 ≤ b.1

instance : DecidableRel newestFirst := fun _ _ => inferInstanceAs (Decidable (_ ∨ _))

/-- `get_groups_by_member_ids`: the groups of each user, with their ids. -/
def getGroupsByMemberIds (s : Store) (userIds : List String) (includeInherited : Bool) :
    List (String × List (String × Group)) :=
  let rows := userGroupMemberships s userIds includeInherited
  userIds.map fun uid =>
    (uid, ((rows.filter (·.1 = uid)).filterMap fun row =>
      (s.groups.get? row.2).map (row.2, ·)).insertionSort newestFirst)

/-- `get_groups_by_member_id`. -/
def getGroupsByMemberId (s : Store) (userId : String) (includeInherited : Bool) :
    List (String × Group) :=
  ((getGroupsByMemberIds s [userId] includeInherited).lookup userId).getD []

/-- `get_group_user_ids_by_ids`: the users of each group. -/
def getGroupUserIdsByIds (s : Store) (groupIds : List String) (includeInherited : Bool) :
    List (String × List String) :=
  let rows := groupUserMemberships s groupIds includeInherited
  groupIds.map fun gid => (gid, (rows.filter (·.1 = gid)).map Prod.snd)

/-- `get_group_user_ids_by_id`. -/
def getGroupUserIdsById (s : Store) (groupId : String) (includeInherited : Bool) : List String :=
  ((getGroupUserIdsByIds s [groupId] includeInherited).lookup groupId).getD []

end OpenWebUI.Groups
