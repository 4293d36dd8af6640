import OpenWebUI.Groups.DefaultModels
import OpenWebUI.Groups.Membership

/-! # What a group operation can do

Every operation that goes through has one of six effects on the tables: nothing, a group
is created, one is updated, one is deleted and its children move up, all are deleted, or
memberships change.
-/

namespace OpenWebUI.Groups

open Py Relation

variable {share : Json} {s s' : Store} {op : Operation} {affected : List String}

/-- The tables after a group was deleted and its children have the given parent. -/
def withoutGroup (s : Store) (id : String) (parent : Option String) (now : ℤ) : Store :=
  { s with
      groups := (s.groups.mapVal fun _ g =>
        if g.parentGroupId = some id then { g with parentGroupId := parent, updatedAt := now }
        else g).erase id
      members := s.members.filter (·.groupId ≠ id)
      grants := s.grants.filter fun a => ¬ (a.principalType = .group ∧ a.principalId = id) }

/-- The tables without groups. -/
def withoutGroups (s : Store) : Store :=
  { s with
      groups := ∅
      members := []
      grants := s.grants.filter (·.principalType ≠ .group) }

/-- Versions of a group that give the same access. -/
structure SameAccess (group group' : Group) : Prop extends SameDefaults group group' where
  permissions : Json.pyEq (groupPermissions group) (groupPermissions group') = true

/-- The effects of operations on the tables, with the users they refresh. -/
inductive Effect (s : Store) : Store → List String → Prop where
  | unchanged : Effect s s []
  | created {id : String} {group : Group} (hfresh : id ∉ s.groups)
      (hparent : ∀ p, group.parentGroupId = some p → p ∈ s.groups) :
      Effect s { s with groups := s.groups.set id group } []
  | updated {id : String} {group group' : Group} {affected : List String}
      (hget : s.groups.get? id = some group)
      (hparent : group'.parentGroupId = group.parentGroupId ∨
        ∀ p, group'.parentGroupId = some p →
          p ∈ s.groups ∧ ¬ ReflTransGen (Forest.Up s.parent) p id)
      (haffected : affected = getGroupUserIdsById s id true ∨ SameAccess group' group) :
      Effect s { s with groups := s.groups.set id group' } affected
  | deleted {id : String} {group : Group} {now : ℤ} (hget : s.groups.get? id = some group) :
      Effect s (withoutGroup s id group.parentGroupId now) (getGroupUserIdsById s id true)
  | cleared : Effect s (withoutGroups s) (s.members.map GroupMember.userId).dedup
  | membership {ids : List String} {now : ℤ} {members : List GroupMember} {affected : List String}
      (hgroups : ∀ m ∈ members, m ∈ s.members ∨ m.groupId ∈ s.groups)
      (hframe : ∀ m : GroupMember, m.userId ∉ affected → (m ∈ members ↔ m ∈ s.members)) :
      Effect s (touch ids now { s with members := members }) affected

/-! ## Checks -/

/-- What a check of the parent that goes through says. -/
theorem validateParent_ok {groupId : Option String} {p : String} {r : Unit}
    (h : validateParent s groupId (some p) = .ok r) :
    p ∈ s.groups ∧ ∀ id, groupId = some id → ¬ ReflTransGen (Forest.Up s.parent) p id := by
  unfold validateParent at h
  dsimp only at h
  split_ifs at h with hempty hmem hany
  have hp : p ∈ s.groups := hmem
  refine ⟨hp, ?_⟩
  rintro id rfl hpath
  apply hany
  rw [List.any_eq_true]
  exact ⟨id, mem_ancestorGroups.mpr ⟨p, List.mem_singleton_self p, hp, hpath⟩, decide_eq_true rfl⟩

/-- Permissions that did not change are equal. -/
theorem pyEq_of_permissionsChanged {new old : Option Obj} (h : permissionsChanged new old = false) :
    Json.pyEq (.obj ((new.or old).getD [])) (.obj (old.getD [])) = true := by
  cases new with
  | none => exact Json.pyEq_refl _
  | some p =>
      cases old with
      | none => cases h
      | some q => simpa [permissionsChanged] using h

/-! ## Memberships -/

theorem mem_directMembers {id u : String} : u ∈ directMembers s id ↔ ⟨id, u⟩ ∈ s.members := by
  simp only [directMembers, List.mem_map, List.mem_filter, decide_eq_true_eq]
  constructor
  · rintro ⟨m, ⟨hm, rfl⟩, rfl⟩
    exact hm
  · intro h
    exact ⟨⟨id, u⟩, ⟨h, rfl⟩, rfl⟩

theorem mem_directGroups {id u : String} : id ∈ directGroups s u ↔ ⟨id, u⟩ ∈ s.members := by
  simp only [directGroups, List.mem_map, List.mem_filter, decide_eq_true_eq]
  constructor
  · rintro ⟨m, ⟨hm, rfl⟩, rfl⟩
    exact hm
  · intro h
    exact ⟨⟨id, u⟩, ⟨h, rfl⟩, rfl⟩

theorem mem_symmDiff {xs ys : List String} {x : String} :
    x ∈ symmDiff xs ys ↔ x ∈ xs ∧ x ∉ ys ∨ x ∈ ys ∧ x ∉ xs := by
  simp [symmDiff]

theorem mem_groupsNamed {names : List String} {id : String} (h : id ∈ groupsNamed s names) :
    id ∈ s.groups := by
  obtain ⟨⟨k, group⟩, he, rfl⟩ := List.mem_map.mp h
  exact Dict.mem_of_get? ((Dict.mem_entries_iff _ _ _).mp (List.mem_filter.mp he).1)

/-! ## Each operation -/

/-- What `insert_new_group` does to the groups. -/
theorem insertNewGroup_ok {userId id : String} {form : GroupForm} {now : ℤ}
    (h : insertNewGroup share userId form id now s = .ok (s', affected)) :
    Effect s s' affected := by
  unfold insertNewGroup at h
  cases hparent : validateParent s none form.parentGroupId.join with
  | error e =>
      rw [hparent] at h
      cases h
  | ok r =>
      rw [hparent] at h
      change (if id ∈ s.groups then _ else _) = _ at h
      split_ifs at h with hid
      cases h
      refine .created hid fun p hp => ?_
      change form.parentGroupId.join = some p at hp
      rw [hp] at hparent
      exact (validateParent_ok hparent).1

/-- What `create_group_by_name` does to the groups. -/
theorem createGroupByName_ok {userId name id : String} {now : ℤ} {inUse : List String}
    (h : createGroupByName share userId name id now inUse s = .ok (s', affected)) :
    Effect s s' affected := by
  unfold createGroupByName at h
  split_ifs at h with hskip
  · cases h
    exact .unchanged
  · cases h
    exact .created (fun hid => hskip (.inr hid)) fun p hp => by cases hp

/-- What `update_group_by_id` does to the groups. -/
theorem updateGroupById_ok {id : String} {form : GroupForm} {now : ℤ}
    (h : updateGroupById id form now s = .ok (s', affected)) : Effect s s' affected := by
  unfold updateGroupById at h
  cases hget : s.groups.get? id with
  | none =>
      rw [hget] at h
      cases h
  | some group =>
      rw [hget] at h
      cases hok : checkParent s id form with
      | error e =>
          rw [hok] at h
          cases h
      | ok r =>
          rw [hok] at h
          change Except.ok _ = _ at h
          cases h
          -- the parent the update asks for, if any, passed its check
          have hparent : form.parentGroupId.getD group.parentGroupId = group.parentGroupId ∨
              ∀ p, form.parentGroupId.getD group.parentGroupId = some p →
                p ∈ s.groups ∧ ¬ ReflTransGen (Forest.Up s.parent) p id := by
            cases hform : form.parentGroupId with
            | none => exact .inl rfl
            | some q =>
                right
                rintro p rfl
                rw [checkParent, hform] at hok
                have := validateParent_ok hok
                exact ⟨this.1, this.2 id rfl⟩
          refine .updated hget hparent ?_
          split_ifs with hcond
          · exact .inl rfl
          · right
            simp only [Bool.or_eq_true, not_or, Bool.not_eq_true] at hcond
            obtain ⟨⟨hsame, hdefaults⟩, hperms⟩ := hcond
            refine ⟨⟨?_, rfl, ?_⟩, pyEq_of_permissionsChanged hperms⟩
            · simpa using hsame
            · cases hdata : form.data with
              | none => exact Json.pyEq_refl _
              | some data => simpa [hdata] using hdefaults

/-- What `delete_group_by_id` does to the groups. -/
theorem deleteGroupById_ok {id : String} {now : ℤ}
    (h : deleteGroupById id now s = .ok (s', affected)) : Effect s s' affected := by
  unfold deleteGroupById at h
  cases hget : s.groups.get? id with
  | none =>
      rw [hget] at h
      cases h
  | some group =>
      rw [hget] at h
      cases h
      exact .deleted hget

/-- What `delete_all_groups` does to the groups. -/
theorem deleteAllGroups_ok (h : deleteAllGroups s = .ok (s', affected)) : Effect s s' affected := by
  cases h
  exact .cleared

/-- What `set_group_user_ids_by_id` does to the groups. -/
theorem setGroupUserIdsById_ok {id : String} {userIds : List String} {now : ℤ}
    (h : setGroupUserIdsById id userIds now s = .ok (s', affected)) : Effect s s' affected := by
  unfold setGroupUserIdsById at h
  split_ifs at h with hid
  cases h
  refine .membership ?_ ?_
  · intro m hm
    rcases List.mem_append.mp hm with hm | hm
    · exact .inl (List.mem_filter.mp hm).1
    · obtain ⟨u, -, rfl⟩ := List.mem_map.mp hm
      exact .inr hid
  · rintro ⟨g, u⟩ hu
    simp only [mem_symmDiff, mem_directMembers, List.mem_dedup] at hu
    simp only [List.mem_append, List.mem_filter, List.mem_map, decide_eq_true_eq, List.mem_dedup,
      mem_directMembers, GroupMember.mk.injEq]
    constructor
    · rintro (⟨hm, -⟩ | ⟨v, ⟨hv, hnew⟩, rfl, rfl⟩)
      · exact hm
      · exact absurd (.inr ⟨hv, hnew⟩) hu
    · intro hm
      refine .inl ⟨hm, ?_⟩
      rintro ⟨rfl, hnot⟩
      exact hu (.inl ⟨hm, hnot⟩)

/-- What `add_users_to_group` does to the groups. -/
theorem addUsersToGroup_ok {id : String} {userIds : List String} {now : ℤ}
    (h : addUsersToGroup id userIds now s = .ok (s', affected)) : Effect s s' affected := by
  unfold addUsersToGroup at h
  split_ifs at h with hid
  cases h
  refine .membership ?_ ?_
  · intro m hm
    rcases List.mem_append.mp hm with hm | hm
    · exact .inl hm
    · obtain ⟨u, -, rfl⟩ := List.mem_map.mp hm
      exact .inr hid
  · intro m hu
    constructor
    · intro hm
      rcases List.mem_append.mp hm with hm | hm
      · exact hm
      · obtain ⟨u, hadded, rfl⟩ := List.mem_map.mp hm
        exact absurd hadded hu
    · exact fun hm => List.mem_append_left _ hm

/-- What `remove_users_from_group` does to the groups. -/
theorem removeUsersFromGroup_ok {id : String} {userIds : List String} {now : ℤ}
    (h : removeUsersFromGroup id userIds now s = .ok (s', affected)) : Effect s s' affected := by
  unfold removeUsersFromGroup at h
  split_ifs at h with hid
  cases h
  refine .membership ?_ ?_
  · exact fun m hm => .inl (List.mem_filter.mp hm).1
  · intro m hu
    constructor
    · exact fun hm => (List.mem_filter.mp hm).1
    · exact fun hm => List.mem_filter.mpr ⟨hm, decide_eq_true fun hremoved => hu hremoved.2⟩

/-- What `remove_user_from_all_groups` does to the groups. -/
theorem removeUserFromAllGroups_ok {userId : String} {now : ℤ}
    (h : removeUserFromAllGroups userId now s = .ok (s', affected)) : Effect s s' affected := by
  cases h
  refine .membership ?_ ?_
  · exact fun m hm => .inl (List.mem_filter.mp hm).1
  · intro m hu
    constructor
    · exact fun hm => (List.mem_filter.mp hm).1
    · refine fun hm => List.mem_filter.mpr ⟨hm, decide_eq_true ?_⟩
      rintro rfl
      exact hu (List.mem_singleton_self _)

/-- What `sync_groups_by_group_names` does to the groups. -/
theorem syncGroupsByGroupNames_ok {userId : String} {names : List String} {now : ℤ}
    (h : syncGroupsByGroupNames userId names now s = .ok (s', affected)) :
    Effect s s' affected := by
  cases h
  refine .membership ?_ ?_
  · intro m hm
    rcases List.mem_append.mp hm with hm | hm
    · exact .inl (List.mem_filter.mp hm).1
    · obtain ⟨g, hg, rfl⟩ := List.mem_map.mp hm
      exact .inr (mem_groupsNamed (List.mem_filter.mp hg).1)
  · rintro ⟨g, u⟩ hu
    simp only [List.mem_append, List.mem_filter, List.mem_map, decide_eq_true_eq,
      mem_directGroups, GroupMember.mk.injEq]
    by_cases howner : u = userId
    · -- nobody is refreshed, so the user's groups are already the target
      subst howner
      split_ifs at hu with hchanged
      · have hnone : ∀ g, ¬ (g ∈ directGroups s u ∧ g ∉ groupsNamed s names ∨
            g ∈ groupsNamed s names ∧ g ∉ directGroups s u) := by
          intro g hg
          rw [← mem_symmDiff, List.isEmpty_iff.mp hchanged] at hg
          exact List.not_mem_nil hg
        constructor
        · rintro (⟨hm, -⟩ | ⟨v, ⟨hv, hnew⟩, rfl, -⟩)
          · exact hm
          · exact absurd (.inr ⟨hv, fun hd => hnew (mem_directGroups.mp hd)⟩) (hnone v)
        · intro hm
          refine .inl ⟨hm, ?_⟩
          rintro ⟨-, hnot⟩
          exact hnone g (.inl ⟨mem_directGroups.mpr hm, hnot⟩)
      · exact absurd (List.mem_singleton_self u) hu
    · constructor
      · rintro (⟨hm, -⟩ | ⟨v, -, -, rfl⟩)
        · exact hm
        · exact absurd rfl howner
      · exact fun hm => .inl ⟨hm, fun hother => howner hother.1⟩

/-- Every operation that goes through has one of the effects. -/
theorem effect_of_apply (h : op.apply share s = .ok (s', affected)) : Effect s s' affected := by
  cases op with
  | insert => exact insertNewGroup_ok h
  | update => exact updateGroupById_ok h
  | delete => exact deleteGroupById_ok h
  | deleteAll => exact deleteAllGroups_ok h
  | setUsers => exact setGroupUserIdsById_ok h
  | addUsers => exact addUsersToGroup_ok h
  | removeUsers => exact removeUsersFromGroup_ok h
  | removeUser => exact removeUserFromAllGroups_ok h
  | createNamed => exact createGroupByName_ok h
  | sync => exact syncGroupsByGroupNames_ok h

end OpenWebUI.Groups
