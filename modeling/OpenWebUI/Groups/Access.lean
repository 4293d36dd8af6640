import OpenWebUI.Groups.Membership

/-! # Access checks

Access to a resource is decided in four places: for one user and one resource, for one
user and many resources, for all users of a resource, and for the users a change of
grants takes it from. All four denote one relation between users and lists of grants.
-/

namespace OpenWebUI.Groups

open Py Relation

/-- The condition of both queries: a grant to everybody, to the user, or to one of the groups. -/
def AccessGrant.matchesUser (g : AccessGrant) (userId : String) (groupIds : List String) : Bool :=
  decide (g.principalType = .user ∧ g.principalId = "*") ||
    decide (g.principalType = .user ∧ g.principalId = userId) ||
    decide (g.principalType = .group ∧ g.principalId ∈ groupIds)

/-- `user_group_ids`, computed when it is not given. -/
def userGroupIds (s : Store) (userId : String) (given : Option (List String)) : List String :=
  given.getD ((getGroupsByMemberId s userId true).map Prod.fst)

def hasAccess (s : Store) (userId resourceType resourceId permission : String)
    (given : Option (List String)) : Bool :=
  s.grants.any fun g => decide (g.resourceType = resourceType) &&
    decide (g.resourceId = resourceId) &&
    decide (g.permission = permission) && g.matchesUser userId (userGroupIds s userId given)

def getAccessibleResourceIds (s : Store) (userId resourceType : String) (resourceIds : List String)
    (permission : String) (given : Option (List String)) : List String :=
  if resourceIds = [] then []
  else ((s.grants.filter fun g =>
    decide (g.resourceType = resourceType) && decide (g.resourceId ∈ resourceIds) &&
      decide (g.permission = permission) &&
      g.matchesUser userId (userGroupIds s userId given)).map AccessGrant.resourceId).dedup

def getGrantsByResource (s : Store) (resourceType resourceId : String) : List AccessGrant :=
  s.grants.filter fun g => g.resourceType = resourceType ∧ g.resourceId = resourceId

/-- `Users.get_users` with the roles `['!pending']`. -/
def notPending (s : Store) : List String :=
  (s.users.entries.filter fun e => e.2.role ≠ "pending").map Prod.fst

/-- The principals of the grants with the permission: users and groups, or nothing when one
of them is everybody. -/
def principalsOf (permission : String) :
    List AccessGrant → List String → List String → Option (List String × List String)
  | [], userIds, groupIds => some (userIds, groupIds)
  | g :: grants, userIds, groupIds =>
      if g.permission ≠ permission then principalsOf permission grants userIds groupIds
      else match g.principalType with
        | .user =>
            if g.principalId = "*" then none
            else principalsOf permission grants (userIds ++ [g.principalId]) groupIds
        | .group => principalsOf permission grants userIds (groupIds ++ [g.principalId])
        | _ => principalsOf permission grants userIds groupIds

def getUserIdsByAccessGrants (s : Store) (grants : List AccessGrant) (permission : String) :
    List String :=
  match principalsOf permission grants [] [] with
  | none => notPending s
  | some (userIds, groupIds) =>
      if groupIds = [] then userIds.dedup
      else (userIds ++ (getGroupUserIdsByIds s groupIds true).flatMap Prod.snd).dedup

def getUsersWithAccess (s : Store) (resourceType resourceId permission : String) :
    List (String × User) :=
  let grants := (getGrantsByResource s resourceType resourceId).filter (·.permission = permission)
  let userIds := getUserIdsByAccessGrants s grants permission
  if userIds = [] then [] else s.users.entries.filter (·.1 ∈ userIds)

/-- The principals with the permission, as pairs. -/
def principalPairs (grants : List AccessGrant) (permission : String) :
    List (PrincipalType × String) :=
  (grants.filter (·.permission = permission)).map fun g => (g.principalType, g.principalId)

def getRevokedUserIdsByResource (s : Store) (resourceType resourceId : String)
    (previous : List AccessGrant) (permission : String) : List String :=
  let grants := getGrantsByResource s resourceType resourceId
  let previousPrincipals := principalPairs previous permission
  let principals := principalPairs grants permission
  if previousPrincipals ⊆ principals ∨ (PrincipalType.user, "*") ∈ principals then []
  else (getUserIdsByAccessGrants s previous permission).filter
    (· ∉ getUserIdsByAccessGrants s grants permission)

/-! ## The relation -/

variable {s : Store} {u r resourceType permission : String} {grants : List AccessGrant}

/-- A principal stands for the user. -/
def Stands (s : Store) (u : String) : PrincipalType × String → Prop
  | (.user, id) => id = "*" ∨ id = u
  | (.group, id) => Inherits s u id
  | _ => False

/-- Some grant with the permission is to a principal that stands for the user. -/
def Granted (s : Store) (grants : List AccessGrant) (permission u : String) : Prop :=
  ∃ principal ∈ principalPairs grants permission, Stands s u principal

/-- An account that is not pending. -/
def Active (s : Store) (u : String) : Prop := ∃ user, s.users.get? u = some user ∧
    user.role ≠ "pending"

/-- A grant matches a user it stands for. -/
theorem matchesUser_iff {g : AccessGrant} :
    g.matchesUser u (userGroupIds s u none) = true ↔
      Stands s u (g.principalType, g.principalId) := by
  have hgroups : ∀ id, id ∈ userGroupIds s u none ↔ Inherits s u id :=
    fun _ => mem_groupIds_getGroupsByMemberId
  unfold AccessGrant.matchesUser
  simp only [Bool.or_eq_true, decide_eq_true_eq, hgroups]
  cases g.principalType <;> simp [Stands]

/-- A permission is granted by a grant that stands for the user. -/
theorem granted_iff : Granted s grants permission u ↔
    ∃ g ∈ grants, g.permission = permission ∧ Stands s u (g.principalType, g.principalId) := by
  unfold Granted principalPairs
  constructor
  · rintro ⟨principal, hmem, hstands⟩
    obtain ⟨g, hg, rfl⟩ := List.mem_map.mp hmem
    obtain ⟨hg, hperm⟩ := List.mem_filter.mp hg
    exact ⟨g, hg, of_decide_eq_true hperm, hstands⟩
  · rintro ⟨g, hg, hperm, hstands⟩
    exact ⟨_, List.mem_map_of_mem (List.mem_filter.mpr ⟨hg, decide_eq_true hperm⟩), hstands⟩

/-! ## The two queries -/

/-- The single check is that of the grants. -/
theorem hasAccess_iff :
    hasAccess s u resourceType r permission none = true ↔
      Granted s (getGrantsByResource s resourceType r) permission u := by
  unfold hasAccess getGrantsByResource
  simp only [granted_iff, List.any_eq_true, Bool.and_eq_true, decide_eq_true_eq, matchesUser_iff,
    List.mem_filter]
  constructor
  · rintro ⟨g, hg, ⟨hres, hperm⟩, hstands⟩
    exact ⟨g, ⟨hg, hres⟩, hperm, hstands⟩
  · rintro ⟨g, ⟨hg, hres⟩, hperm, hstands⟩
    exact ⟨g, hg, ⟨hres, hperm⟩, hstands⟩

theorem mem_getAccessibleResourceIds {ids : List String} :
    r ∈ getAccessibleResourceIds s u resourceType ids permission none ↔
      r ∈ ids ∧ hasAccess s u resourceType r permission none = true := by
  unfold getAccessibleResourceIds
  split_ifs with hids
  · simp [hids]
  · simp only [hasAccess, List.mem_dedup, List.mem_map, List.mem_filter, List.any_eq_true,
      Bool.and_eq_true, decide_eq_true_eq]
    constructor
    · rintro ⟨g, ⟨hg, ⟨⟨htype, hid⟩, hperm⟩, hmatch⟩, rfl⟩
      exact ⟨hid, g, hg, ⟨⟨htype, rfl⟩, hperm⟩, hmatch⟩
    · rintro ⟨hid, g, hg, ⟨⟨htype, rfl⟩, hperm⟩, hmatch⟩
      exact ⟨g, ⟨hg, ⟨⟨htype, hid⟩, hperm⟩, hmatch⟩, rfl⟩

/-! ## From grants to users -/

theorem principalPairs_cons (g : AccessGrant) (grants : List AccessGrant) :
    principalPairs (g :: grants) permission =
      if g.permission = permission then
        (g.principalType, g.principalId) :: principalPairs grants permission
      else principalPairs grants permission := by
  unfold principalPairs
  split_ifs with h <;> simp [h]

/-- What the loop over the grants collects. -/
theorem principalsOf_spec {permission : String} (grants : List AccessGrant)
    (userIds groupIds : List String) :
    match principalsOf permission grants userIds groupIds with
    | none => (PrincipalType.user, "*") ∈ principalPairs grants permission
    | some (userIds', groupIds') =>
        (PrincipalType.user, "*") ∉ principalPairs grants permission ∧
        (∀ id, id ∈ userIds' ↔ id ∈ userIds ∨
          (PrincipalType.user, id) ∈ principalPairs grants permission) ∧
        ∀ id, id ∈ groupIds' ↔
          id ∈ groupIds ∨ (PrincipalType.group, id) ∈ principalPairs grants permission := by
  induction grants generalizing userIds groupIds with
  | nil => simp [principalsOf, principalPairs]
  | cons g grants ih =>
      rw [principalPairs_cons]
      unfold principalsOf
      by_cases hperm : g.permission = permission
      · rw [if_neg (not_not.mpr hperm), if_pos hperm]
        cases htype : g.principalType with
        | user =>
            dsimp only
            -- a grant to everybody ends the search
            by_cases hall : g.principalId = "*"
            · simp [hall]
            · rw [if_neg hall]
              have := ih (userIds ++ [g.principalId]) groupIds
              generalize principalsOf permission grants (userIds ++ [g.principalId]) groupIds =
                found at this ⊢
              cases found with
              | none => exact List.mem_cons_of_mem _ this
              | some ids =>
                  obtain ⟨hstar, husers, hgroups⟩ := this
                  refine ⟨by simp [hstar, Ne.symm hall], fun id => ?_, fun id => ?_⟩
                  · simp [husers, or_assoc]
                  · simp [hgroups]
        | group =>
            have := ih userIds (groupIds ++ [g.principalId])
            dsimp only
            generalize principalsOf permission grants userIds (groupIds ++ [g.principalId]) =
              found at this ⊢
            cases found with
            | none => exact List.mem_cons_of_mem _ this
            | some ids =>
                obtain ⟨hstar, husers, hgroups⟩ := this
                refine ⟨by simp [hstar], fun id => ?_, fun id => ?_⟩
                · simp [husers]
                · simp [hgroups, or_assoc]
        | anyone | other =>
            -- the other kinds of principals are not collected
            have := ih userIds groupIds
            dsimp only
            generalize principalsOf permission grants userIds groupIds = found at this ⊢
            cases found with
            | none => exact List.mem_cons_of_mem _ this
            | some ids => simpa using this
      · rw [if_pos hperm, if_neg hperm]
        exact ih userIds groupIds

theorem mem_getGroupUserIdsByIds {ids : List String} :
    u ∈ (getGroupUserIdsByIds s ids true).flatMap Prod.snd ↔ ∃ g ∈ ids, Inherits s u g := by
  unfold getGroupUserIdsByIds
  simp only [List.mem_flatMap, List.mem_map]
  constructor
  · rintro ⟨-, ⟨g, hg, rfl⟩, hu⟩
    obtain ⟨⟨g', u'⟩, hfiltered, rfl⟩ := List.mem_map.mp hu
    obtain ⟨hrow, hg'⟩ := List.mem_filter.mp hfiltered
    obtain rfl : g' = g := of_decide_eq_true hg'
    exact ⟨g', hg, inherits_iff.mpr (mem_groupUserMemberships.mp hrow).2⟩
  · rintro ⟨g, hg, hinherits⟩
    refine ⟨_, ⟨g, hg, rfl⟩,
      List.mem_map.mpr ⟨(g, u), List.mem_filter.mpr ⟨?_, decide_eq_true rfl⟩, rfl⟩⟩
    exact mem_groupUserMemberships.mpr ⟨hg, inherits_iff.mp hinherits⟩

theorem mem_notPending : u ∈ notPending s ↔ Active s u := by
  unfold notPending Active
  constructor
  · intro h
    obtain ⟨⟨id, user⟩, he, rfl⟩ := List.mem_map.mp h
    obtain ⟨he, hrole⟩ := List.mem_filter.mp he
    exact ⟨user, (Dict.mem_entries_iff _ _ _).mp he, of_decide_eq_true hrole⟩
  · rintro ⟨user, hget, hrole⟩
    refine List.mem_map.mpr ⟨(u, user), List.mem_filter.mpr ⟨?_, decide_eq_true hrole⟩, rfl⟩
    exact (Dict.mem_entries_iff _ _ _).mpr hget

/-- For an active user, the expansion of grants to users is the relation. -/
theorem mem_getUserIdsByAccessGrants (hu : Active s u) :
    u ∈ getUserIdsByAccessGrants s grants permission ↔ Granted s grants permission u := by
  have hspec := @principalsOf_spec permission grants [] []
  unfold getUserIdsByAccessGrants Granted
  cases hfound : principalsOf permission grants [] [] with
  | none =>
      rw [hfound] at hspec
      exact ⟨fun _ => ⟨_, hspec, .inl rfl⟩, fun _ => mem_notPending.mpr hu⟩
  | some found =>
      obtain ⟨userIds, groupIds⟩ := found
      rw [hfound] at hspec
      obtain ⟨hstar, husers, hgroups⟩ := hspec
      simp only [List.not_mem_nil, false_or] at husers hgroups
      have hmem : u ∈ (if groupIds = [] then userIds.dedup
          else (userIds ++ (getGroupUserIdsByIds s groupIds true).flatMap Prod.snd).dedup) ↔
          u ∈ userIds ∨ ∃ g ∈ groupIds, Inherits s u g := by
        split_ifs with hnil
        · simp [hnil]
        · rw [List.mem_dedup, List.mem_append, mem_getGroupUserIdsByIds]
      dsimp only
      rw [hmem, husers]
      constructor
      · rintro (huser | ⟨g, hg, hinherits⟩)
        · exact ⟨_, huser, .inr rfl⟩
        · exact ⟨_, (hgroups g).mp hg, hinherits⟩
      · rintro ⟨⟨type, id⟩, hprincipal, hstands⟩
        cases type with
        | user =>
            rcases hstands with rfl | rfl
            · exact absurd hprincipal hstar
            · exact .inl hprincipal
        | group => exact .inr ⟨id, (hgroups id).mpr hprincipal, hstands⟩
        | anyone => exact hstands.elim
        | other name => exact hstands.elim

theorem mem_getUsersWithAccess (hu : Active s u) :
    u ∈ (getUsersWithAccess s resourceType r permission).map Prod.fst ↔
      Granted s (getGrantsByResource s resourceType r) permission u := by
  have hfilter : ∀ grants : List AccessGrant,
      principalPairs (grants.filter (·.permission = permission)) permission =
        principalPairs grants permission := by
    intro grants
    unfold principalPairs
    rw [List.filter_filter]
    simp
  have hgranted :
    Granted s ((getGrantsByResource s resourceType r).filter (·.permission = permission))
      permission u ↔ Granted s (getGrantsByResource s resourceType r) permission u := by
    unfold Granted
    rw [hfilter]
  rw [← hgranted, ← mem_getUserIdsByAccessGrants hu]
  unfold getUsersWithAccess
  dsimp only
  split_ifs with hnil
  · simp [hnil]
  · constructor
    · intro h
      obtain ⟨e, he, rfl⟩ := List.mem_map.mp h
      exact of_decide_eq_true (List.mem_filter.mp he).2
    · intro h
      obtain ⟨user, hget, -⟩ := hu
      refine List.mem_map.mpr ⟨(u, user), List.mem_filter.mpr ⟨?_, decide_eq_true h⟩, rfl⟩
      exact (Dict.mem_entries_iff _ _ _).mpr hget

/-- For an active user, the users that lose access are those the relation loses. The early
return is right: principals that are all kept, or a grant to everybody, lose nobody. -/
theorem mem_getRevokedUserIdsByResource (hu : Active s u) :
    u ∈ getRevokedUserIdsByResource s resourceType r grants permission ↔
      Granted s grants permission u ∧
        ¬ Granted s (getGrantsByResource s resourceType r) permission u := by
  unfold getRevokedUserIdsByResource
  dsimp only
  split_ifs with hearly
  · simp only [List.not_mem_nil, false_iff, not_and, not_not]
    rintro ⟨principal, hmem, hstands⟩
    rcases hearly with hsub | hstar
    · exact ⟨principal, hsub hmem, hstands⟩
    · exact ⟨_, hstar, .inl rfl⟩
  · rw [List.mem_filter, decide_eq_true_eq, mem_getUserIdsByAccessGrants hu,
      mem_getUserIdsByAccessGrants hu]

/-- The tables with other grants. -/
def Store.withGrants (s : Store) (grants : List AccessGrant) : Store := { s with grants := grants }

/-- Whether something is granted does not depend on other grants. -/
theorem granted_withGrants (old : List AccessGrant) :
    Granted (s.withGrants old) grants permission u ↔ Granted s grants permission u := Iff.rfl

/-- The checks agree on every active user, for any tables and any earlier grants. -/
theorem access_checks_agree (hu : Active s u) (old : List AccessGrant) :
    (∀ ids, r ∈ ids → (hasAccess s u resourceType r permission none = true ↔
      r ∈ getAccessibleResourceIds s u resourceType ids permission none)) ∧
    (hasAccess s u resourceType r permission none = true ↔
      u ∈ (getUsersWithAccess s resourceType r permission).map Prod.fst) ∧
    (u ∈ getRevokedUserIdsByResource s resourceType r
        (getGrantsByResource (s.withGrants old) resourceType r) permission ↔
      hasAccess (s.withGrants old) u resourceType r permission none = true ∧
        ¬ hasAccess s u resourceType r permission none = true) := by
  refine ⟨fun ids hr => ?_, ?_, ?_⟩
  · rw [mem_getAccessibleResourceIds]
    exact (and_iff_right hr).symm
  · rw [hasAccess_iff, mem_getUsersWithAccess hu]
  · rw [mem_getRevokedUserIdsByResource hu, hasAccess_iff, hasAccess_iff, granted_withGrants]

/-- A note shared with a department is seen by the members of its team. -/
theorem access_checks_agree_team :
    let grant : AccessGrant := ⟨"note", "n", .group, "d", "read"⟩
    let group := fun parent => (⟨parent, "admin", "", "", none, none, 1, 1⟩ : Group)
    let s : Store :=
      { groups := (Dict.set ∅ "d" (group none)).set "t" (group (some "d"))
        members := [⟨"t", "u"⟩], grants := [grant], users := Dict.set ∅ "u" ⟨"user"⟩ }
    "u" ∈ (getUsersWithAccess s "note" "n" "read").map Prod.fst := by
  intro grant group s
  have hu : Active s "u" := ⟨⟨"user"⟩, rfl, by decide⟩
  exact (access_checks_agree hu []).2.1.mp (by decide)

end OpenWebUI.Groups
