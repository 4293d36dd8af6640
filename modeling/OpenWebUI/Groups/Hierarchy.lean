import OpenWebUI.Groups.Effects

/-! # The group hierarchy

In every reachable state the groups form a forest whose links and memberships name
existing groups. The two views of inherited membership then agree with plain
reachability along parent links.
-/

namespace OpenWebUI.Groups

open Py Relation

variable {share : Json} {s s' : Store} {op : Operation} {affected : List String}

/-- Parent links form a forest, and parent links and memberships name existing groups. -/
structure Store.WellFormed (s : Store) : Prop where
  acyclic : Forest.Acyclic s.parent
  parent_mem : ∀ {c p : String}, s.parent c = some p → p ∈ s.groups
  member_mem : ∀ {m : GroupMember}, m ∈ s.members → m.groupId ∈ s.groups

/-! ## Parent links after an edit -/

theorem parent_set (s : Store) (id : String) (group : Group) (c : String) :
    ({ s with groups := s.groups.set id group } : Store).parent c =
      if c = id then group.parentGroupId else s.parent c := by
  unfold Store.parent
  rw [Dict.get?_set]
  split_ifs <;> rfl

@[simp] theorem parent_touch (ids : List String) (now : ℤ) (s : Store) :
    (touch ids now s).parent = s.parent := by
  funext c
  simp only [Store.parent, touch, Dict.get?_mapVal]
  cases s.groups.get? c with
  | none => rfl
  | some group =>
      simp only [Option.map_some, Option.bind_some]
      split_ifs <;> rfl

@[simp] theorem mem_touch (ids : List String) (now : ℤ) (s : Store) (c : String) :
    c ∈ (touch ids now s).groups ↔ c ∈ s.groups :=
  Dict.mem_mapVal _ _ _

/-- A child of the deleted group has the new parent, the others keep theirs. -/
theorem parent_withoutGroup (s : Store) (id : String) (parent : Option String) (now : ℤ)
    (c : String) :
    (withoutGroup s id parent now).parent c =
      if c = id then none else if s.parent c = some id then parent else s.parent c := by
  unfold Store.parent withoutGroup
  rw [Dict.get?_erase, Dict.get?_mapVal]
  split_ifs with hc hparent
  · rfl
  · obtain ⟨group, hget, hgroup⟩ := Option.bind_eq_some_iff.mp hparent
    rw [hget]
    simp [hgroup]
  · cases hget : s.groups.get? c with
    | none => rfl
    | some group =>
        rw [hget, Option.bind_some] at hparent
        simp [hparent]

theorem mem_withoutGroup {id c : String} {parent : Option String} {now : ℤ} :
    c ∈ (withoutGroup s id parent now).groups ↔ c ≠ id ∧ c ∈ s.groups := by
  simp only [withoutGroup, Dict.mem_iff, Dict.get?_erase, Dict.get?_mapVal]
  split_ifs with hc <;> simp [hc]

theorem mem_set {d : Dict String Group} {id c : String} {group : Group} :
    c ∈ d.set id group ↔ c = id ∨ c ∈ d := by
  simp only [Dict.mem_iff, Dict.get?_set]
  split_ifs with hc <;> simp [hc]

/-! ## The invariant -/

/-- A store without groups is well formed. -/
theorem Store.Fresh.wellFormed (h : s.Fresh) : s.WellFormed := by
  have hparent : ∀ c, s.parent c = none := by
    intro c
    rw [Store.parent, h.1, Dict.get?_empty, Option.bind_none]
  refine ⟨?_, ?_, ?_⟩
  · intro x hx
    obtain ⟨c, hxc, -⟩ := TransGen.head'_iff.mp hx
    rw [Forest.Up, hparent] at hxc
    cases hxc
  · intro c p hp
    rw [hparent] at hp
    cases hp
  · intro m hm
    rw [h.2] at hm
    cases hm

/-- A new group below a stored one keeps the store well formed. -/
theorem WellFormed.created (hs : s.WellFormed) {id : String} {group : Group}
    (hfresh : id ∉ s.groups) (hparent : ∀ p, group.parentGroupId = some p → p ∈ s.groups) :
    ({ s with groups := s.groups.set id group } : Store).WellFormed := by
  refine ⟨?_, ?_, ?_⟩
  · -- parents exist, so a fresh group is nobody's parent
    refine hs.acyclic.add_leaf (x := id) (fun c hc => ?_) fun c hc => ?_
    · rw [parent_set] at hc
      split_ifs at hc
      · exact hfresh (hparent id hc)
      · exact hfresh (hs.parent_mem hc)
    · rw [parent_set, if_neg hc]
  · intro c p hp
    rw [parent_set] at hp
    refine mem_set.mpr (.inr ?_)
    split_ifs at hp
    · exact hparent p hp
    · exact hs.parent_mem hp
  · exact fun hm => mem_set.mpr (.inr (hs.member_mem hm))

/-- A changed group keeps the store well formed, where its parent is not below it. -/
theorem WellFormed.updated (hs : s.WellFormed) {id : String} {group group' : Group}
    (hget : s.groups.get? id = some group)
    (hparent : group'.parentGroupId = group.parentGroupId ∨ ∀ p, group'.parentGroupId = some p →
      p ∈ s.groups ∧ ¬ ReflTransGen (Forest.Up s.parent) p id) :
    ({ s with groups := s.groups.set id group' } : Store).WellFormed := by
  have hold : s.parent id = group.parentGroupId := by
    rw [Store.parent, hget, Option.bind_some]
  have hother : ∀ c, c ≠ id →
      ({ s with groups := s.groups.set id group' } : Store).parent c = s.parent c := by
    intro c hc
    rw [parent_set, if_neg hc]
  have hself : ({ s with groups := s.groups.set id group' } : Store).parent id =
      group'.parentGroupId := by
    rw [parent_set, if_pos rfl]
  refine ⟨?_, ?_, ?_⟩
  -- the parent stays, or the new one is not below the group
  · rcases hparent with hsame | hnew
    · refine hs.acyclic.mono fun c p hp => ?_
      rw [parent_set] at hp
      split_ifs at hp with hc
      · rw [hc, hold, ← hsame, hp]
      · exact hp
    · cases hp : group'.parentGroupId with
      | none =>
          refine hs.acyclic.mono fun c p hcp => ?_
          rw [parent_set, hp] at hcp
          split_ifs at hcp
          exact hcp
      | some p =>
          refine hs.acyclic.relink (hnew p hp).2 (fun q hq => ?_) hother
          rw [hself, hp] at hq
          exact (Option.some.inj hq).symm
  -- every parent is a group
  · intro c p hp
    rw [parent_set] at hp
    refine mem_set.mpr (.inr ?_)
    split_ifs at hp
    · rcases hparent with hsame | hnew
      · exact hs.parent_mem (hold.trans (hsame ▸ hp))
      · exact (hnew p hp).1
    · exact hs.parent_mem hp
  · exact fun hm => mem_set.mpr (.inr (hs.member_mem hm))

/-- A link of the remaining groups is a chain of links of the old ones: a promoted child
links to the parent of its parent. -/
theorem transGen_of_parent_withoutGroup {id : String} {group : Group} {now : ℤ}
    (hget : s.groups.get? id = some group) {c p : String}
    (hp : (withoutGroup s id group.parentGroupId now).parent c = some p) :
    TransGen (Forest.Up s.parent) c p := by
  have hold : s.parent id = group.parentGroupId := by
    rw [Store.parent, hget, Option.bind_some]
  rw [parent_withoutGroup] at hp
  split_ifs at hp with hc hchild
  · exact .head hchild (.single (hold.trans hp))
  · exact .single hp

/-- A deleted group leaves the store well formed. -/
theorem WellFormed.deleted (hs : s.WellFormed) {id : String} {group : Group} {now : ℤ}
    (hget : s.groups.get? id = some group) :
    (withoutGroup s id group.parentGroupId now).WellFormed := by
  have hold : s.parent id = group.parentGroupId := by
    rw [Store.parent, hget, Option.bind_some]
  have hlink : ∀ c p, (withoutGroup s id group.parentGroupId now).parent c = some p →
      TransGen (Forest.Up s.parent) c p := fun c p hp => transGen_of_parent_withoutGroup hget hp
  refine ⟨hs.acyclic.of_shortcut hlink, ?_, ?_⟩
  · intro c p hp
    refine mem_withoutGroup.mpr ⟨?_, ?_⟩
    · rintro rfl
      rw [parent_withoutGroup] at hp
      split_ifs at hp with hc hchild
      · exact hs.acyclic _ (.single (hold.trans hp))
      · exact hchild hp
    · obtain ⟨b, -, hb⟩ := TransGen.tail'_iff.mp (hlink c p hp)
      exact hs.parent_mem hb
  · intro m hm
    obtain ⟨hm, hid⟩ := List.mem_filter.mp hm
    exact mem_withoutGroup.mpr ⟨of_decide_eq_true hid, hs.member_mem hm⟩

/-- Members of stored groups keep the store well formed. -/
theorem WellFormed.membership (hs : s.WellFormed) {ids : List String} {now : ℤ}
    {members : List GroupMember}
    (hgroups : ∀ m ∈ members, m ∈ s.members ∨ m.groupId ∈ s.groups) :
    (touch ids now { s with members := members }).WellFormed := by
  refine ⟨?_, ?_, ?_⟩
  · rw [parent_touch]
    exact hs.acyclic
  · intro c p hp
    rw [parent_touch] at hp
    exact (mem_touch _ _ _ _).mpr (hs.parent_mem hp)
  · intro m hm
    refine (mem_touch _ _ _ _).mpr ?_
    rcases hgroups m hm with hm | hm
    · exact hs.member_mem hm
    · exact hm

/-- Every effect keeps the store well formed. -/
theorem Effect.wellFormed (h : Effect s s' affected) (hs : s.WellFormed) : s'.WellFormed := by
  cases h with
  | unchanged => exact hs
  | created hfresh hparent => exact WellFormed.created hs hfresh hparent
  | updated hget hparent => exact WellFormed.updated hs hget hparent
  | deleted hget => exact WellFormed.deleted hs hget
  | cleared => exact Store.Fresh.wellFormed ⟨rfl, rfl⟩
  | membership hgroups => exact WellFormed.membership hs hgroups

/-- Every reachable store is well formed. -/
theorem wellFormed_of_reachable (hs : Reachable share s) : s.WellFormed :=
  hs.invariant (fun _ h => h.wellFormed) fun _ _ _ ih h => by
    obtain ⟨_, happly⟩ := h
    exact (effect_of_apply happly).wellFormed ih

/-! ## The two views -/

/-- Through its groups, a member of a group reaches only existing groups. -/
theorem Store.WellFormed.mem_of_path (hs : s.WellFormed) {g₀ g : String} (hg₀ : g₀ ∈ s.groups)
    (h : ReflTransGen (Forest.Up s.parent) g₀ g) : g ∈ s.groups := by
  rcases h.cases_tail with rfl | ⟨c, -, hcg⟩
  · exact hg₀
  · exact hs.parent_mem hcg

/-- Who inherits a group is a member of one below it. -/
theorem Store.WellFormed.inherits_iff (hs : s.WellFormed) {u g : String} : Inherits s u g ↔
    ∃ g₀ ∈ directGroups s u, ReflTransGen (Forest.Up s.parent) g₀ g := by
  rw [Groups.inherits_iff]
  constructor
  · rintro ⟨-, g₀, hm, hpath⟩
    exact ⟨g₀, mem_directGroups.mpr hm, hpath⟩
  · rintro ⟨g₀, hm, hpath⟩
    have hm := mem_directGroups.mp hm
    exact ⟨hs.mem_of_path (hs.member_mem hm) hpath, g₀, hm, hpath⟩

/-- Whatever operations ran, the groups are a forest over existing groups, and the view
from users and the view from groups are both reachability from direct groups. -/
theorem hierarchy_sound (hs : Reachable share s) :
    Forest.Acyclic s.parent ∧ (∀ c p, s.parent c = some p → p ∈ s.groups) ∧
      ∀ u g, (g ∈ groupIds (getGroupsByMemberId s u true) ↔ u ∈ getGroupUserIdsById s g true) ∧
        (u ∈ getGroupUserIdsById s g true ↔
          ∃ g₀ ∈ directGroups s u, ReflTransGen (Forest.Up s.parent) g₀ g) := by
  have hwf := wellFormed_of_reachable hs
  refine ⟨hwf.acyclic, fun c p => hwf.parent_mem, fun u g => ⟨?_, ?_⟩⟩
  · exact mem_groupIds_getGroupsByMemberId.trans mem_getGroupUserIdsById.symm
  · exact mem_getGroupUserIdsById.trans hwf.inherits_iff

/-- A form that only names a group and its parent. -/
def nestedForm (name : String) (parent : Option String) : GroupForm :=
  { parentGroupId := some parent, name := name, description := "", permissions := none,
    data := none }

/-- A user in a team that hangs below a department. -/
def teamStore : Store :=
  let group := fun name parent time =>
    { parentGroupId := parent, userId := "admin", name := name, description := ""
      data := some ⟨some [("share", .bool true)], []⟩, permissions := none
      createdAt := time, updatedAt := time : Group }
  { groups := (Dict.set ∅ "d" (group "Department" none 1)).set "t"
      { group "Team" (some "d") 2 with updatedAt := 3 }
    members := [⟨"t", "u"⟩]
    grants := []
    users := ∅ }

/-- The example is reached by operations. -/
theorem reachable_teamStore : Reachable (.bool true) teamStore := by
  let s₀ : Store := ⟨∅, [], [], ∅⟩
  have h₀ : Reachable (.bool true) s₀ := .start ⟨rfl, rfl⟩
  have h₁ := Transition.Reachable.next (a :=
    .insert "admin" (nestedForm "Department" none) "d" 1) h₀
    ⟨[], rfl⟩
  have h₂ := Transition.Reachable.next (a :=
    .insert "admin" (nestedForm "Team" (some "d")) "t" 2) h₁
    ⟨[], rfl⟩
  exact Transition.Reachable.next (a := .addUsers "t" ["u"] 3) h₂ ⟨["u"], rfl⟩

/-- A member of a team is one of its department. -/
theorem hierarchy_sound_team : "u" ∈ getGroupUserIdsById teamStore "d" true := by
  obtain ⟨-, -, h⟩ := hierarchy_sound reachable_teamStore
  refine (h "u" "d").2.mpr ⟨"t", by decide, .single ?_⟩
  rfl

end OpenWebUI.Groups
