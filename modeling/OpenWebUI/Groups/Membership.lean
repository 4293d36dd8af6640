import OpenWebUI.Groups.Table
import OpenWebUI.Lib.Forest

/-! # Inherited membership

A user inherits every group above the groups the user is in. The view from users and
the view from groups both compute this relation, for every state of the tables.
-/

namespace OpenWebUI.Groups

open Py Relation

variable {s : Store} {u g : String}

/-- The user is a member of an existing group from which parent links lead to `g`. -/
def Inherits (s : Store) (u g : String) : Prop :=
  ∃ g₀, ⟨g₀, u⟩ ∈ s.members ∧ g₀ ∈ s.groups ∧ ReflTransGen (Forest.Up s.parent) g₀ g ∧ g ∈ s.groups

theorem mem_of_parent {c p : String} (h : s.parent c = some p) : c ∈ s.groups := by
  obtain ⟨group, hget, -⟩ := Option.bind_eq_some_iff.mp h
  exact Dict.mem_of_get? hget

theorem mem_children {c p : String} : c ∈ s.children p ↔ s.parent c = some p := by
  simp only [Store.children, List.mem_filter, decide_eq_true_eq]
  exact ⟨And.right, fun h => ⟨mem_of_parent h, h⟩⟩

/-- The ids that occur as parents. -/
def Store.parents (s : Store) : List String := s.groups.entries.filterMap fun e => e.2.parentGroupId

theorem mem_parents {c p : String} (h : s.parent c = some p) : p ∈ s.parents := by
  obtain ⟨group, hget, hp⟩ := Option.bind_eq_some_iff.mp h
  exact List.mem_filterMap.mpr ⟨(c, group), (Dict.mem_entries_iff _ _ _).mpr hget, hp⟩

theorem length_parents_le (s : Store) : s.parents.length ≤ s.groups.size :=
  List.length_filterMap_le _ _

/-! ## Climbing and descending -/

theorem mem_ancestorGroups {ids : List String} :
    g ∈ ancestorGroups s ids ↔
      ∃ g₀ ∈ ids, g₀ ∈ s.groups ∧ ReflTransGen (Forest.Up s.parent) g₀ g := by
  have hrel : (fun a b => b ∈ (s.parent a).toList) = Forest.Up s.parent := by
    funext a b
    simp [Forest.Up]
  unfold ancestorGroups
  rw [Recursive.mem_recursiveUnion (U := s.groups.keys.filter (· ∈ ids) ++ s.parents), hrel]
  · constructor
    · rintro ⟨g₀, hg₀, hpath⟩
      obtain ⟨hmem, hids⟩ := List.mem_filter.mp hg₀
      exact ⟨g₀, of_decide_eq_true hids, hmem, hpath⟩
    · rintro ⟨g₀, hids, hmem, hpath⟩
      exact ⟨g₀, List.mem_filter.mpr ⟨hmem, decide_eq_true hids⟩, hpath⟩
  · exact List.subset_append_left _ _
  · intro x _ y hy
    exact List.mem_append_right _ (mem_parents (Option.mem_toList.mp hy))
  · rw [List.length_append]
    have := length_parents_le s
    omega

/-- A query over rows that keep their first column. -/
theorem mem_recursiveUnion_pair (next : String → List String) (targets : List String)
    {base : List (String × String)} (htargets : ∀ a, next a ⊆ targets) {bound : ℕ}
    (hbound : base.length + base.length * targets.length ≤ bound) {row : String × String} :
    row ∈ Recursive.recursiveUnion (fun r => (next r.2).map (r.1, ·)) bound base ↔
      ∃ a, (row.1, a) ∈ base ∧ ReflTransGen (fun a b => b ∈ next a) a row.2 := by
  rw [Recursive.mem_recursiveUnion (U := base ++ base.flatMap fun r => targets.map (r.1, ·))]
  · constructor
    · rintro ⟨⟨r, a⟩, hbase, hpath⟩
      have : row.1 = r ∧ ReflTransGen (fun a b => b ∈ next a) a row.2 := by
        induction hpath with
        | refl => exact ⟨rfl, .refl⟩
        | tail _ hbc ih =>
            obtain ⟨b, hb, rfl⟩ := List.mem_map.mp hbc
            exact ⟨ih.1, ih.2.tail hb⟩
      exact ⟨a, this.1 ▸ hbase, this.2⟩
    · rintro ⟨a, hbase, hpath⟩
      refine ⟨(row.1, a), hbase, ?_⟩
      have : ∀ b, ReflTransGen (fun a b => b ∈ next a) a b →
          ReflTransGen (fun x y => y ∈ (next x.2).map (x.1, ·)) (row.1, a) (row.1, b) := by
        intro b hab
        induction hab with
        | refl => exact .refl
        | tail _ hbc ih => exact ih.tail (List.mem_map_of_mem hbc)
      exact this row.2 hpath
  · exact List.subset_append_left _ _
  · intro x hx y hy
    obtain ⟨b, hb, rfl⟩ := List.mem_map.mp hy
    refine List.mem_append_right _ (List.mem_flatMap.mpr ?_)
    rcases List.mem_append.mp hx with hx | hx
    · exact ⟨x, hx, List.mem_map_of_mem (htargets _ hb)⟩
    · obtain ⟨r, hr, hrx⟩ := List.mem_flatMap.mp hx
      obtain ⟨c, _, rfl⟩ := List.mem_map.mp hrx
      exact ⟨r, hr, List.mem_map_of_mem (htargets _ hb)⟩
  · simpa [List.length_flatMap] using hbound

theorem mem_userGroupMemberships {ids : List String} :
    (u, g) ∈ userGroupMemberships s ids true ↔
      u ∈ ids ∧ ∃ g₀, ⟨g₀, u⟩ ∈ s.members ∧ ReflTransGen (Forest.Up s.parent) g₀ g := by
  have hrel : (fun a b => b ∈ (s.parent a).toList) = Forest.Up s.parent := by
    funext a b
    simp [Forest.Up]
  unfold userGroupMemberships
  rw [if_pos rfl, mem_recursiveUnion_pair (fun a => (s.parent a).toList) s.parents, hrel]
  · constructor
    · rintro ⟨g₀, hg₀, hpath⟩
      obtain ⟨m, hm, heq⟩ := List.mem_map.mp hg₀
      obtain ⟨hm, hids⟩ := List.mem_filter.mp hm
      obtain ⟨rfl, rfl⟩ := Prod.ext_iff.mp heq
      exact ⟨of_decide_eq_true hids, m.groupId, hm, hpath⟩
    · rintro ⟨hu, g₀, hm, hpath⟩
      refine ⟨g₀, List.mem_map.mpr ⟨⟨g₀, u⟩, List.mem_filter.mpr ⟨hm, ?_⟩, rfl⟩, hpath⟩
      exact decide_eq_true hu
  · intro a b hb
    exact mem_parents (Option.mem_toList.mp hb)
  · have := length_parents_le s
    gcongr

/-- Descending reaches a group exactly when climbing from it leads back. -/
theorem reflTransGen_children {a b : String} :
    ReflTransGen (fun a b => b ∈ s.children a) a b ↔ ReflTransGen (Forest.Up s.parent) b a := by
  have hrel : (fun a b => b ∈ s.children a) = Function.swap (Forest.Up s.parent) := by
    funext a b
    exact propext mem_children
  rw [hrel]
  exact reflTransGen_swap

theorem mem_descendantGroups {ids : List String} {root : String} :
    (root, g) ∈ descendantGroups s ids ↔
      root ∈ ids ∧ root ∈ s.groups ∧ ReflTransGen (Forest.Up s.parent) g root := by
  unfold descendantGroups
  rw [mem_recursiveUnion_pair s.children s.groups.keys]
  · constructor
    · rintro ⟨a, ha, hpath⟩
      obtain ⟨b, hb, heq⟩ := List.mem_map.mp ha
      obtain ⟨hmem, hids⟩ := List.mem_filter.mp hb
      obtain ⟨rfl, rfl⟩ := Prod.ext_iff.mp heq
      exact ⟨of_decide_eq_true hids, hmem, reflTransGen_children.mp hpath⟩
    · rintro ⟨hids, hmem, hpath⟩
      refine ⟨root, List.mem_map.mpr ⟨root, List.mem_filter.mpr ⟨hmem, ?_⟩, rfl⟩,
        reflTransGen_children.mpr hpath⟩
      exact decide_eq_true hids
  · exact fun a b hb => (List.mem_filter.mp hb).1
  · rw [Dict.size_eq_keys]

theorem mem_groupUserMemberships {ids : List String} :
    (g, u) ∈ groupUserMemberships s ids true ↔
      g ∈ ids ∧ g ∈ s.groups ∧
        ∃ g₀, ⟨g₀, u⟩ ∈ s.members ∧ ReflTransGen (Forest.Up s.parent) g₀ g := by
  unfold groupUserMemberships
  rw [if_pos rfl, List.mem_dedup, List.mem_flatMap]
  constructor
  · rintro ⟨⟨root, g₀⟩, hdesc, hrow⟩
    obtain ⟨m, hm, heq⟩ := List.mem_map.mp hrow
    obtain ⟨hm, hgroup⟩ := List.mem_filter.mp hm
    obtain ⟨rfl, rfl⟩ := Prod.ext_iff.mp heq
    obtain ⟨hids, hmem, hpath⟩ := mem_descendantGroups.mp hdesc
    have hgroup : m.groupId = g₀ := of_decide_eq_true hgroup
    exact ⟨hids, hmem, g₀, hgroup ▸ hm, hpath⟩
  · rintro ⟨hids, hmem, g₀, hm, hpath⟩
    refine ⟨(g, g₀), mem_descendantGroups.mpr ⟨hids, hmem, hpath⟩, ?_⟩
    exact List.mem_map.mpr ⟨⟨g₀, u⟩, List.mem_filter.mpr ⟨hm, decide_eq_true rfl⟩, rfl⟩

/-! ## The two views -/

/-- The ids of the groups in a list of rows. -/
def groupIds (groups : List (String × Group)) : List String := groups.map Prod.fst

/-- A chain of parents that ends in an existing group starts in one. -/
theorem mem_of_path {a b : String} (h : ReflTransGen (Forest.Up s.parent) a b) (hb : b ∈ s.groups) :
    a ∈ s.groups := by
  rcases h.cases_head with rfl | ⟨c, hac, -⟩
  · exact hb
  · exact mem_of_parent hac

/-- A group is inherited from a direct one below it. -/
theorem inherits_iff : Inherits s u g ↔
    g ∈ s.groups ∧ ∃ g₀, ⟨g₀, u⟩ ∈ s.members ∧ ReflTransGen (Forest.Up s.parent) g₀ g := by
  constructor
  · rintro ⟨g₀, hm, -, hpath, hg⟩
    exact ⟨hg, g₀, hm, hpath⟩
  · rintro ⟨hg, g₀, hm, hpath⟩
    exact ⟨g₀, hm, mem_of_path hpath hg, hpath, hg⟩

theorem mem_getGroupsByMemberId {group : Group} :
    (g, group) ∈ getGroupsByMemberId s u true ↔ Inherits s u g ∧ s.groups.get? g = some group := by
  have hlookup : getGroupsByMemberId s u true =
      (((userGroupMemberships s [u] true).filter (·.1 = u)).filterMap fun row =>
        (s.groups.get? row.2).map (row.2, ·)).insertionSort newestFirst := by
    simp [getGroupsByMemberId, getGroupsByMemberIds]
  rw [hlookup, List.mem_insertionSort, List.mem_filterMap, inherits_iff]
  constructor
  · rintro ⟨⟨u', g'⟩, hrow, hget⟩
    obtain ⟨hrow, hu⟩ := List.mem_filter.mp hrow
    obtain ⟨group', hgroup, heq⟩ := Option.map_eq_some_iff.mp hget
    obtain ⟨rfl, rfl⟩ := Prod.ext_iff.mp heq
    obtain rfl : u' = u := of_decide_eq_true hu
    exact ⟨⟨Dict.mem_of_get? hgroup, (mem_userGroupMemberships.mp hrow).2⟩, hgroup⟩
  · rintro ⟨⟨-, hpath⟩, hgroup⟩
    refine ⟨(u, g), List.mem_filter.mpr ⟨?_, decide_eq_true rfl⟩, by simp [hgroup]⟩
    exact mem_userGroupMemberships.mpr ⟨List.mem_singleton_self u, hpath⟩

theorem mem_groupIds_getGroupsByMemberId :
    g ∈ groupIds (getGroupsByMemberId s u true) ↔ Inherits s u g := by
  constructor
  · intro h
    obtain ⟨⟨g', group⟩, hrow, rfl⟩ := List.mem_map.mp h
    exact (mem_getGroupsByMemberId.mp hrow).1
  · intro h
    obtain ⟨group, hget⟩ := (Dict.mem_iff_exists _ _).mp (inherits_iff.mp h).1
    exact List.mem_map.mpr ⟨(g, group), mem_getGroupsByMemberId.mpr ⟨h, hget⟩, rfl⟩

theorem mem_getGroupUserIdsById : u ∈ getGroupUserIdsById s g true ↔ Inherits s u g := by
  have hlookup : getGroupUserIdsById s g true =
      ((groupUserMemberships s [g] true).filter (·.1 = g)).map Prod.snd := by
    simp [getGroupUserIdsById, getGroupUserIdsByIds]
  rw [hlookup, inherits_iff, List.mem_map]
  constructor
  · rintro ⟨⟨g', u'⟩, hrow, rfl⟩
    obtain ⟨hrow, hg⟩ := List.mem_filter.mp hrow
    obtain rfl : g' = g := of_decide_eq_true hg
    exact (mem_groupUserMemberships.mp hrow).2
  · rintro ⟨hg, hpath⟩
    refine ⟨(g, u), List.mem_filter.mpr ⟨?_, decide_eq_true rfl⟩, rfl⟩
    exact mem_groupUserMemberships.mpr ⟨List.mem_singleton_self g, hg, hpath⟩

end OpenWebUI.Groups
