import OpenWebUI.Groups.Hierarchy
import OpenWebUI.Groups.Permissions

/-! # Who is refreshed

An operation refreshes the sessions of the users it computes before it commits. Every
other user keeps the inherited groups, the default models, and permissions of one shape.
-/

namespace OpenWebUI.Groups

open Py Relation

variable {share : Json} {s s' : Store} {op : Operation} {affected : List String} {u : String}

theorem SameAccess.refl (g : Group) : SameAccess g g :=
  ⟨⟨rfl, rfl, Json.pyEq_refl _⟩, Json.pyEq_refl _⟩

theorem SameAccess.symm {g g' : Group} (h : SameAccess g g') : SameAccess g' g :=
  ⟨⟨h.parent.symm, h.createdAt.symm, Json.pyEq_symm h.defaults⟩, Json.pyEq_symm h.permissions⟩

/-- Half of what a user keeps: direct groups, and each inherited group in some version. -/
structure Keeps (u : String) (s s' : Store) : Prop where
  members : ∀ g₀, ⟨g₀, u⟩ ∈ s.members → (⟨g₀, u⟩ : GroupMember) ∈ s'.members
  rows : ∀ g G, Inherits s u g → s.groups.get? g = some G →
    ∃ G', s'.groups.get? g = some G' ∧ SameAccess G G'

/-- What is kept is inherited as before. -/
theorem Keeps.inherits (h : Keeps u s s') {g : String} (hg : Inherits s u g) : Inherits s' u g := by
  obtain ⟨g₀, hm, hg₀, hpath, hg⟩ := hg
  induction hpath with
  | refl =>
      obtain ⟨G, hget⟩ := (Dict.mem_iff_exists _ _).mp hg₀
      obtain ⟨G', hget', -⟩ := h.rows g₀ G ⟨g₀, hm, hg₀, .refl, hg₀⟩ hget
      have hmem := Dict.mem_of_get? hget'
      exact ⟨g₀, h.members g₀ hm, hmem, .refl, hmem⟩
  | @tail b c hpath hbc ih =>
      have hb : b ∈ s.groups := mem_of_parent hbc
      obtain ⟨g₁, hm₁, hg₁, hpath₁, hb'⟩ := ih hb
      -- the link from the last group is the same
      obtain ⟨G, hget⟩ := (Dict.mem_iff_exists _ _).mp hb
      obtain ⟨G', hget', hsame⟩ := h.rows b G ⟨g₀, hm, hg₀, hpath, hb⟩ hget
      have hlink : s'.parent b = some c := by
        have hbc : s.parent b = some c := hbc
        rw [Store.parent, hget, Option.bind_some] at hbc
        rw [Store.parent, hget', Option.bind_some, ← hsame.parent, hbc]
      obtain ⟨C, hC⟩ := (Dict.mem_iff_exists _ _).mp hg
      obtain ⟨C', hC', -⟩ := h.rows c C ⟨g₀, hm, hg₀, hpath.tail hbc, hg⟩ hC
      exact ⟨g₁, hm₁, hg₁, hpath₁.tail hlink, Dict.mem_of_get? hC'⟩

/-- The groups kept are listed, with the same access. -/
theorem Keeps.covered (h : Keeps u s s') :
    Covered SameAccess (getGroupsByMemberId s u true) (getGroupsByMemberId s' u true) := by
  intro g G hG
  obtain ⟨hg, hget⟩ := mem_getGroupsByMemberId.mp hG
  obtain ⟨G', hget', hsame⟩ := h.rows g G hg hget
  exact ⟨G', mem_getGroupsByMemberId.mpr ⟨h.inherits hg, hget'⟩, hsame⟩

/-! ## Each effect -/

/-- A new group changes nothing for users that are not its members. -/
theorem keeps_created (hs : s.WellFormed) {id : String} {group : Group} (hfresh : id ∉ s.groups)
    (hparent : ∀ p, group.parentGroupId = some p → p ∈ s.groups) :
    Keeps u s { s with groups := s.groups.set id group } ∧
      Keeps u { s with groups := s.groups.set id group } s := by
  refine ⟨⟨fun _ hm => hm, ?_⟩, ⟨fun _ hm => hm, ?_⟩⟩
  · intro g G _ hget
    have hne : g ≠ id := by
      rintro rfl
      exact hfresh (Dict.mem_of_get? hget)
    exact ⟨G, by rw [Dict.get?_set_ne _ _ hne, hget], .refl G⟩
  · rintro g G ⟨g₀, hm, -, hpath, -⟩ hget
    -- nobody is in a new group, and no group hangs below it
    have hne : g ≠ id := by
      rintro rfl
      rcases hpath.cases_tail with rfl | ⟨c, -, hc⟩
      · exact hfresh (hs.member_mem hm)
      · rw [Forest.Up, parent_set] at hc
        split_ifs at hc
        · exact hfresh (hparent _ hc)
        · exact hfresh (hs.parent_mem hc)
    exact ⟨G, by rwa [Dict.get?_set_ne _ _ hne] at hget, .refl G⟩

/-- Only a user who inherits the updated group sees it afterwards. -/
theorem inherits_of_updated (hs : s.WellFormed) {id g : String} {group' : Group}
    (h : Inherits { s with groups := s.groups.set id group' } u g) :
    Inherits s u g ∨ Inherits s u id := by
  obtain ⟨g₀, hm, -, hpath, -⟩ := h
  induction hpath with
  | refl => exact .inl ⟨g₀, hm, hs.member_mem hm, .refl, hs.member_mem hm⟩
  | @tail b c _ hbc ih =>
      rcases ih with hb | hid
      · by_cases hbid : b = id
        · exact .inr (hbid ▸ hb)
        · rw [Forest.Up, parent_set, if_neg hbid] at hbc
          obtain ⟨g₁, hm₁, hg₁, hpath₁, -⟩ := hb
          exact .inl ⟨g₁, hm₁, hg₁, hpath₁.tail hbc, hs.parent_mem hbc⟩
      · exact .inr hid

/-- A changed group changes nothing for users who do not inherit it, or if it gives the same. -/
theorem keeps_updated (hs : s.WellFormed) {id : String} {group group' : Group}
    (hget : s.groups.get? id = some group) (h : ¬ Inherits s u id ∨ SameAccess group' group) :
    Keeps u s { s with groups := s.groups.set id group' } ∧
      Keeps u { s with groups := s.groups.set id group' } s := by
  refine ⟨⟨fun _ hm => hm, ?_⟩, ⟨fun _ hm => hm, ?_⟩⟩
  · intro g G hg hG
    by_cases hid : g = id
    · subst hid
      cases hget.symm.trans hG
      rcases h with hnot | hsame
      · exact absurd hg hnot
      · exact ⟨group', Dict.get?_set_self _ _ _, hsame.symm⟩
    · exact ⟨G, by rw [Dict.get?_set_ne _ _ hid, hG], .refl G⟩
  · intro g G hg hG
    by_cases hid : g = id
    · subst hid
      rw [Dict.get?_set_self] at hG
      cases hG
      rcases h with hnot | hsame
      · rcases inherits_of_updated hs hg with hold | hold
        · exact absurd hold hnot
        · exact absurd hold hnot
      · exact ⟨group, hget, hsame⟩
    · exact ⟨G, by rwa [Dict.get?_set_ne _ _ hid] at hG, .refl G⟩

/-- A deleted group changes nothing for users who do not inherit it. -/
theorem keeps_deleted {id : String} {group : Group} {now : ℤ}
    (hget : s.groups.get? id = some group) (h : ¬ Inherits s u id) :
    Keeps u s (withoutGroup s id group.parentGroupId now) ∧
      Keeps u (withoutGroup s id group.parentGroupId now) s := by
  have hmem := Dict.mem_of_get? hget
  -- the user inherits no child of the deleted group either
  have hchild : ∀ {g : String} {G : Group}, Inherits s u g → s.groups.get? g = some G →
      G.parentGroupId ≠ some id := by
    rintro g G ⟨g₀, hm, hg₀, hpath, -⟩ hG hparent
    refine h ⟨g₀, hm, hg₀, hpath.tail ?_, hmem⟩
    rw [Forest.Up, Store.parent, hG, Option.bind_some, hparent]
  have hrow : ∀ {g : String} {G : Group}, g ≠ id → s.groups.get? g = some G →
    G.parentGroupId ≠ some id →
      (withoutGroup s id group.parentGroupId now).groups.get? g = some G := by
    intro g G hne hG hparent
    simp [withoutGroup, Dict.get?_erase, hne, hG, hparent]
  have hback : ∀ {g : String}, Inherits (withoutGroup s id group.parentGroupId now) u g →
      Inherits s u g := by
    rintro g ⟨g₀, hm, hg₀, hpath, hg⟩
    refine ⟨g₀, (List.mem_filter.mp hm).1, (mem_withoutGroup.mp hg₀).2, ?_,
      (mem_withoutGroup.mp hg).2⟩
    clear hg
    induction hpath with
    | refl => exact .refl
    | tail _ hbc ih => exact ih.trans (transGen_of_parent_withoutGroup hget hbc).to_reflTransGen
  refine ⟨⟨?_, ?_⟩, ⟨fun _ hm => (List.mem_filter.mp hm).1, ?_⟩⟩
  · intro g₀ hm
    refine List.mem_filter.mpr ⟨hm, decide_eq_true ?_⟩
    rintro rfl
    exact h ⟨_, hm, hmem, .refl, hmem⟩
  · intro g G hg hG
    have hne : g ≠ id := by
      rintro rfl
      exact h hg
    exact ⟨G, hrow hne hG (hchild hg hG), .refl G⟩
  · intro g G hg hG
    have hne := (mem_withoutGroup.mp (Dict.mem_of_get? hG)).1
    obtain ⟨G₀, hG₀⟩ := (Dict.mem_iff_exists _ _).mp (mem_withoutGroup.mp (Dict.mem_of_get? hG)).2
    rw [hrow hne hG₀ (hchild (hback hg) hG₀)] at hG
    cases hG
    exact ⟨G, hG₀, .refl G⟩

/-- Deleting all groups changes nothing for users without one. -/
theorem keeps_cleared (h : ∀ m ∈ s.members, m.userId ≠ u) :
    Keeps u s (withoutGroups s) ∧ Keeps u (withoutGroups s) s := by
  refine ⟨⟨fun g₀ hm => absurd rfl (h _ hm), ?_⟩, ⟨fun _ hm => absurd hm List.not_mem_nil, ?_⟩⟩
  · rintro g G ⟨g₀, hm, -⟩
    exact absurd rfl (h _ hm)
  · rintro g G ⟨g₀, hm, -⟩
    exact absurd hm List.not_mem_nil

/-- Other users' memberships change nothing. -/
theorem keeps_membership {ids : List String} {now : ℤ} {members : List GroupMember}
    (h : ∀ g₀, (⟨g₀, u⟩ : GroupMember) ∈ members ↔ ⟨g₀, u⟩ ∈ s.members) :
    Keeps u s (touch ids now { s with members := members }) ∧
      Keeps u (touch ids now { s with members := members }) s := by
  have htouched : ∀ g G, SameAccess G (if g ∈ ids then { G with updatedAt := now } else G) := by
    intro g G
    split_ifs
    · exact ⟨⟨rfl, rfl, Json.pyEq_refl _⟩, Json.pyEq_refl _⟩
    · exact .refl G
  refine ⟨⟨fun g₀ hm => (h g₀).mpr hm, ?_⟩, ⟨fun g₀ hm => (h g₀).mp hm, ?_⟩⟩
  · intro g G _ hG
    exact ⟨_, by simp only [touch, Dict.get?_mapVal, hG, Option.map_some], htouched g G⟩
  · intro g G _ hG
    simp only [touch, Dict.get?_mapVal] at hG
    obtain ⟨G₀, hG₀, rfl⟩ := Option.map_eq_some_iff.mp hG
    exact ⟨G₀, hG₀, (htouched g G₀).symm⟩

/-- A user who is not refreshed keeps all that access depends on. -/
theorem Effect.keeps (h : Effect s s' affected) (hs : s.WellFormed) (hu : u ∉ affected) :
    Keeps u s s' ∧ Keeps u s' s := by
  cases h with
  | unchanged => exact ⟨⟨fun _ hm => hm, fun _ G _ hG => ⟨G, hG, .refl G⟩⟩,
      ⟨fun _ hm => hm, fun _ G _ hG => ⟨G, hG, .refl G⟩⟩⟩
  | created hfresh hparent => exact keeps_created hs hfresh hparent
  | updated hget _ haffected =>
      refine keeps_updated hs hget ?_
      rcases haffected with rfl | hsame
      · exact .inl fun hinherits => hu (mem_getGroupUserIdsById.mpr hinherits)
      · exact .inr hsame
  | deleted hget =>
      exact keeps_deleted hget fun hinherits => hu (mem_getGroupUserIdsById.mpr hinherits)
  | cleared =>
      refine keeps_cleared fun m hm heq => hu ?_
      exact List.mem_dedup.mpr (heq ▸ List.mem_map_of_mem hm)
  | membership _ hframe => exact keeps_membership fun g₀ => hframe ⟨g₀, u⟩ hu

/-! ## What access depends on -/

/-- A listed id has one group. -/
theorem functional_getGroupsByMemberId : Functional (getGroupsByMemberId s u true) := by
  intro g G G' hG hG'
  have h := (mem_getGroupsByMemberId.mp hG).2
  have h' := (mem_getGroupsByMemberId.mp hG').2
  exact Option.some.inj (h.symm.trans h')

/-- In a forest every group of a user has a depth among them. -/
theorem Store.WellFormed.exists_depth (hs : s.WellFormed) {row : String × Group}
    (hrow : row ∈ getGroupsByMemberId s u true) :
    ∃ d, IsDepth (Dict.ofList (getGroupsByMemberId s u true)) row.1 d := by
  obtain ⟨g, G⟩ := row
  revert G
  refine hs.acyclic.induction (P := fun g => ∀ G, (g, G) ∈ getGroupsByMemberId s u true →
    ∃ d, IsDepth (Dict.ofList (getGroupsByMemberId s u true)) g d)
    (List.finite_toSet s.groups.keys) (fun _ _ hp => hs.parent_mem hp) (fun g ih G hG => ?_) g
  have hget := (get?_ofList functional_getGroupsByMemberId).mpr hG
  cases habove : above (Dict.ofList (getGroupsByMemberId s u true)) G with
  | none => exact ⟨0, .root hget habove⟩
  | some up =>
      obtain ⟨p, P⟩ := up
      have hlink : s.parent g = some p := by
        obtain ⟨q, hq, hup⟩ := Option.bind_eq_some_iff.mp habove
        obtain ⟨_, _, heq⟩ := Option.map_eq_some_iff.mp hup
        obtain ⟨rfl, -⟩ := Prod.ext_iff.mp heq
        rw [Store.parent, (mem_getGroupsByMemberId.mp hG).2, Option.bind_some, hq]
      have hP := (get?_ofList functional_getGroupsByMemberId).mp (get?_of_above habove)
      obtain ⟨d, hd⟩ := ih p hlink P hP
      exact ⟨d + 1, .child hget habove hd⟩

/-- The inherited groups of a user are the same. -/
def SameGroups (s s' : Store) (u : String) : Prop :=
  ∀ g, g ∈ groupIds (getGroupsByMemberId s u true) ↔ g ∈ groupIds (getGroupsByMemberId s' u true)

/-- The default models of a user, and the group they come from, are the same. -/
def SameModels (s s' : Store) (u : String) : Prop :=
  let models := resolveGroupDefaultModels (getGroupsByMemberId s u true)
  let models' := resolveGroupDefaultModels (getGroupsByMemberId s' u true)
  models.2 = models'.2 ∧ Json.pyEq models.1 models'.1 = true

/-- The merged permissions of a user, up to `==`. Merging may raise. -/
def permissionsOf (base : Obj) (s : Store) (u : String) : Option Json :=
  (mergedPermissions base (getGroupsByMemberId s u true)).map fun r => Json.canon (.obj r)

/-- The merged permissions of a user are equal, or merging raises in both. -/
def SamePermissions (base : Obj) (s s' : Store) (u : String) : Prop :=
  permissionsOf base s u = permissionsOf base s' u

instance (base : Obj) (s s' : Store) (u : String) : Decidable (SamePermissions base s s' u) :=
  inferInstanceAs (Decidable (_ = _))

/-- The permissions of all groups are booleans in nested dictionaries of one shape. -/
def Store.Shaped (fields : String → Shape) (s : Store) : Prop :=
  ∀ {g : String} {G : Group}, s.groups.get? g = some G → Fits (.dict fields) (groupPermissions G)

/-- The same groups are listed. -/
theorem sameGroups_of_keeps (h : Keeps u s s') (h' : Keeps u s' s) : SameGroups s s' u := by
  intro g
  rw [mem_groupIds_getGroupsByMemberId, mem_groupIds_getGroupsByMemberId]
  exact ⟨h.inherits, h'.inherits⟩

/-- The same default models are chosen. -/
theorem sameModels_of_keeps (hs : s.WellFormed) (h : Keeps u s s') (h' : Keeps u s' s) :
    SameModels s s' u := by
  have hdefaults : ∀ {groups groups' : List (String × Group)},
      Covered SameAccess groups groups' → Covered SameDefaults groups groups' := by
    intro groups groups' hcovered g G hG
    obtain ⟨G', hG', hsame⟩ := hcovered g G hG
    exact ⟨G', hG', hsame.toSameDefaults⟩
  exact resolveGroupDefaultModels_congr functional_getGroupsByMemberId
    functional_getGroupsByMemberId
    (fun _ hrow => hs.exists_depth hrow) (hdefaults h.covered) (hdefaults h'.covered)

/-- The same permissions are merged. -/
theorem samePermissions_of_keeps {base : Obj} {fields : String → Shape}
    (hbase : Fits (.dict fields) (.obj base)) (hfit : s.Shaped fields) (hfit' : s'.Shaped fields)
    (h : Keeps u s s') (h' : Keeps u s' s) : SamePermissions base s s' u := by
  have hrows : ∀ {t : Store}, t.Shaped fields → ∀ row ∈ getGroupsByMemberId t u true,
      Fits (.dict fields) (groupPermissions row.2) := by
    rintro t ht ⟨g, G⟩ hG
    exact ht (mem_getGroupsByMemberId.mp hG).2
  have hsame : ∀ {groups groups' : List (String × Group)}, Covered SameAccess groups groups' →
      ∀ g ∈ groups, ∃ g' ∈ groups',
        Json.pyEq (groupPermissions g.2) (groupPermissions g'.2) = true := by
    rintro groups groups' hcovered ⟨g, G⟩ hG
    obtain ⟨G', hG', hsame⟩ := hcovered g G hG
    exact ⟨(g, G'), hG', hsame.permissions⟩
  obtain ⟨r, r', hr, hr', heq⟩ := mergedPermissions_congr hbase (hrows hfit) (hrows hfit')
    (hsame h.covered) (hsame h'.covered)
  unfold SamePermissions permissionsOf
  rw [hr, hr', Option.map_some, Option.map_some, (Json.pyEq_iff _ _).mp heq]

/-- Every operation refreshes all users whose inherited groups or default models change,
and, when permissions are booleans in dictionaries of one shape, all whose merged
permissions change. -/
theorem refresh_covers (hs : Reachable share s) (h : op.apply share s = .ok (s', affected)) :
    (¬ (SameGroups s s' u ∧ SameModels s s' u) → u ∈ affected) ∧
      ∀ (base : Obj) (fields : String → Shape), Fits (.dict fields) (.obj base) →
        s.Shaped fields → s'.Shaped fields → ¬ SamePermissions base s s' u → u ∈ affected := by
  have hwf := wellFormed_of_reachable hs
  have heffect := effect_of_apply h
  constructor
  · intro hdiff
    by_contra hu
    obtain ⟨hkeep, hkeep'⟩ := heffect.keeps hwf hu
    exact hdiff ⟨sameGroups_of_keeps hkeep hkeep', sameModels_of_keeps hwf hkeep hkeep'⟩
  · intro base fields hbase hfit hfit' hdiff
    by_contra hu
    obtain ⟨hkeep, hkeep'⟩ := heffect.keeps hwf hu
    exact hdiff (samePermissions_of_keeps hbase hfit hfit' hkeep hkeep')

/-- An update that grants a permission to a department. -/
def grantForm (permissions : Obj) : GroupForm :=
  { parentGroupId := none, name := "Department", description := ""
    permissions := some permissions, data := none }

def grantedStore (permissions : Obj) : Store :=
  { teamStore with
    groups := teamStore.groups.modify "d" fun group =>
      { group with permissions := some permissions, updatedAt := 4 } }

/-- The example's permissions have the shape. -/
theorem shaped_grantedStore (b : Bool) : (grantedStore [("x", .bool b)]).Shaped fun _ => .flag := by
  have hempty : Fits (.dict fun _ => .flag) (.obj []) :=
    .dict List.nodup_nil fun _ _ hk => by cases hk
  have hflag : Fits (.dict fun _ => .flag) (.obj [("x", .bool b)]) := by
    refine .dict (List.nodup_singleton _) fun k v hk => ?_
    rw [Assoc.lookup_cons] at hk
    split_ifs at hk
    · cases hk
      exact .flag b
    · cases hk
  intro g G hG
  rcases List.mem_cons.mp ((Dict.mem_entries_iff _ _ _).mpr hG) with heq | hmem
  · cases heq
    exact hflag
  · cases List.mem_singleton.mp hmem
    exact hempty

/-- A grant to a member is refreshed. -/
theorem refresh_covers_granted : ∃ affected,
    (Operation.update "d" (grantForm [("x", .bool true)]) 4).apply (.bool true)
      (grantedStore [("x", .bool false)]) = .ok (grantedStore [("x", .bool true)], affected) ∧
      "u" ∈ affected := by
  have hreach : Reachable (.bool true) (grantedStore [("x", .bool false)]) :=
    .next (a := .update "d" (grantForm [("x", .bool false)]) 4) reachable_teamStore ⟨["u"], rfl⟩
  refine ⟨["u"], rfl, ?_⟩
  have happly : (Operation.update "d" (grantForm [("x", .bool true)]) 4).apply (.bool true)
      (grantedStore [("x", .bool false)]) = .ok (grantedStore [("x", .bool true)], ["u"]) := rfl
  refine (refresh_covers hreach happly).2 [] (fun _ => .flag) ?_ (shaped_grantedStore false)
    (shaped_grantedStore true) (by decide)
  exact .dict List.nodup_nil fun _ _ hk => by cases hk

/-! ## Permissions that are no booleans -/

def rankedGroup (name : String) (permissions : Obj) (updatedAt : ℤ) : Group :=
  { parentGroupId := none, userId := "admin", name := name, description := ""
    data := some ⟨some [("share", .bool true)], []⟩, permissions := some permissions
    createdAt := 1, updatedAt := updatedAt }

/-- A user in two groups, of which one may have got another member later. -/
def pairStore (p q : Obj) (others : List GroupMember) (updatedAt : ℤ) : Store :=
  { groups := (Dict.set ∅ "a" (rankedGroup "A" p updatedAt)).set "b" (rankedGroup "B" q 3)
    members := [⟨"a", "u"⟩, ⟨"b", "u"⟩] ++ others
    grants := []
    users := ∅ }

/-- The example is reached by operations. -/
theorem reachable_pairStore (p q : Obj) : Reachable (.bool true) (pairStore p q [] 2) := by
  let s₀ : Store := ⟨∅, [], [], ∅⟩
  have h₀ : Reachable (.bool true) s₀ := .start ⟨rfl, rfl⟩
  have h₁ := Transition.Reachable.next
    (a := .insert "admin" ⟨none, "A", "", some p, none⟩ "a" 1) h₀ ⟨[], rfl⟩
  have h₂ := Transition.Reachable.next
    (a := .insert "admin" ⟨none, "B", "", some q, none⟩ "b" 1) h₁ ⟨[], rfl⟩
  have h₃ := Transition.Reachable.next (a := .addUsers "a" ["u"] 2) h₂ ⟨["u"], rfl⟩
  exact Transition.Reachable.next (a := .addUsers "b" ["u"] 3) h₃ ⟨["u"], rfl⟩

/-- Adding somebody else to a group moves it to the front. The permissions merged in that
order differ when they are no booleans, or not of one shape, and the user is not refreshed. -/
theorem refresh_misses_reordered :
    (∀ p q : Obj, Reachable (.bool true) (pairStore p q [] 2) ∧
      (Operation.addUsers "a" ["v"] 4).apply (.bool true) (pairStore p q [] 2) =
        .ok (pairStore p q [⟨"a", "v"⟩] 4, ["v"])) ∧
      "u" ∉ ["v"] ∧
      ¬ SamePermissions [] (pairStore [("x", .str "p")] [("x", .str "q")] [] 2)
        (pairStore [("x", .str "p")] [("x", .str "q")] [⟨"a", "v"⟩] 4) "u" ∧
      ¬ SamePermissions [] (pairStore [("x", .bool true)] [("x", .obj [("y", .bool true)])] [] 2)
        (pairStore [("x", .bool true)] [("x", .obj [("y", .bool true)])] [⟨"a", "v"⟩] 4) "u" :=
  ⟨fun p q => ⟨reachable_pairStore p q, rfl⟩, by decide, by decide, by decide⟩

end OpenWebUI.Groups
