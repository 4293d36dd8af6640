import OpenWebUI.Groups.Operations
import OpenWebUI.Lib.Forest
import Mathlib.Data.List.MinMax
import Mathlib.Data.Prod.Lex

/-! # Default models of a user

Among the groups of a user that configure default models, the deepest one wins, then the
oldest, then the one with the least id. The depths come from a loop that climbs from each
group to the groups whose depth is known.
-/

namespace OpenWebUI.Groups

open Py

/-- The group above, if it is among the given ones. -/
def above (byId : Dict String Group) (group : Group) : Option (String × Group) :=
  group.parentGroupId.bind fun p => (byId.get? p).map (p, ·)

/-- The climb from one group: the ids on the way, and the group with a known depth. -/
def climb (byId : Dict String Group) (depths : List (String × ℤ)) :
    ℕ → Option (String × Group) → List String → List String × Option (String × Group)
  | n + 1, some current, path =>
      if Assoc.has depths current.1 ∨ current.1 ∈ path then (path, some current)
      else climb byId depths n (above byId current.2) (path ++ [current.1])
  | _, current, path => (path, current)

/-- `depths.get(current.id, -1) if current else -1`. -/
def startDepth (depths : List (String × ℤ)) : Option (String × Group) → ℤ
  | some current => (depths.lookup current.1).getD (-1)
  | none => -1

/-- The next group on the way down is one deeper. -/
def assign (acc : List (String × ℤ) × ℤ) (id : String) : List (String × ℤ) × ℤ :=
  (Assoc.set acc.1 id (acc.2 + 1), acc.2 + 1)

def recordDepths (byId : Dict String Group) (depths : List (String × ℤ)) (group : String × Group) :
    List (String × ℤ) :=
  let climbed := climb byId depths (byId.size + 1) (some group) []
  (climbed.1.reverse.foldl assign (depths, startDepth depths climbed.2)).1

def depthsOf (groups : List (String × Group)) : List (String × ℤ) :=
  groups.foldl (recordDepths (Dict.ofList groups)) []

/-- The tuples the winner is the least of. -/
def WinnerKey := ℤ ×ₗ ℤ ×ₗ String

instance : LinearOrder WinnerKey :=
  @Prod.Lex.instLinearOrder ℤ (ℤ ×ₗ String) Int.instLinearOrder
    (@Prod.Lex.instLinearOrder ℤ String Int.instLinearOrder String.instLinearOrder)

/-- `(-depths[group.id], group.created_at, group.id)`. -/
def winnerKey (depths : List (String × ℤ)) (group : String × Group) : WinnerKey :=
  toLex (-(depths.lookup group.1).getD 0, toLex (group.2.createdAt, group.1))

def resolveGroupDefaultModels (groups : List (String × Group)) : Json × Option String :=
  let configured := groups.filter fun g => (groupDefaultModels g.2.data).truthy
  match configured.argmin (winnerKey (depthsOf groups)) with
  | none => (.null, none)
  | some winner => (groupDefaultModels winner.2.data, some winner.1)

/-! ## Depths -/

/-- The number of groups above a group, among the given ones. -/
inductive IsDepth (byId : Dict String Group) : String → ℕ → Prop where
  | root {id : String} {g : Group} (hget : byId.get? id = some g)
      (habove : above byId g = none) : IsDepth byId id 0
  | child {id p : String} {g gp : Group} {d : ℕ} (hget : byId.get? id = some g)
      (habove : above byId g = some (p, gp)) (h : IsDepth byId p d) : IsDepth byId id (d + 1)

variable {byId : Dict String Group} {depths : List (String × ℤ)} {id : String} {d e : ℕ}

theorem get?_of_above {g gp : Group} {p : String} (h : above byId g = some (p, gp)) :
    byId.get? p = some gp := by
  obtain ⟨q, -, hq⟩ := Option.bind_eq_some_iff.mp h
  obtain ⟨gq, hget, heq⟩ := Option.map_eq_some_iff.mp hq
  obtain ⟨rfl, rfl⟩ := Prod.ext_iff.mp heq
  exact hget

theorem IsDepth.unique (h : IsDepth byId id d) (h' : IsDepth byId id e) : d = e := by
  induction h generalizing e with
  | root hget habove =>
      cases h' with
      | root => rfl
      | child hget' habove' =>
          cases hget.symm.trans hget'
          cases habove.symm.trans habove'
  | child hget habove _ ih =>
      cases h' with
      | root hget' habove' =>
          cases hget.symm.trans hget'
          cases habove.symm.trans habove'
      | child hget' habove' h' =>
          cases hget.symm.trans hget'
          cases habove.symm.trans habove'
          rw [ih h']

theorem IsDepth.mem (h : IsDepth byId id d) : id ∈ byId := by
  cases h with
  | root hget => exact Dict.mem_of_get? hget
  | child hget => exact Dict.mem_of_get? hget

/-- The groups above are distinct, so a depth is less than the number of groups. -/
theorem IsDepth.lt_size (h : IsDepth byId id d) : d < byId.size := by
  have hchain : ∃ l : List String, l.Nodup ∧ l.length = d + 1 ∧
      ∀ x ∈ l, x ∈ byId ∧ ∃ e ≤ d, IsDepth byId x e := by
    induction h with
    | @root id g hget habove =>
        refine ⟨[id], List.nodup_singleton _, rfl, fun x hx => ?_⟩
        obtain rfl := List.mem_singleton.mp hx
        exact ⟨Dict.mem_of_get? hget, 0, le_refl _, .root hget habove⟩
    | @child id p g gp d hget habove h ih =>
        obtain ⟨l, hnodup, hlen, hl⟩ := ih
        refine ⟨id :: l, List.nodup_cons.mpr
          ⟨fun hmem => ?_, hnodup⟩, by rw [List.length_cons, hlen], ?_⟩
        · obtain ⟨-, e, he, hid⟩ := hl id hmem
          have := hid.unique (.child hget habove h)
          omega
        · intro x hx
          rcases List.mem_cons.mp hx with rfl | hx
          · exact ⟨Dict.mem_of_get? hget, d + 1, le_refl _, .child hget habove h⟩
          · obtain ⟨hmem, e, he, hxe⟩ := hl x hx
            exact ⟨hmem, e, by omega, hxe⟩
  obtain ⟨l, hnodup, hlen, hl⟩ := hchain
  have := Dict.length_le_size byId hnodup fun x hx => (hl x hx).1
  omega

/-! ## The loop -/

/-- What is recorded are depths. -/
def Sound (byId : Dict String Group) (depths : List (String × ℤ)) : Prop :=
  ∀ id d, depths.lookup id = some d → ∃ n : ℕ, d = n ∧ IsDepth byId id n

theorem Sound.set (h : Sound byId depths) (hid : IsDepth byId id d) :
    Sound byId (Assoc.set depths id d) := by
  intro x e hx
  rw [Assoc.lookup_set] at hx
  split_ifs at hx with hxid
  · cases hx
    exact ⟨d, rfl, hxid ▸ hid⟩
  · exact h x e hx

/-- The outcome of a climb, once depths are assigned on the way back. -/
def Records (byId : Dict String Group) (depths : List (String × ℤ))
    (path : List String) (id : String)
    (d : ℕ) (climbed : List String × Option (String × Group)) : Prop :=
  ∃ ext depths', climbed.1 = path ++ ext ∧
    ext.reverse.foldl assign (depths, startDepth depths climbed.2) = (depths', (d : ℤ)) ∧
    Sound byId depths' ∧ depths'.lookup id = some (d : ℤ) ∧
    ∀ x, x ∈ Assoc.keys depths → x ∈ Assoc.keys depths'

/-- The climb stops at a group whose depth is known. -/
theorem climb_known {g : Group} {fuel : ℕ} {path : List String} (hsound : Sound byId depths)
    (h : IsDepth byId id d) (hknown : Assoc.has depths id = true) :
    Records byId depths path id d (climb byId depths (fuel + 1) (some (id, g)) path) := by
  obtain ⟨z, hz⟩ := Option.isSome_iff_exists.mp hknown
  obtain ⟨n, rfl, hn⟩ := hsound id z hz
  obtain rfl := hn.unique h
  refine ⟨[], depths, ?_, ?_, hsound, hz, fun _ hx => hx⟩
  · rw [climb, if_pos (.inl hknown), List.append_nil]
  · rw [climb, if_pos (.inl hknown)]
    simp [startDepth, hz]

/-- One step of a climb: the group is one deeper than what the rest of the climb records. -/
theorem records_step {path : List String} (start : ℤ) (ext : List String)
    {depths' : List (String × ℤ)} {climbed : List String × Option (String × Group)}
    (hid : IsDepth byId id d) (hclimbed : climbed.1 = path ++ [id] ++ ext)
    (hstart : start + 1 = d)
    (hfold : ext.reverse.foldl assign (depths, startDepth depths climbed.2) = (depths', start))
    (hsound : Sound byId depths') (hkeys : ∀ x, x ∈ Assoc.keys depths → x ∈ Assoc.keys depths') :
    Records byId depths path id d climbed := by
  refine ⟨id :: ext, Assoc.set depths' id d, ?_, ?_, hsound.set hid,
    Assoc.lookup_set_self _ _ _, ?_⟩
  · rw [hclimbed, List.append_assoc]
    rfl
  · rw [List.reverse_cons, List.foldl_append, hfold, ← hstart]
    rfl
  · intro x hx
    rw [Assoc.mem_keys_iff, Assoc.lookup_set]
    split_ifs
    · rfl
    · exact (Assoc.mem_keys_iff _ _).mp (hkeys x hx)

/-- Climbing from a group and assigning depths on the way back records its depth. -/
theorem climb_spec {g : Group} (fuel : ℕ) (path : List String) (hsound : Sound byId depths)
    (h : IsDepth byId id d) (hget : byId.get? id = some g)
    (hpath : ∀ x ∈ path, ∃ e, d < e ∧ IsDepth byId x e) (hfuel : d < fuel) :
    Records byId depths path id d (climb byId depths fuel (some (id, g)) path) := by
  obtain ⟨fuel, rfl⟩ : ∃ n, fuel = n + 1 := ⟨fuel - 1, by omega⟩
  induction h generalizing g fuel path with
  | @root id g' hget' habove =>
      have hid := IsDepth.root hget' habove
      cases hget.symm.trans hget'
      -- a group whose depth is known ends the climb
      by_cases hknown : Assoc.has depths id = true
      · exact climb_known hsound hid hknown
      · have hnew : id ∉ path := by
          intro hmem
          obtain ⟨e, he, hide⟩ := hpath id hmem
          have := hide.unique hid
          omega
        rw [climb, if_neg (by simp [hknown, hnew]), habove]
        have hend : climb byId depths fuel none (path ++ [id]) = (path ++ [id], none) := by
          cases fuel <;> rfl
        rw [hend]
        exact records_step (-1) [] hid (List.append_nil _).symm rfl rfl hsound
          fun _ hx => hx
  | @child id p g' gp d hget' habove h ih =>
      have hid := IsDepth.child hget' habove h
      cases hget.symm.trans hget'
      by_cases hknown : Assoc.has depths id = true
      · exact climb_known hsound hid hknown
      -- a group on the path is deeper, so this one is not on it
      · have hnew : id ∉ path := by
          intro hmem
          obtain ⟨e, he, hide⟩ := hpath id hmem
          have := hide.unique hid
          omega
        rw [climb, if_neg (by simp [hknown, hnew]), habove]
        obtain ⟨n, rfl⟩ : ∃ n, fuel = n + 1 := ⟨fuel - 1, by omega⟩
        have hpath' : ∀ x ∈ path ++ [id], ∃ e, d < e ∧ IsDepth byId x e := by
          intro x hx
          rcases List.mem_append.mp hx with hx | hx
          · obtain ⟨e, he, hxe⟩ := hpath x hx
            exact ⟨e, by omega, hxe⟩
          · obtain rfl := List.mem_singleton.mp hx
            exact ⟨d + 1, by omega, hid⟩
        obtain ⟨ext, depths', hclimbed, hfold, hsound', -, hkeys⟩ :=
          ih _ (get?_of_above habove) hpath' n (by omega)
        exact records_step d ext hid hclimbed (by push_cast; rfl) hfold hsound' hkeys

/-- Recording the depths of one group's chain. -/
theorem recordDepths_spec {g : Group} (hsound : Sound byId depths) (h : IsDepth byId id d)
    (hget : byId.get? id = some g) :
    Sound byId (recordDepths byId depths (id, g)) ∧
      id ∈ Assoc.keys (recordDepths byId depths (id, g)) ∧
      ∀ x, x ∈ Assoc.keys depths → x ∈ Assoc.keys (recordDepths byId depths (id, g)) := by
  have hsize := h.lt_size
  obtain ⟨ext, depths', hext, hfold, hsound', hid, hkeys⟩ :=
    climb_spec (byId.size + 1) [] hsound h hget
      (fun x hx => absurd hx List.not_mem_nil) (by omega)
  have hrecord : recordDepths byId depths (id, g) = depths' := by
    unfold recordDepths
    dsimp only
    rw [hext, List.nil_append, hfold]
  rw [hrecord]
  refine ⟨hsound', ?_, hkeys⟩
  rw [Assoc.mem_keys_iff, hid]
  rfl

/-! ## All groups -/

/-- Each id names one group. -/
def Functional (groups : List (String × Group)) : Prop :=
  ∀ {id : String} {g g' : Group}, (id, g) ∈ groups → (id, g') ∈ groups → g = g'

variable {groups groups' : List (String × Group)}

theorem get?_ofList (hfun : Functional groups) {g : Group} :
    (Dict.ofList groups).get? id = some g ↔ (id, g) ∈ groups := by
  obtain ⟨hval, hkey⟩ := Dict.ofList_spec groups id
  constructor
  · exact hval g
  · intro hmem
    obtain ⟨g', hg'⟩ := (Dict.mem_iff_exists _ _).mp (hkey ⟨g, hmem⟩)
    rw [hg', hfun hmem (hval g' hg')]

/-- After the loop every group has its depth. -/
theorem depthsOf_spec (hfun : Functional groups)
    (hdepth : ∀ g ∈ groups, ∃ d, IsDepth (Dict.ofList groups) g.1 d) {g : String × Group}
    (hg : g ∈ groups) :
    ∃ d, IsDepth (Dict.ofList groups) g.1 d ∧ (depthsOf groups).lookup g.1 = some (d : ℤ) := by
  have hloop : ∀ (done : List (String × Group)) (depths : List (String × ℤ)),
      (∀ x ∈ done, x ∈ groups) → Sound (Dict.ofList groups) depths →
      Sound (Dict.ofList groups) (done.foldl (recordDepths (Dict.ofList groups)) depths) ∧
        ∀ x, x ∈ Assoc.keys depths ∨ x ∈ done.map Prod.fst →
          x ∈ Assoc.keys (done.foldl (recordDepths (Dict.ofList groups)) depths) := by
    intro done
    induction done with
    | nil =>
        intro depths _ hsound
        refine ⟨hsound, fun x hx => ?_⟩
        rcases hx with hx | hx
        · exact hx
        · cases hx
    | cons x done ih =>
        intro depths hdone hsound
        obtain ⟨d, hd⟩ := hdepth x (hdone x List.mem_cons_self)
        obtain ⟨hsound', hx, hkeys⟩ := recordDepths_spec hsound hd
          ((get?_ofList hfun).mpr (hdone x List.mem_cons_self))
        obtain ⟨hend, hall⟩ := ih _ (fun y hy => hdone y (List.mem_cons_of_mem _ hy)) hsound'
        refine ⟨hend, fun y hy => hall y ?_⟩
        rcases hy with hy | hy
        · exact .inl (hkeys y hy)
        · rcases List.mem_cons.mp hy with rfl | hy
          · exact .inl hx
          · exact .inr hy
  obtain ⟨hsound, hkeys⟩ := hloop groups [] (fun _ hx => hx) fun _ _ h => by cases h
  obtain ⟨z, hz⟩ := Option.isSome_iff_exists.mp
    ((Assoc.mem_keys_iff _ _).mp (hkeys g.1 (.inr (List.mem_map_of_mem hg))))
  obtain ⟨d, rfl, hd⟩ := hsound g.1 z hz
  exact ⟨d, hd, hz⟩

/-- Versions of a group between which default models do not change. -/
structure SameDefaults (g g' : Group) : Prop where
  parent : g.parentGroupId = g'.parentGroupId
  createdAt : g.createdAt = g'.createdAt
  defaults : Json.pyEq (groupDefaultModels g.data) (groupDefaultModels g'.data) = true

/-- Every listed group is listed in the other list too, in some version. -/
def Covered (R : Group → Group → Prop) (groups groups' : List (String × Group)) : Prop :=
  ∀ id g, (id, g) ∈ groups → ∃ g', (id, g') ∈ groups' ∧ R g g'

theorem above_congr (hfun : Functional groups) (hfun' : Functional groups') {g g' : Group}
    (hcover : Covered SameDefaults groups groups') (hcover' : Covered SameDefaults groups' groups)
    (hsame : g.parentGroupId = g'.parentGroupId) :
    (above (Dict.ofList groups) g).map Prod.fst =
      (above (Dict.ofList groups') g').map Prod.fst := by
  unfold above
  rw [← hsame]
  cases g.parentGroupId with
  | none => rfl
  | some p =>
      rw [Option.bind_some, Option.bind_some]
      cases hget : (Dict.ofList groups).get? p with
      | some gp =>
          obtain ⟨gp', hgp', -⟩ := hcover p gp ((get?_ofList hfun).mp hget)
          rw [(get?_ofList hfun').mpr hgp']
          rfl
      | none =>
          cases hget' : (Dict.ofList groups').get? p with
          | none => rfl
          | some gp' =>
              obtain ⟨gp, hgp, -⟩ := hcover' p gp' ((get?_ofList hfun').mp hget')
              rw [(get?_ofList hfun).mpr hgp] at hget
              cases hget

/-- Depths are the same in both versions. -/
theorem IsDepth.congr (hfun : Functional groups) (hfun' : Functional groups')
    (hcover : Covered SameDefaults groups groups') (hcover' : Covered SameDefaults groups' groups)
    (h : IsDepth (Dict.ofList groups) id d) : IsDepth (Dict.ofList groups') id d := by
  induction h with
  | @root id g hget habove =>
      obtain ⟨g', hg', hsame⟩ := hcover id g ((get?_ofList hfun).mp hget)
      have := above_congr hfun hfun' hcover hcover' hsame.parent
      rw [habove] at this
      exact .root ((get?_ofList hfun').mpr hg') (Option.map_eq_none_iff.mp this.symm)
  | @child id p g gp d hget habove _ ih =>
      obtain ⟨g', hg', hsame⟩ := hcover id g ((get?_ofList hfun).mp hget)
      have := above_congr hfun hfun' hcover hcover' hsame.parent
      rw [habove] at this
      obtain ⟨⟨p', gp'⟩, habove', rfl⟩ := Option.map_eq_some_iff.mp this.symm
      exact .child ((get?_ofList hfun').mpr hg') habove' ih

/-- The key of the winner tells its id. -/
theorem winnerKey_id {depths depths' : List (String × ℤ)} {g g' : String × Group}
    (h : winnerKey depths g = winnerKey depths' g') : g.1 = g'.1 :=
  congrArg (fun k : ℤ ×ₗ ℤ ×ₗ String => (ofLex (ofLex k).2).2) h

/-- The winner among lists of groups that cover each other is the same. -/
theorem resolveGroupDefaultModels_congr (hfun : Functional groups) (hfun' : Functional groups')
    (hdepth : ∀ g ∈ groups, ∃ d, IsDepth (Dict.ofList groups) g.1 d)
    (hcover : Covered SameDefaults groups groups') (hcover' : Covered SameDefaults groups' groups) :
    (resolveGroupDefaultModels groups).2 = (resolveGroupDefaultModels groups').2 ∧
      Json.pyEq (resolveGroupDefaultModels groups).1 (resolveGroupDefaultModels groups').1 =
        true := by
  have hdepth' : ∀ g ∈ groups', ∃ d, IsDepth (Dict.ofList groups') g.1 d := by
    rintro ⟨id, g'⟩ hg'
    obtain ⟨g, hg, -⟩ := hcover' id g' hg'
    obtain ⟨d, hd⟩ := hdepth _ hg
    exact ⟨d, hd.congr hfun hfun' hcover hcover'⟩
  -- both versions of a group compare alike
  have hkey : ∀ {id g g'}, (id, g) ∈ groups → (id, g') ∈ groups' → SameDefaults g g' →
      winnerKey (depthsOf groups) (id, g) = winnerKey (depthsOf groups') (id, g') := by
    intro id g g' hg hg' hsame
    obtain ⟨d, hd, hlookup⟩ := depthsOf_spec hfun hdepth hg
    obtain ⟨d', hd', hlookup'⟩ := depthsOf_spec hfun' hdepth' hg'
    obtain rfl := (hd.congr hfun hfun' hcover hcover').unique hd'
    unfold winnerKey
    rw [hlookup, hlookup', hsame.createdAt]
  let configured := groups.filter fun g => (groupDefaultModels g.2.data).truthy
  let configured' := groups'.filter fun g => (groupDefaultModels g.2.data).truthy
  have hmem : ∀ {id g}, (id, g) ∈ configured →
      ∃ g', (id, g') ∈ configured' ∧ SameDefaults g g' ∧
        winnerKey (depthsOf groups) (id, g) = winnerKey (depthsOf groups') (id, g') := by
    intro id g hg
    obtain ⟨hg, htruthy⟩ := List.mem_filter.mp hg
    obtain ⟨g', hg', hsame⟩ := hcover id g hg
    refine ⟨g', List.mem_filter.mpr ⟨hg', ?_⟩, hsame, hkey hg hg' hsame⟩
    exact (Json.truthy_of_pyEq hsame.defaults).symm.trans htruthy
  have hmem' : ∀ {id g'}, (id, g') ∈ configured' →
      ∃ g, (id, g) ∈ configured ∧
        winnerKey (depthsOf groups) (id, g) = winnerKey (depthsOf groups') (id, g') := by
    intro id g' hg'
    obtain ⟨hg', htruthy⟩ := List.mem_filter.mp hg'
    obtain ⟨g, hg, hsame⟩ := hcover' id g' hg'
    obtain ⟨g'', hg'', hsame'⟩ := hcover id g hg
    obtain rfl := hfun' hg' hg''
    refine ⟨g, List.mem_filter.mpr ⟨hg, ?_⟩, hkey hg hg' hsame'⟩
    exact (Json.truthy_of_pyEq hsame.defaults).symm.trans htruthy
  unfold resolveGroupDefaultModels
  dsimp only
  cases hwin : configured.argmin (winnerKey (depthsOf groups)) with
  | none =>
      have hnil' : configured' = [] := by
        refine List.eq_nil_iff_forall_not_mem.mpr fun x hx => ?_
        obtain ⟨g, hg, -⟩ := hmem' hx
        rw [List.argmin_eq_none.mp hwin] at hg
        exact List.not_mem_nil hg
      rw [List.argmin_eq_none.mpr hnil']
      exact ⟨rfl, Json.pyEq_refl _⟩
  | some winner =>
      obtain ⟨id, g⟩ := winner
      obtain ⟨g', hg', hsame, heq⟩ := hmem (List.argmin_mem hwin)
      cases hwin' : configured'.argmin (winnerKey (depthsOf groups')) with
      | none =>
          rw [List.argmin_eq_none.mp hwin'] at hg'
          exact absurd hg' List.not_mem_nil
      | some winner' =>
          obtain ⟨id', h'⟩ := winner'
          obtain ⟨h, hh, heq'⟩ := hmem' (List.argmin_mem hwin')
          -- each winner is at most the other, and the key contains the id
          have hle := List.le_of_mem_argmin hh hwin
          have hle' := List.le_of_mem_argmin hg' hwin'
          rw [heq'] at hle
          rw [← heq] at hle'
          have hid : id = id' := winnerKey_id (le_antisymm hle hle')
          subst hid
          obtain rfl := hfun' (List.mem_filter.mp hg').1
            (List.mem_filter.mp (List.argmin_mem hwin')).1
          exact ⟨rfl, hsame.defaults⟩

end OpenWebUI.Groups
