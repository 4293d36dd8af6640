import OpenWebUI.Folders.Table

/-! # The tree after a listing

The listing walks the user's folders once. Whatever the links were, afterwards every
folder of the user hangs from a root: a folder is moved when its parent is missing, or
when it is the first of the folders on its loop.
-/

namespace OpenWebUI.Folders

open Py Relation

variable {t : Table} {u id : String} {f : Folder}

/-- The parent links among the folders of a user. -/
def userParent (t : Table) (u id : String) : Option String :=
  ((t.get? id).filter (·.userId = u)).bind Folder.parent

/-- The user's folders are reached from roots, along links without loops. -/
structure IsForest (t : Table) (u : String) : Prop where
  acyclic : Forest.Acyclic (userParent t u)
  rooted : ∀ id f, t.get? id = some f → f.userId = u →
    ∃ r g, t.get? r = some g ∧ g.userId = u ∧ g.parent = none ∧
      ReflTransGen (Forest.Up (userParent t u)) id r

/-- A folder of the user. -/
def Owned (t : Table) (u id : String) : Prop := ∃ f, t.get? id = some f ∧ f.userId = u

/-- The parent is missing, or the folder is the first one on a loop. -/
def Broken (t : Table) (u id : String) : Prop :=
  ∃ p, userParent t u id = some p ∧
    (¬ Owned t u p ∨ TransGen (Forest.Up (userParent t u)) id id ∧
      ∀ y ∈ ((getFoldersByUserId t u).map Prod.fst).takeWhile (· ≠ id),
        ¬ ReflTransGen (Forest.Up (userParent t u)) id y)

theorem mem_getFoldersByUserId {e : String × Folder} :
    e ∈ getFoldersByUserId t u ↔ t.get? e.1 = some e.2 ∧ e.2.userId = u := by
  rw [getFoldersByUserId, List.mem_filter, decide_eq_true_eq]
  exact and_congr_left' (Dict.mem_entries_iff t e.1 e.2)

theorem nodup_getFoldersByUserId (t : Table) (u : String) :
    ((getFoldersByUserId t u).map Prod.fst).Nodup :=
  Assoc.nodup_keys_filter t.nodup_keys _

/-- For a folder of the user the link is its parent. -/
theorem userParent_owned (hget : t.get? id = some f) (hu : f.userId = u) :
    userParent t u id = f.parent := by
  rw [userParent, hget, Option.filter_some_pos (by simpa using hu), Option.bind_some]

/-- What is no folder of the user has no link. -/
theorem userParent_other (h : ¬ Owned t u id) : userParent t u id = none := by
  rw [userParent]
  cases hget : t.get? id with
  | none => rfl
  | some f =>
      rw [Option.filter_some_neg]
      · rfl
      · simpa using fun hu => h ⟨f, hget, hu⟩

/-! ## The loop -/

/-- The listing after some of the user's folders. What was moved was broken; what was walked
has a parent among the folders and lies on no loop. -/
structure Rerooted (t : Table) (u : String) (done : List String)
    (acc : Dict String (Option String) × Table) : Prop where
  keys : ∀ id, id ∈ acc.1 ↔ Owned t u id
  parents : ∀ id f, t.get? id = some f → f.userId = u →
    (acc.1.get? id = some f.parentId ∧ acc.2.get? id = some f) ∨
      id ∈ done ∧ Broken t u id ∧ acc.1.get? id = some none ∧
        acc.2.get? id = some { f with parentId := none }
  others : ∀ id, ¬ Owned t u id → acc.2.get? id = t.get? id
  inside : ∀ id ∈ done, ∀ p, parentOf acc.1 id = some p → p ∈ acc.1
  noLoop : ∀ id ∈ done, ¬ TransGen (Forest.Up (parentOf acc.1)) id id

/-- Before the walk nothing has been moved. -/
theorem rerooted_start (t : Table) (u : String) :
    Rerooted t u [] (parentById (getFoldersByUserId t u), t) := by
  have hentries : (parentById (getFoldersByUserId t u)).entries =
      (getFoldersByUserId t u).map fun e => (e.1, e.2.parentId) := by
    refine Dict.entries_ofList ?_
    rw [Assoc.keys, List.map_map]
    exact nodup_getFoldersByUserId t u
  have hget : ∀ id p, (parentById (getFoldersByUserId t u)).get? id = some p ↔
      ∃ f, t.get? id = some f ∧ f.userId = u ∧ f.parentId = p := by
    intro id p
    rw [← Dict.mem_entries_iff, hentries, List.mem_map]
    constructor
    · rintro ⟨⟨id', f⟩, he, heq⟩
      obtain ⟨rfl, rfl⟩ := Prod.mk.inj heq
      exact ⟨f, (mem_getFoldersByUserId.mp he).1, (mem_getFoldersByUserId.mp he).2, rfl⟩
    · rintro ⟨f, hf, hu, rfl⟩
      exact ⟨(id, f), mem_getFoldersByUserId.mpr ⟨hf, hu⟩, rfl⟩
  refine ⟨fun id => ?_, fun id f hf hu => Or.inl ⟨?_, hf⟩, fun _ _ => rfl, ?_, ?_⟩
  · rw [Dict.mem_iff_exists]
    constructor
    · rintro ⟨p, hp⟩
      obtain ⟨f, hf, hu, -⟩ := (hget id p).mp hp
      exact ⟨f, hf, hu⟩
    · rintro ⟨f, hf, hu⟩
      exact ⟨f.parentId, (hget id _).mpr ⟨f, hf, hu, rfl⟩⟩
  · exact (hget id _).mpr ⟨f, hf, hu, rfl⟩
  · exact fun id hid => absurd hid List.not_mem_nil
  · exact fun id hid => absurd hid List.not_mem_nil

variable {done : List String} {acc : Dict String (Option String) × Table}

/-- The parent the walk reads, with the empty id for none. -/
theorem parentOf_of_get? {d : Dict String (Option String)} {p : Option String}
    (h : d.get? id = some p) : parentOf d id = p.filter (· ≠ "") := by
  rw [parentOf, h, Option.join_some]

/-- The loop only drops links. -/
theorem Rerooted.links (h : Rerooted t u done acc) (c p : String)
    (hp : parentOf acc.1 c = some p) : userParent t u c = some p := by
  by_cases hc : Owned t u c
  · obtain ⟨f, hf, hu⟩ := hc
    rcases h.parents c f hf hu with ⟨hget, -⟩ | ⟨-, -, hget, -⟩
    · rw [userParent_owned hf hu, ← hp, parentOf_of_get? hget]
      rfl
    · rw [parentOf_of_get? hget] at hp
      cases hp
  · have hnone : acc.1.get? c = none :=
      (Dict.get?_eq_none_iff _ _).mpr fun hmem => hc ((h.keys c).mp hmem)
    rw [parentOf, hnone] at hp
    cases hp

/-- The walk finds a loop exactly where the links come back to the folder. -/
theorem isInParentCycle_iff (d : Dict String (Option String)) (id : String) :
    isInParentCycle d id = true ↔ TransGen (Forest.Up (parentOf d)) id id := by
  rw [isInParentCycle, decide_eq_true_eq]
  refine (Forest.Climbing.begin id).ends (D := d.keys) (fun y hy => ?_) ?_
  · by_contra hnot
    have hnone : d.get? y = none := (Dict.get?_eq_none_iff _ _).mpr hnot
    rw [parentOf, hnone] at hy
    exact hy rfl
  · rw [Dict.size_eq_keys, List.length_singleton]
    omega

/-- One folder of the listing. -/
theorem Rerooted.step (h : Rerooted t u done acc) (hget : t.get? id = some f) (hu : f.userId = u)
    (hfresh : id ∉ done)
    (hdone : ((getFoldersByUserId t u).map Prod.fst).takeWhile (· ≠ id) = done) :
    Rerooted t u (done ++ [id]) (reroot u acc (id, f)) := by
  obtain ⟨hparent, hrow⟩ : acc.1.get? id = some f.parentId ∧ acc.2.get? id = some f :=
    (h.parents id f hget hu).resolve_right fun hmoved => hfresh hmoved.1
  have hlink : parentOf acc.1 id = f.parent := parentOf_of_get? hparent
  -- where nothing is moved, the folder itself must be in order
  have hkeep : (∀ p, f.parent = some p → p ∈ acc.1) →
      ¬ TransGen (Forest.Up (parentOf acc.1)) id id → Rerooted t u (done ++ [id]) acc := by
    intro hin hloop
    refine ⟨h.keys, fun x g hx hg => ?_, h.others, fun x hx p hp => ?_, fun x hx => ?_⟩
    · rcases h.parents x g hx hg with hsame | ⟨hmem, hmoved⟩
      · exact Or.inl hsame
      · exact Or.inr ⟨List.mem_append_left _ hmem, hmoved⟩
    · rcases List.mem_append.mp hx with hx | hx
      · exact h.inside x hx p hp
      · rw [List.mem_singleton.mp hx, hlink] at hp
        exact hin p hp
    · rcases List.mem_append.mp hx with hx | hx
      · exact h.noLoop x hx
      · rwa [List.mem_singleton.mp hx]
  unfold reroot
  cases hp : f.parent with
  | none =>
      refine hkeep (fun p hsome => by rw [hp] at hsome; cases hsome) fun hloop => ?_
      obtain ⟨p, hstep, -⟩ := TransGen.head'_iff.mp hloop
      rw [Forest.Up, hlink, hp] at hstep
      cases hstep
  | some p =>
      dsimp only
      split_ifs with hbroken
      · -- the folder goes back to the root, in the dictionary and in the table
        have hset : ∀ x, parentOf (acc.1.set id none) x =
            if x = id then none else parentOf acc.1 x := by
          intro x
          rw [parentOf, Dict.get?_set]
          split_ifs <;> rfl
        have hdrop : ∀ c q, parentOf (acc.1.set id none) c = some q →
          parentOf acc.1 c = some q := by
          intro c q hc
          rw [hset] at hc
          split_ifs at hc
          exact hc
        have hmem : ∀ x, x ∈ acc.1.set id none ↔ x ∈ acc.1 := by
          intro x
          rw [Dict.mem_iff, Dict.get?_set]
          split_ifs with hx
          · subst hx
            exact iff_of_true rfl (Dict.mem_of_get? hparent)
          · exact (Dict.mem_iff _ _).symm
        have hupdate : (updateFolderParentIdByIdAndUserId acc.2 id u none).1 =
            acc.2.set id { f with parentId := none } := by
          rw [updateFolderParentIdByIdAndUserId, hrow, Option.filter_some_pos (by simpa using hu)]
        have hfirst : Broken t u id := by
          refine ⟨p, (userParent_owned hget hu).trans hp, ?_⟩
          rcases hbroken with hmissing | hcycle
          · exact Or.inl fun howned => hmissing ((h.keys p).mpr howned)
          · have hloop := (isInParentCycle_iff acc.1 id).mp hcycle
            refine Or.inr ⟨TransGen.mono (fun c q => h.links c q) _ _ hloop, fun y hy hpath => ?_⟩
            -- an earlier folder of the loop would lie on a loop still
            rw [hdone] at hy
            have hpath' := Forest.above_of_cycle (fun c q => h.links c q) hloop hpath
            exact h.noLoop y hy ((Forest.cycle_of_above hloop hpath').trans_left hpath')
        rw [hupdate]
        refine ⟨fun x => (hmem x).trans (h.keys x), fun x g hx hg => ?_, fun x hx => ?_,
          fun x hx q hq => ?_, fun x hx hloop => ?_⟩
        · by_cases hxid : x = id
          · subst hxid
            obtain rfl := Option.some.inj (hget.symm.trans hx)
            exact Or.inr ⟨List.mem_append_right _ List.mem_cons_self, hfirst,
              Dict.get?_set_self _ _ _, Dict.get?_set_self _ _ _⟩
          · rw [Dict.get?_set_ne _ _ hxid, Dict.get?_set_ne _ _ hxid]
            rcases h.parents x g hx hg with hsame | ⟨hold, hmoved⟩
            · exact Or.inl hsame
            · exact Or.inr ⟨List.mem_append_left _ hold, hmoved⟩
        · have hxid : x ≠ id := by
            rintro rfl
            exact hx ⟨f, hget, hu⟩
          rw [Dict.get?_set_ne _ _ hxid]
          exact h.others x hx
        · rw [hmem]
          rcases List.mem_append.mp hx with hx | hx
          · exact h.inside x hx q (hdrop x q hq)
          · rw [List.mem_singleton.mp hx, hset, if_pos rfl] at hq
            cases hq
        · rcases List.mem_append.mp hx with hx | hx
          · exact h.noLoop x hx (TransGen.mono (fun c q => hdrop c q) _ _ hloop)
          · obtain ⟨q, hstep, -⟩ := TransGen.head'_iff.mp hloop
            rw [Forest.Up, List.mem_singleton.mp hx, hset, if_pos rfl] at hstep
            cases hstep
      · obtain ⟨hin, hcycle⟩ := not_or.mp hbroken
        refine hkeep (fun q hq => ?_) fun hloop => hcycle ((isInParentCycle_iff _ _).mpr hloop)
        rw [hp] at hq
        exact Option.some.inj hq ▸ not_not.mp hin

/-- All folders of the listing, by induction on those that are left. -/
theorem Rerooted.foldl {todo : List (String × Folder)} (h : Rerooted t u done acc)
    (hsplit : (getFoldersByUserId t u).map Prod.fst = done ++ todo.map Prod.fst)
    (htodo : ∀ e ∈ todo, e ∈ getFoldersByUserId t u) :
    Rerooted t u ((getFoldersByUserId t u).map Prod.fst) (todo.foldl (reroot u) acc) := by
  induction todo generalizing done acc with
  | nil =>
      rw [hsplit, List.map_nil, List.append_nil]
      exact h
  | cons e todo ih =>
      have hnodup := nodup_getFoldersByUserId t u
      rw [hsplit, List.map_cons, List.nodup_append] at hnodup
      have hfresh : e.1 ∉ done := fun hmem => hnodup.2.2 _ hmem _ List.mem_cons_self rfl
      have hdone : ((getFoldersByUserId t u).map Prod.fst).takeWhile (· ≠ e.1) = done := by
        rw [hsplit, List.map_cons, List.takeWhile_append_of_pos]
        · simp
        · intro x hx
          exact decide_eq_true fun heq => hfresh (heq ▸ hx)
      obtain ⟨hget, hu⟩ := mem_getFoldersByUserId.mp (htodo e List.mem_cons_self)
      refine ih (h.step hget hu hfresh hdone) ?_ fun x hx => htodo x (List.mem_cons_of_mem _ hx)
      rw [hsplit, List.map_cons, List.append_assoc]
      rfl

/-! ## The whole listing -/

/-- What a listing leaves: the rows as they were, but for broken folders at the root. -/
structure Listed (t t' : Table) (u : String) : Prop where
  rows : ∀ id f, t.get? id = some f → t'.get? id = some f ∨
    f.userId = u ∧ Broken t u id ∧ t'.get? id = some { f with parentId := none }
  onlyOld : ∀ id, t.get? id = none → t'.get? id = none
  forest : IsForest t' u

/-- Once every folder was walked, what is left is a forest. -/
theorem Rerooted.listed (h : Rerooted t u ((getFoldersByUserId t u).map Prod.fst) acc) :
    Listed t acc.2 u := by
  -- moving a folder to the root leaves its owner
  have howned : ∀ id, Owned acc.2 u id ↔ Owned t u id := by
    intro id
    by_cases hid : Owned t u id
    · obtain ⟨f, hf, hu⟩ := hid
      refine iff_of_true ?_ ⟨f, hf, hu⟩
      rcases h.parents id f hf hu with ⟨-, hrow⟩ | ⟨-, -, -, hrow⟩
      · exact ⟨f, hrow, hu⟩
      · exact ⟨_, hrow, hu⟩
    · rw [Owned, h.others id hid, Owned]
  -- what is written is what the loop has remembered
  have hlinks : userParent acc.2 u = parentOf acc.1 := by
    funext id
    by_cases hid : Owned t u id
    · obtain ⟨f, hf, hu⟩ := hid
      rcases h.parents id f hf hu with ⟨hget, hrow⟩ | ⟨-, -, hget, hrow⟩
      · rw [userParent_owned hrow hu, parentOf_of_get? hget]
        rfl
      · rw [userParent_owned hrow hu, parentOf_of_get? hget]
        rfl
    · rw [userParent_other fun howns => hid ((howned id).mp howns), parentOf,
        (Dict.get?_eq_none_iff _ _).mpr fun hmem => hid ((h.keys id).mp hmem)]
      rfl
  have hdone : ∀ id, Owned t u id ↔ id ∈ (getFoldersByUserId t u).map Prod.fst := by
    intro id
    rw [List.mem_map]
    constructor
    · rintro ⟨f, hf, hu⟩
      exact ⟨(id, f), mem_getFoldersByUserId.mpr ⟨hf, hu⟩, rfl⟩
    · rintro ⟨e, he, rfl⟩
      exact ⟨e.2, (mem_getFoldersByUserId.mp he).1, (mem_getFoldersByUserId.mp he).2⟩
  -- both ends of a link are folders of the user
  have hinside : ∀ c p, userParent acc.2 u c = some p → Owned t u c ∧ Owned t u p := by
    intro c p hp
    have hc : Owned t u c := by
      by_contra hc
      rw [userParent_other fun howns => hc ((howned c).mp howns)] at hp
      cases hp
    refine ⟨hc, (h.keys p).mp (h.inside c ((hdone c).mp hc) p ?_)⟩
    rw [← hlinks, hp]
  have hacyclic : Forest.Acyclic (userParent acc.2 u) := by
    intro x hx
    obtain ⟨p, hstep, -⟩ := TransGen.head'_iff.mp hx
    refine h.noLoop x ((hdone x).mp (hinside x p hstep).1) ?_
    rwa [← hlinks]
  refine ⟨fun id f hf => ?_, fun id hnone => ?_, hacyclic, fun id f hf hu => ?_⟩
  · by_cases hu : f.userId = u
    · rcases h.parents id f hf hu with ⟨-, hrow⟩ | ⟨-, hbroken, -, hrow⟩
      · exact Or.inl hrow
      · exact Or.inr ⟨hu, hbroken, hrow⟩
    · have hid : ¬ Owned t u id := by
        rintro ⟨g, hg, hgu⟩
        exact hu (Option.some.inj (hf.symm.trans hg) ▸ hgu)
      exact Or.inl ((h.others id hid).trans hf)
  · have hid : ¬ Owned t u id := by
      rintro ⟨g, hg, -⟩
      cases hnone.symm.trans hg
    exact (h.others id hid).trans hnone
  · -- climb from the folder: the links are finite and without loops
    have hfin : {x | x ∈ (getFoldersByUserId t u).map Prod.fst}.Finite := List.finite_toSet _
    have hroot : ∀ x, Owned acc.2 u x → ∃ r g, acc.2.get? r = some g ∧ g.userId = u ∧
        g.parent = none ∧ ReflTransGen (Forest.Up (userParent acc.2 u)) x r := by
      intro x
      refine hacyclic.induction hfin (fun c p hp => (hdone p).mp (hinside c p hp).2)
        (P := fun x => Owned acc.2 u x → ∃ r g, acc.2.get? r = some g ∧ g.userId = u ∧
          g.parent = none ∧ ReflTransGen (Forest.Up (userParent acc.2 u)) x r) (fun y ih hy => ?_) x
      obtain ⟨g, hg, hgu⟩ := hy
      cases hp : g.parent with
      | none => exact ⟨y, g, hg, hgu, hp, .refl⟩
      | some p =>
          have hup : userParent acc.2 u y = some p := (userParent_owned hg hgu).trans hp
          obtain ⟨r, root, hr, hru, hrp, hpath⟩ := ih p hup ((howned p).mpr (hinside y p hup).2)
          exact ⟨r, root, hr, hru, hrp, .head hup hpath⟩
    exact hroot id ⟨f, hf, hu⟩

/-- A listing that succeeds leaves the user's folders a forest. -/
theorem getFolders_listed {r : Request} {t' : Table} (h : getFolders t r = (t', .ok)) :
    Listed t t' r.userId := by
  unfold getFolders at h
  split_ifs at h
  · obtain ⟨rfl, -⟩ := Prod.mk.inj h
    refine ((rerooted_start t r.userId).foldl ?_ fun _ he => he).listed
    rw [List.nil_append]
  · cases h

/-- A listing that does not succeed changes nothing. -/
theorem getFolders_refused {r : Request} {t' : Table} {reply : Reply}
    (h : getFolders t r = (t', reply)) (hreply : reply ≠ .ok) : t' = t := by
  unfold getFolders at h
  split_ifs at h
  · exact absurd (Prod.mk.inj h).2.symm hreply
  · exact (Prod.mk.inj h).1.symm

end OpenWebUI.Folders
