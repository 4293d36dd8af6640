import OpenWebUI.Folders.Listing
import OpenWebUI.Lib.Transition

/-! # Names among siblings

Creating, renaming and moving a folder look for a folder of the same name before they write.
Two writes go past that check: a folder created in somebody else's folder is checked against
the creator's folders, and a listing moves folders to the root unchecked.
-/

namespace OpenWebUI.Folders

open Py Relation

/-- A request to the folders router. -/
inductive Op where
  | list (r : Request)
  | create (r : Request) (id name : String) (parentId : Option String)
  | rename (r : Request) (id : String) (name : Option (Option String))
  | move (r : Request) (id : String) (parentId : Option String)
  | delete (r : Request) (id : String)

def Op.run (lower : String → String) (t : Table) : Op → Table × Reply
  | .list r => getFolders t r
  | .create r id name parentId => createFolder lower t r id name parentId
  | .rename r id name => updateFolderNameById lower t r id name
  | .move r id parentId => updateFolderParentIdById lower t r id parentId
  | .delete r id => deleteFolderById t r id

variable {lower : String → String} {t t' : Table} {u id : String} {f : Folder}

/-- The names are equal up to letter case. -/
def SameName (lower : String → String) (f g : Folder) : Prop := f.named lower g.name

/-- Two folders of one owner under one parent. -/
def Siblings (f g : Folder) : Prop := f.userId = g.userId ∧ f.parentId = g.parentId

/-- Siblings have different names. -/
def Apart (lower : String → String) (t : Table) : Prop :=
  ∀ a b f g, t.get? a = some f → t.get? b = some g → a ≠ b → Siblings f g → ¬ SameName lower f g

/-- The request does not go past the check into a clash: a folder created for somebody else has
a name of its own there, and what a listing brings to the root differs from what is there. -/
def Clear (lower : String → String) (t : Table) : Op → Prop
  | .create r _ name parentId => ∀ owner, newFolderOwner lower t r name parentId = .ok owner →
      owner ≠ r.userId → ∀ a f, t.get? a = some f → f.userId = owner → f.parentId = parentId →
        ¬ f.named lower name
  | .list r => r.permitted = true → ∀ a b f g,
      t.get? a = some f → t.get? b = some g → a ≠ b → f.userId = r.userId → g.userId = r.userId →
        (f.parentId = none ∨ Broken t r.userId a) → (g.parentId = none ∨ Broken t r.userId b) →
        ¬ SameName lower f g
  | _ => True

theorem SameName.symm {f g : Folder} (h : SameName lower f g) : SameName lower g f := Eq.symm h

/-! ## What the checks rule out -/

theorem lookup_eq_none {parentId : Option String} {name : String}
    (h : getFolderByParentIdAndUserIdAndName lower t parentId u name = none) {a : String}
    (hget : t.get? a = some f) (hu : f.userId = u) (hp : f.parentId = parentId) :
    ¬ f.named lower name := by
  intro hnamed
  have hnone := List.find?_eq_none.mp (Option.map_eq_none_iff.mp h) (a, f)
    ((Dict.mem_entries_iff _ _ _).mpr hget)
  exact hnone (by simp [hu, hp, hnamed])

theorem lookup_eq_some {parentId : Option String} {name : String}
    (h : getFolderByParentIdAndUserIdAndName lower t parentId u name = some id) :
    ∃ f, t.get? id = some f ∧ f.userId = u ∧ f.parentId = parentId ∧ f.named lower name := by
  obtain ⟨⟨id', f⟩, hfind, rfl⟩ := Option.map_eq_some_iff.mp h
  have hfound := List.find?_some hfind
  simp only [decide_eq_true_eq] at hfound
  exact ⟨f, (Dict.mem_entries_iff _ _ _).mp (List.mem_of_find?_eq_some hfind), hfound.2.1,
    hfound.1, hfound.2.2⟩

/-- A lookup that finds nothing but the folder itself: where siblings are apart, no other
folder there has the name. -/
theorem Apart.unclaimed (h : Apart lower t) {parentId : Option String} {name : String}
    (hcheck : (getFolderByParentIdAndUserIdAndName lower t parentId u name).any (· ≠ id) = false)
    {b : String} {g : Folder} (hget : t.get? b = some g) (hb : b ≠ id) (hu : g.userId = u)
    (hp : g.parentId = parentId) : ¬ g.named lower name := by
  intro hnamed
  cases hfound : getFolderByParentIdAndUserIdAndName lower t parentId u name with
  | none => exact lookup_eq_none hfound hget hu hp hnamed
  | some a =>
      rw [hfound, Option.any_some] at hcheck
      obtain rfl : a = id := by simpa using hcheck
      obtain ⟨f, hf, hfu, hfp, hfnamed⟩ := lookup_eq_some hfound
      exact h b a g f hget hf hb ⟨hu.trans hfu.symm, hp.trans hfp.symm⟩ (hnamed.trans hfnamed.symm)

/-! ## One row -/

/-- Writing one row keeps siblings apart when no sibling of the new row has its name. -/
theorem Apart.set (h : Apart lower t)
    (hnew : ∀ b g, t.get? b = some g → b ≠ id → Siblings g f → ¬ SameName lower g f) :
    Apart lower (t.set id f) := by
  intro a b fa fb ha hb hne hsib hsame
  rw [Dict.get?_set] at ha hb
  by_cases haid : a = id
  · rw [if_pos haid] at ha
    rw [if_neg fun hbid => hne (haid.trans hbid.symm)] at hb
    obtain rfl := Option.some.inj ha
    exact hnew b fb hb (fun hbid => hne (haid.trans hbid.symm))
      ⟨hsib.1.symm, hsib.2.symm⟩ hsame.symm
  · rw [if_neg haid] at ha
    by_cases hbid : b = id
    · rw [if_pos hbid] at hb
      obtain rfl := Option.some.inj hb
      exact hnew a fa ha haid hsib hsame
    · rw [if_neg hbid] at hb
      exact h a b fa fb ha hb hne hsib hsame

/-- Fewer rows: what is left was there. -/
theorem Apart.mono (h : Apart lower t) (hsub : ∀ a f, t'.get? a = some f → t.get? a = some f) :
    Apart lower t' :=
  fun a b f g ha hb => h a b f g (hsub a f ha) (hsub b g hb)

/-! ## Deleting -/

/-- Deleting children changes no row that stays. -/
theorem deleteChildren_rows (userId : String) (n : ℕ) (id : String) (d : Deletion) (a : String)
    (f : Folder) (h : (deleteChildren userId n id d).rows.get? a = some f) :
    d.rows.get? a = some f := by
  induction n generalizing id d with
  | zero => exact h
  | succ n ih =>
      rw [deleteChildren] at h
      generalize getFoldersByParentIdAndUserId d.rows id userId = children at h
      -- child by child, with the recursion below each of them
      induction children generalizing d with
      | nil => exact h
      | cons child children ihc =>
          rw [List.foldl_cons] at h
          have hrest := ihc _ h
          split_ifs at hrest with hskip
          · exact hrest
          · refine ih child { d with seen := child :: d.seen } ?_
            rw [Dict.get?_erase] at hrest
            split_ifs at hrest
            exact hrest

/-- Deleting a folder changes no row that stays. -/
theorem deleteFolder_rows (a : String) (h : (deleteFolderByIdAndUserId t id u).get? a = some f) :
    t.get? a = some f := by
  unfold deleteFolderByIdAndUserId at h
  split at h
  · exact h
  · rw [Dict.get?_erase] at h
    split_ifs at h
    exact deleteChildren_rows _ _ _ _ a f h

/-! ## The requests -/

/-- The folder goes to its creator, whose folders were checked, or to somebody else. -/
theorem newFolderOwner_checked {r : Request} {name owner : String} {parentId : Option String}
    (h : newFolderOwner lower t r name parentId = .ok owner) :
    getFolderByParentIdAndUserIdAndName lower t parentId r.userId name = none := by
  unfold newFolderOwner at h
  split_ifs at h with hpermitted hfound
  simpa using hfound

/-- A new folder keeps the names apart, where it is not one of two of that name. -/
theorem createFolder_apart (h : Apart lower t) {r : Request} {id name : String}
    {parentId : Option String} (hclear : Clear lower t (.create r id name parentId)) :
    Apart lower (createFolder lower t r id name parentId).1 := by
  unfold createFolder
  cases howner : newFolderOwner lower t r name parentId with
  | error reply => exact h
  | ok owner =>
      dsimp only
      unfold insertNewFolder
      split_ifs with hid
      · exact h
      · refine h.set fun b g hget _ hsib hsame => ?_
        by_cases hown : owner = r.userId
        · exact lookup_eq_none (newFolderOwner_checked howner) hget (hsib.1.trans hown) hsib.2 hsame
        · exact hclear owner howner hown b g hget hsib.1 hsib.2 hsame

/-- A changed row keeps the names apart, where the new name was looked up. -/
theorem update_apart (h : Apart lower t) {name : Option (Option String)} (merges : Bool)
    (hget : t.get? id = some f) (hcheck : ∀ n, name.join = some n →
      (getFolderByParentIdAndUserIdAndName lower t f.parentId f.userId n).any (· ≠ id) = false) :
    Apart lower (updateFolderByIdAndUserId t id f.userId name merges).1 := by
  unfold updateFolderByIdAndUserId
  rw [hget, Option.filter_some_pos (by simp)]
  dsimp only
  split_ifs with hexisting hmerges
  · exact h
  · cases name with
    | none => exact h.set fun b g hg hb hsib hsame => h b id g f hg hget hb hsib hsame
    | some given =>
        cases given with
        | none => exact h
        | some n =>
            exact h.set fun b g hg hb hsib hsame =>
              h.unclaimed (hcheck n rfl) hg hb hsib.1 hsib.2 hsame
  · split
    · exact h
    · exact h

/-- A folder that may be written is stored. -/
theorem writableFolder_get? {r : Request} {id : String} (h : writableFolder t r id = some f) :
    t.get? id = some f := by
  rcases Option.or_eq_some_iff.mp h with hown | ⟨-, hshared⟩
  · exact (Option.filter_eq_some_iff.mp hown).1
  · exact (Option.filter_eq_some_iff.mp hshared).1

/-- Renaming keeps the names apart. -/
theorem renameFolder_apart (h : Apart lower t) (r : Request) (id : String)
    (name : Option (Option String)) : Apart lower (updateFolderNameById lower t r id name).1 := by
  unfold updateFolderNameById
  split
  · exact h
  · split
    · exact h
    · next folder hfolder =>
        split
        · exact h
        · split
          · exact h
          · next hclash =>
              split
              · exact h
              · exact h
              · split
                · exact h
                · refine update_apart h _ (writableFolder_get? hfolder) fun n hn => ?_
                  rw [hn, Option.bind_some] at hclash
                  exact Bool.eq_false_iff.mpr hclash

/-- Moving keeps the names apart. -/
theorem moveFolder_apart (h : Apart lower t) (r : Request) (id : String)
    (parentId : Option String) :
    Apart lower (updateFolderParentIdById lower t r id parentId).1 := by
  unfold updateFolderParentIdById
  split
  · exact h
  · split
    · exact h
    · next folder hfolder =>
        obtain ⟨hget, howner⟩ := Option.filter_eq_some_iff.mp hfolder
        have hu : folder.userId = r.userId := of_decide_eq_true howner
        split
        · exact h
        · next hclash =>
            split
            · exact h
            · dsimp only
              rw [updateFolderParentIdByIdAndUserId, hget,
                Option.filter_some_pos (by simpa using hu)]
              exact h.set fun b g hg hb hsib hsame =>
                h.unclaimed (Bool.eq_false_iff.mpr hclash) hg hb (hsib.1.trans hu) hsib.2 hsame

/-- Deleting keeps the names apart. -/
theorem deleteFolder_apart (h : Apart lower t) (r : Request) (id : String) :
    Apart lower (deleteFolderById t r id).1 := by
  unfold deleteFolderById
  split
  · exact h
  · split
    · exact h
    · split
      · exact h
      · split
        · exact h
        · exact h.mono fun a f => deleteFolder_rows a

/-- A folder that is listed under the root was there, or was broken. -/
theorem Listed.cases {t t' : Table} {u a : String} {f' : Folder} (h : Listed t t' u)
    (hget : t'.get? a = some f') : ∃ f, t.get? a = some f ∧ f.userId = f'.userId ∧
      f.name = f'.name ∧ (f'.parentId = f.parentId ∨
        f.userId = u ∧ Broken t u a ∧ f'.parentId = none) := by
  cases hold : t.get? a with
  | none =>
      rw [h.onlyOld a hold] at hget
      cases hget
  | some f =>
      rcases h.rows a f hold with hsame | ⟨hu, hbroken, hmoved⟩
      · obtain rfl := Option.some.inj (hsame.symm.trans hget)
        exact ⟨f, rfl, rfl, rfl, Or.inl rfl⟩
      · obtain rfl := Option.some.inj (hmoved.symm.trans hget)
        exact ⟨f, rfl, rfl, rfl, Or.inr ⟨hu, hbroken, rfl⟩⟩

/-- A listing keeps the names apart, where the folders it moves have names of their own. -/
theorem getFolders_apart (h : Apart lower t) {r : Request} (hclear : Clear lower t (.list r)) :
    Apart lower (getFolders t r).1 := by
  rcases hrun : getFolders t r with ⟨t', reply⟩
  by_cases hreply : reply = .ok
  · subst hreply
    have hlisted := getFolders_listed hrun
    have hpermitted : r.permitted = true := by
      by_contra hnot
      unfold getFolders at hrun
      rw [if_pos hnot] at hrun
      cases hrun
    intro a b f' g' ha hb hne hsib hsame
    obtain ⟨f, hf, hfu, hfn, hfp⟩ := hlisted.cases ha
    obtain ⟨g, hg, hgu, hgn, hgp⟩ := hlisted.cases hb
    have hsame' : SameName lower f g := by
      rw [SameName, Folder.named, hfn, hgn]
      exact hsame
    have howner : f.userId = g.userId := hfu.trans (hsib.1.trans hgu.symm)
    rcases hfp with hfp | ⟨hfr, hfb, hfp⟩
    · rcases hgp with hgp | ⟨hgr, hgb, hgp⟩
      · exact h a b f g hf hg hne ⟨howner, hfp.symm.trans (hsib.2.trans hgp)⟩ hsame'
      · exact hclear hpermitted a b f g hf hg hne (howner.trans hgr) hgr
          (Or.inl (hfp.symm.trans (hsib.2.trans hgp))) (Or.inr hgb) hsame'
    · have hg0 : g'.parentId = none := hsib.2.symm.trans hfp
      refine hclear hpermitted a b f g hf hg hne hfr (howner.symm.trans hfr) (Or.inr hfb) ?_ hsame'
      rcases hgp with hgp | ⟨-, hgb, -⟩
      · exact Or.inl (hgp.symm.trans hg0)
      · exact Or.inr hgb
  · rw [getFolders_refused hrun hreply]
    exact h

/-- One request. -/
theorem Apart.run_apart (h : Apart lower t) {op : Op} (hclear : Clear lower t op) :
    Apart lower (op.run lower t).1 := by
  cases op with
  | list r => exact getFolders_apart h hclear
  | create r id name parentId => exact createFolder_apart h hclear
  | rename r id name => exact renameFolder_apart h r id name
  | move r id parentId => exact moveFolder_apart h r id parentId
  | delete r id => exact deleteFolder_apart h r id

/-! ## Runs -/

/-- Requests one at a time, from no folders. -/
def Reachable (lower : String → String) : Table → Prop :=
  Transition.Reachable (· = ∅) fun op t t' => t' = (Op.run lower t op).1

/-- The same, where every request is clear. -/
def ReachableClear (lower : String → String) : Table → Prop :=
  Transition.Reachable (· = ∅) fun op t t' => Clear lower t op ∧ t' = (Op.run lower t op).1

/-- After every listing the user's folders are a forest; and in every run of clear requests,
siblings have different names. -/
theorem folders_runs (lower : String → String) (t : Table) :
    (Reachable lower t → ∀ r t', Op.run lower t (.list r) = (t', .ok) → IsForest t' r.userId) ∧
      (ReachableClear lower t → Apart lower t) := by
  constructor
  · intro _ r t' hrun
    exact (getFolders_listed hrun).forest
  · intro hreach
    refine hreach.invariant (fun t hinit => ?_) fun op t t' hapart hstep => ?_
    · subst hinit
      intro a b f g ha
      cases ha
    · rw [hstep.2]
      exact hapart.run_apart hstep.1

/-- The table after some requests. -/
def runAll (lower : String → String) (ops : List Op) : Table :=
  ops.foldl (fun t op => (op.run lower t).1) ∅

/-- `lower` of SQLite: ASCII letters only. -/
def asciiLower (s : String) : String := String.ofList (s.toList.map Char.toLower)

/-- A user with no other rights than those granted. -/
def member (userId : String) (granted : String → String → Bool) : Request :=
  ⟨userId, "user", true, granted, true, .readable, false, true, true⟩

/-- A list of requests reaches its last table. -/
theorem reachable_runAll (lower : String → String) (ops : List Op) :
    Reachable lower (runAll lower ops) := by
  have hrun : ∀ t, Reachable lower t →
      Reachable lower (ops.foldl (fun t op => (op.run lower t).1) t) := by
    induction ops with
    | nil => exact fun t ht => ht
    | cons op ops ih => exact fun t ht => ih _ (ht.next (a := op) rfl)
  exact hrun ∅ (.start rfl)

/-- A name that no folder has may be given. -/
theorem clear_create (r : Request) (id : String) (parentId : Option String) {name : String}
    (h : ∀ e ∈ t.entries, ¬ e.2.named lower name) : Clear lower t (.create r id name parentId) :=
  fun _ _ _ a f hget _ _ => h (a, f) ((Dict.mem_entries_iff _ _ _).mpr hget)

/-- A listing may run where no two folders share a name. -/
theorem clear_list (r : Request) (h : ∀ e ∈ t.entries, ∀ e' ∈ t.entries, e.1 ≠ e'.1 →
    ¬ SameName lower e.2 e'.2) : Clear lower t (.list r) :=
  fun _ a b f g ha hb hne _ _ _ _ => h (a, f) ((Dict.mem_entries_iff _ _ _).mpr ha) (b, g)
    ((Dict.mem_entries_iff _ _ _).mpr hb) hne

/-- A clear request leads to another reachable table. -/
theorem ReachableClear.run (h : ReachableClear lower t) (op : Op) (hclear : Clear lower t op) :
    ReachableClear lower (op.run lower t).1 := h.next (a := op) ⟨hclear, rfl⟩

/-- The owner's folders `Work` and `Home`, and an editor's `Notes` in `Work`; `Home` becomes
`Play`, moves into `Work`, and the owner lists the folders. -/
theorem folders_runs_shared :
    Apart asciiLower (runAll asciiLower
      [.create (member "o" fun _ _ => false) "f" "Work" none,
        .create (member "o" fun _ _ => false) "g" "Home" none,
        .create (member "e" fun _ _ => true) "b" "Notes" (some "f"),
        .rename (member "o" fun _ _ => false) "g" (some (some "Play")),
        .move (member "o" fun _ _ => false) "g" (some "f"),
        .list (member "o" fun _ _ => false)]) := by
  refine (folders_runs asciiLower _).2 ?_
  have hwork : ReachableClear asciiLower (runAll asciiLower
      [.create (member "o" fun _ _ => false) "f" "Work" none]) :=
    .next (.start rfl) ⟨clear_create _ _ _ (by decide), rfl⟩
  have hhome := hwork.run (.create (member "o" fun _ _ => false) "g" "Home" none)
    (clear_create _ _ _ (by decide))
  have hnotes := hhome.run (.create (member "e" fun _ _ => true) "b" "Notes" (some "f"))
    (clear_create _ _ _ (by decide))
  have hplay := hnotes.run (.rename (member "o" fun _ _ => false) "g" (some (some "Play"))) trivial
  have hmoved := hplay.run (.move (member "o" fun _ _ => false) "g" (some "f")) trivial
  exact hmoved.run (.list (member "o" fun _ _ => false))
    (clear_list _ (by unfold SameName; decide))

/-- An editor of a shared folder creates a second `X` beside the owner's; and a folder that was
moved under an id that does not exist comes back to the root beside its namesake. -/
theorem sibling_names_clash :
    (Reachable asciiLower (runAll asciiLower
        [.create (member "o" fun _ _ => false) "f" "Shared" none,
          .create (member "o" fun _ _ => false) "a" "X" (some "f"),
          .create (member "e" fun _ _ => true) "b" "x" (some "f")]) ∧
      ¬ Apart asciiLower (runAll asciiLower
        [.create (member "o" fun _ _ => false) "f" "Shared" none,
          .create (member "o" fun _ _ => false) "a" "X" (some "f"),
          .create (member "e" fun _ _ => true) "b" "x" (some "f")])) ∧
    ¬ Apart asciiLower (runAll asciiLower
        [.create (member "o" fun _ _ => false) "a" "X" none,
          .create (member "o" fun _ _ => false) "b" "x" (some "gone"),
          .list (member "o" fun _ _ => false)]) := by
  refine ⟨⟨reachable_runAll _ _, fun h => ?_⟩, fun h => ?_⟩
  · refine h "a" "b" ⟨some "f", "o", "X"⟩ ⟨some "f", "o", "x"⟩ (by decide) (by decide)
      (by decide) ⟨rfl, rfl⟩ (show asciiLower "X" = asciiLower "x" by decide)
  · refine h "a" "b" ⟨none, "o", "X"⟩ ⟨none, "o", "x"⟩ (by decide) (by decide)
      (by decide) ⟨rfl, rfl⟩ (show asciiLower "X" = asciiLower "x" by decide)

end OpenWebUI.Folders
