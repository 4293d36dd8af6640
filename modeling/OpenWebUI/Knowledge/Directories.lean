import OpenWebUI.Lib.Dict
import OpenWebUI.Lib.Forest
import OpenWebUI.Lib.Recursive

/-! # Directories of a knowledge base

`move_directory`, `update_directory` and `delete_directory` of
`backend/open_webui/models/knowledge.py` on the tables of directories and file records. A statement
raises where it breaks a constraint that the database enforces, and a call that raises answers
`None` or `False`. Uniqueness is always enforced; the declared foreign keys are not enforced by
SQLite, the default database, since its pragma `foreign_keys` is off and `internal/db.py` does not
turn it on. The parameter `fk` says whether they are.

An update is a move and then a rename, each committed on its own. The main result says when a failed
update has left its move behind, and when a delete has left subdirectories behind.
-/

namespace OpenWebUI.Knowledge

open Py

/-- A row of `knowledge_directory`, but for its id. -/
structure Directory where
  knowledgeId : String
  parentId : Option String
  name : String
  userId : String
  createdAt : ℤ
  updatedAt : ℤ
deriving DecidableEq

/-- A row of `knowledge_file`, but for its id. -/
structure KnowledgeFile where
  knowledgeId : String
  fileId : String
  directoryId : Option String
  userId : String
  createdAt : ℤ
  updatedAt : ℤ
deriving DecidableEq

abbrev Directories := Dict String Directory

abbrev Files := Dict String KnowledgeFile

/-- Both tables, keyed by id. -/
structure Tables where
  directories : Directories
  files : Files

def parentOf (dirs : Directories) (id : String) : Option String :=
  (dirs.get? id).bind Directory.parentId

/-! ## `move_directory`, `rename_directory` and `update_directory` -/

/-- The cycle check: the loop up from `current` meets the directory. -/
def meetsDirectory (dirs : Directories) (directoryId : String) : ℕ → Option String →
    List String → Bool
  | 0, _, _ => false
  | fuel + 1, current, seen =>
    match current.filter fun c => c ≠ "" with
    | none => false
    | some c =>
      if c ∈ seen then false
      else if c = directoryId then true
      else meetsDirectory dirs directoryId fuel (parentOf dirs c) (c :: seen)

/-- Another directory of the knowledge base has the same parent and the same name; roots have no
parent to share. -/
def duplicate (dirs : Directories) (id : String) (row : Directory) : Bool :=
  row.parentId.isSome && dirs.entries.any fun e =>
    e.1 ≠ id && e.2.knowledgeId = row.knowledgeId && e.2.parentId = row.parentId &&
      e.2.name = row.name

/-- The foreign key of the parent is broken. -/
def parentMissing (fk : Bool) (dirs : Directories) (row : Directory) : Bool :=
  fk && row.parentId.any fun p => p ∉ dirs

/-- `UPDATE knowledge_directory SET … WHERE id = …`; `none` when the new row breaks a constraint. -/
def updateRow (dirs : Directories) (id : String) (f : Directory → Directory)
    (breaks : Directory → Bool) :
    Option Directories :=
  match dirs.get? id with
  | none => some dirs
  | some row => if breaks (f row) then none else some (dirs.set id (f row))

/-- The row after a move. -/
def movedRow (row : Directory) (parentId : Option String) (now : ℤ) : Directory :=
  { row with parentId := parentId, updatedAt := now }

/-- The row after a rename. -/
def renamedRow (row : Directory) (name : String) (now : ℤ) : Directory :=
  { row with name := name, updatedAt := now }

/-- The table after the call, and its answer. -/
def moveDirectory (fk : Bool) (dirs : Directories) (directoryId : String)
    (newParentId : Option String)
    (now : ℤ) : Directories × Option Directory :=
  if meetsDirectory dirs directoryId (dirs.size + 1) newParentId [] then (dirs, none)
  else
    let write := updateRow dirs directoryId (fun row => movedRow row newParentId now)
      (fun row => duplicate dirs directoryId row || parentMissing fk dirs row)
    match write with
    | none => (dirs, none)
    | some dirs => (dirs, dirs.get? directoryId)

def renameDirectory (dirs : Directories) (directoryId : String) (name : String) (now : ℤ) :
    Directories × Option Directory :=
  let write := updateRow dirs directoryId (fun row => renamedRow row name now)
    (duplicate dirs directoryId)
  match write with
  | none => (dirs, none)
  | some dirs => (dirs, dirs.get? directoryId)

/-- The second half of `update_directory`. -/
def renameIfGiven (dirs : Directories) (directoryId : String) (name : Option String) (now : ℤ) :
    Directories × Option Directory :=
  match name with
  | some name => renameDirectory dirs directoryId name now
  | none => (dirs, dirs.get? directoryId)

def updateDirectory (fk : Bool) (dirs : Directories) (directoryId : String)
    (name parentId : Option String)
    (now : ℤ) : Directories × Option Directory :=
  if parentId ≠ some "__unset__" then
    let moved := moveDirectory fk dirs directoryId parentId now
    if moved.2 = none then (moved.1, none) else renameIfGiven moved.1 directoryId name now
  else renameIfGiven dirs directoryId name now

/-! ## `delete_directory` -/

/-- `SELECT id FROM knowledge_directory WHERE parent_id = …`. -/
def childIds (dirs : Directories) (directoryId : String) : List String :=
  (dirs.entries.filter fun e => e.2.parentId = some directoryId).map Prod.fst

/-- `UPDATE knowledge_file SET directory_id = … WHERE directory_id = …`. -/
def moveFiles (target : Option String) (directoryId : String) (files : Files) : Files :=
  files.mapVal fun _ f => if f.directoryId = some directoryId then { f with directoryId := target }
    else f

/-- `DELETE FROM knowledge_file WHERE directory_id = …`. -/
def deleteFiles (directoryId : String) (files : Files) : Files :=
  files.filterMapVal fun f => if f.directoryId = some directoryId then none else some f

/-- `_move_files_from_subtree`, with a bound on the depth. -/
def moveFilesFromSubtree (dirs : Directories) (target : Option String) : ℕ → String →
    Files → Option Files
  | 0, _, _ => none
  | fuel + 1, directoryId, files =>
    (childIds dirs directoryId).foldlM
      (fun files childId => moveFilesFromSubtree dirs target fuel childId
        (moveFiles target childId files)) files

/-- `_delete_files_in_subtree`, with a bound on the depth. -/
def deleteFilesInSubtree (dirs : Directories) : ℕ → String → Files → Option Files
  | 0, _, _ => none
  | fuel + 1, directoryId, files =>
    (childIds dirs directoryId).foldlM
      (fun files childId => deleteFilesInSubtree dirs fuel childId files)
      (deleteFiles directoryId files)

/-- The directories a delete cascades to, the deleted one first. -/
def cascadeIds (dirs : Directories) (directoryId : String) : List String :=
  Recursive.recursiveUnion (childIds dirs) (dirs.size + 1) [directoryId]

/-- `DELETE FROM knowledge_directory WHERE id = …`: where foreign keys are enforced,
subdirectories go with it, and file records lose a directory that is gone. -/
def deleteRow (fk : Bool) (t : Tables) (directoryId : String) : Tables :=
  if fk then
    let gone := cascadeIds t.directories directoryId
    ⟨gone.foldl Dict.erase t.directories,
      t.files.mapVal fun _ f => if f.directoryId.any (· ∈ gone) then { f with directoryId := none }
        else f⟩
  else { t with directories := t.directories.erase directoryId }

/-- The tables after the call, and its answer; `none` when the bound on the depth is too small. -/
def deleteDirectory (fk : Bool) (t : Tables) (directoryId : String)
    (moveFilesToParent : Bool) (fuel : ℕ) :
    Option (Tables × Bool) :=
  match t.directories.get? directoryId with
  | none => some (t, false)
  | some directory => do
    let files ←
      if moveFilesToParent then
        moveFilesFromSubtree t.directories directory.parentId fuel directoryId
          (moveFiles directory.parentId directoryId t.files)
      else deleteFilesInSubtree t.directories fuel directoryId t.files
    return (deleteRow fk ⟨t.directories, files⟩ directoryId, true)

/-! ## What the operations should do -/

/-- A directory forest: no directory is its own ancestor, every file record is placed in a
directory or at the root, and the ids are not empty. -/
structure DirectoryForest (t : Tables) : Prop where
  acyclic : Forest.Acyclic (parentOf t.directories)
  placed : ∀ k f d, t.files.get? k = some f → f.directoryId = some d → d ∈ t.directories
  ids : "" ∉ t.directories

/-- `d` is the directory `id` or lies below it. -/
def InSubtree (dirs : Directories) (id d : String) : Prop :=
  Relation.ReflTransGen (Forest.Up (parentOf dirs)) d id

/-- The file record is placed in a directory of `S`. -/
def PlacedIn (S : Set String) (f : KnowledgeFile) : Prop := ∃ d ∈ S, f.directoryId = some d

/-- The directories that are left: those outside the subtree, unchanged. -/
def RemovesSubtree (dirs dirs' : Directories) (id : String) : Prop :=
  ∀ k, (InSubtree dirs id k → dirs'.get? k = none) ∧
    (¬ InSubtree dirs id k → dirs'.get? k = dirs.get? k)

/-- The files of `S` are now at `target`, and nothing else has changed. -/
def MovesFiles (target : Option String) (S : Set String) (files files' : Files) : Prop :=
  files'.keys = files.keys ∧ ∀ k f, files.get? k = some f →
    (PlacedIn S f → files'.get? k = some { f with directoryId := target }) ∧
    (¬ PlacedIn S f → files'.get? k = some f)

/-- The files of `S` are gone, and nothing else has changed. -/
def DeletesFiles (S : Set String) (files files' : Files) : Prop :=
  ∀ k, (∀ f, files.get? k = some f → PlacedIn S f → files'.get? k = none) ∧
    ((∀ f, files.get? k = some f → ¬ PlacedIn S f) → files'.get? k = files.get? k)

/-- Parent and name of every directory are the same. -/
def SamePlaces (dirs dirs' : Directories) : Prop :=
  ∀ k, (dirs'.get? k).map (fun d => (d.parentId, d.name)) = (dirs.get? k).map fun d =>
    (d.parentId, d.name)

/-- What deleting, moving and updating a directory should do. -/
structure DirectoryOperations (fk : Bool) (t : Tables) (id : String) (name parentId : Option String)
    (now : ℤ) : Prop where
  deleteMoving : ∀ directory, t.directories.get? id = some directory → ∃ fuel t',
    deleteDirectory fk t id true fuel = some (t', true) ∧
      RemovesSubtree t.directories t'.directories id ∧
    MovesFiles directory.parentId {d | InSubtree t.directories id d} t.files t'.files
  deleteAll : ∀ directory, t.directories.get? id = some directory → ∃ fuel t',
    deleteDirectory fk t id false fuel = some (t', true) ∧
      RemovesSubtree t.directories t'.directories id ∧
    DeletesFiles {d | InSubtree t.directories id d} t.files t'.files
  move : Forest.Acyclic (parentOf (moveDirectory fk t.directories id parentId now).1)
  update : Forest.Acyclic (parentOf (updateDirectory fk t.directories id name parentId now).1)
  failed : (updateDirectory fk t.directories id name parentId now).2 = none →
    SamePlaces t.directories (updateDirectory fk t.directories id name parentId now).1

/-! ## The cycle check -/

variable {fk : Bool} {dirs : Directories} {id : String}

theorem mem_of_parentOf {c p : String} (h : parentOf dirs c = some p) : c ∈ dirs := by
  obtain ⟨d, hd, _⟩ := Option.bind_eq_some_iff.mp h
  exact Dict.mem_of_get? hd

/-- The check finds the directory wherever the climb leads to it. -/
theorem meetsDirectory_of_reach (hacyclic : Forest.Acyclic (parentOf dirs)) (hids : "" ∉ dirs)
    (hid : id ∈ dirs) (fuel : ℕ) :
    ∀ (c : String) (seen : List String), InSubtree dirs id c → seen.Nodup →
      (∀ s ∈ seen, s ∈ dirs) → (∀ s ∈ seen, Relation.TransGen (Forest.Up (parentOf dirs)) s c) →
      dirs.size + 1 ≤ fuel + seen.length → meetsDirectory dirs id fuel (some c) seen = true := by
  induction fuel with
  | zero =>
      intro c seen _ hnodup hsub _ hfuel
      have hle := dirs.length_le_size hnodup hsub
      omega
  | succ fuel ih =>
      intro c seen hreach hnodup hsub habove hfuel
      have hseen : c ∉ seen := fun hmem => hacyclic c (habove c hmem)
      have hc : c ∈ dirs := by
        rcases Relation.ReflTransGen.cases_head hreach with rfl | ⟨q, hq, _⟩
        · exact hid
        · exact mem_of_parentOf hq
      have hne : c ≠ "" := fun h => hids (h ▸ hc)
      rw [meetsDirectory, Option.filter_some, if_pos (by simpa using hne)]
      simp only
      rw [if_neg hseen]
      split_ifs with heq
      · rfl
      · rcases Relation.ReflTransGen.cases_head hreach with heq' | ⟨q, hq, hqid⟩
        · exact absurd heq' heq
        · rw [show parentOf dirs c = some q from hq]
          refine ih q (c :: seen) hqid (List.nodup_cons.mpr ⟨hseen, hnodup⟩)
            (fun s hs => (List.mem_cons.mp hs).elim (fun h => h ▸ hc) (hsub s)) (fun s hs => ?_)
            (by rw [List.length_cons]; omega)
          rcases List.mem_cons.mp hs with rfl | hs
          · exact .single hq
          · exact (habove s hs).tail hq

/-- Whatever the walk meets lies below the directory. -/
theorem reach_of_meetsDirectory (fuel : ℕ) : ∀ (current : Option String) (seen : List String),
    meetsDirectory dirs id fuel current seen = true → ∃ c, current = some c ∧
      InSubtree dirs id c := by
  induction fuel with
  | zero =>
      intro current seen h
      cases h
  | succ fuel ih =>
      intro current seen h
      rw [meetsDirectory] at h
      split at h
      · cases h
      · next c hc =>
          obtain ⟨rfl, _⟩ := Option.filter_eq_some_iff.mp hc
          split_ifs at h with hseen heq
          · exact ⟨c, rfl, heq ▸ .refl⟩
          · obtain ⟨q, hq, hreach⟩ := ih _ _ h
            exact ⟨c, rfl, hreach.head hq⟩

/-- The walk meets the directory exactly below it. -/
theorem meetsDirectory_iff (hacyclic : Forest.Acyclic (parentOf dirs)) (hids : "" ∉ dirs)
    (hid : id ∈ dirs) (p : String) :
    meetsDirectory dirs id (dirs.size + 1) (some p) [] = true ↔ InSubtree dirs id p := by
  constructor
  · intro h
    obtain ⟨c, hc, hreach⟩ := reach_of_meetsDirectory _ _ _ h
    exact Option.some.inj hc ▸ hreach
  · intro h
    exact meetsDirectory_of_reach hacyclic hids hid _ p [] h List.nodup_nil
      (fun _ hs => absurd hs List.not_mem_nil) (fun _ hs => absurd hs List.not_mem_nil)
        (Nat.le_add_right _ _)

/-! ## Moving and renaming -/

/-- Another directory of the knowledge base has the name under the parent. -/
def Taken (dirs : Directories) (id knowledgeId parentId name : String) : Prop :=
  ∃ k d, k ≠ id ∧ dirs.get? k = some d ∧ d.knowledgeId = knowledgeId ∧
    d.parentId = some parentId ∧ d.name = name

/-- The constraint fails where the name is taken. -/
theorem duplicate_iff {row : Directory} : duplicate dirs id row = true ↔
    ∃ p, row.parentId = some p ∧ Taken dirs id row.knowledgeId p row.name := by
  simp only [duplicate, Bool.and_eq_true, List.any_eq_true, decide_eq_true_eq]
  constructor
  · rintro ⟨hsome, ⟨k, d⟩, hmem, ⟨⟨hk, hkb⟩, hparent⟩, hname⟩
    obtain ⟨p, hp⟩ := Option.isSome_iff_exists.mp hsome
    exact ⟨p, hp, k, d, hk, (Dict.mem_entries_iff _ _ _).mp hmem, hkb, hparent.trans hp, hname⟩
  · rintro ⟨p, hp, k, d, hk, hget, hkb, hparent, hname⟩
    exact ⟨by rw [hp]; rfl, (k, d), (Dict.mem_entries_iff _ _ _).mpr hget,
      ⟨⟨hk, hkb⟩, hparent.trans hp.symm⟩, hname⟩

/-- The foreign key refuses a parent that is no directory. -/
theorem parentMissing_iff {row : Directory} :
    parentMissing fk dirs row = true ↔ fk = true ∧ ∃ p, row.parentId = some p ∧ p ∉ dirs := by
  rw [parentMissing, Bool.and_eq_true, Option.any_eq_true]
  simp only [decide_eq_true_eq]

/-- Another row under `id` does not touch the others. -/
theorem taken_set {row : Directory} {knowledgeId p name : String} :
    Taken (dirs.set id row) id knowledgeId p name ↔ Taken dirs id knowledgeId p name := by
  refine exists_congr fun k => exists_congr fun d => and_congr_right fun hk => ?_
  rw [Dict.get?_set_ne _ _ hk]

theorem parentOf_set (row : Directory) (c : String) :
    parentOf (dirs.set id row) c = if c = id then row.parentId else parentOf dirs c := by
  rw [parentOf, Dict.get?_set]
  split_ifs <;> rfl

/-- A directory that is not stored is not moved. -/
theorem moveDirectory_missing (h : dirs.get? id = none) (parentId : Option String) (now : ℤ) :
    moveDirectory fk dirs id parentId now = (dirs, none) := by
  rw [moveDirectory, updateRow, h]
  split_ifs
  · rfl
  · simp only
    rw [h]

/-- What a move does to a stored directory. -/
theorem moveDirectory_stored {row : Directory} (h : dirs.get? id = some row)
    (parentId : Option String) (now : ℤ) :
    moveDirectory fk dirs id parentId now =
      if meetsDirectory dirs id (dirs.size +
        1) parentId [] || duplicate dirs id (movedRow row parentId now) ||
          parentMissing fk dirs (movedRow row parentId now) then (dirs, none)
      else (dirs.set id (movedRow row parentId now), some (movedRow row parentId now)) := by
  rw [moveDirectory, updateRow, h]
  by_cases hmeets : meetsDirectory dirs id (dirs.size + 1) parentId [] = true
  · rw [if_pos hmeets, if_pos (by simp [hmeets])]
  · rw [if_neg hmeets]
    dsimp only
    by_cases hbreaks : (duplicate dirs id (movedRow row parentId now) ||
        parentMissing fk dirs (movedRow row parentId now)) = true
    · rw [if_pos hbreaks, if_pos (by simpa [hmeets] using hbreaks)]
    · rw [if_neg hbreaks, if_neg (by simpa [hmeets] using hbreaks)]
      simp only [Dict.get?_set_self]

/-- A directory that is not stored is not renamed. -/
theorem renameDirectory_missing (h : dirs.get? id = none) (name : String) (now : ℤ) :
    renameDirectory dirs id name now = (dirs, none) := by
  rw [renameDirectory, updateRow, h]
  simp only
  rw [h]

/-- What a rename does to a stored directory. -/
theorem renameDirectory_stored {row : Directory} (h : dirs.get? id = some row) (name : String)
    (now : ℤ) :
    renameDirectory dirs id name now =
      if duplicate dirs id (renamedRow row name now) then (dirs, none)
      else (dirs.set id (renamedRow row name now), some (renamedRow row name now)) := by
  rw [renameDirectory, updateRow, h]
  dsimp only
  split_ifs
  · rfl
  · simp only [Dict.get?_set_self]

/-- A rename keeps the parents. -/
theorem parentOf_renameDirectory (dirs : Directories) (id name : String) (now : ℤ) :
    parentOf (renameDirectory dirs id name now).1 = parentOf dirs := by
  cases h : dirs.get? id with
  | none => rw [renameDirectory_missing h]
  | some row =>
      rw [renameDirectory_stored h]
      split_ifs
      · rfl
      · funext c
        rw [parentOf_set]
        split_ifs with hc
        · rw [hc, parentOf, h]
          rfl
        · rfl

/-- A rename moves nothing. -/
theorem parentOf_renameIfGiven (dirs : Directories) (id : String) (name : Option String) (now : ℤ) :
    parentOf (renameIfGiven dirs id name now).1 = parentOf dirs := by
  cases name with
  | none => rfl
  | some name => exact parentOf_renameDirectory dirs id name now

/-- A move keeps the forest acyclic. -/
theorem acyclic_moveDirectory (hacyclic : Forest.Acyclic (parentOf dirs)) (hids : "" ∉ dirs)
    (parentId : Option String) (now : ℤ) :
    Forest.Acyclic (parentOf (moveDirectory fk dirs id parentId now).1) := by
  cases h : dirs.get? id with
  | none =>
      rw [moveDirectory_missing h]
      exact hacyclic
  | some row =>
      rw [moveDirectory_stored h]
      split_ifs with hstay
      · exact hacyclic
      · simp only [Bool.or_eq_true, not_or] at hstay
        cases parentId with
        | none =>
            -- a root has no link
            refine hacyclic.mono fun c p hcp => ?_
            rw [parentOf_set] at hcp
            split_ifs at hcp with hc
            · cases hcp
            · exact hcp
        | some p =>
            refine hacyclic.relink (x := id) (p := p) (fun hreach => ?_)
              (fun q hq => ?_) fun c hc => ?_
            · exact hstay.1.1 ((meetsDirectory_iff hacyclic hids (Dict.mem_of_get? h) p).mpr hreach)
            · rw [parentOf_set, if_pos rfl] at hq
              exact (Option.some.inj hq).symm
            · rw [parentOf_set, if_neg hc]

/-- An update closes no loop. -/
theorem acyclic_updateDirectory (hacyclic : Forest.Acyclic (parentOf dirs)) (hids : "" ∉ dirs)
    (name parentId : Option String) (now : ℤ) :
    Forest.Acyclic (parentOf (updateDirectory fk dirs id name parentId now).1) := by
  rw [updateDirectory]
  dsimp only
  split_ifs
  · exact acyclic_moveDirectory hacyclic hids parentId now
  · rw [parentOf_renameIfGiven]
    exact acyclic_moveDirectory hacyclic hids parentId now
  · rw [parentOf_renameIfGiven]
    exact hacyclic

/-! ## What a failed update leaves behind -/

/-- The directory may move to another parent under its old name, where the new name is taken. -/
structure MoveLost (fk : Bool) (dirs : Directories) (id : String) (name parentId : Option String)
    (row : Directory) (p n : String) : Prop where
  stored : dirs.get? id = some row
  parent : parentId = some p
  given : p ≠ "__unset__"
  elsewhere : row.parentId ≠ some p
  exists' : fk = true → p ∈ dirs
  allowed : ¬ InSubtree dirs id p
  free : ¬ Taken dirs id row.knowledgeId p row.name
  renamed : name = some n
  taken : Taken dirs id row.knowledgeId p n

/-- Nothing has moved in a table that stays. -/
theorem samePlaces_self (dirs : Directories) : SamePlaces dirs dirs := fun _ => rfl

theorem samePlaces_set {row row' : Directory} (h : dirs.get? id = some row) :
    SamePlaces dirs (dirs.set id row') ↔ row'.parentId = row.parentId ∧ row'.name = row.name := by
  constructor
  · intro hsame
    have hid := hsame id
    rw [Dict.get?_set_self, h, Option.map_some, Option.map_some, Option.some.injEq,
      Prod.mk.injEq] at hid
    exact hid
  · rintro ⟨hparent, hname⟩ k
    rw [Dict.get?_set]
    split_ifs with hk
    · rw [hk, h, Option.map_some, Option.map_some, hparent, hname]
    · rfl

/-- A rename that fails has changed nothing. -/
theorem samePlaces_renameIfGiven {name : Option String} {now : ℤ}
    (h : (renameIfGiven dirs id name now).2 = none) :
    (renameIfGiven dirs id name now).1 = dirs := by
  cases name with
  | none => rfl
  | some name =>
      rw [renameIfGiven] at h ⊢
      cases hget : dirs.get? id with
      | none => rw [renameDirectory_missing hget]
      | some row =>
          rw [renameDirectory_stored hget] at h ⊢
          split_ifs at h ⊢
          rfl

/-- A failed update has changed a place exactly where its move is lost. -/
theorem failed_iff (hacyclic : Forest.Acyclic (parentOf dirs)) (hids : "" ∉ dirs)
    (name parentId : Option String) (now : ℤ) :
    ((updateDirectory fk dirs id name parentId now).2 = none →
      SamePlaces dirs (updateDirectory fk dirs id name parentId now).1) ↔
      ¬ ∃ row p n, MoveLost fk dirs id name parentId row p n := by
  by_cases hgiven : parentId ≠ some "__unset__"
  · rw [updateDirectory, if_pos hgiven]
    dsimp only
    -- the directory is missing, so nothing is moved
    cases hget : dirs.get? id with
    | none =>
        rw [moveDirectory_missing hget, if_pos rfl]
        refine iff_of_true (fun _ => samePlaces_self dirs) ?_
        rintro ⟨row, p, n, hlost⟩
        rw [hlost.stored] at hget
        cases hget
    | some row =>
        rw [moveDirectory_stored hget]
        by_cases hstay : (meetsDirectory dirs id (dirs.size + 1) parentId [] ||
            duplicate dirs id (movedRow row parentId now) ||
              parentMissing fk dirs (movedRow row parentId now)) = true
        · -- the move is refused
          rw [if_pos hstay, if_pos rfl]
          refine iff_of_true (fun _ => samePlaces_self dirs) ?_
          rintro ⟨row', p, n, hlost⟩
          obtain rfl := Option.some.inj (hget.symm.trans hlost.stored)
          obtain rfl := hlost.parent
          simp only [Bool.or_eq_true] at hstay
          rcases hstay with (hmeets | hdup) | hmissing
          · exact hlost.allowed ((meetsDirectory_iff hacyclic hids (Dict.mem_of_get? hget) p).mp
              hmeets)
          · obtain ⟨q, hq, htaken⟩ := duplicate_iff.mp hdup
            obtain rfl := Option.some.inj (show some p = some q from hq)
            exact hlost.free htaken
          · obtain ⟨q, hq, hnot⟩ := (parentMissing_iff.mp hmissing).2
            obtain rfl := Option.some.inj (show some p = some q from hq)
            exact hnot (hlost.exists' (parentMissing_iff.mp hmissing).1)
        · rw [if_neg hstay, if_neg (Option.some_ne_none _)]
          simp only [Bool.or_eq_true, not_or] at hstay
          obtain ⟨⟨hmeets, hdup⟩, hmissing⟩ := hstay
          have hset :
            (dirs.set id (movedRow row parentId now)).get? id = some (movedRow row parentId now) :=
            Dict.get?_set_self _ _ _
          cases name with
          -- without a name the move is all there is, and it succeeds
          | none =>
              rw [renameIfGiven]
              refine iff_of_true (fun hnone => ?_) ?_
              · rw [hset] at hnone
                cases hnone
              · rintro ⟨_, _, _, hlost⟩
                cases hlost.renamed
          | some n =>
              rw [renameIfGiven, renameDirectory_stored hset]
              have hdup' :
                ∀ r : Directory, duplicate (dirs.set id (movedRow row parentId now)) id r = true ↔
                  ∃ p, r.parentId = some p ∧ Taken dirs id r.knowledgeId p r.name := by
                intro r
                rw [duplicate_iff]
                exact exists_congr fun p => and_congr_right fun _ => taken_set
              by_cases hrename : duplicate (dirs.set id (movedRow row parentId now)) id
                  (renamedRow (movedRow row parentId now) n now) = true
              · -- the rename fails and the move stays
                rw [if_pos hrename]
                obtain ⟨p, hp, htaken⟩ := (hdup' _).mp hrename
                obtain rfl : parentId = some p := hp
                rw [forall_prop_of_true rfl, samePlaces_set hget]
                constructor
                · rintro ⟨hsame, _⟩ ⟨row', q, m, hlost⟩
                  obtain rfl := Option.some.inj (hget.symm.trans hlost.stored)
                  rw [Option.some.inj hlost.parent] at hsame
                  exact hlost.elsewhere hsame.symm
                · intro hnot
                  refine ⟨?_, rfl⟩
                  by_contra hne
                  refine hnot ⟨row, p, n, hget, rfl, fun h => hgiven (h ▸ rfl),
                    fun h => hne h.symm, ?_, ?_, ?_,
                    rfl, htaken⟩
                  · intro hfk
                    by_contra hp
                    exact hmissing (parentMissing_iff.mpr ⟨hfk, p, rfl, hp⟩)
                  · exact fun hin => hmeets
                      ((meetsDirectory_iff hacyclic hids (Dict.mem_of_get? hget) p).mpr hin)
                  · exact fun htaken' => hdup (duplicate_iff.mpr ⟨p, rfl, htaken'⟩)
              -- both succeed
              · rw [if_neg hrename]
                refine iff_of_true (fun hnone => by cases hnone) ?_
                rintro ⟨row', p, m, hlost⟩
                obtain rfl := Option.some.inj (hget.symm.trans hlost.stored)
                obtain rfl := hlost.parent
                obtain rfl := Option.some.inj hlost.renamed
                exact hrename ((hdup' _).mpr ⟨p, rfl, hlost.taken⟩)
  -- only the name changes, and a refused rename leaves the places
  · rw [updateDirectory, if_neg hgiven]
    refine iff_of_true (fun hnone => ?_) ?_
    · rw [samePlaces_renameIfGiven hnone]
      exact samePlaces_self dirs
    · rintro ⟨row, p, n, hlost⟩
      exact hgiven fun h => hlost.given (Option.some.inj (hlost.parent.symm.trans h))

/-! ## Deleting -/

theorem mem_childIds (x c : String) : c ∈ childIds dirs x ↔ parentOf dirs c = some x := by
  simp only [childIds, List.mem_map, List.mem_filter, decide_eq_true_eq]
  constructor
  · rintro ⟨⟨k, d⟩, ⟨hmem, hparent⟩, rfl⟩
    rw [parentOf, (Dict.mem_entries_iff _ _ _).mp hmem]
    exact hparent
  · intro h
    obtain ⟨d, hd, hparent⟩ := Option.bind_eq_some_iff.mp h
    exact ⟨(c, d), ⟨(Dict.mem_entries_iff _ _ _).mpr hd, hparent⟩, rfl⟩

/-- Finitely many directories have a parent. -/
theorem finite_children (dirs : Directories) : {c | parentOf dirs c ≠ none}.Finite := by
  refine (List.finite_toSet dirs.keys).subset fun c hc => ?_
  obtain ⟨p, hp⟩ := Option.ne_none_iff_exists'.mp hc
  exact mem_of_parentOf hp

theorem mem_cascadeIds (d : String) : d ∈ cascadeIds dirs id ↔ InSubtree dirs id d := by
  have hclosed : ∀ x ∈ id :: dirs.keys, childIds dirs x ⊆ id :: dirs.keys := fun x _ c hc =>
    List.mem_cons_of_mem _ (mem_of_parentOf ((mem_childIds x c).mp hc))
  have hbase : [id] ⊆ id :: dirs.keys := List.cons_subset_cons _ (List.nil_subset _)
  have hbound : (id :: dirs.keys).length ≤ dirs.size + 1 := by
    rw [List.length_cons, Dict.size_eq_keys]
  rw [cascadeIds, Recursive.mem_recursiveUnion hbase hclosed hbound,
    InSubtree, ← Relation.reflTransGen_swap]
  simp only [List.mem_singleton, exists_eq_left, mem_childIds]
  rfl

/-- The directories that a delete removes: with foreign keys those of the subtree. -/
def Gone (fk : Bool) (dirs : Directories) (id k : String) : Prop :=
  if fk then InSubtree dirs id k else k = id

/-- Only directories of the subtree go. -/
theorem Gone.inSubtree {k : String} (h : Gone fk dirs id k) : InSubtree dirs id k := by
  cases fk with
  | true => exact h
  | false => exact (show k = id from h) ▸ .refl

/-- The deleted directory is gone. -/
theorem gone_self : Gone fk dirs id id := by
  cases fk with
  | true => exact .refl
  | false => exact rfl

/-- A delete takes away what is gone and leaves the other rows. -/
theorem directories_deleteRow (fk : Bool) (t : Tables) (id k : String) :
    (Gone fk t.directories id k → (deleteRow fk t id).directories.get? k = none) ∧
    (¬ Gone fk t.directories id k →
      (deleteRow fk t id).directories.get? k = t.directories.get? k) := by
  cases fk with
  | true =>
      have hget : (deleteRow true t id).directories.get? k =
          if k ∈ cascadeIds t.directories id then none else t.directories.get? k :=
            Dict.get?_foldl_erase _ _ _
      rw [hget]
      exact ⟨fun hin => if_pos ((mem_cascadeIds k).mpr hin), fun hout => if_neg fun hmem =>
        hout ((mem_cascadeIds k).mp hmem)⟩
  | false =>
      have hget : (deleteRow false t id).directories.get? k = if k = id then none
        else t.directories.get? k :=
        Dict.get?_erase _ _ _
      rw [hget]
      exact ⟨fun hin => if_pos hin, fun hout => if_neg hout⟩

/-- A subdirectory that stays when its parent is deleted. -/
structure Stranded (fk : Bool) (dirs : Directories) (id c : String) : Prop where
  unenforced : fk = false
  stored : id ∈ dirs
  child : parentOf dirs c = some id

/-- Nothing lies below a directory without children. -/
theorem inSubtree_of_no_child (hnone : ∀ c, parentOf dirs c ≠ some id) {k : String}
    (h : InSubtree dirs id k) :
    k = id := by
  rcases Relation.ReflTransGen.cases_tail h with heq | ⟨c, -, hc⟩
  · exact heq.symm
  · exact absurd hc (hnone c)

/-- The whole subtree goes unless a subdirectory is stranded. -/
theorem removesSubtree_deleteRow {t : Tables} (hid : id ∈ t.directories)
    (hnone : ∀ c, ¬ Stranded fk t.directories id c) (files : Files) :
    RemovesSubtree t.directories (deleteRow fk ⟨t.directories, files⟩ id).directories id := by
  intro k
  have hrow := directories_deleteRow fk ⟨t.directories, files⟩ id k
  refine ⟨fun hin => hrow.1 ?_, fun hout => hrow.2 fun hgone => hout hgone.inSubtree⟩
  cases fk with
  | true => exact hin
  | false => exact inSubtree_of_no_child (fun c hc => hnone c ⟨rfl, hid, hc⟩) hin

/-- Where no file is left in the subtree, the delete changes no file. -/
theorem files_deleteRow {files : Files}
    (h : ∀ k f d, files.get? k = some f → f.directoryId = some d → ¬ InSubtree dirs id d) :
    (deleteRow fk ⟨dirs, files⟩ id).files = files := by
  cases fk with
  | false => rfl
  | true =>
      refine Dict.ext_get? (Dict.keys_mapVal _ _) fun k => ?_
      rw [deleteRow, if_pos rfl, Dict.get?_mapVal]
      cases hf : files.get? k with
      | none => rfl
      | some f =>
          rw [Option.map_some, if_neg]
          cases hd : f.directoryId with
          | none => exact Bool.false_ne_true
          | some d =>
              rw [Option.any_some, decide_eq_true_eq, mem_cascadeIds]
              exact h k f d hf hd

/-- A file is placed in one of two sets. -/
theorem placedIn_union {S T : Set String} {f : KnowledgeFile} :
    PlacedIn (S ∪ T) f ↔ PlacedIn S f ∨ PlacedIn T f := by
  simp only [PlacedIn, Set.mem_union, or_and_right, exists_or]

/-- A file is placed in one directory. -/
theorem placedIn_singleton {x : String} {f : KnowledgeFile} :
    PlacedIn {x} f ↔ f.directoryId = some x := by
  simp [PlacedIn]

/-- Moving the files of one directory. -/
theorem movesFiles_moveFiles (target : Option String) (x : String) (files : Files) :
    MovesFiles target {x} files (moveFiles target x files) := by
  refine ⟨Dict.keys_mapVal _ _, fun k f hf => ?_⟩
  rw [moveFiles, Dict.get?_mapVal, hf, Option.map_some, placedIn_singleton]
  exact ⟨fun hx => by rw [if_pos hx], fun hx => by rw [if_neg hx]⟩

/-- Moving the files of more. -/
theorem MovesFiles.comp {target : Option String} {S T : Set String} {a b c : Files}
    (h : MovesFiles target S a b) (h' : MovesFiles target T b c) :
    MovesFiles target (S ∪ T) a c := by
  refine ⟨h'.1.trans h.1, fun k f hf => ?_⟩
  rw [placedIn_union]
  by_cases hS : PlacedIn S f
  · -- a file that is moved twice ends at the same place
    refine ⟨fun _ => ?_, fun hnot => absurd (.inl hS) hnot⟩
    have hb := (h.2 k f hf).1 hS
    by_cases hT : PlacedIn T { f with directoryId := target }
    · exact (h'.2 k _ hb).1 hT
    · exact (h'.2 k _ hb).2 hT
  · have hb := (h.2 k f hf).2 hS
    exact ⟨fun hor => (h'.2 k f hb).1 (hor.resolve_left hS), fun hnot => (h'.2 k f hb).2 fun hT =>
      hnot (.inr hT)⟩

/-- Deleting the files of one directory. -/
theorem deletesFiles_deleteFiles (x : String) (files : Files) :
    DeletesFiles {x} files (deleteFiles x files) := by
  intro k
  rw [deleteFiles, Dict.get?_filterMapVal]
  constructor
  · intro f hf hplaced
    rw [hf, Option.bind_some, if_pos (placedIn_singleton.mp hplaced)]
  · intro hnone
    cases hf : files.get? k with
    | none => rfl
    | some f => rw [Option.bind_some, if_neg fun hx => hnone f hf (placedIn_singleton.mpr hx)]

/-- Deleting the files of more. -/
theorem DeletesFiles.comp {S T : Set String} {a b c : Files} (h : DeletesFiles S a b)
    (h' : DeletesFiles T b c) :
    DeletesFiles (S ∪ T) a c := by
  intro k
  constructor
  · intro f hf hplaced
    rw [placedIn_union] at hplaced
    by_cases hS : PlacedIn S f
    · have hb := (h k).1 f hf hS
      rw [(h' k).2 fun g hg => absurd (hb.symm.trans hg) (Option.some_ne_none g).symm, hb]
    · have hb := (h k).2 fun g hg => by rwa [← Option.some.inj (hf.symm.trans hg)]
      exact (h' k).1 f (hb.trans hf) (hplaced.resolve_left hS)
  · intro hnone
    have hb := (h k).2 fun f hf hS => hnone f hf (placedIn_union.mpr (.inl hS))
    rw [(h' k).2 fun f hf hT => hnone f (hb ▸ hf) (placedIn_union.mpr (.inr hT)), hb]

/-- A walk that moves the files of a directory and then those below it. -/
theorem moveFilesFromSubtree_eq_visit (target : Option String) (n : ℕ) :
    ∀ (x : String) (files : Files),
    moveFilesFromSubtree dirs target n x (moveFiles target x files) =
      Forest.visit (childIds dirs) (moveFiles target) n x files := by
  induction n with
  | zero => exact fun _ _ => rfl
  | succ n ih =>
      intro x files
      rw [moveFilesFromSubtree, Forest.visit]
      simp only [ih]

/-- The recursion is the general visit of a forest. -/
theorem deleteFilesInSubtree_eq_visit (n : ℕ) : ∀ (x : String) (files : Files),
    deleteFilesInSubtree dirs n x files = Forest.visit (childIds dirs) deleteFiles n x files := by
  induction n with
  | zero => exact fun _ _ => rfl
  | succ n ih =>
      intro x files
      rw [deleteFilesInSubtree, Forest.visit]
      simp only [ih]

/-- The walk of a delete that moves the files, and what is deleted after it. -/
theorem deleteDirectory_moving {t : Tables} (h : DirectoryForest t) {directory : Directory}
    (hget : t.directories.get? id = some directory) : ∃ fuel files,
      deleteDirectory fk t id true fuel = some (deleteRow fk ⟨t.directories, files⟩ id, true) ∧
      MovesFiles directory.parentId {d | InSubtree t.directories id d} t.files
        (deleteRow fk ⟨t.directories, files⟩ id).files := by
  obtain ⟨n, hn⟩ := Forest.exists_visit (R := MovesFiles directory.parentId) h.acyclic
    (finite_children t.directories) (fun x c => mem_childIds x c)
    (movesFiles_moveFiles directory.parentId) (fun _ _ _ _ _ => MovesFiles.comp) id
  obtain ⟨files, hvisit, hmoves⟩ := hn n le_rfl t.files
  refine ⟨n, files, ?_, ?_⟩
  · rw [deleteDirectory, hget]
    dsimp only
    rw [if_pos rfl, moveFilesFromSubtree_eq_visit, hvisit]
    rfl
  · rw [files_deleteRow]
    · exact hmoves
    · intro k f' d hf' hd hin
      obtain ⟨f, hf⟩ := (Dict.mem_iff_exists t.files k).mp
        (show k ∈ t.files.keys from hmoves.1 ▸ Dict.mem_of_get? hf')
      by_cases hplaced : PlacedIn {d | InSubtree t.directories id d} f
      · -- the deleted directory's parent is not below it
        obtain rfl := Option.some.inj (hf'.symm.trans ((hmoves.2 k f hf).1 hplaced))
        have hparent : parentOf t.directories id = some d := by
          rw [parentOf, hget]
          exact hd
        exact h.acyclic id (.head' hparent hin)
      · obtain rfl := Option.some.inj (hf'.symm.trans ((hmoves.2 k f hf).2 hplaced))
        exact hplaced ⟨d, hin, hd⟩

/-- The walk of a delete that deletes the files, with enough depth, and what is deleted after it. -/
theorem deleteDirectory_deleting {t : Tables} (h : DirectoryForest t) {directory : Directory}
    (hget : t.directories.get? id = some directory) : ∃ n files,
      (∀ fuel, n ≤ fuel →
        deleteDirectory fk t id false fuel = some (deleteRow fk ⟨t.directories, files⟩ id, true)) ∧
      DeletesFiles {d | InSubtree t.directories id d} t.files
        (deleteRow fk ⟨t.directories, files⟩ id).files := by
  obtain ⟨n, hn⟩ := Forest.exists_visit (R := DeletesFiles) h.acyclic
    (finite_children t.directories)
    (fun x c => mem_childIds x c) deletesFiles_deleteFiles (fun _ _ _ _ _ => DeletesFiles.comp) id
  obtain ⟨files, hvisit, hdeletes⟩ := hn n le_rfl t.files
  refine ⟨n, files, fun fuel hfuel => ?_, ?_⟩
  · rw [deleteDirectory, hget]
    dsimp only
    rw [if_neg Bool.false_ne_true, deleteFilesInSubtree_eq_visit, Forest.visit_mono hfuel hvisit]
    rfl
  · rw [files_deleteRow]
    · exact hdeletes
    · -- a link that is left was not placed in the subtree
      intro k f d hf hd hin
      by_cases hplaced : ∃ g, t.files.get? k = some g ∧
        PlacedIn {d | InSubtree t.directories id d} g
      · obtain ⟨g, hg, hgplaced⟩ := hplaced
        rw [(hdeletes k).1 g hg hgplaced] at hf
        cases hf
      · push Not at hplaced
        rw [(hdeletes k).2 fun g hg => hplaced g hg] at hf
        exact hplaced f hf ⟨d, hin, hd⟩

/-- A delete that ends has only changed file records before its last statement. -/
theorem deleteDirectory_eq_some {t t' : Tables} {moveFilesToParent : Bool} {fuel : ℕ}
    {answer : Bool} {directory : Directory} (hget : t.directories.get? id = some directory)
    (hdelete : deleteDirectory fk t id moveFilesToParent fuel = some (t', answer)) :
    ∃ files, t' = deleteRow fk ⟨t.directories, files⟩ id := by
  rw [deleteDirectory, hget] at hdelete
  dsimp only at hdelete
  split_ifs at hdelete
  all_goals
    obtain ⟨files, -, hrest⟩ := Option.bind_eq_some_iff.mp hdelete
    exact ⟨files, (Prod.ext_iff.mp (Option.some.inj hrest)).1.symm⟩

/-- Without foreign keys a subdirectory of what is deleted stays. -/
theorem Stranded.not_removesSubtree {t : Tables}
    (hacyclic : Forest.Acyclic (parentOf t.directories)) {c : String}
    (h : Stranded fk t.directories id c) (files : Files) :
    ¬ RemovesSubtree t.directories (deleteRow fk ⟨t.directories, files⟩ id).directories id := by
  intro hremoves
  obtain rfl := h.unenforced
  have hne : c ≠ id := fun heq => hacyclic id (.single (heq ▸ h.child))
  have hstays := (directories_deleteRow false ⟨t.directories, files⟩ id c).2 hne
  rw [(hremoves c).1 (.single h.child)] at hstays
  exact (Dict.get?_eq_none_iff _ _).mp hstays.symm (mem_of_parentOf h.child)

/-- The operations do what they should unless a delete strands a subdirectory or a failed update
leaves its move behind. -/
theorem directoryOperations_iff (fk : Bool) {t : Tables} (h : DirectoryForest t) (id : String)
    (name parentId : Option String) (now : ℤ) : DirectoryOperations fk t id name parentId now ↔
      (¬ ∃ c, Stranded fk t.directories id c) ∧
        ¬ ∃ row p n, MoveLost fk t.directories id name parentId row p n := by
  rw [← failed_iff h.acyclic h.ids name parentId now]
  constructor
  · intro hoperations
    refine ⟨?_, hoperations.failed⟩
    rintro ⟨c, hstranded⟩
    obtain ⟨directory, hget⟩ := (Dict.mem_iff_exists _ _).mp hstranded.stored
    obtain ⟨fuel, t', hdelete, hremoves, -⟩ := hoperations.deleteAll directory hget
    obtain ⟨files, hfiles⟩ := deleteDirectory_eq_some hget hdelete
    rw [hfiles] at hremoves
    exact hstranded.not_removesSubtree h.acyclic files hremoves
  · rintro ⟨hnone, hfailed⟩
    rw [not_exists] at hnone
    refine ⟨fun directory hget => ?_, fun directory hget => ?_,
      acyclic_moveDirectory h.acyclic h.ids parentId now,
      acyclic_updateDirectory h.acyclic h.ids name parentId now, hfailed⟩
    · obtain ⟨fuel, files, hdelete, hmoves⟩ := deleteDirectory_moving h hget
      exact ⟨fuel, _, hdelete, removesSubtree_deleteRow (Dict.mem_of_get? hget) hnone files, hmoves⟩
    · obtain ⟨n, files, hdelete, hdeletes⟩ := deleteDirectory_deleting h hget
      exact ⟨n, _, hdelete n le_rfl, removesSubtree_deleteRow (Dict.mem_of_get? hget) hnone files,
        hdeletes⟩

/-- Two roots, and a directory `x` in the second. -/
def nestedName : Tables where
  directories := ⟨[("a", ⟨"kb", none, "a", "u", 1, 1⟩), ("b", ⟨"kb", none, "b", "u", 1, 1⟩),
    ("x", ⟨"kb", some "b", "x", "u", 1, 1⟩)], by decide⟩
  files := ⟨[("f", ⟨"kb", "f1", some "x", "u", 1, 1⟩)], by decide⟩

/-- The example is a forest. -/
theorem directoryForest_nestedName : DirectoryForest nestedName where
  acyclic := by
    refine Forest.Acyclic.of_rank (fun k => if k = "x" then 1 else 0) fun c p hp => ?_
    have hc : c ∈ ["a", "b", "x"] := mem_of_parentOf hp
    simp only [List.mem_cons, List.not_mem_nil, or_false] at hc
    rcases hc with rfl | rfl | rfl
    · cases hp
    · cases hp
    · obtain rfl := Option.some.inj (show some "b" = some p from hp)
      decide
  placed := by
    intro k f d hf hd
    obtain rfl := List.mem_singleton.mp (show k ∈ ["f"] from Dict.mem_of_get? hf)
    obtain rfl := Option.some.inj (show some _ = some f from hf)
    obtain rfl := Option.some.inj (show some "x" = some d from hd)
    decide
  ids := by decide

/-- `a` is moved into `b`, then not renamed to `x`, and stays in `b`. Without foreign keys `x` stays
when `b` is deleted. -/
theorem lostMove_not_directoryOperations : DirectoryForest nestedName ∧
    (∀ fk, ¬ DirectoryOperations fk nestedName "a" (some "x") (some "b") 2) ∧
    ¬ DirectoryOperations false nestedName "b" none (some "__unset__") 2 := by
  refine ⟨directoryForest_nestedName, fun fk h => ?_, fun h => ?_⟩
  · have hsame : ∀ fk, SamePlaces nestedName.directories
        (updateDirectory fk nestedName.directories "a" (some "x") (some "b") 2).1 → False := by
      intro fk hsame
      have ha := hsame "a"
      revert ha
      cases fk <;> decide
    refine hsame fk (h.failed ?_)
    cases fk <;> decide
  · obtain ⟨fuel, t', hdelete, hremoves, -⟩ := h.deleteAll ⟨"kb", none, "b", "u", 1, 1⟩ rfl
    obtain ⟨files, rfl⟩ := deleteDirectory_eq_some
      (show nestedName.directories.get? "b" = some _ from rfl) hdelete
    have hstranded : Stranded false nestedName.directories "b" "x" := ⟨rfl, by decide, rfl⟩
    exact hstranded.not_removesSubtree directoryForest_nestedName.acyclic files hremoves

/-- With foreign keys all goes well for `b`, which has a subdirectory. -/
theorem directoryOperations_nestedName :
    DirectoryOperations true nestedName "b" (some "y") none 2 := by
  refine (directoryOperations_iff true directoryForest_nestedName "b" (some "y") none 2).mpr
    ⟨?_, ?_⟩
  · rintro ⟨c, hstranded⟩
    cases hstranded.unenforced
  · rintro ⟨row, p, n, hlost⟩
    cases hlost.parent

end OpenWebUI.Knowledge
