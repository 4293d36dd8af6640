import OpenWebUI.Lib.Dict
import OpenWebUI.Lib.Forest

/-! # Folders

The folder table, and the requests of the folders router that change the tree: create,
rename, move, delete, and listing, which puts folders with a broken parent back at the root.
-/

namespace OpenWebUI.Folders

open Py

/-- A row of the table. The column of the name is not nullable. -/
structure Folder where
  parentId : Option String
  userId : String
  name : String
deriving DecidableEq

abbrev Table := Dict String Folder

/-- `folder.parent_id`, where it is not empty. -/
def Folder.parent (f : Folder) : Option String := f.parentId.filter (· ≠ "")

/-! ## The table's queries -/

def getFolderById (t : Table) (id : String) : Option Folder := t.get? id

def getFolderByIdAndUserId (t : Table) (id userId : String) : Option Folder :=
  (t.get? id).filter (·.userId = userId)

def getFoldersByUserId (t : Table) (userId : String) : List (String × Folder) :=
  t.entries.filter (·.2.userId = userId)

/-- The children of a folder, in the order of the table. -/
def getFoldersByParentIdAndUserId (t : Table) (parentId userId : String) : List String :=
  (t.entries.filter fun e => e.2.parentId = some parentId ∧ e.2.userId = userId).map Prod.fst

/-- The row has the name up to letter case, as the database's `lower` sees it. -/
def Folder.named (lower : String → String) (f : Folder) (name : String) : Prop :=
  lower f.name = lower name

instance (lower : String → String) (f : Folder) (name : String) : Decidable (f.named lower name) :=
  inferInstanceAs (Decidable (_ = _))

def getFolderByParentIdAndUserIdAndName (lower : String → String) (t : Table)
    (parentId : Option String) (userId name : String) : Option String :=
  (t.entries.find? fun e =>
    e.2.parentId = parentId ∧ e.2.userId = userId ∧ e.2.named lower name).map Prod.fst

/-- The loop of `get_folder_ids_by_id_and_user_id_in_subtree`: the last of `folders` is at the
head. -/
def subtreeLoop (t : Table) (userId : String) : ℕ → List String → List String → List String
  | n + 1, current :: folders, ids =>
      let fresh := (getFoldersByParentIdAndUserId t current userId).filter (· ∉ ids)
      subtreeLoop t userId n (fresh.reverse ++ folders) (ids ++ fresh)
  | _, _, ids => ids

def getFolderIdsByIdAndUserIdInSubtree (t : Table) (id userId : String) : List String :=
  match (t.get? id).filter (·.userId = userId) with
  | none => []
  | some _ => subtreeLoop t userId (t.size + 1) [id] [id]

/-- `form_data.parent_id and form_data.parent_id in …`: the new parent is in the subtree. -/
def movesUnderItself (t : Table) (id userId : String) (parentId : Option String) : Bool :=
  (parentId.filter (· ≠ "")).any (· ∈ getFolderIdsByIdAndUserIdInSubtree t id userId)

/-! ## The table's updates -/

/-- `None` when the id is taken. -/
def insertNewFolder (t : Table) (id userId name : String) (parentId : Option String) :
    Option Table :=
  if id ∈ t then none else some (t.set id ⟨parentId, userId, name⟩)

def updateFolderParentIdByIdAndUserId (t : Table) (id userId : String) (parentId : Option String) :
    Table × Option Folder :=
  match (t.get? id).filter (·.userId = userId) with
  | none => (t, none)
  | some folder =>
      let folder := { folder with parentId := parentId }
      (t.set id folder, some folder)

/-- The form's name may be absent, null or a text; `merges` is false when its data or meta is
null. -/
def updateFolderByIdAndUserId (t : Table) (id userId : String) (name : Option (Option String))
    (merges : Bool) : Table × Option Folder :=
  match (t.get? id).filter (·.userId = userId) with
  | none => (t, none)
  | some folder =>
      -- no row has a null name
      let existing := t.entries.find? fun e =>
        name.join = some e.2.name ∧ e.2.parentId = folder.parentId ∧ e.2.userId = userId
      if existing.any (·.1 ≠ id) then (t, none)
      else match name.getD (some folder.name) with
        -- the commit raises, and nothing is stored
        | none => (t, none)
        | some name =>
            -- `**None` raises before the commit
            if ¬ merges then (t, none)
            else
              let folder := { folder with name := name }
              (t.set id folder, some folder)

/-- A deletion under way. -/
structure Deletion where
  rows : Table
  seen : List String

/-- `delete_children`: depth first; each row is deleted after its own children. -/
def deleteChildren (userId : String) : ℕ → String → Deletion → Deletion
  | 0, _, d => d
  | n + 1, id, d =>
      (getFoldersByParentIdAndUserId d.rows id userId).foldl (fun d child =>
        if child ∈ d.seen then d
        else
          let d := deleteChildren userId n child { d with seen := child :: d.seen }
          { d with rows := d.rows.erase child }) d

def deleteFolderByIdAndUserId (t : Table) (id userId : String) : Table :=
  match (t.get? id).filter (·.userId = userId) with
  | none => t
  | some _ => (deleteChildren userId (t.size + 1) id ⟨t, [id]⟩).rows.erase id

/-! ## Requests -/

inductive Reply where
  | ok
  | error (status : ℕ) (detail : String)
deriving DecidableEq

def accessProhibited : Reply :=
  .error 403 "You do not have permission to access this resource. Please contact your administrator for assistance."

def notFound : Reply := .error 404 "We could not find what you're looking for :/"

/-- Whether the owner of a folder may read the files of a form. -/
inductive OwnerFiles where
  | readable
  | noOwner
  | prohibited
deriving DecidableEq

/-- A request: who makes it, and the answers of the other subsystems it asks. -/
structure Request where
  userId : String
  role : String
  /-- `check_folders_permission`. -/
  permitted : Bool
  /-- `AccessGrants.has_access` for the user, a folder and a permission. -/
  granted : String → String → Bool
  /-- The user may read the files of the form, or those it adds. -/
  readsFiles : Bool
  ownerFiles : OwnerFiles
  /-- The form changes `share_mode`. -/
  changesShareMode : Bool
  /-- Where the form gives data or meta, it is an object and not null. -/
  mergesData : Bool
  /-- There are no chats to delete, or the user may delete them. -/
  deletesChats : Bool

/-- The loop of `has_folder_access`. -/
def accessLoop (t : Table) (r : Request) (permission : String) :
    ℕ → Option (String × Folder) → List String → Bool
  | n + 1, some (id, folder), seen =>
      if id ∈ seen then false
      else if folder.userId = r.userId then true
      else if r.granted id permission then true
      else accessLoop t r permission n
        (folder.parent.bind fun p => (getFolderById t p).map (p, ·)) (id :: seen)
  | _, _, _ => false

def hasFolderAccess (t : Table) (r : Request) (id : String) (folder : Folder)
    (permission : String) : Bool :=
  accessLoop t r permission (t.size + 1) (some (id, folder)) []

section

variable (lower : String → String)

/-- The checks of `create_folder`: the reply that refuses it, or the owner of the new folder. -/
def newFolderOwner (t : Table) (r : Request) (name : String) (parentId : Option String) :
    Except Reply String :=
  if ¬ r.permitted then .error accessProhibited
  else if (getFolderByParentIdAndUserIdAndName lower t parentId r.userId name).isSome then
    .error (.error 400 "[ERROR: Folder already exists]")
  else if ¬ r.readsFiles then .error accessProhibited
  else match (parentId.filter (· ≠ "")).bind fun p => (getFolderById t p).map (p, ·) with
    | none => .ok r.userId
    | some (p, parent) =>
        if parent.userId = r.userId then .ok r.userId
        else if r.role ≠ "admin" ∧ ¬ hasFolderAccess t r p parent "write" then
          .error accessProhibited
        else match r.ownerFiles with
          | .noOwner => .error notFound
          | .prohibited => .error accessProhibited
          -- created as the folder owner's subfolder
          | .readable => .ok parent.userId

def createFolder (t : Table) (r : Request) (id name : String) (parentId : Option String) :
    Table × Reply :=
  match newFolderOwner lower t r name parentId with
  | .error reply => (t, reply)
  | .ok owner =>
      match insertNewFolder t id owner name parentId with
      | none => (t, .error 400 "[ERROR: Error creating folder]")
      | some t => (t, .ok)

/-- A folder of the user's own, or one that the user may write to. -/
def writableFolder (t : Table) (r : Request) (id : String) : Option Folder :=
  (getFolderByIdAndUserId t id r.userId).or
    ((getFolderById t id).filter fun f =>
      decide (r.role = "admin") || hasFolderAccess t r id f "write")

def updateFolderNameById (t : Table) (r : Request) (id : String) (name : Option (Option String)) :
    Table × Reply :=
  if ¬ r.permitted then (t, accessProhibited)
  else match writableFolder t r id with
    | none => (t, notFound)
    | some folder =>
        if r.role ≠ "admin" ∧ r.userId ≠ folder.userId ∧ r.changesShareMode then
          (t, accessProhibited)
        else if (name.join.bind fun name => getFolderByParentIdAndUserIdAndName lower t
            folder.parentId folder.userId name).any (· ≠ id) then
          (t, .error 400 "[ERROR: Folder already exists]")
        else match r.ownerFiles with
          | .noOwner => (t, notFound)
          | .prohibited => (t, accessProhibited)
          | .readable =>
              if ¬ r.readsFiles then (t, accessProhibited)
              else
                let updated := updateFolderByIdAndUserId t id folder.userId name r.mergesData
                (updated.1, if updated.2.isSome then .ok
                  else .error 400 "[ERROR: Error updating folder]")

def updateFolderParentIdById (t : Table) (r : Request) (id : String) (parentId : Option String) :
    Table × Reply :=
  if ¬ r.permitted then (t, accessProhibited)
  else match getFolderByIdAndUserId t id r.userId with
    | none => (t, notFound)
    | some folder =>
        if (getFolderByParentIdAndUserIdAndName lower t parentId r.userId folder.name).any (· ≠
          id) then
          (t, .error 400 "[ERROR: Folder already exists]")
        else if movesUnderItself t id r.userId parentId then
          (t, .error 400 "[ERROR: Cannot move a folder into itself or one of its subfolders]")
        else
          let updated := updateFolderParentIdByIdAndUserId t id r.userId parentId
          (updated.1, if updated.2.isSome then .ok else .error 400 "[ERROR: Error updating folder]")

end

def deleteFolderById (t : Table) (r : Request) (id : String) : Table × Reply :=
  if ¬ r.permitted then (t, accessProhibited)
  else match (getFolderByIdAndUserId t id r.userId).or (getFolderById t id) with
    | none => (t, notFound)
    | some folder =>
        -- only the owner or an admin may delete
        if folder.userId ≠ r.userId ∧ r.role ≠ "admin" then (t, accessProhibited)
        else if ¬ r.deletesChats then (t, accessProhibited)
        else (deleteFolderByIdAndUserId t id folder.userId, .ok)

/-! ## Listing -/

/-- `parent_by_id.get(id)`, where it is not empty. -/
def parentOf (parentById : Dict String (Option String)) (id : String) : Option String :=
  (parentById.get? id).join.filter (· ≠ "")

def isInParentCycle (parentById : Dict String (Option String)) (id : String) : Bool :=
  Forest.climb (parentOf parentById) (parentById.size + 1) (parentOf parentById id) [id] = some id

/-- A missing or looping parent hides the folder from the tree, so put it back at the root. -/
def reroot (userId : String) (acc : Dict String (Option String) × Table) (e : String × Folder) :
    Dict String (Option String) × Table :=
  match e.2.parent with
  | none => acc
  | some p =>
      if p ∉ acc.1 ∨ isInParentCycle acc.1 e.1 = true then
        (acc.1.set e.1 none, (updateFolderParentIdByIdAndUserId acc.2 e.1 userId none).1)
      else acc

/-- `{folder.id: folder.parent_id for folder in folders}`. -/
def parentById (folders : List (String × Folder)) : Dict String (Option String) :=
  Dict.ofList (folders.map fun e => (e.1, e.2.parentId))

def getFolders (t : Table) (r : Request) : Table × Reply :=
  if ¬ r.permitted then (t, accessProhibited)
  else
    let folders := getFoldersByUserId t r.userId
    ((folders.foldl (reroot r.userId) (parentById folders, t)).2, .ok)

end OpenWebUI.Folders
