import OpenWebUI.Knowledge.Placement
import OpenWebUI.Knowledge.Scope

/-! # Syncing a local directory to a knowledge base

The client sends a manifest of its files; `sync_knowledge_diff` compares it with the knowledge base;
the client has what is stale removed by `sync_knowledge_cleanup`, creates the missing directories,
parents first, and uploads what is new or changed (`KnowledgeBase.svelte`).
-/

namespace OpenWebUI.Knowledge

open Py NamedForest

/-! ## `sync_knowledge_diff` -/

/-- `FileManifestEntry`, but for the size, which nothing reads. -/
structure Entry where
  filename : String
  path : Text
  checksum : String
deriving DecidableEq

def Entry.key (e : Entry) : Text × String := (e.path, e.filename)

/-- `SyncDiffResponse`; a file is given by its path and filename. -/
structure Diff where
  added : List (Text × String)
  /-- with `stale_file_id` -/
  modified : List ((Text × String) × String)
  /-- `file_id` and `filename` -/
  deleted : List (String × String)
  mkdir : List Text
  rmdir : List String
  unmodifiedCount : ℕ
  directoryMap : Dict Text String

/-- In which order the elements of a set built from a list come. -/
structure SetOrder where
  order : List Text → List Text
  order_perm : ∀ texts, (order texts).Perm texts.dedup

/-- The loop `while parent_id:`, which puts the names of the ancestors before those found; `none`
where it does not end. -/
def segmentsUp (dirs : List (String × Directory)) : ℕ → Option String → List Text →
    Option (List Text)
  | 0, _, _ => none
  | fuel + 1, parentId, segments =>
    match parentId.filter (· ≠ "") with
    | none => some segments
    | some p =>
      match dirs.lookup p with
      | none => some segments
      | some parent => segmentsUp dirs fuel parent.parentId (parent.name.toList :: segments)

/-- `directory_path_by_id`. -/
def directoryPathById (s : Store) (kb : String) : Option (Dict String Text) :=
  let dirs := getAllDirectories s kb
  dirs.foldlM (fun paths d =>
    (segmentsUp dirs (dirs.length + 1) d.2.parentId [d.2.name.toList]).map fun segments =>
    paths.set d.1 (joined '/' segments)) ∅

/-- `directory_id_by_path`. -/
def directoryIdByPath (paths : Dict String Text) : Dict Text String :=
  paths.entries.foldl (fun ids p => ids.set p.2 p.1) ∅

/-- `directory_path_by_id.get(directory_id, '') if directory_id else ''`. -/
def placeText (paths : Dict String Text) (directoryId : Option String) : Text :=
  ((directoryId.filter (· ≠ "")).bind paths.get?).getD []

/-- `get_pending_files_for_knowledge`. -/
def pendingFiles (s : Store) (kb : String) : List (String × File) :=
  s.files.entries.filter fun e => e.2.uploadData.knowledgeId = some kb ∧
    e.2.data.bind FileData.status ∈ [some "pending", some "processing"] ∧
      hasFile s.tables.files kb e.1 = false

/-- `pending_files`: the keys and checksums of uploads that began in the last hour. -/
def pendingKeys (s : Store) (kb : String) (now : ℤ) (paths : Dict String Text) :
    List ((Text × String) × Option String) :=
  ((pendingFiles s kb).filter fun e => e.2.createdAt.any (now - 3600 ≤ ·)).map fun e =>
    ((placeText paths e.2.uploadData.directoryId, e.2.filename), e.2.fileHash)

/-- `indexed_files`: id and checksum by path and filename. -/
def indexedFiles (s : Store) (kb : String) (paths : Dict String Text) :
    Dict (Text × String) (String × Option String) :=
  (getFilesWithDirectoryIds s kb).foldl
    (fun index f => index.set (placeText paths f.2.2, f.2.1.filename) (f.1, f.2.1.fileHash)) ∅

inductive Change where
  | added
  | modified (staleFileId : String)
  | unmodified
deriving DecidableEq

def Change.staleFileId : Change → Option String
  | .modified id => some id
  | _ => none

/-- One turn of the loop over the manifest. -/
def changeOf (index : Dict (Text × String) (String × Option String))
    (pending : List ((Text × String) × Option String))
    (e : Entry) : Change :=
  match index.get? e.key with
  | none => if (e.key, some e.checksum) ∈ pending then .unmodified else .added
  | some (fileId, checksum) => if checksum ≠ some e.checksum then .modified fileId else .unmodified

/-- `required_directory_paths`, with repetitions. -/
def requiredPaths (manifest : List Entry) : List Text :=
  manifest.flatMap fun e =>
    if e.path ≠ [] then
      let segments := e.path.splitOn '/'
      (List.range segments.length).map fun depth => joined '/' (segments.take (depth + 1))
    else []

def syncDiff (sets : SetOrder) (s : Store) (kb : String) (now : ℤ) (manifest : List Entry) :
    Option Diff := do
  let paths ← directoryPathById s kb
  let idByPath := directoryIdByPath paths
  let index := indexedFiles s kb paths
  let change := changeOf index (pendingKeys s kb now paths)
  let required := requiredPaths manifest
  return {
    added := (manifest.filter fun e => change e = .added).map Entry.key
    modified := manifest.filterMap fun e => (change e).staleFileId.map fun id => (e.key, id)
    deleted := (index.entries.filter fun f => f.1 ∉ manifest.map Entry.key).map fun f =>
      (f.2.1, f.1.2)
    mkdir := ((sets.order required).filter (· ∉ idByPath)).insertionSort fun p q =>
      p.count '/' ≤ q.count '/'
    rmdir := (sets.order (idByPath.keys.filter (· ∉ required))).filterMap idByPath.get?
    unmodifiedCount := (manifest.filter fun e => change e = .unmodified).length
    directoryMap := idByPath }

/-! ## `sync_knowledge_cleanup` -/

/-- One turn of the loop over `file_ids`. -/
def cleanupFile (retention : Bool) (user : Caller) (kb : String) (s : Store)
    (fileId : String) : Store :=
  match s.files.get? fileId with
  | none => s
  | some file =>
    if hasFile s.tables.files kb fileId then
      let links := removeFile s.tables.files kb fileId
      -- `get_knowledges_by_file_id`
      let linked := links.entries.any fun e => e.2.fileId = fileId ∧ e.2.knowledgeId ∈ s.bases
      { s with
        tables := { s.tables with files := links }
        files :=
          -- `delete_file_resource`
          if retention = false ∧ linked = false ∧ (file.userId = user.id ∨ user.role = "admin") then
            s.files.erase fileId
          else s.files }
    else s

/-- One turn of the loop over `dir_ids`. -/
def cleanupDirectory (fk : Bool) (fuel : ℕ) (kb : String) (s : Store)
    (dirId : String) : Option Store :=
  match s.tables.directories.get? dirId with
  | none => some s
  | some d =>
    if d.knowledgeId ≠ kb then some s
    else (deleteDirectory fk s.tables dirId false fuel).map fun answer =>
      { s with tables := answer.1 }

def syncCleanup (fk : Bool) (fuel : ℕ) (retention : Bool) (user : Caller) (kb : String)
    (fileIds dirIds : List String) (s : Store) : Option Store :=
  dirIds.reverse.foldlM (cleanupDirectory fk fuel kb)
    (fileIds.foldl (cleanupFile retention user kb) s)

/-! ## The client -/

/-- `_verify_directory_in_knowledge`. -/
def verifyDirectory (dirs : Directories) (kb : String) (directoryId : Option String) : Bool :=
  (directoryId.filter (· ≠ "")).all fun d => (dirs.get? d).any (·.knowledgeId = kb)

/-- One turn of `createMissingDirectories`; `none` where the request fails and the client stops. -/
def createMissing (fk : Bool) (user : Caller) (kb : String) (now : ℤ) (newId : Text → String)
    (p : Store × Dict Text String) (dirPath : Text) : Option (Store × Dict Text String) :=
  let segments := dirPath.splitOn '/'
  let parentPath := joined '/' segments.dropLast
  let parentId := if parentPath ≠ [] then p.2.get? parentPath else none
  if verifyDirectory p.1.tables.directories kb parentId then
    let created := createDirectory fk p.1.tables.directories (newId dirPath)
      ⟨kb, parentId, String.ofList (segments.getLast?.getD []), user.id, now, now⟩
    created.2.map fun _ =>
      ({ p.1 with tables := { p.1.tables with directories := created.1 } },
        p.2.set dirPath (newId dirPath))
  else none

/-- How an upload ends: the request is refused and nothing is stored, or the file is stored and its
processing fails or gets as far as the link. -/
inductive Ending where
  | refused
  | failed
  | linked
deriving DecidableEq

/-- What became of an upload: the ids drawn for the file and its link, what was read from it, and
how it ended. -/
structure Outcome where
  fileId : String
  linkId : String
  content : Option Text
  size : ℕ
  contentType : Option String
  sha256 : String
  ending : Ending
deriving DecidableEq

/-- `os.path.basename`. -/
def basename (filename : String) : String := String.ofList (filename.toList.rtakeWhile (· ≠ '/'))

/-- The row of an uploaded file after its processing. -/
def uploadedFile (user : Caller) (kb : String) (now : ℤ) (o : Outcome) (e : Entry)
    (directoryId : Option String) :
    File where
  userId := user.id
  filename := basename e.filename
  data := some {
    content := o.content
    status := some (if o.ending = .linked then "completed" else "failed") }
  size := some o.size
  contentType := o.contentType
  fileHash := some (if e.checksum ≠ "" then e.checksum else o.sha256)
  uploadData := { knowledgeId := some kb, directoryId := directoryId }
  createdAt := some now
  updatedAt := some now

/-- `upload_file_handler` and `process_uploaded_file` for one file of a writer of the knowledge
base. -/
def uploadFile (fk : Bool) (user : Caller) (kb : String) (now : ℤ) (o : Outcome) (e : Entry)
    (directoryId : Option String) (s : Store) : Store :=
  -- a directory of another knowledge base is ignored
  let place := (directoryId.filter (· ≠ "")).filter fun d =>
    (s.tables.directories.get? d).any (·.knowledgeId = kb)
  let stored := { s with files := s.files.set o.fileId (uploadedFile user kb now o e directoryId) }
  match o.ending with
  | .refused => s
  | .failed => stored
  | .linked =>
    { stored with
      tables := addFileToKnowledge fk s.tables o.linkId ⟨kb, o.fileId, place, user.id, now, now⟩ }

/-- `syncDirectoryHandler`; `none` where the client stops, or a recursion does not end. -/
def syncDirectory (fk : Bool) (sets : SetOrder) (fuel : ℕ) (retention : Bool) (user : Caller)
    (kb : String) (now : ℤ)
    (newId : Text → String) (outcome : Entry → Outcome) (manifest : List Entry)
    (s : Store) : Option Store := do
  let diff ← syncDiff sets s kb now manifest
  let stale := diff.deleted.map Prod.fst ++ diff.modified.map Prod.snd
  let s ← syncCleanup fk fuel retention user kb stale diff.rmdir s
  let (s, idByPath) ← diff.mkdir.foldlM (createMissing fk user kb now newId) (s, diff.directoryMap)
  let filesToUpload := manifest.filter fun e => e.key ∈ diff.added ∨
    e.key ∈ diff.modified.map Prod.fst
  return filesToUpload.foldl (fun s e =>
    uploadFile fk user kb now (outcome e) e (if e.path ≠ [] then idByPath.get? e.path
      else none) s) s

end OpenWebUI.Knowledge
