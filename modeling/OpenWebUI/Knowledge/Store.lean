import Mathlib
import OpenWebUI.Groups.Access
import OpenWebUI.Knowledge.Directories
import OpenWebUI.Lib.Worklist

/-! # What the knowledge shell reads

The tables behind `backend/open_webui/tools/knowledge_fs.py` and the functions that find what a
caller may read there: knowledge bases, their files, directories by path, and files by reference.
-/

namespace OpenWebUI.Knowledge

open Py

/-- A text, character by character. -/
abbrev Text := List Char

/-- A row of `knowledge`, but for its id. -/
structure KnowledgeBase where
  userId : String
  name : String
  description : String
  updatedAt : ℤ
deriving DecidableEq

/-- `data` of a file that has some: the content and the state of its processing, where they are
there. -/
structure FileData where
  content : Option Text
  status : Option String
deriving DecidableEq

/-- `meta.data` of a file: what the client sent with the upload. -/
structure UploadData where
  knowledgeId : Option String
  directoryId : Option String
deriving DecidableEq

/-- A row of `file`, but for its id, with the entries of `meta`. `data` is `none` for no data and
for an empty dict. -/
structure File where
  userId : String
  filename : String
  data : Option FileData
  size : Option ℕ
  contentType : Option String
  fileHash : Option String
  uploadData : UploadData
  createdAt : Option ℤ
  updatedAt : Option ℤ
deriving DecidableEq

structure Store where
  access : Groups.Store
  bases : Dict String KnowledgeBase
  tables : Tables
  files : Dict String File

/-- `__user__`. -/
structure Caller where
  id : String
  role : String
deriving DecidableEq

/-- An entry of `__model_knowledge__`. -/
structure Attached where
  type : String
  id : String
deriving DecidableEq

/-- What the shell uses of Python and of packages: `str.lower`, the order of a set built from the
elements of a list, and the searches of the regular expressions RE2 compiles. -/
structure Python where
  lower : Text → Text
  order : List String → List String
  order_perm : ∀ ids, (order ids).Perm ids.dedup
  /-- pattern, `case_sensitive`, and the text of the error -/
  compile : Text → Bool → Except Text (Text → Bool)

/-! ## Queries -/

/-- `get_directories(knowledge_id, parent_id)`. -/
def getDirectories (s : Store) (knowledgeId : String) (parentId : Option String) :
    List (String × Directory) :=
  let parentId := parentId.filter (· ≠ "")
  (s.tables.directories.entries.filter fun e => e.2.knowledgeId = knowledgeId ∧
    e.2.parentId = parentId).insertionSort
    fun e e' => e.2.name ≤ e'.2.name

/-- `get_all_directories(knowledge_id)`. -/
def getAllDirectories (s : Store) (knowledgeId : String) : List (String × Directory) :=
  (s.tables.directories.entries.filter fun e => e.2.knowledgeId = knowledgeId).insertionSort
    fun e e' => e.2.name ≤ e'.2.name

/-- `get_files_with_directory_ids(knowledge_id)`. -/
def getFilesWithDirectoryIds (s : Store) (knowledgeId : String) :
    List (String × File × Option String) :=
  (s.tables.files.entries.filter fun e => e.2.knowledgeId = knowledgeId).filterMap fun e =>
    (s.files.get? e.2.fileId).map fun file => (e.2.fileId, file, e.2.directoryId)

/-- `has_permission_filter` for reading knowledge bases. -/
def hasPermission (s : Store) (userId : String) (groupIds : List String) (id : String)
    (base : KnowledgeBase) : Bool :=
  if userId = "" ∧ groupIds = [] then true
  else
    (s.access.grants.any fun g => g.resourceType = "knowledge" ∧ g.resourceId = id ∧
      g.permission = "read" ∧
      (g.principalType = .user ∧ g.principalId = "*" ∨ userId ≠ "" ∧ g.principalType = .user ∧
        g.principalId = userId ∨
        g.principalType = .group ∧ g.principalId ∈ groupIds)) ||
    (userId ≠ "" && base.userId = userId)

/-- Newest first, then by id. -/
def newerBase (e e' : String × KnowledgeBase) : Bool :=
  e'.2.updatedAt < e.2.updatedAt || (e.2.updatedAt = e'.2.updatedAt && e.1 ≤ e'.1)

/-- `search_knowledge_bases` with no query, `skip=0` and `limit=50`. -/
def searchKnowledgeBases (s : Store) (userId : String) (groupIds : List String) :
    List (String × KnowledgeBase) :=
  ((s.bases.entries.filter fun e => hasPermission s userId groupIds e.1 e.2).insertionSort
    fun e e' => newerBase e e').take 50

/-! ## What a caller may read -/

/-- `user_group_ids`. -/
def groupIdsOf (s : Store) (user : Caller) : List String :=
  (Groups.getGroupsByMemberId s.access user.id true).map Prod.fst

/-- `_has_access(kb)`. -/
def hasAccess (s : Store) (user : Caller) (id : String) (base : KnowledgeBase) : Bool :=
  user.role = "admin" || base.userId = user.id ||
    Groups.hasAccess s.access user.id "knowledge" id "read" (some (groupIdsOf s user))

/-- The row of a knowledge base, if the caller has access to it. -/
def readable (s : Store) (user : Caller) (id : String) : Option (String × KnowledgeBase) :=
  ((s.bases.get? id).filter (hasAccess s user id)).map fun base => (id, base)

/-- `_get_accessible_kb_ids(user, model_knowledge, knowledge_id)`. -/
def accessibleKbIds (py : Python) (s : Store) (user : Caller) (attached : List Attached)
    (knowledgeId : Option String) :
    List (String × KnowledgeBase) :=
  let knowledgeId := knowledgeId.filter (· ≠ "")
  if attached ≠ [] then
    let ids := (attached.filter (·.type = "collection")).map (·.id)
    match knowledgeId with
    | some id => if id ∈ ids then (readable s user id).toList else []
    | none => (py.order ids).filterMap (readable s user)
  else
    match knowledgeId with
    | some id => (readable s user id).toList
    | none => searchKnowledgeBases s user.id (groupIdsOf s user)

/-- What is known of a file without its content. -/
structure FileInfo where
  id : String
  filename : String
  /-- only in a directory tree -/
  path : Option Text
  directoryId : Option String
  size : Option ℕ
  updatedAt : Option ℤ
  /-- id and name of the knowledge base -/
  knowledge : Option (String × String)
deriving DecidableEq

def FileInfo.of (id : String) (file : File) (directoryId : Option String)
    (knowledge : Option (String × String)) : FileInfo :=
  { id := id, filename := file.filename, path := none, directoryId := directoryId,
    size := file.size,
    updatedAt := file.updatedAt, knowledge := knowledge }

/-- `_get_accessible_files(user, model_knowledge, knowledge_id)`. -/
def accessibleFiles (py : Python) (s : Store) (user : Caller) (attached : List Attached)
    (knowledgeId : Option String) :
    List FileInfo :=
  let ofBases := (accessibleKbIds py s user attached knowledgeId).flatMap fun kb =>
    (getFilesWithDirectoryIds s kb.1).map fun f => .of f.1 f.2.1 f.2.2 (some (kb.1, kb.2.name))
  let direct := (py.order ((attached.filter (·.type = "file")).map (·.id))).filterMap fun id =>
    (s.files.get? id).map fun file => .of id file none none
  ofBases ++ direct

/-! ## Directories by path -/

/-- `path.strip('/')`. -/
def stripSlashes (path : Text) : Text := (path.dropWhile (· = '/')).rdropWhile (· = '/')

/-- One step of the walk down. -/
def childNamed (s : Store) (knowledgeId : String) (parentId : Option String)
    (name : Text) : Option (Option String) :=
  ((getDirectories s knowledgeId parentId).find? (·.2.name.toList = name)).map fun d => some d.1

/-- `_resolve_dir_path(path, knowledge_id)`. -/
def resolveDirPath (s : Store) (path : Text) (knowledgeId : String) : Option String :=
  (((stripSlashes path).splitOn '/').foldlM (childNamed s knowledgeId) none).join

/-- `_get_descendant_dir_ids(dir_id, knowledge_id)`. -/
def descendantDirIds (s : Store) (dirId : String) (knowledgeId : String) : List String :=
  Worklist.collect (fun parent => (getDirectories s knowledgeId (some parent)).map Prod.fst)
    ((getAllDirectories s knowledgeId).length + 1) [dirId] [dirId]

/-! ## Files by reference -/

structure Resolved where
  id : String
  filename : String
  content : Text
  size : Option ℕ
  contentType : Option String
  updatedAt : Option ℤ
  createdAt : Option ℤ
  knowledge : Option (String × String)
deriving DecidableEq

/-- The outcome of `_resolve_file`: nothing, an error, or a file. -/
inductive Resolution where
  | missing
  | error (text : Text)
  | file (r : Resolved)
deriving DecidableEq

/-- The file of an id, if it has data. -/
def fileWithData (s : Store) (id : String) (knowledge : Option (String × String)) :
    Option Resolved := do
  let file ← s.files.get? id
  let data ← file.data
  return { id := id, filename := file.filename, content := data.content.getD [], size := file.size,
           contentType := file.contentType, updatedAt := file.updatedAt, createdAt :=
             file.createdAt,
           knowledge := knowledge }

/-- `s.rsplit('/', 1)` of a text with a slash. -/
def rsplitSlash (path : Text) : Text × Text :=
  ((path.rdropWhile (· ≠ '/')).dropLast, path.rtakeWhile (· ≠ '/'))

/-- The file a path leads to in one knowledge base. -/
def fileAtPath (s : Store) (accessible : List FileInfo) (dirPath filename : Text)
    (kbId : String) : Option Resolved := do
  let dirId ← resolveDirPath s dirPath kbId
  match accessible.filter fun f => f.filename.toList = filename ∧ f.directoryId = some dirId with
  | [f] => fileWithData s f.id f.knowledge
  | _ => none

/-- The ids of the knowledge bases some files are in. -/
def kbIdsOf (py : Python) (accessible : List FileInfo) : List String :=
  py.order (accessible.filterMap fun f => (f.knowledge.map Prod.fst).filter (· ≠ ""))

def ambiguous (ref : Text) (found : List FileInfo) : Text :=
  "Ambiguous filename \"".toList ++ ref ++ "\". Use full path to disambiguate:\n".toList ++
    ['\n'].intercalate (found.map fun f => "  ".toList ++ f.id.toList ++ "  ".toList ++
      f.filename.toList ++ "  (".toList ++
      (match f.knowledge with
        | some (_, name) => name.toList
        | none => "None".toList) ++ ")".toList)

/-- `_resolve_file(ref, user, model_knowledge)`. -/
def resolveFile (py : Python) (s : Store) (user : Caller) (attached : List Attached)
    (ref : Text) : Resolution :=
  let accessible := accessibleFiles py s user attached none
  match fileWithData s (String.ofList ref) none with
  | some r => if r.id ∈ accessible.map (·.id) then .file r else .missing
  | none =>
    let refClean := stripSlashes ref
    let atPath :=
      if '/' ∈ refClean then
        (kbIdsOf py accessible).findSome? fun kbId =>
          fileAtPath s accessible (rsplitSlash refClean).1 (rsplitSlash refClean).2 kbId
      else none
    match atPath with
    | some r => .file r
    | none =>
      match accessible.filter fun f => f.filename.toList = ref with
      | [] => .missing
      | [f] =>
        match fileWithData s f.id f.knowledge with
        | some r => .file r
        | none => .missing
      | found => .error (ambiguous ref found)

/-! ## The directory tree -/

structure Tree where
  dirs : List (String × Directory)
  files : List FileInfo
  pathToDirId : Dict Text String
  dirIdToPath : Dict String Text

/-- `_get_dir_path(dir_id)` with the paths found so far; `none` where the recursion does not end. -/
def getDirPath (dirs : List (String × Directory)) : ℕ → String → Dict String Text →
    Option (Dict String Text × Text)
  | 0, _, _ => none
  | fuel + 1, dirId, paths =>
    match paths.get? dirId with
    | some path => some (paths, path)
    | none =>
      match dirs.lookup dirId with
      | none => some (paths, [])
      | some d =>
        match d.parentId.filter fun p => p ≠ "" ∧ (dirs.lookup p).isSome with
        | none => some (paths.set dirId d.name.toList, d.name.toList)
        | some p => do
          let (paths, parentPath) ← getDirPath dirs fuel p paths
          let path := if parentPath ≠ [] then parentPath ++ '/' :: d.name.toList else d.name.toList
          return (paths.set dirId path, path)

/-- `_build_directory_tree(knowledge_id)`; `none` for a `RecursionError`. -/
def buildDirectoryTree (s : Store) (knowledgeId : String) : Option Tree := do
  let dirs := getAllDirectories s knowledgeId
  let dirIdToPath ← dirs.foldlM
    (fun paths d => (getDirPath dirs (dirs.length + 1) d.1 paths).map Prod.fst) ∅
  let files := (getFilesWithDirectoryIds s knowledgeId).map fun f =>
    let dirPath := (f.2.2.filter (· ≠ "")).bind dirIdToPath.get?
    let filename := f.2.1.filename.toList
    { FileInfo.of f.1 f.2.1 f.2.2 none with
      path := some (match dirPath with
        | some p => p ++ '/' :: filename
        | none => filename) }
  return { dirs := dirs, files := files, dirIdToPath := dirIdToPath
           pathToDirId := dirIdToPath.entries.foldl (fun paths p => paths.set p.2 p.1) ∅ }

/-- `_resolve_path(path, tree)`. -/
def resolvePath (path : Text) (tree : Tree) : Option String :=
    tree.pathToDirId.get? (stripSlashes path)

/-- `_get_files_in_dir(tree, dir_id)`. -/
def filesInDir (tree : Tree) (dirId : Option String) : List FileInfo :=
    tree.files.filter (·.directoryId = dirId)

/-- `_get_subdirs(tree, parent_id)`. -/
def subdirs (tree : Tree) (parentId : Option String) : List (String × Directory) :=
  (tree.dirs.filter fun d => d.2.parentId = parentId).insertionSort fun d d' => d.2.name ≤ d'.2.name

/-! ## A sample -/

/-- Python with ASCII letters, sets in the order of their elements' last occurrences, and regular
expressions taken for plain texts. -/
def samplePython : Python where
  lower := List.map Char.toLower
  order := List.dedup
  order_perm := fun _ => .refl _
  compile := fun pattern _ => .ok fun text => text.tails.any pattern.isPrefixOf

def sampleFile (filename : String) (content : Text) : File :=
  { userId := "ada", filename := filename,
    data := some { content := some content, status := some "completed" },
    size := none, contentType := none, fileHash := none, uploadData :=
      { knowledgeId := none, directoryId := none },
    createdAt := none, updatedAt := none }

def sampleLink (kbId fileId : String) (directoryId : Option String) : KnowledgeFile :=
  { knowledgeId := kbId, fileId := fileId, directoryId := directoryId, userId := "",
    createdAt := 0, updatedAt := 0 }

def sampleDirectory (kbId name : String) (parentId : Option String) : Directory :=
  { knowledgeId := kbId, parentId := parentId, name := name, userId := "",
    createdAt := 0, updatedAt := 0 }

/-- A knowledge base of the user `ada` with a file in a directory, and one of somebody else. -/
def sampleStore (secret : Text) : Store where
  access := { groups := .empty, members := [], grants := [], users := .empty }
  bases := ⟨[("kb1", ⟨"ada", "notes", "", 1⟩), ("kb2", ⟨"bob", "plans", "", 2⟩)], by decide⟩
  tables :=
    { directories := ⟨[("d1", sampleDirectory "kb1" "api" none),
        ("d2", sampleDirectory "kb1" "v1" (some "d1"))], by decide⟩
      files := ⟨[("r1", sampleLink "kb1" "f1" (some "d2")),
        ("r2", sampleLink "kb2" "f2" none)], by decide⟩ }
  files := ⟨[("f1", sampleFile "auth.md" "one\ntwo".toList),
    ("f2", sampleFile "plan.md" secret)], by simp [Assoc.keys]⟩

def ada : Caller := { id := "ada", role := "user" }

end OpenWebUI.Knowledge
