import Mathlib
import OpenWebUI.Knowledge.Commands

/-! # Searches, pipelines and `kb_exec`

`_kb_grep`, `_kb_find` and `_kb_tree` of `backend/open_webui/tools/knowledge_fs.py`, the executor of
pipelines and its entry point.
-/

namespace OpenWebUI.Knowledge

open Py Shell

/-- The limits of `env.py`. -/
structure Limits where
  /-- `KB_EXEC_MAX_OUTPUT_CHARS` -/
  maxOutputChars : ℕ
  /-- `KB_EXEC_MAX_GREP_FILES` -/
  maxGrepFiles : ℕ
  /-- `KNOWLEDGE_GREP_MAX_MATCHES` -/
  grepMaxMatches : ℕ
deriving DecidableEq

section
variable (py : Python) (limits : Limits) (s : Store) (user : Caller) (attached : List Attached)

/-! ## `grep` -/

/-- What the arguments after the pattern say. -/
structure GrepScope where
  fileRef : Text
  extFilter : Text
  dirScope : Text

/-- One of those arguments. -/
def GrepScope.see (scope : GrepScope) (arg : Text) : GrepScope :=
  if '*' ∈ arg ∨ arg.head? = some '.' then
    { scope with extFilter := (arg.dropWhile (· = '*')).dropWhile (· = '.') }
  else if arg.getLast? = some '/' then { scope with dirScope := stripSlashes arg }
  else { scope with fileRef := arg }

def grepScope (args : List Text) : GrepScope :=
    args.foldl GrepScope.see { fileRef := [], extFilter := [], dirScope := [] }

/-- `_match_lines(content, matches)`. -/
def matchLines (content : Text) (search : Text → Bool) : List (ℕ × Text) :=
  ((splitLines content).zipIdx.map fun l => (l.2 + 1, l.1)).filter fun l => search l.2

def noMatches (pattern : Text) : Text := "No matches for \"".toList ++ pattern ++ "\"".toList

def shownMatches (found : List (ℕ × Text)) : List Text := found.map fun l => numbered l.1 l.2

/-- `grep` on piped input. -/
def grepPiped (pattern : Text) (flags : List Char) (search : Text → Bool) (text : Text) : Text :=
  let found := matchLines text search
  if 'c' ∈ flags then natText found.length
  else if 'l' ∈ flags then if found ≠ [] then "(standard input)".toList else noMatches pattern
  else if found ≠ [] then joinLines (shownMatches found) else noMatches pattern

/-- `{id}  {filename}` -/
def named (id filename : String) : Text := id.toList ++ "  ".toList ++ filename.toList

/-- `grep` in one file. -/
def grepFile (pattern : Text) (flags : List Char) (search : Text → Bool) (r : Resolved) : Text :=
  let found := matchLines r.content search
  if 'c' ∈ flags then named r.id r.filename ++ ": ".toList ++ natText found.length
  else if 'l' ∈ flags then if found ≠ [] then named r.id r.filename else noMatches pattern
  else if found ≠ [] then joinLines (shownMatches found)
  else noMatches pattern ++ " in ".toList ++ r.filename.toList

/-- The directories of a scope, in all knowledge bases with accessible files. -/
def scopeDirIds (accessible : List FileInfo) (dirScope : Text) : List String :=
  (kbIdsOf py accessible).flatMap fun kbId =>
    match (resolveDirPath s dirScope kbId).filter (· ≠ "") with
    | some dirId => descendantDirIds s dirId kbId
    | none => []

def inScope (dirIds : List String) (f : FileInfo) : Bool := f.directoryId.any (· ∈ dirIds)

/-- The accessible files, or those under a directory. -/
def filesUnder (dirScope : Text) : List FileInfo :=
  let accessible := accessibleFiles py s user attached none
  if dirScope ≠ [] then accessible.filter (inScope (scopeDirIds py s accessible dirScope))
    else accessible

/-- The files with an extension, if one is asked for. -/
def withExtension (extFilter : Text) (files : List FileInfo) : List FileInfo :=
  if extFilter ≠ [] then files.filter fun f => ('.' :: extFilter).isSuffixOf f.filename.toList
    else files

/-- The content `grep` searches a file for, if there is any. -/
def grepContent (id : String) : Option Text :=
  ((((s.files.get? id).bind File.data).map fun data => data.content.getD []).filter (· ≠ []))

/-- The files with matches, and their matches. -/
def fileMatches (search : Text → Bool) (files : List FileInfo) :
    List (FileInfo × List (ℕ × Text)) :=
  files.filterMap fun f => do
    let content ← grepContent s f.id
    let found := matchLines content search
    if found ≠ [] then some (f, found) else none

/-- A match as `grep` reports it for many files. -/
def reported (f : FileInfo) (l : ℕ × Text) : Text :=
  named f.id f.filename ++ ":".toList ++ natText l.1 ++ ": ".toList ++ rstrip l.2

/-- The loop over the matches: `if len(results) < KNOWLEDGE_GREP_MAX_MATCHES`. -/
def collectResults (found : List (FileInfo × List (ℕ × Text))) : List Text :=
  found.foldl (fun results e =>
    e.2.foldl (fun results l => if results.length < limits.grepMaxMatches then
      results ++ [reported e.1 l] else results)
      results) []

/-- `total_matches`. -/
def totalMatches (found : List (FileInfo × List (ℕ × Text))) : ℕ :=
    (found.map fun e => e.2.length).sum

/-- `grep` across files. -/
def grepFiles (pattern : Text) (flags : List Char) (search : Text → Bool)
    (files : List FileInfo) : Text :=
  let found := fileMatches s search files
  if 'c' ∈ flags then
    if found = [] then noMatches pattern
    else joinLines ((found.map fun e => named e.1.id e.1.filename ++ ": ".toList ++
      natText e.2.length) ++
      ["Total: ".toList ++ natText (totalMatches found) ++ " matches in ".toList ++
        natText found.length ++ " files".toList])
  else if 'l' ∈ flags then
    if found = [] then noMatches pattern
      else joinLines (found.map fun e => named e.1.id e.1.filename)
  else
    let results := collectResults limits found
    if results = [] then noMatches pattern ++ " across ".toList ++ natText files.length ++
      " files".toList
    else
      joinLines results ++
        if totalMatches found > limits.grepMaxMatches then
          "\n[showing ".toList ++ natText limits.grepMaxMatches ++ " of ".toList ++
            natText (totalMatches found) ++
            " matches]".toList
        else []

/-- The files a search is about, or why there are none. -/
def grepTargets (pattern dirScope extFilter : Text) : Except Text (List FileInfo) :=
  let dirIds := scopeDirIds py s (accessibleFiles py s user attached none) dirScope
  let files := withExtension extFilter (filesUnder py s user attached dirScope)
  if dirScope ≠ [] ∧ (dirIds = [] ∨ filesUnder py s user attached dirScope = []) then
    .error ("No files found under \"".toList ++ dirScope ++ "/\"".toList)
  else if files.length > limits.maxGrepFiles then
    .error ("Too many files (".toList ++ natText files.length ++
      "). Scope your search: grep \"".toList ++ pattern ++
      "\" docs/ or grep \"".toList ++ pattern ++ "\" *.py".toList)
  else .ok files

/-- Either what was computed, or the text that says why not. -/
def textOf {α : Type} (f : α → Text) : Except Text α → Text
  | .ok a => f a
  | .error text => text

/-- `_kb_grep(args, flags, user, model_knowledge, piped_input)`. -/
def kbGrep (args : List Text) (flags : List Char) (piped : Option Text) : Except Text Text :=
  match args with
  | [] => .ok "Usage: grep [-E] [-i] [-l] [-c] \"pattern\" [file] [*.ext]".toList
  | pattern :: args =>
    let scope := grepScope args
    match buildMatcher py pattern ('i' ∈ flags) ('E' ∈ flags) with
    | .error e => .ok e
    | .ok search =>
      match piped with
      | some text => .ok (grepPiped pattern flags search text)
      | none =>
        let across (dirScope : Text) : Text :=
          textOf (grepFiles limits s pattern flags search)
            (grepTargets py limits s user attached pattern dirScope scope.extFilter)
        if scope.fileRef ≠ [] ∧ scope.dirScope = [] then
          match resolveFile py s user attached scope.fileRef with
          -- maybe a directory without its slash
          | .missing => .ok (across scope.fileRef)
          | .error text => .ok text
          | .file r => .ok (grepFile pattern flags search r)
        else .ok (across scope.dirScope)

/-! ## `find` -/

/-- The first of two arguments of `find` is a directory. -/
def findScoped (arg : Text) : Bool := '/' ∈ arg || !('*' ∈ arg || '?' ∈ arg)

/-- A file as `find` lists it. -/
def foundLine (f : FileInfo) : Text :=
  named f.id f.filename ++
    match f.knowledge.filter (·.2 ≠ "") with
    | some kb => " (".toList ++ kb.2.toList ++ ")".toList
    | none => []

/-- `find` with its directory, or none, and its pattern. -/
def findFiles (flags : List Char) (dirScope pattern : Text) : Text :=
  let found := (filesUnder py s user attached dirScope).filter fun f =>
    fnmatch f.filename.toList pattern
  if found = [] then
    "No files matching \"".toList ++ pattern ++ "\"".toList ++
      if dirScope ≠ [] then " under \"".toList ++ dirScope ++ "/\"".toList else []
  else joinLines ((sortFiles found flags).map foundLine)

/-- `_kb_find(args, flags, user, model_knowledge)`. -/
def kbFind (args : List Text) (flags : List Char) : Text :=
  match args with
  | [] => "Usage: find \"*.md\" or find docs/ \"*.md\"".toList
  | [pattern] => findFiles py s user attached flags [] pattern
  | first :: second :: _ =>
    if findScoped first then findFiles py s user attached flags (stripSlashes first) second
    else findFiles py s user attached flags [] first

/-! ## `tree` -/

/-- An entry of a directory, and the lines below it. -/
def renderEntries (indent : Text) (entries : List (Text × (Text → Option (List Text)))) :
    Option (List Text) :=
  (entries.zipIdx.mapM fun e : (Text × (Text → Option (List Text))) × ℕ =>
    let last := decide (e.2 + 1 = entries.length)
    let connector := if last then "└── " else "├── "
    (e.1.2 (indent ++ (if last then "    " else "│   ").toList)).map fun below =>
      (indent ++ connector.toList ++ e.1.1) :: below).map List.flatten

/-- `_render_tree(parent_id, prefix)`; `none` where the recursion does not end. -/
def renderTree (tree : Tree) (flags : List Char) : ℕ → Option String → Text → Option (List Text)
  | 0, _, _ => none
  | fuel + 1, parentId, indent =>
    renderEntries indent
      ((subdirs tree parentId).map (fun d =>
        ("📁 ".toList ++ d.2.name.toList ++ "/".toList, renderTree tree flags fuel (some d.1))) ++
      (sortFiles (filesInDir tree parentId) flags).map fun f =>
        (f.filename.toList, fun _ => some []))

/-- The lines of `tree` about one knowledge base. -/
def treeBase (dirScope : Option Text) (flags : List Char) (kb : String × KnowledgeBase) :
    Except Text (List Text) :=
  match buildDirectoryTree s kb.1 with
  | none => .error recursionError
  | some tree =>
    let root := dirScope.map fun scope => resolvePath scope tree
    if root = some none then
      .ok [header kb.1 kb.2, "  Directory not found: ".toList ++ dirScope.getD [], []]
    else
      match renderTree tree flags (tree.dirs.length + 1) root.join "  ".toList with
      | none => .error recursionError
      | some lines => .ok
        ([header kb.1 kb.2] ++ dirScope.toList.map
          (fun scope => "  ".toList ++ scope ++ "/".toList) ++ lines ++
          ["\n  ".toList ++ natText tree.dirs.length ++ " directories, ".toList ++
            natText tree.files.length ++ " files".toList,
            []])

/-- `_kb_tree(args, flags, user, model_knowledge)`. -/
def kbTree (args : List Text) (flags : List Char) : Except Text Text := do
  let kbs := accessibleKbIds py s user attached none
  let direct := directFiles py s user attached
  if kbs = [] ∧ direct = [] then return "No knowledge bases found.".toList
  let dirScope := (args.head?.map stripSlashes).filter (· ≠ [])
  let lines ← kbs.mapM (treeBase s dirScope flags)
  let attachedLines :=
    if direct ≠ [] ∧ dirScope = none then
      ["Attached Files:".toList] ++
        ((sortFiles direct flags).zipIdx.map fun f =>
          "  ".toList ++ (if f.2 + 1 = direct.length then "└── " else "├── ").toList ++
            f.1.filename.toList) ++
        ["\n  0 directories, ".toList ++ natText direct.length ++ " files".toList, []]
    else []
  return rstrip (joinLines (lines.flatten ++ attachedLines))

/-! ## Pipelines -/

inductive Command where
  | ls
  | cat
  | head
  | tail
  | grep
  | find
  | wc
  | stat
  | sed
  | tree
deriving DecidableEq

/-- `COMMAND_MAP.get(cmd_name)`. -/
def commandMap (name : Text) : Option Command :=
  ([("ls", .ls), ("cat", .cat), ("head", .head), ("tail", .tail), ("grep", .grep),
    ("find", .find), ("wc", .wc),
    ("stat", .stat), ("sed", .sed), ("tree", .tree)] :
      List (String × Command)).lookup (String.ofList name)

/-- The commands that read piped input. -/
def Command.reads (c : Command) : Bool := c ∈ [head, tail, grep, wc, sed]

/-- What a command answers. -/
def Command.run (c : Command) (args : List Text) (flags : List Char) (piped : Option Text) :
    Except Text Text :=
  match c with
  | ls => kbLs py s user attached args flags
  | cat => kbCat py s user attached args flags
  | head => kbHead py s user attached args piped
  | tail => kbTail py s user attached args piped
  | grep => kbGrep py limits s user attached args flags piped
  | find => .ok (kbFind py s user attached args flags)
  | wc => kbWc py s user attached args flags piped
  | stat => kbStat py s user attached args
  | sed => kbSed py s user attached args flags piped
  | tree => kbTree py s user attached args flags

/-- A segment of a pipeline on what the one before it has answered. -/
def runSegment (c : Command) (rest : List Text) (piped : Option Text) : Except Text Text :=
  c.run py limits s user attached (extractFlags rest).2 (extractFlags rest).1
    (if c.reads then piped else none)

/-- The command a segment names. -/
def segmentName (tokens : List Text) : Text := py.lower (tokens.headD [])

def unknownCommand (name : Text) : Text :=
  "Unknown command: ".toList ++ name ++
    ". Available: cat, find, grep, head, ls, sed, stat, tail, tree, wc".toList

/-- `_execute_pipeline(segments, user, model_knowledge)`, with what the last segment has
answered. -/
def executePipeline : List (List Text) → Option Text → Except Text Text
  | [], piped => .ok (piped.getD [])
  | tokens :: segments, piped =>
    match commandMap (segmentName py tokens) with
    | none => .ok (unknownCommand (segmentName py tokens))
    | some c =>
      match runSegment py limits s user attached c tokens.tail piped with
      | .ok answer => executePipeline segments (some answer)
      | .error e => .error e

/-- The answer of `kb_exec`, cut where it is too long. -/
def truncated (output : Text) : Text :=
  if output.length > limits.maxOutputChars then
    output.take limits.maxOutputChars ++ "\n[output truncated at ".toList ++
      grouped limits.maxOutputChars ++
      " chars — narrow the command with a path, glob, head/tail/sed or grep]".toList
  else output

/-- `kb_exec(command, __request__, __user__, __model_knowledge__)` for a user. -/
def kbExec (command : Text) : Text :=
  if strip command = [] then "Usage: kb_exec(\"<command>\"). Run kb_exec(\"ls\") to start.".toList
  else
    match parsePipeline (strip command) with
    | [] => "Could not parse command. Run kb_exec(\"ls\") to start.".toList
    | segments =>
      match executePipeline py limits s user attached segments none with
      | .ok output => truncated limits output
      | .error e => "Error: ".toList ++ e

end

end OpenWebUI.Knowledge
