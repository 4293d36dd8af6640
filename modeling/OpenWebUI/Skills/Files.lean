import Mathlib.Data.List.Sort
import Mathlib.Data.String.Basic
import OpenWebUI.Lib.Base64
import OpenWebUI.Lib.Dict
import OpenWebUI.Lib.Text

/-! # The files of a skill

`validate_files` and `apply_operations` of `backend/open_webui/utils/skill_files.py`. A skill is a
list of files with virtual paths, one of them `SKILL.md`. Operations put, move and delete files of
a flat map from paths; only the final map is checked.
-/

namespace OpenWebUI.Skills

open Py

def MAX_FILE_BYTES : ℕ := 10 * 1024 * 1024

def MAX_SKILL_BYTES : ℕ := 50 * 1024 * 1024

def MAX_FILES : ℕ := 1000

inductive Encoding where
  | base64
deriving DecidableEq

structure SkillFile where
  path : String
  content : String
  encoding : Option Encoding
deriving DecidableEq

inductive Op where
  | put
  | move
  | delete
deriving DecidableEq

structure SkillFileOperation where
  op : Op
  path : String
  content : Option String
  encoding : Option Encoding
  destination : Option String

/-- What is raised: `ValueError` with its text, or `binascii.Error`. -/
inductive SkillError where
  | valueError (message : String)
  | binascii
deriving DecidableEq

/-- `if test: raise error`. -/
def raiseIf (test : Prop) [Decidable test] (error : SkillError) : Except SkillError Unit :=
  if test then .error error else .ok ()

/-! ## Paths -/

def parts (path : String) : List String := (path.toList.splitOn '/').map String.ofList

def validatePath (path : String) : Except SkillError String := do
  raiseIf (path = "" ∨ path.toList.head? = some '/' ∨ '\\' ∈ path.toList ∨ '\x00' ∈ path.toList ∨
    ':' ∈ path.toList)
    (.valueError "File paths must be relative POSIX paths")
  raiseIf (∃ part ∈ parts path, part = "" ∨ part = "." ∨ part = "..")
    (.valueError "Invalid file path")
  return path

/-- `str(parent)` for the parents of a path, but for `'.'`. -/
def parents (path : String) : List String :=
  ((parts path).inits.filter fun above => !above.isEmpty && above.length < (parts path).length).map
    fun above =>
    String.intercalate "/" above

/-! ## Validation -/

def fileBytes (file : SkillFile) : Except SkillError (List ℕ) :=
  match file.encoding with
  | some .base64 => match b64decode file.content with
    | some bytes => .ok bytes
    | none => .error .binascii
  | none => .ok ((file.content.toList.flatMap String.utf8EncodeChar).map UInt8.toNat)

/-- `{f['path']: f for f in files}`. -/
def byPath (files : List SkillFile) : Dict String SkillFile :=
    Dict.ofList (files.map fun f => (f.path, f))

/-- The size of a file before, nothing for a new one. -/
def oldSize (previous : Dict String SkillFile) (path : String) : Except SkillError ℕ :=
  match previous.get? path with
  | some old => (fileBytes old).map List.length
  | none => .ok 0

/-- The loop over the files: the paths so far and the total so far. -/
def checkFiles (previous : Dict String SkillFile) (paths : List String) (total : ℕ) :
    List SkillFile → Except SkillError ℕ
  | [] => .ok total
  | file :: files => do
    let path ← validatePath file.path
    raiseIf (path ∈ paths) (.valueError ("Duplicate file: " ++ path))
    let bytes ← fileBytes file
    let old ← oldSize previous path
    raiseIf (max MAX_FILE_BYTES old < bytes.length) (.valueError ("File exceeds 10 MiB: " ++ path))
    checkFiles previous (path :: paths) (total + bytes.length) files

/-- `sum(len(file_bytes(f)) for f in files)`. -/
def totalBytes : List SkillFile → Except SkillError ℕ
  | [] => .ok 0
  | file :: files => do
    let bytes ← fileBytes file
    let rest ← totalBytes files
    return bytes.length + rest

/-- Raises for a file whose path is above another path. The set of paths has no order. -/
def checkDirectories (paths : List String) : Except SkillError Unit :=
  match paths.find? fun path => (parents path).any (· ∈ paths) with
  | some path => .error (.valueError ("A file is also used as a directory: " ++ path))
  | none => .ok ()

def checkRoot (files : List SkillFile) : Except SkillError Unit :=
  match files.find? fun f => f.path = "SKILL.md" with
  | some root => raiseIf root.encoding.isSome
      (.valueError "A skill requires a UTF-8 SKILL.md at its root")
  | none => .error (.valueError "A skill requires a UTF-8 SKILL.md at its root")

def pathLe (a b : SkillFile) : Prop := a.path ≤ b.path

instance : DecidableRel pathLe := fun a b => inferInstanceAs (Decidable (a.path ≤ b.path))

def validateFiles (files previous : List SkillFile) : Except SkillError (List SkillFile) := do
  let previous := byPath previous
  raiseIf (max MAX_FILES previous.size < files.length)
    (.valueError "A skill may contain at most 1000 files")
  let total ← checkFiles previous [] 0 files
  let old ← totalBytes (previous.entries.map Prod.snd)
  raiseIf (max MAX_SKILL_BYTES old < total) (.valueError "Skill exceeds 50 MiB")
  checkDirectories (files.map SkillFile.path)
  checkRoot files
  return files.insertionSort pathLe

/-! ## Operations -/

/-- A path is the given one or under it. -/
def Under (path p : String) : Prop := p = path ∨ path.toList ++ ['/'] <+: p.toList

instance (path p : String) : Decidable (Under path p) := inferInstanceAs (Decidable (_ ∨ _))

/-- `destination + p[len(path) :]`. -/
def reroot (path destination p : String) : String :=
  String.ofList (destination.toList ++ p.toList.drop path.toList.length)

def put (result : Dict String SkillFile) (path : String) (operation : SkillFileOperation) :
    Except SkillError (Dict String SkillFile) :=
  match operation.content with
  | none => .error (.valueError "put requires content")
  | some content => .ok (result.set path ⟨path, content, operation.encoding⟩)

def move (result : Dict String SkillFile) (path : String) (matched : List String)
    (operation : SkillFileOperation) :
    Except SkillError (Dict String SkillFile) := do
  let destination ← validatePath (operation.destination.getD "")
  raiseIf (path.toList ++ ['/'] <+: destination.toList)
    (.valueError "Cannot move a directory into itself")
  let moved := Dict.ofList (matched.filterMap fun p => (result.get? p).map fun f =>
    (reroot path destination p, f))
  raiseIf (∃ p ∈ moved.keys, p ∈ result ∧ p ∉ matched)
    (.valueError "Move would overwrite an existing file")
  return (matched.foldl Dict.erase result).update (moved.mapVal fun p f => { f with path := p })

def applyOperation (result : Dict String SkillFile) (operation : SkillFileOperation) :
    Except SkillError (Dict String SkillFile) := do
  let path ← validatePath operation.path
  match operation.op with
  | .put => put result path operation
  | op =>
    raiseIf (path = "SKILL.md") (.valueError "SKILL.md cannot be moved or deleted")
    let matched := result.keys.filter fun p => Under path p
    raiseIf (matched = []) (.valueError ("File or directory not found: " ++ path))
    if op = .move then move result path matched operation else .ok (matched.foldl Dict.erase result)

/-- The files by path after operations. -/
def applyAll (result : Dict String SkillFile) : List SkillFileOperation →
    Except SkillError (Dict String SkillFile)
  | [] => .ok result
  | operation :: operations => do
    let next ← applyOperation result operation
    applyAll next operations

def applyOperations (files : List SkillFile) (operations : List SkillFileOperation) :
    Except SkillError (List SkillFile) := do
  let result ← applyAll (byPath files) operations
  validateFiles (result.entries.map Prod.snd) files

/-! ## What passes validation -/

/-- A chain succeeds where both of its parts do. -/
theorem bind_ok_iff {α β : Type} {x : Except SkillError α} {f : α → Except SkillError β} {b : β} :
    (x >>= f) = .ok b ↔ ∃ a, x = .ok a ∧ f a = .ok b := by
  cases x with
  | error e => exact ⟨(by cases ·), fun ⟨_, h, _⟩ => by cases h⟩
  | ok a => exact ⟨fun h => ⟨a, rfl, h⟩, fun ⟨_, rfl, h⟩ => h⟩

/-- A check passes where its test fails. -/
theorem raiseIf_ok_iff {test : Prop} [Decidable test] {error : SkillError} {u : Unit} :
    raiseIf test error = .ok u ↔ ¬ test := by
  rw [raiseIf]
  split_ifs with h
  · exact ⟨(by cases ·), fun hnot => absurd h hnot⟩
  · exact ⟨fun _ => h, fun _ => rfl⟩

/-- A valid path is returned unchanged. -/
theorem validatePath_ok {p q : String} (h : validatePath p = .ok q) : q = p := by
  rw [validatePath, bind_ok_iff] at h
  obtain ⟨_, _, h⟩ := h
  obtain ⟨_, _, h⟩ := bind_ok_iff.mp h
  exact (Except.ok.inj h).symm

/-- What is checked for one file. -/
def FileValid (previous : Dict String SkillFile) (file : SkillFile) : Prop :=
  validatePath file.path = .ok file.path ∧ ∃ bytes old, fileBytes file = .ok bytes ∧
    oldSize previous file.path = .ok old ∧ bytes.length ≤ max MAX_FILE_BYTES old

/-- What a package fulfils when `validate_files` does not raise. -/
structure Valid (files previous : List SkillFile) : Prop where
  count : files.length ≤ max MAX_FILES (byPath previous).size
  each : ∀ file ∈ files, FileValid (byPath previous) file
  nodup : (files.map SkillFile.path).Nodup
  total : ∃ total old, totalBytes files = .ok total ∧
    totalBytes ((byPath previous).entries.map Prod.snd) = .ok old ∧ total ≤ max MAX_SKILL_BYTES old
  directories : ∀ path ∈ files.map SkillFile.path, ∀ above ∈ parents path,
    above ∉ files.map SkillFile.path
  root : ∃ file ∈ files, file.path = "SKILL.md" ∧ file.encoding = none

variable {files files' previous result : List SkillFile} {paths : List String} {total n : ℕ}
  {old : Dict String SkillFile}

/-- The loop over the files passes where each is valid and no path comes twice. -/
theorem checkFiles_ok_iff : checkFiles old paths total files = .ok n ↔
    (∀ file ∈ files, FileValid old file ∧ file.path ∉ paths) ∧ (files.map SkillFile.path).Nodup ∧
      ∃ sum, totalBytes files = .ok sum ∧ n = total + sum := by
  induction files generalizing paths total with
  | nil =>
      rw [checkFiles, totalBytes]
      constructor
      · intro h
        exact ⟨fun _ hmem => absurd hmem List.not_mem_nil, List.nodup_nil, 0, rfl,
          (Except.ok.inj h).symm⟩
      · rintro ⟨-, -, sum, hsum, rfl⟩
        cases hsum
        rfl
  | cons file files ih =>
      simp only [checkFiles, bind_ok_iff, raiseIf_ok_iff, ih, totalBytes, List.forall_mem_cons,
        List.map_cons, List.nodup_cons, FileValid]
      constructor
      -- the checks in the order the code makes them
      · rintro ⟨path, hpath, _, hnew, bytes, hbytes, before, hbefore, _, hsize, hrest, hnodup,
          sum, hsum, rfl⟩
        have := validatePath_ok hpath
        subst this
        refine ⟨⟨⟨⟨hpath, bytes, before, hbytes, hbefore, not_lt.mp hsize⟩, hnew⟩, fun f hf => ?_⟩,
          ⟨?_, hnodup⟩,
          bytes.length + sum, ⟨bytes, hbytes, sum, hsum, rfl⟩, by omega⟩
        -- the paths of the rest are new beside this one too
        · exact ⟨(hrest f hf).1, fun hmem => (hrest f hf).2 (List.mem_cons_of_mem _ hmem)⟩
        · intro hmem
          obtain ⟨f, hf, heq⟩ := List.mem_map.mp hmem
          exact (hrest f hf).2 (heq ▸ List.mem_cons_self)
      · rintro ⟨⟨⟨⟨hpath, bytes, before, hbytes, hbefore, hsize⟩, hnew⟩, hrest⟩,
          ⟨hfresh, hnodup⟩, all,
          ⟨bytes', hbytes', sum, hsum, hall⟩, rfl⟩
        cases hbytes.symm.trans hbytes'
        cases hall
        refine ⟨file.path, hpath, (), hnew, bytes, hbytes, before, hbefore, (), not_lt.mpr hsize,
          fun f hf => ?_,
          hnodup, sum, hsum, by omega⟩
        refine ⟨(hrest f hf).1, fun hmem => ?_⟩
        rcases List.mem_cons.mp hmem with heq | hmem
        · exact hfresh (heq ▸ List.mem_map_of_mem hf)
        · exact (hrest f hf).2 hmem

/-- The check passes where no file is a directory of another. -/
theorem checkDirectories_ok_iff {u : Unit} :
    checkDirectories paths = .ok u ↔ ∀ path ∈ paths, ∀ above ∈ parents path, above ∉ paths := by
  rw [checkDirectories]
  cases hfind : paths.find? fun path => (parents path).any (· ∈ paths) with
  | none =>
      refine ⟨fun _ path hpath above habove hmem => ?_, fun _ => rfl⟩
      exact List.find?_eq_none.mp hfind path hpath
        (List.any_eq_true.mpr ⟨above, habove, by simpa using hmem⟩)
  | some path =>
      refine ⟨(by cases ·), fun h => ?_⟩
      have hany : ((parents path).any fun above => decide (above ∈ paths)) = true := by
        simpa using List.find?_some hfind
      obtain ⟨above, habove, hmem⟩ := List.any_eq_true.mp hany
      exact absurd (by simpa using hmem) (h path (List.mem_of_find?_eq_some hfind) above habove)

/-- With distinct paths there is one file to look at. -/
theorem checkRoot_ok_iff (hnodup : (files.map SkillFile.path).Nodup) {u : Unit} :
    checkRoot files = .ok u ↔ ∃ file ∈ files, file.path = "SKILL.md" ∧ file.encoding = none := by
  rw [checkRoot]
  cases hfind : files.find? fun f => f.path = "SKILL.md" with
  | none =>
      refine ⟨(by cases ·), fun ⟨file, hfile, hpath, _⟩ => ?_⟩
      exact absurd (by simpa using hpath) (List.find?_eq_none.mp hfind file hfile)
  | some root =>
      have hroot : root.path = "SKILL.md" := by simpa using List.find?_some hfind
      rw [raiseIf_ok_iff, Bool.not_eq_true, Option.isSome_eq_false_iff, Option.isNone_iff_eq_none]
      refine ⟨fun h => ⟨root, List.mem_of_find?_eq_some hfind, hroot, h⟩,
        fun ⟨file, hfile, hpath, hplain⟩ => ?_⟩
      rwa [← List.inj_on_of_nodup_map hnodup hfile (List.mem_of_find?_eq_some hfind)
        (hpath.trans hroot.symm)]

/-- Validation accepts the valid lists, and sorts them. -/
theorem validateFiles_ok_iff :
    validateFiles files previous = .ok result ↔ Valid files previous ∧
      result = files.insertionSort pathLe := by
  simp only [validateFiles, bind_ok_iff, raiseIf_ok_iff, checkFiles_ok_iff,
    checkDirectories_ok_iff, not_lt]
  constructor
  · rintro ⟨_, hcount, total, ⟨heach, hnodup, sum, hsum, rfl⟩, before, hbefore, _, htotal, _,
      hdirs, _, hroot, h⟩
    refine ⟨⟨hcount, fun f hf => (heach f hf).1, hnodup,
      ⟨sum, before, hsum, hbefore, by omega⟩, hdirs,
      (checkRoot_ok_iff hnodup).mp hroot⟩, (Except.ok.inj h).symm⟩
  · rintro ⟨⟨hcount, heach, hnodup, ⟨sum, before, hsum, hbefore, htotal⟩, hdirs, hroot⟩, rfl⟩
    exact ⟨(), hcount, 0 + sum,
      ⟨fun f hf => ⟨heach f hf, List.not_mem_nil⟩, hnodup, sum, hsum, rfl⟩, before, hbefore,
      (), by omega, (), hdirs, (), (checkRoot_ok_iff hnodup).mpr hroot, rfl⟩

/-! ## Order does not matter -/

/-- The size does not depend on the order. -/
theorem totalBytes_perm (h : files.Perm files') :
    ∀ n, totalBytes files = .ok n → totalBytes files' = .ok n := by
  induction h with
  | nil => exact fun _ h => h
  | cons file _ ih =>
      intro n hn
      simp only [totalBytes, bind_ok_iff] at hn ⊢
      obtain ⟨bytes, hbytes, rest, hrest, hn⟩ := hn
      exact ⟨bytes, hbytes, rest, ih rest hrest, hn⟩
  | swap a b l =>
      intro n hn
      simp only [totalBytes, bind_ok_iff] at hn ⊢
      obtain ⟨bytes, hbytes, _, ⟨bytes', hbytes', rest, hrest, hsum⟩, hn⟩ := hn
      cases hsum
      cases hn
      refine ⟨bytes', hbytes', bytes.length + rest, ⟨bytes, hbytes, rest, hrest, rfl⟩, ?_⟩
      exact congrArg Except.ok (by omega)
  | trans _ _ ih₁ ih₂ => exact fun n hn => ih₂ n (ih₁ n hn)

/-- Whether a list is valid does not depend on its order. -/
theorem Valid.perm (h : Valid files previous) (hperm : files.Perm files') :
    Valid files' previous := by
  have hpaths := hperm.map SkillFile.path
  obtain ⟨total, before, htotal, hbefore, hle⟩ := h.total
  refine ⟨hperm.length_eq ▸ h.count, fun f hf => h.each f (hperm.mem_iff.mpr hf),
    hpaths.nodup_iff.mp h.nodup,
    ⟨total, before, totalBytes_perm hperm total htotal, hbefore, hle⟩,
      fun path hpath above habove hmem => ?_, ?_⟩
  · exact h.directories path (hpaths.mem_iff.mpr hpath) above habove (hpaths.mem_iff.mpr hmem)
  · obtain ⟨file, hfile, hroot⟩ := h.root
    exact ⟨file, hperm.mem_iff.mp hfile, hroot⟩

/-- What `validate_files` returns passes again, and is returned as it is. -/
theorem validateFiles_idem (h : validateFiles files previous = .ok result) :
    validateFiles result previous = .ok result := by
  obtain ⟨hvalid, rfl⟩ := validateFiles_ok_iff.mp h
  have htotal : Std.Total pathLe := ⟨fun a b => le_total a.path b.path⟩
  have htrans : IsTrans SkillFile pathLe := ⟨fun _ _ _ hab hbc => le_trans hab hbc⟩
  have hsorted := List.pairwise_insertionSort pathLe files
  exact validateFiles_ok_iff.mpr ⟨hvalid.perm (List.perm_insertionSort pathLe files).symm,
    hsorted.insertionSort_eq.symm⟩

/-! ## What operations do -/

variable {path destination p q : String} {before after final : Dict String SkillFile}
  {operation : SkillFileOperation} {operations : List SkillFileOperation}

/-- Every file is stored under its path. -/
def WellKeyed (d : Dict String SkillFile) : Prop := ∀ p f, d.get? p = some f → f.path = p

/-- The files at or under the path are re-rooted, each at a place of its own, and the others are
left alone. -/
structure Moved (before after : Dict String SkillFile) (path destination : String) : Prop where
  arrives : ∀ p f, Under path p → before.get? p = some f →
    after.get? (reroot path destination p) = some { f with path := reroot path destination p }
  apart : ∀ p q, Under path p → Under path q →
    reroot path destination p = reroot path destination q → p = q
  stays : ∀ p f, ¬ Under path p → before.get? p = some f → after.get? p = some f
  only : ∀ p f, after.get? p = some f → ¬ Under path p ∧ before.get? p = some f ∨
    ∃ q, Under path q ∧ q ∈ before ∧ p = reroot path destination q

/-- What an operation that does not raise does. -/
def Effect (operation : SkillFileOperation) (before after : Dict String SkillFile) : Prop :=
  match operation.op with
  | .put => ∃ content, operation.content = some content ∧ ∀ p, after.get? p =
      if p = operation.path then some ⟨operation.path, content, operation.encoding⟩
        else before.get? p
  | .move => ∃ destination, operation.destination = some destination ∧
      Moved before after operation.path destination
  | .delete => ∀ p, after.get? p = if Under operation.path p then none else before.get? p

/-- One operation after another has its effect. -/
inductive Effects : List SkillFileOperation → Dict String SkillFile → Dict String SkillFile → Prop
  | nil (files : Dict String SkillFile) : Effects [] files files
  | cons {operation : SkillFileOperation} {operations : List SkillFileOperation}
      {before middle after : Dict String SkillFile} (first : Effect operation before middle)
      (rest : Effects operations middle after) : Effects (operation :: operations) before after

/-- A path under another starts with it. -/
theorem Under.toList (h : Under path p) :
    p.toList = path.toList ++ p.toList.drop path.toList.length := by
  rcases h with rfl | ⟨tail, htail⟩
  · simp
  · rw [← htail, List.append_assoc, List.drop_left]

theorem reroot_inj (hp : Under path p) (hq : Under path q)
    (h : reroot path destination p = reroot path destination q) : p = q := by
  have hlist : destination.toList ++ p.toList.drop path.toList.length =
      destination.toList ++ q.toList.drop path.toList.length := by
    simpa [reroot] using congrArg String.toList h
  refine String.toList_injective ?_
  rw [hp.toList, hq.toList, List.append_cancel_left hlist]

/-- Nothing has a slash in `SKILL.md`. -/
theorem under_root (h : Under path "SKILL.md") : path = "SKILL.md" := by
  rcases h with rfl | h
  · rfl
  · have hslash : '/' ∈ "SKILL.md".toList :=
      h.subset (List.mem_append_right _ (List.mem_singleton_self _))
    exact absurd hslash (by decide)

theorem get?_erase_matched (path : String) (result : Dict String SkillFile) (p : String) :
    ((result.keys.filter fun p => decide (Under path p)).foldl Dict.erase result).get? p =
      if Under path p then none else result.get? p := by
  rw [Dict.get?_foldl_erase]
  by_cases hunder : Under path p
  · by_cases hmem : p ∈ result.keys
    · simp [hunder, hmem]
    · have hnone : result.get? p = none := (Dict.get?_eq_none_iff result p).mpr hmem
      simp [hunder, hnone]
  · simp [hunder]

/-- The files that a move takes along, under their new paths. -/
theorem get?_moved (path destination : String) (before : Dict String SkillFile) (q : String)
    (f : SkillFile) :
    (Dict.ofList ((before.keys.filter fun p => decide (Under path p)).filterMap fun p =>
      (before.get? p).map fun f => (reroot path destination p, f))).get? q = some f ↔
      ∃ p, Under path p ∧ before.get? p = some f ∧ reroot path destination p = q := by
  generalize hl : (before.keys.filter fun p => decide (Under path p)).filterMap (fun p =>
    (before.get? p).map fun f => (reroot path destination p, f)) = l
  have hmem : ∀ q f, (q, f) ∈ l ↔ ∃ p, Under path p ∧ before.get? p = some f ∧
    reroot path destination p = q := by
    intro q f
    rw [← hl, List.mem_filterMap]
    constructor
    · rintro ⟨p, hp, hmap⟩
      obtain ⟨g, hg, heq⟩ := Option.map_eq_some_iff.mp hmap
      cases heq
      exact ⟨p, by simpa using (List.mem_filter.mp hp).2, hg, rfl⟩
    · rintro ⟨p, hunder, hget, rfl⟩
      exact ⟨p, List.mem_filter.mpr
        ⟨Dict.mem_of_get? hget, by simpa using hunder⟩, by rw [hget]; rfl⟩
  obtain ⟨hval, hkey⟩ := Dict.ofList_spec l q
  refine ⟨fun h => (hmem q f).mp (hval f h), fun h => ?_⟩
  obtain ⟨g, hg⟩ := (Dict.mem_iff_exists _ _).mp (hkey ⟨f, (hmem q f).mpr h⟩)
  -- no other file goes to the same place
  obtain ⟨p, hunder, hget, hq⟩ := h
  obtain ⟨p', hunder', hget', hq'⟩ := (hmem q g).mp (hval g hg)
  have := reroot_inj hunder hunder' (hq.trans hq'.symm)
  subst this
  rw [hg, ← hget', hget]

/-- The empty path is refused. -/
theorem validatePath_empty :
    validatePath "" = .error (.valueError "File paths must be relative POSIX paths") := rfl

/-- What a move leaves. -/
theorem move_spec
    (h : move before path (before.keys.filter fun p => Under path p) operation = .ok after) :
    (∃ destination, operation.destination = some destination ∧
      Moved before after path destination) ∧
      (WellKeyed before → WellKeyed after) := by
  rw [move, bind_ok_iff] at h
  obtain ⟨destination, hdestination, h⟩ := h
  have hgiven : operation.destination = some destination := by
    cases hd : operation.destination with
    | none =>
        rw [hd, Option.getD_none, validatePath_empty] at hdestination
        cases hdestination
    | some d =>
        rw [hd, Option.getD_some] at hdestination
        rw [validatePath_ok hdestination]
  obtain ⟨_, _, h⟩ := bind_ok_iff.mp h
  obtain ⟨_, hoverwrite, h⟩ := bind_ok_iff.mp h
  rw [raiseIf_ok_iff] at hoverwrite
  have hmoved := get?_moved path destination before
  -- the files moved, under their new paths
  generalize hm :
    Dict.ofList ((before.keys.filter fun p => decide (Under path p)).filterMap fun p =>
    (before.get? p).map fun f => (reroot path destination p, f)) = moved at hmoved hoverwrite h
  have hget : ∀ p, after.get? p = ((moved.get? p).map fun f => { f with path := p }).or
      (if Under path p then none else before.get? p) := by
    intro p
    rw [← Except.ok.inj h, Dict.get?_update, Dict.get?_mapVal, get?_erase_matched]
  refine ⟨⟨destination, hgiven, fun p f hunder hp => ?_, fun p q => reroot_inj,
    fun p f hnot hp => ?_, fun p f hp => ?_⟩,
    fun hkeyed p f hp => ?_⟩
  -- a file under the path is found at its new path
  · rw [hget, (hmoved _ f).mpr ⟨p, hunder, hp, rfl⟩]
    rfl
  · -- the path of another file is no new path
    have hnone : moved.get? p = none := by
      by_contra hsome
      obtain ⟨g, hg⟩ := Option.ne_none_iff_exists'.mp hsome
      refine hoverwrite ⟨p, Dict.mem_of_get? hg, Dict.mem_of_get? hp, fun hmatched => hnot ?_⟩
      simpa using (List.mem_filter.mp hmatched).2
    rw [hget, hnone, if_neg hnot, hp]
    rfl
  -- a file of the result was moved, or was there and not under the path
  · rw [hget] at hp
    cases hmp : moved.get? p with
    | none =>
        rw [hmp, Option.map_none, Option.none_or] at hp
        split_ifs at hp with hunder
        exact .inl ⟨hunder, hp⟩
    | some g =>
        obtain ⟨q, hunder, hq, hroot⟩ := (hmoved p g).mp hmp
        exact .inr ⟨q, hunder, Dict.mem_of_get? hq, hroot.symm⟩
  · rw [hget] at hp
    cases hmp : moved.get? p with
    | none =>
        rw [hmp, Option.map_none, Option.none_or] at hp
        split_ifs at hp
        exact hkeyed p f hp
    | some g =>
        rw [hmp] at hp
        cases hp
        rfl

/-- What a deletion leaves. -/
theorem delete_spec {path : String} :
    let after := (before.keys.filter fun p => decide (Under path p)).foldl Dict.erase before
    (∀ p, after.get? p = if Under path p then none else before.get? p) ∧
      (WellKeyed before → WellKeyed after) := by
  refine ⟨get?_erase_matched path before, fun hkeyed p f hp => ?_⟩
  rw [get?_erase_matched] at hp
  split_ifs at hp
  exact hkeyed p f hp

/-- What a write leaves. -/
theorem put_spec {path : String} (h : put before path operation = .ok after) :
    (∃ content, operation.content = some content ∧ ∀ p, after.get? p =
      if p = path then some ⟨path, content, operation.encoding⟩ else before.get? p) ∧
      (WellKeyed before → WellKeyed after) := by
  rw [put] at h
  cases hcontent : operation.content with
  | none =>
      rw [hcontent] at h
      cases h
  | some content =>
      rw [hcontent] at h
      cases h
      have hget : ∀ p, (before.set path ⟨path, content, operation.encoding⟩).get? p =
          if p = path then some ⟨path, content, operation.encoding⟩ else before.get? p :=
            fun p => Dict.get?_set _ _ _ _
      refine ⟨⟨content, rfl, hget⟩, fun hkeyed p f hp => ?_⟩
      rw [hget] at hp
      split_ifs at hp with heq
      · cases hp
        exact heq.symm
      · exact hkeyed p f hp

/-- One operation has its effect and keeps every file under its path. -/
theorem applyOperation_spec (h : applyOperation before operation = .ok after) :
    Effect operation before after ∧ (WellKeyed before → WellKeyed after) ∧
      (operation.op ≠ .put → operation.path ≠ "SKILL.md") := by
  rw [applyOperation, bind_ok_iff] at h
  obtain ⟨path, hpath, h⟩ := h
  have := validatePath_ok hpath
  subst this
  rw [Effect]
  cases hop : operation.op with
  | put =>
      rw [hop] at h
      obtain ⟨heffect, hkeyed⟩ := put_spec h
      exact ⟨heffect, hkeyed, fun hne => absurd rfl hne⟩
  | move =>
      rw [hop] at h
      obtain ⟨_, hroot, h⟩ := bind_ok_iff.mp h
      obtain ⟨_, _, h⟩ := bind_ok_iff.mp h
      obtain ⟨heffect, hkeyed⟩ := move_spec h
      exact ⟨heffect, hkeyed, fun _ => raiseIf_ok_iff.mp hroot⟩
  | delete =>
      rw [hop] at h
      obtain ⟨_, hroot, h⟩ := bind_ok_iff.mp h
      obtain ⟨_, _, h⟩ := bind_ok_iff.mp h
      rw [← Except.ok.inj h]
      exact ⟨delete_spec.1, delete_spec.2, fun _ => raiseIf_ok_iff.mp hroot⟩

/-- `SKILL.md` is changed by a put to it only. -/
theorem Effect.root (h : Effect operation before after)
    (hpath : operation.op ≠ .put → operation.path ≠ "SKILL.md") :
    ("SKILL.md" ∈ before → "SKILL.md" ∈ after) ∧
      (¬ (operation.op = .put ∧ operation.path = "SKILL.md") →
      "SKILL.md" ∈ before → after.get? "SKILL.md" = before.get? "SKILL.md") := by
  have hsame : ¬ (operation.op = .put ∧ operation.path = "SKILL.md") → "SKILL.md" ∈ before →
      after.get? "SKILL.md" = before.get? "SKILL.md" := by
    intro hput hmem
    rw [Effect] at h
    cases hop : operation.op with
    | put =>
        rw [hop] at h
        obtain ⟨content, _, hget⟩ := h
        rw [hget, if_neg fun heq => hput ⟨hop, heq.symm⟩]
    | move =>
        rw [hop] at h
        obtain ⟨destination, _, hmoved⟩ := h
        obtain ⟨f, hf⟩ := (Dict.mem_iff_exists _ _).mp hmem
        rw [hf, hmoved.stays _ f (fun hunder => hpath (by rw [hop]; decide) (under_root hunder)) hf]
    | delete =>
        rw [hop] at h
        rw [h, if_neg fun hunder => hpath (by rw [hop]; decide) (under_root hunder)]
  refine ⟨fun hmem => ?_, hsame⟩
  by_cases hput : operation.op = .put ∧ operation.path = "SKILL.md"
  · rw [Effect, hput.1] at h
    obtain ⟨content, _, hget⟩ := h
    exact (Dict.mem_iff_exists _ _).mpr ⟨_, by rw [hget, if_pos hput.2.symm]⟩
  · obtain ⟨f, hf⟩ := (Dict.mem_iff_exists _ _).mp hmem
    exact (Dict.mem_iff_exists _ _).mpr ⟨f, (hsame hput hmem).trans hf⟩

/-! ## Whole lists of operations -/

/-- A list of operations that raises nowhere has all its effects. -/
theorem applyAll_effects (h : applyAll before operations = .ok after) :
    Effects operations before after := by
  induction operations generalizing before with
  | nil =>
      cases h
      exact .nil _
  | cons operation operations ih =>
      rw [applyAll, bind_ok_iff] at h
      obtain ⟨next, hnext, h⟩ := h
      exact .cons (applyOperation_spec hnext).1 (ih h)

/-- What one operation keeps, all keep. -/
theorem applyAll_spec (h : applyAll before operations = .ok after) :
    (WellKeyed before → WellKeyed after) ∧ ("SKILL.md" ∈ before → "SKILL.md" ∈ after) ∧
      ((∀ operation ∈ operations, ¬ (operation.op = .put ∧ operation.path = "SKILL.md")) →
        "SKILL.md" ∈ before → after.get? "SKILL.md" = before.get? "SKILL.md") := by
  induction operations generalizing before with
  | nil =>
      cases h
      exact ⟨id, id, fun _ _ => rfl⟩
  | cons operation operations ih =>
      rw [applyAll, bind_ok_iff] at h
      obtain ⟨next, hnext, h⟩ := h
      obtain ⟨heffect, hkeyed, hpath⟩ := applyOperation_spec hnext
      obtain ⟨hmem, hsame⟩ := heffect.root hpath
      obtain ⟨ihkeyed, ihmem, ihsame⟩ := ih h
      refine ⟨ihkeyed ∘ hkeyed, ihmem ∘ hmem, fun hnone hroot => ?_⟩
      rw [List.forall_mem_cons] at hnone
      rw [ihsame hnone.2 (hmem hroot), hsame hnone.1 hroot]

theorem get?_byPath (hnodup : (files.map SkillFile.path).Nodup) (p : String) (f : SkillFile) :
    (byPath files).get? p = some f ↔ f ∈ files ∧ f.path = p := by
  have hkeys : (Assoc.keys (files.map fun f => (f.path, f))).Nodup := by
    rw [Assoc.keys, List.map_map]
    exact hnodup
  rw [← Dict.mem_entries_iff, byPath, Dict.entries_ofList hkeys, List.mem_map]
  constructor
  · rintro ⟨g, hg, heq⟩
    cases heq
    exact ⟨hg, rfl⟩
  · rintro ⟨hf, rfl⟩
    exact ⟨f, hf, rfl⟩

/-- The final files, as the map has them. -/
theorem mem_values (hkeyed : WellKeyed final) (f : SkillFile) :
    f ∈ final.entries.map Prod.snd ↔ final.get? f.path = some f := by
  rw [List.mem_map]
  constructor
  · rintro ⟨⟨p, g⟩, hmem, rfl⟩
    have hget := (Dict.mem_entries_iff final p g).mp hmem
    rwa [hkeyed p g hget]
  · intro h
    exact ⟨(f.path, f), (Dict.mem_entries_iff final _ _).mpr h, rfl⟩

/-- On a package that passed, every operation has its effect, and the package they leave is
reached from it by all these effects and passes again. -/
theorem applyOperations_spec (files previous checked : List SkillFile)
    (hchecked : validateFiles files previous = .ok checked) (operations : List SkillFileOperation) :
    (∀ p f, (byPath files).get? p = some f ↔ f ∈ files ∧ f.path = p) ∧
      (∀ done operation rest, operations = done ++ operation :: rest → ∀ before after,
        applyAll (byPath files) done = .ok before → applyOperation before operation = .ok after →
        Effects done (byPath files) before ∧ Effect operation before after ∧ "SKILL.md" ∈ after ∧
          (¬ (operation.op = .put ∧ operation.path = "SKILL.md") →
            after.get? "SKILL.md" = before.get? "SKILL.md")) ∧
      ∀ result, applyOperations files operations = .ok result →
        validateFiles result files = .ok result ∧
        (∃ final, applyAll (byPath files) operations = .ok final ∧
          Effects operations (byPath files) final ∧ ∀ p f, final.get? p = some f ↔
            f ∈ result ∧ f.path = p) ∧
        (∃ root ∈ result, root.path = "SKILL.md") ∧
        ((∀ operation ∈ operations, ¬ (operation.op = .put ∧ operation.path = "SKILL.md")) →
          ∀ root ∈ result, root.path = "SKILL.md" → root ∈ files) := by
  obtain ⟨hvalid, -⟩ := validateFiles_ok_iff.mp hchecked
  have hget := get?_byPath hvalid.nodup
  have hkeyed : WellKeyed (byPath files) := fun p f hp => ((hget p f).mp hp).2
  -- a valid skill has its root, which no operation may take away
  have hroot : "SKILL.md" ∈ byPath files := by
    obtain ⟨root, hmem, hpath, -⟩ := hvalid.root
    exact (Dict.mem_iff_exists _ _).mpr ⟨root, (hget _ _).mpr ⟨hmem, hpath⟩⟩
  refine ⟨hget, fun done operation rest _ before after hbefore hafter => ?_,
    fun result hresult => ?_⟩
  · have hmem := (applyAll_spec hbefore).2.1 hroot
    obtain ⟨heffect, -, hpath⟩ := applyOperation_spec hafter
    exact ⟨applyAll_effects hbefore, heffect, (heffect.root hpath).1 hmem,
      fun hput => (heffect.root hpath).2 hput hmem⟩
  · rw [applyOperations, bind_ok_iff] at hresult
    obtain ⟨final, hfinal, hresult⟩ := hresult
    obtain ⟨hkeys, hmem, hsame⟩ := applyAll_spec hfinal
    -- sorting the values keeps them
    have hvalues : ∀ p f, final.get? p = some f ↔ f ∈ result ∧ f.path = p := by
      intro p f
      obtain ⟨-, rfl⟩ := validateFiles_ok_iff.mp hresult
      rw [List.mem_insertionSort, mem_values (hkeys hkeyed)]
      constructor
      · intro hp
        have hpath := hkeys hkeyed p f hp
        exact ⟨hpath ▸ hp, hpath⟩
      · rintro ⟨hp, rfl⟩
        exact hp
    refine ⟨validateFiles_idem hresult, ⟨final, hfinal, applyAll_effects hfinal, hvalues⟩, ?_,
      fun hnone root hmemroot hpath => ?_⟩
    · obtain ⟨root, hget_root⟩ := (Dict.mem_iff_exists _ _).mp (hmem hroot)
      exact ⟨root, ((hvalues _ _).mp hget_root).1, ((hvalues _ _).mp hget_root).2⟩
    · have hfinal_root := (hvalues _ _).mpr ⟨hmemroot, hpath⟩
      rw [hsame hnone hroot] at hfinal_root
      exact ((hget _ _).mp hfinal_root).1

def notesRoot : SkillFile := ⟨"SKILL.md", "# Notes", none⟩

def notesSkill : List SkillFile :=
    [notesRoot, ⟨"docs/a.md", "first", none⟩, ⟨"docs/b.md", "second", none⟩]

/-- A directory is moved, a file is put there and another one deleted. -/
def notesOperations : List SkillFileOperation :=
  [⟨.move, "docs", none, none, some "guides/old"⟩, ⟨.put, "guides/c.md", some "third", none, none⟩,
    ⟨.delete, "guides/old/b.md", none, none, none⟩]

def notesAfter : List SkillFile :=
  [notesRoot, ⟨"guides/c.md", "third", none⟩, ⟨"guides/old/a.md", "first", none⟩]

/-- The three operations have their effects and `SKILL.md` stays. -/
theorem applyOperations_spec_notes : applyOperations notesSkill notesOperations = .ok notesAfter ∧
    notesRoot ∈ notesAfter ∧ validateFiles notesAfter notesSkill = .ok notesAfter ∧
    ∃ final, Effects notesOperations (byPath notesSkill) final := by
  have hchecked : validateFiles notesSkill [] = .ok notesSkill := by decide +kernel
  have happly : applyOperations notesSkill notesOperations = .ok notesAfter := by decide +kernel
  obtain ⟨-, -, hresult⟩ := applyOperations_spec notesSkill [] notesSkill hchecked notesOperations
  obtain ⟨hvalid, ⟨final, -, heffects, -⟩, ⟨root, hmem, hpath⟩, -⟩ := hresult _ happly
  have honly : ∀ f ∈ notesAfter, f.path = "SKILL.md" → f = notesRoot := by decide +kernel
  exact ⟨happly, honly root hmem hpath ▸ hmem, hvalid, final, heffects⟩

end OpenWebUI.Skills
