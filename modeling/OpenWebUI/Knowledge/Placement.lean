import OpenWebUI.Knowledge.Paths
import OpenWebUI.Lib.Transition

/-! # Directories and files in their knowledge bases

The writes of `models/knowledge.py` that place directories and files. They keep directories and
links to their knowledge bases; that the parents and directories named exist is what the foreign
keys are for.
-/

namespace OpenWebUI.Knowledge

open Py

/-! ## Writes -/

/-- `create_directory`, with the id drawn for it. -/
def createDirectory (fk : Bool) (dirs : Directories) (id : String) (row : Directory) :
    Directories × Option Directory :=
  if id ∈ dirs ∨ duplicate dirs id row = true ∨ parentMissing fk dirs row = true then (dirs, none)
  else (dirs.set id row, some row)

/-- The `UPDATE` of `move_directory`, once the cycle check has passed. -/
def moveRow (fk : Bool) (dirs : Directories) (id : String) (parentId : Option String) (now : ℤ) :
    Directories × Option Directory :=
  match updateRow dirs id (fun row => movedRow row parentId now)
    (fun row => duplicate dirs id row || parentMissing fk dirs row) with
  | none => (dirs, none)
  | some dirs => (dirs, dirs.get? id)

/-- A move is a walk and a write. -/
theorem moveDirectory_eq (fk : Bool) (dirs : Directories) (id : String) (parentId : Option String)
    (now : ℤ) : moveDirectory fk dirs id parentId now =
      if meetsDirectory dirs id (dirs.size + 1) parentId [] then (dirs, none)
      else moveRow fk dirs id parentId now := rfl

/-- The foreign key of the directory of a link is broken. -/
def directoryMissing (fk : Bool) (dirs : Directories) (directoryId : Option String) : Bool :=
  fk && directoryId.any fun d => d ∉ dirs

/-- `has_file(knowledge_id, file_id)`. -/
def hasFile (files : Files) (knowledgeId fileId : String) : Bool :=
  files.entries.any fun e => e.2.knowledgeId = knowledgeId ∧ e.2.fileId = fileId

/-- `add_file_to_knowledge_by_id`, with the id drawn for the link. -/
def addFileToKnowledge (fk : Bool) (t : Tables) (id : String) (row : KnowledgeFile) : Tables :=
  if id ∈ t.files ∨ hasFile t.files row.knowledgeId row.fileId = true ∨
      directoryMissing fk t.directories row.directoryId = true then t
  else { t with files := t.files.set id row }

/-- `move_file_to_directory`. -/
def moveFileToDirectory (fk : Bool) (t : Tables) (knowledgeId fileId : String)
    (directoryId : Option String) (now : ℤ) : Tables :=
  if directoryMissing fk t.directories directoryId then t
  else { t with files := t.files.mapVal fun _ f =>
    if f.knowledgeId = knowledgeId ∧ f.fileId = fileId then
      { f with directoryId := directoryId, updatedAt := now }
    else f }

/-- `remove_file_from_knowledge_by_id`. -/
def removeFile (files : Files) (knowledgeId fileId : String) : Files :=
  files.filterMapVal fun f => if f.knowledgeId = knowledgeId ∧ f.fileId = fileId then
    none else some f

/-- `reset_knowledge_by_id`. -/
def resetKnowledge (fk : Bool) (t : Tables) (knowledgeId : String)
    (includeDirectories : Bool) : Tables :=
  let t := { t with
    files := t.files.filterMapVal fun f => if f.knowledgeId = knowledgeId then none else some f }
  if includeDirectories then
    ((t.directories.entries.filter fun e => e.2.knowledgeId = knowledgeId).map Prod.fst).foldl
      (deleteRow fk) t
  else t

/-! ## Every directory and every file in its knowledge base -/

/-- Where both ids are directories, they are of one knowledge base. -/
def SameBase (dirs : Directories) (d d' : String) : Prop :=
  ∀ row row', dirs.get? d = some row → dirs.get? d' = some row' → row'.knowledgeId = row.knowledgeId

/-- No link leads to a directory of another knowledge base. -/
def Linked (dirs : Directories) (files : Files) : Prop :=
  ∀ k f d row, files.get? k = some f → f.directoryId = some d → dirs.get? d = some row →
    row.knowledgeId = f.knowledgeId

/-- No file is linked twice to a knowledge base. -/
def LinkedOnce (files : Files) : Prop :=
  ∀ k k' f f', files.get? k = some f → files.get? k' = some f' → f.knowledgeId = f'.knowledgeId →
    f.fileId = f'.fileId → k = k'

/-- No directory has a parent in another knowledge base, and siblings have different names. -/
structure PlacedDirectories (dirs : Directories) : Prop where
  ids : "" ∉ dirs
  parents : ∀ c p, parentOf dirs c = some p → SameBase dirs c p
  siblings : ∀ c c' d d' p, dirs.get? c = some d → dirs.get? c' = some d' →
    d.knowledgeId = d'.knowledgeId →
    d.parentId = some p → d'.parentId = some p → d.name = d'.name → c = c'

/-- Directories and links keep to their knowledge bases. -/
structure Placed (t : Tables) : Prop where
  directories : PlacedDirectories t.directories
  linked : Linked t.directories t.files
  once : LinkedOnce t.files

/-- No foreign key of the two tables is broken. -/
structure Intact (t : Tables) : Prop where
  parents : ∀ c p, parentOf t.directories c = some p → p ∈ t.directories
  links : ∀ k f d, t.files.get? k = some f → f.directoryId = some d → d ∈ t.directories

/-- The id stands in a row, as a parent or as the directory of a link. -/
def Mentioned (t : Tables) (x : String) : Prop :=
  (∃ c, parentOf t.directories c = some x) ∨ ∃ k f, t.files.get? k = some f ∧ f.directoryId = some x

variable {fk : Bool} {t t' : Tables} {dirs dirs' : Directories} {files files' : Files}
  {kb id : String} {row : Directory}

theorem Mentioned.mem (h : Intact t) {x : String} (hx : Mentioned t x) : x ∈ t.directories := by
  rcases hx with ⟨c, hc⟩ | ⟨k, f, hf, hd⟩
  · exact h.parents c x hc
  · exact h.links k f x hf hd

/-- With foreign keys, a parent is a directory of the knowledge base. -/
theorem Placed.exists_parent (h : Placed t) (hintact : Intact t) {c p : String}
    (hp : parentOf t.directories c = some p) : ∃ row row', t.directories.get? c = some row ∧
      t.directories.get? p = some row' ∧ row'.knowledgeId = row.knowledgeId := by
  obtain ⟨row, hrow⟩ := (Dict.mem_iff_exists _ _).mp (mem_of_parentOf hp)
  obtain ⟨row', hrow'⟩ := (Dict.mem_iff_exists _ _).mp (hintact.parents c p hp)
  exact ⟨row, row', hrow, hrow', h.directories.parents c p hp row row' hrow hrow'⟩

/-- With foreign keys, a link leads to a directory of its knowledge base. -/
theorem Placed.exists_directory (h : Placed t) (hintact : Intact t) {k d : String}
    {f : KnowledgeFile} (hf : t.files.get? k = some f) (hd : f.directoryId = some d) :
    ∃ row, t.directories.get? d = some row ∧ row.knowledgeId = f.knowledgeId := by
  obtain ⟨row, hrow⟩ := (Dict.mem_iff_exists _ _).mp (hintact.links k f d hf hd)
  exact ⟨row, hrow, h.linked k f d row hf hd hrow⟩

/-! ## Storing a row -/

/-- A row may be stored under an id that no other row names, or in the place of a row of its
knowledge base, when its parent is of its knowledge base and its name is free. -/
theorem Placed.set (h : Placed t) (hid : id ≠ "")
    (hkb : Mentioned t id → ∃ old, t.directories.get? id = some old ∧
      row.knowledgeId = old.knowledgeId)
    (hparent : ∀ p above, row.parentId = some p → t.directories.get? p = some above →
      above.knowledgeId = row.knowledgeId)
    (hdup : duplicate t.directories id row = false) :
    Placed ⟨t.directories.set id row, t.files⟩ := by
  -- no other directory has the name under this parent
  have hfree : ∀ c d p, c ≠ id → t.directories.get? c = some d → d.knowledgeId = row.knowledgeId →
      d.parentId = some p → row.parentId = some p → d.name ≠ row.name := by
    intro c d p hc hd hdkb hdp hp hname
    have hdup' := duplicate_iff.mpr ⟨p, hp, c, d, hc, hd, hdkb, hdp, hname⟩
    rw [hdup] at hdup'
    cases hdup'
  refine ⟨⟨fun hmem => ?_, fun c p hp below above hc hp' => ?_,
    fun c c' d d' p hd hd' hdkb hp hp' hname => ?_⟩,
    fun k f d above hf hd habove => ?_, h.once⟩
  · obtain ⟨d, hd⟩ := (Dict.mem_iff_exists _ _).mp hmem
    rw [Dict.get?_set, if_neg (Ne.symm hid)] at hd
    exact h.directories.ids (Dict.mem_of_get? hd)
  -- a child is in the knowledge base of its parent
  · rw [parentOf_set] at hp
    rw [Dict.get?_set] at hc hp'
    split_ifs at hp hc with hcid
    · obtain rfl := Option.some.inj hc
      split_ifs at hp' with hpid
      · exact congrArg _ (Option.some.inj hp').symm
      · exact hparent p above hp hp'
    · split_ifs at hp' with hpid
      · -- the row replaces the parent of another one
        obtain ⟨old, hold, holdkb⟩ := hkb (.inl ⟨c, hpid ▸ hp⟩)
        rw [← Option.some.inj hp', holdkb]
        exact h.directories.parents c p hp below old hc (hpid ▸ hold)
      · exact h.directories.parents c p hp below above hc hp'
  -- no two directories of one parent have one name
  · rw [Dict.get?_set] at hd hd'
    split_ifs at hd hd' with hc hc' hc'
    · exact hc.trans hc'.symm
    · obtain rfl := Option.some.inj hd
      exact absurd hname.symm (hfree c' d' p hc' hd' hdkb.symm hp' hp)
    · obtain rfl := Option.some.inj hd'
      exact absurd hname (hfree c d p hc hd hdkb hp hp')
    · exact h.directories.siblings c c' d d' p hd hd' hdkb hp hp' hname
  -- a file is in a directory of its knowledge base
  · rw [Dict.get?_set] at habove
    split_ifs at habove with hdid
    · obtain ⟨old, hold, holdkb⟩ := hkb (.inr ⟨k, f, hf, hdid ▸ hd⟩)
      rw [← Option.some.inj habove, holdkb]
      exact h.linked k f d old hf hd (hdid ▸ hold)
    · exact h.linked k f d above hf hd habove

/-- A move or a rename keeps the knowledge base of its row. -/
theorem Placed.update (h : Placed t) {old : Directory} (hget : t.directories.get? id = some old)
    (hkb : row.knowledgeId = old.knowledgeId)
    (hparent : ∀ p above, row.parentId = some p → t.directories.get? p = some above →
      above.knowledgeId = row.knowledgeId)
    (hdup : duplicate t.directories id row = false) : Placed ⟨t.directories.set id row, t.files⟩ :=
  h.set (fun heq => h.directories.ids (heq ▸ Dict.mem_of_get? hget))
    (fun _ => ⟨old, hget, hkb⟩) hparent hdup

theorem Intact.set (h : Intact t) (hparent : ∀ p, row.parentId = some p → p ∈ t.directories) :
    Intact ⟨t.directories.set id row, t.files⟩ := by
  have hmem : ∀ x, x ∈ t.directories → x ∈ t.directories.set id row := by
    intro x hx
    obtain ⟨d, hd⟩ := (Dict.mem_iff_exists _ _).mp hx
    rw [Dict.mem_iff_exists]
    by_cases hxid : x = id
    · exact ⟨row, by rw [hxid, Dict.get?_set_self]⟩
    · exact ⟨d, by rw [Dict.get?_set_ne _ _ hxid, hd]⟩
  refine ⟨fun c p hp => ?_, fun k f d hf hd => hmem d (h.links k f d hf hd)⟩
  rw [parentOf_set] at hp
  split_ifs at hp
  · exact hmem p (hparent p hp)
  · exact hmem p (h.parents c p hp)

/-- A row mentions its parent. -/
theorem Mentioned.of_set {x : String} (h : Mentioned ⟨t.directories.set id row, t.files⟩ x) :
    Mentioned t x ∨ row.parentId = some x := by
  rcases h with ⟨c, hc⟩ | hlink
  · rw [parentOf_set] at hc
    split_ifs at hc
    · exact .inr hc
    · exact .inl (.inl ⟨c, hc⟩)
  · exact .inl (.inr hlink)

/-- When the database accepts a parent. -/
theorem parentMissing_eq_false : parentMissing fk dirs row = false ↔
    (fk = true → ∀ p, row.parentId = some p → p ∈ dirs) := by
  rw [Bool.eq_false_iff, ne_eq, parentMissing_iff]
  push Not
  exact Iff.rfl

/-- A directory is created, or nothing happens. -/
theorem createDirectory_cases (fk : Bool) (dirs : Directories) (id : String) (row : Directory) :
    (createDirectory fk dirs id row).1 = dirs ∨
      ((createDirectory fk dirs id row).1 = dirs.set id row ∧
      id ∉ dirs ∧ duplicate dirs id row = false ∧
        (fk = true → ∀ p, row.parentId = some p → p ∈ dirs)) := by
  rw [createDirectory]
  split_ifs with h
  · exact .inl rfl
  · push Not at h
    exact .inr ⟨rfl, h.1, Bool.eq_false_iff.mpr h.2.1,
      parentMissing_eq_false.mp (Bool.eq_false_iff.mpr h.2.2)⟩

/-- A row is moved, or nothing happens. -/
theorem moveRow_cases (fk : Bool) (dirs : Directories) (id : String) (parentId : Option String)
    (now : ℤ) :
    (moveRow fk dirs id parentId now).1 = dirs ∨ ∃ row, dirs.get? id = some row ∧
      (moveRow fk dirs id parentId now).1 = dirs.set id (movedRow row parentId now) ∧
      duplicate dirs id (movedRow row parentId now) = false ∧
      (fk = true → ∀ p, parentId = some p → p ∈ dirs) := by
  rw [moveRow, updateRow]
  cases hget : dirs.get? id with
  | none => exact .inl rfl
  | some row =>
      simp only
      split_ifs with h
      · exact .inl rfl
      · rw [Bool.or_eq_true, not_or] at h
        exact .inr ⟨row, rfl, rfl, Bool.eq_false_iff.mpr h.1,
          parentMissing_eq_false.mp (Bool.eq_false_iff.mpr h.2)⟩

/-- A row is renamed, or nothing happens. -/
theorem renameDirectory_cases (dirs : Directories) (id name : String) (now : ℤ) :
    (renameDirectory dirs id name now).1 = dirs ∨ ∃ row, dirs.get? id = some row ∧
      (renameDirectory dirs id name now).1 = dirs.set id (renamedRow row name now) ∧
      duplicate dirs id (renamedRow row name now) = false := by
  cases hget : dirs.get? id with
  | none => exact .inl (by rw [renameDirectory_missing hget])
  | some row =>
      rw [renameDirectory_stored hget]
      split_ifs with h
      · exact .inl rfl
      · exact .inr ⟨row, rfl, rfl, Bool.eq_false_iff.mpr h⟩

/-! ## Changing links -/

/-- Links are only taken away, or lead to `target` or to the root. -/
def Relinks (target : Option String) (files files' : Files) : Prop :=
  ∀ k f', files'.get? k = some f' → ∃ f, files.get? k = some f ∧ f'.knowledgeId = f.knowledgeId ∧
    f'.fileId = f.fileId ∧ (f'.directoryId = f.directoryId ∨ f'.directoryId = target ∨
      f'.directoryId = none)

/-- Fewer links are links that stayed. -/
theorem Relinks.of_sub {target : Option String}
    (h : ∀ k f, files'.get? k = some f → files.get? k = some f) :
    Relinks target files files' :=
  fun k f' hf' => ⟨f', h k f' hf', rfl, rfl, .inl rfl⟩

theorem Relinks.refl (target : Option String) (files : Files) : Relinks target files files :=
  .of_sub fun _ _ hf => hf

theorem Relinks.trans {target : Option String} {a b c : Files} (h : Relinks target a b)
    (h' : Relinks target b c) : Relinks target a c := by
  intro k f'' hf''
  obtain ⟨f', hf', hkb', hfile', hdir'⟩ := h' k f'' hf''
  obtain ⟨f, hf, hkb, hfile, hdir⟩ := h k f' hf'
  refine ⟨f, hf, hkb'.trans hkb, hfile'.trans hfile, ?_⟩
  rcases hdir' with heq | hother
  · rwa [heq]
  · exact .inr hother

/-- A file stays linked once. -/
theorem Relinks.once {target : Option String} (h : Relinks target files files')
    (honce : LinkedOnce files) :
    LinkedOnce files' := by
  intro k k' f f' hf hf' hkb hfile
  obtain ⟨g, hg, hgkb, hgfile, -⟩ := h k f hf
  obtain ⟨g', hg', hgkb', hgfile', -⟩ := h k' f' hf'
  exact honce k k' g g' hg hg' (by rw [← hgkb, ← hgkb', hkb]) (by rw [← hgfile, ← hgfile', hfile])

/-- What is mentioned afterwards was mentioned before or is the target. -/
theorem Relinks.mentioned {target : Option String} (h : Relinks target t.files files) {x : String}
    (hx : Mentioned ⟨t.directories, files⟩ x) : Mentioned t x ∨ target = some x := by
  rcases hx with hparent | ⟨k, f', hf', hd⟩
  · exact .inl (.inl hparent)
  · obtain ⟨f, hf, -, -, hsame | hthere | hroot⟩ := h k f' hf'
    · exact .inl (.inr ⟨k, f, hf, hsame ▸ hd⟩)
    · exact .inr (hthere ▸ hd)
    · rw [hroot] at hd
      cases hd

/-- Links moved to a stored directory keep the tables intact. -/
theorem Relinks.intact {target : Option String} (h : Relinks target t.files files)
    (hintact : Intact t) (htarget : ∀ p, target = some p → p ∈ t.directories) :
    Intact ⟨t.directories, files⟩ := by
  refine ⟨hintact.parents, fun k f' d hf' hd => ?_⟩
  rcases h.mentioned (.inr ⟨k, f', hf', hd⟩) with hx | hx
  · exact hx.mem hintact
  · exact htarget d hx

/-- A map that moves links to the target relinks them. -/
theorem relinks_mapVal {target : Option String} {g : String → KnowledgeFile → KnowledgeFile}
    (h : ∀ k f, (g k f).knowledgeId = f.knowledgeId ∧ (g k f).fileId = f.fileId ∧
      ((g k f).directoryId = f.directoryId ∨ (g k f).directoryId = target ∨
      (g k f).directoryId = none)) :
    Relinks target files (files.mapVal g) := by
  intro k f' hf'
  rw [Dict.get?_mapVal] at hf'
  obtain ⟨f, hf, rfl⟩ := Option.map_eq_some_iff.mp hf'
  exact ⟨f, hf, h k f⟩

/-- Moving files relinks them. -/
theorem relinks_moveFiles (target : Option String) (x : String) (files : Files) :
    Relinks target files (moveFiles target x files) :=
  relinks_mapVal fun k f => by
    split_ifs
    · exact ⟨rfl, rfl, .inr (.inl rfl)⟩
    · exact ⟨rfl, rfl, .inl rfl⟩

/-- Filtering changes no link that stays. -/
theorem sub_filterMapVal (files : Files) (q : KnowledgeFile → Prop) [DecidablePred q] (k : String)
    (f : KnowledgeFile)
    (h : (files.filterMapVal fun f => if q f then none else some f).get? k = some f) :
    files.get? k = some f := by
  rw [Dict.get?_filterMapVal] at h
  obtain ⟨g, hg, hgf⟩ := Option.bind_eq_some_iff.mp h
  split_ifs at hgf
  rwa [← Option.some.inj hgf]

theorem get?_removeFile {fileId k : String} {f : KnowledgeFile} :
    (removeFile files kb fileId).get? k = some f ↔
      files.get? k = some f ∧ ¬ (f.knowledgeId = kb ∧ f.fileId = fileId) := by
  rw [removeFile, Dict.get?_filterMapVal, Option.bind_eq_some_iff]
  constructor
  · rintro ⟨g, hg, hgf⟩
    split_ifs at hgf with hthis
    obtain rfl := Option.some.inj hgf
    exact ⟨hg, hthis⟩
  · rintro ⟨hf, hnot⟩
    exact ⟨f, hf, if_neg hnot⟩

/-- Fewer links. -/
theorem Placed.fewerLinks (h : Placed t)
    (hsub : ∀ k f, files.get? k = some f → t.files.get? k = some f) :
    Placed ⟨t.directories, files⟩ where
  directories := h.directories
  linked := fun k f d row hf => h.linked k f d row (hsub k f hf)
  once := fun k k' f f' hf hf' => h.once k k' f f' (hsub k f hf) (hsub k' f' hf')

/-- When a file is not in the knowledge base. -/
theorem hasFile_eq_false {fileId : String} : hasFile files kb fileId = false ↔
    ∀ k f, files.get? k = some f → f.knowledgeId = kb → f.fileId ≠ fileId := by
  rw [hasFile, List.any_eq_false]
  constructor
  · exact fun h k f hf hkb hfile =>
      h (k, f) ((Dict.mem_entries_iff _ _ _).mpr hf) (decide_eq_true ⟨hkb, hfile⟩)
  · exact fun h e he hboth =>
      h e.1 e.2 ((Dict.mem_entries_iff _ _ _).mp he) (of_decide_eq_true hboth).1
      (of_decide_eq_true hboth).2

/-- When the database accepts a directory. -/
theorem directoryMissing_eq_false {directoryId : Option String} :
    directoryMissing fk dirs directoryId = false ↔
      (fk = true → ∀ d, directoryId = some d → d ∈ dirs) := by
  cases fk with
  | false => exact iff_of_true rfl (fun hfk => by cases hfk)
  | true =>
      rw [directoryMissing, Bool.true_and, Option.any_eq_false, forall_prop_of_true rfl]
      simp only [decide_eq_false_iff_not, not_not]

/-- A link is added, or nothing happens. -/
theorem addFileToKnowledge_cases (fk : Bool) (t : Tables) (id : String) (link : KnowledgeFile) :
    addFileToKnowledge fk t id link = t ∨
      (addFileToKnowledge fk t id link = { t with files := t.files.set id link } ∧
      id ∉ t.files ∧ (∀ k f, t.files.get? k = some f → f.knowledgeId = link.knowledgeId →
        f.fileId ≠ link.fileId) ∧
      (fk = true → ∀ d, link.directoryId = some d → d ∈ t.directories)) := by
  rw [addFileToKnowledge]
  split_ifs with hrefused
  · exact .inl rfl
  · push Not at hrefused
    exact .inr ⟨rfl, hrefused.1, hasFile_eq_false.mp (Bool.eq_false_iff.mpr hrefused.2.1),
      directoryMissing_eq_false.mp (Bool.eq_false_iff.mpr hrefused.2.2)⟩

/-- A new link keeps everything in its knowledge base. -/
theorem Placed.addFileToKnowledge (h : Placed t) {link : KnowledgeFile}
    (hdir : ∀ d row, link.directoryId = some d → t.directories.get? d = some row →
      row.knowledgeId = link.knowledgeId) : Placed (addFileToKnowledge fk t id link) := by
  rcases addFileToKnowledge_cases fk t id link with hsame | ⟨hset, -, hnew, -⟩
  · rwa [hsame]
  · rw [hset]
    refine ⟨h.directories, fun k f d row hf hd hrow => ?_, fun k k' f f' hf hf' hkb hfile => ?_⟩
    · rw [Dict.get?_set] at hf
      split_ifs at hf with hk
      · obtain rfl := Option.some.inj hf
        exact hdir d row hd hrow
      · exact h.linked k f d row hf hd hrow
    · rw [Dict.get?_set] at hf hf'
      split_ifs at hf hf' with hk hk' hk'
      · exact hk.trans hk'.symm
      · obtain rfl := Option.some.inj hf
        exact absurd hfile.symm (hnew k' f' hf' hkb.symm)
      · obtain rfl := Option.some.inj hf'
        exact absurd hfile (hnew k f hf hkb)
      · exact h.once k k' f f' hf hf' hkb hfile

/-- With foreign keys enforced a new link keeps the tables intact. -/
theorem Intact.addFileToKnowledge (h : Intact t) (id : String) (link : KnowledgeFile) :
    Intact (addFileToKnowledge true t id link) := by
  rcases addFileToKnowledge_cases true t id link with hsame | ⟨hset, -, -, hin⟩
  · rwa [hsame]
  · rw [hset]
    refine ⟨h.parents, fun k f d hf hd => ?_⟩
    rw [Dict.get?_set] at hf
    split_ifs at hf with hk
    · obtain rfl := Option.some.inj hf
      exact hin rfl d hd
    · exact h.links k f d hf hd

/-- A new link mentions its own directory only. -/
theorem Mentioned.of_addFileToKnowledge {link : KnowledgeFile} {x : String}
    (h : Mentioned (addFileToKnowledge fk t id link) x) :
    Mentioned t x ∨ link.directoryId = some x := by
  rcases addFileToKnowledge_cases fk t id link with hsame | ⟨hset, -⟩
  · exact .inl (hsame ▸ h)
  · rw [hset] at h
    rcases h with hparent | ⟨k, f, hf, hd⟩
    · exact .inl (.inl hparent)
    · rw [Dict.get?_set] at hf
      split_ifs at hf
      · obtain rfl := Option.some.inj hf
        exact .inr hd
      · exact .inl (.inr ⟨k, f, hf, hd⟩)

/-- A file is moved, or nothing happens. -/
theorem moveFileToDirectory_cases (fk : Bool) (t : Tables) (kb fileId : String)
    (directoryId : Option String) (now : ℤ) :
    moveFileToDirectory fk t kb fileId directoryId now = t ∨ ∃ files,
      moveFileToDirectory fk t kb fileId directoryId now = ⟨t.directories, files⟩ ∧
      Relinks directoryId t.files files ∧
        (fk = true → ∀ d, directoryId = some d → d ∈ t.directories) ∧
      ∀ k f', files.get? k = some f' → t.files.get? k = some f' ∨
        f'.knowledgeId = kb ∧ f'.directoryId = directoryId := by
  rw [moveFileToDirectory]
  split_ifs with hmissing
  · exact .inl rfl
  · refine .inr ⟨_, rfl, relinks_mapVal fun k f => ?_,
      directoryMissing_eq_false.mp (Bool.eq_false_iff.mpr hmissing),
      fun k f' hf' => ?_⟩
    · split_ifs
      · exact ⟨rfl, rfl, .inr (.inl rfl)⟩
      · exact ⟨rfl, rfl, .inl rfl⟩
    · rw [Dict.get?_mapVal] at hf'
      obtain ⟨f, hf, rfl⟩ := Option.map_eq_some_iff.mp hf'
      split_ifs with hthis
      · exact .inr ⟨hthis.1, rfl⟩
      · exact .inl hf

/-- A moved file stays in its knowledge base. -/
theorem Placed.moveFileToDirectory (h : Placed t) {fileId : String} {directoryId : Option String}
    {now : ℤ}
    (hdir : ∀ d row, directoryId = some d → t.directories.get? d = some row →
      row.knowledgeId = kb) :
    Placed (moveFileToDirectory fk t kb fileId directoryId now) := by
  rcases moveFileToDirectory_cases fk t kb fileId directoryId now with hsame | ⟨files, hset,
    hrelinks, -, hlinks⟩
  · rwa [hsame]
  · rw [hset]
    refine ⟨h.directories, fun k f d row hf hd hrow => ?_, hrelinks.once h.once⟩
    rcases hlinks k f hf with hold | ⟨hkb, hplace⟩
    · exact h.linked k f d row hold hd hrow
    · rw [hkb]
      exact hdir d row (hplace ▸ hd) hrow

/-! ## Deleting -/

/-- Rows are only taken away. -/
def Fewer (dirs dirs' : Directories) : Prop := ∀ k d, dirs'.get? k = some d → dirs.get? k = some d

/-- Among fewer directories the links stay. -/
theorem Fewer.parent_eq (h : Fewer dirs dirs') {c p : String} (hp : parentOf dirs' c = some p) :
    parentOf dirs c = some p := by
  obtain ⟨d, hd, hdp⟩ := Option.bind_eq_some_iff.mp hp
  rw [parentOf, h c d hd]
  exact hdp

/-- Fewer directories stay in place. -/
theorem Fewer.placed (h : Fewer dirs dirs') (hplaced : PlacedDirectories dirs) :
    PlacedDirectories dirs' where
  ids := fun hmem => by
    obtain ⟨d, hd⟩ := (Dict.mem_iff_exists _ _).mp hmem
    exact hplaced.ids (Dict.mem_of_get? (h "" d hd))
  parents := fun c p hp row row' hrow hrow' =>
    hplaced.parents c p (h.parent_eq hp) row row' (h c row hrow) (h p row' hrow')
  siblings := fun c c' d d' p hd hd' => hplaced.siblings c c' d d' p (h c d hd) (h c' d' hd')

/-- Deleting a row leaves fewer directories. -/
theorem fewer_deleteRow (fk : Bool) (t : Tables) (id : String) :
    Fewer t.directories (deleteRow fk t id).directories := by
  intro k d hd
  by_cases hgone : Gone fk t.directories id k
  · rw [(directories_deleteRow fk t id k).1 hgone] at hd
    cases hd
  · rwa [← (directories_deleteRow fk t id k).2 hgone]

/-- Deleting a row relinks the files. -/
theorem relinks_deleteRow (fk : Bool) (t : Tables) (id : String) (target : Option String) :
    Relinks target t.files (deleteRow fk t id).files := by
  cases fk with
  | false => exact .refl target t.files
  | true =>
      refine relinks_mapVal fun k f => ?_
      split_ifs
      · exact ⟨rfl, rfl, .inr (.inr rfl)⟩
      · exact ⟨rfl, rfl, .inl rfl⟩

/-- Deleting a row keeps everything in its knowledge base. -/
theorem Placed.deleteRow (h : Placed t) (fk : Bool) (id : String) : Placed (deleteRow fk t id) := by
  have hless := fewer_deleteRow fk t id
  refine ⟨hless.placed h.directories, fun k f' d row hf' hd hrow => ?_,
    (relinks_deleteRow fk t id none).once h.once⟩
  obtain ⟨f, hf, hkb, -, hsame | hroot | hroot⟩ := relinks_deleteRow fk t id none k f' hf'
  · rw [hkb]
    exact h.linked k f d row hf (hsame ▸ hd) (hless d row hrow)
  · rw [hroot] at hd
    cases hd
  · rw [hroot] at hd
    cases hd

/-- The cascade leaves no directory without its parent and no link to what is gone. -/
theorem Intact.deleteRow (h : Intact t) (id : String) : Intact (deleteRow true t id) := by
  have hless := fewer_deleteRow true t id
  have hstays : ∀ x, x ∈ t.directories → ¬ InSubtree t.directories id x →
    x ∈ (Knowledge.deleteRow true t id).directories := by
    intro x hx hout
    obtain ⟨d, hd⟩ := (Dict.mem_iff_exists _ _).mp hx
    exact (Dict.mem_iff_exists _ _).mpr ⟨d, ((directories_deleteRow true t id x).2 hout).trans hd⟩
  refine ⟨fun c p hp => ?_, fun k f d hf hd => ?_⟩
  · have hparent := hless.parent_eq hp
    refine hstays p (h.parents c p hparent) fun hin => ?_
    -- what lies below a deleted parent is deleted with it
    have hgone := (directories_deleteRow true t id c).1 (hin.head hparent)
    exact (Dict.get?_eq_none_iff _ _).mp hgone (mem_of_parentOf hp)
  · rw [Knowledge.deleteRow, if_pos rfl, Dict.get?_mapVal] at hf
    obtain ⟨g, hg, rfl⟩ := Option.map_eq_some_iff.mp hf
    split_ifs at hd with hgone
    refine hstays d (h.links k g d hg hd) fun hin => hgone ?_
    rw [hd, Option.any_some, decide_eq_true_iff, mem_cascadeIds]
    exact hin

/-- Deleting a row mentions nothing new. -/
theorem Mentioned.of_deleteRow {x : String} (h : Mentioned (deleteRow fk t id) x) :
    Mentioned t x := by
  rcases h with ⟨c, hc⟩ | hlink
  · exact .inl ⟨c, (fewer_deleteRow fk t id).parent_eq hc⟩
  · rcases (relinks_deleteRow fk t id none).mentioned (.inr hlink) with hold | hnone
    · exact hold
    · cases hnone

/-- The directory is stored, and the target, where it is stored, is of its knowledge base. -/
def Fits (dirs : Directories) (target : Option String) (x : String) : Prop :=
  ∃ row, dirs.get? x = some row ∧
    ∀ p row', target = some p → dirs.get? p = some row' → row'.knowledgeId = row.knowledgeId

/-- Files moved to a fitting target stay linked within the knowledge base. -/
theorem Fits.linked_moveFiles {target : Option String} {x : String} (h : Fits dirs target x)
    (hlinked : Linked dirs files) : Linked dirs (moveFiles target x files) := by
  intro k f d above hf hd habove
  rw [moveFiles, Dict.get?_mapVal] at hf
  obtain ⟨g, hg, rfl⟩ := Option.map_eq_some_iff.mp hf
  split_ifs at hd ⊢ with hx
  · obtain ⟨row, hrow, htarget⟩ := h
    rw [htarget d above hd habove]
    exact hlinked k g x row hg hx hrow
  · exact hlinked k g d above hg hd habove

/-- A child is of the knowledge base of its parent. -/
theorem Fits.child {target : Option String} {x c : String} (h : Fits dirs target x)
    (hdirs : PlacedDirectories dirs) (hc : parentOf dirs c = some x) : Fits dirs target c := by
  obtain ⟨row, hrow, htarget⟩ := h
  obtain ⟨child, hchild⟩ := (Dict.mem_iff_exists _ _).mp (mem_of_parentOf hc)
  refine ⟨child, hchild, fun p row' hp hrow' => ?_⟩
  exact (htarget p row' hp hrow').trans (hdirs.parents c x hc child row hchild hrow)

/-- The walk that moves the files below a directory. -/
theorem moveFilesFromSubtree_keeps (hdirs : PlacedDirectories dirs) {target : Option String}
    (fuel : ℕ) :
    ∀ (x : String) (files files' : Files), Fits dirs target x → Linked dirs files →
      moveFilesFromSubtree dirs target fuel x files = some files' →
      Relinks target files files' ∧ Linked dirs files' := by
  induction fuel with
  | zero =>
      intro x files files' _ _ h
      cases h
  | succ fuel ih =>
      intro x files files' hfits hlinked h
      refine Transition.foldlM_keeps (R := Relinks target) (I := Linked dirs) (.refl target)
        (fun _ _ _ => Relinks.trans) (fun files₁ c hc files₂ hlinked₁ hstep => ?_) hlinked h
      have hchild := hfits.child hdirs ((mem_childIds x c).mp hc)
      obtain ⟨hrelinks, hlinked₂⟩ := ih c _ files₂ hchild (hchild.linked_moveFiles hlinked₁) hstep
      exact ⟨(relinks_moveFiles target c files₁).trans hrelinks, hlinked₂⟩

/-- The walk that deletes the files below a directory. -/
theorem deleteFilesInSubtree_sub (fuel : ℕ) : ∀ (x : String) (files files' : Files),
    deleteFilesInSubtree dirs fuel x files = some files' → ∀ k f, files'.get? k = some f →
      files.get? k = some f := by
  induction fuel with
  | zero =>
      intro x files files' h
      cases h
  | succ fuel ih =>
      intro x files files' h k f hf
      have hsub := Transition.foldlM_keeps (I := fun _ => True)
        (R := fun files files' : Files => ∀ k f, files'.get? k = some f → files.get? k = some f)
        (fun _ _ _ hf => hf) (fun _ _ _ hab hbc k f hf => hab k f (hbc k f hf))
        (fun files₁ c _ files₂ _ hstep => ⟨ih c files₁ files₂ hstep, trivial⟩) trivial h
      exact sub_filterMapVal files _ k f (hsub.1 k f hf)

/-- A delete that ends: nothing, or the walk over the links and then the deletion of rows. -/
theorem deleteDirectory_cases {moveFiles : Bool} {fuel : ℕ} {answer : Bool} (h : Placed t)
    (hdelete : deleteDirectory fk t id moveFiles fuel = some (t', answer)) :
    t' = t ∨ ∃ directory files, t.directories.get? id = some directory ∧
      t' = deleteRow fk ⟨t.directories, files⟩ id ∧ Relinks directory.parentId t.files files ∧
      Placed ⟨t.directories, files⟩ := by
  rw [deleteDirectory] at hdelete
  cases hget : t.directories.get? id with
  | none =>
      rw [hget] at hdelete
      exact .inl (Prod.ext_iff.mp (Option.some.inj hdelete)).1.symm
  | some directory =>
      rw [hget] at hdelete
      dsimp only at hdelete
      split_ifs at hdelete
      · obtain ⟨files, hfiles, hrest⟩ := Option.bind_eq_some_iff.mp hdelete
        have hfits : Fits t.directories directory.parentId id := by
          refine ⟨directory, hget, fun p above hp habove => ?_⟩
          refine h.directories.parents id p ?_ directory above hget habove
          rw [parentOf, hget]
          exact hp
        obtain ⟨hrelinks, hlinked⟩ := moveFilesFromSubtree_keeps h.directories fuel id _ files hfits
          (hfits.linked_moveFiles h.linked) hfiles
        have hall := (relinks_moveFiles directory.parentId id t.files).trans hrelinks
        exact .inr ⟨directory, files, rfl, (Prod.ext_iff.mp (Option.some.inj hrest)).1.symm,
          hall, h.directories,
          hlinked, hall.once h.once⟩
      · obtain ⟨files, hfiles, hrest⟩ := Option.bind_eq_some_iff.mp hdelete
        have hsub := deleteFilesInSubtree_sub fuel id _ files hfiles
        exact .inr ⟨directory, files, rfl, (Prod.ext_iff.mp (Option.some.inj hrest)).1.symm,
          .of_sub hsub,
          h.fewerLinks hsub⟩

/-- Deleting a directory keeps everything in its knowledge base. -/
theorem Placed.deleteDirectory (h : Placed t) {moveFiles : Bool} {fuel : ℕ} {answer : Bool}
    (hdelete : deleteDirectory fk t id moveFiles fuel = some (t', answer)) : Placed t' := by
  rcases deleteDirectory_cases h hdelete with rfl | ⟨directory, files, -, rfl, -, hplaced⟩
  · exact h
  · exact hplaced.deleteRow fk id

/-- Deleting a directory leaves fewer of them. -/
theorem fewer_deleteDirectory (h : Placed t) {moveFiles : Bool} {fuel : ℕ} {answer : Bool}
    (hdelete : deleteDirectory fk t id moveFiles fuel = some (t', answer)) :
    Fewer t.directories t'.directories := by
  rcases deleteDirectory_cases h hdelete with rfl | ⟨directory, files, -, rfl, -⟩
  · exact fun _ _ hd => hd
  · exact fewer_deleteRow fk ⟨t.directories, files⟩ id

/-- With foreign keys enforced a deletion keeps the tables intact. -/
theorem Intact.deleteDirectory (hintact : Intact t) (h : Placed t) {moveFiles : Bool} {fuel : ℕ}
    {answer : Bool} (hdelete : deleteDirectory true t id moveFiles fuel = some (t', answer)) :
    Intact t' := by
  rcases deleteDirectory_cases h hdelete with rfl | ⟨directory, files, hget, rfl, hrelinks, -⟩
  · exact hintact
  · refine (hrelinks.intact hintact fun p hp => hintact.parents id p ?_).deleteRow id
    rw [parentOf, hget]
    exact hp

/-- A deletion mentions nothing new. -/
theorem Mentioned.of_deleteDirectory (h : Placed t) {moveFiles : Bool} {fuel : ℕ} {answer : Bool}
    {x : String} (hdelete : deleteDirectory fk t id moveFiles fuel = some (t', answer))
    (hx : Mentioned t' x) : Mentioned t x := by
  rcases deleteDirectory_cases h hdelete with rfl | ⟨directory, files, hget, rfl, hrelinks, -⟩
  · exact hx
  · rcases hrelinks.mentioned hx.of_deleteRow with hold | hparent
    · exact hold
    · refine .inl ⟨id, ?_⟩
      rw [parentOf, hget]
      exact hparent

/-- A reset takes away links and then directories. -/
theorem resetKnowledge_keeps (h : Placed t) (fk : Bool) (kb : String) (includeDirectories : Bool) :
    let t' := resetKnowledge fk t kb includeDirectories
    Placed t' ∧ Fewer t.directories t'.directories ∧ (∀ x, Mentioned t' x → Mentioned t x) ∧
      (fk = true → Intact t → Intact t') := by
  let left := t.files.filterMapVal fun f => if f.knowledgeId = kb then none else some f
  have hsub := sub_filterMapVal t.files fun f => f.knowledgeId = kb
  have hrelinks : Relinks none t.files left := .of_sub hsub
  have hmentioned : ∀ x, Mentioned ⟨t.directories, left⟩ x → Mentioned t x := fun x hx =>
    (hrelinks.mentioned hx).resolve_right fun hnone => by cases hnone
  have hintact : Intact t → Intact ⟨t.directories, left⟩ := fun hintact =>
    hrelinks.intact hintact fun p hp => by cases hp
  have hplaced : Placed ⟨t.directories, left⟩ := h.fewerLinks hsub
  rw [resetKnowledge]
  dsimp only
  split_ifs
  · have hloop := Transition.foldl_keeps (I := Placed) (l := (t.directories.entries.filter fun e =>
        e.2.knowledgeId = kb).map Prod.fst) (f := deleteRow fk)
      (R := fun t t' : Tables => Fewer t.directories t'.directories ∧
        (∀ x, Mentioned t' x → Mentioned t x) ∧
        (fk = true → Intact t → Intact t'))
      (fun t => ⟨fun _ _ hd => hd, fun _ hx => hx, fun _ hi => hi⟩)
      (fun a b c hab hbc => ⟨fun k d hd => hab.1 k d (hbc.1 k d hd),
        fun x hx => hab.2.1 x (hbc.2.1 x hx),
        fun hfk hi => hbc.2.2 hfk (hab.2.2 hfk hi)⟩)
      (fun t d _ ht => ⟨⟨fewer_deleteRow fk t d, fun _ hx => hx.of_deleteRow,
        fun hfk hi => hfk ▸ hi.deleteRow d⟩,
        ht.deleteRow fk d⟩) hplaced
    exact ⟨hloop.2, hloop.1.1, fun x hx => hmentioned x (hloop.1.2.1 x hx), fun hfk hi =>
      hloop.1.2.2 hfk (hintact hi)⟩
  · exact ⟨hplaced, fun _ _ hd => hd, hmentioned, fun _ => hintact⟩

/-! ## No cycles -/

/-- Fewer directories close no loop. -/
theorem Fewer.acyclic (h : Fewer dirs dirs') (hacyclic : Forest.Acyclic (parentOf dirs)) :
    Forest.Acyclic (parentOf dirs') :=
  hacyclic.mono fun _ _ => h.parent_eq

/-- A new directory is nobody's parent. -/
theorem acyclic_set (hacyclic : Forest.Acyclic (parentOf dirs))
    (hnew : ∀ c, parentOf dirs c ≠ some id) (hself : row.parentId ≠ some id) :
    Forest.Acyclic (parentOf (dirs.set id row)) := by
  refine hacyclic.add_leaf (x := id) (fun c hc => ?_) fun c hc => by rw [parentOf_set, if_neg hc]
  rw [parentOf_set] at hc
  split_ifs at hc
  · exact hself hc
  · exact hnew c hc

/-- The names of the directories of a knowledge base can stand in a path. -/
def PlainNames (dirs : Directories) (kb : String) : Prop :=
  ∀ id d, dirs.get? id = some d → d.knowledgeId = kb → NamedForest.Plain '/' d.name.toList

/-- The roots of a knowledge base have different names. No constraint says so: the parent of a
root is `NULL`. -/
def RootsApart (dirs : Directories) (kb : String) : Prop :=
  ∀ c c' d d', dirs.get? c = some d → dirs.get? c' = some d' → d.knowledgeId = kb →
    d'.knowledgeId = kb →
    d.parentId = none → d'.parentId = none → d.name = d'.name → c = c'

/-- Directories in place, with plain names, are well named. -/
theorem PlacedDirectories.wellNamed (h : PlacedDirectories dirs)
    (hparents : ∀ c p, parentOf dirs c = some p → p ∈ dirs)
    (hacyclic : Forest.Acyclic (parentOf dirs))
    (hplain : PlainNames dirs kb) (hroots : RootsApart dirs kb) : WellNamed dirs kb where
  acyclic := hacyclic.mono fun _ _ => parentOf_of_parent
  ids := h.ids
  closed := by
    intro c p n hc
    obtain ⟨d, hd, hkb, hplace⟩ := nodeIn_eq_some.mp hc
    have hparent : parentOf dirs c = some p := by
      rw [parentOf, hd]
      exact (Prod.ext_iff.mp hplace).1
    obtain ⟨above, habove⟩ := (Dict.mem_iff_exists _ _).mp (hparents c p hparent)
    have hsame := h.parents c p hparent d above hd habove
    exact ⟨_, nodeIn_eq_some.mpr ⟨above, habove, hsame.trans hkb, rfl⟩⟩
  apart := by
    intro c c' place hc hc'
    obtain ⟨d, hd, hkb, rfl⟩ := nodeIn_eq_some.mp hc
    obtain ⟨d', hd', hkb', hplace⟩ := nodeIn_eq_some.mp hc'
    obtain ⟨hparent, hname⟩ := Prod.ext_iff.mp hplace
    have hname : d'.name = d.name := String.toList_inj.mp hname
    cases hp : d.parentId with
    | none => exact hroots c c' d d' hd hd' hkb hkb' hp (hparent.trans hp) hname.symm
    | some p =>
        exact h.siblings c c' d d' p hd hd' (hkb.trans hkb'.symm) hp (hparent.trans hp) hname.symm
  plain := by
    intro id place hid
    obtain ⟨d, hd, hkb, rfl⟩ := nodeIn_eq_some.mp hid
    exact hplain id d hd hkb

/-! ## The empty tables -/

theorem get?_empty_directories {k : String} {d : Directory} :
    (∅ : Directories).get? k ≠ some d := fun hd => by
  cases hd

/-- The empty tables are in place. -/
theorem placed_empty : Placed ⟨∅, ∅⟩ where
  directories := {
    ids := fun hmem => by
      obtain ⟨d, hd⟩ := (Dict.mem_iff_exists _ _).mp hmem
      exact get?_empty_directories hd
    parents := fun c p _ row row' hrow => absurd hrow get?_empty_directories
    siblings := fun c c' d d' p hd => absurd hd get?_empty_directories }
  linked := fun k f d row hf => by cases hf
  once := fun k k' f f' hf => by cases hf

/-- The empty tables mention nothing. -/
theorem not_mentioned_empty (x : String) : ¬ Mentioned ⟨∅, ∅⟩ x := by
  rintro (⟨c, hc⟩ | ⟨k, f, hf, -⟩)
  · obtain ⟨d, hd, -⟩ := Option.bind_eq_some_iff.mp hc
    exact get?_empty_directories hd
  · cases hf

/-- The empty tables are intact. -/
theorem intact_empty : Intact ⟨∅, ∅⟩ where
  parents := fun c p hp => absurd (.inl ⟨c, hp⟩) (not_mentioned_empty p)
  links := fun k f d hf hd => absurd (.inr ⟨k, f, hf, hd⟩) (not_mentioned_empty d)

end OpenWebUI.Knowledge
