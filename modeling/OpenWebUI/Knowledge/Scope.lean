import OpenWebUI.Knowledge.Confinement
import OpenWebUI.Lib.Lines
import OpenWebUI.Knowledge.Paths

/-! # Files by path

`ls -a` lists every file of a knowledge base with its path. `find` and `grep` take a directory as a
scope, and all commands that read a file take its path. The scope of a directory is the files whose
listed path goes on from the path of the directory, and a listed path leads back to its file.
-/

namespace OpenWebUI.Knowledge

open Py NamedForest

/-- The path with which `ls -a` lists a file. -/
def listedPath (s : Store) (f : FileInfo) : Option Text := do
  let kb ← f.knowledge
  let tree ← buildDirectoryTree s kb.1
  let listed ← tree.files.find? (·.id = f.id)
  listed.path

/-- The knowledge bases are well named, every file is linked once to a knowledge base and lies in
one of its directories or at its root, and names of files can end a path. -/
structure WellKept (s : Store) : Prop where
  bases : "" ∉ s.bases
  named : ∀ kb, WellNamed s.tables.directories kb
  placed : ∀ k f d, s.tables.files.get? k = some f → f.directoryId = some d →
    ∃ place, nodeIn s.tables.directories f.knowledgeId d = some place
  once : ∀ k k' f f', s.tables.files.get? k = some f → s.tables.files.get? k' = some f' →
    f.knowledgeId = f'.knowledgeId → f.fileId = f'.fileId → k = k'
  filenames : ∀ id file, s.files.get? id = some file → Plain '/' file.filename.toList

/-- The names down to the place of a file. -/
def PlacePath (dirs : Directories) (kb : String) (path : List Text) : Option String → Prop
  | none => path = []
  | some d => IsPath (nodeIn dirs kb) path d

variable {py : Python} {s : Store} {user : Caller} {attached : List Attached} {dirs : Directories}
    {kb id : String}
  {path path' : List Text} {f g : FileInfo} {text : Text}

/-- No name on the path of a place has a slash. -/
theorem PlacePath.plain {place : Option String} (h : WellNamed dirs kb)
    (hpath : PlacePath dirs kb path place) :
    ∀ name ∈ path, Plain '/' name := by
  cases place with
  | none =>
      rw [show path = [] from hpath]
      exact fun _ hname => absurd hname List.not_mem_nil
  | some d => exact h.plain_path hpath

/-! ## Where an accessible file is -/

/-- An accessible file of a knowledge base is linked to it. -/
theorem linked_of_accessible (hf : f ∈ accessibleFiles py s user attached none)
    {kb : String × String} (hkb : f.knowledge = some kb) :
    kb.1 ∈ s.bases ∧ ∃ row ∈ getFilesWithDirectoryIds s kb.1,
      f = .of row.1 row.2.1 row.2.2 (some kb) := by
  rcases List.mem_append.mp hf with hf | hf
  · obtain ⟨base, hbase, hf⟩ := List.mem_flatMap.mp hf
    obtain ⟨row, hrow, rfl⟩ := List.mem_map.mp hf
    obtain rfl := Option.some.inj hkb
    exact ⟨Dict.mem_of_get? (mem_accessibleKbIds hbase).1, row, hrow, rfl⟩
  · obtain ⟨id, -, hf⟩ := List.mem_filterMap.mp hf
    obtain ⟨file, -, rfl⟩ := Option.map_eq_some_iff.mp hf
    cases hkb

/-- A file attached by itself has no place. -/
theorem direct_of_accessible (hf : f ∈ accessibleFiles py s user attached none)
    (hkb : f.knowledge = none) :
    f.directoryId = none := by
  rcases List.mem_append.mp hf with hf | hf
  · obtain ⟨base, -, hf⟩ := List.mem_flatMap.mp hf
    obtain ⟨row, -, rfl⟩ := List.mem_map.mp hf
    cases hkb
  · obtain ⟨id, -, hf⟩ := List.mem_filterMap.mp hf
    obtain ⟨file, -, rfl⟩ := Option.map_eq_some_iff.mp hf
    rfl

/-- The rows of a knowledge base are told apart by their file. -/
theorem WellKept.row_unique (h : WellKept s) {row row' : String × File × Option String}
    (hrow : row ∈ getFilesWithDirectoryIds s kb) (hrow' : row' ∈ getFilesWithDirectoryIds s kb)
    (hid : row.1 = row'.1) :
    row = row' := by
  obtain ⟨e, he, hekb, hefile, hedir, hget⟩ := mem_getFilesWithDirectoryIds hrow
  obtain ⟨e', he', hekb', hefile', hedir', hget'⟩ := mem_getFilesWithDirectoryIds hrow'
  have hkey : e.1 = e'.1 := h.once e.1 e'.1 e.2 e'.2 ((Dict.mem_entries_iff _ _ _).mp he)
    ((Dict.mem_entries_iff _ _ _).mp he') (hekb.trans hekb'.symm)
      (hefile.trans (hid.trans hefile'.symm))
  have hval : e.2 = e'.2 := by
    have hboth := ((Dict.mem_entries_iff _ _ _).mp he).symm.trans
      (hkey ▸ (Dict.mem_entries_iff _ _ _).mp he')
    exact Option.some.inj hboth
  have hfile : row.2.1 = row'.2.1 :=
    Option.some.inj (hget.symm.trans ((congrArg s.files.get? hid).trans hget'))
  have hdir : row.2.2 = row'.2.2 :=
    hedir.symm.trans ((congrArg KnowledgeFile.directoryId hval).trans hedir')
  exact Prod.ext hid (Prod.ext hfile hdir)

/-- Every listed file has a path. -/
theorem WellKept.exists_placePath (h : WellKept s) {row : String × File × Option String}
    (hrow : row ∈ getFilesWithDirectoryIds s kb) :
    ∃ path, PlacePath s.tables.directories kb path row.2.2 := by
  obtain ⟨e, he, rfl, -, hdir, -⟩ := mem_getFilesWithDirectoryIds hrow
  cases hplace : row.2.2 with
  | none => exact ⟨[], rfl⟩
  | some d =>
      obtain ⟨place, hnode⟩ :=
        h.placed e.1 e.2 d ((Dict.mem_entries_iff _ _ _).mp he) (hdir.trans hplace)
      exact (h.named _).exists_path hnode

/-- The tree shows the names down to the place of the file, and then its own. -/
theorem path_fileIn (h : WellNamed s.tables.directories kb) {paths : Dict String Text}
    (hpaths : ∀ id text, paths.get? id = some text ↔ TextPath s.tables.directories kb text id)
    {row : String × File × Option String} (hpath : PlacePath s.tables.directories kb path row.2.2) :
    (fileIn paths row).path = some (joined '/' (path ++ [row.2.1.filename.toList])) := by
  rw [fileIn]
  cases hplace : row.2.2 with
  | none =>
      rw [hplace] at hpath
      rw [show path = [] from hpath]
      show some row.2.1.filename.toList = _
      rw [List.nil_append, joined_singleton]
  | some d =>
      rw [hplace] at hpath
      obtain ⟨place, hnode⟩ := IsPath.exists_place hpath
      have hne : d ≠ "" := fun heq => h.ids (heq ▸ mem_of_nodeIn hnode)
      have hget : paths.get? d = some (joined '/' path) := (hpaths d _).mpr ⟨path, hpath, rfl⟩
      have hbind : ((some d).filter (· ≠ "")).bind paths.get? = some (joined '/' path) := by
        rw [Option.filter_some, if_pos (decide_eq_true hne)]
        exact hget
      simp only [hbind]
      rw [joined_append_singleton (IsPath.ne_nil hpath)]

/-- The listed path of an accessible file. -/
theorem WellKept.listedPath_eq (h : WellKept s) (hf : f ∈ accessibleFiles py s user attached none)
    {kb : String × String} (hkb : f.knowledge = some kb) :
    ∃ path, PlacePath s.tables.directories kb.1 path f.directoryId ∧
      listedPath s f = some (joined '/' (path ++ [f.filename.toList])) := by
  obtain ⟨-, row, hrow, rfl⟩ := linked_of_accessible hf hkb
  obtain ⟨tree, htree, hpaths, -, hfiles⟩ := exists_tree (h.named kb.1)
  obtain ⟨path, hpath⟩ := h.exists_placePath hrow
  refine ⟨path, hpath, ?_⟩
  have hfind : tree.files.find? (·.id = row.1) = some (fileIn tree.dirIdToPath row) := by
    cases hfound : tree.files.find? (·.id = row.1) with
    | none =>
        rw [hfiles] at hfound
        have hnone := List.find?_eq_none.mp hfound _ (List.mem_map_of_mem hrow)
        exact absurd (decide_eq_true rfl) hnone
    | some listed =>
        have hid : listed.id = row.1 := by simpa using List.find?_some hfound
        have hin := List.mem_of_find?_eq_some hfound
        rw [hfiles] at hin
        obtain ⟨row', hrow', rfl⟩ := List.mem_map.mp hin
        rw [h.row_unique hrow' hrow hid]
  rw [listedPath]
  show (some kb).bind (fun kb => (buildDirectoryTree s kb.1).bind fun tree =>
    (tree.files.find? (·.id = row.1)).bind FileInfo.path) = _
  rw [Option.bind_some, htree, Option.bind_some, hfind, Option.bind_some]
  exact path_fileIn (h.named kb.1) hpaths hpath

/-- A file that is attached directly has no path. -/
theorem listedPath_direct (hkb : f.knowledge = none) : listedPath s f = none := by
  rw [listedPath, hkb]
  rfl

/-- No file name has a slash. -/
theorem WellKept.plain_filename (h : WellKept s)
    (hf : f ∈ accessibleFiles py s user attached none) :
    Plain '/' f.filename.toList := by
  rcases List.mem_append.mp hf with hf | hf
  · obtain ⟨base, -, hf⟩ := List.mem_flatMap.mp hf
    obtain ⟨row, hrow, rfl⟩ := List.mem_map.mp hf
    obtain ⟨-, -, -, -, -, hget⟩ := mem_getFilesWithDirectoryIds hrow
    exact h.filenames _ _ hget
  · obtain ⟨id, -, hf⟩ := List.mem_filterMap.mp hf
    obtain ⟨file, hget, rfl⟩ := Option.map_eq_some_iff.mp hf
    exact h.filenames _ _ hget

theorem mem_kbIdsOf (h : WellKept s) (hf : f ∈ accessibleFiles py s user attached none)
    {kb : String × String} (hkb : f.knowledge = some kb) :
    kb.1 ∈ kbIdsOf py (accessibleFiles py s user attached none) := by
  have hne : kb.1 ≠ "" := fun heq => h.bases (heq ▸ (linked_of_accessible hf hkb).1)
  refine mem_order.mpr (List.mem_filterMap.mpr ⟨f, hf, ?_⟩)
  rw [hkb, Option.map_some, Option.filter_some, if_pos (decide_eq_true hne)]

/-! ## The scope of a directory -/

/-- The children of a directory. -/
theorem mem_children (hne : id ≠ "") {c : String} :
    c ∈ (getDirectories s kb (some id)).map Prod.fst ↔
      parent (nodeIn s.tables.directories kb) c = some id := by
  have hfilter :
    (some id).filter (· ≠ "") = some id := by rw [Option.filter_some, if_pos (decide_eq_true hne)]
  rw [parent_eq_some, List.mem_map]
  constructor
  · rintro ⟨d, hd, rfl⟩
    obtain ⟨hget, hkb, hparent⟩ := mem_getDirectories.mp hd
    exact ⟨d.2.name.toList, nodeIn_eq_some.mpr ⟨d.2, hget, hkb, by rw [hparent, hfilter]⟩⟩
  · rintro ⟨n, hnode⟩
    obtain ⟨d, hget, hkb, hplace⟩ := nodeIn_eq_some.mp hnode
    refine ⟨(c, d), mem_getDirectories.mpr ⟨hget, hkb, ?_⟩, rfl⟩
    rw [hfilter]
    exact (Prod.ext_iff.mp hplace).1

/-- The worklist finds what lies below a directory. -/
theorem mem_descendantDirIds (h : WellNamed s.tables.directories kb)
    (hid : IsPath (nodeIn s.tables.directories kb) path id) {d : String} :
    d ∈ descendantDirIds s id kb ↔
      Relation.ReflTransGen (Forest.Up (parent (nodeIn s.tables.directories kb))) d id := by
  have hids : ∀ {y place}, nodeIn s.tables.directories kb y = some place →
      y ≠ "" ∧ y ∈ (getAllDirectories s kb).map Prod.fst := by
    intro y place hy
    obtain ⟨d, hget, hkb, -⟩ := nodeIn_eq_some.mp hy
    exact ⟨fun heq => h.ids (heq ▸ mem_of_nodeIn hy),
      List.mem_map.mpr ⟨(y, d), mem_getAllDirectories.mpr ⟨hget, hkb⟩, rfl⟩⟩
  obtain ⟨place, hplace⟩ := hid.exists_place
  rw [descendantDirIds, Worklist.mem_collect (U := (getAllDirectories s kb).map Prod.fst)
    (hids hplace).2]
  · constructor
    · intro hpath
      have hnode : (∃ place, nodeIn s.tables.directories kb d = some place) ∧
          Relation.ReflTransGen (Forest.Up (parent (nodeIn s.tables.directories kb))) d id := by
        induction hpath with
        | refl => exact ⟨⟨place, hplace⟩, .refl⟩
        | tail _ hstep ih =>
            obtain ⟨⟨above, habove⟩, hreach⟩ := ih
            have hparent := (mem_children (hids habove).1).mp hstep
            obtain ⟨n, hn⟩ := parent_eq_some.mp hparent
            exact ⟨⟨_, hn⟩, hreach.head hparent⟩
      exact hnode.2
    · intro hreach
      induction hreach using Relation.ReflTransGen.head_induction_on with
      | refl => exact .refl
      | head hlink _ ih =>
          obtain ⟨n, hn⟩ := parent_eq_some.mp hlink
          obtain ⟨above, habove⟩ := h.closed _ _ _ hn
          exact ih.tail ((mem_children (hids habove).1).mpr hlink)
  · intro x _ y hy
    obtain ⟨d, hd, rfl⟩ := List.mem_map.mp hy
    obtain ⟨hget, hkb, -⟩ := mem_getDirectories.mp hd
    exact List.mem_map.mpr ⟨d, mem_getAllDirectories.mpr ⟨hget, hkb⟩, rfl⟩
  · rw [List.length_map]
    exact Nat.le_succ _

/-- What lies below a directory is in its knowledge base. -/
theorem nodeIn_of_below {d : String} (hid : ∃ place, nodeIn dirs kb id = some place)
    (h : Relation.ReflTransGen (Forest.Up (parent (nodeIn dirs kb))) d id) :
    ∃ place, nodeIn dirs kb d = some place := by
  rcases Relation.ReflTransGen.cases_head h with rfl | ⟨c, hc, -⟩
  · exact hid
  · obtain ⟨n, hn⟩ := parent_eq_some.mp hc
    exact ⟨_, hn⟩

theorem kb_unique {kb' : String} (h : ∃ place, nodeIn dirs kb id = some place)
    (h' : ∃ place, nodeIn dirs kb' id = some place) : kb = kb' := by
  obtain ⟨place, hplace⟩ := h
  obtain ⟨place', hplace'⟩ := h'
  obtain ⟨d, hd, rfl, -⟩ := nodeIn_eq_some.mp hplace
  obtain ⟨d', hd', rfl, -⟩ := nodeIn_eq_some.mp hplace'
  rw [Option.some.inj (hd.symm.trans hd')]

/-- A directory is in scope when the names of the scope begin its path. -/
theorem WellKept.mem_scopeDirIds (h : WellKept s)
    (hf : f ∈ accessibleFiles py s user attached none) {kb : String × String}
    (hkb : f.knowledge = some kb) {d : String}
    (hd : IsPath (nodeIn s.tables.directories kb.1) path d) (dir : Text) :
    d ∈ scopeDirIds py s (accessibleFiles py s user attached none) dir ↔
      (stripSlashes dir).splitOn '/' <+: path := by
  rw [scopeDirIds, List.mem_flatMap]
  constructor
  · rintro ⟨kb', -, hmem⟩
    cases hresolved : (resolveDirPath s dir kb').filter (· ≠ "") with
    | none =>
        rw [hresolved] at hmem
        cases hmem
    | some id =>
        rw [hresolved] at hmem
        have hid := (resolveDirPath_eq_some (h.named kb') dir).mp
          (Option.filter_eq_some_iff.mp hresolved).1
        have hbelow := (mem_descendantDirIds (h.named kb') hid).mp hmem
        have hkb' : kb' = kb.1 :=
          kb_unique (nodeIn_of_below hid.exists_place hbelow) hd.exists_place
        subst hkb'
        obtain ⟨rest, hrest⟩ := (hid.below_iff (h.named _).apart).mpr hbelow
        exact ⟨rest, hrest.unique hd⟩
  · rintro ⟨rest, rfl⟩
    obtain ⟨id, hid⟩ := hd.front (List.splitOn_ne_nil _ _)
    refine ⟨kb.1, mem_kbIdsOf h hf hkb, ?_⟩
    obtain ⟨place, hplace⟩ := hid.exists_place
    have hne : id ≠ "" := fun heq => (h.named kb.1).ids (heq ▸ mem_of_nodeIn hplace)
    rw [(resolveDirPath_eq_some (h.named kb.1) dir).mpr hid, Option.filter_some,
      if_pos (decide_eq_true hne)]
    exact (mem_descendantDirIds (h.named kb.1) hid).mpr
      ((hid.below_iff (h.named _).apart).mp ⟨rest, hd⟩)

/-- The files under a directory are those whose listed path goes on from the path of the
directory. -/
theorem mem_filesUnder (h : WellKept s) {dir : Text} (hdir : dir ≠ []) :
    f ∈ filesUnder py s user attached dir ↔ f ∈ accessibleFiles py s user attached none ∧
      ∃ text, listedPath s f = some text ∧ stripSlashes dir ++ ['/'] <+: text := by
  rw [filesUnder, if_pos hdir, List.mem_filter]
  refine and_congr_right fun hf => ?_
  cases hkb : f.knowledge with
  | none =>
      rw [inScope, direct_of_accessible hf hkb, listedPath_direct hkb]
      refine iff_of_false (fun hfalse => by cases hfalse) ?_
      rintro ⟨text, htext, -⟩
      cases htext
  | some kb =>
      obtain ⟨path, hpath, hlisted⟩ := h.listedPath_eq hf hkb
      have hparts : ∀ name ∈ (stripSlashes dir).splitOn '/', '/' ∉ name :=
        fun _ hname => Lines.not_mem_of_mem_splitOn hname
      have hclosed :
        closedWith '/' ((stripSlashes dir).splitOn '/') = stripSlashes dir ++ ['/'] := by
        rw [closedWith_eq (List.splitOn_ne_nil _ _), joined_splitOn]
      have hbegins : (∃ text, listedPath s f = some text ∧ stripSlashes dir ++ ['/'] <+: text) ↔
          (stripSlashes dir).splitOn '/' <+: path := by
        rw [← closedWith_prefix_iff hparts
          (fun name hname => (hpath.plain (h.named _) name hname).2) (h.plain_filename hf).2,
          closedWith_append, hclosed, hlisted]
        constructor
        · rintro ⟨text, htext, hpre⟩
          exact Option.some.inj htext ▸ hpre
        · exact fun hpre => ⟨_, rfl, hpre⟩
      rw [hbegins, inScope]
      cases hplace : f.directoryId with
      | none =>
          -- nothing begins the empty path
          rw [hplace] at hpath
          rw [show path = [] from hpath, List.prefix_nil]
          exact iff_of_false (fun hfalse => by cases hfalse) (List.splitOn_ne_nil _ _)
      | some d =>
          rw [hplace] at hpath
          rw [← h.mem_scopeDirIds hf hkb hpath dir]
          exact decide_eq_true_iff

/-- The links of the example. -/
theorem links_sample {secret : Text} {f : KnowledgeFile}
    (h : (sampleStore secret).tables.files.get? id = some f) :
    (id = "r1" ∧ f = sampleLink "kb1" "f1" (some "d2")) ∨
      (id = "r2" ∧ f = sampleLink "kb2" "f2" none) := by
  simpa [sampleStore] using (Dict.mem_entries_iff _ _ _).mpr h

/-- The example is well kept. -/
theorem wellKept_sample (secret : Text) : WellKept (sampleStore secret) where
  bases := (by decide : "" ∉ (sampleStore []).bases)
  named := wellNamed_sample secret
  placed := by
    intro k f d hf hd
    rcases links_sample hf with ⟨rfl, rfl⟩ | ⟨rfl, rfl⟩
    · rw [← Option.some.inj hd]
      exact ⟨_, rfl⟩
    · cases hd
  once := by
    intro k k' f f' hf hf' hkb _
    rcases links_sample hf with ⟨rfl, rfl⟩ | ⟨rfl, rfl⟩ <;>
      rcases links_sample hf' with ⟨rfl, rfl⟩ | ⟨rfl, rfl⟩
    · rfl
    · exact absurd hkb (by decide)
    · exact absurd hkb (by decide)
    · rfl
  filenames := by
    intro id file hfile
    have hmem : (id = "f1" ∧ file = sampleFile "auth.md" "one\ntwo".toList) ∨
      (id = "f2" ∧ file = sampleFile "plan.md" secret) := by
      simpa [sampleStore] using (Dict.mem_entries_iff _ _ _).mpr hfile
    rcases hmem with ⟨-, rfl⟩ | ⟨-, rfl⟩
    · exact (by decide : Plain '/' "auth.md".toList)
    · exact (by decide : Plain '/' "plan.md".toList)

/-- The file of the sample that lies in a directory. -/
def authFile : FileInfo :=
    .of "f1" (sampleFile "auth.md" "one\ntwo".toList) (some "d2") (some ("kb1", "notes"))

theorem mem_filesUnder_auth :
    authFile ∈ filesUnder samplePython (sampleStore []) ada [] "/api".toList ↔
    authFile ∈ accessibleFiles samplePython (sampleStore []) ada [] none ∧
      ∃ text, listedPath (sampleStore []) authFile = some text ∧
        stripSlashes "/api".toList ++ ['/'] <+: text :=
  mem_filesUnder (wellKept_sample []) (by decide)

/-! ## Files by their listed paths -/

/-- A joined path has no slash at its ends. -/
theorem stripSlashes_joined (hne : path ≠ []) (hplain : ∀ name ∈ path, Plain '/' name) :
    stripSlashes (joined '/' path) = joined '/' path := by
  obtain ⟨hhead, hlast, hnil⟩ := joined_ends hne hplain
  have hfront : (joined '/' path).dropWhile (· = '/') = joined '/' path := by
    obtain ⟨c, cs, hcons⟩ := List.exists_cons_of_ne_nil hnil
    rw [hcons] at hhead ⊢
    rw [List.dropWhile_cons_of_neg]
    intro hc
    exact hhead (congrArg some (of_decide_eq_true hc))
  rw [stripSlashes, hfront, List.rdropWhile_eq_self_iff]
  intro hne' hc
  exact hlast (by rw [List.getLast?_eq_getLast_of_ne_nil hne', of_decide_eq_true hc])

theorem rsplitSlash_append {front name : Text} (hname : '/' ∉ name) :
    rsplitSlash (front ++ '/' :: name) = (front, name) := by
  have hall : ∀ c ∈ name.reverse, decide (c ≠ '/') = true := fun c hc =>
    decide_eq_true fun heq => hname (heq ▸ List.mem_reverse.mp hc)
  have hreverse : (front ++ '/' :: name).reverse = name.reverse ++ '/' :: front.reverse := by
    rw [List.reverse_append, List.reverse_cons, List.append_assoc, List.singleton_append]
  rw [rsplitSlash, List.rdropWhile, List.rtakeWhile, hreverse, List.dropWhile_append_of_pos hall,
    List.takeWhile_append_of_pos hall, List.dropWhile_cons_of_neg (by decide),
    List.takeWhile_cons_of_neg (by decide)]
  simp

/-- A search whose only possible find is somewhere. -/
theorem findSome?_eq {α β : Type*} {l : List α} {f : α → Option β} {b : β}
    (honly : ∀ a ∈ l, ∀ c, f a = some c → c = b) (hsome : ∃ a ∈ l, f a = some b) :
    l.findSome? f = some b := by
  cases hfind : l.findSome? f with
  | none =>
      obtain ⟨a, ha, hb⟩ := hsome
      rw [List.findSome?_eq_none_iff.mp hfind a ha] at hb
      cases hb
  | some c =>
      obtain ⟨a, ha, hc⟩ := List.exists_of_findSome?_eq_some hfind
      rw [honly a ha c hc]

/-- Filtering by what fewer elements have. -/
theorem filter_eq_singleton {α : Type*} {l : List α} {a : α} {p q : α → Bool}
    (hq : l.filter q = [a]) (hpq : ∀ x ∈ l, p x = true → q x = true) (ha : p a = true) :
    l.filter p = [a] := by
  have hfilter : l.filter p = (l.filter q).filter p := by
    rw [List.filter_filter]
    refine List.filter_congr fun x hx => ?_
    cases hp : p x with
    | false => rfl
    | true => rw [hpq x hx hp, Bool.and_self]
  rw [hfilter, hq, List.filter_cons_of_pos ha, List.filter_nil]

/-- A file found by the names of a path has that path. -/
theorem WellKept.listedPath_of_names (h : WellKept s)
    (hg : g ∈ accessibleFiles py s user attached none) {d : String}
    (hd : IsPath (nodeIn s.tables.directories kb) path d) (hdir : g.directoryId = some d) :
    listedPath s g = some (joined '/' (path ++ [g.filename.toList])) := by
  cases hkb : g.knowledge with
  | none => exact absurd (direct_of_accessible hg hkb) (by rw [hdir]; exact Option.some_ne_none d)
  | some kb' =>
      obtain ⟨path', hpath', hlisted⟩ := h.listedPath_eq hg hkb
      rw [hdir] at hpath'
      obtain rfl := kb_unique hd.exists_place (IsPath.exists_place hpath')
      rw [hlisted, hd.unique hpath']

/-- The file with that path, in the knowledge base it is looked for in. -/
theorem fileAtPath_eq_some {accessible : List FileInfo} {dirPath name : Text} {r : Resolved}
    (h : fileAtPath s accessible dirPath name kb = some r) :
    ∃ d g, resolveDirPath s dirPath kb = some d ∧ g ∈ accessible ∧
      g.filename.toList = name ∧ g.directoryId = some d ∧
        fileWithData s g.id g.knowledge = some r := by
  obtain ⟨d, hd, h⟩ := Option.bind_eq_some_iff.mp h
  split at h
  · next g hg =>
      have hmem : g ∈ accessible.filter fun f => f.filename.toList = name ∧
        f.directoryId = some d :=
        hg ▸ List.mem_singleton_self g
      obtain ⟨hin, hboth⟩ := List.mem_filter.mp hmem
      obtain ⟨hname, hdir⟩ := of_decide_eq_true hboth
      exact ⟨d, g, hd, hin, hname, hdir, h⟩
  · cases h

/-- The search along a listed path finds the only file that has it. -/
theorem WellKept.search_listed (h : WellKept s) (hf : f ∈ accessibleFiles py s user attached none)
    {d : String} (hplace : f.directoryId = some d) (hlisted : listedPath s f = some text)
    (honly : (accessibleFiles py s user attached none).filter (listedPath s · = some text) = [f])
    {r : Resolved} (hdata : fileWithData s f.id f.knowledge = some r) :
    '/' ∈ stripSlashes text ∧
      ((kbIdsOf py (accessibleFiles py s user attached none)).findSome? fun kbId =>
      fileAtPath s (accessibleFiles py s user attached none) (rsplitSlash (stripSlashes text)).1
        (rsplitSlash (stripSlashes text)).2 kbId) = some r := by
  cases hkb : f.knowledge with
  -- a file in a directory is one of a knowledge base
  | none => exact absurd (direct_of_accessible hf hkb) (by rw [hplace]; exact Option.some_ne_none d)
  | some kb =>
      obtain ⟨path, hpath, hlisted'⟩ := h.listedPath_eq hf hkb
      rw [hplace] at hpath
      have hd : IsPath (nodeIn s.tables.directories kb.1) path d := hpath
      have hplain := (h.named kb.1).plain_path hd
      have hname := h.plain_filename hf
      -- the listed path is that of the directory with the name of the file
      obtain rfl : text = joined '/' (path ++ [f.filename.toList]) :=
        Option.some.inj (hlisted.symm.trans hlisted')
      have hall : ∀ name ∈ path ++ [f.filename.toList], Plain '/' name := by
        intro name hmem
        rcases List.mem_append.mp hmem with hmem | hmem
        · exact hplain name hmem
        · exact List.mem_singleton.mp hmem ▸ hname
      have hsplit : (stripSlashes (joined '/' path)).splitOn '/' = path := by
        rw [stripSlashes_joined hd.ne_nil hplain, splitOn_joined hd.ne_nil hplain]
      rw [stripSlashes_joined (List.append_ne_nil_of_right_ne_nil _ (List.cons_ne_nil _ _)) hall,
        joined_append_singleton hd.ne_nil, rsplitSlash_append hname.2]
      refine ⟨List.mem_append_right _ List.mem_cons_self,
        findSome?_eq (fun kbId _ c hc => ?_) ⟨kb.1, mem_kbIdsOf h hf hkb, ?_⟩⟩
      · -- whatever is found elsewhere has the same listed path
        obtain ⟨d', g, hresolved, hg, hgname, hgdir, hgdata⟩ := fileAtPath_eq_some hc
        have hd' := (resolveDirPath_eq_some (h.named kbId) _).mp hresolved
        rw [hsplit] at hd'
        have hglisted := h.listedPath_of_names hg hd' hgdir
        have hmem :
          g ∈ [f] := honly ▸ List.mem_filter.mpr ⟨hg, decide_eq_true (by rw [hglisted, hgname])⟩
        rw [List.mem_singleton.mp hmem, hdata] at hgdata
        exact (Option.some.inj hgdata).symm
      · have hresolved : resolveDirPath s (joined '/' path) kb.1 = some d := by
          rw [resolveDirPath_eq_some (h.named kb.1), hsplit]
          exact hd
        have hfilter : ((accessibleFiles py s user attached none).filter fun g =>
            g.filename.toList = f.filename.toList ∧ g.directoryId = some d) = [f] := by
          refine filter_eq_singleton honly (fun g hg hboth => ?_) (decide_eq_true ⟨rfl, hplace⟩)
          obtain ⟨hgname, hgdir⟩ := of_decide_eq_true hboth
          exact decide_eq_true (by rw [h.listedPath_of_names hg hd hgdir, hgname])
        rw [fileAtPath, hresolved]
        rw [Option.bind_eq_bind, Option.bind_some, hfilter]
        exact hdata

/-- The path with which a file is listed leads back to it: when no other file is listed with that
path, at the root also when no other file has its name, and when the path is not an id. -/
theorem resolveFile_listed (h : WellKept s) (hf : f ∈ accessibleFiles py s user attached none)
    (hlisted : listedPath s f = some text)
    (honly : (accessibleFiles py s user attached none).filter (listedPath s · = some text) = [f])
    (hroot : f.directoryId = none →
      (accessibleFiles py s user attached none).filter (·.filename = f.filename) = [f])
    (hid : fileWithData s (String.ofList text) none = none) {r : Resolved}
    (hdata : fileWithData s f.id f.knowledge = some r) :
    resolveFile py s user attached text = .file r := by
  cases hplace : f.directoryId with
  | some d =>
      obtain ⟨hslash, hsearch⟩ := h.search_listed hf hplace hlisted honly hdata
      simp only [resolveFile, hid, if_pos hslash, hsearch]
  | none =>
      cases hkb : f.knowledge with
      | none =>
          rw [listedPath_direct hkb] at hlisted
          cases hlisted
      | some kb =>
          obtain ⟨path, hpath, hlisted'⟩ := h.listedPath_eq hf hkb
          rw [hplace] at hpath
          rw [show path = [] from hpath, List.nil_append, joined_singleton] at hlisted'
          obtain rfl : text = f.filename.toList := Option.some.inj (hlisted.symm.trans hlisted')
          have hname := h.plain_filename hf
          have hstrip : stripSlashes f.filename.toList = f.filename.toList := by
            have hplain : ∀ name ∈ [f.filename.toList], Plain '/' name :=
              fun name hmem => List.mem_singleton.mp hmem ▸ hname
            have hone := stripSlashes_joined (List.cons_ne_nil _ _) hplain
            rwa [joined_singleton] at hone
          have hfilter : ((accessibleFiles py s user attached none).filter fun g =>
              g.filename.toList = f.filename.toList) = [f] := by
            rw [← hroot hplace]
            refine List.filter_congr fun g _ => ?_
            rw [decide_eq_decide]
            exact String.toList_inj
          simp only [resolveFile, hid, hstrip, if_neg hname.2, hfilter, hdata]

/-- The example's file is resolved by its path. -/
theorem resolveFile_auth :
    ∃ r, fileWithData (sampleStore []) "f1" (some ("kb1", "notes")) = some r ∧
    resolveFile samplePython (sampleStore []) ada [] "api/v1/auth.md".toList = .file r := by
  have haccessible :
    accessibleFiles samplePython (sampleStore []) ada [] none = [authFile] := by decide +kernel
  refine ⟨_, rfl, resolveFile_listed (f := authFile) (wellKept_sample []) ?_ ?_ ?_ ?_ ?_ rfl⟩
  · rw [haccessible]
    exact List.mem_singleton_self _
  · decide +kernel
  · rw [haccessible]
    decide +kernel
  · intro hroot
    cases hroot
  · decide +kernel

end OpenWebUI.Knowledge
