import OpenWebUI.Knowledge.Store
import OpenWebUI.Lib.NamedForest

/-! # Paths of directories

`tools/knowledge_fs.py` finds a directory by its path in two ways: a walk that queries one level
after the other, and a tree of all paths built once by a recursion with a memo. On a well named
forest both find the one directory that has the path.
-/

namespace OpenWebUI.Knowledge

open Py NamedForest

/-- Parent and name of a directory of the knowledge base. -/
def nodeIn (dirs : Directories) (knowledgeId id : String) : Option (Option String × Text) :=
  ((dirs.get? id).filter (·.knowledgeId = knowledgeId)).map fun d => (d.parentId, d.name.toList)

/-- The directories of a knowledge base lie below each other without cycles, and names that can
stand in a path tell them apart. -/
structure WellNamed (dirs : Directories) (knowledgeId : String) : Prop where
  acyclic : Forest.Acyclic (parent (nodeIn dirs knowledgeId))
  ids : "" ∉ dirs
  closed : Closed (nodeIn dirs knowledgeId)
  apart : Apart (nodeIn dirs knowledgeId)
  plain : ∀ id place, nodeIn dirs knowledgeId id = some place → Plain '/' place.2

variable {s : Store} {dirs : Directories} {kb id : String} {path : List Text}

/-- A directory of the knowledge base, with its place. -/
theorem nodeIn_eq_some {place : Option String × Text} : nodeIn dirs kb id = some place ↔
    ∃ d, dirs.get? id = some d ∧ d.knowledgeId = kb ∧ (d.parentId, d.name.toList) = place := by
  rw [nodeIn, Option.map_eq_some_iff]
  refine exists_congr fun d => ?_
  rw [Option.filter_eq_some_iff, decide_eq_true_iff, and_assoc]

theorem mem_of_nodeIn {place : Option String × Text} (h : nodeIn dirs kb id = some place) :
    id ∈ dirs := by
  obtain ⟨d, hd, -⟩ := nodeIn_eq_some.mp h
  exact Dict.mem_of_get? hd

/-- A link within the knowledge base is one of the table. -/
theorem parentOf_of_parent {p : String} (h : parent (nodeIn dirs kb) id = some p) :
    parentOf dirs id = some p := by
  obtain ⟨n, hn⟩ := parent_eq_some.mp h
  obtain ⟨d, hd, -, hplace⟩ := nodeIn_eq_some.mp hn
  rw [parentOf, hd]
  exact (Prod.ext_iff.mp hplace).1

/-- A knowledge base has finitely many directories. -/
theorem finite_nodes (dirs : Directories) (kb : String) :
    {id | nodeIn dirs kb id ≠ none}.Finite := by
  refine dirs.keys.finite_toSet.subset fun id hid => ?_
  obtain ⟨place, hplace⟩ := Option.ne_none_iff_exists'.mp hid
  exact mem_of_nodeIn hplace

/-- Every directory has a path. -/
theorem WellNamed.exists_path (h : WellNamed dirs kb) {place : Option String × Text}
    (hid : nodeIn dirs kb id = some place) :
    ∃ path, IsPath (nodeIn dirs kb) path id :=
  exists_isPath h.acyclic h.closed (finite_nodes dirs kb) hid

/-- No name on a path has a slash. -/
theorem WellNamed.plain_path (h : WellNamed dirs kb) (hpath : IsPath (nodeIn dirs kb) path id) :
    ∀ name ∈ path, Plain '/' name := by
  induction hpath with
  | root hnode =>
      intro name hname
      rw [List.mem_singleton.mp hname]
      exact h.plain _ _ hnode
  | child hnode _ ih =>
      intro name hname
      rcases List.mem_append.mp hname with hname | hname
      · exact ih name hname
      · rw [List.mem_singleton.mp hname]
        exact h.plain _ _ hnode

/-- Different directories have different paths as texts. -/
theorem WellNamed.joined_injective (h : WellNamed dirs kb) {id' : String} {path' : List Text}
    (hpath : IsPath (nodeIn dirs kb) path id) (hpath' : IsPath (nodeIn dirs kb) path' id')
    (heq : joined '/' path = joined '/' path') : id = id' := by
  have hpaths : path = path' :=
    NamedForest.joined_injective hpath.ne_nil hpath'.ne_nil (h.plain_path hpath)
    (h.plain_path hpath') heq
  exact hpath.injective h.apart (hpaths ▸ hpath')

/-! ## The queries -/

theorem mem_getAllDirectories {d : Directory} :
    (id, d) ∈ getAllDirectories s kb ↔ s.tables.directories.get? id = some d ∧
      d.knowledgeId = kb := by
  rw [getAllDirectories, List.mem_insertionSort, List.mem_filter, Dict.mem_entries_iff,
    decide_eq_true_iff]

theorem nodup_getAllDirectories : (Assoc.keys (getAllDirectories s kb)).Nodup := by
  have hperm : (Assoc.keys (getAllDirectories s kb)).Perm
      (Assoc.keys (s.tables.directories.entries.filter fun e => e.2.knowledgeId = kb)) :=
    (List.perm_insertionSort _ _).map Prod.fst
  exact hperm.nodup_iff.mpr (Assoc.nodup_keys_filter s.tables.directories.nodup_keys _)

theorem lookup_getAllDirectories :
    (getAllDirectories s kb).lookup id = (s.tables.directories.get? id).filter
      (·.knowledgeId = kb) := by
  refine Option.ext fun d => ?_
  rw [Option.filter_eq_some_iff, decide_eq_true_iff, ← mem_getAllDirectories]
  exact ⟨Assoc.mem_of_lookup, Assoc.lookup_of_mem nodup_getAllDirectories⟩

theorem mem_getDirectories {d : Directory} {parentId : Option String} :
    (id, d) ∈ getDirectories s kb parentId ↔ s.tables.directories.get? id = some d ∧
      d.knowledgeId = kb ∧
      d.parentId = parentId.filter (· ≠ "") := by
  rw [getDirectories, List.mem_insertionSort, List.mem_filter, Dict.mem_entries_iff,
    decide_eq_true_iff]

/-! ## The walk down -/

theorem childNamed_ne (parentId : Option String) (name : Text) :
    childNamed s kb parentId name ≠ some none := by
  intro h
  obtain ⟨d, -, hd⟩ := Option.map_eq_some_iff.mp h
  cases hd

/-- The lookup finds the child of the name. -/
theorem childNamed_eq_some (h : WellNamed s.tables.directories kb) {parentId : Option String}
    {name : Text}
    (hparent : ∀ p, parentId = some p → ∃ above, nodeIn s.tables.directories kb p = some above) :
    childNamed s kb parentId name = some (some id) ↔
      nodeIn s.tables.directories kb id = some (parentId, name) := by
  have hfilter : parentId.filter (· ≠ "") = parentId := by
    cases parentId with
    | none => rfl
    | some p =>
        obtain ⟨above, habove⟩ := hparent p rfl
        have hne : p ≠ "" := fun heq => h.ids (heq ▸ mem_of_nodeIn habove)
        rw [Option.filter_some, if_pos (decide_eq_true hne)]
  have hmem : ∀ d : String × Directory, d ∈ getDirectories s kb parentId ∧ d.2.name.toList = name ↔
      s.tables.directories.get? d.1 = some d.2 ∧ d.2.knowledgeId = kb ∧
        (d.2.parentId, d.2.name.toList) = (parentId, name) := by
    intro d
    rw [show d = (d.1, d.2) from rfl, mem_getDirectories, hfilter, Prod.mk.injEq]
    tauto
  rw [childNamed, Option.map_eq_some_iff, nodeIn_eq_some]
  constructor
  · rintro ⟨d, hfind, hid⟩
    cases hid
    exact ⟨d.2, (hmem d).mp ⟨List.mem_of_find?_eq_some hfind, by simpa using List.find?_some hfind⟩⟩
  · rintro ⟨d, hd⟩
    obtain ⟨hin, hname⟩ := (hmem (id, d)).mpr hd
    cases hfind : (getDirectories s kb parentId).find? (·.2.name.toList = name) with
    | none => exact absurd (decide_eq_true hname) (List.find?_eq_none.mp hfind (id, d) hin)
    | some d' =>
        have hd' := (hmem d').mp
          ⟨List.mem_of_find?_eq_some hfind, by simpa using List.find?_some hfind⟩
        have heq :
          d'.1 = id := h.apart _ _ _ (nodeIn_eq_some.mpr ⟨d'.2, hd'⟩) (nodeIn_eq_some.mpr ⟨d, hd⟩)
        exact ⟨d', rfl, congrArg some heq⟩

/-- The walk finds the directory whose names the text splits into. -/
theorem resolveDirPath_eq_some (h : WellNamed s.tables.directories kb) (text : Text) :
    resolveDirPath s text kb = some id ↔
      IsPath (nodeIn s.tables.directories kb) ((stripSlashes text).splitOn '/') id := by
  rw [resolveDirPath, Option.join_eq_some_iff]
  exact walk_eq_iff childNamed_ne fun parentId name id hparent => childNamed_eq_some h hparent

/-- A text is the path of a directory. -/
def TextPath (dirs : Directories) (kb : String) (text : Text) (id : String) : Prop :=
  ∃ path, IsPath (nodeIn dirs kb) path id ∧ text = joined '/' path

/-- A text is a path where its parts are. -/
theorem textPath_iff_splitOn (h : WellNamed dirs kb) {text : Text} :
    TextPath dirs kb text id ↔ IsPath (nodeIn dirs kb) (text.splitOn '/') id := by
  constructor
  · rintro ⟨path, hpath, rfl⟩
    rwa [splitOn_joined hpath.ne_nil (h.plain_path hpath)]
  · exact fun hpath => ⟨_, hpath, (joined_splitOn text).symm⟩

/-! ## The tree -/

/-- Every path found so far is right. -/
def RightPaths (dirs : Directories) (kb : String) (paths : Dict String Text) : Prop :=
  ∀ id text, paths.get? id = some text → TextPath dirs kb text id

/-- No path found is lost. -/
def Extends (paths paths' : Dict String Text) : Prop :=
  ∀ id text, paths.get? id = some text → paths'.get? id = some text

theorem Extends.trans {a b c : Dict String Text} (h : Extends a b) (h' : Extends b c) :
    Extends a c :=
  fun id text hid => h' id text (h id text hid)

/-- A recorded path is the right one. -/
theorem RightPaths.eq_joined {paths : Dict String Text} (h : RightPaths dirs kb paths)
    (hpath : IsPath (nodeIn dirs kb) path id) {text : Text} (hid : paths.get? id = some text) :
    text = joined '/' path := by
  obtain ⟨path', hpath', htext⟩ := h id text hid
  rw [htext, hpath'.unique hpath]

theorem extends_set {paths : Dict String Text} (h : RightPaths dirs kb paths)
    (hpath : IsPath (nodeIn dirs kb) path id) : Extends paths (paths.set id (joined '/' path)) := by
  intro id' text' hid'
  rw [Dict.get?_set]
  split_ifs with heq
  · have hid : paths.get? id = some text' := heq ▸ hid'
    rw [h.eq_joined hpath hid]
  · exact hid'

theorem rightPaths_set {paths : Dict String Text} (h : RightPaths dirs kb paths)
    (hpath : IsPath (nodeIn dirs kb) path id) :
    RightPaths dirs kb (paths.set id (joined '/' path)) := by
  intro id' text' hid'
  rw [Dict.get?_set] at hid'
  split_ifs at hid' with heq
  · rw [Option.some.injEq] at hid'
    exact ⟨path, heq ▸ hpath, hid'.symm⟩
  · exact h id' text' hid'

/-- The recursion finds the path of a directory, keeps the memo right and adds the directory to
it. -/
theorem getDirPath_spec (h : WellNamed s.tables.directories kb)
    (hpath : IsPath (nodeIn s.tables.directories kb) path id) {fuel : ℕ}
    (hfuel : path.length ≤ fuel) {paths : Dict String Text}
    (hpaths : RightPaths s.tables.directories kb paths) :
    ∃ paths', getDirPath (getAllDirectories s kb) fuel id paths = some (paths', joined '/' path) ∧
      RightPaths s.tables.directories kb paths' ∧ Extends paths paths' ∧
        paths'.get? id = some (joined '/' path) := by
  induction hpath generalizing fuel paths with
  | @root id name hnode =>
      obtain ⟨fuel, rfl⟩ : ∃ k, fuel = k + 1 := ⟨fuel - 1, by simp at hfuel; omega⟩
      -- the memo holds the path, or it is taken from the row
      cases hmemo : paths.get? id with
      | some text =>
          obtain rfl := hpaths.eq_joined (.root hnode) hmemo
          refine ⟨paths, ?_, hpaths, fun _ _ hid => hid, hmemo⟩
          rw [getDirPath, hmemo]
      | none =>
          obtain ⟨d, hd, hkb, hplace⟩ := nodeIn_eq_some.mp hnode
          obtain ⟨hparent, hname⟩ := Prod.ext_iff.mp hplace
          have hlookup : (getAllDirectories s kb).lookup id = some d := by
            rw [lookup_getAllDirectories, hd, Option.filter_some, if_pos (decide_eq_true hkb)]
          refine ⟨_, ?_, rightPaths_set hpaths (.root hnode), extends_set hpaths (.root hnode),
            Dict.get?_set_self _ _ _⟩
          rw [getDirPath, hmemo]
          simp only [hlookup, show d.parentId = none from hparent,
            show d.name.toList = name from hname, joined_singleton]
          rfl
  | @child id p name path hnode hp ih =>
      rw [List.length_append, List.length_singleton] at hfuel
      obtain ⟨fuel, rfl⟩ : ∃ k, fuel = k + 1 := ⟨fuel - 1, by omega⟩
      cases hmemo : paths.get? id with
      | some text =>
          obtain rfl := hpaths.eq_joined (.child hnode hp) hmemo
          refine ⟨paths, ?_, hpaths, fun _ _ hid => hid, hmemo⟩
          rw [getDirPath, hmemo]
      | none =>
          obtain ⟨d, hd, hkb, hplace⟩ := nodeIn_eq_some.mp hnode
          obtain ⟨hparent, hname⟩ := Prod.ext_iff.mp hplace
          have hlookup : (getAllDirectories s kb).lookup id = some d := by
            rw [lookup_getAllDirectories, hd, Option.filter_some, if_pos (decide_eq_true hkb)]
          -- the parent is asked for its path first
          obtain ⟨above, habove⟩ := hp.exists_place
          have hne : p ≠ "" := fun heq => h.ids (heq ▸ mem_of_nodeIn habove)
          have hparents : ((getAllDirectories s kb).lookup p).isSome := by
            obtain ⟨dp, hdp, hkbp, -⟩ := nodeIn_eq_some.mp habove
            rw [lookup_getAllDirectories, hdp, Option.filter_some, if_pos (decide_eq_true hkbp)]
            rfl
          obtain ⟨paths', hget, hright, hext, -⟩ := ih (show path.length ≤ fuel by omega) hpaths
          refine ⟨_, ?_, rightPaths_set hright (.child hnode hp),
            hext.trans (extends_set hright (.child hnode hp)),
             Dict.get?_set_self _ _ _⟩
          have hends := (joined_ends hp.ne_nil (h.plain_path hp)).2.2
          have hfilter :
            d.parentId.filter (fun p => p ≠ "" ∧ ((getAllDirectories s kb).lookup p).isSome) =
            some p := by
            rw [show d.parentId = some p from hparent, Option.filter_some,
              if_pos (decide_eq_true ⟨hne, hparents⟩)]
          rw [getDirPath, hmemo]
          simp only [hlookup, hfilter, hget, Option.bind_eq_bind, Option.bind_some, ne_eq, hends,
            not_false_eq_true, if_true, show d.name.toList = name from hname,
            joined_append_singleton hp.ne_nil]
          rfl

/-- A path has at most as many names as there are directories. -/
theorem length_le_directories (hpath : IsPath (nodeIn s.tables.directories kb) path id) :
    path.length ≤ (getAllDirectories s kb).length := by
  have hle := hpath.length_le ((getAllDirectories s kb).map Prod.fst) fun y hy => by
    obtain ⟨place, hplace⟩ := Option.ne_none_iff_exists'.mp hy
    obtain ⟨e, he, hekb, -⟩ := nodeIn_eq_some.mp hplace
    exact List.mem_map.mpr ⟨(y, e), mem_getAllDirectories.mpr ⟨he, hekb⟩, rfl⟩
  rwa [List.length_map] at hle

/-- The loop over some of the directories finds all their paths. -/
theorem exists_paths (h : WellNamed s.tables.directories kb) {l : List (String × Directory)}
    (hl : ∀ d ∈ l, d ∈ getAllDirectories s kb) {paths : Dict String Text}
    (hpaths : RightPaths s.tables.directories kb paths) :
    ∃ paths', l.foldlM (fun paths d =>
      (getDirPath (getAllDirectories s kb) ((getAllDirectories s kb).length + 1) d.1
        paths).map Prod.fst) paths = some paths' ∧
      RightPaths s.tables.directories kb paths' ∧ Extends paths paths' ∧
        ∀ d ∈ l, (paths'.get? d.1).isSome := by
  induction l generalizing paths with
  | nil => exact ⟨paths, rfl, hpaths, fun _ _ hid => hid, fun _ hd => absurd hd List.not_mem_nil⟩
  | cons d l ih =>
      obtain ⟨hget, hkb⟩ := mem_getAllDirectories.mp (hl d List.mem_cons_self)
      obtain ⟨path, hpath⟩ := h.exists_path (nodeIn_eq_some.mpr ⟨d.2, hget, hkb, rfl⟩)
      have hlength := length_le_directories hpath
      obtain ⟨paths₁, hstep, hright, hext, hmem⟩ :=
        getDirPath_spec h hpath (Nat.le_succ_of_le hlength) hpaths
      obtain ⟨paths₂, hrest, hright', hext', hmem'⟩ :=
        ih (fun e he => hl e (List.mem_cons_of_mem _ he)) hright
      refine ⟨paths₂, ?_, hright', hext.trans hext', fun e he => ?_⟩
      · rw [List.foldlM_cons, hstep]
        exact hrest
      · rcases List.mem_cons.mp he with rfl | he
        · rw [hext' _ _ hmem]
          rfl
        · exact hmem' e he

/-- The dictionary with keys and values exchanged, when no value comes twice. -/
theorem get?_swapped {paths : Dict String Text} (hpaths : ∀ id id' text, paths.get? id = some text →
    paths.get? id' = some text → id = id') (text : Text) :
    (paths.entries.foldl (fun d p => d.set p.2 p.1) (∅ : Dict Text String)).get? text = some id ↔
      paths.get? id = some text := by
  have hmem : ∀ id, (text, id) ∈ paths.entries.map Prod.swap ↔ paths.get? id = some text :=
    fun id => by
    rw [List.mem_map_swap, Dict.mem_entries_iff]
  obtain ⟨hval, hkey⟩ := Dict.ofList_spec (paths.entries.map Prod.swap) text
  rw [Dict.ofList, List.foldl_map] at hval hkey
  constructor
  · exact fun h => (hmem id).mp (hval id h)
  · intro h
    obtain ⟨id', hid'⟩ := (Dict.mem_iff_exists _ _).mp (hkey ⟨id, (hmem id).mpr h⟩)
    have heq : id' = id := hpaths _ _ text ((hmem id').mp (hval id' hid')) h
    exact heq ▸ hid'

/-- What `_build_directory_tree` says of a file. -/
def fileIn (paths : Dict String Text) (f : String × File × Option String) : FileInfo :=
  { FileInfo.of f.1 f.2.1 f.2.2 none with
    path := some (match (f.2.2.filter (· ≠ "")).bind paths.get? with
      | some p => p ++ '/' :: f.2.1.filename.toList
      | none => f.2.1.filename.toList) }

/-- The tree holds the path of every directory, both ways. -/
theorem exists_tree (h : WellNamed s.tables.directories kb) :
    ∃ tree, buildDirectoryTree s kb = some tree ∧
    (∀ id text, tree.dirIdToPath.get? id = some text ↔ TextPath s.tables.directories kb text id) ∧
    (∀ text id, tree.pathToDirId.get? text = some id ↔ TextPath s.tables.directories kb text id) ∧
    tree.files = (getFilesWithDirectoryIds s kb).map (fileIn tree.dirIdToPath) := by
  have hstart : RightPaths s.tables.directories kb ∅ := fun id text hid => by cases hid
  obtain ⟨paths, hfold, hright, -, hmem⟩ :=
    exists_paths h (l := getAllDirectories s kb) (fun _ hd => hd) hstart
  have hpaths : ∀ id text, paths.get? id = some text ↔
    TextPath s.tables.directories kb text id := by
    intro id text
    refine ⟨hright id text, ?_⟩
    rintro ⟨path, hpath, rfl⟩
    obtain ⟨place, hplace⟩ := hpath.exists_place
    obtain ⟨d, hd, hkb, -⟩ := nodeIn_eq_some.mp hplace
    obtain ⟨text, htext⟩ := Option.isSome_iff_exists.mp
      (hmem (id, d) (mem_getAllDirectories.mpr ⟨hd, hkb⟩))
    rw [htext, hright.eq_joined hpath htext]
  refine ⟨⟨getAllDirectories s kb, (getFilesWithDirectoryIds s kb).map (fileIn paths),
    paths.entries.foldl (fun d p => d.set p.2 p.1) ∅, paths⟩, ?_, hpaths, fun text id => ?_, rfl⟩
  · rw [buildDirectoryTree, hfold]
    rfl
  · rw [← hpaths]
    refine get?_swapped (fun id id' text hid hid' => ?_) text
    obtain ⟨path, hpath, rfl⟩ := (hpaths id text).mp hid
    obtain ⟨path', hpath', htext⟩ := (hpaths id' _).mp hid'
    exact h.joined_injective hpath hpath' htext

/-- The walk down and the tree lead from every text to the same directory. -/
theorem paths_agree (h : WellNamed s.tables.directories kb) :
    ∃ tree, buildDirectoryTree s kb = some tree ∧
    ∀ path, resolvePath path tree = resolveDirPath s path kb := by
  obtain ⟨tree, htree, -, hpaths, -⟩ := exists_tree h
  refine ⟨tree, htree, fun path => Option.ext fun id => ?_⟩
  rw [resolvePath, hpaths, textPath_iff_splitOn h, resolveDirPath_eq_some h]

/-- The directories of the example. -/
theorem directories_sample {secret : Text} {d : Directory}
    (h : (sampleStore secret).tables.directories.get? id = some d) :
    (id = "d1" ∧ d = sampleDirectory "kb1" "api" none) ∨
      (id = "d2" ∧ d = sampleDirectory "kb1" "v1" (some "d1")) := by
  simpa [sampleStore] using (Dict.mem_entries_iff _ _ _).mpr h

/-- The example is well named. -/
theorem wellNamed_sample (secret : Text) (kb : String) :
    WellNamed (sampleStore secret).tables.directories kb where
  acyclic := by
    refine Forest.Acyclic.of_rank (fun id => if id = "d2" then 1 else 0) fun c p hc => ?_
    obtain ⟨d, hd, hp⟩ := Option.bind_eq_some_iff.mp (parentOf_of_parent hc)
    rcases directories_sample hd with ⟨rfl, rfl⟩ | ⟨rfl, rfl⟩
    · cases hp
    · rw [← Option.some.inj hp]
      decide
  ids := by
    intro hmem
    obtain ⟨d, hd⟩ := (Dict.mem_iff_exists _ _).mp hmem
    rcases directories_sample hd with ⟨hid, -⟩ | ⟨hid, -⟩
    · exact absurd hid (by decide)
    · exact absurd hid (by decide)
  closed := by
    intro c p n hc
    obtain ⟨d, hd, hkb, hplace⟩ := nodeIn_eq_some.mp hc
    rcases directories_sample hd with ⟨rfl, rfl⟩ | ⟨rfl, rfl⟩
    · cases (Prod.ext_iff.mp hplace).1
    · rw [← Option.some.inj (Prod.ext_iff.mp hplace).1]
      exact ⟨_, nodeIn_eq_some.mpr ⟨_, rfl, hkb, rfl⟩⟩
  apart := by
    intro x y place hx hy
    obtain ⟨d, hd, -, rfl⟩ := nodeIn_eq_some.mp hx
    obtain ⟨d', hd', -, hplace⟩ := nodeIn_eq_some.mp hy
    rcases directories_sample hd with ⟨rfl, rfl⟩ | ⟨rfl, rfl⟩ <;>
      rcases directories_sample hd' with ⟨rfl, rfl⟩ | ⟨rfl, rfl⟩
    · rfl
    · cases (Prod.ext_iff.mp hplace).1
    · cases (Prod.ext_iff.mp hplace).1
    · rfl
  plain := by
    intro x place hx
    obtain ⟨d, hd, -, rfl⟩ := nodeIn_eq_some.mp hx
    rcases directories_sample hd with ⟨rfl, rfl⟩ | ⟨rfl, rfl⟩
    · exact ⟨by decide, by decide⟩
    · exact ⟨by decide, by decide⟩

/-- On the example the two lookups agree. -/
theorem paths_agree_sample : ∃ tree, buildDirectoryTree (sampleStore []) "kb1" = some tree ∧
    ∀ path, resolvePath path tree = resolveDirPath (sampleStore []) path "kb1" :=
  paths_agree (wellNamed_sample [] "kb1")

end OpenWebUI.Knowledge
