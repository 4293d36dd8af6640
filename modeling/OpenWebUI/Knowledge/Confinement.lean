import Mathlib
import OpenWebUI.Knowledge.Exec

/-! # What the knowledge shell cannot tell

Two stores that look the same to a caller give the same answer to every command: contents, names and
dates of what the caller may not read have no influence on it. Of a file that is out of reach a
command can at most tell whether its id is taken, because an id is looked up before access to it is
checked.
-/

namespace OpenWebUI.Knowledge

open Py Shell

/-- The knowledge base is one the caller is shown: the attached ones with access, or with nothing
attached those a search finds. -/
def Visible (s : Store) (user : Caller) (attached : List Attached) (id : String)
    (base : KnowledgeBase) : Prop :=
  if attached = [] then hasPermission s user.id (groupIdsOf s user) id base = true
  else (∃ a ∈ attached, a.type = "collection" ∧ a.id = id) ∧ hasAccess s user id base = true

/-- The id is the one of a knowledge base the caller is shown. -/
def VisibleBase (s : Store) (user : Caller) (attached : List Attached) (kbId : String) : Prop :=
  ∃ base, s.bases.get? kbId = some base ∧ Visible s user attached kbId base

/-- The file is in a knowledge base the caller is shown, or attached by itself. -/
def Shown (s : Store) (user : Caller) (attached : List Attached) (id : String) : Prop :=
  (∃ kbId, VisibleBase s user attached kbId ∧ ∃ e ∈ s.tables.files.entries, e.2.knowledgeId = kbId ∧
    e.2.fileId = id) ∨
    ∃ a ∈ attached, a.type = "file" ∧ a.id = id

/-- The stores look the same to the caller. -/
structure SameView (user : Caller) (attached : List Attached) (s s' : Store) : Prop where
  visible : ∀ id base, Visible s user attached id base ↔ Visible s' user attached id base
  bases : ∀ id base, Visible s user attached id base →
    (s.bases.get? id = some base ↔ s'.bases.get? id = some base)
  directories : ∀ kbId, VisibleBase s user attached kbId →
    s.tables.directories.entries.filter (fun e => decide (e.2.knowledgeId = kbId)) =
      s'.tables.directories.entries.filter (fun e => decide (e.2.knowledgeId = kbId))
  links : ∀ kbId, VisibleBase s user attached kbId →
    s.tables.files.entries.filter (fun e => decide (e.2.knowledgeId = kbId)) =
      s'.tables.files.entries.filter (fun e => decide (e.2.knowledgeId = kbId))
  files : ∀ id, Shown s user attached id → s.files.get? id = s'.files.get? id
  /-- the ids of files with data are the same, also out of reach -/
  data : ∀ id, ((s.files.get? id).bind File.data).isSome =
    ((s'.files.get? id).bind File.data).isSome

variable {py : Python} {limits : Limits} {s s' : Store} {user : Caller} {attached : List Attached}
    {kbId id : String}

/-! ## Knowledge bases -/

theorem mem_order {ids : List String} : id ∈ py.order ids ↔ id ∈ ids :=
  (py.order_perm ids).mem_iff.trans List.mem_dedup

/-- An attached knowledge base is visible where the user has access to it. -/
theorem visible_attached {base : KnowledgeBase} (hattached : attached ≠ [])
    (hid : id ∈ (attached.filter (·.type = "collection")).map (·.id)) :
    Visible s user attached id base ↔ hasAccess s user id base = true := by
  obtain ⟨a, ha, rfl⟩ := List.mem_map.mp hid
  obtain ⟨ha, htype⟩ := List.mem_filter.mp ha
  rw [Visible, if_neg hattached]
  exact and_iff_right ⟨a, ha, of_decide_eq_true htype, rfl⟩

/-- A readable knowledge base is stored, and the user has access to it. -/
theorem readable_eq_some {row : String × KnowledgeBase} :
    readable s user id = some row ↔ row.1 = id ∧ s.bases.get? id = some row.2 ∧
      hasAccess s user id row.2 = true := by
  rw [readable, Option.map_eq_some_iff]
  constructor
  · rintro ⟨base, hbase, rfl⟩
    obtain ⟨hget, haccess⟩ := Option.filter_eq_some_iff.mp hbase
    exact ⟨rfl, hget, haccess⟩
  · rintro ⟨rfl, hget, haccess⟩
    exact ⟨row.2, Option.filter_eq_some_iff.mpr ⟨hget, haccess⟩, rfl⟩

/-- Of two knowledge bases one comes first. -/
theorem newerBase_total (e e' : String × KnowledgeBase) :
    newerBase e e' = true ∨ newerBase e' e = true := by
  simp only [newerBase, Bool.or_eq_true, Bool.and_eq_true, decide_eq_true_eq]
  rcases lt_trichotomy e.2.updatedAt e'.2.updatedAt with h | h | h
  · exact .inr (.inl h)
  · rcases String.le_total e.1 e'.1 with hid | hid
    · exact .inl (.inr ⟨h, hid⟩)
    · exact .inr (.inr ⟨h.symm, hid⟩)
  · exact .inl (.inl h)

/-- The order of the knowledge bases is transitive. -/
theorem newerBase_trans (a b c : String × KnowledgeBase) (hab : newerBase a b = true)
    (hbc : newerBase b c = true) :
    newerBase a c = true := by
  simp only [newerBase, Bool.or_eq_true, Bool.and_eq_true, decide_eq_true_eq] at hab hbc ⊢
  rcases hab with hab | ⟨hab, hid⟩ <;> rcases hbc with hbc | ⟨hbc, hid'⟩
  · left; omega
  · left; omega
  · left; omega
  · exact .inr ⟨hab.trans hbc, String.le_trans hid hid'⟩

/-- Two knowledge bases that both come first are one. -/
theorem newerBase_antisymm {a b : String × KnowledgeBase} (hab : newerBase a b = true)
    (hba : newerBase b a = true) :
    a.1 = b.1 := by
  simp only [newerBase, Bool.or_eq_true, Bool.and_eq_true, decide_eq_true_eq] at hab hba
  rcases hab with hab | ⟨hab, hid⟩ <;> rcases hba with hba | ⟨hba, hid'⟩
  · omega
  · omega
  · omega
  · exact String.le_antisymm hid hid'

/-- Sorted lists of the same knowledge bases are the same. -/
theorem sorted_bases_eq {l l' : List (String × KnowledgeBase)} (hl : (l.map Prod.fst).Nodup)
    (hperm : l.Perm l') :
    l.insertionSort (fun e e' => newerBase e e' = true) =
      l'.insertionSort (fun e e' => newerBase e e' = true) := by
  have htotal : Std.Total fun e e' : String × KnowledgeBase => newerBase e e' = true :=
    ⟨newerBase_total⟩
  have htrans : IsTrans (String × KnowledgeBase) fun e e' => newerBase e e' = true :=
    ⟨newerBase_trans⟩
  have hsorted : (l.insertionSort (fun e e' => newerBase e e' = true)).Perm
      (l'.insertionSort (fun e e' => newerBase e e' = true)) :=
    ((List.perm_insertionSort _ l).trans hperm).trans (List.perm_insertionSort _ l').symm
  refine List.Perm.eq_of_pairwise ?_ (List.pairwise_insertionSort _ l)
    (List.pairwise_insertionSort _ l') hsorted
  intro a b ha hb hab hba
  have ha : a ∈ l := (List.mem_insertionSort _).mp ha
  have hb : b ∈ l := hperm.mem_iff.mpr ((List.mem_insertionSort _).mp hb)
  exact List.inj_on_of_nodup_map hl ha hb (newerBase_antisymm hab hba)

/-- The search finds the same knowledge bases in stores that look the same. -/
theorem searchKnowledgeBases_eq (h : SameView user [] s s') :
    searchKnowledgeBases s user.id (groupIdsOf s user) = searchKnowledgeBases s' user.id
      (groupIdsOf s' user) := by
  have hvisible : ∀ (s : Store) id base, Visible s user [] id base ↔
    hasPermission s user.id (groupIdsOf s user) id base = true :=
    fun s id base => by rw [Visible, if_pos rfl]
  have hnodup :
    ∀ s : Store, (s.bases.entries.filter fun e =>
    hasPermission s user.id (groupIdsOf s user) e.1 e.2).Nodup :=
    fun s => (List.Nodup.of_map _ s.bases.nodup_keys).filter _
  rw [searchKnowledgeBases, searchKnowledgeBases]
  congr 1
  refine sorted_bases_eq ?_ ((List.perm_ext_iff_of_nodup (hnodup s) (hnodup s')).mpr fun e => ?_)
  · exact Assoc.nodup_keys_filter s.bases.nodup_keys _
  · rw [List.mem_filter, List.mem_filter, Dict.mem_entries_iff, Dict.mem_entries_iff]
    have hbase := h.bases e.1 e.2
    have hiff := h.visible e.1 e.2
    rw [hvisible, hvisible] at hiff
    rw [hvisible] at hbase
    constructor
    · rintro ⟨hget, hperm⟩
      exact ⟨(hbase hperm).mp hget, hiff.mp hperm⟩
    · rintro ⟨hget, hperm⟩
      exact ⟨(hbase (hiff.mpr hperm)).mpr hget, hiff.mpr hperm⟩

/-- In stores that look the same the same attached knowledge bases are readable. -/
theorem readable_eq (h : SameView user attached s s') (hattached : attached ≠ [])
    (hid : id ∈ (attached.filter (·.type = "collection")).map (·.id)) :
    readable s user id = readable s' user id := by
  refine Option.ext fun row => ?_
  have hvisible : Visible s user attached id row.2 ↔ _ := visible_attached hattached hid
  have hvisible' : Visible s' user attached id row.2 ↔ _ := visible_attached hattached hid
  have hiff := h.visible id row.2
  have hbase := h.bases id row.2
  rw [hvisible] at hbase
  rw [hvisible, hvisible'] at hiff
  rw [readable_eq_some, readable_eq_some, ← hiff]
  refine and_congr_right fun _ => ?_
  constructor
  · rintro ⟨hget, haccess⟩
    exact ⟨(hbase haccess).mp hget, haccess⟩
  · rintro ⟨hget, haccess⟩
    exact ⟨(hbase haccess).mpr hget, haccess⟩

/-- What a search finds may be read. -/
theorem hasAccess_of_hasPermission {base : KnowledgeBase} (huser : user.id ≠ "")
    (h : hasPermission s user.id (groupIdsOf s user) id base = true) :
    hasAccess s user id base = true := by
  rw [hasPermission, if_neg fun hnone => huser hnone.1, Bool.or_eq_true] at h
  simp only [hasAccess, Groups.hasAccess, Groups.userGroupIds, Option.getD_some, Bool.or_eq_true,
    decide_eq_true_eq]
  rcases h with h | h
  · obtain ⟨g, hg, hmatch⟩ := List.any_eq_true.mp h
    right
    refine List.any_eq_true.mpr ⟨g, hg, ?_⟩
    simp only [decide_eq_true_eq] at hmatch
    obtain ⟨htype, hid, hperm, hprincipal⟩ := hmatch
    simp only [Groups.AccessGrant.matchesUser, htype, hid, hperm, decide_true, Bool.true_and,
      Bool.or_eq_true, decide_eq_true_eq]
    rcases hprincipal with hany | ⟨-, huser'⟩ | hgroup
    · exact .inl (.inl hany)
    · exact .inl (.inr huser')
    · exact .inr hgroup
  · simp only [Bool.and_eq_true, decide_eq_true_eq] at h
    exact .inl (.inr h.2)

/-- What may be read and is attached, or found, is shown. -/
theorem readable_of_visible {base : KnowledgeBase} (huser : user.id ≠ "")
    (hget : s.bases.get? id = some base) (hvisible : Visible s user attached id base) :
    readable s user id = some (id, base) := by
  refine readable_eq_some.mpr ⟨rfl, hget, ?_⟩
  rw [Visible] at hvisible
  split_ifs at hvisible
  · exact hasAccess_of_hasPermission huser hvisible
  · exact hvisible.2

theorem mem_accessibleKbIds {kb : String × KnowledgeBase}
    (h : kb ∈ accessibleKbIds py s user attached none) :
    s.bases.get? kb.1 = some kb.2 ∧ Visible s user attached kb.1 kb.2 := by
  simp only [accessibleKbIds, Option.filter_none] at h
  split_ifs at h with hattached
  · obtain ⟨id, hid, hrow⟩ := List.mem_filterMap.mp h
    obtain ⟨rfl, hget, haccess⟩ := readable_eq_some.mp hrow
    exact ⟨hget, (visible_attached hattached (mem_order.mp hid)).mpr haccess⟩
  · have hmem := (List.mem_insertionSort _).mp (List.mem_of_mem_take h)
    obtain ⟨hentry, hperm⟩ := List.mem_filter.mp hmem
    rw [not_not] at hattached
    exact ⟨(Dict.mem_entries_iff _ _ _).mp hentry, by rwa [Visible, if_pos hattached]⟩

/-- Every knowledge base in scope is a visible one. -/
theorem visibleBase_of_mem {kb : String × KnowledgeBase}
    (h : kb ∈ accessibleKbIds py s user attached none) :
    VisibleBase s user attached kb.1 := ⟨kb.2, mem_accessibleKbIds h⟩

/-- In stores that look the same the same knowledge bases are in scope. -/
theorem accessibleKbIds_none_eq (h : SameView user attached s s') :
    accessibleKbIds py s user attached none = accessibleKbIds py s' user attached none := by
  simp only [accessibleKbIds, Option.filter_none]
  split_ifs with hattached
  · exact List.filterMap_congr fun id hid => readable_eq h hattached (mem_order.mp hid)
  · rw [not_not] at hattached
    subst hattached
    exact searchKnowledgeBases_eq h

/-- A single knowledge base among those shown. -/
theorem accessibleKbIds_some_eq (huser : user.id ≠ "") (h : SameView user attached s s')
    (hkb : VisibleBase s user attached kbId) :
    accessibleKbIds py s user attached (some kbId) =
      accessibleKbIds py s' user attached (some kbId) ∧
      ∀ kb ∈ accessibleKbIds py s user attached (some kbId), VisibleBase s user attached kb.1 := by
  obtain ⟨base, hget, hvisible⟩ := hkb
  have hread : readable s user kbId = some (kbId, base) := readable_of_visible huser hget hvisible
  have hread' : readable s' user kbId = some (kbId, base) :=
    readable_of_visible huser ((h.bases kbId base hvisible).mp hget)
      ((h.visible kbId base).mp hvisible)
  by_cases hempty : kbId = ""
  · have hnone :
      ∀ s : Store, accessibleKbIds py s user attached (some kbId) =
      accessibleKbIds py s user attached none := by
      intro s
      have hfilter :
        (some kbId).filter (fun id => decide (id ≠ "")) = none := by simp [Option.filter, hempty]
      simp only [accessibleKbIds, hfilter, Option.filter_none]
    rw [hnone, hnone]
    exact ⟨accessibleKbIds_none_eq h, fun kb hmem => visibleBase_of_mem hmem⟩
  · have hsome : (some kbId).filter (fun id => decide (id ≠ "")) = some kbId := by simp [hempty]
    have hshown : VisibleBase s user attached kbId := ⟨base, hget, hvisible⟩
    simp only [accessibleKbIds, hsome, hread, hread', true_and]
    intro kb hmem
    split_ifs at hmem
    · obtain rfl := List.mem_singleton.mp hmem
      exact hshown
    · cases hmem
    · obtain rfl := List.mem_singleton.mp hmem
      exact hshown

/-! ## Files and directories -/

/-- A visible knowledge base has the same files in stores that look the same. -/
theorem getFilesWithDirectoryIds_eq (h : SameView user attached s s')
    (hkb : VisibleBase s user attached kbId) :
    getFilesWithDirectoryIds s kbId = getFilesWithDirectoryIds s' kbId := by
  rw [getFilesWithDirectoryIds, getFilesWithDirectoryIds, ← h.links kbId hkb]
  refine List.filterMap_congr fun e he => ?_
  obtain ⟨he, hkbId⟩ := List.mem_filter.mp he
  rw [h.files e.2.fileId (.inl ⟨kbId, hkb, e, he, of_decide_eq_true hkbId, rfl⟩)]

theorem mem_getFilesWithDirectoryIds {f : String × File × Option String}
    (h : f ∈ getFilesWithDirectoryIds s kbId) :
    ∃ e ∈ s.tables.files.entries, e.2.knowledgeId = kbId ∧ e.2.fileId = f.1 ∧
      e.2.directoryId = f.2.2 ∧
      s.files.get? f.1 = some f.2.1 := by
  obtain ⟨e, he, hf⟩ := List.mem_filterMap.mp h
  obtain ⟨he, hkbId⟩ := List.mem_filter.mp he
  obtain ⟨file, hfile, rfl⟩ := Option.map_eq_some_iff.mp hf
  exact ⟨e, he, of_decide_eq_true hkbId, rfl, rfl, hfile⟩

/-- A visible knowledge base has the same directories in each place. -/
theorem getDirectories_eq (h : SameView user attached s s')
    (hkb : VisibleBase s user attached kbId) (parentId : Option String) :
    getDirectories s kbId parentId = getDirectories s' kbId parentId := by
  have hfilter : ∀ s : Store, ∀ parentId : Option String,
      s.tables.directories.entries.filter
        (fun e => decide (e.2.knowledgeId = kbId ∧ e.2.parentId = parentId)) =
        (s.tables.directories.entries.filter fun e => decide (e.2.knowledgeId = kbId)).filter
          fun e => decide (e.2.parentId = parentId) := by
    intro s parentId
    rw [List.filter_filter]
    refine List.filter_congr fun e _ => ?_
    rw [Bool.decide_and, Bool.and_comm]
  simp only [getDirectories, hfilter, h.directories kbId hkb]

/-- A visible knowledge base has the same directories. -/
theorem getAllDirectories_eq (h : SameView user attached s s')
    (hkb : VisibleBase s user attached kbId) :
    getAllDirectories s kbId = getAllDirectories s' kbId := by
  rw [getAllDirectories, getAllDirectories, h.directories kbId hkb]

/-- In stores that look the same a path leads to the same directory. -/
theorem resolveDirPath_eq (h : SameView user attached s s')
    (hkb : VisibleBase s user attached kbId) (path : Text) :
    resolveDirPath s path kbId = resolveDirPath s' path kbId := by
  have hchild : childNamed s kbId = childNamed s' kbId := by
    funext parentId name
    rw [childNamed, childNamed, getDirectories_eq h hkb]
  rw [resolveDirPath, resolveDirPath, hchild]

/-- In stores that look the same the same directories lie below one. -/
theorem descendantDirIds_eq (h : SameView user attached s s')
    (hkb : VisibleBase s user attached kbId) (dirId : String) :
    descendantDirIds s dirId kbId = descendantDirIds s' dirId kbId := by
  simp only [descendantDirIds, getDirectories_eq h hkb, getAllDirectories_eq h hkb]

/-- In stores that look the same the tree is the same. -/
theorem buildDirectoryTree_eq (h : SameView user attached s s')
    (hkb : VisibleBase s user attached kbId) :
    buildDirectoryTree s kbId = buildDirectoryTree s' kbId := by
  rw [buildDirectoryTree, buildDirectoryTree, getAllDirectories_eq h hkb,
    getFilesWithDirectoryIds_eq h hkb]

/-- The files of some knowledge bases and those attached by themselves. -/
theorem accessibleFiles_eq_of {knowledgeId : Option String} (h : SameView user attached s s')
    (hkbs : accessibleKbIds py s user attached knowledgeId =
      accessibleKbIds py s' user attached knowledgeId)
    (hvisible : ∀ kb ∈ accessibleKbIds py s user attached knowledgeId,
      VisibleBase s user attached kb.1) :
    accessibleFiles py s user attached knowledgeId =
      accessibleFiles py s' user attached knowledgeId := by
  have hbases : ∀ kb ∈ accessibleKbIds py s user attached knowledgeId,
      getFilesWithDirectoryIds s kb.1 = getFilesWithDirectoryIds s' kb.1 :=
    fun kb hkb => getFilesWithDirectoryIds_eq h (hvisible kb hkb)
  rw [accessibleFiles, accessibleFiles, ← hkbs]
  congr 1
  · exact List.flatMap_congr fun kb hkb => by rw [hbases kb hkb]
  · refine List.filterMap_congr fun id hid => ?_
    obtain ⟨a, ha, rfl⟩ := List.mem_map.mp (mem_order.mp hid)
    obtain ⟨ha, htype⟩ := List.mem_filter.mp ha
    rw [h.files a.id (.inr ⟨a, ha, of_decide_eq_true htype, rfl⟩)]

/-- In stores that look the same the same files are in scope. -/
theorem accessibleFiles_none_eq (h : SameView user attached s s') :
    accessibleFiles py s user attached none = accessibleFiles py s' user attached none :=
  accessibleFiles_eq_of h (accessibleKbIds_none_eq h) fun _ hkb => visibleBase_of_mem hkb

/-- In stores that look the same a knowledge base has the same files in scope. -/
theorem accessibleFiles_some_eq (huser : user.id ≠ "") (h : SameView user attached s s')
    (hkb : VisibleBase s user attached kbId) :
    accessibleFiles py s user attached (some kbId) =
      accessibleFiles py s' user attached (some kbId) :=
  accessibleFiles_eq_of h (accessibleKbIds_some_eq huser h hkb).1
    (accessibleKbIds_some_eq huser h hkb).2

/-- Whatever file is accessible is shown, and so is the knowledge base it is in. -/
theorem shown_of_accessible {f : FileInfo} (h : f ∈ accessibleFiles py s user attached none) :
    Shown s user attached f.id ∧ ∀ kb, f.knowledge = some kb →
      VisibleBase s user attached kb.1 := by
  rcases List.mem_append.mp h with h | h
  · obtain ⟨kb, hkb, hf⟩ := List.mem_flatMap.mp h
    obtain ⟨row, hrow, rfl⟩ := List.mem_map.mp hf
    obtain ⟨e, he, hkbId, hfileId, -, -⟩ := mem_getFilesWithDirectoryIds hrow
    have hvisible := visibleBase_of_mem hkb
    refine ⟨.inl ⟨kb.1, hvisible, e, he, hkbId, hfileId⟩, fun kb' hkb' => ?_⟩
    obtain rfl := Option.some.inj hkb'
    exact hvisible
  · obtain ⟨id, hid, hf⟩ := List.mem_filterMap.mp h
    obtain ⟨file, -, rfl⟩ := Option.map_eq_some_iff.mp hf
    obtain ⟨a, ha, rfl⟩ := List.mem_map.mp (mem_order.mp hid)
    obtain ⟨ha, htype⟩ := List.mem_filter.mp ha
    exact ⟨.inr ⟨a, ha, of_decide_eq_true htype, rfl⟩, fun kb hkb => by cases hkb⟩

/-- The knowledge bases that accessible files are in are shown. -/
theorem visible_of_mem_kbIdsOf (h : kbId ∈ kbIdsOf py (accessibleFiles py s user attached none)) :
    VisibleBase s user attached kbId := by
  obtain ⟨f, hf, hid⟩ := List.mem_filterMap.mp (mem_order.mp h)
  obtain ⟨hid, -⟩ := Option.filter_eq_some_iff.mp hid
  obtain ⟨kb, hkb, rfl⟩ := Option.map_eq_some_iff.mp hid
  exact (shown_of_accessible hf).2 kb hkb

/-! ## Files by reference -/

/-- A file that is shown has the same content in stores that look the same. -/
theorem fileWithData_eq (h : SameView user attached s s') (hid : Shown s user attached id)
    (knowledge : Option (String × String)) :
    fileWithData s id knowledge = fileWithData s' id knowledge := by
  rw [fileWithData, fileWithData, h.files id hid]

/-- A file with data resolves whatever knowledge base it is read from. -/
theorem fileWithData_isSome (s : Store) (id : String) (knowledge : Option (String × String)) :
    (fileWithData s id knowledge).isSome = ((s.files.get? id).bind File.data).isSome := by
  rw [fileWithData]
  cases s.files.get? id with
  | none => rfl
  | some file => cases hdata : file.data <;> simp [hdata]

/-- What was resolved keeps its id. -/
theorem id_of_fileWithData {knowledge : Option (String × String)} {r : Resolved}
    (h : fileWithData s id knowledge = some r) :
    r.id = id := by
  rw [fileWithData] at h
  obtain ⟨file, -, h⟩ := Option.bind_eq_some_iff.mp h
  obtain ⟨data, -, h⟩ := Option.bind_eq_some_iff.mp h
  exact (Option.some.inj h) ▸ rfl

theorem findSome?_congr {α β : Type} {f g : α → Option β} {l : List α} (h : ∀ a ∈ l, f a = g a) :
    l.findSome? f = l.findSome? g := by
  induction l with
  | nil => rfl
  | cons a l ih =>
      rw [List.findSome?_cons, List.findSome?_cons, h a List.mem_cons_self,
        ih fun b hb => h b (List.mem_cons_of_mem _ hb)]

/-- In stores that look the same a path leads to the same file. -/
theorem fileAtPath_eq (h : SameView user attached s s') (hkb : VisibleBase s user attached kbId)
    (dirPath filename : Text) :
    fileAtPath s (accessibleFiles py s user attached none) dirPath filename kbId =
      fileAtPath s' (accessibleFiles py s user attached none) dirPath filename kbId := by
  rw [fileAtPath, fileAtPath, resolveDirPath_eq h hkb]
  refine congrArg _ (funext fun dirId => ?_)
  split
  · next f hf =>
      have hmem : f ∈ accessibleFiles py s user attached none := by
        have : f ∈ [f] := List.mem_singleton_self f
        rw [← hf] at this
        exact (List.mem_filter.mp this).1
      exact fileWithData_eq h (shown_of_accessible hmem).1 _
  · rfl

/-- A reference leads both times to the same file, or nowhere. -/
theorem resolveFile_eq (h : SameView user attached s s') (ref : Text) :
    resolveFile py s user attached ref = resolveFile py s' user attached ref := by
  simp only [resolveFile, ← accessibleFiles_none_eq h]
  have hdata :
    (fileWithData s (String.ofList ref) none).isSome =
    (fileWithData s' (String.ofList ref) none).isSome := by
    rw [fileWithData_isSome, fileWithData_isSome, h.data]
  -- a reference that is the id of a file with data
  cases hs : fileWithData s (String.ofList ref) none with
  | some r =>
      rw [hs] at hdata
      obtain ⟨r', hs'⟩ := Option.isSome_iff_exists.mp hdata.symm
      simp only [hs']
      have hid : r.id = r'.id := (id_of_fileWithData hs).trans (id_of_fileWithData hs').symm
      by_cases hmem : r.id ∈ (accessibleFiles py s user attached none).map (·.id)
      · -- an accessible file is the same in both stores
        obtain ⟨f, hf, hfid⟩ := List.mem_map.mp hmem
        have hshown := (shown_of_accessible hf).1
        rw [hfid, id_of_fileWithData hs] at hshown
        have heq := fileWithData_eq h hshown none
        rw [hs, hs'] at heq
        rw [Option.some.inj heq]
      · rw [if_neg hmem, if_neg (hid ▸ hmem)]
  -- any other reference is looked for as a path and as a name, both among the accessible files
  | none =>
      rw [hs] at hdata
      have hs' : fileWithData s' (String.ofList ref) none = none :=
        Option.isNone_iff_eq_none.mp (by simpa using hdata.symm)
      simp only [hs']
      have hpath : (kbIdsOf py (accessibleFiles py s user attached none)).findSome? (fun kbId =>
            fileAtPath s (accessibleFiles py s user attached none)
              (rsplitSlash (stripSlashes ref)).1
              (rsplitSlash (stripSlashes ref)).2 kbId) =
          (kbIdsOf py (accessibleFiles py s user attached none)).findSome? fun kbId =>
            fileAtPath s' (accessibleFiles py s user attached none)
              (rsplitSlash (stripSlashes ref)).1
              (rsplitSlash (stripSlashes ref)).2 kbId :=
        findSome?_congr fun kbId hkb => fileAtPath_eq h (visible_of_mem_kbIdsOf hkb) _ _
      rw [hpath]
      split
      · rfl
      · split
        · rfl
        · next f hf =>
            have hmem : f ∈ accessibleFiles py s user attached none := by
              have : f ∈ [f] := List.mem_singleton_self f
              rw [← hf] at this
              exact (List.mem_filter.mp this).1
            rw [fileWithData_eq h (shown_of_accessible hmem).1]
        · rfl

/-! ## Commands -/

theorem mapM_congr {α β : Type} {m : Type → Type} [Monad m] [LawfulMonad m] {f g : α → m β}
    {l : List α} (h : ∀ a ∈ l, f a = g a) : l.mapM f = l.mapM g := by
  induction l with
  | nil => rfl
  | cons a l ih =>
      rw [List.mapM_cons, List.mapM_cons, h a List.mem_cons_self,
        ih fun b hb => h b (List.mem_cons_of_mem _ hb)]

/-- In stores that look the same the same files are attached directly. -/
theorem directFiles_eq (h : SameView user attached s s') :
    directFiles py s user attached = directFiles py s' user attached := by
  rw [directFiles, directFiles, accessibleFiles_none_eq h]

/-- `ls` lists a knowledge base alike in stores that look the same. -/
theorem lsBase_eq (huser : user.id ≠ "") (h : SameView user attached s s') (flat : Bool)
    (dirPath : Option Text) (flags : List Char) {kb : String × KnowledgeBase}
    (hkb : VisibleBase s user attached kb.1) :
    lsBase py s user attached flat dirPath flags kb =
      lsBase py s' user attached flat dirPath flags kb := by
  simp only [lsBase, buildDirectoryTree_eq h hkb, resolveDirPath_eq h hkb, getDirectories_eq h hkb,
    accessibleFiles_some_eq huser h hkb]

/-- `ls` answers alike in stores that look the same. -/
theorem kbLs_eq (huser : user.id ≠ "") (h : SameView user attached s s') (args : List Text)
    (flags : List Char) :
    kbLs py s user attached args flags = kbLs py s' user attached args flags := by
  have hmap : ∀ (kbs : List (String × KnowledgeBase)) flat dirPath,
      (∀ kb ∈ kbs, kb ∈ accessibleKbIds py s user attached none) →
        kbs.mapM (lsBase py s user attached flat dirPath flags) =
          kbs.mapM (lsBase py s' user attached flat dirPath flags) :=
    fun kbs flat dirPath hkbs => mapM_congr fun kb hkb =>
      lsBase_eq huser h flat dirPath flags (visibleBase_of_mem (hkbs kb hkb))
  simp only [kbLs, ← accessibleKbIds_none_eq h, ← directFiles_eq h]
  split
  · next path _ => rw [hmap _ _ _ fun kb hkb => (List.mem_filter.mp hkb).1]
  · rw [hmap _ _ _ fun kb hkb => hkb]

/-- In stores that look the same a reference names the same file. -/
theorem withFile_eq (h : SameView user attached s s') (ref : Text) :
    withFile py s user attached ref = withFile py s' user attached ref := by
  funext f
  rw [withFile, withFile, resolveFile_eq h]

/-- In stores that look the same a scope has the same directories. -/
theorem scopeDirIds_eq (h : SameView user attached s s') (dirScope : Text) :
    scopeDirIds py s (accessibleFiles py s user attached none) dirScope =
      scopeDirIds py s' (accessibleFiles py s user attached none) dirScope := by
  refine List.flatMap_congr fun kbId hkb => ?_
  have hvisible := visible_of_mem_kbIdsOf hkb
  rw [resolveDirPath_eq h hvisible]
  split
  · exact descendantDirIds_eq h hvisible _
  · rfl

/-- In stores that look the same a scope has the same files. -/
theorem filesUnder_eq (h : SameView user attached s s') (dirScope : Text) :
    filesUnder py s user attached dirScope = filesUnder py s' user attached dirScope := by
  rw [filesUnder, filesUnder, ← accessibleFiles_none_eq h, scopeDirIds_eq h]

/-- In stores that look the same `grep` looks into the same files. -/
theorem grepTargets_eq (h : SameView user attached s s') (pattern dirScope extFilter : Text) :
    grepTargets py limits s user attached pattern dirScope extFilter =
      grepTargets py limits s' user attached pattern dirScope extFilter := by
  rw [grepTargets, grepTargets, filesUnder_eq h, ← accessibleFiles_none_eq h, scopeDirIds_eq h]

/-- A scope narrows the files down. -/
theorem filesUnder_subset (dirScope : Text) :
    filesUnder py s user attached dirScope ⊆ accessibleFiles py s user attached none := by
  simp only [filesUnder]
  split_ifs
  · exact List.filter_subset_self _
  · exact List.Subset.refl _

/-- An extension narrows the files down. -/
theorem withExtension_subset (extFilter : Text) (files : List FileInfo) :
    withExtension extFilter files ⊆ files := by
  rw [withExtension]
  split_ifs
  · exact List.filter_subset_self _
  · exact List.Subset.refl _

/-- A search goes through accessible files only. -/
theorem mem_of_grepTargets {pattern dirScope extFilter : Text} {files : List FileInfo}
    (h : grepTargets py limits s user attached pattern dirScope extFilter = .ok files) :
    files ⊆ accessibleFiles py s user attached none := by
  simp only [grepTargets] at h
  split_ifs at h
  obtain rfl := Except.ok.inj h
  exact List.Subset.trans (withExtension_subset _ _) (filesUnder_subset _)

/-- Files in scope match alike. -/
theorem grepFiles_eq (h : SameView user attached s s') (pattern : Text) (flags : List Char)
    (search : Text → Bool) {files : List FileInfo}
    (hfiles : files ⊆ accessibleFiles py s user attached none) :
    grepFiles limits s pattern flags search files =
      grepFiles limits s' pattern flags search files := by
  have hmatches : fileMatches s search files = fileMatches s' search files := by
    refine List.filterMap_congr fun f hf => ?_
    rw [grepContent, grepContent, h.files f.id (shown_of_accessible (hfiles hf)).1]
  simp only [grepFiles, hmatches]

/-- `grep` answers alike in stores that look the same. -/
theorem kbGrep_eq (h : SameView user attached s s') (args : List Text) (flags : List Char)
    (piped : Option Text) :
    kbGrep py limits s user attached args flags piped =
      kbGrep py limits s' user attached args flags piped := by
  have hacross : ∀ pattern dirScope extFilter search,
      textOf (grepFiles limits s pattern flags search)
        (grepTargets py limits s user attached pattern dirScope extFilter) =
        textOf (grepFiles limits s' pattern flags search)
          (grepTargets py limits s' user attached pattern dirScope extFilter) := by
    intro pattern dirScope extFilter search
    rw [← grepTargets_eq h]
    cases htargets : grepTargets py limits s user attached pattern dirScope extFilter with
    | error text => rfl
    | ok files => exact grepFiles_eq h pattern flags search (mem_of_grepTargets htargets)
  simp only [kbGrep, hacross, resolveFile_eq h]

/-- `find` answers alike in stores that look the same. -/
theorem kbFind_eq (h : SameView user attached s s') (args : List Text) (flags : List Char) :
    kbFind py s user attached args flags = kbFind py s' user attached args flags := by
  have hfiles : ∀ flags dirScope pattern,
      findFiles py s user attached flags dirScope pattern =
        findFiles py s' user attached flags dirScope pattern := by
    intro flags dirScope pattern
    rw [findFiles, findFiles, filesUnder_eq h]
  unfold kbFind
  simp only [hfiles]

/-- `tree` answers alike in stores that look the same. -/
theorem kbTree_eq (h : SameView user attached s s') (args : List Text) (flags : List Char) :
    kbTree py s user attached args flags = kbTree py s' user attached args flags := by
  have hmap :
    ∀ dirScope, (accessibleKbIds py s user attached none).mapM (treeBase s dirScope flags) =
      (accessibleKbIds py s user attached none).mapM (treeBase s' dirScope flags) := by
    refine fun dirScope => mapM_congr fun kb hkb => ?_
    rw [treeBase, treeBase, buildDirectoryTree_eq h (visibleBase_of_mem hkb)]
  simp only [kbTree, ← accessibleKbIds_none_eq h, ← directFiles_eq h, hmap]

/-- Every command answers alike in stores that look the same. -/
theorem run_eq (huser : user.id ≠ "") (h : SameView user attached s s') (c : Command)
    (args : List Text) (flags : List Char) (piped : Option Text) :
    c.run py limits s user attached args flags piped =
      c.run py limits s' user attached args flags piped := by
  cases c with
  | ls => exact kbLs_eq huser h args flags
  | cat => simp only [Command.run, kbCat, withFile_eq h]
  | head => simp only [Command.run, kbHead, kbSome, withFile_eq h]
  | tail => simp only [Command.run, kbTail, kbSome, withFile_eq h]
  | grep => exact kbGrep_eq h args flags piped
  | find => exact congrArg Except.ok (kbFind_eq h args flags)
  | wc => simp only [Command.run, kbWc, withFile_eq h]
  | stat => simp only [Command.run, kbStat, withFile_eq h]
  | sed => simp only [Command.run, kbSed, withFile_eq h]
  | tree => exact kbTree_eq h args flags

/-- Every pipeline answers alike in stores that look the same. -/
theorem executePipeline_eq (huser : user.id ≠ "") (h : SameView user attached s s')
    (segments : List (List Text)) (piped : Option Text) :
    executePipeline py limits s user attached segments piped =
      executePipeline py limits s' user attached segments piped := by
  induction segments generalizing piped with
  | nil => rfl
  | cons tokens segments ih =>
      simp only [executePipeline, runSegment, run_eq huser h, ih]

/-- What a caller may not read has no influence on any command: stores that look the same to the
caller give the same answer. -/
theorem kbExec_confined (huser : user.id ≠ "") (h : SameView user attached s s') (command : Text) :
    kbExec py limits s user attached command = kbExec py limits s' user attached command := by
  simp only [kbExec, executePipeline_eq huser h]

/-- What is visible in the example. -/
theorem visible_ada {secret : Text} {base : KnowledgeBase} :
    Visible (sampleStore secret) ada [] id base ↔ base.userId = "ada" := by
  rw [Visible, if_pos rfl]
  simp [hasPermission, sampleStore, ada]
  exact decide_eq_true_iff

/-- The other user's file is out of reach. -/
theorem not_shown_ada {secret : Text} : ¬ Shown (sampleStore secret) ada [] "f2" := by
  rintro (⟨kbId, ⟨base, hget, hvisible⟩, e, he, rfl, hfile⟩ | ⟨a, ha, -⟩)
  · have he : e = ("r1", sampleLink "kb1" "f1" (some "d2")) ∨
      e = ("r2", sampleLink "kb2" "f2" none) := by
      simpa [sampleStore] using he
    rcases he with rfl | rfl
    · exact absurd hfile (by decide)
    · have hbase : base = ⟨"bob", "plans", "", 2⟩ := Option.some.inj (hget.symm.trans rfl)
      rw [visible_ada, hbase] at hvisible
      exact absurd hvisible (by decide)
  · cases ha

/-- The two example stores look the same to the user. -/
theorem sameView_ada (secret secret' : Text) :
    SameView ada [] (sampleStore secret) (sampleStore secret') where
  visible := fun _ _ => visible_ada.trans visible_ada.symm
  bases := fun _ _ _ => Iff.rfl
  directories := fun _ _ => rfl
  links := fun _ _ => rfl
  files := by
    intro id hshown
    have hid : id ≠ "f2" := by
      rintro rfl
      exact not_shown_ada hshown
    have hfalse : (id == "f2") = false := beq_eq_false_iff_ne.mpr hid
    simp only [sampleStore, Dict.get?, List.lookup_cons, hfalse]
  data := by
    intro id
    simp only [sampleStore, Dict.get?, List.lookup_cons]
    split
    · rfl
    · split <;> rfl

/-- A secret in a hidden file does not show. -/
theorem kbExec_confined_ada :
    kbExec samplePython ⟨30000, 200, 50⟩ (sampleStore "plan A".toList) ada [] "grep plan".toList =
    kbExec samplePython ⟨30000, 200, 50⟩ (sampleStore "plan B".toList) ada [] "grep plan".toList :=
  kbExec_confined (by decide) (sameView_ada _ _) _

end OpenWebUI.Knowledge
