import OpenWebUI.Knowledge.Sync

/-! # What a sync compares

On an orderly knowledge base, the paths a diff climbs to are those of the directory tree, its index
holds the files of the knowledge base, and its lists are the differences between the knowledge base
and the manifest.
-/

namespace OpenWebUI.Knowledge

open Py NamedForest

/-- A file of the knowledge base: the names down to its place, its own, its id and its checksum. -/
def At (s : Store) (kb : String) (path : List Text) (filename fileId : String)
    (checksum : Option String) : Prop :=
  ∃ k f file, s.tables.files.get? k = some f ∧ f.knowledgeId = kb ∧ f.fileId = fileId ∧
    PlacePath s.tables.directories kb path f.directoryId ∧ s.files.get? fileId = some file ∧
      file.filename = filename ∧
    file.fileHash = checksum

/-- Every link is one of a knowledge base and leads to a file. -/
def Stored (s : Store) : Prop :=
  ∀ k f, s.tables.files.get? k = some f → f.knowledgeId ∈ s.bases ∧
    ∃ file, s.files.get? f.fileId = some file

/-- A knowledge base in order: no foreign key is broken, its directories are well placed and
named, its files are told apart by place and name, and no upload to it is still being processed.
-/
structure Orderly (s : Store) (kb : String) : Prop where
  base : kb ∈ s.bases
  placed : Placed s.tables
  intact : Intact s.tables
  acyclic : Forest.Acyclic (parentOf s.tables.directories)
  plain : PlainNames s.tables.directories kb
  roots : RootsApart s.tables.directories kb
  stored : Stored s
  keys : ∀ path filename id id' checksum checksum', At s kb path filename id checksum →
    At s kb path filename id' checksum' → id = id'
  settled : ∀ id file, s.files.get? id = some file → file.uploadData.knowledgeId = some kb →
    file.data.bind FileData.status ∉ [some "pending", some "processing"]

/-- The manifest of a directory: every file once, with names that can stand in a path. -/
structure ValidManifest (manifest : List Entry) : Prop where
  keys : (manifest.map Entry.key).Nodup
  plain : ∀ e ∈ manifest, ∀ name ∈ partsOf '/' e.path, Plain '/' name
  names : ∀ e ∈ manifest, Plain '/' e.filename.toList
  checksums : ∀ e ∈ manifest, e.checksum ≠ ""

/-- The manifest has the file, with this checksum. -/
def Wanted (manifest : List Entry) (path : List Text) (filename : String)
    (checksum : Option String) : Prop :=
  ∃ e ∈ manifest, e.path = joined '/' path ∧ e.filename = filename ∧ checksum = some e.checksum

/-- A file of the manifest lies in the directory or below it. -/
def Required (manifest : List Entry) (path : List Text) : Prop :=
  path ≠ [] ∧ ∃ e ∈ manifest, path <+: partsOf '/' e.path

variable {s : Store} {kb id : String} {path path' : List Text} {filename : String}
    {checksum : Option String}
  {manifest : List Entry} {paths : Dict String Text} {e : Entry} {now : ℤ}

/-- A knowledge base in order is well named. -/
theorem Orderly.wellNamed (h : Orderly s kb) : WellNamed s.tables.directories kb :=
  h.placed.directories.wellNamed h.intact.parents h.acyclic h.plain h.roots

/-- The directories above a required one are required. -/
theorem Required.front {rest : List Text} (h : Required manifest (path ++ rest))
    (hne : path ≠ []) : Required manifest path := by
  obtain ⟨-, e, he, hbegins⟩ := h
  exact ⟨hne, e, he, (List.prefix_append path rest).trans hbegins⟩

/-- No name on the path of a file has a slash. -/
theorem At.plain (h : At s kb path filename id checksum)
    (hnamed : WellNamed s.tables.directories kb) :
    ∀ name ∈ path, Plain '/' name := by
  obtain ⟨k, f, file, -, -, -, hpath, -⟩ := h
  exact hpath.plain hnamed

theorem PlacePath.unique {place : Option String} {dirs : Directories}
    (h : PlacePath dirs kb path place) (h' : PlacePath dirs kb path' place) : path = path' := by
  cases place with
  | none => exact Eq.trans h (Eq.symm h')
  | some d => exact IsPath.unique h h'

/-- A file of the knowledge base is at one place. -/
theorem At.unique (h : Placed s.tables) {filename' : String} {checksum' : Option String}
    (hat : At s kb path filename id checksum) (hat' : At s kb path' filename' id checksum') :
    path = path' ∧ filename = filename' ∧ checksum = checksum' := by
  obtain ⟨k, f, file, hf, hkb, hfile, hpath, hget, rfl, rfl⟩ := hat
  obtain ⟨k', f', file', hf', hkb', hfile', hpath', hget', rfl, rfl⟩ := hat'
  obtain rfl := h.once k k' f f' hf hf' (hkb.trans hkb'.symm) (hfile.trans hfile'.symm)
  obtain rfl := Option.some.inj (hf.symm.trans hf')
  obtain rfl := Option.some.inj (hget.symm.trans hget')
  exact ⟨hpath.unique hpath', rfl, rfl⟩

/-! ## Paths of directories -/

/-- The loop over the parents collects the names down to the directory. -/
theorem segmentsUp_eq (h : WellNamed s.tables.directories kb) {parentId : Option String}
    (hpath : PlacePath s.tables.directories kb path parentId) {fuel : ℕ}
    (hfuel : path.length < fuel) (segments : List Text) :
    segmentsUp (getAllDirectories s kb) fuel parentId segments = some (path ++ segments) := by
  cases parentId with
  | none =>
      rw [show path = [] from hpath] at hfuel ⊢
      obtain ⟨fuel, rfl⟩ : ∃ k, fuel = k + 1 := ⟨fuel - 1, by simp at hfuel; omega⟩
      rfl
  | some p =>
      have hp : IsPath (nodeIn s.tables.directories kb) path p := hpath
      -- the loop is a climb among the directories of the knowledge base
      have hclimb : ∀ (fuel : ℕ) (place : Option String) (segments : List Text),
          (∀ p, place = some p → ∃ above, nodeIn s.tables.directories kb p = some above) →
          segmentsUp (getAllDirectories s kb) fuel place segments =
            climb (nodeIn s.tables.directories kb) fuel place segments := by
        intro fuel
        induction fuel with
        | zero => exact fun _ _ _ => rfl
        | succ fuel ih =>
            intro place segments hplace
            cases place with
            | none => rfl
            | some p =>
                obtain ⟨above, habove⟩ := hplace p rfl
                obtain ⟨d, hd, hkb, hplace'⟩ := nodeIn_eq_some.mp habove
                have hne : p ≠ "" := fun heq => h.ids (heq ▸ mem_of_nodeIn habove)
                have hlookup : (getAllDirectories s kb).lookup p = some d := by
                  rw [lookup_getAllDirectories, hd, Option.filter_some, if_pos (decide_eq_true hkb)]
                rw [segmentsUp, climb, Option.filter_some, if_pos (decide_eq_true hne), habove]
                simp only [hlookup]
                rw [← hplace']
                refine ih d.parentId _ fun q hq => ?_
                rw [hplace'.symm, hq] at habove
                exact h.closed p q _ habove
      rw [hclimb fuel _ _ fun q hq => Option.some.inj hq ▸ hp.exists_place]
      exact hp.climb_eq hfuel segments

/-- A loop that stores a computed value for every key. -/
theorem foldlM_set {α β ν : Type} [DecidableEq β] {f : β × α → Option ν} {g : β × α → ν}
    {l : List (β × α)} (h : ∀ d ∈ l, f d = some (g d)) (m : Dict β ν) :
    l.foldlM (fun m d => (f d).map (m.set d.1)) m = some
      ((l.map fun d => (d.1, g d)).foldl (fun m p => m.set p.1 p.2) m) := by
  induction l generalizing m with
  | nil => rfl
  | cons d l ih =>
      rw [List.foldlM_cons, h d List.mem_cons_self]
      exact ih (fun d hd => h d (List.mem_cons_of_mem _ hd)) _

/-- The paths of the directories are found. -/
theorem exists_directoryPaths (h : WellNamed s.tables.directories kb) :
    ∃ paths, directoryPathById s kb = some paths ∧
    ∀ id text, paths.get? id = some text ↔ TextPath s.tables.directories kb text id := by
  let up := fun d : String × Directory =>
    (segmentsUp (getAllDirectories s kb) ((getAllDirectories s kb).length + 1) d.2.parentId
    [d.2.name.toList]).map (joined '/')
  -- each directory has a path, and the walk up its parents finds it
  have hup :
    ∀ d ∈ getAllDirectories s kb, ∃ path, IsPath (nodeIn s.tables.directories kb) path d.1 ∧
      up d = some (joined '/' path) := by
    intro d hd
    obtain ⟨hget, hkb⟩ := mem_getAllDirectories.mp hd
    have hnode := nodeIn_eq_some.mpr ⟨d.2, hget, hkb, rfl⟩
    obtain ⟨path, hpath⟩ := h.exists_path hnode
    have hlength := length_le_directories hpath
    obtain ⟨front, hfront, rfl⟩ : ∃ front, PlacePath s.tables.directories kb front d.2.parentId ∧
        path = front ++ [d.2.name.toList] := by
      cases hpath with
      | root hroot =>
          obtain hplace := Option.some.inj (hnode.symm.trans hroot)
          obtain ⟨hparent, hname⟩ := Prod.ext_iff.mp hplace
          exact ⟨[], by rw [show d.2.parentId = none from hparent]; rfl,
            by rw [show d.2.name.toList = _ from hname]; rfl⟩
      | @child _ p n front hchild hp =>
          obtain hplace := Option.some.inj (hnode.symm.trans hchild)
          obtain ⟨hparent, hname⟩ := Prod.ext_iff.mp hplace
          exact ⟨front, by rw [show d.2.parentId = some p from hparent]; exact hp,
            by rw [show d.2.name.toList = n from hname]⟩
    refine ⟨_, hpath, ?_⟩
    rw [List.length_append, List.length_singleton] at hlength
    show Option.map _ (segmentsUp _ _ _ _) = _
    rw [segmentsUp_eq h hfront (by omega)]
    rfl
  -- the loop fills a map with these paths
  have hfold :
    directoryPathById s kb = (getAllDirectories s kb).foldlM
    (fun m d => (up d).map (m.set d.1)) ∅ := by
    rw [directoryPathById]
    simp only [up, Option.map_map]
    rfl
  have hval : ∀ d ∈ getAllDirectories s kb, up d = some ((up d).getD []) := by
    intro d hd
    obtain ⟨path, -, hsome⟩ := hup d hd
    rw [hsome]
    rfl
  refine ⟨_, hfold.trans (foldlM_set hval ∅), fun id text => ?_⟩
  -- the ids are apart, so every one keeps its path
  have hnodup :
    (Assoc.keys ((getAllDirectories s kb).map fun d => (d.1, (up d).getD []))).Nodup := by
    rw [Assoc.keys, List.map_map]
    exact nodup_getAllDirectories
  have hentries := Dict.entries_ofList hnodup
  rw [← Dict.mem_entries_iff]
  show (id, text) ∈ (Dict.ofList
    ((getAllDirectories s kb).map fun d => (d.1, (up d).getD []))).entries ↔ _
  rw [hentries, List.mem_map]
  constructor
  · rintro ⟨d, hd, hpair⟩
    obtain ⟨rfl, rfl⟩ := Prod.mk.inj hpair
    obtain ⟨path, hpath, hsome⟩ := hup d hd
    exact ⟨path, hpath, by rw [hsome]; rfl⟩
  · rintro ⟨path, hpath, rfl⟩
    obtain ⟨place, hplace⟩ := hpath.exists_place
    obtain ⟨d, hd, hkb, -⟩ := nodeIn_eq_some.mp hplace
    have hin := mem_getAllDirectories.mpr ⟨hd, hkb⟩
    obtain ⟨path', hpath', hsome⟩ := hup (id, d) hin
    exact ⟨(id, d), hin, by rw [hsome, hpath.unique hpath']; rfl⟩

/-- Both dictionaries of a diff hold the paths of the directories. -/
def HoldsPaths (s : Store) (kb : String) (paths : Dict String Text) : Prop :=
  ∀ id text, paths.get? id = some text ↔ TextPath s.tables.directories kb text id

/-- A path leads back to its directory. -/
theorem HoldsPaths.idByPath (h : HoldsPaths s kb paths)
    (hnamed : WellNamed s.tables.directories kb) (text : Text) :
    (directoryIdByPath paths).get? text = some id ↔ TextPath s.tables.directories kb text id := by
  rw [← h]
  refine get?_swapped (fun id id' text hid hid' => ?_) text
  obtain ⟨path, hpath, rfl⟩ := (h id text).mp hid
  obtain ⟨path', hpath', htext⟩ := (h id' _).mp hid'
  exact hnamed.joined_injective hpath hpath' htext

/-- The text of a place is its path. -/
theorem HoldsPaths.placeText_eq (h : HoldsPaths s kb paths)
    (hnamed : WellNamed s.tables.directories kb) {place : Option String}
    (hpath : PlacePath s.tables.directories kb path place) :
    placeText paths place = joined '/' path := by
  cases place with
  | none =>
      rw [show path = [] from hpath]
      rfl
  | some d =>
      obtain ⟨above, habove⟩ := IsPath.exists_place hpath
      have hne : d ≠ "" := fun heq => hnamed.ids (heq ▸ mem_of_nodeIn habove)
      rw [placeText, Option.filter_some, if_pos (decide_eq_true hne), Option.bind_some,
        (h d _).mpr ⟨path, hpath, rfl⟩]
      rfl

/-! ## The index -/

/-- The rows of the query are the files of the knowledge base. -/
theorem at_iff_row : At s kb path filename id checksum ↔ ∃ row ∈ getFilesWithDirectoryIds s kb,
    row.1 = id ∧ PlacePath s.tables.directories kb path row.2.2 ∧ row.2.1.filename = filename ∧
      row.2.1.fileHash = checksum := by
  constructor
  · rintro ⟨k, f, file, hf, hkb, hfile, hpath, hget, hname, hhash⟩
    refine ⟨(f.fileId, file, f.directoryId), ?_, hfile, hpath, hname, hhash⟩
    refine List.mem_filterMap.mpr ⟨(k, f),
      List.mem_filter.mpr ⟨(Dict.mem_entries_iff _ _ _).mpr hf, decide_eq_true hkb⟩, ?_⟩
    show (s.files.get? f.fileId).map _ = _
    rw [hfile, hget]
    rfl
  · rintro ⟨row, hrow, rfl, hpath, hname, hhash⟩
    obtain ⟨entry, hentry, hkb, hfile, hdir, hget⟩ := mem_getFilesWithDirectoryIds hrow
    exact ⟨entry.1, entry.2, row.2.1, (Dict.mem_entries_iff _ _ _).mp hentry, hkb, hfile,
      hdir ▸ hpath, hget,
      hname, hhash⟩

/-- Every linked file has a path. -/
theorem Orderly.exists_placePath (h : Orderly s kb) {row : String × File × Option String}
    (hrow : row ∈ getFilesWithDirectoryIds s kb) :
    ∃ path, PlacePath s.tables.directories kb path row.2.2 := by
  obtain ⟨entry, hentry, hkb, -, hdir, -⟩ := mem_getFilesWithDirectoryIds hrow
  cases hplace : row.2.2 with
  | none => exact ⟨[], rfl⟩
  | some d =>
      obtain ⟨dir, hdirGet, hdirKb⟩ := h.placed.exists_directory h.intact
        ((Dict.mem_entries_iff _ _ _).mp hentry) (hdir.trans hplace)
      exact h.wellNamed.exists_path (nodeIn_eq_some.mpr ⟨dir, hdirGet, hdirKb.trans hkb, rfl⟩)

/-- The index holds the files of the knowledge base by the texts of their paths. -/
theorem Orderly.index_iff (h : Orderly s kb) (hpaths : HoldsPaths s kb paths) {text : Text} :
    (indexedFiles s kb paths).get? (text, filename) = some (id, checksum) ↔
      ∃ path, text = joined '/' path ∧ At s kb path filename id checksum := by
  let entry := fun f : String × File × Option String =>
      ((placeText paths f.2.2, f.2.1.filename), (f.1, f.2.1.fileHash))
  have hindex :
    indexedFiles s kb paths = Dict.ofList ((getFilesWithDirectoryIds s kb).map entry) := by
    rw [indexedFiles, Dict.ofList, List.foldl_map]
    rfl
  obtain ⟨hval, hkey⟩ := Dict.ofList_spec ((getFilesWithDirectoryIds s kb).map entry)
    (text, filename)
  have hlisted :
    ∀ {id checksum}, ((text, filename), (id, checksum)) ∈
    (getFilesWithDirectoryIds s kb).map entry →
      ∃ path, text = joined '/' path ∧ At s kb path filename id checksum := by
    intro id checksum hmem
    obtain ⟨row, hrow, heq⟩ := List.mem_map.mp hmem
    obtain ⟨hkeys, hvals⟩ := Prod.mk.inj heq
    obtain ⟨htext, hname⟩ := Prod.mk.inj hkeys
    obtain ⟨hid, hhash⟩ := Prod.mk.inj hvals
    obtain ⟨path, hpath⟩ := h.exists_placePath hrow
    exact ⟨path, htext.symm.trans (hpaths.placeText_eq h.wellNamed hpath),
      at_iff_row.mpr ⟨row, hrow, hid, hpath, hname, hhash⟩⟩
  rw [hindex]
  constructor
  · exact fun hget => hlisted (hval _ hget)
  · rintro ⟨path, rfl, hat⟩
    obtain ⟨row, hrow, rfl, hpath, hname, hhash⟩ := at_iff_row.mp hat
    have hmem :
      ((joined '/' path, filename), (row.1, checksum)) ∈
      (getFilesWithDirectoryIds s kb).map entry :=
      List.mem_map.mpr ⟨row, hrow,
        by rw [← hname, ← hhash, ← hpaths.placeText_eq h.wellNamed hpath]⟩
    obtain ⟨v, hv⟩ := (Dict.mem_iff_exists _ _).mp (hkey ⟨_, hmem⟩)
    -- whichever row was stored last, it is the same file
    obtain ⟨path', htext, hat'⟩ := hlisted (hval v hv)
    have hpaths' : path = path' := by
      rw [← partsOf_joined (hat.plain h.wellNamed), htext, partsOf_joined (hat'.plain h.wellNamed)]
    subst hpaths'
    have hid : row.1 = v.1 := h.keys _ _ _ _ _ _ hat hat'
    have hchecksum : checksum = v.2 := ((hid ▸ hat).unique h.placed hat').2.2
    rw [hv, hid, hchecksum]

/-! ## The lists of the diff -/

/-- In order nothing is pending. -/
theorem Orderly.pendingKeys_eq (h : Orderly s kb) : pendingKeys s kb now paths = [] := by
  have hnone : pendingFiles s kb = [] := by
    refine List.filter_eq_nil_iff.mpr fun e he hpending => ?_
    obtain ⟨hkb, hstatus, -⟩ := of_decide_eq_true hpending
    exact h.settled e.1 e.2 ((Dict.mem_entries_iff _ _ _).mp he) hkb hstatus
  rw [pendingKeys, hnone]
  rfl

/-- An entry is added, unchanged or modified. -/
theorem Orderly.changeOf_cases (h : Orderly s kb) (hpaths : HoldsPaths s kb paths) (now : ℤ)
    (e : Entry) :
    (changeOf (indexedFiles s kb paths) (pendingKeys s kb now paths) e = .added ∧
      ∀ path, e.path = joined '/' path → ∀ id checksum, ¬ At s kb path e.filename id checksum) ∨
    ∃ path id checksum, e.path = joined '/' path ∧ At s kb path e.filename id checksum ∧
      (checksum ≠ some e.checksum ∧
          changeOf (indexedFiles s kb paths) (pendingKeys s kb now paths) e = .modified id ∨
        checksum = some e.checksum ∧
          changeOf (indexedFiles s kb paths) (pendingKeys s kb now paths) e = .unmodified) := by
  rw [h.pendingKeys_eq, changeOf]
  cases hget : (indexedFiles s kb paths).get? e.key with
  | none =>
      refine .inl ⟨if_neg List.not_mem_nil, fun path hpath id checksum hat => ?_⟩
      rw [Entry.key, (h.index_iff hpaths).mpr ⟨path, hpath, hat⟩] at hget
      cases hget
  | some found =>
      obtain ⟨id, checksum⟩ := found
      obtain ⟨path, hpath, hat⟩ := (h.index_iff hpaths).mp hget
      refine .inr ⟨path, id, checksum, hpath, hat, ?_⟩
      by_cases hsame : checksum = some e.checksum
      · exact .inr ⟨hsame, if_neg (not_not.mpr hsame)⟩
      · exact .inl ⟨hsame, if_pos hsame⟩

/-- A required path is what the manifest's paths begin with. -/
theorem mem_requiredPaths {text : Text} :
    text ∈ requiredPaths manifest ↔ ∃ path, text = joined '/' path ∧ Required manifest path := by
  rw [requiredPaths, List.mem_flatMap]
  constructor
  · rintro ⟨e, he, htext⟩
    split_ifs at htext with hne
    · obtain ⟨depth, hdepth, rfl⟩ := List.mem_map.mp htext
      have hparts : partsOf '/' e.path = e.path.splitOn '/' := if_neg hne
      refine ⟨_, rfl, fun hnil => ?_, e, he, hparts ▸ List.take_prefix _ _⟩
      rcases List.take_eq_nil_iff.mp hnil with hzero | hsplit
      · omega
      · exact List.splitOn_ne_nil _ _ hsplit
    · cases htext
  · rintro ⟨path, rfl, hpath, e, he, hbegins⟩
    have hne : e.path ≠ [] := by
      intro hnil
      rw [hnil, show partsOf '/' ([] : Text) = [] from if_pos rfl, List.prefix_nil] at hbegins
      exact hpath hbegins
    have hparts : partsOf '/' e.path = e.path.splitOn '/' := if_neg hne
    rw [hparts] at hbegins
    refine ⟨e, he, ?_⟩
    rw [if_pos hne]
    have hlength := hbegins.length_le
    have hpositive : 0 < path.length := List.length_pos_iff.mpr hpath
    refine List.mem_map.mpr ⟨path.length - 1, List.mem_range.mpr (by omega), ?_⟩
    rw [Nat.sub_add_cancel hpositive, ← List.prefix_iff_eq_take.mp hbegins]

/-- No name in a valid manifest has a slash. -/
theorem Required.plain (hvalid : ValidManifest manifest) (h : Required manifest path) :
    ∀ name ∈ path, Plain '/' name := by
  obtain ⟨-, e, he, hbegins⟩ := h
  exact fun name hname => hvalid.plain e he name (hbegins.subset hname)

/-- A plain path is required as a text when it is required as names. -/
theorem joined_mem_requiredPaths (hvalid : ValidManifest manifest)
    (hplain : ∀ name ∈ path, Plain '/' name) :
    joined '/' path ∈ requiredPaths manifest ↔ Required manifest path := by
  rw [mem_requiredPaths]
  constructor
  · rintro ⟨path', heq, hrequired⟩
    rwa [← partsOf_joined hplain, heq, partsOf_joined (hrequired.plain hvalid)]
  · exact fun h => ⟨path, rfl, h⟩

/-- What the client is told: files to remove, directories to remove and to create, files to
upload. -/
structure DiffSpec (s : Store) (kb : String) (manifest : List Entry) (diff : Diff) : Prop where
  stale : ∀ id, id ∈ diff.deleted.map Prod.fst ++ diff.modified.map Prod.snd ↔
    ∃ path filename checksum, At s kb path filename id checksum ∧
      ¬ Wanted manifest path filename checksum
  upload : ∀ e ∈ manifest, (e.key ∈ diff.added ∨ e.key ∈ diff.modified.map Prod.fst) ↔
    ∀ path, e.path = joined '/' path → ∀ id, ¬ At s kb path e.filename id (some e.checksum)
  rmdir : ∀ id, id ∈ diff.rmdir ↔ ∃ path, IsPath (nodeIn s.tables.directories kb) path id ∧
    ¬ Required manifest path
  mkdir : ∀ text, text ∈ diff.mkdir ↔ ∃ path, text = joined '/' path ∧ Required manifest path ∧
    ∀ id, ¬ IsPath (nodeIn s.tables.directories kb) path id
  mkdirOnce : diff.mkdir.Nodup
  parentsFirst : diff.mkdir.Pairwise fun p q => p.count '/' ≤ q.count '/'
  map : ∀ text id, diff.directoryMap.get? text = some id ↔ TextPath s.tables.directories kb text id

/-- A wanted file has its checksum from the manifest. -/
theorem Wanted.entry (hvalid : ValidManifest manifest) {e : Entry} (he : e ∈ manifest)
    (hpath : e.path = joined '/' path) (hname : e.filename = filename)
    (h : Wanted manifest path filename checksum) : checksum = some e.checksum := by
  obtain ⟨e', he', hpath', hname', hchecksum⟩ := h
  have heq : e = e' := List.inj_on_of_nodup_map hvalid.keys he he'
    (Prod.ext (hpath.trans hpath'.symm) (hname.trans hname'.symm))
  rw [heq, hchecksum]

/-- Only a modified file has a stale id. -/
theorem staleFileId_eq_some {c : Change} : c.staleFileId = some id ↔ c = .modified id := by
  cases c with
  | modified stale => exact ⟨fun h => congrArg _ (Option.some.inj h),
      fun h => congrArg _ (Change.modified.inj h)⟩
  | added => exact ⟨fun h => (Option.some_ne_none _ h.symm).elim, fun h => by cases h⟩
  | unmodified => exact ⟨fun h => (Option.some_ne_none _ h.symm).elim, fun h => by cases h⟩

/-- There is one file at a place. -/
theorem Orderly.at_unique (h : Orderly s kb) {id' : String} {checksum' : Option String}
    (hat : At s kb path filename id checksum) (hat' : At s kb path' filename id' checksum')
    (htext : joined '/' path = joined '/' path') :
    path = path' ∧ id = id' ∧ checksum = checksum' := by
  have hpath : path = path' := by
    rw [← partsOf_joined (hat.plain h.wellNamed), htext, partsOf_joined (hat'.plain h.wellNamed)]
  subst hpath
  have hid : id = id' := h.keys _ _ _ _ _ _ hat hat'
  exact ⟨rfl, hid, ((hid ▸ hat).unique h.placed hat').2.2⟩

/-- An entry is new where the knowledge base has no file at its place. -/
theorem Orderly.changeOf_eq_added (h : Orderly s kb) (hpaths : HoldsPaths s kb paths) (now : ℤ)
    (e : Entry) :
    changeOf (indexedFiles s kb paths) (pendingKeys s kb now paths) e = .added ↔
      ∀ path, e.path = joined '/' path → ∀ id checksum, ¬ At s kb path e.filename id checksum := by
  rcases h.changeOf_cases hpaths now e with ⟨hadded, hnone⟩ | ⟨path, id, checksum,
    hpath, hat, hcases⟩
  · exact iff_of_true hadded hnone
  · refine iff_of_false (fun hadded => ?_) fun hnone => hnone path hpath id checksum hat
    rcases hcases with ⟨-, hmod⟩ | ⟨-, hunmod⟩
    · exact absurd (hmod.symm.trans hadded) fun hfalse => by cases hfalse
    · exact absurd (hunmod.symm.trans hadded) fun hfalse => by cases hfalse

/-- An entry is modified where the file at its place has another checksum. -/
theorem Orderly.changeOf_eq_modified (h : Orderly s kb) (hpaths : HoldsPaths s kb paths) (now : ℤ)
    (e : Entry) :
    changeOf (indexedFiles s kb paths) (pendingKeys s kb now paths) e = .modified id ↔
      ∃ path checksum, e.path = joined '/' path ∧ At s kb path e.filename id checksum ∧
        checksum ≠ some e.checksum := by
  rcases h.changeOf_cases hpaths now e with ⟨hadded, hnone⟩ | ⟨path, id', checksum,
    hpath, hat, hcases⟩
  · refine iff_of_false (fun hmod => ?_) ?_
    · exact absurd (hadded.symm.trans hmod) fun hfalse => by cases hfalse
    · rintro ⟨path, checksum, hpath, hat, -⟩
      exact hnone path hpath id checksum hat
  · rcases hcases with ⟨hne, hmod⟩ | ⟨hsame, hunmod⟩
    · rw [hmod, Change.modified.injEq]
      constructor
      · rintro rfl
        exact ⟨path, checksum, hpath, hat, hne⟩
      · rintro ⟨path', checksum', hpath', hat', -⟩
        exact (h.at_unique hat hat' (hpath.symm.trans hpath')).2.1
    · refine iff_of_false (fun hmod => ?_) ?_
      · exact absurd (hunmod.symm.trans hmod) fun hfalse => by cases hfalse
      · rintro ⟨path', checksum', hpath', hat', hne⟩
        exact hne ((h.at_unique hat hat' (hpath.symm.trans hpath')).2.2 ▸ hsame)

/-- Deleted are the files whose place and name the manifest does not have. -/
theorem Orderly.mem_deleted (h : Orderly s kb) (hpaths : HoldsPaths s kb paths) :
    (∃ f ∈ (indexedFiles s kb paths).entries, f.1 ∉ manifest.map Entry.key ∧ f.2.1 = id) ↔
      ∃ path filename checksum, At s kb path filename id checksum ∧
        (joined '/' path, filename) ∉ manifest.map Entry.key := by
  constructor
  · rintro ⟨⟨⟨text, filename⟩, id', checksum⟩, hin, hnot, rfl⟩
    obtain ⟨path, rfl, hat⟩ := (h.index_iff hpaths).mp ((Dict.mem_entries_iff _ _ _).mp hin)
    exact ⟨path, filename, checksum, hat, hnot⟩
  · rintro ⟨path, filename, checksum, hat, hnot⟩
    have hget := (h.index_iff hpaths).mpr ⟨path, rfl, hat⟩
    exact ⟨((joined '/' path, filename), (id, checksum)),
      (Dict.mem_entries_iff _ _ _).mpr hget, hnot, rfl⟩

/-- Deleted and modified files together are those the manifest does not want. -/
theorem Orderly.stale_iff (h : Orderly s kb) (hvalid : ValidManifest manifest)
    (hpaths : HoldsPaths s kb paths) (now : ℤ) :
    ((∃ f ∈ (indexedFiles s kb paths).entries, f.1 ∉ manifest.map Entry.key ∧ f.2.1 = id) ∨
      ∃ e ∈ manifest, changeOf (indexedFiles s kb paths) (pendingKeys s kb now paths) e =
        .modified id) ↔
      ∃ path filename checksum, At s kb path filename id checksum ∧
        ¬ Wanted manifest path filename checksum := by
  rw [h.mem_deleted hpaths]
  constructor
  · rintro (⟨path, filename, checksum, hat, hnot⟩ | ⟨e, he, hmod⟩)
    · refine ⟨path, filename, checksum, hat, ?_⟩
      rintro ⟨e, he, hpath, hname, -⟩
      exact hnot (List.mem_map.mpr ⟨e, he, Prod.ext hpath hname⟩)
    · obtain ⟨path, checksum, hpath, hat, hne⟩ := (h.changeOf_eq_modified hpaths now e).mp hmod
      exact ⟨path, e.filename, checksum, hat,
        fun hwanted => hne (hwanted.entry hvalid he hpath rfl)⟩
  · rintro ⟨path, filename, checksum, hat, hnot⟩
    by_cases hkey : (joined '/' path, filename) ∈ manifest.map Entry.key
    · right
      obtain ⟨e, he, hkeys⟩ := List.mem_map.mp hkey
      obtain ⟨hpath, rfl⟩ := Prod.mk.inj hkeys
      refine ⟨e, he, (h.changeOf_eq_modified hpaths now e).mpr ⟨path, checksum, hpath, hat,
        fun hsame => ?_⟩⟩
      exact hnot ⟨e, he, hpath, rfl, hsame⟩
    · exact .inl ⟨path, filename, checksum, hat, hkey⟩

/-- Uploaded are the entries that the knowledge base does not have with their checksum. -/
theorem Orderly.upload_iff (h : Orderly s kb) (hpaths : HoldsPaths s kb paths) (now : ℤ)
    (e : Entry) :
    (changeOf (indexedFiles s kb paths) (pendingKeys s kb now paths) e = .added ∨
      ∃ id, changeOf (indexedFiles s kb paths) (pendingKeys s kb now paths) e = .modified id) ↔
      ∀ path, e.path = joined '/' path → ∀ id, ¬ At s kb path e.filename id (some e.checksum) := by
  rw [h.changeOf_eq_added hpaths]
  constructor
  · rintro (hnone | ⟨id, hmod⟩) path hpath id' hat
    · exact hnone path hpath id' _ hat
    · obtain ⟨path', checksum, hpath', hat', hne⟩ := (h.changeOf_eq_modified hpaths now e).mp hmod
      exact hne (h.at_unique hat' hat (hpath'.symm.trans hpath)).2.2
  · intro hnone
    by_cases hfound : ∃ path id checksum, e.path = joined '/' path ∧
      At s kb path e.filename id checksum
    · obtain ⟨path, id, checksum, hpath, hat⟩ := hfound
      refine .inr ⟨id, (h.changeOf_eq_modified hpaths now e).mpr ⟨path, checksum, hpath, hat,
        fun hsame => ?_⟩⟩
      exact hnone path hpath id (hsame ▸ hat)
    · exact .inl fun path hpath id checksum hat => hfound ⟨path, id, checksum, hpath, hat⟩

/-- A list of an entry's key, or of its key with something else, tells the entries of the
manifest apart. -/
theorem ValidManifest.key_mem_iff (hvalid : ValidManifest manifest) {e : Entry} (he : e ∈ manifest)
    {q : Entry → Prop} : (∃ e' ∈ manifest, q e' ∧ e'.key = e.key) ↔ q e := by
  constructor
  · rintro ⟨e', he', hq, hkey⟩
    rwa [← List.inj_on_of_nodup_map hvalid.keys he' he hkey]
  · exact fun hq => ⟨e, he, hq, rfl⟩

/-- The paths in the map are those of the directories. -/
theorem HoldsPaths.mem_idByPath (hpaths : HoldsPaths s kb paths)
    (hnamed : WellNamed s.tables.directories kb) (hplain : ∀ name ∈ path, Plain '/' name) :
    joined '/' path ∈ directoryIdByPath paths ↔
      ∃ id, IsPath (nodeIn s.tables.directories kb) path id := by
  rw [Dict.mem_iff_exists]
  refine exists_congr fun id => ?_
  rw [hpaths.idByPath hnamed]
  constructor
  · rintro ⟨path', hpath', heq⟩
    rwa [← partsOf_joined hplain, heq, partsOf_joined (hnamed.plain_path hpath')]
  · exact fun hpath => ⟨path, hpath, rfl⟩

/-- An order lists what it was given. -/
theorem SetOrder.mem_order (sets : SetOrder) {texts : List Text} {text : Text} :
    text ∈ sets.order texts ↔ text ∈ texts :=
  (sets.order_perm texts).mem_iff.trans List.mem_dedup

/-- The lists of a diff are the differences between the knowledge base and the manifest. -/
theorem Orderly.exists_diff (h : Orderly s kb) (hvalid : ValidManifest manifest) (sets : SetOrder)
    (now : ℤ) :
    ∃ diff, syncDiff sets s kb now manifest = some diff ∧ DiffSpec s kb manifest diff := by
  obtain ⟨paths, hpathById, hholds⟩ := exists_directoryPaths h.wellNamed
  have hpaths : HoldsPaths s kb paths := hholds
  have hnamed := h.wellNamed
  refine ⟨_, by rw [syncDiff, hpathById]; rfl, ?_⟩
  refine ⟨fun id => ?_, fun e he => ?_, fun id => ?_, fun text => ?_, ?_, ?_, fun text id =>
    hpaths.idByPath hnamed text⟩
  -- deleted: the files not wanted, and those to be replaced
  · rw [← h.stale_iff hvalid hpaths now, List.mem_append]
    simp only [List.mem_map, List.mem_filter, List.mem_filterMap, Option.map_eq_some_iff,
      staleFileId_eq_some, decide_eq_true_eq]
    refine or_congr ?_ ?_
    · constructor
      · rintro ⟨_, ⟨f, ⟨hf, hnot⟩, rfl⟩, rfl⟩
        exact ⟨f, hf, hnot, rfl⟩
      · rintro ⟨f, hf, hnot, rfl⟩
        exact ⟨_, ⟨f, ⟨hf, hnot⟩, rfl⟩, rfl⟩
    · constructor
      · rintro ⟨_, ⟨e, he, id, hmod, rfl⟩, rfl⟩
        exact ⟨e, he, hmod⟩
      · rintro ⟨e, he, hmod⟩
        exact ⟨_, ⟨e, he, id, hmod, rfl⟩, rfl⟩
  -- uploaded: the entries added, and those modified
  · rw [← h.upload_iff hpaths now e]
    let change := changeOf (indexedFiles s kb paths) (pendingKeys s kb now paths)
    refine or_congr (Iff.trans ?_ (hvalid.key_mem_iff (q := fun e => change e = .added) he))
      (Iff.trans ?_ (hvalid.key_mem_iff (q := fun e => ∃ id, change e = .modified id) he))
    · simp only [List.mem_map, List.mem_filter, decide_eq_true_eq, and_assoc]
      rfl
    · simp only [List.mem_map, List.mem_filterMap, Option.map_eq_some_iff, staleFileId_eq_some]
      constructor
      · rintro ⟨_, ⟨e', he', id, hmod, rfl⟩, hkey⟩
        exact ⟨e', he', ⟨id, hmod⟩, hkey⟩
      · rintro ⟨e', he', ⟨id, hmod⟩, hkey⟩
        exact ⟨_, ⟨e', he', id, hmod, rfl⟩, hkey⟩
  -- removed: the directories no entry is below
  · rw [List.mem_filterMap]
    constructor
    · rintro ⟨text, htext, hid⟩
      obtain ⟨-, hnot⟩ := List.mem_filter.mp (sets.mem_order.mp htext)
      obtain ⟨path, hpath, rfl⟩ := (hpaths.idByPath hnamed text).mp hid
      refine ⟨path, hpath, fun hrequired => of_decide_eq_true hnot ?_⟩
      exact (joined_mem_requiredPaths hvalid (hnamed.plain_path hpath)).mpr hrequired
    · rintro ⟨path, hpath, hnot⟩
      have hget := (hpaths.idByPath hnamed (joined '/' path)).mpr ⟨path, hpath, rfl⟩
      refine ⟨joined '/' path, sets.mem_order.mpr
        (List.mem_filter.mpr ⟨Dict.mem_of_get? hget, decide_eq_true fun hin => ?_⟩), hget⟩
      exact hnot ((joined_mem_requiredPaths hvalid (hnamed.plain_path hpath)).mp hin)
  -- made: the missing directories, each once and the shorter path first
  · rw [List.mem_insertionSort, List.mem_filter, sets.mem_order, mem_requiredPaths]
    constructor
    · rintro ⟨⟨path, rfl, hrequired⟩, hnot⟩
      refine ⟨path, rfl, hrequired, fun id hpath => of_decide_eq_true hnot ?_⟩
      exact (hpaths.mem_idByPath hnamed (hrequired.plain hvalid)).mpr ⟨id, hpath⟩
    · rintro ⟨path, rfl, hrequired, hnone⟩
      refine ⟨⟨path, rfl, hrequired⟩, decide_eq_true fun hin => ?_⟩
      obtain ⟨id, hpath⟩ := (hpaths.mem_idByPath hnamed (hrequired.plain hvalid)).mp hin
      exact hnone id hpath
  · refine (List.perm_insertionSort _ _).nodup_iff.mpr (List.Nodup.filter _ ?_)
    exact (sets.order_perm _).nodup_iff.mpr (List.nodup_dedup _)
  · have htotal : Std.Total fun p q : Text => p.count '/' ≤ q.count '/' :=
      ⟨fun p q => Nat.le_total _ _⟩
    have htrans : IsTrans Text fun p q => p.count '/' ≤ q.count '/' := ⟨fun _ _ _ => Nat.le_trans⟩
    exact List.pairwise_insertionSort _ _

end OpenWebUI.Knowledge
