import OpenWebUI.Knowledge.SyncCleanup

/-! # A sync mirrors the local directory

After the cleanup the missing directories are created, each under a parent that is there by then,
and the uploads put new and changed files in place. What comes out is in order again, so the next
sync may start from it: it finds nothing to do but the uploads that have failed.
-/

namespace OpenWebUI.Knowledge

open Py NamedForest

variable {fk : Bool} {s s' t : Store} {tables : Tables} {kb id : String} {path front : List Text}
    {filename : String} {checksum : Option String}
  {manifest : List Entry} {user : Caller} {retention : Bool} {now : ℤ} {dirs : Directories}
  {row : Directory}
  {newId : Text → String} {outcome : Entry → Outcome} {map : Dict Text String}
  {made texts : List Text}

/-! ## One directory more -/

/-- The directories of a knowledge base in order. -/
structure Arranged (tables : Tables) (kb : String) : Prop where
  placed : Placed tables
  intact : Intact tables
  acyclic : Forest.Acyclic (parentOf tables.directories)
  plain : PlainNames tables.directories kb
  roots : RootsApart tables.directories kb

/-- A knowledge base in order is arranged. -/
theorem Orderly.arranged (h : Orderly s kb) : Arranged s.tables kb :=
  ⟨h.placed, h.intact, h.acyclic, h.plain, h.roots⟩

/-- An arranged one is well named. -/
theorem Arranged.wellNamed (h : Arranged tables kb) : WellNamed tables.directories kb :=
  h.placed.directories.wellNamed h.intact.parents h.acyclic h.plain h.roots

/-- A directory's path ends in its name. -/
theorem placePath_iff {n : Text} :
    (∃ place, nodeIn dirs kb id = some (place, n) ∧ PlacePath dirs kb front place) ↔
    IsPath (nodeIn dirs kb) (front ++ [n]) id := by
  rw [isPath_append_singleton]
  constructor
  · rintro ⟨_ | p, hnode, hplace⟩
    · exact .inl ⟨hplace, hnode⟩
    · exact .inr ⟨p, hnode, hplace⟩
  · rintro (⟨hnil, hnode⟩ | ⟨p, hnode, hp⟩)
    · exact ⟨none, hnode, hnil⟩
    · exact ⟨some p, hnode, hp⟩

/-- The parent of a place is a directory of the knowledge base. -/
theorem PlacePath.exists_parent {place : Option String} (h : PlacePath dirs kb front place)
    (p : String) (hp : place = some p) :
    ∃ d, dirs.get? p = some d ∧ d.knowledgeId = kb := by
  subst hp
  obtain ⟨above, habove⟩ := IsPath.exists_place h
  obtain ⟨d, hd, hkb, -⟩ := nodeIn_eq_some.mp habove
  exact ⟨d, hd, hkb⟩

/-- A directory is created at a path where none is, and nothing else changes. -/
theorem Arranged.createDirectory (h : Arranged tables kb) (fk : Bool)
    (hid : id ∉ tables.directories) (hne : id ≠ "") (hkb : row.knowledgeId = kb)
    (hplace : PlacePath tables.directories kb front row.parentId)
    (hplain : Plain '/' row.name.toList)
    (hnew : ∀ d, ¬ IsPath (nodeIn tables.directories kb) (front ++ [row.name.toList]) d) :
    let dirs := tables.directories.set id row
    createDirectory fk tables.directories id row = (dirs, some row) ∧
      Arranged ⟨dirs, tables.files⟩ kb ∧
      ∀ path d, IsPath (nodeIn dirs kb) path d ↔
        IsPath (nodeIn tables.directories kb) path d ∨ d = id ∧
          path = front ++ [row.name.toList] := by
  have hparent : ∀ p, row.parentId = some p →
      ∃ d, tables.directories.get? p = some d ∧ d.knowledgeId = row.knowledgeId := by
    rw [hkb]
    exact hplace.exists_parent
  have hin : ∀ p, row.parentId = some p → p ∈ tables.directories := fun p hp => by
    obtain ⟨d, hd, -⟩ := hparent p hp
    exact Dict.mem_of_get? hd
  -- a directory with this parent and name would be at the path
  have hfree : ∀ c d, tables.directories.get? c = some d → d.knowledgeId = kb →
      d.parentId = row.parentId → d.name ≠ row.name := by
    intro c d hd hdkb hdp hname
    refine hnew c (placePath_iff.mp ⟨row.parentId, ?_, hplace⟩)
    exact nodeIn_eq_some.mpr ⟨d, hd, hdkb, by rw [hdp, hname]⟩
  have hdup : duplicate tables.directories id row = false := by
    refine Bool.eq_false_iff.mpr fun hdup => ?_
    obtain ⟨p, hp, c, d, -, hd, hdkb, hdp, hname⟩ := duplicate_iff.mp hdup
    exact hfree c d hd (hdkb.trans hkb) (hdp.trans hp.symm) hname
  -- the id is new, so nothing points to it yet
  have hunmentioned : ¬ Mentioned tables id := fun hx => hid (hx.mem h.intact)
  have hplaced : Placed ⟨tables.directories.set id row, tables.files⟩ := by
    refine h.placed.set hne (fun hx => absurd hx hunmentioned) (fun p above hp habove => ?_) hdup
    obtain ⟨d, hd, hdkb⟩ := hparent p hp
    rwa [Option.some.inj (habove.symm.trans hd)]
  have hacyclic : Forest.Acyclic (parentOf (tables.directories.set id row)) :=
    acyclic_set h.acyclic (fun c hc => hunmentioned (.inl ⟨c, hc⟩)) fun hself => hid (hin id hself)
  refine ⟨?_, ⟨hplaced, h.intact.set hin, hacyclic, fun k d hd hdkb => ?_,
    fun c c' d d' hd hd' hdkb hdkb' hp hp' hname => ?_⟩, fun path d => ?_⟩
  -- none of the three refusals applies
  · rw [Knowledge.createDirectory, if_neg]
    rintro (hmem | hdup' | hmissing)
    · exact hid hmem
    · rw [hdup] at hdup'
      cases hdup'
    · rw [parentMissing_eq_false.mpr fun _ => hin] at hmissing
      cases hmissing
  · rw [Dict.get?_set] at hd
    split_ifs at hd
    · exact Option.some.inj hd ▸ hplain
    · exact h.plain k d hd hdkb
  · rw [Dict.get?_set] at hd hd'
    split_ifs at hd hd' with hc hc' hc'
    · exact hc.trans hc'.symm
    · obtain rfl := Option.some.inj hd
      exact absurd hname.symm (hfree c' d' hd' hdkb' (hp'.trans hp.symm))
    · obtain rfl := Option.some.inj hd'
      exact absurd hname (hfree c d hd hdkb (hp.trans hp'.symm))
    · exact h.roots c c' d d' hd hd' hdkb hdkb' hp hp' hname
  -- the new directory has no child, so it adds one path
  · have hnode : nodeIn tables.directories kb id = none := by
      refine Option.eq_none_iff_forall_not_mem.mpr fun place hmem => hid (mem_of_nodeIn hmem)
    have hset :
        nodeIn (tables.directories.set id row) kb id = some (row.parentId, row.name.toList) :=
      nodeIn_eq_some.mpr ⟨row, Dict.get?_set_self _ _ _, hkb, rfl⟩
    rw [isPath_leaf hnode hset (fun y hy => by rw [nodeIn, nodeIn, Dict.get?_set_ne _ _ hy])
      (fun y n hy => ?_) fun hself => hid (hin id hself)]
    · refine or_congr_right (and_congr_right fun _ => ?_)
      constructor
      · rintro ⟨front', rfl, hroot | ⟨p, hp, hpath⟩⟩
        · rw [show row.parentId = none from hroot.1] at hplace
          rw [hroot.2, show front = [] from hplace]
        · rw [show row.parentId = some p from hp] at hplace
          rw [hpath.unique hplace]
      · rintro rfl
        refine ⟨front, rfl, ?_⟩
        cases hp : row.parentId with
        | none =>
            rw [hp] at hplace
            exact .inl ⟨rfl, hplace⟩
        | some p =>
            rw [hp] at hplace
            exact .inr ⟨p, rfl, hplace⟩
    · obtain ⟨place, habove⟩ := h.wellNamed.closed y id n hy
      rw [hnode] at habove
      cases habove

/-! ## Creating the missing directories -/

/-- The ids drawn for directories are new and different. -/
structure FreshDirectories (s : Store) (newId : Text → String) : Prop where
  new : ∀ text, newId text ∉ s.tables.directories ∧ newId text ≠ ""
  apart : Function.Injective newId

/-- Directories were made at the paths in `made`, and the client has their ids. -/
structure Grown (s t : Store) (kb : String) (manifest : List Entry) (newId : Text → String)
    (map : Dict Text String)
    (made : List Text) : Prop where
  bases : t.bases = s.bases
  files : t.files = s.files
  links : t.tables.files = s.tables.files
  arranged : Arranged t.tables kb
  paths : ∀ path d, IsPath (nodeIn t.tables.directories kb) path d ↔
    IsPath (nodeIn s.tables.directories kb) path d ∨
      ∃ text ∈ made, path = partsOf '/' text ∧ d = newId text
  keeps : ∀ k row, s.tables.directories.get? k = some row → t.tables.directories.get? k = some row
  ids : ∀ k, k ∈ t.tables.directories → k ∈ s.tables.directories ∨ ∃ text ∈ made, k = newId text
  required : ∀ text ∈ made, Required manifest (partsOf '/' text)
  map : ∀ path, Required manifest path → ∀ d, map.get? (joined '/' path) = some d ↔
    IsPath (nodeIn t.tables.directories kb) path d

/-- A place with a path is accepted for an upload. -/
theorem verifyDirectory_of_placePath (h : WellNamed dirs kb) {place : Option String}
    (hplace : PlacePath dirs kb path place) :
    verifyDirectory dirs kb place = true ∧ place.filter (· ≠ "") = place := by
  cases place with
  | none => exact ⟨rfl, rfl⟩
  | some p =>
      obtain ⟨d, hd, hkb⟩ := hplace.exists_parent p rfl
      have hne : p ≠ "" := fun heq => h.ids (heq ▸ Dict.mem_of_get? hd)
      have hfilter : (some p).filter (· ≠ "") = some p :=
        Option.filter_some_pos (decide_eq_true hne)
      refine ⟨?_, hfilter⟩
      rw [verifyDirectory, hfilter, Option.all_some, hd]
      exact decide_eq_true hkb

/-- The text of a path is longer than the text of its front. -/
theorem count_joined_front (name : Text) (hne : front ≠ []) :
    (joined '/' front).count '/' < (joined '/' (front ++ [name])).count '/' := by
  rw [joined_append_singleton hne, List.count_append, List.count_cons_self]
  omega

/-- The names of a required path have no slash. -/
theorem Required.mem_plain (hvalid : ValidManifest manifest) {name : Text}
    (h : Required manifest (front ++ [name])) :
    (∀ name ∈ front, Plain '/' name) ∧ Plain '/' name := by
  have hplain := h.plain hvalid
  exact ⟨fun n hn => hplain n (List.mem_append_left _ hn),
    hplain name (List.mem_append_right _ List.mem_cons_self)⟩

/-- One request to create a directory, when its parent is there. -/
theorem Grown.createMissing (h : Grown s t kb manifest newId map made) (fk : Bool) (user : Caller)
    (now : ℤ) (hvalid : ValidManifest manifest) {name : Text}
    (hrequired : Required manifest (front ++ [name]))
    (hnew : ∀ d, ¬ IsPath (nodeIn t.tables.directories kb) (front ++ [name]) d)
    (hparent : front ≠ [] → ∃ p, IsPath (nodeIn t.tables.directories kb) front p)
    (hid : newId (joined '/' (front ++ [name])) ∉ t.tables.directories)
    (hne : newId (joined '/' (front ++ [name])) ≠ "") :
    ∃ t' map', Knowledge.createMissing fk user kb now newId (t, map)
      (joined '/' (front ++ [name])) = some (t', map') ∧
      Grown s t' kb manifest newId map' (joined '/' (front ++ [name]) :: made) := by
  have hplain := hrequired.plain hvalid
  have hnonempty : front ++ [name] ≠ [] :=
    List.append_ne_nil_of_right_ne_nil _ (List.cons_ne_nil _ _)
  have hsplit : (joined '/' (front ++ [name])).splitOn '/' = front ++ [name] :=
    splitOn_joined hnonempty hplain
  have hparts : partsOf '/' (joined '/' (front ++ [name])) = front ++ [name] :=
    partsOf_joined hplain
  let text := joined '/' (front ++ [name])
  -- the parent the client names is where the front of the path leads
  obtain ⟨place, hplaceId, hplace⟩ : ∃ place,
      (if joined '/' front ≠ [] then map.get? (joined '/' front) else none) = place ∧
      PlacePath t.tables.directories kb front place := by
    rcases eq_or_ne front [] with rfl | hfront
    · exact ⟨none, if_neg (not_not.mpr rfl), rfl⟩
    · obtain ⟨p, hp⟩ := hparent hfront
      have hget := (h.map front (hrequired.front hfront) p).mpr hp
      exact ⟨some p,
        by rw [if_pos (joined_ends hfront (hrequired.mem_plain hvalid).1).2.2, hget], hp⟩
  have hname : (String.ofList name).toList = name := String.toList_ofList
  let row : Directory := ⟨kb, place, String.ofList name, user.id, now, now⟩
  obtain ⟨hcreate, harranged, hpaths⟩ :=
    h.arranged.createDirectory fk hid hne (rfl : row.knowledgeId = kb) hplace
    (hname.symm ▸ (hrequired.mem_plain hvalid).2) (hname.symm ▸ hnew)
  rw [hname] at hpaths
  let dirs' := t.tables.directories.set (newId text) row
  refine ⟨{ t with tables := { t.tables with directories := dirs' } },
    map.set text (newId text), ?_, h.bases,
    h.files, h.links, harranged, fun path d => ?_, fun k row hrow => ?_, fun k hk => ?_,
      fun made' hmade => ?_, fun path hpath d => ?_⟩
  -- the directory is made under this parent
  · rw [Knowledge.createMissing]
    dsimp only
    rw [hsplit, List.dropLast_concat, List.getLast?_concat, Option.getD_some, hplaceId,
      if_pos (verifyDirectory_of_placePath h.arranged.wellNamed hplace).1, hcreate]
    rfl
  · rw [hpaths, h.paths, or_assoc]
    refine or_congr_right ?_
    constructor
    · rintro (⟨made', hmade, hboth⟩ | ⟨rfl, rfl⟩)
      · exact ⟨made', List.mem_cons_of_mem _ hmade, hboth⟩
      · exact ⟨text, List.mem_cons_self, hparts.symm, rfl⟩
    · rintro ⟨made', hmade, rfl, rfl⟩
      rcases List.mem_cons.mp hmade with rfl | hmade
      · exact .inr ⟨rfl, hparts⟩
      · exact .inl ⟨made', hmade, rfl, rfl⟩
  -- the rows there were are kept
  · show (t.tables.directories.set _ _).get? k = some row
    rw [Dict.get?_set_ne]
    · exact h.keeps k row hrow
    · rintro rfl
      exact hid (Dict.mem_of_get? (h.keeps _ row hrow))
  · obtain ⟨row, hrow⟩ := (Dict.mem_iff_exists _ _).mp hk
    rw [Dict.get?_set] at hrow
    split_ifs at hrow with heq
    · exact .inr ⟨text, List.mem_cons_self, heq⟩
    · rcases h.ids k (Dict.mem_of_get? hrow) with hold | ⟨made', hmade, rfl⟩
      · exact .inl hold
      · exact .inr ⟨made', List.mem_cons_of_mem _ hmade, rfl⟩
  · rcases List.mem_cons.mp hmade with rfl | hmade
    · rwa [hparts]
    · exact h.required made' hmade
  -- the map knows the new directory, and the others as before
  · rw [hpaths, ← h.map path hpath, Dict.get?_set]
    by_cases hsame : path = front ++ [name]
    · subst hsame
      have hnone : map.get? text = none := by
        refine Option.eq_none_iff_forall_not_mem.mpr fun d' hd' => hnew d' ?_
        exact (h.map _ hpath d').mp hd'
      rw [if_pos rfl, hnone, Option.some.injEq]
      constructor
      · exact fun heq => .inr ⟨heq.symm, rfl⟩
      · rintro (hnever | ⟨rfl, -⟩)
        · cases hnever
        · rfl
    · have hother : joined '/' path ≠ text := fun heq => hsame (by
        rw [← partsOf_joined (hpath.plain hvalid), heq, hparts])
      rw [if_neg hother]
      exact (or_iff_left fun hboth => hsame hboth.2).symm

/-- All requests in turn: parents come first, and in the end every required directory is there. -/
theorem Grown.createMissings (h : Grown s t kb manifest newId map made)
    (hvalid : ValidManifest manifest) (hfresh : FreshDirectories s newId)
    (hmissing : ∀ text ∈ texts, ∃ path, text = joined '/' path ∧ Required manifest path ∧
      ∀ d, ¬ IsPath (nodeIn s.tables.directories kb) path d)
    (honce : texts.Nodup) (hnotYet : ∀ text ∈ texts, text ∉ made)
    (horder : texts.Pairwise fun p q => p.count '/' ≤ q.count '/')
    (hcover : ∀ path, Required manifest path →
      (∃ d, IsPath (nodeIn t.tables.directories kb) path d) ∨ joined '/' path ∈ texts) :
    ∃ t' map' made', texts.foldlM (Knowledge.createMissing fk user kb now newId) (t, map) =
      some (t', map') ∧
      Grown s t' kb manifest newId map' made' ∧
      ∀ path, Required manifest path → ∃ d, IsPath (nodeIn t'.tables.directories kb) path d := by
  induction texts generalizing t map made with
  | nil => exact ⟨t, map, made, rfl, h,
      fun path hpath => (hcover path hpath).resolve_right List.not_mem_nil⟩
  | cons text texts ih =>
      obtain ⟨path, rfl, hrequired, hnone⟩ := hmissing text List.mem_cons_self
      obtain ⟨hfirst, horder'⟩ := List.pairwise_cons.mp horder
      obtain ⟨hnotIn, honce'⟩ := List.nodup_cons.mp honce
      obtain ⟨front, name, rfl⟩ : ∃ front name, path = front ++ [name] := by
        rcases List.eq_nil_or_concat path with rfl | ⟨front, name, heq⟩
        · exact absurd rfl hrequired.1
        · exact ⟨front, name, heq.trans List.concat_eq_append⟩
      -- what was made so far has other paths
      have hnew : ∀ d, ¬ IsPath (nodeIn t.tables.directories kb) (front ++ [name]) d := by
        intro d hd
        rcases (h.paths _ d).mp hd with hold | ⟨made', hmade, hparts, -⟩
        · exact hnone d hold
        · rw [hparts, joined_partsOf] at hnotYet
          exact hnotYet made' List.mem_cons_self hmade
      have hparent : front ≠ [] → ∃ p, IsPath (nodeIn t.tables.directories kb) front p := by
        intro hfront
        refine (hcover front (hrequired.front hfront)).resolve_right fun hlater => ?_
        -- a parent still to be made has fewer slashes, and would have come first
        have hcount := count_joined_front name hfront
        rcases List.mem_cons.mp hlater with heq | hin
        · rw [heq] at hcount
          omega
        · exact absurd (hfirst _ hin) (by omega)
      have hid : newId (joined '/' (front ++ [name])) ∉ t.tables.directories := by
        intro hmem
        rcases h.ids _ hmem with hold | ⟨made', hmade, heq⟩
        · exact (hfresh.new _).1 hold
        · exact hnotYet _ List.mem_cons_self (hfresh.apart heq ▸ hmade)
      obtain ⟨t₁, map₁, hstep, hgrown⟩ :=
        h.createMissing fk user now hvalid hrequired hnew hparent hid
        (hfresh.new _).2
      -- no text is made twice
      have hnotYet' : ∀ text ∈ texts, text ∉ joined '/' (front ++ [name]) :: made := by
        intro text htext hin
        rcases List.mem_cons.mp hin with rfl | hin
        · exact hnotIn htext
        · exact hnotYet text (List.mem_cons_of_mem _ htext) hin
      -- what the rest of the list does not make is there
      have hcover' : ∀ path, Required manifest path →
          (∃ d, IsPath (nodeIn t₁.tables.directories kb) path d) ∨ joined '/' path ∈ texts := by
        intro path hpath
        rcases hcover path hpath with ⟨d, hd⟩ | hin
        · refine .inl ⟨d, (hgrown.paths path d).mpr ?_⟩
          rcases (h.paths path d).mp hd with hold | ⟨made', hmade, hboth⟩
          · exact .inl hold
          · exact .inr ⟨made', List.mem_cons_of_mem _ hmade, hboth⟩
        · rcases List.mem_cons.mp hin with heq | hin
          · refine .inl ⟨_, (hgrown.paths path _).mpr (.inr ⟨_, List.mem_cons_self, ?_, rfl⟩)⟩
            rw [← heq, partsOf_joined (hpath.plain hvalid)]
          · exact .inr hin
      obtain ⟨t', map', made', hrest, hresult⟩ := ih hgrown
        (fun text htext => hmissing text (List.mem_cons_of_mem _ htext)) honce' hnotYet'
          horder' hcover'
      exact ⟨t', map', made', by rw [List.foldlM_cons, hstep]; exact hrest, hresult⟩

/-! ## Uploads -/

/-- A plain file name is its own basename. -/
theorem basename_of_plain {filename : String} (h : Plain '/' filename.toList) :
    basename filename = filename := by
  have hall : filename.toList.rtakeWhile (· ≠ '/') = filename.toList :=
    List.rtakeWhile_eq_self_iff.mpr fun c hc => decide_eq_true fun heq => h.2 (heq ▸ hc)
  rw [basename, hall, String.ofList_toList]

/-- What an upload puts into the knowledge base. -/
def Arrives (outcome : Entry → Outcome) (e : Entry) (path : List Text) (filename id : String)
    (checksum : Option String) : Prop :=
  (outcome e).ending = .linked ∧ path = partsOf '/' e.path ∧ filename = e.filename ∧
    id = (outcome e).fileId ∧
    checksum = some e.checksum

/-- The ids drawn for files and their links are new and different. -/
structure FreshFiles (s : Store) (entries : List Entry) (outcome : Entry → Outcome) : Prop where
  files : ∀ e ∈ entries, s.files.get? (outcome e).fileId = none
  filesApart : ∀ e ∈ entries, ∀ e' ∈ entries, (outcome e).fileId = (outcome e').fileId → e = e'
  links : ∀ e ∈ entries, s.tables.files.get? (outcome e).linkId = none
  linksApart : ∀ e ∈ entries, ∀ e' ∈ entries, (outcome e).linkId = (outcome e').linkId → e = e'

/-- After an upload. -/
structure Uploaded (s t : Store) (kb : String) (outcome : Entry → Outcome) (e : Entry) : Prop where
  orderly : Orderly t kb
  bases : t.bases = s.bases
  directories : t.tables.directories = s.tables.directories
  arrives : ∀ path filename id checksum, At t kb path filename id checksum ↔
    At s kb path filename id checksum ∨ Arrives outcome e path filename id checksum
  files : ∀ id, id ≠ (outcome e).fileId → t.files.get? id = s.files.get? id
  links : ∀ k, k ≠ (outcome e).linkId → t.tables.files.get? k = s.tables.files.get? k

/-- A file that is not linked, with a new id for the link and a directory that is there. -/
theorem addFileToKnowledge_eq_set (fk : Bool) {link : KnowledgeFile}
    (hid : tables.files.get? id = none)
    (hunlinked : ∀ k f, tables.files.get? k = some f → f.fileId ≠ link.fileId)
    (hplace : ∀ d, link.directoryId = some d → d ∈ tables.directories) :
    addFileToKnowledge fk tables id link = { tables with files := tables.files.set id link } := by
  rw [addFileToKnowledge, if_neg]
  rintro (hmem | hhas | hmissing)
  · exact (Dict.get?_eq_none_iff _ _).mp hid hmem
  · rw [hasFile_eq_false.mpr fun k f hf _ => hunlinked k f hf] at hhas
    cases hhas
  · rw [directoryMissing_eq_false.mpr fun _ => hplace] at hmissing
    cases hmissing

/-- The new id of an upload is in no link, since links lead to files. -/
theorem Orderly.unlinked (h : Orderly s kb) (hid : s.files.get? id = none) {k : String}
    {f : KnowledgeFile} (hf : s.tables.files.get? k = some f) : f.fileId ≠ id := by
  rintro rfl
  obtain ⟨-, file, hget⟩ := h.stored k f hf
  rw [hid] at hget
  cases hget

/-- What an upload stores that is not refused: the file, and its link at the place the client
named. -/
theorem uploadFile_stored (h : Orderly s kb) (fk : Bool) (user : Caller) (now : ℤ) {e : Entry}
    {place : Option String} (hplace : PlacePath s.tables.directories kb path place)
    (hfile : s.files.get? (outcome e).fileId = none)
    (hlink : s.tables.files.get? (outcome e).linkId = none)
    (hstored : (outcome e).ending ≠ .refused) :
    let t := Knowledge.uploadFile fk user kb now (outcome e) e place s
    t.bases = s.bases ∧
      t.files = s.files.set (outcome e).fileId (uploadedFile user kb now (outcome e) e place) ∧
      t.tables = if (outcome e).ending = .linked then
        { s.tables with
          files := s.tables.files.set (outcome e).linkId ⟨kb, (outcome e).fileId, place,
            user.id, now, now⟩ }
      else s.tables := by
  -- the check of the directory passes
  have hkept : (place.filter (· ≠ "")).filter
      (fun d => (s.tables.directories.get? d).any (·.knowledgeId = kb)) = place := by
    rw [(verifyDirectory_of_placePath h.wellNamed hplace).2]
    cases hp : place with
    | none => rfl
    | some d =>
        obtain ⟨row, hrow, hkb⟩ := hplace.exists_parent d hp
        refine Option.filter_some_pos ?_
        rw [hrow]
        exact decide_eq_true hkb
  rw [Knowledge.uploadFile]
  dsimp only
  cases hending : (outcome e).ending with
  | refused => exact absurd hending hstored
  | failed => exact ⟨rfl, rfl, rfl⟩
  | linked =>
      refine ⟨rfl, rfl, ?_⟩
      dsimp only
      rw [hkept, if_pos rfl]
      refine addFileToKnowledge_eq_set fk hlink (fun _ _ hf => h.unlinked hfile hf) fun d hd => ?_
      obtain ⟨row, hrow, -⟩ := hplace.exists_parent d hd
      exact Dict.mem_of_get? hrow

/-- A refused upload. -/
theorem Orderly.uploadFile_refused (h : Orderly s kb) (user : Caller) (now : ℤ) {e : Entry}
    {place : Option String} (hrefused : (outcome e).ending = .refused) :
    Uploaded s (Knowledge.uploadFile fk user kb now (outcome e) e place s) kb outcome e := by
  have hsame : Knowledge.uploadFile fk user kb now (outcome e) e place s = s := by
    rw [Knowledge.uploadFile, hrefused]
  rw [hsame]
  refine ⟨h, rfl, rfl, fun path filename id checksum => (or_iff_left ?_).symm, fun _ _ => rfl,
    fun _ _ => rfl⟩
  rintro ⟨hlinked, -⟩
  rw [hrefused] at hlinked
  cases hlinked

/-- One upload, to a place that is there and has no such file. -/
theorem Orderly.uploadFile (h : Orderly s kb) (fk : Bool) (user : Caller) (now : ℤ) {e : Entry}
    {place : Option String}
    (hplace : PlacePath s.tables.directories kb (partsOf '/' e.path) place)
    (hname : Plain '/' e.filename.toList) (hchecksum : e.checksum ≠ "")
    (hfile : s.files.get? (outcome e).fileId = none)
    (hlink : s.tables.files.get? (outcome e).linkId = none)
    (hnew : ∀ id checksum, ¬ At s kb (partsOf '/' e.path) e.filename id checksum) :
    Uploaded s (Knowledge.uploadFile fk user kb now (outcome e) e place s) kb outcome e := by
  by_cases hstored : (outcome e).ending = .refused
  · exact h.uploadFile_refused user now hstored
  have hin : ∀ d, place = some d → d ∈ s.tables.directories := fun d hd => by
    obtain ⟨row, hrow, -⟩ := hplace.exists_parent d hd
    exact Dict.mem_of_get? hrow
  let file := uploadedFile user kb now (outcome e) e place
  let link : KnowledgeFile := ⟨kb, (outcome e).fileId, place, user.id, now, now⟩
  let t := Knowledge.uploadFile fk user kb now (outcome e) e place s
  obtain ⟨hbases, hfiles, htables⟩ := uploadFile_stored h fk user now hplace hfile hlink hstored
  have hdirs : t.tables.directories = s.tables.directories := by
    rw [htables]
    split_ifs <;> rfl
  -- the link is stored where the upload ends in one
  have hlinks : ∀ k f, t.tables.files.get? k = some f ↔ s.tables.files.get? k = some f ∨
      (outcome e).ending = .linked ∧ k = (outcome e).linkId ∧ f = link := by
    intro k f
    rw [htables]
    split_ifs with hlinked
    · show (s.tables.files.set _ _).get? k = some f ↔ _
      rw [Dict.get?_set]
      split_ifs with hk
      · rw [hk, hlink]
        refine ⟨fun heq => .inr ⟨hlinked, rfl, (Option.some.inj heq).symm⟩, ?_⟩
        rintro (hnever | ⟨-, -, rfl⟩)
        · cases hnever
        · rfl
      · exact ⟨.inl, fun hor => hor.resolve_right fun hboth => hk hboth.2.1⟩
    · exact ⟨.inl, fun hor => hor.resolve_right fun hboth => hlinked hboth.1⟩
  -- the id of the upload is linked nowhere else, so the other links keep their files
  have hold : ∀ k f, s.tables.files.get? k = some f →
    t.files.get? f.fileId = s.files.get? f.fileId := by
    intro k f hf
    rw [hfiles, Dict.get?_set_ne _ _ (h.unlinked hfile hf)]
  have hself : t.files.get? (outcome e).fileId = some file := by rw [hfiles, Dict.get?_set_self]
  have hhash : file.fileHash = some e.checksum := congrArg some (if_pos hchecksum)
  have hat : ∀ path filename id checksum, At t kb path filename id checksum ↔
      At s kb path filename id checksum ∨ Arrives outcome e path filename id checksum := by
    intro path filename id checksum
    constructor
    · rintro ⟨k, f, file', hf, hkb, rfl, hpath, hget, rfl, rfl⟩
      rw [hdirs] at hpath
      rcases (hlinks k f).mp hf with hf | ⟨hlinked, rfl, rfl⟩
      · exact .inl ⟨k, f, file', hf, hkb, rfl, hpath, hold k f hf ▸ hget, rfl, rfl⟩
      · obtain rfl := Option.some.inj (hself.symm.trans hget)
        exact .inr ⟨hlinked, hpath.unique hplace, basename_of_plain hname, rfl, hhash⟩
    · rintro (⟨k, f, file', hf, hkb, rfl, hpath, hget, hrest⟩ | ⟨hlinked, rfl, rfl, rfl, rfl⟩)
      · exact ⟨k, f, file', (hlinks k f).mpr (.inl hf), hkb, rfl, hdirs ▸ hpath,
          (hold k f hf).trans hget, hrest⟩
      · exact ⟨_, link, file, (hlinks _ _).mpr (.inr ⟨hlinked, rfl, rfl⟩), rfl, rfl,
          hdirs ▸ hplace, hself,
          basename_of_plain hname, hhash⟩
  have hplaced : Placed t.tables := by
    rw [htables]
    split_ifs
    · rw [← addFileToKnowledge_eq_set fk hlink (fun _ _ hf => h.unlinked hfile hf) hin]
      refine h.placed.addFileToKnowledge fun d row hd hrow => ?_
      obtain ⟨row', hrow', hkb⟩ := hplace.exists_parent d hd
      rw [Option.some.inj (hrow.symm.trans hrow'), hkb]
    · exact h.placed
  have hintact : Intact t.tables := by
    rw [htables]
    split_ifs
    · rw [← addFileToKnowledge_eq_set true hlink (fun _ _ hf => h.unlinked hfile hf) hin]
      exact h.intact.addFileToKnowledge _ _
    · exact h.intact
  refine ⟨⟨hbases.symm ▸ h.base, hplaced, hintact, ?_, ?_, ?_, fun k f hf => ?_,
    fun path filename id id' checksum checksum' hat₁ hat₂ => ?_, fun id file' hget hkb => ?_⟩,
      hbases, hdirs, hat, fun id hid => by rw [hfiles, Dict.get?_set_ne _ _ hid], fun k hk => ?_⟩
  · rw [hdirs]
    exact h.acyclic
  · rw [hdirs]
    exact h.plain
  · rw [hdirs]
    exact h.roots
  · rcases (hlinks k f).mp hf with hf | ⟨-, -, rfl⟩
    · obtain ⟨hkb, file', hget⟩ := h.stored k f hf
      exact ⟨hbases.symm ▸ hkb, file', (hold k f hf).trans hget⟩
    · exact ⟨hbases.symm ▸ h.base, file, hself⟩
  -- two files at one place: the new one came to a place that was free
  · rcases (hat _ _ _ _).mp hat₁ with hat₁ | ⟨-, rfl, rfl, rfl, -⟩ <;>
      rcases (hat _ _ _ _).mp hat₂ with hat₂ |
        ⟨-, hpath, hname', rfl, -⟩
    · exact h.keys _ _ _ _ _ _ hat₁ hat₂
    · subst hpath hname'
      exact absurd hat₁ (hnew _ _)
    · exact absurd hat₂ (hnew _ _)
    · rfl
  -- an upload of this client is settled when it ends
  · rw [hfiles, Dict.get?_set] at hget
    split_ifs at hget with hid
    · rw [← Option.some.inj hget]
      show some (if (outcome e).ending = .linked then "completed" else "failed") ∉
        [some "pending", some "processing"]
      split_ifs
      · decide
      · decide
    · exact h.settled id file' hget hkb
  · rw [htables]
    split_ifs
    · exact Dict.get?_set_ne _ _ hk
    · rfl

/-- The files still to come are fresh after an upload. -/
theorem FreshFiles.uploaded {e : Entry} {entries : List Entry}
    (h : FreshFiles s (e :: entries) outcome) (hnotIn : e ∉ entries)
    (huploaded : Uploaded s t kb outcome e) : FreshFiles t entries outcome where
  files := fun e' he' => by
    rw [huploaded.files _ fun heq => hnotIn
      (h.filesApart e' (List.mem_cons_of_mem _ he') e List.mem_cons_self heq ▸ he')]
    exact h.files e' (List.mem_cons_of_mem _ he')
  filesApart := fun e₁ h₁ e₂ h₂ =>
    h.filesApart e₁ (List.mem_cons_of_mem _ h₁) e₂ (List.mem_cons_of_mem _ h₂)
  links := fun e' he' => by
    rw [huploaded.links _ fun heq => hnotIn
      (h.linksApart e' (List.mem_cons_of_mem _ he') e List.mem_cons_self heq ▸ he')]
    exact h.links e' (List.mem_cons_of_mem _ he')
  linksApart := fun e₁ h₁ e₂ h₂ =>
    h.linksApart e₁ (List.mem_cons_of_mem _ h₁) e₂ (List.mem_cons_of_mem _ h₂)

/-- All uploads in turn. -/
theorem Orderly.uploadFiles (h : Orderly s kb) (fk : Bool) (user : Caller) (now : ℤ)
    {place : Entry → Option String} {entries : List Entry} (hkeys : (entries.map Entry.key).Nodup)
    (hplaces : ∀ e ∈ entries, PlacePath s.tables.directories kb (partsOf '/' e.path) (place e))
    (hplain : ∀ e ∈ entries, Plain '/' e.filename.toList ∧ e.checksum ≠ "")
    (hfresh : FreshFiles s entries outcome)
    (hnew : ∀ e ∈ entries, ∀ id checksum, ¬ At s kb (partsOf '/' e.path) e.filename id checksum) :
    ∃ t, entries.foldl (fun s e => Knowledge.uploadFile fk user kb now (outcome e) e (place e) s)
      s = t ∧ Orderly t kb ∧
      t.tables.directories = s.tables.directories ∧
      ∀ path filename id checksum, At t kb path filename id checksum ↔
        At s kb path filename id checksum ∨
          ∃ e ∈ entries, Arrives outcome e path filename id checksum := by
  induction entries generalizing s with
  | nil =>
      refine ⟨s, rfl, h, rfl, fun path filename id checksum => (or_iff_left ?_).symm⟩
      rintro ⟨e, he, -⟩
      cases he
  | cons e entries ih =>
      have hhead : e ∈ e :: entries := List.mem_cons_self
      have htail : ∀ e' ∈ entries, e' ∈ e :: entries := fun _ => List.mem_cons_of_mem _
      obtain ⟨hkey, hkeys'⟩ := List.nodup_cons.mp hkeys
      have hnotIn : e ∉ entries := fun hin => hkey (List.mem_map_of_mem hin)
      have huploaded := h.uploadFile fk user now (hplaces e hhead) (hplain e hhead).1
        (hplain e hhead).2
        (hfresh.files e hhead) (hfresh.links e hhead) (hnew e hhead)
      -- two entries do not go to one place, so the others are still missing
      have hnew' : ∀ e' ∈ entries, ∀ id checksum,
          ¬ At (Knowledge.uploadFile fk user kb now (outcome e) e (place e) s) kb
            (partsOf '/' e'.path) e'.filename id checksum := by
        intro e' he' id checksum hat
        rcases (huploaded.arrives _ _ _ _).mp hat with hat | ⟨-, hpath, hname, -⟩
        · exact hnew e' (htail e' he') id checksum hat
        · have hsame : e'.path = e.path := by rw [← joined_partsOf e'.path, hpath, joined_partsOf]
          exact hkey (List.mem_map.mpr ⟨e', he', Prod.ext hsame hname⟩)
      obtain ⟨t, ht, horderly, hdirs, hat⟩ := ih huploaded.orderly hkeys'
        (fun e' he' => huploaded.directories.symm ▸ hplaces e' (htail e' he'))
        (fun e' he' => hplain e' (htail e' he'))
        (hfresh.uploaded hnotIn huploaded) hnew'
      refine ⟨t, ht, horderly, hdirs.trans huploaded.directories,
        fun path filename id checksum => ?_⟩
      rw [hat, huploaded.arrives, or_assoc]
      simp only [List.mem_cons, exists_eq_or_imp]

/-! ## A whole sync -/

/-- The knowledge base has the file of the manifest. -/
def Present (s : Store) (kb : String) (e : Entry) : Prop :=
  ∃ id, At s kb (partsOf '/' e.path) e.filename id (some e.checksum)

/-- After a sync: unchanged files are where they were, the uploads that went through are in
place, and the directories are those required. -/
structure Mirrored (s t : Store) (kb : String) (manifest : List Entry)
    (outcome : Entry → Outcome) : Prop where
  orderly : Orderly t kb
  directories : ∀ path, (∃ d, IsPath (nodeIn t.tables.directories kb) path d) ↔
    Required manifest path
  kept : ∀ path d, IsPath (nodeIn s.tables.directories kb) path d → Required manifest path →
    IsPath (nodeIn t.tables.directories kb) path d
  files : ∀ path filename id checksum, At t kb path filename id checksum ↔
    At s kb path filename id checksum ∧ Wanted manifest path filename checksum ∨
      ∃ e ∈ manifest, ¬ Present s kb e ∧ Arrives outcome e path filename id checksum

/-- An entry is present where its file is. -/
theorem present_iff (hnamed : WellNamed s.tables.directories kb) {e : Entry} :
    Present s kb e ↔ ∃ path, e.path = joined '/' path ∧
      ∃ id, At s kb path e.filename id (some e.checksum) := by
  constructor
  · exact fun hpresent => ⟨_, (joined_partsOf e.path).symm, hpresent⟩
  · rintro ⟨path, hpath, id, hat⟩
    refine ⟨id, ?_⟩
    rwa [hpath, partsOf_joined (hat.plain hnamed)]

/-- New directories keep the knowledge base in order. -/
theorem Grown.orderly (h : Grown s t kb manifest newId map made) (horderly : Orderly s kb)
    (hfresh : FreshDirectories s newId) :
    Orderly t kb ∧ ∀ path filename id checksum, At t kb path filename id checksum ↔
      At s kb path filename id checksum := by
  have hplaces : ∀ k f path, s.tables.files.get? k = some f →
      (PlacePath t.tables.directories kb path f.directoryId ↔
      PlacePath s.tables.directories kb path f.directoryId) := by
    intro k f path hf
    cases hd : f.directoryId with
    | none => exact Iff.rfl
    | some d =>
        -- the directory of a link was there before
        have hd := horderly.intact.links k f d hf hd
        refine (h.paths path d).trans (or_iff_left ?_)
        rintro ⟨text, -, -, rfl⟩
        exact (hfresh.new text).1 hd
  have hat : ∀ path filename id checksum, At t kb path filename id checksum ↔
    At s kb path filename id checksum := by
    intro path filename id checksum
    rw [At, At, h.files, h.links]
    constructor
    · rintro ⟨k, f, file, hf, hkb, hfile, hpath, hrest⟩
      exact ⟨k, f, file, hf, hkb, hfile, (hplaces k f path hf).mp hpath, hrest⟩
    · rintro ⟨k, f, file, hf, hkb, hfile, hpath, hrest⟩
      exact ⟨k, f, file, hf, hkb, hfile, (hplaces k f path hf).mpr hpath, hrest⟩
  refine ⟨⟨h.bases.symm ▸ horderly.base, h.arranged.placed, h.arranged.intact, h.arranged.acyclic,
    h.arranged.plain,
    h.arranged.roots, ?_, fun path filename id id' checksum checksum' h₁ h₂ =>
      horderly.keys _ _ _ _ _ _ ((hat _ _ _ _).mp h₁) ((hat _ _ _ _).mp h₂), ?_⟩, hat⟩
  · rw [Stored, h.links, h.files, h.bases]
    exact horderly.stored
  · rw [h.files]
    exact horderly.settled

/-- Deleting directories leaves the ids drawn for others new. -/
theorem FreshDirectories.fewer (h : FreshDirectories s newId)
    (hfewer : Fewer s.tables.directories t.tables.directories) : FreshDirectories t newId := by
  refine ⟨fun text => ⟨fun hin => ?_, (h.new text).2⟩, h.apart⟩
  obtain ⟨row, hrow⟩ := (Dict.mem_iff_exists _ _).mp hin
  exact (h.new text).1 (Dict.mem_of_get? (hfewer _ row hrow))

/-- After the clean-up the directories that are missing are made, so that every required
one is there. -/
theorem Cleaned.exists_made {c : Store} {diff : Diff} (h : Cleaned s c kb manifest)
    (hnamed : WellNamed s.tables.directories kb) (hvalid : ValidManifest manifest)
    (hdirs : FreshDirectories c newId) (hspec : DiffSpec s kb manifest diff) (fk : Bool)
    (user : Caller) (now : ℤ) :
    ∃ u map made, diff.mkdir.foldlM (Knowledge.createMissing fk user kb now newId)
        (c, diff.directoryMap) = some (u, map) ∧
      Grown c u kb manifest newId map made ∧
      ∀ path, Required manifest path → ∃ d, IsPath (nodeIn u.tables.directories kb) path d := by
  -- the client's map holds the directories that stayed
  have hmap : ∀ path, Required manifest path → ∀ d,
      diff.directoryMap.get? (joined '/' path) = some d ↔
        IsPath (nodeIn c.tables.directories kb) path d := by
    intro path hpath d
    rw [hspec.map, h.paths, and_iff_left hpath]
    constructor
    · rintro ⟨path', hpath', heq⟩
      rwa [← partsOf_joined (hpath.plain hvalid), heq, partsOf_joined (hnamed.plain_path hpath')]
    · exact fun hp => ⟨path, hp, rfl⟩
  have hstart : Grown c c kb manifest newId diff.directoryMap [] := by
    refine ⟨rfl, rfl, rfl, h.orderly.arranged, fun path d => (or_iff_left ?_).symm,
      fun _ _ hrow => hrow, fun _ hk => .inl hk, fun text htext => absurd htext List.not_mem_nil,
      hmap⟩
    rintro ⟨text, htext, -⟩
    exact List.not_mem_nil htext
  have hmissing : ∀ text ∈ diff.mkdir, ∃ path, text = joined '/' path ∧ Required manifest path ∧
      ∀ d, ¬ IsPath (nodeIn c.tables.directories kb) path d := by
    intro text htext
    obtain ⟨path, htext, hrequired, hnone⟩ := (hspec.mkdir text).mp htext
    exact ⟨path, htext, hrequired, fun d hd => hnone d ((h.paths path d).mp hd).1⟩
  have hcover : ∀ path, Required manifest path →
      (∃ d, IsPath (nodeIn c.tables.directories kb) path d) ∨ joined '/' path ∈ diff.mkdir := by
    intro path hpath
    refine or_iff_not_imp_left.mpr fun hnone =>
      (hspec.mkdir _).mpr ⟨path, rfl, hpath, fun d hd => ?_⟩
    exact hnone ⟨d, (h.paths path d).mpr ⟨hd, hpath⟩⟩
  exact hstart.createMissings hvalid hdirs hmissing hspec.mkdirOnce
    (fun _ _ => List.not_mem_nil) hspec.parentsFirst hcover

/-- The client's map leads to the place of every entry. -/
theorem Grown.placePath (h : Grown s t kb manifest newId map made)
    (hall : ∀ path, Required manifest path → ∃ d, IsPath (nodeIn t.tables.directories kb) path d)
    {e : Entry} (he : e ∈ manifest) : PlacePath t.tables.directories kb (partsOf '/' e.path)
      (if e.path ≠ [] then map.get? e.path else none) := by
  by_cases hne : e.path = []
  · rw [if_neg (not_not.mpr hne), hne]
    rfl
  · have hrequired : Required manifest (partsOf '/' e.path) := by
      refine ⟨?_, e, he, List.prefix_rfl⟩
      rw [partsOf, if_neg hne]
      exact List.splitOn_ne_nil _ _
    obtain ⟨d, hd⟩ := hall _ hrequired
    have hget := (h.map _ hrequired d).mpr hd
    rw [joined_partsOf] at hget
    rw [if_pos hne, hget]
    exact hd

/-- The ids drawn for files are still new when the directories are made. -/
theorem FreshFiles.grown {c : Store} {entries : List Entry} (h : FreshFiles s manifest outcome)
    (hcleaned : Cleaned s c kb manifest) (hgrown : Grown c t kb manifest newId map made)
    (hsub : ∀ e ∈ entries, e ∈ manifest) : FreshFiles t entries outcome := by
  refine ⟨fun e he => ?_, fun e he e' he' => h.filesApart e (hsub e he) e' (hsub e' he'),
    fun e he => ?_, fun e he e' he' => h.linksApart e (hsub e he) e' (hsub e' he')⟩
  · refine Option.eq_none_iff_forall_not_mem.mpr fun file hget => ?_
    have hold := hcleaned.fewerFiles _ file (hgrown.files ▸ hget)
    rw [h.files e (hsub e he)] at hold
    cases hold
  · refine Option.eq_none_iff_forall_not_mem.mpr fun f hf => ?_
    have hold := hcleaned.fewerLinks _ f (hgrown.links ▸ hf)
    rw [h.links e (hsub e he)] at hold
    cases hold

/-- A sync of an orderly knowledge base ends, whatever order sets come in and whichever uploads
fail. -/
theorem Orderly.exists_sync (h : Orderly s kb) (hvalid : ValidManifest manifest)
    (hdirs : FreshDirectories s newId) (hfiles : FreshFiles s manifest outcome) (fk : Bool)
    (sets : SetOrder) (retention : Bool) (user : Caller) (now : ℤ) :
    ∃ n t, (∀ fuel, n ≤ fuel →
      syncDirectory fk sets fuel retention user kb now newId outcome manifest s = some t) ∧
      Mirrored s t kb manifest outcome := by
  obtain ⟨diff, hdiff, hspec⟩ := h.exists_diff hvalid sets now
  obtain ⟨n, c, hclean, hcleaned⟩ : ∃ n c, (∀ fuel, n ≤ fuel → syncCleanup fk fuel retention user kb
      (diff.deleted.map Prod.fst ++ diff.modified.map Prod.snd) diff.rmdir s = some c) ∧
        Cleaned s c kb manifest :=
    exists_cleanup h hspec
  have hdirsClean := hdirs.fewer hcleaned.fewer
  obtain ⟨u, map, made, hmake, hgrown, hall⟩ :=
    hcleaned.exists_made h.wellNamed hvalid hdirsClean hspec fk user now
  obtain ⟨horderlyMade, hatMade⟩ := hgrown.orderly hcleaned.orderly hdirsClean
  -- the uploads are the entries whose file is not present
  let entries := manifest.filter fun e => e.key ∈ diff.added ∨ e.key ∈ diff.modified.map Prod.fst
  have hentries : ∀ e, e ∈ entries ↔ e ∈ manifest ∧ ¬ Present s kb e := by
    intro e
    rw [List.mem_filter, decide_eq_true_iff]
    refine and_congr_right fun he => ?_
    rw [hspec.upload e he, present_iff h.wellNamed]
    simp only [not_exists, not_and]
  have hsub : ∀ e ∈ entries, e ∈ manifest := fun e he => ((hentries e).mp he).1
  have hnew :
    ∀ e ∈ entries, ∀ id checksum, ¬ At u kb (partsOf '/' e.path) e.filename id checksum := by
    intro e he id checksum hat
    obtain ⟨hin, habsent⟩ := (hentries e).mp he
    obtain ⟨hat, hwanted⟩ := (hcleaned.files _ _ _ _).mp ((hatMade _ _ _ _).mp hat)
    have hchecksum := hwanted.entry hvalid hin (joined_partsOf e.path).symm rfl
    exact habsent ⟨id, hchecksum ▸ hat⟩
  have hplain : ∀ e ∈ entries, Plain '/' e.filename.toList ∧ e.checksum ≠ "" :=
    fun e he => ⟨hvalid.names e (hsub e he), hvalid.checksums e (hsub e he)⟩
  obtain ⟨t, ht, horderly, hsame, hat⟩ := horderlyMade.uploadFiles fk user now
    (List.Sublist.nodup (List.filter_sublist.map _) hvalid.keys)
    (fun e he => hgrown.placePath hall (hsub e he)) hplain (hfiles.grown hcleaned hgrown hsub) hnew
  refine ⟨n, t, fun fuel hfuel => ?_, horderly, fun path => ?_, fun path d hd hrequired => ?_,
    fun path filename id checksum => ?_⟩
  · rw [syncDirectory, hdiff]
    show (syncCleanup fk fuel retention user kb _ _ s).bind _ = some t
    rw [hclean fuel hfuel]
    show (diff.mkdir.foldlM (Knowledge.createMissing fk user kb now newId)
      (c, diff.directoryMap)).bind _ = some t
    rw [hmake]
    exact congrArg some ht
  -- a directory was kept or made, and either way it is required
  · rw [hsame]
    constructor
    · rintro ⟨d, hd⟩
      rcases (hgrown.paths path d).mp hd with hold | ⟨text, htext, rfl, -⟩
      · exact ((hcleaned.paths path d).mp hold).2
      · exact hgrown.required text htext
    · exact hall path
  · rw [hsame]
    exact (hgrown.paths path d).mpr (.inl ((hcleaned.paths path d).mpr ⟨hd, hrequired⟩))
  · rw [hat, hatMade, hcleaned.files]
    refine or_congr_right (exists_congr fun e => ?_)
    rw [← and_assoc]
    exact and_congr_left fun _ => hentries e

/-- A diff of the manifest asks for some uploads, and for nothing else. -/
def AsksOnlyFor (t : Store) (kb : String) (manifest : List Entry) (asked : Entry → Prop) : Prop :=
  ∀ (sets : SetOrder) (now : ℤ), ∃ diff, syncDiff sets t kb now manifest = some diff ∧
    diff.deleted = [] ∧
    diff.modified = [] ∧
    diff.mkdir = [] ∧ diff.rmdir = [] ∧ ∀ e ∈ manifest, e.key ∈ diff.added ↔ asked e

/-- The next diff of the same manifest asks for the uploads that have failed. -/
theorem Mirrored.asksOnlyFor (h : Mirrored s t kb manifest outcome)
    (hvalid : ValidManifest manifest) :
    AsksOnlyFor t kb manifest fun e => ¬ Present s kb e ∧ (outcome e).ending ≠ .linked := by
  intro sets now
  obtain ⟨diff, hdiff, hspec⟩ := h.orderly.exists_diff hvalid sets now
  have hwanted : ∀ path filename id checksum, At t kb path filename id checksum →
      Wanted manifest path filename checksum := by
    intro path filename id checksum hat
    rcases (h.files _ _ _ _).mp hat with ⟨-, hwanted⟩ | ⟨e, he, -, -, rfl, rfl, -, rfl⟩
    · exact hwanted
    · exact ⟨e, he, (joined_partsOf e.path).symm, rfl, rfl⟩
  have hstale : diff.deleted.map Prod.fst ++ diff.modified.map Prod.snd = [] := by
    refine List.eq_nil_iff_forall_not_mem.mpr fun id hid => ?_
    obtain ⟨path, filename, checksum, hat, hnot⟩ := (hspec.stale id).mp hid
    exact hnot (hwanted _ _ _ _ hat)
  obtain ⟨hdeleted, hmodified⟩ := List.append_eq_nil_iff.mp hstale
  have hmodified : diff.modified = [] := List.map_eq_nil_iff.mp hmodified
  refine ⟨diff, hdiff, List.map_eq_nil_iff.mp hdeleted, hmodified, ?_, ?_, fun e he => ?_⟩
  · refine List.eq_nil_iff_forall_not_mem.mpr fun text htext => ?_
    obtain ⟨path, -, hrequired, hnone⟩ := (hspec.mkdir text).mp htext
    obtain ⟨d, hd⟩ := (h.directories path).mpr hrequired
    exact hnone d hd
  · refine List.eq_nil_iff_forall_not_mem.mpr fun id hid => ?_
    obtain ⟨path, hpath, hnot⟩ := (hspec.rmdir id).mp hid
    exact hnot ((h.directories path).mp ⟨id, hpath⟩)
  · have hpresent : Present t kb e ↔ Present s kb e ∨ (outcome e).ending = .linked := by
      constructor
      · rintro ⟨id, hat⟩
        rcases (h.files _ _ _ _).mp hat with ⟨hat, -⟩ | ⟨e', he', -, hlinked, hpath, hname, -⟩
        · exact .inl ⟨id, hat⟩
        · have hsame : e.path = e'.path := by rw [← joined_partsOf e.path, hpath, joined_partsOf]
          obtain rfl := List.inj_on_of_nodup_map hvalid.keys he he' (Prod.ext hsame hname)
          exact .inr hlinked
      · intro hor
        by_cases hold : Present s kb e
        · obtain ⟨id, hat⟩ := hold
          exact ⟨id, (h.files _ _ _ _).mpr
            (.inl ⟨hat, e, he, (joined_partsOf e.path).symm, rfl, rfl⟩)⟩
        · exact ⟨_, (h.files _ _ _ _).mpr
            (.inr ⟨e, he, hold, hor.resolve_left hold, rfl, rfl, rfl, rfl⟩)⟩
    have hupload := hspec.upload e he
    rw [hmodified] at hupload
    have hasked : e.key ∈ diff.added ↔ ¬ Present t kb e := by
      rw [present_iff h.orderly.wellNamed]
      simpa using hupload
    rw [hasked, hpresent, not_or]

/-- A sync of an orderly knowledge base ends; it leaves the knowledge base in order with the
unchanged files and the uploads that went through, in the directories required, and all that the
next one has to do are the uploads that have failed. -/
theorem sync_mirrors (h : Orderly s kb) (hvalid : ValidManifest manifest)
    (hdirs : FreshDirectories s newId) (hfiles : FreshFiles s manifest outcome) (fk : Bool)
    (sets : SetOrder) (retention : Bool) (user : Caller) (now : ℤ) :
    ∃ n t, (∀ fuel, n ≤ fuel →
      syncDirectory fk sets fuel retention user kb now newId outcome manifest s = some t) ∧
      Mirrored s t kb manifest outcome ∧ AsksOnlyFor t kb manifest fun e => ¬ Present s kb e ∧
        (outcome e).ending ≠ .linked := by
  obtain ⟨n, t, hrun, hmirrored⟩ := h.exists_sync hvalid hdirs hfiles fk sets retention user now
  exact ⟨n, t, hrun, hmirrored, hmirrored.asksOnlyFor hvalid⟩

/-! ## An example -/

def syncedFile (filename checksum : String) : File where
  userId := "ada"
  filename := filename
  data := some ⟨none, some "completed"⟩
  size := some 1
  contentType := none
  fileHash := some checksum
  uploadData := ⟨some "kb1", none⟩
  createdAt := none
  updatedAt := none

/-- `docs` and `docs/api` with a file in each, and `old` with a file. -/
def syncedStore : Store := { sampleStore [] with
  tables :=
    { directories := ⟨[("d1", sampleDirectory "kb1" "docs" none),
        ("d2", sampleDirectory "kb1" "api" (some "d1")),
        ("d3", sampleDirectory "kb1" "old" none)], by decide⟩
      files := ⟨[("r1", sampleLink "kb1" "f1" (some "d1")),
        ("r2", sampleLink "kb1" "f2" (some "d2")),
        ("r3", sampleLink "kb1" "f3" (some "d3"))], by decide⟩ }
  files := ⟨[("f1", syncedFile "b.md" "c1"), ("f2", syncedFile "a.md" "c0"),
    ("f3", syncedFile "x.md" "c9")],
    by decide⟩ }

/-- Everything in the example is in its knowledge base. -/
theorem placed_syncedStore : Placed syncedStore.tables where
  directories := {
    ids := by decide
    parents := fun c p _ row row' hrow hrow' => by
      have hall : ∀ e ∈ syncedStore.tables.directories.entries, e.2.knowledgeId = "kb1" := by decide
      exact (hall _ (Dict.mem_entries_of_get? hrow')).trans
        (hall _ (Dict.mem_entries_of_get? hrow)).symm
    siblings := fun c c' d d' p hd hd' _ hp hp' _ => by
      have hall : ∀ e ∈ syncedStore.tables.directories.entries, e.2.parentId.isSome →
        e.1 = "d2" := by decide
      have hc : c = "d2" := hall _ (Dict.mem_entries_of_get? hd)
        (Option.isSome_iff_exists.mpr ⟨p, hp⟩)
      have hc' :
        c' = "d2" := hall _ (Dict.mem_entries_of_get? hd') (Option.isSome_iff_exists.mpr ⟨p, hp'⟩)
      exact hc.trans hc'.symm }
  linked := fun k f d row hf _ hrow => by
    have hdirs : ∀ e ∈ syncedStore.tables.directories.entries, e.2.knowledgeId = "kb1" := by decide
    have hlinks : ∀ e ∈ syncedStore.tables.files.entries, e.2.knowledgeId = "kb1" := by decide
    exact (hdirs _ (Dict.mem_entries_of_get? hrow)).trans
      (hlinks _ (Dict.mem_entries_of_get? hf)).symm
  once := fun k k' f f' hf hf' _ hfile => by
    have hall : ∀ e ∈ syncedStore.tables.files.entries, ∀ e' ∈ syncedStore.tables.files.entries,
        e.2.fileId = e'.2.fileId → e.1 = e'.1 := by decide
    exact hall _ (Dict.mem_entries_of_get? hf) _ (Dict.mem_entries_of_get? hf') hfile

/-- The example's tables are intact. -/
theorem intact_syncedStore : Intact syncedStore.tables where
  parents := fun c p hp => by
    obtain ⟨d, hd, hdp⟩ := Option.bind_eq_some_iff.mp hp
    have hall : ∀ e ∈ syncedStore.tables.directories.entries, ∀ p ∈ e.2.parentId,
      p ∈ syncedStore.tables.directories := by
      decide
    exact hall _ (Dict.mem_entries_of_get? hd) p hdp
  links := fun k f d hf hd => by
    have hall : ∀ e ∈ syncedStore.tables.files.entries, ∀ d ∈ e.2.directoryId,
      d ∈ syncedStore.tables.directories := by
      decide
    exact hall _ (Dict.mem_entries_of_get? hf) d hd

/-- The example's knowledge base is in order. -/
theorem orderly_syncedStore : Orderly syncedStore "kb1" where
  base := by decide
  placed := placed_syncedStore
  intact := intact_syncedStore
  acyclic := by
    refine Forest.Acyclic.of_rank (fun id => if id = "d2" then 1 else 0) fun c p hp => ?_
    obtain ⟨d, hd, hdp⟩ := Option.bind_eq_some_iff.mp hp
    have hall : ∀ e ∈ syncedStore.tables.directories.entries, ∀ p ∈ e.2.parentId, e.1 = "d2" ∧
      p = "d1" := by decide
    obtain ⟨rfl, rfl⟩ := hall _ (Dict.mem_entries_of_get? hd) p hdp
    decide
  plain := fun id d hd _ => by
    have hall : ∀ e ∈ syncedStore.tables.directories.entries, e.2.name.toList ≠ [] ∧
      '/' ∉ e.2.name.toList := by decide
    exact hall _ (Dict.mem_entries_of_get? hd)
  roots := fun c c' d d' hd hd' _ _ _ _ hname => by
    have hall :
      ∀ e ∈ syncedStore.tables.directories.entries, ∀ e' ∈ syncedStore.tables.directories.entries,
        e.2.name = e'.2.name → e.1 = e'.1 := by decide
    exact hall _ (Dict.mem_entries_of_get? hd) _ (Dict.mem_entries_of_get? hd') hname
  stored := fun k f hf => by
    have hall : ∀ e ∈ syncedStore.tables.files.entries, e.2.knowledgeId ∈ syncedStore.bases ∧
        (syncedStore.files.get? e.2.fileId).isSome := by decide
    obtain ⟨hbase, hfile⟩ := hall _ (Dict.mem_entries_of_get? hf)
    exact ⟨hbase, Option.isSome_iff_exists.mp hfile⟩
  keys := by
    rintro path filename id id' checksum checksum' ⟨k, f, file, -, -, -, -, hget, hname, -⟩
      ⟨k', f', file', -, -, -, -, hget', hname', -⟩
    have hall : ∀ e ∈ syncedStore.files.entries, ∀ e' ∈ syncedStore.files.entries,
        e.2.filename = e'.2.filename → e.1 = e'.1 := by decide
    exact hall _ (Dict.mem_entries_of_get? hget) _ (Dict.mem_entries_of_get? hget')
      (hname.trans hname'.symm)
  settled := fun id file hget _ => by
    have hall : ∀ e ∈ syncedStore.files.entries,
        e.2.data.bind FileData.status ∉ [some "pending", some "processing"] := by decide
    exact hall _ (Dict.mem_entries_of_get? hget)

/-- A file that has changed, one that has not, one in a new directory and one whose upload is
refused. -/
def localFiles : List Entry :=
  [⟨"a.md", "docs/api".toList, "c2"⟩, ⟨"b.md", "docs".toList, "c1"⟩,
    ⟨"n.md", "docs/new".toList, "c3"⟩,
    ⟨"z.md", [], "c4"⟩]

def drawDirectory (text : Text) : String := String.ofList ('n' :: text)

def drawn (e : Entry) : Outcome where
  fileId := "file-" ++ e.filename
  linkId := "link-" ++ e.filename
  content := none
  size := 1
  contentType := none
  sha256 := ""
  ending := if e.filename = "z.md" then .refused else .linked

/-- Without foreign keys, `old` and `x.md` are removed and `a.md` is replaced; `b.md` stays. -/
theorem sync_mirrors_syncedStore : ∃ n t,
    (∀ fuel, n ≤ fuel → syncDirectory false ⟨List.dedup, fun _ => .refl _⟩ fuel false ada "kb1" 0
      drawDirectory drawn localFiles syncedStore = some t) ∧
        Mirrored syncedStore t "kb1" localFiles drawn ∧
    AsksOnlyFor t "kb1" localFiles fun e => ¬ Present syncedStore "kb1" e ∧
      (drawn e).ending ≠ .linked := by
  have hvalid : ValidManifest localFiles := ⟨by decide, by decide, by decide, by decide⟩
  have hdirs : FreshDirectories syncedStore drawDirectory := by
    refine ⟨fun text => ⟨fun hmem => ?_, fun heq => ?_⟩, fun text text' heq => ?_⟩
    · obtain ⟨d, hd⟩ := (Dict.mem_iff_exists _ _).mp hmem
      have hall :
        ∀ e ∈ syncedStore.tables.directories.entries, e.1.toList.head? = some 'd' := by decide
      have hhead := hall _ (Dict.mem_entries_of_get? hd)
      rw [drawDirectory, String.toList_ofList] at hhead
      exact absurd (Option.some.inj hhead) (by decide)
    · have hlist := congrArg String.toList heq
      rw [drawDirectory, String.toList_ofList] at hlist
      cases hlist
    · exact (List.cons.inj (String.ofList_injective heq)).2
  exact sync_mirrors orderly_syncedStore hvalid hdirs
    ⟨by decide, by decide, by decide, by decide⟩ _ _ _ _ _

end OpenWebUI.Knowledge
