import OpenWebUI.Knowledge.SyncDiff

/-! # What the cleanup of a sync leaves

Files first, then directories, children before or after their parents: whatever the order of the
requests, what is left are the files of the manifest that have not changed and the directories the
manifest requires. No file that is left lay in a directory that is removed.
-/

namespace OpenWebUI.Knowledge

open Py NamedForest

variable {fk : Bool} {s s' t : Store} {kb id : String} {path : List Text} {filename : String}
  {checksum : Option String} {manifest : List Entry} {user : Caller} {retention : Bool}

/-! ## Removing files -/

/-- Links of a knowledge base are gone; what links of existing knowledge bases lead to stays. -/
structure Unlinked (s s' : Store) (kb : String) (gone : String → Prop) : Prop where
  bases : s'.bases = s.bases
  directories : s'.tables.directories = s.tables.directories
  links : ∀ k f, s'.tables.files.get? k = some f ↔ s.tables.files.get? k = some f ∧
    ¬ (f.knowledgeId = kb ∧ gone f.fileId)
  kept : ∀ k f, s'.tables.files.get? k = some f → f.knowledgeId ∈ s.bases →
    s'.files.get? f.fileId = s.files.get? f.fileId
  fewer : ∀ id file, s'.files.get? id = some file → s.files.get? id = some file

/-- A file with a link that stays is kept. -/
theorem Unlinked.kept_of_stored {gone : String → Prop} (h : Unlinked s s' kb gone)
    (hstored : Stored s) {k : String} {f : KnowledgeFile} (hf : s'.tables.files.get? k = some f) :
    s'.files.get? f.fileId = s.files.get? f.fileId :=
  h.kept k f hf (hstored k f ((h.links k f).mp hf).1).1

/-- Links that stay have their rows. -/
theorem Unlinked.stored {gone : String → Prop} (h : Unlinked s s' kb gone) (hstored : Stored s) :
    Stored s' := by
  intro k f hf
  rw [h.kept_of_stored hstored hf, h.bases]
  exact hstored k f ((h.links k f).mp hf).1

/-- Where nothing is to go nothing goes. -/
theorem Unlinked.of_none {gone : String → Prop}
    (h : ∀ k f, s.tables.files.get? k = some f → f.knowledgeId = kb → ¬ gone f.fileId) :
    Unlinked s s kb gone where
  bases := rfl
  directories := rfl
  links := fun k f => ⟨fun hf => ⟨hf, fun hgone => h k f hf hgone.1 hgone.2⟩, And.left⟩
  kept := fun _ _ _ _ => rfl
  fewer := fun _ _ h => h

theorem Unlinked.trans {gone gone' : String → Prop} (h : Unlinked s t kb gone)
    (h' : Unlinked t s' kb gone') :
    Unlinked s s' kb fun id => gone id ∨ gone' id where
  bases := h'.bases.trans h.bases
  directories := h'.directories.trans h.directories
  links := fun k f => by
    rw [h'.links, h.links, and_assoc]
    refine and_congr_right fun _ => ?_
    tauto
  kept := fun k f hf hkb =>
    (h'.kept k f hf (h.bases.symm ▸ hkb)).trans (h.kept k f ((h'.links k f).mp hf).1 hkb)
  fewer := fun id file hfile => h.fewer id file (h'.fewer id file hfile)

/-- Nothing happens, or the links of the file are removed, and with them perhaps the file, when no
knowledge base links it any more. -/
theorem cleanupFile_cases (retention : Bool) (user : Caller) (kb : String) (s : Store)
    (fileId : String) :
    (cleanupFile retention user kb s fileId = s ∧
      (s.files.get? fileId = none ∨ hasFile s.tables.files kb fileId = false)) ∨
    ∃ files, cleanupFile retention user kb s fileId =
        { s with
          tables := { s.tables with files := removeFile s.tables.files kb fileId },
          files := files } ∧
      (∀ k f, (removeFile s.tables.files kb fileId).get? k = some f → f.knowledgeId ∈ s.bases →
        files.get? f.fileId = s.files.get? f.fileId) ∧
      ∀ id file, files.get? id = some file → s.files.get? id = some file := by
  rw [cleanupFile]
  cases hfile : s.files.get? fileId with
  | none => exact .inl ⟨rfl, .inl rfl⟩
  | some file =>
      dsimp only
      split_ifs with hhas herase
      · have hother : ∀ k f, (removeFile s.tables.files kb fileId).get? k = some f →
          f.knowledgeId ∈ s.bases →
            f.fileId ≠ fileId := by
          intro k f hf hkb heq
          exact List.any_eq_false.mp herase.2.1 (k, f) ((Dict.mem_entries_iff _ _ _).mpr hf)
            (decide_eq_true ⟨heq, hkb⟩)
        refine .inr ⟨_, rfl, fun k f hf hkb => ?_, fun id file' hget => ?_⟩
        · rw [Dict.get?_erase, if_neg (hother k f hf hkb)]
        · rw [Dict.get?_erase] at hget
          split_ifs at hget
          exact hget
      · exact .inr ⟨s.files, rfl, fun _ _ _ _ => rfl, fun _ _ hget => hget⟩
      · exact .inl ⟨rfl, .inr (Bool.eq_false_iff.mpr hhas)⟩

/-- Cleaning one file up. -/
theorem cleanupFile_unlinked (hstored : Stored s) (fileId : String) :
    Unlinked s (cleanupFile retention user kb s fileId) kb (· = fileId) := by
  rcases cleanupFile_cases retention user kb s fileId with ⟨heq, hwhy⟩ | ⟨files, heq, hkept, hfewer⟩
  · rw [heq]
    refine .of_none fun k f hf hkb hid => ?_
    rcases hwhy with hnone | hnot
    · obtain ⟨-, file, hget⟩ := hstored k f hf
      rw [hid, hnone] at hget
      cases hget
    · exact hasFile_eq_false.mp hnot k f hf hkb hid
  · rw [heq]
    exact ⟨rfl, rfl, fun k f => get?_removeFile, hkept, hfewer⟩

/-- Cleaning several files up. -/
theorem cleanupFiles_unlinked (hstored : Stored s) (fileIds : List String) :
    Unlinked s (fileIds.foldl (cleanupFile retention user kb) s) kb (· ∈ fileIds) := by
  induction fileIds generalizing s with
  | nil => exact .of_none fun _ _ _ _ hin => absurd hin List.not_mem_nil
  | cons fileId fileIds ih =>
      have hstep : Unlinked s (cleanupFile retention user kb s fileId) kb (· = fileId) :=
        cleanupFile_unlinked hstored fileId
      have hboth := hstep.trans (ih (hstep.stored hstored))
      rw [List.foldl_cons]
      exact ⟨hboth.bases, hboth.directories,
        fun k f => (hboth.links k f).trans (by rw [List.mem_cons]),
        hboth.kept, hboth.fewer⟩

/-- The files that are left are where they were. -/
theorem Unlinked.at_iff {gone : String → Prop} (h : Unlinked s s' kb gone) (hstored : Stored s) :
    At s' kb path filename id checksum ↔ At s kb path filename id checksum ∧ ¬ gone id := by
  constructor
  · rintro ⟨k, f, file, hf, hkb, rfl, hpath, hget, hname, hhash⟩
    obtain ⟨hf', hgone⟩ := (h.links k f).mp hf
    exact ⟨⟨k, f, file, hf', hkb, rfl, h.directories ▸ hpath, h.fewer _ _ hget, hname, hhash⟩,
      fun hid =>
      hgone ⟨hkb, hid⟩⟩
  · rintro ⟨⟨k, f, file, hf, hkb, rfl, hpath, hget, hname, hhash⟩, hgone⟩
    have hf' := (h.links k f).mpr ⟨hf, fun hboth => hgone hboth.2⟩
    exact ⟨k, f, file, hf', hkb, rfl, h.directories.symm ▸ hpath,
      (h.kept_of_stored hstored hf').trans hget,
      hname, hhash⟩

/-- The directories stay. -/
theorem Unlinked.tables_eq {gone : String → Prop} (h : Unlinked s s' kb gone) :
    s'.tables = ⟨s.tables.directories, s'.tables.files⟩ := by
  rw [← h.directories]

/-- Removing files keeps the knowledge base in order. -/
theorem Unlinked.orderly {gone : String → Prop} (h : Unlinked s s' kb gone)
    (horderly : Orderly s kb) : Orderly s' kb where
  base := h.bases.symm ▸ horderly.base
  placed := h.tables_eq ▸ horderly.placed.fewerLinks fun k f hf => ((h.links k f).mp hf).1
  intact := by
    have hrelinks : Relinks none s.tables.files s'.tables.files :=
      .of_sub fun k f hf => ((h.links k f).mp hf).1
    rw [h.tables_eq]
    exact hrelinks.intact horderly.intact fun p hp => by cases hp
  acyclic := h.directories.symm ▸ horderly.acyclic
  plain := h.directories.symm ▸ horderly.plain
  roots := h.directories.symm ▸ horderly.roots
  stored := h.stored horderly.stored
  keys := fun path filename id id' checksum checksum' hat hat' =>
    horderly.keys path filename id id' checksum checksum' ((h.at_iff horderly.stored).mp hat).1
      ((h.at_iff horderly.stored).mp hat').1
  settled := fun id file hget => horderly.settled id file (h.fewer id file hget)

/-! ## Removing directories -/

/-- A directory of the knowledge base that the manifest does not require. -/
def Orphan (dirs : Directories) (kb : String) (manifest : List Entry) (id : String) : Prop :=
  ∃ path, IsPath (nodeIn dirs kb) path id ∧ ¬ Required manifest path

/-- Below a directory of the knowledge base lie directories of the knowledge base. -/
theorem Orderly.below_of_inSubtree (h : Orderly s kb) {k : String}
    (hid : ∃ place, nodeIn s.tables.directories kb id = some place)
    (hin : InSubtree s.tables.directories id k) :
    Relation.ReflTransGen (Forest.Up (parent (nodeIn s.tables.directories kb))) k id := by
  induction hin using Relation.ReflTransGen.head_induction_on with
  | refl => exact .refl
  | @head c p hlink _ ih =>
      obtain ⟨place, hplace⟩ := nodeIn_of_below hid ih
      obtain ⟨above, habove, hkb, -⟩ := nodeIn_eq_some.mp hplace
      obtain ⟨row, above', hrow, habove', heq⟩ := h.placed.exists_parent h.intact hlink
      obtain rfl := Option.some.inj (habove.symm.trans habove')
      have hparent : row.parentId = some p := by
        have hget : parentOf s.tables.directories c = some p := hlink
        rwa [parentOf, hrow] at hget
      refine ih.head (parent_eq_some.mpr
        ⟨row.name.toList, nodeIn_eq_some.mpr ⟨row, hrow, heq.symm.trans hkb, ?_⟩⟩)
      rw [hparent]

/-- What lies below an orphan is an orphan. -/
theorem Orphan.below (h : Orphan s.tables.directories kb manifest id) (horderly : Orderly s kb)
    {k : String} (hin : InSubtree s.tables.directories id k) :
    Orphan s.tables.directories kb manifest k := by
  obtain ⟨path, hpath, hnot⟩ := h
  obtain ⟨rest, hrest⟩ :=
    (hpath.below_iff horderly.wellNamed.apart).mpr
      (horderly.below_of_inSubtree hpath.exists_place hin)
  exact ⟨path ++ rest, hrest, fun hrequired => hnot (hrequired.front hpath.ne_nil)⟩

/-- A subtree only shrinks. -/
theorem Fewer.inSubtree {dirs dirs' : Directories} (h : Fewer dirs dirs') {k : String}
    (hin : InSubtree dirs' id k) :
    InSubtree dirs id k :=
  Relation.ReflTransGen.mono (fun _ _ => h.parent_eq) _ _ hin

/-- Some orphans of the knowledge base are gone, and nothing else has changed. -/
structure Pruned (s t : Store) (kb : String) (manifest : List Entry) : Prop where
  bases : t.bases = s.bases
  files : t.files = s.files
  links : ∀ k, t.tables.files.get? k = s.tables.files.get? k
  fewer : Fewer s.tables.directories t.tables.directories
  kept : ∀ k, ¬ Orphan s.tables.directories kb manifest k →
    t.tables.directories.get? k = s.tables.directories.get? k

/-- Pruning closes no loop. -/
theorem Pruned.acyclic (h : Pruned s t kb manifest) (horderly : Orderly s kb) :
    Forest.Acyclic (parentOf t.tables.directories) :=
  h.fewer.acyclic horderly.acyclic

/-- Pruning keeps everything in its knowledge base. -/
theorem Pruned.placed (h : Pruned s t kb manifest) (horderly : Orderly s kb) : Placed t.tables where
  directories := h.fewer.placed horderly.placed.directories
  linked := fun k f d row hf hd hrow =>
    horderly.placed.linked k f d row (h.links k ▸ hf) hd (h.fewer d row hrow)
  once := fun k k' f f' hf hf' => horderly.placed.once k k' f f' (h.links k ▸ hf) (h.links k' ▸ hf')

/-- No file of the knowledge base lies in an orphan. -/
def NoneInOrphans (s : Store) (kb : String) (manifest : List Entry) : Prop :=
  ∀ k f d, s.tables.files.get? k = some f → f.directoryId = some d →
    ¬ Orphan s.tables.directories kb manifest d

/-- A directory that is no orphan stays. -/
theorem Pruned.mem_of_not_orphan (h : Pruned s t kb manifest) {d : String}
    (hd : d ∈ s.tables.directories) (hnot : ¬ Orphan s.tables.directories kb manifest d) :
    d ∈ t.tables.directories := by
  obtain ⟨row, hrow⟩ := (Dict.mem_iff_exists _ _).mp hd
  exact (Dict.mem_iff_exists _ _).mpr ⟨row, (h.kept d hnot).trans hrow⟩

/-- While orphans are removed, no link loses its directory. -/
theorem Pruned.forest (h : Pruned s t kb manifest) (horderly : Orderly s kb)
    (hnone : NoneInOrphans s kb manifest) :
    DirectoryForest t.tables where
  acyclic := h.acyclic horderly
  placed := fun k f d hf hd =>
    have hf := h.links k ▸ hf
    h.mem_of_not_orphan (horderly.intact.links k f d hf hd) (hnone k f d hf hd)
  ids := (h.placed horderly).directories.ids

/-- One request to remove an orphan; without foreign keys what lies below it may stay. -/
theorem cleanupDirectory_pruned (horderly : Orderly s kb) (hnone : NoneInOrphans s kb manifest)
    (h : Pruned s t kb manifest) (horphan : Orphan s.tables.directories kb manifest id) :
    ∃ n t', (∀ fuel, n ≤ fuel → cleanupDirectory fk fuel kb t id = some t') ∧
      Pruned s t' kb manifest ∧
      Fewer t.tables.directories t'.tables.directories ∧ t'.tables.directories.get? id = none := by
  cases hget : t.tables.directories.get? id with
  | none =>
      refine ⟨0, t, fun fuel _ => ?_, h, fun _ _ hrow => hrow, hget⟩
      rw [cleanupDirectory, hget]
  | some d =>
      have hkb : d.knowledgeId = kb := by
        obtain ⟨path, hpath, -⟩ := horphan
        obtain ⟨place, hplace⟩ := hpath.exists_place
        obtain ⟨d', hd', hkb', -⟩ := nodeIn_eq_some.mp hplace
        rw [Option.some.inj ((h.fewer id d hget).symm.trans hd')]
        exact hkb'
      obtain ⟨n, files, hdelete, hdeletes⟩ :=
        deleteDirectory_deleting (h.forest horderly hnone) hget
      have hsubtree : ∀ k, InSubtree t.tables.directories id k →
        Orphan s.tables.directories kb manifest k := by
        intro k hin
        exact horphan.below horderly (h.fewer.inSubtree hin)
      have hrows := directories_deleteRow fk ⟨t.tables.directories, files⟩ id
      have hless := fewer_deleteRow fk ⟨t.tables.directories, files⟩ id
      refine ⟨n, { t with tables := deleteRow fk ⟨t.tables.directories, files⟩ id },
        fun fuel hfuel => ?_,
        ⟨h.bases, h.files, fun k => ?_, fun k row hrow => ?_, fun k hk => ?_⟩, hless,
          (hrows id).1 gone_self⟩
      · rw [cleanupDirectory, hget]
        dsimp only
        rw [if_neg (not_not.mpr hkb), hdelete fuel hfuel]
        rfl
      · -- no file is left in the subtree to be deleted with it
        rw [← h.links k]
        refine (hdeletes k).2 fun f hf => ?_
        rintro ⟨p, hin, hp⟩
        exact hnone k f p (h.links k ▸ hf) hp (hsubtree p hin)
      · exact h.fewer k row (hless k row hrow)
      · exact ((hrows k).2 fun hgone => hk (hsubtree k hgone.inSubtree)).trans (h.kept k hk)

/-- Whatever the order of the requests, all orphans listed are gone in the end. -/
theorem cleanupDirectories_pruned (horderly : Orderly s kb) (hnone : NoneInOrphans s kb manifest)
    {dirIds : List String} (horphans : ∀ id ∈ dirIds, Orphan s.tables.directories kb manifest id)
    (h : Pruned s t kb manifest) :
    ∃ n t', (∀ fuel, n ≤ fuel → dirIds.foldlM (cleanupDirectory fk fuel kb) t = some t') ∧
      Pruned s t' kb manifest ∧
      Fewer t.tables.directories t'.tables.directories ∧
        ∀ id ∈ dirIds, t'.tables.directories.get? id = none := by
  induction dirIds generalizing t with
  | nil => exact ⟨0, t, fun _ _ => rfl, h, fun _ _ hrow => hrow,
      fun _ hid => absurd hid List.not_mem_nil⟩
  | cons id dirIds ih =>
      obtain ⟨n, u, hstep, hpruned, hless, hgone⟩ :=
        cleanupDirectory_pruned horderly hnone h (horphans id List.mem_cons_self)
      obtain ⟨n', t', hrest, hpruned', hless', hgone'⟩ :=
        ih (fun id hid => horphans id (List.mem_cons_of_mem _ hid)) hpruned
      refine ⟨max n n', t', fun fuel hfuel => ?_, hpruned',
        fun k row hrow => hless k row (hless' k row hrow),
        fun k hk => ?_⟩
      · rw [List.foldlM_cons, hstep fuel (le_of_max_le_left hfuel)]
        exact hrest fuel (le_of_max_le_right hfuel)
      · rcases List.mem_cons.mp hk with rfl | hk
        · -- what has been removed does not come back
          by_contra hne
          obtain ⟨row, hrow⟩ := Option.ne_none_iff_exists'.mp hne
          rw [hless' k row hrow] at hgone
          cases hgone
        · exact hgone' k hk

/-- The orphans listed were all there are. -/
structure Swept (s t : Store) (kb : String) (manifest : List Entry) :
    Prop extends Pruned s t kb manifest where
  swept : ∀ k, Orphan s.tables.directories kb manifest k → t.tables.directories.get? k = none

/-- What stays keeps its place. -/
theorem Pruned.nodeIn_sub (h : Pruned s t kb manifest) {y : String} {place : Option String × Text}
    (hy : nodeIn t.tables.directories kb y = some place) :
    nodeIn s.tables.directories kb y = some place := by
  obtain ⟨d, hd, hplace⟩ := nodeIn_eq_some.mp hy
  exact nodeIn_eq_some.mpr ⟨d, h.fewer y d hd, hplace⟩

/-- A required directory stays in its place. -/
theorem Pruned.nodeIn_kept (h : Pruned s t kb manifest)
    (hpath : IsPath (nodeIn s.tables.directories kb) path id) (hrequired : Required manifest path) :
    nodeIn t.tables.directories kb id = nodeIn s.tables.directories kb id := by
  rw [nodeIn, nodeIn, h.kept id]
  rintro ⟨path', hpath', hnot⟩
  exact hnot (hpath.unique hpath' ▸ hrequired)

/-- The directories left are those the manifest requires. -/
theorem Swept.isPath_iff (h : Swept s t kb manifest) :
    IsPath (nodeIn t.tables.directories kb) path id ↔
    IsPath (nodeIn s.tables.directories kb) path id ∧ Required manifest path := by
  constructor
  · intro hpath
    have hpath' := hpath.mono fun y place => h.nodeIn_sub
    refine ⟨hpath', by_contra fun hnot => ?_⟩
    obtain ⟨place, hplace⟩ := hpath.exists_place
    obtain ⟨d, hd, -⟩ := nodeIn_eq_some.mp hplace
    rw [h.swept id ⟨path, hpath', hnot⟩] at hd
    cases hd
  · rintro ⟨hpath, hrequired⟩
    induction hpath with
    | root hroot => exact .root (h.nodeIn_kept (.root hroot) hrequired ▸ hroot)
    | child hchild hp ih =>
        exact .child (h.nodeIn_kept (.child hchild hp) hrequired ▸ hchild)
          (ih (hrequired.front hp.ne_nil))

/-- The files stay where they are. -/
theorem Swept.at_iff (h : Swept s t kb manifest) (hnone : NoneInOrphans s kb manifest) :
    At t kb path filename id checksum ↔ At s kb path filename id checksum := by
  have hplaces : ∀ k f, s.tables.files.get? k = some f →
      (PlacePath t.tables.directories kb path f.directoryId ↔
      PlacePath s.tables.directories kb path f.directoryId) := by
    intro k f hf
    cases hd : f.directoryId with
    | none => exact Iff.rfl
    | some d =>
        refine h.isPath_iff.trans (and_iff_left_of_imp fun hpath => by_contra fun hnot => ?_)
        exact hnone k f d hf hd ⟨path, hpath, hnot⟩
  constructor
  · rintro ⟨k, f, file, hf, hkb, hfile, hpath, hget, hrest⟩
    have hf := h.links k ▸ hf
    exact ⟨k, f, file, hf, hkb, hfile, (hplaces k f hf).mp hpath, h.files ▸ hget, hrest⟩
  · rintro ⟨k, f, file, hf, hkb, hfile, hpath, hget, hrest⟩
    exact ⟨k, f, file, (h.links k).trans hf, hkb, hfile, (hplaces k f hf).mpr hpath,
      h.files.symm ▸ hget, hrest⟩

/-- Where all orphans are gone, no foreign key is broken. -/
theorem Swept.intact (h : Swept s t kb manifest) (hnone : NoneInOrphans s kb manifest)
    (horderly : Orderly s kb) : Intact t.tables where
  parents := fun c p hp => by
    have hparent := h.fewer.parent_eq hp
    refine h.mem_of_not_orphan (horderly.intact.parents c p hparent) fun horphan => ?_
    have hgone := h.swept c (horphan.below horderly (.single hparent))
    exact (Dict.get?_eq_none_iff _ _).mp hgone (mem_of_parentOf hp)
  links := (h.forest horderly hnone).placed

/-- The clean-up keeps the knowledge base in order. -/
theorem Swept.orderly (h : Swept s t kb manifest) (hnone : NoneInOrphans s kb manifest)
    (horderly : Orderly s kb) : Orderly t kb where
  base := h.bases.symm ▸ horderly.base
  placed := h.placed horderly
  intact := h.intact hnone horderly
  acyclic := h.acyclic horderly
  plain := fun k d hd => horderly.plain k d (h.fewer k d hd)
  roots := fun c c' d d' hd hd' => horderly.roots c c' d d' (h.fewer c d hd) (h.fewer c' d' hd')
  stored := fun k f hf => by
    rw [h.files, h.bases]
    exact horderly.stored k f (h.links k ▸ hf)
  keys := fun path filename id id' checksum checksum' hat hat' =>
    horderly.keys path filename id id' checksum checksum' ((h.at_iff hnone).mp hat)
      ((h.at_iff hnone).mp hat')
  settled := fun id file hget => horderly.settled id file (h.files ▸ hget)

/-! ## The cleanup -/

/-- What the cleanup leaves. -/
structure Cleaned (s t : Store) (kb : String) (manifest : List Entry) : Prop where
  orderly : Orderly t kb
  paths : ∀ path id, IsPath (nodeIn t.tables.directories kb) path id ↔
    IsPath (nodeIn s.tables.directories kb) path id ∧ Required manifest path
  files : ∀ path filename id checksum, At t kb path filename id checksum ↔
    At s kb path filename id checksum ∧ Wanted manifest path filename checksum
  fewer : Fewer s.tables.directories t.tables.directories
  fewerLinks : ∀ k f, t.tables.files.get? k = some f → s.tables.files.get? k = some f
  fewerFiles : ∀ id file, t.files.get? id = some file → s.files.get? id = some file

/-- A wanted file requires its directory. -/
theorem Wanted.required (h : Wanted manifest path filename checksum)
    (hplain : ∀ name ∈ path, Plain '/' name) (hne : path ≠ []) :
    Required manifest path := by
  obtain ⟨e, he, hpath, -⟩ := h
  refine ⟨hne, e, he, ?_⟩
  rw [hpath, partsOf_joined hplain]

/-- The clean-up ends, and removes what the diff lists. -/
theorem exists_cleanup (horderly : Orderly s kb) {diff : Diff}
    (hdiff : DiffSpec s kb manifest diff) :
    ∃ n t, (∀ fuel, n ≤ fuel → syncCleanup fk fuel retention user kb
      (diff.deleted.map Prod.fst ++ diff.modified.map Prod.snd) diff.rmdir s = some t) ∧
        Cleaned s t kb manifest := by
  let stale := diff.deleted.map Prod.fst ++ diff.modified.map Prod.snd
  let u := stale.foldl (cleanupFile retention user kb) s
  have hunlinked : Unlinked s u kb (· ∈ stale) := cleanupFiles_unlinked horderly.stored stale
  have horderly' : Orderly u kb := hunlinked.orderly horderly
  have hfiles : ∀ path filename id checksum, At u kb path filename id checksum ↔
      At s kb path filename id checksum ∧ Wanted manifest path filename checksum := by
    intro path filename id checksum
    rw [hunlinked.at_iff horderly.stored]
    refine and_congr_right fun hat => ?_
    rw [hdiff.stale, not_exists]
    constructor
    · intro hnot
      by_contra hunwanted
      exact hnot path ⟨filename, checksum, hat, hunwanted⟩
    · rintro hwanted path' ⟨filename', checksum', hat', hnot⟩
      obtain ⟨rfl, rfl, rfl⟩ := hat.unique horderly.placed hat'
      exact hnot hwanted
  -- a file in an orphan is wanted by no entry, so its link is gone by now
  have hnone : NoneInOrphans u kb manifest := by
    rintro k f d hf hd ⟨path, hpath, hnot⟩
    obtain ⟨place, hplace⟩ := hpath.exists_place
    obtain ⟨row, hrow, hkb, -⟩ := nodeIn_eq_some.mp hplace
    have hkb' := horderly'.placed.linked k f d row hf hd hrow
    obtain ⟨-, file, hget⟩ := horderly'.stored k f hf
    have hat : At u kb path file.filename f.fileId file.fileHash :=
      ⟨k, f, file, hf, hkb'.symm.trans hkb, rfl, by rw [hd]; exact hpath, hget, rfl, rfl⟩
    exact hnot (((hfiles _ _ _ _).mp hat).2.required (hat.plain horderly'.wellNamed) hpath.ne_nil)
  have hdirs : u.tables.directories = s.tables.directories := hunlinked.directories
  have hlisted : ∀ id, id ∈ diff.rmdir.reverse ↔ Orphan u.tables.directories kb manifest id := by
    intro id
    rw [List.mem_reverse, hdiff.rmdir, hdirs]
    rfl
  have hstart : Pruned u u kb manifest :=
    ⟨rfl, rfl, fun _ => rfl, fun _ _ hrow => hrow, fun _ _ => rfl⟩
  obtain ⟨n, t, hrun, hpruned, -, hgone⟩ :=
    cleanupDirectories_pruned horderly' hnone (fun id hid => (hlisted id).mp hid) hstart
  have hswept : Swept u t kb manifest := ⟨hpruned, fun k hk => hgone k ((hlisted k).mpr hk)⟩
  refine ⟨n, t, hrun, hswept.orderly hnone horderly', fun path id => ?_,
    fun path filename id checksum => ?_,
    fun k row hrow => ?_,
    fun k f hf => ?_, fun id file hget => ?_⟩
  · rw [hswept.isPath_iff, hdirs]
  · rw [hswept.at_iff hnone, hfiles]
  · exact hdirs ▸ hpruned.fewer k row hrow
  · exact ((hunlinked.links k f).mp (hpruned.links k ▸ hf)).1
  · exact hunlinked.fewer id file (hpruned.files ▸ hget)

end OpenWebUI.Knowledge
