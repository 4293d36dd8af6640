import OpenWebUI.Knowledge.SyncMirror

/-! # A sync keeps to its knowledge base

Whatever the manifest says and whatever state the knowledge base is in, a sync that ends has changed
nothing of another knowledge base: no directory, no link and no file that is linked there. A file
that two knowledge bases share survives being deleted from one of them.
-/

namespace OpenWebUI.Knowledge

open Py

variable {fk : Bool} {s t u : Store} {kb id : String} {dirs : Directories} {manifest : List Entry}
    {newId : Text → String}
  {outcome : Entry → Outcome} {user : Caller} {retention : Bool} {now : ℤ} {fuel : ℕ}
  {sets : SetOrder}

/-- Nothing of another knowledge base has changed. -/
structure Elsewhere (s t : Store) (kb : String) : Prop where
  directories : ∀ k row, row.knowledgeId ≠ kb →
    (t.tables.directories.get? k = some row ↔ s.tables.directories.get? k = some row)
  links : ∀ k f, f.knowledgeId ≠ kb →
    (t.tables.files.get? k = some f ↔ s.tables.files.get? k = some f)
  bases : t.bases = s.bases
  files : ∀ k f, s.tables.files.get? k = some f → f.knowledgeId ∈ s.bases → f.knowledgeId ≠ kb →
    t.files.get? f.fileId = s.files.get? f.fileId

theorem Elsewhere.refl (s : Store) (kb : String) : Elsewhere s s kb :=
  ⟨fun _ _ _ => Iff.rfl, fun _ _ _ => Iff.rfl, rfl, fun _ _ _ _ _ => rfl⟩

theorem Elsewhere.trans (h : Elsewhere s t kb) (h' : Elsewhere t u kb) : Elsewhere s u kb where
  directories := fun k row hkb => (h'.directories k row hkb).trans (h.directories k row hkb)
  links := fun k f hkb => (h'.links k f hkb).trans (h.links k f hkb)
  bases := h'.bases.trans h.bases
  files := fun k f hf hbase hkb =>
    (h'.files k f ((h.links k f hkb).mpr hf) (h.bases.symm ▸ hbase) hkb).trans
      (h.files k f hf hbase hkb)

/-! ## Removing files -/

/-- Cleaning a file up changes nothing elsewhere. -/
theorem cleanupFile_elsewhere (h : Placed s.tables) (fileId : String) :
    Elsewhere s (cleanupFile retention user kb s fileId) kb ∧
      Placed (cleanupFile retention user kb s fileId).tables := by
  have hlinks : ∀ k f, f.knowledgeId ≠ kb →
      ((removeFile s.tables.files kb fileId).get? k = some f ↔ s.tables.files.get? k = some f) :=
        fun k f hkb =>
    get?_removeFile.trans (and_iff_left fun hboth => hkb hboth.1)
  have hplaced : Placed ⟨s.tables.directories, removeFile s.tables.files kb fileId⟩ :=
    h.fewerLinks fun k f hf => (get?_removeFile.mp hf).1
  rcases cleanupFile_cases retention user kb s fileId with ⟨heq, -⟩ | ⟨files, heq, hkept, -⟩
  · rw [heq]
    exact ⟨.refl s kb, h⟩
  · rw [heq]
    -- a file that another knowledge base links is kept
    exact ⟨⟨fun _ _ _ => Iff.rfl, hlinks, rfl,
      fun k f hf hbase hkb => hkept k f ((hlinks k f hkb).mpr hf) hbase⟩,
      hplaced⟩

/-! ## Removing directories -/

/-- What lies below a directory is in its knowledge base. -/
theorem knowledgeId_of_inSubtree (h : PlacedDirectories dirs) {row : Directory}
    (hget : dirs.get? id = some row) {k : String} (hin : InSubtree dirs id k) :
    ∃ below, dirs.get? k = some below ∧ below.knowledgeId = row.knowledgeId := by
  induction hin using Relation.ReflTransGen.head_induction_on with
  | refl => exact ⟨row, hget, rfl⟩
  | head hlink _ ih =>
      obtain ⟨above, habove, hkb⟩ := ih
      obtain ⟨child, hchild⟩ := (Dict.mem_iff_exists _ _).mp (mem_of_parentOf hlink)
      exact ⟨child, hchild, (h.parents _ _ hlink child above hchild habove).symm.trans hkb⟩

/-- Links outside the subtree are not deleted. -/
theorem deleteFilesInSubtree_keeps (fuel : ℕ) : ∀ (x : String) (files files' : Files),
    deleteFilesInSubtree dirs fuel x files = some files' → ∀ k f, files.get? k = some f →
      (∀ d, f.directoryId = some d → ¬ InSubtree dirs x d) → files'.get? k = some f := by
  induction fuel with
  | zero =>
      intro x files files' h
      cases h
  | succ fuel ih =>
      intro x files files' h k f hf hout
      rw [deleteFilesInSubtree] at h
      have hloop :
        ∀ (children : List String) (files₀ : Files), (∀ c ∈ children, parentOf dirs c = some x) →
          children.foldlM (fun files childId => deleteFilesInSubtree dirs fuel childId files)
            files₀ = some files' →
          files₀.get? k = some f → files'.get? k = some f := by
        intro children
        induction children with
        | nil => exact fun files₀ _ h hf => Option.some.inj h ▸ hf
        | cons c children ihc =>
            intro files₀ hchildren h hf
            rw [List.foldlM_cons] at h
            obtain ⟨files₁, h₁, hrest⟩ := Option.bind_eq_some_iff.mp h
            have hkept := ih c _ _ h₁ k f hf fun d hd hin =>
              hout d hd (hin.tail (hchildren c List.mem_cons_self))
            exact ihc files₁ (fun c' hc' => hchildren c' (List.mem_cons_of_mem _ hc')) hrest hkept
      refine hloop _ _ (fun c hc => (mem_childIds x c).mp hc) h ?_
      rw [deleteFiles, Dict.get?_filterMapVal, hf, Option.bind_some]
      exact if_neg fun heq => hout x heq .refl

/-- A link after a delete is one from before, with its directory unless that is gone. -/
theorem link_of_deleteRow {tables : Tables} {k : String} {f : KnowledgeFile}
    (hf : (deleteRow fk tables id).files.get? k = some f) : ∃ g, tables.files.get? k = some g ∧
      f.knowledgeId = g.knowledgeId ∧
      ((∀ p, g.directoryId = some p → ¬ InSubtree tables.directories id p) → f = g) := by
  cases fk with
  | false => exact ⟨f, hf, rfl, fun _ => rfl⟩
  | true =>
      obtain ⟨g, hg, rfl⟩ := Option.map_eq_some_iff.mp ((Dict.get?_mapVal _ _ _).symm.trans hf)
      refine ⟨g, hg, by split_ifs <;> rfl, fun hout => if_neg fun hgone => ?_⟩
      obtain ⟨p, hp, hmem⟩ := (Option.any_eq_true _ _).mp hgone
      exact hout p hp ((mem_cascadeIds p).mp (of_decide_eq_true hmem))

/-- A link that does not lead into the subtree stays. -/
theorem deleteRow_keeps_link {tables : Tables} {k : String} {f : KnowledgeFile}
    (hf : tables.files.get? k = some f)
    (hout : ∀ p, f.directoryId = some p → ¬ InSubtree tables.directories id p) :
    (deleteRow fk tables id).files.get? k = some f := by
  cases fk with
  | false => exact hf
  | true =>
      refine (Dict.get?_mapVal _ _ _).trans ?_
      rw [hf, Option.map_some, if_neg]
      intro hgone
      obtain ⟨p, hp, hmem⟩ := (Option.any_eq_true _ _).mp hgone
      exact hout p hp ((mem_cascadeIds p).mp (of_decide_eq_true hmem))

/-- Cleaning a directory up changes nothing elsewhere. -/
theorem cleanupDirectory_elsewhere (h : Placed s.tables)
    (hrun : cleanupDirectory fk fuel kb s id = some t) :
    Elsewhere s t kb ∧ Placed t.tables := by
  rw [cleanupDirectory] at hrun
  cases hget : s.tables.directories.get? id with
  | none =>
      rw [hget] at hrun
      exact Option.some.inj hrun ▸ ⟨.refl s kb, h⟩
  | some d =>
      rw [hget] at hrun
      dsimp only at hrun
      split_ifs at hrun with hkb
      · exact Option.some.inj hrun ▸ ⟨.refl s kb, h⟩
      · rw [not_not] at hkb
        obtain ⟨⟨tables, answer⟩, hdelete, rfl⟩ := Option.map_eq_some_iff.mp hrun
        have hplaced : Placed tables := h.deleteDirectory hdelete
        rw [deleteDirectory, hget] at hdelete
        dsimp only at hdelete
        rw [if_neg Bool.false_ne_true] at hdelete
        obtain ⟨files, hfiles, hrest⟩ := Option.bind_eq_some_iff.mp hdelete
        obtain rfl : deleteRow fk ⟨s.tables.directories, files⟩ id = tables :=
          (Prod.ext_iff.mp (Option.some.inj hrest)).1
        have hsub : ∀ k, InSubtree s.tables.directories id k →
            ∃ row, s.tables.directories.get? k = some row ∧ row.knowledgeId = kb := by
          intro k hin
          obtain ⟨row, hrow, hsame⟩ := knowledgeId_of_inSubtree h.directories hget hin
          exact ⟨row, hrow, hsame.trans hkb⟩
        -- no link of another knowledge base leads into the subtree
        have hout : ∀ k f p, s.tables.files.get? k = some f → f.knowledgeId ≠ kb →
          f.directoryId = some p →
            ¬ InSubtree s.tables.directories id p := by
          intro k f p hf hother hp hin
          obtain ⟨row, hrow, hsame⟩ := hsub p hin
          exact hother ((h.linked k f p row hf hp hrow).symm.trans hsame)
        have hrows := directories_deleteRow fk ⟨s.tables.directories, files⟩ id
        refine ⟨⟨fun k row hother => ?_, fun k f hother => ⟨fun hleft => ?_, fun hright => ?_⟩, rfl,
          fun _ _ _ _ _ => rfl⟩, hplaced⟩
        · by_cases hgone : Gone fk s.tables.directories id k
          · obtain ⟨row', hrow', hkb'⟩ := hsub k hgone.inSubtree
            refine iff_of_false (fun hleft => ?_) fun hright => ?_
            · rw [show _ = none from (hrows k).1 hgone] at hleft
              cases hleft
            · exact hother (Option.some.inj (hright.symm.trans hrow') ▸ hkb')
          · rw [show _ = s.tables.directories.get? k from (hrows k).2 hgone]
        · obtain ⟨g, hg, hsame⟩ := link_of_deleteRow hleft
          have hold := deleteFilesInSubtree_sub fuel id _ files hfiles k g hg
          have hgkb : g.knowledgeId ≠ kb := by rwa [hsame.1] at hother
          rw [hsame.2 fun p hp => hout k g p hold hgkb hp]
          exact hold
        · have hkept := deleteFilesInSubtree_keeps fuel id _ files hfiles k f hright fun p hp =>
            hout k f p hright hother hp
          exact deleteRow_keeps_link hkept fun p hp => hout k f p hright hother hp

/-! ## New rows -/

/-- Creating a directory changes nothing elsewhere. -/
theorem createDirectory_elsewhere {row row' : Directory} (hkb : row.knowledgeId = kb)
    (hother : row'.knowledgeId ≠ kb) (k : String) :
    (createDirectory fk dirs id row).1.get? k = some row' ↔ dirs.get? k = some row' := by
  rcases createDirectory_cases fk dirs id row with hsame | ⟨hset, hnew, -⟩
  · rw [hsame]
  · rw [hset, Dict.get?_set]
    split_ifs with hk
    · refine iff_of_false (fun hleft => hother (Option.some.inj hleft ▸ hkb)) fun hright => ?_
      exact hnew (hk ▸ Dict.mem_of_get? hright)
    · exact Iff.rfl

/-- Creating a missing path changes nothing elsewhere. -/
theorem createMissing_elsewhere {p p' : Store × Dict Text String} {text : Text}
    (hrun : createMissing fk user kb now newId p text = some p') : Elsewhere p.1 p'.1 kb := by
  rw [createMissing] at hrun
  dsimp only at hrun
  split_ifs at hrun
  all_goals
    obtain ⟨row, -, rfl⟩ := Option.map_eq_some_iff.mp hrun
    exact ⟨fun k row hother => createDirectory_elsewhere rfl hother k, fun _ _ _ => Iff.rfl, rfl,
      fun _ _ _ _ _ => rfl⟩

/-- Adding a link changes nothing elsewhere. -/
theorem addFileToKnowledge_elsewhere {tables : Tables} {link : KnowledgeFile}
    (hkb : link.knowledgeId = kb) :
    (addFileToKnowledge fk tables id link).directories = tables.directories ∧
      ∀ k f, f.knowledgeId ≠ kb →
      ((addFileToKnowledge fk tables id link).files.get? k = some f ↔
        tables.files.get? k = some f) := by
  rcases addFileToKnowledge_cases fk tables id link with hsame | ⟨hset, hnew, -⟩
  · rw [hsame]
    exact ⟨rfl, fun _ _ _ => Iff.rfl⟩
  · rw [hset]
    refine ⟨rfl, fun k f hother => ?_⟩
    rw [Dict.get?_set]
    split_ifs with hk
    · refine iff_of_false (fun hleft => hother (Option.some.inj hleft ▸ hkb)) fun hright => ?_
      exact hnew (hk ▸ Dict.mem_of_get? hright)
    · exact Iff.rfl

/-- The ids drawn for uploads are those of no file that another knowledge base links. -/
def Unlinkable (s : Store) (kb : String) (manifest : List Entry)
    (outcome : Entry → Outcome) : Prop :=
  ∀ e ∈ manifest, ∀ k f, s.tables.files.get? k = some f → f.knowledgeId ≠ kb →
    f.fileId ≠ (outcome e).fileId

/-- What may be uploaded still may. -/
theorem Elsewhere.unlinkable (h : Elsewhere s t kb)
    (hfresh : Unlinkable s kb manifest outcome) : Unlinkable t kb manifest outcome :=
  fun e he k f hf hkb => hfresh e he k f ((h.links k f hkb).mp hf) hkb

/-- An upload changes nothing elsewhere. -/
theorem uploadFile_elsewhere {e : Entry} {directoryId : Option String} (he : e ∈ manifest)
    (hfresh : Unlinkable s kb manifest outcome) :
    Elsewhere s (uploadFile fk user kb now (outcome e) e directoryId s) kb := by
  have hfiles : ∀ k f, s.tables.files.get? k = some f → f.knowledgeId ≠ kb →
      (s.files.set (outcome e).fileId (uploadedFile user kb now (outcome e) e directoryId)).get?
        f.fileId =
        s.files.get? f.fileId :=
    fun k f hf hkb => Dict.get?_set_ne _ _ (hfresh e he k f hf hkb)
  rw [uploadFile]
  dsimp only
  cases (outcome e).ending with
  | refused => exact .refl s kb
  | failed => exact ⟨fun _ _ _ => Iff.rfl, fun _ _ _ => Iff.rfl, rfl,
      fun k f hf _ hkb => hfiles k f hf hkb⟩
  | linked =>
      dsimp only
      refine ⟨fun k row _ => ?_, fun k f hkb => (addFileToKnowledge_elsewhere rfl).2 k f hkb, rfl,
        fun k f hf _ hkb => hfiles k f hf hkb⟩
      exact iff_of_eq (congrArg (fun dirs : Directories => dirs.get? k = some row)
        (addFileToKnowledge_elsewhere rfl).1)

/-! ## The whole sync -/

/-- A sync that ends, of any manifest, has changed nothing of another knowledge base. -/
theorem sync_elsewhere (hplaced : Placed s.tables) (hfresh : Unlinkable s kb manifest outcome)
    (hrun : syncDirectory fk sets fuel retention user kb now newId outcome manifest s = some t) :
    Elsewhere s t kb := by
  rw [syncDirectory] at hrun
  obtain ⟨diff, -, hrun⟩ := Option.bind_eq_some_iff.mp hrun
  obtain ⟨c, hclean, hrun⟩ := Option.bind_eq_some_iff.mp hrun
  obtain ⟨⟨u, idByPath⟩, hmake, hrun⟩ := Option.bind_eq_some_iff.mp hrun
  let stale := diff.deleted.map Prod.fst ++ diff.modified.map Prod.snd
  let cleaned := stale.foldl (cleanupFile retention user kb) s
  have hfiles : Elsewhere s cleaned kb ∧ Placed cleaned.tables :=
    Transition.foldl_keeps (R := fun s t => Elsewhere s t kb) (I := fun s => Placed s.tables)
      (fun s => .refl s kb)
      (fun _ _ _ => Elsewhere.trans) (fun _ fileId _ h => cleanupFile_elsewhere h fileId) hplaced
  have hdirs : Elsewhere _ c kb ∧ Placed c.tables :=
    Transition.foldlM_keeps (R := fun s t => Elsewhere s t kb) (I := fun s => Placed s.tables)
      (fun s => .refl s kb)
      (fun _ _ _ => Elsewhere.trans) (fun _ _ _ _ => cleanupDirectory_elsewhere) hfiles.2 hclean
  have hmade : Elsewhere c u kb ∧ True :=
    Transition.foldlM_keeps (R := fun p p' => Elsewhere p.1 p'.1 kb) (I := fun _ => True)
      (fun p => .refl p.1 kb)
      (fun _ _ _ => Elsewhere.trans)
        (fun _ _ _ _ _ h => ⟨createMissing_elsewhere h, trivial⟩) trivial hmake
  have huntil := (hfiles.1.trans hdirs.1).trans hmade.1
  rw [← Option.some.inj hrun]
  refine huntil.trans (And.left (Transition.foldl_keeps (R := fun s t => Elsewhere s t kb)
    (I := fun s => Unlinkable s kb manifest outcome) (fun s => .refl s kb)
      (fun _ _ _ => Elsewhere.trans)
    (fun s e he hfresh => ?_) (huntil.unlinkable hfresh)))
  let directoryId := if e.path ≠ [] then idByPath.get? e.path else none
  have hstep : Elsewhere s (uploadFile fk user kb now (outcome e) e directoryId s) kb :=
    uploadFile_elsewhere (List.mem_of_mem_filter he) hfresh
  exact ⟨hstep, hstep.unlinkable hfresh⟩

/-- Everything in the example is in its knowledge base. -/
theorem placed_sample (secret : Text) : Placed (sampleStore secret).tables where
  directories := {
    ids := (wellNamed_sample secret "kb1").ids
    parents := fun c p _ row row' hrow hrow' => by
      rcases directories_sample hrow with ⟨rfl, rfl⟩ | ⟨rfl, rfl⟩ <;>
        rcases directories_sample hrow' with ⟨rfl, rfl⟩ | ⟨rfl, rfl⟩ <;> rfl
    siblings := fun c c' d d' p hd hd' _ hp hp' _ => by
      rcases directories_sample hd with ⟨rfl, rfl⟩ | ⟨rfl, rfl⟩
      · cases hp
      · rcases directories_sample hd' with ⟨rfl, rfl⟩ | ⟨rfl, rfl⟩
        · cases hp'
        · rfl }
  linked := fun k f d row hf hd hrow => by
    rcases links_sample hf with ⟨rfl, rfl⟩ | ⟨rfl, rfl⟩
    · rcases directories_sample hrow with ⟨rfl, rfl⟩ | ⟨rfl, rfl⟩ <;> rfl
    · cases hd
  once := (wellKept_sample secret).once

/-- The sync of one knowledge base of the sample replaces its directories and its file. -/
theorem sync_elsewhere_sample :
    ∃ t, syncDirectory false ⟨List.dedup, fun _ => .refl _⟩ 5 false ada "kb1" 0
    drawDirectory drawn localFiles (sampleStore []) = some t ∧ Elsewhere (sampleStore []) t "kb1" ∧
      t.files.get? "f1" = none := by
  have hends :
    (syncDirectory false ⟨List.dedup, fun _ => .refl _⟩ 5 false ada "kb1" 0 drawDirectory
    drawn localFiles
      (sampleStore [])).isSome := by decide +kernel
  obtain ⟨t, hrun⟩ := Option.isSome_iff_exists.mp hends
  have hgone :
    (syncDirectory false ⟨List.dedup, fun _ => .refl _⟩ 5 false ada "kb1" 0 drawDirectory
    drawn localFiles
      (sampleStore [])).all (fun t => (t.files.get? "f1").isNone) := by decide +kernel
  refine ⟨t, hrun, sync_elsewhere (placed_sample []) (fun e he k f hf _ => ?_) hrun, ?_⟩
  · rcases links_sample hf with ⟨rfl, rfl⟩ | ⟨rfl, rfl⟩
    · exact (by decide : ∀ e ∈ localFiles, "f1" ≠ (drawn e).fileId) e he
    · exact (by decide : ∀ e ∈ localFiles, "f2" ≠ (drawn e).fileId) e he
  · rw [hrun] at hgone
    exact Option.isNone_iff_eq_none.mp hgone

end OpenWebUI.Knowledge
