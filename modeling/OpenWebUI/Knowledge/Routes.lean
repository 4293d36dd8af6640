import OpenWebUI.Knowledge.Placement

/-! # The routes that place directories and files

`routers/knowledge.py` checks that a directory the caller names belongs to the knowledge base, and
writes afterwards; between the check and the write other requests may run. Ids are not given twice
and a directory never changes its knowledge base, so a check that has passed stays right as long as
the directory exists. The cycle check of a move can become stale.
-/

namespace OpenWebUI.Knowledge

open Py

/-! ## Interleaved requests -/

/-- The tables, the ids directories were given so far, and the checks that have passed: of a
directory against a knowledge base, and of a directory against a new parent. -/
structure World where
  tables : Tables
  issued : List String
  verified : List (String × String)
  climbed : List (String × Option String)

/-- One check or one write of some request. -/
inductive Event
  /-- `_verify_directory_in_knowledge` -/
  | verify (knowledgeId directoryId : String)
  /-- the loop of `move_directory` -/
  | climb (directoryId : String) (parentId : Option String)
  | create (id knowledgeId name userId : String) (parentId : Option String) (now : ℤ)
  | move (knowledgeId directoryId : String) (parentId : Option String) (now : ℤ)
  | rename (directoryId name : String) (now : ℤ)
  | delete (directoryId : String) (moveFiles : Bool) (fuel : ℕ)
  | link (id knowledgeId fileId userId : String) (directoryId : Option String) (now : ℤ)
  | place (knowledgeId fileId : String) (directoryId : Option String) (now : ℤ)
  | unlink (knowledgeId fileId : String)
  | reset (knowledgeId : String) (includeDirectories : Bool)

/-- The request has checked its directory, or named none. -/
def World.allows (w : World) (knowledgeId : String) (directoryId : Option String) : Bool :=
  (directoryId.filter (· ≠ "")).all fun d => (knowledgeId, d) ∈ w.verified

/-- The world after an event; `none` when the event needs a check that has not passed. -/
def World.next (fk : Bool) (w : World) : Event → Option World
  | .verify kb d =>
    if (w.tables.directories.get? d).any fun row => row.knowledgeId = kb then
      some { w with verified := (kb, d) :: w.verified }
    else none
  | .climb d p =>
    if meetsDirectory w.tables.directories d (w.tables.directories.size + 1) p [] then none
    else some { w with climbed := (d, p) :: w.climbed }
  | .create id kb name userId p now =>
    -- `uuid4` gives no id twice
    if w.allows kb p ∧ id ∉ w.issued ∧ id ≠ "" then
      let created := createDirectory fk w.tables.directories id ⟨kb, p, name, userId, now, now⟩
      some { w with tables := { w.tables with directories := created.1 }, issued := id :: w.issued }
    else none
  | .move kb d p now =>
    if w.allows kb (some d) ∧ w.allows kb p ∧ (d, p) ∈ w.climbed then
      some { w with
        tables := { w.tables with directories := (moveRow fk w.tables.directories d p now).1 } }
    else none
  | .rename d name now =>
    some { w with tables := { w.tables with
      directories := (renameDirectory w.tables.directories d name now).1 } }
  | .delete d moveFiles fuel =>
    some { w with
      tables := ((deleteDirectory fk w.tables d moveFiles fuel).map Prod.fst).getD w.tables }
  | .link id kb fileId userId d now =>
    if w.allows kb d then
      some { w with tables := addFileToKnowledge fk w.tables id ⟨kb, fileId, d, userId, now, now⟩ }
    else none
  | .place kb fileId d now =>
    if w.allows kb d then some { w with tables := moveFileToDirectory fk w.tables kb fileId d now }
      else none
  | .unlink kb fileId =>
    some { w with tables := { w.tables with files := removeFile w.tables.files kb fileId } }
  | .reset kb includeDirectories =>
      some { w with tables := resetKnowledge fk w.tables kb includeDirectories }

def World.start : World := ⟨⟨∅, ∅⟩, [], [], []⟩

/-- The cycle check of a move passes at the time of its write too. -/
def World.Current (w : World) : Event → Prop
  | .move _ d p _ => meetsDirectory w.tables.directories d (w.tables.directories.size + 1) p [] =
    false
  | _ => True

def World.Reachable (fk : Bool) : World → Prop :=
  Transition.Reachable (· = World.start) fun e w w' => w.next fk e = some w'

/-- Reached without a stale cycle check. -/
def World.CurrentlyReachable (fk : Bool) : World → Prop :=
  Transition.Reachable (· = World.start) fun e w w' => w.Current e ∧ w.next fk e = some w'

variable {fk : Bool} {t : Tables} {dirs dirs' : Directories} {w w' : World} {kb id : String}
    {row : Directory}

/-! ## Every interleaving -/

/-- A directory with an id that was issued for a knowledge base is in that knowledge base, or
gone; no id is mentioned before it is issued. -/
structure World.Inv (fk : Bool) (w : World) : Prop where
  placed : Placed w.tables
  intact : fk = true → Intact w.tables
  issued : ∀ d, d ∈ w.tables.directories → d ∈ w.issued
  mentioned : ∀ x, Mentioned w.tables x → x ∈ w.issued ∨ x = ""
  verified : ∀ c ∈ w.verified, c.2 ∈ w.issued ∧
    ∀ row, w.tables.directories.get? c.2 = some row → row.knowledgeId = c.1

/-- A check that has passed is right as long as the directory exists. -/
theorem World.Inv.allowed (h : w.Inv fk) {directoryId : Option String}
    (hallows : w.allows kb directoryId = true) (d : String) (row : Directory)
    (hd : directoryId = some d) (hget : w.tables.directories.get? d = some row) :
    row.knowledgeId = kb := by
  have hne : d ≠ "" := fun heq => h.placed.directories.ids (heq ▸ Dict.mem_of_get? hget)
  rw [World.allows, hd, Option.filter_some, if_pos (decide_eq_true hne)] at hallows
  exact (h.verified (kb, d) (of_decide_eq_true hallows)).2 row hget

/-- A checked directory was issued. -/
theorem World.Inv.allows_issued (h : w.Inv fk) {directoryId : Option String}
    (hallows : w.allows kb directoryId = true) (d : String) (hd : directoryId = some d) :
    d ∈ w.issued ∨ d = "" := by
  by_cases hne : d = ""
  · exact .inr hne
  · rw [World.allows, hd, Option.filter_some, if_pos (decide_eq_true hne)] at hallows
    exact .inl (h.verified (kb, d) (of_decide_eq_true hallows)).1

/-- The rows of a write are rows of old ids, in their knowledge bases. -/
def Stays (dirs dirs' : Directories) : Prop :=
  ∀ k d', dirs'.get? k = some d' → ∃ d, dirs.get? k = some d ∧ d.knowledgeId = d'.knowledgeId

theorem stays_set {old : Directory} (hget : dirs.get? id = some old)
    (hkb : row.knowledgeId = old.knowledgeId) :
    Stays dirs (dirs.set id row) := by
  intro k d' hd'
  rw [Dict.get?_set] at hd'
  split_ifs at hd' with hk
  · exact ⟨old, hk ▸ hget, hkb.symm.trans (congrArg _ (Option.some.inj hd'))⟩
  · exact ⟨d', hd', rfl⟩

/-- What stays is where it was. -/
theorem stays_refl (dirs : Directories) : Stays dirs dirs := fun _ d' hd' => ⟨d', hd', rfl⟩

/-- Fewer directories stay where they were. -/
theorem Fewer.stays (h : Fewer dirs dirs') :
    Stays dirs dirs' := fun k d' hd' => ⟨d', h k d' hd', rfl⟩

/-- A write that gives no new id keeps the checks right. -/
theorem World.Inv.write (h : w.Inv fk) {tables : Tables} (hplaced : Placed tables)
    (hintact : fk = true → Intact tables)
    (hmentioned : ∀ x, Mentioned tables x → Mentioned w.tables x ∨ x ∈ w.issued ∨ x = "")
    (hstays : Stays w.tables.directories tables.directories) :
    World.Inv fk { w with tables := tables } where
  placed := hplaced
  intact := hintact
  issued := fun d hd => by
    obtain ⟨row', hrow'⟩ := (Dict.mem_iff_exists _ _).mp hd
    obtain ⟨row, hrow, -⟩ := hstays d row' hrow'
    exact h.issued d (Dict.mem_of_get? hrow)
  mentioned := fun x hx => (hmentioned x hx).elim (h.mentioned x) id
  verified := fun c hc => by
    refine ⟨(h.verified c hc).1, fun row' hrow' => ?_⟩
    obtain ⟨row, hrow, hkb⟩ := hstays c.2 row' hrow'
    exact hkb.symm.trans ((h.verified c hc).2 row hrow)

/-- A new directory. -/
theorem World.Inv.create (h : w.Inv fk) (hallows : w.allows row.knowledgeId row.parentId = true)
    (hfresh : id ∉ w.issued) (hne : id ≠ "") :
    World.Inv fk { w with
      tables := { w.tables with directories := (createDirectory fk w.tables.directories id row).1 }
      issued := id :: w.issued } := by
  have hunmentioned : ¬ Mentioned w.tables id := fun hx => (h.mentioned id hx).elim hfresh hne
  rcases createDirectory_cases fk w.tables.directories id row with hsame | ⟨hset, -, hdup, hparent⟩
  · rw [hsame]
    exact ⟨h.placed, h.intact, fun d hd => List.mem_cons_of_mem _ (h.issued d hd),
      fun x hx => (h.mentioned x hx).imp_left (List.mem_cons_of_mem _),
      fun c hc => ⟨List.mem_cons_of_mem _ (h.verified c hc).1, (h.verified c hc).2⟩⟩
  · rw [hset]
    refine ⟨h.placed.set hne (fun hx => absurd hx hunmentioned) (h.allowed hallows) hdup,
      fun hfk => (h.intact hfk).set (hparent hfk), fun d hd => ?_, fun x hx => ?_, fun c hc => ?_⟩
    · obtain ⟨old, hold⟩ := (Dict.mem_iff_exists _ _).mp hd
      rw [Dict.get?_set] at hold
      split_ifs at hold with hk
      · exact hk ▸ List.mem_cons_self
      · exact List.mem_cons_of_mem _ (h.issued d (Dict.mem_of_get? hold))
    · have hissued : x ∈ w.issued ∨ x = "" :=
        hx.of_set.elim (h.mentioned x) (h.allows_issued hallows x)
      exact hissued.imp_left (List.mem_cons_of_mem _)
    · obtain ⟨hissued, hrow⟩ := h.verified c hc
      refine ⟨List.mem_cons_of_mem _ hissued, fun old hget => ?_⟩
      -- what was checked was issued before
      have hother : c.2 ≠ id := fun heq => hfresh (heq ▸ hissued)
      rw [Dict.get?_set_ne _ _ hother] at hget
      exact hrow old hget

/-- A move writes the row back under its new parent. -/
theorem World.Inv.move (h : w.Inv fk) {d : String} {p : Option String}
    (hd : w.allows kb (some d) = true) (hp : w.allows kb p = true) (now : ℤ) :
    World.Inv fk { w with
      tables := { w.tables with directories := (moveRow fk w.tables.directories d p now).1 } } := by
  rcases moveRow_cases fk w.tables.directories d p now with
    hsame | ⟨row, hget, hset, hdup, hparent⟩
  · rw [hsame]
    exact ⟨h.placed, h.intact, h.issued, h.mentioned, h.verified⟩
  · rw [hset]
    have hparents : ∀ q above, p = some q → w.tables.directories.get? q = some above →
        above.knowledgeId = row.knowledgeId := fun q above hq habove =>
      (h.allowed hp q above hq habove).trans (h.allowed hd d row rfl hget).symm
    have hplaced := h.placed.update hget
      (rfl : (movedRow row p now).knowledgeId = row.knowledgeId) hparents hdup
    refine h.write hplaced (fun hfk => (h.intact hfk).set (hparent hfk)) (fun x hx => ?_)
      (stays_set hget rfl)
    exact hx.of_set.imp_right (h.allows_issued hp x)

/-- A rename keeps the parent. -/
theorem World.Inv.rename (h : w.Inv fk) (d name : String) (now : ℤ) :
    World.Inv fk { w with tables := { w.tables with
      directories := (renameDirectory w.tables.directories d name now).1 } } := by
  rcases renameDirectory_cases w.tables.directories d name now with
    hsame | ⟨row, hget, hset, hdup⟩
  · rw [hsame]
    exact ⟨h.placed, h.intact, h.issued, h.mentioned, h.verified⟩
  · rw [hset]
    have hparent : ∀ q, row.parentId = some q → parentOf w.tables.directories d = some q := by
      intro q hq
      rw [parentOf, hget]
      exact hq
    have hparents : ∀ q above, row.parentId = some q → w.tables.directories.get? q = some above →
        above.knowledgeId = row.knowledgeId := fun q above hq habove =>
      h.placed.directories.parents d q (hparent q hq) row above hget habove
    have hplaced := h.placed.update hget
      (rfl : (renamedRow row name now).knowledgeId = row.knowledgeId) hparents hdup
    refine h.write hplaced
      (fun hfk => (h.intact hfk).set fun q hq => (h.intact hfk).parents d q (hparent q hq))
      (fun x hx => .inl ?_) (stays_set hget rfl)
    exact hx.of_set.elim id fun hq => .inl ⟨d, hparent x hq⟩

/-- A link goes to a directory that was checked. -/
theorem World.Inv.link (h : w.Inv fk) {link : KnowledgeFile}
    (hallows : w.allows link.knowledgeId link.directoryId = true) (id : String) :
    World.Inv fk { w with tables := addFileToKnowledge fk w.tables id link } := by
  refine h.write (h.placed.addFileToKnowledge (h.allowed hallows)) (fun hfk => ?_)
    (fun x hx => ?_) ?_
  · subst hfk
    exact (h.intact rfl).addFileToKnowledge id _
  · exact hx.of_addFileToKnowledge.imp_right (h.allows_issued hallows x)
  · rcases addFileToKnowledge_cases fk w.tables id link with hsame | ⟨hset, -⟩
    · rw [hsame]
      exact stays_refl _
    · rw [hset]
      exact stays_refl _

/-- A file is moved to a directory that was checked. -/
theorem World.Inv.place (h : w.Inv fk) {d : Option String} (hallows : w.allows kb d = true)
    (fileId : String) (now : ℤ) :
    World.Inv fk { w with tables := moveFileToDirectory fk w.tables kb fileId d now } := by
  have hplaced : Placed (moveFileToDirectory fk w.tables kb fileId d now) :=
    h.placed.moveFileToDirectory (h.allowed hallows)
  rcases moveFileToDirectory_cases fk w.tables kb fileId d now with
    hsame | ⟨files, hset, hrelinks, hin, -⟩
  · rw [hsame]
    exact ⟨h.placed, h.intact, h.issued, h.mentioned, h.verified⟩
  · rw [hset] at hplaced ⊢
    refine h.write hplaced (fun hfk => hrelinks.intact (h.intact hfk) (hin hfk))
      (fun x hx => ?_) (stays_refl _)
    exact (hrelinks.mentioned hx).imp_right (h.allows_issued hallows x)

/-- One check or one write. -/
theorem World.Inv.next (h : w.Inv fk) {e : Event} (hnext : w.next fk e = some w') : w'.Inv fk := by
  cases e with
  | verify kb d =>
      simp only [World.next, Option.ite_none_right_eq_some] at hnext
      obtain ⟨hfound, hw⟩ := hnext
      obtain ⟨row, hrow, hkb⟩ := (Option.any_eq_true _ _).mp hfound
      refine Option.some.inj hw ▸ ⟨h.placed, h.intact, h.issued, h.mentioned, fun c hc => ?_⟩
      -- the directory found now is in the knowledge base it was asked for
      rcases List.mem_cons.mp hc with rfl | hc
      · refine ⟨h.issued d (Dict.mem_of_get? hrow), fun row' hrow' => ?_⟩
        rw [← Option.some.inj (hrow.symm.trans hrow')]
        exact of_decide_eq_true hkb
      · exact h.verified c hc
  | climb d p =>
      simp only [World.next, Option.ite_none_left_eq_some] at hnext
      exact Option.some.inj hnext.2 ▸ ⟨h.placed, h.intact, h.issued, h.mentioned, h.verified⟩
  | create id kb name userId p now =>
      simp only [World.next, Option.ite_none_right_eq_some] at hnext
      obtain ⟨⟨hallows, hfresh, hne⟩, hw⟩ := hnext
      rw [← Option.some.inj hw]
      exact h.create hallows hfresh hne
  | move kb d p now =>
      simp only [World.next, Option.ite_none_right_eq_some] at hnext
      obtain ⟨⟨hd, hp, -⟩, hw⟩ := hnext
      rw [← Option.some.inj hw]
      exact h.move hd hp now
  | rename d name now =>
      rw [← Option.some.inj hnext]
      exact h.rename d name now
  -- a delete takes rows away, and may null links
  | delete d moveFiles fuel =>
      rw [← Option.some.inj hnext]
      cases hdelete : deleteDirectory fk w.tables d moveFiles fuel with
      | none => exact ⟨h.placed, h.intact, h.issued, h.mentioned, h.verified⟩
      | some answer =>
          refine h.write (h.placed.deleteDirectory hdelete) (fun hfk => ?_)
            (fun x hx => .inl (hx.of_deleteDirectory h.placed hdelete))
              (fewer_deleteDirectory h.placed hdelete).stays
          subst hfk
          exact (h.intact rfl).deleteDirectory h.placed hdelete
  | link id kb fileId userId d now =>
      simp only [World.next, Option.ite_none_right_eq_some] at hnext
      rw [← Option.some.inj hnext.2]
      exact h.link hnext.1 id
  | place kb fileId d now =>
      simp only [World.next, Option.ite_none_right_eq_some] at hnext
      rw [← Option.some.inj hnext.2]
      exact h.place hnext.1 fileId now
  | unlink kb fileId =>
      rw [← Option.some.inj hnext]
      have hsub := sub_filterMapVal w.tables.files fun f => f.knowledgeId = kb ∧ f.fileId = fileId
      have hrelinks : Relinks none w.tables.files (removeFile w.tables.files kb fileId) :=
        .of_sub hsub
      exact h.write (h.placed.fewerLinks hsub)
        (fun hfk => hrelinks.intact (h.intact hfk) fun p hp => by cases hp)
        (fun x hx => .inl ((hrelinks.mentioned hx).resolve_right fun hnone => by cases hnone))
          (stays_refl _)
  | reset kb includeDirectories =>
      rw [← Option.some.inj hnext]
      obtain ⟨hplaced, hless, hmentioned, hintact⟩ :=
        resetKnowledge_keeps h.placed fk kb includeDirectories
      exact h.write hplaced (fun hfk => hintact hfk (h.intact hfk))
        (fun x hx => .inl (hmentioned x hx)) hless.stays

/-! ## No cycles -/

/-- One check or one write, whose cycle check is not stale. -/
theorem World.Inv.acyclic_next (h : w.Inv fk)
    (hacyclic : Forest.Acyclic (parentOf w.tables.directories)) {e : Event}
    (hcurrent : w.Current e) (hnext : w.next fk e = some w') :
    Forest.Acyclic (parentOf w'.tables.directories) := by
  cases e with
  | verify kb d =>
      simp only [World.next, Option.ite_none_right_eq_some] at hnext
      exact Option.some.inj hnext.2 ▸ hacyclic
  | climb d p =>
      simp only [World.next, Option.ite_none_left_eq_some] at hnext
      exact Option.some.inj hnext.2 ▸ hacyclic
  | create id kb name userId p now =>
      simp only [World.next, Option.ite_none_right_eq_some] at hnext
      obtain ⟨⟨hallows, hfresh, hne⟩, hw⟩ := hnext
      rw [← Option.some.inj hw]
      -- the new row has no child yet, and is not its own parent
      rcases createDirectory_cases fk w.tables.directories id ⟨kb, p, name, userId, now,
        now⟩ with hsame | ⟨hset, -⟩
      · rw [hsame]
        exact hacyclic
      · rw [hset]
        refine acyclic_set hacyclic (fun c hc => ?_) fun hself => ?_
        · exact (h.mentioned id (.inl ⟨c, hc⟩)).elim hfresh hne
        · exact (h.allows_issued hallows id hself).elim hfresh hne
  -- the walk of the code has found no cycle in the table as it is
  | move kb d p now =>
      simp only [World.next, Option.ite_none_right_eq_some] at hnext
      rw [← Option.some.inj hnext.2]
      have hmove : Forest.Acyclic (parentOf (moveDirectory fk w.tables.directories d p now).1) :=
        acyclic_moveDirectory hacyclic h.placed.directories.ids p now
      rwa [moveDirectory_eq, if_neg (Bool.eq_false_iff.mp hcurrent)] at hmove
  | rename d name now =>
      rw [← Option.some.inj hnext]
      show Forest.Acyclic (parentOf (renameDirectory w.tables.directories d name now).1)
      rwa [parentOf_renameDirectory]
  | delete d moveFiles fuel =>
      rw [← Option.some.inj hnext]
      cases hdelete : deleteDirectory fk w.tables d moveFiles fuel with
      | none => exact hacyclic
      | some answer => exact (fewer_deleteDirectory h.placed hdelete).acyclic hacyclic
  | link id kb fileId userId d now =>
      simp only [World.next, Option.ite_none_right_eq_some] at hnext
      rw [← Option.some.inj hnext.2, addFileToKnowledge]
      split_ifs <;> exact hacyclic
  | place kb fileId d now =>
      simp only [World.next, Option.ite_none_right_eq_some] at hnext
      rw [← Option.some.inj hnext.2, moveFileToDirectory]
      split_ifs <;> exact hacyclic
  | unlink kb fileId => exact Option.some.inj hnext ▸ hacyclic
  | reset kb includeDirectories =>
      rw [← Option.some.inj hnext]
      exact (resetKnowledge_keeps h.placed fk kb includeDirectories).2.1.acyclic hacyclic

/-- Every reachable world meets the invariant. -/
theorem World.Reachable.inv (h : w.Reachable fk) : w.Inv fk := by
  refine Transition.Reachable.invariant h (fun w hw => ?_) fun e w w' hinv hnext => hinv.next hnext
  subst hw
  refine ⟨placed_empty, fun _ => intact_empty, fun d hd => ?_,
    fun x hx => absurd hx (not_mentioned_empty x),
    fun c hc => absurd hc List.not_mem_nil⟩
  obtain ⟨row, hrow⟩ := (Dict.mem_iff_exists _ _).mp hd
  exact absurd hrow get?_empty_directories

/-- A world reached with current ids is reachable. -/
theorem World.CurrentlyReachable.reachable (h : w.CurrentlyReachable fk) : w.Reachable fk :=
  Transition.Reachable.mono h fun _ _ _ hstep => hstep.2

/-- The directories of a world reached with current ids are without loops. -/
theorem World.CurrentlyReachable.acyclic (h : w.CurrentlyReachable fk) :
    Forest.Acyclic (parentOf w.tables.directories) := by
  have hinv : ∀ w : World, w.CurrentlyReachable fk → w.Inv fk := fun w hw => hw.reachable.inv
  let forest : World → Prop := fun w => Forest.Acyclic (parentOf w.tables.directories)
  show forest w
  refine Transition.Reachable.invariant_of h hinv (fun w hw => ?_) fun e w w' hinv hforest hstep =>
    hinv.acyclic_next hforest hstep.1 hstep.2
  subst hw
  exact Forest.Acyclic.of_rank (fun _ => 0) fun c p hp => by cases hp

/-- The parent of a directory is deleted. -/
def orphanedChild : List Event :=
  [.create "a" "kb" "a" "u" none 1, .verify "kb" "a", .create "b" "kb" "b" "u" (some "a") 1,
    .delete "a" true 2]

/-- Without foreign keys the child stays, under a parent that is gone. -/
theorem not_intact_orphanedChild : ∃ w : World, w.Reachable false ∧ ¬ Intact w.tables := by
  have hrun : (orphanedChild.foldlM (World.next false) World.start).isSome := by decide
  obtain ⟨w, hw⟩ := Option.isSome_iff_exists.mp hrun
  refine ⟨w, Transition.Reachable.foldlM (.start rfl) hw, fun hintact => ?_⟩
  have hparent : (orphanedChild.foldlM (World.next false) World.start).map (fun w =>
      (parentOf w.tables.directories "b", decide ("a" ∈ w.tables.directories))) =
        some (some "a", false) := by decide
  rw [hw] at hparent
  obtain ⟨hb, ha⟩ := Prod.ext_iff.mp (Option.some.inj hparent)
  exact of_decide_eq_false ha (hintact.parents "b" "a" hb)

/-- Two moves, each of a directory below the other, whose checks both come first. -/
def crossedMoves : List Event :=
  [.create "a" "kb" "a" "u" none 1, .create "b" "kb" "b" "u" none 1, .verify "kb" "a",
    .verify "kb" "b",
    .climb "a" (some "b"), .climb "b" (some "a"), .move "kb" "a" (some "b") 2,
      .move "kb" "b" (some "a") 2]

/-- The run of the crossed moves, with or without foreign keys. -/
theorem run_crossedMoves (fk : Bool) :
    ∃ w : World, crossedMoves.foldlM (World.next fk) World.start = some w ∧
      parentOf w.tables.directories "a" = some "b" ∧
        parentOf w.tables.directories "b" = some "a" := by
  have hparents : (crossedMoves.foldlM (World.next fk) World.start).map (fun w =>
      (parentOf w.tables.directories "a", parentOf w.tables.directories "b")) =
        some (some "b", some "a") := by
    cases fk <;> decide
  obtain ⟨w, hw, hends⟩ := Option.map_eq_some_iff.mp hparents
  exact ⟨w, hw, Prod.ext_iff.mp hends⟩

/-- A stale cycle check closes a cycle. -/
theorem not_acyclic_crossedMoves (fk : Bool) :
    ∃ w : World, w.Reachable fk ∧ ¬ Forest.Acyclic (parentOf w.tables.directories) := by
  obtain ⟨w, hw, ha, hb⟩ := run_crossedMoves fk
  refine ⟨w, Transition.Reachable.foldlM (.start rfl) hw, fun hacyclic => hacyclic "a" ?_⟩
  exact .tail (.single ha) hb

/-- In every interleaving of the routes, directories and links keep to their knowledge bases; no
parent and no directory of a link is missing where the database enforces foreign keys. Unless a
move was made on a stale cycle check, directories form a forest, on which paths are well defined
as far as foreign keys are enforced, names are plain and roots apart. Both conditions are needed:
without foreign keys a parent can be missing, and a stale check can close a cycle. -/
theorem routes_spec (fk : Bool) :
    (∀ w : World, w.Reachable fk → Placed w.tables ∧ (fk = true → Intact w.tables)) ∧
    (∀ w : World, w.CurrentlyReachable fk → Forest.Acyclic (parentOf w.tables.directories) ∧
      (fk = true → ∀ kb, PlainNames w.tables.directories kb → RootsApart w.tables.directories kb →
        WellNamed w.tables.directories kb)) ∧
    (fk = false → ∃ w : World, w.Reachable fk ∧ ¬ Intact w.tables) ∧
    ∃ w : World, w.Reachable fk ∧ ¬ Forest.Acyclic (parentOf w.tables.directories) := by
  refine ⟨fun w h => ⟨h.inv.placed, h.inv.intact⟩, fun w h => ⟨h.acyclic, fun hfk kb => ?_⟩, ?_,
    not_acyclic_crossedMoves fk⟩
  · have hinv := h.reachable.inv
    exact hinv.placed.directories.wellNamed (hinv.intact hfk).parents h.acyclic
  · rintro rfl
    exact not_intact_orphanedChild

/-- A stale cycle check closes a cycle; what `routes_spec` says of every interleaving still
holds. -/
theorem routes_spec_crossed :
    ∃ w : World, crossedMoves.foldlM (World.next true) World.start = some w ∧
    Placed w.tables ∧ Intact w.tables ∧
    parentOf w.tables.directories "a" = some "b" ∧
      parentOf w.tables.directories "b" = some "a" := by
  obtain ⟨w, hw, hparents⟩ := run_crossedMoves true
  have hspec := (routes_spec true).1 w (Transition.Reachable.foldlM (.start rfl) hw)
  exact ⟨w, hw, hspec.1, hspec.2 rfl, hparents⟩

end OpenWebUI.Knowledge
