import OpenWebUI.Groups.Access

/-! # Who may use a model

A model is listed by `get_filtered_models` and used after one of two checks, both called
`check_model_access`. The checks also walk the chain of base models; the list does not.
-/

namespace OpenWebUI.Groups

open Py Relation

/-- The row of a model: what the checks read. -/
structure ModelInfo where
  id : String
  userId : String
  baseModelId : Option String
deriving DecidableEq

/-- The table of models: each row is found under its id. -/
structure ModelTable where
  rows : Dict String ModelInfo
  id_eq : ∀ {id info}, rows.get? id = some info → info.id = id

/-- `Models.get_model_by_id`. -/
def ModelTable.getModelById (t : ModelTable) (id : String) : Option ModelInfo := t.rows.get? id

/-- A model as the connections and the table give it. `accessGrants` is
`info.meta.access_grants`, which only arena models use. -/
structure Model where
  id : String
  arena : Bool
  info : Option ModelInfo
  accessGrants : List Json

/-- The user of a request. -/
structure Caller where
  id : String
  role : String

structure Bypass where
  adminAccessControl : Bool
  modelAccessControl : Bool

inductive AccessError where
  | exception (text : String)
  | http (status : ℕ) (detail : String)
deriving DecidableEq

/-! ## Grants in a configuration -/

/-- One grant of a configuration: the value of a key, if the grant is a dictionary. -/
def grantKey (grant : Json) (key : String) : Option Json := grant.asObj.map (·.get key)

/-- `has_access` of `utils.access_control`: grants that no table holds. -/
def AccessControl.hasAccess (s : Store) (userId permission : String) (accessGrants : List Json)
    (given : Option (List String)) : Bool :=
  accessGrants.any fun grant =>
    decide (grantKey grant "permission" = some (.str permission)) &&
      ((decide (grantKey grant "principal_type" = some (.str "user")) &&
          (decide (grantKey grant "principal_id" = some (.str "*")) ||
            decide (grantKey grant "principal_id" = some (.str userId)))) ||
        (decide (grantKey grant "principal_type" = some (.str "group")) &&
          (userGroupIds s userId given).any fun id =>
            decide (grantKey grant "principal_id" = some (.str id))))

/-! ## The chain of base models -/

/-- `user_id == info.user_id or await AccessGrants.has_access(…)`. -/
def mayRead (s : Store) (userId : String) (info : ModelInfo)
    (given : Option (List String)) : Bool :=
  decide (userId = info.userId) || hasAccess s userId "model" info.id "read" given

/-- The loop of `has_base_model_access`. -/
def walkBases (s : Store) (t : ModelTable) (userId : String) (userRole : Option String)
    (given : Option (List String)) : ℕ → Option String → List String → Bool
  | n + 1, some baseModelId, seen =>
      if baseModelId = "" ∨ baseModelId ∈ seen then true
      else match t.getModelById baseModelId with
        | none => decide (userRole = some "admin")
        | some baseModelInfo =>
            if mayRead s userId baseModelInfo given then
              walkBases s t userId userRole given n baseModelInfo.baseModelId (baseModelId :: seen)
            else false
  | _, _, _ => true

/-- Each round sees a new row, so the rows bound the rounds. -/
def hasBaseModelAccess (s : Store) (t : ModelTable) (userId : String) (modelInfo : ModelInfo)
    (userRole : Option String) (given : Option (List String)) : Bool :=
  walkBases s t userId userRole given (t.rows.size + 1) modelInfo.baseModelId [modelInfo.id]

/-! ## The three functions -/

/-- The row a caller passed if it is the model's, else the one in the table. -/
def ModelTable.rowFor (t : ModelTable) (model : Model) : Option ModelInfo → Option ModelInfo
  | some info => if info.id ≠ model.id then t.getModelById model.id else some info
  | none => t.getModelById model.id

/-- `check_model_access` of `utils.models`. -/
def checkModelAccess (s : Store) (t : ModelTable) (user : Caller) (model : Model)
    (modelInfo : Option ModelInfo) : Except AccessError Unit :=
  if model.arena then
    if (model.accessGrants = [] ∧ user.role = "admin") ∨
        AccessControl.hasAccess s user.id "read" model.accessGrants none = true then .ok ()
    else .error (.exception "Model not found")
  else
    match t.rowFor model modelInfo with
    | none => .error (.exception "Model not found")
    | some info =>
        -- one fetch of the groups for all checks, skipped when none of them needs it
        let groupIds :=
          if user.id ≠ info.userId ∨ (info.baseModelId.getD "") ≠ "" then
            some (userGroupIds s user.id none)
          else none
        if ¬ mayRead s user.id info groupIds then .error (.exception "Model not found")
        else if ¬ hasBaseModelAccess s t user.id info (some user.role) groupIds then
          .error (.exception "Model not found")
        else .ok ()

/-- `check_model_access` of `utils.access_control`. -/
def AccessControl.checkModelAccess (s : Store) (t : ModelTable) (user : Caller)
    (modelInfo : Option ModelInfo)
    (bypassFilter : Bool) : Except AccessError Unit :=
  if bypassFilter then .ok ()
  else match modelInfo with
    | some info =>
        if user.role = "admin" then .ok ()
        else
          let groupIds := some (userGroupIds s user.id none)
          if ¬ mayRead s user.id info groupIds then .error (.http 403 "Model not found")
          else if ¬ hasBaseModelAccess s t user.id info (some user.role) groupIds then
            .error (.http 403 "Model not found")
          else .ok ()
    | none => if user.role = "admin" then .ok () else .error (.http 403 "Model not found")

/-- `model_infos`: the rows of the models that are no arenas. -/
def modelInfos (models : List Model) : Dict String ModelInfo :=
  Dict.ofList (models.filterMap fun m => if m.arena then none else m.info.map (m.id, ·))

def getFilteredModels (s : Store) (bypass : Bypass) (models : List Model) (user : Caller) :
    List Model :=
  if (user.role = "user" ∨ (user.role = "admin" ∧ bypass.adminAccessControl = false)) ∧
      bypass.modelAccessControl = false then
    let infos := modelInfos models
    let groupIds := some (userGroupIds s user.id none)
    let accessible := getAccessibleResourceIds s user.id "model" infos.keys "read" groupIds
    models.filter fun model =>
      if model.arena then
        (decide (model.accessGrants = []) && decide (user.role = "admin")) ||
          AccessControl.hasAccess s user.id "read" model.accessGrants groupIds
      else match infos.get? model.id with
        | some info =>
            (decide (user.role = "admin") && bypass.adminAccessControl) ||
              decide (user.id = info.userId) || decide (model.id ∈ accessible)
        | none => decide (user.role = "admin")
  else models

/-! ## The chain as a relation -/

variable {s : Store} {t : ModelTable} {user : Caller} {u : String} {info : ModelInfo}

/-- The base model a row names, if it names one. -/
def ModelTable.base (t : ModelTable) (id : String) : Option String :=
  (t.getModelById id).bind fun info => info.baseModelId.filter (· ≠ "")

/-- A registered model that the user owns or has a grant for. -/
def Readable (s : Store) (t : ModelTable) (u id : String) : Prop :=
  ∃ info, t.getModelById id = some info ∧
    (u = info.userId ∨ Granted s (getGrantsByResource s "model" id) "read" u)

/-- Every model further down the chain is readable. -/
def BasesReadable (s : Store) (t : ModelTable) (u id : String) : Prop :=
  ∀ b, TransGen (Forest.Up t.base) id b → Readable s t u b

/-- Whether the groups are fetched before or by the query is the same. -/
theorem mayRead_given (given : Option (List String))
    (hgiven : ∀ ids ∈ given, ids = userGroupIds s u none) :
    mayRead s u info given = mayRead s u info none := by
  cases given with
  | none => rfl
  | some ids =>
      rw [hgiven ids rfl]
      rfl

/-- A stored model is readable where its row may be read. -/
theorem readable_iff {id : String} (hinfo : t.getModelById id = some info) :
    Readable s t u id ↔ mayRead s u info none = true := by
  unfold Readable mayRead
  rw [t.id_eq hinfo, Bool.or_eq_true, decide_eq_true_eq, hasAccess_iff]
  constructor
  · rintro ⟨info', hinfo', h⟩
    rwa [Option.some.inj (hinfo.symm.trans hinfo')]
  · exact fun h => ⟨info, hinfo, h⟩

/-- The base is the one the row names. -/
theorem base_eq_some {id b : String} (hinfo : t.getModelById id = some info) :
    t.base id = some b ↔ info.baseModelId = some b ∧ b ≠ "" := by
  rw [ModelTable.base, hinfo, Option.bind_some, Option.filter_eq_some_iff, decide_eq_true_eq]

/-- Readable models that the links do not leave are all there is down the chain. -/
theorem readable_of_closed {start : String} {seen : List String} (hstart : start ∈ seen)
    (hseen : ∀ x ∈ seen, Readable s t u x)
    (hclosed : ∀ x ∈ seen, ∀ y, t.base x = some y → y ∈ seen) :
    ∀ b, ReflTransGen (Forest.Up t.base) start b → Readable s t u b := by
  intro b hb
  apply hseen
  induction hb with
  | refl => exact hstart
  | tail _ hlink ih => exact hclosed _ ih _ hlink

/-- The loop refuses exactly when something down the chain is not readable. What was seen is
readable, and leads to what was seen or to the next model. -/
theorem walkBases_iff (given : Option (List String))
    (hgiven : ∀ ids ∈ given, ids = userGroupIds s u none) {role : String} (hrole : role ≠ "admin")
    {start : String} (n : ℕ) (next : Option String) (seen : List String)
    (hnodup : seen.Nodup) (hstart : start ∈ seen) (hseen : ∀ x ∈ seen, Readable s t u x)
    (hnext : ∀ x ∈ seen, ∀ y, t.base x = some y → y ∈ seen ∨ next = some y)
    (hreach : ∀ y ∈ next, y ≠ "" → ReflTransGen (Forest.Up t.base) start y)
    (hbound : t.rows.size + 2 ≤ n + seen.length) :
    walkBases s t u (some role) given n next seen = true ↔
      ∀ b, ReflTransGen (Forest.Up t.base) start b → Readable s t u b := by
  induction n generalizing next seen with
  | zero =>
      -- more models were seen than there are rows
      have hlen := t.rows.length_le_size hnodup fun x hx => by
        obtain ⟨info, hinfo, -⟩ := hseen x hx
        exact Dict.mem_of_get? hinfo
      omega
  | succ n ih =>
      cases next with
      -- the chain has ended, and all that was seen can be read
      | none =>
          refine iff_of_true rfl (readable_of_closed hstart hseen fun x hx y hy => ?_)
          exact (hnext x hx y hy).resolve_right (by simp)
      | some b =>
          rw [walkBases]
          split_ifs with hstop
          · -- an empty name ends the chain; a name that was seen closes it
            refine iff_of_true rfl (readable_of_closed hstart hseen fun x hx y hy => ?_)
            rcases hnext x hx y hy with hmem | heq
            · exact hmem
            · obtain rfl := Option.some.inj heq
              obtain ⟨info, hinfo, -⟩ := hseen x hx
              exact hstop.resolve_left ((base_eq_some hinfo).mp hy).2
          · obtain ⟨hne, hfresh⟩ := not_or.mp hstop
            have hb := hreach b rfl hne
            -- the base is missing, which only an admin may use
            cases hinfo : t.getModelById b with
            | none =>
                refine iff_of_false (by simpa using hrole) fun hall => ?_
                obtain ⟨info, hsome, -⟩ := hall b hb
                rw [hinfo] at hsome
                cases hsome
            | some info =>
                dsimp only
                rw [mayRead_given given hgiven]
                -- the base can be read, and the walk goes on with it
                split_ifs with hmay
                · apply ih info.baseModelId (b :: seen)
                  · exact List.nodup_cons.mpr ⟨hfresh, hnodup⟩
                  · exact List.mem_cons_of_mem _ hstart
                  · intro x hx
                    rcases List.mem_cons.mp hx with rfl | hx
                    · exact (readable_iff hinfo).mpr hmay
                    · exact hseen x hx
                  · intro x hx y hy
                    rcases List.mem_cons.mp hx with rfl | hx
                    · exact Or.inr ((base_eq_some hinfo).mp hy).1
                    · rcases hnext x hx y hy with hmem | heq
                      · exact Or.inl (List.mem_cons_of_mem _ hmem)
                      · exact Or.inl (Option.some.inj heq ▸ List.mem_cons_self)
                  · intro y hy hyne
                    exact hb.tail ((base_eq_some hinfo).mpr ⟨hy, hyne⟩)
                  · rw [List.length_cons]
                    omega
                · refine iff_of_false (by decide) fun hall => hmay ?_
                  exact (readable_iff hinfo).mp (hall b hb)

/-- For a row the user may read, the walk decides whether its base models are readable. -/
theorem hasBaseModelAccess_iff (given : Option (List String))
    (hgiven : ∀ ids ∈ given, ids = userGroupIds s u none) {role : String} (hrole : role ≠ "admin")
    {id : String} (hinfo : t.getModelById id = some info) (hread : Readable s t u id) :
    hasBaseModelAccess s t u info (some role) given = true ↔ BasesReadable s t u id := by
  have hwalk := walkBases_iff (t := t) given hgiven hrole
    (t.rows.size + 1) info.baseModelId [info.id]
    (List.nodup_singleton _) List.mem_cons_self
  rw [t.id_eq hinfo] at hwalk
  rw [hasBaseModelAccess, t.id_eq hinfo, hwalk]
  · constructor
    · exact fun hall b hb => hall b hb.to_reflTransGen
    · intro hbases b hb
      rcases ReflTransGen.cases_head_iff.mp hb with rfl | ⟨c, hc, hcb⟩
      · exact hread
      · exact hbases b (TransGen.head' hc hcb)
  · intro x hx
    rw [List.mem_singleton.mp hx]
    exact hread
  · intro x hx y hy
    obtain rfl := List.mem_singleton.mp hx
    exact Or.inr ((base_eq_some hinfo).mp hy).1
  · intro y hy hne
    exact .single ((base_eq_some hinfo).mpr ⟨hy, hne⟩)
  · rw [List.length_singleton]

/-! ## The list and the checks -/

/-- A model with its own row. -/
def Registered (t : ModelTable) (model : Model) : Prop :=
  model.arena = false ∧ ∃ info, model.info = some info ∧ t.getModelById model.id = some info

/-- A row passed by a caller is a row of the table. -/
def Fetched (t : ModelTable) (passed : Option ModelInfo) : Prop :=
  ∀ info ∈ passed, t.getModelById info.id = some info

/-- The check passes where the model and its bases are readable. -/
theorem enforce_iff (hrole : user.role ≠ "admin") {id : String}
    (hinfo : t.getModelById id = some info) :
    AccessControl.checkModelAccess s t user (some info) false = .ok () ↔
      Readable s t user.id id ∧ BasesReadable s t user.id id := by
  have hgiven : ∀ ids ∈ some (userGroupIds s user.id none), ids = userGroupIds s user.id none :=
    fun ids hids => (Option.some.inj hids).symm
  unfold AccessControl.checkModelAccess
  rw [if_neg (by decide)]
  dsimp only
  rw [if_neg hrole, mayRead_given _ hgiven, readable_iff hinfo]
  by_cases hmay : mayRead s user.id info none = true
  · have hread := (readable_iff hinfo).mpr hmay
    rw [if_neg (not_not.mpr hmay), ← hasBaseModelAccess_iff _ hgiven hrole hinfo hread]
    simp [hmay]
  · simp [hmay]

/-- The row the check looks at is the stored one. -/
theorem rowFor_eq {model : Model} (hinfo : t.getModelById model.id = some info)
    {passed : Option ModelInfo} (hpassed : Fetched t passed) :
    t.rowFor model passed = some info := by
  cases passed with
  | none => exact hinfo
  | some row =>
      rw [ModelTable.rowFor]
      split_ifs with hid
      · exact hinfo
      · rw [← hpassed row rfl, not_not.mp hid]
        exact hinfo

/-- The check passes where the model and its bases are readable, with a row fetched before as well.
-/
theorem check_iff (hrole : user.role ≠ "admin") {model : Model} (harena : model.arena = false)
    (hinfo : t.getModelById model.id = some info) {passed : Option ModelInfo}
    (hpassed : Fetched t passed) :
    checkModelAccess s t user model passed = .ok () ↔
      Readable s t user.id model.id ∧ BasesReadable s t user.id model.id := by
  unfold checkModelAccess
  rw [if_neg (by simp [harena]), rowFor_eq hinfo hpassed]
  dsimp only
  generalize hids : (if user.id ≠ info.userId ∨ (info.baseModelId.getD "") ≠ "" then
    some (userGroupIds s user.id none) else none) = groupIds
  have hgiven : ∀ ids ∈ groupIds, ids = userGroupIds s user.id none := by
    intro ids hmem
    rw [← hids] at hmem
    split_ifs at hmem
    · exact (Option.some.inj hmem).symm
    · cases hmem
  rw [mayRead_given _ hgiven, readable_iff hinfo]
  by_cases hmay : mayRead s user.id info none = true
  · have hread := (readable_iff hinfo).mpr hmay
    rw [if_neg (not_not.mpr hmay), ← hasBaseModelAccess_iff _ hgiven hrole hinfo hread]
    simp [hmay]
  · simp [hmay]

/-- The map has the row of each model. -/
theorem modelInfos_get? {models : List Model} (hmodels : ∀ m ∈ models, Registered t m) {m : Model}
    (hm : m ∈ models) :
    (modelInfos models).get? m.id = t.getModelById m.id ∧ m.id ∈ modelInfos models := by
  obtain ⟨harena, info, hinfo, hrow⟩ := hmodels m hm
  have hspec := Dict.ofList_spec
    (models.filterMap fun m => if m.arena then none else m.info.map (m.id, ·)) m.id
  have hmem : m.id ∈ modelInfos models := by
    refine hspec.2 ⟨info, List.mem_filterMap.mpr ⟨m, hm, ?_⟩⟩
    simp [harena, hinfo]
  obtain ⟨found, hfound⟩ := (Dict.mem_iff_exists _ _).mp hmem
  refine ⟨?_, hmem⟩
  obtain ⟨m', hm', heq⟩ := List.mem_filterMap.mp (hspec.1 found hfound)
  obtain ⟨harena', info', hinfo', hrow'⟩ := hmodels m' hm'
  rw [harena', hinfo'] at heq
  obtain ⟨hid, hsame⟩ := Prod.mk.inj (Option.some.inj heq)
  rw [hfound, ← hid, hrow', hsame]

/-- A model is listed where it is readable. -/
theorem mem_getFilteredModels {bypass : Bypass} (hrole : user.role = "user")
    (hbypass : bypass.modelAccessControl = false) {models : List Model}
    (hmodels : ∀ m ∈ models, Registered t m) {m : Model} (hm : m ∈ models) :
    m ∈ getFilteredModels s bypass models user ↔ Readable s t user.id m.id := by
  obtain ⟨harena, info, -, hrow⟩ := hmodels m hm
  obtain ⟨hget, hmem⟩ := modelInfos_get? hmodels hm
  have hrole' : user.role ≠ "admin" := by rw [hrole]; decide
  unfold getFilteredModels
  rw [if_pos ⟨Or.inl hrole, hbypass⟩, List.mem_filter, hget, hrow, readable_iff hrow,
    mayRead, t.id_eq hrow]
  have haccess : m.id ∈ getAccessibleResourceIds s user.id "model" (modelInfos models).keys "read"
      (some (userGroupIds s user.id none)) ↔ hasAccess s user.id "model" m.id "read" none = true :=
    (mem_getAccessibleResourceIds (s := s) (u := user.id)).trans (and_iff_right hmem)
  simp [harena, hm, hrole', haccess]

/-- A user can use what is listed, and the reverse, exactly when no listed model hides a base
model: the list is filtered by the model's own row, the checks by the whole chain. -/
theorem listed_iff_usable (s : Store) (t : ModelTable) (bypass : Bypass) (user : Caller)
    (hrole : user.role = "user") (hbypass : bypass.modelAccessControl = false) (models : List Model)
    (hmodels : ∀ m ∈ models, Registered t m) :
    (∀ m ∈ models, ∀ passed, Fetched t passed →
      (m ∈ getFilteredModels s bypass models user ↔ checkModelAccess s t user m passed = .ok ()) ∧
      (m ∈ getFilteredModels s bypass models user ↔
        AccessControl.checkModelAccess s t user (t.getModelById m.id) false = .ok ())) ↔
      ∀ m ∈ models, Readable s t user.id m.id → BasesReadable s t user.id m.id := by
  have hrole' : user.role ≠ "admin" := by rw [hrole]; decide
  have hchecks : ∀ m ∈ models, ∀ passed, Fetched t passed →
      ((checkModelAccess s t user m passed = .ok () ↔
          Readable s t user.id m.id ∧ BasesReadable s t user.id m.id) ∧
        (AccessControl.checkModelAccess s t user (t.getModelById m.id) false = .ok () ↔
          Readable s t user.id m.id ∧ BasesReadable s t user.id m.id)) := by
    intro m hm passed hpassed
    obtain ⟨harena, info, -, hrow⟩ := hmodels m hm
    refine ⟨check_iff hrole' harena hrow hpassed, ?_⟩
    rw [hrow]
    exact enforce_iff hrole' hrow
  constructor
  · intro h m hm hread
    have hnone : Fetched t none := fun info hinfo => by cases hinfo
    have hlisted := (mem_getFilteredModels hrole hbypass hmodels hm).mpr hread
    exact ((hchecks m hm none hnone).1.mp ((h m hm none hnone).1.mp hlisted)).2
  · intro hbases m hm passed hpassed
    rw [mem_getFilteredModels hrole hbypass hmodels hm, (hchecks m hm passed hpassed).1,
      (hchecks m hm passed hpassed).2]
    exact ⟨⟨fun hread => ⟨hread, hbases m hm hread⟩, And.left⟩,
      fun hread => ⟨hread, hbases m hm hread⟩, And.left⟩

/-! ## A shared preset of a private base -/

/-- A preset that is shared with a user, and its base. -/
def presetModels : ModelTable where
  rows := (Dict.set ∅ "base" ⟨"base", "admin", none⟩).set "preset" ⟨"preset", "admin", some "base"⟩
  id_eq := by
    intro id info h
    rw [Dict.get?_set, Dict.get?_set] at h
    split_ifs at h with h₁ h₂
    · rw [← Option.some.inj h, h₁]
    · rw [← Option.some.inj h, h₂]
    · cases h

/-- Only the preset is shared, or the base too. -/
def presetStore (baseToo : Bool) : Store :=
  { groups := ∅, members := [], users := ∅
    grants := ⟨"model", "preset", .user, "u", "read"⟩ ::
      if baseToo then [⟨"model", "base", .user, "*", "read"⟩] else [] }

def preset : Model := ⟨"preset", false, some ⟨"preset", "admin", some "base"⟩, []⟩

/-- A preset whose base may be read by all. -/
theorem listed_iff_usable_public_base :
    preset ∈ getFilteredModels (presetStore true) ⟨false, false⟩ [preset] ⟨"u", "user"⟩ ↔
      checkModelAccess (presetStore true) presetModels ⟨"u", "user"⟩ preset none = .ok () := by
  refine ((listed_iff_usable (presetStore true) presetModels ⟨false, false⟩ ⟨"u", "user"⟩ rfl rfl
    [preset] fun m hm => ?_).mpr fun m hm _ b hb => ?_) preset List.mem_cons_self none
      (fun info hinfo => by cases hinfo) |>.1
  · rw [List.mem_singleton.mp hm]
    exact ⟨rfl, _, rfl, by decide⟩
  · obtain rfl := List.mem_singleton.mp hm
    have hbase : presetModels.base "base" = none := by decide
    have hpreset : presetModels.base "preset" = some "base" := by decide
    have hchain : b = "base" := by
      induction hb with
      | single hlink => exact (Option.some.inj (hpreset.symm.trans hlink)).symm
      | tail _ hlink ih =>
          subst ih
          cases hbase.symm.trans hlink
    subst hchain
    have hinfo : presetModels.getModelById "base" = some ⟨"base", "admin", none⟩ := by decide
    exact (readable_iff hinfo).mpr (by decide)

/-- The preset is listed to its user, and refused when it is used. -/
theorem private_base_listed :
    preset ∈ getFilteredModels (presetStore false) ⟨false, false⟩ [preset] ⟨"u", "user"⟩ ∧
      checkModelAccess (presetStore false) presetModels ⟨"u", "user"⟩ preset none =
        .error (.exception "Model not found") ∧
      AccessControl.checkModelAccess (presetStore false) presetModels ⟨"u", "user"⟩
        (presetModels.getModelById "preset") false = .error (.http 403 "Model not found") := by
  refine ⟨?_, rfl, rfl⟩
  rw [getFilteredModels, if_pos (by decide)]
  exact List.mem_filter.mpr ⟨List.mem_cons_self, by decide⟩

end OpenWebUI.Groups
