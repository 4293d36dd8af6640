import OpenWebUI.Config.Fragments
import OpenWebUI.Lib.Leaves

/-! # Repairing flattened settings

`repair_config_rows` of `backend/open_webui/models/config.py` on the table of settings. A
dictionary setting that was stored as one row for each of its leaves is put together again, and
the rows of the leaves are deleted.
-/

namespace OpenWebUI.Config

open Py

def apiConfigKeys : List String := ["openai.api_configs", "ollama.api_configs"]

/-- The dictionary settings, each with the other names its rows may have. -/
def dictConfigKeyAliases : List (String × List String) :=
  [("openai.api_configs", ["OPENAI_API_CONFIGS"]),
    ("ollama.api_configs", ["OLLAMA_API_CONFIGS"]),
    ("rag.mineru_params", ["MINERU_PARAMS"]),
    ("rag.docling_params", ["DOCLING_PARAMS"]),
    ("web.search.linkup_search_params", ["LINKUP_SEARCH_PARAMS"]),
    ("image_generation.automatic1111.api_params", ["AUTOMATIC1111_PARAMS"]),
    ("image_generation.openai.params", ["IMAGES_OPENAI_API_PARAMS"]),
    ("audio.tts.openai.params", ["AUDIO_TTS_OPENAI_PARAMS"]),
    ("audio.realtime.input_params", ["AUDIO_REALTIME_INPUT_PARAMS"]),
    ("models.default_metadata", ["DEFAULT_MODEL_METADATA"]),
    ("models.default_params", ["DEFAULT_MODEL_PARAMS"]),
    ("task.model.params", ["TASK_MODEL_PARAMS"]),
    ("ui.default_interface_settings", ["DEFAULT_INTERFACE_SETTINGS"]),
    ("user.permissions", ["USER_PERMISSIONS"])]

def defaultModelKeys : List String := ["ui.default_models", "ui.default_pinned_models"]

/-- A row of `config`, but for its key. -/
structure Row where
  value : Json
  updatedAt : Option ℤ
deriving DecidableEq

abbrev Table := Dict String Row

/-! ## The database -/

/-- What the database and the session leave open: which letters `LIKE` takes for one, the order of
the rows of a `SELECT`, and whether a dictionary that was changed in place and stored in its own
column is written. -/
structure Database where
  fold : Char → Char
  order : List (String × Row) → List (String × Row)
  order_perm : ∀ rows, (order rows).Perm rows
  seesMutation : Bool

/-- `text LIKE pattern`. -/
def like (fold : Char → Char) : List Char → List Char → Bool
  | [], text => text.isEmpty
  | c :: pattern, text =>
    if c = '%' then text.tails.any fun rest => like fold pattern rest
    else
      match text with
      | [] => false
      | d :: rest => (c = '_' || fold c = fold d) && like fold pattern rest

/-- `SELECT * FROM config WHERE key LIKE …`. -/
def selectLike (db : Database) (table : Table) (pattern : String) : List (String × Row) :=
  db.order (table.entries.filter fun e => like db.fold pattern.toList e.1.toList)

/-! ## `repair_config_rows` -/

/-- `_assign_path`; a path has at least one part. -/
def assignPath (value : Json) : List String → Obj → Obj
  | [], target => target
  | [part], target => Assoc.set target part value
  | part :: path, target =>
    Assoc.set target part (.obj
      (assignPath value path (((target.lookup part).bind Json.asObj).getD [])))

/-- The key without the first prefix it starts with. -/
def fragmentOf (prefixes : List String) (key : String) : Option String :=
  prefixes.findSome? fun keyPrefix =>
    let start := (keyPrefix ++ ".").toList
    if start.isPrefixOf key.toList then some (String.ofList (key.toList.drop start.length))
      else none

/-- The object key, if the setting has such, and the path of the field. -/
def rowPath (configKey fragment : String) : Option (Option String × List String) :=
  if configKey ∈ apiConfigKeys then (splitApiConfigFragment fragment).map fun s => (some s.1, s.2)
  else some (none, splitDots fragment.toList)

/-- The dictionary with the row's value; `none` where the row is passed over. -/
def repairRow (configKey : String) (prefixes : List String) (repaired : Obj) (key : String)
    (value : Json) :
    Option Obj := do
  let fragment ← fragmentOf prefixes key
  let split ← rowPath configKey fragment
  match split.1 with
  | none => some (assignPath value split.2 repaired)
  | some objectKey =>
    match (repaired.lookup objectKey).getD (.obj []) with
    | .obj target => some (Assoc.set repaired objectKey (.obj (assignPath value split.2 target)))
    | _ => none

/-- One row: the dictionary so far and the keys of the rows it was put together from. -/
def repairStep (configKey : String) (prefixes : List String) (st : Obj × List String)
    (row : String × Row) :
    Obj × List String :=
  match repairRow configKey prefixes st.1 row.1 row.2.value with
  | none => st
  | some repaired => (repaired, st.2 ++ [row.1])

/-- The value of the setting's row after the assignment. -/
def writtenValue (db : Database) (existing : Option Row) (repaired : Obj) : Json :=
  match existing.bind fun row => row.value.asObj with
  | none => .obj repaired
  -- the row's own dictionary was changed and is stored again
  | some old => if db.seesMutation then .obj repaired else .obj old

/-- The table and the keys of the rows to delete. -/
structure Session where
  table : Table
  orphanKeys : List String

def repairSetting (db : Database) (now : ℤ) (s : Session)
    (setting : String × List String) : Session :=
  let configKey := setting.1
  let prefixes := configKey :: setting.2
  let rows := prefixes.flatMap fun keyPrefix => selectLike db s.table (keyPrefix ++ ".%")
  let existing := s.table.get? configKey
  let start := ((existing.map Row.value).bind Json.asObj).getD []
  let result := rows.foldl (repairStep configKey prefixes) (start, [])
  if result.2 = [] then s
  else ⟨s.table.set configKey ⟨writtenValue db existing result.1, some now⟩,
    s.orphanKeys ++ result.2⟩

/-- A list of default models becomes a text; `str` is the builtin. -/
def joinDefaultModels (str : Json → String) (now : ℤ) (table : Table) (key : String) : Table :=
  match ((table.get? key).map Row.value).bind Json.asArr with
  | none => table
  | some items =>
    table.set key ⟨.str (",".intercalate
      ((items.map fun item => strip (str item)).filter (· ≠ ""))), some now⟩

def repairConfigRows (db : Database) (str : Json → String) (persistentEnabled : Bool) (now : ℤ)
    (table : Table) :
    Table :=
  if ¬ persistentEnabled then table
  else
    let s := dictConfigKeyAliases.foldl (repairSetting db now) ⟨table, []⟩
    defaultModelKeys.foldl (joinDefaultModels str now) (s.orphanKeys.foldl Dict.erase s.table)

/-! ## Storing one leaf -/

section

open Json

variable {value : Json} {o : Obj} {path : List String}

/-- No leaf lies above or below the path. -/
def Free (o : Obj) (path : List String) : Prop :=
  ∀ q w, LeafAt (.obj o) q w → q <+: path ∨ path <+: q → q = path

/-- Below the first part of a free path there is a dictionary, or nothing. -/
theorem leafAt_below {part : String} (hpath : path ≠ []) (hfree : Free o (part :: path))
    (q : List String) (w : Json) :
    LeafAt (.obj (((o.lookup part).bind Json.asObj).getD [])) q w ↔
      LeafAt (.obj o) (part :: q) w := by
  rw [leafAt_cons]
  cases hlookup : o.lookup part with
  | none =>
      refine iff_of_false (fun h => ?_) (by simp)
      cases h with
      | here h => cases h
      | down h _ => cases h
  | some u =>
      cases hu : u.asObj with
      | none =>
          -- a leaf at the first part is above the path
          have hclash := hfree [part] u (.down hlookup (.here hu)) (.inl ⟨path, rfl⟩)
          exact absurd (List.cons.inj hclash).2.symm hpath
      | some t =>
          obtain rfl : u = .obj t := by
            cases u with
            | obj t' => exact congrArg Json.obj (Option.some.inj hu)
            | _ => cases hu
          simp

/-- A path that is free stays free below its first part. -/
theorem Free.below {part : String} (hpath : path ≠ []) (hfree : Free o (part :: path)) :
    Free (((o.lookup part).bind Json.asObj).getD []) path := by
  intro q w hleaf hbegins
  have hclash := hfree (part :: q) w ((leafAt_below hpath hfree q w).mp hleaf)
  simp only [List.cons_prefix_cons, true_and, List.cons.injEq] at hclash
  exact hclash hbegins

/-- Storing a leaf at a free path adds it to the leaves. -/
theorem leafAt_assignPath (hvalue : value.asObj = none) (hpath : path ≠ []) (hfree : Free o path)
    (q : List String) (w : Json) :
    LeafAt (.obj (assignPath value path o)) q w ↔ q = path ∧ w = value ∨ q ≠ path ∧
      LeafAt (.obj o) q w := by
  induction path generalizing o q with
  | nil => exact absurd rfl hpath
  | cons part path ih =>
      cases path with
      | nil =>
          rw [assignPath, leafAt_set]
          constructor
          · rintro (⟨q', rfl, hleaf⟩ | ⟨hout, hleaf⟩)
            · obtain ⟨rfl, rfl⟩ := (leafAt_leaf hvalue).mp hleaf
              exact .inl ⟨rfl, rfl⟩
            · exact .inr ⟨hout [], hleaf⟩
          · rintro (⟨rfl, rfl⟩ | ⟨hne, hleaf⟩)
            · exact .inl ⟨[], rfl, .here hvalue⟩
            · refine .inr ⟨fun q' hq => ?_, hleaf⟩
              exact hne (hfree q w hleaf (.inr ⟨q', by rw [hq]; rfl⟩))
      | cons part' path =>
          have hne : part' :: path ≠ [] := List.cons_ne_nil _ _
          rw [assignPath, leafAt_set]
          · simp only [ih hne (hfree.below hne), leafAt_below hne hfree]
            by_cases hq : ∃ q', q = part :: q'
            · obtain ⟨q', rfl⟩ := hq
              simp
            · push Not at hq
              simp [hq]
          · exact hne

theorem assignPath_ne_nil (value : Json) (hpath : path ≠ []) (o : Obj) :
    assignPath value path o ≠ [] := by
  cases path with
  | nil => exact absurd rfl hpath
  | cons part path =>
      cases path with
      | nil => exact set_ne_nil _ _ _
      | cons part' path => exact set_ne_nil _ _ _

/-- Assigning a leaf keeps the members nested. -/
theorem members_assignPath (hvalue : value.asObj = none) (hpath : path ≠ []) (h : Members o) :
    Members (assignPath value path o) := by
  induction path generalizing o with
  | nil => exact absurd rfl hpath
  | cons part path ih =>
      cases path with
      | nil => exact h.set part (.leaf hvalue)
      | cons part' path =>
          have hne : part' :: path ≠ [] := List.cons_ne_nil _ _
          refine h.set part (Members.node (ih hne ?_) (assignPath_ne_nil value hne _))
          cases hlookup : o.lookup part with
          | none => exact Members.nil
          | some u =>
              cases u with
              | obj t => exact (h.nested part _ hlookup).members
              | _ => exact Members.nil

end

/-! ## What the repair should do -/

/-- `<config key>.<connection key>.<field>.<path>`. -/
def rowKey (configKey : String) (path : List String) : String := configKey ++ "." ++ joinDots path

/-- Connections by key: each value is a dictionary of fields, no dictionary is empty, and what is
below a field has keys without dots. -/
structure Connections (m : Obj) : Prop where
  nested : Json.Nested (.obj m)
  fields : ∀ path v, Json.LeafAt (.obj m) path v → ∃ key field rest, path = key :: field :: rest ∧
    field ∈ apiConfigFields ∧ (∀ part ∈ rest, DotFree part) ∧ Splits key rest

/-- The row is a row of the setting and the code finds a path in its key. -/
def Recognised (setting : String × List String) (key : String) : Prop :=
  ∃ fragment, fragmentOf (setting.1 :: setting.2) key = some fragment ∧
    rowPath setting.1 fragment ≠ none

/-- The connections are stored leaf by leaf, with no other row of the setting. -/
structure Flattened (setting : String × List String) (m : Obj) (table : Table) : Prop where
  stored : ∀ path v, Json.LeafAt (.obj m) path v →
    ∃ updatedAt, table.get? (rowKey setting.1 path) = some ⟨v, updatedAt⟩
  alone : ∀ key ∈ table, Recognised setting key → ∃ path v, Json.LeafAt (.obj m) path v ∧
    key = rowKey setting.1 path
  unset : ∀ row, table.get? setting.1 = some row → row.value.asObj = none

/-- The key is that of the setting or of a row of it. -/
def OfSetting (setting : String × List String) (key : String) : Prop :=
  key = setting.1 ∨ ∃ keyPrefix ∈ setting.1 :: setting.2, (keyPrefix ++ ".").toList <+: key.toList

/-- The connections are stored as one value and their rows are gone; what belongs to no other
setting is unchanged. -/
structure Repaired (setting : String × List String) (m : Obj) (before after : Table) : Prop where
  restored : ∃ o updatedAt, after.get? setting.1 = some ⟨.obj o, updatedAt⟩ ∧
    Json.pyEq (.obj o) (.obj m) = true ∧
    ∀ path v, Json.LeafAt (.obj o) path v ↔ Json.LeafAt (.obj m) path v
  deleted : ∀ path v, Json.LeafAt (.obj m) path v → rowKey setting.1 path ∉ after
  kept : ∀ key, key ≠ setting.1 →
    (∀ path v, Json.LeafAt (.obj m) path v → key ≠ rowKey setting.1 path) →
    (∀ other ∈ dictConfigKeyAliases, other ≠ setting → ¬ OfSetting other key) →
      key ∉ defaultModelKeys →
    after.get? key = before.get? key

/-! ## The rows of the setting -/

section

open Json

variable {configKey : String} {aliases : List String} {m o : Obj} {path : List String} {v : Json}

/-- The fragment of a row's key is its dotted path. -/
theorem fragmentOf_rowKey (configKey : String) (aliases path : List String) :
    fragmentOf (configKey :: aliases) (rowKey configKey path) = some (joinDots path) := by
  have hlist :
    (rowKey configKey path).toList = (configKey ++ ".").toList ++ (joinDots path).toList :=
    String.toList_append
  rw [fragmentOf, List.findSome?_cons]
  dsimp only
  rw [if_pos (by rw [hlist, List.isPrefixOf_iff_prefix]; exact List.prefix_append _ _), hlist,
    List.drop_left, String.ofList_toList]

/-- A key with a fragment lies below one of the prefixes. -/
theorem below_of_fragmentOf {prefixes : List String} {key fragment : String}
    (h : fragmentOf prefixes key = some fragment) :
    ∃ keyPrefix ∈ prefixes, (keyPrefix ++ ".").toList <+: key.toList := by
  obtain ⟨keyPrefix, hmem, hfound⟩ := List.exists_of_findSome?_eq_some h
  dsimp only at hfound
  split_ifs at hfound with hbegins
  exact ⟨keyPrefix, hmem, List.isPrefixOf_iff_prefix.mp hbegins⟩

/-- The path of a leaf is read off the key of its row. -/
theorem rowPath_leaf (hm : Connections m) (hapi : configKey ∈ apiConfigKeys)
    (hleaf : LeafAt (.obj m) path v) :
    ∃ key rest, path = key :: rest ∧ rest ≠ [] ∧
      rowPath configKey (joinDots path) = some (some key, rest) := by
  obtain ⟨key, field, rest, rfl, hfield, hdots, hsplits⟩ := hm.fields path v hleaf
  refine ⟨key, field :: rest, rfl, List.cons_ne_nil _ _, ?_⟩
  rw [rowPath, if_pos hapi, splitApiConfigFragment_joinDots hfield hdots hsplits]
  rfl

/-- The key of a stored leaf is recognised. -/
theorem recognised_leaf (hm : Connections m) (hapi : configKey ∈ apiConfigKeys)
    (hleaf : LeafAt (.obj m) path v) :
    Recognised (configKey, aliases) (rowKey configKey path) := by
  obtain ⟨key, rest, _, _, hpath⟩ := rowPath_leaf hm hapi hleaf
  exact ⟨joinDots path, fragmentOf_rowKey configKey aliases
    path, by rw [hpath]; exact Option.some_ne_none _⟩

theorem rowKey_inj (hm : Connections m) (hapi : configKey ∈ apiConfigKeys) {path' : List String}
    {v' : Json} (hleaf : LeafAt (.obj m) path v) (hleaf' : LeafAt (.obj m) path' v')
    (h : rowKey configKey path = rowKey configKey path') : path = path' := by
  obtain ⟨key, rest, rfl, _, hpath⟩ := rowPath_leaf hm hapi hleaf
  obtain ⟨key', rest', rfl, _, hpath'⟩ := rowPath_leaf hm hapi hleaf'
  have hjoin : some (joinDots (key :: rest)) = some (joinDots (key' :: rest')) := by
    rw [← fragmentOf_rowKey configKey [], h, fragmentOf_rowKey]
  rw [Option.some.inj hjoin, hpath', Option.some.injEq, Prod.mk.injEq, Option.some.injEq] at hpath
  rw [hpath.1, hpath.2]

/-- A row that came from a leaf is put back at its path. -/
theorem repairRow_leaf (hm : Connections m) (hapi : configKey ∈ apiConfigKeys)
    (hleaf : LeafAt (.obj m) path v) (hsub : ∀ q w, LeafAt (.obj o) q w → LeafAt (.obj m) q w) :
    repairRow configKey (configKey :: aliases) o (rowKey configKey path) v =
      some (assignPath v path o) := by
  obtain ⟨key, rest, rfl, hne, hpath⟩ := rowPath_leaf hm hapi hleaf
  obtain ⟨part, rest, rfl⟩ := List.exists_cons_of_ne_nil hne
  rw [repairRow, fragmentOf_rowKey, Option.bind_eq_bind, Option.bind_some, hpath,
    Option.bind_eq_bind, Option.bind_some]
  dsimp only
  rw [assignPath]
  · cases hlookup : o.lookup key with
    | none => rfl
    | some u =>
        cases hu : u.asObj with
        | none =>
            -- no leaf is above another
            have habove : LeafAt (.obj m) [key] u := hsub _ _ (.down hlookup (.here hu))
            have hclash := (habove.prefix_eq hleaf ⟨part :: rest, rfl⟩).1
            cases (List.cons.inj hclash).2
        | some t =>
            cases u with
            | obj t' => rfl
            | _ => cases hu
  · exact hne

/-- Rows of leaves are put together, all others are passed over. -/
theorem foldl_repairStep (hm : Connections m) (hapi : configKey ∈ apiConfigKeys)
    (rows : List (String × Row))
    (hrows : ∀ row ∈ rows, Recognised (configKey, aliases) row.1 →
      ∃ path, LeafAt (.obj m) path row.2.value ∧ row.1 = rowKey configKey path) :
    ∀ (o : Obj) (orphans : List String), Members o →
      (∀ q w, LeafAt (.obj o) q w → LeafAt (.obj m) q w) →
      ∃ o' orphans', rows.foldl (repairStep configKey (configKey :: aliases)) (o, orphans) =
        (o', orphans') ∧ Members o' ∧
        (∀ q w, LeafAt (.obj o') q w ↔
          LeafAt (.obj o) q w ∨ LeafAt (.obj m) q w ∧ rowKey configKey q ∈ rows.map Prod.fst) ∧
        ∀ k, k ∈ orphans' ↔ k ∈ orphans ∨ k ∈ rows.map Prod.fst ∧ ∃ q w, LeafAt (.obj m) q w ∧
          k = rowKey configKey q := by
  induction rows with
  | nil =>
      intro o orphans ho _
      exact ⟨o, orphans, rfl, ho, fun _ _ => by simp, fun _ => by simp⟩
  | cons row rows ih =>
      intro o orphans ho hsub
      have ih := ih fun row hrow => hrows row (List.mem_cons_of_mem _ hrow)
      rw [List.foldl_cons]
      -- a recognised row is written at its path, which is free so far
      by_cases hrec : Recognised (configKey, aliases) row.1
      · obtain ⟨path, hleaf, hkey⟩ := hrows row List.mem_cons_self hrec
        have hfree : Free o path := fun q w hq hor => by
          rcases hor with hbegins | hbegins
          · exact ((hsub q w hq).prefix_eq hleaf hbegins).1
          · exact (hleaf.prefix_eq (hsub q w hq) hbegins).1.symm
        have hne : path ≠ [] := by
          rintro rfl
          exact not_leafAt_nil m _ hleaf
        have hstep : repairStep configKey (configKey :: aliases) (o, orphans) row =
            (assignPath row.2.value path o, orphans ++ [row.1]) := by
          rw [repairStep]
          simp only [hkey, repairRow_leaf hm hapi hleaf hsub]
        have hleaves := leafAt_assignPath hleaf.leaf hne hfree
        obtain ⟨o', orphans', hfold, ho', hleaves', horphans'⟩ :=
          ih (assignPath row.2.value path o) (orphans ++ [row.1])
          (members_assignPath hleaf.leaf hne ho) fun q w hq => by
            rcases (hleaves q w).mp hq with ⟨rfl, rfl⟩ | ⟨_, hq⟩
            · exact hleaf
            · exact hsub q w hq
        refine ⟨o', orphans', by rw [hstep, hfold], ho', fun q w => ?_, fun k => ?_⟩
        · rw [hleaves', hleaves, List.map_cons, List.mem_cons, hkey]
          constructor
          · rintro ((⟨rfl, rfl⟩ | ⟨_, hq⟩) | ⟨hq, hmem⟩)
            · exact .inr ⟨hleaf, .inl rfl⟩
            · exact .inl hq
            · exact .inr ⟨hq, .inr hmem⟩
          · rintro (hq | ⟨hq, hmem | hmem⟩)
            · by_cases hqp : q = path
              · subst hqp
                exact .inl (.inl ⟨rfl, ((hsub q w hq).prefix_eq hleaf (List.prefix_refl _)).2⟩)
              · exact .inl (.inr ⟨hqp, hq⟩)
            · obtain rfl := rowKey_inj hm hapi hq hleaf hmem
              exact .inl (.inl ⟨rfl, (hq.prefix_eq hleaf (List.prefix_refl _)).2⟩)
            · exact .inr ⟨hq, hmem⟩
        · rw [horphans', List.mem_append, List.mem_singleton, List.map_cons, List.mem_cons]
          constructor
          · rintro ((hk | rfl) | ⟨hk, hq⟩)
            · exact .inl hk
            · exact .inr ⟨.inl rfl, path, _, hleaf, hkey⟩
            · exact .inr ⟨.inr hk, hq⟩
          · rintro (hk | ⟨hk | hk, hq⟩)
            · exact .inl (.inl hk)
            · exact .inl (.inr hk)
            · exact .inr ⟨hk, hq⟩
      -- any other row is skipped
      · have hstep :
          repairStep configKey (configKey :: aliases) (o, orphans) row = (o, orphans) := by
          have hnone : repairRow configKey (configKey :: aliases) o row.1 row.2.value = none := by
            rw [repairRow]
            cases hfragment : fragmentOf (configKey :: aliases) row.1 with
            | none => rfl
            | some fragment =>
                have hpath : rowPath configKey fragment = none := by
                  by_contra h
                  exact hrec ⟨fragment, hfragment, h⟩
                rw [Option.bind_eq_bind, Option.bind_some, hpath]
                rfl
          rw [repairStep, hnone]
        obtain ⟨o', orphans', hfold, ho', hleaves', horphans'⟩ := ih o orphans ho hsub
        -- no leaf has the key of a row that is not recognised
        have hkey : ∀ q w, LeafAt (.obj m) q w → rowKey configKey q ≠ row.1 := fun q w hq heq =>
          hrec (heq ▸ recognised_leaf hm hapi hq)
        refine ⟨o', orphans', by rw [hstep, hfold], ho', fun q w => ?_, fun k => ?_⟩
        · rw [hleaves', List.map_cons, List.mem_cons]
          refine or_congr_right (and_congr_right fun hq => ?_)
          simp [hkey q w hq]
        · rw [horphans', List.map_cons, List.mem_cons]
          refine or_congr_right (and_congr_left fun ⟨q, w, hq, hk⟩ => ?_)
          simp [hk, hkey q w hq]

end

/-! ## The rows a query selects -/

/-- A pattern that ends in `%` matches whatever starts like it. -/
theorem like_start (fold : Char → Char) {start : List Char} (h : '%' ∉ start) (rest : List Char) :
    like fold (start ++ ['%']) (start ++ rest) = true := by
  induction start with
  | nil =>
      simp only [List.nil_append, like, if_true, List.any_eq_true]
      exact ⟨[], List.mem_tails _ _ |>.mpr List.nil_suffix, rfl⟩
  | cons c start ih =>
      have hc : c ≠ '%' := fun heq => h (heq ▸ List.mem_cons_self)
      simp only [List.cons_append, like, if_neg hc]
      simp [ih fun hmem => h (List.mem_cons_of_mem _ hmem)]

variable {db : Database} {table : Table}

theorem get?_of_mem_selectLike {pattern : String} {row : String × Row}
    (h : row ∈ selectLike db table pattern) :
    table.get? row.1 = some row.2 := by
  have hmem := List.mem_of_mem_filter ((db.order_perm _).mem_iff.mp h)
  exact (Dict.mem_entries_iff table row.1 row.2).mp hmem

theorem mem_selectLike {keyPrefix key : String} {row : Row}
    (hpercent : '%' ∉ (keyPrefix ++ ".").toList) (hget : table.get? key = some row)
    (hbegins : (keyPrefix ++ ".").toList <+: key.toList) :
    (key, row) ∈ selectLike db table (keyPrefix ++ ".%") := by
  refine (db.order_perm _).mem_iff.mpr
    (List.mem_filter.mpr ⟨(Dict.mem_entries_iff table key row).mpr hget, ?_⟩)
  obtain ⟨rest, hrest⟩ := hbegins
  have hpattern : (keyPrefix ++ ".%").toList = (keyPrefix ++ ".").toList ++ ['%'] := by
    rw [String.toList_append, String.toList_append, List.append_assoc]
    rfl
  dsimp only
  rw [hpattern, ← hrest]
  exact like_start db.fold hpercent rest

/-! ## One setting -/

/-- The repair of one setting changes its own row alone, and deletes rows of it. -/
theorem repairSetting_frame (now : ℤ) (s : Session) (setting : String × List String) :
    (∀ key, key ≠ setting.1 → (repairSetting db now s setting).table.get? key = s.table.get? key) ∧
      ∃ new, (repairSetting db now s setting).orphanKeys = s.orphanKeys ++ new ∧
        ∀ key ∈ new, ∃ keyPrefix ∈ setting.1 :: setting.2, (keyPrefix ++ ".").toList <+:
          key.toList := by
  have hfold : ∀ (rows : List (String × Row)) (st : Obj × List String),
      ∀ key ∈ (rows.foldl (repairStep setting.1 (setting.1 :: setting.2)) st).2, key ∈ st.2 ∨
        ∃ keyPrefix ∈ setting.1 :: setting.2, (keyPrefix ++ ".").toList <+: key.toList := by
    intro rows
    induction rows with
    | nil => exact fun _ _ hkey => .inl hkey
    | cons row rows ih =>
        intro st key hkey
        rcases ih _ key hkey with hold | hbelow
        · rw [repairStep] at hold
          split at hold
          · exact .inl hold
          · next repaired hrepair =>
              rcases List.mem_append.mp hold with hold | hnew
              · exact .inl hold
              · obtain ⟨fragment, hfragment, _⟩ := Option.bind_eq_some_iff.mp hrepair
                exact .inr (List.mem_singleton.mp hnew ▸ below_of_fragmentOf hfragment)
        · exact .inr hbelow
  rw [repairSetting]
  split_ifs with hempty
  · exact ⟨fun _ _ => rfl, [], (List.append_nil _).symm, fun _ h => absurd h List.not_mem_nil⟩
  · refine ⟨fun key hkey => Dict.get?_set_ne _ _ hkey, _, rfl, fun key hkey => ?_⟩
    exact (hfold _ _ key hkey).resolve_left List.not_mem_nil

/-- Repairing changes the rows of the settings and only collects orphans. -/
theorem repairSettings_frame (now : ℤ) (settings : List (String × List String)) : ∀ s : Session,
    (∀ key, (∀ setting ∈ settings, key ≠ setting.1) →
      (settings.foldl (repairSetting db now) s).table.get? key = s.table.get? key) ∧
      ∃ new, (settings.foldl (repairSetting db now) s).orphanKeys = s.orphanKeys ++ new ∧
        ∀ key ∈ new, ∃ setting ∈ settings, ∃ keyPrefix ∈ setting.1 :: setting.2,
          (keyPrefix ++ ".").toList <+: key.toList := by
  induction settings with
  | nil => exact fun _ => ⟨fun _ _ => rfl, [], (List.append_nil _).symm,
      fun _ h => absurd h List.not_mem_nil⟩
  | cons setting settings ih =>
      intro s
      obtain ⟨hget, new, horphans, hnew⟩ := @repairSetting_frame db now s setting
      obtain ⟨hget', new', horphans', hnew'⟩ := ih (repairSetting db now s setting)
      rw [List.foldl_cons]
      refine ⟨fun key hkey => ?_, new ++ new', ?_, fun key hkey => ?_⟩
      · rw [hget' key fun other hother => hkey other (List.mem_cons_of_mem _ hother),
          hget key (hkey setting List.mem_cons_self)]
      · rw [horphans', horphans, List.append_assoc]
      · rcases List.mem_append.mp hkey with hkey | hkey
        · exact ⟨setting, List.mem_cons_self, hnew key hkey⟩
        · obtain ⟨other, hother, hbelow⟩ := hnew' key hkey
          exact ⟨other, List.mem_cons_of_mem _ hother, hbelow⟩

/-- The repair of a flattened setting puts its connections together and deletes their rows. -/
theorem repairSetting_flattened (now : ℤ) {s : Session} {setting : String × List String} {m : Obj}
    (hapi : setting.1 ∈ apiConfigKeys) (hpercent : '%' ∉ (setting.1 ++ ".").toList)
    (hm : Connections m) (hflat : Flattened setting m s.table) : ∃ o new,
      repairSetting db now s setting =
        ⟨s.table.set setting.1 ⟨.obj o, some now⟩, s.orphanKeys ++ new⟩ ∧
      Json.Members o ∧ (∀ q w, Json.LeafAt (.obj o) q w ↔ Json.LeafAt (.obj m) q w) ∧
      ∀ key, key ∈ new ↔ ∃ q w, Json.LeafAt (.obj m) q w ∧ key = rowKey setting.1 q := by
  obtain ⟨configKey, aliases⟩ := setting
  have hstart : (((s.table.get? configKey).map Row.value).bind Json.asObj).getD [] = [] := by
    cases hget : s.table.get? configKey with
    | none => rfl
    | some row => rw [Option.map_some, Option.bind_some, hflat.unset row hget, Option.getD_none]
  obtain ⟨o, new, hfold, ho, hleaves, hnew⟩ := @foldl_repairStep configKey aliases m hm hapi
    ((configKey :: aliases).flatMap fun keyPrefix => selectLike db s.table (keyPrefix ++ ".%"))
    (fun row hrow hrec => by
      obtain ⟨keyPrefix, _, hselect⟩ := List.mem_flatMap.mp hrow
      have hget := get?_of_mem_selectLike hselect
      obtain ⟨path, v, hleaf, hkey⟩ := hflat.alone row.1 (Dict.mem_of_get? hget) hrec
      obtain ⟨updatedAt, hstored⟩ := hflat.stored path v hleaf
      rw [hkey, hstored] at hget
      exact ⟨path, Option.some.inj hget ▸ hleaf, hkey⟩)
    [] [] Json.Members.nil fun q w h => absurd h (Json.not_leafAt_empty q w)
  -- every leaf has a row that is selected
  have hselected : ∀ q w, Json.LeafAt (.obj m) q w → rowKey configKey q ∈
      ((configKey :: aliases).flatMap fun keyPrefix =>
        selectLike db s.table (keyPrefix ++ ".%")).map Prod.fst := by
    intro q w hleaf
    obtain ⟨updatedAt, hstored⟩ := hflat.stored q w hleaf
    have hbegins : (configKey ++ ".").toList <+: (rowKey configKey q).toList :=
      ⟨(joinDots q).toList, String.toList_append.symm⟩
    have hrow : (rowKey configKey q, ⟨w, updatedAt⟩) ∈ selectLike db s.table (configKey ++ ".%") :=
      mem_selectLike hpercent hstored hbegins
    exact List.mem_map.mpr ⟨_, List.mem_flatMap.mpr ⟨configKey, List.mem_cons_self, hrow⟩, rfl⟩
  have hkeys : ∀ key, key ∈ new ↔ ∃ q w, Json.LeafAt (.obj m) q w ∧ key = rowKey configKey q := by
    intro key
    rw [hnew]
    constructor
    · rintro (h | ⟨_, h⟩)
      · exact absurd h List.not_mem_nil
      · exact h
    · rintro ⟨q, w, hleaf, rfl⟩
      exact .inr ⟨hselected q w hleaf, q, w, hleaf, rfl⟩
  obtain ⟨q, w, hleaf⟩ := hm.nested.exists_leaf
  have hne : new ≠ [] := List.ne_nil_of_mem ((hkeys _).mpr ⟨q, w, hleaf, rfl⟩)
  refine ⟨o, new, ?_, ho, fun q w => ?_, hkeys⟩
  · rw [repairSetting]
    dsimp only
    rw [hstart, hfold, if_neg hne, writtenValue]
    cases hget : s.table.get? configKey with
    | none => rfl
    | some row => rw [Option.bind_some, hflat.unset row hget]
  · rw [hleaves]
    constructor
    · rintro (h | ⟨h, _⟩)
      · exact absurd h (Json.not_leafAt_empty q w)
      · exact h
    · exact fun h => .inr ⟨h, hselected q w h⟩

/-! ## All settings -/

/-- The names of two settings, each with a dot, do not begin one another. -/
theorem prefixes_apart :
    ∀ setting ∈ dictConfigKeyAliases, ∀ other ∈ dictConfigKeyAliases, other ≠ setting →
    ∀ p ∈ setting.1 :: setting.2, ∀ q ∈ other.1 :: other.2, ¬ (p ++ ".").toList <+:
      (q ++ ".").toList := by
  decide +kernel

/-- No prefix reaches the keys of the default models. -/
theorem prefixes_ne_defaultModelKeys :
    ∀ setting ∈ dictConfigKeyAliases, ∀ p ∈ setting.1 :: setting.2,
    ∀ key ∈ defaultModelKeys, ¬ (p ++ ".").toList <+: (key ++ ".").toList := by
  decide +kernel

/-- No prefix has a wildcard in it. -/
theorem no_percent : ∀ setting ∈ dictConfigKeyAliases, '%' ∉ (setting.1 ++ ".").toList := by
  decide

/-- A key of a setting lies below one of its prefixes. -/
theorem exists_start {setting : String × List String} {key : String} (h : OfSetting setting key) :
    ∃ p ∈ setting.1 :: setting.2, (p ++ ".").toList <+: (key ++ ".").toList := by
  rcases h with rfl | ⟨p, hp, hbegins⟩
  · exact ⟨setting.1, List.mem_cons_self, List.prefix_refl _⟩
  · refine ⟨p, hp, hbegins.trans ?_⟩
    rw [String.toList_append]
    exact List.prefix_append _ _

/-- No key belongs to two settings. -/
theorem not_ofSetting {setting other : String × List String} {key : String}
    (hsetting : setting ∈ dictConfigKeyAliases) (hother : other ∈ dictConfigKeyAliases)
    (hne : other ≠ setting) (h : OfSetting setting key) : ¬ OfSetting other key := by
  intro h'
  obtain ⟨p, hp, hbegins⟩ := exists_start h
  obtain ⟨q, hq, hbegins'⟩ := exists_start h'
  rcases List.prefix_or_prefix_of_prefix hbegins hbegins' with hpq | hqp
  · exact prefixes_apart setting hsetting other hother hne p hp q hq hpq
  · exact prefixes_apart other hother setting hsetting hne.symm q hq p hp hqp

/-- A row's key belongs to its setting. -/
theorem ofSetting_rowKey (setting : String × List String) (path : List String) :
    OfSetting setting (rowKey setting.1 path) :=
  .inr ⟨setting.1, List.mem_cons_self, (joinDots path).toList, String.toList_append.symm⟩

/-- A recognised key belongs to its setting. -/
theorem ofSetting_of_recognised {setting : String × List String} {key : String}
    (h : Recognised setting key) :
    OfSetting setting key := by
  obtain ⟨fragment, hfragment, _⟩ := h
  exact .inr (below_of_fragmentOf hfragment)

/-- A key of a setting is not one of the default models. -/
theorem not_defaultModelKey {setting : String × List String} {key : String}
    (hsetting : setting ∈ dictConfigKeyAliases) (h : OfSetting setting key) :
    key ∉ defaultModelKeys := by
  intro hdefault
  obtain ⟨p, hp, hbegins⟩ := exists_start h
  exact prefixes_ne_defaultModelKeys setting hsetting p hp key hdefault hbegins

theorem get?_joinDefaultModels (str : Json → String) (now : ℤ) (table : Table) {k key : String}
    (h : key ≠ k) :
    (joinDefaultModels str now table k).get? key = table.get? key := by
  rw [joinDefaultModels]
  split
  · rfl
  · exact Dict.get?_set_ne _ _ h

theorem rowKey_ne (configKey : String) (path : List String) :
    rowKey configKey path ≠ configKey := by
  intro h
  have hlength := congrArg (fun key => key.toList.length) h
  simp only [rowKey, String.toList_append, List.length_append] at hlength
  have hdot : (".").toList.length = 1 := rfl
  omega

/-- Whether a table is flattened depends only on the rows of the setting. -/
theorem Flattened.congr {setting : String × List String} {m : Obj} {table' : Table}
    (h : Flattened setting m table)
    (hget : ∀ key, OfSetting setting key → table'.get? key = table.get? key) :
    Flattened setting m table' where
  stored := by
    intro path v hleaf
    rw [hget _ (ofSetting_rowKey setting path)]
    exact h.stored path v hleaf
  alone := by
    intro key hkey hrec
    refine h.alone key ?_ hrec
    rwa [Dict.mem_iff, ← hget key (ofSetting_of_recognised hrec), ← Dict.mem_iff]
  unset := by
    intro row hrow
    rw [hget _ (.inl rfl)] at hrow
    exact h.unset row hrow

/-- Flattened connections, with no other row of their setting, are repaired. -/
theorem repairConfigRows_repaired (db : Database) (str : Json → String) (now : ℤ) {table : Table}
    {setting : String × List String} {m : Obj} (hsetting : setting ∈ dictConfigKeyAliases)
    (hapi : setting.1 ∈ apiConfigKeys) (hm : Connections m) (hflat : Flattened setting m table) :
    Repaired setting m table (repairConfigRows db str true now table) := by
  have hnodup : dictConfigKeyAliases.Nodup := by decide
  obtain ⟨before, after, hsplit⟩ := List.append_of_mem hsetting
  rw [hsplit] at hnodup
  have hothers : ∀ other ∈ before ++ after, other ∈ dictConfigKeyAliases ∧ other ≠ setting := by
    intro other hother
    refine ⟨by rw [hsplit]; simp only [List.mem_append, List.mem_cons] at hother ⊢; tauto, ?_⟩
    rintro rfl
    exact (List.nodup_middle.mp hnodup).notMem hother
  -- other settings have other keys
  have hother : ∀ key, OfSetting setting key → ∀ other ∈ before ++ after, ¬ OfSetting other key :=
    fun key hkey other hmem =>
    not_ofSetting hsetting (hothers other hmem).1 (hothers other hmem).2 hkey
  obtain ⟨hgetBefore, newBefore, horphansBefore, hnewBefore⟩ :=
    @repairSettings_frame db now before ⟨table, []⟩
  obtain ⟨o, new, hrepair, ho, hleaves, hnew⟩ := @repairSetting_flattened db now
    (before.foldl (repairSetting db now) ⟨table, []⟩) setting m hapi
      (no_percent setting hsetting) hm
    (hflat.congr fun key hkey => hgetBefore key fun other hmem heq =>
      hother key hkey other (List.mem_append_left _ hmem) (.inl heq))
  obtain ⟨hgetAfter, newAfter, horphansAfter, hnewAfter⟩ := @repairSettings_frame db now after
    (repairSetting db now (before.foldl (repairSetting db now) ⟨table, []⟩) setting)
  have hbelowBefore : ∀ key ∈ newBefore, ∃ other ∈ before ++ after, OfSetting other key :=
    fun key hkey =>
    (hnewBefore key hkey).imp fun other ⟨hmem, hbelow⟩ => ⟨List.mem_append_left _ hmem, .inr hbelow⟩
  have hbelowAfter : ∀ key ∈ newAfter, ∃ other ∈ before ++ after, OfSetting other key :=
    fun key hkey =>
    (hnewAfter key hkey).imp fun other ⟨hmem, hbelow⟩ => ⟨List.mem_append_right _ hmem, .inr hbelow⟩
  -- what is found under a key at the end
  have hfinal : ∀ key, key ∉ defaultModelKeys → (∀ other ∈ before ++ after, ¬ OfSetting other key) →
      (repairConfigRows db str true now table).get? key =
        if key ∈ new then none else if key = setting.1 then some ⟨.obj o, some now⟩
          else table.get? key := by
    intro key hdefault hnone
    have hdefault' : key ≠ "ui.default_models" ∧ key ≠ "ui.default_pinned_models" := by
      simpa [defaultModelKeys] using hdefault
    have horphan : key ∈ newBefore ++ new ++ newAfter ↔ key ∈ new := by
      simp only [List.mem_append]
      constructor
      · rintro ((hmem | hmem) | hmem)
        · obtain ⟨other, hother, hof⟩ := hbelowBefore key hmem
          exact absurd hof (hnone other hother)
        · exact hmem
        · obtain ⟨other, hother, hof⟩ := hbelowAfter key hmem
          exact absurd hof (hnone other hother)
      · exact fun hmem => .inl (.inr hmem)
    have hne : ∀ other ∈ before ++ after, key ≠ other.1 :=
      fun other hmem heq => hnone other hmem (.inl heq)
    have hget :
      (after.foldl (repairSetting db now) (repairSetting db now (before.foldl (repairSetting db now)
        ⟨table, []⟩) setting)).table.get? key = if key = setting.1 then some ⟨.obj o, some now⟩
          else table.get? key := by
      rw [hgetAfter key fun other hmem => hne other (List.mem_append_right _ hmem), hrepair,
        Dict.get?_set, hgetBefore key fun other hmem => hne other (List.mem_append_left _ hmem)]
    have horphans :
      (after.foldl (repairSetting db now) (repairSetting db now (before.foldl (repairSetting db now)
        ⟨table, []⟩) setting)).orphanKeys = newBefore ++ new ++ newAfter := by
      rw [horphansAfter, hrepair, horphansBefore]
      rfl
    rw [repairConfigRows, if_neg (by simp), hsplit, List.foldl_append, List.foldl_cons]
    simp only [defaultModelKeys, List.foldl_cons, List.foldl_nil]
    rw [get?_joinDefaultModels str now _ hdefault'.2, get?_joinDefaultModels str now _ hdefault'.1,
      Dict.get?_foldl_erase, horphans, hget]
    simp only [horphan]
  have hofKey : OfSetting setting setting.1 := .inl rfl
  refine ⟨⟨o, some now, ?_, ?_, hleaves⟩, fun path v hleaf => ?_,
    fun key hkey hrow hnone hdefault => ?_⟩
  · rw [hfinal setting.1 (not_defaultModelKey hsetting hofKey) (hother setting.1 hofKey),
      if_neg, if_pos rfl]
    intro hmem
    obtain ⟨q, _, _, heq⟩ := (hnew _).mp hmem
    exact rowKey_ne setting.1 q heq.symm
  · refine Json.pyEq_of_leaves (ho.node ?_) hm.nested hleaves
    rintro rfl
    obtain ⟨q, w, hleaf⟩ := hm.nested.exists_leaf
    exact Json.not_leafAt_empty q w ((hleaves q w).mpr hleaf)
  · have hof := ofSetting_rowKey setting path
    rw [← Dict.get?_eq_none_iff, hfinal _ (not_defaultModelKey hsetting hof) (hother _ hof),
      if_pos ((hnew _).mpr ⟨path, v, hleaf, rfl⟩)]
  · rw [hfinal key hdefault fun other hmem =>
      hnone other (hothers other hmem).1 (hothers other hmem).2, if_neg, if_neg hkey]
    intro hmem
    obtain ⟨q, w, hleaf, heq⟩ := (hnew key).mp hmem
    exact hrow q w hleaf heq

/-- One connection with a key and a header. -/
def oneConnection : Obj :=
  [("https://h.io/v1", .obj [("key", .str "k"), ("headers", .obj [("x", .str "1")])])]

/-- The leaves of the example. -/
theorem leafAt_oneConnection (path : List String) (v : Json) :
    Json.LeafAt (.obj oneConnection) path v ↔
    path = ["https://h.io/v1", "key"] ∧ v = .str "k" ∨ path = ["https://h.io/v1", "headers", "x"] ∧
      v = .str "1" := by
  have hstr : ∀ s p w, Json.LeafAt (.str s) p w ↔ p = [] ∧ w = .str s :=
    fun s _ _ => Json.leafAt_leaf rfl
  simp only [oneConnection, Json.leafAt_member, hstr, Json.not_leafAt_empty, and_false, or_false]
  constructor
  · rintro ⟨q, rfl, ⟨_, rfl, rfl, rfl⟩ | ⟨_, _, rfl, _, rfl, rfl, rfl⟩⟩
    · exact .inl ⟨rfl, rfl⟩
    · exact .inr ⟨rfl, rfl⟩
  · rintro (⟨rfl, rfl⟩ | ⟨rfl, rfl⟩)
    · exact ⟨_, rfl, .inl ⟨_, rfl, rfl, rfl⟩⟩
    · exact ⟨_, rfl, .inr ⟨by simp, _, rfl, _, rfl, rfl, rfl⟩⟩

/-- The example holds connections only. -/
theorem connections_oneConnection : Connections oneConnection where
  nested := by
    have hstr : ∀ s, Json.Nested (.str s) := fun s => .leaf rfl
    have hheaders : Json.Members [("x", .str "1")] := Json.Members.nil.set "x" (hstr "1")
    have hfields : Json.Members [("key", .str "k"), ("headers", .obj [("x", .str "1")])] :=
      (Json.Members.nil.set "key" (hstr "k")).set "headers" (hheaders.node (List.cons_ne_nil _ _))
    have hall : Json.Members oneConnection :=
      Json.Members.nil.set "https://h.io/v1" (hfields.node (List.cons_ne_nil _ _))
    exact hall.node (List.cons_ne_nil _ _)
  fields := by
    intro path v hleaf
    have hurl : BaseUrl "https://h.io/v1" := ⟨by decide, by decide⟩
    rcases (leafAt_oneConnection path v).mp hleaf with ⟨rfl, _⟩ | ⟨rfl, _⟩
    · exact ⟨_, "key", [], rfl, by decide, by simp, .inr ⟨hurl, by simp [NoFieldName]⟩⟩
    · refine ⟨_, "headers", ["x"], rfl, by decide, by simp [DotFree], .inr ⟨hurl, ?_⟩⟩
      unfold NoFieldName
      decide

/-- The rows of the connection. -/
def oneFlattened : List (String × Row) :=
  [("openai.api_configs.https://h.io/v1.key", ⟨.str "k", none⟩),
    ("openai.api_configs.https://h.io/v1.headers.x", ⟨.str "1", none⟩)]

/-- `LIKE` tells letters apart, and rows come in the order of the table. -/
def plainDatabase : Database := ⟨id, id, fun _ => .refl _, false⟩

/-- The rows of the connection, and a row of another under the setting's other name. -/
def twoNames : Table := Dict.ofList (("OPENAI_API_CONFIGS.0.key", ⟨.str "l", none⟩) :: oneFlattened)

/-- A header that has the name of a field. -/
def keyHeader : Table :=
    Dict.ofList [("openai.api_configs.https://h.io/v1.headers.key", ⟨.str "1", none⟩)]

/-- Rows under the other name go into the same dictionary; and a connection key is cut wrongly where
a field name follows. -/
theorem twoNames_not_repaired :
    Connections oneConnection ∧ (∀ path v, Json.LeafAt (.obj oneConnection) path v →
      ∃ updatedAt, twoNames.get? (rowKey "openai.api_configs" path) = some ⟨v, updatedAt⟩) ∧
    ¬ Repaired ("openai.api_configs", ["OPENAI_API_CONFIGS"]) oneConnection twoNames
      (repairConfigRows plainDatabase (fun _ => "") true 7 twoNames) ∧
    (repairConfigRows plainDatabase (fun _ => "") true 7 keyHeader).get? "openai.api_configs" =
      some ⟨.obj [("https://h.io/v1.headers", .obj [("key", .str "1")])], some 7⟩ := by
  refine ⟨connections_oneConnection, fun path v hleaf => ?_, fun h => ?_, by decide +kernel⟩
  · rcases (leafAt_oneConnection path v).mp hleaf with ⟨rfl, rfl⟩ | ⟨rfl, rfl⟩
    · exact ⟨none, by decide +kernel⟩
    · exact ⟨none, by decide +kernel⟩
  · have hmerged :
      (repairConfigRows plainDatabase (fun _ => "") true 7 twoNames).get? "openai.api_configs" =
        some ⟨.obj (oneConnection ++ [("0", .obj [("key", .str "l")])]), some 7⟩ := by
      decide +kernel
    obtain ⟨o, updatedAt, hget, _, hleaves⟩ := h.restored
    have hrow := Option.some.inj (hmerged.symm.trans hget)
    obtain rfl := Json.obj.inj (Row.mk.inj hrow).1
    have hextra := (hleaves ["0", "key"] (.str "l")).mp (.down rfl (.down rfl (.here rfl)))
    rcases (leafAt_oneConnection _ _).mp hextra with ⟨hpath, _⟩ | ⟨hpath, _⟩
    · revert hpath
      decide
    · revert hpath
      decide

/-- One flattened connection is put together again. -/
theorem repairConfigRows_oneFlattened :
    Repaired ("openai.api_configs", ["OPENAI_API_CONFIGS"]) oneConnection
    (Dict.ofList oneFlattened)
      (repairConfigRows plainDatabase (fun _ => "") true 7 (Dict.ofList oneFlattened)) := by
  refine repairConfigRows_repaired plainDatabase (fun _ => "") 7 (by decide)
    (by decide) connections_oneConnection
    ⟨fun path v hleaf => ?_, fun key hkey _ => ?_, fun row hrow => ?_⟩
  · rcases (leafAt_oneConnection path v).mp hleaf with ⟨rfl, rfl⟩ | ⟨rfl, rfl⟩
    · exact ⟨none, by decide +kernel⟩
    · exact ⟨none, by decide +kernel⟩
  · have hkeys : (Dict.ofList oneFlattened : Table).keys =
        ["openai.api_configs.https://h.io/v1.key",
          "openai.api_configs.https://h.io/v1.headers.x"] := by decide +kernel
    have hmem : key ∈ (Dict.ofList oneFlattened : Table).keys := hkey
    rw [hkeys, List.mem_cons, List.mem_singleton] at hmem
    rcases hmem with rfl | rfl
    · exact ⟨_, _, (leafAt_oneConnection _ _).mpr (.inl ⟨rfl, rfl⟩), by decide +kernel⟩
    · exact ⟨_, _, (leafAt_oneConnection _ _).mpr (.inr ⟨rfl, rfl⟩), by decide +kernel⟩
  · have hnone :
      (Dict.ofList oneFlattened : Table).get? "openai.api_configs" = none := by decide +kernel
    rw [hnone] at hrow
    cases hrow

end OpenWebUI.Config
