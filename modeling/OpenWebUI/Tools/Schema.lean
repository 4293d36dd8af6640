import Mathlib.Logic.Relation
import OpenWebUI.Lib.Fuel
import OpenWebUI.Lib.Json
import OpenWebUI.Lib.Text

/-! # Resolving the references of a schema

`resolve_schema` of `backend/open_webui/utils/tools.py` and `resolveSchema` of
`src/lib/utils/index.ts` replace each `$ref` of an OpenAPI schema by the schema it names. The
server keeps the names on the path it has come; the client shares one set, and starts a new
one below a property or below `items`.
-/

namespace OpenWebUI.Tools

open Py Fuel

/-- The composition keywords. -/
def keywords : List String := ["oneOf", "anyOf", "allOf"]

/-- `ref_path.split('/')`. -/
def splitPath (path : List Char) : List String := (path.splitOn '/').map String.ofList

/-- `ref_path.split('/')[-1]`. -/
def schemaName (refPath : String) : String := (splitPath refPath.toList).getLast?.getD ""

/-! ## `resolve_schema` -/

/-- `ref_path.strip('#/')`. -/
def stripRef (refPath : String) : List Char :=
  ((refPath.toList.dropWhile fun c => c = '#' || c = '/').reverse.dropWhile fun c =>
    c = '#' || c = '/').reverse

/-- The loop over `ref_parts[1:]`. -/
def follow : Json → List String → Run Json
  | resolved, [] => .done resolved
  | .obj o, part :: parts => follow (Obj.getD o part (.obj [])) parts
  | _, _ :: _ => .raised

/-- A schema that is no dict: `in` looks into a text or a list, and a subscript then raises. -/
def resolveOther : Json → Run Json
  | .arr xs => if ["$ref", "properties",
    "items"].any (fun k => .str k ∈ xs) || keywords.any (fun k => .str k ∈ xs)
      then .raised else .done (.arr xs)
  | .str s => if ["$ref", "properties", "items"].any (fun k => decide (In k s)) ||
      keywords.any (fun k => decide (In k s)) then .raised else .done (.str s)
  | _ => .raised

/-- The loop over `resolved_schema['properties']`. -/
def resolveProperties (f : Json → Run Json) (o : Obj) : Run Obj :=
  match o.lookup "properties" with
  | none => .done o
  | some (.obj properties) => do
    let resolved ← mapRun (fun p => do
      let r ← f p.2
      Run.done (p.1, r)) properties
    .done (Assoc.set o "properties" (.obj resolved))
  | some _ => .raised

def resolveItems (f : Json → Run Json) (o : Obj) : Run Obj :=
  match o.lookup "items" with
  | none => .done o
  | some items => do
    let r ← f items
    .done (Assoc.set o "items" r)

/-- One turn of the loop over the composition keywords. -/
def resolveKeyword (f : Json → Run Json) (keyword : String) (o : Obj) : Run Obj :=
  match o.lookup keyword with
  | some (.arr inner) => do
    let resolved ← mapRun f inner
    .done (Assoc.set o keyword (.arr resolved))
  | _ => .done o

/-- The copy of a schema with its inner schemas resolved. -/
def resolveInner (f : Json → Run Json) (o : Obj) : Run Json := do
  let o ← resolveProperties f o
  let o ← resolveItems f o
  let o ← resolveKeyword f "oneOf" o
  let o ← resolveKeyword f "anyOf" o
  let o ← resolveKeyword f "allOf" o
  .done (.obj o)

/-- One call, where `f` stands for the inner calls. -/
def resolveCall (components : Json) (f : Json → List String → Run Json) (schema : Json)
    (resolvedSchemas : List String) : Run Json :=
  if !schema.truthy then .done (.obj [])
  else
    match schema with
    | .obj o =>
      match o.lookup "$ref" with
      | none => resolveInner (fun s => f s resolvedSchemas) o
      | some (.str refPath) =>
        if schemaName refPath ∈ resolvedSchemas then .done (.obj [])
        else do
          let resolved ← follow components (splitPath (stripRef refPath)).tail
          f resolved (schemaName refPath :: resolvedSchemas)
      | some _ => .raised
    | other => resolveOther other

def resolveSchema (components : Json) : ℕ → Json → List String → Run Json :=
  recurse (resolveCall components)

/-! ## `resolveSchema` of the client -/

/-- `bool(x)` in JavaScript, where `undefined` is read as `null`. -/
def jsTruthy : Json → Bool
  | .arr _ => true
  | .obj _ => true
  | v => v.truthy

/-- `v[key]`, for a key that nothing but an object has. -/
def jsGet : Json → String → Json
  | .obj o, key => Obj.get o key
  | _, _ => .null

/-- `Object.entries(v || \x7b\x7d)`. -/
def jsEntries : Json → List (String × Json)
  | .obj o => o
  | .arr xs => xs.zipIdx.map fun p => (toString p.2, p.1)
  | .str s => s.toList.zipIdx.map fun p => (toString p.2, .str (String.singleton p.1))
  | _ => []

/-- The description, where there is one. -/
def describe (schemaRef : Json) : Obj :=
  let description := jsGet schemaRef "description"
  if jsTruthy description then [("description", description)] else []

/-- `schemaObj` before the composition keywords; `f` starts a new set. -/
def typedObject (f : Json → Run Json) (schemaRef : Json) : Run Obj :=
  let head := ("type", jsGet schemaRef "type") :: describe schemaRef
  if jsGet schemaRef "type" = .str "object" then do
    let properties ← mapRun (fun p => do
      let r ← f p.2
      Run.done (p.1, r)) (jsEntries (jsGet schemaRef "properties"))
    let required := jsGet schemaRef "required"
    .done (head ++ [("properties", .obj properties),
      ("required", if jsTruthy required then required else .arr [])])
  else if jsGet schemaRef "type" = .str "array" then do
    let items ← f (jsGet schemaRef "items")
    .done (head ++ [("items", items)])
  else .done head

/-- The loop over the composition keywords, with the shared set. -/
def composition (f : Json → List String → Run (Json × List String)) (schemaRef : Json) :
    List String → List String → Run (Obj × List String)
  | [], resolvedSchemas => .done ([], resolvedSchemas)
  | keyword :: rest, resolvedSchemas =>
    match jsGet schemaRef keyword with
    | .arr inner => do
      let r ← traverse f inner resolvedSchemas
      let o ← composition f schemaRef rest r.2
      .done ((keyword, .arr r.1) :: o.1, o.2)
    | _ => composition f schemaRef rest resolvedSchemas

/-- One call of the client, with the set after it; `f` stands for the inner calls. -/
def clientCall (components : Json) (f : Json → List String → Run (Json × List String))
    (schemaRef : Json) (resolvedSchemas : List String) : Run (Json × List String) :=
  if !jsTruthy schemaRef then .done (.obj [], resolvedSchemas)
  else if jsTruthy (jsGet schemaRef "$ref") then
    match jsGet schemaRef "$ref" with
    | .str refPath =>
      if schemaName refPath ∈ resolvedSchemas then .done (.obj [], resolvedSchemas)
      else if jsGet components "schemas" = .null then .raised
      else f (jsGet (jsGet components "schemas") (schemaName refPath))
        (schemaName refPath :: resolvedSchemas)
    | _ => .raised
  else if jsTruthy (jsGet schemaRef "type") then do
    let schemaObj ← typedObject (fun s => do
      let r ← f s []
      Run.done r.1) schemaRef
    let composed ← composition f schemaRef keywords resolvedSchemas
    .done (.obj (schemaObj ++ composed.1), composed.2)
  else do
    let composed ← composition f schemaRef keywords resolvedSchemas
    .done (.obj (if composed.1 = [] then [] else composed.1 ++ describe schemaRef), composed.2)

def clientResolveSchema (components : Json) : ℕ → Json → List String → Run (Json × List String) :=
  recurse (clientCall components)

/-! ## What both should do -/

/-- The schemas a value holds under a key: property values, `items`, or the composed ones. -/
def innerSchemas (key : String) (v : Json) : List Json :=
  if key = "properties" then
    match v with
    | .obj properties => properties.map Prod.snd
    | _ => []
  else if key = "items" then [v]
  else if key ∈ keywords then
    match v with
    | .arr inner => inner
    | _ => []
  else []

/-- `t` stands in `s` as a property value, as `items` or under a composition keyword. -/
inductive Position : Json → Json → Prop
  | mk {o : Obj} {key : String} {v t : Json} (h : o.lookup key = some v)
  (ht : t ∈ innerSchemas key v) :
      Position (.obj o) t

/-- Neither the schema nor a schema in such a position of it, at any depth, holds a `$ref`. -/
def Resolved (schema : Json) : Prop :=
  ∀ o, Relation.ReflTransGen Position schema (.obj o) → o.lookup "$ref" = none

/-- Both functions terminate, with resolved schemas where they return one. -/
structure BothResolve (components schema : Json) : Prop where
  server : ∃ fuel, resolveSchema components fuel schema [] ≠ .running ∧
    ∀ r, resolveSchema components fuel schema [] = .done r → Resolved r
  client : ∃ fuel, clientResolveSchema components fuel schema [] ≠ .running ∧
    ∀ r, clientResolveSchema components fuel schema [] = .done r → Resolved r.1

/-! ## Larger bounds -/

section Bounds

variable {f g : Json → Run Json} (hfg : ∀ s, Approx (f s) (g s))
include hfg

theorem approx_entries (l : List (String × Json)) :
    Approx (mapRun (fun p => do let r ← f p.2; Run.done (p.1, r)) l)
      (mapRun (fun p => do let r ← g p.2; Run.done (p.1, r)) l) :=
  Approx.mapRun (fun p => (hfg p.2).bind fun _ => .refl _) l

theorem approx_resolveProperties (o : Obj) :
    Approx (resolveProperties f o) (resolveProperties g o) := by
  unfold resolveProperties
  split
  · exact .refl _
  · exact (approx_entries hfg _).bind fun _ => .refl _
  · exact .refl _

theorem approx_resolveItems (o : Obj) : Approx (resolveItems f o) (resolveItems g o) := by
  unfold resolveItems
  split
  · exact .refl _
  · exact (hfg _).bind fun _ => .refl _

theorem approx_resolveKeyword (key : String) (o : Obj) :
    Approx (resolveKeyword f key o) (resolveKeyword g key o) := by
  unfold resolveKeyword
  split
  · exact (Approx.mapRun hfg _).bind fun _ => .refl _
  · exact .refl _

theorem approx_resolveInner (o : Obj) : Approx (resolveInner f o) (resolveInner g o) :=
  (approx_resolveProperties hfg o).bind fun o => (approx_resolveItems hfg o).bind fun o =>
    (approx_resolveKeyword hfg _ o).bind fun o => (approx_resolveKeyword hfg _ o).bind fun o =>
      (approx_resolveKeyword hfg _ o).bind fun _ => .refl _

theorem approx_typedObject (schemaRef : Json) :
    Approx (typedObject f schemaRef) (typedObject g schemaRef) := by
  rw [typedObject, typedObject]
  by_cases hobject : jsGet schemaRef "type" = .str "object"
  · rw [if_pos hobject, if_pos hobject]
    exact (approx_entries hfg _).bind fun _ => .refl _
  · rw [if_neg hobject, if_neg hobject]
    by_cases harray : jsGet schemaRef "type" = .str "array"
    · rw [if_pos harray, if_pos harray]
      exact (hfg _).bind fun _ => .refl _
    · rw [if_neg harray, if_neg harray]
      exact .refl _

end Bounds

theorem approx_composition {f g : Json → List String → Run (Json × List String)}
    (hfg : ∀ s v, Approx (f s v) (g s v)) (schemaRef : Json) (l : List String) :
    ∀ v, Approx (composition f schemaRef l v) (composition g schemaRef l v) := by
  induction l with
  | nil => exact fun v => .refl _
  | cons keyword rest ih =>
      intro v
      rw [composition, composition]
      split
      · exact (Approx.traverse hfg _ v).bind fun r => (ih r.2).bind fun o => .refl _
      · exact ih v

variable {components : Json}

/-- The server's call is continuous in its recursion. -/
theorem continuous_resolveCall : Continuous (resolveCall components) := by
  intro f g hfg schema resolvedSchemas
  unfold resolveCall
  by_cases hfalsy : (!schema.truthy) = true
  · rw [if_pos hfalsy, if_pos hfalsy]
    exact .refl _
  · rw [if_neg hfalsy, if_neg hfalsy]
    cases schema with
    | obj o =>
        dsimp only
        split
        · exact approx_resolveInner (fun s => hfg s resolvedSchemas) o
        · split_ifs
          · exact .refl _
          · exact (Approx.refl _).bind fun r => hfg r _
        · exact .refl _
    | _ => exact .refl _

/-- The client's call is continuous in its recursion. -/
theorem continuous_clientCall : Continuous (clientCall components) := by
  intro f g hfg schemaRef resolvedSchemas
  have hcomposition := approx_composition hfg schemaRef keywords resolvedSchemas
  unfold clientCall
  by_cases hfalsy : (!jsTruthy schemaRef) = true
  · rw [if_pos hfalsy, if_pos hfalsy]
    exact .refl _
  · rw [if_neg hfalsy, if_neg hfalsy]
    by_cases href : jsTruthy (jsGet schemaRef "$ref") = true
    · rw [if_pos href, if_pos href]
      split
      · split_ifs
        · exact .refl _
        · exact .refl _
        · exact hfg _ _
      · exact .refl _
    · rw [if_neg href, if_neg href]
      by_cases htype : jsTruthy (jsGet schemaRef "type") = true
      · rw [if_pos htype, if_pos htype]
        refine (approx_typedObject (fun s => ?_) schemaRef).bind fun o =>
          hcomposition.bind fun r => .refl _
        exact (hfg s []).bind fun r => .refl _
      · rw [if_neg htype, if_neg htype]
        exact hcomposition.bind fun r => .refl _

/-! ## Resolved schemas -/

/-- What a composition keyword holds. -/
theorem innerSchemas_keyword {key : String} (hkey : key ∈ keywords) (v : Json) :
    innerSchemas key v = v.asArr.getD [] := by
  have hproperties : key ≠ "properties" := fun heq => by subst heq; revert hkey; decide
  have hitems : key ≠ "items" := fun heq => by subst heq; revert hkey; decide
  unfold innerSchemas
  rw [if_neg hproperties, if_neg hitems, if_pos hkey]
  cases v <;> rfl

/-- Other keys hold no schema. -/
theorem innerSchemas_other {key : String} (hproperties : key ≠ "properties")
    (hitems : key ≠ "items") (hkey : key ∉ keywords) (v : Json) : innerSchemas key v = [] := by
  unfold innerSchemas
  rw [if_neg hproperties, if_neg hitems, if_neg hkey]

/-- A schema is resolved when it holds no `$ref` and its positions are resolved. -/
theorem resolved_obj {o : Obj} (href : o.lookup "$ref" = none)
    (h : ∀ key v, o.lookup key = some v → ∀ t ∈ innerSchemas key v, Resolved t) :
    Resolved (.obj o) := by
  intro o' ho'
  rcases Relation.ReflTransGen.cases_head ho' with heq | ⟨t, ht, hrest⟩
  · rw [← Json.obj.inj heq]
    exact href
  · cases ht with
    | mk hv ht => exact h _ _ hv t ht o' hrest

/-- The empty schema is resolved. -/
theorem resolved_empty : Resolved (.obj []) := resolved_obj rfl fun _ _ h => by cases h

/-- What is no object is resolved. -/
theorem resolved_of_not_obj {v : Json} (h : ∀ o, v ≠ .obj o) : Resolved v := by
  intro o ho
  rcases Relation.ReflTransGen.cases_head ho with heq | ⟨t, ht, _⟩
  · exact absurd heq (h o)
  · cases ht with
    | mk _ _ => exact absurd rfl (h _)

/-- One step of the copy: the value under `key` is resolved and the others stay. -/
def ResolvesKey (key : String) (o o' : Obj) : Prop :=
  (∀ k, k ≠ key → o'.lookup k = o.lookup k) ∧
    ∀ v, o'.lookup key = some v → ∀ t ∈ innerSchemas key v, Resolved t

theorem resolvesKey_set {o : Obj} {key : String} {v : Json}
    (h : ∀ t ∈ innerSchemas key v, Resolved t) :
    ResolvesKey key o (Assoc.set o key v) := by
  refine ⟨fun k hk => Assoc.lookup_set_ne o v hk, fun w hw => ?_⟩
  rw [Assoc.lookup_set_self] at hw
  exact Option.some.inj hw ▸ h

/-- A key without schemas is resolved as it is. -/
theorem resolvesKey_self {o : Obj} {key : String}
    (h : ∀ v, o.lookup key = some v → innerSchemas key v = []) : ResolvesKey key o o := by
  refine ⟨fun _ _ => rfl, fun v hv t ht => ?_⟩
  rw [h v hv] at ht
  exact absurd ht List.not_mem_nil

section Server

variable {f : Json → Run Json} (hf : ∀ s r, f s = .done r → Resolved r)
include hf

/-- Resolved entries hold resolved schemas. -/
theorem resolved_entries {l l' : List (String × Json)}
    (h : mapRun (fun p => do let r ← f p.2; Run.done (p.1, r)) l = .done l') :
    ∀ t ∈ l'.map Prod.snd, Resolved t := by
  intro t ht
  obtain ⟨e, he, rfl⟩ := List.mem_map.mp ht
  obtain ⟨p, _, hp⟩ := mapRun_eq_done h e he
  obtain ⟨r, hr, hpair⟩ := Run.bind_eq_done.mp hp
  cases hpair
  exact hf p.2 _ hr

/-- `properties` is resolved, the other keys stay. -/
theorem resolveProperties_spec {o o' : Obj} (h : resolveProperties f o = .done o') :
    ResolvesKey "properties" o o' := by
  rw [resolveProperties] at h
  split at h
  · next hnone =>
      cases h
      exact resolvesKey_self fun v hv => by rw [hnone] at hv; cases hv
  · obtain ⟨l, hl, hset⟩ := Run.bind_eq_done.mp h
    cases hset
    exact resolvesKey_set (resolved_entries hf hl)
  · cases h

/-- `items` is resolved, the other keys stay. -/
theorem resolveItems_spec {o o' : Obj} (h : resolveItems f o = .done o') :
    ResolvesKey "items" o o' := by
  rw [resolveItems] at h
  split at h
  · next hnone =>
      cases h
      exact resolvesKey_self fun v hv => by rw [hnone] at hv; cases hv
  · obtain ⟨r, hr, hset⟩ := Run.bind_eq_done.mp h
    cases hset
    refine resolvesKey_set fun t ht => ?_
    rw [List.mem_singleton.mp ht]
    exact hf _ _ hr

/-- A composition keyword is resolved, the other keys stay. -/
theorem resolveKeyword_spec {key : String} (hkey : key ∈ keywords) {o o' : Obj}
    (h : resolveKeyword f key o = .done o') : ResolvesKey key o o' := by
  rw [resolveKeyword] at h
  split at h
  · obtain ⟨l, hl, hset⟩ := Run.bind_eq_done.mp h
    cases hset
    refine resolvesKey_set fun t ht => ?_
    rw [innerSchemas_keyword hkey] at ht
    obtain ⟨s, _, hs⟩ := mapRun_eq_done hl t ht
    exact hf s t hs
  · next hother =>
      cases h
      refine resolvesKey_self fun v hv => ?_
      rw [innerSchemas_keyword hkey]
      cases v with
      | arr inner => exact absurd hv (hother inner)
      | _ => rfl

/-- All the keys together resolve a schema. -/
theorem resolveInner_spec {o : Obj} {r : Json} (href : o.lookup "$ref" = none)
    (h : resolveInner f o = .done r) : Resolved r := by
  obtain ⟨o1, h1, h⟩ := Run.bind_eq_done.mp h
  obtain ⟨o2, h2, h⟩ := Run.bind_eq_done.mp h
  obtain ⟨o3, h3, h⟩ := Run.bind_eq_done.mp h
  obtain ⟨o4, h4, h⟩ := Run.bind_eq_done.mp h
  obtain ⟨o5, h5, h⟩ := Run.bind_eq_done.mp h
  cases h
  obtain ⟨k1, r1⟩ := resolveProperties_spec hf h1
  obtain ⟨k2, r2⟩ := resolveItems_spec hf h2
  obtain ⟨k3, r3⟩ := resolveKeyword_spec hf (by decide) h3
  obtain ⟨k4, r4⟩ := resolveKeyword_spec hf (by decide) h4
  obtain ⟨k5, r5⟩ := resolveKeyword_spec hf (by decide) h5
  refine resolved_obj ?_ fun key v hv t ht => ?_
  · rw [k5 _ (by decide), k4 _ (by decide), k3 _ (by decide), k2 _ (by decide),
      k1 _ (by decide), href]
  · -- the step that owns the key resolved it, and the later ones left it alone
    by_cases hall : key = "allOf"
    · exact r5 v (hall ▸ hv) t (hall ▸ ht)
    rw [k5 key hall] at hv
    by_cases hany : key = "anyOf"
    · exact r4 v (hany ▸ hv) t (hany ▸ ht)
    rw [k4 key hany] at hv
    by_cases hone : key = "oneOf"
    · exact r3 v (hone ▸ hv) t (hone ▸ ht)
    rw [k3 key hone] at hv
    by_cases hitems : key = "items"
    · exact r2 v (hitems ▸ hv) t (hitems ▸ ht)
    rw [k2 key hitems] at hv
    by_cases hproperties : key = "properties"
    · exact r1 v (hproperties ▸ hv) t (hproperties ▸ ht)
    · have hkeyword : key ∉ keywords := by simp [keywords, hone, hany, hall]
      rw [innerSchemas_other hproperties hitems hkeyword] at ht
      exact absurd ht List.not_mem_nil

end Server

/-- A list or a value that is no object is resolved. -/
theorem resolved_resolveOther {v r : Json} (hv : ∀ o, v ≠ .obj o) (h : resolveOther v = .done r) :
    Resolved r := by
  have heq : r = v := by
    unfold resolveOther at h
    split at h
    · split_ifs at h
      cases h
      rfl
    · split_ifs at h
      cases h
      rfl
    · cases h
  exact heq ▸ resolved_of_not_obj hv

/-- What the server returns is resolved. -/
theorem resolved_resolveSchema {n : ℕ} {schema r : Json} {resolvedSchemas : List String}
    (h : resolveSchema components n schema resolvedSchemas = .done r) : Resolved r := by
  refine recurse_spec (P := fun _ _ x => ∀ r, x = .done r → Resolved r)
    (fun _ _ _ hr => by cases hr)
    (fun f hf schema v r hr => ?_) n schema resolvedSchemas r h
  unfold resolveCall at hr
  split_ifs at hr with hfalsy
  · cases hr
    exact resolved_empty
  · split at hr
    · next o =>
        split at hr
        · next href => exact resolveInner_spec (fun s r hs => hf s v r hs) href hr
        · split_ifs at hr
          · cases hr
            exact resolved_empty
          · obtain ⟨s, _, hs⟩ := Run.bind_eq_done.mp hr
            exact hf _ _ r hs
        · cases hr
    · next hother => exact resolved_resolveOther hother hr

/-! ## The cases of a client call -/

section Client

variable {f : Json → List String → Run (Json × List String)} {s : Json} {v : List String}

/-- The client's call, on what is falsy. -/
theorem clientCall_falsy (h : ¬ jsTruthy s = true) :
    clientCall components f s v = .done (.obj [], v) := by
  unfold clientCall
  rw [if_pos (by simpa using h)]

/-- The client's call, on a reference. -/
theorem clientCall_ref (hs : jsTruthy s = true) (href : jsTruthy (jsGet s "$ref") = true) :
    clientCall components f s v = match jsGet s "$ref" with
      | .str refPath =>
        if schemaName refPath ∈ v then .done (.obj [], v)
        else if jsGet components "schemas" = .null then .raised
        else f (jsGet (jsGet components "schemas") (schemaName refPath)) (schemaName refPath :: v)
      | _ => .raised := by
  unfold clientCall
  rw [if_neg (by simpa using hs), if_pos href]

/-- The client's call, on a schema with a type. -/
theorem clientCall_typed (hs : jsTruthy s = true) (href : ¬ jsTruthy (jsGet s "$ref") = true)
    (htype : jsTruthy (jsGet s "type") = true) :
    clientCall components f s v =
      (typedObject (fun t => f t [] >>= fun r => Run.done r.1) s) >>= fun schemaObj =>
      composition f s keywords v >>= fun composed =>
        Run.done (.obj (schemaObj ++ composed.1), composed.2) := by
  unfold clientCall
  rw [if_neg (by simpa using hs), if_neg href, if_pos htype]

/-- The client's call, on a schema without one. -/
theorem clientCall_untyped (hs : jsTruthy s = true) (href : ¬ jsTruthy (jsGet s "$ref") = true)
    (htype : ¬ jsTruthy (jsGet s "type") = true) :
    clientCall components f s v = composition f s keywords v >>= fun composed =>
      Run.done (.obj (if composed.1 = [] then [] else composed.1 ++ describe s), composed.2) := by
  unfold clientCall
  rw [if_neg (by simpa using hs), if_neg href, if_neg htype]

/-- An entry the client may write. -/
def ResolvedEntry (e : String × Json) : Prop :=
  e.1 ≠ "$ref" ∧ ∀ t ∈ innerSchemas e.1 e.2, Resolved t

/-- An object of resolved entries is resolved. -/
theorem resolved_of_entries {o : Obj} (h : ∀ e ∈ o, ResolvedEntry e) : Resolved (.obj o) := by
  refine resolved_obj ?_ fun key w hw => (h (key, w) (Assoc.mem_of_lookup hw)).2
  rw [Assoc.lookup_eq_none_iff_keys]
  intro hmem
  obtain ⟨e, he, heq⟩ := List.mem_map.mp hmem
  exact (h e he).1 heq

/-- The plain keys hold no schema. -/
theorem resolvedEntry_plain {key : String} {w : Json}
    (hkey : key = "type" ∨ key = "description" ∨ key = "required") :
    ResolvedEntry (key, w) := by
  rcases hkey with rfl | rfl | rfl
  · exact ⟨(by decide : "type" ≠ "$ref"), fun t ht => absurd ht List.not_mem_nil⟩
  · exact ⟨(by decide : "description" ≠ "$ref"), fun t ht => absurd ht List.not_mem_nil⟩
  · exact ⟨(by decide : "required" ≠ "$ref"), fun t ht => absurd ht List.not_mem_nil⟩

/-- The description holds no schema. -/
theorem resolvedEntry_describe (s : Json) : ∀ e ∈ describe s, ResolvedEntry e := by
  intro e he
  rw [describe] at he
  split_ifs at he
  · obtain rfl := List.mem_singleton.mp he
    exact resolvedEntry_plain (.inr (.inl rfl))
  · exact absurd he List.not_mem_nil

/-- The entries of a typed object are resolved. -/
theorem resolvedEntry_typedObject {g : Json → Run Json} (hg : ∀ t r, g t = .done r → Resolved r)
    {o : Obj} (h : typedObject g s = .done o) : ∀ e ∈ o, ResolvedEntry e := by
  have hhead : ∀ e ∈ ("type", jsGet s "type") :: describe s, ResolvedEntry e := by
    intro e he
    rcases List.mem_cons.mp he with rfl | he
    · exact resolvedEntry_plain (.inl rfl)
    · exact resolvedEntry_describe s e he
  rw [typedObject] at h
  by_cases hobject : jsGet s "type" = .str "object"
  · rw [if_pos hobject] at h
    obtain ⟨l, hl, h⟩ := Run.bind_eq_done.mp h
    cases h
    intro e he
    rcases List.mem_append.mp he with he | he
    · exact hhead e he
    · rcases List.mem_cons.mp he with rfl | he
      · exact ⟨(by decide : "properties" ≠ "$ref"), resolved_entries hg hl⟩
      · obtain rfl := List.mem_singleton.mp he
        exact resolvedEntry_plain (.inr (.inr rfl))
  · rw [if_neg hobject] at h
    by_cases harray : jsGet s "type" = .str "array"
    · rw [if_pos harray] at h
      obtain ⟨items, hitems, h⟩ := Run.bind_eq_done.mp h
      cases h
      intro e he
      rcases List.mem_append.mp he with he | he
      · exact hhead e he
      · obtain rfl := List.mem_singleton.mp he
        refine ⟨(by decide : "items" ≠ "$ref"), fun t ht => ?_⟩
        rw [List.mem_singleton.mp ht]
        exact hg _ _ hitems
    · rw [if_neg harray] at h
      cases h
      exact hhead

/-- The composed entries are resolved. -/
theorem resolvedEntry_composition (hf : ∀ t u r, f t u = .done r → Resolved r.1) {l : List String}
    (hl : ∀ k ∈ l, k ∈ keywords) : ∀ {v : List String} {o : Obj × List String},
      composition f s l v = .done o → ∀ e ∈ o.1, ResolvedEntry e := by
  induction l with
  | nil =>
      intro v o h
      cases h
      exact fun e he => absurd he List.not_mem_nil
  | cons key l ih =>
      intro v o h
      have hkey := hl key List.mem_cons_self
      have hrest := fun k hk => hl k (List.mem_cons_of_mem key hk)
      rw [composition] at h
      split at h
      · obtain ⟨rs, hrs, h⟩ := Run.bind_eq_done.mp h
        obtain ⟨o', ho', h⟩ := Run.bind_eq_done.mp h
        cases h
        intro e he
        rcases List.mem_cons.mp he with rfl | he
        · refine ⟨fun heq => ?_, fun t ht => ?_⟩
          · dsimp only at heq
            subst heq
            revert hkey
            decide
          · rw [innerSchemas_keyword hkey] at ht
            obtain ⟨a, _, u, u', ha⟩ := traverse_eq_done hrs t ht
            exact hf a u (t, u') ha
        · exact ih hrest ho' e he
      · exact ih hrest h

end Client

/-- What the client returns is resolved. -/
theorem resolved_clientResolveSchema {n : ℕ} {schemaRef : Json} {resolvedSchemas : List String}
    {r : Json × List String}
    (h : clientResolveSchema components n schemaRef resolvedSchemas = .done r) :
    Resolved r.1 := by
  refine recurse_spec (P := fun _ _ x => ∀ r : Json × List String, x = .done r → Resolved r.1)
    (fun _ _ _ hr => by cases hr) (fun f hf s v r hr => ?_) n schemaRef resolvedSchemas r h
  -- a schema below starts from an empty set
  have hfresh : ∀ t r, (f t [] >>= fun r => Run.done r.1) = .done r → Resolved r := by
    intro t r ht
    obtain ⟨x, hx, hr⟩ := Run.bind_eq_done.mp ht
    cases hr
    exact hf t [] x hx
  by_cases hs : jsTruthy s = true
  · by_cases href : jsTruthy (jsGet s "$ref") = true
    -- a name seen before stands for an empty schema
    · rw [clientCall_ref hs href] at hr
      split at hr
      · split_ifs at hr
        · cases hr
          exact resolved_empty
        · exact hf _ _ r hr
      · cases hr
    · by_cases htype : jsTruthy (jsGet s "type") = true
      · rw [clientCall_typed hs href htype] at hr
        -- the entries come from the type and from the keywords
        obtain ⟨o, ho, hr⟩ := Run.bind_eq_done.mp hr
        obtain ⟨c, hc, hr⟩ := Run.bind_eq_done.mp hr
        cases hr
        refine resolved_of_entries fun e he => ?_
        rcases List.mem_append.mp he with he | he
        · exact resolvedEntry_typedObject hfresh ho e he
        · exact resolvedEntry_composition hf (fun _ hk => hk) hc e he
      · rw [clientCall_untyped hs href htype] at hr
        -- without a type the description comes after the keywords
        obtain ⟨c, hc, hr⟩ := Run.bind_eq_done.mp hr
        cases hr
        refine resolved_of_entries fun e he => ?_
        split_ifs at he
        · exact absurd he List.not_mem_nil
        · rcases List.mem_append.mp he with he | he
          · exact resolvedEntry_composition hf (fun _ hk => hk) hc e he
          · exact resolvedEntry_describe s e he
  · rw [clientCall_falsy hs] at hr
    cases hr
    exact resolved_empty

end OpenWebUI.Tools
