import OpenWebUI.Tools.ServerSchema

/-! # Where the client resolves a schema

Below a property or `items` the client starts with an empty set, so a type that holds itself
there is resolved for ever. A finished call has met every schema its references and
compositions lead to; the main result is the exact condition under which both functions end.
-/

namespace OpenWebUI.Tools

open Py Fuel

variable {components : Json}

/-! ## Where the client goes -/

def IsRef (s : Json) : Prop := jsTruthy (jsGet s "$ref") = true

/-- `components.schemas[name]`. -/
def schemaAt (components : Json) (name : String) : Json := jsGet (jsGet components "schemas") name

/-- The schemas under the composition keywords. -/
def composedSchemas (s : Json) : List Json := keywords.flatMap fun k => (jsGet s k).asArr.getD []

/-- The schemas that are resolved with a new set. -/
def freshSchemas (s : Json) : List Json :=
  if jsGet s "type" = .str "object" then (jsEntries (jsGet s "properties")).map Prod.snd
  else if jsGet s "type" = .str "array" then [jsGet s "items"]
  else []

/-- `t` is resolved while `s` is, with the same set. -/
inductive Inner (components : Json) : Json → Json → Prop
  | ref {s : Json} {refPath : String} (h : jsGet s "$ref" = .str refPath) (hne : refPath ≠ "") :
      Inner components s (schemaAt components (schemaName refPath))
  | composed {s t : Json} (h : ¬ IsRef s) (ht : t ∈ composedSchemas s) : Inner components s t

/-- `t` is a property value of `s` or its `items`, and is resolved with a new set. -/
def Fresh (s t : Json) : Prop := ¬ IsRef s ∧ t ∈ freshSchemas s

/-- `t` stands, through references and compositions, as a property value or `items` in `s`. -/
def Below (components t s : Json) : Prop :=
  ∃ u, Relation.ReflTransGen (Inner components) s u ∧ Fresh u t

/-- Every reference the client comes to is a text. -/
def StringRefs (components s : Json) : Prop :=
  ∀ u, Relation.ReflTransGen (fun s t => Inner components s t ∨ Fresh s t) s u → IsRef u →
    ∃ refPath, jsGet u "$ref" = .str refPath

/-- The references in a composed schema are strings as well. -/
theorem StringRefs.inner {s t : Json} (h : StringRefs components s) (ht : Inner components s t) :
    StringRefs components t :=
  fun u hu => h u (.head (.inl ht) hu)

/-- The references in properties and items are strings as well. -/
theorem StringRefs.fresh {s t : Json} (h : StringRefs components s) (ht : Fresh s t) :
    StringRefs components t :=
  fun u hu => h u (.head (.inr ht) hu)

/-- A reference is not the empty string. -/
theorem ne_empty_of_isRef {s : Json} {refPath : String} (h : IsRef s)
    (hs : jsGet s "$ref" = .str refPath) :
    refPath ≠ "" := by
  rintro rfl
  rw [IsRef, hs] at h
  cases h

/-- A falsy value is no reference and holds no schema. -/
theorem jsGet_of_falsy {s : Json} (h : ¬ jsTruthy s = true) (key : String) :
    jsGet s key = .null := by
  cases s with
  | obj o => exact absurd rfl h
  | _ => rfl

/-- Without a type nothing below starts anew. -/
theorem freshSchemas_untyped {s : Json} (h : ¬ jsTruthy (jsGet s "type") = true) :
    freshSchemas s = [] := by
  rw [freshSchemas, if_neg, if_neg]
  all_goals
    intro heq
    rw [heq] at h
    exact h (by decide)

/-! ## A finished call has met everything -/

/-- One step of a composition. -/
def Part (s t : Json) : Prop := ¬ IsRef s ∧ t ∈ composedSchemas s

/-- Every reference in the compositions of `s` is in the set, and nothing below goes on for ever. -/
def Covered (components s : Json) (v : List String) : Prop :=
  ∀ u, Relation.ReflTransGen Part s u →
    (∀ refPath, jsGet u "$ref" = .str refPath → refPath ≠ "" → schemaName refPath ∈ v) ∧
    ∀ t, Fresh u t → Acc (Below components) t

/-- The set has grown by names whose schemas are covered. -/
def Grown (components : Json) (v v' : List String) : Prop :=
  v ⊆ v' ∧ ∀ n ∈ v', n ∉ v → Covered components (schemaAt components n) v'

/-- More names cover the same schemas. -/
theorem Covered.mono {s : Json} {v v' : List String} (h : Covered components s v) (hsub : v ⊆ v') :
    Covered components s v' :=
  fun u hu => ⟨fun p hp hne => hsub ((h u hu).1 p hp hne), (h u hu).2⟩

theorem Grown.refl (v : List String) : Grown components v v :=
  ⟨List.Subset.refl v, fun _ hn hv => absurd hn hv⟩

theorem Grown.trans {u v w : List String} (h₁ : Grown components u v) (h₂ : Grown components v w) :
    Grown components u w := by
  refine ⟨List.Subset.trans h₁.1 h₂.1, fun n hn hu => ?_⟩
  by_cases hv : n ∈ v
  · exact (h₁.2 n hv hu).mono h₂.1
  · exact h₂.2 n hn hv

/-- A schema without a reference is covered with the schemas it composes. -/
theorem covered_of_parts {s : Json} {v : List String} (href : ¬ IsRef s)
    (hparts : ∀ t ∈ composedSchemas s, Covered components t v)
    (hfresh : ∀ t ∈ freshSchemas s, Acc (Below components) t) : Covered components s v := by
  intro u hu
  rcases Relation.ReflTransGen.cases_head hu with rfl | ⟨t, ht, hrest⟩
  · refine ⟨fun p hp hne => absurd ?_ href, fun t ht => hfresh t ht.2⟩
    rw [IsRef, hp]
    simpa [jsTruthy] using hne
  · exact hparts t ht.2 u hrest

/-- With a set that covers its names, nothing below goes on for ever. -/
theorem acc_of_covered {s : Json} {v : List String} (hs : Covered components s v)
    (hv : ∀ n ∈ v, Covered components (schemaAt components n) v) : Acc (Below components) s := by
  refine Acc.intro s fun t ht => ?_
  obtain ⟨u, hu, hfresh⟩ := ht
  have hcovered : Covered components u v := by
    clear hfresh
    induction hu with
    | refl => exact hs
    | tail _ hstep ih =>
        cases hstep with
        | ref h hne => exact hv _ ((ih _ .refl).1 _ h hne)
        | composed h ht => exact fun w hw => ih w (.head ⟨h, ht⟩ hw)
  exact (hcovered u .refl).2 t hfresh

/-- The composition keywords cover what they hold. -/
theorem composition_finished {f : Json → List String → Run (Json × List String)} {s : Json}
    (l : List String) (hf : ∀ k ∈ l, ∀ t ∈ (jsGet s k).asArr.getD [], ∀ v, f t v ≠ .running →
      ∃ r, f t v = .done r ∧ Grown components v r.2 ∧ Covered components t r.2) :
    ∀ v, composition f s l v ≠ .running → ∃ o, composition f s l v = .done o ∧
      Grown components v o.2 ∧
        ∀ k ∈ l, ∀ t ∈ (jsGet s k).asArr.getD [], Covered components t o.2 := by
  induction l with
  | nil => exact fun v _ => ⟨([], v), rfl, .refl v, fun k hk => absurd hk List.not_mem_nil⟩
  | cons key l ih =>
      intro v h
      have ih' := ih fun k hk => hf k (List.mem_cons_of_mem _ hk)
      rw [composition] at h ⊢
      split at h
      -- the keyword holds a list
      · next inner hinner =>
          have hkey := hf key List.mem_cons_self
          rw [hinner, Json.asArr_arr, Option.getD_some] at hkey
          have hfirst : traverse f inner v ≠ .running := by
            intro hrun
            rw [hrun] at h
            exact h rfl
          obtain ⟨r, hr, hgrown, hcovered⟩ := traverse_finished (R := Grown components)
            (Q := fun t v => Covered components t v) Grown.refl (fun _ _ _ => Grown.trans)
            (fun t _ v v' hg hc => hc.mono hg.1) hkey v hfirst
          -- the rest starts from what the list has seen
          rw [hr, Run.done_bind] at h ⊢
          have hrest : composition f s l r.2 ≠ .running := by
            intro hrun
            rw [hrun] at h
            exact h rfl
          obtain ⟨o, ho, hgrown', hcovered'⟩ := ih' r.2 hrest
          refine ⟨((key, .arr r.1) :: o.1,
            o.2), by rw [ho]; rfl, hgrown.trans hgrown', fun k hk t ht => ?_⟩
          rcases List.mem_cons.mp hk with rfl | hk
          · rw [hinner, Json.asArr_arr, Option.getD_some] at ht
            exact (hcovered t ht).mono hgrown'.1
          · exact hcovered' k hk t ht
      -- anything else is skipped
      · next hother =>
          obtain ⟨o, ho, hgrown, hcovered⟩ := ih' v h
          refine ⟨o, ho, hgrown, fun k hk t ht => ?_⟩
          rcases List.mem_cons.mp hk with rfl | hk
          · cases hget : jsGet s k with
            | arr inner => exact absurd hget (hother inner)
            | _ =>
                rw [hget] at ht
                exact absurd ht List.not_mem_nil
          · exact hcovered k hk t ht

/-- A typed object has finished with what is below it. -/
theorem typedObject_finished {g : Json → Run Json} {s : Json}
    (hg : ∀ t ∈ freshSchemas s, g t ≠ .running → ∃ r, g t = .done r)
    (h : typedObject g s ≠ .running) :
    (∃ o, typedObject g s = .done o) ∧ ∀ t ∈ freshSchemas s, g t ≠ .running := by
  unfold freshSchemas at hg ⊢
  rw [typedObject] at h ⊢
  by_cases hobject : jsGet s "type" = .str "object"
  -- an object: its properties
  · simp only [if_pos hobject] at h hg ⊢
    have hentry : ∀ p ∈ jsEntries (jsGet s "properties"),
        (g p.2 >>= fun r => Run.done (p.1, r)) ≠ .running →
          ∃ r, (g p.2 >>= fun r => Run.done (p.1, r)) = .done r := by
      intro p hp hrun
      have hne : g p.2 ≠ .running := by
        intro hr
        rw [hr] at hrun
        exact hrun rfl
      obtain ⟨r, hr⟩ := hg p.2 (List.mem_map_of_mem hp) hne
      exact ⟨(p.1, r), by rw [hr]; rfl⟩
    have hmap :
      mapRun (fun p => g p.2 >>= fun r => Run.done (p.1, r)) (jsEntries (jsGet s "properties")) ≠
      .running := by
      intro hrun
      rw [hrun] at h
      exact h rfl
    obtain ⟨⟨l, hl⟩, hall⟩ := mapRun_finished hentry hmap
    refine ⟨⟨_, by rw [hl]; rfl⟩, fun t ht hrun => ?_⟩
    obtain ⟨p, hp, rfl⟩ := List.mem_map.mp ht
    have hbad := hall p hp
    rw [hrun] at hbad
    exact hbad rfl
  · simp only [if_neg hobject] at h hg ⊢
    by_cases harray : jsGet s "type" = .str "array"
    -- an array: its items
    · simp only [if_pos harray] at h hg ⊢
      have hne : g (jsGet s "items") ≠ .running := by
        intro hrun
        rw [hrun] at h
        exact h rfl
      obtain ⟨r, hr⟩ := hg _ (List.mem_singleton_self _) hne
      refine ⟨⟨_, by rw [hr]; rfl⟩, fun t ht => ?_⟩
      rw [List.mem_singleton.mp ht]
      exact hne
    -- another type asks for nothing below it
    · simp only [if_neg harray]
      exact ⟨⟨_, rfl⟩, fun t ht => absurd ht List.not_mem_nil⟩

/-- A finished call of the client has returned, and covers the schema and every name it added. -/
theorem clientResolveSchema_finished (hschemas : jsGet components "schemas" ≠ .null) (n : ℕ)
    (s : Json) (v : List String) (hrefs : StringRefs components s)
    (h : clientResolveSchema components n s v ≠ .running) :
    ∃ r, clientResolveSchema components n s v = .done r ∧ Grown components v r.2 ∧
      Covered components s r.2 := by
  refine recurse_spec (P := fun s v x => StringRefs components s → x ≠ .running → ∃ r, x = .done r ∧
    Grown components v r.2 ∧ Covered components s r.2) (fun _ _ _ hne => absurd rfl hne)
    (fun f hf s v hrefs hne => ?_) n s v hrefs h
  by_cases hs : jsTruthy s = true
  · by_cases href : IsRef s
    · -- a reference: the schema it names is covered in its place
      obtain ⟨refPath, hpath⟩ := hrefs s .refl href
      have hempty := ne_empty_of_isRef href hpath
      have hcover : ∀ w, schemaName refPath ∈ w → Covered components s w := by
        intro w hw u hu
        rcases Relation.ReflTransGen.cases_head hu with rfl | ⟨t, ht, _⟩
        · refine ⟨fun p hp _ => ?_, fun t ht => absurd href ht.1⟩
          obtain rfl := Json.str.inj (hpath.symm.trans hp)
          exact hw
        · exact absurd href ht.1
      rw [clientCall_ref hs href, hpath] at hne ⊢
      simp only at hne ⊢
      by_cases hseen : schemaName refPath ∈ v
      · rw [if_pos hseen]
        exact ⟨_, rfl, .refl v, hcover v hseen⟩
      · rw [if_neg hseen, if_neg hschemas] at hne ⊢
        obtain ⟨r, hr, hgrown, hcovered⟩ := hf _ _ (hrefs.inner (.ref hpath hempty)) hne
        have hname := hgrown.1 List.mem_cons_self
        refine ⟨r, hr, ⟨fun x hx => hgrown.1 (List.mem_cons_of_mem _ hx), fun m hm hmv => ?_⟩,
          hcover r.2 hname⟩
        by_cases hmn : m = schemaName refPath
        · subst hmn
          exact hcovered
        · exact hgrown.2 m hm fun hmem => (List.mem_cons.mp hmem).elim hmn hmv
    -- the schemas of the composition keywords share the set of names seen
    · have hparts : ∀ k ∈ keywords, ∀ t ∈ (jsGet s k).asArr.getD [], ∀ v, f t v ≠ .running →
          ∃ r, f t v = .done r ∧ Grown components v r.2 ∧ Covered components t r.2 := by
        intro k hk t ht v hrun
        exact hf t v (hrefs.inner (.composed href (List.mem_flatMap.mpr ⟨k, hk, ht⟩))) hrun
      by_cases htype : jsTruthy (jsGet s "type") = true
      · rw [clientCall_typed hs href htype] at hne ⊢
        have hgfresh : ∀ t ∈ freshSchemas s, (f t [] >>= fun r => Run.done r.1) ≠ .running →
            ∃ r, (f t [] >>= fun r => Run.done r.1) = .done r := by
          intro t ht hrun
          have hft : f t [] ≠ .running := by
            intro hr
            rw [hr] at hrun
            exact hrun rfl
          obtain ⟨r, hr, _⟩ := hf t [] (hrefs.fresh ⟨href, ht⟩) hft
          exact ⟨r.1, by rw [hr]; rfl⟩
        have htyped : typedObject (fun t => f t [] >>= fun r => Run.done r.1) s ≠ .running := by
          intro hrun
          rw [hrun] at hne
          exact hne rfl
        obtain ⟨⟨o, ho⟩, hall⟩ := typedObject_finished hgfresh htyped
        rw [ho, Run.done_bind] at hne ⊢
        have hcomp : composition f s keywords v ≠ .running := by
          intro hrun
          rw [hrun] at hne
          exact hne rfl
        obtain ⟨c, hc, hgrown, hcovered⟩ := composition_finished keywords hparts v hcomp
        refine ⟨_, by rw [hc]; rfl, hgrown, covered_of_parts href (fun t ht => ?_) fun t ht => ?_⟩
        · obtain ⟨k, hk, htk⟩ := List.mem_flatMap.mp ht
          exact hcovered k hk t htk
        · -- below a property the set starts empty, so what it holds in the end is covered
          have hft : f t [] ≠ .running := by
            intro hrun
            have hbad := hall t ht
            rw [hrun] at hbad
            exact hbad rfl
          obtain ⟨r, hr, hgrown', hcovered'⟩ := hf t [] (hrefs.fresh ⟨href, ht⟩) hft
          exact acc_of_covered hcovered' fun m hm => hgrown'.2 m hm List.not_mem_nil
      · rw [clientCall_untyped hs href htype] at hne ⊢
        have hcomp : composition f s keywords v ≠ .running := by
          intro hrun
          rw [hrun] at hne
          exact hne rfl
        obtain ⟨c, hc, hgrown, hcovered⟩ := composition_finished keywords hparts v hcomp
        refine ⟨_, by rw [hc]; rfl, hgrown, covered_of_parts href (fun t ht => ?_) fun t ht => ?_⟩
        · obtain ⟨k, hk, htk⟩ := List.mem_flatMap.mp ht
          exact hcovered k hk t htk
        · rw [freshSchemas_untyped htype] at ht
          exact absurd ht List.not_mem_nil
  -- nothing to resolve
  · rw [clientCall_falsy hs]
    have href : ¬ IsRef s := by
      rw [IsRef, jsGet_of_falsy hs]
      exact fun h => by cases h
    refine ⟨_, rfl, .refl v, covered_of_parts href (fun t ht => ?_) fun t ht => ?_⟩
    · obtain ⟨k, _, htk⟩ := List.mem_flatMap.mp ht
      rw [jsGet_of_falsy hs] at htk
      exact absurd htk List.not_mem_nil
    · rw [freshSchemas_untyped (by rw [jsGet_of_falsy hs]; exact fun h => by cases h)] at ht
      exact absurd ht List.not_mem_nil

/-! ## When the client terminates -/

/-- The composition keywords forget no name. -/
theorem composition_grows {f : Json → List String → Run (Json × List String)} {s : Json}
    (hf : ∀ t v r, f t v = .done r → v ⊆ r.2) (l : List String) :
    ∀ v o, composition f s l v = .done o → v ⊆ o.2 := by
  have htraverse : ∀ (inner : List Json) (v : List String) (r : List Json × List String),
      traverse f inner v = .done r → v ⊆ r.2 := by
    intro inner
    induction inner with
    | nil =>
        intro v r h
        cases h
        exact List.Subset.refl v
    | cons t inner ih =>
        intro v r h
        obtain ⟨x, hx, h⟩ := Run.bind_eq_done.mp h
        obtain ⟨xs, hxs, h⟩ := Run.bind_eq_done.mp h
        cases h
        exact List.Subset.trans (hf t v x hx) (ih x.2 xs hxs)
  induction l with
  | nil =>
      intro v o h
      cases h
      exact List.Subset.refl v
  | cons key l ih =>
      intro v o h
      rw [composition] at h
      split at h
      · obtain ⟨r, hr, h⟩ := Run.bind_eq_done.mp h
        obtain ⟨o', ho', h⟩ := Run.bind_eq_done.mp h
        cases h
        exact List.Subset.trans (htraverse _ v r hr) (ih r.2 o' ho')
      · exact ih v o h

/-- The client's set only grows. -/
theorem clientResolveSchema_grows {n : ℕ} {s : Json} {v : List String} {r : Json × List String}
    (h : clientResolveSchema components n s v = .done r) : v ⊆ r.2 := by
  refine recurse_spec (P := fun _ v x => ∀ r : Json × List String, x = .done r → v ⊆ r.2)
    (fun _ _ _ hr => by cases hr) (fun f hf s v r hr => ?_) n s v r h
  by_cases hs : jsTruthy s = true
  · by_cases href : jsTruthy (jsGet s "$ref") = true
    · rw [clientCall_ref hs href] at hr
      split at hr
      · split_ifs at hr
        · cases hr
          exact List.Subset.refl v
        · exact List.Subset.trans (List.subset_cons_self _ v) (hf _ _ r hr)
      · cases hr
    · by_cases htype : jsTruthy (jsGet s "type") = true
      · rw [clientCall_typed hs href htype] at hr
        obtain ⟨o, _, hr⟩ := Run.bind_eq_done.mp hr
        obtain ⟨c, hc, hr⟩ := Run.bind_eq_done.mp hr
        cases hr
        exact composition_grows hf keywords v c hc
      · rw [clientCall_untyped hs href htype] at hr
        obtain ⟨c, hc, hr⟩ := Run.bind_eq_done.mp hr
        cases hr
        exact composition_grows hf keywords v c hc
  · rw [clientCall_falsy hs] at hr
    cases hr
    exact List.Subset.refl v

theorem halts_composition {f : ℕ → Json → List String → Run (Json × List String)}
    {I : List String → Prop} {s : Json} (hf : ∀ t v, Ascending fun n => f n t v)
    (hstep : ∀ n t v r, I v → f n t v = .done r → I r.2) (l : List String)
    (h : ∀ k ∈ l, ∀ t ∈ (jsGet s k).asArr.getD [], ∀ v, I v → Halts fun n => f n t v) :
    ∀ v, I v → Halts fun n => composition (f n) s l v := by
  have htraverse : ∀ (inner : List Json) n v r, I v → traverse (f n) inner v = .done r → I r.2 := by
    intro inner n
    induction inner with
    | nil =>
        intro v r hv hr
        cases hr
        exact hv
    | cons t inner ih =>
        intro v r hv hr
        obtain ⟨x, hx, hr⟩ := Run.bind_eq_done.mp hr
        obtain ⟨xs, hxs, hr⟩ := Run.bind_eq_done.mp hr
        cases hr
        exact ih x.2 xs (hstep n t v x hv hx) hxs
  induction l with
  | nil => exact fun v _ => halts_done _
  | cons key l ih =>
      intro v hv
      have ih' := ih fun k hk => h k (List.mem_cons_of_mem _ hk)
      have hkey := h key List.mem_cons_self
      have hrest : ∀ w, Ascending fun n => composition (f n) s l w :=
        fun w n => approx_composition (fun t u => hf t u n) s l w
      unfold composition
      split
      · next inner hinner =>
          rw [hinner, Json.asArr_arr, Option.getD_some] at hkey
          refine (Halts.traverse hf inner (fun n t w r w' _ hw hr => hstep n t w (r, w') hw hr)
            hkey v hv).bind
            (fun n => Approx.traverse (fun t u => hf t u n) inner v)
            (fun r => ascending_bind (hrest r.2) fun o n => .refl _) fun n r hr => ?_
          exact (ih' r.2 (htraverse inner n v r hv hr)).bind (hrest r.2) (fun o n => .refl _)
            fun _ _ _ => halts_done _
      · exact ih' v hv

theorem halts_typedObject {g : ℕ → Json → Run Json} {s : Json} (hg : ∀ t, Ascending fun n => g n t)
    (h : ∀ t ∈ freshSchemas s, Halts fun n => g n t) : Halts fun n => typedObject (g n) s := by
  unfold freshSchemas at h
  unfold typedObject
  dsimp only
  by_cases hobject : jsGet s "type" = .str "object"
  · simp only [if_pos hobject] at h ⊢
    refine (Halts.mapRun (fun p => ?_) _ fun p hp => ?_).bind
      (fun n => approx_entries (fun t => hg t n) _) (fun _ n => .refl _) fun _ _ _ => halts_done _
    · exact ascending_bind (hg p.2) fun _ n => .refl _
    · exact (h p.2 (List.mem_map_of_mem hp)).bind (hg p.2) (fun _ n => .refl _) fun _ _ _ =>
        halts_done _
  · simp only [if_neg hobject] at h ⊢
    by_cases harray : jsGet s "type" = .str "array"
    · simp only [if_pos harray] at h ⊢
      exact (h _ (List.mem_singleton_self _)).bind (hg _) (fun _ n => .refl _) fun _ _ _ =>
        halts_done _
    · simp only [if_neg harray]
      exact halts_done _

theorem sizeOf_composed_lt {s t : Json} (ht : t ∈ composedSchemas s) : sizeOf t < sizeOf s := by
  obtain ⟨k, _, htk⟩ := List.mem_flatMap.mp ht
  cases s with
  | obj o =>
      cases hlookup : o.lookup k with
      | none =>
          rw [jsGet, Obj.get, hlookup] at htk
          exact absurd htk List.not_mem_nil
      | some v =>
          rw [jsGet, Obj.get, hlookup, Option.getD_some] at htk
          cases v with
          | arr inner => exact (sizeOf_mem_arr htk).trans (sizeOf_lookup_lt hlookup)
          | _ => exact absurd htk List.not_mem_nil
  | _ => exact absurd htk List.not_mem_nil

/-- The names of the stored schemas. -/
def schemaNames (components : Json) : List String :=
    Assoc.keys ((jsGet components "schemas").asObj.getD [])

/-- An unknown name stands for nothing. -/
theorem schemaAt_of_unknown {name : String} (h : name ∉ schemaNames components) :
    schemaAt components name = .null := by
  rw [schemaNames] at h
  rw [schemaAt]
  cases hget : jsGet components "schemas" with
  | obj o =>
      rw [hget, Json.asObj_obj, Option.getD_some] at h
      rw [jsGet, Obj.get, (Assoc.lookup_eq_none_iff_keys o name).mpr h, Option.getD_none]
  | _ => rfl

/-- The more names are seen the fewer are left. -/
theorem namesLeft_antitone {U v v' : List String} (h : v ⊆ v') :
    namesLeft U v' ≤ namesLeft U v := by
  refine (List.monotone_filter_right U fun x hx => ?_).length_le
  simp only [decide_eq_true_eq] at hx ⊢
  exact fun hv => hx (h hv)

/-- Where every schema below `s` is resolved, so is everything that is resolved while `s` is. -/
theorem halts_inner {s : Json} (hbelow : ∀ t, Below components t s →
    Halts fun n => clientResolveSchema components n t []) (k : ℕ) :
    ∀ (u : Json) (v : List String), Relation.ReflTransGen (Inner components) s u →
      namesLeft (schemaNames components) v ≤ k →
        Halts fun n => clientResolveSchema components n u v := by
  induction k using Nat.strong_induction_on with
  | _ k ihk =>
      intro u
      induction hsize : sizeOf u using Nat.strong_induction_on generalizing u with
      | _ size ihs =>
          -- induction on the names left, and below it on the size of the schema
          intro v hu hk
          refine Halts.succ (y := fun n =>
            clientCall components (clientResolveSchema components n) u v)
            ?_ fun n => rfl
          by_cases hs : jsTruthy u = true
          · by_cases href : jsTruthy (jsGet u "$ref") = true
            · simp only [clientCall_ref hs href]
              split
              · next refPath hpath =>
                  split_ifs with hseen hschemas
                  · exact halts_done _
                  · exact halts_raised
                  · by_cases hname : schemaName refPath ∈ schemaNames components
                    · refine ihk _ ((namesLeft_cons_lt hname hseen).trans_le hk) _ _ ?_ le_rfl
                      exact hu.tail (.ref hpath (ne_empty_of_isRef href hpath))
                    · -- a name that is not stored resolves to nothing
                      have hnull :
                        jsGet (jsGet components "schemas") (schemaName refPath) = .null :=
                        schemaAt_of_unknown hname
                      rw [hnull]
                      refine halts_of_ne 1 ?_
                      exact fun h => by cases h
              · exact halts_raised
            · have hcomposition : Halts fun n =>
                  composition (clientResolveSchema components n) u keywords v := by
                refine halts_composition (I := fun w => namesLeft (schemaNames components) w ≤ k)
                  (fun t w => continuous_clientCall.ascending t w)
                  (fun n t w r hw hr => (namesLeft_antitone (clientResolveSchema_grows hr)).trans
                    hw)
                  keywords (fun key hkey t ht w hw => ?_) v hk
                have hmem : t ∈ composedSchemas u := List.mem_flatMap.mpr ⟨key, hkey, ht⟩
                exact ihs _ (hsize ▸ sizeOf_composed_lt hmem) t rfl w
                  (hu.tail (.composed href hmem)) hw
              have happrox :
                ∀ n, Approx (composition (clientResolveSchema components n) u keywords v)
                  (composition (clientResolveSchema components (n + 1)) u keywords v) :=
                fun n => approx_composition
                  (fun t w => continuous_clientCall.ascending t w n) u keywords v
              by_cases htype : jsTruthy (jsGet u "type") = true
              · simp only [clientCall_typed hs href htype]
                have hfresh : ∀ t, Ascending fun n =>
                    clientResolveSchema components n t [] >>= fun r => Run.done r.1 := fun t =>
                  ascending_bind (continuous_clientCall.ascending t []) fun _ n => .refl _
                refine Halts.bind (fun n => approx_typedObject (fun t => hfresh t n) u)
                  (fun o => ascending_bind happrox fun _ n => .refl _)
                  (halts_typedObject hfresh fun t ht => ?_) fun _ o _ => ?_
                · exact (hbelow t ⟨u, hu, href, ht⟩).bind (continuous_clientCall.ascending t [])
                    (fun _ n => .refl _) fun _ _ _ => halts_done _
                · exact hcomposition.bind happrox (fun _ n => .refl _) fun _ _ _ => halts_done _
              · simp only [clientCall_untyped hs href htype]
                exact hcomposition.bind happrox (fun _ n => .refl _) fun _ _ _ => halts_done _
          · simp only [clientCall_falsy hs]
            exact halts_done _

/-- The client terminates where nothing below the schema goes on for ever. -/
theorem halts_clientResolveSchema {s : Json} (h : Acc (Below components) s) :
    Halts fun n => clientResolveSchema components n s [] := by
  induction h with
  | intro s _ ih => exact halts_inner ih _ s [] .refl le_rfl

/-- Without stored schemas every schema below is a smaller one. -/
theorem acc_of_no_schemas (hschemas : jsGet components "schemas" = .null) (s : Json) :
    Acc (Below components) s := by
  have hnull : ∀ name, schemaAt components name = .null :=
    fun name => by rw [schemaAt, hschemas]; rfl
  -- what is no object holds nothing
  have hleaf : ∀ u : Json, (∀ o, u ≠ .obj o) → ∀ w, Relation.ReflTransGen (Inner components) u w →
    w = u := by
    intro u hu w hw
    have hget : ∀ key, jsGet u key = .null := by
      intro key
      cases u with
      | obj o => exact absurd rfl (hu o)
      | _ => rfl
    induction hw with
    | refl => rfl
    | tail _ hstep ih =>
        rw [ih] at hstep
        cases hstep with
        | ref h _ =>
            rw [hget] at h
            cases h
        | composed _ ht =>
            obtain ⟨k, _, htk⟩ := List.mem_flatMap.mp ht
            rw [hget] at htk
            exact absurd htk List.not_mem_nil
  have haccLeaf : ∀ u : Json, (∀ o, u ≠ .obj o) → Acc (Below components) u := by
    intro u hu
    refine Acc.intro u fun t ht => ?_
    obtain ⟨w, hw, _, hfresh⟩ := ht
    rw [hleaf u hu w hw] at hfresh
    have hempty : freshSchemas u = [] := by
      refine freshSchemas_untyped ?_
      cases u with
      | obj o => exact absurd rfl (hu o)
      | _ => exact fun h => by cases h
    rw [hempty] at hfresh
    exact absurd hfresh List.not_mem_nil
  -- with nothing stored every step goes down in the schema
  induction hsize : sizeOf s using Nat.strong_induction_on generalizing s with
  | _ size ih =>
      refine Acc.intro s fun t ht => ?_
      obtain ⟨u, hu, href, hfresh⟩ := ht
      have hle : sizeOf u ≤ sizeOf s ∨ u = .null := by
        clear hfresh href
        induction hu with
        | refl => exact .inl le_rfl
        | tail hprev hstep ihu =>
            cases hstep with
            | ref _ _ => exact .inr (hnull _)
            | composed _ ht =>
                rcases ihu with hle | hnul
                · exact .inl ((sizeOf_composed_lt ht).le.trans hle)
                · subst hnul
                  exact absurd ht List.not_mem_nil
      rcases hle with hle | rfl
      · by_cases hobj : ∃ o, t = .obj o
        · refine ih _ (hsize ▸ (?_ : sizeOf t < sizeOf u).trans_le hle) t rfl
          obtain ⟨o, rfl⟩ := hobj
          unfold freshSchemas at hfresh
          split_ifs at hfresh
          · obtain ⟨p, hp, hpo⟩ := List.mem_map.mp hfresh
            -- a property
            cases u with
            | obj q =>
                cases hlookup : q.lookup "properties" with
                | none =>
                    rw [jsGet, Obj.get, hlookup] at hp
                    exact absurd hp List.not_mem_nil
                | some v =>
                    have hlt := sizeOf_lookup_lt hlookup
                    rw [jsGet, Obj.get, hlookup, Option.getD_some] at hp
                    cases v with
                    | obj entries => exact hpo ▸ (sizeOf_mem_obj hp).trans hlt
                    | arr xs =>
                        obtain ⟨e, he, rfl⟩ := List.mem_map.mp hp
                        have hmem : Json.obj o ∈ xs := by
                          have hfst := List.mem_zipIdx he
                          rw [← hpo]
                          exact hfst.2.2 ▸ List.getElem_mem _
                        exact (sizeOf_mem_arr hmem).trans hlt
                    | str text =>
                        obtain ⟨e, _, rfl⟩ := List.mem_map.mp hp
                        cases hpo
                    | _ => exact absurd hp List.not_mem_nil
            | _ => exact absurd hp List.not_mem_nil
          · have heq := List.mem_singleton.mp hfresh
            -- the items
            cases u with
            | obj q =>
                cases hlookup : q.lookup "items" with
                | none =>
                    rw [jsGet, Obj.get, hlookup] at heq
                    cases heq
                | some v =>
                    rw [jsGet, Obj.get, hlookup, Option.getD_some] at heq
                    exact heq ▸ sizeOf_lookup_lt hlookup
            | _ => cases heq
          · exact absurd hfresh List.not_mem_nil
        · exact haccLeaf t fun o ho => hobj ⟨o, ho⟩
      · exact absurd hfresh List.not_mem_nil

/-- Both functions resolve a schema exactly where no property or item leads for ever on to
further ones. -/
theorem bothResolve_iff (components schema : Json) (hrefs : StringRefs components schema) :
    BothResolve components schema ↔ Acc (Below components) schema := by
  constructor
  · intro h
    by_cases hschemas : jsGet components "schemas" = .null
    · exact acc_of_no_schemas hschemas schema
    · obtain ⟨n, hn, _⟩ := h.client
      obtain ⟨r, _, hgrown, hcovered⟩ := clientResolveSchema_finished hschemas n schema [] hrefs hn
      exact acc_of_covered hcovered fun m hm => hgrown.2 m hm List.not_mem_nil
  · intro h
    obtain ⟨n, hn⟩ := halts_resolveSchema (U := refNames components ++ refNames schema)
      (List.subset_append_left _ _) _ schema [] le_rfl (List.subset_append_right _ _)
    obtain ⟨m, hm⟩ := halts_clientResolveSchema h
    exact ⟨⟨n, hn, fun r hr => resolved_resolveSchema hr⟩, m, hm,
      fun r hr => resolved_clientResolveSchema hr⟩

/-- A list node, whose `next` is a list node. -/
def nodeSchema : Json :=
  .obj [("type", .str "object"),
    ("properties", .obj [("next", .obj [("$ref", .str "#/components/schemas/Node")])])]

def nodeComponents : Json := .obj [("schemas", .obj [("Node", nodeSchema)])]

def nodeRef : Json := .obj [("$ref", .str "#/components/schemas/Node")]

/-- The example's reference leads to the node. -/
theorem inner_nodeRef {t : Json} (h : Inner nodeComponents nodeRef t) : t = nodeSchema := by
  cases h with
  | ref h _ =>
      obtain rfl := Json.str.inj (show Json.str "#/components/schemas/Node" = .str _ from h)
      decide
  | composed h _ => exact absurd (by decide : jsTruthy (jsGet nodeRef "$ref") = true) h

/-- The node is no reference. -/
theorem nodeSchema_not_isRef : ¬ IsRef nodeSchema := by
  rw [IsRef]
  decide

/-- The example's references are strings. -/
theorem stringRefs_nodeRef : StringRefs nodeComponents nodeRef := by
  intro u hu href
  have hmeet : u = nodeRef ∨ u = nodeSchema := by
    clear href
    induction hu with
    | refl => exact .inl rfl
    | tail _ hstep ih =>
        rcases ih with rfl | rfl
        · rcases hstep with hinner | hfresh
          · exact .inr (inner_nodeRef hinner)
          · exact absurd (by decide : jsTruthy (jsGet nodeRef "$ref") = true) hfresh.1
        · rcases hstep with hinner | hfresh
          · cases hinner with
            | ref h _ => cases (show Json.null = .str _ from h)
            | composed _ ht => exact absurd ht List.not_mem_nil
          · exact .inl (List.mem_singleton.mp hfresh.2)
  rcases hmeet with rfl | rfl
  · exact ⟨_, rfl⟩
  · exact absurd href nodeSchema_not_isRef

/-- The server cuts the recursion, the client does not. -/
theorem nodeRef_not_bothResolve : ¬ BothResolve nodeComponents nodeRef ∧
    (∀ fuel, clientResolveSchema nodeComponents fuel nodeRef [] = .running) ∧
    resolveSchema nodeComponents 4 nodeRef [] =
      .done (.obj [("type", .str "object"), ("properties", .obj [("next", .obj [])])]) := by
  have htarget : schemaAt nodeComponents (schemaName "#/components/schemas/Node") =
    nodeSchema := by decide
  have hbelow : Below nodeComponents nodeRef nodeRef := by
    have hstep : Inner nodeComponents nodeRef _ := .ref rfl (by decide)
    rw [htarget] at hstep
    exact ⟨nodeSchema, .single hstep, nodeSchema_not_isRef, List.mem_singleton_self _⟩
  have hacc : ∀ s, Acc (Below nodeComponents) s → s ≠ nodeRef := by
    intro s h
    induction h with
    | intro s _ ih =>
        rintro rfl
        exact ih nodeRef hbelow rfl
  have hrunning : ∀ fuel, clientResolveSchema nodeComponents fuel nodeRef [] = .running := by
    intro fuel
    by_contra hne
    obtain ⟨r, _, hgrown, hcovered⟩ := clientResolveSchema_finished (by decide) fuel nodeRef []
      stringRefs_nodeRef hne
    exact hacc nodeRef (acc_of_covered hcovered fun m hm => hgrown.2 m hm List.not_mem_nil) rfl
  refine ⟨fun h => ?_, hrunning, rfl⟩
  obtain ⟨fuel, hfuel, _⟩ := h.client
  exact hfuel (hrunning fuel)

/-- On the example both sides resolve exactly where the walk ends. -/
theorem bothResolve_nodeRef :
    BothResolve nodeComponents nodeRef ↔ Acc (Below nodeComponents) nodeRef :=
  bothResolve_iff nodeComponents nodeRef stringRefs_nodeRef

end OpenWebUI.Tools
