import OpenWebUI.Tools.Schema

/-! # The server resolves every schema

The set of names on the path grows with every reference and holds only names that occur in
the components or in the schema, and between two references the schemas get smaller. So every
call of `resolve_schema` comes to an end.
-/

namespace OpenWebUI.Tools

open Py Fuel

variable {components : Json}

/-! ## References and sizes -/

mutual

/-- The names of the references anywhere in a value. -/
def refNames : Json → List String
  | .obj members =>
    (match members.lookup "$ref" with
      | some (.str refPath) => [schemaName refPath]
      | _ => []) ++ refNamesMembers members
  | .arr xs => refNamesList xs
  | _ => []

def refNamesList : List Json → List String
  | [] => []
  | x :: xs => refNames x ++ refNamesList xs

def refNamesMembers : Obj → List String
  | [] => []
  | (_, x) :: members => refNames x ++ refNamesMembers members

end

/-- The names in a part of a list are names in the list. -/
theorem refNames_subset_list {x : Json} {xs : List Json} (h : x ∈ xs) :
    refNames x ⊆ refNamesList xs := by
  induction xs with
  | nil => exact absurd h List.not_mem_nil
  | cons y xs ih =>
      rw [refNamesList]
      rcases List.mem_cons.mp h with rfl | h
      · exact List.subset_append_left _ _
      · exact List.Subset.trans (ih h) (List.subset_append_right _ _)

/-- The names in a member are names in the object. -/
theorem refNames_subset_members {k : String} {x : Json} {members : Obj} (h : (k, x) ∈ members) :
    refNames x ⊆ refNames (.obj members) := by
  have hmembers : refNames x ⊆ refNamesMembers members := by
    induction members with
    | nil => exact absurd h List.not_mem_nil
    | cons e members ih =>
        obtain ⟨l, y⟩ := e
        rw [refNamesMembers]
        rcases List.mem_cons.mp h with heq | h
        · obtain ⟨_, rfl⟩ := Prod.mk.inj heq
          exact List.subset_append_left _ _
        · exact List.Subset.trans (ih h) (List.subset_append_right _ _)
  rw [refNames]
  exact List.Subset.trans hmembers (List.subset_append_right _ _)

/-- What a reference resolves to is a part of the components. -/
theorem refNames_follow {parts : List String} {c r : Json} (h : follow c parts = .done r) :
    refNames r ⊆ refNames c := by
  induction parts generalizing c with
  | nil =>
      unfold follow at h
      cases h
      exact List.Subset.refl _
  | cons part parts ih =>
      cases c with
      | obj o =>
          rw [follow] at h
          refine List.Subset.trans (ih h) ?_
          cases hget : o.lookup part with
          | none =>
              rw [Obj.getD, hget, Option.getD_none]
              exact List.nil_subset _
          | some v =>
              rw [Obj.getD, hget, Option.getD_some]
              exact refNames_subset_members (Assoc.mem_of_lookup hget)
      | _ => cases h

/-- Following a path takes no recursion. -/
theorem follow_ne_running (parts : List String) (c : Json) : follow c parts ≠ .running := by
  induction parts generalizing c with
  | nil =>
      unfold follow
      exact fun h => by cases h
  | cons part parts ih =>
      cases c with
      | obj o =>
          rw [follow]
          exact ih _
      | _ => exact fun h => by cases h

/-- What is no object is resolved without recursion. -/
theorem resolveOther_ne_running (v : Json) : resolveOther v ≠ .running := by
  unfold resolveOther
  split
  · split_ifs <;> exact fun h => by cases h
  · split_ifs <;> exact fun h => by cases h
  · exact fun h => by cases h

theorem sizeOf_lookup_lt {o : Obj} {key : String} {v : Json} (h : o.lookup key = some v) :
    sizeOf v < sizeOf (Json.obj o) := by
  have hmem := List.sizeOf_lt_of_mem (Assoc.mem_of_lookup h)
  have hpair : sizeOf (key, v) = 1 + sizeOf key + sizeOf v := rfl
  have hobj := Json.obj.sizeOf_spec o
  omega

theorem sizeOf_mem_obj {o : Obj} {e : String × Json} (h : e ∈ o) :
    sizeOf e.2 < sizeOf (Json.obj o) := by
  have hmem := List.sizeOf_lt_of_mem h
  have hpair : sizeOf e = 1 + sizeOf e.1 + sizeOf e.2 := rfl
  have hobj := Json.obj.sizeOf_spec o
  omega

theorem sizeOf_mem_arr {xs : List Json} {x : Json} (h : x ∈ xs) :
    sizeOf x < sizeOf (Json.arr xs) := by
  have hmem := List.sizeOf_lt_of_mem h
  have harr := Json.arr.sizeOf_spec xs
  omega

/-- A copy is made when every inner schema is resolved. -/
theorem halts_resolveInner {f : ℕ → Json → Run Json} (hf : ∀ s, Ascending fun n => f n s)
    (hres : ∀ n s r, f n s = .done r → Resolved r) (o : Obj)
    (h : ∀ key v, o.lookup key = some v → ∀ t ∈ innerSchemas key v, Halts fun n => f n t) :
    Halts fun n => resolveInner (f n) o := by
  -- a step that has finished stays as it is
  have hfg : ∀ n s, Approx (f n s) (f (n + 1) s) := fun n s => hf s n
  have hkeyword : ∀ key ∈ keywords, ∀ o' : Obj, o'.lookup key = o.lookup key →
      Halts fun n => resolveKeyword (f n) key o' := by
    intro key hkey o' hsame
    have hinner := h key
    rw [← hsame] at hinner
    unfold resolveKeyword
    split
    · next inner hlookup =>
        refine (Halts.mapRun hf inner fun t ht => hinner _ hlookup t ?_).bind
          (fun n => Approx.mapRun (hfg n) inner) (fun _ n => .refl _) fun _ _ _ => halts_done _
        rwa [innerSchemas_keyword hkey]
    · exact halts_done _
  -- each step keeps the keys of the later ones
  refine Halts.bind (fun n => approx_resolveProperties (hfg n) o) (fun o n => ?_) ?_ fun n1 o1 h1 =>
    ?_
  · exact (approx_resolveItems (hfg n) o).bind fun o =>
      (approx_resolveKeyword (hfg n) _ o).bind fun o =>
      (approx_resolveKeyword (hfg n) _ o).bind fun o =>
        (approx_resolveKeyword (hfg n) _ o).bind fun _ => .refl _
  -- the properties
  · unfold resolveProperties
    split
    · exact halts_done _
    · next properties hlookup =>
        refine (Halts.mapRun (fun p => ?_) properties fun p hp => ?_).bind
          (fun n => approx_entries (hfg n) properties) (fun _ n => .refl _) fun _ _ _ =>
            halts_done _
        · exact ascending_bind (hf p.2) fun _ n => .refl _
        · exact (h _ _ hlookup p.2 (List.mem_map_of_mem hp)).bind (hf p.2) (fun _ n => .refl _)
            fun _ _ _ => halts_done _
    · exact halts_raised
  have k1 := (resolveProperties_spec (hres n1) h1).1
  refine Halts.bind (fun n => approx_resolveItems (hfg n) o1) (fun o n => ?_) ?_ fun n2 o2 h2 => ?_
  · exact (approx_resolveKeyword (hfg n) _ o).bind fun o =>
      (approx_resolveKeyword (hfg n) _ o).bind fun o =>
        (approx_resolveKeyword (hfg n) _ o).bind fun _ => .refl _
  -- the items
  · unfold resolveItems
    split
    · exact halts_done _
    · next items hlookup =>
        rw [k1 "items" (by decide)] at hlookup
        exact (h _ _ hlookup items (List.mem_singleton_self _)).bind (hf items) (fun _ n => .refl _)
          fun _ _ _ => halts_done _
  have k2 := (resolveItems_spec (hres n2) h2).1
  refine Halts.bind (fun n => approx_resolveKeyword (hfg n) _ o2) (fun o n => ?_) ?_ fun n3 o3 h3 =>
    ?_
  · exact (approx_resolveKeyword (hfg n) _ o).bind fun o =>
      -- the three keywords
      (approx_resolveKeyword (hfg n) _ o).bind fun _ => .refl _
  · exact hkeyword _ (by decide) _ ((k2 _ (by decide)).trans (k1 _ (by decide)))
  have k3 := (resolveKeyword_spec (hres n3) (by decide) h3).1
  refine Halts.bind (fun n => approx_resolveKeyword (hfg n) _ o3) (fun o n => ?_) ?_ fun n4 o4 h4 =>
    ?_
  · exact (approx_resolveKeyword (hfg n) _ o).bind fun _ => .refl _
  · exact hkeyword _ (by decide)
      _ ((k3 _ (by decide)).trans ((k2 _ (by decide)).trans (k1 _ (by decide))))
  have k4 := (resolveKeyword_spec (hres n4) (by decide) h4).1
  refine Halts.bind (fun n => approx_resolveKeyword (hfg n) _ o4)
    (fun o n => .refl _) ?_ fun _ _ _ => halts_done _
  exact hkeyword _ (by decide) _
    ((k4 _ (by decide)).trans
      ((k3 _ (by decide)).trans ((k2 _ (by decide)).trans (k1 _ (by decide)))))

/-- The schemas a key holds are smaller, and their references are among those of the whole. -/
theorem innerSchemas_smaller {o : Obj} {key : String} {v t : Json} (h : o.lookup key = some v)
    (ht : t ∈ innerSchemas key v) :
    sizeOf t < sizeOf (Json.obj o) ∧ refNames t ⊆ refNames (.obj o) := by
  have hlt := sizeOf_lookup_lt h
  have hsub := refNames_subset_members (Assoc.mem_of_lookup h)
  unfold innerSchemas at ht
  split_ifs at ht with hproperties hitems hkeyword
  · cases v with
    | obj properties =>
        obtain ⟨e, he, rfl⟩ := List.mem_map.mp ht
        exact ⟨(sizeOf_mem_obj he).trans hlt, List.Subset.trans (refNames_subset_members he) hsub⟩
    | _ => exact absurd ht List.not_mem_nil
  · rw [List.mem_singleton.mp ht]
    exact ⟨hlt, hsub⟩
  · cases v with
    | arr inner =>
        exact ⟨(sizeOf_mem_arr ht).trans hlt, List.Subset.trans (refNames_subset_list ht) hsub⟩
    | _ => exact absurd ht List.not_mem_nil
  · exact absurd ht List.not_mem_nil

/-- Names of `U` not yet on the path. -/
def namesLeft (U resolvedSchemas : List String) : ℕ :=
    (U.filter fun x => x ∉ resolvedSchemas).length

/-- A new name leaves fewer. -/
theorem namesLeft_cons_lt {U v : List String} {name : String} (hU : name ∈ U) (hv : name ∉ v) :
    namesLeft U (name :: v) < namesLeft U v := by
  have hfilter : (U.filter fun x => x ∉ name :: v) = (U.filter fun x => x ∉ v).filter fun x =>
    x ≠ name := by
    rw [List.filter_filter]
    refine List.filter_congr fun x _ => ?_
    simp [not_or]
  rw [namesLeft, hfilter, namesLeft, List.length_filter_lt_length_iff_exists]
  exact ⟨name, List.mem_filter.mpr ⟨hU, by simpa using hv⟩, by simp⟩

/-- The server's set of names grows with every reference and never leaves the finitely many names
there are; between two references the schemas get smaller. -/
theorem halts_resolveSchema {U : List String} (hU : refNames components ⊆ U) (k : ℕ) :
    ∀ (schema : Json) (v : List String), namesLeft U v ≤ k → refNames schema ⊆ U →
      Halts fun n => resolveSchema components n schema v := by
  induction k using Nat.strong_induction_on with
  | _ k ihk =>
      intro schema
      induction hsize : sizeOf schema using Nat.strong_induction_on generalizing schema with
      | _ size ihs =>
          intro v hk hnames
          -- induction on the names left, and below it on the size of the schema
          refine Halts.succ (y := fun n =>
            resolveCall components (resolveSchema components n) schema v)
            ?_ fun n => rfl
          unfold resolveCall
          split_ifs with hfalsy
          · exact halts_done _
          · cases schema with
            | obj o =>
                dsimp only
                split
                -- no reference: what is inside is smaller
                · refine halts_resolveInner (fun s => continuous_resolveCall.ascending s v)
                    (fun n s r hr => resolved_resolveSchema hr) o fun key w hw t ht => ?_
                  obtain ⟨hlt, hsub⟩ := innerSchemas_smaller hw ht
                  exact ihs _ (hsize ▸ hlt) t rfl v hk (List.Subset.trans hsub hnames)
                · next refPath href =>
                    -- a reference uses a name up
                    split_ifs with hseen
                    · exact halts_done _
                    · have hname : schemaName refPath ∈ U := by
                        refine hnames ?_
                        rw [refNames, href]
                        exact List.mem_append_left _ (List.mem_singleton_self _)
                      have hless := namesLeft_cons_lt hname hseen
                      cases hfollow : follow components (splitPath (stripRef refPath)).tail with
                      | running => exact absurd hfollow (follow_ne_running _ _)
                      | raised => exact halts_raised
                      | done r =>
                          exact ihk _ (hless.trans_le hk) r _ le_rfl
                            (List.Subset.trans (refNames_follow hfollow) hU)
                · exact halts_raised
            | _ => exact halts_of_ne 0 (resolveOther_ne_running _)

end OpenWebUI.Tools
