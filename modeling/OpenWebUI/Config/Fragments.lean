import OpenWebUI.Lib.Split

/-! # Flattened connection settings

`_split_api_config_fragment` of `backend/open_webui/models/config.py`: the part of a flattened
row's key after the setting's name is cut into a connection key and the path of a field. A
connection key of digits ends at the first dot. Any other ends where, from the right, the first
field name follows a dot.
-/

namespace OpenWebUI.Config

open Py

def apiConfigFields : List String :=
  ["enable", "key", "prefix_id", "tags", "model_ids", "connection_type", "provider",
    "auth_type", "headers",
    "azure", "api_type", "api_version", "extra_params", "passthrough_params"]

/-- `text.split('.')`. -/
def splitDots (text : List Char) : List String := (text.splitOn '.').map String.ofList

/-- One field of the loop: its marker is taken when it is right of the one found so far. -/
def takeMarker (fragment : List Char) (found : Option (ℕ × String))
    (field : String) : Option (ℕ × String) :=
  match rfind ('.' :: field.toList) fragment with
  | some markerIndex => if found.all fun m => m.1 < markerIndex then
      some (markerIndex, field) else found
  | none => found

def splitApiConfigFragment (fragment : String) : Option (String × List String) :=
  if fragment = "" then none
  else
    let cut := partitionAt '.' fragment.toList
    if isDigit cut.1 && cut.2 ≠ [] then some (String.ofList cut.1, splitDots cut.2)
    else
      match apiConfigFields.foldl (takeMarker fragment.toList) none with
      | none => none
      | some (markerIndex, _) =>
        let connectionKey := fragment.toList.take markerIndex
        if connectionKey = [] then none
        else some (String.ofList connectionKey, splitDots (fragment.toList.drop (markerIndex + 1)))

/-! ## Connections and their fragments -/

/-- A path of keys, joined with dots. -/
def joinDots (path : List String) : String := ".".intercalate path

/-- Not digits up to the first dot: every URL with a scheme is such a key. -/
def BaseUrl (key : String) : Prop := key ≠ "" ∧ isDigit (partitionAt '.' key.toList).1 = false

/-- No part begins with the name of a field. -/
def NoFieldName (path : List String) : Prop :=
  ∀ part ∈ path, ∀ field ∈ apiConfigFields, ¬ field.toList <+: part.toList

def DotFree (part : String) : Prop := '.' ∉ part.toList

/-- The connection keys with the paths that are found again below them. -/
def Splits (key : String) (path : List String) : Prop :=
  isDigit key.toList = true ∨ BaseUrl key ∧ NoFieldName path

variable {key field : String} {path : List String}

theorem toList_joinDots (path : List String) :
    (joinDots path).toList = ['.'].intercalate (path.map String.toList) :=
  String.toList_intercalate

theorem toList_joinDots_cons (key : String) {path : List String} (h : path ≠ []) :
    (joinDots (key :: path)).toList = key.toList ++ '.' :: (joinDots path).toList := by
  rw [joinDots, String.intercalate_cons_of_ne_nil h, String.toList_append, String.toList_append,
    joinDots, List.append_assoc]
  rfl

/-- Splitting undoes joining, where no part has a dot. -/
theorem splitDots_joinDots (hne : path ≠ []) (h : ∀ part ∈ path, DotFree part) :
    splitDots (joinDots path).toList = path := by
  rw [splitDots, toList_joinDots, List.splitOn_intercalate]
  · simp [Function.comp_def]
  · intro l hl
    obtain ⟨part, hpart, rfl⟩ := List.mem_map.mp hl
    exact h part hpart
  · simpa using hne

/-- The known fields have no dot. -/
theorem dotFree_field : ∀ field ∈ apiConfigFields, DotFree field := by
  unfold DotFree
  decide

/-- A number has no dot. -/
theorem dotFree_of_isDigit (h : isDigit key.toList = true) : DotFree key := by
  intro hmem
  rw [isDigit, Bool.and_eq_true] at h
  exact absurd (List.all_eq_true.mp h.2 '.' hmem) (by decide)

/-- A connection key of digits is cut off at the first dot. -/
theorem splitApiConfigFragment_digits (hkey : isDigit key.toList = true) (hne : path ≠ [])
    (hpath : ∀ part ∈ path, DotFree part) (htext : joinDots path ≠ "") :
    splitApiConfigFragment (joinDots (key :: path)) = some (key, path) := by
  have hlist := toList_joinDots_cons key hne
  have hfragment : joinDots (key :: path) ≠ "" := by
    intro h
    rw [h] at hlist
    simp at hlist
  have htail : (joinDots path).toList ≠ [] := by simpa using htext
  rw [splitApiConfigFragment, if_neg hfragment, hlist, partitionAt_append (dotFree_of_isDigit hkey)]
  dsimp only
  rw [if_pos (by simp [hkey, htail]), splitDots_joinDots hne hpath, String.ofList_toList]

/-- The loop ends at the greatest position at which a marker is found. -/
theorem foldl_takeMarker {fragment : List Char} {last : ℕ} (fields : List String)
    (hle : ∀ field ∈ fields, ∀ i, rfind ('.' :: field.toList) fragment = some i → i ≤ last) :
    ∀ found : Option (ℕ × String), (∀ m, found = some m → m.1 ≤ last) →
      ((∃ m, found = some m ∧ m.1 = last) ∨
        ∃ field ∈ fields, rfind ('.' :: field.toList) fragment = some last) →
      ∃ field, fields.foldl (takeMarker fragment) found = some (last, field) := by
  induction fields with
  | nil =>
      rintro found - (⟨⟨i, field⟩, rfl, rfl⟩ | ⟨_, hmem, _⟩)
      · exact ⟨field, rfl⟩
      · cases hmem
  | cons field fields ih =>
      intro found hfound hsome
      have ih := ih fun f hf => hle f (List.mem_cons_of_mem _ hf)
      rw [List.foldl_cons]
      cases hindex : rfind ('.' :: field.toList) fragment with
      | none =>
          rw [takeMarker, hindex]
          refine ih found hfound (hsome.imp_right ?_)
          rintro ⟨f, hf, hlast⟩
          rcases List.mem_cons.mp hf with rfl | hf
          · rw [hindex] at hlast
            cases hlast
          · exact ⟨f, hf, hlast⟩
      | some i =>
          have hi := hle field List.mem_cons_self i hindex
          rw [takeMarker, hindex]
          dsimp only
          -- this marker is further right than what was found
          by_cases hright : (found.all fun m => m.1 < i) = true
          · rw [if_pos hright]
            refine ih (some (i, field)) (fun m hm => Option.some.inj hm ▸ hi) ?_
            rcases hsome with ⟨m, rfl, hm⟩ | ⟨f, hf, hlast⟩
            · rw [Option.all_some, decide_eq_true_eq] at hright
              omega
            · rcases List.mem_cons.mp hf with rfl | hf
              · exact .inl ⟨_, rfl, Option.some.inj (hindex.symm.trans hlast)⟩
              · exact .inr ⟨f, hf, hlast⟩
          · -- what was found is at least as far right
            rw [if_neg hright]
            refine ih found hfound ?_
            rcases hsome with hm | ⟨f, hf, hlast⟩
            · exact .inl hm
            · rcases List.mem_cons.mp hf with rfl | hf
              · obtain rfl := Option.some.inj (hindex.symm.trans hlast)
                cases found with
                | none => exact absurd rfl hright
                | some m =>
                    rw [Option.all_some, decide_eq_true_eq] at hright
                    have hm := hfound m rfl
                    exact .inl ⟨m, rfl, by omega⟩
              · exact .inr ⟨f, hf, hlast⟩

/-- Any other connection key ends at its field when no later part begins with a field name. -/
theorem splitApiConfigFragment_url (hkey : BaseUrl key) (hfield : field ∈ apiConfigFields)
    (hpath : ∀ part ∈ path, DotFree part) (hnone : NoFieldName path) :
    splitApiConfigFragment (joinDots (key :: field :: path)) = some (key, field :: path) := by
  have hne : field :: path ≠ [] := List.cons_ne_nil _ _
  have hdots : ∀ part ∈ field :: path, DotFree part :=
    List.forall_mem_cons.mpr ⟨dotFree_field field hfield, hpath⟩
  have hlist := toList_joinDots_cons key hne
  have hfragment : joinDots (key :: field :: path) ≠ "" := by
    intro h
    rw [h] at hlist
    simp at hlist
  have hkeyList : key.toList ≠ [] := by simpa using hkey.1
  -- no marker is found right of the connection key
  have hlater :
    ∀ f ∈ apiConfigFields, ¬ '.' :: f.toList <:+: (joinDots (field :: path)).toList := by
    intro f hf hin
    rw [toList_joinDots, List.map_cons, sep_infix_intercalate (dotFree_field f hf)] at hin
    · obtain ⟨q, hq, hbegins⟩ := hin
      obtain ⟨part, hpart, rfl⟩ := List.mem_map.mp hq
      exact hnone part hpart f hf hbegins
    · intro q hq
      rw [← List.map_cons] at hq
      obtain ⟨part, hpart, rfl⟩ := List.mem_map.mp hq
      exact hdots part hpart
  have hle : ∀ f ∈ apiConfigFields, ∀ i,
      rfind ('.' :: f.toList) (key.toList ++ '.' :: (joinDots (field :: path)).toList) = some i →
        i ≤ key.toList.length := by
    intro f hf i hi
    rw [List.append_cons] at hi
    have hlt := rfind_lt (List.cons_ne_nil _ _) (hlater f hf) _ hi
    rw [List.length_append, List.length_singleton] at hlt
    omega
  have hat : rfind ('.' :: field.toList) (key.toList ++ '.' :: (joinDots (field :: path)).toList) =
      some key.toList.length := by
    refine rfind_append (List.cons_ne_nil _ _) (List.cons_prefix_cons.mpr ⟨rfl, ?_⟩)
      (hlater field hfield) _
    cases path with
    | nil => simp [joinDots]
    | cons p path =>
        rw [toList_joinDots_cons field (List.cons_ne_nil _ _)]
        exact List.prefix_append _ _
  obtain ⟨f, hfold⟩ := foldl_takeMarker apiConfigFields hle none (fun _ h => by cases h)
    (.inr ⟨field, hfield, hat⟩)
  rw [splitApiConfigFragment, if_neg hfragment, hlist]
  dsimp only
  rw [partitionAt_append_fst, hkey.2, Bool.false_and, if_neg Bool.false_ne_true, hfold]
  dsimp only
  rw [List.take_left, if_neg hkeyList, String.ofList_toList, List.append_cons,
    List.drop_left' (by simp), splitDots_joinDots hne hdots]

/-- A fragment is cut where it was joined. -/
theorem splitApiConfigFragment_joinDots (hfield : field ∈ apiConfigFields)
    (hpath : ∀ part ∈ path, DotFree part) (h : Splits key path) :
    splitApiConfigFragment (joinDots (key :: field :: path)) = some (key, field :: path) := by
  rcases h with hdigits | ⟨hurl, hnone⟩
  · refine splitApiConfigFragment_digits hdigits (List.cons_ne_nil _ _)
      (List.forall_mem_cons.mpr ⟨dotFree_field field hfield, hpath⟩) fun hempty => ?_
    have hlist : (joinDots (field :: path)).toList = [] := by rw [hempty]; rfl
    cases path with
    | nil =>
        have hnonempty : ∀ f ∈ apiConfigFields, f ≠ "" := by decide
        exact hnonempty field hfield (by simpa [joinDots] using hempty)
    | cons p path =>
        rw [toList_joinDots_cons field (List.cons_ne_nil _ _)] at hlist
        simp at hlist
  · exact splitApiConfigFragment_url hurl hfield hpath hnone

end OpenWebUI.Config
