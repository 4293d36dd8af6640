import Mathlib
import OpenWebUI.Lib.Json
import OpenWebUI.Lib.JsonText
import OpenWebUI.Lib.Text

/-! # Tool calls with several arguments

`_split_tool_calls` of `backend/open_webui/utils/middleware.py`. A model may send several complete
JSON values as the arguments of one call. Such a call is split into one call for each value. The
values are read from the left, each as far as it goes.
-/

namespace OpenWebUI.Tools

open Py

/-- The loop of `split_json_objects`: the values of a text, white space left out. -/
def readValues (depth : ℕ) : ℕ → List Char → Scan (List String)
  | 0, _ => .raised
  | fuel + 1, s =>
    let s := s.dropWhile isSpace
    if s = [] then .done []
    else
      (rawDecode depth s).bind fun rest =>
        (readValues depth fuel rest).bind fun results =>
          .done (strip (String.ofList (s.take (s.length - rest.length))) :: results)

/-- `split_json_objects`, `none` where it raises. -/
def splitJsonObjects (depth : ℕ) (raw : String) : Option (List String) :=
  match readValues depth (raw.toList.length + 1) raw.toList with
  | .done results => some (if results = [] then [raw] else results)
  | .malformed => some [raw]
  | .raised => none

/-- A call whose arguments are a text. -/
structure Normal where
  call : Obj
  function : Obj
  arguments : String

/-- The arguments of a call are made a text, missing ones an empty one. A `function` that is no
dictionary raises. -/
def normalized (dumps : Json → String) (call : Obj) : Option Normal :=
  ((call.lookup "function").getD (.obj [])).asObj.map fun function =>
    match Obj.get function "arguments" with
    | .str arguments => ⟨call, function, arguments⟩
    | value =>
      let arguments := if value = .null then "" else dumps value
      let function := Assoc.set function "arguments" (.str arguments)
      ⟨Assoc.set call "function" (.obj function), function, arguments⟩

/-- The id of a new call, from the hexadecimal digits of a UUID. -/
def newId (uuid4Hex : ℕ → String) (i : ℕ) : String :=
    "call_" ++ String.ofList ((uuid4Hex i).toList.take 24)

/-- A copy of a call for one of its arguments. -/
def cloned (n : Normal) (id argument : String) : Obj :=
  Assoc.set (Assoc.set n.call "id" (.str id)) "function"
    (.obj (Assoc.set n.function "arguments" (.str argument)))

/-- `_split_tool_calls`, with the number of UUIDs drawn so far. -/
def splitToolCalls (depth : ℕ) (dumps : Json → String) (uuid4Hex : ℕ → String) : ℕ → List Obj →
    Option (List Obj)
  | _, [] => some []
  | drawn, call :: calls =>
    (normalized dumps call).bind fun n =>
      (splitJsonObjects depth n.arguments).bind fun splitArguments =>
        if splitArguments.length ≤ 1 then
          (splitToolCalls depth dumps uuid4Hex drawn calls).map fun rest => n.call :: rest
        else
          (splitToolCalls depth dumps uuid4Hex (drawn + splitArguments.length) calls).map
            fun rest =>
            (splitArguments.zipIdx drawn).map (fun a => cloned n (newId uuid4Hex a.2) a.1) ++ rest

/-! ## Reading values from the left -/

/-- A text of white space and values, each as long as a value can be there. -/
inductive Reads : List Char → List (List Char) → Prop where
  | done {ws : List Char} (hws : ∀ c ∈ ws, isSpace c = true) : Reads ws []
  | value {ws v rest : List Char} {values : List (List Char)} (hws : ∀ c ∈ ws, isSpace c = true)
      (hv : JsonText .value v) (hlongest : ∀ w, JsonText .value w → w <+: v ++ rest →
        w.length ≤ v.length)
      (h : Reads rest values) : Reads (ws ++ (v ++ rest)) (v :: values)

variable {depth fuel : ℕ} {s v w rest : List Char} {values : List (List Char)}
    {results : List String}

theorem isSpace_head {c : Char} (h : isHead c = true) : isSpace c = false := by
  simp only [isHead, Bool.or_eq_true, decide_eq_true_eq] at h
  rcases h with (((h | rfl) | rfl) | rfl) | rfl
  · exact isSpace_alphanum h
  all_goals decide

theorem isSpace_last {c : Char} (h : isLast c = true) : isSpace c = false := by
  simp only [isLast, Bool.or_eq_true, decide_eq_true_eq] at h
  rcases h with ((h | rfl) | rfl) | rfl
  · exact isSpace_alphanum h
  all_goals decide

/-- A value has no white space around it. -/
theorem strip_value (hv : JsonText .value v) : strip (String.ofList v) = String.ofList v := by
  obtain ⟨c, t, heq, hc⟩ := hv.head
  obtain ⟨t', d, heq', hd⟩ := hv.last
  have hhead : ∀ x ∈ v.head?, isSpace x = false := by
    rw [heq]
    rintro x ⟨⟩
    exact isSpace_head hc
  have hlast : ∀ x ∈ v.getLast?, isSpace x = false := by
    rw [heq', List.getLast?_append_of_ne_nil _ (List.cons_ne_nil d [])]
    rintro x ⟨⟩
    exact isSpace_last hd
  rw [strip, lstrip, rstrip, String.toList_ofList, String.toList_ofList, strip_chars hhead hlast]

/-- White space before a value is skipped. -/
theorem dropWhile_isSpace {ws : List Char} (hws : ∀ c ∈ ws, isSpace c = true)
    (hv : JsonText .value v) (rest : List Char) :
    (ws ++ (v ++ rest)).dropWhile isSpace = v ++ rest := by
  obtain ⟨c, t, rfl, hc⟩ := hv.head
  rw [List.dropWhile_append_of_pos hws, List.cons_append, List.dropWhile_cons, isSpace_head hc,
    if_neg Bool.false_ne_true]

/-- The decoder takes the longest value, if it takes one. -/
theorem rawDecode_spec (hv : JsonText .value v)
    (hlongest : ∀ w, JsonText .value w → w <+: v ++ rest → w.length ≤ v.length) :
    rawDecode depth (v ++ rest) = .raised ∨ rawDecode depth (v ++ rest) = .done rest := by
  rcases rawDecode_longest hv (List.prefix_append v rest) with hraised | ⟨rest', hdone, hle⟩
  · exact .inl hraised
  · right
    obtain ⟨w, hsplit, hw⟩ := rawDecode_sound hdone
    have hlen := hlongest w hw (hsplit ▸ List.prefix_append w rest')
    have hsum : v.length + rest.length = w.length + rest'.length := by
      rw [← List.length_append, hsplit, List.length_append]
    rw [List.length_append] at hle
    rw [hdone, (List.append_inj' hsplit (by omega)).2]

/-- The results are the values from the left. -/
theorem readValues_sound : ∀ {s results}, readValues depth fuel s = .done results →
    ∃ values, Reads s values ∧ results = values.map String.ofList := by
  induction fuel with
  | zero => intro s results h; cases h
  | succ fuel ih =>
      intro s results h
      rw [readValues] at h
      have hws : ∀ c ∈ s.takeWhile isSpace, isSpace c = true :=
        fun c hc => List.mem_takeWhile_imp hc
      split_ifs at h with hempty
      · cases h
        refine ⟨[], .done ?_, rfl⟩
        rwa [← List.takeWhile_append_dropWhile (p := isSpace) (l := s), hempty, List.append_nil]
      · obtain ⟨rest, hdecode, h⟩ := Scan.bind_done.mp h
        obtain ⟨results', hresults, h⟩ := Scan.bind_done.mp h
        obtain ⟨values, hvalues, rfl⟩ := ih hresults
        obtain ⟨v, hsplit, hv⟩ := rawDecode_sound hdecode
        cases h
        refine ⟨v :: values, ?_, ?_⟩
        · rw [← List.takeWhile_append_dropWhile (p := isSpace) (l := s), hsplit]
          refine .value hws hv (fun w hw hbegins => ?_) hvalues
          rcases rawDecode_longest hw hbegins with hraised | ⟨rest', hdone, hle⟩
          · rw [← hsplit, hdecode] at hraised
            cases hraised
          · rw [← hsplit, hdecode] at hdone
            cases hdone
            rw [List.length_append] at hle
            omega
        · have htake : (v ++ rest).take ((v ++ rest).length - rest.length) = v := by simp
          rw [hsplit, htake, strip_value hv, List.map_cons]

/-- Where the values are read to the end, the results are these values. -/
theorem Reads.readValues (h : Reads s values) : ∀ fuel, readValues depth fuel s = .raised ∨
    readValues depth fuel s = .done (values.map String.ofList) := by
  induction h with
  | @done ws hws =>
      intro fuel
      cases fuel with
      | zero => exact .inl rfl
      | succ fuel =>
          right
          rw [Tools.readValues]
          rw [if_pos (List.dropWhile_eq_nil_iff.mpr hws)]
          rfl
  | @value ws v rest values hws hv hlongest _ ih =>
      intro fuel
      cases fuel with
      | zero => exact .inl rfl
      | succ fuel =>
          rw [Tools.readValues]
          obtain ⟨c, t, heq, -⟩ := hv.head
          have hne : v ++ rest ≠ [] := by simp [heq]
          rw [dropWhile_isSpace hws hv, if_neg hne]
          rcases rawDecode_spec hv hlongest with hraised | hdone
          · exact .inl (by rw [hraised, Scan.bind])
          · rw [hdone, Scan.bind]
            rcases ih fuel with hraised | hrest
            · exact .inl (by rw [hraised, Scan.bind])
            · right
              have htake : (v ++ rest).take ((v ++ rest).length - rest.length) = v := by simp
              rw [hrest, Scan.bind, htake, strip_value hv, List.map_cons]

theorem Reads.unique {values' : List (List Char)} (h : Reads s values) (h' : Reads s values') :
    values = values' := by
  induction h generalizing values' with
  | done hws =>
      cases h' with
      | done => rfl
      | @value ws v rest values' hws' hv =>
          obtain ⟨c, t, rfl, hc⟩ := hv.head
          have hspace := hws c (by simp)
          rw [isSpace_head hc] at hspace
          cases hspace
  | @value ws v rest values hws hv hlongest hrest ih =>
      have hdrop := dropWhile_isSpace hws hv rest
      generalize hs : ws ++ (v ++ rest) = s at h' hdrop
      cases h' with
      | done hws' =>
          obtain ⟨c, t, rfl, hc⟩ := hv.head
          have hspace := hws' c (by simp [← hs])
          rw [isSpace_head hc] at hspace
          cases hspace
      | @value ws' v' rest' values' hws' hv' hlongest' hrest' =>
          have hsame : v ++ rest = v' ++ rest' := by rw [← hdrop, dropWhile_isSpace hws' hv' rest']
          have hle := hlongest v' hv' (hsame ▸ List.prefix_append v' rest')
          have hle' := hlongest' v hv (hsame ▸ List.prefix_append v rest)
          obtain ⟨rfl, rfl⟩ := List.append_inj hsame (by omega)
          rw [ih hrest']

/-- The values of a text that is made of values, or the text itself. -/
theorem splitJsonObjects_spec {raw : String} (h : splitJsonObjects depth raw = some results) :
    (∃ values, Reads raw.toList values ∧ values ≠ [] ∧ results = values.map String.ofList) ∨
      (∀ values, Reads raw.toList values → values = []) ∧ results = [raw] := by
  rw [splitJsonObjects] at h
  cases hread : readValues depth (raw.toList.length + 1) raw.toList with
  | done found =>
      rw [hread] at h
      obtain ⟨values, hvalues, rfl⟩ := readValues_sound hread
      dsimp only at h
      split_ifs at h with hempty
      · cases h
        have hnil : values = [] := List.map_eq_nil_iff.mp hempty
        exact .inr ⟨fun values' h' => (h'.unique hvalues).trans hnil, rfl⟩
      · cases h
        exact .inl ⟨values, hvalues, fun hnil => hempty (by rw [hnil, List.map_nil]), rfl⟩
  | malformed =>
      rw [hread] at h
      cases h
      refine .inr ⟨fun values hvalues => ?_, rfl⟩
      rcases hvalues.readValues (raw.toList.length + 1) with hraised | hdone
      · rw [hread] at hraised
        cases hraised
      · rw [hread] at hdone
        cases hdone
  | raised =>
      rw [hread] at h
      cases h

/-- Within the limits of the decoder nothing is raised. -/
theorem readValues_ne_raised :
    ∀ {s}, s.length < fuel → Bounded depth s → readValues depth fuel s ≠ .raised := by
  induction fuel with
  | zero => intro s h; omega
  | succ fuel ih =>
      intro s hlen hbound
      rw [readValues]
      have hsuffix : s.dropWhile isSpace <:+ s := List.dropWhile_suffix isSpace
      have hle := hsuffix.length_le
      split_ifs with hempty
      · exact fun h => by cases h
      · refine Scan.bind_ne_raised (rawDecode_ne_raised (hbound.suffix hsuffix)) fun rest hrest =>
          ?_
        obtain ⟨hrest_suffix, hlt⟩ := scan_suffix hrest
        refine Scan.bind_ne_raised
          (ih (by omega) (hbound.suffix (hrest_suffix.trans hsuffix))) fun _ _ => ?_
        exact fun h => by cases h

/-- A text whose nesting is bounded is split. -/
theorem splitJsonObjects_isSome {raw : String} (h : Bounded depth raw.toList) :
    (splitJsonObjects depth raw).isSome := by
  rw [splitJsonObjects]
  have hne := readValues_ne_raised (Nat.lt_succ_self raw.toList.length) h
  split
  · rfl
  · rfl
  · next hraised => exact absurd hraised hne

/-! ## Calls -/

/-- The copy of a call for one value: another id and other arguments. -/
structure IsCopy (n : Normal) (id : String) (argument : List Char) (piece : Obj) : Prop where
  id : piece.lookup "id" = some (.str id)
  function : ∃ f, piece.lookup "function" = some (.obj f) ∧
    f.lookup "arguments" = some (.str (String.ofList argument)) ∧ ∀ k, k ≠ "arguments" →
      f.lookup k = n.function.lookup k
  others : ∀ k, k ≠ "id" → k ≠ "function" → piece.lookup k = n.call.lookup k

/-- What becomes of one call, with the ids that are new. -/
structure Expansion where
  call : Obj
  ids : List String
  pieces : List Obj

/-- One call for each value, in order. -/
def Expansion.Splits (e : Expansion) (n : Normal) : Prop :=
  ∃ values, Reads n.arguments.toList values ∧ 2 ≤ values.length ∧ e.ids.length = values.length ∧
    e.pieces.length = values.length ∧ ∀ (i : ℕ) v id piece, values[i]? = some v →
      e.ids[i]? = some id →
      e.pieces[i]? = some piece → IsCopy n id v piece

def Expansion.Correct (dumps : Json → String) (e : Expansion) : Prop :=
  ∃ n, normalized dumps e.call = some n ∧ (e.Splits n ∨
    (∀ values, Reads n.arguments.toList values → values.length ≤ 1) ∧ e.ids = [] ∧
      e.pieces = [n.call])

variable {dumps : Json → String} {uuid4Hex : ℕ → String} {calls expanded : List Obj}

/-- A clone is a copy with its own id and arguments. -/
theorem cloned_isCopy (n : Normal) (id : String) (v : List Char) :
    IsCopy n id v (cloned n id (String.ofList v)) := by
  refine ⟨?_, ⟨Assoc.set n.function "arguments" (.str (String.ofList v)), ?_, ?_, fun k hk => ?_⟩,
    fun k hid hfunction => ?_⟩
  · rw [cloned, Assoc.lookup_set_ne _ _ (by decide), Assoc.lookup_set_self]
  · rw [cloned, Assoc.lookup_set_self]
  · rw [Assoc.lookup_set_self]
  · rw [Assoc.lookup_set_ne _ _ hk]
  · rw [cloned, Assoc.lookup_set_ne _ _ hfunction, Assoc.lookup_set_ne _ _ hid]

/-- The copies of a call that is split. -/
theorem expansion_splits (uuid4Hex : ℕ → String) (call : Obj) (n : Normal) (drawn : ℕ)
    (hread : Reads n.arguments.toList values) (hmany : 2 ≤ values.length) :
    Expansion.Splits ⟨call, (List.range' drawn values.length).map (newId uuid4Hex),
      ((values.map String.ofList).zipIdx drawn).map fun a =>
        cloned n (newId uuid4Hex a.2) a.1⟩ n := by
  refine ⟨values, hread, hmany, by simp, by simp, fun i v id piece hv hid hpiece => ?_⟩
  have hlt := (List.getElem?_eq_some_iff.mp hv).1
  have hid' : newId uuid4Hex (drawn + i) = id := by
    simpa [List.getElem?_range', hlt] using hid
  have hpiece' : cloned n (newId uuid4Hex (drawn + i)) (String.ofList v) = piece := by
    simpa [List.getElem?_zipIdx, hv] using hpiece
  rw [← hpiece', hid']
  exact cloned_isCopy n id v

/-- Each call is expanded in its place, with ids from the next ones drawn. -/
theorem splitToolCalls_expansions :
    ∀ {drawn expanded}, splitToolCalls depth dumps uuid4Hex drawn calls = some expanded →
    ∃ (expansions : List Expansion) (count : ℕ), expansions.map Expansion.call = calls ∧
      (expansions.map Expansion.pieces).flatten = expanded ∧ (∀ e ∈ expansions, e.Correct dumps) ∧
      (expansions.map Expansion.ids).flatten = (List.range' drawn count).map (newId uuid4Hex) ∧
      count ≤ expanded.length := by
  induction calls with
  | nil =>
      intro drawn expanded h
      cases h
      exact ⟨[], 0, rfl, rfl, fun e he => absurd he List.not_mem_nil, rfl, le_rfl⟩
  | cons call calls ih =>
      intro drawn expanded h
      rw [splitToolCalls, Option.bind_eq_some_iff] at h
      obtain ⟨n, hn, h⟩ := h
      obtain ⟨splitArguments, hsplit, h⟩ := Option.bind_eq_some_iff.mp h
      split_ifs at h with hone
      -- at most one object: the call stays as it is
      · obtain ⟨rest, hrest, rfl⟩ := Option.map_eq_some_iff.mp h
        obtain ⟨expansions, count, hcalls, hpieces, hcorrect, hids, hcount⟩ := ih hrest
        have hfew : ∀ values, Reads n.arguments.toList values → values.length ≤ 1 := by
          intro values hvalues
          rcases splitJsonObjects_spec hsplit with ⟨values', hvalues', _, rfl⟩ | ⟨hnone, _⟩
          · rw [hvalues.unique hvalues']
            simpa using hone
          · rw [hnone values hvalues]
            exact Nat.zero_le 1
        refine ⟨⟨call, [], [n.call]⟩ :: expansions,
          count, by simp [hcalls], by simp [hpieces], ?_, by simpa using hids,
          hcount.trans (Nat.le_succ _)⟩
        exact List.forall_mem_cons.mpr ⟨⟨n, hn, .inr ⟨hfew, rfl, rfl⟩⟩, hcorrect⟩
      -- several: one call for each, with the next ids
      · obtain ⟨rest, hrest, rfl⟩ := Option.map_eq_some_iff.mp h
        obtain ⟨expansions, count, hcalls, hpieces, hcorrect, hids, hcount⟩ := ih hrest
        rcases splitJsonObjects_spec hsplit with ⟨values, hvalues, _, rfl⟩ | ⟨_, rfl⟩
        · rw [List.length_map] at hone hids
          have hsplits : Expansion.Splits _ n :=
            expansion_splits uuid4Hex call n drawn hvalues (by omega)
          refine ⟨_ :: expansions, values.length + count, by rw [List.map_cons, hcalls], ?_,
            List.forall_mem_cons.mpr ⟨⟨n, hn, .inl hsplits⟩, hcorrect⟩, ?_, ?_⟩
          · rw [List.map_cons, List.flatten_cons, hpieces]
          · rw [List.map_cons, List.flatten_cons, hids, ← List.map_append, List.range'_append_1]
          · rw [List.length_append, List.length_map, List.length_zipIdx, List.length_map]
            omega
        · exact absurd le_rfl hone

/-- Calls that can be read are split. -/
theorem splitToolCalls_isSome
    (h : ∀ call ∈ calls, ∃ n, normalized dumps call = some n ∧ Bounded depth n.arguments.toList) :
    ∀ drawn, (splitToolCalls depth dumps uuid4Hex drawn calls).isSome := by
  induction calls with
  | nil => exact fun _ => rfl
  | cons call calls ih =>
      intro drawn
      obtain ⟨⟨n, hn, hbound⟩, hrest⟩ := List.forall_mem_cons.mp h
      obtain ⟨splitArguments, hsplit⟩ :=
        Option.isSome_iff_exists.mp (splitJsonObjects_isSome hbound)
      rw [splitToolCalls, hn, Option.bind_some, hsplit, Option.bind_some]
      split_ifs <;> rw [Option.isSome_map] <;> exact ih hrest _

/-- A call with a text of arguments is read as it is. -/
theorem normalized_of_str {call function : Obj} {arguments : String}
    (hfunction : call.lookup "function" = some (.obj function))
    (harguments : function.lookup "arguments" = some (.str arguments)) :
    normalized dumps call = some ⟨call, function, arguments⟩ := by
  rw [normalized, hfunction, Option.getD_some, Json.asObj_obj, Option.map_some,
    Obj.get_of_lookup harguments]

/-- Calls keep their order. One whose arguments are two values or more is replaced by a call for
each value, read from the left; every other one stays, and is unchanged if its arguments are a
text. -/
theorem splitToolCalls_spec (depth : ℕ) (dumps : Json → String) (uuid4Hex : ℕ → String)
    (calls : List Obj) :
    ((∀ call ∈ calls, ∃ n, normalized dumps call = some n ∧ Bounded depth n.arguments.toList) →
      (splitToolCalls depth dumps uuid4Hex 0 calls).isSome) ∧
    ∀ expanded, splitToolCalls depth dumps uuid4Hex 0 calls = some expanded →
      (∀ i < expanded.length, ∀ j < expanded.length, newId uuid4Hex i = newId uuid4Hex j → i = j) →
      (∀ i < expanded.length, ∀ call ∈ calls, call.lookup "id" ≠ some (.str (newId uuid4Hex i))) →
      ∃ expansions : List Expansion, expansions.map Expansion.call = calls ∧
        (expansions.map Expansion.pieces).flatten = expanded ∧ (∀ e ∈ expansions, e.Correct dumps) ∧
        (expansions.map Expansion.ids).flatten.Nodup ∧
        (∀ id ∈ (expansions.map Expansion.ids).flatten, ∀ call ∈ calls,
          call.lookup "id" ≠ some (.str id)) ∧
        ∀ call ∈ calls, ∀ function arguments, call.lookup "function" = some (.obj function) →
          function.lookup "arguments" = some (.str arguments) →
          normalized dumps call = some ⟨call, function, arguments⟩ := by
  refine ⟨fun h => splitToolCalls_isSome h 0, fun expanded hresult hdistinct hfresh => ?_⟩
  obtain ⟨expansions, count, hcalls, hpieces, hcorrect, hids, hcount⟩ :=
    splitToolCalls_expansions hresult
  refine ⟨expansions, hcalls, hpieces, hcorrect, ?_, ?_, fun _ _ _ _ => normalized_of_str⟩
  · rw [hids, List.nodup_map_iff_inj_on List.nodup_range']
    intro i hi j hj heq
    rw [List.mem_range'_1] at hi hj
    exact hdistinct i (by omega) j (by omega) heq
  · rw [hids]
    intro id hid call hcall
    obtain ⟨i, hi, rfl⟩ := List.mem_map.mp hid
    rw [List.mem_range'_1] at hi
    exact hfresh i (by omega) call hcall

def callWith (arguments : String) : Obj :=
  [("id", .str "call_1"), ("function",
    .obj [("name", .str "search"), ("arguments", .str arguments)])]

/-- Hexadecimal digits that are different for the first UUIDs. -/
def sampleUuid (i : ℕ) : String :=
    (["3f2b8c1d9e4a4f6b8c2d7e5a9b1c0d3e", "a41c7e90b2d84c5fa6e3108d7b9f2c64"] :
    List String).getD i ""

/-- Two objects in one call. -/
theorem splitToolCalls_spec_two :
    ∃ expanded, splitToolCalls 900 (fun _ => "") sampleUuid 0 [callWith "\x7b\x7d [1]"] =
      some expanded ∧
    ∃ expansions : List Expansion, expansions.map Expansion.call = [callWith "\x7b\x7d [1]"] ∧
      (expansions.map Expansion.pieces).flatten = expanded := by
  have hresult : splitToolCalls 900 (fun _ => "") sampleUuid 0 [callWith "\x7b\x7d [1]"] = some
      [cloned ⟨callWith "\x7b\x7d [1]",
        [("name", .str "search"), ("arguments", .str "\x7b\x7d [1]")],
        ""⟩ (newId sampleUuid 0) "\x7b\x7d",
        cloned ⟨callWith "\x7b\x7d [1]",
          [("name", .str "search"), ("arguments", .str "\x7b\x7d [1]")],
          ""⟩ (newId sampleUuid 1) "[1]"] := by
    decide +kernel
  have hdistinct : ∀ i < 2, ∀ j < 2, newId sampleUuid i = newId sampleUuid j →
    i = j := by decide +kernel
  have hfresh :
    ∀ i < 2, ∀ call ∈ [callWith "\x7b\x7d [1]"],
    call.lookup "id" ≠ some (.str (newId sampleUuid i)) := by
    decide +kernel
  obtain ⟨expansions, hcalls, hpieces, -⟩ :=
    (splitToolCalls_spec 900 (fun _ => "") sampleUuid _).2 _ hresult hdistinct hfresh
  exact ⟨_, hresult, expansions, hcalls, hpieces⟩

/-- `10` is the value `1` and the value `0`, and stays one call. -/
theorem splitToolCalls_ten : ¬ ∀ v w, JsonText .value v → JsonText .value w → ∀ expanded,
    splitToolCalls 900 (fun _ => "") sampleUuid 0 [callWith (String.ofList (v ++ w))] =
      some expanded → expanded.length = 2 := by
  intro hall
  have hresult :
    splitToolCalls 900 (fun _ => "") sampleUuid 0 [callWith (String.ofList (['1'] ++ ['0']))] =
    some [callWith "10"] := by
    decide +kernel
  exact absurd (hall ['1'] ['0'] (.number ⟨.int, rfl, rfl⟩) (.number ⟨.zero, rfl, rfl⟩) _ hresult)
    (by decide)

end OpenWebUI.Tools
