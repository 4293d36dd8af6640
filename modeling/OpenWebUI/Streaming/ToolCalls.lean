import OpenWebUI.Lib.Json

/-! # Collecting the tool calls of a stream

`stream_body_handler` merges the tool-call deltas of one round by their index. After each
chunk the collected calls are written to output items, which are found by call id, and when
the stream ends the items get their final arguments.
-/

namespace OpenWebUI.Streaming

open Py

/-! ## Deltas, calls and items -/

/-- An entry of a chunk's `tool_calls` that has an index; the others are skipped. -/
structure ToolDelta where
  index : ℤ
  id : Option String
  name : Option String
  /-- `null` where absent. -/
  arguments : Json

/-- An entry of `response_tool_calls`. -/
structure CollectedCall where
  index : ℤ
  id : String
  name : String
  arguments : String
deriving DecidableEq

inductive CallStatus where
  | inProgress
  | completed
deriving DecidableEq

/-- A `function_call` output item; its own `id` is its call id. -/
structure CallItem where
  callId : String
  name : String
  arguments : String
  status : CallStatus
deriving DecidableEq

/-- What is outside the stream: `JSONCodec.dumps` and the ids that `output_id` makes. -/
structure Supply where
  dumps : Json → String
  fresh : ℕ → String

/-- The calls and items of one round, and how many ids were made. -/
structure Collected where
  calls : List CollectedCall
  items : List CallItem
  made : ℕ

def Collected.empty : Collected := ⟨[], [], 0⟩

/-! ## One chunk -/

/-- The text an argument fragment adds. -/
def fragmentText (dumps : Json → String) : Json → String
  | .null => ""
  | .str s => s
  | arguments => dumps arguments

/-- The given id, if there is one. -/
def ToolDelta.givenId (d : ToolDelta) : Option String := d.id.filter (· ≠ "")

/-- The id of a new call: the given one, unless it is absent or an item has it already. -/
def callIdOf (s : Supply) (taken : List String) (made : ℕ) (d : ToolDelta) : String × ℕ :=
  match d.givenId with
  | some id => if id ∈ taken then (s.fresh made, made + 1) else (id, made)
  | none => (s.fresh made, made + 1)

/-- A name that is not empty replaces the one before. -/
def ToolDelta.rename (d : ToolDelta) (old : String) : String :=
  match d.name with
  | some name => if name ≠ "" then name else old
  | none => old

/-- A delta for a call that is collected already. -/
def CollectedCall.update (dumps : Json → String) (call : CollectedCall) (d : ToolDelta) :
    CollectedCall :=
  { call with
    name := d.rename call.name
    arguments := call.arguments ++ fragmentText dumps d.arguments }

/-- The first call with the delta's index is changed, or a new call is collected. `taken` are
the call ids of the items of `full_output()`. -/
def collectDelta (s : Supply) (taken : List String) (acc : List CollectedCall × ℕ) (d : ToolDelta) :
    List CollectedCall × ℕ :=
  if acc.1.any (·.index = d.index) then
    (acc.1.map fun call => if call.index = d.index then call.update s.dumps d else call, acc.2)
  else
    let (id, made) := callIdOf s taken acc.2 d
    (acc.1 ++ [⟨d.index, id, d.name.getD "", fragmentText s.dumps d.arguments⟩], made)

/-- Change the first item with a call id. -/
def modifyItem (id : String) (f : CallItem → CallItem) : List CallItem → List CallItem
  | [] => []
  | item :: items => if item.callId = id then f item :: items else item :: modifyItem id f items

/-- The item of a call is changed, or a new one is added. -/
def emitCall (items : List CallItem) (call : CollectedCall) : List CallItem :=
  if call.id ∈ items.map CallItem.callId then
    modifyItem call.id (fun item =>
      { item with name := call.name, arguments := call.arguments, status := .inProgress }) items
  else items ++ [⟨call.id, call.name, call.arguments, .inProgress⟩]

/-- The deltas of one chunk; `prior` are the call ids of the output of earlier rounds. -/
def collectChunk (s : Supply) (prior : List String) (acc : Collected) (deltas : List ToolDelta) :
    Collected :=
  if deltas.isEmpty then acc
  else
    let (calls, made) := deltas.foldl (collectDelta s (prior ++ acc.items.map CallItem.callId))
      (acc.calls, acc.made)
    ⟨calls, calls.foldl emitCall acc.items, made⟩

/-- The end of the stream. -/
def completeCall (items : List CallItem) (call : CollectedCall) : List CallItem :=
  modifyItem call.id (fun item => { item with arguments := call.arguments, status := .completed })
    items

/-- A whole round. -/
def collectRound (s : Supply) (prior : List String) (chunks : List (List ToolDelta)) : Collected :=
  let acc := chunks.foldl (collectChunk s prior) Collected.empty
  { acc with items := acc.calls.foldl completeCall acc.items }

/-! ## What is sent -/

/-- The first deltas of the indices that are not yet seen. -/
def introduces : List ℤ → List ToolDelta → List ToolDelta
  | _, [] => []
  | seen, d :: ds =>
    if d.index ∈ seen then introduces seen ds else d :: introduces (d.index :: seen) ds

/-- The distinct indices, in order of first appearance. -/
def indices (deltas : List ToolDelta) : List ℤ := (introduces [] deltas).map ToolDelta.index

/-- The last name sent for an index that is not empty. -/
def nameOf (deltas : List ToolDelta) (index : ℤ) : String :=
  (((deltas.filter (·.index = index)).filterMap (·.name)).filter (· ≠ "")).getLastD ""

/-- The argument fragments sent for an index. -/
def argumentsOf (dumps : Json → String) (deltas : List ToolDelta) (index : ℤ) : String :=
  String.join ((deltas.filter (·.index = index)).map fun d => fragmentText dumps d.arguments)

/-- The ids that are given. -/
def givenIds (deltas : List ToolDelta) : List String := deltas.filterMap ToolDelta.givenId

/-- The item of a call. -/
def CollectedCall.item (call : CollectedCall) (status : CallStatus) : CallItem :=
  ⟨call.id, call.name, call.arguments, status⟩

/-- One call and one item for each index, with its name and its arguments, and call ids of
their own. -/
structure OneCallPerIndex (dumps : Json → String) (prior : List String) (deltas : List ToolDelta)
    (acc : Collected) : Prop where
  calls : acc.calls.map (fun call => (call.index, call.name, call.arguments)) =
    (indices deltas).map fun index => (index, nameOf deltas index, argumentsOf dumps deltas index)
  items : acc.items = acc.calls.map (·.item .completed)
  nodup : (acc.calls.map CollectedCall.id).Nodup
  new : ∀ call ∈ acc.calls, call.id ∉ prior

/-- No two indices first appear in one chunk with the same id, unless a call of an earlier round
or of an earlier chunk came with that id. -/
def DistinctInChunks (prior : List String) (chunks : List (List ToolDelta)) : Prop :=
  ∀ before chunk after, chunks = before ++ chunk :: after →
    ((givenIds (introduces (before.flatten.map ToolDelta.index) chunk)).filter fun id =>
      id ∉ prior ++ givenIds (introduces [] before.flatten)).Nodup

/-- The ids that are made are new. -/
structure Supply.Fresh (s : Supply) (prior : List String) (deltas : List ToolDelta) : Prop where
  injective : Function.Injective s.fresh
  prior : ∀ n, s.fresh n ∉ prior
  given : ∀ n, s.fresh n ∉ givenIds deltas

variable {s : Supply} {taken prior : List String} {calls : List CollectedCall} {d : ToolDelta}
  {deltas : List ToolDelta} {made : ℕ}

/-! ## First appearances -/

theorem introduces_congr : ∀ (deltas : List ToolDelta) {seen seen' : List ℤ},
    (∀ index, index ∈ seen ↔ index ∈ seen') → introduces seen deltas = introduces seen' deltas := by
  intro deltas
  induction deltas with
  | nil => exact fun _ => rfl
  | cons d deltas ih =>
      intro seen seen' h
      rw [introduces, introduces]
      by_cases hseen : d.index ∈ seen
      · rw [if_pos hseen, if_pos ((h _).mp hseen), ih h]
      · have hcons : ∀ index, index ∈ d.index :: seen ↔ index ∈ d.index :: seen' := fun index => by
          rw [List.mem_cons, List.mem_cons, h]
        rw [if_neg hseen, if_neg fun hseen' => hseen ((h _).mpr hseen'), ih hcons]

theorem introduces_append : ∀ (deltas more : List ToolDelta) (seen : List ℤ),
    introduces seen (deltas ++ more) =
      introduces seen deltas ++ introduces (seen ++ deltas.map ToolDelta.index) more := by
  intro deltas
  induction deltas with
  | nil =>
      intro more seen
      rw [List.map_nil, List.append_nil]
      rfl
  | cons d deltas ih =>
      intro more seen
      rw [List.cons_append, introduces, introduces]
      by_cases hseen : d.index ∈ seen
      · rw [if_pos hseen, if_pos hseen, ih]
        congr 1
        refine introduces_congr more fun index => ?_
        simp only [List.mem_append, List.map_cons, List.mem_cons]
        constructor
        · rintro (h | h)
          · exact Or.inl h
          · exact Or.inr (Or.inr h)
        · rintro (h | rfl | h)
          · exact Or.inl h
          · exact Or.inl hseen
          · exact Or.inr h
      · rw [if_neg hseen, if_neg hseen, ih, List.cons_append]
        congr 2
        refine introduces_congr more fun index => ?_
        simp only [List.mem_append, List.map_cons, List.mem_cons]
        tauto

theorem introduces_sublist : ∀ (deltas : List ToolDelta) (seen : List ℤ),
    (introduces seen deltas).Sublist deltas := by
  intro deltas
  induction deltas with
  | nil => exact fun _ => List.Sublist.refl _
  | cons d deltas ih =>
      intro seen
      rw [introduces]
      split_ifs
      · exact (ih seen).cons d
      · exact (ih _).cons_cons d

theorem mem_introduces : ∀ (deltas : List ToolDelta) (seen : List ℤ) (index : ℤ),
    index ∈ (introduces seen deltas).map ToolDelta.index ↔
      index ∈ deltas.map ToolDelta.index ∧ index ∉ seen := by
  intro deltas
  induction deltas with
  | nil => simp [introduces]
  | cons d deltas ih =>
      intro seen index
      rw [introduces]
      by_cases hseen : d.index ∈ seen
      · rw [if_pos hseen, ih, List.map_cons, List.mem_cons]
        constructor
        · exact fun h => ⟨Or.inr h.1, h.2⟩
        · rintro ⟨rfl | h, hnot⟩
          · exact absurd hseen hnot
          · exact ⟨h, hnot⟩
      · rw [if_neg hseen, List.map_cons, List.map_cons, List.mem_cons, List.mem_cons,
          ih, List.mem_cons]
        by_cases hd : index = d.index
        · simp [hd, hseen]
        · simp [hd]

theorem mem_indices {index : ℤ} : index ∈ indices deltas ↔ index ∈ deltas.map ToolDelta.index := by
  rw [indices, mem_introduces]
  simp

theorem indices_snoc : indices (deltas ++ [d]) =
    if d.index ∈ indices deltas then indices deltas else indices deltas ++ [d.index] := by
  have hmem : d.index ∈ [] ++ deltas.map ToolDelta.index ↔ d.index ∈ indices deltas := by
    rw [List.nil_append, mem_indices]
  rw [indices, introduces_append, introduces]
  by_cases h : d.index ∈ indices deltas
  · rw [if_pos h, if_pos (hmem.mpr h), introduces, List.append_nil]
    rfl
  · rw [if_neg h, if_neg fun hd => h (hmem.mp hd), introduces, List.map_append]
    rfl

/-! ## Names and arguments -/

theorem nameOf_snoc (index : ℤ) : nameOf (deltas ++ [d]) index =
    if d.index = index then d.rename (nameOf deltas index) else nameOf deltas index := by
  rw [nameOf, List.filter_append, List.filterMap_append, List.filter_append]
  by_cases hd : d.index = index
  · rw [if_pos hd, List.filter_cons_of_pos (by simpa using hd), ToolDelta.rename]
    cases hname : d.name with
    | none => simp [hname, nameOf]
    | some name =>
        by_cases hne : name = ""
        · simp [hname, nameOf, hne]
        · simp [hname, hne]
  · rw [if_neg hd, List.filter_cons_of_neg (by simpa using hd)]
    simp [nameOf]

theorem argumentsOf_snoc (dumps : Json → String) (index : ℤ) :
    argumentsOf dumps (deltas ++ [d]) index =
    argumentsOf dumps deltas index ++ if d.index = index then fragmentText dumps d.arguments
      else "" := by
  rw [argumentsOf, List.filter_append, List.map_append, String.join_append]
  by_cases hd : d.index = index
  · rw [if_pos hd, List.filter_cons_of_pos (by simpa using hd)]
    simp [argumentsOf]
  · rw [if_neg hd, List.filter_cons_of_neg (by simpa using hd)]
    simp [argumentsOf]

/-- Before an index appears nothing is sent for it. -/
theorem sent_of_new (dumps : Json → String) {index : ℤ} (h : index ∉ indices deltas) :
    nameOf deltas index = "" ∧ argumentsOf dumps deltas index = "" := by
  have hnone : deltas.filter (·.index = index) = [] := by
    rw [List.filter_eq_nil_iff]
    intro d hd heq
    exact h (mem_indices.mpr (List.mem_map.mpr ⟨d, hd, of_decide_eq_true heq⟩))
  rw [nameOf, argumentsOf, hnone]
  exact ⟨rfl, rfl⟩

/-- What a call holds: its index, its name and its arguments. -/
def CollectedCall.view (call : CollectedCall) : ℤ × String × String :=
  (call.index, call.name, call.arguments)

/-- What was sent for each index. -/
def sent (dumps : Json → String) (deltas : List ToolDelta) : List (ℤ × String × String) :=
  (indices deltas).map fun index => (index, nameOf deltas index, argumentsOf dumps deltas index)

/-- One more delta. -/
theorem collectDelta_view (taken : List String) (made : ℕ)
    (h : calls.map CollectedCall.view = sent s.dumps deltas) (d : ToolDelta) :
    (collectDelta s taken (calls, made) d).1.map CollectedCall.view =
      sent s.dumps (deltas ++ [d]) := by
  have hindex : calls.map CollectedCall.index = indices deltas := by
    have hfst := congrArg (List.map Prod.fst) h
    rw [sent, List.map_map, List.map_map] at hfst
    exact hfst.trans (List.map_id _)
  have hany : calls.any (·.index = d.index) = true ↔ d.index ∈ indices deltas := by
    rw [← hindex, List.any_eq_true, List.mem_map]
    simp
  have hcall : ∀ call ∈ calls, call.name = nameOf deltas call.index ∧
      call.arguments = argumentsOf s.dumps deltas call.index := by
    intro call hcall
    have hview : call.view ∈ sent s.dumps deltas := h ▸ List.mem_map_of_mem hcall
    obtain ⟨index, -, heq⟩ := List.mem_map.mp hview
    simp only [CollectedCall.view, Prod.mk.injEq] at heq
    obtain ⟨rfl, hname, harguments⟩ := heq
    exact ⟨hname.symm, harguments.symm⟩
  -- a call of another index is untouched
  have hsent : ∀ call ∈ calls, call.index ≠ d.index → call.view =
      (call.index, nameOf (deltas ++ [d]) call.index,
        argumentsOf s.dumps (deltas ++ [d]) call.index) := by
    intro call hmem hne
    obtain ⟨hname, harguments⟩ := hcall call hmem
    rw [nameOf_snoc, argumentsOf_snoc, if_neg hne.symm, if_neg hne.symm, String.append_empty,
      ← hname, ← harguments]
    rfl
  rw [collectDelta, sent, indices_snoc]
  by_cases hd : d.index ∈ indices deltas
  -- a known index: its call grows
  · rw [if_pos (hany.mpr hd), if_pos hd, ← hindex, List.map_map, List.map_map]
    refine List.map_congr_left fun call hmem => ?_
    simp only [Function.comp_apply]
    by_cases heq : call.index = d.index
    · obtain ⟨hname, harguments⟩ := hcall call hmem
      rw [if_pos heq, nameOf_snoc, argumentsOf_snoc, if_pos heq.symm,
        if_pos heq.symm, ← hname, ← harguments]
      rfl
    · rw [if_neg heq, hsent call hmem heq]
  -- a new index: a call is started
  · obtain ⟨hname, harguments⟩ := sent_of_new s.dumps hd
    rw [if_neg fun h => hd (hany.mp h), if_neg hd, List.map_append, ← hindex,
      List.map_append, List.map_map]
    congr 1
    · refine List.map_congr_left fun call hmem => hsent call hmem fun heq => hd ?_
      rw [← hindex, ← heq]
      exact List.mem_map_of_mem hmem
    · rw [List.map_singleton, List.map_singleton, nameOf_snoc, argumentsOf_snoc, if_pos rfl,
        if_pos rfl, hname, harguments, String.empty_append, CollectedCall.view, ToolDelta.rename]
      cases d.name with
      | none => rfl
      | some name =>
          by_cases hne : name = ""
          · simp [hne]
          · simp [hne]

/-- More deltas are collected as they are sent. -/
theorem foldl_collectDelta_view (taken : List String) (more : List ToolDelta) :
    ∀ {deltas : List ToolDelta} (acc : List CollectedCall × ℕ), acc.1.map CollectedCall.view =
      sent s.dumps deltas →
    (more.foldl (collectDelta s taken) acc).1.map CollectedCall.view =
      sent s.dumps (deltas ++ more) := by
  induction more with
  | nil =>
      intro deltas acc h
      rw [List.append_nil]
      exact h
  | cons d more ih =>
      intro deltas acc h
      have hnext := ih _ (collectDelta_view taken acc.2 h d)
      rwa [List.append_assoc] at hnext

end OpenWebUI.Streaming
