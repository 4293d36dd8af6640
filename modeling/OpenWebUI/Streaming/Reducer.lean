import OpenWebUI.Lib.Json
import OpenWebUI.Lib.Slots

/-! # The delta reducer

`backend/open_webui/utils/response.py`: `handle_responses_streaming_event` on the events whose
type is `response.….delta`. An event changes one item, which is added if it is missing, and of
this item one field. A step that raises is `none`.
-/

namespace OpenWebUI.Streaming

open Py

/-- A `.delta` event; the indices are absent or integers. -/
structure DeltaEvent where
  type : String
  itemId : Json
  outputIndex : Option ℤ
  contentIndex : Option ℤ
  summaryIndex : Option ℤ
  delta : Json
deriving DecidableEq

/-- `get_response_delta_key`. -/
def getResponseDeltaKey (e : DeltaEvent) :
    Option (String × Json × Option ℤ × Option ℤ × Option ℤ) :=
  if "response.".toList <+: e.type.toList ∧ ".delta".toList <:+ e.type.toList then
    some (e.type, e.itemId, e.outputIndex, e.contentIndex, e.summaryIndex)
  else none

/-- `event_type.split('.')[1]`, where there are three parts. -/
def DeltaEvent.deltaType (e : DeltaEvent) : Option String :=
  match e.type.toList.splitOn '.' with
  | _ :: name :: _ :: _ => some (String.ofList name)
  | _ => none

/-! ## Merging -/

mutual

def deepMerge : Json → Json → Json
  | .obj target, .obj source => .obj (mergeMembers target source)
  | .str target, .str source => .str (target ++ source)
  | _, source => source

def mergeMembers (target : Obj) : Obj → Obj
  | [] => target
  | (k, v) :: source => mergeMembers (Assoc.set target k (match target.lookup k with
      | some old => deepMerge old v
      | none => v)) source

end

/-- `list(value)`. -/
def listOf : Json → Option (List Json)
  | .arr xs => some xs
  | .str s => some (s.toList.map fun c => .str (String.singleton c))
  | .obj members => some (members.map fun p => .str p.1)
  | _ => none

/-- `{} if isinstance(delta, dict) else ''`, where there is no value. -/
def currentVal (delta : Json) : Option Json → Json
  | none => if delta.asObj.isSome then .obj [] else .str ""
  | some .null => if delta.asObj.isSome then .obj [] else .str ""
  | some v => v

/-- Merge a delta into a field of a part. -/
def mergePart (key : String) (initial : Option Json → Json) (delta part : Json) : Option Json :=
  match part with
  | .obj members => some (.obj
      (Assoc.set members key (deepMerge (initial (members.lookup key)) delta)))
  | _ => none

/-- Change the part at an index, filling in parts; a negative index counts from the end. -/
def writePart (default : Json) (index : ℤ) (f : Json → Option Json) (parts : List Json) :
    Option (List Json) :=
  if 0 ≤ index then Slots.updatePadded default index.toNat f parts
  else if 0 ≤ index + parts.length then Slots.updateAt (index + parts.length).toNat f parts
  else none

/-! ## One item -/

/-- The members of an item, by their names. -/
abbrev Fields := String → Option Json

def textPart : Json := .obj [("type", .str "text"), ("text", .str "")]

def summaryPart : Json := .obj [("type", .str "summary_text"), ("text", .str "")]

/-- The parts in a field, none where it is absent. -/
def partsOf (field : String) (get : Fields) : Option (List Json) :=
    (get field).elim (some []) listOf

/-- A change of one part, as the new value of the field that holds the parts. -/
def writeParts (field : String) (default : Json) (index : ℤ) (f : Json → Option Json)
    (get : Fields) : Option (Option (String × Json)) :=
  (partsOf field get).bind fun parts =>
    (writePart default index f parts).map fun parts => some (field, .arr parts)

/-- `text` for the text deltas, else the delta type itself. -/
def keyOf (deltaType : String) : String :=
  if deltaType ∈ ["text", "output_text"] then "text" else deltaType

/-- The field of its item that an event writes, with the new value. -/
def fieldWrite (pyStr : Json → String) (deltaType : String) (e : DeltaEvent) (get : Fields) :
    Option (Option (String × Json)) :=
  let itemType := (get "type").getD (.str "")
  if deltaType = "function_call_arguments" then
    if itemType = .str "function_call" then
      match (get "arguments").getD (.str ""), e.delta with
      | .str arguments, .str delta => some (some ("arguments", .str (arguments ++ delta)))
      | .str arguments, delta => some (some ("arguments", .str (arguments ++ pyStr delta)))
      | _, _ => none
    else some none
  else if itemType = .str "message" then
    -- reasoning goes to reasoning items
    if deltaType ∈ ["reasoning_text", "reasoning_summary_text"] then some none
    else writeParts "content" textPart (e.contentIndex.getD 0)
      (mergePart (keyOf deltaType) (currentVal e.delta) e.delta) get
  else if itemType = .str "reasoning" then
    if deltaType = "reasoning_summary_text" then
      writeParts "summary" summaryPart (e.summaryIndex.getD 0)
        (mergePart "text" (·.getD (.str "")) e.delta) get
    else if deltaType = "reasoning_text" then
      writeParts "content" textPart (e.contentIndex.getD 0)
        (mergePart "text" (·.getD (.str "")) e.delta) get
    else some none
  else
    some (some (keyOf deltaType,
      deepMerge (currentVal e.delta (get (keyOf deltaType))) e.delta))

/-- The members once a field is written. -/
def applyWrite (write : Option (String × Json)) (members : Obj) : Obj :=
  match write with
  | some (field, v) => Assoc.set members field v
  | none => members

def applyToItem (pyStr : Json → String) (deltaType : String) (e : DeltaEvent) (item : Json) :
    Option Json :=
  match item with
  | .obj members => (fieldWrite pyStr deltaType e fun k => members.lookup k).map fun write =>
      .obj (applyWrite write members)
  | _ => none

/-! ## The output -/

def placeholder : Json := .obj [("type", .str "message"), ("status", .str "in_progress"),
  ("role", .str "assistant"), ("content", .arr [])]

/-- The item that a delta starts. -/
def startedItem (deltaType : String) (itemId : Json) : Json :=
  let type := if "reasoning".toList <+: deltaType.toList then "reasoning"
    else if deltaType = "function_call_arguments" then "function_call" else "message"
  .obj [("type", .str type), ("status", .str "in_progress"), ("role", .str "assistant"),
    ("content", .arr []), ("id", itemId)]

def itemIndex (output : List Json) (e : DeltaEvent) : ℤ :=
  e.outputIndex.getD (max ((output.length : ℤ) - 1) 0)

/-- The output with the item of the event. -/
def addMissing (deltaType : String) (e : DeltaEvent) (output : List Json) : List Json :=
  let index := itemIndex output e
  if output.length ≤ index then
    output ++ List.replicate (index - output.length).toNat placeholder ++
      [startedItem deltaType e.itemId]
  else output

def handleDelta (pyStr : Json → String) (output : List Json) (e : DeltaEvent) :
    Option (List Json) :=
  match e.deltaType with
  | none => some output
  | some deltaType =>
    let index := itemIndex output e
    let output := addMissing deltaType e output
    if 0 ≤ index ∧ index < output.length then
      Slots.updateAt index.toNat (applyToItem pyStr deltaType e) output
    else some output

/-- Events one after the other. -/
def handleDeltas (pyStr : Json → String) (output : List Json) (events : List DeltaEvent) :
    Option (List Json) :=
  events.foldlM (handleDelta pyStr) output

/-! ## Fields -/

section Fields

variable {pyStr : Json → String} {deltaType : String} {e : DeltaEvent} {get : Fields}

/-- The fields once one of them is written. -/
def Fields.after (get : Fields) (write : Option (String × Json)) : Fields :=
  match write with
  | some (field, v) => fun k => if k = field then some v else get k
  | none => get

theorem lookup_applyWrite (write : Option (String × Json)) (members : Obj) :
    (fun k => (applyWrite write members).lookup k) =
      Fields.after (fun k => members.lookup k) write := by
  cases write with
  | none => rfl
  | some w =>
      funext k
      exact Assoc.lookup_set members w.1 k w.2

theorem after_after (get : Fields) (field : String) (v v' : Json) :
    (get.after (some (field, v))).after (some (field, v')) = get.after (some (field, v')) := by
  funext k
  simp only [Fields.after]
  split_ifs <;> rfl

/-- Writes of two fields may be swapped. -/
theorem after_comm (get : Fields) {field field' : String} (hne : field ≠ field') (v v' : Json) :
    (get.after (some (field, v))).after (some (field', v')) =
      (get.after (some (field', v'))).after (some (field, v)) := by
  funext k
  simp only [Fields.after]
  by_cases hk : k = field
  · rw [if_pos hk, if_pos hk, if_neg fun hk' => hne (hk.symm.trans hk')]
  · rw [if_neg hk, if_neg hk]

theorem partsOf_after (get : Fields) (field : String) (parts : List Json) :
    partsOf field (get.after (some (field, .arr parts))) = some parts := by
  simp [partsOf, Fields.after, listOf]

theorem partsOf_after_ne (get : Fields) {field field' : String} (hne : field ≠ field') (v : Json) :
    partsOf field (get.after (some (field', v))) = partsOf field get := by
  simp [partsOf, Fields.after, hne]

/-! ## Parts -/

/-- Two writes of one part are one. -/
theorem writePart_writePart {default : Json} {index : ℤ} {f g : Json → Option Json}
    {parts : List Json} : (writePart default index f parts).bind (writePart default index g) =
      writePart default index (fun part => (f part).bind g) parts := by
  by_cases hindex : 0 ≤ index
  · have hpos : ∀ h ps, writePart default index h ps =
        Slots.updatePadded default index.toNat h ps := fun h ps => if_pos hindex
    have hfun : writePart default index g = Slots.updatePadded default index.toNat g :=
      funext fun ps => hpos g ps
    rw [hpos, hpos, hfun, Slots.updatePadded_updatePadded]
  · by_cases hparts : 0 ≤ index + parts.length
    · have hneg : ∀ h ps, ps.length = parts.length → writePart default index h ps =
          Slots.updateAt (index + parts.length).toNat h ps := by
        intro h ps hlength
        rw [writePart, if_neg hindex, hlength, if_pos hparts]
      rw [hneg f parts rfl, hneg _ parts rfl, ← Slots.updateAt_updateAt]
      refine Option.bind_congr fun ps hps => ?_
      exact hneg g ps (Slots.length_updateAt hps)
    · rw [writePart, writePart, if_neg hindex, if_neg hparts, if_neg hindex, if_neg hparts]
      rfl

/-- Writes of two parts may be swapped. -/
theorem writePart_comm {default : Json} {i j : ℤ} (hi : 0 ≤ i) (hj : 0 ≤ j) (hne : i ≠ j)
    {f g : Json → Option Json} {parts : List Json} :
    (writePart default i f parts).bind (writePart default j g) =
      (writePart default j g parts).bind (writePart default i f) := by
  have hpos : ∀ {k : ℤ}, 0 ≤ k → ∀ h, writePart default k h =
      Slots.updatePadded default k.toNat h := by
    intro k hk h
    funext ps
    exact if_pos hk
  rw [hpos hi, hpos hj]
  exact Slots.updatePadded_comm (by omega)

end Fields

end OpenWebUI.Streaming
