import OpenWebUI.Chat.Usage

/-! # Message rows

The normalised copy of a chat's messages: the `chat_message` table of
`backend/open_webui/models/chat_messages.py`. A column holds the JSON value of the
attribute, `null` for `None`. `ChatMessageModel.model_validate` belongs to pydantic;
whether it accepts a row is a parameter.
-/

namespace OpenWebUI.Chat

open Py

/-- A row of `chat_message`. -/
structure ChatMessage where
  id : String
  chatId : String
  userId : Json
  role : Json
  parentId : Json
  content : Json
  output : Json
  modelId : Json
  files : Json
  sources : Json
  embeds : Json
  metadata : Json
  done : Json
  statusHistory : Json
  error : Json
  usage : Json
  contextSummary : Json
  createdAt : Json
  updatedAt : Json

/-- `data.get(a) or data.get(b)`: the two spellings of a field. -/
def eitherKey (data : Message) (a b : String) : Json := (data.get a).or (data.get b)

/-- `f'{chat_id}-{message_id}'`. -/
def compositeId (chatId messageId : String) : String := chatId ++ "-" ++ messageId

/-- The usage of a row as a dictionary; anything else raises in `normalize_usage`. -/
def rowUsage : Json → Option Obj
  | .null => some []
  | .obj o => some o
  | _ => none

/-- The usage stored by an update: unchanged when the payload has none or an equal one,
else accumulated. -/
def applyUsage (rowValue : Json) (data : Message) : Option Json := do
  match ← getUsage data with
  | none => return rowValue
  | some usage =>
    if usage = [] then return rowValue
    let existing ← normalizeUsage (← rowUsage rowValue)
    if Json.pyEq (.obj usage) (.obj existing) then return .obj existing
    else return .obj (← mergeUsage existing usage)

/-- `_apply_message_data`: overwrites only the fields the payload carries. -/
def applyMessageData (m : ChatMessage) (data : Message) (now : ℚ) : Option ChatMessage := do
  let has := Assoc.has data
  return { m with
    role := if has "role" then data.get "role" else m.role
    parentId := if has "parent_id" || has "parentId" then eitherKey data "parent_id" "parentId"
      else m.parentId
    content := if has "content" then data.get "content" else m.content
    output := if has "output" then data.get "output" else m.output
    modelId := if has "model_id" || has "model" then eitherKey data "model_id" "model"
      else m.modelId
    files := if has "files" then data.get "files" else m.files
    sources := if has "sources" then data.get "sources" else m.sources
    embeds := if has "embeds" then data.get "embeds" else m.embeds
    metadata := if has "meta" then data.get "meta" else m.metadata
    done := if has "done" then data.get "done" else m.done
    statusHistory := if has "status_history" || has "statusHistory" then
      eitherKey data "status_history" "statusHistory" else m.statusHistory
    error := if has "error" then data.get "error" else m.error
    contextSummary := if has "context_summary" || has "contextSummary" then
      eitherKey data "context_summary" "contextSummary" else m.contextSummary
    usage := ← applyUsage m.usage data
    updatedAt := .num now }

/-- `_build_message`. -/
def buildMessage (id chatId : String) (userId : Json) (data : Message) (now : ℚ) :
    Option ChatMessage := do
  return {
    id, chatId, userId
    role := data.getD "role" (.str "user")
    parentId := eitherKey data "parent_id" "parentId"
    content := data.get "content"
    output := data.get "output"
    modelId := eitherKey data "model_id" "model"
    files := data.get "files"
    sources := data.get "sources"
    embeds := data.get "embeds"
    metadata := data.get "meta"
    done := data.getD "done" (.bool true)
    statusHistory := eitherKey data "status_history" "statusHistory"
    error := data.get "error"
    usage := ((← getUsage data).map Json.obj).getD .null
    contextSummary := eitherKey data "context_summary" "contextSummary"
    createdAt := (data.get "timestamp").or (.num now)
    updatedAt := .num now }

/-- The table, by primary key. -/
abbrev Rows := Dict String ChatMessage

/-- `upsert_message`; `none` when a step raises. -/
def upsertMessage (validates : ChatMessage → Bool) (rows : Rows) (messageId chatId : String)
    (userId : Json) (data : Message) (now : ℚ) : Option Rows := do
  let key := compositeId chatId messageId
  let row ← match rows.get? key with
    | some row => applyMessageData row data now
    | none => buildMessage key chatId userId data now
  if validates row then return rows.set key row else none

/-! ## Reading rows back -/

/-- `id[len(pre):] if id.startswith(pre) else id`. -/
def stripId (pre id : String) : String :=
  if pre.toList.isPrefixOf id.toList then String.ofList (id.toList.drop pre.toList.length) else id

/-- The columns of a row under their JSON keys, in table order, the excluded ones left out. -/
def rowFields (r : ChatMessage) : Obj :=
  [("user_id", r.userId), ("role", r.role), ("parentId", r.parentId), ("content", r.content),
    ("output", r.output), ("model", r.modelId), ("files", r.files), ("sources", r.sources),
    ("embeds", r.embeds), ("meta", r.metadata), ("done", r.done),
    ("statusHistory", r.statusHistory), ("error", r.error), ("usage", r.usage),
    ("contextSummary", r.contextSummary), ("timestamp", r.createdAt)]

/-- The message dictionary of one row. -/
def messageOfRow (messageId : String) (r : ChatMessage) : Message :=
  let msg : Message := ("id", .str messageId) :: (rowFields r).filter fun p => p.2 ≠ .null
  let msg := if Assoc.has msg "content" then msg else Assoc.set msg "content" (.str "")
  if Assoc.has msg "usage" then Assoc.set msg "info" (.obj [("usage", msg.get "usage")]) else msg

/-- One turn of the loop that rebuilds `childrenIds`; a falsy parent id is skipped. -/
def linkRow (ms : Messages) (entry : String × Message) : Messages :=
  let parentId := entry.2.get "parentId"
  match (if parentId.truthy then ms.stored parentId else none) with
  | none => ms
  | some p => ms.modify p fun m =>
      if .str entry.1 ∈ childrenIds m then m
      else Assoc.set m "childrenIds" (.arr (childrenIds m ++ [.str entry.1]))

/-- The rows of one chat, in table order. -/
def chatRows (rows : Rows) (chatId : String) : List ChatMessage :=
  (rows.entries.map Prod.snd).filter fun r => r.chatId = chatId

/-- `ChatMessages.get_messages_map_by_chat_id`. -/
def rowMessagesMap (rows : Rows) (chatId : String) : Option Messages :=
  let selected := chatRows rows chatId
  if selected = [] then none
  else
    let ms : Messages := Dict.ofList (selected.map fun r =>
      let id := stripId (chatId ++ "-") r.id
      (id, messageOfRow id r))
    let ms := ms.entries.foldl linkRow ms
    some (ms.mapVal fun _ m =>
      if Assoc.has m "childrenIds" then m else Assoc.set m "childrenIds" (.arr []))

end OpenWebUI.Chat
