import OpenWebUI.Lib.Json

/-! # Chat history

The tree a chat keeps in `chat.chat['history']`: a message map in insertion
order, linked upwards by `parentId` and downwards by `childrenIds`, with the
leaf shown to the user in `currentId`. The functions are those of
`backend/open_webui/models/chats.py`.

A message is the decoded JSON object itself; the links are read from it the way
the source reads them. Python raises on an unhashable id in `id in messages`;
here such an id is not stored.
-/

namespace OpenWebUI.Chat

open Py

/-- One message of the history. -/
abbrev Message := Obj

/-- The message map of a history. -/
abbrev Messages := Dict String Message

/-- `chat.chat['history']`. -/
structure History where
  messages : Messages
  currentId : Option String
deriving DecidableEq

/-- A history as a client posts it: a map value need not be an object. -/
structure RawHistory where
  messages : Dict String Json
  currentId : Option String

/-- A stored history read as an input of `merge_history`. -/
def History.raw (h : History) : RawHistory :=
  ⟨h.messages.mapVal fun _ m => .obj m, h.currentId⟩

/-! ## Reading the links -/

/-- `message.get('childrenIds') or []`. -/
def childrenIds (m : Message) : List Json := (m.get "childrenIds").asArr.getD []

/-- `messages.get(id)` for an id read from JSON. -/
def Messages.at (messages : Messages) (id : Json) : Option Message :=
  id.asStr.bind messages.get?

/-- The text of `id` when `id in messages`. -/
def Messages.stored (messages : Messages) (id : Json) : Option String :=
  id.asStr.filter fun s => s ∈ messages

/-- The stored parent of a stored message. -/
def Messages.parentOf (messages : Messages) (id : String) : Option String :=
  (messages.get? id).bind fun m => messages.stored (m.get "parentId")

/-! ## `_add_child_id_to_parent` -/

/-- Whether the id was added, with the edited map. A falsy parent id, `''`
included, names no parent. -/
def addChildIdToParent (messages : Messages) (parentId : Json) (childId : String) :
    Messages × Bool :=
  match (if parentId.truthy then messages.stored parentId else none) with
  | none => (messages, false)
  | some p =>
    let childIds := ((messages.get? p).map childrenIds).getD []
    if .str childId ∈ childIds then (messages, false)
    else (messages.modify p fun m => Assoc.set m "childrenIds" (.arr (childIds ++ [.str childId])),
      true)

/-! ## `merge_history` -/

/-- `merged[parent_id]['childrenIds'].append(message_id)`. -/
def appendChild (m : Message) (id : String) : Message :=
  Assoc.set m "childrenIds" (.arr (childrenIds m ++ [.str id]))

/-- One turn of the relinking loop. -/
def linkChild (merged : Messages) (entry : String × Message) : Messages :=
  match merged.stored (entry.2.get "parentId") with
  | none => merged
  | some p => merged.modify p fun m => appendChild m entry.1

/-- `{**existing, **incoming}`, non-objects dropped. -/
def unionMessages (existing incoming : Option RawHistory) : Messages :=
  (((existing.map RawHistory.messages).getD ∅).update
    ((incoming.map RawHistory.messages).getD ∅)).filterMapVal Json.asObj

def mergeHistory (existing incoming : Option RawHistory) : History :=
  let merged := (unionMessages existing incoming).mapVal fun _ m =>
    Assoc.set m "childrenIds" (.arr [])
  let merged := merged.entries.foldl linkChild merged
  let currentId := (incoming.bind RawHistory.currentId).filter fun c => c ∈ merged
  let currentId := currentId.or ((existing.bind RawHistory.currentId).filter fun c => c ∈ merged)
  ⟨merged, currentId⟩

/-! ## `delete_message_from_history` -/

/-- `messages.get(id, {}).get('childrenIds', [])`. -/
def Messages.childrenAt (messages : Messages) (id : Json) : List Json :=
  ((messages.at id).map childrenIds).getD []

/-- The descent to the last leaf: `while child_ids and child_ids[-1] not in visited_ids`. -/
def descend (messages : Messages) : Nat → Json → List Json → List Json → Json
  | 0, currentId, _, _ => currentId
  | fuel + 1, currentId, childIds, visited =>
    match childIds.getLast? with
    | none => currentId
    | some last =>
      if last ∈ visited then currentId
      else descend messages fuel last (messages.childrenAt last) (last :: visited)

/-- Every id the descent can meet after its first step. -/
def Messages.allChildren (messages : Messages) : List Json :=
  messages.entries.flatMap fun e => childrenIds e.2

/-- The current id after a deletion below `parentId`. The fuel exceeds the number of
different ids the loop can visit. -/
def currentAfterDelete (messages : Messages) (parentId : Json) : Option String :=
  let childIds := if parentId = .null
    then (messages.entries.filter fun e => e.2.get "parentId" = .null).map fun e => .str e.1
    else messages.childrenAt parentId
  messages.stored (descend messages (childIds.length + messages.allChildren.length + 1)
    parentId childIds [])

/-- The edited history and the deleted ids. -/
def deleteMessageFromHistory (h : History) (messageId : String) : History × List String :=
  match h.messages.get? messageId with
  | none => (h, [])
  | some message =>
    let parentId := message.get "parentId"
    let childIds := (childrenIds message).filterMap h.messages.stored
    let grandchildIds := childIds.flatMap fun c =>
      (h.messages.childrenAt (.str c)).filterMap h.messages.stored
    let messages := match h.messages.stored parentId with
      | none => h.messages
      | some p => h.messages.modify p fun m => Assoc.set m "childrenIds"
          (.arr ((childrenIds m).filter (· ≠ .str messageId) ++ grandchildIds.map .str))
    let messages := grandchildIds.foldl
      (fun ms g => ms.modify g fun m => Assoc.set m "parentId" parentId) messages
    let deletedIds := messageId :: childIds
    let messages := deletedIds.foldl Dict.erase messages
    (⟨messages, currentAfterDelete messages parentId⟩, deletedIds)

/-! ## `upsert_message_to_history` -/

/-- The payload with its `meta` completed from the stored message: voice updates keep
the rest, other updates keep the voice entries. -/
def keepMeta (stored message : Message) : Message :=
  let existingMeta := (stored.get "meta").asObj.getD []
  match (message.get "meta").asObj with
  | none => message
  | some incomingMeta =>
    if ∀ k ∈ Assoc.keys incomingMeta, k = "voice" ∨ k = "task_id" then
      Assoc.set message "meta" (.obj (Assoc.update existingMeta incomingMeta))
    else
      let voice := ["voice", "task_id"].filterMap fun k => (existingMeta.lookup k).map (k, ·)
      Assoc.set message "meta" (.obj (Assoc.update voice incomingMeta))

/-- `next((item.get('role') for item in output if ...), None)`. -/
def outputRole (output : Json) : Json :=
  ((output.asArr.getD []).findSome? fun item => item.asObj.bind fun o =>
    if (o.get "role").truthy then some (o.get "role") else none).getD .null

/-- The parent of a new message: its own `parentId`, or else the first stored message
that already lists it as a child. -/
def parentOfNew (messages : Messages) (messageId : String) (message : Message) : Json :=
  if message.get "parentId" = .null then
    ((messages.entries.find? fun e => .str messageId ∈ childrenIds e.2).map fun e =>
      Json.str e.1).getD .null
  else message.get "parentId"

/-- The role of a new message, guessed from its parent when neither it nor its output
has one. -/
def roleOfNew (messages : Messages) (parentId : Json) (message : Message) : Json :=
  let role := (message.get "role").or (outputRole ((message.get "output").or (.arr [])))
  if role.truthy then role
  else
    let parent := if parentId.truthy then messages.at parentId else none
    let parentRole : Json := (parent.map fun p => p.get "role").getD .null
    if parentRole = .str "user" then .str "assistant"
    else if parentRole = .str "assistant" then .str "user"
    else .str "assistant"

/-- The message stored for a new id. -/
def newMessage (messages : Messages) (messageId : String) (message : Message) (now : ℚ) : Message :=
  let parentId := parentOfNew messages messageId message
  Assoc.update message
    [("id", (message.get "id").or (.str messageId)),
     ("parentId", parentId),
     ("childrenIds", .arr (childrenIds message)),
     ("role", roleOfNew messages parentId message),
     ("timestamp", (message.get "timestamp").or (.num now))]

def upsertMessageToHistory (h : History) (messageId : String) (message : Message) (now : ℚ) :
    History :=
  let h' : History := match h.messages.get? messageId with
    | some stored =>
      ⟨h.messages.set messageId (Assoc.update stored (keepMeta stored message)), h.currentId⟩
    | none =>
      ⟨h.messages.set messageId (newMessage h.messages messageId message now), some messageId⟩
  let parentId := ((h'.messages.get? messageId).map fun m => m.get "parentId").getD .null
  ⟨(addChildIdToParent h'.messages parentId messageId).1, h'.currentId⟩

end OpenWebUI.Chat
