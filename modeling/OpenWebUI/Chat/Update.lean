import OpenWebUI.Chat.ReadBack
import OpenWebUI.Chat.Save

/-! # Patching a chat

`ChatTable.update_chat_by_id` merges a posted chat into the stored one, keeps the
messages that are not the caller's to change, and writes every changed message to its
row. The main result compares the two stores afterwards, field by field.
-/

namespace OpenWebUI.Chat

open Py

/-- The chat a client posts: its `history` key, when there is one, and the other keys. The
inner `none` is a history that is no dictionary. -/
structure ChatPatch where
  history : Option (Option RawHistory)
  rest : Obj

/-- `stored.get('history', {}).get('messages') or {}`. -/
def ChatItem.storedHistory (item : ChatItem) : Option RawHistory :=
    item.chat.history.map History.raw

/-- A stored message the caller may not replace: another user's, or an assistant message
still being written on either side. `none` when the merge lost the message. -/
def isProtected (userId : String) (merged : Messages) (mid : String) (message : Message) :
    Option Bool :=
  if (message.get "user_id").or (.str userId) ≠ .str userId then some true
  else if message.get "role" = .str "assistant" then
    if message.get "done" = .bool false then some true
    else (merged.get? mid).map fun m => m.get "done" = .bool false
  else some false

/-- The loop that puts protected messages back. -/
def protectMessages (userId : String) (stored merged : Messages) : Option Messages :=
  stored.entries.foldlM (fun ms e => (isProtected userId ms e.1 e.2).map fun keep =>
    if keep then ms.set e.1 e.2 else ms) merged

/-- The merged history, before cleaning. -/
def mergedHistory (item : ChatItem) (incoming : RawHistory) : Option History :=
  let merged := mergeHistory item.storedHistory (some incoming)
  (protectMessages item.userId item.messages merged.messages).map fun ms =>
    mergeHistory (some (History.raw ⟨ms, merged.currentId⟩)) none

/-- `_clean_null_bytes` of a history. -/
def cleanHistory (h : History) : History :=
  ⟨Dict.ofList (h.messages.entries.map fun e => (sanitizeText e.1, cleanMessage e.2)),
    h.currentId.map sanitizeText⟩

/-- `any(key in chat for key in ('history', 'messages', 'currentId', 'branchPointMessageId'))`. -/
def ChatPatch.movesCurrent (patch : ChatPatch) : Bool :=
  patch.history.isSome || ["messages", "currentId", "branchPointMessageId"].any
    (Assoc.has patch.rest)

/-- The chat row around the patched body. -/
def ChatItem.patched (item : ChatItem) (patch : ChatPatch) (chat : ChatBody)
    (touch : Bool) (now : ℚ) :
    ChatItem :=
  { item with
    chat
    title := chat.rest.getD "title" (.str "New Chat")
    currentMessageId := if patch.movesCurrent then getCurrentMessageId chat
      else item.currentMessageId
    updatedAt := if touch then now else item.updatedAt }

/-- One turn of the loop over the incoming ids: a message with a role that differs from
the stored one is written to its row. -/
def writeChanged (b : Backend) (userId chatId : String) (stored updated : Messages) (now : ℚ)
    (rows : Rows) (mid : String) : Option Rows :=
  match updated.get? mid with
  | none => some rows
  | some message =>
    let unchanged := match stored.get? mid with
      | none => false
      | some old => Json.pyEq (.obj message) (.obj old)
    if (message.get "role").truthy && !unchanged then
      upsertMessage b.validRow rows mid chatId
        ((message.get "user_id").or (.str userId)) message now
    else some rows

/-- The ids of the incoming history. -/
def ChatPatch.ids (patch : ChatPatch) : List String :=
  match patch.history with
  | some (some h) => h.messages.keys
  | _ => []

/-- `updated['history']`, cleaned. -/
def ChatItem.updatedHistory (item : ChatItem) (patch : ChatPatch) : Option (Option History) :=
  (match patch.history with
    | none => some item.chat.history
    | some none => none
    | some (some incoming) => (mergedHistory item incoming).map some).map (Option.map cleanHistory)

/-- The edit of `update_chat_by_id`, at one reading of the clock; `none` when a step raises. -/
def updateChat? (b : Backend) (chatId : String) (patch : ChatPatch) (touch : Bool) (now : ℚ)
    (store : Store) : Option Store :=
  match store.chat with
  | none => some store
  | some item => do
    let history ← item.updatedHistory patch
    let updated := (history.map History.messages).getD ∅
    let chat : ChatBody := ⟨history, cleanMessage (Assoc.update item.chat.rest patch.rest)⟩
    let rows ← patch.ids.foldlM
      (writeChanged b item.userId chatId item.messages updated now) store.rows
    let item := item.patched patch chat touch now
    if b.validChat item then some ⟨some item, rows⟩ else none

/-- `update_chat_by_id`: a raised exception leaves the store as it was. -/
def updateChat (b : Backend) (chatId : String) (patch : ChatPatch) (touch : Bool) (now : ℚ)
    (store : Store) : Store :=
  (updateChat? b chatId patch touch now store).getD store

end OpenWebUI.Chat
