import OpenWebUI.Lib.Dict
import OpenWebUI.Lib.Text
import Mathlib.Data.List.Sort
import Mathlib.Logic.Function.Basic

/-! # Timers

`backend/open_webui/utils/timers.py`. A timer is an internal chat whose `meta` holds its
status; the column `timer_at` is set only while it waits to be claimed. Ids drawn with
`uuid4` are numbered in the order they are drawn.
-/

namespace OpenWebUI.Timers

open Py

abbrev TimerId := ℕ
abbrev ClaimId := ℕ

inductive Status where
  | pending
  | running
  | completed
  | cancelled
  | error
deriving DecidableEq, Repr

/-- `chat.read` and `chat.user_message`. -/
inductive CancelEvent where
  | chatRead
  | chatUserMessage
deriving DecidableEq, Repr

def CancelEvent.ofName (name : String) : Option CancelEvent :=
  if name = "chat.read" then some .chatRead
  else if name = "chat.user_message" then some .chatUserMessage
  else none

/-! ## The parent chat -/

/-- A stored id, or one of the two ids an execution draws for its turn. -/
inductive MessageId where
  | stored (id : String)
  | userTurn (claim : ClaimId)
  | assistantTurn (claim : ClaimId)
deriving DecidableEq, Repr

inductive MessageRole where
  | user
  | assistant
  | other (name : String)
deriving DecidableEq, Repr

/-- The fields of a message that a timer reads or writes; `timerId` is `meta.timer_id`. -/
structure Message where
  id : MessageId
  parentId : Option MessageId
  childrenIds : List MessageId
  role : MessageRole
  content : String
  done : Option Bool
  model : Option String
  timerId : Option TimerId
  timestamp : ℤ
deriving DecidableEq, Repr

structure ParentChat where
  messages : Dict MessageId Message
  currentId : Option MessageId

/-- `max(messages, key=timestamp)`: the first of the latest. -/
def latest (messages : List Message) : Option Message :=
  messages.foldl (fun best m =>
    match best with
    | none => some m
    | some b => if b.timestamp < m.timestamp then some m else some b) none

def doneAssistants (chat : ParentChat) : List Message :=
  (chat.messages.entries.map Prod.snd).filter fun m => m.role = .assistant ∧ m.done ≠ some false

/-- The number of turns of a timer in a chat. -/
def turnsOf (chat : ParentChat) (t : TimerId) : ℕ :=
  chat.messages.entries.countP fun e => e.2.timerId = some t

/-! ## Rows -/

/-- The meta of a timer chat, less what only the completion request reads. -/
structure Meta where
  parentChatId : String
  parentMessageId : Option MessageId
  timerAt : ℤ
  status : Status
  timerModelId : String
  cancelOn : List CancelEvent
  runModelId : String
  timerClaimId : Option ClaimId
  timerStartedAt : Option ℤ
  timerCancelledAt : Option ℤ
  timerCancelledBy : Option CancelEvent
  timerCompletedAt : Option ℤ
  timerError : Option String
deriving DecidableEq, Repr

structure Row where
  userId : String
  info : Meta
  timerAt : Option ℤ
deriving DecidableEq, Repr

/-- The arguments of `create_timer`; `dueAt` is what `parse_timer_at` answers. -/
structure TimerRequest where
  prompt : String
  dueAt : Except String ℤ
  cancelOn : List String
  userId : String
  modelId : String
  direct : Bool
  parentChatId : String
  parentMessageId : Option MessageId

def createTimer (r : TimerRequest) : Except String Row :=
  if strip r.prompt = "" then .error "Error: prompt must not be empty."
  else if r.parentChatId = "" ∨ r.userId = "" then
    .error "Error: chat and user context are required."
  else
    match r.dueAt with
    | .error exc => .error ("Error: " ++ exc)
    | .ok dueAt =>
      match r.cancelOn.mapM CancelEvent.ofName with
      | none => .error "Error: cancel_on accepts only chat.read and chat.user_message."
      | some events =>
        if r.modelId = "" then .error "Error: model context is required."
        else if r.direct then .error "Error: timers are unavailable for direct connections."
        else .ok
          { userId := r.userId
            info :=
              { parentChatId := r.parentChatId, parentMessageId := r.parentMessageId,
                timerAt := dueAt, status := .pending, timerModelId := r.modelId,
                cancelOn := events.eraseDups, runModelId := r.modelId,
                timerClaimId := none, timerStartedAt := none, timerCancelledAt := none,
                timerCancelledBy := none, timerCompletedAt := none, timerError := none }
            timerAt := some dueAt }

/-! ## Claiming and cancelling -/

def Row.due (row : Row) (now : ℤ) : Prop :=
  row.info.status = .pending ∧ ∃ at' ∈ row.timerAt, at' ≤ now

instance (row : Row) (now : ℤ) : Decidable (row.due now) :=
  inferInstanceAs (Decidable (_ ∧ ∃ at' ∈ row.timerAt, at' ≤ now))

/-- `ORDER BY timer_at`. -/
def earlier (a b : TimerId × Row) : Prop := a.2.timerAt.getD 0 ≤ b.2.timerAt.getD 0

instance : DecidableRel earlier := fun a b =>
  inferInstanceAs (Decidable (a.2.timerAt.getD 0 ≤ b.2.timerAt.getD 0))

/-- The timers a claim selects: due, pending, not locked by another claim, earliest first. -/
def dueTimers (rows : List Row) (now : ℤ) (limit : ℕ) (locked : TimerId → Bool) : List TimerId :=
  (((rows.zipIdx.map Prod.swap).filter fun e => e.2.due now ∧ locked e.1 = false).insertionSort
    earlier |>.take limit).map Prod.fst

/-- What a claim writes. -/
def Row.claimed (row : Row) (claim : ClaimId) (now : ℤ) : Row :=
  { row with
    info := { row.info with
      status := .running, timerStartedAt := some now, timerClaimId := some claim }
    timerAt := none }

/-- The rows `cancel_timers_for_chat` selects and does not skip. -/
def Row.cancellable (row : Row) (parentChatId : String) (event : CancelEvent) (userId : String) :
    Prop :=
  row.timerAt.isSome ∧ row.userId = userId ∧ row.info.parentChatId = parentChatId ∧
    row.info.status = .pending ∧ event ∈ row.info.cancelOn

instance (row : Row) (parentChatId : String) (event : CancelEvent) (userId : String) :
    Decidable (row.cancellable parentChatId event userId) :=
  inferInstanceAs (Decidable (_ ∧ _ ∧ _ ∧ _ ∧ _))

/-- What a cancellation makes of the meta it read. -/
def Meta.cancelled (info : Meta) (event : CancelEvent) (now : ℤ) : Meta :=
  { info with
    status := .cancelled, timerCancelledAt := some now, timerCancelledBy := some event }

/-! ## Executing -/

inductive UserRole where
  | pending
  | user
  | admin
deriving DecidableEq, Repr

/-- `VERIFIED_USER_ROLES`. -/
def verifiedUserRoles : List UserRole := [.user, .admin]

/-- The content of the prompt message: a text, or parts of which some are texts. -/
inductive Content where
  | text (s : String)
  | parts (texts : List (Option String))
deriving DecidableEq, Repr

def Content.prompt : Content → String
  | .text s => s
  | .parts texts => String.join (texts.filterMap id)

/-- What an execution finds under the ids of the meta. -/
structure Lookups where
  parent : Bool
  promptMessage : Option Content
  user : Option UserRole
deriving DecidableEq, Repr

structure Job where
  modelId : String
  prompt : String
deriving DecidableEq, Repr

/-- `run.get('model_id') or meta.get('timer_model_id')`. -/
def Meta.modelId (info : Meta) : String :=
  if info.runModelId = "" then info.timerModelId else info.runModelId

/-- The checks between the first read of the row and the lock of the parent. -/
def prepare (info : Meta) (found : Lookups) : Except String Job :=
  if !found.parent then .error "parent chat no longer exists"
  else
    match found.promptMessage with
    | none => .error "timer task message is missing"
    | some content =>
      match found.user with
      | none => .error "timer user no longer exists"
      | some role =>
        if role ∉ verifiedUserRoles then .error "owner no longer permitted to run timers"
        else if info.modelId = "" then .error "model context is missing"
        else .ok ⟨info.modelId, content.prompt⟩

/-- The latest finished answer, or the message the timer was set under. -/
def turnParent (chat : ParentChat) (info : Meta) : Option MessageId :=
  match latest (doneAssistants chat) with
  | some m => some m.id
  | none => info.parentMessageId

def userMessage (t : TimerId) (claim : ClaimId) (parentId : Option MessageId)
    (job : Job) (now : ℤ) :
    Message :=
  { id := .userTurn claim, parentId := parentId, childrenIds := [.assistantTurn claim],
    role := .user,
    content := job.prompt, done := none, model := some job.modelId, timerId :=
      some t, timestamp := now }

def assistantMessage (claim : ClaimId) (job : Job) (now : ℤ) : Message :=
  { id := .assistantTurn claim, parentId := some (.userTurn claim), childrenIds := [],
    role := .assistant, content := "", done := some false, model :=
      some job.modelId, timerId := none,
    timestamp := now }

/-- `messages[parent_id].setdefault('childrenIds', [])` with the new child. -/
def addChild (messages : Dict MessageId Message) (parentId : Option MessageId) (child : MessageId) :
    Dict MessageId Message :=
  match parentId.bind fun p => (messages.get? p).map (p, ·) with
  | none => messages
  | some (p, m) =>
    if child ∈ m.childrenIds then messages
    else messages.set p { m with childrenIds := m.childrenIds ++ [child] }

/-- The turn an execution adds to the copy of the parent chat it read. -/
def addTurn (chat : ParentChat) (t : TimerId) (claim : ClaimId) (info : Meta)
    (job : Job) (now : ℤ) :
    ParentChat :=
  let parentId := turnParent chat info
  let messages := (chat.messages.set (.userTurn claim) (userMessage t claim parentId job now)).set
    (.assistantTurn claim) (assistantMessage claim job now)
  { messages := addChild messages parentId (.userTurn claim)
    currentId := some (.assistantTurn claim) }

/-- What an execution writes when the parent chat is busy. -/
def Meta.putBack (info : Meta) : Meta :=
  { info with status := .pending, timerClaimId := none, timerStartedAt := none }

/-- What an execution writes with its turn. -/
def Meta.completed (info : Meta) (now : ℤ) : Meta :=
  { info with status := .completed, timerCompletedAt := some now }

/-- What `_set_timer_state` writes. -/
def Meta.failed (info : Meta) (error : String) : Meta :=
  { info with status := .error, timerError := some error }

end OpenWebUI.Timers
