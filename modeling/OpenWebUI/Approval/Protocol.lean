import OpenWebUI.Approval.Output

/-! # The tool-approval protocol

The three transactions on a saved message: a user resolves a call, a resume worker
claims one, and a worker records the result of the call it ran. Each edits the output
under one lock.
-/

namespace OpenWebUI.Approval

open Py

/-- What the transactions read and write of the assistant message. -/
structure Message where
  userId : Option String
  output : List Item
  done : Bool

/-- `message.get('user_id') or chat.user_id`. -/
def Message.author (m : Message) (owner : String) : String :=
  match m.userId with
  | some u => if u = "" then owner else u
  | none => owner

structure HttpException where
  statusCode : ℕ
  detail : String
deriving DecidableEq, Repr

def accessProhibited : String :=
  "You do not have permission to access this resource. Please contact your administrator for assistance."

def notFound : String := "We could not find what you're looking for :/"

/-! ## Pausing for approval -/

/-- `item['call_id'] = item['id']` where the one is missing and the other is not. -/
def FunctionCall.fillId (c : FunctionCall) : FunctionCall :=
  if c.callId.getD "" = "" ∧ c.id ≠ "" then { c with callId := some c.id } else c

/-- The loop of `pause_for_tool_approval`: the first open call is shown, the others wait. -/
def pauseCalls (answered : String → Bool) : Bool → List Item → List Item
  | _, [] => []
  | shown, .functionCall call :: rest =>
      let c := call.fillId
      if c.callId.getD "" ≠ "" ∧ answered (c.callId.getD "") = false ∧ c.status ≠ .rejected then
        if shown = false then .functionCall (c.setStatus .pending) :: pauseCalls answered true rest
        else if c.status = .inProgress ∨ c.status = .completed then
          .functionCall (c.setStatus .queued) :: pauseCalls answered true rest
        else .functionCall c :: pauseCalls answered true rest
      else .functionCall c :: pauseCalls answered shown rest
  | shown, item :: rest => item :: pauseCalls answered shown rest

/-- The output `pause_for_tool_approval` saves. -/
def pauseForToolApproval (output : List Item) : List Item :=
  pauseCalls (hasResult output) false output

/-! ## Resolving a call -/

inductive Action where
  | approve
  | reject
  | answer
deriving DecidableEq, Repr

structure ResolveToolCallForm where
  callId : String
  action : Action
  answers : Json
  timedOut : Bool

/-- Who resumes the run. -/
inductive Resume where
  | tools
  | model
deriving DecidableEq, Repr

/-- The chat as the resolving user sees it. `writable` stands for the access check. -/
structure Caller where
  user : String
  owner : String
  writable : Bool

def answerPayload (form : ResolveToolCallForm) : Json :=
  if form.timedOut then
    .obj [("status", .str "cancelled"), ("answers", .obj []), ("timed_out", .bool true)]
  else
    .obj [("status", .str "answered"), ("answers", Json.or form.answers (.obj []))]

/-- The result a rejection or an answer leaves behind. -/
def resolution (k text : String) (status : Status) : Item :=
  .functionCallOutput
    { id := "fco_" ++ k, callId := some k, output := [.inputText text], status := status
      files := [], embeds := [] }

/-- Some pending call is approved or running. -/
def isActive (output : List Item) : Bool :=
  (pendingToolCalls output).any fun c => c.approved || c.status = .inProgress

/-- What follows the edit of the call: who resumes, and what is shown next. -/
def afterResolution (active : Bool) (action : Action) (uuid : String) (output : List Item) :
    List Item × Option Resume :=
  if active then (output, none)
  else if action = .approve then (output, some .tools)
  else if (pendingToolCalls output).isEmpty then (output ++ [toolContinuation uuid], some .model)
  else (promoteFirst output, none)

/-- `setdefault('call_id', …)`. -/
def FunctionCall.setDefaultId (k : String) (c : FunctionCall) : FunctionCall :=
  { c with callId := some (c.callId.getD k) }

def FunctionCall.approve (k : String) (c : FunctionCall) : FunctionCall :=
  { c.setDefaultId k with status := .queued, approved := true }

/-- Closes the call and gives it a result. -/
def settle (k text : String) (status : Status) (output : List Item) : List Item :=
  editCall (fun c => c.key = k) (fun c => (c.setDefaultId k).setStatus status) output ++
    [resolution k text status]

/-- The edit of the call, as the action asks for it. -/
def resolveCall (dumps : Json → String) (form : ResolveToolCallForm) (call : FunctionCall)
    (output : List Item) : Except HttpException (List Item) :=
  match form.action with
  | .approve =>
      if call.name = "ask_user" then .error ⟨400, "ask_user requires an answer or deny."⟩
      else .ok (editCall (fun c => c.key = form.callId) (.approve form.callId) output)
  | .reject => .ok (settle form.callId "Error: tool call rejected by user." .rejected output)
  | .answer =>
      if call.name ≠ "ask_user" then .error ⟨400, "Tool call does not accept answers."⟩
      else if form.answers = .null ∧ form.timedOut = false then
        .error ⟨400, "Answers are required for ask_user."⟩
      else .ok (settle form.callId (dumps (answerPayload form)) .completed output)

def resolveToolCallOutput (dumps : Json → String) (caller : Caller) (form : ResolveToolCallForm)
    (uuid : String) (message : Option Message) : Except HttpException (Message × Option Resume) :=
  if caller.writable = false then .error ⟨401, accessProhibited⟩
  else match message with
  | none => .error ⟨404, notFound⟩
  | some m =>
      if m.author caller.owner ≠ caller.user then .error ⟨403, accessProhibited⟩
      else match findCall form.callId m.output with
      | none => .error ⟨404, "Tool call not found."⟩
      | some call =>
          if hasResult m.output form.callId ∨ call.status.resolvable = false ∨ call.approved then
            .error ⟨409, "Tool call has already been resolved."⟩
          else (resolveCall dumps form call m.output).map fun output =>
            let after := afterResolution (isActive m.output) form.action uuid output
            ({ m with output := after.1, done := false }, after.2)

/-! ## Running a call -/

/-- The worker may run the call: it does not ask the user, and it is approved or needs no
approval. -/
def runnable (full : Bool) (c : FunctionCall) : Bool :=
  c.name ≠ "ask_user" && (c.approved || full)

/-- `item['call_id'] = …; item['status'] = 'in_progress'`. -/
def FunctionCall.start (c : FunctionCall) : FunctionCall :=
  { c with callId := some c.key, status := .inProgress }

/-- The claim at the top of the loop of `resume_tool_calls`: the message as it is saved, and the
call to run, if there is one. -/
def claim (full : Bool) (m : Message) : Message × Option FunctionCall :=
  if (pendingToolCalls m.output).any fun c => c.status = .inProgress then (m, none)
  else match (pendingToolCalls m.output).find? (runnable full) with
  | none => ({ m with output := promoteFirst m.output }, none)
  | some c =>
      let output := editCall (fun c => isPending m.output c && runnable full c) .start m.output
      ({ m with output := output, done := false }, some c.start)

/-- `saved.update(call)`: an `approved` that is missing in `call` stays. -/
def FunctionCall.update (saved call : FunctionCall) : FunctionCall :=
  { call with approved := call.approved || saved.approved }

def completeToolCall (call : FunctionCall) (result : FunctionCallOutput) (uuid : String)
    (message : Option Message) : Except HttpException Message :=
  match message with
  | none => .error ⟨404, notFound⟩
  | some m =>
      let isSaved (c : FunctionCall) : Bool := isPending m.output c && c.callId = call.callId
      match (calls m.output).find? isSaved with
      | none => .error ⟨409, "Tool call is no longer running."⟩
      | some saved =>
          if saved.status ≠ .inProgress then .error ⟨409, "Tool call is no longer running."⟩
          else
            let output := editCall isSaved (·.update call) m.output ++ [.functionCallOutput result]
            if result.status = .incomplete then .ok { m with output := output, done := true }
            else if (pendingToolCalls output).isEmpty then
              .ok { m with output := output ++ [toolContinuation uuid] }
            else
              let next := editCall (fun c => isPending output c && !c.approved)
                (.setStatus .pending) output
              .ok { m with output := next }

/-- What a tool run leaves: the arguments as they were parsed, and the result. -/
structure ToolRun where
  arguments : String
  failed : Bool
  output : List Part
  files : List Json
  embeds : List Json

def ToolRun.status (run : ToolRun) : Status := if run.failed then .failed else .completed

/-- The call and the result a worker saves after a run. -/
def ToolRun.call (run : ToolRun) (c : FunctionCall) : FunctionCall :=
  { c with arguments := run.arguments, status := run.status }

def ToolRun.result (run : ToolRun) (id : String) (c : FunctionCall) : FunctionCallOutput :=
  { id := id, callId := c.callId, output := run.output, status := run.status
    files := run.files, embeds := run.embeds }

/-- The result a worker saves when it is interrupted. -/
def interruptedResult (id : String) (c : FunctionCall) : FunctionCallOutput :=
  { id := id, callId := c.callId
    output := [.inputText "Error: tool execution was interrupted; its outcome is unknown."]
    status := .incomplete, files := [], embeds := [] }

end OpenWebUI.Approval
