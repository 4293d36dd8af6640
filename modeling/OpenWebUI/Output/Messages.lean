import OpenWebUI.Lib.Json
import OpenWebUI.Lib.Text

/-! # From output items to chat messages

`backend/open_webui/utils/misc.py`: `convert_output_to_messages` rebuilds a conversation
from stored output items, and `reconcile_tool_pairs` drops tool calls and tool results that
do not pair. Items and messages are records of the fields these functions read, with the
defaults their `get` calls name; an absent list is empty.
-/

namespace OpenWebUI.Output

open Py

/-! ## Items -/

/-- A part of a message's content or of a reasoning item. -/
structure ContentPart where
  type : String
  text : String

/-- A part of a tool's output. -/
structure OutputPart where
  type : String
  text : String
  imageUrl : String

structure Function where
  name : String
  arguments : Json

structure FunctionCall where
  callId : String
  status : String
  function : Function
  /-- The model's own call, when a resolved target is executed instead. -/
  providerFunction : Option Function

structure Reasoning where
  details : Json
  summary : List ContentPart
  content : List ContentPart
  startTag : String
  endTag : String

/-- The output of a code interpreter: a `dict` or anything else as a text. -/
inductive CodeOutput where
  | result (stdout result : String)
  | text (s : String)

inductive Item where
  | message (content : List ContentPart)
  | functionCall (call : FunctionCall)
  | functionCallOutput (callId : String) (output : List OutputPart)
  | reasoning (r : Reasoning)
  | codeInterpreter (code : String) (output : CodeOutput)
  | extension

/-! ## Messages -/

structure ToolCall where
  id : String
  name : String
  arguments : String

/-- An assistant message; without tool calls it has no `tool_calls` key. -/
structure Assistant where
  content : String
  toolCalls : List ToolCall
  thinking : Option String
  reasoningContent : Option String
  reasoningDetails : List Json

inductive ToolContent where
  | text (s : String)
  | parts (text : String) (imageUrls : List String)

inductive Message where
  | assistant (a : Assistant)
  | tool (callId : String) (content : ToolContent)
  | user (text : String) (imageUrls : List String)

/-! ## Reconciling -/

/-- The ids of the tool messages that directly follow. -/
def toolBlock : List Message → List String
  | .tool id _ :: rest => id :: toolBlock rest
  | _ => []

/-- The ids an assistant message requests that its block of tool messages answers. -/
def pairedIds (a : Assistant) (rest : List Message) : List String :=
  (a.toolCalls.map ToolCall.id).filter fun id => id ≠ "" ∧ id ∈ toolBlock rest

/-- `get_paired_tool_call_ids`: an assistant message and its block share one set of ids;
`current` is the set of the block the list starts in. -/
def getPairedToolCallIds (current : List String) : List Message → List (List String)
  | [] => []
  | .tool _ _ :: rest => current :: getPairedToolCallIds current rest
  | .assistant a :: rest => pairedIds a rest :: getPairedToolCallIds (pairedIds a rest) rest
  | .user _ _ :: rest => [] :: getPairedToolCallIds [] rest

/-- One turn of the loop of `reconcile_tool_pairs`. -/
def reconcileMessage (m : Message) (paired : List String) : Option Message :=
  match m with
  | .tool id content => if id ∈ paired then some (.tool id content) else none
  | .user text urls => some (.user text urls)
  | .assistant a =>
    if a.toolCalls.isEmpty then some (.assistant a)
    else
      let valid := a.toolCalls.filter fun call => call.id ∈ paired
      if !valid.isEmpty then some (.assistant { a with toolCalls := valid })
      -- all calls were orphans
      else if !isBlank a.content || a.reasoningContent.any (· ≠ "") then
        some (.assistant { a with toolCalls := [] })
      else none

def reconcileToolPairs (messages : List Message) : List Message :=
  (messages.zip (getPairedToolCallIds [] messages)).filterMap fun e => reconcileMessage e.1 e.2

/-! ## Converting -/

structure Options where
  raw : Bool
  reasoningFormat : Option String
  flattenToolImages : Bool
  /-- `JSONCodec.dumps`. -/
  dumps : Json → String

/-- The pending lists and the messages so far. -/
structure Pending where
  messages : List Message
  toolCalls : List ToolCall
  content : List String
  reasoning : List String
  reasoningDetails : List Json
  toolImageUrls : List String
  toolOutputs : List (String × List OutputPart)

def Pending.empty : Pending := ⟨[], [], [], [], [], [], []⟩

def completedCallIds (output : List Item) : List String :=
  output.filterMap fun item => match item with
    | .functionCall call =>
      if call.callId ≠ "" ∧ call.status ∈ ["completed", "failed", "rejected"] then some call.callId
      else none
    | _ => none

def resultCallIds (output : List Item) : List String :=
  output.filterMap fun item => match item with
    | .functionCallOutput callId _ => if callId ≠ "" then some callId else none
    | _ => none

def functionCallIds (output : List Item) : List String :=
  (completedCallIds output).filter fun id => id ∈ resultCallIds output

/-- `get_provider_function`, with the call's id. -/
def toolCallOf (o : Options) (call : FunctionCall) : ToolCall :=
  let function := call.providerFunction.getD call.function
  ⟨call.callId, function.name, match function.arguments with
    | .str s => s
    | arguments => o.dumps arguments⟩

/-- The assistant message of what is pending. -/
def Pending.assistant (o : Options) (st : Pending) : Assistant where
  content := "\n".intercalate st.content
  toolCalls := st.toolCalls
  thinking := if !st.reasoning.isEmpty ∧ o.reasoningFormat = some "thinking" then
    some ("\n".intercalate st.reasoning) else none
  reasoningContent := if !st.reasoning.isEmpty ∧ o.reasoningFormat ≠ some "thinking" then
    some ("\n".intercalate st.reasoning) else none
  reasoningDetails := st.reasoningDetails

def flushPending (o : Options) (st : Pending) : Pending :=
  if st.content.isEmpty && st.toolCalls.isEmpty && st.reasoning.isEmpty &&
      st.reasoningDetails.isEmpty then st
  else { st with
    messages := st.messages ++ [.assistant (st.assistant o)]
    content := [], toolCalls := [], reasoning := [], reasoningDetails := [] }

def flushToolImages (st : Pending) : Pending :=
  if st.toolImageUrls.isEmpty then st
  else { st with
    messages := st.messages ++ [.user
      "Here are the images from the tool results above. Please analyze them." st.toolImageUrls]
    toolImageUrls := [] }

/-- The tool message of one result. -/
def pushToolOutput (o : Options) (st : Pending) (e : String × List OutputPart) : Pending :=
  let content := String.join (e.2.filterMap fun part =>
    if part.type = "input_text" then some part.text else none)
  let imageUrls := e.2.filterMap fun part =>
    if part.type = "input_image" ∧ part.imageUrl ≠ "" then some part.imageUrl else none
  if o.flattenToolImages then { st with
    messages := st.messages ++ [.tool e.1 (.text content)]
    toolImageUrls := st.toolImageUrls ++ imageUrls }
  else if !imageUrls.isEmpty then
    { st with messages := st.messages ++ [.tool e.1 (.parts content imageUrls)] }
  else { st with messages := st.messages ++ [.tool e.1 (.text content)] }

def flushToolOutputs (o : Options) (st : Pending) : Pending :=
  if st.toolOutputs.isEmpty then st
  else { st.toolOutputs.foldl (pushToolOutput o) (flushPending o st) with toolOutputs := [] }

/-- The text of a message item. -/
def messageText (content : List ContentPart) : String :=
  String.join (content.filterMap fun part =>
    if part.type = "output_text" then some part.text else none)

/-- The details a reasoning item replays. -/
def reasoningDetailsOf (o : Options) (r : Reasoning) : List Json :=
  if o.raw && r.details.truthy then
    (match r.details with
      | .arr details => details
      | detail => [detail]).filter fun detail => match detail with
        | .obj d =>
          Obj.get d "format" ≠ Json.str "anthropic-claude-v1" || (Obj.get d "signature").truthy
        | _ => false
  else []

/-- The text of a reasoning item: its summary or else its content. -/
def reasoningText (r : Reasoning) : String :=
  String.join ((if r.summary.isEmpty then r.content else r.summary).map ContentPart.text)

def pushReasoning (o : Options) (st : Pending) (r : Reasoning) : Pending :=
  let details := reasoningDetailsOf o r
  if o.reasoningFormat.all (· = "") && details.isEmpty then st
  else
    let text := reasoningText r
    let st := if text = "" then st
      else if o.reasoningFormat = some "think_tags" then
        { st with content := st.content ++ [r.startTag ++ text ++ r.endTag] }
      else if o.reasoningFormat = some "thinking" ∨
          o.reasoningFormat = some "reasoning_content" then
        { st with reasoning := st.reasoning ++ [text] }
      else st
    { st with reasoningDetails := st.reasoningDetails ++ details }

/-- What a code interpreter item adds to the content. -/
def codeInterpreterContent (code : String) (output : CodeOutput) : List String :=
  let outputText := match output with
    | .result stdout result => if stdout ≠ "" then stdout else result
    | .text s => s
  (if code ≠ "" then ["<code_interpreter>\n" ++ code ++ "\n</code_interpreter>"] else []) ++
    (if outputText ≠ "" then
      ["<code_interpreter_output>\n" ++ outputText ++ "\n</code_interpreter_output>"] else [])

/-- What an item adds to the pending lists. -/
def pushItem (o : Options) (ids : List String) (st : Pending) : Item → Pending
  | .message content =>
    if messageText content ≠ "" then { st with content := st.content ++ [messageText content] }
    else st
  | .functionCall call =>
    if call.callId ∈ ids then { st with toolCalls := st.toolCalls ++ [toolCallOf o call] } else st
  | .functionCallOutput callId output =>
    if callId ∈ ids then { st with toolOutputs := st.toolOutputs ++ [(callId, output)] } else st
  | .reasoning r => pushReasoning o st r
  | .codeInterpreter code output =>
    { st with content := st.content ++ codeInterpreterContent code output }
  | .extension => st

/-- One turn of the loop: anything but a result first flushes the results before it. -/
def convertItem (o : Options) (ids : List String) (st : Pending) (item : Item) : Pending :=
  match item with
  | .functionCallOutput _ _ => pushItem o ids st item
  | _ => pushItem o ids (flushToolImages (flushToolOutputs o st)) item

/-- The messages before they are reconciled. -/
def rebuildMessages (o : Options) (output : List Item) : List Message :=
  (flushPending o (flushToolImages (flushToolOutputs o
    (output.foldl (convertItem o (functionCallIds output)) Pending.empty)))).messages

def convertOutputToMessages (o : Options) (output : List Item) : List Message :=
  if output.isEmpty then [] else reconcileToolPairs (rebuildMessages o output)

end OpenWebUI.Output
