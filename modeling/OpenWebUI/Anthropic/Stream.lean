import OpenWebUI.Anthropic.Response
import OpenWebUI.Lib.Program
import OpenWebUI.Lib.Text

/-! # A stream of chunks as Anthropic events

`backend/open_webui/utils/anthropic.py`: `openai_stream_to_anthropic_stream`. The loop is a
program over the conversion's variables and the events yielded so far; whatever it raises
is caught after the loop, with those events already sent.
-/

namespace OpenWebUI.Anthropic

open Py Program

/-! ## Events -/

inductive Delta where
  | thinking (thinking : Json)
  | text (text : Json)
  | inputJson (partialJson : String)

inductive Event where
  | messageStart (id model : String) (inputTokens : Json)
  | contentBlockStart (index : ℤ) (block : Block)
  | contentBlockDelta (index : ℤ) (delta : Delta)
  | contentBlockStop (index : ℤ)
  | messageDelta (stopReason : String) (usage : Obj)
  | messageStop
  | error (message : Json)

/-! ## Variables -/

structure Tool where
  id : Json
  name : Json
  arguments : String
  /-- `-1` until the block is started. -/
  blockIndex : ℤ
  started : Bool
  stopped : Bool

def Tool.new (id name : Json) : Tool := ⟨id, name, "", -1, false, false⟩

structure State where
  usage : Usage
  stopReason : String
  currentBlockIndex : ℤ
  thinkingBlockOpen : Bool
  textBlockOpen : Bool
  /-- By tool call id. -/
  trackedToolCalls : Dict Json Tool
  indexToToolId : Dict Json Json
  hasToolCalls : Bool
  events : List Event

def State.start (inputTokens : Option ℕ) (first : Event) : State where
  usage := {
    inputTokens := inputTokens.elim .null fun n => .num n
    outputTokens := .num 0
    cacheCreation := .null
    cacheRead := .null
    outputTokensDetails := .null
    serverToolUse := .null
    serviceTier := .null }
  stopReason := "end_turn"
  currentBlockIndex := 0
  thinkingBlockOpen := false
  textBlockOpen := false
  trackedToolCalls := ∅
  indexToToolId := ∅
  hasToolCalls := false
  events := [first]

def State.yield (s : State) (e : Event) : State := { s with events := s.events ++ [e] }

def State.setTool (s : State) (key : Json) (tool : Tool) : State :=
  { s with trackedToolCalls := s.trackedToolCalls.set key tool }

/-- The loop; what it raises is told apart by nothing. -/
abbrev Loop (α : Type) := Prog State Unit α

/-- `v` as a key: equal numbers and booleans are one key, a list or a `dict` is none. -/
def keyOf : Json → Option Json
  | .arr _ | .obj _ => none
  | v => some v.canon

/-! ## Usage and errors -/

/-- What is reported replaces what was known. -/
def Usage.merge (old new : Usage) : Usage where
  inputTokens := if new.inputTokens = .null then old.inputTokens else new.inputTokens
  outputTokens := if new.outputTokens = .null then old.outputTokens else new.outputTokens
  cacheCreation := if new.cacheCreation = .null then old.cacheCreation else new.cacheCreation
  cacheRead := if new.cacheRead = .null then old.cacheRead else new.cacheRead
  outputTokensDetails :=
    if new.outputTokensDetails = .null then old.outputTokensDetails else new.outputTokensDetails
  serverToolUse := if new.serverToolUse = .null then old.serverToolUse else new.serverToolUse
  serviceTier := if new.serviceTier = .null then old.serviceTier else new.serviceTier

def handleUsage (data : Obj) : Loop Unit :=
  match Obj.get data "usage" with
  | .obj usage => do
    let new ← ofOption () (readUsage usage)
    modify fun s => { s with usage := s.usage.merge new }
  | _ => pure ()

def failedMessage : Json := .str "Chat completion stream failed"

def errorMessageOf (error : Json) : Json :=
  match error with
  | .obj e => (Obj.get e "message").or failedMessage
  | e => e.or failedMessage

/-! ## Thinking and text -/

def State.closeThinking (s : State) : State :=
  if s.thinkingBlockOpen then
    { s.yield (.contentBlockStop s.currentBlockIndex) with
      thinkingBlockOpen := false
      currentBlockIndex := s.currentBlockIndex + 1 }
  else s

def State.closeText (s : State) : State :=
  if s.textBlockOpen then
    { s.yield (.contentBlockStop s.currentBlockIndex) with
      textBlockOpen := false
      currentBlockIndex := s.currentBlockIndex + 1 }
  else s

def State.openThinking (s : State) : State :=
  if s.thinkingBlockOpen then s
  else
    { s.yield (.contentBlockStart s.currentBlockIndex (.thinking (.str "") .null)) with
      thinkingBlockOpen := true }

def State.openText (s : State) : State :=
  if s.textBlockOpen then s
  else
    { s.yield (.contentBlockStart s.currentBlockIndex (.text (.str ""))) with
      textBlockOpen := true }

/-- The thinking of a `dict` among the thinking blocks. -/
def blockThinking (block : Json) : Option Json :=
  match block with
  | .obj b =>
    let thinking := ((Obj.get b "thinking").or (Obj.get b "content")).or (Obj.get b "text")
    if thinking.truthy then some thinking else none
  | _ => none

/-- The reasoning of a choice; the message is only read when the delta has none. -/
def reasoningOf (delta : Obj) (message : Json) : Option Json :=
  let reasoning :=
    ((Obj.get delta "reasoning_content").or (Obj.get delta "reasoning")).or
      (Obj.get delta "thinking")
  if reasoning.truthy then some reasoning
  else do
    let message ← message.asObj
    let reasoning := (Obj.get message "reasoning_content").or (Obj.get message "reasoning")
    if reasoning.truthy then return reasoning
    let blocks ← iterateOrEmpty
      ((Obj.get delta "thinking_blocks").or (Obj.get message "thinking_blocks"))
    return (blocks.findSome? blockThinking).getD .null

def State.think (s : State) (reasoning : Json) : State :=
  if reasoning.truthy && !s.textBlockOpen && !s.hasToolCalls then
    s.openThinking.yield (.contentBlockDelta s.currentBlockIndex (.thinking reasoning))
  else s

def State.write (s : State) (content : Json) : State :=
  if content.truthy && !s.hasToolCalls then
    let s := s.closeThinking
    s.openText.yield (.contentBlockDelta s.currentBlockIndex (.text content))
  else s

/-! ## Tool calls -/

section Tools

variable (loads : Codec) (freshId : List Json → String)

/-- The tracked call a delta belongs to. -/
def resolveTool (index id name : Json) : Loop Json :=
  if id.truthy then do
    let key ← ofOption () (keyOf id)
    modify fun s => if key ∈ s.trackedToolCalls then s else s.setTool key (Tool.new id name)
    let indexKey ← ofOption () (keyOf index)
    modify fun s => { s with indexToToolId := s.indexToToolId.set indexKey key }
    return key
  else do
    let indexKey ← ofOption () (keyOf index)
    let s ← get
    match s.indexToToolId.get? indexKey with
    | some key => return key
    | none =>
      -- the first delta for this index has no id
      let key := Json.str (freshId s.trackedToolCalls.keys)
      let s := s.setTool key (Tool.new key name)
      set { s with indexToToolId := s.indexToToolId.set indexKey key }
      return key

/-- Takes the name of a delta if there was none. -/
def Tool.rename (tool : Tool) (name : Json) : Tool :=
  if name.truthy && !tool.name.truthy then { tool with name := name } else tool

/-- Starts the block of a tool that has a name. -/
def State.startTool (s : State) (key : Json) (tool : Tool) : State :=
  if !tool.started && tool.name.truthy then
    { (s.setTool key { tool with blockIndex := s.currentBlockIndex, started := true }).yield
        (.contentBlockStart s.currentBlockIndex (.toolUse tool.id tool.name (.obj []))) with
      hasToolCalls := true
      currentBlockIndex := s.currentBlockIndex + 1 }
  else s.setTool key tool

/-- Whether the arguments look complete enough to be decoded. -/
def endsObject (arguments : String) : Bool :=
  (rstrip arguments).toList.getLast? = some '}' || (lstrip arguments).toList.head? ≠ some '{'

/-- Buffers arguments; a started block gets them as a delta. -/
def State.appendArguments (s : State) (key : Json) (tool : Tool) (chunk : String) : State :=
  let s := s.setTool key { tool with arguments := tool.arguments ++ chunk }
  if tool.started && !tool.stopped then
    s.yield (.contentBlockDelta tool.blockIndex (.inputJson chunk))
  else s

/-- Stops the block of a tool once its arguments are complete. -/
def stopTool (key : Json) (tool : Tool) : Loop Unit :=
  if tool.started && !tool.stopped && endsObject tool.arguments then
    match loads tool.arguments with
    | .value _ => modify fun s =>
      (s.setTool key { tool with stopped := true }).yield (.contentBlockStop tool.blockIndex)
    | .otherError => throw ()
    | _ => pure ()
  else pure ()

def handleArguments (key : Json) (arguments : Json) : Loop Unit :=
  if arguments.truthy then do
    let s ← get
    let tool ← ofOption () (s.trackedToolCalls.get? key)
    let chunk ← ofOption () arguments.asStr
    set (s.appendArguments key tool chunk)
    stopTool loads key { tool with arguments := tool.arguments ++ chunk }
  else pure ()

/-- One turn of the loop over the tool calls of a delta. -/
def handleToolCall (toolCall : Json) : Loop Unit := do
  let call ← ofOption () toolCall.asObj
  let function ← ofOption () (objOrEmpty (Obj.get call "function"))
  let name := Obj.getD function "name" (.str "")
  let key ← resolveTool freshId (Obj.getD call "index" (.num 0)) (Obj.getD call "id" (.str "")) name
  let s ← get
  let tool ← ofOption () (s.trackedToolCalls.get? key)
  set (s.startTool key (tool.rename name))
  handleArguments loads key (Obj.getD function "arguments" (.str ""))

/-- The tool calls of a choice; the message is only read when the delta has none. -/
def toolCallsOf (delta : Obj) (message : Json) : Option Json :=
  let calls := Obj.get delta "tool_calls"
  if calls.truthy then some calls
  else do
    let message ← message.asObj
    return Obj.get message "tool_calls"

def handleToolCalls (toolCalls : Json) : Loop Unit :=
  if toolCalls.truthy then do
    modify fun s => s.closeThinking.closeText
    let calls ← ofOption () (iterate toolCalls)
    calls.forM (handleToolCall loads freshId)
  else pure ()

/-! ## Chunks -/

/-- `stop_reason_map` of a stream. -/
def streamStopReasons : List (String × String) :=
  [("stop", "end_turn"), ("length", "max_tokens"), ("tool_calls", "tool_use")]

def handleFinishReason (finishReason : Json) : Loop Unit :=
  if finishReason = .null then pure ()
  else do
    let stopReason ← ofOption () (stopReasonOf streamStopReasons finishReason)
    modify fun s => { s with stopReason := stopReason }

def handleChoice (choice : Obj) : Loop Unit := do
  let delta ← ofOption () (Obj.getD choice "delta" (.obj [])).asObj
  let message := (Obj.get choice "message").or (.obj [])
  let reasoning ← ofOption () (reasoningOf delta message)
  modify fun s => (s.think reasoning).write (Obj.get delta "content")
  let toolCalls ← ofOption () (toolCallsOf delta message)
  handleToolCalls loads freshId toolCalls
  handleFinishReason (Obj.get choice "finish_reason")

/-- One decoded line; a reported error ends the loop with its message. -/
def handleData (data : Json) : Loop (Option Json) := do
  let data ← ofOption () data.asObj
  let error := Obj.get data "error"
  if error.truthy then return some (errorMessageOf error)
  handleUsage data
  let choices := Obj.getD data "choices" (.arr [])
  if !choices.truthy then return none
  match choices with
  | .arr (.obj choice :: _) =>
    handleChoice loads freshId choice
    return none
  | _ => throw ()

/-- The text after `data:`, unless the line says nothing. -/
def payload (line : String) : Option String :=
  let line := strip line
  if line ≠ "" ∧ "data:".toList <+: line.toList then
    let dataString := strip (String.ofList (line.toList.drop 5))
    if dataString = "[DONE]" ∨ dataString = "\x7b\x7d" then none else some dataString
  else none

def payloads (chunk : String) : List String :=
  ((strip chunk).toList.splitOn '\n').filterMap fun line => payload (String.ofList line)

/-- Lines that do not decode are skipped. -/
def handlePayload (dataString : String) : Loop (Option Json) :=
  match loads dataString with
  | .value data => handleData loads freshId data
  | .decodeError => pure none
  | _ => throw ()

def handlePayloads : List String → Loop (Option Json)
  | [] => pure none
  | dataString :: rest => do
    match ← handlePayload loads freshId dataString with
    | some message => return some message
    | none => handlePayloads rest

/-- A chunk is a text, or bytes by the text they decode to, or neither. -/
inductive Chunk where
  | text (s : String)
  | other

def handleChunks : List Chunk → Loop (Option Json)
  | [] => pure none
  | .other :: _ => throw ()
  | .text s :: rest => do
    match ← handlePayloads loads freshId (payloads s) with
    | some message => return some message
    | none => handleChunks rest

/-- The chunks of the generator, which may end by raising. -/
structure Source where
  chunks : List Chunk
  raises : Bool

def handleSource (source : Source) : Loop (Option Json) := do
  match ← handleChunks loads freshId source.chunks with
  | some message => return some message
  | none => if source.raises then throw () else return none

/-! ## The end of the stream -/

/-- Closes the thinking block; its flag is not read again. -/
def State.endThinking (s : State) : State :=
  if s.thinkingBlockOpen then
    { s.yield (.contentBlockStop s.currentBlockIndex) with
      currentBlockIndex := s.currentBlockIndex + 1 }
  else s

/-- Starts a tool that has buffered its arguments. -/
def State.flushTool (s : State) (key : Json) : State :=
  match s.trackedToolCalls.get? key with
  | none => s
  | some tool =>
    if !tool.started && tool.name.truthy then
      let s' := {
        (s.setTool key { tool with blockIndex := s.currentBlockIndex, started := true }).yield
          (.contentBlockStart s.currentBlockIndex (.toolUse tool.id tool.name (.obj []))) with
        currentBlockIndex := s.currentBlockIndex + 1 }
      if tool.arguments ≠ "" then
        s'.yield (.contentBlockDelta s.currentBlockIndex (.inputJson tool.arguments))
      else s'
    else s

def State.endText (s : State) : State :=
  if s.textBlockOpen then s.yield (.contentBlockStop s.currentBlockIndex) else s

def State.endTool (s : State) (tool : Tool) : State :=
  if tool.started && !tool.stopped then s.yield (.contentBlockStop tool.blockIndex) else s

/-- `usage` of the last event. -/
def streamUsage (u : Usage) : Obj :=
  ("output_tokens", u.outputTokens) ::
    (if u.inputTokens = .null then [] else [("input_tokens", u.inputTokens)]) ++ u.extras

def State.endTools (s : State) : State :=
  (s.trackedToolCalls.entries.map Prod.snd).foldl State.endTool s

def State.finish (s : State) : State :=
  let s := s.endThinking
  let s := s.trackedToolCalls.keys.foldl State.flushTool s
  let s := s.endText.endTools
  (s.yield (.messageDelta s.stopReason (streamUsage s.usage))).yield .messageStop

/-- The events of a stream. -/
def openaiStreamToAnthropicStream (uuid : String) (source : Source) (model : String)
    (inputTokens : Option ℕ) : List Event :=
  let first := Event.messageStart ("msg_" ++ uuid) model
    (inputTokens.elim (.num 0) fun n => .num n)
  match (handleSource loads freshId source).exec (State.start inputTokens first) with
  | (.error _, s) => (s.yield (.error failedMessage)).events
  | (.ok (some message), s) => (s.yield (.error message)).events
  | (.ok none, s) => s.finish.events

end Tools

end OpenWebUI.Anthropic
