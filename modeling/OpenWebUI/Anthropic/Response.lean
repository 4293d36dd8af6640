import OpenWebUI.Lib.Json

/-! # A completion as an Anthropic message

`backend/open_webui/utils/anthropic.py`: `convert_openai_to_anthropic_response`, and what it
shares with the streaming conversion. Decoding is a parameter, since `JSONCodec` is one of
two codecs. A conversion that raises is `none`.
-/

namespace OpenWebUI.Anthropic

open Py

/-! ## Decoding -/

/-- What `JSONCodec.loads` does with a text. -/
inductive Loaded where
  | value (v : Json)
  /-- A `JSONDecodeError`. -/
  | decodeError
  /-- Another `ValueError`. -/
  | valueError
  | otherError

abbrev Codec := String → Loaded

/-- What `for x in v` runs over; a text and the keys of a `dict` are texts. -/
def iterate : Json → Option (List Json)
  | .arr xs => some xs
  | .str s => some (s.toList.map fun c => .str (String.singleton c))
  | .obj members => some (members.map fun p => .str p.1)
  | _ => none

/-- `v or {}`, as a `dict`. -/
def objOrEmpty (v : Json) : Option Obj := if v.truthy then v.asObj else some []

/-- `v or []`, iterated. -/
def iterateOrEmpty (v : Json) : Option (List Json) := if v.truthy then iterate v else some []

/-! ## Usage -/

structure Usage where
  inputTokens : Json
  outputTokens : Json
  cacheCreation : Json
  cacheRead : Json
  outputTokensDetails : Json
  serverToolUse : Json
  serviceTier : Json

/-- `v` if it is a `dict`. -/
def dictOrNone (v : Json) : Json := if v.asObj.isSome then v else .null

/-- `max(prompt_tokens - (cache_creation or 0) - (cache_read or 0), 0)`. -/
def uncachedTokens (promptTokens cacheCreation cacheRead : Json) : Option Json := do
  let prompt ← promptTokens.asOperand
  let creation ← (Json.or cacheCreation (.num 0)).asOperand
  let read ← (Json.or cacheRead (.num 0)).asOperand
  return .num (max (prompt - creation - read) 0)

def cacheReadTokens (usage : Obj) : Json :=
  match Obj.get usage "cache_read_input_tokens", Obj.get usage "prompt_tokens_details" with
  | .null, .obj details => Obj.get details "cached_tokens"
  | read, _ => read

def inputTokensOf (usage : Obj) : Option Json :=
  match Obj.get usage "input_tokens", Obj.get usage "prompt_tokens" with
  | .null, .null => some .null
  | .null, prompt =>
    uncachedTokens prompt (Obj.get usage "cache_creation_input_tokens") (cacheReadTokens usage)
  | input, _ => some input

def outputTokensOf (usage : Obj) : Json :=
  match Obj.get usage "output_tokens" with
  | .null => Obj.get usage "completion_tokens"
  | output => output

/-- The usage either conversion reads; `None` is `null`. -/
def readUsage (usage : Obj) : Option Usage := do
  let input ← inputTokensOf usage
  return {
    inputTokens := input
    outputTokens := outputTokensOf usage
    cacheCreation := Obj.get usage "cache_creation_input_tokens"
    cacheRead := cacheReadTokens usage
    outputTokensDetails := dictOrNone (Obj.get usage "output_tokens_details")
    serverToolUse := dictOrNone (Obj.get usage "server_tool_use")
    serviceTier := Obj.get usage "service_tier" }

/-- The optional members both conversions report. -/
def Usage.extras (u : Usage) : Obj :=
  [("cache_creation_input_tokens", u.cacheCreation), ("cache_read_input_tokens", u.cacheRead),
    ("output_tokens_details", u.outputTokensDetails), ("server_tool_use", u.serverToolUse),
    ("service_tier", u.serviceTier)].filter fun p => p.2 ≠ .null

/-! ## Stop reasons -/

/-- `table.get(finish_reason, 'end_turn')`; a list or a `dict` is no key. -/
def stopReasonOf (table : List (String × String)) : Json → Option String
  | .str reason => some ((table.lookup reason).getD "end_turn")
  | .arr _ | .obj _ => none
  | _ => some "end_turn"

/-! ## Content blocks -/

inductive Block where
  | redactedThinking (members : Obj)
  /-- Without a signature it is `null`. -/
  | thinking (thinking signature : Json)
  | text (text : Json)
  | toolUse (id name input : Json)
  deriving DecidableEq

/-- One turn of the loop over the thinking blocks. -/
def thinkingBlock (block : Json) : Option Block :=
  match block with
  | .obj b =>
    if Obj.get b "type" = .str "redacted_thinking" then
      some (.redactedThinking (b.filter fun p => p.1 ∈ ["type", "data"]))
    else
      let thinking := ((Obj.get b "thinking").or (Obj.get b "content")).or (Obj.get b "text")
      if thinking.truthy then
        some (.thinking thinking
          (if (Obj.get b "signature").truthy then Obj.get b "signature" else .null))
      else none
  | _ => none

def thinkingBlocks (message : Obj) : Option (List Block) := do
  let blocks ← match (Obj.get message "thinking_blocks").truthy, Obj.get message "thinking" with
    | false, .obj thinking => iterateOrEmpty (Obj.get thinking "blocks")
    | _, _ => iterateOrEmpty (Obj.get message "thinking_blocks")
  return blocks.filterMap thinkingBlock

/-- `reasoning_content`, `reasoning` or a plain `thinking`, whichever is there. -/
def plainReasoning (message : Obj) : Json :=
  let reasoning := (Obj.get message "reasoning_content").or (Obj.get message "reasoning")
  if reasoning.truthy then reasoning
  else match Obj.get message "thinking" with
    | .str thinking => .str thinking
    | _ => reasoning

/-- The input of a tool call; what does not decode is empty. -/
def toolInput (loads : Codec) (arguments : Json) : Option Json :=
  match arguments with
  | .str text => match loads text with
    | .value v => some v
    | .decodeError => some (.obj [])
    | _ => none
  | _ => some (.obj [])

def toolUseBlock (loads : Codec) (fallbackId : String) (toolCall : Json) : Option Block := do
  let call ← toolCall.asObj
  let function ← (Obj.getD call "function" (.obj [])).asObj
  let input ← toolInput loads (Obj.getD function "arguments" (.str "\x7b\x7d"))
  return .toolUse (Obj.getD call "id" (.str fallbackId)) (Obj.getD function "name" (.str "")) input

/-- The content of a message: thinking, text, then the tool calls. -/
def contentBlocks (loads : Codec) (uuid : ℕ → String) (message : Obj) : Option (List Block) := do
  let thinking ← thinkingBlocks message
  let reasoning := plainReasoning message
  let reasoningBlock :=
    if reasoning.truthy && thinking.isEmpty then [Block.thinking reasoning .null] else []
  let content := Obj.get message "content"
  let textBlock := if content.truthy then [Block.text content] else []
  let calls ← iterateOrEmpty (Obj.get message "tool_calls")
  let toolBlocks ← calls.zipIdx.mapM fun p => toolUseBlock loads ("toolu_" ++ uuid p.2) p.1
  return thinking ++ reasoningBlock ++ textBlock ++ toolBlocks

/-! ## The response -/

structure Response where
  id : Json
  content : List Block
  model : Json
  stopReason : String
  usage : Obj

/-- `stop_reason_map` of a whole completion. -/
def responseStopReasons : List (String × String) :=
  [("stop", "end_turn"), ("length", "max_tokens"), ("tool_calls", "tool_use"),
    ("content_filter", "end_turn")]

/-- `choices[0]`, or nothing. -/
def firstChoice (response : Obj) : Option Obj :=
  let choices := Obj.get response "choices"
  if choices.truthy then
    match choices with
    | .arr (.obj choice :: _) => some choice
    | _ => none
  else some []

def responseUsage (u : Usage) (inputTokens : Option ℕ) : Obj :=
  [("input_tokens", if u.inputTokens = .null then .num (inputTokens.getD 0) else u.inputTokens),
    ("output_tokens", if u.outputTokens = .null then .num 0 else u.outputTokens)] ++ u.extras

/-- `uuid` gives the generated ids of the tool calls, `messageUuid` that of the message. -/
def convertOpenaiToAnthropicResponse (loads : Codec) (messageUuid : String) (uuid : ℕ → String)
    (response : Obj) (model : String) (inputTokens : Option ℕ) : Option Response := do
  let choice ← firstChoice response
  let message ← (Obj.getD choice "message" (.obj [])).asObj
  let stopReason ← stopReasonOf responseStopReasons (Obj.getD choice "finish_reason" (.str "stop"))
  let content ← contentBlocks loads uuid message
  let usage ← objOrEmpty (Obj.get response "usage")
  let usage ← readUsage usage
  return {
    id := Obj.getD response "id" (.str ("msg_" ++ messageUuid))
    content := content
    model := if model ≠ "" then .str model else Obj.getD response "model" (.str "")
    stopReason := stopReason
    usage := responseUsage usage inputTokens }

end OpenWebUI.Anthropic
