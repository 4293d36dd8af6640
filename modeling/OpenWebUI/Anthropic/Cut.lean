import OpenWebUI.Anthropic.Stream

/-! # Completions cut into chunks

What a whole completion and the chunks of a stream say, how a completion may be cut into
the parts of a stream, and how a client puts the events of a message together again. An
absent text is the empty one.
-/

namespace OpenWebUI.Anthropic

open Py

/-! ## Completions -/

structure Call where
  id : String
  name : String
  arguments : String
  deriving DecidableEq

structure Completion where
  reasoning : String
  text : String
  calls : List Call
  finishReason : Option String

/-- `v` is the text, or `None` in place of the empty one. -/
def IsText (s : String) (v : Json) : Prop := v = .str s ∨ s = "" ∧ v = .null

def finishJson (reason : Option String) : Json := reason.elim .null .str

/-- `v` is the tool call of a completion. -/
def IsCall (call : Call) (v : Json) : Prop :=
  ∃ o function, v = .obj o ∧ o.lookup "id" = some (.str call.id) ∧
    o.lookup "function" = some (.obj function) ∧
    function.lookup "name" = some (.str call.name) ∧
    function.lookup "arguments" = some (.str call.arguments)

/-- `v` is the list of what is in `l`, or `None` for the empty one. -/
def IsList {α : Type} (R : α → Json → Prop) (l : List α) (v : Json) : Prop :=
  (∃ xs, v = .arr xs ∧ List.Forall₂ R l xs) ∨ l = [] ∧ v = .null

/-- The message of a completion with no other thinking than `reasoning_content`. -/
structure IsMessage (c : Completion) (message : Obj) : Prop where
  reasoning : IsText c.reasoning (Obj.get message "reasoning_content")
  plain : ∀ key ∈ ["reasoning", "thinking", "thinking_blocks"], Obj.get message key = .null
  text : IsText c.text (Obj.get message "content")
  calls : IsList IsCall c.calls (Obj.get message "tool_calls")

/-- The response of a whole completion. Its usage can be read. -/
structure IsCompletion (c : Completion) (response : Obj) : Prop where
  choice : ∃ choice rest message, Obj.get response "choices" = .arr (.obj choice :: rest) ∧
    Obj.getD choice "message" (.obj []) = .obj message ∧ IsMessage c message ∧
    Obj.get choice "finish_reason" = finishJson c.finishReason
  usage : ((objOrEmpty (Obj.get response "usage")).bind readUsage).isSome

/-! ## Chunks -/

/-- A delta of a tool call. `call` is the call it belongs to, which it does not say. -/
structure Fragment where
  call : Call
  index : ℕ
  id : String
  name : String
  arguments : String

/-- What one chunk adds. -/
structure Part where
  reasoning : String
  text : String
  fragments : List Fragment
  finishReason : Option String

def Part.empty : Part := ⟨"", "", [], none⟩

/-- `v` is the delta of a tool call. -/
def IsFragment (f : Fragment) (v : Json) : Prop :=
  ∃ o function, v = .obj o ∧ Obj.getD o "index" (.num 0) = .num f.index ∧
    IsText f.id (Obj.getD o "id" (.str "")) ∧ objOrEmpty (Obj.get o "function") = some function ∧
    IsText f.name (Obj.getD function "name" (.str "")) ∧
    IsText f.arguments (Obj.getD function "arguments" (.str ""))

structure IsDelta (p : Part) (delta : Obj) : Prop where
  reasoning : IsText p.reasoning (Obj.get delta "reasoning_content")
  plain : ∀ key ∈ ["reasoning", "thinking", "thinking_blocks"], Obj.get delta key = .null
  text : IsText p.text (Obj.get delta "content")
  fragments : IsList IsFragment p.fragments (Obj.get delta "tool_calls")

/-- `o` is a chunk without an error; one without a choice, as the one with the usage, adds
nothing. -/
structure IsChunk (p : Part) (o : Obj) : Prop where
  error : (Obj.get o "error").truthy = false
  usage : ∀ usage, Obj.get o "usage" = .obj usage → (readUsage usage).isSome
  choice : (∃ choice rest delta, Obj.getD o "choices" (.arr []) = .arr (.obj choice :: rest) ∧
      Obj.getD choice "delta" (.obj []) = .obj delta ∧ Obj.get choice "message" = .null ∧
      IsDelta p delta ∧ Obj.get choice "finish_reason" = finishJson p.finishReason) ∨
    (Obj.getD o "choices" (.arr [])).truthy = false ∧ p = Part.empty

/-- The texts of all lines of the chunks. -/
def Source.payloads (source : Source) : List String :=
  source.chunks.flatMap fun chunk => match chunk with
    | .text s => Anthropic.payloads s
    | .other => []

/-- The lines of the stream are the parts. -/
structure IsStream (loads : Codec) (parts : List Part) (source : Source) : Prop where
  text : ∀ chunk ∈ source.chunks, chunk ≠ .other
  ends : source.raises = false
  lines : List.Forall₂ (fun p line => ∃ o, loads line = .value (.obj o) ∧ IsChunk p o) parts
    source.payloads

/-! ## Cuts -/

/-- Reasoning comes before text, and both before tool calls. -/
def Part.Precedes (p q : Part) : Prop :=
  (p.text ≠ "" → q.reasoning = "") ∧ (p.fragments ≠ [] → q.reasoning = "" ∧ q.text = "")

def fragmentsOf (parts : List Part) : List Fragment := parts.flatMap Part.fragments

/-- The arguments of a call so far. -/
def argumentsOf (frags : List Fragment) (call : Call) : String :=
  String.join ((frags.filter fun f => f.call = call).map Fragment.arguments)

/-- The call whose id was last sent under an index. -/
def callAt (frags : List Fragment) (index : ℕ) : Option Call :=
  ((frags.filter fun f => f.index = index ∧ f.id ≠ "").getLast?).map Fragment.call

/-- The calls in the order their names arrive. -/
def namedOrder (frags : List Fragment) : List Call :=
  frags.foldl (fun seen f => if f.name ≠ "" ∧ f.call ∉ seen then seen ++ [f.call] else seen) []

/-- `f` may come after `before`: it says the id of its call, or comes under the index its
call's id was last sent under, and has no arguments before the name. -/
structure Follows (before : List Fragment) (f : Fragment) : Prop where
  id : f.id = f.call.id ∨ f.id = "" ∧ callAt before f.index = some f.call
  name : f.name = f.call.name ∨ f.name = ""
  named : f.arguments ≠ "" → f.name ≠ "" ∨ f.call ∈ namedOrder before

/-- The parts are a way of cutting the completion. -/
structure IsCut (c : Completion) (parts : List Part) : Prop where
  order : parts.Pairwise Part.Precedes
  reasoning : String.join (parts.map Part.reasoning) = c.reasoning
  text : String.join (parts.map Part.text) = c.text
  finishReason : parts.filterMap Part.finishReason = c.finishReason.toList
  calls : ∀ f ∈ fragmentsOf parts, f.call ∈ c.calls
  follows : ∀ before f after, fragmentsOf parts = before ++ f :: after → Follows before f
  arguments : ∀ call ∈ c.calls, argumentsOf (fragmentsOf parts) call = call.arguments

/-- The calls have a name each, distinct ids and objects for arguments. -/
structure Completion.Plain (loads : Codec) (c : Completion) : Prop where
  ids : (c.calls.map Call.id).Nodup
  id : ∀ call ∈ c.calls, call.id ≠ ""
  name : ∀ call ∈ c.calls, call.name ≠ ""
  arguments : ∀ call ∈ c.calls, ∃ members, loads call.arguments = .value (.obj members)

/-- What the conversions rely on: an empty text does not decode, a text that decodes to an
object has no shorter part that decodes to something else, and none on which decoding
breaks down. -/
structure Codec.Lawful (loads : Codec) : Prop where
  empty : ∀ v, loads "" ≠ .value v
  part : ∀ s t members, loads (s ++ t) = .value (.obj members) →
    loads s ≠ .otherError ∧ ∀ v, loads s = .value v → v = .obj members

/-! ## Putting the events together -/

/-- The started blocks in order. -/
def startedBlocks (events : List Event) : List (ℤ × Block) :=
  events.filterMap fun e => match e with
    | .contentBlockStart i b => some (i, b)
    | _ => none

def deltasAt (events : List Event) (i : ℤ) : List Delta :=
  events.filterMap fun e => match e with
    | .contentBlockDelta j d => if j = i then some d else none
    | _ => none

def thinkingText (deltas : List Delta) : String :=
  String.join (deltas.filterMap fun d => match d with
    | .thinking v => v.asStr
    | _ => none)

def proseText (deltas : List Delta) : String :=
  String.join (deltas.filterMap fun d => match d with
    | .text v => v.asStr
    | _ => none)

def inputText (deltas : List Delta) : String :=
  String.join (deltas.filterMap fun d => match d with
    | .inputJson s => some s
    | _ => none)

/-- A block with what its deltas add; the input of a tool is decoded. -/
def assembleBlock (loads : Codec) (events : List Event) (b : ℤ × Block) : Option Block :=
  let deltas := deltasAt events b.1
  match b.2 with
  | .thinking _ signature => some (.thinking (.str (thinkingText deltas)) signature)
  | .text _ => some (.text (.str (proseText deltas)))
  | .toolUse id name _ => match loads (inputText deltas) with
    | .value input => some (.toolUse id name input)
    | _ => none
  | b => some b

/-- The content a client puts together. -/
def assemble (loads : Codec) (events : List Event) : Option (List Block) :=
  (startedBlocks events).mapM (assembleBlock loads events)

/-- The stop reason a client is told last. -/
def reportedStopReason (events : List Event) : Option String :=
  (events.filterMap fun e => match e with
    | .messageDelta reason _ => some reason
    | _ => none).getLast?

end OpenWebUI.Anthropic
