import OpenWebUI.Chat.History

/-! # Token usage

`normalize_usage` and `merge_usage` of `backend/open_webui/utils/response.py` and
`get_usage` of `backend/open_webui/models/chat_messages.py`. `none` stands for an
exception, raised when a count is no number.
-/

namespace OpenWebUI.Chat

open Py

/-- `int(x or 0)`. -/
def intOrZero (x : Json) : Option ℤ := (x.or (.num 0)).toInt

/-- The input count: the first spelling with a count, or the sum of llama.cpp's two when
every other spelling is missing. -/
def inputTokens (usage : Obj) : Option Json :=
  let input := ((usage.get "input_tokens").or (usage.get "prompt_tokens")).or
    (usage.get "prompt_eval_count")
  if input = .null then do
    return .num ((← intOrZero (usage.get "prompt_n")) + (← intOrZero (usage.get "cache_n")))
  else some input

/-- The output count, `0` when no spelling has one. -/
def outputTokens (usage : Obj) : Json :=
  ((((usage.get "output_tokens").or (usage.get "completion_tokens")).or
    (usage.get "eval_count")).or (usage.get "predicted_n")).or (.num 0)

/-- The total count, the sum of the two when it is missing. -/
def totalTokens (usage : Obj) (input output : Json) : Option Json :=
  if (usage.get "total_tokens").truthy then some (usage.get "total_tokens") else input.add output

def normalizeUsage (usage : Obj) : Option Obj :=
  if usage = [] then some []
  else do
    let input ← inputTokens usage
    let output := outputTokens usage
    let total ← totalTokens usage input output
    return Assoc.set (Assoc.set (Assoc.set usage "input_tokens" (.num (← input.toInt)))
      "output_tokens" (.num (← output.toInt))) "total_tokens" (.num (← total.toInt))

/-- `USAGE_TOKEN_KEYS | USAGE_COST_KEYS`. -/
def usageSummableKeys : List String :=
  ["input_tokens", "output_tokens", "total_tokens", "cost", "total_cost", "input_cost",
    "output_cost", "prompt_cost", "completion_cost"]

def usageDetailKeys : List String :=
  ["prompt_tokens_details", "completion_tokens_details", "input_tokens_details",
    "output_tokens_details"]

/-- The sum of two usage values, a value that is no number counting as `0`; unchanged when
neither is a number. -/
def addUsageValue (current incoming result : Json) : Json :=
  if current.asNum.isSome || incoming.asNum.isSome then
    .num (current.asNum.getD 0 + incoming.asNum.getD 0)
  else result

/-- The nesting depth of dictionaries, which bounds the recursion below. -/
def Obj.depth : Obj → Nat
  | [] => 0
  | (_, .obj o) :: rest => max (Obj.depth o + 1) (Obj.depth rest)
  | _ :: rest => Obj.depth rest

/-- `_merge_numeric_usage_map`, with the nesting depth as fuel. -/
def mergeNumericUsageMap : Nat → Obj → Obj → Obj
  | 0, current, incoming => Assoc.update current incoming
  | fuel + 1, current, incoming =>
    (Assoc.update current incoming).map fun p =>
      let currentValue := current.getD p.1 (.num 0)
      let incomingValue := incoming.getD p.1 (.num 0)
      if currentValue.asObj.isSome || incomingValue.asObj.isSome then
        (p.1, .obj (mergeNumericUsageMap fuel (currentValue.asObj.getD [])
          (incomingValue.asObj.getD [])))
      else (p.1, addUsageValue currentValue incomingValue p.2)

/-- One turn of the loop over the summable keys. -/
def mergeSummable (current incoming result : Obj) (key : String) : Obj :=
  if Assoc.has current key || Assoc.has incoming key then
    Assoc.set result key (addUsageValue (current.getD key (.num 0)) (incoming.getD key (.num 0))
      (result.get key))
  else result

/-- One turn of the loop over the detail keys. -/
def mergeDetails (current incoming result : Obj) (key : String) : Obj :=
  let currentMap := (current.get key).asObj
  let incomingMap := (incoming.get key).asObj
  if currentMap.isSome || incomingMap.isSome then
    let c := currentMap.getD []
    let i := incomingMap.getD []
    Assoc.set result key (.obj (mergeNumericUsageMap (Obj.depth c + Obj.depth i + 1) c i))
  else result

def mergeUsage (current incoming : Obj) : Option Obj := do
  let current ← normalizeUsage current
  let incoming ← normalizeUsage incoming
  if incoming = [] then return current
  if current = [] then return incoming
  let result := Assoc.update current incoming
  let result := usageSummableKeys.foldl (mergeSummable current incoming) result
  let result := usageDetailKeys.foldl (mergeDetails current incoming) result
  let result := Assoc.set result "prompt_tokens"
    (((incoming.get "prompt_tokens").or (incoming.get "input_tokens")).or
      (current.getD "prompt_tokens" (.num 0)))
  return Assoc.set result "completion_tokens"
    (((incoming.get "completion_tokens").or (incoming.get "output_tokens")).or
      (current.getD "completion_tokens" (.num 0)))

/-- The usage a message carries: its own, or that of its `info`. -/
def rawUsage (data : Message) : Option Json :=
  if (data.get "usage").truthy then some (data.get "usage")
  else do
    let info ← ((data.get "info").or (.obj [])).asObj
    return info.get "usage"

/-- `get_usage`: the outer `none` is an exception, the inner one Python's `None`. -/
def getUsage (data : Message) : Option (Option Obj) := do
  let usage ← rawUsage data
  if usage.truthy then
    let usage ← usage.asObj
    return some (← normalizeUsage usage)
  else return none

end OpenWebUI.Chat
