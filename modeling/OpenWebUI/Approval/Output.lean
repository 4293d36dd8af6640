import OpenWebUI.Lib.Json
import OpenWebUI.Lib.Keyed

/-! # The output of an assistant message

The items of a saved output that the tool-approval code reads: tool calls, their
results and the message the model continues with. A call is known by its `call_id`,
or by its `id` where that is missing or empty.
-/

namespace OpenWebUI.Approval

open Py

inductive Status where
  | pending
  | queued
  | requiresApproval
  | inProgress
  | completed
  | failed
  | rejected
  | incomplete
  | other (text : Option String)
deriving DecidableEq, Repr

structure FunctionCall where
  id : String
  callId : Option String
  name : String
  arguments : String
  status : Status
  approved : Bool
deriving DecidableEq, Repr

inductive Part where
  | inputText (text : String)
  | inputImage (imageUrl : String)
deriving DecidableEq, Repr

structure FunctionCallOutput where
  id : String
  callId : Option String
  output : List Part
  status : Status
  files : List Json
  embeds : List Json
deriving DecidableEq

/-- A message item: what was said, and whether the model still writes it. -/
structure MessageItem where
  id : String
  status : Status
  role : String
  content : List String
deriving DecidableEq

inductive Item where
  | functionCall (call : FunctionCall)
  | functionCallOutput (result : FunctionCallOutput)
  | message (message : MessageItem)
  | other (item : Json)
deriving DecidableEq

/-- `call_id`, or else `id`. -/
def FunctionCall.key (c : FunctionCall) : String :=
  match c.callId with
  | some k => if k = "" then c.id else k
  | none => c.id

def Item.call? : Item → Option FunctionCall
  | .functionCall c => some c
  | _ => none

def Item.result? : Item → Option FunctionCallOutput
  | .functionCallOutput r => some r
  | _ => none

def calls (output : List Item) : List FunctionCall := output.filterMap Item.call?

def results (output : List Item) : List FunctionCallOutput := output.filterMap Item.result?

/-- Some result answers the call known as `k`. -/
def hasResult (output : List Item) (k : String) : Bool :=
  (results output).any fun r => r.callId = some k

/-- The statuses a call without a result waits in. -/
def Status.open : Status → Bool
  | .pending | .queued | .requiresApproval | .inProgress => true
  | _ => false

/-- The statuses in which a user may still resolve a call. -/
def Status.resolvable : Status → Bool
  | .pending | .queued | .requiresApproval => true
  | _ => false

def isPending (output : List Item) (c : FunctionCall) : Bool :=
  !hasResult output c.key && c.status.open

def pendingToolCalls (output : List Item) : List FunctionCall :=
  (calls output).filter (isPending output)

/-- Edits the first tool call that satisfies `p`. -/
def editCall (p : FunctionCall → Bool) (f : FunctionCall → FunctionCall) : List Item → List Item
  | [] => []
  | .functionCall c :: rest =>
      if p c then .functionCall (f c) :: rest else .functionCall c :: editCall p f rest
  | item :: rest => item :: editCall p f rest

/-- The first call known as `k`. -/
def findCall (k : String) (output : List Item) : Option FunctionCall :=
  Keyed.find FunctionCall.key k (calls output)

def FunctionCall.setStatus (status : Status) (c : FunctionCall) : FunctionCall :=
  { c with status := status }

/-- `pending[0]['status'] = 'pending'`, where there is one. -/
def promoteFirst (output : List Item) : List Item :=
  editCall (isPending output) (.setStatus .pending) output

def toolContinuation (uuid : String) : Item :=
  .message { id := "msg_" ++ uuid, status := .inProgress, role := "assistant", content := [""] }

/-- The item is a message for the model to write. -/
def Item.isContinuation : Item → Bool
  | .message m => m.status = .inProgress && m.role = "assistant" && m.content = [""]
  | _ => false

/-! ## Reading edited outputs -/

@[simp] theorem calls_append (xs ys : List Item) : calls (xs ++ ys) = calls xs ++ calls ys :=
  List.filterMap_append

@[simp] theorem results_append (xs ys : List Item) :
    results (xs ++ ys) = results xs ++ results ys :=
  List.filterMap_append

@[simp] theorem calls_result (r : FunctionCallOutput) : calls [.functionCallOutput r] = [] := rfl

@[simp] theorem results_result (r : FunctionCallOutput) :
    results [.functionCallOutput r] = [r] := rfl

@[simp] theorem calls_continuation (uuid : String) : calls [toolContinuation uuid] = [] := rfl

@[simp] theorem results_continuation (uuid : String) : results [toolContinuation uuid] = [] := rfl

/-- Editing a call edits the list of calls in the same place. -/
@[simp] theorem calls_editCall (p : FunctionCall → Bool) (f : FunctionCall → FunctionCall)
    (output : List Item) : calls (editCall p f output) = Keyed.editFirst p f (calls output) := by
  fun_induction editCall p f output with
  | case1 => rfl
  | case2 c rest hc =>
      change f c :: calls rest = Keyed.editFirst p f (c :: calls rest)
      rw [Keyed.editFirst, if_pos hc]
  | case3 c rest hc ih =>
      change c :: calls (editCall p f rest) = Keyed.editFirst p f (c :: calls rest)
      rw [Keyed.editFirst, if_neg hc, ih]
  | case4 item rest h ih =>
      cases item with
      | functionCall c => exact absurd rfl (h c)
      | functionCallOutput r => exact ih
      | message m => exact ih
      | other j => exact ih

/-- Editing a call leaves the results alone. -/
@[simp] theorem results_editCall (p : FunctionCall → Bool) (f : FunctionCall → FunctionCall)
    (output : List Item) : results (editCall p f output) = results output := by
  fun_induction editCall p f output with
  | case1 => rfl
  | case2 c rest _ => rfl
  | case3 c rest _ ih => exact ih
  | case4 item rest h ih =>
      cases item with
      | functionCallOutput r => exact congrArg (r :: ·) ih
      | functionCall c => exact absurd rfl (h c)
      | message m => exact ih
      | other j => exact ih

/-- Without a call to edit nothing changes. -/
theorem editCall_of_none {p : FunctionCall → Bool} {f : FunctionCall → FunctionCall}
    {output : List Item} (h : (calls output).find? p = none) : editCall p f output = output := by
  fun_induction editCall p f output with
  | case1 => rfl
  | case2 c rest hc => exact absurd hc (List.find?_eq_none.mp h c List.mem_cons_self)
  | case3 c rest hc ih =>
      rw [ih (List.find?_eq_none.mpr fun c' hc' =>
        List.find?_eq_none.mp h c' (List.mem_cons_of_mem _ hc'))]
  | case4 item rest hitem ih =>
      cases item with
      | functionCall c => exact absurd rfl (hitem c)
      | functionCallOutput r => rw [ih h]
      | message m => rw [ih h]
      | other j => rw [ih h]

/-- How many messages wait for the model to write them. -/
def continuations (output : List Item) : ℕ := output.countP Item.isContinuation

/-- Editing a call continues nothing. -/
@[simp] theorem continuations_editCall (p : FunctionCall → Bool) (f : FunctionCall → FunctionCall)
    (output : List Item) : continuations (editCall p f output) = continuations output := by
  unfold continuations
  fun_induction editCall p f output with
  | case1 => rfl
  | case2 c rest _ => simp [Item.isContinuation]
  | case3 c rest _ ih => simp [List.countP_cons, ih]
  | case4 item rest _ ih => simp [List.countP_cons, ih]

@[simp] theorem continuations_result (output : List Item) (r : FunctionCallOutput) :
    continuations (output ++ [.functionCallOutput r]) = continuations output := by
  simp [continuations, Item.isContinuation]

@[simp] theorem continuations_continuation (output : List Item) (uuid : String) :
    continuations (output ++ [toolContinuation uuid]) = continuations output + 1 := by
  simp [continuations, toolContinuation, Item.isContinuation]

/-- Whether a call has a result can be seen from the results. -/
theorem hasResult_congr {xs ys : List Item} (h : results xs = results ys) (k : String) :
    hasResult xs k = hasResult ys k := by
  rw [hasResult, hasResult, h]

@[simp] theorem hasResult_editCall (p : FunctionCall → Bool) (f : FunctionCall → FunctionCall)
    (output : List Item) (k : String) : hasResult (editCall p f output) k = hasResult output k :=
  hasResult_congr (results_editCall p f output) k

@[simp] theorem hasResult_continuation (output : List Item) (uuid k : String) :
    hasResult (output ++ [toolContinuation uuid]) k = hasResult output k :=
  hasResult_congr (by simp) k

/-- One more result answers its own call and no other. -/
@[simp] theorem hasResult_result (output : List Item) (r : FunctionCallOutput) (k : String) :
    hasResult (output ++ [.functionCallOutput r]) k =
      (hasResult output k || decide (r.callId = some k)) := by
  simp [hasResult]

/-! ## Calls by their ids -/

/-- Every call has an id, and these are distinct. -/
structure Identified (output : List Item) : Prop where
  named : ∀ c ∈ calls output, c.key ≠ ""
  distinct : ((calls output).map FunctionCall.key).Nodup

/-- Where keys tell calls apart, each call is found under its key. -/
theorem find_of_mem {output : List Item} {c : FunctionCall} (h : Identified output)
    (hc : c ∈ calls output) : findCall c.key output = some c :=
  Keyed.find_of_mem h.distinct hc

/-- A result hides no call. -/
@[simp] theorem find_result (output : List Item) (r : FunctionCallOutput) (k : String) :
    findCall k (output ++ [.functionCallOutput r]) = findCall k output := by
  simp [findCall]

/-- A continuation hides no call. -/
@[simp] theorem find_continuation (output : List Item) (uuid k : String) :
    findCall k (output ++ [toolContinuation uuid]) = findCall k output := by
  simp [findCall]

/-- An edit that keeps keys keeps the ids. -/
theorem Identified.editCall {output : List Item} (h : Identified output) {p : FunctionCall → Bool}
    {f : FunctionCall → FunctionCall} (hf : ∀ c, p c → (f c).key = c.key) :
    Identified (editCall p f output) := by
  have hmap := Keyed.map_editFirst FunctionCall.key hf (calls output)
  constructor
  · intro c hc
    rw [calls_editCall] at hc
    have : c.key ∈ (calls output).map FunctionCall.key := hmap ▸ List.mem_map_of_mem hc
    obtain ⟨c', hc', heq⟩ := List.mem_map.mp this
    exact heq ▸ h.named c' hc'
  · rw [calls_editCall, hmap]
    exact h.distinct

/-- Only the calls need to be told apart. -/
theorem Identified.of_calls {xs ys : List Item} (h : Identified xs) (heq : calls ys = calls xs) :
    Identified ys :=
  ⟨fun c hc => h.named c (heq ▸ hc), heq ▸ h.distinct⟩

end OpenWebUI.Approval
