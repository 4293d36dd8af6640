import OpenWebUI.Output.Distribute

/-! # The live tool loop

`streaming_chat_response_handler` after a stream: the collected calls are resolved, staged
and executed, and their results are appended to the round's output. A round that does not
pause ends with the result of a finished call, and each result stands after its call.
-/

namespace OpenWebUI.Output

open Py

/-! ## One round -/

/-- A collected call, after `tool_call.get('id') or output_id('fc')` and `resolve_tool_call`. -/
structure LiveCall where
  id : String
  id_ne : id ≠ ""
  function : Function
  providerFunction : Option Function
  /-- What `resolve_tool_call` returns. -/
  error : Option String

/-- The result of an executed call, with the images the model is shown. -/
structure ToolResult where
  content : String
  imageUrls : List String
  /-- `_is_tool_result_error`. -/
  isError : Bool

/-- What the loop asks of the rest of the system. -/
structure Environment where
  execute : LiveCall → ToolResult
  /-- `normalize_ask_user_request` on the arguments: the normalized text, or an error. -/
  normalizeAskUser : Json → Except String Json
  /-- The chat is saved, so a question or an approval ends the reply for now. -/
  saved : Bool
  /-- `tool_approval_mode` is `ask`. -/
  asks : Bool
  /-- An item's own `id` is the call's. -/
  sameItem : LiveCall → FunctionCall → Bool
  /-- The `id` of an item is not the call id of another call. -/
  sameItem_callId : ∀ call item, sameItem call item = true → item.callId = call.id ∨
    item.callId = ""

/-- Change the first call with a property; `none` when there is none. -/
def modifyFirst (p : FunctionCall → Bool) (f : FunctionCall → FunctionCall) :
    List Item → Option (List Item)
  | [] => none
  | .functionCall call :: items =>
      if p call then some (.functionCall (f call) :: items)
      else (modifyFirst p f items).map (.functionCall call :: ·)
  | item :: items => (modifyFirst p f items).map (item :: ·)

/-- Change the last one. -/
def modifyLast (p : FunctionCall → Bool) (f : FunctionCall → FunctionCall) (items : List Item) :
    Option (List Item) :=
  (modifyFirst p f items.reverse).map List.reverse

/-- `{'type': 'function_call_output', …}`. -/
def resultItem (id content : String) (imageUrls : List String) : Item :=
  .functionCallOutput id (⟨"input_text", content, ""⟩ :: imageUrls.map fun url =>
    ⟨"input_image", "", url⟩)

/-- Resolving one call: its item is found or appended, and an error is its result. -/
def resolveCall (acc : List Item × List LiveCall) (call : LiveCall) : List Item × List LiveCall :=
  let update := fun item : FunctionCall => { item with
    function := call.function
    status := if call.error.isSome then "failed" else item.status
    providerFunction := call.providerFunction.or item.providerFunction }
  let output := (modifyLast (·.callId = call.id) update acc.1).getD
    (acc.1 ++ [.functionCall (update ⟨call.id, "in_progress", call.function, none⟩)])
  match call.error with
  | some error => (output ++ [resultItem call.id error []], acc.2)
  | none => (output, acc.2 ++ [call])

/-- The call is to `ask_user`. -/
def LiveCall.isAskUser (call : LiveCall) : Bool := call.function.name = "ask_user"

/-- One question of `stage_ask_user_tool_calls`; an error holds for the questions after it. -/
def stageQuestion (env : Environment) (acc : List Item × Option String) (call : LiveCall) :
    List Item × Option String :=
  let staged : Json × Option String := match acc.2 with
    | some error => (call.function.arguments, some error)
    | none => match env.normalizeAskUser call.function.arguments with
        | .ok arguments => (arguments, none)
        | .error error => (call.function.arguments, some ("Error: " ++ error))
  let item : FunctionCall → FunctionCall := fun existing => { existing with
    callId := call.id
    function := ⟨"ask_user", staged.1⟩
    status := if staged.2.isSome then "completed" else "pending" }
  let output := (modifyFirst
    (fun existing => existing.callId = call.id || env.sameItem call existing ||
      (existing.callId = "" && existing.function.name = "ask_user" &&
        existing.status ∉ ["rejected", "failed"])) item acc.1).getD
    (acc.1 ++ [.functionCall (item ⟨call.id, "", ⟨"ask_user", staged.1⟩, none⟩)])
  match staged.2 with
  | some error => (output ++ [resultItem call.id error []], some error)
  | none => (output, none)

/-- `stage_ask_user_tool_calls`. -/
def stageAskUserToolCalls (env : Environment) (calls : List LiveCall) (output : List Item) :
    List Item × Option String :=
  (calls.filter LiveCall.isAskUser).foldl (stageQuestion env) (output,
    if calls.length ≠ 1 then
      some
        "Error: ask_user must be the only tool call, so it did not run. Call ask_user on its own."
    else none)

/-- Pending questions of a chat that is not saved go on. -/
def resumeQuestions (output : List Item) : List Item :=
  output.map fun item => match item with
    | .functionCall call =>
        if call.function.name = "ask_user" ∧ call.status = "pending" then
          .functionCall { call with status := "in_progress" }
        else item
    | _ => item

/-- The item of an executed call gets its status and its arguments. -/
def finishCall (env : Environment) (output : List Item) (call : LiveCall) : List Item :=
  (modifyFirst (·.callId = call.id) (fun item => { item with
    status := if (env.execute call).isError then "failed" else "completed"
    function := { item.function with arguments := call.function.arguments } }) output).getD output

/-- The results are appended, then the calls are finished. -/
def executeCalls (env : Environment) (calls : List LiveCall) (output : List Item) : List Item :=
  calls.foldl (finishCall env) (output ++ calls.map fun call =>
    resultItem call.id (env.execute call).content (env.execute call).imageUrls)

/-- A round's output once its calls are done; `none` where the reply pauses. -/
def toolRound (env : Environment) (streamed : List Item) (calls : List LiveCall) :
    Option (List Item) :=
  let (output, response) := calls.foldl resolveCall (streamed, [])
  if response.any LiveCall.isAskUser then
    let (output, error) := stageAskUserToolCalls env response output
    if error.isSome then finish env output (response.filter fun call => !call.isAskUser)
    else if env.saved then none
    else finish env (resumeQuestions output) response
  else finish env output response
where
  finish (env : Environment) (output : List Item) (response : List LiveCall) : Option (List Item) :=
    if response ≠ [] ∧ env.asks ∧ env.saved then none
    else some (executeCalls env response output)

/-! ## Calls that are changed or added -/

/-- A call is changed, and a call id it has stays, or it is added. -/
inductive Writes (call : FunctionCall) : List Item → List Item → Prop where
  | change (before : List Item) (old : FunctionCall) (after : List Item)
      (hid : old.callId ≠ "" → call.callId = old.callId) :
      Writes call (before ++ .functionCall old :: after) (before ++ .functionCall call :: after)
  | add (items : List Item) : Writes call items (items ++ [.functionCall call])

section Writes

variable {p : FunctionCall → Bool} {f : FunctionCall → FunctionCall} {items items' out : List Item}
  {call : FunctionCall} {env : Environment}

/-- What is modified is a call of the list that passes the test. -/
theorem modifyFirst_spec : ∀ {items out : List Item}, modifyFirst p f items = some out →
    ∃ before call after, items = before ++ .functionCall call :: after ∧ p call = true ∧
      out = before ++ .functionCall (f call) :: after := by
  intro items
  induction items with
  | nil =>
      intro out h
      cases h
  | cons item items ih =>
      intro out h
      have hrest : ∀ {rest}, (modifyFirst p f items).map (item :: ·) = some rest →
          ∃ before call after, item :: items = before ++ .functionCall call :: after ∧
            p call = true ∧
            rest = before ++ .functionCall (f call) :: after := by
        intro rest hrest
        obtain ⟨out', hout', rfl⟩ := Option.map_eq_some_iff.mp hrest
        obtain ⟨before, call, after, rfl, hp, rfl⟩ := ih hout'
        exact ⟨item :: before, call, after, rfl, hp, rfl⟩
      cases item with
      | functionCall call =>
          rw [modifyFirst] at h
          split_ifs at h with hp
          · exact ⟨[], call, items, rfl, hp, (Option.some.inj h).symm⟩
          · exact hrest h
      | _ => exact hrest h

/-- Nothing is modified where no call passes the test. -/
theorem modifyFirst_none : ∀ {items : List Item}, modifyFirst p f items = none →
    ∀ call, .functionCall call ∈ items → p call = false := by
  intro items
  induction items with
  | nil =>
      intro _ call hcall
      cases hcall
  | cons item items ih =>
      intro h call hcall
      cases item with
      | functionCall first =>
          rw [modifyFirst] at h
          split_ifs at h with hp
          rcases List.mem_cons.mp hcall with heq | hcall
          · obtain rfl := Item.functionCall.inj heq
            exact Bool.eq_false_iff.mpr hp
          · exact ih (Option.map_eq_none_iff.mp h) call hcall
      | _ =>
          exact ih (Option.map_eq_none_iff.mp h) call
            ((List.mem_cons.mp hcall).resolve_left (by simp))

/-- What is modified last is a call of the list that passes the test. -/
theorem modifyLast_spec (h : modifyLast p f items = some out) :
    ∃ before call after, items = before ++ .functionCall call :: after ∧ p call = true ∧
      out = before ++ .functionCall (f call) :: after := by
  obtain ⟨out', hout', rfl⟩ := Option.map_eq_some_iff.mp h
  obtain ⟨before, call, after, heq, hp, rfl⟩ := modifyFirst_spec hout'
  refine ⟨after.reverse, call, before.reverse, ?_, hp, ?_⟩
  · rw [← List.reverse_reverse items, heq]
    simp
  · simp

theorem Writes.mem (h : Writes call items items') : .functionCall call ∈ items' := by
  cases h with
  | change before old after hid => exact List.mem_append_right _ List.mem_cons_self
  | add => exact List.mem_append_right _ (List.mem_singleton_self _)

theorem callIds_cons (call : FunctionCall) (items : List Item) :
    callIds (.functionCall call :: items) =
      (if call.callId = "" then [] else [call.callId]) ++ callIds items := by
  rw [callIds, List.filterMap_cons]
  dsimp only
  split_ifs <;> rfl

/-- Writing a call loses no id. -/
theorem Writes.callIds_subset (h : Writes call items items') : callIds items ⊆ callIds items' := by
  intro id hmem
  cases h with
  | change before old after hid =>
      rw [callIds_append, callIds_cons] at hmem ⊢
      rcases List.mem_append.mp hmem with hmem | hmem
      · exact List.mem_append_left _ hmem
      · refine List.mem_append_right _ ?_
        rcases List.mem_append.mp hmem with hmem | hmem
        · split_ifs at hmem with hne
          · cases hmem
          · rw [if_neg (by rwa [hid hne]), hid hne]
            exact List.mem_append_left _ hmem
        · exact List.mem_append_right _ hmem
  | add =>
      rw [callIds_append]
      exact List.mem_append_left _ hmem

/-- Results after their calls stay after them. -/
theorem Writes.resultsFollow (h : Writes call items items') (hfollow : ResultsFollow items) :
    ResultsFollow items' := by
  cases h with
  | change before old after hid =>
      intro front id parts rest heq
      rcases List.append_eq_append_iff.mp heq with ⟨mid, rfl, hmid⟩ | ⟨mid, rfl, hmid⟩
      · -- the result stands after the call that changed
        cases mid with
        | nil => cases hmid
        | cons item mid =>
            obtain ⟨rfl, rfl⟩ := List.cons.inj hmid
            have hold : id ∈ callIds (before ++ .functionCall old :: mid) :=
              hfollow (before ++ .functionCall old :: mid) id parts rest (by simp)
            exact (Writes.change before old mid hid).callIds_subset hold
      · cases mid with
        | nil => cases hmid
        | cons item mid =>
            obtain ⟨rfl, rfl⟩ := List.cons.inj hmid
            exact hfollow front id parts (mid ++ .functionCall old :: after) (by simp)
  | add =>
      refine hfollow.append ?_
      intro before id parts after heq
      cases before with
      | nil => cases heq
      | cons item before =>
          obtain ⟨-, hnil⟩ := List.cons.inj heq
          cases before <;> cases hnil

/-- Results of calls that are there can be added. -/
theorem ResultsFollow.append_results {results : List Item} (hfollow : ResultsFollow items)
    (hresults : ∀ id parts, .functionCallOutput id parts ∈ results → id ∈ callIds items) :
    ResultsFollow (items ++ results) := by
  intro before id parts after heq
  rcases List.append_eq_append_iff.mp heq with ⟨mid, rfl, hmid⟩ | ⟨mid, rfl, hmid⟩
  · rw [callIds_append]
    refine List.mem_append_left _ (hresults id parts ?_)
    rw [hmid]
    exact List.mem_append_right _ List.mem_cons_self
  · cases mid with
    | nil =>
        rw [List.nil_append] at hmid
        have hid := hresults id parts (hmid ▸ List.mem_cons_self)
        rwa [List.append_nil] at hid
    | cons item mid =>
        obtain ⟨rfl, rfl⟩ := List.cons.inj hmid
        exact hfollow before id parts mid rfl

/-- The result of a finished call at the end settles the output. -/
theorem settled_result {content : String} {urls : List String} (hcall : .functionCall call ∈ items)
    (hne : call.callId ≠ "") (hstatus : call.status ∈ ["completed", "failed", "rejected"]) :
    Settled (items ++ [resultItem call.callId content urls]) := by
  refine ⟨items, call.callId, _, rfl, mem_functionCallIds_iff.mpr ⟨hne, ?_, ?_⟩⟩
  · exact ⟨call, List.mem_append_left _ hcall, rfl, hstatus⟩
  · exact ⟨_, List.mem_append_right _ (List.mem_singleton_self _)⟩

/-- A result of a stored call follows it. -/
theorem resultsFollow_result {content : String} {urls : List String} (hfollow : ResultsFollow items)
    (hcall : .functionCall call ∈ items) (hne : call.callId ≠ "") :
    ResultsFollow (items ++ [resultItem call.callId content urls]) := by
  refine hfollow.append_results fun id parts hmem => ?_
  obtain ⟨rfl, -⟩ := Item.functionCallOutput.inj (List.mem_singleton.mp hmem)
  exact mem_callIds hcall hne

end Writes

/-! ## What a round ends with -/

/-- Results stand after their calls, and the calls to come have items. -/
structure Ready (output : List Item) (calls : List LiveCall) : Prop where
  follow : ResultsFollow output
  items : ∀ call ∈ calls, call.id ∈ callIds output

section Round

variable {env : Environment} {output : List Item} {calls : List LiveCall} {call : LiveCall}

/-- Writing a call keeps the output ready. -/
theorem Ready.mono {output' : List Item} {item : FunctionCall} (h : Ready output calls)
    (hwrites : Writes item output output') : Ready output' calls where
  follow := hwrites.resultsFollow h.follow
  items := fun call hcall => hwrites.callIds_subset (h.items call hcall)

/-- Resolving a call: it is left to run, or its error is the last item. -/
theorem resolveCall_spec {acc : List Item × List LiveCall} (h : Ready acc.1 acc.2)
    (call : LiveCall) :
    Ready (resolveCall acc call).1 (resolveCall acc call).2 ∧
      ((resolveCall acc call).2 ≠ [] ∨ Settled (resolveCall acc call).1) := by
  unfold resolveCall
  extract_lets update output
  -- the call's item is written, at its place or at the end
  have hwrites : ∃ item : FunctionCall, item.callId = call.id ∧
      (call.error.isSome → item.status = "failed") ∧ Writes item acc.1 output := by
    cases hlast : modifyLast (·.callId = call.id) update acc.1 with
    | none =>
        refine ⟨update ⟨call.id, "in_progress", call.function, none⟩, rfl,
          fun herror => if_pos herror, ?_⟩
        simp only [output, hlast]
        exact Writes.add _
    | some out =>
        obtain ⟨before, old, after, heq, hp, rfl⟩ := modifyLast_spec hlast
        refine ⟨update old, of_decide_eq_true hp, fun herror => if_pos herror, ?_⟩
        simp only [output, hlast]
        rw [heq]
        exact Writes.change _ _ _ fun _ => rfl
  obtain ⟨item, hid, hstatus, hwrites⟩ := hwrites
  have hready := h.mono hwrites
  have hne : item.callId ≠ "" := hid ▸ call.id_ne
  cases herror : call.error with
  -- no error: the call is one to run
  | none =>
      refine ⟨⟨hready.follow, ?_⟩,
        Or.inl (List.append_ne_nil_of_right_ne_nil _ (List.cons_ne_nil _ _))⟩
      intro other hother
      rcases List.mem_append.mp hother with hother | hother
      · exact hready.items other hother
      · rw [List.mem_singleton.mp hother, ← hid]
        exact mem_callIds hwrites.mem hne
  -- an error: its result is written at once
  | some error =>
      dsimp only
      rw [← hid]
      refine ⟨⟨resultsFollow_result hready.follow hwrites.mem hne, ?_⟩, Or.inr ?_⟩
      · intro other hother
        rw [callIds_append]
        exact List.mem_append_left _ (hready.items other hother)
      · refine settled_result hwrites.mem hne ?_
        rw [hstatus (by rw [herror]; rfl)]
        decide

/-- All the calls are resolved, and the output is settled where none is left to run. -/
theorem foldl_resolveCall (calls : List LiveCall) : ∀ {acc : List Item × List LiveCall},
    Ready acc.1 acc.2 → (acc.2 ≠ [] ∨ Settled acc.1) →
    Ready (calls.foldl resolveCall acc).1 (calls.foldl resolveCall acc).2 ∧
      ((calls.foldl resolveCall acc).2 ≠ [] ∨ Settled (calls.foldl resolveCall acc).1) := by
  induction calls with
  | nil => exact fun h hends => ⟨h, hends⟩
  | cons call calls ih =>
      intro acc h _
      obtain ⟨hready, hends⟩ := resolveCall_spec h call
      exact ih hready hends

/-- A question is staged, or its error is the last item. -/
theorem stageQuestion_spec {acc : List Item × Option String} (h : Ready acc.1 calls)
    (call : LiveCall) :
    Ready (stageQuestion env acc call).1 calls ∧
      ((stageQuestion env acc call).2.isSome → Settled (stageQuestion env acc call).1) := by
  unfold stageQuestion
  extract_lets staged item output
  have hwrites : ∃ written : FunctionCall, written.callId = call.id ∧
      (staged.2.isSome → written.status = "completed") ∧ Writes written acc.1 output := by
    cases hfirst :
      modifyFirst (fun existing => existing.callId = call.id || env.sameItem call existing ||
        (existing.callId = "" && existing.function.name = "ask_user" &&
          existing.status ∉ ["rejected", "failed"])) item acc.1 with
    | none =>
        refine ⟨item ⟨call.id, "", ⟨"ask_user", staged.1⟩, none⟩, rfl,
          fun herror => if_pos herror, ?_⟩
        simp only [output, hfirst]
        exact Writes.add _
    | some out =>
        obtain ⟨before, old, after, heq, hp, rfl⟩ := modifyFirst_spec hfirst
        refine ⟨item old, rfl, fun herror => if_pos herror, ?_⟩
        simp only [output, hfirst]
        rw [heq]
        refine Writes.change _ _ _ fun hne => ?_
        -- an item with a call id is this call's
        simp only [Bool.or_eq_true, Bool.and_eq_true, decide_eq_true_eq] at hp
        rcases hp with (hp | hp) | hp
        · exact hp.symm
        · exact ((env.sameItem_callId call old hp).resolve_right hne).symm
        · exact absurd hp.1.1 hne
  obtain ⟨written, hid, hstatus, hwrites⟩ := hwrites
  have hready := h.mono hwrites
  have hne : written.callId ≠ "" := hid ▸ call.id_ne
  cases herror : staged.2 with
  | none => exact ⟨hready, fun hsome => by cases hsome⟩
  | some error =>
      dsimp only
      rw [← hid]
      refine ⟨⟨resultsFollow_result hready.follow hwrites.mem hne, ?_⟩, fun _ => ?_⟩
      · intro other hother
        rw [callIds_append]
        exact List.mem_append_left _ (hready.items other hother)
      · refine settled_result hwrites.mem hne ?_
        rw [hstatus (by rw [herror]; rfl)]
        decide

/-- Questions are staged one after the other. -/
theorem foldl_stageQuestion (asked : List LiveCall) : ∀ {acc : List Item × Option String},
    Ready acc.1 calls → (acc.2.isSome → asked = [] → Settled acc.1) →
    Ready (asked.foldl (stageQuestion env) acc).1 calls ∧
      ((asked.foldl (stageQuestion env) acc).2.isSome →
        Settled (asked.foldl (stageQuestion env) acc).1) := by
  induction asked with
  | nil => exact fun h hends => ⟨h, fun herror => hends herror rfl⟩
  | cons call asked ih =>
      intro acc h _
      obtain ⟨hready, hends⟩ := stageQuestion_spec h call
      exact ih hready fun herror _ => hends herror

/-- Going on with the questions changes no call id. -/
theorem callIds_resumeQuestions (output : List Item) :
    callIds (resumeQuestions output) = callIds output := by
  rw [callIds, resumeQuestions, List.filterMap_map]
  refine List.filterMap_congr fun item _ => ?_
  cases item with
  | functionCall call =>
      by_cases hpending : call.function.name = "ask_user" ∧ call.status = "pending"
      · simp only [Function.comp_apply, if_pos hpending]
      · simp only [Function.comp_apply, if_neg hpending]
  | _ => rfl

/-- Taking up the questions again keeps the output ready. -/
theorem Ready.resumeQuestions (h : Ready output calls) : Ready (resumeQuestions output) calls where
  follow := by
    intro before id parts after heq
    obtain ⟨before', rest, rfl, rfl, hrest⟩ := List.map_eq_append_iff.mp heq
    cases rest with
    | nil => cases hrest
    | cons item rest =>
        have hitem := (List.cons.inj hrest).1
        have hsame : item = .functionCallOutput id parts := by
          cases item with
          | functionCall call =>
              dsimp only at hitem
              split_ifs at hitem
          | _ => exact hitem
        subst hsame
        have hid := h.follow before' id parts rest rfl
        rwa [← callIds_resumeQuestions] at hid
  items := fun call hcall => (callIds_resumeQuestions output).symm ▸ h.items call hcall

/-- The last item is the result `last`. -/
def EndsWith (output : List Item) (last : String × List OutputPart) : Prop :=
  ∃ before, output = before ++ [.functionCallOutput last.1 last.2]

/-- A call that ran is over, before the last output. -/
theorem finishCall_spec {last : String × List OutputPart} (h : Ready output calls)
    (hcall : call ∈ calls) (hlast : EndsWith output last) :
    Ready (finishCall env output call) calls ∧ EndsWith (finishCall env output call) last ∧
      ∃ item, .functionCall item ∈ finishCall env output call ∧ item.callId = call.id ∧
        item.status ∈ ["completed", "failed", "rejected"] := by
  unfold finishCall
  generalize hfinish : (fun item : FunctionCall => { item with
    status := if (env.execute call).isError then "failed" else "completed"
    function := { item.function with arguments := call.function.arguments } }) = finish
  have hid : ∀ item, (finish item).callId = item.callId := fun item => by rw [← hfinish]
  have hstatus : ∀ item, (finish item).status ∈ ["completed", "failed", "rejected"] := by
    intro item
    rw [← hfinish]
    dsimp only
    split_ifs <;> decide
  obtain ⟨-, item, hitem, hitemId⟩ := exists_of_mem_callIds (h.items call hcall)
  cases hfirst : modifyFirst (·.callId = call.id) finish output with
  | none =>
      have hnone := modifyFirst_none hfirst item hitem
      exact absurd hitemId (of_decide_eq_false hnone)
  | some out =>
      obtain ⟨before, old, after, rfl, hp, rfl⟩ := modifyFirst_spec hfirst
      refine ⟨h.mono (Writes.change before old after fun _ => hid old), ?_, finish old, ?_,
        ?_, hstatus old⟩
      · -- the result that ends the output is no call, so it is not the item that changed
        obtain ⟨front, heq⟩ := hlast
        rcases List.eq_nil_or_concat after with rfl | ⟨after', x, rfl⟩
        · have hsame := (List.append_inj' heq rfl).2
          cases hsame
        · rw [List.concat_eq_append, ← List.cons_append, ← List.append_assoc] at heq
          obtain ⟨-, hsame⟩ := List.append_inj' heq rfl
          obtain rfl := (List.cons.inj hsame).1
          exact ⟨before ++ .functionCall (finish old) :: after', by simp⟩
      · exact List.mem_append_right _ List.mem_cons_self
      · rw [hid]
        exact of_decide_eq_true hp

/-- All the calls that ran are over, before the last output. -/
theorem foldl_finishCall {last : String × List OutputPart} (some : List LiveCall) :
    ∀ {output : List Item}, Ready output calls → some ⊆ calls → EndsWith output last →
      Ready (some.foldl (finishCall env) output) calls ∧
        EndsWith (some.foldl (finishCall env) output) last := by
  induction some with
  | nil => exact fun h _ hlast => ⟨h, hlast⟩
  | cons call some ih =>
      intro output h hsub hlast
      obtain ⟨hready, hends, -⟩ := finishCall_spec h (hsub List.mem_cons_self) hlast
      exact ih hready (List.subset_of_cons_subset hsub) hends

/-- Once all calls have run, the output ends with the result of a finished call. -/
theorem executeCalls_spec (h : Ready output calls) (hends : calls ≠ [] ∨ Settled output) :
    ResultsFollow (executeCalls env calls output) ∧ Settled (executeCalls env calls output) := by
  rcases List.eq_nil_or_concat calls with rfl | ⟨first, last, rfl⟩
  · rw [executeCalls, List.map_nil, List.append_nil]
    exact ⟨h.follow, hends.resolve_left (fun hne => hne rfl)⟩
  · rw [List.concat_eq_append] at h ⊢
    let result := fun call : LiveCall =>
      resultItem call.id (env.execute call).content (env.execute call).imageUrls
    have hready : Ready (output ++ (first ++ [last]).map result) (first ++ [last]) := by
      constructor
      · refine h.follow.append_results fun id parts hmem => ?_
        obtain ⟨call, hcall, heq⟩ := List.mem_map.mp hmem
        obtain ⟨rfl, -⟩ := Item.functionCallOutput.inj heq
        exact h.items call hcall
      · intro call hcall
        rw [callIds_append]
        exact List.mem_append_left _ (h.items call hcall)
    have hlast : EndsWith (output ++ (first ++ [last]).map result) (last.id,
        ⟨"input_text", (env.execute last).content, ""⟩ ::
          (env.execute last).imageUrls.map fun url => ⟨"input_image", "", url⟩) :=
      ⟨output ++ first.map result, by rw [List.map_append, List.append_assoc]; rfl⟩
    obtain ⟨hready, hlast⟩ := foldl_finishCall first hready (List.subset_append_left _ _) hlast
    obtain ⟨hready, ⟨before, heq⟩, item, hitem, hid, hstatus⟩ :=
      finishCall_spec hready (List.mem_append_right _ (List.mem_singleton_self last)) hlast
    have hexecute : executeCalls env (first ++ [last]) output = finishCall env
        (first.foldl (finishCall env) (output ++ (first ++ [last]).map result)) last := by
      rw [executeCalls, List.foldl_append]
      rfl
    rw [hexecute]
    refine ⟨hready.follow, before, _, _, heq, mem_functionCallIds_iff.mpr ⟨last.id_ne, ?_⟩⟩
    refine ⟨⟨item, hitem, hid, hstatus⟩, ?_⟩
    rw [heq]
    exact ⟨_, List.mem_append_right _ (List.mem_singleton_self _)⟩

/-- Some of the calls are as ready as all of them. -/
theorem Ready.filter (h : Ready output calls) (p : LiveCall → Bool) :
    Ready output (calls.filter p) where
  follow := h.follow
  items := fun call hcall => h.items call (List.mem_filter.mp hcall).1

/-- Where there are questions they are staged, or the last item is an error. -/
theorem stageAskUserToolCalls_spec (env : Environment) (h : Ready output calls)
    (hask : calls.any LiveCall.isAskUser = true) :
    Ready (stageAskUserToolCalls env calls output).1 calls ∧
      ((stageAskUserToolCalls env calls output).2.isSome →
        Settled (stageAskUserToolCalls env calls output).1) := by
  have hasked : calls.filter LiveCall.isAskUser ≠ [] := by
    obtain ⟨call, hcall, hcallAsk⟩ := List.any_eq_true.mp hask
    exact List.ne_nil_of_mem (List.mem_filter.mpr ⟨hcall, hcallAsk⟩)
  exact foldl_stageQuestion _ h fun _ hnil => absurd hnil hasked

/-- A round that does not pause: its results stand after their calls, and the last item is the
result of a finished call. -/
theorem toolRound_spec {streamed out : List Item} (hstreamed : ResultsFollow streamed)
    (hcalls : calls ≠ []) (h : toolRound env streamed calls = some out) :
    ResultsFollow out ∧ Settled out := by
  have hresolved : Ready (calls.foldl resolveCall (streamed, [])).1
      (calls.foldl resolveCall (streamed, [])).2 ∧
      ((calls.foldl resolveCall (streamed, [])).2 ≠ [] ∨
        Settled (calls.foldl resolveCall (streamed, [])).1) := by
    cases calls with
    | nil => exact absurd rfl hcalls
    | cons call calls =>
        have hstart : Ready (streamed, ([] : List LiveCall)).1 (streamed, ([] : List LiveCall)).2 :=
          ⟨hstreamed, fun call hcall => by cases hcall⟩
        obtain ⟨hready, hends⟩ := resolveCall_spec hstart call
        exact foldl_resolveCall calls hready hends
  have hfinish : ∀ {output response}, Ready output response → (response ≠ [] ∨ Settled output) →
      toolRound.finish env output response = some out → ResultsFollow out ∧ Settled out := by
    intro output response hready hends hout
    unfold toolRound.finish at hout
    split_ifs at hout
    obtain rfl := Option.some.inj hout
    exact executeCalls_spec hready hends
  rw [toolRound] at h
  generalize calls.foldl resolveCall (streamed, []) = acc at h hresolved
  obtain ⟨output, response⟩ := acc
  obtain ⟨hready, hends⟩ := hresolved
  dsimp only at hready hends h
  split_ifs at h with hask hsome hsaved
  · obtain ⟨hstaged, herror⟩ := stageAskUserToolCalls_spec env hready hask
    exact hfinish (hstaged.filter _) (Or.inr (herror hsome)) h
  · obtain ⟨hstaged, -⟩ := stageAskUserToolCalls_spec env hready hask
    refine hfinish hstaged.resumeQuestions (Or.inl ?_) h
    rintro rfl
    cases hask
  · exact hfinish hready hends h

end Round

end OpenWebUI.Output
