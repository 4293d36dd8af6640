import OpenWebUI.Chat.Turn

/-! # Results of background sub-agents

The two transactions of `backend/open_webui/utils/subagents.py` on the parent chat:
`run_background` stores a result as an internal user message, and
`process_pending_internal_messages` turns waiting ones into the user message of a new model
turn. A `meta` that is no dictionary, or a timestamp that is no number, makes the source raise;
here it counts as empty, or as zero.
-/

namespace OpenWebUI.Delivery

open Py Chat

/-! ## `run_background` -/

/-- `result`, with `str` of its error when there is one. -/
structure Result where
  status : String
  summary : String
  error : Option String

/-- A background delegation that has ended; `run` are the settings it ran with. -/
structure Background where
  delegationId : String
  task : String
  context : String
  chatId : String
  duration : String
  result : Result
  run : Obj
  parentMessageId : Option String

def Result.lines (r : Result) : List String :=
  if r.status = "completed" then
    [if r.summary = "" then "Subagent completed without a final summary." else r.summary]
  else
    let partialOutput := if r.summary = "" then [] else ["Partial output:", r.summary]
    if r.status = "interrupted" then
      "The subagent was interrupted before completing." :: partialOutput
    else
      let detail := match r.error with
        | none => ""
        | some e => " " ++ e
      ("The subagent did not complete successfully." ++ detail) :: partialOutput

/-- The first line of a result. -/
def header (delegationId : String) : String := "[ASYNC SUBAGENT COMPLETE - " ++ delegationId ++ "]"

/-- The text of a result. -/
def Background.text (d : Background) : String :=
  "\n".intercalate
    ([header d.delegationId,
      "A background subagent you dispatched earlier has finished. " ++
        "The original task source is included so you can decide whether " ++
        "to use the result or continue without it.",
      "",
      "Original task: " ++ d.task] ++
      (if d.context = "" then [] else ["Context provided: " ++ d.context]) ++
      ["Subagent chat: " ++ d.chatId,
       "Status: " ++ d.result.status ++ "   Duration: " ++ d.duration,
       "--- RESULT ---"] ++
      d.result.lines)

/-- `message.get('timestamp', 0)`. -/
def timestampOf (m : Message) : ℚ := (Obj.getD m "timestamp" (.num 0)).asOperand.getD 0

/-- `max(messages, key=timestamp)`: the first of the latest messages. -/
def latest : List Message → Option Message
  | [] => none
  | m :: ms => some (ms.foldl (fun best m => if timestampOf best < timestampOf m then
      m else best) m)

/-- The answers that a result may follow: those at or below the delegating message, or all
when that message is not stored. -/
def doneAssistants (ms : Messages) (parentMessageId : Option String) : List Message :=
  (ms.entries.filter fun e =>
    e.2.get "role" = .str "assistant" && e.2.get "done" ≠ .bool false &&
      match parentMessageId.filter fun p => p ∈ ms with
      | none => true
      | some p => p ∈ messageChain ms e.1).map Prod.snd

/-- `result_parent_id`. -/
def resultParentId (ms : Messages) (parentMessageId : Option String) : Json :=
  match latest (doneAssistants ms parentMessageId) with
  | none => (parentMessageId.map Json.str).getD .null
  | some m => m.get "id"

/-- `pending_message`; `active` says that the parent chat has a running task. -/
def pendingMessage (d : Background) (id : String) (parentId : Json) (active : Bool)
    (now : ℚ) : Message :=
  [("id", .str id), ("parentId", parentId), ("childrenIds", .arr []), ("role", .str "user"),
   ("content", .str d.text), ("model", d.run.get "model_id"),
   ("meta", .obj ([("internal", .bool true), ("type", .str "subagent"),
     ("delegation_id", .str d.delegationId), ("subagent_chat_id", .str d.chatId)] ++
     if active then [("status", .str "pending")] else [])),
   ("timestamp", .num now)]

/-- The transaction of `run_background`. -/
def insertResult (h : History) (d : Background) (id : String) (active : Bool) (now : ℚ) : History :=
  let parentId := resultParentId h.messages d.parentMessageId
  let messages := h.messages.set id (pendingMessage d id parentId active now)
  ⟨(addChildIdToParent messages parentId id).1, h.currentId⟩

/-! ## `process_pending_internal_messages` -/

/-- `message.get('meta') or {}`. -/
def metaOf (m : Message) : Obj := ((m.get "meta").or (.obj [])).asObj.getD []

def isTimer (m : Message) : Bool :=
  (metaOf m).get "internal" = .bool true && (metaOf m).get "type" = .str "timer"

def isSubagentResult (m : Message) : Bool :=
  (metaOf m).get "internal" = .bool true && (metaOf m).get "type" = .str "subagent" &&
    ((metaOf m).get "status" = .null || (metaOf m).get "status" = .str "pending")

def isPending (m : Message) : Bool :=
  m.get "role" = .str "user" && !(m.get "childrenIds").truthy && (isSubagentResult m || isTimer m)

def pending (ms : Messages) : List Message := (ms.entries.map Prod.snd).filter isPending

/-- `run['model_id']`, with the run of the timer when the message is a timer's. -/
def runModel (run : Obj) (timerRun : Json → Obj) (first : Message) : Json :=
  let timerId := (metaOf first).get "timer_id"
  if isTimer first ∧ timerId.truthy then Obj.get (Assoc.update run (timerRun timerId)) "model_id"
  else run.get "model_id"

/-- The messages that go into one turn. -/
def batch (pending : List Message) (first : Message) (modelId : Json) : List Message :=
  if isTimer first then [first]
  else pending.filter fun m =>
    Json.pyEq (m.get "parentId") (first.get "parentId") &&
      Json.pyEq ((m.get "model").or modelId) modelId && isSubagentResult m

/-- `'\n\n'.join(...)` of the contents; `none` when one is no text. -/
def combinedContent (batch : List Message) : Option String :=
  ((batch.map fun m => m.get "content").filter Json.truthy).mapM Json.asStr |>.map
    "\n\n".intercalate

/-- One id under the first key, several under the second. -/
def idsEntry (one many : String) (ids : List Json) : Obj :=
  match ids with
  | [] => []
  | [id] => [(one, id)]
  | ids => [(many, .arr ids)]

def metaIds (batch : List Message) (key : String) : List Json :=
  (batch.map fun m => (metaOf m).get key).filter Json.truthy

def combinedMeta (batch : List Message) (timer : Bool) : Obj :=
  if timer then
    [("internal", .bool true), ("type", .str "timer")] ++
      idsEntry "timer_id" "timer_ids" (metaIds batch "timer_id")
  else
    [("internal", .bool true), ("type", .str "subagent")] ++
      idsEntry "delegation_id" "delegation_ids" (metaIds batch "delegation_id") ++
      idsEntry "subagent_chat_id" "subagent_chat_ids" (metaIds batch "subagent_chat_id")

/-- The model turn that is started after the transaction. -/
structure ModelTurn where
  userMessageId : String
  assistantMessageId : String
  parentId : Json
  modelId : Json
  content : String
deriving DecidableEq

def ModelTurn.userMessage (t : ModelTurn) (metadata : Obj) (now : ℚ) : Message :=
  [("id", .str t.userMessageId), ("parentId", t.parentId),
   ("childrenIds", .arr [.str t.assistantMessageId]), ("role", .str "user"),
     ("content", .str t.content),
   ("model", t.modelId), ("meta", .obj metadata), ("timestamp", .num now)]

def ModelTurn.assistantMessage (t : ModelTurn) (now : ℚ) : Message :=
  [("id", .str t.assistantMessageId), ("parentId", .str t.userMessageId), ("childrenIds", .arr []),
   ("role", .str "assistant"), ("content", .str ""), ("done", .bool false), ("model", t.modelId),
   ("timestamp", .num now)]

/-- Editing the child list of a stored parent. -/
def editChildren (ms : Messages) (parentId : Json) (f : List Json → List Json) : Messages :=
  match (if parentId.truthy then ms.stored parentId else none) with
  | none => ms
  | some p => ms.modify p fun m => Assoc.set m "childrenIds" (.arr (f (childrenIds m)))

/-- The map after the turn was stored; `removed` are the ids of the folded messages. -/
def storeTurn (ms : Messages) (t : ModelTurn) (removed : List String) (metadata : Obj) (now : ℚ) :
    Messages :=
  let ms := if removed = [] then ms
    else editChildren (removed.foldl Dict.erase ms) t.parentId fun cs =>
      cs.filter (· ∉ removed.map Json.str)
  let ms := editChildren ms t.parentId fun cs =>
    cs.filter (· ≠ .str t.userMessageId) ++ [.str t.userMessageId]
  let ms := ms.set t.userMessageId
    (Assoc.update ((ms.get? t.userMessageId).getD []) (t.userMessage metadata now))
  ms.set t.assistantMessageId (t.assistantMessage now)

/-- The transaction of `process_pending_internal_messages`; `none` when nothing is pending, or
when the transaction raises. `userId` and `assistantId` are new ids. -/
def foldPending (h : History) (run : Obj) (timerRun : Json → Obj)
    (userId assistantId : String) (now : ℚ) :
    Option (History × ModelTurn) :=
  match pending h.messages with
  | [] => none
  | first :: rest => do
    let modelId := (first.get "model").or (runModel run timerRun first)
    let batch := batch (first :: rest) first modelId
    let content ← combinedContent batch
    let ids ← batch.mapM fun m => (m.get "id").asStr
    let firstId ← (first.get "id").asStr
    let reuse := ids.length = 1 ∧ (metaOf first).get "status" ≠ .str "pending"
    let t : ModelTurn :=
      { userMessageId := if reuse then firstId else userId
        assistantMessageId := assistantId
        parentId := first.get "parentId"
        modelId
        content }
    some (⟨storeTurn h.messages t (if reuse then [] else ids)
      (combinedMeta batch (isTimer first)) now,
      some assistantId⟩, t)

/-! ## Links -/

/-- The parent after childless siblings were replaced by one message. -/
def regroup (removed : List String) (u : String) (m : Message) : Message :=
  Assoc.set m "childrenIds"
    (.arr (((childrenIds m).filter (· ∉ removed.map Json.str)).filter (· ≠ .str u) ++ [.str u]))

/-- Childless siblings below `parent` make way for one message `u` with a reply `a`; `u` may have
been one of the siblings. -/
structure Regrouped (ms : Messages) (parent : Option String) (removed : List String) (u a : String)
    (userMessage assistantMessage : Message) (ms' : Messages) : Prop where
  parentStays : ∀ p, parent = some p → p ∈ ms ∧ p ∉ removed ∧ p ≠ u
  removedLeaf : ∀ r ∈ removed, ms.parentOf r = parent ∧ ∀ c, ms.parentOf c ≠ some r
  userLeaf : ∀ c, ms.parentOf c ≠ some u
  userStays : u ∉ removed
  sibling : u ∈ ms → ms.parentOf u = parent
  fresh : a ∉ ms
  ne : a ≠ u
  user : ms'.get? u = some userMessage
  userParent : userMessage.get "parentId" = (parent.map Json.str).getD .null
  userChildren : userMessage.lookup "childrenIds" = some (.arr [.str a])
  assistant : ms'.get? a = some assistantMessage
  assistantParent : assistantMessage.get "parentId" = .str u
  assistantChildren : assistantMessage.lookup "childrenIds" = some (.arr [])
  old : ∀ k, k ≠ u → k ≠ a → ms'.get? k = if k ∈ removed then none
    else (ms.get? k).map fun m => if parent = some k then regroup removed u m else m

namespace Regrouped

variable {ms ms' : Messages} {parent : Option String} {removed : List String} {u a : String}
  {userMessage assistantMessage : Message}

/-- What is stored afterwards: the turn, and what was stored before. -/
theorem stored (h : Regrouped ms parent removed u a userMessage assistantMessage ms') {k : String}
    {m' : Message} (hm' : ms'.get? k = some m') :
    (k = u ∧ m' = userMessage) ∨ (k = a ∧ m' = assistantMessage) ∨
      ((k ≠ u ∧ k ≠ a ∧ k ∉ removed) ∧
        ∃ m, ms.get? k = some m ∧ m' = if parent = some k then regroup removed u m else m) := by
  by_cases hku : k = u
  · rw [hku, h.user] at hm'
    exact .inl ⟨hku, (Option.some.inj hm').symm⟩
  by_cases hka : k = a
  · rw [hka, h.assistant] at hm'
    exact .inr (.inl ⟨hka, (Option.some.inj hm').symm⟩)
  rw [h.old k hku hka] at hm'
  by_cases hkr : k ∈ removed
  · rw [if_pos hkr] at hm'
    cases hm'
  rw [if_neg hkr] at hm'
  obtain ⟨m, hm, heq⟩ := Option.map_eq_some_iff.mp hm'
  exact .inr (.inr ⟨⟨hku, hka, hkr⟩, m, hm, heq.symm⟩)

/-- What is not removed stays. -/
theorem mem (h : Regrouped ms parent removed u a userMessage assistantMessage ms') {k : String}
    (hk : k ∈ ms) (hkr : k ∉ removed) : k ∈ ms' := by
  by_cases hku : k = u
  · exact hku ▸ Dict.mem_of_get? h.user
  · have hka : k ≠ a := fun heq => h.fresh (heq ▸ hk)
    rw [Dict.mem_iff, h.old k hku hka, if_neg hkr, Option.isSome_map]
    exact (Dict.mem_iff _ _).mp hk

/-- A message that is kept changes at most in its children. -/
theorem sameButChildren {k : String} (m : Message) :
    SameButChildren m (if parent = some k then regroup removed u m else m) := by
  split_ifs
  · exact sameButChildren_set m _
  · exact .refl m

/-- A message that names a stored parent names one that is kept. -/
theorem kept_parent (h : Regrouped ms parent removed u a userMessage assistantMessage ms')
    {k q : String} {m : Message} (hm : ms.get? k = some m) (hq : q ∈ ms)
    (hparentId : m.get "parentId" = .str q) : q ∈ ms' := by
  refine h.mem hq fun hqr => (h.removedLeaf q hqr).2 k ?_
  rw [Messages.parentOf_of_get? hm, hparentId, Messages.stored_str hq]

/-- The message stands where the siblings stood. -/
theorem parentOf_user (h : Regrouped ms parent removed u a userMessage assistantMessage ms') :
    ms'.parentOf u = parent := by
  rw [Messages.parentOf_of_get? h.user, h.userParent]
  cases hp : parent with
  | none => rfl
  | some p => exact Messages.stored_str (h.mem (h.parentStays p hp).1 (h.parentStays p hp).2.1)

/-- The reply stands below the message. -/
theorem parentOf_assistant (h : Regrouped ms parent removed u a userMessage assistantMessage ms') :
    ms'.parentOf a = some u := by
  rw [Messages.parentOf_of_get? h.assistant, h.assistantParent]
  exact Messages.stored_str (Dict.mem_of_get? h.user)

/-- Everything else stays where it is. -/
theorem parentOf_kept (h : Regrouped ms parent removed u a userMessage assistantMessage ms')
    (hlinked : Linked ms) {k : String} (hku : k ≠ u) (hka : k ≠ a) (hk : k ∈ ms') :
    ms'.parentOf k = ms.parentOf k := by
  obtain ⟨m', hm'⟩ := (Dict.mem_iff_exists _ _).mp hk
  rcases h.stored hm' with ⟨heq, -⟩ | ⟨heq, -⟩ | ⟨-, m, hm, rfl⟩
  · exact absurd heq hku
  · exact absurd heq hka
  rw [Messages.parentOf_of_get? hm', Messages.parentOf_of_get? hm,
    (sameButChildren m).get (by decide)]
  rcases hlinked.resolves hm with hnull | ⟨q, hq, hparentId⟩
  · rw [hnull]
    rfl
  · rw [hparentId, Messages.stored_str hq, Messages.stored_str (h.kept_parent hm hq hparentId)]

/-- Only the reply stands below the message. -/
theorem eq_assistant (h : Regrouped ms parent removed u a userMessage assistantMessage ms')
    (hlinked : Linked ms) {c : String} (hc : ms'.parentOf c = some u) : c = a := by
  by_contra hca
  by_cases hcu : c = u
  · rw [hcu, h.parentOf_user] at hc
    exact (h.parentStays u hc).2.2 rfl
  · rw [h.parentOf_kept hlinked hcu hca (Messages.mem_of_parentOf hc).1] at hc
    exact h.userLeaf c hc

/-- Nothing stands below the reply. -/
theorem parentOf_ne_assistant (h : Regrouped ms parent removed u a userMessage assistantMessage ms')
    (hlinked : Linked ms) (c : String) : ms'.parentOf c ≠ some a := by
  intro hc
  by_cases hca : c = a
  · rw [hca, h.parentOf_assistant] at hc
    exact h.ne (Option.some.inj hc).symm
  by_cases hcu : c = u
  · rw [hcu, h.parentOf_user] at hc
    exact h.fresh (h.parentStays a hc).1
  · rw [h.parentOf_kept hlinked hcu hca (Messages.mem_of_parentOf hc).1] at hc
    exact h.fresh (Messages.mem_of_parentOf hc).2

/-- The message is a leaf on the kept messages, and the reply is one on these and the message. -/
theorem acyclic (h : Regrouped ms parent removed u a userMessage assistantMessage ms')
    (hlinked : Linked ms) :
    Forest.Acyclic ms'.parentOf := by
  let rest : String → Option String := fun c => if c = u ∨ c = a then none else ms'.parentOf c
  have hrest : Forest.Acyclic rest := by
    refine hlinked.acyclic.mono fun c p hcp => ?_
    simp only [rest] at hcp
    split_ifs at hcp with hnew
    rw [not_or] at hnew
    rw [← h.parentOf_kept hlinked hnew.1 hnew.2 (Messages.mem_of_parentOf hcp).1]
    exact hcp
  let withUser : String → Option String := fun c => if c = a then none else ms'.parentOf c
  have hwithUser : Forest.Acyclic withUser := by
    refine hrest.add_leaf (x := u) (fun c hc => ?_) fun c hcu => ?_
    · simp only [withUser] at hc
      split_ifs at hc with hca
      exact hca (h.eq_assistant hlinked hc)
    · simp only [withUser, rest, hcu, false_or]
  refine hwithUser.add_leaf (x := a) (h.parentOf_ne_assistant hlinked) fun c hca => ?_
  simp only [withUser, if_neg hca]

/-- The children of the parent: those that were not removed, and the message. -/
theorem children_parent (h : Regrouped ms parent removed u a userMessage assistantMessage ms')
    (hlinked : Linked ms) {k : String} {m : Message} (hm : ms.get? k = some m) (hku : k ≠ u)
    (hpk : parent = some k) (c : Json) :
    c ∈ childrenIds (regroup removed u m) ↔ ∃ id, c = .str id ∧ ms'.parentOf id = some k := by
  rw [regroup, childrenIds_set, List.mem_append, List.mem_singleton, List.mem_filter,
    List.mem_filter, hlinked.children hm c]
  simp only [decide_eq_true_eq]
  constructor
  · rintro (⟨⟨⟨id, rfl, hid⟩, hnr⟩, hnu⟩ | rfl)
    · have hidu : id ≠ u := fun heq => hnu (heq ▸ rfl)
      have hida : id ≠ a := fun heq => h.fresh (heq ▸ (Messages.mem_of_parentOf hid).1)
      have hidr : id ∉ removed := fun hr => hnr (List.mem_map_of_mem hr)
      refine ⟨id, rfl, ?_⟩
      rw [h.parentOf_kept hlinked hidu hida (h.mem (Messages.mem_of_parentOf hid).1 hidr)]
      exact hid
    · exact ⟨u, rfl, h.parentOf_user.trans hpk⟩
  · rintro ⟨id, rfl, hid⟩
    have hmem := (Messages.mem_of_parentOf hid).1
    obtain ⟨n', hn'⟩ := (Dict.mem_iff_exists _ _).mp hmem
    rcases h.stored hn' with ⟨rfl, -⟩ | ⟨rfl, -⟩ | ⟨⟨hidu, hida, hidr⟩, -⟩
    · exact .inr rfl
    · rw [h.parentOf_assistant] at hid
      exact absurd (Option.some.inj hid).symm hku
    · refine .inl ⟨⟨⟨id, rfl, ?_⟩, fun hr => ?_⟩, fun heq => hidu (Json.str.inj heq)⟩
      · rw [← h.parentOf_kept hlinked hidu hida hmem]
        exact hid
      · obtain ⟨r, hr, heq⟩ := List.mem_map.mp hr
        exact hidr (Json.str.inj heq ▸ hr)

/-- The children of every other kept message stay. -/
theorem children_other (h : Regrouped ms parent removed u a userMessage assistantMessage ms')
    (hlinked : Linked ms) {k : String} {m : Message} (hm : ms.get? k = some m) (hku : k ≠ u)
    (hpk : parent ≠ some k) (c : Json) :
    c ∈ childrenIds m ↔ ∃ id, c = .str id ∧ ms'.parentOf id = some k := by
  rw [hlinked.children hm c]
  constructor
  · rintro ⟨id, rfl, hid⟩
    have hidu : id ≠ u := by
      rintro rfl
      exact hpk ((h.sibling (Messages.mem_of_parentOf hid).1).symm.trans hid)
    have hida : id ≠ a := fun heq => h.fresh (heq ▸ (Messages.mem_of_parentOf hid).1)
    have hidr : id ∉ removed := fun hr => hpk ((h.removedLeaf id hr).1.symm.trans hid)
    refine ⟨id, rfl, ?_⟩
    rw [h.parentOf_kept hlinked hidu hida (h.mem (Messages.mem_of_parentOf hid).1 hidr)]
    exact hid
  · rintro ⟨id, rfl, hid⟩
    have hidu : id ≠ u := by
      rintro rfl
      exact hpk (h.parentOf_user.symm.trans hid)
    have hida : id ≠ a := by
      rintro rfl
      rw [h.parentOf_assistant] at hid
      exact hku (Option.some.inj hid).symm
    refine ⟨id, rfl, ?_⟩
    rw [← h.parentOf_kept hlinked hidu hida (Messages.mem_of_parentOf hid).1]
    exact hid

/-- The message is appended once, after it was taken out. -/
theorem nodup_regroup {m : Message} (hnodup : (childrenIds m).Nodup) :
    (childrenIds (regroup removed u m)).Nodup := by
  rw [regroup, childrenIds_set]
  refine List.nodup_append.mpr ⟨(hnodup.filter _).filter _, List.nodup_singleton _, ?_⟩
  intro x hx y hy heq
  rw [List.mem_singleton.mp hy] at heq
  have hne := (List.mem_filter.mp hx).2
  rw [heq] at hne
  simp at hne

/-- Childless siblings are replaced by one message with a reply. -/
theorem linked (h : Regrouped ms parent removed u a userMessage assistantMessage ms')
    (hlinked : Linked ms) :
    Linked ms' := by
  constructor
  -- every parent is null or stored: the user message hangs where the batch did
  · intro k m' hm'
    rcases h.stored hm' with ⟨-, rfl⟩ | ⟨-, rfl⟩ | ⟨-, m, hm, rfl⟩
    · rw [h.userParent]
      cases hp : parent with
      | none => exact .inl rfl
      | some p => exact .inr ⟨p, h.mem (h.parentStays p hp).1 (h.parentStays p hp).2.1, rfl⟩
    · exact .inr ⟨u, Dict.mem_of_get? h.user, h.assistantParent⟩
    · rw [(sameButChildren m).get (by decide)]
      exact (hlinked.resolves hm).imp_right fun ⟨q, hq, hparentId⟩ =>
        ⟨q, h.kept_parent hm hq hparentId, hparentId⟩
  · exact h.acyclic hlinked
  -- every message lists its children in an array
  · intro k m' hm'
    rcases h.stored hm' with ⟨-, rfl⟩ | ⟨-, rfl⟩ | ⟨-, m, hm, rfl⟩
    · exact .inr ⟨_, h.userChildren⟩
    · exact .inr ⟨_, h.assistantChildren⟩
    · split_ifs
      · exact .inr ⟨_, Assoc.lookup_set_self _ _ _⟩
      · exact hlinked.lists hm
  -- no child is listed twice
  · intro k m' hm'
    rcases h.stored hm' with ⟨-, rfl⟩ | ⟨-, rfl⟩ | ⟨-, m, hm, rfl⟩
    · rw [childrenIds, Obj.get_of_lookup h.userChildren]
      exact List.nodup_singleton _
    · rw [childrenIds, Obj.get_of_lookup h.assistantChildren]
      exact List.nodup_nil
    · split_ifs
      · exact nodup_regroup (hlinked.nodup hm)
      · exact hlinked.nodup hm
  -- a message lists exactly the messages that hang from it
  · intro k m' hm' c
    rcases h.stored hm' with ⟨rfl, rfl⟩ | ⟨rfl, rfl⟩ | ⟨⟨hku, -, -⟩, m, hm, rfl⟩
    · rw [childrenIds, Obj.get_of_lookup h.userChildren, Json.asArr_arr, Option.getD_some,
        List.mem_singleton]
      constructor
      · rintro rfl
        exact ⟨a, rfl, h.parentOf_assistant⟩
      · rintro ⟨id, rfl, hid⟩
        rw [h.eq_assistant hlinked hid]
    · rw [childrenIds, Obj.get_of_lookup h.assistantChildren, Json.asArr_arr, Option.getD_some]
      simp only [List.not_mem_nil, false_iff, not_exists, not_and]
      exact fun id _ => h.parentOf_ne_assistant hlinked id
    · split_ifs with hpk
      · exact h.children_parent hlinked hm hku hpk c
      · exact h.children_other hlinked hm hku hpk c

end Regrouped

/-! ## Storing a result -/

/-- The texts of a delegation have no null characters. -/
structure Background.NulFree (d : Background) : Prop where
  text : Chat.NulFree d.text
  delegationId : Chat.NulFree d.delegationId
  chatId : Chat.NulFree d.chatId
  modelId : Clean (d.run.get "model_id")

/-- The latest message is one of those given. -/
theorem mem_latest {ms : List Message} {m : Message} (h : latest ms = some m) : m ∈ ms := by
  cases ms with
  | nil => cases h
  | cons first rest =>
      cases h
      have hfold : ∀ (rest : List Message) (best : Message), rest.foldl
          (fun best m => if timestampOf best < timestampOf m then m else best) best ∈
            best :: rest := by
        intro rest
        induction rest with
        | nil => exact fun best => List.mem_cons_self
        | cons x rest ih =>
            intro best
            rw [List.foldl_cons]
            rcases List.mem_cons.mp (ih (if timestampOf best < timestampOf x then x
              else best)) with heq | hmem
            · rw [heq]
              split_ifs
              · exact List.mem_cons_of_mem _ List.mem_cons_self
              · exact List.mem_cons_self
            · exact List.mem_cons_of_mem _ (List.mem_cons_of_mem _ hmem)
      exact hfold rest first

/-- A result hangs from a stored message, or is a root. -/
theorem resultParentId_stored {ms : Messages} (hs : Sane ms) {parentMessageId : Option String}
    (hparent : ∀ p, parentMessageId = some p → p ∈ ms) :
    resultParentId ms parentMessageId = .null ∨
      ∃ p ∈ ms, p ≠ "" ∧ resultParentId ms parentMessageId = .str p := by
  have hne : ∀ p ∈ ms, p ≠ "" := by
    intro p hp
    obtain ⟨m, hm⟩ := (Dict.mem_iff_exists _ _).mp hp
    exact (hs.ids p m hm).1
  unfold resultParentId
  cases hlatest : latest (doneAssistants ms parentMessageId) with
  | none =>
      cases parentMessageId with
      | none => exact .inl rfl
      | some p => exact .inr ⟨p, hparent p rfl, hne p (hparent p rfl), rfl⟩
  | some m =>
      obtain ⟨⟨k, m'⟩, he, rfl⟩ := List.mem_map.mp (mem_latest hlatest)
      have hm := (Dict.mem_entries_iff _ _ _).mp (List.mem_filter.mp he).1
      exact .inr ⟨k, Dict.mem_of_get? hm, hne k (Dict.mem_of_get? hm), (hs.ids k m' hm).2⟩

/-- A result whose texts are clean makes a clean message. -/
theorem clean_pendingMessage {d : Background} (hd : d.NulFree) {id : String} {parentId : Json}
    {active : Bool} {now : ℚ} (hid : Chat.NulFree id) (hparent : Clean parentId) :
    Clean (.obj (pendingMessage d id parentId active now)) := by
  have hmeta : Clean (.obj ([("internal", .bool true), ("type", .str "subagent"),
      ("delegation_id", .str d.delegationId), ("subagent_chat_id", .str d.chatId)] ++
      if active then [("status", .str "pending")] else [])) := by
    cases active with
    | true =>
        refine .of_members ["internal", "type", "delegation_id", "subagent_chat_id",
          "status"] rfl (by decide) ?_
        simp only [if_true, List.cons_append, List.nil_append, List.forall_mem_cons]
        exact ⟨.bool true, .str (by decide), .str hd.delegationId, .str hd.chatId, .str (by decide),
          fun e he => by cases he⟩
    | false =>
        refine .of_members ["internal", "type", "delegation_id", "subagent_chat_id"] rfl
          (by decide) ?_
        simp only [Bool.false_eq_true, if_false, List.append_nil, List.forall_mem_cons]
        exact ⟨.bool true, .str (by decide), .str hd.delegationId, .str hd.chatId,
          fun e he => by cases he⟩
  refine .of_members ["id", "parentId", "childrenIds", "role", "content", "model", "meta",
    "timestamp"] rfl
    (by decide) ?_
  simp only [pendingMessage, List.forall_mem_cons]
  exact ⟨.str hid, hparent, .arr fun x hx => (by cases hx), .str (by decide), .str hd.text,
    hd.modelId, hmeta,
    .num now, fun e he => by cases he⟩

/-- A finished delegation adds one pending message to a sound history, below its parent. -/
theorem insertResult_spec {h : History} (hs : Sane h.messages) {d : Background} (hd : d.NulFree)
    {id : String} (hid : id ∉ h.messages) (hne : id ≠ "") (hnul : Chat.NulFree id) (active : Bool)
    (now : ℚ) (hparent : ∀ p, d.parentMessageId = some p → p ∈ h.messages) :
    Sane (insertResult h d id active now).messages ∧
      Grows h.messages (insertResult h d id active now).messages ∧
      (∀ k, k ∈ (insertResult h d id active now).messages ↔ k = id ∨ k ∈ h.messages) ∧
      ∃ m, (insertResult h d id active now).messages.get? id = some m ∧ m.get "role" = .str "user" ∧
        textOf m = d.text := by
  set n := pendingMessage d id (resultParentId h.messages d.parentMessageId) active now with hn
  have hstored := resultParentId_stored hs hparent
  have hparentId : n.get "parentId" = resultParentId h.messages d.parentMessageId := rfl
  have hsame : SameMessages (h.messages.set id n) (insertResult h d id active now).messages :=
    sameMessages_addChildIdToParent _ _ _
  have hmem : ∀ k, k ∈ (insertResult h d id active now).messages ↔ k = id ∨ k ∈ h.messages := by
    intro k
    rw [hsame.mem_iff, Dict.mem_iff, Dict.get?_set, Dict.mem_iff]
    split_ifs with hk <;> simp [hk]
  -- a message of the new history is the result, or one of the old, up to the children
  have hget : ∀ {k m'}, (insertResult h d id active now).messages.get? k = some m' →
      (k = id ∧ SameButChildren n m') ∨ ∃ m, k ≠ id ∧ h.messages.get? k = some m ∧
        SameButChildren m m' := by
    intro k m' hm'
    obtain ⟨m, hm, hbut⟩ := hsame.get?_some hm'
    rw [Dict.get?_set] at hm
    split_ifs at hm with hk
    · cases hm
      exact .inl ⟨hk, hbut⟩
    · exact .inr ⟨m, hk, hm, hbut⟩
  -- the parent is null or the id of a stored message, which is clean
  have hcleanParent : Clean (resultParentId h.messages d.parentMessageId) := by
    rcases hstored with hnull | ⟨p, hp, -, hp'⟩
    · rw [hnull]
      exact .null
    · obtain ⟨m, hm⟩ := (Dict.mem_iff_exists _ _).mp hp
      rw [hp']
      exact .str (hs.clean p m hm).1
  refine ⟨⟨?_, ?_, ?_⟩, ?_, hmem, ?_⟩
  · rw [← hparentId] at hstored
    exact linked_hang hs.linked hid rfl hstored
  · exact (hs.clean.set hnul (clean_pendingMessage hd hnul hcleanParent)).addChild _ hnul
  · intro k m' hm'
    rcases hget hm' with ⟨rfl, hbut⟩ | ⟨m, -, hm, hbut⟩
    · exact ⟨hne, hbut.get (by decide)⟩
    · exact ⟨(hs.ids k m hm).1, (hbut.get (by decide)).trans (hs.ids k m hm).2⟩
  · intro k m hm
    obtain ⟨m', hm'⟩ := (Dict.mem_iff_exists _ _).mp ((hmem k).mpr (.inr (Dict.mem_of_get? hm)))
    refine ⟨m', hm', ?_⟩
    rcases hget hm' with ⟨rfl, -⟩ | ⟨old, -, hold, hbut⟩
    · exact absurd (Dict.mem_of_get? hm) hid
    · rw [hm] at hold
      cases hold
      exact hbut.frozen
  · obtain ⟨m', hm'⟩ := (Dict.mem_iff_exists _ _).mp ((hmem id).mpr (.inl rfl))
    refine ⟨m', hm', ?_⟩
    -- the text is the field the result was made with
    rcases hget hm' with ⟨-, hbut⟩ | ⟨old, hne', -, -⟩
    · exact ⟨hbut.get (by decide), by rw [textOf, hbut.get (by decide)]; rfl⟩
    · exact absurd rfl hne'

/-! ## Folding results -/

/-- What a `mapM` that succeeds has read, one for one. -/
theorem mapM_spec {α β : Type} {f : α → Option β} {l : List α} {r : List β}
    (h : l.mapM f = some r) :
    r.length = l.length ∧ (∀ a ∈ l, ∃ b ∈ r, f a = some b) ∧ ∀ b ∈ r, ∃ a ∈ l, f a = some b := by
  induction l generalizing r with
  | nil =>
      cases h
      exact ⟨rfl, fun a ha => (by cases ha), fun b hb => by cases hb⟩
  | cons a l ih =>
      rw [List.mapM_cons] at h
      obtain ⟨b, hb, h⟩ := Option.bind_eq_some_iff.mp h
      obtain ⟨bs, hbs, h⟩ := Option.bind_eq_some_iff.mp h
      cases h
      obtain ⟨hlength, hleft, hright⟩ := ih hbs
      refine ⟨congrArg (· + 1) hlength, fun x hx => ?_, fun y hy => ?_⟩
      · rcases List.mem_cons.mp hx with rfl | hx
        · exact ⟨b, List.mem_cons_self, hb⟩
        · obtain ⟨y, hy, hxy⟩ := hleft x hx
          exact ⟨y, List.mem_cons_of_mem _ hy, hxy⟩
      · rcases List.mem_cons.mp hy with rfl | hy
        · exact ⟨a, List.mem_cons_self, hb⟩
        · obtain ⟨x, hx, hxy⟩ := hright y hy
          exact ⟨x, List.mem_cons_of_mem _ hx, hxy⟩

/-- A list that is missing or empty holds no child. -/
theorem childrenIds_of_falsy {m : Message} (h : (m.get "childrenIds").truthy = false) :
    childrenIds m = [] := by
  unfold childrenIds
  cases hc : m.get "childrenIds" with
  | arr xs =>
      rw [hc] at h
      cases xs with
      | nil => rfl
      | cons x xs => cases h
  | _ => rfl

/-- A pending message is a user message without a reply. -/
theorem pending_spec {ms : Messages} {m : Message} (h : m ∈ pending ms) :
    ∃ k, ms.get? k = some m ∧ m.get "role" = .str "user" ∧ childrenIds m = [] := by
  obtain ⟨hmem, hp⟩ := List.mem_filter.mp h
  obtain ⟨⟨k, m'⟩, he, rfl⟩ := List.mem_map.mp hmem
  unfold isPending at hp
  simp only [Bool.and_eq_true, decide_eq_true_eq, Bool.not_eq_true'] at hp
  exact ⟨k, (Dict.mem_entries_iff _ _ _).mp he, hp.1.1, childrenIds_of_falsy hp.1.2⟩

/-- Comparing a parent id. -/
theorem pyEq_parent {x y : Json} (hx : x = .null ∨ ∃ p, x = .str p)
    (hy : y = .null ∨ ∃ p, y = .str p) (h : Json.pyEq x y = true) : x = y := by
  rw [Json.pyEq_iff] at h
  rcases hx with rfl | ⟨p, rfl⟩ <;> rcases hy with rfl | ⟨q, rfl⟩
  · rfl
  · cases h
  · cases h
  · exact h

/-- What goes into a turn are pending siblings. -/
theorem batch_spec {ms : Messages} (hs : Sane ms) {first m : Message} {rest : List Message}
    {modelId : Json} (hpending : pending ms = first :: rest)
    (hm : m ∈ batch (first :: rest) first modelId) :
    ∃ k, ms.get? k = some m ∧ m.get "role" = .str "user" ∧ childrenIds m = [] ∧
      m.get "parentId" = first.get "parentId" := by
  have hparent : ∀ {k n}, ms.get? k = some n → n.get "parentId" = .null ∨
    ∃ p, n.get "parentId" = .str p :=
    fun hn => (hs.linked.resolves hn).imp_right fun ⟨p, _, hp⟩ => ⟨p, hp⟩
  obtain ⟨k₀, hfirst, hrole₀, hchildren₀⟩ :=
    pending_spec (hpending ▸ List.mem_cons_self : first ∈ pending ms)
  unfold batch at hm
  split_ifs at hm
  · obtain rfl := List.mem_singleton.mp hm
    exact ⟨k₀, hfirst, hrole₀, hchildren₀, rfl⟩
  · obtain ⟨hmem, hsame⟩ := List.mem_filter.mp hm
    obtain ⟨k, hk, hrole, hchildren⟩ := pending_spec (hpending ▸ hmem)
    rw [Bool.and_eq_true, Bool.and_eq_true] at hsame
    exact ⟨k, hk, hrole, hchildren, pyEq_parent (hparent hk) (hparent hfirst) hsame.1.1⟩

/-- What the combined text says, for tokens on one line. -/
theorem combinedContent_spec {ms : List Message} {content : String}
    (h : combinedContent ms = some content) :
    (∀ m ∈ ms, In (textOf m) content) ∧
      ∀ token : String, token.toList ≠ [] → '\n' ∉ token.toList → In token content →
        ∃ m ∈ ms, In token (textOf m) := by
  obtain ⟨texts, htexts, rfl⟩ := Option.map_eq_some_iff.mp h
  obtain ⟨-, hleft, hright⟩ := mapM_spec htexts
  constructor
  · intro m hm
    by_cases htruthy : (m.get "content").truthy = true
    · have hmem : m.get "content" ∈ (ms.map fun m => m.get "content").filter Json.truthy :=
        List.mem_filter.mpr ⟨List.mem_map_of_mem hm, htruthy⟩
      obtain ⟨text, htext, hstr⟩ := hleft _ hmem
      rw [textOf, hstr]
      exact in_intercalate htext
    · have hempty : textOf m = "" := by
        rw [textOf]
        cases hc : m.get "content" with
        | str s =>
            rw [hc] at htruthy
            simpa using htruthy
        | _ => rfl
      rw [hempty]
      exact List.nil_infix
  · intro token hne hline hin
    obtain ⟨text, htext, hin⟩ := in_of_in_intercalate (by simpa using hline) (by decide) hne hin
    obtain ⟨x, hx, hstr⟩ := hright text htext
    obtain ⟨m, hm, rfl⟩ := List.mem_map.mp (List.mem_filter.mp hx).1
    refine ⟨m, hm, ?_⟩
    rw [textOf, hstr]
    exact hin

/-- One message gives its own text. -/
theorem combinedContent_singleton {m : Message} {content : String}
    (h : combinedContent [m] = some content) :
    content = textOf m := by
  obtain ⟨texts, htexts, rfl⟩ := Option.map_eq_some_iff.mp h
  rw [List.map_singleton] at htexts
  by_cases htruthy : (m.get "content").truthy = true
  · rw [List.filter_cons_of_pos htruthy, List.filter_nil] at htexts
    cases hc : m.get "content" with
    | str s =>
        rw [hc] at htexts
        cases htexts
        rw [textOf, hc]
        exact String.intercalate_singleton
    | _ =>
        rw [hc] at htexts
        cases htexts
  · rw [List.filter_cons_of_neg htruthy, List.filter_nil] at htexts
    cases htexts
    rw [textOf]
    cases hc : m.get "content" with
    | str s =>
        rw [hc] at htruthy
        simpa using htruthy
    | _ => rfl

/-- Only the parent is rewritten, and only its children. -/
theorem editChildren_get? {ms : Messages} {parent : Option String}
    (hparent : ∀ p, parent = some p → p ∈ ms ∧ p ≠ "") (f : List Json → List Json) (k : String) :
    (editChildren ms ((parent.map Json.str).getD .null) f).get? k = (ms.get? k).map fun m =>
      if parent = some k then Assoc.set m "childrenIds" (.arr (f (childrenIds m))) else m := by
  unfold editChildren
  cases parent with
  | none => simp
  | some p =>
      obtain ⟨hp, hne⟩ := hparent p rfl
      have htruthy : (Json.str p).truthy = true := by simp [hne]
      simp only [Option.map_some, Option.getD_some, htruthy, if_true, Messages.stored_str hp,
        Dict.get?_modify]
      by_cases hk : k = p
      · subst hk
        simp
      · have hk' : ¬ p = k := fun heq => hk heq.symm
        simp [hk, hk']

/-- The messages besides the turn. -/
theorem storeTurn_get? {ms : Messages} {t : ModelTurn} {removed : List String} (metadata : Obj)
    (now : ℚ) {parent : Option String} (hparentId : t.parentId = (parent.map Json.str).getD .null)
    (hparent : ∀ p, parent = some p → p ∈ ms ∧ p ≠ "" ∧ p ∉ removed) {k : String}
    (hu : k ≠ t.userMessageId) (ha : k ≠ t.assistantMessageId) :
    (storeTurn ms t removed metadata now).get? k = if k ∈ removed then none
      else (ms.get? k).map fun m => if parent = some k then regroup removed t.userMessageId m
        else m := by
  unfold storeTurn
  simp only
  rw [Dict.get?_set_ne _ _ ha, Dict.get?_set_ne _ _ hu, hparentId]
  by_cases hnil : removed = []
  · subst hnil
    rw [if_pos rfl, editChildren_get? fun p hp => ⟨(hparent p hp).1, (hparent p hp).2.1⟩]
    simp [regroup]
  · rw [if_neg hnil]
    have herased : ∀ p, parent = some p → p ∈ removed.foldl Dict.erase ms ∧ p ≠ "" := by
      intro p hp
      obtain ⟨hin, hne, hnr⟩ := hparent p hp
      refine ⟨?_, hne⟩
      rw [Dict.mem_iff, Dict.get?_foldl_erase, if_neg hnr]
      exact (Dict.mem_iff _ _).mp hin
    have hedited : ∀ p, parent = some p → p ∈ editChildren (removed.foldl Dict.erase ms)
        ((parent.map Json.str).getD .null) (fun cs => cs.filter (· ∉ removed.map Json.str)) ∧
          p ≠ "" := by
      intro p hp
      refine ⟨?_, (herased p hp).2⟩
      rw [Dict.mem_iff, editChildren_get? herased, Option.isSome_map]
      exact (Dict.mem_iff _ _).mp (herased p hp).1
    rw [editChildren_get? hedited, editChildren_get? herased, Dict.get?_foldl_erase, Option.map_map]
    by_cases hk : k ∈ removed
    · rw [if_pos hk, if_pos hk, Option.map_none]
    · rw [if_neg hk, if_neg hk]
      refine congrArg (fun f => Option.map f (ms.get? k)) (funext fun m => ?_)
      rw [Function.comp_apply]
      by_cases hp : parent = some k
      · rw [if_pos hp, if_pos hp, if_pos hp, childrenIds_set, Assoc.set_set]
        rfl
      · rw [if_neg hp, if_neg hp, if_neg hp]

/-- The reply is stored last, so nothing overwrites it. -/
theorem storeTurn_reply (ms : Messages) (t : ModelTurn) (removed : List String) (metadata : Obj)
    (now : ℚ) :
    (storeTurn ms t removed metadata now).get? t.assistantMessageId =
      some (t.assistantMessage now) :=
  Dict.get?_set_self _ _ _

/-- Clean lists make clean messages. -/
theorem CleanMessages.editChildren {ms : Messages} (h : CleanMessages ms) (parentId : Json)
    {f : List Json → List Json} (hf : ∀ cs, (∀ c ∈ cs, Clean c) → ∀ c ∈ f cs, Clean c) :
    CleanMessages (editChildren ms parentId f) := by
  unfold Delivery.editChildren
  split
  · exact h
  · intro id m' hm'
    rw [Dict.get?_modify] at hm'
    split_ifs at hm' with hid
    · obtain ⟨m, hm, rfl⟩ := Option.map_eq_some_iff.mp hm'
      have hclean := h id m hm
      exact ⟨hclean.1, hclean.2.set (by decide)
        (.arr (hf _ fun c hc => clean_childrenIds hclean.2 hc))⟩
    · exact h id m' hm'

/-- A turn of clean messages leaves the history clean. -/
theorem clean_storeTurn {ms : Messages} (h : CleanMessages ms) {t : ModelTurn}
    {removed : List String} {metadata : Obj} {now : ℚ} (hu : Chat.NulFree t.userMessageId)
    (ha : Chat.NulFree t.assistantMessageId) (huser : Clean (.obj (t.userMessage metadata now)))
    (hreply : Clean (.obj (t.assistantMessage now))) :
    CleanMessages (storeTurn ms t removed metadata now) := by
  have herase : CleanMessages (removed.foldl Dict.erase ms) := by
    intro id m hm
    rw [Dict.get?_foldl_erase] at hm
    split_ifs at hm
    exact h id m hm
  have hfirst : CleanMessages (if removed = [] then ms
      else Delivery.editChildren (removed.foldl Dict.erase ms) t.parentId fun cs =>
        cs.filter (· ∉ removed.map Json.str)) := by
    split_ifs
    · exact h
    · exact CleanMessages.editChildren herase _ fun cs hcs c hc => hcs c (List.mem_filter.mp hc).1
  have hsecond := CleanMessages.editChildren hfirst t.parentId
    (f := fun cs => cs.filter (· ≠ .str t.userMessageId) ++ [.str t.userMessageId]) (by
      intro cs hcs c hc
      rcases List.mem_append.mp hc with hc | hc
      · exact hcs c (List.mem_filter.mp hc).1
      · rw [List.mem_singleton.mp hc]
        exact .str hu)
  refine (hsecond.set hu (Clean.update ?_ huser)).set ha hreply
  cases hold : Dict.get? _ t.userMessageId with
  | none => exact .nil
  | some old => exact (hsecond _ old hold).2

/-- The user message is what is stored under its id, brought up to date. -/
theorem storeTurn_user (ms : Messages) {t : ModelTurn} (removed : List String) (metadata : Obj)
    (now : ℚ) (hne : t.userMessageId ≠ t.assistantMessageId) :
    ∃ old, (storeTurn ms t removed metadata now).get? t.userMessageId =
      some (Assoc.update old (t.userMessage metadata now)) := by
  unfold storeTurn
  simp only
  rw [Dict.get?_set_ne _ _ hne, Dict.get?_set_self]
  exact ⟨_, rfl⟩

/-! ### Clean values -/

/-- Joining texts brings in no character but those of the separator. -/
theorem nulFree_intercalate {sep : String} {parts : List String} (hsep : Chat.NulFree sep)
    (h : ∀ part ∈ parts, Chat.NulFree part) : Chat.NulFree (sep.intercalate parts) := by
  induction parts with
  | nil => exact fun hmem => by cases hmem
  | cons p parts ih =>
      have hrest := ih fun part hpart => h part (List.mem_cons_of_mem _ hpart)
      by_cases hnil : parts = []
      · subst hnil
        rw [String.intercalate_singleton]
        exact h p List.mem_cons_self
      · rw [String.intercalate_cons_of_ne_nil hnil]
        unfold Chat.NulFree at *
        rw [String.toList_append, String.toList_append, List.mem_append, List.mem_append,
          not_or, not_or]
        exact ⟨⟨h p List.mem_cons_self, hsep⟩, hrest⟩

/-- The text of a turn is made of the texts of its messages. -/
theorem nulFree_combinedContent {ms : List Message} (hms : ∀ m ∈ ms, Clean (.obj m))
    {content : String} (h : combinedContent ms = some content) : Chat.NulFree content := by
  obtain ⟨texts, htexts, rfl⟩ := Option.map_eq_some_iff.mp h
  obtain ⟨-, -, hright⟩ := mapM_spec htexts
  refine nulFree_intercalate (by decide) fun text htext => ?_
  obtain ⟨x, hx, hstr⟩ := hright text htext
  obtain ⟨m, hm, rfl⟩ := List.mem_map.mp (List.mem_filter.mp hx).1
  have hclean := (hms m hm).get "content"
  cases hc : m.get "content" with
  | str s =>
      rw [hc] at hclean hstr
      cases hstr
      cases hclean
      assumption
  | _ =>
      rw [hc] at hstr
      cases hstr

theorem clean_metaOf {m : Message} (h : Clean (.obj m)) : Clean (.obj (metaOf m)) :=
  clean_asObj ((h.get "meta").or .nil)

/-- The ids of a turn come from the metadata of its messages. -/
theorem clean_metaIds {ms : List Message} (hms : ∀ m ∈ ms, Clean (.obj m)) (key : String) :
    ∀ x ∈ metaIds ms key, Clean x := by
  intro x hx
  obtain ⟨m, hm, rfl⟩ := List.mem_map.mp (List.mem_filter.mp hx).1
  exact (clean_metaOf (hms m hm)).get key

theorem clean_idsEntry {one many : String} {ids : List Json} (h : ∀ x ∈ ids, Clean x) :
    ∀ e ∈ idsEntry one many ids, Clean e.2 := by
  intro e he
  unfold idsEntry at he
  split at he
  · cases he
  · rw [List.mem_singleton.mp he]
    exact h _ List.mem_cons_self
  · rw [List.mem_singleton.mp he]
    exact .arr h

/-- The entry is left out, or under one of two keys. -/
theorem keys_idsEntry (one many : String) (ids : List Json) :
    Assoc.keys (idsEntry one many ids) ∈ [[], [one], [many]] := by
  unfold idsEntry
  split <;> simp [Assoc.keys]

/-- The metadata of a turn are clean, whatever ids its messages name. -/
theorem clean_combinedMeta {ms : List Message} (hms : ∀ m ∈ ms, Clean (.obj m)) (timer : Bool) :
    Clean (.obj (combinedMeta ms timer)) := by
  have hentry : ∀ one many key, ∀ e ∈ idsEntry one many (metaIds ms key), Clean e.2 :=
    fun one many key => clean_idsEntry (clean_metaIds hms key)
  unfold combinedMeta
  cases timer with
  | true =>
      refine .of_members (["internal", "type"] ++
        Assoc.keys (idsEntry "timer_id" "timer_ids" (metaIds ms "timer_id")))
        (List.map_append ..) ?_ ?_
      -- whatever ids there are, the keys are apart
      · have hkeys : ∀ ks ∈ [[], ["timer_id"], ["timer_ids"]], (["internal", "type"] ++ ks).Nodup ∧
            ∀ k ∈ ["internal", "type"] ++ ks, Chat.NulFree k := by decide
        exact hkeys _ (keys_idsEntry ..)
      · intro e he
        rcases List.mem_append.mp he with he | he
        · rcases List.mem_cons.mp he with rfl | he
          · exact .bool true
          · rw [List.mem_singleton.mp he]
            exact .str (by decide)
        · exact hentry _ _ _ e he
  | false =>
      refine .of_members (["internal", "type"] ++
        Assoc.keys (idsEntry "delegation_id" "delegation_ids" (metaIds ms "delegation_id")) ++
        Assoc.keys (idsEntry "subagent_chat_id" "subagent_chat_ids"
          (metaIds ms "subagent_chat_id")))
        (by simp [Assoc.keys]) ?_ ?_
      · have hkeys : ∀ ks ∈ [[], ["delegation_id"], ["delegation_ids"]],
            ∀ ls ∈ [[], ["subagent_chat_id"], ["subagent_chat_ids"]],
            (["internal", "type"] ++ ks ++ ls).Nodup ∧
              ∀ k ∈ ["internal", "type"] ++ ks ++ ls, Chat.NulFree k := by decide
        exact hkeys _ (keys_idsEntry ..) _ (keys_idsEntry ..)
      · intro e he
        rcases List.mem_append.mp he with he | he
        · rcases List.mem_append.mp he with he | he
          · rcases List.mem_cons.mp he with rfl | he
            · exact .bool true
            · rw [List.mem_singleton.mp he]
              exact .str (by decide)
          · exact hentry _ _ _ e he
        · exact hentry _ _ _ e he

/-! ### The transaction -/

/-- What the transaction does; `ids` are those of the messages that go into the turn. -/
structure Folded (ms ms' : Messages) (t : ModelTurn) (ids : List String) : Prop where
  sane : Sane ms'
  batch : ∀ r ∈ ids, ∃ m, ms.get? r = some m ∧ m.get "role" = .str "user" ∧
    ∀ c, ms.parentOf c ≠ some r
  kept : ∀ k m, ms.get? k = some m → (k ∈ ids → k = t.userMessageId) →
    ∃ m', ms'.get? k = some m' ∧ Frozen m m'
  gone : ∀ k ∈ ids, k ≠ t.userMessageId → k ∉ ms'
  user : ∃ m, ms'.get? t.userMessageId = some m ∧ m.get "role" = .str "user" ∧ textOf m = t.content
  reply : ms'.parentOf t.assistantMessageId = some t.userMessageId
  new : ∀ k m', ms'.get? k = some m' → k ∉ ms → k = t.userMessageId ∨
    k = t.assistantMessageId ∧ m'.get "role" = .str "assistant"
  reused : t.userMessageId ∈ ids ∨ t.userMessageId ∉ ms
  texts : ∀ r ∈ ids, ∀ m, ms.get? r = some m → In (textOf m) t.content
  tokens : ∀ token : String, token.toList ≠ [] → '\n' ∉ token.toList → In token t.content →
    ∃ r ∈ ids, ∃ m, ms.get? r = some m ∧ In token (textOf m)

/-- New ids of a transaction. -/
structure NewIds (ms : Messages) (userId assistantId : String) : Prop where
  user : userId ∉ ms ∧ userId ≠ "" ∧ Chat.NulFree userId
  assistant : assistantId ∉ ms ∧ assistantId ≠ "" ∧ Chat.NulFree assistantId
  ne : userId ≠ assistantId

/-- The messages that go into the turn are childless siblings. -/
structure Siblings (ms : Messages) (parentId : Json) (ids : List String) : Prop where
  stored : ∀ r ∈ ids, ∃ m, ms.get? r = some m ∧ m.get "role" = .str "user" ∧ childrenIds m = [] ∧
    m.get "parentId" = parentId
  ne_nil : ids ≠ []

/-- The user message of the turn is one that is used again, or a new one. -/
def UsedAgain (ms : Messages) (t : ModelTurn) (ids removed : List String) : Prop :=
  (removed = [] ∧ ids = [t.userMessageId] ∧ ∀ m, ms.get? t.userMessageId = some m →
    textOf m = t.content) ∨
    (removed = ids ∧ t.userMessageId ∉ ms)

/-- The siblings stand below one parent, or none. -/
theorem Siblings.parent {ms : Messages} (hlinked : Linked ms) {parentId : Json}
    {ids : List String} (h : Siblings ms parentId ids) :
    ∃ parent : Option String, parentId = (parent.map Json.str).getD .null ∧
      (∀ p, parent = some p → p ∈ ms) ∧ ∀ r ∈ ids, ms.parentOf r = parent := by
  obtain ⟨r₀, hr₀⟩ := List.exists_mem_of_ne_nil ids h.ne_nil
  obtain ⟨m₀, hm₀, -, -, hparent₀⟩ := h.stored r₀ hr₀
  obtain ⟨parent, hparentId, hparent⟩ : ∃ parent : Option String,
      parentId = (parent.map Json.str).getD .null ∧ ∀ p, parent = some p → p ∈ ms := by
    rw [← hparent₀]
    rcases hlinked.resolves hm₀ with hnull | ⟨p, hp, heq⟩
    · exact ⟨none, hnull, fun p hp => by cases hp⟩
    · refine ⟨some p, heq, fun q hq => ?_⟩
      cases hq
      exact hp
  refine ⟨parent, hparentId, hparent, fun r hr => ?_⟩
  obtain ⟨m, hm, -, -, heq⟩ := h.stored r hr
  rw [Messages.parentOf_of_get? hm, heq, hparentId]
  cases hp : parent with
  | none => rfl
  | some p => exact Messages.stored_str (hparent p hp)

/-- None of the siblings has a reply. -/
theorem Siblings.leaf {ms : Messages} (hlinked : Linked ms) {parentId : Json} {ids : List String}
    (h : Siblings ms parentId ids) {r : String} (hr : r ∈ ids) (c : String) :
    ms.parentOf c ≠ some r := by
  obtain ⟨m, hm, -, hnil, -⟩ := h.stored r hr
  exact (hlinked.childless hm).mp hnil c

/-- Only messages of the turn are removed. -/
theorem UsedAgain.mem_of_removed {ms : Messages} {t : ModelTurn} {ids removed : List String}
    (h : UsedAgain ms t ids removed) {r : String} (hr : r ∈ removed) : r ∈ ids := by
  rcases h with ⟨rfl, -⟩ | ⟨rfl, -⟩
  · cases hr
  · exact hr

/-- The user message of the turn is one of the siblings, or new. -/
theorem UsedAgain.mem_or_new {ms : Messages} {t : ModelTurn} {ids removed : List String}
    (h : UsedAgain ms t ids removed) : t.userMessageId ∈ ids ∨ t.userMessageId ∉ ms := by
  rcases h with ⟨-, hids, -⟩ | ⟨-, hnew⟩
  · exact .inl (hids ▸ List.mem_singleton_self _)
  · exact .inr hnew

/-- Storing a turn replaces the removed siblings by its messages. -/
theorem regrouped_storeTurn {ms : Messages} (hs : Sane ms) {t : ModelTurn}
    {ids removed : List String} (metadata : Obj) (now : ℚ)
    (hsiblings : Siblings ms t.parentId ids) (hcase : UsedAgain ms t ids removed)
    (ha : t.assistantMessageId ∉ ms) (hne : t.userMessageId ≠ t.assistantMessageId) :
    ∃ parent old, Regrouped ms parent removed t.userMessageId t.assistantMessageId
      (Assoc.update old (t.userMessage metadata now)) (t.assistantMessage now)
        (storeTurn ms t removed metadata now) := by
  obtain ⟨parent, hparentId, hparent, hparentOf⟩ := hsiblings.parent hs.linked
  obtain ⟨r₀, hr₀⟩ := List.exists_mem_of_ne_nil ids hsiblings.ne_nil
  obtain ⟨old, hgetu⟩ := storeTurn_user ms removed metadata now hne
  have hleaf : ∀ r ∈ ids, ∀ c, ms.parentOf c ≠ some r := fun r hr => hsiblings.leaf hs.linked hr
  -- the parent has a child, so it stays
  have hparentStays : ∀ p, parent = some p → p ∈ ms ∧ p ≠ "" ∧ p ∉ removed := by
    intro p hp
    obtain ⟨m, hm⟩ := (Dict.mem_iff_exists _ _).mp (hparent p hp)
    refine ⟨hparent p hp, (hs.ids p m hm).1, fun hr => ?_⟩
    exact hleaf p (hcase.mem_of_removed hr) r₀ ((hparentOf r₀ hr₀).trans hp)
  have huleaf : ∀ c, ms.parentOf c ≠ some t.userMessageId := by
    intro c hc
    rcases hcase.mem_or_new with hu | hnew
    · exact hleaf _ hu c hc
    · exact hnew (Messages.mem_of_parentOf hc).2
  refine ⟨parent, old, ?_⟩
  constructor
  case parentStays =>
    intro p hp
    refine ⟨hparent p hp, (hparentStays p hp).2.2, ?_⟩
    rintro rfl
    exact huleaf r₀ ((hparentOf r₀ hr₀).trans hp)
  case removedLeaf =>
    intro r hr
    exact ⟨hparentOf r (hcase.mem_of_removed hr), hleaf r (hcase.mem_of_removed hr)⟩
  case userLeaf => exact huleaf
  case userStays =>
    rcases hcase with ⟨rfl, -⟩ | ⟨rfl, hnew⟩
    · exact List.not_mem_nil
    · intro hr
      obtain ⟨m, hm, -⟩ := hsiblings.stored _ hr
      exact hnew (Dict.mem_of_get? hm)
  case sibling =>
    intro hin
    rcases hcase.mem_or_new with hu | hnew
    · exact hparentOf _ hu
    · exact absurd hin hnew
  case fresh => exact ha
  case ne => exact hne.symm
  case user => exact hgetu
  case userParent =>
    rw [← hparentId]
    exact Obj.get_update_of_present rfl old
  case userChildren =>
    rw [Assoc.lookup_update]
    rfl
  case assistant => exact storeTurn_reply ms t removed metadata now
  case assistantParent => rfl
  case assistantChildren => rfl
  case old => exact fun k hk hk' => storeTurn_get? metadata now hparentId hparentStays hk hk'

/-- The transaction does to a sound history what it should, once its batch consists of childless
siblings and its text of theirs. -/
theorem storeTurn_folded {ms : Messages} (hs : Sane ms) {t : ModelTurn}
    {ids removed : List String} {metadata : Obj} {now : ℚ}
    (hsiblings : Siblings ms t.parentId ids) (hcase : UsedAgain ms t ids removed)
    (hu : t.userMessageId ≠ "" ∧ Chat.NulFree t.userMessageId)
    (ha : t.assistantMessageId ∉ ms ∧ t.assistantMessageId ≠ "" ∧ Chat.NulFree t.assistantMessageId)
    (hne : t.userMessageId ≠ t.assistantMessageId)
    (huser : Clean (.obj (t.userMessage metadata now)))
    (hreply : Clean (.obj (t.assistantMessage now)))
    (htexts : ∀ r ∈ ids, ∀ m, ms.get? r = some m → In (textOf m) t.content)
    (htokens : ∀ token : String, token.toList ≠ [] → '\n' ∉ token.toList → In token t.content →
      ∃ r ∈ ids, ∃ m, ms.get? r = some m ∧ In token (textOf m)) :
    Folded ms (storeTurn ms t removed metadata now) t ids := by
  obtain ⟨parent, old, hregrouped⟩ := regrouped_storeTurn hs metadata now hsiblings hcase ha.1 hne
  -- what the new user message sets stands over what was there
  have hfield : ∀ {f v}, (t.userMessage metadata now).lookup f = some v →
      Obj.get (Assoc.update old (t.userMessage metadata now)) f = v :=
    fun hf => Obj.get_update_of_present hf old
  constructor
  case sane =>
    refine ⟨hregrouped.linked hs.linked, clean_storeTurn hs.clean hu.2 ha.2.2 huser hreply,
      fun k m' hm' => ?_⟩
    rcases hregrouped.stored hm' with ⟨rfl, rfl⟩ | ⟨rfl, rfl⟩ | ⟨-, m, hm, rfl⟩
    · exact ⟨hu.1, hfield rfl⟩
    · exact ⟨ha.2.1, rfl⟩
    · exact ⟨(hs.ids k m hm).1,
        ((Regrouped.sameButChildren m).get (by decide)).trans (hs.ids k m hm).2⟩
  case batch =>
    intro r hr
    obtain ⟨m, hm, hrole, -⟩ := hsiblings.stored r hr
    exact ⟨m, hm, hrole, hsiblings.leaf hs.linked hr⟩
  case kept =>
    intro k m hm hk
    by_cases hku : k = t.userMessageId
    -- the message used again has kept its fields and its text
    · rcases hcase with ⟨-, hids, htext⟩ | ⟨-, hnew⟩
      -- it is the one message of the batch
      · obtain ⟨n, hn, hrole, -, hparentn⟩ :=
          hsiblings.stored k (hku ▸ hids ▸ List.mem_singleton_self _)
        rw [hm] at hn
        cases hn
        refine ⟨_, hku ▸ hregrouped.user, (hfield rfl).trans hparentn.symm,
          (hfield rfl).trans hrole.symm, fun _ => ?_⟩
        rw [textOf, hfield rfl, Json.asStr_str, Option.getD_some]
        exact (htext m (hku ▸ hm)).symm
      · exact absurd (hku ▸ Dict.mem_of_get? hm) hnew
    · have hka : k ≠ t.assistantMessageId := fun heq => ha.1 (heq ▸ Dict.mem_of_get? hm)
      rw [hregrouped.old k hku hka, if_neg fun hr => hku (hk (hcase.mem_of_removed hr)), hm,
        Option.map_some]
      exact ⟨_, rfl, (Regrouped.sameButChildren m).frozen⟩
  case gone =>
    intro k hk hku
    obtain ⟨m, hm, -⟩ := hsiblings.stored k hk
    have hka : k ≠ t.assistantMessageId := fun heq => ha.1 (heq ▸ Dict.mem_of_get? hm)
    rcases hcase with ⟨-, hids, -⟩ | ⟨rfl, -⟩
    · rw [hids] at hk
      exact absurd (List.mem_singleton.mp hk) hku
    · rw [Dict.mem_iff, hregrouped.old k hku hka, if_pos hk]
      exact Bool.false_ne_true
  case user =>
    refine ⟨_, hregrouped.user, hfield rfl, ?_⟩
    rw [textOf, hfield rfl]
    rfl
  case reply => exact hregrouped.parentOf_assistant
  case new =>
    intro k m' hm' hk
    rcases hregrouped.stored hm' with ⟨hku, -⟩ | ⟨hka, rfl⟩ | ⟨-, m, hm, -⟩
    · exact .inl hku
    · exact .inr ⟨hka, rfl⟩
    · exact absurd (Dict.mem_of_get? hm) hk
  case reused => exact hcase.mem_or_new
  case texts => exact htexts
  case tokens => exact htokens

/-- The first pending message always goes into its own turn. -/
theorem first_mem_batch {first : Message} {rest : List Message} {modelId : Json}
    (hpending : isPending first = true) :
    first ∈ batch (first :: rest) first ((first.get "model").or modelId) := by
  unfold batch
  split_ifs with htimer
  · exact List.mem_singleton_self _
  · refine List.mem_filter.mpr ⟨List.mem_cons_self, ?_⟩
    have hmodel :
      (first.get "model").or ((first.get "model").or modelId) = (first.get "model").or modelId := by
      by_cases htruthy : (first.get "model").truthy = true
      · rw [Json.or_of_truthy htruthy, Json.or_of_truthy htruthy]
      · rw [Bool.not_eq_true] at htruthy
        rw [Json.or_of_falsy htruthy, Json.or_of_falsy htruthy]
    have hresult : isSubagentResult first = true := by
      unfold isPending at hpending
      rw [Bool.and_eq_true, Bool.or_eq_true] at hpending
      exact hpending.2.resolve_right htimer
    rw [hmodel, Json.pyEq_refl, Json.pyEq_refl, hresult]
    rfl

/-- The ids of stored messages are the keys they are stored at. -/
theorem ids_spec {ms : Messages} (hs : Sane ms) {batch : List Message} {ids : List String}
    (hbatch : ∀ m ∈ batch, ∃ k, ms.get? k = some m)
    (hmap : batch.mapM (fun m => (m.get "id").asStr) = some ids) :
    ids.length = batch.length ∧ (∀ r ∈ ids, ∃ m ∈ batch, ms.get? r = some m) ∧
      ∀ m ∈ batch, ∃ r ∈ ids, ms.get? r = some m := by
  obtain ⟨hlength, hleft, hright⟩ := mapM_spec hmap
  refine ⟨hlength, fun r hr => ?_, fun m hm => ?_⟩
  · obtain ⟨m, hm, hid⟩ := hright r hr
    obtain ⟨k, hk⟩ := hbatch m hm
    rw [(hs.ids k m hk).2] at hid
    cases hid
    exact ⟨m, hm, hk⟩
  · obtain ⟨r, hr, hid⟩ := hleft m hm
    obtain ⟨k, hk⟩ := hbatch m hm
    rw [(hs.ids k m hk).2] at hid
    cases hid
    exact ⟨r, hr, hk⟩

theorem clean_userMessage {t : ModelTurn} {metadata : Obj} {now : ℚ}
    (hu : Chat.NulFree t.userMessageId) (ha : Chat.NulFree t.assistantMessageId)
    (hparent : Clean t.parentId) (hcontent : Chat.NulFree t.content) (hmodel : Clean t.modelId)
    (hmeta : Clean (.obj metadata)) : Clean (.obj (t.userMessage metadata now)) := by
  refine .of_members ["id", "parentId", "childrenIds", "role", "content", "model", "meta",
    "timestamp"] rfl (by decide) ?_
  simp only [ModelTurn.userMessage, List.forall_mem_cons]
  refine ⟨.str hu, hparent, .arr fun x hx => ?_, .str (by decide), .str hcontent, hmodel, hmeta,
    .num now, fun e he => by cases he⟩
  rw [List.mem_singleton.mp hx]
  exact .str ha

theorem clean_assistantMessage {t : ModelTurn} {now : ℚ} (ha : Chat.NulFree t.assistantMessageId)
    (hu : Chat.NulFree t.userMessageId) (hmodel : Clean t.modelId) :
    Clean (.obj (t.assistantMessage now)) := by
  refine .of_members ["id", "parentId", "childrenIds", "role", "content", "done", "model",
    "timestamp"] rfl (by decide) ?_
  simp only [ModelTurn.assistantMessage, List.forall_mem_cons]
  exact ⟨.str ha, .str hu, .arr fun x hx => (by cases hx), .str (by decide), .str (by decide),
    .bool false, hmodel, .num now, fun e he => by cases he⟩

/-- A fold that finds something to do folds one batch. -/
theorem foldPending_spec {h h' : History} (hs : Sane h.messages) {run : Obj}
    {timerRun : Json → Obj} {userId assistantId : String} {now : ℚ} {t : ModelTurn}
    (hids : NewIds h.messages userId assistantId) (hrun : ∀ m, Clean (runModel run timerRun m))
    (hfold : foldPending h run timerRun userId assistantId now = some (h', t)) :
    t.assistantMessageId = assistantId ∧ (t.userMessageId = userId ∨ t.userMessageId ∈ h.messages) ∧
      ∃ ids, Folded h.messages h'.messages t ids := by
  unfold foldPending at hfold
  split at hfold
  · cases hfold
  · next first rest hpending =>
      obtain ⟨content, hcontent, hfold⟩ := Option.bind_eq_some_iff.mp hfold
      obtain ⟨ids, hmap, hfold⟩ := Option.bind_eq_some_iff.mp hfold
      obtain ⟨firstId, hfirstId, hfold⟩ := Option.bind_eq_some_iff.mp hfold
      cases hfold
      set modelId := (first.get "model").or (runModel run timerRun first)
      set ms := batch (first :: rest) first modelId
      -- what is folded are user messages without children that hang from one parent
      have hbatch : ∀ m ∈ ms, ∃ k, h.messages.get? k = some m ∧ m.get "role" = .str "user" ∧
          childrenIds m = [] ∧ m.get "parentId" = first.get "parentId" :=
        fun m hm => batch_spec hs hpending hm
      have hclean : ∀ m ∈ ms, Clean (.obj m) := by
        intro m hm
        obtain ⟨k, hk, -⟩ := hbatch m hm
        exact (hs.clean k m hk).2
      have hfirstPending : first ∈ pending h.messages := hpending ▸ List.mem_cons_self
      have hfirst : first ∈ ms := first_mem_batch (List.mem_filter.mp hfirstPending).2
      obtain ⟨hlength, hkeys, hkeys'⟩ :=
        ids_spec hs (fun m hm => (hbatch m hm).imp fun _ => And.left) hmap
      obtain ⟨htexts, htokens⟩ := combinedContent_spec hcontent
      have hcontentClean := nulFree_combinedContent hclean hcontent
      have hmodelClean : Clean modelId := ((hclean first hfirst).get _).or (hrun first)
      obtain ⟨r₀, hr₀, hfirst₀⟩ := hkeys' first hfirst
      have hfirstKey : h.messages.get? firstId = some first := by
        rw [(hs.ids r₀ first hfirst₀).2] at hfirstId
        cases hfirstId
        exact hfirst₀
      refine ⟨rfl, ?_, ids, ?_⟩
      · dsimp only
        split_ifs
        · exact .inr (Dict.mem_of_get? hfirstKey)
        · exact .inl rfl
      -- the user message is the one used again or a new one, so its id is clean
      have huser :
        (if ids.length = 1 ∧ (metaOf first).get "status" ≠ .str "pending" then firstId
        else userId) ≠ "" ∧
          Chat.NulFree (if ids.length = 1 ∧ (metaOf first).get "status" ≠ .str "pending" then
            firstId
            else userId) := by
        split_ifs
        · exact ⟨(hs.ids firstId first hfirstKey).1, (hs.clean firstId first hfirstKey).1⟩
        · exact hids.user.2
      refine storeTurn_folded hs ⟨fun r hr => ?_, ?_⟩ ?_ huser hids.assistant ?_ ?_ ?_
        (fun r hr m hm => ?_)
        fun token hne hline hin => ?_
      · obtain ⟨m, hm, hget⟩ := hkeys r hr
        obtain ⟨k, hk, hrole, hnil, hparent⟩ := hbatch m hm
        exact ⟨m, hget, hrole, hnil, hparent⟩
      · rintro rfl
        cases hr₀
      · -- one message without the status is used again
        by_cases hreuse : ids.length = 1 ∧ (metaOf first).get "status" ≠ .str "pending"
        -- the batch is this one message, and so is the list of ids
        · left
          obtain ⟨m, hms⟩ := List.length_eq_one_iff.mp (hlength.symm.trans hreuse.1)
          obtain ⟨r, hids'⟩ := List.length_eq_one_iff.mp hreuse.1
          have hm : m = first := (List.mem_singleton.mp (hms ▸ hfirst)).symm
          have hr : r = firstId := by
            obtain ⟨m', hm', hget⟩ := hkeys r (hids' ▸ List.mem_singleton_self r)
            rw [hms] at hm'
            obtain rfl := (List.mem_singleton.mp hm').trans hm
            have := (hs.ids r m' hget).2.symm.trans (hs.ids firstId m' hfirstKey).2
            cases this
            rfl
          simp only [if_pos hreuse]
          refine ⟨trivial, hids'.trans (hr ▸ rfl), fun n hn => ?_⟩
          rw [hfirstKey] at hn
          cases hn
          rw [hms, hm] at hcontent
          exact (combinedContent_singleton hcontent).symm
        · right
          simp only [if_neg hreuse]
          exact ⟨trivial, hids.user.1⟩
      · intro heq
        dsimp only at heq
        split_ifs at heq
        · exact hids.assistant.1 (heq ▸ Dict.mem_of_get? hfirstKey)
        · exact hids.ne heq
      · exact clean_userMessage huser.2 hids.assistant.2.2 ((hclean first hfirst).get _)
          hcontentClean hmodelClean (clean_combinedMeta hclean _)
      · exact clean_assistantMessage hids.assistant.2.2 huser.2 hmodelClean
      · obtain ⟨m', hm', hget⟩ := hkeys r hr
        rw [hm] at hget
        cases hget
        exact htexts m hm'
      · obtain ⟨m, hm, hin⟩ := htokens token hne hline hin
        obtain ⟨r, hr, hget⟩ := hkeys' m hm
        exact ⟨r, hr, m, hget, hin⟩

end OpenWebUI.Delivery
