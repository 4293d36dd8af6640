import OpenWebUI.Output.Reconcile

/-! # Converted output

What the pending lists hold while the items are read, and what follows for the messages:
tool calls and tool results pair, only finished calls with a result appear, and no text of
a message is lost unless it is blank.
-/

namespace OpenWebUI.Output

open Py

/-- The texts of the message items that have one. -/
def messageTexts (items : List Item) : List String :=
  items.filterMap fun item => match item with
    | .message content => if messageText content ≠ "" then some (messageText content) else none
    | _ => none

/-! ## What is held -/

/-- The ids of the calls that are pending or in a message. -/
def Pending.callIds (st : Pending) : List String :=
  toolCallIds st.messages ++ st.toolCalls.map ToolCall.id

/-- The ids of the results that are pending or in a message. -/
def Pending.resultIds (st : Pending) : List String :=
  toolIds st.messages ++ st.toolOutputs.map Prod.fst

/-- The contents so far, message by message and then pending, are made of these pieces. -/
def Pending.Holds (st : Pending) (pieces : List String) : Prop :=
  ∃ parts : List (List String), contents st.messages = parts.map ("\n".intercalate ·) ∧
    pieces = parts.flatten ++ st.content

/-- Flushing moves what is pending into messages and loses nothing. -/
structure SameHeld (st st' : Pending) : Prop where
  callIds : st'.callIds = st.callIds
  resultIds : st'.resultIds = st.resultIds
  holds : ∀ pieces, st.Holds pieces → st'.Holds pieces

section Held

variable {o : Options} {st st' st'' : Pending}

theorem SameHeld.refl (st : Pending) : SameHeld st st := ⟨rfl, rfl, fun _ h => h⟩

theorem SameHeld.trans (h : SameHeld st st') (h' : SameHeld st' st'') : SameHeld st st'' :=
  ⟨h'.callIds.trans h.callIds, h'.resultIds.trans h.resultIds,
    fun pieces hp => h'.holds pieces (h.holds pieces hp)⟩

theorem toolIds_append (a b : List Message) : toolIds (a ++ b) = toolIds a ++ toolIds b :=
  List.filterMap_append

theorem toolCallIds_append (a b : List Message) :
    toolCallIds (a ++ b) = toolCallIds a ++ toolCallIds b :=
  List.flatMap_append

theorem contents_append (a b : List Message) : contents (a ++ b) = contents a ++ contents b :=
  List.filterMap_append

theorem sameHeld_flushPending (o : Options) (st : Pending) : SameHeld st (flushPending o st) := by
  unfold flushPending
  split_ifs
  · exact SameHeld.refl st
  · refine ⟨?_, ?_, ?_⟩
    · simp only [Pending.callIds, toolCallIds_append, List.map_nil, List.append_nil]
      simp [toolCallIds, Pending.assistant]
    · simp only [Pending.resultIds, toolIds_append]
      simp [toolIds]
    · rintro pieces ⟨parts, hparts, rfl⟩
      refine ⟨parts ++ [st.content], ?_, ?_⟩
      · rw [contents_append, hparts, List.map_append]
        rfl
      · simp

/-- After a flush no text is pending. -/
theorem flushPending_content (o : Options) (st : Pending) : (flushPending o st).content = [] := by
  unfold flushPending
  split_ifs with h
  · simp only [Bool.and_eq_true, List.isEmpty_iff] at h
    exact h.1.1.1
  · rfl

theorem sameHeld_flushToolImages (st : Pending) : SameHeld st (flushToolImages st) := by
  unfold flushToolImages
  split_ifs
  · exact SameHeld.refl st
  · refine ⟨?_, ?_, ?_⟩
    · simp only [Pending.callIds, toolCallIds_append]
      simp [toolCallIds]
    · simp only [Pending.resultIds, toolIds_append]
      simp [toolIds]
    · rintro pieces ⟨parts, hparts, rfl⟩
      refine ⟨parts, ?_, rfl⟩
      rw [contents_append, hparts]
      simp [contents]

/-- A result becomes one tool message. -/
theorem pushToolOutput_spec (o : Options) (st : Pending) (e : String × List OutputPart) :
    ∃ content, (pushToolOutput o st e).messages = st.messages ++ [.tool e.1 content] ∧
      (pushToolOutput o st e).toolCalls = st.toolCalls ∧
      (pushToolOutput o st e).content = st.content := by
  unfold pushToolOutput
  dsimp only
  split_ifs
  · exact ⟨_, rfl, rfl, rfl⟩
  · exact ⟨_, rfl, rfl, rfl⟩
  · exact ⟨_, rfl, rfl, rfl⟩

/-- Writing the outputs adds their results and keeps the rest. -/
theorem foldl_pushToolOutput (o : Options) (outputs : List (String × List OutputPart)) :
    ∀ st : Pending, let st' := outputs.foldl (pushToolOutput o) st
      toolIds st'.messages = toolIds st.messages ++ outputs.map Prod.fst ∧
      st'.callIds = st.callIds ∧ ∀ pieces, st.Holds pieces → st'.Holds pieces := by
  induction outputs with
  | nil => exact fun st => ⟨by simp, rfl, fun _ h => h⟩
  | cons e outputs ih =>
      intro st
      obtain ⟨hids, hcalls, hholds⟩ := ih (pushToolOutput o st e)
      obtain ⟨content, hmessages, htoolCalls, hcontent⟩ := pushToolOutput_spec o st e
      refine ⟨?_, ?_, ?_⟩
      · rw [List.foldl_cons, hids, hmessages, toolIds_append]
        simp [toolIds]
      · rw [List.foldl_cons, hcalls, Pending.callIds, hmessages, htoolCalls, toolCallIds_append]
        simp [toolCallIds, Pending.callIds]
      · rintro pieces ⟨parts, hparts, rfl⟩
        refine hholds _ ⟨parts, ?_, by rw [hcontent]⟩
        rw [hmessages, contents_append, hparts]
        simp [contents]

theorem sameHeld_flushToolOutputs (o : Options) (st : Pending) :
    SameHeld st (flushToolOutputs o st) := by
  unfold flushToolOutputs
  split_ifs
  · exact SameHeld.refl st
  · have hflush := sameHeld_flushPending o st
    obtain ⟨hids, hcalls, hholds⟩ := foldl_pushToolOutput o st.toolOutputs (flushPending o st)
    refine ⟨hcalls.trans hflush.callIds, ?_,
      fun pieces hp => hholds pieces (hflush.holds pieces hp)⟩
    have hresults := hflush.resultIds
    have houtputs : (flushPending o st).toolOutputs = st.toolOutputs := by
      unfold flushPending
      split_ifs <;> rfl
    rw [Pending.resultIds, houtputs] at hresults
    change toolIds _ ++ [] = _
    rw [List.append_nil, hids, hresults]

end Held

/-! ## Reading the items -/

/-- After some items: the results held are theirs in order, the calls held are in `ids`, and
their texts are held in order. -/
structure Tracks (ids : List String) (items : List Item) (st : Pending) : Prop where
  results : st.resultIds.Sublist (resultCallIds items)
  calls : st.callIds ⊆ ids
  texts : ∃ pieces, st.Holds pieces ∧ (messageTexts items).Sublist pieces

section Tracks

variable {o : Options} {ids : List String} {items : List Item} {st st' : Pending}

/-- What is tracked depends on what is held. -/
theorem Tracks.same (h : Tracks ids items st) (hsame : SameHeld st st') : Tracks ids items st' := by
  obtain ⟨pieces, hholds, hsub⟩ := h.texts
  exact ⟨hsame.resultIds ▸ h.results, hsame.callIds ▸ h.calls, pieces,
    hsame.holds pieces hholds, hsub⟩

/-- Only the content grows. -/
theorem Tracks.push (h : Tracks ids items st) {item : Item} {new : List String}
    (hmessages : st'.messages = st.messages) (hcalls : st'.toolCalls = st.toolCalls)
    (houtputs : st'.toolOutputs = st.toolOutputs) (hcontent : st'.content = st.content ++ new)
    (hnew : (messageTexts [item]).Sublist new) : Tracks ids (items ++ [item]) st' := by
  obtain ⟨pieces, ⟨parts, hparts, rfl⟩, hsub⟩ := h.texts
  refine ⟨?_, ?_, _, ⟨parts, hmessages ▸ hparts, rfl⟩, ?_⟩
  · rw [Pending.resultIds, hmessages, houtputs, resultCallIds, List.filterMap_append]
    exact h.results.trans (List.sublist_append_left _ _)
  · rw [Pending.callIds, hmessages, hcalls]
    exact h.calls
  · rw [messageTexts, List.filterMap_append, hcontent, ← List.append_assoc]
    exact hsub.append hnew

/-- Reasoning goes into the pending content, into the pending reasoning or nowhere. -/
theorem pushReasoning_spec (o : Options) (st : Pending) (r : Reasoning) :
    ∃ new, (pushReasoning o st r).messages = st.messages ∧
      (pushReasoning o st r).toolCalls = st.toolCalls ∧
      (pushReasoning o st r).toolOutputs = st.toolOutputs ∧
      (pushReasoning o st r).content = st.content ++ new := by
  unfold pushReasoning
  dsimp only
  split_ifs
  · exact ⟨[], rfl, rfl, rfl, (List.append_nil _).symm⟩
  · exact ⟨[], rfl, rfl, rfl, (List.append_nil _).symm⟩
  · exact ⟨_, rfl, rfl, rfl, rfl⟩
  · exact ⟨[], rfl, rfl, rfl, (List.append_nil _).symm⟩
  · exact ⟨[], rfl, rfl, rfl, (List.append_nil _).symm⟩

/-- One more item is tracked. -/
theorem tracks_pushItem (hids : "" ∉ ids) (h : Tracks ids items st) (item : Item) :
    Tracks ids (items ++ [item]) (pushItem o ids st item) := by
  cases item with
  | message content =>
      simp only [pushItem]
      split_ifs with htext
      -- blank text adds no piece
      · refine h.push rfl rfl rfl rfl ?_
        simp [messageTexts, htext]
      · refine h.push rfl rfl rfl (List.append_nil _).symm ?_
        simp only [messageTexts, List.filterMap_cons, if_neg htext]
        exact List.Sublist.refl _
  | functionCall call =>
      simp only [pushItem]
      split_ifs with hid
      -- a call with an id waits for its message
      · obtain ⟨pieces, ⟨parts, hparts, rfl⟩, hsub⟩ := h.texts
        refine ⟨?_, ?_, _, ⟨parts, hparts, rfl⟩, ?_⟩
        · rw [resultCallIds, List.filterMap_append]
          exact h.results.trans (List.sublist_append_left _ _)
        · intro id hmem
          rw [Pending.callIds, List.map_append, ← List.append_assoc] at hmem
          rcases List.mem_append.mp hmem with hmem | hmem
          · exact h.calls hmem
          · rw [List.mem_singleton.mp hmem]
            exact hid
        · rw [messageTexts, List.filterMap_append]
          exact (List.append_nil (messageTexts items)).symm ▸ hsub
      · exact h.push rfl rfl rfl (List.append_nil _).symm (List.Sublist.refl _)
  | functionCallOutput callId output =>
      simp only [pushItem]
      -- an output answers its call, and only once
      split_ifs with hid
      · obtain ⟨pieces, ⟨parts, hparts, rfl⟩, hsub⟩ := h.texts
        have hne : callId ≠ "" := fun heq => hids (heq ▸ hid)
        refine ⟨?_, h.calls, _, ⟨parts, hparts, rfl⟩, ?_⟩
        · rw [Pending.resultIds, List.map_append, ← List.append_assoc, resultCallIds,
            List.filterMap_append]
          refine h.results.append ?_
          simp [hne]
        · rw [messageTexts, List.filterMap_append]
          exact (List.append_nil (messageTexts items)).symm ▸ hsub
      · exact h.push rfl rfl rfl (List.append_nil _).symm (List.Sublist.refl _)
  | reasoning r =>
      obtain ⟨new, hmessages, hcalls, houtputs, hcontent⟩ := pushReasoning_spec o st r
      exact h.push hmessages hcalls houtputs hcontent (List.nil_sublist _)
  | codeInterpreter code output => exact h.push rfl rfl rfl rfl (List.nil_sublist _)
  | extension => exact h.push rfl rfl rfl (List.append_nil _).symm (List.Sublist.refl _)

/-- One more item is tracked, flushes included. -/
theorem tracks_convertItem (hids : "" ∉ ids) (h : Tracks ids items st) (item : Item) :
    Tracks ids (items ++ [item]) (convertItem o ids st item) := by
  have hflushed : Tracks ids items (flushToolImages (flushToolOutputs o st)) :=
    h.same ((sameHeld_flushToolOutputs o st).trans (sameHeld_flushToolImages _))
  unfold convertItem
  cases item with
  | functionCallOutput callId output => exact tracks_pushItem hids h _
  | _ => exact tracks_pushItem hids hflushed _

/-- All the items are tracked. -/
theorem tracks_foldl (hids : "" ∉ ids) (more : List Item) : ∀ {items st}, Tracks ids items st →
    Tracks ids (items ++ more) (more.foldl (convertItem o ids) st) := by
  induction more with
  | nil =>
      intro items st h
      rw [List.append_nil]
      exact h
  | cons item more ih =>
      intro items st h
      have hnext : Tracks ids (items ++ [item] ++ more)
          (more.foldl (convertItem o ids) (convertItem o ids st item)) :=
        ih (tracks_convertItem hids h item)
      rwa [List.append_assoc] at hnext

/-- At the start nothing is held. -/
theorem tracks_empty : Tracks ids [] Pending.empty where
  results := List.Sublist.refl _
  calls := List.nil_subset _
  texts := ⟨[], ⟨[], rfl, rfl⟩, List.Sublist.refl _⟩

end Tracks

/-! ## The converted messages -/

theorem mem_functionCallIds {output : List Item} {id : String} (h : id ∈ functionCallIds output) :
    (∃ call, .functionCall call ∈ output ∧ call.callId = id ∧
      call.status ∈ ["completed", "failed", "rejected"]) ∧
    ∃ parts, .functionCallOutput id parts ∈ output := by
  obtain ⟨hcompleted, hresult⟩ := List.mem_filter.mp h
  constructor
  · obtain ⟨item, hitem, heq⟩ := List.mem_filterMap.mp hcompleted
    cases item with
    | functionCall call =>
        dsimp only at heq
        split_ifs at heq with hstatus
        exact ⟨call, hitem, Option.some.inj heq, hstatus.2⟩
    | _ => cases heq
  · obtain ⟨item, hitem, heq⟩ := List.mem_filterMap.mp (of_decide_eq_true hresult)
    cases item with
    | functionCallOutput callId parts =>
        dsimp only at heq
        split_ifs at heq
        obtain rfl := Option.some.inj heq
        exact ⟨parts, hitem⟩
    | _ => cases heq

/-- The empty id is never kept. -/
theorem functionCallIds_ne_empty (output : List Item) : "" ∉ functionCallIds output := by
  intro h
  obtain ⟨item, _, heq⟩ := List.mem_filterMap.mp (List.mem_filter.mp h).1
  cases item with
  | functionCall call =>
      dsimp only at heq
      split_ifs at heq with hstatus
      exact hstatus.1 (Option.some.inj heq)
  | _ => cases heq

/-- What the rebuilt messages hold, before they are reconciled. -/
theorem rebuildMessages_spec (o : Options) (output : List Item) :
    (toolIds (rebuildMessages o output)).Sublist (resultCallIds output) ∧
    toolCallIds (rebuildMessages o output) ⊆ functionCallIds output ∧
    ∃ parts : List (List String),
      contents (rebuildMessages o output) = parts.map ("\n".intercalate ·) ∧
      (messageTexts output).Sublist parts.flatten := by
  let st := output.foldl (convertItem o (functionCallIds output)) Pending.empty
  have hread : Tracks (functionCallIds output) output st :=
    tracks_foldl (functionCallIds_ne_empty output) output tracks_empty
  have hflushed := ((hread.same (sameHeld_flushToolOutputs o _)).same
    (sameHeld_flushToolImages _)).same (sameHeld_flushPending o _)
  refine ⟨(List.sublist_append_left _ _).trans hflushed.results,
    fun _ hid => hflushed.calls (List.mem_append_left _ hid), ?_⟩
  obtain ⟨pieces, ⟨parts, hparts, rfl⟩, hsub⟩ := hflushed.texts
  refine ⟨parts, hparts, ?_⟩
  rwa [flushPending_content, List.append_nil] at hsub

/-- The messages are well formed: tool messages and tool calls answer each other, only
finished calls with a result appear, and the texts that are not blank are kept in order. -/
structure WellFormed (output : List Item) (ms : List Message) : Prop where
  answers : ∀ before id content after, ms = before ++ .tool id content :: after →
    ∃ before' a tools, before = before' ++ .assistant a :: tools ∧
      (∀ m ∈ tools, ∃ id content, m = .tool id content) ∧ id ∈ a.toolCalls.map ToolCall.id
  answered : ∀ before a after, ms = before ++ .assistant a :: after →
    ∀ call ∈ a.toolCalls, (toolBlock after).count call.id = 1
  finished : ∀ id ∈ toolCallIds ms, (∃ call, .functionCall call ∈ output ∧ call.callId = id ∧
    call.status ∈ ["completed", "failed", "rejected"]) ∧
    ∃ parts, .functionCallOutput id parts ∈ output
  texts : ∃ parts : List (List String), contents ms = parts.map ("\n".intercalate ·) ∧
    ((messageTexts output).filter fun s => !isBlank s).Sublist parts.flatten
  stable : reconcileToolPairs ms = ms

/-- Every conversion is well formed, if no two results have the same call id. -/
theorem convert_wellFormed (o : Options) (output : List Item)
    (hresults : (resultCallIds output).Nodup) :
    WellFormed output (convertOutputToMessages o output) := by
  have hconvert :
    convertOutputToMessages o output = reconcileToolPairs (rebuildMessages o output) := by
    unfold convertOutputToMessages
    split_ifs with hnil
    · rw [List.isEmpty_iff.mp hnil]
      rfl
    · rfl
  obtain ⟨hids, hcalls, parts, hparts, hsub⟩ := rebuildMessages_spec o output
  have hpaired : Paired (convertOutputToMessages o output) :=
    hconvert ▸ paired_reconcileFrom (rebuildMessages o output) []
  have hhead : toolBlock (convertOutputToMessages o output) = [] :=
    hconvert ▸ toolBlock_reconcileToolPairs _
  have hnodup : (toolIds (convertOutputToMessages o output)).Nodup := by
    rw [hconvert]
    exact ((toolIds_reconcileFrom _ []).trans hids).nodup hresults
  constructor
  -- the message before a result is the one that made its call
  · intro before id content after heq
    rw [heq] at hpaired hhead
    rcases hpaired.tool_answers with ⟨hblock, _⟩ | h
    · rw [hhead] at hblock
      cases hblock
    · exact h
  -- each call is answered exactly once
  · intro before a after heq call hcall
    rw [heq] at hpaired hnodup
    refine List.count_eq_one_of_mem ?_ (hpaired.suffix.1 call hcall).2
    rw [toolIds_append] at hnodup
    exact (toolBlock_sublist after).nodup (List.nodup_append.mp hnodup).2.1
  · intro id hid
    rw [hconvert] at hid
    exact mem_functionCallIds (hcalls (toolCallIds_reconcileFrom _ [] hid))
  -- the texts are those of the items, with blank ones left out
  · obtain ⟨kept, hkept, hsame⟩ := contents_reconcileFrom _ [] parts hparts
    refine ⟨kept, hconvert ▸ hkept, ?_⟩
    have hfiltered := hsub.filter fun s => !isBlank s
    rw [← hsame] at hfiltered
    exact hfiltered.trans List.filter_sublist
  · rw [hconvert]
    exact reconcileToolPairs_idem _

def plainOptions : Options := ⟨false, none, false, fun _ => "{}"⟩

def finishedCall (id : String) : Item :=
  .functionCall ⟨id, "completed", ⟨"search", .str "{}"⟩, none⟩

def plainResult (id : String) : Item := .functionCallOutput id [⟨"input_text", "found", ""⟩]

def textItem (text : String) : Item := .message [⟨"output_text", text⟩]

/-- A call, its result and an answer. -/
theorem convert_wellFormed_call :
    WellFormed [finishedCall "a", plainResult "a", textItem "done"]
      (convertOutputToMessages plainOptions
        [finishedCall "a", plainResult "a", textItem "done"]) :=
  convert_wellFormed plainOptions _ (by decide)

/-- A blank text between a result and its call is lost: the message that carries it has only
calls without an answer. -/
theorem convert_loses_blank :
    let output := [plainResult "a", textItem "  ", finishedCall "a"]
    (completedCallIds output).Nodup ∧ (resultCallIds output).Nodup ∧ messageTexts output = ["  "] ∧
      contents (convertOutputToMessages plainOptions output) = [] := by
  decide +kernel

end OpenWebUI.Output
