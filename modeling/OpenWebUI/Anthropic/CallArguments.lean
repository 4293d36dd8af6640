import OpenWebUI.Anthropic.CallRuns
import OpenWebUI.Anthropic.StreamAgreement

/-! # The arguments that a stream sends

The deltas of tool calls in the lines of a stream, in the order they are read, and what the
events of the stream spell of the arguments of each call.
-/

namespace OpenWebUI.Anthropic

open Py Program

/-! ## The deltas of a stream -/

def choiceToolCalls (choice : Obj) : List Json :=
  let delta := (Obj.getD choice "delta" (.obj [])).asObj.getD []
  let message := (Obj.get choice "message").or (.obj [])
  let calls := (toolCallsOf delta message).getD .null
  if calls.truthy then (iterate calls).getD [] else []

section Lines

variable (loads : Codec)

def reportsError (line : String) : Bool :=
  match loads line with
  | .value (.obj data) => (Obj.get data "error").truthy
  | _ => false

def lineToolCalls (line : String) : List Json :=
  match loads line with
  | .value (.obj data) => match Obj.getD data "choices" (.arr []) with
    | .arr (.obj choice :: _) => choiceToolCalls choice
    | _ => []
  | _ => []

/-- The tool calls of the lines; nothing is read after an error. -/
def readToolCalls : List String → List Json
  | [] => []
  | line :: rest =>
    if reportsError loads line then [] else lineToolCalls loads line ++ readToolCalls rest

/-- The deltas of the calls of a stream. -/
def streamLog (freshId : List Json → String) (source : Source) : CallLog :=
  callLog freshId ((readToolCalls loads source.payloads).map ToolDelta.of)

/-- After a line that reports an error nothing is read. -/
theorem readToolCalls_append (a b : List String) : readToolCalls loads (a ++ b) =
    readToolCalls loads a ++ if a.any (reportsError loads) then [] else readToolCalls loads b := by
  induction a with
  | nil => rfl
  | cons line a ih =>
      rw [List.cons_append, readToolCalls, readToolCalls, List.any_cons, ih]
      cases reportsError loads line with
      | true => rfl
      | false => simp

end Lines

/-! ## Streams that can be read -/

/-- What the loop reads of a choice has the types it expects. -/
def ReadableChoice (choice : Obj) : Prop :=
  let message := (Obj.get choice "message").or (.obj [])
  ∃ delta, (Obj.getD choice "delta" (.obj [])).asObj = some delta ∧
    (reasoningOf delta message).isSome ∧
    (∃ calls, toolCallsOf delta message = some calls ∧
      (calls.truthy = true → (iterate calls).isSome)) ∧
    (∀ call ∈ choiceToolCalls choice, ReadableCall call) ∧
    (Obj.get choice "finish_reason" ≠ .null →
      (stopReasonOf streamStopReasons (Obj.get choice "finish_reason")).isSome)

def ReadableData (data : Obj) : Prop :=
  (∀ usage, Obj.get data "usage" = .obj usage → (readUsage usage).isSome) ∧
    ((Obj.getD data "choices" (.arr [])).truthy = true → ∃ choice rest,
      Obj.getD data "choices" (.arr []) = .arr (.obj choice :: rest) ∧ ReadableChoice choice)

/-- A line is skipped, or it decodes to a completion chunk. -/
def ReadableLine (loads : Codec) (line : String) : Prop :=
  loads line = .decodeError ∨ ∃ data, loads line = .value (.obj data) ∧ ReadableData data

/-- Whatever the chunks are cut into, their lines have the format of a completion stream. -/
structure Readable (loads : Codec) (chunks : List Chunk) : Prop where
  text : ∀ chunk ∈ chunks, ∃ t, chunk = .text t
  lines : ∀ line ∈ Source.payloads ⟨chunks, false⟩, ReadableLine loads line

/-! ## Reading the stream -/

section Reading

variable {loads : Codec} {freshId : List Json → String} {ds : List ToolDelta}

/-- Between two turns of the loop, with the deltas read so far. -/
def ReadyAfter (loads : Codec) (freshId : List Json → String) (ds : List ToolDelta)
    (s : State) : Prop :=
  Ready s ∧ Logged loads (callLog freshId ds) s

/-- What says nothing of the calls leaves the log. -/
theorem ReadyAfter.frame {s s' : State} (h : ReadyAfter loads freshId ds s) (hready : Ready s')
    (hsame : SameCalls s s') : ReadyAfter loads freshId ds s' := ⟨hready, h.2.same hsame⟩

/-- The calls of a delta enter the log one after the other. -/
theorem handleToolCalls_logged (hfresh : ∀ used, Json.str (freshId used) ∉ used)
    (htotal : ∀ s, loads s ≠ .otherError) (calls : List Json)
    (hread : ∀ call ∈ calls, ReadableCall call) :
    ∀ ds, Triple (fun s => Reading none s ∧ Logged loads (callLog freshId ds) s)
      (calls.forM (handleToolCall loads freshId))
      (fun _ s => Reading none s ∧ Logged loads (callLog freshId (ds ++ calls.map .of)) s)
      (fun _ _ => False) := by
  induction calls with
  | nil =>
      intro ds
      rw [List.map_nil, List.append_nil]
      exact triple_pure _ fun _ hs => hs
  | cons call calls ih =>
      intro ds
      refine triple_bind (handleToolCall_logged hfresh htotal (hread call (List.mem_cons_self ..)))
        fun _ => ?_
      rw [← callLog_snoc]
      have hrest := ih (fun c hc => hread c (List.mem_cons_of_mem _ hc)) (ds ++ [.of call])
      rw [List.append_assoc] at hrest
      exact hrest

/-- A choice brings the calls of its delta into the log. -/
theorem handleChoice_logged (hfresh : ∀ used, Json.str (freshId used) ∉ used)
    (htotal : ∀ s, loads s ≠ .otherError) {choice : Obj} (hread : ReadableChoice choice) :
    Triple (ReadyAfter loads freshId ds) (handleChoice loads freshId choice)
      (fun _ => ReadyAfter loads freshId (ds ++ (choiceToolCalls choice).map .of))
      (fun _ _ => False) := by
  obtain ⟨delta, hdelta, hreasoning, ⟨toolCalls, htoolCalls, hiterate⟩, hcalls, hfinish⟩ := hread
  obtain ⟨reasoning, hreasoning⟩ := Option.isSome_iff_exists.mp hreasoning
  refine ofOption_bind_some hdelta (ofOption_bind_some hreasoning ?_)
  refine triple_bind (Q := fun _ => ReadyAfter loads freshId ds)
    (triple_modify fun s hs => ?_) fun _ => ?_
  -- reasoning and text leave the calls alone
  · exact hs.frame (hs.1.prose _ _) ((sameCalls_think s _).trans (sameCalls_write _ _))
  refine ofOption_bind_some htoolCalls ?_
  have hchoice : choiceToolCalls choice =
      if toolCalls.truthy then (iterate toolCalls).getD [] else [] := by
    rw [choiceToolCalls, hdelta]
    simp only [Option.getD_some]
    rw [htoolCalls]
    rfl
  rw [hchoice] at hcalls ⊢
  refine triple_bind (Q := fun _ => ReadyAfter loads freshId (ds ++
    (if toolCalls.truthy then (iterate toolCalls).getD [] else []).map .of)) ?_ fun _ => ?_
  · refine triple_ite (fun htruthy => ?_) fun hfalsy => triple_pure _ fun s hs => ?_
    · obtain ⟨calls, hiter⟩ := Option.isSome_iff_exists.mp (hiterate htruthy)
      rw [if_pos htruthy, hiter, Option.getD_some] at hcalls ⊢
      refine triple_bind (Q := fun _ s => Reading none s ∧ Logged loads (callLog freshId ds) s)
        (triple_modify fun s hs => ?_) fun _ => ofOption_bind_some rfl ?_
      -- both open blocks are closed before the first tool call
      · obtain ⟨⟨hinv, hnamed⟩, hlogged⟩ := hs
        obtain ⟨hthinking, hclosed⟩ := hinv.closeThinking
        obtain ⟨hinv', hclosed'⟩ := hthinking.closeText hclosed
        refine ⟨⟨hinv', hclosed', fun k tool hk => ?_⟩,
          hlogged.same ((sameCalls_closeThinking s).trans (sameCalls_closeText _))⟩
        rw [closeText_tools, closeThinking_tools]
        exact hnamed k tool hk
      · exact (handleToolCalls_logged hfresh htotal calls hcalls ds).mono (fun _ hs => hs)
          (fun _ _ hs => ⟨hs.1.ready, hs.2⟩) fun _ _ h => h
    · rw [if_neg hfalsy, List.map_nil, List.append_nil]
      exact hs
  -- a finish reason only sets what is reported at the end
  · refine triple_ite (fun _ => triple_pure _ fun _ hs => hs) fun hnull => ?_
    obtain ⟨stopReason, hstop⟩ := Option.isSome_iff_exists.mp (hfinish hnull)
    refine ofOption_bind_some hstop (triple_modify fun s hs => ?_)
    exact hs.frame ⟨hs.1.1.frame rfl rfl rfl rfl rfl, hs.1.2⟩
      ⟨rfl, rfl, rfl, fun _ => rfl, le_refl _⟩

/-- Usage that can be read brings nothing into the log. -/
theorem handleUsage_logged {data : Obj}
    (hread : ∀ usage, Obj.get data "usage" = .obj usage → (readUsage usage).isSome) :
    Triple (ReadyAfter loads freshId ds) (handleUsage data) (fun _ => ReadyAfter loads freshId ds)
      (fun _ _ => False) := by
  unfold handleUsage
  split
  · rename_i usage husage
    obtain ⟨new, hnew⟩ := Option.isSome_iff_exists.mp (hread usage husage)
    refine ofOption_bind_some hnew (triple_modify fun s hs => ?_)
    exact hs.frame ⟨hs.1.1.frame rfl rfl rfl rfl rfl, hs.1.2⟩
      ⟨rfl, rfl, rfl, fun _ => rfl, le_refl _⟩
  · exact triple_pure _ fun _ hs => hs

/-- One line adds its deltas, unless it reports an error. -/
theorem handlePayload_logged (hfresh : ∀ used, Json.str (freshId used) ∉ used)
    (htotal : ∀ s, loads s ≠ .otherError) {line : String} (hread : ReadableLine loads line) :
    Triple (ReadyAfter loads freshId ds) (handlePayload loads freshId line)
      (fun r s => r.isSome = reportsError loads line ∧
        ReadyAfter loads freshId (ds ++ (readToolCalls loads [line]).map .of) s)
      (fun _ _ => False) := by
  unfold handlePayload readToolCalls reportsError lineToolCalls
  rcases hread with hline | ⟨data, hline, husage, hchoices⟩
  · -- the line is skipped
    rw [hline]
    refine triple_pure _ fun s hs => ⟨rfl, ?_⟩
    have hnil : (if false = true then [] else ([] : List Json) ++ readToolCalls loads []) = [] :=
      rfl
    rw [hnil, List.map_nil, List.append_nil]
    exact hs
  · rw [hline]
    refine ofOption_bind_some rfl
      (triple_ite (fun herror => triple_pure _ fun s hs => ?_) fun herror => ?_)
    -- an error ends the stream, and no call of its line is read
    · dsimp only
      rw [if_pos herror, List.map_nil, List.append_nil]
      exact ⟨herror.symm, hs⟩
    · dsimp only
      rw [if_neg herror, readToolCalls, List.append_nil]
      have hfalse : (Obj.get data "error").truthy = false := Bool.eq_false_iff.mpr herror
      refine triple_bind (handleUsage_logged husage) fun _ =>
        triple_ite (fun hnone => ?_) fun hsome => ?_
      -- a line without choices
      · refine triple_pure _ fun s hs => ⟨hfalse.symm, ?_⟩
        have hempty : (match Obj.getD data "choices" (.arr []) with
            | .arr (.obj choice :: _) => choiceToolCalls choice
            | _ => []) = [] := by
          split
          · rename_i choice rest heq
            rw [heq] at hnone
            simp [Json.truthy] at hnone
          · rfl
        rw [hempty, List.map_nil, List.append_nil]
        exact hs
      · rw [Bool.not_eq_true', Bool.not_eq_false] at hsome
        obtain ⟨choice, rest, heq, hchoice⟩ := hchoices hsome
        rw [heq]
        exact triple_bind (handleChoice_logged hfresh htotal hchoice) fun _ =>
          triple_pure _ fun s hs =>
          ⟨hfalse.symm, hs⟩

/-- The payloads of a chunk are read up to the first that reports an error. -/
theorem handlePayloads_logged (hfresh : ∀ used, Json.str (freshId used) ∉ used)
    (htotal : ∀ s, loads s ≠ .otherError) (lines : List String) :
    (∀ line ∈ lines, ReadableLine loads line) → ∀ ds,
    Triple (ReadyAfter loads freshId ds) (handlePayloads loads freshId lines)
      (fun r s => r.isSome = lines.any (reportsError loads) ∧
        ReadyAfter loads freshId (ds ++ (readToolCalls loads lines).map .of) s)
      (fun _ _ => False) := by
  induction lines with
  | nil =>
      intro _ ds
      rw [readToolCalls, List.map_nil, List.append_nil]
      exact triple_pure _ fun _ hs => ⟨rfl, hs⟩
  | cons line rest ih =>
      intro hread ds
      have hcons : readToolCalls loads (line :: rest) = readToolCalls loads [line] ++
          if reportsError loads line then [] else readToolCalls loads rest := by
        rw [← List.singleton_append, readToolCalls_append, List.any_cons,
          List.any_nil, Bool.or_false]
      rw [hcons, List.any_cons]
      refine triple_bind (handlePayload_logged hfresh htotal (hread line (List.mem_cons_self ..)))
        fun result => ?_
      cases result with
      | some message =>
          refine triple_pure _ fun s hs => ?_
          rw [← hs.1]
          refine ⟨rfl, ?_⟩
          rw [Option.isSome_some, if_pos rfl, List.append_nil]
          exact hs.2
      | none =>
          refine triple_of_pre fun herror => ?_
          rw [← herror, Option.isSome_none, if_neg (by decide), Bool.false_or, List.map_append,
            ← List.append_assoc]
          exact ih (fun l hl => hread l (List.mem_cons_of_mem _ hl)) _

/-- The chunks of a source are read up to the first that reports an error. -/
theorem handleChunks_logged (hfresh : ∀ used, Json.str (freshId used) ∉ used)
    (htotal : ∀ s, loads s ≠ .otherError) (chunks : List Chunk) : Readable loads chunks → ∀ ds,
    Triple (ReadyAfter loads freshId ds) (handleChunks loads freshId chunks)
      (fun _ => ReadyAfter loads freshId
        (ds ++ (readToolCalls loads (Source.payloads ⟨chunks, false⟩)).map .of))
      (fun _ _ => False) := by
  induction chunks with
  | nil =>
      intro _ ds
      have hnil : readToolCalls loads (Source.payloads ⟨[], false⟩) = [] := rfl
      rw [hnil, List.map_nil, List.append_nil]
      exact triple_pure _ fun _ hs => hs
  | cons chunk rest ih =>
      rintro ⟨htext, hlines⟩ ds
      obtain ⟨t, rfl⟩ := htext chunk (List.mem_cons_self ..)
      have hcons : Source.payloads ⟨.text t :: rest, false⟩ =
          payloads t ++ Source.payloads ⟨rest, false⟩ := List.flatMap_cons ..
      rw [hcons, List.forall_mem_append] at hlines
      rw [hcons, readToolCalls_append, handleChunks]
      obtain ⟨hhere, hrest⟩ := hlines
      -- the lines stay unread
      generalize payloads t = lines at hhere ⊢
      refine triple_bind (handlePayloads_logged hfresh htotal lines hhere ds) fun result => ?_
      cases result with
      | some message =>
          refine triple_pure _ fun s hs => ?_
          rw [← hs.1, Option.isSome_some, if_pos rfl, List.append_nil]
          exact hs.2
      | none =>
          refine triple_of_pre fun herror => ?_
          rw [← herror, Option.isSome_none, if_neg (by decide),
            List.map_append, ← List.append_assoc]
          exact ih ⟨fun c hc => htext c (List.mem_cons_of_mem _ hc), hrest⟩ _

end Reading

/-! ## What is sent -/

/-- The argument deltas in the blocks of a call, concatenated. -/
def sentArguments (events : List Event) (key : Json) : String :=
  String.join (((toolStarts events).filter fun b => b.2 = key).map fun b =>
    inputText (deltasAt events b.1))

/-- What the code relies on: nothing is raised but that a text does not decode, a blank text does
not decode, and after a text that decodes an object text has only blanks. -/
structure Codec.Exact (loads : Codec) : Prop where
  total : ∀ s, loads s ≠ .otherError
  blank : ∀ s v, loads s = .value v → isBlank s = false
  rest : ∀ s t v members, loads (s ++ t) = .value (.obj members) → loads s = .value v →
    isBlank t = true

section Sent

variable {loads : Codec} {log : CallLog} {s s' : State} {key : Json}

/-- What is sent for a call depends on what the events say of the calls. -/
theorem SameCalls.sentArguments (h : SameCalls s s') :
    sentArguments s'.events key = Anthropic.sentArguments s.events key := by
  simp only [Anthropic.sentArguments, h.starts, h.input]

/-- The call has one block, that of its tool. -/
theorem Logged.toolStarts_filter (h : Logged loads log s) (hinv : Inv s) {tool : Tool}
    (hget : s.trackedToolCalls.get? key = some tool) (hstarted : tool.started = true) :
    (toolStarts s.events).filter (fun b => b.2 = key) = [(tool.blockIndex, key)] := by
  have hmem : (tool.blockIndex, key) ∈ (toolStarts s.events).filter fun b => b.2 = key :=
    List.mem_filter.mpr ⟨(h.blocks _ _).mpr ⟨tool, hget, hstarted, rfl⟩, decide_eq_true rfl⟩
  -- a key is that of one tool, which has one block
  have hall : ∀ b ∈ (toolStarts s.events).filter (fun b => b.2 = key),
    b = (tool.blockIndex, key) := by
    rintro ⟨i, k⟩ hb
    obtain ⟨hmem, hk⟩ := List.mem_filter.mp hb
    have hkey : k = key := of_decide_eq_true hk
    obtain ⟨tool', hget', -, hi⟩ := (h.blocks i k).mp hmem
    rw [hkey, hget] at hget'
    rw [hkey, Option.some.inj hget', hi]
  -- no block is started twice
  have hnodup : ((toolStarts s.events).map Prod.fst).Nodup := by
    have hsub : ((toolStarts s.events).map Prod.fst).Sublist (starts s.events) := by
      have hstarts : starts s.events = (startedBlocks s.events).map Prod.fst := by
        rw [starts, startedBlocks, List.map_filterMap]
        refine List.filterMap_congr fun e _ => ?_
        cases e <;> rfl
      rw [hstarts, toolStarts]
      generalize startedBlocks s.events = blocks
      induction blocks with
      | nil => exact List.Sublist.refl _
      | cons b blocks ih =>
          rw [List.filterMap_cons, List.map_cons]
          cases b.2 with
          | toolUse id name input => exact ih.cons_cons _
          | _ => exact ih.cons _
    refine List.Nodup.sublist hsub ?_
    rw [hinv.begun.ordered.indices]
    exact List.nodup_range.map fun _ _ heq => Int.ofNat.inj heq
  have hnodup' := (hnodup.of_map _).filter fun b => decide (b.2 = key)
  rw [List.eq_replicate_of_mem hall] at hnodup' ⊢
  have hone := List.nodup_replicate.mp hnodup'
  have hpos := List.length_pos_of_mem hmem
  rw [show ((toolStarts s.events).filter fun b => b.2 = key).length = 1 by omega]
  rfl

/-- All of the arguments but the blanks at their end is sent exactly if nothing of them came
before the name. -/
theorem Logged.sent_iff (h : Logged loads log s) (hinv : Inv s) (hlaw : loads.Exact)
    (hnamed : Named (deltasOf log key)) {members : Obj}
    (hobject : loads (textOf (deltasOf log key)) = .value (.obj members)) :
    rstrip (sentArguments s.events key) = rstrip (textOf (deltasOf log key)) ↔
      textOf (early (deltasOf log key)) = "" := by
  have hseen : key ∈ s.trackedToolCalls := by
    change key ∈ s.trackedToolCalls.keys
    rw [h.keys]
    by_contra hnot
    rw [deltasOf_of_not_mem hnot] at hnamed
    obtain ⟨d, hd, -⟩ := hnamed
    exact List.not_mem_nil hd
  obtain ⟨tool, hget⟩ := (Dict.mem_iff_exists ..).mp hseen
  have hholds := h.tools key tool hget
  have hone := h.toolStarts_filter hinv hget (hholds.started.trans (decide_eq_true hnamed))
  have hsent : sentArguments s.events key = inputText (deltasAt s.events tool.blockIndex) := by
    rw [sentArguments, hone, List.map_singleton, String.join_cons, String.join_nil,
      String.append_empty]
  obtain ⟨rest, hlate, hopen, hdone⟩ := hholds.sent hnamed
  rw [hsent]
  generalize inputText (deltasAt s.events tool.blockIndex) = sent at hlate hdone
  have htext : textOf (deltasOf log key) = textOf (early (deltasOf log key)) ++ sent ++ rest := by
    rw [← textOf_early_late, hlate, String.append_assoc]
  -- what is left out is blank
  have hrest : isBlank rest = true := by
    cases hstopped : tool.stopped with
    | true =>
        obtain ⟨v, hv⟩ := hdone hstopped
        rw [htext] at hobject
        exact hlaw.rest _ _ _ _ hobject hv
    | false => rw [hopen hstopped]; rfl
  have hstrip : rstrip (textOf (deltasOf log key)) =
      rstrip (textOf (early (deltasOf log key)) ++ sent) := by
    rw [htext, rstrip_append_of_blank hrest]
  have hfull := hlaw.blank _ _ hobject
  rw [hstrip]
  cases hblank : isBlank sent with
  | true =>
      -- a blank part is not all of an object
      have hempty : rstrip sent = "" := rstrip_of_blank hblank
      have hearly : isBlank (textOf (early (deltasOf log key))) = false := by
        rw [htext, isBlank_append, isBlank_append, hblank, hrest, Bool.and_true,
          Bool.and_true] at hfull
        exact hfull
      rw [hempty, rstrip_append_of_blank hblank]
      constructor
      · exact fun heq => absurd heq.symm (rstrip_ne_empty hearly)
      · intro heq
        rw [heq] at hearly
        cases hearly
  | false =>
      rw [rstrip_append_of_not_blank hblank]
      constructor
      · intro heq
        have hlength := congrArg String.length heq
        rw [String.length_append] at hlength
        exact String.length_eq_zero_iff.mp (by omega)
      · intro heq
        rw [heq, String.empty_append]

/-! ## The end of the stream -/

/-- An event that neither starts a block nor adds a delta says nothing of the calls. -/
theorem sameCalls_yield (s : State) {e : Event} (hstart : startedBlocks [e] = [])
    (hdelta : ∀ i, deltasAt [e] i = []) : SameCalls s (s.yield e) where
  tools := rfl
  indices := rfl
  starts := by
    refine toolStarts_of_startedBlocks ?_
    rw [State.yield, startedBlocks, List.filterMap_append]
    exact (congrArg _ hstart).trans (List.append_nil _)
  input i := by
    have happend : deltasAt (s.events ++ [e]) i = deltasAt s.events i ++ deltasAt [e] i :=
      List.filterMap_append ..
    rw [State.yield, happend, hdelta, List.append_nil]
  index := le_refl _

theorem sameCalls_endThinking (s : State) : SameCalls s s.endThinking := by
  unfold State.endThinking
  split_ifs
  · exact (sameCalls_stop s _).frame rfl rfl rfl (lt_add_one _).le
  · exact .refl s

theorem sameCalls_endText (s : State) : SameCalls s s.endText := by
  unfold State.endText
  split_ifs
  · exact sameCalls_stop s _
  · exact .refl s

theorem sameCalls_endTool (s : State) (tool : Tool) : SameCalls s (s.endTool tool) := by
  unfold State.endTool
  split_ifs
  · exact sameCalls_stop s _
  · exact .refl s

/-- The stops at the end say nothing of the calls. -/
theorem sameCalls_endTools (s : State) (tools : List Tool) :
    SameCalls s (tools.foldl State.endTool s) := by
  induction tools generalizing s with
  | nil => exact .refl s
  | cons tool tools ih => exact (sameCalls_endTool s tool).trans (ih _)

/-- The end of a stream sends no arguments: there is nothing to flush. -/
theorem Ready.sameCalls_finish (h : Ready s) : SameCalls s s.finish := by
  have hnamed : NamedBut none s.endThinking := by
    intro key tool hkey hget
    rw [(sameCalls_endThinking s).tools] at hget
    exact h.2 key tool hkey hget
  unfold State.finish
  simp only
  rw [hnamed.flush]
  exact ((((sameCalls_endThinking s).trans (sameCalls_endText _)).trans
    (sameCalls_endTools _ _)).trans
    (sameCalls_yield _ rfl fun _ => rfl)).trans (sameCalls_yield _ rfl fun _ => rfl)

/-- Before the first delta the log is empty. -/
theorem logged_start (id model : String) (tokens : Json) (inputTokens : Option ℕ) :
    Logged loads [] (State.start inputTokens (.messageStart id model tokens)) := by
  have hnone : ∀ key tool, (∅ : Dict Json Tool).get? key ≠ some tool := by rintro _ _ ⟨⟩
  refine ⟨⟨rfl, fun _ => rfl, fun i key => ?_, fun _ _ => rfl⟩,
    fun key tool hget => absurd hget (hnone key tool)⟩
  constructor
  · exact fun hmem => absurd hmem List.not_mem_nil
  · exact fun ⟨tool, hget, _⟩ => absurd hget (hnone key tool)

end Sent

/-! ## A call in two parts -/

theorem lineCodec_value {line text : String} {chunk : Obj} {v : Json}
    (h : lineCodec line chunk text = .value v) : text = "\x7b\x7d" ∨ text = line := by
  unfold lineCodec at h
  split_ifs at h with hbraces hline
  · exact Or.inl hbraces
  · exact Or.inr hline

/-- The codec of one line reads what it was given. -/
theorem lineCodec_exact {line : String} (h : ObjectLine line) (chunk : Obj) :
    (lineCodec line chunk).Exact := by
  refine ⟨fun s => ?_, fun s v hv => ?_, fun s t v members hwhole hpart => ?_⟩
  · unfold lineCodec
    split_ifs <;> rintro ⟨⟩
  · rcases lineCodec_value hv with rfl | rfl
    · decide
    · rw [isBlank, List.all_eq_false]
      exact ⟨'{', List.mem_of_head? h.head, by decide⟩
  · have hsame : s ++ t = s → isBlank t = true := by
      intro heq
      have hlength := congrArg String.length heq
      rw [String.length_append] at hlength
      rw [String.length_eq_zero_iff.mp (by omega : t.length = 0)]
      rfl
    -- neither of the two texts goes on as the other
    rcases lineCodec_value hpart with rfl | rfl <;> rcases lineCodec_value hwhole with heq | heq
    · exact hsame heq
    · exact absurd ⟨t.toList, by rw [← heq, String.toList_append]; rfl⟩ h.members.2
    · have hlength := congrArg (List.length ∘ String.toList) heq
      have hmembers := h.members.1
      simp only [Function.comp, String.toList_append, List.length_append] at hlength
      have htwo : ("\x7b\x7d" : String).toList.length = 2 := rfl
      omega
    · exact hsame heq

/-- The call `a` in two parts, the first with or without its name. -/
def partsJson (first second : Obj) : List Json :=
  [.obj [("index", .num 0), ("id", .str "a"),
    ("function", .obj (("arguments", .str "\x7b") :: first))],
    .obj [("index", .num 0), ("function", .obj (("arguments", .str "\x7d") :: second))]]

def partsHead : String := "\x7b\"choices\": [\x7b\"delta\": \x7b\"tool_calls\": ["

def namedPart : String :=
  "\x7b\"index\": 0, \"id\": \"a\", \"function\": \x7b\"arguments\": \"\x7b\", \"name\": \"f\"\x7d\x7d, "

def restPart : String :=
    "\x7b\"index\": 0, \"function\": \x7b\"arguments\": \"\x7d\"\x7d\x7d]\x7d, "

def earlyPart : String :=
  "\x7b\"index\": 0, \"id\": \"a\", \"function\": \x7b\"arguments\": \"\x7b\"\x7d\x7d, "

def lateNamePart : String :=
  "\x7b\"index\": 0, \"function\": \x7b\"arguments\": \"\x7d\", \"name\": \"f\"\x7d\x7d]\x7d, "

def partsLine (first second : String) : String := partsHead ++ (first ++ (second ++ finishTail))

def namedCall : Obj := [("name", .str "f")]

set_option maxRecDepth 8000 in
theorem namedLine_object : ObjectLine (partsLine namedPart restPart) := by
  have hhead : partsHead = String.ofList _ := rfl
  have hfirst : namedPart = String.ofList _ := rfl
  have hsecond : restPart = String.ofList _ := rfl
  have hfinish : finishTail = String.ofList _ := rfl
  constructor <;> rw [partsLine, String.toList_append, String.toList_append, String.toList_append,
    hhead, hfirst, hsecond, hfinish, String.toList_ofList, String.toList_ofList,
    String.toList_ofList, String.toList_ofList] <;> decide +kernel

set_option maxRecDepth 8000 in
theorem earlyLine_object : ObjectLine (partsLine earlyPart lateNamePart) := by
  have hhead : partsHead = String.ofList _ := rfl
  have hfirst : earlyPart = String.ofList _ := rfl
  have hsecond : lateNamePart = String.ofList _ := rfl
  have hfinish : finishTail = String.ofList _ := rfl
  constructor <;> rw [partsLine, String.toList_append, String.toList_append, String.toList_append,
    hhead, hfirst, hsecond, hfinish, String.toList_ofList, String.toList_ofList,
    String.toList_ofList, String.toList_ofList] <;> decide +kernel

def lineSource (line : String) : Source := ⟨[.text ("data: " ++ line)], false⟩

theorem lineSource_payloads {line : String} (h : ObjectLine line) :
    (lineSource line).payloads = [line] := by
  simpa [Source.payloads, lineSource] using payloads_data h

theorem lineSource_readable {line : String} (h : ObjectLine line) {chunk : Obj}
    (hchunk : ReadableData chunk) :
    Readable (lineCodec line chunk) (lineSource line).chunks := by
  refine ⟨fun c hc => ⟨_, List.mem_singleton.mp hc⟩, fun l hl => ?_⟩
  have hline : l ∈ (lineSource line).payloads := hl
  rw [lineSource_payloads h, List.mem_singleton] at hline
  rw [hline]
  exact Or.inr ⟨chunk, lineCodec_line h chunk, hchunk⟩

theorem partsChunk_readable (first second : Obj) :
    ReadableData (callsChunk (partsJson first second)) := by
  refine ⟨fun usage husage => (by cases husage),
    fun _ => ⟨_, _, rfl, _, rfl, rfl, ⟨_, rfl, fun _ => rfl⟩, ?_,
    fun _ => rfl⟩⟩
  intro call hcall
  have hmem : call ∈ partsJson first second := hcall
  simp only [partsJson, List.mem_cons, List.not_mem_nil, or_false] at hmem
  rcases hmem with rfl | rfl
  · exact ⟨_, _, rfl, rfl, rfl, fun _ => rfl, fun _ => rfl⟩
  · exact ⟨_, _, rfl, rfl, rfl, fun _ => rfl, fun _ => rfl⟩

/-- The two deltas belong to one call. -/
theorem streamLog_parts {line : String} (h : ObjectLine line) (first second : Obj) :
    streamLog (lineCodec line (callsChunk (partsJson first second))) longerId (lineSource line) =
      (partsJson first second).map fun call => (.str "a", .of call) := by
  rw [streamLog, lineSource_payloads h, readToolCalls, reportsError, lineToolCalls,
    lineCodec_line h]
  rfl

def namedLine : String := partsLine namedPart restPart

def namedCodec : Codec := lineCodec namedLine (callsChunk (partsJson namedCall []))

def earlyLine : String := partsLine earlyPart lateNamePart

def earlyCodec : Codec := lineCodec earlyLine (callsChunk (partsJson [] namedCall))

/-- The text of the call is that of its two deltas. -/
theorem textOf_parts {line : String} (h : ObjectLine line) (first second : Obj) :
    textOf (deltasOf (streamLog (lineCodec line (callsChunk (partsJson first second))) longerId
      (lineSource line)) (.str "a")) = "\x7b\x7d" := by
  rw [streamLog_parts h]
  rfl

/-! ## The whole stream -/

/-- Of the arguments of a call all is sent, up to blanks at the end, exactly if no part of them
came before its name. -/
theorem sentArguments_iff {loads : Codec} (hlaw : loads.Exact) {freshId : List Json → String}
    (hfresh : ∀ used, Json.str (freshId used) ∉ used) {source : Source}
    (hread : Readable loads source.chunks) (uuid model : String) (inputTokens : Option ℕ)
    {key : Json} (hnamed : Named (deltasOf (streamLog loads freshId source) key)) {members : Obj}
    (hobject :
    loads (textOf (deltasOf (streamLog loads freshId source) key)) = .value (.obj members)) :
    rstrip (sentArguments
        (openaiStreamToAnthropicStream loads freshId uuid source model inputTokens) key) =
      rstrip (textOf (deltasOf (streamLog loads freshId source) key)) ↔
      textOf (early (deltasOf (streamLog loads freshId source) key)) = "" := by
  have hrun := handleChunks_logged hfresh hlaw.total source.chunks hread [] _
    ⟨ready_start ("msg_" ++ uuid) model inputTokens (inputTokens.elim (.num 0) fun n => .num n),
      logged_start ..⟩
  unfold openaiStreamToAnthropicStream handleSource
  simp only
  rw [exec_bind]
  revert hrun
  generalize (handleChunks loads freshId source.chunks).exec _ = outcome
  intro hrun
  rcases outcome with ⟨_ | result, s⟩
  · exact hrun.elim
  obtain ⟨hready, hlogged⟩ := hrun
  rw [List.nil_append] at hlogged
  have hsent := hlogged.sent_iff hready.1 hlaw hnamed hobject
  -- what follows the last chunk sends no arguments
  cases result with
  | some message =>
      have hlast :
        sentArguments (s.yield (.error message)).events key = sentArguments s.events key :=
        (sameCalls_yield s rfl fun _ => rfl).sentArguments
      rw [← hlast] at hsent
      exact hsent
  | none =>
      cases hraises : source.raises with
      | true =>
          have hlast : sentArguments (s.yield (.error failedMessage)).events key =
              sentArguments s.events key := (sameCalls_yield s rfl fun _ => rfl).sentArguments
          rw [← hlast] at hsent
          exact hsent
      | false =>
          rw [← hready.sameCalls_finish.sentArguments] at hsent
          exact hsent

theorem sentArguments_namedFirst :
    rstrip (sentArguments
        (openaiStreamToAnthropicStream namedCodec longerId "m" (lineSource namedLine) "gpt" none)
        (.str "a")) =
      rstrip (textOf (deltasOf (streamLog namedCodec longerId (lineSource namedLine))
        (.str "a"))) := by
  have hobject : namedCodec (textOf (deltasOf (streamLog namedCodec longerId (lineSource namedLine))
      (.str "a"))) = .value (.obj []) := by
    rw [namedCodec, namedLine, textOf_parts namedLine_object]
    rfl
  refine (sentArguments_iff (lineCodec_exact namedLine_object _) longerId_fresh
    (lineSource_readable namedLine_object (partsChunk_readable ..)) "m" "gpt" none ?_
      hobject).mpr ?_
  · rw [streamLog_parts namedLine_object]
    decide
  · rw [streamLog_parts namedLine_object]
    decide +kernel

/-- What comes before the name is lost. -/
theorem sentArguments_namedLate :
    earlyCodec.Exact ∧ Readable earlyCodec (lineSource earlyLine).chunks ∧
    Named (deltasOf (streamLog earlyCodec longerId (lineSource earlyLine)) (.str "a")) ∧
    earlyCodec (textOf (deltasOf (streamLog earlyCodec longerId (lineSource earlyLine))
      (.str "a"))) =
      .value (.obj []) ∧
    rstrip (sentArguments
        (openaiStreamToAnthropicStream earlyCodec longerId "m" (lineSource earlyLine) "gpt" none)
        (.str "a")) ≠
      rstrip (textOf (deltasOf (streamLog earlyCodec longerId (lineSource earlyLine))
        (.str "a"))) := by
  have htext : textOf (deltasOf (streamLog earlyCodec longerId (lineSource earlyLine)) (.str "a")) =
      "\x7b\x7d" := textOf_parts earlyLine_object ..
  refine ⟨lineCodec_exact earlyLine_object _,
    lineSource_readable earlyLine_object (partsChunk_readable ..), ?_, ?_, ?_⟩
  · rw [earlyCodec, earlyLine, streamLog_parts earlyLine_object]
    decide
  · rw [htext]
    rfl
  · rw [htext, lineSource, earlyCodec, earlyLine, stream_of_line (payloads_data earlyLine_object)
      (lineCodec_line earlyLine_object _)]
    decide +kernel

end OpenWebUI.Anthropic
