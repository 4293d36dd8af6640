import OpenWebUI.Output.ToolLoop

/-! # The live context and the reloaded one

The tool loop adds the converted output of each round to the messages for the model;
`process_messages_with_output` and `sanitize_tool_pairs` rebuild the messages of a saved
chat. In every round the loop has added what the saved reply is rebuilt to.
-/

namespace OpenWebUI.Output

open Py

/-! ## Rebuilding a saved chat -/

/-- `meta['voice']`, with the transcripts of `speech` that are texts. -/
structure Voice where
  model : Option String
  speech : List String

structure SavedReply where
  content : String
  output : List Item
  model : Option String
  voice : Option Voice

inductive SavedMessage where
  | user (text : String) (imageUrls : List String)
  | assistant (reply : SavedReply)

/-- The options both paths convert with. -/
def replayOptions (dumps : Json → String) (reasoningFormat : Option String) : Options :=
  ⟨true, reasoningFormat, true, dumps⟩

def transcriptMessage (transcript : String) : Message :=
  .assistant ⟨"[Historical voice assistant transcript; not current task status]\n" ++ transcript,
    [], none, none, []⟩

/-- The reply is the voice model's own. -/
def SavedReply.spoken (reply : SavedReply) : Bool :=
  reply.voice.any (fun voice => reply.model = voice.model) && reply.output.isEmpty

/-- What was said about the reply. -/
def SavedReply.speech (reply : SavedReply) : List Message :=
  let transcripts := if reply.spoken then [reply.content]
    else (reply.voice.map Voice.speech).getD []
  (transcripts.filter (· ≠ "")).map transcriptMessage

/-- One message of `process_messages_with_output`. -/
def processMessage (o : Options) : SavedMessage → List Message
  | .user text urls => [.user text urls]
  | .assistant reply =>
    let clean := Message.assistant ⟨reply.content, [], none, none, []⟩
    if reply.spoken then reply.speech
    else if !reply.output.isEmpty then
      let outputMessages := convertOutputToMessages o reply.output
      if !outputMessages.isEmpty then outputMessages ++ reply.speech
      else if reply.content = "" then []
      else clean :: reply.speech
    else clean :: reply.speech

def processMessagesWithOutput (o : Options) (messages : List SavedMessage) : List Message :=
  messages.flatMap (processMessage o)

/-- One turn of the loop of `sanitize_tool_pairs`. -/
def sanitizeMessage (m : Message) (paired : List String) : Option Message :=
  match m with
  | .assistant a =>
    if a.toolCalls.isEmpty then some (.assistant a)
    else
      let kept := a.toolCalls.filter fun call => call.id ∈ paired
      if !kept.isEmpty then some (.assistant { a with toolCalls := kept })
      else if a.content ≠ "" then some (.assistant { a with toolCalls := [] })
      else none
  | .tool id content => if id ∈ paired then some (.tool id content) else none
  | .user text urls => some (.user text urls)

def sanitizeToolPairs (messages : List Message) : List Message :=
  filterPairs sanitizeMessage [] messages

/-! ## The loop -/

/-- The images of tool messages go to a user message after them. -/
def moveToolImages (toolMessages : List Message) : List Message :=
  let imageUrls := toolMessages.flatMap fun m => match m with
    | .tool _ (.parts _ urls) => urls
    | _ => []
  let messages := toolMessages.map fun m => match m with
    | .tool id (.parts text _) => .tool id (.text text)
    | m => m
  if imageUrls.isEmpty then messages
  else messages ++ [.user
    "Here are the images from the tool results above. Please analyze them." imageUrls]

/-- What earlier rounds left, the round's output, and the messages added for this reply. -/
structure LoopState where
  prior : List Item
  output : List Item
  messages : List Message

def LoopState.fullOutput (s : LoopState) : List Item := s.prior ++ s.output

/-- Trim an empty message that is still in progress. -/
def trimPlaceholder (inProgress : Bool) (output : List Item) : List Item :=
  match output.getLast? with
  | some (.message content) =>
    if inProgress && (content.isEmpty ||
        (content.length = 1 && content.all fun part => isBlank part.text)) then output.dropLast
    else output
  | _ => output

/-- The messages of a round's own output. -/
def roundMessages (o : Options) (output : List Item) : List Message :=
  moveToolImages (convertOutputToMessages o output)

/-- The loop after a round that does not pause: the first stream of the reply, then one more
stream for each round. A result that a stream itself brings stands after its call. -/
inductive LiveAt (o : Options) : LoopState → Prop where
  | first (env : Environment) (streamed : List Item) (calls : List LiveCall) (out : List Item)
      (hstreamed : ResultsFollow streamed) (hcalls : calls ≠ [])
      (hround : toolRound env streamed calls = some out) :
      LiveAt o ⟨[], out, roundMessages o out⟩
  | next (s : LoopState) (h : LiveAt o s) (inProgress : Bool)
      (env : Environment) (streamed : List Item) (calls : List LiveCall) (out : List Item)
      (hstreamed : ResultsFollow streamed) (hcalls : calls ≠ [])
      (hround : toolRound env streamed calls = some out) :
      LiveAt o ⟨trimPlaceholder inProgress s.fullOutput, out, s.messages ++ roundMessages o out⟩

/-! ## Images are already moved -/

/-- No tool message carries images. -/
def Flat (ms : List Message) : Prop :=
  ∀ id text urls, .tool id (.parts text urls) ∉ ms

variable {o : Options} {items : List Item} {ms more : List Message}

theorem Flat.append (h : Flat ms) (hmore : Flat more) : Flat (ms ++ more) := by
  intro id text urls hmem
  rcases List.mem_append.mp hmem with hmem | hmem
  · exact h id text urls hmem
  · exact hmore id text urls hmem

theorem flat_flushPending {st : Pending} (h : Flat st.messages) :
    Flat (flushPending o st).messages := by
  unfold flushPending
  split_ifs
  · exact h
  · exact h.append fun id text urls hmem => by cases List.mem_singleton.mp hmem

theorem flat_flushToolImages {st : Pending} (h : Flat st.messages) :
    Flat (flushToolImages st).messages := by
  unfold flushToolImages
  split_ifs
  · exact h
  · exact h.append fun id text urls hmem => by cases List.mem_singleton.mp hmem

theorem flat_foldl_pushToolOutput (hflat : o.flattenToolImages = true)
    (outputs : List (String × List OutputPart)) : ∀ {st : Pending}, Flat st.messages →
    Flat (outputs.foldl (pushToolOutput o) st).messages := by
  induction outputs with
  | nil => exact fun h => h
  | cons e outputs ih =>
      intro st h
      refine ih ?_
      unfold pushToolOutput
      dsimp only
      rw [if_pos hflat]
      exact h.append fun id text urls hmem => by cases List.mem_singleton.mp hmem

theorem flat_flushToolOutputs (hflat : o.flattenToolImages = true) {st : Pending}
    (h : Flat st.messages) : Flat (flushToolOutputs o st).messages := by
  unfold flushToolOutputs
  split_ifs
  · exact h
  · exact flat_foldl_pushToolOutput hflat _ (flat_flushPending h)

theorem flat_foldl_convertItem (hflat : o.flattenToolImages = true) {ids : List String}
    (items : List Item) : ∀ {st : Pending}, Flat st.messages →
    Flat (items.foldl (convertItem o ids) st).messages := by
  induction items with
  | nil => exact fun h => h
  | cons item items ih =>
      intro st h
      refine ih ?_
      have hflushed : Flat (flushToolImages (flushToolOutputs o st)).messages :=
        flat_flushToolImages (flat_flushToolOutputs hflat h)
      unfold convertItem
      cases item with
      | functionCallOutput id parts => exact (pushItem_messages st _).symm ▸ h
      | _ => exact (pushItem_messages _ _).symm ▸ hflushed

/-- Reconciling leaves tool messages as they are. -/
theorem flat_convert (hflat : o.flattenToolImages = true) (items : List Item) :
    Flat (convertOutputToMessages o items) := by
  have hrebuilt : Flat (rebuildMessages o items) :=
    flat_flushPending (flat_flushToolImages (flat_flushToolOutputs hflat
      (flat_foldl_convertItem hflat items fun id text urls hmem => by cases hmem)))
  intro id text urls hmem
  rw [convert_eq] at hmem
  obtain ⟨⟨m, paired⟩, hm, hkeep⟩ := List.mem_filterMap.mp hmem
  have hmessage := (List.of_mem_zip hm).1
  cases m with
  | tool id' content =>
      simp only [reconcileMessage] at hkeep
      split_ifs at hkeep
      rw [Option.some.inj hkeep] at hmessage
      exact hrebuilt id text urls hmessage
  | user text' urls' => cases hkeep
  | assistant a =>
      simp only [reconcileMessage] at hkeep
      split_ifs at hkeep <;> cases hkeep

/-- Where no result carries an image nothing is moved. -/
theorem moveToolImages_of_flat (h : Flat ms) : moveToolImages ms = ms := by
  have hmap : ms.map (fun m => match m with
      | .tool id (.parts text _) => .tool id (.text text)
      | m => m) = ms := by
    refine (List.map_congr_left fun m hm => ?_).trans (List.map_id ms)
    split
    · exact absurd hm (h _ _ _)
    · rfl
  have hurls : ms.flatMap (fun m => match m with
      | .tool _ (.parts _ urls) => urls
      | _ => []) = [] := by
    rw [List.flatMap_eq_nil_iff]
    intro m hm
    split
    · exact absurd hm (h _ _ _)
    · rfl
  unfold moveToolImages
  dsimp only
  rw [hurls, hmap]
  rfl

/-- The messages of a round are those of the converter. -/
theorem roundMessages_eq (hflat : o.flattenToolImages = true) (items : List Item) :
    roundMessages o items = convertOutputToMessages o items :=
  moveToolImages_of_flat (flat_convert hflat items)

/-! ## Rebuilding what was converted -/

/-- Sanitizing leaves paired messages alone. -/
theorem sanitize_of_paired {ms : List Message} : ∀ {current}, Paired ms →
    (∀ id ∈ toolBlock ms, id ∈ current) → filterPairs sanitizeMessage current ms = ms := by
  induction ms with
  | nil => exact fun _ _ => rfl
  | cons m rest ih =>
      intro current hpaired hcurrent
      cases m with
      | tool id content =>
          rw [filterPairs_tool, sanitizeMessage, if_pos (hcurrent id List.mem_cons_self),
            ih hpaired fun id' hid' => hcurrent id' (List.mem_cons_of_mem _ hid')]
          rfl
      | user text urls =>
          obtain ⟨hnil, hrest⟩ := hpaired
          rw [filterPairs_user, ih hrest fun id hid => by rw [hnil] at hid; cases hid]
          rfl
      | assistant a =>
          obtain ⟨hcalls, hblock, hrest⟩ := hpaired
          have hall : ∀ call ∈ a.toolCalls, call.id ∈ pairedIds a rest := fun call hcall =>
            mem_pairedIds.mpr ⟨List.mem_map_of_mem hcall, hcalls call hcall⟩
          have htail : filterPairs sanitizeMessage (pairedIds a rest) rest = rest := by
            refine ih hrest fun id hid => ?_
            obtain ⟨call, hcall, rfl⟩ := List.mem_map.mp (hblock id hid)
            exact hall call hcall
          have hkept : a.toolCalls.filter (fun call => call.id ∈ pairedIds a rest) = a.toolCalls :=
            List.filter_eq_self.mpr fun call hcall => by simpa using hall call hcall
          have hmessage :
            sanitizeMessage (.assistant a) (pairedIds a rest) = some (.assistant a) := by
            rw [sanitizeMessage, hkept]
            by_cases hnil : a.toolCalls.isEmpty = true
            · rw [if_pos hnil]
            · rw [if_neg hnil]
              exact if_pos (by simpa using hnil)
          rw [filterPairs_assistant, hmessage, htail]
          rfl

/-- Calls and results are paired after the conversion. -/
theorem paired_convert (o : Options) (items : List Item) :
    Paired (convertOutputToMessages o items) := by
  rw [convert_eq]
  exact paired_reconcileFrom _ []

/-- The conversion does not start with a result. -/
theorem toolBlock_convert (o : Options) (items : List Item) :
    toolBlock (convertOutputToMessages o items) = [] := by
  rw [convert_eq]
  exact toolBlock_reconcileToolPairs _

/-- A settled output converts to something. -/
theorem convert_ne_nil (o : Options) (hfollow : ResultsFollow items) (hsettled : Settled items) :
    convertOutputToMessages o items ≠ [] := by
  obtain ⟨m, id, content, rest, hms, hcall, hid⟩ := hsettled.answered o hfollow
  have hpaired : id ∈ pairedIds m (.tool id content :: rest) :=
    mem_pairedIds.mpr ⟨hcall, fun hne => functionCallIds_ne_empty items (hne ▸ hid),
      List.mem_cons_self⟩
  have hvalid : validCalls m (.tool id content :: rest) ≠ [] := by
    obtain ⟨call, hmem, rfl⟩ := List.mem_map.mp hcall
    exact List.ne_nil_of_mem (List.mem_filter.mpr ⟨hmem, by simpa using hpaired⟩)
  rw [convert_eq, hms]
  rcases reconcileFrom_assistant [] (.tool id content :: rest) m with
    ⟨-, heq⟩ | ⟨hnil, -⟩ | ⟨hnil, -, -⟩
  · exact fun hempty => by cases heq.symm.trans hempty
  · exact absurd hnil hvalid
  · exact absurd hnil hvalid

/-- A settled reply is rebuilt to its converted output and what was said about it. -/
theorem processMessage_reply {reply : SavedReply} (hfollow : ResultsFollow reply.output)
    (hsettled : Settled reply.output) :
    processMessage o (.assistant reply) = convertOutputToMessages o reply.output ++
      reply.speech := by
  have hne : reply.output.isEmpty = false := by
    obtain ⟨before, id, parts, heq, -⟩ := hsettled
    rw [heq]
    cases before <;> rfl
  have hspoken : reply.spoken = false := by rw [SavedReply.spoken, hne, Bool.and_false]
  have hout : (convertOutputToMessages o reply.output).isEmpty = false :=
    List.isEmpty_eq_false_iff.mpr (convert_ne_nil o hfollow hsettled)
  simp [processMessage, hspoken, hne, hout]

/-- Speech has no calls and no results. -/
theorem sanitize_speech (reply : SavedReply) :
    toolBlock reply.speech = [] ∧ sanitizeToolPairs reply.speech = reply.speech := by
  rw [SavedReply.speech]
  generalize List.filter _ _ = transcripts
  induction transcripts with
  | nil => exact ⟨rfl, rfl⟩
  | cons transcript transcripts ih =>
      refine ⟨rfl, ?_⟩
      rw [List.map_cons, transcriptMessage, sanitizeToolPairs, filterPairs_assistant]
      exact congrArg _ ih.2

/-! ## Round by round -/

/-- A settled output has no placeholder to drop. -/
theorem trimPlaceholder_of_settled {inProgress : Bool} (h : Settled items) :
    trimPlaceholder inProgress items = items := by
  obtain ⟨before, id, parts, rfl, -⟩ := h
  rw [trimPlaceholder, List.getLast?_concat]

/-- More rounds before it leave an output settled. -/
theorem Settled.append_left {a b : List Item} (h : Settled b) : Settled (a ++ b) := by
  obtain ⟨before, id, parts, rfl, hid⟩ := h
  obtain ⟨hne, ⟨call, hcall, hcallId, hstatus⟩, parts', hparts⟩ := mem_functionCallIds_iff.mp hid
  refine ⟨a ++ before, id, parts, (List.append_assoc _ _ _).symm,
    mem_functionCallIds_iff.mpr ⟨hne, ?_, ?_⟩⟩
  · exact ⟨call, List.mem_append_right _ hcall, hcallId, hstatus⟩
  · exact ⟨parts', List.mem_append_right _ hparts⟩

/-- In every round the saved output is settled, and its conversion is what the loop has added. -/
theorem LiveAt.converted (hflat : o.flattenToolImages = true) {s : LoopState} (h : LiveAt o s) :
    ResultsFollow s.fullOutput ∧ Settled s.fullOutput ∧
      ((callIds s.fullOutput).Nodup → convertOutputToMessages o s.fullOutput = s.messages) := by
  induction h with
  | first env streamed calls out hstreamed hcalls hround =>
      obtain ⟨hfollow, hsettled⟩ := toolRound_spec hstreamed hcalls hround
      exact ⟨hfollow, hsettled, fun _ => (roundMessages_eq hflat out).symm⟩
  | next s h inProgress env streamed calls out hstreamed hcalls hround ih =>
      obtain ⟨hfollow, hsettled, hconverted⟩ := ih
      obtain ⟨hfollow', hsettled'⟩ := toolRound_spec hstreamed hcalls hround
      -- the saved output ends with a result, so nothing is trimmed
      rw [LoopState.fullOutput, trimPlaceholder_of_settled hsettled]
      refine ⟨hfollow.append hfollow', hsettled'.append_left, fun hnodup => ?_⟩
      have hprior : (callIds s.fullOutput).Nodup := by
        rw [callIds_append] at hnodup
        exact (List.nodup_append.mp hnodup).1
      show convertOutputToMessages o (s.fullOutput ++ out) = s.messages ++ roundMessages o out
      rw [convert_append hfollow hfollow' hsettled hnodup, hconverted hprior,
        roundMessages_eq hflat]

/-- At every round, a reload rebuilds the chat before the reply and then the messages the loop
has added for it. -/
theorem live_context_reloaded (dumps : Json → String) (reasoningFormat : Option String)
    {s : LoopState} (hlive : LiveAt (replayOptions dumps reasoningFormat) s)
    (hids : (callIds s.fullOutput).Nodup) (history : List SavedMessage) (reply : SavedReply)
    (hsaved : reply.output = s.fullOutput) :
    let o := replayOptions dumps reasoningFormat
    sanitizeToolPairs (processMessagesWithOutput o (history ++ [.assistant reply])) =
      sanitizeToolPairs (processMessagesWithOutput o history) ++ s.messages ++ reply.speech := by
  intro o
  obtain ⟨hfollow, hsettled, hconverted⟩ := hlive.converted rfl
  have hmessages : s.messages = convertOutputToMessages o reply.output := by
    rw [hsaved]
    exact (hconverted hids).symm
  rw [← hsaved] at hfollow hsettled
  have hblock := toolBlock_convert o reply.output
  obtain ⟨hspeech, hspeech'⟩ := sanitize_speech reply
  have hreply : sanitizeToolPairs (convertOutputToMessages o reply.output) =
      convertOutputToMessages o reply.output := by
    refine sanitize_of_paired (paired_convert o _) fun id hid => ?_
    rw [hblock] at hid
    cases hid
  have happend : processMessagesWithOutput o (history ++ [.assistant reply]) =
      processMessagesWithOutput o history ++ convertOutputToMessages o reply.output ++
        reply.speech := by
    rw [processMessagesWithOutput, List.flatMap_append, List.flatMap_singleton,
      processMessage_reply hfollow hsettled, List.append_assoc]
    rfl
  rw [happend, sanitizeToolPairs, filterPairs_append hspeech, filterPairs_append hblock, hmessages]
  exact congrArg₂ _ (congrArg _ hreply) hspeech'

/-! ## An example -/

/-- Tools that answer in one word. -/
def wordEnvironment : Environment where
  execute := fun _ => ⟨"found", [], false⟩
  normalizeAskUser := fun arguments => .ok arguments
  saved := true
  asks := false
  sameItem := fun _ _ => false
  sameItem_callId := fun _ _ h => by cases h

def searchCall (id : String) (hid : id ≠ "") : LiveCall :=
    ⟨id, hid, ⟨"search", .str "{}"⟩, none, none⟩

/-- A round with one call. -/
theorem toolRound_search {id : String} (hid : id ≠ "") :
    toolRound wordEnvironment [finishedCall id] [searchCall id hid] =
      some [finishedCall id, plainResult id] := by
  simp [toolRound, toolRound.finish, resolveCall, modifyLast, modifyFirst, searchCall, finishedCall,
    LiveCall.isAskUser, executeCalls, finishCall, resultItem, wordEnvironment, plainResult]

/-- Two rounds with a call each. -/
theorem live_context_reloaded_two :
    sanitizeToolPairs (processMessagesWithOutput (replayOptions (fun _ => "{}") none)
      [.user "question" [], .assistant ⟨"", [finishedCall "a", plainResult "a", finishedCall "b",
        plainResult "b"], none, none⟩]) =
    [.user "question" []] ++ ([] ++
      roundMessages (replayOptions (fun _ => "{}") none) [finishedCall "a", plainResult "a"] ++
      roundMessages (replayOptions (fun _ => "{}") none) [finishedCall "b", plainResult "b"]) := by
  have hstream : ∀ id, ResultsFollow [finishedCall id] := by
    intro id before id' parts after heq
    cases before with
    | nil => cases heq
    | cons item before => cases before <;> cases (List.cons.inj heq).2
  have hfirst := LiveAt.first (o := replayOptions (fun _ => "{}") none) wordEnvironment _ _ _
    (hstream "a") (List.cons_ne_nil _ _) (toolRound_search (by decide))
  have hnext := LiveAt.next _ hfirst false wordEnvironment _ _ _ (hstream "b")
    (List.cons_ne_nil _ _)
    (toolRound_search (by decide))
  have h := live_context_reloaded (fun _ => "{}") none hnext (by decide)
    [.user "question" []] ⟨"",
      [finishedCall "a", plainResult "a", finishedCall "b", plainResult "b"],
      none, none⟩ rfl
  exact h

end OpenWebUI.Output
