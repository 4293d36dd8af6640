import OpenWebUI.Anthropic.ToolFragments
import OpenWebUI.Anthropic.StreamRuns

/-! # Streaming agrees with converting the whole

However a completion is cut, a client that puts the events together has the blocks and the
stop reason of the completion converted at once, with the calls in the order in which
their names arrive.
-/

namespace OpenWebUI.Anthropic

open Py Program

/-! ## Chunks -/

section Chunks

variable {loads : Codec} {freshId : List Json → String} {calls : List Call}
  {reasoning text reason : String} {frags : List Fragment}

/-- The state of a stream after its reasoning, its text and the fragments of its calls. -/
def StreamInv (loads : Codec) (calls : List Call) (reasoning text reason : String)
    (frags : List Fragment) (s : State) : Prop :=
  frags = [] ∧ ProseInv reasoning text reason s ∨
    frags ≠ [] ∧ ToolsInv loads calls reasoning text reason frags s

/-- What is assumed of the next fragment. -/
structure Fits (loads : Codec) (calls : List Call) (before : List Fragment)
    (f : Fragment) : Prop where
  call : f.call ∈ calls
  follows : Follows before f
  whole : ∃ more members, loads (argumentsOf (before ++ [f]) f.call ++ more) = .value (.obj members)

/-- The calls of a plain completion. -/
structure Plain (calls : List Call) : Prop where
  ids : (calls.map Call.id).Nodup
  id : ∀ call ∈ calls, call.id ≠ ""
  name : ∀ call ∈ calls, call.name ≠ ""

/-- One fragment: its call is found by id or index, started when it is named, and written to. -/
theorem handleToolCall_of_fragment {f : Fragment} {v : Json} (hlaw : loads.Lawful)
    (hplain : Plain calls) (hfits : Fits loads calls frags f) (hv : IsFragment f v) :
    Triple (ToolsInv loads calls reasoning text reason frags) (handleToolCall loads freshId v)
      (fun _ => ToolsInv loads calls reasoning text reason (frags ++ [f])) (fun _ _ => False) := by
  obtain ⟨o, function, rfl, hindex, hid, hfunction, hname, harguments⟩ := hv
  unfold handleToolCall
  simp only [Json.asObj_obj, ofOption, pure_bind, hfunction]
  refine triple_bind (resolveTool_of_fragment hplain.ids hfits.call (hplain.id _ hfits.call)
    (hplain.name _ hfits.call) hfits.follows hindex hid hname) fun key => ?_
  refine triple_get_bind fun s hs => ?_
  obtain ⟨rfl, hs⟩ := hs
  obtain ⟨tool, hget, _⟩ := hs.own
  simp only [hget, pure_bind]
  refine triple_set_bind ((handleArguments_of_fragment hlaw hplain.ids hfits.call hfits.follows
    harguments hfits.whole).mono ?_ (fun _ _ h => h) fun _ _ h => h)
  rintro _ rfl
  exact hs.startTool hfits.call (hplain.name _ hfits.call) hget

/-- The fragments of a delta, one after the other. -/
theorem forM_of_fragments {more : List Fragment} {xs : List Json} (hlaw : loads.Lawful)
    (hplain : Plain calls) (hxs : List.Forall₂ IsFragment more xs)
    (hfits : ∀ before f after, frags ++ more = before ++ f :: after → frags <+: before →
      Fits loads calls before f) :
    Triple (ToolsInv loads calls reasoning text reason frags)
      (xs.forM (handleToolCall loads freshId))
      (fun _ => ToolsInv loads calls reasoning text reason (frags ++ more)) (fun _ _ => False) := by
  induction hxs generalizing frags with
  | nil =>
      rw [List.append_nil]
      exact triple_pure _ fun _ hs => hs
  | @cons f v more xs hv _ ih =>
      refine triple_bind (handleToolCall_of_fragment hlaw hplain
        (hfits frags f more rfl (List.prefix_refl _)) hv) fun _ => ?_
      have hrest := @ih (frags ++ [f]) fun before g after heq hpre =>
        hfits before g after (by rw [← heq, List.append_assoc]; rfl)
          ((List.prefix_append _ _).trans hpre)
      rwa [List.append_assoc] at hrest

/-- Once the prose is closed the tools begin under the next index. -/
theorem ToolsInv.start {s : State} (h : Prose reasoning text reason s) (hclosed : Closed s)
    (hindex : s.currentBlockIndex = proseCount reasoning text) :
    ToolsInv loads calls reasoning text reason [] s := by
  refine ⟨⟨hclosed, h.reason, ?_, h.spells, fun i _ => h.input i⟩, ?_,
    fun f hf => (nomatch hf), fun i => ?_⟩
  · rw [hindex]
    exact (add_zero _).symm
  · intro key tool _ hget
    rw [h.tools] at hget
    cases hget
  · rw [h.indices]
    rfl

/-- Where nothing is open there is nothing to close. -/
theorem close_of_closed {s : State} (h : Closed s) : s.closeThinking.closeText = s := by
  have hthinking : s.closeThinking = s := by
    rw [State.closeThinking, h.1]
    rfl
  rw [hthinking, State.closeText, h.2]
  rfl

/-- The first call closes the prose, the others find it closed. -/
theorem handleToolCalls_of_fragments {more : List Fragment} {v : Json} (hlaw : loads.Lawful)
    (hplain : Plain calls) (hv : IsList IsFragment more v)
    (hfits : ∀ before f after, frags ++ more = before ++ f :: after → frags <+: before →
      Fits loads calls before f) :
    Triple (StreamInv loads calls reasoning text reason frags) (handleToolCalls loads freshId v)
      (fun _ => StreamInv loads calls reasoning text reason (frags ++ more))
      (fun _ _ => False) := by
  have hnone : ∀ v : Json, v.truthy = false → more = [] →
      Triple (StreamInv loads calls reasoning text reason frags) (handleToolCalls loads freshId v)
        (fun _ => StreamInv loads calls reasoning text reason (frags ++ more))
        (fun _ _ => False) := by
    rintro v hfalsy rfl
    unfold handleToolCalls
    rw [if_neg (by rw [hfalsy]; decide), List.append_nil]
    exact triple_pure _ fun _ hs => hs
  rcases hv with ⟨xs, rfl, hxs⟩ | ⟨hmore, rfl⟩
  · cases hxs with
    | nil => exact hnone _ rfl rfl
    | @cons f w more xs hw hxs =>
        have htruthy : (Json.arr (w :: xs)).truthy = true := rfl
        unfold handleToolCalls
        rw [if_pos htruthy]
        refine triple_bind (Q := fun _ => ToolsInv loads calls reasoning text reason frags)
          (triple_modify ?_) fun _ => ?_
        · rintro s (⟨rfl, hprose⟩ | ⟨_, htools⟩)
          · obtain ⟨hclose, hclosed, hindex⟩ := hprose.close
            exact .start hclose hclosed hindex
          · rwa [close_of_closed htools.closed]
        · simp only [iterate, ofOption, pure_bind]
          refine (forM_of_fragments hlaw hplain (.cons hw hxs) hfits).mono (fun _ h => h) ?_
            fun _ _ h => h
          exact fun _ s hs => Or.inr ⟨by simp, hs⟩
  · exact hnone _ rfl hmore

/-- Reasoning and text come before the calls. -/
theorem StreamInv.prose {r t : String} {v w : Json} {s : State}
    (h : StreamInv loads calls reasoning text reason frags s) (hv : IsText r v) (hw : IsText t w)
    (htext : text ≠ "" → r = "") (hfrags : frags ≠ [] → r = "" ∧ t = "") :
    StreamInv loads calls (reasoning ++ r) (text ++ t) reason frags ((s.think v).write w) := by
  rcases h with ⟨rfl, hprose⟩ | ⟨hne, htools⟩
  · refine Or.inl ⟨rfl, (hprose.think hv fun hr => ?_).write hw⟩
    by_contra hne
    exact hr (htext hne)
  · obtain ⟨rfl, rfl⟩ := hfrags hne
    have hthink : s.think v = s := by
      rw [State.think, hv.truthy]
      rfl
    have hwrite : s.write w = s := by
      rw [State.write, hw.truthy]
      rfl
    rw [hthink, hwrite, String.append_empty, String.append_empty]
    exact Or.inr ⟨hne, htools⟩

/-- The invariant does not read the usage. -/
theorem StreamInv.withUsage {s : State} (h : StreamInv loads calls reasoning text reason frags s)
    (usage : Usage) :
    StreamInv loads calls reasoning text reason frags { s with usage := usage } := by
  rcases h with ⟨hnil, h⟩ | ⟨hne, h⟩
  · exact Or.inl ⟨hnil, ⟨h.tools, h.indices, h.noTools, h.reason, h.spells, h.input⟩,
      h.thinkingOpen, h.textOpen, h.index⟩
  · exact Or.inr ⟨hne, ⟨h.closed, h.reason, h.index, h.spells, h.unused⟩, h.known, h.seen,
      h.indices⟩

/-- The stop reason touches no block. -/
theorem StreamInv.withReason {s : State} (h : StreamInv loads calls reasoning text reason frags s)
    (reason' : String) :
    StreamInv loads calls reasoning text reason' frags { s with stopReason := reason' } := by
  rcases h with ⟨hnil, h⟩ | ⟨hne, h⟩
  · exact Or.inl ⟨hnil, ⟨h.tools, h.indices, h.noTools, rfl, h.spells, h.input⟩,
      h.thinkingOpen, h.textOpen, h.index⟩
  · exact Or.inr ⟨hne, ⟨h.closed, rfl, h.index, h.spells, h.unused⟩, h.known, h.seen, h.indices⟩

/-- The stop reason a finish reason stands for. -/
def stopReason (reason : String) : String := (streamStopReasons.lookup reason).getD "end_turn"

/-- The last finish reason counts. -/
theorem handleFinishReason_of_part (finish : Option String) :
    Triple (StreamInv loads calls reasoning text reason frags)
      (handleFinishReason (finishJson finish))
      (fun _ => StreamInv loads calls reasoning text (finish.elim reason stopReason) frags)
      (fun _ _ => False) := by
  cases finish with
  | none => exact triple_pure _ fun _ hs => hs
  | some reason' =>
      unfold handleFinishReason finishJson
      rw [if_neg (by simp)]
      exact triple_modify fun s hs => hs.withReason _

/-- The reasoning of a choice is that of its delta. -/
theorem reasoningOf_delta {p : Part} {delta : Obj} (h : IsDelta p delta) :
    ∃ v, reasoningOf delta (.obj []) = some v ∧ IsText p.reasoning v := by
  have hnull : ∀ key ∈ ["reasoning", "thinking", "thinking_blocks"], Obj.get delta key = .null :=
    h.plain
  have htext : IsText p.reasoning (((Obj.get delta "reasoning_content").or
      (Obj.get delta "reasoning")).or (Obj.get delta "thinking")) := by
    rw [hnull "reasoning" (by simp), hnull "thinking" (by simp)]
    exact h.reasoning.or_null.or_null
  unfold reasoningOf
  simp only
  split_ifs with htruthy
  · exact ⟨_, rfl, htext⟩
  · rw [hnull "thinking_blocks" (by simp)]
    refine ⟨.null, rfl, Or.inr ⟨?_, rfl⟩⟩
    rw [htext.truthy] at htruthy
    simpa using htruthy

/-- The calls of a delta are the fragments of its part. -/
theorem toolCallsOf_delta {p : Part} {delta : Obj} (h : IsDelta p delta) :
    ∃ v, toolCallsOf delta (.obj []) = some v ∧ IsList IsFragment p.fragments v := by
  unfold toolCallsOf
  simp only
  split_ifs with htruthy
  · exact ⟨_, rfl, h.fragments⟩
  · refine ⟨.null, rfl, Or.inr ⟨?_, rfl⟩⟩
    rcases h.fragments with ⟨xs, hxs, hall⟩ | ⟨hnil, _⟩
    · rw [hxs] at htruthy
      generalize p.fragments = fragments at hall
      cases hall with
      | nil => rfl
      | cons _ _ => exact absurd rfl htruthy
    · exact hnil

/-- What is assumed of the next part. -/
structure PartFits (loads : Codec) (calls : List Call) (text : String) (frags : List Fragment)
    (p : Part) : Prop where
  text : text ≠ "" → p.reasoning = ""
  fragments : frags ≠ [] → p.reasoning = "" ∧ p.text = ""
  fits : ∀ before f after, frags ++ p.fragments = before ++ f :: after → frags <+: before →
    Fits loads calls before f

/-- A part goes on with the prose, or with the calls once there is no more prose. -/
theorem handleChoice_of_part {p : Part} {choice delta : Obj} (hlaw : loads.Lawful)
    (hplain : Plain calls) (hfits : PartFits loads calls text frags p)
    (hchoice : Obj.getD choice "delta" (.obj []) = .obj delta)
    (hmessage : Obj.get choice "message" = .null) (hdelta : IsDelta p delta)
    (hfinish : Obj.get choice "finish_reason" = finishJson p.finishReason) :
    Triple (StreamInv loads calls reasoning text reason frags) (handleChoice loads freshId choice)
      (fun _ => StreamInv loads calls (reasoning ++ p.reasoning) (text ++ p.text)
        (p.finishReason.elim reason stopReason) (frags ++ p.fragments)) (fun _ _ => False) := by
  obtain ⟨v, hv, hreasoning⟩ := reasoningOf_delta hdelta
  obtain ⟨w, hw, hcalls⟩ := toolCallsOf_delta hdelta
  unfold handleChoice
  simp only [hchoice, hmessage, Json.asObj_obj, Json.null_or, ofOption, pure_bind, hv, hw, hfinish]
  have hprose : Triple (StreamInv loads calls reasoning text reason frags)
      (modify fun s => (s.think v).write (Obj.get delta "content") : Loop PUnit)
      (fun _ => StreamInv loads calls (reasoning ++ p.reasoning) (text ++ p.text) reason frags)
      (fun _ _ => False) :=
    triple_modify fun s hs => hs.prose hreasoning hdelta.text hfits.text hfits.fragments
  refine triple_bind hprose fun _ => ?_
  refine triple_bind (handleToolCalls_of_fragments hlaw hplain hcalls hfits.fits) fun _ => ?_
  exact handleFinishReason_of_part p.finishReason

/-- A chunk without error and usage is its choice. -/
theorem handleData_of_part {p : Part} {o : Obj} (hlaw : loads.Lawful) (hplain : Plain calls)
    (hfits : PartFits loads calls text frags p) (ho : IsChunk p o) :
    Triple (StreamInv loads calls reasoning text reason frags) (handleData loads freshId (.obj o))
      (fun r s => r = none ∧ StreamInv loads calls (reasoning ++ p.reasoning) (text ++ p.text)
        (p.finishReason.elim reason stopReason) (frags ++ p.fragments) s) (fun _ _ => False) := by
  unfold handleData
  simp only [Json.asObj_obj, ofOption, pure_bind]
  rw [if_neg (by rw [ho.error]; decide)]
  refine triple_bind (Q := fun _ => StreamInv loads calls reasoning text reason frags) ?_ fun _ =>
    ?_
  · unfold handleUsage
    split
    next usage husage =>
      obtain ⟨new, hnew⟩ := Option.isSome_iff_exists.mp (ho.usage usage husage)
      simp only [hnew, ofOption, pure_bind]
      exact triple_modify fun s hs => hs.withUsage _
    next => exact triple_pure _ fun _ hs => hs
  · rcases ho.choice with ⟨choice, rest, delta, hchoices, hdelta, hmessage, hparts, hfinish⟩ |
      ⟨hfalsy, rfl⟩
    · rw [hchoices, if_neg (by simp [Json.truthy])]
      refine triple_bind (handleChoice_of_part hlaw hplain hfits hdelta hmessage hparts hfinish)
        fun _ => triple_pure _ fun _ hs => ⟨rfl, hs⟩
    · rw [if_pos (by rw [hfalsy]; rfl)]
      refine triple_pure _ fun s hs => ⟨rfl, ?_⟩
      rw [Part.empty, String.append_empty, String.append_empty, List.append_nil]
      exact hs

/-! ## The stream -/

/-- The state of a stream after some of its parts. -/
def PartsInv (loads : Codec) (calls : List Call) (parts : List Part) (s : State) : Prop :=
  StreamInv loads calls (String.join (parts.map Part.reasoning)) (String.join (parts.map Part.text))
    (((parts.filterMap Part.finishReason).getLast?).elim "end_turn" stopReason)
      (fragmentsOf parts) s

/-- What is assumed of the parts that are still to come. -/
def PartsFit (loads : Codec) (calls : List Call) (done parts : List Part) : Prop :=
  ∀ before p after, done ++ parts = before ++ p :: after → done <+: before →
    PartFits loads calls (String.join (before.map Part.text)) (fragmentsOf before) p

/-- One more part is done. -/
theorem PartsInv.snoc {done : List Part} {p : Part} {s : State}
    (h : StreamInv loads calls (String.join (done.map Part.reasoning) ++ p.reasoning)
      (String.join (done.map Part.text) ++ p.text)
        (p.finishReason.elim (((done.filterMap Part.finishReason).getLast?).elim "end_turn"
          stopReason) stopReason) (fragmentsOf done ++ p.fragments) s) :
    PartsInv loads calls (done ++ [p]) s := by
  have hreason : (((done ++ [p]).filterMap Part.finishReason).getLast?).elim "end_turn" stopReason =
      p.finishReason.elim (((done.filterMap Part.finishReason).getLast?).elim "end_turn" stopReason)
        stopReason := by
    rw [List.filterMap_append]
    cases hp : p.finishReason <;> simp [hp]
  have hfrags : fragmentsOf (done ++ [p]) = fragmentsOf done ++ p.fragments := by
    simp [fragmentsOf]
  unfold PartsInv
  rw [hreason, hfrags, List.map_append, List.map_append, String.join_append, String.join_append]
  simpa [String.join_cons] using h

/-- The next part becomes one that is done. -/
theorem PartsFit.next {done parts : List Part} {p : Part}
    (h : PartsFit loads calls done (p :: parts)) : PartsFit loads calls (done ++ [p]) parts := by
  intro before q after heq hpre
  refine h before q after ?_ ((List.prefix_append _ _).trans hpre)
  rw [← heq, List.append_assoc]
  rfl

/-- What comes after several parts fits when they are done. -/
theorem PartsFit.after {done parts parts' : List Part}
    (h : PartsFit loads calls done (parts ++ parts')) :
    PartsFit loads calls (done ++ parts) parts' := by
  intro before q after heq hpre
  refine h before q after ?_ ((List.prefix_append _ _).trans hpre)
  rw [← heq, List.append_assoc]

/-- The payloads of a chunk are parts, one for each. -/
theorem handlePayloads_of_parts {done parts : List Part} {lines : List String}
    (hlaw : loads.Lawful) (hplain : Plain calls)
    (hlines : List.Forall₂ (fun p line => ∃ o, loads line = .value (.obj o) ∧ IsChunk p o)
      parts lines) (hfit : PartsFit loads calls done parts) :
    Triple (PartsInv loads calls done) (handlePayloads loads freshId lines)
      (fun r s => r = none ∧ PartsInv loads calls (done ++ parts) s) (fun _ _ => False) := by
  induction hlines generalizing done with
  | nil =>
      rw [List.append_nil]
      exact triple_pure _ fun _ hs => ⟨rfl, hs⟩
  | @cons p line parts lines hline _ ih =>
      obtain ⟨o, hloads, ho⟩ := hline
      have hnext := ih hfit.next
      rw [List.append_assoc] at hnext
      rw [handlePayloads]
      refine triple_bind (Q := fun r s => r = none ∧ PartsInv loads calls (done ++ [p]) s) ?_
        fun r => triple_of_pre ?_
      · unfold handlePayload
        rw [hloads]
        refine (handleData_of_part hlaw hplain
          (hfit done p parts rfl (List.prefix_refl _)) ho).mono (fun _ h => h) ?_ fun _ _ h => h
        exact fun _ s hs => ⟨hs.1, .snoc hs.2⟩
      · rintro rfl
        exact hnext

/-- The parts of a concatenation of lines. -/
theorem forall₂_split {α β : Type} {R : α → β → Prop} {l : List α} {r r' : List β}
    (h : List.Forall₂ R l (r ++ r')) :
    ∃ l₁ l₂, l = l₁ ++ l₂ ∧ List.Forall₂ R l₁ r ∧ List.Forall₂ R l₂ r' := by
  induction r generalizing l with
  | nil => exact ⟨[], l, rfl, .nil, h⟩
  | cons b r ih =>
      cases h with
      | @cons a _ l _ hab h =>
          obtain ⟨l₁, l₂, rfl, h₁, h₂⟩ := ih h
          exact ⟨a :: l₁, l₂, rfl, .cons hab h₁, h₂⟩

/-- The chunks of a source cut its parts anywhere. -/
theorem handleChunks_of_parts {done parts : List Part} {chunks : List Chunk}
    (hlaw : loads.Lawful) (hplain : Plain calls) (htext : ∀ chunk ∈ chunks, chunk ≠ .other)
    (hlines : List.Forall₂ (fun p line => ∃ o, loads line = .value (.obj o) ∧ IsChunk p o)
      parts (Source.payloads ⟨chunks, false⟩)) (hfit : PartsFit loads calls done parts) :
    Triple (PartsInv loads calls done) (handleChunks loads freshId chunks)
      (fun r s => r = none ∧ PartsInv loads calls (done ++ parts) s) (fun _ _ => False) := by
  induction chunks generalizing done parts with
  | nil =>
      cases hlines with
      | nil =>
          rw [List.append_nil]
          exact triple_pure _ fun _ hs => ⟨rfl, hs⟩
  | cons chunk chunks ih =>
      cases chunk with
      | other => exact absurd rfl (htext _ (List.mem_cons_self ..))
      | text t =>
          rw [Source.payloads, List.flatMap_cons] at hlines
          rw [handleChunks]
          simp only at hlines
          -- the lines stay unread
          generalize payloads t = lines at hlines ⊢
          obtain ⟨p₁, p₂, rfl, h₁, h₂⟩ := forall₂_split hlines
          have hnext := ih (fun c hc => htext c (List.mem_cons_of_mem _ hc)) h₂ hfit.after
          rw [List.append_assoc] at hnext
          have hfit₁ : PartsFit loads calls done p₁ := by
            intro before q after heq hpre
            refine hfit before q (after ++ p₂) ?_ hpre
            rw [← List.append_assoc, heq, List.append_assoc]
            rfl
          refine triple_bind (handlePayloads_of_parts hlaw hplain h₁ hfit₁) fun r =>
            triple_of_pre ?_
          rintro rfl
          exact hnext

end Chunks

/-! ## The end -/

section Finish

variable {loads : Codec} {calls : List Call} {reasoning text reason : String}
  {frags : List Fragment} {s : State}

/-- Every named tool has started. -/
theorem StreamInv.named (h : StreamInv loads calls reasoning text reason frags s) :
    NamedBut none s := by
  intro key tool _ hget hname
  rcases h with ⟨_, h⟩ | ⟨_, h⟩
  · rw [h.tools] at hget
    cases hget
  · obtain ⟨call, _, _, htracks⟩ := h.known key tool (by rintro _ ⟨⟩) hget
    rw [htracks.started]
    by_contra hnot
    obtain ⟨hfalsy, _⟩ := htracks.unnamed (by simpa using hnot)
    rw [hfalsy] at hname
    cases hname

/-- Only blocks have been stopped. -/
def SameContent (events events' : List Event) : Prop :=
  startedBlocks events' = startedBlocks events ∧ ∀ i, deltasAt events' i = deltasAt events i

/-- What means the same can be exchanged step by step. -/
theorem SameContent.trans {events events' events'' : List Event} (h : SameContent events events')
    (h' : SameContent events' events'') : SameContent events events'' :=
  ⟨h'.1.trans h.1, fun i => (h'.2 i).trans (h.2 i)⟩

/-- Stopping a block takes nothing from it. -/
theorem sameContent_stop (events : List Event) (i : ℤ) :
    SameContent events (events ++ [.contentBlockStop i]) :=
  ⟨startedBlocks_stop .., fun _ => deltasAt_stop ..⟩

/-- The stops at the end take nothing from any block. -/
theorem sameContent_endTools (tools : List Tool) (s : State) :
    SameContent s.events (tools.foldl State.endTool s).events := by
  induction tools generalizing s with
  | nil => exact ⟨rfl, fun _ => rfl⟩
  | cons tool tools ih =>
      refine SameContent.trans ?_ (ih (s.endTool tool))
      unfold State.endTool
      split_ifs
      · exact sameContent_stop ..
      · exact ⟨rfl, fun _ => rfl⟩

/-- The stops at the end leave the reason. -/
theorem endTools_reason (tools : List Tool) (s : State) :
    (tools.foldl State.endTool s).stopReason = s.stopReason := by
  induction tools generalizing s with
  | nil => rfl
  | cons tool tools ih =>
      rw [List.foldl_cons, ih]
      unfold State.endTool
      split_ifs <;> rfl

/-- The end of a stream adds nothing to the content, and reports the stop reason. -/
theorem finish_content (h : NamedBut none s) : SameContent s.events s.finish.events ∧
    reportedStopReason s.finish.events = some s.stopReason := by
  have hthinking : SameContent s.events s.endThinking.events ∧
      s.endThinking.stopReason = s.stopReason ∧ NamedBut none s.endThinking := by
    unfold State.endThinking
    split_ifs
    · exact ⟨sameContent_stop .., rfl, h⟩
    · exact ⟨⟨rfl, fun _ => rfl⟩, rfl, h⟩
  obtain ⟨hthinking, hreason, hnamed⟩ := hthinking
  have htext : SameContent s.endThinking.events s.endThinking.endText.events ∧
      s.endThinking.endText.stopReason = s.endThinking.stopReason := by
    unfold State.endText
    split_ifs
    · exact ⟨sameContent_stop .., rfl⟩
    · exact ⟨⟨rfl, fun _ => rfl⟩, rfl⟩
  unfold State.finish
  simp only [hnamed.flush]
  have htools := sameContent_endTools (s.endThinking.endText.trackedToolCalls.entries.map Prod.snd)
    s.endThinking.endText
  have hend : s.endThinking.endText.endTools.stopReason = s.stopReason := by
    rw [State.endTools, endTools_reason, htext.2, hreason]
  constructor
  · refine (hthinking.trans (htext.1.trans htools)).trans ⟨?_, fun i => ?_⟩
    · simp [startedBlocks, State.yield, State.endTools]
    · simp [deltasAt, State.yield, State.endTools]
  · rw [← hend]
    simp [reportedStopReason, State.yield]

/-- The input of a call, decoded. -/
def inputOf (loads : Codec) (call : Call) : Json :=
  match loads call.arguments with
  | .value v => v
  | _ => .null

/-- The content of a completion. -/
def contentOf (loads : Codec) (reasoning text : String) (calls : List Call) : List Block :=
  (if reasoning = "" then [] else [.thinking (.str reasoning) .null]) ++
    (if text = "" then [] else [.text (.str text)]) ++
    calls.map fun call => .toolUse (.str call.id) (.str call.name) (inputOf loads call)

/-- What is put together once every call has all its arguments. -/
theorem assemble_eq {order : List Call} {events : List Event}
    (hspells : Spells reasoning text order events) (hnodup : order.Nodup)
    (hinput : ∀ call ∈ order, loads (inputText (deltasAt events
      (proseCount reasoning text + order.idxOf call))) = .value (inputOf loads call)) :
    assemble loads events = some (contentOf loads reasoning text order) := by
  -- the three groups of blocks are assembled one after the other
  have hthinking : (if reasoning = "" then [] else [((0 : ℤ), Block.thinking (.str "") .null)]).mapM
      (assembleBlock loads events) =
        some (if reasoning = "" then [] else [.thinking (.str reasoning) .null]) := by
    split_ifs
    · rfl
    · rw [List.mapM_cons, assembleBlock, hspells.thinking]
      rfl
  have htext : (if text = "" then [] else [(blockCount reasoning, Block.text (.str ""))]).mapM
      (assembleBlock loads events) = some (if text = "" then [] else [.text (.str text)]) := by
    split_ifs
    · rfl
    · rw [List.mapM_cons, assembleBlock, hspells.text, if_pos rfl]
      rfl
  have htools : (toolBlocks (proseCount reasoning text) order).mapM (assembleBlock loads events) =
      some (order.map fun call =>
        .toolUse (.str call.id) (.str call.name) (inputOf loads call)) := by
    have hfst : order.map (fun call =>
        Block.toolUse (.str call.id) (.str call.name) (inputOf loads call)) = order.zipIdx.map
          fun p => .toolUse (.str p.1.id) (.str p.1.name) (inputOf loads p.1) := by
      nth_rewrite 1 [← List.zipIdx_map_fst 0 order]
      rw [List.map_map]
      rfl
    rw [toolBlocks, List.mapM_map, hfst]
    refine mapM_eq_some_map fun p hp => ?_
    obtain ⟨call, n⟩ := p
    -- the block of a call is numbered by its place in the order
    obtain ⟨hn', rfl⟩ := List.getElem?_eq_some_iff.mp (List.mk_mem_zipIdx_iff_getElem?.mp hp)
    have hidx : order.idxOf order[n] = n := hnodup.idxOf_getElem n hn'
    have hloads := hinput order[n] (List.getElem_mem hn')
    rw [hidx] at hloads
    simp only [Function.comp, assembleBlock, hloads]
  rw [assemble, hspells.blocks, proseBlocks, List.mapM_append, List.mapM_append, hthinking, htext,
    htools]
  rfl

/-- The input of every named call is sent as far as it decodes. -/
theorem ToolsInv.input (h : ToolsInv loads calls reasoning text reason frags s)
    (hlaw : loads.Lawful) (hids : (calls.map Call.id).Nodup)
    (hcalls : ∀ f ∈ frags, f.call ∈ calls)
    (hwhole : ∀ call ∈ calls, argumentsOf frags call = call.arguments)
    (hobject : ∀ call ∈ calls, ∃ members, loads call.arguments = .value (.obj members))
    {call : Call} (hmem : call ∈ namedOrder frags) :
    loads (inputText (deltasAt s.events
      (proseCount reasoning text + (namedOrder frags).idxOf call))) =
        .value (inputOf loads call) := by
  obtain ⟨f, hf, _, rfl⟩ := (mem_namedOrder frags).mp hmem
  have hcall := hcalls f hf
  obtain ⟨tool, hget⟩ := h.seen f hf
  have htracks := h.tracks hids hcall hget
  obtain ⟨hindex, rest, hrest, hopen, hdone⟩ := htracks.block hmem
  obtain ⟨members, hmembers⟩ := hobject f.call hcall
  have hvalue : inputOf loads f.call = .obj members := by
    rw [inputOf, hmembers]
  rw [htracks.arguments, hwhole f.call hcall, hindex] at hrest
  rw [hvalue]
  rw [hindex] at hdone
  cases hstopped : tool.stopped with
  | false =>
      rw [hopen hstopped, String.append_empty] at hrest
      rw [← hrest]
      exact hmembers
  | true =>
      obtain ⟨v, hv⟩ := hdone hstopped
      rw [hrest] at hmembers
      rw [hv, (hlaw.part _ _ _ hmembers).2 v hv]

/-- The events of a stream that is done assemble to the response: prose, then the calls with their
arguments. -/
theorem StreamInv.assemble (h : StreamInv loads calls reasoning text reason frags s)
    (hlaw : loads.Lawful) (hids : (calls.map Call.id).Nodup)
    (hcalls : ∀ f ∈ frags, f.call ∈ calls)
    (hwhole : ∀ call ∈ calls, argumentsOf frags call = call.arguments)
    (hobject : ∀ call ∈ calls, ∃ members, loads call.arguments = .value (.obj members)) :
    assemble loads s.finish.events = some (contentOf loads reasoning text (namedOrder frags)) ∧
      reportedStopReason s.finish.events = some reason := by
  obtain ⟨hcontent, hreason⟩ := finish_content h.named
  have hspells : Spells reasoning text (namedOrder frags) s.finish.events ∧
      s.stopReason = reason ∧ ∀ call ∈ namedOrder frags, loads (inputText (deltasAt s.events
        (proseCount reasoning text + (namedOrder frags).idxOf call))) =
          .value (inputOf loads call) := by
    rcases h with ⟨rfl, h⟩ | ⟨_, h⟩
    · refine ⟨⟨hcontent.1.trans h.spells.blocks, ?_, fun i => ?_⟩, h.reason,
        fun call hmem => nomatch hmem⟩
      · rw [hcontent.2]
        exact h.spells.thinking
      · rw [hcontent.2]
        exact h.spells.text i
    · refine ⟨⟨hcontent.1.trans h.spells.blocks, ?_, fun i => ?_⟩, h.reason,
        fun call hmem => h.input hlaw hids hcalls hwhole hobject hmem⟩
      · rw [hcontent.2]
        exact h.spells.thinking
      · rw [hcontent.2]
        exact h.spells.text i
  obtain ⟨hspells, hstop, hinput⟩ := hspells
  refine ⟨assemble_eq hspells (nodup_namedOrder frags) fun call hmem => ?_, hstop ▸ hreason⟩
  rw [hcontent.2]
  exact hinput call hmem

end Finish

/-! ## The whole completion -/

section Whole

variable {loads : Codec}

/-- The calls of a response become its blocks. -/
theorem toolBlocks_of_calls {calls : List Call} {xs : List Json} (uuid : ℕ → String)
    (h : List.Forall₂ IsCall calls xs)
    (hobject : ∀ call ∈ calls, ∃ members, loads call.arguments = .value (.obj members)) (n : ℕ) :
    (xs.zipIdx n).mapM (fun p => toolUseBlock loads ("toolu_" ++ uuid p.2) p.1) =
      some (calls.map fun call =>
        .toolUse (.str call.id) (.str call.name) (inputOf loads call)) := by
  induction h generalizing n with
  | nil => rfl
  | @cons call x calls xs hx _ ih =>
      obtain ⟨o, function, rfl, hid, hfunction, hname, harguments⟩ := hx
      obtain ⟨members, hmembers⟩ := hobject call (List.mem_cons_self ..)
      have hblock : toolUseBlock loads ("toolu_" ++ uuid n) (.obj o) =
          some (.toolUse (.str call.id) (.str call.name) (inputOf loads call)) := by
        simp only [toolUseBlock, Json.asObj_obj, Obj.getD, hfunction, hid, hname, harguments,
          Option.getD_some, toolInput, hmembers, inputOf, Option.bind_eq_bind, Option.bind_some]
        rfl
      rw [List.zipIdx_cons, List.mapM_cons, hblock,
        ih (fun c hc => hobject c (List.mem_cons_of_mem _ hc)) (n + 1)]
      rfl

/-- A whole completion has the content of its reasoning, its text and its calls. -/
theorem contentBlocks_of_message {c : Completion} {message : Obj} (uuid : ℕ → String)
    (h : IsMessage c message)
    (hobject : ∀ call ∈ c.calls, ∃ members, loads call.arguments = .value (.obj members)) :
    contentBlocks loads uuid message = some (contentOf loads c.reasoning c.text c.calls) := by
  have hplain : ∀ key ∈ ["reasoning", "thinking", "thinking_blocks"],
    Obj.get message key = .null := h.plain
  have hreasoning := hplain "reasoning" (by simp)
  have hthinking := hplain "thinking" (by simp)
  have hblocks : thinkingBlocks message = some [] := by
    unfold thinkingBlocks
    rw [hthinking, hplain "thinking_blocks" (by simp)]
    rfl
  -- both fields are null, so either spells the reasoning
  have hplainReasoning : IsText c.reasoning (plainReasoning message) := by
    unfold plainReasoning
    simp only [hreasoning, hthinking]
    split_ifs <;> exact h.reasoning.or_null
  have hcalls : (do
      let calls ← iterateOrEmpty (Obj.get message "tool_calls")
      calls.zipIdx.mapM fun p => toolUseBlock loads ("toolu_" ++ uuid p.2) p.1) =
        some (c.calls.map fun call =>
          .toolUse (.str call.id) (.str call.name) (inputOf loads call)) := by
    rcases h.calls with ⟨xs, hxs, hall⟩ | ⟨hnil, hnull⟩
    · have hiterate : iterateOrEmpty (.arr xs) = some xs := by
        cases xs <;> rfl
      rw [hxs, hiterate]
      exact toolBlocks_of_calls uuid hall hobject 0
    · rw [hnull, hnil]
      rfl
  rw [Option.bind_eq_bind, Option.bind_eq_some_iff] at hcalls
  obtain ⟨calls, hiterate, hmap⟩ := hcalls
  unfold contentBlocks
  simp only [hblocks, hiterate, hmap, Option.bind_eq_bind, Option.bind_some, contentOf]
  rw [hplainReasoning.truthy, h.text.truthy]
  -- each part may be empty, and is then left out
  by_cases hr : c.reasoning = ""
  · by_cases ht : c.text = ""
    · simp [hr, ht]
    · simp [hr, ht, h.text.eq_str ht]
  · by_cases ht : c.text = ""
    · simp [hr, ht, hplainReasoning.eq_str hr]
    · simp [hr, ht, hplainReasoning.eq_str hr, h.text.eq_str ht]

/-- Both tables give a finish reason the same stop reason. -/
theorem responseStopReason (reason : String) :
    stopReasonOf responseStopReasons (.str reason) = some (stopReason reason) := by
  simp only [stopReasonOf, stopReason, responseStopReasons, streamStopReasons, Assoc.lookup_cons]
  split_ifs <;> rfl

/-- A response in which all arguments can be read is converted. -/
theorem convert_of_completion {c : Completion} {response : Obj} (h : IsCompletion c response)
    (hobject : ∀ call ∈ c.calls, ∃ members, loads call.arguments = .value (.obj members))
    (messageUuid : String) (uuid : ℕ → String) (model : String) (inputTokens : Option ℕ) :
    ∃ r, convertOpenaiToAnthropicResponse loads messageUuid uuid response model inputTokens =
      some r ∧
      r.content = contentOf loads c.reasoning c.text c.calls ∧
      r.stopReason = c.finishReason.elim "end_turn" stopReason := by
  obtain ⟨choice, rest, message, hchoices, hmessage, hcontent, hfinish⟩ := h.choice
  obtain ⟨usage, husage⟩ := Option.isSome_iff_exists.mp h.usage
  obtain ⟨usageObj, husageObj, husage⟩ := Option.bind_eq_some_iff.mp husage
  have hfirst : firstChoice response = some choice := by
    rw [firstChoice, hchoices]
    rfl
  have hstop : stopReasonOf responseStopReasons (Obj.getD choice "finish_reason" (.str "stop")) =
      some (c.finishReason.elim "end_turn" stopReason) := by
    cases hreason : c.finishReason with
    | none =>
        rw [hreason] at hfinish
        -- without the field the default `stop` is mapped, as null is
        cases hlookup : choice.lookup "finish_reason" with
        | none =>
            rw [Obj.getD, hlookup]
            exact responseStopReason "stop"
        | some v =>
            rw [Obj.get, hlookup] at hfinish
            obtain rfl : v = .null := hfinish
            rw [Obj.getD, hlookup]
            rfl
    | some reason =>
        rw [hreason] at hfinish
        have hlookup := Obj.lookup_of_get hfinish (by simp [finishJson])
        rw [Obj.getD, hlookup]
        exact responseStopReason reason
  unfold convertOpenaiToAnthropicResponse
  simp only [hfirst, hmessage, Json.asObj_obj, hstop,
    contentBlocks_of_message uuid hcontent hobject, husageObj, husage, Option.bind_eq_bind,
    Option.bind_some]
  exact ⟨_, rfl, rfl, rfl⟩

end Whole

/-! ## Agreement -/

section Agreement

variable {loads : Codec} {c : Completion} {parts : List Part}

/-- What is not empty comes from somewhere. -/
theorem join_ne_empty {l : List String} (h : String.join l ≠ "") : ∃ s ∈ l, s ≠ "" := by
  induction l with
  | nil => exact absurd rfl h
  | cons a l ih =>
      by_cases ha : a = ""
      · rw [String.join_cons, ha, String.empty_append] at h
        obtain ⟨s, hs, hne⟩ := ih h
        exact ⟨s, List.mem_cons_of_mem _ hs, hne⟩
      · exact ⟨a, List.mem_cons_self .., ha⟩

/-- The parts of a response that was cut fit one after the other. -/
theorem IsCut.fits (h : IsCut c parts)
    (hobject : ∀ call ∈ c.calls, ∃ members, loads call.arguments = .value (.obj members)) :
    PartsFit loads c.calls [] parts := by
  intro before p after heq _
  rw [List.nil_append] at heq
  have horder := h.order
  rw [heq, List.pairwise_append] at horder
  have hprecedes : ∀ q ∈ before, q.Precedes p := fun q hq =>
    horder.2.2 q hq p (List.mem_cons_self ..)
  refine ⟨fun htext => ?_, fun hfrags => ?_, fun pre f post hsplit _ => ?_⟩
  · obtain ⟨_, ht, hne⟩ := join_ne_empty htext
    obtain ⟨q, hq, rfl⟩ := List.mem_map.mp ht
    exact (hprecedes q hq).1 hne
  · obtain ⟨f, hf⟩ := List.exists_mem_of_ne_nil _ hfrags
    obtain ⟨q, hq, hfq⟩ := List.mem_flatMap.mp hf
    exact (hprecedes q hq).2 (List.ne_nil_of_mem hfq)
  · have hall : fragmentsOf parts = pre ++ f :: (post ++ fragmentsOf after) := by
      have hcons :
        fragmentsOf parts = (fragmentsOf before ++ p.fragments) ++ fragmentsOf after := by
        rw [heq]
        simp [fragmentsOf]
      rw [hcons, hsplit, List.append_assoc]
      rfl
    have hcall : f.call ∈ c.calls := h.calls f (by rw [hall]; simp)
    refine ⟨hcall, h.follows pre f _ hall, ?_⟩
    obtain ⟨members, hmembers⟩ := hobject f.call hcall
    refine ⟨argumentsOf (post ++ fragmentsOf after) f.call, members, ?_⟩
    rw [← argumentsOf_append, List.append_assoc]
    change loads (argumentsOf (pre ++ f :: (post ++ fragmentsOf after)) f.call) = _
    rw [← hall, h.arguments f.call hcall]
    exact hmembers

/-- Every call is named. -/
theorem IsCut.perm (h : IsCut c parts) (hlaw : loads.Lawful) (hplain : c.Plain loads) :
    (namedOrder (fragmentsOf parts)).Perm c.calls := by
  have hnodup : c.calls.Nodup := List.Nodup.of_map _ hplain.ids
  rw [List.perm_ext_iff_of_nodup (nodup_namedOrder _) hnodup]
  intro call
  constructor
  · intro hmem
    obtain ⟨f, hf, _, rfl⟩ := (mem_namedOrder _).mp hmem
    exact h.calls f hf
  · intro hmem
    have hne : argumentsOf (fragmentsOf parts) call ≠ "" := by
      rw [h.arguments call hmem]
      intro hempty
      obtain ⟨members, hmembers⟩ := hplain.arguments call hmem
      rw [hempty] at hmembers
      exact hlaw.empty _ hmembers
    obtain ⟨_, hs, hne⟩ := join_ne_empty hne
    obtain ⟨f, hf, rfl⟩ := List.mem_map.mp hs
    obtain ⟨hf, hcall⟩ := List.mem_filter.mp hf
    obtain ⟨before, after, hsplit⟩ := List.append_of_mem hf
    have hnamed := (h.follows before f after hsplit).mem_named hne
    obtain ⟨g, hg, hgname, hgcall⟩ := (mem_namedOrder _).mp hnamed
    refine (mem_namedOrder _).mpr ⟨g, ?_, hgname, hgcall.trans (of_decide_eq_true hcall)⟩
    rw [hsplit]
    rcases List.mem_append.mp hg with hg | hg
    · exact List.mem_append_left _ hg
    · rw [List.mem_singleton.mp hg]
      exact List.mem_append_right _ (List.mem_cons_self ..)

/-- Before the first part nothing is spelled. -/
theorem partsInv_start (loads : Codec) (calls : List Call) (inputTokens : Option ℕ)
    (id model : String) (tokens : Json) :
    PartsInv loads calls [] (State.start inputTokens (.messageStart id model tokens)) := by
  refine Or.inl ⟨rfl, ⟨rfl, rfl, rfl, rfl, ⟨rfl, rfl, fun i => ?_⟩, fun i => rfl⟩, rfl, rfl, rfl⟩
  split_ifs <;> rfl

/-- Streaming a completion and converting it at once give the same content and the same
stop reason, the calls being listed in the order in which their names arrive. -/
theorem stream_agrees (hlaw : loads.Lawful) (hplain : c.Plain loads) (hcut : IsCut c parts)
    {source : Source} (hstream : IsStream loads parts source) {response : Obj}
    (hresponse : IsCompletion { c with calls := namedOrder (fragmentsOf parts) } response)
    (freshId : List Json → String) (uuid messageUuid : String) (callUuid : ℕ → String)
    (model : String) (inputTokens : Option ℕ) :
    (namedOrder (fragmentsOf parts)).Perm c.calls ∧ ∃ r,
      convertOpenaiToAnthropicResponse loads messageUuid callUuid response model inputTokens =
        some r ∧
      assemble loads (openaiStreamToAnthropicStream loads freshId uuid source model inputTokens) =
        some r.content ∧
      reportedStopReason (openaiStreamToAnthropicStream loads freshId uuid source
        model inputTokens) =
        some r.stopReason := by
  have hperm := hcut.perm hlaw hplain
  obtain ⟨r, hconvert, hcontent, hreason⟩ := convert_of_completion hresponse
    (fun call hcall => hplain.arguments call (hperm.mem_iff.mp hcall)) messageUuid callUuid model
    inputTokens
  refine ⟨hperm, r, hconvert, ?_⟩
  obtain ⟨chunks, raises⟩ := source
  obtain ⟨htext, rfl, hlines⟩ := hstream
  -- the chunks are handled part by part from the start of the message
  have hchunks : Triple (PartsInv loads c.calls []) (handleChunks loads freshId chunks)
      (fun r s => r = none ∧ PartsInv loads c.calls ([] ++ parts) s) (fun _ _ => False) :=
    handleChunks_of_parts hlaw ⟨hplain.ids, hplain.id, hplain.name⟩ htext hlines
      (hcut.fits hplain.arguments)
  have hrun := hchunks _ (partsInv_start loads c.calls inputTokens ("msg_" ++ uuid) model
    (inputTokens.elim (.num 0) fun n => .num n))
  -- then the stream is finished, for no error ended it
  have hevents : ∃ s, openaiStreamToAnthropicStream loads freshId uuid ⟨chunks, false⟩ model
      inputTokens = s.finish.events ∧ PartsInv loads c.calls parts s := by
    unfold openaiStreamToAnthropicStream handleSource
    simp only [exec_bind]
    revert hrun
    generalize (handleChunks loads freshId chunks).exec _ = outcome
    rcases outcome with ⟨_ | result, s⟩
    · exact fun hrun => hrun.elim
    · rintro ⟨rfl, hinv⟩
      exact ⟨s, rfl, hinv⟩
  obtain ⟨s, hs, hinv⟩ := hevents
  have hassemble := StreamInv.assemble hinv hlaw hplain.ids hcut.calls hcut.arguments
    hplain.arguments
  rw [hcut.reasoning, hcut.text, hcut.finishReason] at hassemble
  rw [hs, hassemble.1, hassemble.2, hcontent, hreason]
  refine ⟨rfl, ?_⟩
  cases c.finishReason <;> rfl

end Agreement

/-! ## Late names and blank ids -/

section Examples

/-- The line is an object with members, in braces. -/
structure ObjectLine (line : String) : Prop where
  head : line.toList.head? = some '{'
  last : line.toList.getLast? = some '}'
  oneLine : '\n' ∉ line.toList
  members : 2 < line.toList.length ∧ ¬ ['{', '}'] <+: line.toList

theorem ObjectLine.ne {line : String} (h : ObjectLine line) :
    line ≠ "" ∧ line ≠ "[DONE]" ∧ line ≠ "\x7b\x7d" := by
  refine ⟨?_, ?_, ?_⟩
  · rintro rfl
    cases h.head
  · rintro rfl
    exact absurd h.head (by decide)
  · rintro rfl
    exact absurd h.members.1 (by decide)

/-- A line of its own gives its text. -/
theorem payloads_data {line : String} (h : ObjectLine line) :
    payloads ("data: " ++ line) = [line] := by
  have hne := h.ne
  have hcs : line.toList ≠ [] := fun h => hne.1 (String.toList_eq_nil_iff.mp h)
  have hhead : ∀ c ∈ line.toList.head?, isSpace c = false := by
    rw [h.head]
    rintro c ⟨⟩
    decide
  have hlast : ∀ c ∈ line.toList.getLast?, isSpace c = false := by
    rw [h.last]
    rintro c ⟨⟩
    decide
  -- stripping the line changes nothing: it begins with `d` and ends with a brace
  have hdata : ((("data: ".toList ++ line.toList).dropWhile isSpace).reverse.dropWhile
      isSpace).reverse = "data: ".toList ++ line.toList := by
    refine strip_chars (fun c hc => ?_) fun c hc => ?_
    · obtain rfl : 'd' = c := Option.some.inj hc
      decide
    · rw [List.getLast?_append_of_ne_nil _ hcs] at hc
      exact hlast c hc
  -- it is one line
  have hsplit :
    ("data: ".toList ++ line.toList).splitOn '\n' = ["data: ".toList ++ line.toList] := by
    refine List.splitOn_eq_singleton ?_
    rw [List.mem_append]
    rintro (hmem | hmem)
    · revert hmem
      decide
    · exact h.oneLine hmem
  have hrest : ((((' ' :: line.toList).dropWhile isSpace).reverse.dropWhile isSpace).reverse) =
      line.toList := by
    rw [List.dropWhile_cons, if_pos (by decide)]
    exact strip_chars hhead hlast
  have hprefix : "data:".toList <+: "data: ".toList ++ line.toList := ⟨' ' :: line.toList, rfl⟩
  have hdrop : ("data: ".toList ++ line.toList).drop 5 = ' ' :: line.toList := rfl
  have hline : String.ofList ("data: ".toList ++ line.toList) ≠ "" := by
    intro h
    have hnil := congrArg String.toList h
    rw [String.toList_ofList] at hnil
    cases hnil
  simp only [payloads, payload, strip, lstrip, rstrip, String.toList_ofList, String.toList_append,
    hdata, hsplit, List.filterMap_cons, List.filterMap_nil, hdrop, hrest, String.ofList_toList]
  rw [if_pos ⟨hline, hprefix⟩, if_neg (by simp [hne])]

/-- A codec that knows one line, and `{}`. -/
def lineCodec (line : String) (chunk : Obj) : Codec := fun text =>
  if text = "\x7b\x7d" then .value (.obj []) else if text = line then .value (.obj chunk)
    else .decodeError

theorem lineCodec_line {line : String} (h : ObjectLine line) (chunk : Obj) :
    lineCodec line chunk line = .value (.obj chunk) := by
  rw [lineCodec, if_neg h.ne.2.2, if_pos rfl]

/-- The codec of one line reads no other text, so it is lawful. -/
theorem lineCodec_lawful {line : String} (h : ObjectLine line) (chunk : Obj) :
    (lineCodec line chunk).Lawful := by
  have hblank : ("" : String) ≠ line := h.ne.1.symm
  refine ⟨fun v => ?_, fun s t members hwhole => ?_⟩
  · simp [lineCodec, hblank]
  · unfold lineCodec at hwhole ⊢
    by_cases hs : s = "\x7b\x7d"
    · subst hs
      rw [if_pos rfl]
      refine ⟨by simp, fun v hv => ?_⟩
      obtain rfl := Loaded.value.inj hv
      split_ifs at hwhole with hbraces hwholeLine
      · exact Loaded.value.inj hwhole
      · exact absurd ⟨t.toList, by rw [← hwholeLine, String.toList_append]; rfl⟩ h.members.2
    · rw [if_neg hs]
      by_cases hsLine : s = line
      · subst hsLine
        rw [if_pos rfl]
        refine ⟨by simp, fun v hv => ?_⟩
        obtain rfl := Loaded.value.inj hv
        split_ifs at hwhole with hbraces hwholeLine
        · have hlength := congrArg (List.length ∘ String.toList) hbraces
          have hmembers := h.members.1
          simp only [Function.comp, String.toList_append, List.length_append] at hlength
          have htwo : ("\x7b\x7d" : String).toList.length = 2 := rfl
          omega
        · exact Loaded.value.inj hwhole
      · rw [if_neg hsLine]
        exact ⟨by simp, fun v hv => by cases hv⟩

def functionJson (name : String) : Json :=
    .obj [("name", .str name), ("arguments", .str "\x7b\x7d")]

def callJson (call : Call) : Json :=
  .obj [("id", .str call.id), ("type", .str "function"), ("function", functionJson call.name)]

/-- The response with these calls alone. -/
def callsResponse (calls : List Call) : Obj :=
  [("choices", .arr [.obj [("message", .obj [("role", .str "assistant"), ("content", .null),
    ("tool_calls", .arr (calls.map callJson))]), ("finish_reason", .str "tool_calls")]])]

def callsChunk (toolCalls : List Json) : Obj :=
  [("choices", .arr [.obj [("delta", .obj [("tool_calls", .arr toolCalls)]),
    ("finish_reason", .str "tool_calls")]])]

def callsCompletion (calls : List Call) : Completion := ⟨"", "", calls, some "tool_calls"⟩

def callsPart (frags : List Fragment) : Part := ⟨"", "", frags, some "tool_calls"⟩

theorem callsResponse_of {calls : List Call} (h : ∀ call ∈ calls, call.arguments = "\x7b\x7d") :
    IsCompletion (callsCompletion calls) (callsResponse calls) := by
  have hcalls : List.Forall₂ IsCall calls (calls.map callJson) := by
    induction calls with
    | nil => exact .nil
    | cons call calls ih =>
        refine .cons ⟨_, _, rfl, rfl, rfl, rfl, ?_⟩ (ih fun c hc => h c (List.mem_cons_of_mem _ hc))
        rw [h call (List.mem_cons_self ..)]
        rfl
  refine ⟨⟨_, _, _, rfl, rfl, ⟨Or.inr ⟨rfl, rfl⟩, ?_, Or.inr ⟨rfl, rfl⟩, Or.inl ⟨_, rfl, hcalls⟩⟩,
    rfl⟩, rfl⟩
  intro key hkey
  simp only [List.mem_cons, List.not_mem_nil, or_false] at hkey
  rcases hkey with rfl | rfl | rfl <;> rfl

theorem callsChunk_of {frags : List Fragment} {xs : List Json}
    (h : List.Forall₂ IsFragment frags xs) : IsChunk (callsPart frags) (callsChunk xs) := by
  refine ⟨rfl, fun usage husage => (by cases husage), Or.inl ⟨_, _, _, rfl, rfl, rfl,
    ⟨Or.inr ⟨rfl, rfl⟩, ?_, Or.inr ⟨rfl, rfl⟩, Or.inl ⟨xs, rfl, h⟩⟩, rfl⟩⟩
  intro key hkey
  simp only [List.mem_cons, List.not_mem_nil, or_false] at hkey
  rcases hkey with rfl | rfl | rfl <;> rfl

instance (before : List Fragment) (f : Fragment) : Decidable (Follows before f) :=
  decidable_of_iff ((f.id = f.call.id ∨ f.id = "" ∧ callAt before f.index = some f.call) ∧
    (f.name = f.call.name ∨ f.name = "") ∧
    (f.arguments ≠ "" → f.name ≠ "" ∨ f.call ∈ namedOrder before))
    ⟨fun h => ⟨h.1, h.2.1, h.2.2⟩, fun h => ⟨h.id, h.name, h.named⟩⟩

/-- Whether fragments follow those before can be checked one by one. -/
theorem follows_of_take (frags : List Fragment)
    (h : ∀ i : Fin frags.length, Follows (frags.take i) frags[i]) :
    ∀ before f after, frags = before ++ f :: after → Follows before f := by
  rintro before f after rfl
  simpa using h ⟨before.length, by simp⟩

def callA : Call := ⟨"a", "f", "\x7b\x7d"⟩
def callB : Call := ⟨"b", "g", "\x7b\x7d"⟩

/-- `a` comes first and is named last. -/
def lateFragments : List Fragment :=
  [⟨callA, 0, "a", "", ""⟩, ⟨callB, 1, "b", "g", "\x7b\x7d"⟩, ⟨callA, 0, "", "f", "\x7b\x7d"⟩]

def lateJson : List Json :=
  [.obj [("index", .num 0), ("id", .str "a")],
    .obj [("index", .num 1), ("id", .str "b"), ("function", functionJson "g")],
    .obj [("index", .num 0), ("function", functionJson "f")]]

def lateHead : String :=
  "\x7b\"choices\": [\x7b\"delta\": \x7b\"tool_calls\": [\x7b\"index\": 0, \"id\": \"a\"\x7d, "

def lateMiddle : String :=
  "\x7b\"index\": 1, \"id\": \"b\", \"function\": \x7b\"name\": \"g\", \"arguments\": \"\x7b\x7d\"\x7d\x7d, "

def lateTail : String :=
  "\x7b\"index\": 0, \"function\": \x7b\"name\": \"f\", \"arguments\": \"\x7b\x7d\"\x7d\x7d]\x7d, "

def finishTail : String := "\"finish_reason\": \"tool_calls\"\x7d]\x7d"

def lateLine : String := lateHead ++ (lateMiddle ++ (lateTail ++ finishTail))

def lateCodec : Codec := lineCodec lateLine (callsChunk lateJson)

def lateSource : Source := ⟨[.text ("data: " ++ lateLine)], false⟩

set_option maxRecDepth 8000 in
theorem lateLine_object : ObjectLine lateLine := by
  have hhead : lateHead = String.ofList _ := rfl
  have hmiddle : lateMiddle = String.ofList _ := rfl
  have htail : lateTail = String.ofList _ := rfl
  have hfinish : finishTail = String.ofList _ := rfl
  constructor <;> rw [lateLine, String.toList_append, String.toList_append, String.toList_append,
    hhead, hmiddle, htail, hfinish, String.toList_ofList, String.toList_ofList,
    String.toList_ofList, String.toList_ofList] <;> decide +kernel

theorem lateFragments_json : List.Forall₂ IsFragment lateFragments lateJson := by
  refine .cons ⟨_, [], rfl, ?_, Or.inl rfl, rfl, Or.inl rfl, Or.inl rfl⟩
    (.cons ⟨_, _, rfl, ?_, Or.inl rfl, rfl, Or.inl rfl, Or.inl rfl⟩
      (.cons ⟨_, _, rfl, ?_, Or.inl rfl, rfl, Or.inl rfl, Or.inl rfl⟩ .nil)) <;> decide +kernel

theorem lateStream : IsStream lateCodec [callsPart lateFragments] lateSource := by
  refine ⟨fun chunk hchunk => ?_, rfl, ?_⟩
  · rw [List.mem_singleton.mp hchunk]
    rintro ⟨⟩
  · have hlines : lateSource.payloads = [lateLine] := by
      simpa [Source.payloads, lateSource] using payloads_data lateLine_object
    rw [hlines]
    exact .cons ⟨_, lineCodec_line lateLine_object _, callsChunk_of lateFragments_json⟩ .nil

theorem lateCut : IsCut (callsCompletion [callA, callB]) [callsPart lateFragments] := by
  refine ⟨by simp, rfl, rfl, rfl, ?_, ?_, ?_⟩
  · change ∀ f ∈ lateFragments, f.call ∈ [callA, callB]
    decide
  · exact follows_of_take lateFragments (by decide)
  · change ∀ call ∈ [callA, callB], argumentsOf (lateFragments ++ []) call = call.arguments
    decide

theorem lateCodec_lawful : lateCodec.Lawful :=
  lineCodec_lawful lateLine_object _

theorem latePlain : (callsCompletion [callA, callB]).Plain lateCodec := by
  refine ⟨by decide, by decide, by decide, fun call hcall => ⟨[], ?_⟩⟩
  have harguments : ∀ call ∈ [callA, callB], call.arguments = "\x7b\x7d" := by decide
  rw [harguments call hcall]
  rfl

/-- The two calls come in the order of their names. -/
theorem stream_agrees_late : (namedOrder (fragmentsOf [callsPart lateFragments])).Perm
      [callA, callB] ∧ ∃ r,
    convertOpenaiToAnthropicResponse lateCodec "m" (fun _ => "c") (callsResponse [callB, callA])
        "gpt" none = some r ∧
      assemble lateCodec (openaiStreamToAnthropicStream lateCodec longerId "m"
        lateSource "gpt" none) =
        some r.content ∧
      reportedStopReason
        (openaiStreamToAnthropicStream lateCodec longerId "m" lateSource "gpt" none) =
          some r.stopReason := by
  have horder : namedOrder (fragmentsOf [callsPart lateFragments]) = [callB, callA] := by decide
  have hresponse : IsCompletion { callsCompletion [callA, callB] with
      calls := namedOrder (fragmentsOf [callsPart lateFragments]) }
        (callsResponse [callB, callA]) := by
    rw [horder]
    exact callsResponse_of (by decide)
  exact stream_agrees lateCodec_lawful latePlain lateCut lateStream hresponse longerId "m" "m"
    (fun _ => "c") "gpt" none

def blankCall : Call := ⟨"", "f", "\x7b\x7d"⟩

def blankHead : String :=
  "\x7b\"choices\": [\x7b\"delta\": \x7b\"tool_calls\": [\x7b\"index\": 0, \"id\": \"\", "

def blankTail : String :=
    "\"function\": \x7b\"name\": \"f\", \"arguments\": \"\x7b\x7d\"\x7d\x7d]\x7d, "

def blankLine : String := blankHead ++ (blankTail ++ finishTail)

def blankJson : List Json :=
  [.obj [("index", .num 0), ("id", .str ""), ("function", functionJson "f")]]

def blankFragments : List Fragment := [⟨blankCall, 0, "", "f", "\x7b\x7d"⟩]

def blankCodec : Codec := lineCodec blankLine (callsChunk blankJson)

def blankSource : Source := ⟨[.text ("data: " ++ blankLine)], false⟩

set_option maxRecDepth 8000 in
theorem blankLine_object : ObjectLine blankLine := by
  have hhead : blankHead = String.ofList _ := rfl
  have htail : blankTail = String.ofList _ := rfl
  have hfinish : finishTail = String.ofList _ := rfl
  constructor <;> rw [blankLine, String.toList_append, String.toList_append, hhead, htail,
    hfinish, String.toList_ofList, String.toList_ofList, String.toList_ofList] <;> decide +kernel

theorem blankFragments_json : List.Forall₂ IsFragment blankFragments blankJson := by
  refine .cons ⟨_, _, rfl, ?_, Or.inl rfl, rfl, Or.inl rfl, Or.inl rfl⟩ .nil
  decide +kernel

theorem blankStream : IsStream blankCodec [callsPart blankFragments] blankSource := by
  refine ⟨fun chunk hchunk => ?_, rfl, ?_⟩
  · rw [List.mem_singleton.mp hchunk]
    rintro ⟨⟩
  · have hlines : blankSource.payloads = [blankLine] := by
      simpa [Source.payloads, blankSource] using payloads_data blankLine_object
    rw [hlines]
    exact .cons ⟨_, lineCodec_line blankLine_object _, callsChunk_of blankFragments_json⟩ .nil

theorem blankCut : IsCut (callsCompletion [blankCall]) [callsPart blankFragments] := by
  refine ⟨by simp, rfl, rfl, rfl, ?_, ?_, ?_⟩
  · change ∀ f ∈ blankFragments, f.call ∈ [blankCall]
    decide
  · exact follows_of_take blankFragments (by decide)
  · change ∀ call ∈ [blankCall], argumentsOf (blankFragments ++ []) call = call.arguments
    decide

/-- The events of a stream whose only line has been read. -/
theorem stream_of_line {loads : Codec} {text line : String} {chunk : Obj}
    (h : payloads text = [line]) (hloads : loads line = .value (.obj chunk))
    (freshId : List Json → String) (uuid model : String) (inputTokens : Option ℕ) :
    openaiStreamToAnthropicStream loads freshId uuid ⟨[.text text], false⟩ model inputTokens =
      match (handleData loads freshId (.obj chunk)).exec (State.start inputTokens (.messageStart
        ("msg_" ++ uuid) model (inputTokens.elim (.num 0) fun n => .num n))) with
      | (.error _, s) => (s.yield (.error failedMessage)).events
      | (.ok (some message), s) => (s.yield (.error message)).events
      | (.ok none, s) => s.finish.events := by
  unfold openaiStreamToAnthropicStream handleSource
  simp only [exec_bind, handleChunks, h, handlePayloads, handlePayload, hloads]
  rcases (handleData loads freshId (.obj chunk)).exec _ with ⟨_ | _ | _, _⟩ <;> rfl

/-- A call that is named late comes late, and a blank id is replaced. -/
theorem stream_disagrees :
    (lateCodec.Lawful ∧ (callsCompletion [callA, callB]).Plain lateCodec ∧
      IsCut (callsCompletion [callA, callB]) [callsPart lateFragments] ∧
      IsStream lateCodec [callsPart lateFragments] lateSource ∧
      IsCompletion (callsCompletion [callA, callB]) (callsResponse [callA, callB]) ∧
      assemble lateCodec
          (openaiStreamToAnthropicStream lateCodec longerId "m" lateSource "gpt" none) ≠
        (convertOpenaiToAnthropicResponse lateCodec "m" (fun _ => "c")
          (callsResponse [callA, callB]) "gpt" none).map Response.content) ∧
    blankCodec.Lawful ∧ IsCut (callsCompletion [blankCall]) [callsPart blankFragments] ∧
      IsStream blankCodec [callsPart blankFragments] blankSource ∧
      IsCompletion (callsCompletion [blankCall]) (callsResponse [blankCall]) ∧
      assemble blankCodec
          (openaiStreamToAnthropicStream blankCodec longerId "m" blankSource "gpt" none) ≠
        (convertOpenaiToAnthropicResponse blankCodec "m" (fun _ => "c")
          (callsResponse [blankCall]) "gpt" none).map Response.content := by
  refine ⟨⟨lateCodec_lawful, latePlain, lateCut, lateStream, callsResponse_of (by decide), ?_⟩,
    lineCodec_lawful blankLine_object _, blankCut, blankStream,
    callsResponse_of (by decide), ?_⟩
  · rw [lateSource, lateCodec,
      stream_of_line (payloads_data lateLine_object) (lineCodec_line lateLine_object _)]
    decide +kernel
  · rw [blankSource, blankCodec,
      stream_of_line (payloads_data blankLine_object) (lineCodec_line blankLine_object _)]
    decide +kernel

end Examples

end OpenWebUI.Anthropic
