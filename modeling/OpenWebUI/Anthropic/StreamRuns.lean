import Mathlib.Algebra.Order.BigOperators.Group.List
import Mathlib.Algebra.Order.Group.Nat
import OpenWebUI.Anthropic.StreamInvariant

/-! # Every stream is well formed

Each part of the loop keeps the invariant, and leaves events that an error may close
when it raises. At the end of the stream the closing branches stop what is still live.
-/

namespace OpenWebUI.Anthropic

open Py Program

section Turns

variable {loads : Codec} {freshId : List Json → String} {key : Json}

/-- What holds while a delta's tool calls are read, but for the tool in hand. -/
def Reading (key : Option Json) (s : State) : Prop := Inv s ∧ Closed s ∧ NamedBut key s

/-- Between two calls the state is ready for the next chunk. -/
theorem Reading.ready {s : State} (h : Reading none s) : Ready s := ⟨h.1, h.2.2⟩

/-- If every named tool has started, no exception is needed. -/
theorem NamedBut.weaken {s : State} (h : NamedBut none s) : NamedBut (some key) s :=
  fun k tool _ => h k tool (Option.some_ne_none k)

/-- A stream that raises has sent well-formed events up to there. -/
theorem failed_of_inv {s : State} (h : Inv s) : Failed () s := h.begun

/-- Another tool's name is not touched. -/
theorem NamedBut.setTool {s : State} (h : NamedBut (some key) s) (tool : Tool) :
    NamedBut (some key) (s.setTool key tool) := by
  intro k t hk ht
  rw [get?_setTool, if_neg (fun heq => hk (congrArg _ heq))] at ht
  exact h k t hk ht

/-- The exception is lifted when the tool has started, or has no name yet. -/
theorem NamedBut.setTool_none {s : State} (h : NamedBut (some key) s) {tool : Tool}
    (hnamed : tool.name.truthy = true → tool.started = true) :
    NamedBut none (s.setTool key tool) := by
  intro k t _ ht hname
  rw [get?_setTool] at ht
  split_ifs at ht with hk
  · obtain rfl := Option.some.inj ht
    exact hnamed hname
  · exact h k t (fun heq => hk (Option.some.inj heq)) ht hname

/-! ## Tool calls -/

/-- A call finds its tool or makes one with an id that no tool has. -/
theorem resolveTool_spec (hfresh : ∀ used, Json.str (freshId used) ∉ used) (index id name : Json) :
    Triple (Reading none) (resolveTool freshId index id name)
      (fun key => Reading (some key)) Failed := by
  have hfail : ∀ s, Reading none s → Failed () s := fun s hs => failed_of_inv hs.1
  refine triple_ite (fun _ => ?_) fun _ => ?_
  · refine ofOption_bind hfail fun key _ => ?_
    refine triple_bind (Q := fun _ => Reading (some key)) (triple_modify ?_) fun _ => ?_
    · rintro s ⟨hinv, hclosed, hnamed⟩
      split_ifs with hmem
      · exact ⟨hinv, hclosed, hnamed.weaken⟩
      · exact ⟨hinv.addTool ((Dict.get?_eq_none_iff ..).mpr hmem) rfl rfl, hclosed,
          hnamed.weaken.setTool _⟩
    · refine ofOption_bind (fun s hs => failed_of_inv hs.1) fun indexKey _ => ?_
      refine triple_bind (triple_modify ?_) fun _ => triple_pure _ fun _ hs => hs
      exact fun s hs => ⟨hs.1.frame rfl rfl rfl rfl rfl, hs.2⟩
  · refine ofOption_bind hfail fun indexKey _ => triple_get_bind fun s hs => ?_
    obtain ⟨hinv, hclosed, hnamed⟩ := hs
    cases s.indexToToolId.get? indexKey with
    | some key => exact triple_pure _ fun _ hs => hs ▸ ⟨hinv, hclosed, hnamed.weaken⟩
    | none =>
        refine triple_set_bind (triple_pure _ ?_)
        rintro _ rfl
        have hnew := (Dict.get?_eq_none_iff s.trackedToolCalls _).mpr
          (hfresh s.trackedToolCalls.keys)
        exact ⟨(hinv.addTool hnew rfl rfl).frame rfl rfl rfl rfl rfl, hclosed,
          hnamed.weaken.setTool _⟩

/-- A new name changes neither the state of a tool nor its block. -/
theorem rename_spec (tool : Tool) (name : Json) : (tool.rename name).started = tool.started ∧
    (tool.rename name).stopped = tool.stopped ∧
      (tool.rename name).blockIndex = tool.blockIndex := by
  unfold Tool.rename
  split_ifs <;> exact ⟨rfl, rfl, rfl⟩

/-- A tool that starts closes the prose and opens its block. -/
theorem Reading.startTool {s : State} (h : Reading (some key) s) {tool : Tool}
    (hget : s.trackedToolCalls.get? key = some tool) (name : Json) :
    Reading none (s.startTool key (tool.rename name)) := by
  obtain ⟨hinv, hclosed, hnamed⟩ := h
  obtain ⟨hstarted, hstopped, hindex⟩ := rename_spec tool name
  refine ⟨hinv.startTool hclosed hget hstarted hstopped hindex, ?_, ?_⟩
  · unfold State.startTool
    split_ifs <;> exact hclosed
  · unfold State.startTool
    split_ifs with hcond
    · exact hnamed.setTool_none fun _ => rfl
    · refine hnamed.setTool_none fun hname => ?_
      rw [hname, Bool.and_true] at hcond
      simpa using hcond

/-- Arguments are written to the open block of their tool. -/
theorem Reading.appendArguments {s : State} (h : Reading none s) {tool : Tool}
    (hget : s.trackedToolCalls.get? key = some tool) (chunk : String) :
    Reading none (s.appendArguments key tool chunk) := by
  obtain ⟨hinv, hclosed, hnamed⟩ := h
  have hset : Inv (s.setTool key { tool with arguments := tool.arguments ++ chunk }) :=
    hinv.setTool hget rfl rfl rfl
  have hname : NamedBut none (s.setTool key { tool with arguments := tool.arguments ++ chunk }) :=
    hnamed.weaken.setTool_none (hnamed key tool (Option.some_ne_none key) hget)
  unfold State.appendArguments
  split_ifs with hcond
  · simp only [Bool.and_eq_true, Bool.not_eq_true'] at hcond
    have hget' :
      (s.setTool key { tool with arguments := tool.arguments ++ chunk }).trackedToolCalls.get?
        key = some { tool with arguments := tool.arguments ++ chunk } := Dict.get?_set_self ..
    have hlive := hset.tool_live hget' hcond
    exact ⟨hset.delta hlive _, hclosed, hname⟩
  · exact ⟨hset, hclosed, hname⟩

/-- Arguments are kept with their tool. -/
theorem get?_appendArguments (s : State) (key : Json) (tool : Tool) (chunk : String) :
    (s.appendArguments key tool chunk).trackedToolCalls.get? key =
      some { tool with arguments := tool.arguments ++ chunk } := by
  unfold State.appendArguments
  split_ifs <;> exact Dict.get?_set_self ..

/-- A tool is stopped once, when its arguments are complete. -/
theorem stopTool_spec (tool : Tool) :
    Triple (fun s => Reading none s ∧ s.trackedToolCalls.get? key = some tool)
      (stopTool loads key tool) (fun _ => Reading none) Failed := by
  refine triple_ite (fun hcond => ?_) fun _ => triple_pure _ fun _ hs => hs.1
  simp only [Bool.and_eq_true, Bool.not_eq_true'] at hcond
  cases loads tool.arguments with
  | value v =>
      refine triple_modify ?_
      rintro s ⟨⟨hinv, hclosed, hnamed⟩, hget⟩
      exact ⟨hinv.stopTool hget hcond.1, hclosed, hnamed.weaken.setTool_none fun _ => hcond.1.1⟩
  | otherError => exact triple_throw _ fun s hs => failed_of_inv hs.1.1
  | decodeError | valueError => exact triple_pure _ fun _ hs => hs.1

/-- Arguments are written to a tool that has started and not stopped. -/
theorem handleArguments_spec (arguments : Json) : Triple (Reading none)
    (handleArguments loads key arguments) (fun _ => Reading none) Failed := by
  refine triple_ite (fun _ => triple_get_bind fun s hs => ?_) fun _ => triple_pure _ fun _ hs => hs
  have hfail : ∀ s', s' = s → Failed () s' := fun _ heq => heq ▸ failed_of_inv hs.1
  refine ofOption_bind hfail fun tool hget => ofOption_bind hfail fun chunk _ => ?_
  refine triple_set_bind ((stopTool_spec _).mono ?_ (fun _ _ h => h) fun _ _ h => h)
  rintro _ rfl
  exact ⟨hs.appendArguments hget chunk, get?_appendArguments ..⟩

/-- One call: its tool is found, named, started and written to. -/
theorem handleToolCall_spec (hfresh : ∀ used, Json.str (freshId used) ∉ used) (toolCall : Json) :
    Triple (Reading none) (handleToolCall loads freshId toolCall) (fun _ => Reading none)
      Failed := by
  have hfail : ∀ s, Reading none s → Failed () s := fun s hs => failed_of_inv hs.1
  refine ofOption_bind hfail fun call _ => ofOption_bind hfail fun function _ => ?_
  refine triple_bind (resolveTool_spec hfresh _ _ _) fun key => triple_get_bind fun s hs => ?_
  refine ofOption_bind (fun _ heq => heq ▸ failed_of_inv hs.1) fun tool hget => ?_
  refine triple_set_bind ((handleArguments_spec _).mono ?_ (fun _ _ h => h) fun _ _ h => h)
  rintro _ rfl
  exact hs.startTool hget _

/-- The calls of a delta, one after the other. -/
theorem handleToolCalls_spec (hfresh : ∀ used, Json.str (freshId used) ∉ used) (toolCalls : Json) :
    Triple Ready (handleToolCalls loads freshId toolCalls) (fun _ => Ready) Failed := by
  refine triple_ite (fun _ => ?_) fun _ => triple_pure _ fun _ hs => hs
  refine triple_bind (Q := fun _ => Reading none) (triple_modify ?_) fun _ => ?_
  · rintro s ⟨hinv, hnamed⟩
    obtain ⟨hthinking, hclosed⟩ := hinv.closeThinking
    obtain ⟨hinv', hclosed'⟩ := hthinking.closeText hclosed
    refine ⟨hinv', hclosed', ?_⟩
    intro k tool hk
    rw [closeText_tools, closeThinking_tools]
    exact hnamed k tool hk
  · refine ofOption_bind (fun s hs => failed_of_inv hs.1) fun calls _ => ?_
    exact (triple_forM calls fun call _ => handleToolCall_spec hfresh call).mono
      (fun _ hs => hs) (fun _ _ hs => hs.ready) fun _ _ h => h

/-! ## Chunks -/

/-- Reasoning and content leave the tools as they are. -/
theorem Ready.prose {s : State} (h : Ready s) (reasoning content : Json) :
    Ready ((s.think reasoning).write content) := by
  refine ⟨(h.1.think reasoning).write content, ?_⟩
  intro k tool hk
  rw [write_tools, think_tools]
  exact h.2 k tool hk

theorem ready_failed (s : State) (h : Ready s) : Failed () s := failed_of_inv h.1

/-- Usage is only remembered. -/
theorem handleUsage_spec (data : Obj) :
    Triple Ready (handleUsage data) (fun _ => Ready) Failed := by
  unfold handleUsage
  split
  · refine ofOption_bind ready_failed fun _ _ => triple_modify ?_
    exact fun s hs => ⟨hs.1.frame rfl rfl rfl rfl rfl, hs.2⟩
  · exact triple_pure _ fun _ hs => hs

/-- A finish reason is only remembered. -/
theorem handleFinishReason_spec (reason : Json) :
    Triple Ready (handleFinishReason reason) (fun _ => Ready) Failed := by
  refine triple_ite (fun _ => triple_pure _ fun _ hs => hs) fun _ => ?_
  refine ofOption_bind ready_failed fun _ _ => triple_modify ?_
  exact fun s hs => ⟨hs.1.frame rfl rfl rfl rfl rfl, hs.2⟩

/-- A choice: prose first, then calls, then the reason. -/
theorem handleChoice_spec (hfresh : ∀ used, Json.str (freshId used) ∉ used) (choice : Obj) :
    Triple Ready (handleChoice loads freshId choice) (fun _ => Ready) Failed := by
  refine ofOption_bind ready_failed fun delta _ => ofOption_bind ready_failed fun reasoning _ => ?_
  refine triple_bind (Q := fun _ => Ready) (triple_modify fun s hs => hs.prose _ _) fun _ => ?_
  refine ofOption_bind ready_failed fun toolCalls _ => ?_
  exact triple_bind (handleToolCalls_spec hfresh toolCalls) fun _ => handleFinishReason_spec _

/-- A chunk is an error, a choice or usage. -/
theorem handleData_spec (hfresh : ∀ used, Json.str (freshId used) ∉ used) (data : Json) :
    Triple Ready (handleData loads freshId data) (fun _ => Ready) Failed := by
  refine ofOption_bind ready_failed fun data _ => triple_ite (fun _ => triple_pure _ fun _ hs => hs)
    fun _ => triple_bind (handleUsage_spec data) fun _ =>
      triple_ite (fun _ => triple_pure _ fun _ hs => hs) fun _ => ?_
  split
  · exact triple_bind (handleChoice_spec hfresh _) fun _ => triple_pure _ fun _ hs => hs
  · exact triple_throw _ ready_failed

/-- The payloads of a chunk, one after the other. -/
theorem handlePayloads_spec (hfresh : ∀ used, Json.str (freshId used) ∉ used) (l : List String) :
    Triple Ready (handlePayloads loads freshId l) (fun _ => Ready) Failed := by
  induction l with
  | nil => exact triple_pure _ fun _ hs => hs
  | cons dataString rest ih =>
      refine triple_bind (Q := fun _ => Ready) ?_ fun result => ?_
      · unfold handlePayload
        cases loads dataString with
        | value data => exact handleData_spec hfresh data
        | decodeError => exact triple_pure _ fun _ hs => hs
        | valueError | otherError => exact triple_throw _ ready_failed
      · cases result with
        | some message => exact triple_pure _ fun _ hs => hs
        | none => exact ih

/-- The chunks of a source, one after the other. -/
theorem handleChunks_spec (hfresh : ∀ used, Json.str (freshId used) ∉ used) (l : List Chunk) :
    Triple Ready (handleChunks loads freshId l) (fun _ => Ready) Failed := by
  induction l with
  | nil => exact triple_pure _ fun _ hs => hs
  | cons chunk rest ih =>
      cases chunk with
      | other => exact triple_throw _ ready_failed
      | text s =>
          rw [handleChunks]
          -- the lines stay unread
          generalize payloads s = lines
          refine triple_bind (handlePayloads_spec hfresh lines) fun result => ?_
          cases result with
          | some message => exact triple_pure _ fun _ hs => hs
          | none => exact ih

/-- A source ends or raises; either way the state is ready. -/
theorem handleSource_spec (hfresh : ∀ used, Json.str (freshId used) ∉ used) (source : Source) :
    Triple Ready (handleSource loads freshId source) (fun _ => Ready) Failed := by
  unfold handleSource
  refine triple_bind (handleChunks_spec hfresh source.chunks) fun result => ?_
  cases result with
  | some message => exact triple_pure _ fun _ hs => hs
  | none =>
      refine triple_ite (fun _ => triple_throw _ ready_failed) fun _ => ?_
      exact triple_pure _ fun _ hs => hs

end Turns

/-! ## The end of the stream -/

section Finish

variable {s : State}

/-- What the closing branches need: every named tool is started, and no text block is open
together with a thinking block. -/
theorem Ready.endThinking (h : Ready s) : Begun s.endThinking.events ∧
    s.endThinking.trackedToolCalls = s.trackedToolCalls ∧
    s.endThinking.textBlockOpen = s.textBlockOpen ∧
    (s.textBlockOpen = true → s.endThinking.currentBlockIndex = s.currentBlockIndex) ∧
    ∀ i, Live s.endThinking.events i ↔
      (s.textBlockOpen = true ∧ i = s.currentBlockIndex) ∨ s.ToolAt i := by
  obtain ⟨hinv, _⟩ := h
  unfold State.endThinking
  split_ifs with hopen
  · have hprose : s.proseOpen = true := by
      rw [State.proseOpen, hopen]
      rfl
    have htext := hinv.exclusive hopen
    refine ⟨hinv.begun.stop (hinv.prose_live hprose), rfl, rfl, ?_, ?_⟩
    · rw [htext]
      rintro ⟨⟩
    · intro i
      refine live_stop.trans ?_
      rw [hinv.live i, htext]
      constructor
      · rintro ⟨⟨_, hi⟩ | htool, hne⟩
        · exact absurd hi hne
        · exact Or.inr htool
      · rintro (⟨hfalse, _⟩ | htool)
        · cases hfalse
        · obtain ⟨key, tool, hget, hstate, rfl⟩ := htool
          exact ⟨Or.inr ⟨key, tool, hget, hstate, rfl⟩, (hinv.below key tool hget hstate.1).ne⟩
  · refine ⟨hinv.begun, rfl, rfl, fun _ => rfl, fun i => ?_⟩
    rw [hinv.live i, State.proseOpen, Bool.eq_false_iff.mpr hopen]
    rfl

/-- Nothing is left to flush: a tool with a name has been started. -/
theorem NamedBut.flush (h : NamedBut none s) (keys : List Json) :
    keys.foldl State.flushTool s = s := by
  induction keys with
  | nil => rfl
  | cons key keys ih =>
      rw [List.foldl_cons]
      suffices hkey : s.flushTool key = s by rw [hkey, ih]
      unfold State.flushTool
      cases hget : s.trackedToolCalls.get? key with
      | none => rfl
      | some tool =>
          have hcond : ¬ (!tool.started && tool.name.truthy) = true := by
            intro hcond
            simp only [Bool.and_eq_true, Bool.not_eq_true'] at hcond
            rw [h key tool (Option.some_ne_none key) hget] at hcond
            · cases hcond.1
            · exact hcond.2
          exact if_neg hcond

/-- The tools' blocks are stopped in the order the tools were tracked. -/
theorem endTools_spec (tools : List (Json × Tool)) (hnodup : (Assoc.keys tools).Nodup)
    (hbegun : Begun s.events)
    (hlive : ∀ i, Live s.events i ↔ ∃ p ∈ tools, p.2.Open ∧ p.2.blockIndex = i)
    (hdistinct : ∀ p ∈ tools, ∀ q ∈ tools, p.2.started = true → q.2.started = true →
      p.2.blockIndex = q.2.blockIndex → p.1 = q.1) :
    Begun ((tools.map Prod.snd).foldl State.endTool s).events ∧
      ∀ i, ¬ Live ((tools.map Prod.snd).foldl State.endTool s).events i := by
  induction tools generalizing s with
  | nil => exact ⟨hbegun, fun i hi => by simpa using (hlive i).mp hi⟩
  | cons p tools ih =>
      rw [Assoc.keys, List.map_cons, List.nodup_cons] at hnodup
      rw [List.map_cons, List.foldl_cons]
      have hrest : ∀ q ∈ tools, ∀ q' ∈ tools, q.2.started = true → q'.2.started = true →
          q.2.blockIndex = q'.2.blockIndex → q.1 = q'.1 := fun q hq q' hq' =>
        hdistinct q (List.mem_cons_of_mem _ hq) q' (List.mem_cons_of_mem _ hq')
      unfold State.endTool
      -- an open tool is stopped, and its block is no longer live
      split_ifs with hcond
      · simp only [Bool.and_eq_true, Bool.not_eq_true'] at hcond
        have hp : Live s.events p.2.blockIndex :=
          (hlive _).mpr ⟨p, List.mem_cons_self .., hcond, rfl⟩
        refine ih hnodup.2 (hbegun.stop hp) ?_ hrest
        intro i
        refine live_stop.trans ?_
        rw [hlive i]
        constructor
        · rintro ⟨⟨q, hq, hopen, rfl⟩, hne⟩
          rcases List.mem_cons.mp hq with rfl | hq
          · exact absurd rfl hne
          · exact ⟨q, hq, hopen, rfl⟩
        · rintro ⟨q, hq, hopen, rfl⟩
          refine ⟨⟨q, List.mem_cons_of_mem _ hq, hopen, rfl⟩, fun heq => ?_⟩
          have hkey := hdistinct q (List.mem_cons_of_mem _ hq) p (List.mem_cons_self ..)
            hopen.1 hcond.1 heq
          exact hnodup.1 (hkey ▸ List.mem_map_of_mem hq)
      -- any other tool has no live block
      · refine ih hnodup.2 hbegun ?_ hrest
        intro i
        rw [hlive i]
        constructor
        · rintro ⟨q, hq, hopen, hi⟩
          rcases List.mem_cons.mp hq with rfl | hq
          · exact absurd (by rw [hopen.1, hopen.2]; rfl) hcond
          · exact ⟨q, hq, hopen, hi⟩
        · rintro ⟨q, hq, hrest⟩
          exact ⟨q, List.mem_cons_of_mem _ hq, hrest⟩

/-- The open blocks of tools can be read off the entries. -/
theorem toolAt_entries (s : State) (i : ℤ) :
    s.ToolAt i ↔ ∃ p ∈ s.trackedToolCalls.entries, p.2.Open ∧ p.2.blockIndex = i := by
  constructor
  · rintro ⟨key, tool, hget, hrest⟩
    exact ⟨(key, tool), (Dict.mem_entries_iff ..).mpr hget, hrest⟩
  · rintro ⟨⟨key, tool⟩, hmem, hrest⟩
    exact ⟨key, tool, (Dict.mem_entries_iff ..).mp hmem, hrest⟩

/-- What is open is stopped at the end, so every block ends. -/
theorem Ready.finish (h : Ready s) : WellFormed s.finish.events := by
  obtain ⟨hbegun, htools, htext, hindex, hlive⟩ := h.endThinking
  have hnamed : NamedBut none s.endThinking := by
    intro k tool hk
    rw [htools]
    exact h.2 k tool hk
  have hend : Begun s.endThinking.endText.events ∧
      s.endThinking.endText.trackedToolCalls = s.trackedToolCalls ∧
      ∀ i, Live s.endThinking.endText.events i ↔ s.ToolAt i := by
    unfold State.endText
    rw [htext]
    split_ifs with hopen
    · rw [hindex hopen]
      refine ⟨hbegun.stop ((hlive _).mpr (Or.inl ⟨hopen, rfl⟩)), htools, fun i => ?_⟩
      refine live_stop.trans ?_
      rw [hlive i]
      constructor
      · rintro ⟨⟨_, hi⟩ | htool, hne⟩
        · exact absurd hi hne
        · exact htool
      · rintro ⟨key, tool, hget, hstate, rfl⟩
        exact ⟨Or.inr ⟨key, tool, hget, hstate, rfl⟩, (h.1.below key tool hget hstate.1).ne⟩
    · refine ⟨hbegun, htools, fun i => ?_⟩
      rw [hlive i]
      simp [hopen]
  obtain ⟨hbegun', htools', hlive'⟩ := hend
  have hstopped := endTools_spec (s := s.endThinking.endText) s.trackedToolCalls.entries
    s.trackedToolCalls.nodup_keys hbegun' (fun i => (hlive' i).trans (toolAt_entries s i))
    fun p hp q hq => h.1.distinct p.1 q.1 p.2 q.2 ((Dict.mem_entries_iff ..).mp hp)
      ((Dict.mem_entries_iff ..).mp hq)
  unfold State.finish State.endTools
  simp only [hnamed.flush, htools']
  exact hstopped.1.close hstopped.2 _ _

end Finish

/-- Before the first chunk nothing is open. -/
theorem ready_start (id model : String) (inputTokens : Option ℕ) (tokens : Json) :
    Ready (State.start inputTokens (.messageStart id model tokens)) := by
  have hbegun : Begun [Event.messageStart id model tokens] := by
    refine ⟨⟨rfl, ?_⟩, id, model, tokens, [], rfl, fun e he => by cases he⟩
    intro before e after i hsplit htouch
    cases before with
    | nil =>
        obtain ⟨rfl, _⟩ := List.cons.inj hsplit
        exact htouch.elim
    | cons _ before => cases before <;> cases (List.cons.inj hsplit).2
  have hnone : ∀ key tool, (∅ : Dict Json Tool).get? key ≠ some tool := by rintro _ _ ⟨⟩
  refine ⟨⟨hbegun, rfl, fun h => (nomatch h), ?_, ?_, ?_, ?_⟩, ?_⟩
  · intro i
    constructor
    · rintro ⟨hstart, _⟩
      cases hstart
    · rintro (⟨hprose, _⟩ | ⟨key, tool, hget, _⟩)
      · cases hprose
      · exact absurd hget (hnone key tool)
  · exact fun key tool hget => absurd hget (hnone key tool)
  · exact fun key _ tool _ hget => absurd hget (hnone key tool)
  · exact fun key tool hget => absurd hget (hnone key tool)
  · exact fun key tool _ hget => absurd hget (hnone key tool)

/-- However the chunks come and however the stream ends, what is sent is well formed,
provided a generated id is not in use. -/
theorem stream_wellFormed (loads : Codec) (freshId : List Json → String)
    (hfresh : ∀ used, Json.str (freshId used) ∉ used) (uuid : String) (source : Source)
    (model : String) (inputTokens : Option ℕ) :
    WellFormed (openaiStreamToAnthropicStream loads freshId uuid source model inputTokens) := by
  have hrun := @handleSource_spec loads freshId hfresh source _
    (ready_start ("msg_" ++ uuid) model inputTokens (inputTokens.elim (.num 0) fun n => .num n))
  unfold openaiStreamToAnthropicStream
  revert hrun
  simp only
  generalize (handleSource loads freshId source).exec _ = outcome
  intro hrun
  rcases outcome with ⟨_ | ⟨_ | message⟩, s⟩
  · exact Begun.error hrun failedMessage
  · exact Ready.finish hrun
  · exact Begun.error hrun.1.begun message

/-- An id longer than all ids in use. -/
def longerId (used : List Json) : String :=
  "toolu_" ++ String.ofList
    (List.replicate (used.map fun v => v.asStr.elim 0 String.length).sum '0')

/-- An id longer than all ids in use is new. -/
theorem longerId_fresh (used : List Json) : Json.str (longerId used) ∉ used := by
  intro hmem
  have hle : (longerId used).length ≤ (used.map fun v => v.asStr.elim 0 String.length).sum :=
    List.single_le_sum (fun _ _ => Nat.zero_le _) _ (List.mem_map.mpr ⟨_, hmem, rfl⟩)
  have hlength : (longerId used).length =
      6 + (used.map fun v => v.asStr.elim 0 String.length).sum := by
    rw [longerId, String.length_append, String.length_ofList (l := List.replicate _ _),
      List.length_replicate]
    rfl
  omega

def braced (s : String) : String := "\x7b" ++ s ++ "\x7d"

/-- The only choice of a chunk, as the line and as its value. -/
def choiceLine (delta : String) : String :=
  braced ("\"choices\":[" ++ braced ("\"delta\":" ++ braced delta) ++ "]")

def choiceValue (delta : Obj) : Json :=
  .obj [("choices", .arr [.obj [("delta", .obj delta)]])]

/-- Reasoning, a text, the first pieces of two calls, and the rest of the first call. -/
def exampleLines : List (String × Json) :=
  [(choiceLine "\"reasoning_content\":\"hm\"", choiceValue [("reasoning_content", .str "hm")]),
    (choiceLine "\"content\":\"Hi\"", choiceValue [("content", .str "Hi")]),
    (choiceLine ("\"tool_calls\":[" ++ braced ("\"index\":0,\"id\":\"a\",\"function\":" ++
        braced "\"name\":\"f\",\"arguments\":\"\x7b\"") ++ "," ++
        braced ("\"index\":1,\"id\":\"b\",\"function\":" ++
          braced "\"name\":\"g\",\"arguments\":\"\x7b\x7d\"") ++ "]"),
      choiceValue [("tool_calls", .arr [
        .obj [("index", .num 0), ("id", .str "a"),
          ("function", .obj [("name", .str "f"), ("arguments", .str "\x7b")])],
        .obj [("index", .num 1), ("id", .str "b"),
          ("function", .obj [("name", .str "g"), ("arguments", .str "\x7b\x7d")])]])]),
    (choiceLine ("\"tool_calls\":[" ++ braced ("\"index\":0,\"function\":" ++
        braced "\"arguments\":\"\x7d\"") ++ "]"),
      choiceValue [("tool_calls", .arr [.obj [("index", .num 0),
        ("function", .obj [("arguments", .str "\x7d")])]])])]

def exampleCodec (text : String) : Loaded := (exampleLines.lookup text).elim .decodeError .value

/-- One line to a chunk, and the last chunk. -/
def exampleSource : Source :=
  ⟨exampleLines.map (fun e => .text ("data: " ++ e.1 ++ "\n\n")) ++ [.text "data: [DONE]\n\n"],
    false⟩

/-- A stream with thinking, a text and two calls, the first of which is continued after the
second has begun. -/
theorem stream_wellFormed_calls :
    WellFormed (openaiStreamToAnthropicStream exampleCodec longerId "0" exampleSource "gpt"
      (some 3)) :=
  stream_wellFormed _ longerId longerId_fresh _ _ _ _

end OpenWebUI.Anthropic
