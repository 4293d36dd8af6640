import OpenWebUI.Anthropic.CallDeltas
import OpenWebUI.Anthropic.StreamRuns

/-! # What a stream sends of a call

The tracked tools agree with the deltas read so far: of the arguments from the name on, all is
sent, or a first part that completes them. What came before the name is kept, and not sent.
-/

namespace OpenWebUI.Anthropic

open Py Program

/-! ## The invariant -/

/-- The started tool blocks with the keys of their calls. -/
def toolStarts (events : List Event) : List (ℤ × Json) :=
  (startedBlocks events).filterMap fun b => match b.2 with
    | .toolUse id _ _ => some (b.1, id.canon)
    | _ => none

/-- What was sent of a call whose block is `i`: all from the name on, or a part that decodes
together with what came before. -/
def SentFrom (loads : Codec) (events : List Event) (ds : List ToolDelta) (i : ℤ)
    (stopped : Bool) : Prop :=
  ∃ rest, textOf (late ds) = inputText (deltasAt events i) ++ rest ∧ (stopped = false → rest = "") ∧
    (stopped = true → ∃ v, loads (textOf (early ds) ++ inputText (deltasAt events i)) = .value v)

/-- `tool` is that of the call with the deltas `ds`. -/
structure ToolHolds (loads : Codec) (events : List Event) (ds : List ToolDelta) (key : Json)
    (tool : Tool) : Prop where
  id : tool.id.canon = key
  arguments : tool.arguments = textOf ds
  name : tool.name.truthy = decide (Named ds)
  started : tool.started = decide (Named ds)
  idle : ¬ Named ds → tool.stopped = false
  sent : Named ds → SentFrom loads events ds tool.blockIndex tool.stopped

/-- What holds whichever call is in hand. -/
structure LogBase (log : CallLog) (s : State) : Prop where
  keys : s.trackedToolCalls.keys = firstSeen log
  indices : ∀ i, s.indexToToolId.get? i = lastUnder log i
  blocks : ∀ i key, (i, key) ∈ toolStarts s.events ↔
    ∃ tool, s.trackedToolCalls.get? key = some tool ∧ tool.started = true ∧ tool.blockIndex = i
  unused : ∀ i, s.currentBlockIndex ≤ i → inputText (deltasAt s.events i) = ""

structure Logged (loads : Codec) (log : CallLog) (s : State) : Prop extends LogBase log s where
  tools : ∀ key tool, s.trackedToolCalls.get? key = some tool →
    ToolHolds loads s.events (deltasOf log key) key tool

/-- The tool in hand once it has a name, if the delta brings one. -/
structure Renaming (loads : Codec) (events : List Event) (ds : List ToolDelta) (d : ToolDelta)
    (key : Json) (tool : Tool) : Prop where
  id : tool.id.canon = key
  arguments : tool.arguments = textOf ds
  name : tool.name.truthy = decide (Named (ds ++ [d]))
  started : tool.started = decide (Named ds)
  idle : ¬ Named ds → tool.stopped = false
  sent : Named ds → SentFrom loads events ds tool.blockIndex tool.stopped

/-- The state once the tool of a delta is found. -/
structure Found (loads : Codec) (log : CallLog) (d : ToolDelta) (key : Json) (s : State) : Prop
    extends LogBase (log ++ [(key, d)]) s where
  others : ∀ k tool, k ≠ key → s.trackedToolCalls.get? k = some tool →
    ToolHolds loads s.events (deltasOf log k) k tool
  own : ∃ tool, s.trackedToolCalls.get? key = some tool ∧
    Renaming loads s.events (deltasOf log key) d key (tool.rename d.name)

/-! ## Events -/

section Events

variable (events : List Event) (i : ℤ)

/-- The tools that start can be read off the blocks that start. -/
theorem toolStarts_of_startedBlocks {events events' : List Event}
    (h : startedBlocks events' = startedBlocks events) :
    toolStarts events' = toolStarts events := by
  rw [toolStarts, h, toolStarts]

@[simp] theorem toolStarts_delta (d : Delta) :
    toolStarts (events ++ [.contentBlockDelta i d]) = toolStarts events :=
  toolStarts_of_startedBlocks (startedBlocks_delta ..)

@[simp] theorem toolStarts_stop :
    toolStarts (events ++ [.contentBlockStop i]) = toolStarts events :=
  toolStarts_of_startedBlocks (startedBlocks_stop ..)

@[simp] theorem toolStarts_tool (id name input : Json) :
    toolStarts (events ++ [.contentBlockStart i (.toolUse id name input)]) =
      toolStarts events ++ [(i, id.canon)] := by
  simp [toolStarts]

end Events

/-- `s'` has the calls of `s`, and nothing more was sent for them. -/
structure SameCalls (s s' : State) : Prop where
  tools : s'.trackedToolCalls = s.trackedToolCalls
  indices : s'.indexToToolId = s.indexToToolId
  starts : toolStarts s'.events = toolStarts s.events
  input : ∀ i, inputText (deltasAt s'.events i) = inputText (deltasAt s.events i)
  index : s.currentBlockIndex ≤ s'.currentBlockIndex

section SameCalls

variable {s s' s'' : State}

theorem SameCalls.refl (s : State) : SameCalls s s := ⟨rfl, rfl, rfl, fun _ => rfl, le_refl _⟩

/-- What says the same of the calls can be exchanged step by step. -/
theorem SameCalls.trans (h : SameCalls s s') (h' : SameCalls s' s'') : SameCalls s s'' where
  tools := h'.tools.trans h.tools
  indices := h'.indices.trans h.indices
  starts := h'.starts.trans h.starts
  input i := (h'.input i).trans (h.input i)
  index := h.index.trans h'.index

/-- Stopping a block says nothing of the calls. -/
theorem sameCalls_stop (s : State) (i : ℤ) : SameCalls s (s.yield (.contentBlockStop i)) where
  tools := rfl
  indices := rfl
  starts := toolStarts_stop ..
  input _ := congrArg inputText (deltasAt_stop ..)
  index := le_refl _

/-- A delta without input says nothing of the calls. -/
theorem sameCalls_delta (s : State) (i : ℤ) {d : Delta} (hd : inputText [d] = "") :
    SameCalls s (s.yield (.contentBlockDelta i d)) where
  tools := rfl
  indices := rfl
  starts := toolStarts_delta ..
  input j := by
    by_cases hij : i = j
    · have hlast :
        deltasAt (s.yield (.contentBlockDelta i d)).events j = deltasAt s.events j ++ [d] :=
        hij ▸ deltasAt_delta_self ..
      rw [hlast]
      have happend : ∀ ds : List Delta, inputText (ds ++ [d]) = inputText ds ++ inputText [d] := by
        intro ds
        rw [inputText, List.filterMap_append, String.join_append]
        rfl
      rw [happend, hd, String.append_empty]
    · exact congrArg inputText (deltasAt_delta_ne _ _ _ _ hij)
  index := le_refl _

/-- A block of prose is no call. -/
theorem sameCalls_start (s : State) (i : ℤ) {b : Block}
    (hb : ∀ id name input, b ≠ .toolUse id name input) :
    SameCalls s (s.yield (.contentBlockStart i b)) where
  tools := rfl
  indices := rfl
  starts := by
    change toolStarts (s.events ++ [_]) = _
    rw [toolStarts, startedBlocks_start, List.filterMap_append, toolStarts]
    cases b with
    | toolUse id name input => exact absurd rfl (hb id name input)
    | _ => exact List.append_nil _
  input _ := congrArg inputText (deltasAt_start ..)
  index := le_refl _

/-- The flags of the prose blocks are not about calls. -/
theorem SameCalls.frame (h : SameCalls s s') (htools : s''.trackedToolCalls = s'.trackedToolCalls)
    (hindices : s''.indexToToolId = s'.indexToToolId) (hevents : s''.events = s'.events)
    (hindex : s'.currentBlockIndex ≤ s''.currentBlockIndex) : SameCalls s s'' :=
  h.trans ⟨htools, hindices, congrArg toolStarts hevents, fun i => by rw [hevents], hindex⟩

theorem sameCalls_closeThinking (s : State) : SameCalls s s.closeThinking := by
  unfold State.closeThinking
  split_ifs
  · exact (sameCalls_stop s _).frame rfl rfl rfl (lt_add_one _).le
  · exact .refl s

theorem sameCalls_closeText (s : State) : SameCalls s s.closeText := by
  unfold State.closeText
  split_ifs
  · exact (sameCalls_stop s _).frame rfl rfl rfl (lt_add_one _).le
  · exact .refl s

theorem sameCalls_openThinking (s : State) : SameCalls s s.openThinking := by
  unfold State.openThinking
  split_ifs
  · exact .refl s
  · exact (sameCalls_start s _ fun _ _ _ h => by cases h).frame rfl rfl rfl (le_refl _)

theorem sameCalls_openText (s : State) : SameCalls s s.openText := by
  unfold State.openText
  split_ifs
  · exact .refl s
  · exact (sameCalls_start s _ fun _ _ _ h => by cases h).frame rfl rfl rfl (le_refl _)

/-- Reasoning says nothing of the calls. -/
theorem sameCalls_think (s : State) (v : Json) : SameCalls s (s.think v) := by
  unfold State.think
  split_ifs
  · exact (sameCalls_openThinking s).trans (sameCalls_delta _ _ rfl)
  · exact .refl s

/-- Content says nothing of the calls. -/
theorem sameCalls_write (s : State) (v : Json) : SameCalls s (s.write v) := by
  unfold State.write
  split_ifs
  · exact ((sameCalls_closeThinking s).trans (sameCalls_openText _)).trans (sameCalls_delta _ _ rfl)
  · exact .refl s

variable {loads : Codec} {log : CallLog}

/-- The log is about the calls only. -/
theorem Logged.same (h : Logged loads log s) (hs : SameCalls s s') : Logged loads log s' := by
  refine ⟨⟨?_, ?_, ?_, fun i hi => ?_⟩, fun key tool hget => ?_⟩
  · rw [hs.tools]
    exact h.keys
  · rw [hs.indices]
    exact h.indices
  · rw [hs.starts, hs.tools]
    exact h.blocks
  · rw [hs.input]
    exact h.unused i (hs.index.trans hi)
  · rw [hs.tools] at hget
    obtain ⟨hid, harguments, hname, hstarted, hidle, hsent⟩ := h.tools key tool hget
    refine ⟨hid, harguments, hname, hstarted, hidle, fun hnamed => ?_⟩
    rw [SentFrom, hs.input]
    exact hsent hnamed

end SameCalls

/-! ## Finding the tool -/

section Steps

variable {loads : Codec} {freshId : List Json → String} {log : CallLog} {d : ToolDelta} {key : Json}
  {s : State} {tool : Tool} {events : List Event} {ds : List ToolDelta} {index id name : Json}

/-- The key of an id is the id in the form in which Python compares it. -/
theorem keyOf_eq {v : Json} (h : keyOf v = some key) : key = v.canon := by
  cases v with
  | arr xs => cases h
  | obj o => cases h
  | _ => exact (Option.some.inj h).symm

/-- A tracked tool takes the name of the delta if it had none. -/
theorem ToolHolds.rename (h : ToolHolds loads events ds key tool) :
    Renaming loads events ds d key (tool.rename d.name) := by
  have hname : (tool.rename d.name).name.truthy = decide (Named (ds ++ [d])) := by
    rw [Tool.rename]
    by_cases hnamed : Named ds
    · have htruthy : tool.name.truthy = true := h.name.trans (decide_eq_true hnamed)
      rw [if_neg (by simp [htruthy]), htruthy]
      exact (decide_eq_true ((named_snoc d ds).mpr (Or.inl hnamed))).symm
    · have hfalsy : tool.name.truthy = false := h.name.trans (decide_eq_false hnamed)
      by_cases hd : d.name.truthy = true
      · rw [if_pos (by simp [hfalsy, hd])]
        exact hd.trans (decide_eq_true ((named_snoc d ds).mpr (Or.inr hd))).symm
      · rw [if_neg (by simp [hd]), hfalsy]
        refine (decide_eq_false fun hsnoc => ?_).symm
        exact ((named_snoc d ds).mp hsnoc).elim hnamed hd
  obtain ⟨hstarted, hstopped, hindex⟩ := rename_spec tool d.name
  have hrest : (tool.rename d.name).id = tool.id ∧
    (tool.rename d.name).arguments = tool.arguments := by
    rw [Tool.rename]
    split_ifs <;> exact ⟨rfl, rfl⟩
  refine ⟨?_, ?_, hname, hstarted.trans h.started, fun hn => hstopped.trans (h.idle hn),
    fun hnamed => ?_⟩
  · rw [hrest.1]
    exact h.id
  · rw [hrest.2]
    exact h.arguments
  · rw [hindex, hstopped]
    exact h.sent hnamed

/-- A new tool has the name of its delta from the start. -/
theorem renaming_new (hid : id.canon = key) :
    Renaming loads events [] d key ((Tool.new id d.name).rename d.name) := by
  have hsame : (Tool.new id d.name).rename d.name = Tool.new id d.name := by
    rw [Tool.rename, Tool.new, Bool.and_not_self]
    rfl
  have hnone : ¬ Named [] := by
    rintro ⟨e, he, -⟩
    exact List.not_mem_nil he
  rw [hsame]
  refine ⟨hid, rfl, ?_, (decide_eq_false hnone).symm, fun _ => rfl, fun hn => absurd hn hnone⟩
  change d.name.truthy = _
  have hiff : Named ([] ++ [d]) ↔ d.name.truthy = true :=
    (named_snoc d []).trans ⟨fun h => h.resolve_left hnone, Or.inr⟩
  by_cases hd : d.name.truthy = true
  · rw [hd, decide_eq_true (hiff.mpr hd)]
  · rw [Bool.eq_false_iff.mpr hd, decide_eq_false fun h => hd (hiff.mp h)]

/-- The tool of a delta is tracked, and all others are as they were. -/
theorem Logged.found (h : Logged loads log s) {indexToToolId : Dict Json Json}
    (hindices : ∀ i, indexToToolId.get? i = lastUnder (log ++ [(key, d)]) i)
    (hseen : key ∈ s.trackedToolCalls) :
    Found loads log d key { s with indexToToolId := indexToToolId } := by
  obtain ⟨tool, htool⟩ := (Dict.mem_iff_exists ..).mp hseen
  have hkeys : key ∈ firstSeen log := h.keys ▸ hseen
  refine ⟨⟨?_, hindices, h.blocks, h.unused⟩, fun k tool _ => h.tools k tool,
    tool, htool, (h.tools key tool htool).rename⟩
  rw [firstSeen_snoc, if_pos hkeys]
  exact h.keys

/-- A call that is new gets a tool of its own under its id. -/
theorem Logged.found_new (h : Logged loads log s) {indexToToolId : Dict Json Json}
    (hindices : ∀ i, indexToToolId.get? i = lastUnder (log ++ [(key, d)]) i)
    (hnew : key ∉ s.trackedToolCalls) (hid : id.canon = key) :
    Found loads log d key { s.setTool key (Tool.new id d.name) with
      indexToToolId := indexToToolId } := by
  have hnone : s.trackedToolCalls.get? key = none := (Dict.get?_eq_none_iff ..).mpr hnew
  have hkeys : key ∉ firstSeen log := by
    rw [← h.keys]
    exact hnew
  refine ⟨⟨?_, hindices, fun i k => ?_, h.unused⟩, fun k tool hk hget => ?_, _,
    Dict.get?_set_self .., ?_⟩
  · rw [firstSeen_snoc, if_neg hkeys, ← h.keys]
    change Assoc.keys (Assoc.set s.trackedToolCalls.entries key _) = _
    rw [Assoc.keys_set, if_neg (by rwa [Assoc.has_iff])]
    rfl
  · refine (h.blocks i k).trans (exists_congr fun tool => ?_)
    change _ ↔ (s.setTool key (Tool.new id d.name)).trackedToolCalls.get? k = some tool ∧ _
    rw [get?_setTool]
    split_ifs with hk
    · rw [hk, hnone]
      refine ⟨fun hc => (by cases hc.1), ?_⟩
      rintro ⟨hc, hstarted, -⟩
      rw [← Option.some.inj hc] at hstarted
      cases hstarted
    · rfl
  · change (s.setTool key (Tool.new id d.name)).trackedToolCalls.get? k = some tool at hget
    rw [get?_setTool, if_neg hk] at hget
    exact h.tools k tool hget
  · rw [deltasOf_of_not_mem hkeys]
    exact renaming_new hid

/-- The call that the log puts a delta under is the one whose tool is found. -/
theorem resolveTool_found (hfresh : ∀ used, Json.str (freshId used) ∉ used)
    (hindex : d.index = index.canon) (hid : d.id = id) (hname : d.name = name)
    (hindexKey : (keyOf index).isSome) (hidKey : id.truthy = true → (keyOf id).isSome) :
    Triple (Logged loads log) (resolveTool freshId index id name)
      (fun key s => key = callOf freshId log d ∧ Found loads log d key s) (fun _ _ => False) := by
  subst hid hname
  obtain ⟨indexKey, hindexKey⟩ := Option.isSome_iff_exists.mp hindexKey
  unfold resolveTool
  refine triple_ite (fun htruthy => ?_) fun hfalsy => ?_
  -- a delta with an id is about the call of that id
  · obtain ⟨key, hkey⟩ := Option.isSome_iff_exists.mp (hidKey htruthy)
    refine ofOption_bind_some hkey ?_
    have hcall : key = callOf freshId log d := by rw [callOf, if_pos htruthy, keyOf_eq hkey]
    intro s hs
    have hindices :
      ∀ i, (s.indexToToolId.set indexKey key).get? i = lastUnder (log ++ [(key, d)]) i := by
      intro i
      rw [Dict.get?_set, lastUnder_snoc, hs.indices, hindex, keyOf_eq hindexKey]
      by_cases hi : i = index.canon
      · rw [if_pos hi, if_pos hi.symm]
      · rw [if_neg hi, if_neg fun h => hi h.symm]
    rw [exec_bind, exec_modify, hindexKey]
    simp only [ofOption, pure_bind]
    rw [exec_bind, exec_modify]
    refine ⟨hcall, ?_⟩
    by_cases hmem : key ∈ s.trackedToolCalls
    · simp only [if_pos hmem]
      exact hs.found hindices hmem
    · simp only [if_neg hmem]
      exact hs.found_new hindices hmem (keyOf_eq hkey).symm
  -- one without an id goes by its index
  · refine ofOption_bind_some hindexKey (triple_get_bind fun s hs => ?_)
    have hlast : s.indexToToolId.get? indexKey = lastUnder log d.index := by
      rw [hs.indices, keyOf_eq hindexKey, hindex]
    cases hget : s.indexToToolId.get? indexKey with
    -- the call last seen under the index
    | some key =>
        rw [hget] at hlast
        have hindices : ∀ i, s.indexToToolId.get? i = lastUnder (log ++ [(key, d)]) i := by
          intro i
          rw [hs.indices, lastUnder_snoc]
          split_ifs with hi
          · rw [← hi, ← hlast]
          · rfl
        have hseen : key ∈ s.trackedToolCalls := by
          change key ∈ s.trackedToolCalls.keys
          rw [hs.keys]
          exact lastUnder_mem _ _ hlast.symm
        refine triple_pure _ ?_
        rintro s' rfl
        refine ⟨?_, hs.found hindices hseen⟩
        rw [callOf, if_neg hfalsy, ← hlast]
        rfl
    -- a call with a new id
    | none =>
        rw [hget] at hlast
        refine triple_set_bind (triple_pure _ ?_)
        rintro _ rfl
        refine ⟨?_, hs.found_new (fun i => ?_) ?_ rfl⟩
        · rw [callOf, if_neg hfalsy, ← hlast, ← hs.keys]
          rfl
        · rw [Dict.get?_set, lastUnder_snoc, hindex, keyOf_eq hindexKey]
          change _ = if _ then _ else _
          by_cases hi : i = index.canon
          · rw [if_pos hi, if_pos hi.symm]
          · rw [if_neg hi, if_neg fun h => hi h.symm]
            exact hs.indices i
        · exact hfresh _

/-! ## Starting the tool -/

/-- What a tool holds depends on the input in its block only. -/
theorem ToolHolds.congr {events' : List Event} (h : ToolHolds loads events ds key tool)
    (hinput : inputText (deltasAt events' tool.blockIndex) =
      inputText (deltasAt events tool.blockIndex)) :
    ToolHolds loads events' ds key tool := by
  obtain ⟨hid, harguments, hname, hstarted, hidle, hsent⟩ := h
  refine ⟨hid, harguments, hname, hstarted, hidle, fun hnamed => ?_⟩
  rw [SentFrom, hinput]
  exact hsent hnamed

theorem deltasOf_ne (log : CallLog) (d : ToolDelta) {k : Json} (h : k ≠ key) :
    deltasOf (log ++ [(key, d)]) k = deltasOf log k := by
  rw [deltasOf_snoc, if_neg fun heq => h heq.symm]

theorem deltasOf_self (log : CallLog) (d : ToolDelta) (key : Json) :
    deltasOf (log ++ [(key, d)]) key = deltasOf log key ++ [d] := by
  rw [deltasOf_snoc, if_pos rfl]

/-- The sent part does not change by a delta without arguments. -/
theorem SentFrom.bare {i : ℤ} {stopped : Bool} (hnamed : Named ds)
    (h : SentFrom loads events ds i stopped) :
    SentFrom loads events (ds ++ [d.bare]) i stopped := by
  obtain ⟨rest, hlate, hopen, hdone⟩ := h
  obtain ⟨hearly, hlate'⟩ := early_late_snoc_of_named d.bare hnamed
  refine ⟨rest, ?_, hopen, ?_⟩
  · rw [hlate', textOf_snoc, hlate]
    exact String.append_empty
  · rw [hearly]
    exact hdone

/-- A block is started once the name is known. -/
theorem Found.startTool (h : Found loads log d key s)
    (hget : s.trackedToolCalls.get? key = some tool) :
    Logged loads (log ++ [(key, d.bare)]) (s.startTool key (tool.rename d.name)) := by
  obtain ⟨tool', htool', hown⟩ := h.own
  rw [hget] at htool'
  obtain rfl := Option.some.inj htool'
  obtain ⟨hstarted', hstopped', hindex'⟩ := rename_spec tool d.name
  generalize hnew : tool.rename d.name = new at hown hstarted' hstopped' hindex' ⊢
  obtain ⟨hid, harguments, hname, hstarted, hidle, hsent⟩ := hown
  -- a tool that is stored again keeps its place among the keys
  have hkeys : ∀ t, (s.setTool key t).trackedToolCalls.keys = firstSeen (log ++ [(key, d)]) := by
    intro t
    have hmem : key ∈ s.trackedToolCalls := Dict.mem_of_get? hget
    change Assoc.keys (Assoc.set s.trackedToolCalls.entries key t) = _
    rw [Assoc.keys_set, if_pos ((Assoc.has_iff ..).mpr hmem)]
    exact h.keys
  have harguments' : new.arguments = textOf (deltasOf log key ++ [d.bare]) := by
    rw [textOf_snoc, harguments]
    exact String.append_empty.symm
  unfold State.startTool
  split_ifs with hcond
  · -- the name has come with this delta
    simp only [Bool.and_eq_true, Bool.not_eq_true'] at hcond
    have hunnamed : ¬ Named (deltasOf log key) := of_decide_eq_false (hstarted.symm.trans hcond.1)
    have hnamed : Named (deltasOf log key ++ [d]) := of_decide_eq_true (hname.symm.trans hcond.2)
    have hd : d.name.truthy = true := ((named_snoc d _).mp hnamed).resolve_left hunnamed
    refine ⟨⟨?_, ?_, fun i k => ?_, fun i hi => ?_⟩, fun k t ht => ?_⟩
    -- the keys
    · rw [firstSeen_bare]
      exact hkeys _
    -- the calls last seen under the indices
    · intro i
      rw [lastUnder_bare]
      exact h.indices i
    -- the tools that have a block: the one started now is new
    · change (i, k) ∈ toolStarts (s.events ++ [_]) ↔ _
      rw [toolStarts_tool, List.mem_append, List.mem_singleton, h.blocks, hid]
      change _ ↔ ∃ t, (s.setTool key _).trackedToolCalls.get? k = some t ∧ _
      simp only [get?_setTool]
      by_cases hk : k = key
      · subst hk
        rw [hget]
        simp only [if_true, Option.some.injEq, exists_eq_left', Prod.mk.injEq, and_true, true_and]
        have hnot : tool.started ≠ true := by
          rw [← hstarted', hcond.1]
          decide
        constructor
        · rintro (⟨hst, -⟩ | hi)
          · exact absurd hst hnot
          · exact hi.symm
        · exact fun hi => Or.inr hi.symm
      · rw [if_neg hk]
        refine ⟨fun hc => hc.resolve_right fun heq => hk (Prod.mk.inj heq).2, Or.inl⟩
    -- nothing has been sent into the next block
    · change inputText (deltasAt (s.events ++ [_]) i) = ""
      rw [deltasAt_start]
      have hlt : s.currentBlockIndex + 1 ≤ i := hi
      exact h.unused i (by omega)
    -- each tool agrees with the deltas of its call
    · change (s.setTool key _).trackedToolCalls.get? k = some t at ht
      rw [get?_setTool] at ht
      split_ifs at ht with hk
      · obtain rfl := Option.some.inj ht
        rw [hk, deltasOf_self]
        have hnamed' : Named (deltasOf log key ++ [d.bare]) := (named_bare d _).mpr hnamed
        refine ⟨hid, harguments', ?_, (decide_eq_true hnamed').symm,
          fun hn => absurd hnamed' hn, fun _ => ?_⟩
        · exact hcond.2.trans (decide_eq_true hnamed').symm
        -- the name comes with this delta, so nothing was sent before it
        · obtain ⟨-, hlate⟩ := early_late_snoc_of_first d.bare hunnamed hd
          refine ⟨"", ?_, fun _ => rfl, fun hstopped => ?_⟩
          · change _ = inputText (deltasAt (s.events ++ [_]) s.currentBlockIndex) ++ ""
            rw [deltasAt_start, h.unused _ (le_refl _), hlate]
            rfl
          · have hfalse := hidle hunnamed
            rw [show new.stopped = true from hstopped] at hfalse
            cases hfalse
      · rw [deltasOf_ne _ _ hk]
        exact (h.others k t hk ht).congr (congrArg inputText (deltasAt_start ..))
  -- the name came before, or has not come yet
  · have hsame : Named (deltasOf log key ++ [d]) ↔ Named (deltasOf log key) := by
      rw [named_snoc]
      refine ⟨fun hor => hor.elim (fun hn => hn) fun hd => ?_, Or.inl⟩
      by_contra hunnamed
      refine hcond ?_
      rw [hstarted, hname, decide_eq_false hunnamed,
        decide_eq_true ((named_snoc d _).mpr (Or.inr hd))]
      rfl
    refine ⟨⟨?_, ?_, fun i k => ?_, h.unused⟩, fun k t ht => ?_⟩
    · rw [firstSeen_bare]
      exact hkeys _
    · intro i
      rw [lastUnder_bare]
      exact h.indices i
    · refine (h.blocks i k).trans ?_
      simp only [get?_setTool]
      by_cases hk : k = key
      · rw [hk, hget, if_pos rfl]
        simp only [Option.some.injEq, exists_eq_left']
        rw [hstarted', hindex']
      · rw [if_neg hk]
    · rw [get?_setTool] at ht
      split_ifs at ht with hk
      · obtain rfl := Option.some.inj ht
        rw [hk, deltasOf_self]
        refine ⟨hid, harguments', ?_, ?_, fun hn => ?_, fun hn => ?_⟩
        · rw [hname]
          exact decide_eq_decide.mpr (named_bare d _).symm
        · rw [hstarted]
          exact decide_eq_decide.mpr ((named_bare d _).trans hsame).symm
        · exact hidle fun hnamed => hn ((named_bare d _).mpr (hsame.mpr hnamed))
        · have hnamed := hsame.mp ((named_bare d _).mp hn)
          exact (hsent hnamed).bare hnamed
      · rw [deltasOf_ne _ _ hk]
        exact h.others k t hk ht

/-! ## Adding arguments -/

/-- The log of the bare delta is that of the delta, but for the arguments of its call. -/
theorem Logged.of_bare (h : Logged loads (log ++ [(key, d.bare)]) s) {s' : State}
    (hindices : s'.indexToToolId = s.indexToToolId)
    (hstarts : toolStarts s'.events = toolStarts s.events)
    (hindex : s'.currentBlockIndex = s.currentBlockIndex) {new : Tool}
    (htools : s'.trackedToolCalls = (s.setTool key new).trackedToolCalls)
    (hget : s.trackedToolCalls.get? key = some tool) (hstarted : new.started = tool.started)
    (hblock : new.blockIndex = tool.blockIndex)
    (hinput : ∀ i, s.currentBlockIndex ≤ i ∨
      (∃ k t, k ≠ key ∧ s.trackedToolCalls.get? k = some t ∧ t.started = true ∧ t.blockIndex = i) →
      inputText (deltasAt s'.events i) = inputText (deltasAt s.events i))
    (hown : ToolHolds loads s'.events (deltasOf log key ++ [d]) key new) :
    Logged loads (log ++ [(key, d)]) s' := by
  refine ⟨⟨?_, fun i => ?_, fun i k => ?_, fun i hi => ?_⟩, fun k t ht => ?_⟩
  · rw [htools, ← firstSeen_bare, ← h.keys]
    have hmem : key ∈ s.trackedToolCalls := Dict.mem_of_get? hget
    change Assoc.keys (Assoc.set s.trackedToolCalls.entries key new) = _
    rw [Assoc.keys_set, if_pos ((Assoc.has_iff ..).mpr hmem)]
    rfl
  · rw [hindices, ← lastUnder_bare]
    exact h.indices i
  · rw [hstarts, htools]
    refine (h.blocks i k).trans ?_
    simp only [get?_setTool]
    by_cases hk : k = key
    · rw [hk, hget, if_pos rfl]
      simp only [Option.some.injEq, exists_eq_left']
      rw [hstarted, hblock]
    · rw [if_neg hk]
  · rw [hindex] at hi
    rw [hinput i (Or.inl hi)]
    exact h.unused i hi
  -- the other tools hold what they held, as nothing was sent into their blocks
  · rw [htools, get?_setTool] at ht
    split_ifs at ht with hk
    · rw [hk, deltasOf_self, ← Option.some.inj ht]
      exact hown
    · have hold := h.tools k t ht
      rw [deltasOf_ne _ _ hk] at hold ⊢
      by_cases hnamed : Named (deltasOf log k)
      · have hst : t.started = true := hold.started.trans (decide_eq_true hnamed)
        exact hold.congr (hinput _ (Or.inr ⟨k, t, hk, ht, hst, rfl⟩))
      · obtain ⟨hid, harguments, hname, hst, hidle, -⟩ := hold
        exact ⟨hid, harguments, hname, hst, hidle, fun hn => absurd hn hnamed⟩

/-- One more chunk of arguments: buffered, and sent while the block is open. -/
theorem Logged.appendArguments (h : Logged loads (log ++ [(key, d.bare)]) s)
    (hready : Reading none s) (hget : s.trackedToolCalls.get? key = some tool) :
    Logged loads (log ++ [(key, d)]) (s.appendArguments key tool d.arguments) := by
  have hholds := h.tools key tool hget
  rw [deltasOf_self] at hholds
  obtain ⟨hid, harguments, hname, hstarted, hidle, hsent⟩ := hholds
  have harguments' : tool.arguments ++ d.arguments = textOf (deltasOf log key ++ [d]) := by
    rw [textOf_snoc, harguments, textOf_snoc]
    exact congrArg (· ++ d.arguments) String.append_empty
  have hiff := named_bare d (deltasOf log key)
  have hname' : tool.name.truthy = decide (Named (deltasOf log key ++ [d])) :=
    hname.trans (decide_eq_decide.mpr hiff)
  have hstarted' : tool.started = decide (Named (deltasOf log key ++ [d])) :=
    hstarted.trans (decide_eq_decide.mpr hiff)
  -- what comes before and after the name, with the chunk
  have hparts : Named (deltasOf log key ++ [d]) →
      textOf (late (deltasOf log key ++ [d])) =
          textOf (late (deltasOf log key ++ [d.bare])) ++ d.arguments ∧
        early (deltasOf log key ++ [d]) = early (deltasOf log key ++ [d.bare]) := by
    intro hnamed
    by_cases hbefore : Named (deltasOf log key)
    · obtain ⟨hearly, hlate⟩ := early_late_snoc_of_named d hbefore
      obtain ⟨hearly', hlate'⟩ := early_late_snoc_of_named d.bare hbefore
      rw [hearly, hearly', hlate, hlate', textOf_snoc, textOf_snoc]
      exact ⟨congrArg (· ++ d.arguments) String.append_empty.symm, rfl⟩
    · have hd : d.name.truthy = true := ((named_snoc d _).mp hnamed).resolve_left hbefore
      obtain ⟨hearly, hlate⟩ := early_late_snoc_of_first d hbefore hd
      obtain ⟨hearly', hlate'⟩ := early_late_snoc_of_first d.bare hbefore hd
      rw [hearly, hearly', hlate, hlate']
      refine ⟨?_, rfl⟩
      have hone : ∀ e : ToolDelta, textOf [e] = e.arguments := fun e => String.empty_append
      rw [hone, hone]
      exact String.empty_append.symm
  unfold State.appendArguments
  -- an open block gets the chunk
  cases hopen : tool.started && !tool.stopped with
  | true =>
      simp only [Bool.and_eq_true, Bool.not_eq_true'] at hopen
      rw [if_pos rfl]
      have hnamed : Named (deltasOf log key ++ [d]) :=
        of_decide_eq_true (hstarted'.symm.trans hopen.1)
      obtain ⟨rest, hlate, hall, -⟩ := hsent (hiff.mpr hnamed)
      rw [hall hopen.2, String.append_empty] at hlate
      obtain ⟨hlate', -⟩ := hparts hnamed
      refine h.of_bare rfl (toolStarts_delta ..) rfl rfl hget rfl rfl (fun i hi => ?_)
        ⟨hid, harguments', hname', hstarted', fun hn => absurd hnamed hn,
          fun _ => ⟨"", ?_, fun _ => rfl, ?_⟩⟩
      -- no other tool has this block
      · refine congrArg inputText (deltasAt_delta_ne _ _ _ _ ?_)
        rintro rfl
        rcases hi with hi | ⟨k, t, hk, ht, hst, heq⟩
        · exact absurd (hready.1.below key tool hget hopen.1) (not_lt.mpr hi)
        · exact hk (hready.1.distinct k key t tool ht hget hst hopen.1 heq)
      · change _ = inputText (deltasAt (s.events ++ [_]) tool.blockIndex) ++ ""
        rw [deltasAt_delta_self, inputText_input, hlate', hlate, String.append_empty]
      · intro hstopped
        rw [show tool.stopped = true from hstopped] at hopen
        cases hopen.2
  -- a stopped one does not, and the chunk is left over
  | false =>
      rw [if_neg (by decide)]
      refine h.of_bare rfl rfl rfl rfl hget rfl rfl (fun _ _ => rfl)
        ⟨hid, harguments', hname', hstarted', fun hn => hidle fun hn' => hn (hiff.mp hn'),
          fun hnamed => ?_⟩
      have hst : tool.started = true := hstarted'.trans (decide_eq_true hnamed)
      have hstopped : tool.stopped = true := by
        rw [hst, Bool.true_and] at hopen
        simpa using hopen
      obtain ⟨rest, hlate, -, hdone⟩ := hsent (hiff.mpr hnamed)
      obtain ⟨hlate', hearly⟩ := hparts hnamed
      refine ⟨rest ++ d.arguments, ?_, fun hfalse => ?_, fun _ => ?_⟩
      · rw [hlate', hlate, String.append_assoc]
        rfl
      · rw [show tool.stopped = false from hfalse] at hstopped
        cases hstopped
      · rw [hearly]
        exact hdone hstopped

/-- The block is stopped once the arguments decode. -/
theorem Logged.stopTool (h : Logged loads log s) (hget : s.trackedToolCalls.get? key = some tool)
    (hopen : tool.started = true ∧ tool.stopped = false) {v : Json}
    (hloads : loads tool.arguments = .value v) :
    Logged loads log ((s.setTool key { tool with stopped := true }).yield
      (.contentBlockStop tool.blockIndex)) := by
  obtain ⟨hid, harguments, hname, hstarted, hidle, hsent⟩ := h.tools key tool hget
  have hnamed : Named (deltasOf log key) := of_decide_eq_true (hstarted.symm.trans hopen.1)
  obtain ⟨rest, hlate, hall, -⟩ := hsent hnamed
  rw [hall hopen.2, String.append_empty] at hlate
  have hinput : ∀ i, inputText (deltasAt (s.events ++ [.contentBlockStop tool.blockIndex]) i) =
      inputText (deltasAt s.events i) := fun i => congrArg inputText (deltasAt_stop ..)
  refine ⟨⟨?_, h.indices, fun i k => ?_, fun i hi => (hinput i).trans (h.unused i hi)⟩,
    fun k t ht => ?_⟩
  · have hmem : key ∈ s.trackedToolCalls := Dict.mem_of_get? hget
    change Assoc.keys (Assoc.set s.trackedToolCalls.entries key _) = _
    rw [Assoc.keys_set, if_pos ((Assoc.has_iff ..).mpr hmem)]
    exact h.keys
  · change (i, k) ∈ toolStarts (s.events ++ [_]) ↔
      ∃ t, (s.setTool key _).trackedToolCalls.get? k = some t ∧ _
    rw [toolStarts_stop, h.blocks]
    simp only [get?_setTool]
    by_cases hk : k = key
    · rw [hk, hget, if_pos rfl]
      simp only [Option.some.injEq, exists_eq_left']
    · rw [if_neg hk]
  · change (s.setTool key _).trackedToolCalls.get? k = some t at ht
    rw [get?_setTool] at ht
    split_ifs at ht with hk
    · obtain rfl := Option.some.inj ht
      rw [hk]
      -- what was sent is what is loaded when the block stops
      refine ⟨hid, harguments, hname, hstarted, fun hn => absurd hnamed hn,
        fun _ => ⟨"", ?_, fun _ => rfl,
        fun _ => ⟨v, ?_⟩⟩⟩
      · change _ = inputText (deltasAt (s.events ++ [_]) tool.blockIndex) ++ ""
        rw [hinput, String.append_empty, hlate]
      · change loads (_ ++ inputText (deltasAt (s.events ++ [_]) tool.blockIndex)) = _
        rw [hinput, ← hlate, textOf_early_late, ← harguments]
        exact hloads
    · exact (h.tools k t ht).congr (hinput _)

/-- The call of the last delta is tracked. -/
theorem Logged.tracked (h : Logged loads (log ++ [(key, d)]) s) :
    ∃ tool, s.trackedToolCalls.get? key = some tool := by
  refine (Dict.mem_iff_exists ..).mp ?_
  change key ∈ s.trackedToolCalls.keys
  rw [h.keys, mem_firstSeen]
  exact ⟨_, List.mem_append_right _ (List.mem_singleton_self _), rfl⟩

/-- The arguments are sent at once if the tool has started, and kept if not. -/
theorem handleArguments_logged (htotal : ∀ s, loads s ≠ .otherError) {arguments : Json}
    (hd : d.arguments = arguments.asStr.getD "")
    (hread : arguments.truthy = true → arguments.asStr.isSome) :
    Triple (fun s => Reading none s ∧ Logged loads (log ++ [(key, d.bare)]) s)
      (handleArguments loads key arguments) (fun _ => Logged loads (log ++ [(key, d)]))
      (fun _ _ => False) := by
  refine triple_ite (fun htruthy => triple_get_bind fun s hs => ?_) fun hfalsy => triple_pure _ ?_
  · obtain ⟨tool, hget⟩ := hs.2.tracked
    obtain ⟨chunk, hchunk⟩ := Option.isSome_iff_exists.mp (hread htruthy)
    refine ofOption_bind_some hget (ofOption_bind_some hchunk ?_)
    rw [hchunk, Option.getD_some] at hd
    have happend := hs.2.appendArguments hs.1 hget
    rw [hd] at happend
    have hget' := get?_appendArguments s key tool chunk
    refine triple_set_bind ?_
    unfold Anthropic.stopTool
    refine triple_ite (fun hcond => ?_) fun _ => triple_pure _ ?_
    · simp only [Bool.and_eq_true, Bool.not_eq_true'] at hcond
      -- whether the arguments so far can be loaded
      cases hloads : loads (tool.arguments ++ chunk) with
      | value v =>
          refine triple_modify ?_
          rintro s' rfl
          exact happend.stopTool hget' hcond.1 hloads
      | otherError => exact absurd hloads (htotal _)
      | decodeError | valueError =>
          refine triple_pure _ ?_
          rintro s' rfl
          exact happend
    · rintro s' rfl
      exact happend
  · -- a falsy value adds nothing
    rintro s ⟨-, hs⟩
    have hempty : d.arguments = "" := by
      rw [hd]
      cases arguments with
      | str t =>
          rw [Json.truthy_str] at hfalsy
          simpa using hfalsy
      | _ => rfl
    have hbare : d.bare = d := by rw [ToolDelta.bare, ← hempty]
    rwa [hbare] at hs

/-- One turn of the loop over the tool calls logs its delta. -/
theorem handleToolCall_logged (hfresh : ∀ used, Json.str (freshId used) ∉ used)
    (htotal : ∀ s, loads s ≠ .otherError) {toolCall : Json} (hread : ReadableCall toolCall) :
    Triple (fun s => Reading none s ∧ Logged loads log s) (handleToolCall loads freshId toolCall)
      (fun _ s => Reading none s ∧
        Logged loads (log ++ [(callOf freshId log (.of toolCall), .of toolCall)]) s)
      (fun _ _ => False) := by
  obtain ⟨call, function, hcall, hfunction, hindex, hid, harguments⟩ := hread
  refine ofOption_bind_some hcall (ofOption_bind_some hfunction ?_)
  -- the fields of the delta are those the code reads
  have hof : ToolDelta.of toolCall = {
      index := (Obj.getD call "index" (.num 0)).canon
      id := Obj.getD call "id" (.str "")
      name := Obj.getD function "name" (.str "")
      arguments := (Obj.getD function "arguments" (.str "")).asStr.getD "" } := by
    rw [ToolDelta.of, hcall]
    simp only [Option.getD_some]
    rw [hfunction]
    rfl
  generalize ToolDelta.of toolCall = d at hof ⊢
  have hfound : Triple (Logged loads log)
      (resolveTool freshId (Obj.getD call "index" (.num 0)) (Obj.getD call "id" (.str ""))
        (Obj.getD function "name" (.str "")))
      (fun key s => key = callOf freshId log d ∧ Found loads log d key s) (fun _ _ => False) :=
    resolveTool_found hfresh (by rw [hof]) (by rw [hof]) (by rw [hof]) hindex hid
  have hresolve := (resolveTool_spec hfresh (Obj.getD call "index" (.num 0))
    (Obj.getD call "id" (.str "")) (Obj.getD function "name" (.str ""))).and hfound
  -- the states of the two specifications are followed together
  refine triple_bind (hresolve.mono (fun _ hs => hs) (fun _ _ hs => hs) fun _ _ he => he.2)
    fun key => triple_get_bind fun s hs => ?_
  obtain ⟨hreading, rfl, hfound⟩ := hs
  obtain ⟨tool, hget, -⟩ := hfound.own
  refine ofOption_bind_some hget (triple_set_bind ?_)
  have hname : Obj.getD function "name" (.str "") = d.name := by rw [hof]
  have hstart := hfound.startTool hget
  have hreading' := hreading.startTool hget d.name
  refine ((handleArguments_spec _).and
    (handleArguments_logged (d := d) htotal (by rw [hof]) harguments)).mono ?_
    (fun _ _ hs => hs) fun _ _ he => he.2
  rintro s' rfl
  rw [hname]
  exact ⟨hreading', hreading', hstart⟩

end Steps

end OpenWebUI.Anthropic
