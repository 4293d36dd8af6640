import OpenWebUI.Anthropic.Reassembly

/-! # Fragments of tool calls

The invariant of the part of a stream that brings tool calls. A fragment first finds the
tool of its call, then may start its block, then adds to its arguments; what is sent of
the arguments is all of them, or a first part that decodes.
-/

namespace OpenWebUI.Anthropic

open Py Program

/-! ## One more fragment -/

section Fragments

variable (frags : List Fragment) (f : Fragment) {call : Call}

/-- A call comes into the order with its first name. -/
theorem namedOrder_snoc : namedOrder (frags ++ [f]) =
    if f.name ≠ "" ∧ f.call ∉ namedOrder frags then namedOrder frags ++ [f.call]
    else namedOrder frags := by
  rw [namedOrder, List.foldl_append]
  rfl

/-- One more fragment, if it is of the call. -/
theorem argumentsOf_snoc : argumentsOf (frags ++ [f]) call =
    argumentsOf frags call ++ if f.call = call then f.arguments else "" := by
  rw [argumentsOf, List.filter_append, List.map_append, String.join_append]
  by_cases h : f.call = call <;> simp [h, argumentsOf, String.join_cons]

/-- Arguments are joined in the order of the fragments. -/
theorem argumentsOf_append (more : List Fragment) : argumentsOf (frags ++ more) call =
    argumentsOf frags call ++ argumentsOf more call := by
  rw [argumentsOf, List.filter_append, List.map_append, String.join_append]
  rfl

/-- The last fragment with an id decides what an index means. -/
theorem callAt_snoc (index : ℕ) : callAt (frags ++ [f]) index =
    if f.index = index ∧ f.id ≠ "" then some f.call else callAt frags index := by
  rw [callAt, List.filter_append]
  by_cases h : f.index = index ∧ f.id ≠ ""
  · rw [if_pos h]
    simp [h]
  · rw [if_neg h, List.filter_singleton, decide_eq_false h, cond_false, List.append_nil]
    rfl

/-- A call is in the order when some fragment names it. -/
theorem mem_namedOrder :
    call ∈ namedOrder frags ↔ ∃ f ∈ frags, f.name ≠ "" ∧ f.call = call := by
  induction frags using List.reverseRecOn with
  | nil => simp [namedOrder]
  | append_singleton frags f ih =>
      have hlast : (∃ g ∈ frags ++ [f], g.name ≠ "" ∧ g.call = call) ↔
          call ∈ namedOrder frags ∨ (f.name ≠ "" ∧ f.call = call) := by
        simp [ih, or_and_right, exists_or]
      rw [hlast, namedOrder_snoc]
      split_ifs with h
      · rw [List.mem_append, List.mem_singleton]
        exact or_congr_right ⟨fun hc => ⟨h.1, hc.symm⟩, fun hc => hc.2.symm⟩
      · refine ⟨Or.inl, ?_⟩
        rintro (hmem | ⟨hname, rfl⟩)
        · exact hmem
        · by_contra hnot
          exact h ⟨hname, hnot⟩

/-- Each call is named first only once. -/
theorem nodup_namedOrder : (namedOrder frags).Nodup := by
  induction frags using List.reverseRecOn with
  | nil => exact List.nodup_nil
  | append_singleton frags f ih =>
      rw [namedOrder_snoc]
      split_ifs with h
      · rw [List.nodup_append]
        refine ⟨ih, List.nodup_singleton _, ?_⟩
        rintro a ha b hb rfl
        exact h.2 (List.mem_singleton.mp hb ▸ ha)
      · exact ih

/-- An index means a call that was heard of. -/
theorem callAt_mem {index : ℕ} (h : callAt frags index = some call) :
    ∃ f ∈ frags, f.call = call := by
  obtain ⟨f, hf, rfl⟩ := Option.map_eq_some_iff.mp h
  exact ⟨f, (List.mem_filter.mp (List.mem_of_getLast? hf)).1, rfl⟩

/-- The fragment before its arguments are read. -/
def Fragment.bare : Fragment := { f with arguments := "" }

@[simp] theorem namedOrder_bare : namedOrder (frags ++ [f.bare]) = namedOrder (frags ++ [f]) := by
  rw [namedOrder_snoc, namedOrder_snoc]
  rfl

@[simp] theorem callAt_bare (index : ℕ) :
    callAt (frags ++ [f.bare]) index = callAt (frags ++ [f]) index := by
  rw [callAt_snoc, callAt_snoc]
  rfl

@[simp] theorem argumentsOf_bare :
    argumentsOf (frags ++ [f.bare]) call = argumentsOf frags call := by
  rw [argumentsOf_snoc]
  split_ifs <;> exact String.append_empty

/-- The place of a named call does not change. -/
theorem idxOf_snoc (h : call ∈ namedOrder frags) :
    (namedOrder (frags ++ [f])).idxOf call = (namedOrder frags).idxOf call := by
  rw [namedOrder_snoc]
  split_ifs
  · exact List.idxOf_append_of_mem h
  · rfl

end Fragments

/-! ## The invariant -/

/-- What was sent of the arguments: all of them, or a part that decodes. -/
def Sent (loads : Codec) (arguments sent : String) (stopped : Bool) : Prop :=
  ∃ rest, arguments = sent ++ rest ∧ (stopped = false → rest = "") ∧
    (stopped = true → ∃ v, loads sent = .value v)

/-- `tool` is that of `call` after the fragments; `first` is the index of the first tool. -/
structure Tracks (loads : Codec) (first : ℤ) (frags : List Fragment) (events : List Event)
    (call : Call) (tool : Tool) : Prop where
  id : tool.id = .str call.id
  arguments : tool.arguments = argumentsOf frags call
  started : tool.started = decide (call ∈ namedOrder frags)
  named : call ∈ namedOrder frags → tool.name = .str call.name
  block : call ∈ namedOrder frags → tool.blockIndex = first + (namedOrder frags).idxOf call ∧
    Sent loads tool.arguments (inputText (deltasAt events tool.blockIndex)) tool.stopped
  unnamed : call ∉ namedOrder frags →
    tool.name.truthy = false ∧ tool.stopped = false ∧ tool.arguments = ""

/-- What holds whichever tools are tracked. -/
structure ToolsBase (reasoning text reason : String) (order : List Call) (s : State) : Prop where
  closed : Closed s
  reason : s.stopReason = reason
  index : s.currentBlockIndex = proseCount reasoning text + order.length
  spells : Spells reasoning text order s.events
  unused : ∀ i, s.currentBlockIndex ≤ i → inputText (deltasAt s.events i) = ""

/-- The tools other than that of `but` are those of their calls. -/
def Known (loads : Codec) (calls : List Call) (first : ℤ) (frags : List Fragment)
    (but : Option Call) (s : State) : Prop :=
  ∀ key tool, (∀ call, but = some call → key ≠ .str call.id) →
    s.trackedToolCalls.get? key = some tool →
    ∃ call ∈ calls, key = .str call.id ∧ Tracks loads first frags s.events call tool

structure ToolsInv (loads : Codec) (calls : List Call) (reasoning text reason : String)
    (frags : List Fragment) (s : State) : Prop
    extends ToolsBase reasoning text reason (namedOrder frags) s where
  known : Known loads calls (proseCount reasoning text) frags none s
  seen : ∀ f ∈ frags, ∃ tool, s.trackedToolCalls.get? (.str f.call.id) = some tool
  indices : ∀ i : ℕ, s.indexToToolId.get? (.num i) = (callAt frags i).map fun call => .str call.id

/-- The tool in hand once it has a name, if the fragment brings one. -/
structure Renamed (loads : Codec) (first : ℤ) (frags : List Fragment) (events : List Event)
    (f : Fragment) (tool : Tool) : Prop where
  id : tool.id = .str f.call.id
  arguments : tool.arguments = argumentsOf frags f.call
  started : tool.started = decide (f.call ∈ namedOrder frags)
  named : f.call ∈ namedOrder (frags ++ [f]) → tool.name = .str f.call.name
  block : f.call ∈ namedOrder frags → tool.blockIndex = first + (namedOrder frags).idxOf f.call ∧
    Sent loads tool.arguments (inputText (deltasAt events tool.blockIndex)) tool.stopped
  unnamed : f.call ∉ namedOrder (frags ++ [f]) → tool.name.truthy = false
  idle : f.call ∉ namedOrder frags → tool.stopped = false ∧ tool.arguments = ""

/-- The state once the tool of a fragment is found. -/
structure Resolved (loads : Codec) (calls : List Call) (reasoning text reason : String)
    (frags : List Fragment) (f : Fragment) (name : Json) (s : State) : Prop
    extends ToolsBase reasoning text reason (namedOrder frags) s where
  known : Known loads calls (proseCount reasoning text) frags (some f.call) s
  own : ∃ tool, s.trackedToolCalls.get? (.str f.call.id) = some tool ∧
    Renamed loads (proseCount reasoning text) frags s.events f (tool.rename name)
  seen : ∀ g ∈ frags, ∃ tool, s.trackedToolCalls.get? (.str g.call.id) = some tool
  indices : ∀ i : ℕ, s.indexToToolId.get? (.num i) =
    (callAt (frags ++ [f]) i).map fun call => .str call.id

section Steps

variable {loads : Codec} {freshId : List Json → String} {calls : List Call}
  {reasoning text reason : String} {frags : List Fragment} {f : Fragment} {first : ℤ}
  {events : List Event} {tool : Tool} {name : Json} {s : State}

/-- Calls are told apart by their ids. -/
theorem call_eq (hids : (calls.map Call.id).Nodup) {call call' : Call} (h : call ∈ calls)
    (h' : call' ∈ calls) (hid : call.id = call'.id) : call = call' :=
  List.inj_on_of_nodup_map hids h h' hid

/-! ## Finding the tool -/

/-- Without a name a tool keeps the one it has. -/
theorem rename_of_falsy (hname : name.truthy = false) : tool.rename name = tool := by
  rw [Tool.rename, hname]
  rfl

/-- A tracked tool takes the name of the fragment if it had none. -/
theorem Tracks.rename (h : Tracks loads first frags events f.call tool) (hcall : f.call.name ≠ "")
    (hf : Follows frags f) (hname : IsText f.name name) :
    Renamed loads first frags events f (tool.rename name) := by
  by_cases hmem : f.call ∈ namedOrder frags
  · have hsame : tool.rename name = tool := by
      rw [Tool.rename, h.named hmem, Json.truthy_str, decide_eq_true hcall, Bool.not_true,
        Bool.and_false]
      rfl
    have hmem' : f.call ∈ namedOrder (frags ++ [f]) := by
      rw [namedOrder_snoc, if_neg (fun hc => hc.2 hmem)]
      exact hmem
    rw [hsame]
    exact ⟨h.id, h.arguments, h.started, fun _ => h.named hmem, h.block,
      fun hn => absurd hmem' hn, fun hn => absurd hmem hn⟩
  · obtain ⟨hfalsy, hidle⟩ := h.unnamed hmem
    by_cases hempty : f.name = ""
    · have hsame : tool.rename name = tool :=
        rename_of_falsy (by rw [hname.truthy, hempty]; rfl)
      have hmem' : f.call ∉ namedOrder (frags ++ [f]) := by
        rwa [namedOrder_snoc, if_neg (fun hc => hc.1 hempty)]
      rw [hsame]
      exact ⟨h.id, h.arguments, h.started, fun hm => absurd hm hmem', h.block, fun _ => hfalsy,
        fun _ => hidle⟩
    · have hrename : tool.rename name = { tool with name := .str f.call.name } := by
        rw [Tool.rename, hname.truthy, hfalsy, decide_eq_true hempty, hname.eq_str hempty,
          hf.name.resolve_right hempty]
        rfl
      have hmem' : f.call ∈ namedOrder (frags ++ [f]) := by
        rw [namedOrder_snoc, if_pos ⟨hempty, hmem⟩]
        exact List.mem_append_right _ (List.mem_singleton_self _)
      rw [hrename]
      exact ⟨h.id, h.arguments, h.started, fun _ => rfl, fun hm => absurd hm hmem,
        fun hn => absurd hmem' hn, fun _ => hidle⟩

/-- A new tool has the name of the fragment from the start. -/
theorem renamed_new (hnew : ∀ g ∈ frags, g.call ≠ f.call) (hf : Follows frags f)
    (hname : IsText f.name name) : Renamed loads first frags events f
      ((Tool.new (.str f.call.id) name).rename name) := by
  have hsame : (Tool.new (.str f.call.id) name).rename name = Tool.new (.str f.call.id) name := by
    rw [Tool.rename, Tool.new, Bool.and_not_self]
    rfl
  have hmem : f.call ∉ namedOrder frags := by
    rw [mem_namedOrder]
    rintro ⟨g, hg, _, heq⟩
    exact hnew g hg heq
  have harguments : argumentsOf frags f.call = "" := by
    rw [argumentsOf, List.filter_eq_nil_iff.mpr fun g hg => by simpa using hnew g hg]
    rfl
  rw [hsame]
  refine ⟨rfl, harguments.symm, (decide_eq_false hmem).symm, ?_, fun hm => absurd hm hmem, ?_,
    fun _ => ⟨rfl, rfl⟩⟩
  · intro hm
    rw [namedOrder_snoc] at hm
    split_ifs at hm with hc
    · change name = _
      rw [hname.eq_str hc.1, hf.name.resolve_right hc.1]
    · exact absurd hm hmem
  · intro hn
    change name.truthy = false
    rw [hname.truthy]
    refine decide_eq_false fun hne => hn ?_
    rw [namedOrder_snoc, if_pos ⟨hne, hmem⟩]
    exact List.mem_append_right _ (List.mem_singleton_self _)

/-- The fragment finds the tool of its call. -/
theorem resolveTool_of_fragment {index id : Json} (hids : (calls.map Call.id).Nodup)
    (hcall : f.call ∈ calls) (hid : f.call.id ≠ "") (hcallName : f.call.name ≠ "")
    (hf : Follows frags f) (hindex : index = .num f.index) (hidText : IsText f.id id)
    (hname : IsText f.name name) :
    Triple (ToolsInv loads calls reasoning text reason frags)
      (resolveTool freshId index id name)
      (fun key s => key = .str f.call.id ∧
        Resolved loads calls reasoning text reason frags f name s) (fun _ _ => False) := by
  subst hindex
  unfold resolveTool
  intro s hs
  have hkey : ∀ tool, s.trackedToolCalls.get? (.str f.call.id) = some tool →
      Tracks loads (proseCount reasoning text) frags s.events f.call tool := by
    intro tool hget
    obtain ⟨call, hmem, hk, htracks⟩ := hs.known _ tool (by rintro _ ⟨⟩) hget
    obtain rfl := call_eq hids hcall hmem (Json.str.inj hk)
    exact htracks
  -- a fragment without an id follows one of its call under the same index
  by_cases hempty : f.id = ""
  · obtain ⟨_, hat⟩ := hf.id.resolve_left fun h => hid (h ▸ hempty)
    have hfalsy : ¬ id.truthy = true := by
      rw [hidText.truthy, hempty]
      decide
    have hget : s.indexToToolId.get? (.num f.index) = some (.str f.call.id) := by
      rw [hs.indices, hat]
      rfl
    obtain ⟨g, hg, hgcall⟩ := callAt_mem frags hat
    obtain ⟨tool, htool⟩ := hs.seen g hg
    rw [hgcall] at htool
    rw [if_neg hfalsy]
    simp only [keyOf, Json.canon, ofOption, pure_bind]
    rw [exec_bind, exec_get]
    simp only [hget, exec_pure]
    refine ⟨trivial, hs.toToolsBase, fun key tool _ => hs.known key tool (by rintro _ ⟨⟩),
      ⟨tool, htool, (hkey tool htool).rename hcallName hf hname⟩, hs.seen, fun i => ?_⟩
    rw [callAt_snoc, if_neg (fun hc => hc.2 hempty)]
    exact hs.indices i
  -- a fragment with an id: the index is now that of its call
  · have heq : f.id = f.call.id := hf.id.resolve_right fun h => hempty h.1
    have htruthy : id.truthy = true := by
      rw [hidText.truthy]
      exact decide_eq_true hempty
    obtain rfl : id = .str f.call.id := by rw [hidText.eq_str hempty, heq]
    rw [if_pos htruthy]
    simp only [keyOf, Json.canon, ofOption, pure_bind]
    rw [exec_bind, exec_modify]
    simp only
    rw [exec_bind, exec_modify]
    simp only [exec_pure]
    have hindices : ∀ i : ℕ, (s.indexToToolId.set (.num f.index) (.str f.call.id)).get? (.num i) =
        (callAt (frags ++ [f]) i).map fun call => .str call.id := by
      intro i
      rw [Dict.get?_set, callAt_snoc, hs.indices]
      by_cases hi : i = f.index
      · rw [if_pos (by rw [hi]), if_pos ⟨hi.symm, hempty⟩]
        rfl
      · rw [if_neg (fun h => hi (by exact_mod_cast Json.num.inj h)),
          if_neg (fun h => hi h.1.symm)]
    refine ⟨trivial, ?_⟩
    -- the tool is known already or new
    split_ifs with hmem
    · obtain ⟨tool, htool⟩ := (Dict.mem_iff_exists ..).mp hmem
      exact ⟨⟨hs.closed, hs.reason, hs.index, hs.spells, hs.unused⟩,
        fun key tool _ => hs.known key tool (by rintro _ ⟨⟩),
        ⟨tool, htool, (hkey tool htool).rename hcallName hf hname⟩, hs.seen, hindices⟩
    · have hnew : ∀ g ∈ frags, g.call ≠ f.call := by
        intro g hg hgcall
        obtain ⟨tool, htool⟩ := hs.seen g hg
        exact hmem (Dict.mem_of_get? (hgcall ▸ htool))
      refine ⟨⟨hs.closed, hs.reason, hs.index, hs.spells, hs.unused⟩, ?_,
        ⟨_, Dict.get?_set_self .., renamed_new hnew hf hname⟩, ?_, hindices⟩
      · intro key tool hk hget
        have hk := hk f.call rfl
        refine hs.known key tool (by rintro _ ⟨⟩) ?_
        rwa [State.setTool, Dict.get?_set_ne _ _ hk] at hget
      · intro g hg
        obtain ⟨tool, htool⟩ := hs.seen g hg
        change ∃ tool, (s.trackedToolCalls.set _ _).get? _ = some tool
        rw [Dict.get?_set]
        split_ifs
        · exact ⟨_, rfl⟩
        · exact ⟨tool, htool⟩

/-! ## Starting the block -/

/-- Other calls are not concerned by the fragment. -/
theorem Tracks.other {call : Call} (h : Tracks loads first frags events call tool)
    (hne : f.call ≠ call) {events' : List Event}
    (hinput : call ∈ namedOrder frags → inputText (deltasAt events' tool.blockIndex) =
      inputText (deltasAt events tool.blockIndex)) :
    Tracks loads first (frags ++ [f]) events' call tool := by
  have hmem : call ∈ namedOrder (frags ++ [f]) ↔ call ∈ namedOrder frags := by
    rw [namedOrder_snoc]
    split_ifs
    · rw [List.mem_append, List.mem_singleton]
      exact or_iff_left (Ne.symm hne)
    · rfl
  have harguments : argumentsOf (frags ++ [f]) call = argumentsOf frags call := by
    rw [argumentsOf_snoc, if_neg hne, String.append_empty]
  refine ⟨h.id, h.arguments.trans harguments.symm, ?_, fun hm => h.named (hmem.mp hm), ?_,
    fun hn => h.unnamed (hn ∘ hmem.mpr)⟩
  · rw [h.started]
    exact decide_eq_decide.mpr hmem.symm
  · intro hm
    have hm := hmem.mp hm
    rw [hinput hm, idxOf_snoc _ _ hm]
    exact h.block hm

/-- The block of a started tool comes before the running index. -/
theorem block_lt {order : List Call} {call : Call} (hs : ToolsBase reasoning text reason order s)
    (hmem : call ∈ order) :
    proseCount reasoning text + (order.idxOf call : ℤ) < s.currentBlockIndex := by
  have hlt := List.idxOf_lt_length_iff.mpr hmem
  rw [hs.index]
  omega

/-- An update of the tool of the fragment that leaves the others to their calls. -/
theorem known_setTool {frags' : List Fragment} {s' : State} {new : Tool}
    (h : Known loads calls first frags (some f.call) s) (hcall : f.call ∈ calls)
    (htools : s'.trackedToolCalls = s.trackedToolCalls.set (.str f.call.id) new)
    (hown : Tracks loads first frags' s'.events f.call new)
    (hother : ∀ call tool, f.call ≠ call → Tracks loads first frags s.events call tool →
      Tracks loads first frags' s'.events call tool) :
    Known loads calls first frags' none s' := by
  intro key tool _ hget
  rw [htools, Dict.get?_set] at hget
  split_ifs at hget with hk
  · obtain rfl := Option.some.inj hget
    exact ⟨f.call, hcall, hk, hown⟩
  · obtain ⟨call, hmem, hkey, htracks⟩ := h key tool (fun _ heq => Option.some.inj heq ▸ hk) hget
    refine ⟨call, hmem, hkey, hother call tool ?_ htracks⟩
    rintro rfl
    exact hk hkey

/-- A tool that is set is seen, and the others still are. -/
theorem seen_setTool {s' : State} {new : Tool}
    (h : ∀ g ∈ frags, ∃ tool, s.trackedToolCalls.get? (.str g.call.id) = some tool)
    (htools : s'.trackedToolCalls = s.trackedToolCalls.set (.str f.call.id) new) :
    ∀ g ∈ frags ++ [f], ∃ tool, s'.trackedToolCalls.get? (.str g.call.id) = some tool := by
  intro g hg
  rw [htools, Dict.get?_set]
  split_ifs with hk
  · exact ⟨new, rfl⟩
  · rcases List.mem_append.mp hg with hg | hg
    · exact h g hg
    · rw [List.mem_singleton.mp hg] at hk
      exact absurd rfl hk

/-- With a name, the block is started. -/
theorem Resolved.startTool (h : Resolved loads calls reasoning text reason frags f name s)
    (hcall : f.call ∈ calls) (hname : f.call.name ≠ "")
    (hget : s.trackedToolCalls.get? (.str f.call.id) = some tool) :
    ToolsInv loads calls reasoning text reason (frags ++ [f.bare])
      (s.startTool (.str f.call.id) (tool.rename name)) := by
  obtain ⟨_, hown, hrenamed⟩ := h.own
  obtain rfl := Option.some.inj (hget.symm.trans hown)
  generalize tool.rename name = tool at hrenamed
  unfold State.startTool
  -- the block is started by the first fragment with the name
  by_cases hnew : f.name ≠ "" ∧ f.call ∉ namedOrder frags
  · have horder : namedOrder (frags ++ [f.bare]) = namedOrder frags ++ [f.call] := by
      rw [namedOrder_bare, namedOrder_snoc, if_pos hnew]
    have hmem : f.call ∈ namedOrder (frags ++ [f]) := by
      rw [← namedOrder_bare, horder]
      exact List.mem_append_right _ (List.mem_singleton_self _)
    obtain ⟨hstopped, harguments⟩ := hrenamed.idle hnew.2
    have hcond : (!tool.started && tool.name.truthy) = true := by
      rw [hrenamed.started, hrenamed.named hmem, decide_eq_false hnew.2, Json.truthy_str,
        decide_eq_true hname]
      rfl
    rw [if_pos hcond, hrenamed.id, hrenamed.named hmem]
    refine ⟨⟨h.closed, h.reason, ?_, ?_, ?_⟩, ?_, ?_, fun i => ?_⟩
    -- the next block
    · change s.currentBlockIndex + 1 = _
      rw [horder, List.length_append, List.length_singleton, h.index]
      push_cast
      ring
    · rw [horder]
      exact h.spells.tool f.call h.index
    · intro i hi
      change inputText (deltasAt (s.events ++ [_]) i) = ""
      rw [deltasAt_start]
      exact h.unused i ((lt_add_one _).le.trans hi)
    -- the tool itself, then the others
    · refine known_setTool (f := f) h.known hcall rfl ?_ ?_
      · refine ⟨rfl, ?_, ?_, fun _ => rfl, fun _ => ⟨?_, "", ?_, fun _ => rfl, ?_⟩, ?_⟩
        · rw [argumentsOf_bare]
          exact hrenamed.arguments
        · exact (decide_eq_true (horder ▸ List.mem_append_right _ (List.mem_singleton_self _))).symm
        · change s.currentBlockIndex = _
          rw [horder, List.idxOf_append_of_notMem hnew.2, List.idxOf_cons_self, h.index]
          rfl
        · change tool.arguments = inputText (deltasAt (s.events ++ [_]) _) ++ ""
          rw [deltasAt_start, h.unused _ le_rfl, harguments]
          rfl
        · intro hs
          change tool.stopped = true at hs
          rw [hstopped] at hs
          cases hs
        · intro hn
          rw [namedOrder_bare] at hn
          exact absurd hmem hn
      · intro call tool' hne htracks
        exact htracks.other (f := f.bare) hne fun _ => congrArg inputText (deltasAt_start ..)
    · exact seen_setTool (f := f.bare) h.seen rfl
    · rw [callAt_bare]
      exact h.indices i
  -- no block is started: it was already, or the name has not come
  · have horder : namedOrder (frags ++ [f.bare]) = namedOrder frags := by
      rw [namedOrder_bare, namedOrder_snoc, if_neg hnew]
    have hcond : ¬ (!tool.started && tool.name.truthy) = true := by
      intro hcond
      simp only [Bool.and_eq_true, Bool.not_eq_true'] at hcond
      rw [hrenamed.started] at hcond
      have hnot : f.call ∉ namedOrder (frags ++ [f]) := by
        rw [← namedOrder_bare, horder]
        exact of_decide_eq_false hcond.1
      rw [hrenamed.unnamed hnot] at hcond
      cases hcond.2
    rw [if_neg hcond]
    refine ⟨⟨h.closed, h.reason, ?_, ?_, h.unused⟩, ?_, ?_, fun i => ?_⟩
    · rw [horder]
      exact h.index
    · rw [horder]
      exact h.spells
    · refine known_setTool (f := f) h.known hcall rfl ?_ ?_
      · refine ⟨hrenamed.id, ?_, ?_, ?_, ?_, ?_⟩
        · rw [argumentsOf_bare]
          exact hrenamed.arguments
        · rw [horder]
          exact hrenamed.started
        · rw [namedOrder_bare]
          exact hrenamed.named
        · rw [horder]
          exact hrenamed.block
        · intro hn
          have hn' := hn
          rw [horder] at hn'
          rw [namedOrder_bare] at hn
          exact ⟨hrenamed.unnamed hn, hrenamed.idle hn'⟩
      · intro call tool' hne htracks
        exact htracks.other (f := f.bare) hne fun _ => rfl
    · exact seen_setTool (f := f.bare) h.seen rfl
    · rw [callAt_bare]
      exact h.indices i

/-! ## Adding arguments -/

/-- Each call is tracked by the tool under its id. -/
theorem ToolsInv.tracks (h : ToolsInv loads calls reasoning text reason frags s)
    (hids : (calls.map Call.id).Nodup) {call : Call} (hcall : call ∈ calls)
    (hget : s.trackedToolCalls.get? (.str call.id) = some tool) :
    Tracks loads (proseCount reasoning text) frags s.events call tool := by
  obtain ⟨call', hmem, hk, htracks⟩ := h.known _ tool (by rintro _ ⟨⟩) hget
  obtain rfl := call_eq hids hcall hmem (Json.str.inj hk)
  exact htracks

/-- A call has its name before its arguments. -/
theorem Follows.mem_named (hf : Follows frags f) (harguments : f.arguments ≠ "") :
    f.call ∈ namedOrder (frags ++ [f]) := by
  rw [namedOrder_snoc]
  rcases hf.named harguments with hname | hmem
  · split_ifs with hc
    · exact List.mem_append_right _ (List.mem_singleton_self _)
    · by_contra hnot
      exact hc ⟨hname, hnot⟩
  · split_ifs
    · exact List.mem_append_left _ hmem
    · exact hmem

/-- The fragments of other calls do not tell the bare fragment from the fragment. -/
theorem Tracks.of_bare {call : Call}
    (h : Tracks loads first (frags ++ [f.bare]) events call tool) (hne : f.call ≠ call)
    {events' : List Event} (hinput : call ∈ namedOrder (frags ++ [f]) →
      inputText (deltasAt events' tool.blockIndex) = inputText (deltasAt events tool.blockIndex)) :
    Tracks loads first (frags ++ [f]) events' call tool := by
  have harguments : argumentsOf (frags ++ [f]) call = argumentsOf (frags ++ [f.bare]) call := by
    rw [argumentsOf_bare, argumentsOf_snoc, if_neg hne, String.append_empty]
  obtain ⟨hid, hargs, hstarted, hnamed, hblock, hunnamed⟩ := h
  rw [namedOrder_bare] at hstarted hnamed hblock hunnamed
  refine ⟨hid, hargs.trans harguments.symm, hstarted, hnamed, ?_, hunnamed⟩
  intro hm
  rw [hinput hm]
  exact hblock hm

/-- The arguments are buffered, and sent while the block is open. -/
theorem ToolsInv.appendArguments
    (h : ToolsInv loads calls reasoning text reason (frags ++ [f.bare]) s)
    (hids : (calls.map Call.id).Nodup) (hcall : f.call ∈ calls)
    (hmem : f.call ∈ namedOrder (frags ++ [f]))
    (hget : s.trackedToolCalls.get? (.str f.call.id) = some tool) :
    ToolsInv loads calls reasoning text reason (frags ++ [f])
      (s.appendArguments (.str f.call.id) tool f.arguments) := by
  have htracks := h.tracks hids hcall hget
  have hmem0 : f.call ∈ namedOrder (frags ++ [f.bare]) := by rwa [namedOrder_bare]
  obtain ⟨hindex, rest, hrest, hopen, hdone⟩ := htracks.block hmem0
  have hlt := block_lt h.toToolsBase hmem0
  have hstarted : tool.started = true := htracks.started.trans (decide_eq_true hmem0)
  have hknown : Known loads calls (proseCount reasoning text) (frags ++ [f.bare]) (some f.call) s :=
    fun key tool _ => h.known key tool (by rintro _ ⟨⟩)
  have hseen : ∀ g ∈ frags, ∃ tool, s.trackedToolCalls.get? (.str g.call.id) = some tool :=
    fun g hg => h.seen g (List.mem_append_left _ hg)
  have harguments : tool.arguments ++ f.arguments = argumentsOf (frags ++ [f]) f.call := by
    rw [argumentsOf_snoc, if_pos rfl, htracks.arguments, argumentsOf_bare]
  have hbase := h.toToolsBase
  rw [namedOrder_bare] at hbase
  unfold State.appendArguments
  cases hstopped : tool.stopped with
  -- the block is open, and the chunk is sent into it
  | false =>
      have hsent : tool.arguments = inputText (deltasAt s.events tool.blockIndex) := by
        rw [hrest, hopen hstopped, String.append_empty]
      rw [if_pos (by rw [hstarted]; rfl)]
      refine ⟨⟨hbase.closed, hbase.reason, hbase.index, hbase.spells.input _ _, ?_⟩, ?_,
        seen_setTool hseen rfl, fun i => ?_⟩
      · intro i hi
        have hne : tool.blockIndex ≠ i := by
          rw [hindex]
          exact (lt_of_lt_of_le hlt hi).ne
        change inputText (deltasAt (s.events ++ [_]) i) = ""
        rw [deltasAt_delta_ne _ _ _ _ hne]
        exact hbase.unused i hi
      · refine known_setTool hknown hcall rfl ?_ ?_
        · refine ⟨htracks.id, harguments, ?_, fun _ => htracks.named hmem0, fun _ => ⟨?_, "", ?_,
            fun _ => rfl, ?_⟩, fun hn => absurd hmem hn⟩
          · rw [← namedOrder_bare]
            exact htracks.started
          · rw [← namedOrder_bare]
            exact hindex
          · change tool.arguments ++ f.arguments =
              inputText (deltasAt (s.events ++ [_]) tool.blockIndex) ++ ""
            rw [deltasAt_delta_self, inputText_input, hsent, String.append_empty]
          · rintro ⟨⟩
        -- the other tools have other blocks
        · intro call tool' hne htracks'
          refine htracks'.of_bare hne fun hm => ?_
          rw [← namedOrder_bare] at hm
          have hother := (htracks'.block hm).1
          change inputText (deltasAt (s.events ++ [_]) _) = _
          rw [deltasAt_delta_ne]
          rw [hindex, hother]
          intro heq
          exact hne (List.idxOf_inj hmem0 |>.mp (by omega))
      · rw [← callAt_bare]
        exact h.indices i
  -- the block was stopped: the chunk is kept with the tool only
  | true =>
      rw [if_neg (by rw [Bool.not_true, Bool.and_false]; decide)]
      refine ⟨⟨hbase.closed, hbase.reason, hbase.index, hbase.spells, hbase.unused⟩, ?_,
        seen_setTool hseen rfl, fun i => ?_⟩
      · refine known_setTool hknown hcall rfl ?_ fun call tool' hne htracks' =>
          htracks'.of_bare hne fun _ => rfl
        refine ⟨htracks.id, harguments, ?_, fun _ => htracks.named hmem0, fun _ => ⟨?_,
          rest ++ f.arguments, ?_, ?_, fun _ => hdone hstopped⟩, fun hn => absurd hmem hn⟩
        · rw [← namedOrder_bare]
          exact htracks.started
        · rw [← namedOrder_bare]
          exact hindex
        · change tool.arguments ++ f.arguments = _
          rw [hrest, String.append_assoc]
          rfl
        · rintro ⟨⟩
      · rw [← callAt_bare]
        exact h.indices i

/-- The block is stopped once the arguments decode. -/
theorem ToolsInv.stopTool (h : ToolsInv loads calls reasoning text reason frags s)
    (hids : (calls.map Call.id).Nodup) {call : Call} (hcall : call ∈ calls)
    (hmem : call ∈ namedOrder frags)
    (hget : s.trackedToolCalls.get? (.str call.id) = some tool) (hstopped : tool.stopped = false)
    {v : Json} (hloads : loads tool.arguments = .value v) :
    ToolsInv loads calls reasoning text reason frags
      ((s.setTool (.str call.id) { tool with stopped := true }).yield
        (.contentBlockStop tool.blockIndex)) := by
  have htracks := h.tracks hids hcall hget
  obtain ⟨hindex, rest, hrest, hopen, _⟩ := htracks.block hmem
  have hsent : tool.arguments = inputText (deltasAt s.events tool.blockIndex) := by
    rw [hrest, hopen hstopped, String.append_empty]
  refine ⟨⟨h.closed, h.reason, h.index, h.spells.stop _, ?_⟩, ?_, ?_, h.indices⟩
  · intro i hi
    change inputText (deltasAt (s.events ++ [_]) i) = ""
    rw [deltasAt_stop]
    exact h.unused i hi
  · intro key tool' _ hget'
    change (s.trackedToolCalls.set _ _).get? _ = _ at hget'
    rw [Dict.get?_set] at hget'
    split_ifs at hget' with hk
    -- the stopped tool has sent all it has, which can be loaded
    · obtain rfl := Option.some.inj hget'
      refine ⟨call, hcall, hk, htracks.id, htracks.arguments, htracks.started, htracks.named,
        fun _ => ⟨hindex, "", ?_, fun _ => rfl, fun _ => ⟨v, ?_⟩⟩, fun hn => absurd hmem hn⟩
      · change tool.arguments = inputText (deltasAt (s.events ++ [_]) tool.blockIndex) ++ ""
        rw [deltasAt_stop, hsent, String.append_empty]
      · change loads (inputText (deltasAt (s.events ++ [_]) tool.blockIndex)) = _
        rw [deltasAt_stop, ← hsent]
        exact hloads
    · obtain ⟨call', hcall', hkey, htracks'⟩ := h.known key tool' (by rintro _ ⟨⟩) hget'
      refine ⟨call', hcall', hkey, htracks'.id, htracks'.arguments, htracks'.started,
        htracks'.named, fun hm => ?_, htracks'.unnamed⟩
      change _ ∧ Sent loads _ (inputText (deltasAt (s.events ++ [_]) _)) _
      rw [deltasAt_stop]
      exact htracks'.block hm
  · intro g hg
    obtain ⟨tool', htool'⟩ := h.seen g hg
    change ∃ tool, (s.trackedToolCalls.set _ _).get? _ = some tool
    rw [Dict.get?_set]
    split_ifs
    · exact ⟨_, rfl⟩
    · exact ⟨tool', htool'⟩

/-- The arguments of a fragment go to the block of its call, which stops when they are whole. -/
theorem handleArguments_of_fragment {arguments : Json} (hlaw : loads.Lawful)
    (hids : (calls.map Call.id).Nodup) (hcall : f.call ∈ calls) (hf : Follows frags f)
    (harguments : IsText f.arguments arguments)
    (hwhole : ∃ more members, loads (argumentsOf (frags ++ [f]) f.call ++ more) =
      .value (.obj members)) :
    Triple (ToolsInv loads calls reasoning text reason (frags ++ [f.bare]))
      (handleArguments loads (.str f.call.id) arguments)
      (fun _ => ToolsInv loads calls reasoning text reason (frags ++ [f])) (fun _ _ => False) := by
  intro s hs
  unfold handleArguments
  -- a fragment without arguments is skipped
  by_cases hempty : f.arguments = ""
  · have hfalsy : ¬ arguments.truthy = true := by
      rw [harguments.truthy, hempty]
      decide
    have hbare : f.bare = f := by
      rw [Fragment.bare, ← hempty]
    rw [hbare] at hs
    rw [if_neg hfalsy]
    exact hs
  · have htruthy : arguments.truthy = true := by
      rw [harguments.truthy]
      exact decide_eq_true hempty
    obtain ⟨tool, hget⟩ := hs.seen f.bare (List.mem_append_right _ (List.mem_singleton_self _))
    change s.trackedToolCalls.get? (.str f.call.id) = some tool at hget
    have hmem := hf.mem_named hempty
    have happend := hs.appendArguments hids hcall hmem hget
    have hget' : (s.appendArguments (.str f.call.id) tool f.arguments).trackedToolCalls.get?
        (.str f.call.id) = some { tool with arguments := tool.arguments ++ f.arguments } := by
      unfold State.appendArguments
      split_ifs <;> exact Dict.get?_set_self ..
    have htracks := happend.tracks hids hcall hget'
    obtain ⟨more, members, hwhole⟩ := hwhole
    obtain ⟨hnoError, -⟩ := hlaw.part _ _ _ hwhole
    rw [if_pos htruthy, harguments.eq_str hempty, exec_bind, exec_get]
    simp only [hget, ofOption, pure_bind, Json.asStr_str]
    rw [exec_bind, exec_set]
    simp only
    unfold Anthropic.stopTool
    split_ifs with hcond
    · simp only [Bool.and_eq_true, Bool.not_eq_true'] at hcond
      have heq : tool.arguments ++ f.arguments = argumentsOf (frags ++ [f]) f.call :=
        htracks.arguments
      -- the arguments so far are the start of a whole, so loading them raises no other error
      cases hloads : loads (tool.arguments ++ f.arguments) with
      | value v => exact happend.stopTool hids hcall hmem hget' hcond.1.2 hloads
      | otherError => exact absurd (heq ▸ hloads) hnoError
      | decodeError | valueError => exact happend
    · exact happend

end Steps

end OpenWebUI.Anthropic
