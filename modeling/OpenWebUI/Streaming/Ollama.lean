import OpenWebUI.Streaming.CallIds
import OpenWebUI.Streaming.Split

/-! # Tool calls of an Ollama reply

The streaming adapter converts the calls of each chunk on their own and gives a call without
an index the index 0, and the consumer merges by index and splits again. The calls handed to
the tool loop are those of the whole reply if and only if calls with one index have one name
and nothing stands between them that differs.
-/

namespace OpenWebUI.Streaming

open Py

/-- A tool call of Ollama; `functionIndex` is the index in its function. -/
structure OllamaCall where
  index : Option ℤ
  id : Option String
  functionIndex : Option ℤ
  name : String
  arguments : Obj
deriving DecidableEq

def OllamaCall.givenIndex (call : OllamaCall) : Option ℤ := call.index.or call.functionIndex

/-- `tool_call.get('index', function.get('index', 0))`. -/
def OllamaCall.openaiIndex (call : OllamaCall) : ℤ := call.index.getD (call.functionIndex.getD 0)

/-- `convert_ollama_tool_call_to_openai`; `newId` are the ids made for calls without one. -/
def convertOllamaToolCallToOpenai (codec : JsonCodec) (newId : ℕ → String)
    (calls : List OllamaCall) :
    List ToolDelta :=
  calls.mapIdx fun k call => ⟨call.openaiIndex, some (call.id.getD (newId k)), some call.name,
    .str (codec.dumps (.obj call.arguments))⟩

/-- The ids that are made on the way. -/
structure NewIds where
  converted : ℕ → ℕ → String
  collected : ℕ → String
  split : ℤ → ℕ → String

/-- The calls that `stream_body_handler` hands to the tool loop, from the chunks of
`convert_streaming_response_ollama_to_openai`. -/
def streamedCalls (codec : JsonCodec) (ids : NewIds) (prior : List String)
    (chunks : List (List OllamaCall)) : List CollectedCall :=
  splitToolCalls codec ids.split (collectRound ⟨codec.dumps, ids.collected⟩ prior
    (chunks.mapIdx fun n calls =>
      convertOllamaToolCallToOpenai codec (ids.converted n) calls)).calls

/-- Their names and the values of their arguments. -/
def streamedPairs (codec : JsonCodec) (ids : NewIds) (prior : List String)
    (chunks : List (List OllamaCall)) : List (String × Option Json) :=
  (streamedCalls codec ids prior chunks).map fun call => (call.name, codec.loads call.arguments)

/-- The same of `convert_response_ollama_to_openai`. -/
def wholePairs (codec : JsonCodec) (newId : ℕ → String) (calls : List OllamaCall) :
    List (String × Option Json) :=
  (convertOllamaToolCallToOpenai codec newId calls).map fun call =>
    (call.name.getD "", codec.loads (fragmentText codec.dumps call.arguments))

/-! ## Grouping by index -/

/-- The values that are not yet seen, each at its first place. -/
def firstSeen : List ℤ → List ℤ → List ℤ
  | _, [] => []
  | seen, index :: rest =>
    if index ∈ seen then firstSeen seen rest else index :: firstSeen (index :: seen) rest

/-- The calls with each index together, at the place of the first of them. -/
def groupedCalls (calls : List OllamaCall) : List OllamaCall :=
  (firstSeen [] (calls.map OllamaCall.openaiIndex)).flatMap fun index =>
    calls.filter (·.openaiIndex = index)

/-- Calls with one index have one name. -/
def SameNames (calls : List OllamaCall) : Prop :=
  ∀ call ∈ calls, ∀ call' ∈ calls, call.openaiIndex = call'.openaiIndex → call.name = call'.name

def OllamaCall.pair (call : OllamaCall) : String × Obj := (call.name, call.arguments)

section Grouping

variable {calls : List OllamaCall}

theorem mem_firstSeen (l : List ℤ) : ∀ (seen : List ℤ) (index : ℤ),
    index ∈ firstSeen seen l ↔ index ∈ l ∧ index ∉ seen := by
  induction l with
  | nil => simp [firstSeen]
  | cons first l ih =>
      intro seen index
      rw [firstSeen]
      split_ifs with hseen
      · rw [ih, List.mem_cons]
        constructor
        · exact fun h => ⟨Or.inr h.1, h.2⟩
        · rintro ⟨rfl | h, hnot⟩
          · exact absurd hseen hnot
          · exact ⟨h, hnot⟩
      · rw [List.mem_cons, ih, List.mem_cons, List.mem_cons]
        by_cases hfirst : index = first
        · simp [hfirst, hseen]
        · simp [hfirst]

theorem nodup_firstSeen (l : List ℤ) : ∀ seen : List ℤ, (firstSeen seen l).Nodup := by
  induction l with
  | nil => exact fun _ => List.nodup_nil
  | cons first l ih =>
      intro seen
      rw [firstSeen]
      split_ifs
      · exact ih seen
      · refine List.nodup_cons.mpr ⟨fun hmem => ?_, ih _⟩
        exact ((mem_firstSeen l _ first).mp hmem).2 List.mem_cons_self

/-- Grouping by the keys that occur rearranges a list. -/
theorem perm_groups (keys : List ℤ) : ∀ {calls : List OllamaCall}, keys.Nodup →
    (∀ call ∈ calls, call.openaiIndex ∈ keys) →
    (keys.flatMap fun index => calls.filter (·.openaiIndex = index)).Perm calls := by
  induction keys with
  | nil =>
      intro calls _ h
      have hnil : calls = [] := List.eq_nil_iff_forall_not_mem.mpr fun call hcall => by
        cases h call hcall
      rw [hnil]
      exact List.Perm.refl _
  | cons key keys ih =>
      intro calls hnodup h
      obtain ⟨hkey, hkeys⟩ := List.nodup_cons.mp hnodup
      have hothers : ∀ call ∈ calls.filter fun call => call.openaiIndex ≠ key,
          call.openaiIndex ∈ keys := by
        intro call hcall
        obtain ⟨hmem, hne⟩ := List.mem_filter.mp hcall
        exact (List.mem_cons.mp (h call hmem)).resolve_left (of_decide_eq_true hne)
      have hrest := ih hkeys hothers
      have hsame : (keys.flatMap fun index =>
            (calls.filter fun call => call.openaiIndex ≠ key).filter (·.openaiIndex = index)) =
          keys.flatMap fun index => calls.filter (·.openaiIndex = index) := by
        refine List.flatMap_congr fun index hindex => ?_
        rw [List.filter_filter]
        refine List.filter_congr fun call _ => ?_
        by_cases heq : call.openaiIndex = index
        · have hne : call.openaiIndex ≠ key := fun hk => hkey (hk ▸ heq ▸ hindex)
          simp [heq, heq ▸ hne]
        · simp [heq]
      rw [hsame] at hrest
      rw [List.flatMap_cons]
      refine (hrest.append_left _).trans ?_
      have hsplit := List.filter_append_perm (fun call : OllamaCall => call.openaiIndex = key) calls
      simpa using hsplit

/-- Grouping only reorders the calls. -/
theorem perm_groupedCalls (calls : List OllamaCall) : (groupedCalls calls).Perm calls := by
  refine perm_groups _ (nodup_firstSeen _ _) fun call hcall => ?_
  rw [mem_firstSeen]
  exact ⟨List.mem_map_of_mem hcall, List.not_mem_nil⟩

end Grouping

/-! ## What is collected -/

/-- The delta of a call, without an id. -/
def OllamaCall.delta (codec : JsonCodec) (call : OllamaCall) : ToolDelta :=
  ⟨call.openaiIndex, none, some call.name, .str (codec.dumps (.obj call.arguments))⟩

def ToolDelta.withoutId (d : ToolDelta) : ToolDelta := { d with id := none }

/-- The last name of the calls with an index that is not empty. -/
def lastName (calls : List OllamaCall) (index : ℤ) : String :=
  (((calls.filter (·.openaiIndex = index)).map OllamaCall.name).filter (· ≠ "")).getLastD ""

section Collected

variable {codec : JsonCodec} {ids : NewIds} {prior : List String} {calls : List OllamaCall}
  {chunks : List (List OllamaCall)}

/-- The collected calls are those sent. -/
theorem collectRound_view (s : Supply) (prior : List String) (chunks : List (List ToolDelta)) :
    (collectRound s prior chunks).calls.map CollectedCall.view = sent s.dumps chunks.flatten := by
  have hchunk : ∀ (more : List (List ToolDelta)) (deltas : List ToolDelta) (acc : Collected),
      acc.calls.map CollectedCall.view = sent s.dumps deltas →
      (more.foldl (collectChunk s prior) acc).calls.map CollectedCall.view =
        sent s.dumps (deltas ++ more.flatten) := by
    intro more
    induction more with
    | nil =>
        intro deltas acc h
        rw [List.flatten_nil, List.append_nil]
        exact h
    | cons chunk more ih =>
        intro deltas acc h
        have hone : (collectChunk s prior acc chunk).calls.map CollectedCall.view =
            sent s.dumps (deltas ++ chunk) := by
          rw [collectChunk]
          split_ifs with hnil
          · rw [List.isEmpty_iff.mp hnil, List.append_nil]
            exact h
          · exact foldl_collectDelta_view _ chunk (acc.calls, acc.made) h
        have hnext := ih _ _ hone
        rwa [List.append_assoc] at hnext
  have hall := hchunk chunks [] Collected.empty rfl
  rwa [List.nil_append] at hall

/-- The indices introduced are those first seen. -/
theorem indices_eq_firstSeen (deltas : List ToolDelta) : ∀ seen : List ℤ,
    (introduces seen deltas).map ToolDelta.index = firstSeen seen (deltas.map ToolDelta.index) := by
  induction deltas with
  | nil => exact fun _ => rfl
  | cons d deltas ih =>
      intro seen
      rw [introduces, List.map_cons, firstSeen]
      split_ifs
      · exact ih seen
      · rw [List.map_cons, ih]

/-- Ids do not matter for names and arguments. -/
theorem sent_withoutId (dumps : Json → String) (deltas : List ToolDelta) :
    sent dumps (deltas.map ToolDelta.withoutId) = sent dumps deltas := by
  have hfilter : ∀ index, (deltas.map ToolDelta.withoutId).filter (·.index = index) =
      (deltas.filter (·.index = index)).map ToolDelta.withoutId := fun index => List.filter_map
  have hindices : indices (deltas.map ToolDelta.withoutId) = indices deltas := by
    rw [indices, indices, indices_eq_firstSeen, indices_eq_firstSeen, List.map_map]
    rfl
  rw [sent, sent, hindices]
  refine List.map_congr_left fun index _ => ?_
  rw [nameOf, argumentsOf, hfilter, List.filterMap_map, List.map_map]
  rfl

/-- Apart from the id a call is converted alike each time. -/
theorem convert_withoutId (codec : JsonCodec) (newId : ℕ → String) (calls : List OllamaCall) :
    (convertOllamaToolCallToOpenai codec newId calls).map ToolDelta.withoutId =
      calls.map (OllamaCall.delta codec) := by
  refine List.ext_getElem (by simp [convertOllamaToolCallToOpenai]) fun k hk _ => ?_
  simp [convertOllamaToolCallToOpenai, ToolDelta.withoutId, OllamaCall.delta]

/-- The deltas of all chunks are those of the calls. -/
theorem streamed_withoutId (codec : JsonCodec) (newId : ℕ → ℕ → String)
    (chunks : List (List OllamaCall)) :
    ((chunks.mapIdx fun n calls =>
        convertOllamaToolCallToOpenai codec (newId n) calls).flatten).map ToolDelta.withoutId =
      chunks.flatten.map (OllamaCall.delta codec) := by
  rw [List.map_flatten, List.map_flatten]
  refine congrArg List.flatten (List.ext_getElem (by simp) fun n _ _ => ?_)
  simp only [List.getElem_map, List.getElem_mapIdx]
  exact convert_withoutId codec (newId n) _

/-- The name sent is the last one. -/
theorem nameOf_deltas (calls : List OllamaCall) (index : ℤ) :
    nameOf (calls.map (OllamaCall.delta codec)) index = lastName calls index := by
  rw [nameOf, lastName, List.filter_map, List.filterMap_map, ← List.filterMap_eq_map]
  rfl

/-- The arguments sent are those of the group, joined. -/
theorem argumentsOf_deltas (calls : List OllamaCall) (index : ℤ) :
    argumentsOf codec.dumps (calls.map (OllamaCall.delta codec)) index =
      String.join (((calls.filter (·.openaiIndex = index)).map OllamaCall.arguments).map
        fun members => codec.dumps (.obj members)) := by
  rw [argumentsOf, List.filter_map, List.map_map, List.map_map]
  rfl

/-- The names and texts of the calls that are handed on: group by group, each with the last
name of its group. -/
theorem streamedCalls_texts (hdecodes : ∀ call ∈ chunks.flatten, codec.Decodes call.arguments) :
    (streamedCalls codec ids prior chunks).map (fun call => (call.name, call.arguments)) =
      (groupedCalls chunks.flatten).map fun call =>
        (lastName chunks.flatten call.openaiIndex, codec.dumps (.obj call.arguments)) := by
  -- the calls of one index
  let group := fun index => chunks.flatten.filter fun call => call.openaiIndex = index
  have hview := collectRound_view ⟨codec.dumps, ids.collected⟩ prior
    (chunks.mapIdx fun n calls => convertOllamaToolCallToOpenai codec (ids.converted n) calls)
  rw [← sent_withoutId, streamed_withoutId] at hview
  have hindices : indices (chunks.flatten.map (OllamaCall.delta codec)) =
      firstSeen [] (chunks.flatten.map OllamaCall.openaiIndex) := by
    rw [indices, indices_eq_firstSeen, List.map_map]
    rfl
  rw [streamedCalls, splitToolCalls, List.map_flatMap]
  generalize (collectRound ⟨codec.dumps, ids.collected⟩ prior (chunks.mapIdx fun n calls =>
    convertOllamaToolCallToOpenai codec (ids.converted n) calls)).calls = collected at hview
  -- one collected call is split into the calls of its index
  have hsplit : ∀ call ∈ collected,
      (splitCall codec (ids.split call.index) call).map (fun c => (c.name, c.arguments)) =
        (group call.index).map fun c =>
          (lastName chunks.flatten call.index, codec.dumps (.obj c.arguments)) := by
    intro call hcall
    have hmem : call.view ∈ sent codec.dumps (chunks.flatten.map (OllamaCall.delta codec)) :=
      hview ▸ List.mem_map_of_mem hcall
    obtain ⟨index, hindex, heq⟩ := List.mem_map.mp hmem
    simp only [CollectedCall.view, Prod.mk.injEq] at heq
    obtain ⟨rfl, hname, harguments⟩ := heq
    rw [hindices, mem_firstSeen] at hindex
    obtain ⟨first, hfirst, hfirstIndex⟩ := List.mem_map.mp hindex.1
    have hvalues : (group call.index).map OllamaCall.arguments ≠ [] :=
      List.ne_nil_of_mem (List.mem_map_of_mem
        (List.mem_filter.mpr ⟨hfirst, decide_eq_true hfirstIndex⟩))
    have hsplit := @splitCall_dumps codec
    rw [hsplit hvalues ?_ ?_, List.map_map, ← hname, nameOf_deltas]
    · rfl
    · intro members hmembers
      obtain ⟨c, hc, rfl⟩ := List.mem_map.mp hmembers
      exact hdecodes c (List.mem_filter.mp hc).1
    · rw [← harguments, argumentsOf_deltas]
  rw [List.flatMap_congr hsplit, groupedCalls, List.map_flatMap, ← hindices]
  -- the calls are collected in the order in which their indices first came
  have hcollected : collected.map CollectedCall.index =
      indices (chunks.flatten.map (OllamaCall.delta codec)) := by
    have hfst := congrArg (List.map Prod.fst) hview
    rw [sent, List.map_map, List.map_map] at hfst
    exact hfst.trans (List.map_id _)
  rw [← hcollected, List.flatMap_map]
  refine List.flatMap_congr fun call _ => List.map_congr_left fun c hc => ?_
  rw [of_decide_eq_true (List.mem_filter.mp hc).2]

/-! ## When the calls agree -/

/-- Calls with one name keep it. -/
theorem lastName_of_same (h : SameNames calls) {call : OllamaCall} (hcall : call ∈ calls) :
    lastName calls call.openaiIndex = call.name := by
  have hall : ∀ name ∈ (calls.filter (·.openaiIndex = call.openaiIndex)).map OllamaCall.name,
      name = call.name := by
    intro name hname
    obtain ⟨call', hcall', rfl⟩ := List.mem_map.mp hname
    obtain ⟨hmem, hindex⟩ := List.mem_filter.mp hcall'
    exact h call' hmem call hcall (of_decide_eq_true hindex)
  have hself : call.name ∈ (calls.filter (·.openaiIndex = call.openaiIndex)).map OllamaCall.name :=
    List.mem_map_of_mem (List.mem_filter.mpr ⟨hcall, decide_eq_true rfl⟩)
  rw [lastName]
  generalize (calls.filter (·.openaiIndex = call.openaiIndex)).map OllamaCall.name = names
    at hall hself
  by_cases hempty : call.name = ""
  · have hnone : names.filter (· ≠ "") = [] := by
      rw [List.filter_eq_nil_iff]
      intro name hname hne
      exact of_decide_eq_true hne ((hall name hname).trans hempty)
    rw [hnone, hempty]
    rfl
  · have hne : names.filter (· ≠ "") ≠ [] :=
      List.ne_nil_of_mem (List.mem_filter.mpr ⟨hself, decide_eq_true hempty⟩)
    rw [List.getLastD_eq_getLast?, List.getLast?_eq_getLast_of_ne_nil hne]
    exact hall _ (List.mem_filter.mp (List.getLast_mem hne)).1

/-- A call with an index of its own keeps its name. -/
theorem lastName_of_ne_zero (hindex : (calls.filterMap OllamaCall.givenIndex).Nodup)
    {call : OllamaCall} (hcall : call ∈ calls) (hne : call.openaiIndex ≠ 0) :
    lastName calls call.openaiIndex = call.name := by
  have hgiven : ∀ c : OllamaCall, c.openaiIndex = call.openaiIndex →
      c.givenIndex = some call.openaiIndex := by
    intro c hc
    rw [OllamaCall.openaiIndex] at hc
    rw [OllamaCall.givenIndex]
    cases hi : c.index with
    | some i =>
        rw [hi] at hc
        exact congrArg some hc
    | none =>
        cases hf : c.functionIndex with
        | some i =>
            rw [hi, hf] at hc
            exact congrArg some hc
        | none =>
            rw [hi, hf] at hc
            exact absurd hc.symm hne
  obtain ⟨before, after, rfl⟩ := List.append_of_mem hcall
  -- no other call has the index
  have hother : ∀ c ∈ before ++ after, c.openaiIndex ≠ call.openaiIndex := by
    intro c hc heq
    rw [List.filterMap_append, List.filterMap_cons_some (hgiven call rfl)] at hindex
    have hmem : call.openaiIndex ∈ (before ++ after).filterMap OllamaCall.givenIndex :=
      List.mem_filterMap.mpr ⟨c, hc, hgiven c heq⟩
    rw [List.filterMap_append] at hmem
    exact (List.nodup_middle.mp hindex).notMem hmem
  have hgroup : (before ++ call :: after).filter (·.openaiIndex = call.openaiIndex) = [call] := by
    have hnone : ∀ l : List OllamaCall, l ⊆ before ++ after →
        l.filter (·.openaiIndex = call.openaiIndex) = [] := by
      intro l hl
      rw [List.filter_eq_nil_iff]
      exact fun c hc heq => hother c (hl hc) (of_decide_eq_true heq)
    rw [List.filter_append, List.filter_cons_of_pos (by simp),
      hnone before (List.subset_append_left _ _), hnone after (List.subset_append_right _ _)]
    rfl
  rw [lastName, hgroup]
  by_cases hempty : call.name = ""
  · simp [hempty]
  · simp [hempty]

/-- Where one property implies another and both hold equally often, they agree. -/
theorem of_countP_eq {p q : OllamaCall → Bool}
    (himp : ∀ call ∈ calls, p call = true → q call = true)
    (hcount : calls.countP p = calls.countP q) : ∀ call ∈ calls, q call = true → p call = true := by
  intro call hcall hq
  have hsub : (calls.filter p).Sublist (calls.filter q) := by
    have hboth : calls.filter p = (calls.filter q).filter p := by
      rw [List.filter_filter]
      refine List.filter_congr fun c hc => ?_
      cases hp : p c with
      | false => rfl
      | true => rw [himp c hc hp]; rfl
    rw [hboth]
    exact List.filter_sublist
  rw [List.countP_eq_length_filter, List.countP_eq_length_filter] at hcount
  have heq := hsub.eq_of_length hcount
  exact (List.mem_filter.mp (heq ▸ List.mem_filter.mpr ⟨hcall, hq⟩)).2

/-- The calls handed on from the stream are those of the whole reply if and only if calls with
one index have one name, and bringing them together changes nothing. -/
theorem streamed_eq_whole_iff (codec : JsonCodec) (ids : NewIds) (newId : ℕ → String)
    (prior : List String) (chunks : List (List OllamaCall))
    (hindex : (chunks.flatten.filterMap OllamaCall.givenIndex).Nodup)
    (hdecodes : ∀ call ∈ chunks.flatten, codec.Decodes call.arguments) :
    streamedPairs codec ids prior chunks = wholePairs codec newId chunks.flatten ↔
      SameNames chunks.flatten ∧
        (groupedCalls chunks.flatten).map OllamaCall.pair = chunks.flatten.map OllamaCall.pair := by
  let calls := chunks.flatten
  let value := fun p : String × Obj => (p.1, some (Json.obj p.2))
  -- names and arguments can be read back from the pairs
  have hvalue : Function.Injective value := by
    rintro ⟨name, members⟩ ⟨name', members'⟩ h
    simp only [value, Prod.mk.injEq, Option.some.injEq, Json.obj.injEq] at h
    exact Prod.ext h.1 h.2
  have hgrouped : ∀ call ∈ groupedCalls calls, call ∈ calls :=
    fun call hcall => (perm_groupedCalls calls).mem_iff.mp hcall
  have hstreamed : streamedPairs codec ids prior chunks =
      ((groupedCalls calls).map fun call =>
        (lastName calls call.openaiIndex, call.arguments)).map value := by
    have htexts := congrArg (List.map fun p : String × String => (p.1, codec.loads p.2))
      (@streamedCalls_texts codec ids prior chunks hdecodes)
    rw [List.map_map, List.map_map] at htexts
    rw [streamedPairs, List.map_map]
    refine htexts.trans (List.map_congr_left fun call hcall => ?_)
    simp only [Function.comp_apply, value]
    rw [(hdecodes call (hgrouped call hcall)).loads]
  -- the whole answer gives each call as it came
  have hwhole : wholePairs codec newId calls = (calls.map OllamaCall.pair).map value := by
    rw [wholePairs, List.map_map]
    refine List.ext_getElem (by simp [convertOllamaToolCallToOpenai]) fun k hk _ => ?_
    simp only [convertOllamaToolCallToOpenai, List.getElem_map, List.getElem_mapIdx, fragmentText,
      Option.getD_some, Function.comp_apply, value, OllamaCall.pair]
    rw [(hdecodes _ (List.getElem_mem _)).loads]
  rw [hstreamed, hwhole, (List.map_injective_iff.mpr hvalue).eq_iff]
  constructor
  · intro h
    have hsame : SameNames calls := by
      -- the names of the calls, counted before and after
      have hnames := congrArg (List.map Prod.fst) h
      rw [List.map_map, List.map_map] at hnames
      have hcount : (groupedCalls calls).countP (fun call => call.name = lastName calls 0) =
          (groupedCalls calls).countP fun call => lastName calls call.openaiIndex =
            lastName calls 0 := by
        have hbefore := congrArg (List.countP fun name => name = lastName calls 0) hnames
        rw [List.countP_map, List.countP_map] at hbefore
        rw [(perm_groupedCalls calls).countP_eq]
        exact hbefore.symm
      have hzero : ∀ call ∈ calls, call.openaiIndex = 0 → call.name = lastName calls 0 := by
        intro call hcall hcallZero
        refine of_decide_eq_true (of_countP_eq ?_ hcount call
          ((perm_groupedCalls calls).mem_iff.mpr hcall) (decide_eq_true (congrArg _ hcallZero)))
        intro c hc hname
        refine decide_eq_true ?_
        by_cases hcZero : c.openaiIndex = 0
        · rw [hcZero]
        · rw [lastName_of_ne_zero hindex (hgrouped c hc) hcZero]
          exact of_decide_eq_true hname
      intro call hcall call' hcall' heq
      -- calls that share index 0 share the last name
      by_cases hcallZero : call.openaiIndex = 0
      · rw [hzero call hcall hcallZero, hzero call' hcall' (heq ▸ hcallZero)]
      · rw [← lastName_of_ne_zero hindex hcall hcallZero, heq,
          lastName_of_ne_zero hindex hcall' (heq ▸ hcallZero)]
    refine ⟨hsame, ?_⟩
    rw [← h]
    refine List.map_congr_left fun call hcall => ?_
    rw [lastName_of_same hsame (hgrouped call hcall)]
    rfl
  · rintro ⟨hsame, horder⟩
    rw [← horder]
    refine List.map_congr_left fun call hcall => ?_
    rw [lastName_of_same hsame (hgrouped call hcall)]
    rfl

end Collected

/-! ## Calls without an index -/

/-- The codec, where the arguments are empty objects. -/
def emptyObjects : JsonCodec where
  dumps := fun _ => "\x7b\x7d"
  rawDecode := fun chars => match chars with
    | '\x7b' :: '\x7d' :: rest => some (.obj [], rest)
    | _ => none

/-- The example's codec reads back the empty object. -/
theorem emptyObjects_decodes : emptyObjects.Decodes [] where
  decode := fun _ => rfl
  braces := ⟨[], rfl⟩

def someIds : NewIds := ⟨fun _ _ => "call", fun _ => "fc", fun _ _ => "call"⟩

/-- A call without an index or an id. -/
def plainCall (name : String) : OllamaCall := ⟨none, none, none, name, []⟩

/-- Two calls of one tool are split again. -/
theorem streamed_same_tool :
    streamedPairs emptyObjects someIds [] [[plainCall "a"], [plainCall "a"]] =
      wholePairs emptyObjects (fun _ => "call") [plainCall "a", plainCall "a"] := by
  have hcalls : ∀ call ∈ [plainCall "a", plainCall "a"], call = plainCall "a" := by
    intro call hcall
    simpa using hcall
  refine (streamed_eq_whole_iff emptyObjects someIds (fun _ => "call") [] [[plainCall "a"],
    [plainCall "a"]] List.nodup_nil fun call hcall => ?_).mpr ⟨?_, by decide⟩
  · rw [hcalls call hcall]
    exact emptyObjects_decodes
  · intro call hcall call' hcall' _
    rw [hcalls call hcall, hcalls call' hcall']

/-- Of two calls to different tools the first gets the name of the second. -/
theorem streamed_two_tools :
    streamedPairs emptyObjects someIds [] [[plainCall "a", plainCall "b"]] =
        [("b", some (.obj [])), ("b", some (.obj []))] ∧
      wholePairs emptyObjects (fun _ => "call") [plainCall "a", plainCall "b"] =
        [("a", some (.obj [])), ("b", some (.obj []))] ∧
      streamedPairs emptyObjects someIds [] [[plainCall "a", plainCall "b"]] ≠
        wholePairs emptyObjects (fun _ => "call") [plainCall "a", plainCall "b"] := by
  decide

end OpenWebUI.Streaming
