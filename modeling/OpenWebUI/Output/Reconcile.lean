import OpenWebUI.Output.Messages

/-! # Reconciled messages

After reconciling, every tool message answers a call of the assistant message that heads
its block, every call is answered in the block, and reconciling again changes nothing.
What is dropped besides calls and results has no text.
-/

namespace OpenWebUI.Output

open Py

/-- Reconciling a list whose first tool messages belong to a block with the paired ids
`current`. -/
def reconcileFrom (current : List String) (ms : List Message) : List Message :=
  (ms.zip (getPairedToolCallIds current ms)).filterMap fun e => reconcileMessage e.1 e.2

section Reconcile

variable {current : List String} {rest : List Message}

/-- The walk starts without current ids. -/
theorem reconcileToolPairs_eq (ms : List Message) :
    reconcileToolPairs ms = reconcileFrom [] ms := rfl

@[simp] theorem reconcileFrom_nil : reconcileFrom current [] = [] := rfl

/-- A result stays where its call is current. -/
theorem reconcileFrom_tool (id : String) (content : ToolContent) :
    reconcileFrom current (.tool id content :: rest) =
      if id ∈ current then .tool id content :: reconcileFrom current rest
      else reconcileFrom current rest := by
  simp only [reconcileFrom, getPairedToolCallIds, List.zip_cons_cons, List.filterMap_cons,
    reconcileMessage]
  split_ifs <;> rfl

/-- A user message stays. -/
theorem reconcileFrom_user (text : String) (urls : List String) :
    reconcileFrom current (.user text urls :: rest) = .user text urls :: reconcileFrom [] rest :=
      rfl

theorem mem_pairedIds {a : Assistant} {id : String} :
    id ∈ pairedIds a rest ↔ id ∈ a.toolCalls.map ToolCall.id ∧ id ≠ "" ∧ id ∈ toolBlock rest := by
  rw [pairedIds, List.mem_filter, decide_eq_true_eq]

/-- The calls of an assistant message that are answered. -/
def validCalls (a : Assistant) (rest : List Message) : List ToolCall :=
  a.toolCalls.filter fun call => call.id ∈ pairedIds a rest

/-- What happens to an assistant message: calls that are answered stay; without any, the
message stays without calls or is dropped, and then nothing is paired. -/
theorem reconcileMessage_cases (a : Assistant) (rest : List Message) :
    (validCalls a rest ≠ [] ∧ reconcileMessage (.assistant a) (pairedIds a rest) =
      some (.assistant { a with toolCalls := validCalls a rest })) ∨
    (validCalls a rest = [] ∧ pairedIds a rest = [] ∧
      reconcileMessage (.assistant a) (pairedIds a rest) =
        some (.assistant { a with toolCalls := [] })) ∨
    (validCalls a rest = [] ∧ pairedIds a rest = [] ∧ isBlank a.content = true ∧
      reconcileMessage (.assistant a) (pairedIds a rest) = none) := by
  -- a valid call is a paired one
  have hnone : validCalls a rest = [] → pairedIds a rest = [] := by
    intro h
    rw [List.eq_nil_iff_forall_not_mem]
    intro id hid
    obtain ⟨call, hcall, rfl⟩ := List.mem_map.mp (mem_pairedIds.mp hid).1
    have hvalid : call ∈ validCalls a rest := List.mem_filter.mpr ⟨hcall, by simpa using hid⟩
    rw [h] at hvalid
    cases hvalid
  simp only [reconcileMessage]
  by_cases hcalls : a.toolCalls = []
  · have hvalid : validCalls a rest = [] := by rw [validCalls, hcalls]; rfl
    refine Or.inr (Or.inl ⟨hvalid, hnone hvalid, ?_⟩)
    rw [if_pos (by rw [hcalls]; rfl)]
    cases a
    simp_all
  · rw [if_neg (by simpa using hcalls)]
    -- no call is answered: the message stays only for its text
    by_cases hvalid : validCalls a rest = []
    · have hnot :
        (!(a.toolCalls.filter fun call => call.id ∈ pairedIds a rest).isEmpty) = false := by
        change (!(validCalls a rest).isEmpty) = false
        rw [hvalid]
        rfl
      rw [if_neg (by rw [hnot]; decide)]
      split_ifs with hcontent
      · exact Or.inr (Or.inl ⟨hvalid, hnone hvalid, rfl⟩)
      · refine Or.inr (Or.inr ⟨hvalid, hnone hvalid, ?_, rfl⟩)
        rw [Bool.or_eq_true, not_or] at hcontent
        simpa using hcontent.1
    -- the answered calls are kept
    · refine Or.inl ⟨hvalid, ?_⟩
      rw [if_pos]
      · rfl
      · simpa [validCalls] using hvalid

/-- An assistant message keeps its answered calls, stays without calls, or is dropped. -/
theorem reconcileFrom_assistant (current : List String) (rest : List Message) (a : Assistant) :
    (validCalls a rest ≠ [] ∧ reconcileFrom current (.assistant a :: rest) =
      .assistant { a with toolCalls := validCalls a rest } ::
        reconcileFrom (pairedIds a rest) rest) ∨
    (validCalls a rest = [] ∧ reconcileFrom current (.assistant a :: rest) =
      .assistant { a with toolCalls := [] } :: reconcileFrom [] rest) ∨
    (validCalls a rest = [] ∧ isBlank a.content = true ∧
      reconcileFrom current (.assistant a :: rest) = reconcileFrom [] rest) := by
  have hcons : reconcileFrom current (.assistant a :: rest) =
      (reconcileMessage (.assistant a) (pairedIds a rest)).toList ++
        reconcileFrom (pairedIds a rest) rest := by
    simp only [reconcileFrom, getPairedToolCallIds, List.zip_cons_cons, List.filterMap_cons]
    cases reconcileMessage (.assistant a) (pairedIds a rest) <;> rfl
  rcases reconcileMessage_cases a rest with
    ⟨hvalid, heq⟩ | ⟨hvalid, hnil, heq⟩ | ⟨hvalid, hnil, hblank, heq⟩
  · rw [hcons, heq]
    exact Or.inl ⟨hvalid, rfl⟩
  · rw [hcons, heq, hnil]
    exact Or.inr (Or.inl ⟨hvalid, rfl⟩)
  · rw [hcons, heq, hnil]
    exact Or.inr (Or.inr ⟨hvalid, hblank, rfl⟩)

/-- The head block of a reconciled list. -/
theorem toolBlock_reconcileFrom (ms : List Message) : ∀ current,
    toolBlock (reconcileFrom current ms) = (toolBlock ms).filter fun id => id ∈ current := by
  induction ms with
  | nil => intro current; rfl
  | cons m rest ih =>
      intro current
      cases m with
      | tool id content =>
          rw [reconcileFrom_tool, toolBlock, List.filter_cons]
          by_cases hid : id ∈ current
          · rw [if_pos hid, if_pos (by simpa using hid), toolBlock, ih]
          · rw [if_neg hid, if_neg (by simpa using hid), ih]
      | user text urls => rfl
      | assistant a =>
          rcases reconcileFrom_assistant current rest a with
            ⟨_, heq⟩ | ⟨_, heq⟩ | ⟨_, _, heq⟩
          · rw [heq]
            rfl
          · rw [heq]
            rfl
          · -- a dropped message pairs nothing, so its block is dropped with it
            rw [heq, ih]
            simp [toolBlock]

/-! ## Pairing -/

/-- Calls and results pair: a call is answered in the block that follows, and a block
answers calls only. -/
def Paired : List Message → Prop
  | [] => True
  | .assistant a :: rest =>
    (∀ call ∈ a.toolCalls, call.id ≠ "" ∧ call.id ∈ toolBlock rest) ∧
      (∀ id ∈ toolBlock rest, id ∈ a.toolCalls.map ToolCall.id) ∧ Paired rest
  | .user _ _ :: rest => toolBlock rest = [] ∧ Paired rest
  | .tool _ _ :: rest => Paired rest

/-- After the walk calls and results are paired. -/
theorem paired_reconcileFrom (ms : List Message) :
    ∀ current, Paired (reconcileFrom current ms) := by
  induction ms with
  | nil => exact fun _ => trivial
  | cons m rest ih =>
      intro current
      cases m with
      | tool id content =>
          -- a result is kept or dropped, and no message of an assistant changes
          rw [reconcileFrom_tool]
          split_ifs
          · exact ih current
          · exact ih current
      | user text urls =>
          rw [reconcileFrom_user]
          refine ⟨?_, ih []⟩
          rw [toolBlock_reconcileFrom]
          simp
      | assistant a =>
          have hblock := toolBlock_reconcileFrom rest (pairedIds a rest)
          have hnone := toolBlock_reconcileFrom rest []
          rcases reconcileFrom_assistant current rest a with
            ⟨_, heq⟩ | ⟨_, heq⟩ | ⟨_, _, heq⟩
          -- some calls are answered: those, and their results, are kept
          · rw [heq]
            refine ⟨?_, ?_, ih _⟩
            · intro call hcall
              have hid : call.id ∈ pairedIds a rest := by
                simpa using (List.mem_filter.mp hcall).2
              obtain ⟨_, hne, hanswered⟩ := mem_pairedIds.mp hid
              rw [hblock, List.mem_filter]
              exact ⟨hne, hanswered, by simpa using hid⟩
            · intro id hid
              rw [hblock, List.mem_filter] at hid
              have hpaired : id ∈ pairedIds a rest := by simpa using hid.2
              obtain ⟨call, hcall, rfl⟩ := List.mem_map.mp (mem_pairedIds.mp hpaired).1
              exact List.mem_map_of_mem (List.mem_filter.mpr ⟨hcall, by simpa using hpaired⟩)
          -- none is answered: the message stays for its text
          · rw [heq]
            refine ⟨fun call hcall => (by cases hcall), ?_, ih _⟩
            intro id hid
            rw [hnone] at hid
            simp at hid
          -- the whole message is dropped
          · rw [heq]
            exact ih _

/-- Reconciling leaves paired messages alone. -/
theorem reconcileFrom_of_paired {ms : List Message} : ∀ {current}, Paired ms →
    (∀ id ∈ toolBlock ms, id ∈ current) → reconcileFrom current ms = ms := by
  induction ms with
  | nil => exact fun _ _ => rfl
  | cons m rest ih =>
      intro current hpaired hcurrent
      cases m with
      | tool id content =>
          rw [reconcileFrom_tool, if_pos (hcurrent id List.mem_cons_self),
            ih hpaired fun id' hid' => hcurrent id' (List.mem_cons_of_mem _ hid')]
      | user text urls =>
          obtain ⟨hnil, hrest⟩ := hpaired
          rw [reconcileFrom_user, ih hrest fun id hid => by rw [hnil] at hid; cases hid]
      | assistant a =>
          obtain ⟨hcalls, hblock, hrest⟩ := hpaired
          have hall : ∀ call ∈ a.toolCalls, call.id ∈ pairedIds a rest := fun call hcall =>
            mem_pairedIds.mpr ⟨List.mem_map_of_mem hcall, hcalls call hcall⟩
          have hvalid : validCalls a rest = a.toolCalls :=
            List.filter_eq_self.mpr fun call hcall => by simpa using hall call hcall
          have htail : reconcileFrom (pairedIds a rest) rest = rest := by
            refine ih hrest fun id hid => ?_
            obtain ⟨call, hcall, rfl⟩ := List.mem_map.mp (hblock id hid)
            exact hall call hcall
          by_cases hnil : a.toolCalls = []
          · have hmessage :
              reconcileMessage (.assistant a) (pairedIds a rest) = some (.assistant a) := by
              rw [reconcileMessage, if_pos (by rw [hnil]; rfl)]
            simp only [reconcileFrom, getPairedToolCallIds, List.zip_cons_cons, List.filterMap_cons,
              hmessage]
            exact congrArg _ htail
          · rcases reconcileFrom_assistant current rest a with ⟨_, heq⟩ | ⟨hempty,
              _⟩ | ⟨hempty, _, _⟩
            · rw [heq, hvalid, htail]
            · exact absurd (hvalid ▸ hempty) hnil
            · exact absurd (hvalid ▸ hempty) hnil

/-- The walk leaves no result at the start. -/
theorem toolBlock_reconcileToolPairs (ms : List Message) :
    toolBlock (reconcileToolPairs ms) = [] := by
  rw [reconcileToolPairs_eq, toolBlock_reconcileFrom]
  simp

/-- Reconciling again changes nothing. -/
theorem reconcileToolPairs_idem (ms : List Message) :
    reconcileToolPairs (reconcileToolPairs ms) = reconcileToolPairs ms := by
  refine reconcileFrom_of_paired (paired_reconcileFrom ms []) fun id hid => ?_
  rw [toolBlock_reconcileToolPairs] at hid
  cases hid

/-- In paired messages, a tool message is in the block the list starts in, or it answers a
call of the assistant message before its block. -/
theorem Paired.tool_answers {id : String} {content : ToolContent} {after : List Message} :
    ∀ {before : List Message}, Paired (before ++ .tool id content :: after) →
      (id ∈ toolBlock (before ++ .tool id content :: after) ∧
        ∀ m ∈ before, ∃ id content, m = .tool id content) ∨
      ∃ before' a tools, before = before' ++ .assistant a :: tools ∧
        (∀ m ∈ tools, ∃ id content, m = .tool id content) ∧ id ∈ a.toolCalls.map ToolCall.id
  | [], _ => Or.inl ⟨List.mem_cons_self, fun m hm => by cases hm⟩
  | m :: before, hpaired => by
      have hrest : Paired (before ++ .tool id content :: after) := by
        cases m with
        | tool _ _ => exact hpaired
        | user _ _ => exact hpaired.2
        | assistant _ => exact hpaired.2.2
      rcases hrest.tool_answers with ⟨hblock, htools⟩ | ⟨before', a, tools, rfl, htools, hid⟩
      · cases m with
        | tool id' content' =>
            refine Or.inl ⟨List.mem_cons_of_mem _ hblock, ?_⟩
            intro m hm
            rcases List.mem_cons.mp hm with rfl | hm
            · exact ⟨id', content', rfl⟩
            · exact htools m hm
        | user text urls =>
            have hnil : toolBlock (before ++ .tool id content :: after) = [] := hpaired.1
            rw [hnil] at hblock
            cases hblock
        | assistant a => exact Or.inr ⟨[], a, before, rfl, htools, hpaired.2.1 id hblock⟩
      · exact Or.inr ⟨m :: before', a, tools, rfl, htools, hid⟩

/-- A suffix of a paired list is paired. -/
theorem Paired.suffix {before after : List Message} (h : Paired (before ++ after)) :
    Paired after := by
  induction before with
  | nil => exact h
  | cons m before ih =>
      cases m with
      | tool _ _ => exact ih h
      | user _ _ => exact ih h.2
      | assistant _ => exact ih h.2.2

/-! ## Contents -/

/-- The contents of the assistant messages. -/
def contents (ms : List Message) : List String :=
  ms.filterMap fun m => match m with
    | .assistant a => some a.content
    | _ => none

/-- Reconciling drops only contents that are blank. -/
theorem contents_reconcileFrom (ms : List Message) : ∀ current (pieces : List (List String)),
    contents ms = pieces.map ("\n".intercalate ·) →
    ∃ kept : List (List String), contents (reconcileFrom current ms) =
      kept.map ("\n".intercalate ·) ∧
      kept.flatten.filter (fun s => !isBlank s) = pieces.flatten.filter fun s => !isBlank s := by
  induction ms with
  | nil =>
      intro current pieces h
      cases pieces with
      | nil => exact ⟨[], rfl, rfl⟩
      | cons p pieces => cases h
  | cons m rest ih =>
      intro current pieces h
      cases m with
      | tool id content =>
          obtain ⟨kept, hkept, hsame⟩ := ih current pieces h
          refine ⟨kept, ?_, hsame⟩
          rw [reconcileFrom_tool]
          split_ifs
          · exact hkept
          · exact hkept
      | user text urls => exact ih [] pieces h
      | assistant a =>
          cases pieces with
          | nil => cases h
          | cons p pieces =>
              have hcontent : a.content = "\n".intercalate p := (List.cons.inj h).1
              obtain ⟨kept, hkept, hsame⟩ := ih (pairedIds a rest) pieces (List.cons.inj h).2
              obtain ⟨kept', hkept', hsame'⟩ := ih [] pieces (List.cons.inj h).2
              rcases reconcileFrom_assistant current rest a with
                ⟨_, heq⟩ | ⟨_, heq⟩ | ⟨_, hblank, heq⟩
              -- kept with its calls
              · refine ⟨p :: kept, ?_, ?_⟩
                · rw [heq, List.map_cons, ← hcontent, ← hkept]
                  rfl
                · rw [List.flatten_cons, List.flatten_cons, List.filter_append,
                    List.filter_append, hsame]
              -- kept without them
              · refine ⟨p :: kept', ?_, ?_⟩
                · rw [heq, List.map_cons, ← hcontent, ← hkept']
                  rfl
                · rw [List.flatten_cons, List.flatten_cons, List.filter_append,
                    List.filter_append, hsame']
              -- dropped: its pieces are all blank
              · refine ⟨kept', by rw [heq, hkept'], ?_⟩
                have hnone : p.filter (fun s => !isBlank s) = [] := by
                  rw [List.filter_eq_nil_iff]
                  intro s hs
                  rw [isBlank_of_intercalate (hcontent ▸ hblank) s hs]
                  decide
                rw [List.flatten_cons, List.filter_append, hnone, List.nil_append, hsame']

/-! ## Calls and results that are kept -/

/-- The ids of all tool messages. -/
def toolIds (ms : List Message) : List String :=
  ms.filterMap fun m => match m with
    | .tool id _ => some id
    | _ => none

/-- The ids of all tool calls. -/
def toolCallIds (ms : List Message) : List String :=
  ms.flatMap fun m => match m with
    | .assistant a => a.toolCalls.map ToolCall.id
    | _ => []

/-- The walk only drops results. -/
theorem toolIds_reconcileFrom (ms : List Message) : ∀ current,
    (toolIds (reconcileFrom current ms)).Sublist (toolIds ms) := by
  induction ms with
  | nil => exact fun _ => List.Sublist.refl _
  | cons m rest ih =>
      intro current
      cases m with
      | tool id content =>
          rw [reconcileFrom_tool]
          split_ifs
          · exact (ih current).cons_cons id
          · exact (ih current).cons id
      | user text urls => exact ih []
      | assistant a =>
          rcases reconcileFrom_assistant current rest a with
            ⟨_, heq⟩ | ⟨_, heq⟩ | ⟨_, _, heq⟩
          · rw [heq]
            exact ih _
          · rw [heq]
            exact ih _
          · rw [heq]
            exact ih _

/-- The walk only drops calls. -/
theorem toolCallIds_reconcileFrom (ms : List Message) : ∀ current,
    toolCallIds (reconcileFrom current ms) ⊆ toolCallIds ms := by
  induction ms with
  | nil => exact fun _ => List.Subset.refl _
  | cons m rest ih =>
      intro current
      cases m with
      | tool id content =>
          rw [reconcileFrom_tool]
          split_ifs
          · exact ih current
          · exact ih current
      | user text urls => exact ih []
      | assistant a =>
          intro id hid
          rcases reconcileFrom_assistant current rest a with
            ⟨_, heq⟩ | ⟨_, heq⟩ | ⟨_, _, heq⟩
          · rw [heq] at hid
            rcases List.mem_append.mp hid with hid | hid
            · refine List.mem_append_left _ ?_
              obtain ⟨call, hcall, rfl⟩ := List.mem_map.mp hid
              exact List.mem_map_of_mem (List.mem_filter.mp hcall).1
            · exact List.mem_append_right _ (ih _ hid)
          · rw [heq] at hid
            exact List.mem_append_right _ (ih _ hid)
          · rw [heq] at hid
            exact List.mem_append_right _ (ih _ hid)

theorem toolBlock_sublist (ms : List Message) : (toolBlock ms).Sublist (toolIds ms) := by
  induction ms with
  | nil => exact List.Sublist.refl _
  | cons m rest ih =>
      cases m with
      | tool id content => exact ih.cons_cons id
      | user _ _ => exact List.nil_sublist _
      | assistant _ => exact List.nil_sublist _

end Reconcile

end OpenWebUI.Output
