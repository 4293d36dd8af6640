import OpenWebUI.Output.Convert

/-! # Converting round by round

The converter keeps pending lists over the whole output. Where an output ends with the
result of a finished call everything pending is settled, so converting what follows starts
afresh: the conversion of two rounds is the conversion of one followed by that of the other.
-/

namespace OpenWebUI.Output

open Py

/-- The call ids of the items that are calls; an absent one is empty. -/
def callIds (items : List Item) : List String :=
  items.filterMap fun item => match item with
    | .functionCall call => if call.callId = "" then none else some call.callId
    | _ => none

/-- Every result stands after its call. -/
def ResultsFollow (items : List Item) : Prop :=
  ∀ before id parts after, items = before ++ .functionCallOutput id parts :: after →
    id ∈ callIds before

/-- The output ends with the result of a finished call. -/
def Settled (items : List Item) : Prop :=
  ∃ before id parts, items = before ++ [.functionCallOutput id parts] ∧ id ∈ functionCallIds items

variable {o : Options} {ids ids' : List String} {items a b : List Item} {st : Pending}

theorem callIds_append (a b : List Item) : callIds (a ++ b) = callIds a ++ callIds b :=
  List.filterMap_append

theorem mem_callIds {call : FunctionCall} (h : .functionCall call ∈ items)
    (hne : call.callId ≠ "") :
    call.callId ∈ callIds items :=
  List.mem_filterMap.mpr ⟨_, h, by simp only [if_neg hne]⟩

/-- A listed id belongs to a call. -/
theorem exists_of_mem_callIds {id : String} (h : id ∈ callIds items) :
    id ≠ "" ∧ ∃ call, .functionCall call ∈ items ∧ call.callId = id := by
  obtain ⟨item, hitem, heq⟩ := List.mem_filterMap.mp h
  cases item with
  | functionCall call =>
      dsimp only at heq
      split_ifs at heq with hne
      obtain rfl := Option.some.inj heq
      exact ⟨hne, call, hitem, rfl⟩
  | _ => cases heq

/-- A result belongs to a call of the list. -/
theorem ResultsFollow.callId_mem (h : ResultsFollow items) {id : String} {parts : List OutputPart}
    (hmem : .functionCallOutput id parts ∈ items) : id ∈ callIds items := by
  obtain ⟨before, after, rfl⟩ := List.append_of_mem hmem
  rw [callIds_append]
  exact List.mem_append_left _ (h before id parts after rfl)

theorem ResultsFollow.append (ha : ResultsFollow a) (hb : ResultsFollow b) :
    ResultsFollow (a ++ b) := by
  intro before id parts after heq
  rcases List.append_eq_append_iff.mp heq with ⟨mid, rfl, hmid⟩ | ⟨mid, rfl, hmid⟩
  · rw [callIds_append]
    exact List.mem_append_right _ (hb mid id parts after hmid)
  · cases mid with
    | nil =>
        rw [List.nil_append] at hmid
        exact absurd (hb [] id parts after hmid.symm) List.not_mem_nil
    | cons item mid =>
        obtain ⟨rfl, rfl⟩ := List.cons.inj hmid
        exact ha before id parts mid rfl

/-! ## Which calls are finished -/

theorem mem_functionCallIds_iff {id : String} : id ∈ functionCallIds items ↔
    id ≠ "" ∧ (∃ call, .functionCall call ∈ items ∧ call.callId = id ∧
      call.status ∈ ["completed", "failed", "rejected"]) ∧
      ∃ parts, .functionCallOutput id parts ∈ items := by
  constructor
  · intro h
    exact ⟨fun hne => functionCallIds_ne_empty items (hne ▸ h), mem_functionCallIds h⟩
  · rintro ⟨hne, ⟨call, hcall, rfl, hstatus⟩, parts, hparts⟩
    refine List.mem_filter.mpr ⟨List.mem_filterMap.mpr ⟨_, hcall, ?_⟩, decide_eq_true ?_⟩
    · simp only [if_pos (And.intro hne hstatus)]
    · exact List.mem_filterMap.mpr ⟨_, hparts, by simp only [if_pos hne]⟩


/-- Whether a call is finished depends on the round it belongs to only. -/
theorem functionCallIds_append_left (hb : ResultsFollow b) (hnodup : (callIds (a ++ b)).Nodup)
    {id : String} (hid : id ∈ callIds a) :
    id ∈ functionCallIds (a ++ b) ↔ id ∈ functionCallIds a := by
  have hnot : id ∉ callIds b := by
    rw [callIds_append] at hnodup
    exact fun hmem => (List.nodup_append.mp hnodup).2.2 id hid id hmem rfl
  rw [mem_functionCallIds_iff, mem_functionCallIds_iff]
  refine and_congr_right fun hne => and_congr ?_ ?_
  · constructor
    · rintro ⟨call, hcall, hcid, hstatus⟩
      rcases List.mem_append.mp hcall with hcall | hcall
      · exact ⟨call, hcall, hcid, hstatus⟩
      · exact absurd (hcid ▸ mem_callIds hcall (hcid ▸ hne)) hnot
    · rintro ⟨call, hcall, h⟩
      exact ⟨call, List.mem_append_left _ hcall, h⟩
  · constructor
    · rintro ⟨parts, hparts⟩
      rcases List.mem_append.mp hparts with hparts | hparts
      · exact ⟨parts, hparts⟩
      · exact absurd (hb.callId_mem hparts) hnot
    · rintro ⟨parts, hparts⟩
      exact ⟨parts, List.mem_append_left _ hparts⟩

theorem functionCallIds_append_right (ha : ResultsFollow a) (hnodup : (callIds (a ++ b)).Nodup)
    {id : String} (hid : id ∈ callIds b) :
    id ∈ functionCallIds (a ++ b) ↔ id ∈ functionCallIds b := by
  have hnot : id ∉ callIds a := by
    rw [callIds_append] at hnodup
    exact fun hmem => (List.nodup_append.mp hnodup).2.2 id hmem id hid rfl
  rw [mem_functionCallIds_iff, mem_functionCallIds_iff]
  refine and_congr_right fun hne => and_congr ?_ ?_
  · constructor
    · rintro ⟨call, hcall, hcid, hstatus⟩
      rcases List.mem_append.mp hcall with hcall | hcall
      · exact absurd (hcid ▸ mem_callIds hcall (hcid ▸ hne)) hnot
      · exact ⟨call, hcall, hcid, hstatus⟩
    · rintro ⟨call, hcall, h⟩
      exact ⟨call, List.mem_append_right _ hcall, h⟩
  · constructor
    · rintro ⟨parts, hparts⟩
      rcases List.mem_append.mp hparts with hparts | hparts
      · exact absurd (ha.callId_mem hparts) hnot
      · exact ⟨parts, hparts⟩
    · rintro ⟨parts, hparts⟩
      exact ⟨parts, List.mem_append_right _ hparts⟩

/-- Reading an item asks about its own call id only. -/
theorem convertItem_congr {item : Item}
    (h : ∀ id, (∃ call, item = .functionCall call ∧ call.callId = id) ∨
      (∃ parts, item = .functionCallOutput id parts) → (id ∈ ids ↔ id ∈ ids')) :
    convertItem o ids st item = convertItem o ids' st item := by
  cases item with
  | functionCall call =>
      simp only [convertItem, pushItem, h call.callId (Or.inl ⟨call, rfl, rfl⟩)]
  | functionCallOutput id parts =>
      simp only [convertItem, pushItem, h id (Or.inr ⟨parts, rfl⟩)]
  | _ => rfl

theorem foldl_convertItem_congr (hfollow : ResultsFollow items) (hids : "" ∉ ids)
    (hids' : "" ∉ ids') (h : ∀ id ∈ callIds items, (id ∈ ids ↔ id ∈ ids')) (st : Pending) :
    items.foldl (convertItem o ids) st = items.foldl (convertItem o ids') st := by
  refine List.foldl_ext _ _ _ fun st' item hitem => convertItem_congr fun id hid => ?_
  rcases hid with ⟨call, rfl, rfl⟩ | ⟨parts, rfl⟩
  · by_cases hne : call.callId = ""
    · rw [hne]
      exact iff_of_false hids hids'
    · exact h _ (mem_callIds hitem hne)
  · exact h id (hfollow.callId_mem hitem)

/-! ## A settled state -/

/-- Messages, and nothing pending. -/
def Pending.ofMessages (messages : List Message) : Pending := ⟨messages, [], [], [], [], [], []⟩

/-- The same, with more messages before. -/
def Pending.after (messages : List Message) (st : Pending) : Pending :=
  { st with messages := messages ++ st.messages }

theorem flushPending_after (ms : List Message) (st : Pending) :
    flushPending o (st.after ms) = (flushPending o st).after ms := by
  unfold flushPending Pending.after
  dsimp only
  split_ifs
  · rfl
  · simp only [List.append_assoc]
    rfl

theorem flushToolImages_after (ms : List Message) (st : Pending) :
    flushToolImages (st.after ms) = (flushToolImages st).after ms := by
  unfold flushToolImages Pending.after
  dsimp only
  split_ifs
  · rfl
  · simp only [List.append_assoc]

theorem pushToolOutput_after (ms : List Message) (st : Pending) (e : String × List OutputPart) :
    pushToolOutput o (st.after ms) e = (pushToolOutput o st e).after ms := by
  unfold pushToolOutput Pending.after
  dsimp only
  split_ifs
  · simp only [List.append_assoc]
  · simp only [List.append_assoc]
  · simp only [List.append_assoc]

theorem foldl_pushToolOutput_after (ms : List Message) (outputs : List (String × List OutputPart)) :
    ∀ st : Pending, outputs.foldl (pushToolOutput o) (st.after ms) =
      (outputs.foldl (pushToolOutput o) st).after ms := by
  induction outputs with
  | nil => exact fun _ => rfl
  | cons e outputs ih =>
      intro st
      rw [List.foldl_cons, List.foldl_cons, pushToolOutput_after, ih]

theorem flushToolOutputs_after (ms : List Message) (st : Pending) :
    flushToolOutputs o (st.after ms) = (flushToolOutputs o st).after ms := by
  have houtputs : (st.after ms).toolOutputs = st.toolOutputs := rfl
  unfold flushToolOutputs
  rw [houtputs, flushPending_after, foldl_pushToolOutput_after]
  split_ifs
  · rfl
  · rfl

theorem pushItem_after (ms : List Message) (st : Pending) (item : Item) :
    pushItem o ids (st.after ms) item = (pushItem o ids st item).after ms := by
  cases item with
  | message content =>
      simp only [pushItem]
      split_ifs <;> rfl
  | functionCall call =>
      simp only [pushItem]
      split_ifs <;> rfl
  | functionCallOutput id parts =>
      simp only [pushItem]
      split_ifs <;> rfl
  | reasoning r =>
      simp only [pushItem, pushReasoning]
      split_ifs <;> rfl
  | codeInterpreter code output => rfl
  | extension => rfl

theorem convertItem_after (ms : List Message) (st : Pending) (item : Item) :
    convertItem o ids (st.after ms) item = (convertItem o ids st item).after ms := by
  have hflush := flushToolOutputs_after (o := o) ms st
  have himages := flushToolImages_after ms (flushToolOutputs o st)
  unfold convertItem
  cases item with
  | functionCallOutput id parts => exact pushItem_after ms st _
  | _ =>
      dsimp only
      rw [hflush, himages, pushItem_after]

theorem foldl_convertItem_after (ms : List Message) (items : List Item) :
    ∀ st : Pending, items.foldl (convertItem o ids) (st.after ms) =
      (items.foldl (convertItem o ids) st).after ms := by
  induction items with
  | nil => exact fun _ => rfl
  | cons item items ih =>
      intro st
      rw [List.foldl_cons, List.foldl_cons, convertItem_after, ih]

/-- Results leave the pending content, calls and reasoning alone. -/
theorem foldl_pushToolOutput_pending (outputs : List (String × List OutputPart)) : ∀ st : Pending,
    let st' := outputs.foldl (pushToolOutput o) st
    st'.content = st.content ∧ st'.toolCalls = st.toolCalls ∧ st'.reasoning = st.reasoning ∧
      st'.reasoningDetails = st.reasoningDetails := by
  induction outputs with
  | nil => exact fun _ => ⟨rfl, rfl, rfl, rfl⟩
  | cons e outputs ih =>
      intro st
      have hpush : (pushToolOutput o st e).content = st.content ∧
          (pushToolOutput o st e).toolCalls = st.toolCalls ∧
          (pushToolOutput o st e).reasoning = st.reasoning ∧
          (pushToolOutput o st e).reasoningDetails = st.reasoningDetails := by
        unfold pushToolOutput
        dsimp only
        split_ifs <;> exact ⟨rfl, rfl, rfl, rfl⟩
      obtain ⟨hcontent, hcalls, hreasoning, hdetails⟩ := ih (pushToolOutput o st e)
      exact ⟨hcontent.trans hpush.1, hcalls.trans hpush.2.1, hreasoning.trans hpush.2.2.1,
        hdetails.trans hpush.2.2.2⟩

/-- After a flush nothing is pending. -/
theorem flushPending_empty (o : Options) (st : Pending) :
    (flushPending o st).content = [] ∧ (flushPending o st).toolCalls = [] ∧
      (flushPending o st).reasoning = [] ∧ (flushPending o st).reasoningDetails = [] := by
  unfold flushPending
  split_ifs with h
  · simpa [and_assoc] using h
  · exact ⟨rfl, rfl, rfl, rfl⟩

/-- After a flush no image is held. -/
theorem flushToolImages_empty (st : Pending) : (flushToolImages st).toolImageUrls = [] := by
  unfold flushToolImages
  split_ifs with h
  · exact List.isEmpty_iff.mp h
  · rfl

/-- Where results are pending, flushing them settles everything. -/
theorem flush_settles (h : st.toolOutputs ≠ []) :
    ∃ ms, flushToolImages (flushToolOutputs o st) = Pending.ofMessages ms := by
  obtain ⟨hcontent, hcalls, hreasoning, hdetails⟩ :=
    foldl_pushToolOutput_pending (o := o) st.toolOutputs (flushPending o st)
  obtain ⟨hc, ht, hr, hd⟩ := flushPending_empty o st
  have himages := flushToolImages_empty (flushToolOutputs o st)
  have houtputs : flushToolOutputs o st =
      { st.toolOutputs.foldl (pushToolOutput o) (flushPending o st) with toolOutputs := [] } := by
    rw [flushToolOutputs, if_neg (by simpa using h)]
  refine ⟨(flushToolImages (flushToolOutputs o st)).messages, ?_⟩
  have hsame : ∀ st' : Pending, (flushToolImages st').content = st'.content ∧
      (flushToolImages st').toolCalls = st'.toolCalls ∧
      (flushToolImages st').reasoning = st'.reasoning ∧
      (flushToolImages st').reasoningDetails = st'.reasoningDetails ∧
      (flushToolImages st').toolOutputs = st'.toolOutputs := by
    intro st'
    unfold flushToolImages
    split_ifs <;> exact ⟨rfl, rfl, rfl, rfl, rfl⟩
  obtain ⟨h₁, h₂, h₃, h₄, h₅⟩ := hsame (flushToolOutputs o st)
  rw [houtputs] at h₁ h₂ h₃ h₄ h₅ himages ⊢
  rw [Pending.ofMessages]
  generalize flushToolImages _ = flushed at h₁ h₂ h₃ h₄ h₅ himages ⊢
  cases flushed
  simp_all

/-- Flushing a settled state does nothing. -/
theorem flush_ofMessages (ms : List Message) :
    flushToolImages (flushToolOutputs o (Pending.ofMessages ms)) = Pending.ofMessages ms := rfl

/-! ## Two rounds -/

/-- The last result of a settled round is pending when its items have been read. -/
theorem Settled.pending (h : Settled items) :
    (items.foldl (convertItem o (functionCallIds items)) Pending.empty).toolOutputs ≠ [] := by
  obtain ⟨before, id, parts, heq, hid⟩ := h
  have hlast : ∀ st : Pending, (convertItem o (functionCallIds items) st
      (.functionCallOutput id parts)).toolOutputs ≠ [] := by
    intro st
    rw [convertItem, pushItem, if_pos hid]
    exact List.append_ne_nil_of_right_ne_nil _ (List.cons_ne_nil _ _)
  rw [heq, List.foldl_append]
  rw [heq] at hlast
  exact hlast _

/-- A round opens with anything but a result, so what is pending is flushed first. -/
theorem foldl_convertItem_settled {item : Item} {ms : List Message}
    (hfollow : ResultsFollow (item :: items))
    (h : flushToolImages (flushToolOutputs o st) = Pending.ofMessages ms) :
    (item :: items).foldl (convertItem o ids) st =
      (item :: items).foldl (convertItem o ids) (Pending.ofMessages ms) := by
  have hhead : convertItem o ids st item = convertItem o ids (Pending.ofMessages ms) item := by
    cases item with
    | functionCallOutput id parts => exact absurd (hfollow [] id parts items rfl) List.not_mem_nil
    | _ =>
        simp only [convertItem]
        rw [h, flush_ofMessages]
  rw [List.foldl_cons, List.foldl_cons, hhead]

/-- The messages of a state, all flushed. -/
def Pending.flushed (o : Options) (st : Pending) : List Message :=
  (flushPending o (flushToolImages (flushToolOutputs o st))).messages

theorem flushed_after (ms : List Message) (st : Pending) :
    (st.after ms).flushed o = ms ++ st.flushed o := by
  unfold Pending.flushed
  rw [flushToolOutputs_after, flushToolImages_after, flushPending_after]
  rfl

theorem rebuildMessages_append (ha : ResultsFollow a) (hb : ResultsFollow b) (hsettled : Settled a)
    (hnodup : (callIds (a ++ b)).Nodup) :
    rebuildMessages o (a ++ b) = rebuildMessages o a ++ rebuildMessages o b := by
  have hleft : a.foldl (convertItem o (functionCallIds (a ++ b))) Pending.empty =
      a.foldl (convertItem o (functionCallIds a)) Pending.empty :=
    foldl_convertItem_congr ha (functionCallIds_ne_empty _) (functionCallIds_ne_empty _)
      (fun id => functionCallIds_append_left hb hnodup) _
  have hright : b.foldl (convertItem o (functionCallIds (a ++ b))) Pending.empty =
      b.foldl (convertItem o (functionCallIds b)) Pending.empty :=
    foldl_convertItem_congr hb (functionCallIds_ne_empty _) (functionCallIds_ne_empty _)
      (fun id => functionCallIds_append_right ha hnodup) _
  have hwhole : rebuildMessages o (a ++ b) = Pending.flushed o
      (b.foldl (convertItem o (functionCallIds (a ++ b)))
        (a.foldl (convertItem o (functionCallIds a)) Pending.empty)) := by
    rw [rebuildMessages, List.foldl_append, hleft]
    rfl
  obtain ⟨ms, hms⟩ := flush_settles (o := o) hsettled.pending
  have ha' : rebuildMessages o a = ms := by
    rw [rebuildMessages, hms]
    rfl
  cases b with
  | nil =>
      rw [List.append_nil]
      exact (List.append_nil _).symm
  | cons item b =>
      rw [hwhole, foldl_convertItem_settled hb hms, ha']
      have hempty : Pending.ofMessages ms = Pending.empty.after ms := by
        simp [Pending.ofMessages, Pending.after, Pending.empty]
      rw [hempty, foldl_convertItem_after, flushed_after, hright]
      rfl

/-! ## How a round's messages begin -/

/-- The messages begin with a call and its result. -/
def Answered (ids : List String) (ms : List Message) : Prop :=
  ∃ m id content rest, ms = .assistant m :: .tool id content :: rest ∧
    id ∈ m.toolCalls.map ToolCall.id ∧ id ∈ ids

/-- What a round has added once some items are read: nothing but the calls; or the result of
a call that is pending; or a message with a call and its result right after it. -/
def Opens (ids : List String) (read : List Item) (st : Pending) : Prop :=
  (st.messages = [] ∧ st.toolOutputs = [] ∧ st.toolImageUrls = [] ∧
    ∀ call, .functionCall call ∈ read → call.callId ∈ ids →
      call.callId ∈ st.toolCalls.map ToolCall.id) ∨
  (st.messages = [] ∧ st.toolImageUrls = [] ∧ ∃ e es, st.toolOutputs = e :: es ∧
    e.1 ∈ st.toolCalls.map ToolCall.id ∧ e.1 ∈ ids) ∨
  Answered ids st.messages

/-- Flushing only adds messages at the end. -/
theorem flushPending_messages (o : Options) (st : Pending) :
    ∃ more, (flushPending o st).messages = st.messages ++ more := by
  unfold flushPending
  split_ifs
  · exact ⟨[], (List.append_nil _).symm⟩
  · exact ⟨_, rfl⟩

/-- Flushing the images only adds messages. -/
theorem flushToolImages_messages (st : Pending) :
    ∃ more, (flushToolImages st).messages = st.messages ++ more := by
  unfold flushToolImages
  split_ifs
  · exact ⟨[], (List.append_nil _).symm⟩
  · exact ⟨_, rfl⟩

/-- Writing outputs only adds messages. -/
theorem foldl_pushToolOutput_messages (outputs : List (String × List OutputPart)) : ∀ st : Pending,
    ∃ more, (outputs.foldl (pushToolOutput o) st).messages = st.messages ++ more := by
  induction outputs with
  | nil => exact fun st => ⟨[], (List.append_nil _).symm⟩
  | cons e outputs ih =>
      intro st
      obtain ⟨more, hmore⟩ := ih (pushToolOutput o st e)
      obtain ⟨content, hmessages, -⟩ := pushToolOutput_spec o st e
      exact ⟨.tool e.1 content ::
        more, by rw [List.foldl_cons, hmore, hmessages, List.append_assoc]; rfl⟩

/-- Flushing the outputs only adds messages. -/
theorem flushToolOutputs_messages (o : Options) (st : Pending) :
    ∃ more, (flushToolOutputs o st).messages = st.messages ++ more := by
  unfold flushToolOutputs
  split_ifs
  · exact ⟨[], (List.append_nil _).symm⟩
  · obtain ⟨more, hmore⟩ := flushPending_messages o st
    obtain ⟨more', hmore'⟩ :=
      foldl_pushToolOutput_messages (o := o) st.toolOutputs (flushPending o st)
    exact ⟨more ++ more', by rw [hmore', hmore, List.append_assoc]⟩

theorem Answered.append {ms : List Message} (h : Answered ids ms) (more : List Message) :
    Answered ids (ms ++ more) := by
  obtain ⟨m, id, content, rest, rfl, h⟩ := h
  exact ⟨m, id, content, rest ++ more, rfl, h⟩

/-- A pending result is flushed after the call it answers. -/
theorem answered_flush (hmessages : st.messages = []) {e : String × List OutputPart}
    {es : List (String × List OutputPart)} (houtputs : st.toolOutputs = e :: es)
    (hcall : e.1 ∈ st.toolCalls.map ToolCall.id) (hid : e.1 ∈ ids) :
    Answered ids (flushToolImages (flushToolOutputs o st)).messages := by
  have hpending : flushPending o st = { st with
      messages := st.messages ++ [.assistant (st.assistant o)]
      content := [], toolCalls := [], reasoning := [], reasoningDetails := [] } := by
    rw [flushPending, if_neg]
    intro hempty
    simp only [Bool.and_eq_true, List.isEmpty_iff] at hempty
    rw [hempty.1.1.2] at hcall
    cases hcall
  obtain ⟨content, hfirst, -⟩ := pushToolOutput_spec o (flushPending o st) e
  obtain ⟨more, hmore⟩ := foldl_pushToolOutput_messages (o := o) es
    (pushToolOutput o (flushPending o st) e)
  have hflushed : (flushToolOutputs o st).messages =
      .assistant (st.assistant o) :: .tool e.1 content :: more := by
    rw [flushToolOutputs, if_neg (by simp [houtputs]), houtputs, List.foldl_cons]
    dsimp only
    rw [hmore, hfirst, hpending, hmessages]
    rfl
  obtain ⟨images, himages⟩ := flushToolImages_messages (flushToolOutputs o st)
  rw [himages]
  exact Answered.append ⟨_, _, _, _, hflushed, hcall, hid⟩ images

/-- At the first flush there is nothing to write, or the first call is answered. -/
theorem opens_flush {read : List Item} (h : Opens ids read st) :
    (flushToolImages (flushToolOutputs o st) = st ∧ st.toolOutputs = [] ∧ st.messages = []) ∨
      Answered ids (flushToolImages (flushToolOutputs o st)).messages := by
  rcases h with ⟨hmessages, houtputs, himages, -⟩ | ⟨hmessages, -, e, es, houtputs, hcall, hid⟩ | h
  · refine Or.inl ⟨?_, houtputs, hmessages⟩
    rw [flushToolOutputs, if_pos (by rw [houtputs]; rfl), flushToolImages,
      if_pos (by rw [himages]; rfl)]
  · exact Or.inr (answered_flush hmessages houtputs hcall hid)
  · obtain ⟨more, hmore⟩ := flushToolOutputs_messages o st
    obtain ⟨images, himages⟩ := flushToolImages_messages (flushToolOutputs o st)
    rw [himages, hmore]
    exact Or.inr (Answered.append (Answered.append h more) images)

/-- An item by itself writes no message. -/
theorem pushItem_messages (st : Pending) (item : Item) :
    (pushItem o ids st item).messages = st.messages := by
  cases item with
  | message content =>
      simp only [pushItem]
      split_ifs <;> rfl
  | functionCall call =>
      simp only [pushItem]
      split_ifs <;> rfl
  | functionCallOutput id parts =>
      simp only [pushItem]
      split_ifs <;> rfl
  | reasoning r => exact (pushReasoning_spec o st r).choose_spec.1
  | codeInterpreter code output => rfl
  | extension => rfl

/-- What an item other than a result leaves in the pending lists. -/
theorem pushItem_calls (o : Options) (ids : List String) (st : Pending) {item : Item}
    (hitem : ∀ id parts, item ≠ .functionCallOutput id parts) :
    (pushItem o ids st item).toolOutputs = st.toolOutputs ∧
      (pushItem o ids st item).toolImageUrls = st.toolImageUrls ∧
      ∃ new, (pushItem o ids st item).toolCalls = st.toolCalls ++ new ∧
        ∀ call, item = .functionCall call → call.callId ∈ ids →
          call.callId ∈ new.map ToolCall.id := by
  cases item with
  | functionCallOutput id parts => exact absurd rfl (hitem id parts)
  | functionCall call =>
      simp only [pushItem]
      split_ifs with hid
      · refine ⟨rfl, rfl, _, rfl, fun call' heq _ => ?_⟩
        obtain rfl := Item.functionCall.inj heq
        exact List.mem_singleton_self _
      · refine ⟨rfl, rfl, [], (List.append_nil _).symm, fun call' heq hid' => ?_⟩
        obtain rfl := Item.functionCall.inj heq
        exact absurd hid' hid
  | message content =>
      simp only [pushItem]
      split_ifs
      · exact ⟨rfl, rfl, [], (List.append_nil _).symm, fun call heq => by cases heq⟩
      · exact ⟨rfl, rfl, [], (List.append_nil _).symm, fun call heq => by cases heq⟩
  | reasoning r =>
      simp only [pushItem, pushReasoning]
      split_ifs
      all_goals exact ⟨rfl, rfl, [], (List.append_nil _).symm, fun call heq => by cases heq⟩
  | codeInterpreter code output =>
      exact ⟨rfl, rfl, [], (List.append_nil _).symm, fun call heq => by cases heq⟩
  | extension => exact ⟨rfl, rfl, [], (List.append_nil _).symm, fun call heq => by cases heq⟩

theorem mem_read {read : List Item} {item : Item} {call : FunctionCall}
    (h : .functionCall call ∈ read ++ [item]) :
    .functionCall call ∈ read ∨ item = .functionCall call := by
  rcases List.mem_append.mp h with h | h
  · exact Or.inl h
  · exact Or.inr (List.mem_singleton.mp h).symm

/-- One more item. -/
theorem opens_convertItem {read : List Item} {item : Item} (h : Opens ids read st)
    (hfollow : ∀ id parts, item = .functionCallOutput id parts → id ∈ callIds read) :
    Opens ids (read ++ [item]) (convertItem o ids st item) := by
  by_cases hresult : ∃ id parts, item = .functionCallOutput id parts
  · obtain ⟨id, parts, rfl⟩ := hresult
    have hsame : ∀ call, .functionCall call ∈ read ++ [.functionCallOutput id parts] →
        .functionCall call ∈ read :=
          fun call hcall => (mem_read hcall).resolve_right fun heq => by cases heq
    simp only [convertItem, pushItem]
    split_ifs with hid
    · rcases h with ⟨hmessages, houtputs, himages, hcalls⟩ |
        ⟨hmessages, himages, e, es, houtputs, hcall, hid'⟩ | h
      · obtain ⟨-, call, hcall, rfl⟩ := exists_of_mem_callIds (hfollow id parts rfl)
        refine Or.inr (Or.inl ⟨hmessages, himages, (call.callId, parts), [], ?_,
          hcalls call hcall hid, hid⟩)
        rw [houtputs]
        rfl
      · refine Or.inr (Or.inl ⟨hmessages, himages, e, es ++ [(id, parts)], ?_, hcall, hid'⟩)
        rw [houtputs]
        rfl
      · exact Or.inr (Or.inr h)
    · rcases h with ⟨hmessages, houtputs, himages, hcalls⟩ | h | h
      · exact Or.inl ⟨hmessages, houtputs, himages,
          fun call hcall => hcalls call (hsame call hcall)⟩
      · exact Or.inr (Or.inl h)
      · exact Or.inr (Or.inr h)
  · have hitem : ∀ id parts, item ≠ .functionCallOutput id parts :=
      fun id parts heq => hresult ⟨id, parts, heq⟩
    have hconvert : convertItem o ids st item =
        pushItem o ids (flushToolImages (flushToolOutputs o st)) item := by
      cases item with
      | functionCallOutput id parts => exact absurd rfl (hitem id parts)
      | _ => rfl
    rw [hconvert]
    rcases opens_flush (o := o) h with ⟨hflush, houtputs, hmessages⟩ | hanswered
    · rw [hflush]
      -- nothing was pending but calls
      rcases h with ⟨-, -, himages, hcalls⟩ | ⟨-, -, e, es, houtputs', -⟩ | ⟨m, id,
        content, rest, hms, -⟩
      · obtain ⟨hout, himg, new, hnew, hpushed⟩ := pushItem_calls o ids st hitem
        refine Or.inl ⟨(pushItem_messages st item).trans hmessages, hout.trans houtputs,
          himg.trans himages, fun call hcall hid => ?_⟩
        rw [hnew, List.map_append]
        rcases mem_read hcall with hold | heq
        · exact List.mem_append_left _ (hcalls call hold hid)
        · exact List.mem_append_right _ (hpushed call heq hid)
      · rw [houtputs] at houtputs'
        cases houtputs'
      · rw [hmessages] at hms
        cases hms
    · refine Or.inr (Or.inr ?_)
      rw [pushItem_messages]
      exact hanswered

/-- Reading more items keeps the opening. -/
theorem opens_foldl (more : List Item) : ∀ {read : List Item} {st : Pending}, Opens ids read st →
    ResultsFollow (read ++ more) →
      Opens ids (read ++ more) (more.foldl (convertItem o ids) st) := by
  induction more with
  | nil =>
      intro read st h _
      rwa [List.append_nil]
  | cons item more ih =>
      intro read st h hfollow
      have hstep : Opens ids (read ++ [item]) (convertItem o ids st item) := by
        refine opens_convertItem h fun id parts heq => ?_
        subst heq
        exact hfollow read id parts more rfl
      have hnext := ih hstep (by rwa [List.append_assoc])
      rwa [List.append_assoc] at hnext

/-- The opening after all the items. -/
theorem opens_read (ids : List String) (o : Options) (hfollow : ResultsFollow items) :
    Opens ids items (items.foldl (convertItem o ids) Pending.empty) := by
  have hempty : Opens ids [] Pending.empty :=
    Or.inl ⟨rfl, rfl, rfl, fun call hcall => by cases hcall⟩
  exact opens_foldl items hempty hfollow

/-- No round's messages begin with a result. -/
theorem toolBlock_rebuildMessages (o : Options) (hfollow : ResultsFollow items) :
    toolBlock (rebuildMessages o items) = [] := by
  have hopens := opens_read (functionCallIds items) o hfollow
  rw [rebuildMessages]
  generalize items.foldl (convertItem o (functionCallIds items)) Pending.empty = st at hopens
  obtain ⟨more, hmore⟩ := flushPending_messages o (flushToolImages (flushToolOutputs o st))
  rcases opens_flush (o := o) hopens with ⟨hflush, -, hmessages⟩ | ⟨m, id, content, rest, hms, -⟩
  · rw [hflush, flushPending]
    split_ifs
    · rw [hmessages]
      rfl
    · dsimp only
      rw [hmessages]
      rfl
  · rw [hmore, hms]
    rfl

/-- The messages of a settled round begin with a call and its result. -/
theorem Settled.answered (o : Options) (hsettled : Settled items) (hfollow : ResultsFollow items) :
    Answered (functionCallIds items) (rebuildMessages o items) := by
  have hopens := opens_read (functionCallIds items) o hfollow
  have hpending := hsettled.pending (o := o)
  rw [rebuildMessages]
  generalize items.foldl (convertItem o (functionCallIds items)) Pending.empty =
    st at hopens hpending
  obtain ⟨more, hmore⟩ := flushPending_messages o (flushToolImages (flushToolOutputs o st))
  rw [hmore]
  rcases opens_flush (o := o) hopens with ⟨-, houtputs, -⟩ | hanswered
  · exact absurd houtputs hpending
  · exact hanswered.append more

/-! ## Reconciling round by round -/

theorem toolBlock_append {ms more : List Message} (h : toolBlock more = []) :
    toolBlock (ms ++ more) = toolBlock ms := by
  induction ms with
  | nil => exact h
  | cons m ms ih =>
      cases m with
      | tool id content => exact congrArg (id :: ·) ih
      | user text urls => rfl
      | assistant a => rfl

/-- Each message with the ids paired in its block, as the passes over the pairs read them. -/
def filterPairs (keep : Message → List String → Option Message) (current : List String)
    (ms : List Message) : List Message :=
  (ms.zip (getPairedToolCallIds current ms)).filterMap fun e => keep e.1 e.2

section FilterPairs

variable {keep : Message → List String → Option Message} {current : List String}
    {ms more : List Message}

/-- A result is looked up among the current ids. -/
theorem filterPairs_tool {id : String} {content : ToolContent} :
    filterPairs keep current (.tool id content :: ms) =
      (keep (.tool id content) current).toList ++ filterPairs keep current ms := by
  simp only [filterPairs, getPairedToolCallIds, List.zip_cons_cons, List.filterMap_cons]
  cases keep (.tool id content) current <;> rfl

/-- A user message ends the current ids. -/
theorem filterPairs_user {text : String} {urls : List String} :
    filterPairs keep current (.user text urls :: ms) =
      (keep (.user text urls) []).toList ++ filterPairs keep [] ms := by
  simp only [filterPairs, getPairedToolCallIds, List.zip_cons_cons, List.filterMap_cons]
  cases keep (.user text urls) [] <;> rfl

/-- A message of an assistant starts its own. -/
theorem filterPairs_assistant {a : Assistant} :
    filterPairs keep current (.assistant a :: ms) =
      (keep (.assistant a) (pairedIds a ms)).toList ++ filterPairs keep (pairedIds a ms) ms := by
  simp only [filterPairs, getPairedToolCallIds, List.zip_cons_cons, List.filterMap_cons]
  cases keep (.assistant a) (pairedIds a ms) <;> rfl

/-- Messages that do not begin with a result are paired on their own. -/
theorem filterPairs_append (h : toolBlock more = []) (ms : List Message) :
    ∀ current, filterPairs keep current (ms ++ more) = filterPairs keep current ms ++
      filterPairs keep [] more := by
  induction ms with
  | nil =>
      intro current
      -- the first message that is left is no result, so the ids of the block do not matter
      cases more with
      | nil => rfl
      | cons m more =>
          cases m with
          | tool id content => cases h
          | user text urls => rfl
          | assistant a => rfl
  | cons m ms ih =>
      intro current
      cases m with
      | tool id content => rw [List.cons_append, filterPairs_tool, filterPairs_tool, ih,
          List.append_assoc]
      | user text urls => rw [List.cons_append, filterPairs_user, filterPairs_user, ih,
          List.append_assoc]
      | assistant a =>
          have hpaired : pairedIds a (ms ++ more) = pairedIds a ms := by
            rw [pairedIds, pairedIds, toolBlock_append h]
          rw [List.cons_append, filterPairs_assistant, filterPairs_assistant, hpaired, ih,
            List.append_assoc]

end FilterPairs

/-- The whole conversion in terms of the filter. -/
theorem convert_eq (o : Options) (output : List Item) :
    convertOutputToMessages o output = filterPairs reconcileMessage []
    (rebuildMessages o output) := by
  unfold convertOutputToMessages
  split_ifs with hnil
  · rw [List.isEmpty_iff.mp hnil]
    rfl
  · rfl

/-- The conversion of two rounds is that of the one followed by that of the other. -/
theorem convert_append (ha : ResultsFollow a) (hb : ResultsFollow b) (hsettled : Settled a)
    (hnodup : (callIds (a ++ b)).Nodup) :
    convertOutputToMessages o (a ++ b) = convertOutputToMessages o a ++
      convertOutputToMessages o b := by
  rw [convert_eq, convert_eq, convert_eq, rebuildMessages_append ha hb hsettled hnodup]
  exact filterPairs_append (toolBlock_rebuildMessages o hb) (rebuildMessages o a) []

end OpenWebUI.Output
