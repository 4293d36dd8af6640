import OpenWebUI.Anthropic.Lifecycle

/-! # The variables of a stream

The conversion's variables agree with the events it has sent: a block is live exactly if
its flag or its tool says so, and the running index is that of the open block or the next
one. Each update of the variables keeps this.
-/

namespace OpenWebUI.Anthropic

open Py Program

/-! ## The invariant -/

def Tool.Open (tool : Tool) : Prop := tool.started = true ∧ tool.stopped = false

/-- Some tool's block has this index and is open. -/
def State.ToolAt (s : State) (i : ℤ) : Prop :=
  ∃ key tool, s.trackedToolCalls.get? key = some tool ∧ tool.Open ∧ tool.blockIndex = i

/-- A thinking or a text block is open. -/
def State.proseOpen (s : State) : Bool := s.thinkingBlockOpen || s.textBlockOpen

structure Inv (s : State) : Prop where
  begun : Begun s.events
  index : ((starts s.events).length : ℤ) = s.currentBlockIndex + if s.proseOpen then 1 else 0
  exclusive : s.thinkingBlockOpen = true → s.textBlockOpen = false
  live : ∀ i, Live s.events i ↔ (s.proseOpen = true ∧ i = s.currentBlockIndex) ∨ s.ToolAt i
  below : ∀ key tool, s.trackedToolCalls.get? key = some tool → tool.started = true →
    tool.blockIndex < s.currentBlockIndex
  distinct : ∀ key key' tool tool', s.trackedToolCalls.get? key = some tool →
    s.trackedToolCalls.get? key' = some tool' → tool.started = true → tool'.started = true →
    tool.blockIndex = tool'.blockIndex → key = key'
  unstopped : ∀ key tool, s.trackedToolCalls.get? key = some tool → tool.started = false →
    tool.stopped = false

/-- Every tool with a name is started, but for the one in hand. -/
def NamedBut (key : Option Json) (s : State) : Prop :=
  ∀ k tool, some k ≠ key → s.trackedToolCalls.get? k = some tool → tool.name.truthy = true →
    tool.started = true

/-- What holds between two turns of the loop. -/
def Ready (s : State) : Prop := Inv s ∧ NamedBut none s

/-- What holds while tool calls are read. -/
def Closed (s : State) : Prop := s.thinkingBlockOpen = false ∧ s.textBlockOpen = false

/-- An exception leaves events that an error may close. -/
def Failed (_ : Unit) (s : State) : Prop := Begun s.events

section

variable {s : State} {i : ℤ} {key : Json} {tool : Tool}

/-- The open block of prose can be written to. -/
theorem Inv.prose_live (h : Inv s) (hopen : s.proseOpen = true) :
    Live s.events s.currentBlockIndex :=
  (h.live _).mpr (Or.inl ⟨hopen, rfl⟩)

/-- The open block of a tool can be written to. -/
theorem Inv.tool_live (h : Inv s) (hget : s.trackedToolCalls.get? key = some tool)
    (hopen : tool.Open) : Live s.events tool.blockIndex :=
  (h.live _).mpr (Or.inr ⟨key, tool, hget, hopen, rfl⟩)

/-- Between blocks of prose nothing is open. -/
theorem Closed.proseOpen (h : Closed s) : s.proseOpen = false := by
  rw [State.proseOpen, h.1, h.2]
  rfl

/-- The invariant is about the blocks only. -/
theorem Inv.frame {s' : State} (h : Inv s) (hevents : s'.events = s.events)
    (hindex : s'.currentBlockIndex = s.currentBlockIndex)
    (hthinking : s'.thinkingBlockOpen = s.thinkingBlockOpen)
    (htext : s'.textBlockOpen = s.textBlockOpen)
    (htools : s'.trackedToolCalls = s.trackedToolCalls) : Inv s' := by
  have hprose : s'.proseOpen = s.proseOpen := by
    rw [State.proseOpen, hthinking, htext]
    rfl
  refine ⟨hevents ▸ h.begun, ?_, ?_, ?_, ?_, ?_, ?_⟩
  · rw [hevents, hindex, hprose]
    exact h.index
  · rw [hthinking, htext]
    exact h.exclusive
  · intro i
    rw [hevents, hindex, hprose, State.ToolAt, htools]
    exact h.live i
  · rw [htools, hindex]
    exact h.below
  · rw [htools]
    exact h.distinct
  · rw [htools]
    exact h.unstopped

/-! ## Thinking and text -/

/-- A delta of a live block fits anywhere. -/
theorem Inv.delta (h : Inv s) (hi : Live s.events i) (d : Delta) :
    Inv (s.yield (.contentBlockDelta i d)) where
  begun := h.begun.delta hi d
  index := by
    change ((starts (s.events ++ [_])).length : ℤ) = _
    rw [starts_delta]
    exact h.index
  exclusive := h.exclusive
  live := fun j => (live_delta d).trans (h.live j)
  below := h.below
  distinct := h.distinct
  unstopped := h.unstopped

/-- The open block is closed and the index moves on. -/
theorem Inv.close (h : Inv s) (hopen : s.proseOpen = true) {thinking text : Bool}
    (hthinking : thinking = false) (htext : text = false) :
    Inv { s.yield (.contentBlockStop s.currentBlockIndex) with
      thinkingBlockOpen := thinking
      textBlockOpen := text
      currentBlockIndex := s.currentBlockIndex + 1 } where
  begun := h.begun.stop (h.prose_live hopen)
  index := by
    have hindex := h.index
    rw [if_pos hopen] at hindex
    subst hthinking htext
    change ((starts (s.events ++ [_])).length : ℤ) = s.currentBlockIndex + 1 + 0
    rw [starts_stop, hindex, add_zero]
  exclusive := fun _ => htext
  live := by
    intro j
    refine live_stop.trans ?_
    rw [h.live j]
    constructor
    · rintro ⟨⟨_, hj⟩ | htool, hne⟩
      · exact absurd hj hne
      · exact Or.inr htool
    · rintro (⟨hprose, _⟩ | htool)
      · subst hthinking htext
        cases hprose
      · obtain ⟨key, tool, hget, hstate, rfl⟩ := htool
        exact ⟨Or.inr ⟨key, tool, hget, hstate, rfl⟩, (h.below key tool hget hstate.1).ne⟩
  below := fun key tool hget hs => (h.below key tool hget hs).trans (lt_add_one _)
  distinct := h.distinct
  unstopped := h.unstopped

/-- A block is opened at the running index. -/
theorem Inv.open (h : Inv s) (hclosed : Closed s) (b : Block) (thinking text : Bool)
    (hopen : (thinking || text) = true) (hone : thinking = true → text = false) :
    Inv { s.yield (.contentBlockStart s.currentBlockIndex b) with
      thinkingBlockOpen := thinking
      textBlockOpen := text } := by
  have hindex := h.index
  rw [hclosed.proseOpen, if_neg (by decide), add_zero] at hindex
  refine ⟨h.begun.start hindex.symm b, ?_, hone, ?_, h.below, h.distinct, h.unstopped⟩
  · change ((starts (s.events ++ [_])).length : ℤ) =
      s.currentBlockIndex + if (thinking || text) = true then 1 else 0
    rw [starts_start, List.length_append, List.length_singleton, if_pos hopen, ← hindex]
    rfl
  · intro j
    refine (live_start h.begun hindex.symm b).trans ?_
    rw [h.live j, hclosed.proseOpen]
    change _ ↔ (thinking || text) = true ∧ j = s.currentBlockIndex ∨ s.ToolAt j
    simp [hopen, or_comm]

/-- Closing the block of thinking stops it if it is open. -/
theorem Inv.closeThinking (h : Inv s) :
    Inv s.closeThinking ∧ s.closeThinking.thinkingBlockOpen = false := by
  unfold State.closeThinking
  by_cases hopen : s.thinkingBlockOpen
  · rw [if_pos hopen]
    exact ⟨h.close (by rw [State.proseOpen, hopen]; rfl) rfl (h.exclusive hopen), rfl⟩
  · rw [if_neg hopen]
    exact ⟨h, by simpa using hopen⟩

/-- Closing the text leaves no prose open. -/
theorem Inv.closeText (h : Inv s) (hthinking : s.thinkingBlockOpen = false) :
    Inv s.closeText ∧ Closed s.closeText := by
  unfold State.closeText
  by_cases hopen : s.textBlockOpen
  · rw [if_pos hopen]
    exact ⟨h.close (by rw [State.proseOpen, hopen]; exact Bool.or_true _) hthinking rfl,
      hthinking, rfl⟩
  · rw [if_neg hopen]
    exact ⟨h, hthinking, by simpa using hopen⟩

/-- A block of thinking is opened under the next index, unless it is open. -/
theorem Inv.openThinking (h : Inv s) (htext : s.textBlockOpen = false) :
    Inv s.openThinking ∧ s.openThinking.proseOpen = true ∧
      s.openThinking.currentBlockIndex = s.currentBlockIndex := by
  unfold State.openThinking
  by_cases hopen : s.thinkingBlockOpen
  · rw [if_pos hopen]
    exact ⟨h, by rw [State.proseOpen, hopen]; rfl, rfl⟩
  · rw [if_neg hopen]
    exact ⟨h.open ⟨by simpa using hopen, htext⟩ _ true s.textBlockOpen rfl fun _ => htext, rfl, rfl⟩

/-- A block of text is opened under the next index, unless it is open. -/
theorem Inv.openText (h : Inv s) (hthinking : s.thinkingBlockOpen = false) :
    Inv s.openText ∧ s.openText.proseOpen = true ∧
      s.openText.currentBlockIndex = s.currentBlockIndex := by
  unfold State.openText
  by_cases hopen : s.textBlockOpen
  · rw [if_pos hopen]
    exact ⟨h, by rw [State.proseOpen, hopen]; exact Bool.or_true _, rfl⟩
  · rw [if_neg hopen]
    refine ⟨h.open ⟨hthinking, by simpa using hopen⟩ _ s.thinkingBlockOpen true (Bool.or_true _)
      fun ht => ?_, Bool.or_true _, rfl⟩
    rw [hthinking] at ht
    cases ht

/-- Reasoning goes into a block of thinking, after the text is closed. -/
theorem Inv.think (h : Inv s) (reasoning : Json) : Inv (s.think reasoning) := by
  unfold State.think
  split_ifs with hcond
  · simp only [Bool.and_eq_true, Bool.not_eq_true'] at hcond
    obtain ⟨hinv, hopen, hindex⟩ := h.openThinking hcond.1.2
    rw [← hindex]
    exact hinv.delta (hinv.prose_live hopen) _
  · exact h

/-- Content goes into a block of text, after the thinking is closed. -/
theorem Inv.write (h : Inv s) (content : Json) : Inv (s.write content) := by
  unfold State.write
  split_ifs with hcond
  · obtain ⟨hclosed, hthinking⟩ := h.closeThinking
    obtain ⟨hinv, hopen, hindex⟩ := hclosed.openText hthinking
    have hdelta := hinv.delta (hinv.prose_live hopen) (.text content)
    rw [hindex] at hdelta
    exact hdelta
  · exact h

section Frame

variable (s : State) (v : Json)

/-- Prose touches no tool. -/
@[simp] theorem openThinking_tools : s.openThinking.trackedToolCalls = s.trackedToolCalls := by
  unfold State.openThinking
  split_ifs <;> rfl

@[simp] theorem openText_tools : s.openText.trackedToolCalls = s.trackedToolCalls := by
  unfold State.openText
  split_ifs <;> rfl

@[simp] theorem closeThinking_tools : s.closeThinking.trackedToolCalls = s.trackedToolCalls := by
  unfold State.closeThinking
  split_ifs <;> rfl

@[simp] theorem closeText_tools : s.closeText.trackedToolCalls = s.trackedToolCalls := by
  unfold State.closeText
  split_ifs <;> rfl

@[simp] theorem yield_tools (e : Event) : (s.yield e).trackedToolCalls = s.trackedToolCalls := rfl

@[simp] theorem think_tools : (s.think v).trackedToolCalls = s.trackedToolCalls := by
  unfold State.think
  split_ifs <;> simp

@[simp] theorem write_tools : (s.write v).trackedToolCalls = s.trackedToolCalls := by
  unfold State.write
  split_ifs <;> simp

end Frame

/-! ## One tool -/

/-- A tool is set under its own key only. -/
theorem get?_setTool (s : State) (key k : Json) (tool : Tool) :
    (s.setTool key tool).trackedToolCalls.get? k =
      if k = key then some tool else s.trackedToolCalls.get? k :=
  Dict.get?_set ..

/-- The block of another tool has this index and is open. -/
def State.OtherAt (s : State) (key : Json) (i : ℤ) : Prop :=
  ∃ k tool, k ≠ key ∧ s.trackedToolCalls.get? k = some tool ∧ tool.Open ∧ tool.blockIndex = i

/-- An open block of a tool is that of one tool or of another. -/
theorem toolAt_iff (hget : s.trackedToolCalls.get? key = some tool) :
    s.ToolAt i ↔ (tool.Open ∧ tool.blockIndex = i) ∨ s.OtherAt key i := by
  constructor
  · rintro ⟨k, t, ht, hopen, hi⟩
    by_cases hk : k = key
    · subst hk
      obtain rfl := Option.some.inj (hget.symm.trans ht)
      exact Or.inl ⟨hopen, hi⟩
    · exact Or.inr ⟨k, t, hk, ht, hopen, hi⟩
  · rintro (⟨hopen, hi⟩ | ⟨k, t, _, ht, hopen, hi⟩)
    · exact ⟨key, tool, hget, hopen, hi⟩
    · exact ⟨k, t, ht, hopen, hi⟩

/-- The other tools stay. -/
theorem otherAt_setTool (new : Tool) : (s.setTool key new).OtherAt key i ↔ s.OtherAt key i := by
  unfold State.OtherAt
  simp only [get?_setTool]
  constructor
  · rintro ⟨k, t, hk, ht, hrest⟩
    rw [if_neg hk] at ht
    exact ⟨k, t, hk, ht, hrest⟩
  · rintro ⟨k, t, hk, ht, hrest⟩
    exact ⟨k, t, hk, by rwa [if_neg hk], hrest⟩

/-- After a tool is set its block is the new one. -/
theorem toolAt_setTool (new : Tool) :
    (s.setTool key new).ToolAt i ↔ (new.Open ∧ new.blockIndex = i) ∨ s.OtherAt key i := by
  rw [← otherAt_setTool new]
  exact toolAt_iff (Dict.get?_set_self ..)

/-- A tool not tracked has no block. -/
theorem otherAt_of_new (hnew : s.trackedToolCalls.get? key = none) :
    s.OtherAt key i ↔ s.ToolAt i := by
  constructor
  · rintro ⟨k, t, _, hrest⟩
    exact ⟨k, t, hrest⟩
  · rintro ⟨k, t, ht, hrest⟩
    refine ⟨k, t, ?_, ht, hrest⟩
    rintro rfl
    rw [hnew] at ht
    cases ht

/-- Other tools' blocks are elsewhere. -/
theorem Inv.otherAt_ne (h : Inv s) (hget : s.trackedToolCalls.get? key = some tool)
    (hstarted : tool.started = true) : ¬ s.OtherAt key tool.blockIndex := by
  rintro ⟨k, t, hk, ht, hopen, hi⟩
  exact hk (h.distinct k key t tool ht hget hopen.1 hstarted hi)

/-- The numbering survives a change of one tool that keeps its number or takes the next. -/
theorem Inv.numbering (h : Inv s) (key : Json) (new : Tool) {next : ℤ}
    (hnext : s.currentBlockIndex ≤ next)
    (hnew : new.started = true → new.blockIndex < next ∧ ∀ k t, k ≠ key →
      s.trackedToolCalls.get? k = some t → t.started = true → new.blockIndex ≠ t.blockIndex)
    (hunstopped : new.started = false → new.stopped = false) :
    (∀ k t, (s.setTool key new).trackedToolCalls.get? k = some t → t.started = true →
      t.blockIndex < next) ∧
    (∀ k k' t t', (s.setTool key new).trackedToolCalls.get? k = some t →
      (s.setTool key new).trackedToolCalls.get? k' = some t' → t.started = true →
      t'.started = true → t.blockIndex = t'.blockIndex → k = k') ∧
    ∀ k t, (s.setTool key new).trackedToolCalls.get? k = some t → t.started = false →
      t.stopped = false := by
  simp only [get?_setTool]
  refine ⟨?_, ?_, ?_⟩
  · intro k t ht hs
    split_ifs at ht with hk
    · obtain rfl := Option.some.inj ht
      exact (hnew hs).1
    · exact (h.below k t ht hs).trans_le hnext
  · intro k k' t t' ht ht' hs hs' hi
    split_ifs at ht ht' with hk hk' hk'
    · rw [hk, hk']
    · obtain rfl := Option.some.inj ht
      exact absurd hi ((hnew hs).2 k' t' hk' ht' hs')
    · obtain rfl := Option.some.inj ht'
      exact absurd hi.symm ((hnew hs').2 k t hk ht hs)
    · exact h.distinct k k' t t' ht ht' hs hs' hi
  · intro k t ht hs
    split_ifs at ht with hk
    · obtain rfl := Option.some.inj ht
      exact hunstopped hs
    · exact h.unstopped k t ht hs

/-- Changes to a tool that leave its block alone. -/
theorem Inv.setTool (h : Inv s) {new : Tool} (hget : s.trackedToolCalls.get? key = some tool)
    (hstarted : new.started = tool.started) (hstopped : new.stopped = tool.stopped)
    (hindex : new.blockIndex = tool.blockIndex) : Inv (s.setTool key new) := by
  have hnew : new.started = true → new.blockIndex < s.currentBlockIndex ∧ ∀ k t, k ≠ key →
      s.trackedToolCalls.get? k = some t → t.started = true → new.blockIndex ≠ t.blockIndex := by
    intro hs
    rw [hstarted] at hs
    rw [hindex]
    exact ⟨h.below key tool hget hs, fun k t hk ht hs' hi =>
      hk (h.distinct k key t tool ht hget hs' hs hi.symm)⟩
  have hnumbering := h.numbering key new le_rfl hnew fun hs => by
    rw [hstopped]
    exact h.unstopped key tool hget (hstarted ▸ hs)
  refine ⟨h.begun, h.index, h.exclusive, ?_, hnumbering.1, hnumbering.2.1,
    hnumbering.2.2⟩
  intro i
  refine (h.live i).trans ?_
  rw [toolAt_setTool, toolAt_iff hget, Tool.Open, Tool.Open, hstarted, hstopped, hindex]
  rfl

/-- A tool without a block is tracked. -/
theorem Inv.addTool (h : Inv s) {new : Tool} (hnew : s.trackedToolCalls.get? key = none)
    (hstarted : new.started = false) (hstopped : new.stopped = false) :
    Inv (s.setTool key new) := by
  have hnever : ¬ new.started = true := by
    rw [hstarted]
    decide
  have hnumbering := h.numbering key new le_rfl (fun hs => absurd hs hnever)
    fun _ => hstopped
  refine ⟨h.begun, h.index, h.exclusive, ?_, hnumbering.1, hnumbering.2.1,
    hnumbering.2.2⟩
  intro i
  refine (h.live i).trans ?_
  rw [toolAt_setTool, otherAt_of_new hnew, Tool.Open, hstarted]
  simp [State.proseOpen, State.setTool]

/-- The block of a tool starts at the running index. -/
theorem Inv.startTool (h : Inv s) (hclosed : Closed s) {new : Tool}
    (hget : s.trackedToolCalls.get? key = some tool) (hstarted : new.started = tool.started)
    (hstopped : new.stopped = tool.stopped) (hindex : new.blockIndex = tool.blockIndex) :
    Inv (s.startTool key new) := by
  unfold State.startTool
  split_ifs with hcond
  · simp only [Bool.and_eq_true, Bool.not_eq_true'] at hcond
    have hnotStarted : tool.started = false := hstarted ▸ hcond.1
    have hnotStopped : new.stopped = false := hstopped.trans (h.unstopped key tool hget hnotStarted)
    have hcount := h.index
    have hproseOpen := hclosed.proseOpen
    rw [hproseOpen, if_neg (by decide), add_zero] at hcount
    have hnumbering := h.numbering key
      { new with blockIndex := s.currentBlockIndex, started := true }
      (lt_add_one s.currentBlockIndex).le
      (fun _ => ⟨lt_add_one _, fun k t _ ht hs => (h.below k t ht hs).ne'⟩) fun _ => hnotStopped
    refine ⟨h.begun.start hcount.symm _, ?_, h.exclusive, ?_, hnumbering.1, hnumbering.2.1,
      hnumbering.2.2⟩
    · change ((starts (s.events ++ [_])).length : ℤ) =
        s.currentBlockIndex + 1 + if s.proseOpen then 1 else 0
      rw [starts_start, List.length_append, List.length_singleton, hproseOpen, ← hcount]
      rfl
    · intro j
      refine (live_start h.begun hcount.symm _).trans ?_
      change _ ↔ (s.proseOpen = true ∧ _) ∨ (s.setTool key _).ToolAt j
      rw [h.live j, toolAt_setTool, toolAt_iff hget, hproseOpen]
      simp only [Tool.Open, hnotStarted, hnotStopped, Bool.false_eq_true, false_and, false_or,
        true_and]
      rw [or_comm, eq_comm]
  · exact h.setTool hget hstarted hstopped hindex

/-- The block of a tool stops. -/
theorem Inv.stopTool (h : Inv s) (hget : s.trackedToolCalls.get? key = some tool)
    (hopen : tool.Open) : Inv ((s.setTool key { tool with stopped := true }).yield
      (.contentBlockStop tool.blockIndex)) := by
  have hnumbering := h.numbering key { tool with stopped := true } le_rfl
    (fun _ => ⟨h.below key tool hget hopen.1, fun k t hk ht hs hi =>
      hk (h.distinct k key t tool ht hget hs hopen.1 hi.symm)⟩)
    fun hs => by
      change tool.started = false at hs
      rw [hopen.1] at hs
      cases hs
  refine ⟨h.begun.stop (h.tool_live hget hopen), ?_, h.exclusive, ?_, hnumbering.1, hnumbering.2.1,
    hnumbering.2.2⟩
  · change ((starts (s.events ++ [_])).length : ℤ) = _
    rw [starts_stop]
    exact h.index
  · intro j
    refine live_stop.trans ?_
    change Live s.events j ∧ _ ↔
      (s.proseOpen = true ∧ j = s.currentBlockIndex) ∨ (s.setTool key _).ToolAt j
    rw [h.live j, toolAt_setTool, toolAt_iff hget]
    constructor
    · rintro ⟨hprose | ⟨_, hi⟩ | hother, hne⟩
      · exact Or.inl hprose
      · exact absurd hi.symm hne
      · exact Or.inr (Or.inr hother)
    · rintro (⟨hprose, rfl⟩ | ⟨⟨_, hs⟩, _⟩ | hother)
      · exact ⟨Or.inl ⟨hprose, rfl⟩, (h.below key tool hget hopen.1).ne'⟩
      · cases hs
      · refine ⟨Or.inr (Or.inr hother), ?_⟩
        rintro rfl
        exact h.otherAt_ne hget hopen.1 hother

end

end OpenWebUI.Anthropic
