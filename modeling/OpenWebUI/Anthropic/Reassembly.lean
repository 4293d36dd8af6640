import Mathlib.Tactic.Linarith
import OpenWebUI.Anthropic.Cut
import OpenWebUI.Anthropic.StreamInvariant

/-! # What the events of a stream spell

How one more event changes the blocks a client has put together, and the invariant of the
part of a stream that carries no tool calls.
-/

namespace OpenWebUI.Anthropic

open Py Program

/-! ## Texts -/

section Texts

variable {s : String} {v : Json}

/-- A text is truthy unless it is empty. -/
theorem IsText.truthy (h : IsText s v) : v.truthy = decide (s ≠ "") := by
  rcases h with rfl | ⟨rfl, rfl⟩
  · exact Json.truthy_str s
  · rfl

/-- What is not empty is the text itself. -/
theorem IsText.eq_str (h : IsText s v) (hs : s ≠ "") : v = .str s :=
  h.resolve_right fun h => hs h.1

/-- The first alternative of an `or` whose others are absent. -/
theorem IsText.or_null (h : IsText s v) : IsText s (v.or .null) := by
  by_cases hs : s = ""
  · refine Or.inr ⟨hs, ?_⟩
    rw [Json.or_of_falsy]
    rw [h.truthy, hs]
    rfl
  · have htruthy : v.truthy = true := by
      rw [h.truthy]
      exact decide_eq_true hs
    rwa [Json.or_of_truthy htruthy]

end Texts

/-! ## Events -/

section Events

variable (events : List Event) (i j : ℤ)

@[simp] theorem startedBlocks_start (b : Block) :
    startedBlocks (events ++ [.contentBlockStart i b]) = startedBlocks events ++ [(i, b)] := by
  simp [startedBlocks]

@[simp] theorem startedBlocks_delta (d : Delta) :
    startedBlocks (events ++ [.contentBlockDelta i d]) = startedBlocks events := by
  simp [startedBlocks]

@[simp] theorem startedBlocks_stop :
    startedBlocks (events ++ [.contentBlockStop i]) = startedBlocks events := by
  simp [startedBlocks]

@[simp] theorem deltasAt_start (b : Block) :
    deltasAt (events ++ [.contentBlockStart i b]) j = deltasAt events j := by
  simp [deltasAt]

@[simp] theorem deltasAt_stop :
    deltasAt (events ++ [.contentBlockStop i]) j = deltasAt events j := by
  simp [deltasAt]

/-- A delta is the last of its block. -/
@[simp] theorem deltasAt_delta_self (d : Delta) :
    deltasAt (events ++ [.contentBlockDelta i d]) i = deltasAt events i ++ [d] := by
  simp [deltasAt]

/-- A delta goes to its own block only. -/
theorem deltasAt_delta_ne (d : Delta) (h : i ≠ j) :
    deltasAt (events ++ [.contentBlockDelta i d]) j = deltasAt events j := by
  simp [deltasAt, h]

variable (deltas : List Delta) (s : String)

@[simp] theorem thinkingText_thinking :
    thinkingText (deltas ++ [.thinking (.str s)]) = thinkingText deltas ++ s := by
  simp [thinkingText, String.join_append, String.join_cons]

@[simp] theorem thinkingText_text (v : Json) :
    thinkingText (deltas ++ [.text v]) = thinkingText deltas := by
  simp [thinkingText]

@[simp] theorem thinkingText_input :
    thinkingText (deltas ++ [.inputJson s]) = thinkingText deltas := by
  simp [thinkingText]

@[simp] theorem proseText_text :
    proseText (deltas ++ [.text (.str s)]) = proseText deltas ++ s := by
  simp [proseText, String.join_append, String.join_cons]

@[simp] theorem proseText_thinking (v : Json) :
    proseText (deltas ++ [.thinking v]) = proseText deltas := by
  simp [proseText]

@[simp] theorem proseText_input :
    proseText (deltas ++ [.inputJson s]) = proseText deltas := by
  simp [proseText]

@[simp] theorem inputText_input :
    inputText (deltas ++ [.inputJson s]) = inputText deltas ++ s := by
  simp [inputText, String.join_append, String.join_cons]

@[simp] theorem inputText_thinking (v : Json) :
    inputText (deltas ++ [.thinking v]) = inputText deltas := by
  simp [inputText]

@[simp] theorem inputText_text (v : Json) :
    inputText (deltas ++ [.text v]) = inputText deltas := by
  simp [inputText]

end Events

/-! ## What is spelled -/

/-- A text has one block unless it is empty. -/
def blockCount (s : String) : ℤ := if s = "" then 0 else 1

def proseCount (reasoning text : String) : ℤ := blockCount reasoning + blockCount text

/-- The blocks of the reasoning and the text, as they are started. -/
def proseBlocks (reasoning text : String) : List (ℤ × Block) :=
  (if reasoning = "" then [] else [(0, .thinking (.str "") .null)]) ++
    (if text = "" then [] else [(blockCount reasoning, .text (.str ""))])

/-- The blocks of the calls, as they are started. -/
def toolBlocks (first : ℤ) (calls : List Call) : List (ℤ × Block) :=
  calls.zipIdx.map fun p => (first + p.2, .toolUse (.str p.1.id) (.str p.1.name) (.obj []))

/-- One more call has one more block, after the others. -/
theorem toolBlocks_snoc (first : ℤ) (calls : List Call) (call : Call) :
    toolBlocks first (calls ++ [call]) = toolBlocks first calls ++
      [(first + calls.length, .toolUse (.str call.id) (.str call.name) (.obj []))] := by
  rw [toolBlocks, List.zipIdx_append, List.map_append]
  simp [toolBlocks]

/-- The events spell the reasoning and the text, and start the blocks of the calls. -/
structure Spells (reasoning text : String) (calls : List Call) (events : List Event) : Prop where
  blocks : startedBlocks events = proseBlocks reasoning text ++
    toolBlocks (proseCount reasoning text) calls
  thinking : thinkingText (deltasAt events 0) = reasoning
  text : ∀ i, proseText (deltasAt events i) = if i = blockCount reasoning then text else ""

section Spells

variable {reasoning text : String} {calls : List Call} {events : List Event} {i : ℤ}

/-- A stop event spells nothing. -/
theorem Spells.stop (h : Spells reasoning text calls events) (i : ℤ) :
    Spells reasoning text calls (events ++ [.contentBlockStop i]) :=
  ⟨by rw [startedBlocks_stop]; exact h.blocks, by rw [deltasAt_stop]; exact h.thinking,
    fun j => by rw [deltasAt_stop]; exact h.text j⟩

/-- The block of a call comes after the prose and the calls before. -/
theorem Spells.tool (h : Spells reasoning text calls events) (call : Call)
    (hi : i = proseCount reasoning text + calls.length) :
    Spells reasoning text (calls ++ [call]) (events ++
      [.contentBlockStart i (.toolUse (.str call.id) (.str call.name) (.obj []))]) := by
  refine ⟨?_, by rw [deltasAt_start]; exact h.thinking,
    fun j => by rw [deltasAt_start]; exact h.text j⟩
  rw [startedBlocks_start, h.blocks, toolBlocks_snoc, List.append_assoc, hi]

/-- Fragments of an input are no prose. -/
theorem Spells.input (h : Spells reasoning text calls events) (i : ℤ) (s : String) :
    Spells reasoning text calls (events ++ [.contentBlockDelta i (.inputJson s)]) := by
  refine ⟨by rw [startedBlocks_delta]; exact h.blocks, ?_, fun j => ?_⟩
  · by_cases hi : i = 0
    · rw [hi, deltasAt_delta_self, thinkingText_input]
      exact h.thinking
    · rw [deltasAt_delta_ne _ _ _ _ hi]
      exact h.thinking
  · by_cases hi : i = j
    · rw [hi, deltasAt_delta_self, proseText_input]
      exact h.text j
    · rw [deltasAt_delta_ne _ _ _ _ hi]
      exact h.text j

end Spells

/-! ## Reasoning and text -/

/-- The reasoning and the text have come, and no tool calls yet. -/
structure Prose (reasoning text reason : String) (s : State) : Prop where
  tools : s.trackedToolCalls = ∅
  indices : s.indexToToolId = ∅
  noTools : s.hasToolCalls = false
  reason : s.stopReason = reason
  spells : Spells reasoning text [] s.events
  input : ∀ i, inputText (deltasAt s.events i) = ""

/-- With the block open that the last of them left open. -/
structure ProseInv (reasoning text reason : String) (s : State) : Prop
    extends Prose reasoning text reason s where
  thinkingOpen : s.thinkingBlockOpen = decide (reasoning ≠ "" ∧ text = "")
  textOpen : s.textBlockOpen = decide (text ≠ "")
  index : s.currentBlockIndex = if text = "" then 0 else blockCount reasoning

/-- What ends in something is something. -/
theorem append_ne_empty {s t : String} (ht : t ≠ "") : s ++ t ≠ "" := by
  intro h
  rw [String.append_eq_empty_iff] at h
  exact ht h.2

section Prose

variable {reasoning text reason r t : String} {v : Json} {s : State}

/-- Closing a block changes no prose. -/
theorem Prose.stop (h : Prose reasoning text reason s) (i : ℤ) :
    Prose reasoning text reason (s.yield (.contentBlockStop i)) where
  tools := h.tools
  indices := h.indices
  noTools := h.noTools
  reason := h.reason
  spells := h.spells.stop i
  input := fun j => by
    change inputText (deltasAt (s.events ++ [_]) j) = ""
    rw [deltasAt_stop]
    exact h.input j

/-- A delta of reasoning in the block that is started with the first one. -/
theorem Prose.thinking (h : Prose reasoning "" reason s) (hr : r ≠ "") {s' : State}
    (hevents : s'.events = (if reasoning = "" then
      s.events ++ [.contentBlockStart 0 (.thinking (.str "") .null)] else s.events) ++
        [.contentBlockDelta 0 (.thinking (.str r))])
    (htools : s'.trackedToolCalls = s.trackedToolCalls)
    (hindices : s'.indexToToolId = s.indexToToolId) (hhas : s'.hasToolCalls = s.hasToolCalls)
    (hreason : s'.stopReason = s.stopReason) : Prose (reasoning ++ r) "" reason s' := by
  -- the start of a block adds no delta
  have hdeltas : ∀ i, deltasAt (if reasoning = "" then
      s.events ++ [.contentBlockStart 0 (.thinking (.str "") .null)] else s.events) i =
        deltasAt s.events i := by
    intro i
    split_ifs
    · exact deltasAt_start ..
    · rfl
  refine ⟨htools.trans h.tools, hindices.trans h.indices, hhas.trans h.noTools,
    hreason.trans h.reason, ⟨?_, ?_, ?_⟩, ?_⟩
  -- the blocks started
  · have hblocks := h.spells.blocks
    rw [hevents, startedBlocks_delta]
    split_ifs with hreasoning
    · rw [startedBlocks_start, hblocks]
      simp [proseBlocks, toolBlocks, hreasoning, hr]
    · rw [hblocks]
      simp [proseBlocks, toolBlocks, hreasoning, append_ne_empty hr]
  · rw [hevents, deltasAt_delta_self, thinkingText_thinking, hdeltas, h.spells.thinking]
  -- the text is untouched
  · intro i
    have hi := h.spells.text i
    rw [ite_self] at hi ⊢
    rw [hevents]
    by_cases h0 : (0 : ℤ) = i
    · rw [← h0, deltasAt_delta_self, proseText_thinking, hdeltas, h0, hi]
    · rw [deltasAt_delta_ne _ _ _ _ h0, hdeltas, hi]
  · intro i
    rw [hevents]
    by_cases h0 : (0 : ℤ) = i
    · rw [← h0, deltasAt_delta_self, inputText_thinking, hdeltas, h0, h.input i]
    · rw [deltasAt_delta_ne _ _ _ _ h0, hdeltas, h.input i]

/-- A delta of text in the block that is started with the first one. -/
theorem Prose.writing (h : Prose reasoning text reason s) (ht : t ≠ "") {s' : State}
    (hevents : s'.events = (if text = "" then
      s.events ++ [.contentBlockStart (blockCount reasoning) (.text (.str ""))] else s.events) ++
        [.contentBlockDelta (blockCount reasoning) (.text (.str t))])
    (htools : s'.trackedToolCalls = s.trackedToolCalls)
    (hindices : s'.indexToToolId = s.indexToToolId) (hhas : s'.hasToolCalls = s.hasToolCalls)
    (hreason : s'.stopReason = s.stopReason) : Prose reasoning (text ++ t) reason s' := by
  have hdeltas : ∀ i, deltasAt (if text = "" then
      s.events ++ [.contentBlockStart (blockCount reasoning) (.text (.str ""))] else s.events) i =
        deltasAt s.events i := by
    intro i
    split_ifs
    · exact deltasAt_start ..
    · rfl
  refine ⟨htools.trans h.tools, hindices.trans h.indices, hhas.trans h.noTools,
    hreason.trans h.reason, ⟨?_, ?_, ?_⟩, ?_⟩
  -- the blocks started
  · have hblocks := h.spells.blocks
    rw [hevents, startedBlocks_delta]
    split_ifs with htext
    · rw [startedBlocks_start, hblocks]
      simp [proseBlocks, toolBlocks, htext, ht]
    · rw [hblocks]
      simp [proseBlocks, toolBlocks, htext, append_ne_empty ht]
  -- the thinking is untouched
  · rw [hevents]
    by_cases h0 : blockCount reasoning = 0
    · rw [h0, deltasAt_delta_self, thinkingText_text, ← h0, hdeltas, h0, h.spells.thinking]
    · rw [deltasAt_delta_ne _ _ _ _ h0, hdeltas, h.spells.thinking]
  · intro i
    have hi := h.spells.text i
    rw [hevents]
    by_cases h0 : blockCount reasoning = i
    · rw [← h0, deltasAt_delta_self, proseText_text, hdeltas, h0, hi, if_pos h0.symm, if_pos rfl]
    · rw [deltasAt_delta_ne _ _ _ _ h0, hdeltas, hi, if_neg (Ne.symm h0), if_neg (Ne.symm h0)]
  · intro i
    rw [hevents]
    by_cases h0 : blockCount reasoning = i
    · rw [← h0, deltasAt_delta_self, inputText_text, hdeltas, h0, h.input i]
    · rw [deltasAt_delta_ne _ _ _ _ h0, hdeltas, h.input i]

/-- More reasoning, before any text. -/
theorem ProseInv.think (h : ProseInv reasoning text reason s) (hv : IsText r v)
    (horder : r ≠ "" → text = "") : ProseInv (reasoning ++ r) text reason (s.think v) := by
  by_cases hr : r = ""
  · subst hr
    have hcond : ¬ (v.truthy && !s.textBlockOpen && !s.hasToolCalls) = true := by
      simp [hv.truthy]
    rwa [String.append_empty, State.think, if_neg hcond]
  · obtain rfl := horder hr
    have hcond : (v.truthy && !s.textBlockOpen && !s.hasToolCalls) = true := by
      rw [hv.truthy, h.textOpen, h.noTools]
      simp [hr]
    have hindex : s.currentBlockIndex = 0 := h.index
    rw [State.think, if_pos hcond, hv.eq_str hr, hindex]
    unfold State.openThinking
    rw [h.thinkingOpen, hindex]
    by_cases hreasoning : reasoning = ""
    · rw [if_neg (by simp [hreasoning])]
      refine ⟨h.toProse.thinking hr ?_ rfl rfl rfl rfl, ?_, h.textOpen, hindex⟩
      · rw [if_pos hreasoning]
        rfl
      · simp [State.yield, append_ne_empty hr]
    · rw [if_pos (by simp [hreasoning])]
      refine ⟨h.toProse.thinking hr ?_ rfl rfl rfl rfl, ?_, h.textOpen, hindex⟩
      · rw [if_neg hreasoning]
        rfl
      · change s.thinkingBlockOpen = _
        rw [h.thinkingOpen]
        simp [append_ne_empty hr, hreasoning]

/-- Once the thinking block is closed, the running index is that of the text. -/
theorem ProseInv.closeThinking (h : ProseInv reasoning text reason s) :
    Prose reasoning text reason s.closeThinking ∧ s.closeThinking.thinkingBlockOpen = false ∧
      s.closeThinking.textBlockOpen = decide (text ≠ "") ∧
      s.closeThinking.currentBlockIndex = blockCount reasoning := by
  have hindex := h.index
  unfold State.closeThinking
  rw [h.thinkingOpen]
  split_ifs with hopen
  · obtain ⟨hreasoning, rfl⟩ := of_decide_eq_true hopen
    have hstop := h.toProse.stop s.currentBlockIndex
    refine ⟨⟨hstop.tools, hstop.indices, hstop.noTools, hstop.reason, hstop.spells, hstop.input⟩,
      rfl, h.textOpen, ?_⟩
    change s.currentBlockIndex + 1 = _
    rw [hindex, if_pos rfl, blockCount, if_neg hreasoning]
    rfl
  · refine ⟨h.toProse, ?_, h.textOpen, ?_⟩
    · rw [h.thinkingOpen]
      exact Bool.eq_false_iff.mpr hopen
    · rw [hindex]
      split_ifs with htext
      · have hreasoning : reasoning = "" := by
          by_contra hne
          exact hopen (decide_eq_true ⟨hne, htext⟩)
        rw [blockCount, if_pos hreasoning]
      · rfl

/-- More text. -/
theorem ProseInv.write (h : ProseInv reasoning text reason s) (hv : IsText t v) :
    ProseInv reasoning (text ++ t) reason (s.write v) := by
  by_cases ht : t = ""
  · subst ht
    have hcond : ¬ (v.truthy && !s.hasToolCalls) = true := by
      simp [hv.truthy]
    rwa [String.append_empty, State.write, if_neg hcond]
  · have hcond : (v.truthy && !s.hasToolCalls) = true := by
      rw [hv.truthy, h.noTools]
      simp [ht]
    obtain ⟨hprose, hthinking, htext, hindex⟩ := h.closeThinking
    rw [State.write, if_pos hcond, hv.eq_str ht]
    simp only [hindex]
    unfold State.openText
    rw [htext, hindex]
    have hflag : false = decide (reasoning ≠ "" ∧ text ++ t = "") := by
      simp [append_ne_empty ht]
    have hindex' : blockCount reasoning = if text ++ t = "" then 0 else blockCount reasoning :=
      (if_neg (append_ne_empty ht)).symm
    by_cases hempty : text = ""
    · rw [if_neg (by simp [hempty])]
      refine ⟨hprose.writing ht ?_ rfl rfl rfl rfl, hthinking.trans hflag, ?_, hindex.trans hindex'⟩
      · rw [if_pos hempty]
        rfl
      · simp [State.yield, append_ne_empty ht]
    · rw [if_pos (by simp [hempty])]
      refine ⟨hprose.writing ht ?_ rfl rfl rfl rfl, hthinking.trans hflag, ?_, hindex.trans hindex'⟩
      · rw [if_neg hempty]
        rfl
      · refine htext.trans ?_
        simp [append_ne_empty ht, hempty]

/-- Before tool calls, whatever is open is closed. -/
theorem ProseInv.close (h : ProseInv reasoning text reason s) :
    Prose reasoning text reason s.closeThinking.closeText ∧ Closed s.closeThinking.closeText ∧
      s.closeThinking.closeText.currentBlockIndex = proseCount reasoning text := by
  obtain ⟨hprose, hthinking, htext, hindex⟩ := h.closeThinking
  unfold State.closeText
  split_ifs with hopen
  · have hstop := hprose.stop s.closeThinking.currentBlockIndex
    rw [htext] at hopen
    refine ⟨⟨hstop.tools, hstop.indices, hstop.noTools, hstop.reason, hstop.spells, hstop.input⟩,
      ⟨hthinking, rfl⟩, ?_⟩
    change s.closeThinking.currentBlockIndex + 1 = blockCount reasoning + blockCount text
    rw [hindex, blockCount, blockCount, if_neg (of_decide_eq_true hopen)]
  · refine ⟨hprose, ⟨hthinking, Bool.eq_false_iff.mpr hopen⟩, ?_⟩
    rw [htext] at hopen
    have hempty : text = "" := by simpa using hopen
    rw [hindex, proseCount, hempty, blockCount, blockCount, if_pos rfl, add_zero]

end Prose

end OpenWebUI.Anthropic
