import Mathlib.Data.List.Induction
import OpenWebUI.Anthropic.Stream

/-! # The life of content blocks

What makes a sequence of events well formed: the first event starts the message, blocks
are numbered in the order they start, a block is only written to or stopped while it is
live, and the last events close the message or report an error.
-/

namespace OpenWebUI.Anthropic

open Py

/-! ## Events of blocks -/

/-- The indices of the started blocks, in order. -/
def starts (events : List Event) : List ℤ :=
  events.filterMap fun e => match e with
    | .contentBlockStart i _ => some i
    | _ => none

/-- The indices of the stopped blocks, in order. -/
def stops (events : List Event) : List ℤ :=
  events.filterMap fun e => match e with
    | .contentBlockStop i => some i
    | _ => none

/-- The event writes to the block or stops it. -/
def Event.Touches (i : ℤ) : Event → Prop
  | .contentBlockDelta j _ => j = i
  | .contentBlockStop j => j = i
  | _ => False

def Event.IsBlock : Event → Prop
  | .contentBlockStart _ _ | .contentBlockDelta _ _ | .contentBlockStop _ => True
  | _ => False

/-- The block has been started and not been stopped. -/
def Live (events : List Event) (i : ℤ) : Prop := i ∈ starts events ∧ i ∉ stops events

/-- Blocks are numbered from zero in the order they start, and are live when touched. -/
structure Ordered (events : List Event) : Prop where
  indices : starts events = (List.range (starts events).length).map Nat.cast
  live : ∀ before e after i, events = before ++ e :: after → e.Touches i → Live before i

/-- What may follow the blocks: an error, or the end of a message whose started blocks
have all been stopped once. -/
inductive Closes (body : List Event) : List Event → Prop
  | error (message : Json) : Closes body [.error message]
  | stop (reason : String) (usage : Obj) (h : (stops body).Perm (starts body)) :
      Closes body [.messageDelta reason usage, .messageStop]

/-- A well-formed sequence of events. -/
structure WellFormed (events : List Event) : Prop where
  ordered : Ordered events
  shape : ∃ id model tokens body tail, events = .messageStart id model tokens :: (body ++ tail) ∧
    (∀ e ∈ body, e.IsBlock) ∧ Closes body tail

/-- A sequence of events that may go on. -/
structure Begun (events : List Event) : Prop where
  ordered : Ordered events
  shape : ∃ id model tokens body, events = .messageStart id model tokens :: body ∧
    ∀ e ∈ body, e.IsBlock

/-! ## One more event -/

section Snoc

variable {events : List Event} {e : Event} {i j : ℤ}

@[simp] theorem starts_start (i : ℤ) (b : Block) :
    starts (events ++ [.contentBlockStart i b]) = starts events ++ [i] := by
  simp [starts]

@[simp] theorem starts_delta (i : ℤ) (d : Delta) :
    starts (events ++ [.contentBlockDelta i d]) = starts events := by
  simp [starts]

@[simp] theorem starts_stop (i : ℤ) :
    starts (events ++ [.contentBlockStop i]) = starts events := by
  simp [starts]

@[simp] theorem stops_start (i : ℤ) (b : Block) :
    stops (events ++ [.contentBlockStart i b]) = stops events := by
  simp [stops]

@[simp] theorem stops_delta (i : ℤ) (d : Delta) :
    stops (events ++ [.contentBlockDelta i d]) = stops events := by
  simp [stops]

@[simp] theorem stops_stop (i : ℤ) :
    stops (events ++ [.contentBlockStop i]) = stops events ++ [i] := by
  simp [stops]

/-- A split of a longer sequence is one of the shorter sequence, or ends with the new event. -/
theorem split_snoc {before after : List Event} {e' : Event}
    (h : events ++ [e] = before ++ e' :: after) :
    (∃ after', events = before ++ e' :: after') ∨ before = events ∧ e' = e := by
  rcases List.eq_nil_or_concat after with rfl | ⟨init, last, rfl⟩
  · obtain ⟨hbefore, he⟩ := List.append_inj' h rfl
    exact Or.inr ⟨hbefore.symm, (List.cons.inj he).1.symm⟩
  · rw [List.concat_eq_append, ← List.cons_append, ← List.append_assoc] at h
    exact Or.inl ⟨init, (List.append_inj' h rfl).1⟩

/-- The stopped blocks have been started, and stopped once. -/
theorem Ordered.stops (h : Ordered events) :
    (∀ i ∈ stops events, i ∈ starts events) ∧ (stops events).Nodup := by
  -- over the prefixes, so that what was live at a stop is known
  suffices hpre : ∀ before, before <+: events →
      (∀ i ∈ Anthropic.stops before, i ∈ starts before) ∧ (Anthropic.stops before).Nodup from
    hpre events (List.prefix_refl events)
  intro before hbefore
  induction before using List.reverseRecOn with
  | nil => exact ⟨fun i hi => (nomatch hi), List.nodup_nil⟩
  | append_singleton before e ih =>
      obtain ⟨after, hafter⟩ := hbefore
      rw [List.append_assoc] at hafter
      obtain ⟨hmem, hnodup⟩ := ih ⟨_, hafter⟩
      cases e with
      -- a stop has been started and not stopped yet
      | contentBlockStop i =>
          obtain ⟨hstart, hstop⟩ := h.live before _ after i hafter.symm rfl
          rw [stops_stop, starts_stop]
          refine ⟨?_, ?_⟩
          · intro j hj
            rcases List.mem_append.mp hj with hj | hj
            · exact hmem j hj
            · rw [List.mem_singleton.mp hj]
              exact hstart
          · rw [List.nodup_append]
            refine ⟨hnodup, List.nodup_singleton i, ?_⟩
            rintro a ha b hb rfl
            exact hstop (List.mem_singleton.mp hb ▸ ha)
      | contentBlockStart i b =>
          rw [stops_start, starts_start]
          exact ⟨fun j hj => List.mem_append_left _ (hmem j hj), hnodup⟩
      | contentBlockDelta i d =>
          rw [stops_delta, starts_delta]
          exact ⟨hmem, hnodup⟩
      | messageStart | messageDelta | messageStop | error =>
          simp only [Anthropic.stops, starts, List.filterMap_append, List.filterMap_cons_none,
            List.filterMap_nil, List.append_nil]
          exact ⟨hmem, hnodup⟩

/-- Blocks that start in order start once each. -/
theorem Ordered.nodup_starts (h : Ordered events) : (starts events).Nodup := by
  rw [h.indices]
  exact List.nodup_range.map Nat.cast_injective

/-- A started block has a number below that of the next one. -/
theorem Ordered.mem_starts (h : Ordered events) :
    i ∈ starts events ↔ 0 ≤ i ∧ i < (starts events).length := by
  rw [h.indices, List.length_map, List.length_range, List.mem_map]
  constructor
  · rintro ⟨n, hn, rfl⟩
    rw [List.mem_range] at hn
    omega
  · rintro ⟨hi, hlt⟩
    refine ⟨i.toNat, List.mem_range.mpr ?_, ?_⟩ <;> omega

/-- An event may follow if the block it touches is live, and if it starts no block or the
next one. -/
theorem Ordered.snoc (h : Ordered events) (hlive : ∀ i, e.Touches i → Live events i)
    (hstart : ∀ i b, e = .contentBlockStart i b → i = (starts events).length) :
    Ordered (events ++ [e]) where
  indices := by
    cases e with
    | contentBlockStart i b =>
        rw [starts_start, List.length_append, List.length_singleton, List.range_succ,
          List.map_append, ← h.indices, hstart i b rfl]
        rfl
    | contentBlockDelta | contentBlockStop => simpa using h.indices
    | messageStart | messageDelta | messageStop | error =>
        simpa [starts] using h.indices
  live := by
    intro before e' after i hsplit htouch
    rcases split_snoc hsplit with ⟨after', heq⟩ | ⟨rfl, rfl⟩
    · exact h.live before e' after' i heq htouch
    · exact hlive i htouch

/-- Any block event may follow that keeps the order. -/
theorem Begun.snoc (h : Begun events) (hblock : e.IsBlock) (hordered : Ordered (events ++ [e])) :
    Begun (events ++ [e]) := by
  obtain ⟨id, model, tokens, body, rfl, hbody⟩ := h.shape
  refine ⟨hordered, id, model, tokens, body ++ [e], rfl, ?_⟩
  intro e' he'
  rcases List.mem_append.mp he' with he' | he'
  · exact hbody e' he'
  · rw [List.mem_singleton.mp he']
    exact hblock

/-- The next block may start. -/
theorem Begun.start (h : Begun events) (hi : i = (starts events).length) (b : Block) :
    Begun (events ++ [.contentBlockStart i b]) :=
  h.snoc trivial (h.ordered.snoc (fun _ ht => ht.elim) fun j _ he => by
    obtain ⟨rfl, _⟩ := Event.contentBlockStart.inj he
    exact hi)

/-- A live block may get a delta. -/
theorem Begun.delta (h : Begun events) (hi : Live events i) (d : Delta) :
    Begun (events ++ [.contentBlockDelta i d]) :=
  h.snoc trivial (h.ordered.snoc (fun _ ht => ht ▸ hi) fun _ _ he => nomatch he)

/-- A live block may be stopped. -/
theorem Begun.stop (h : Begun events) (hi : Live events i) :
    Begun (events ++ [.contentBlockStop i]) :=
  h.snoc trivial (h.ordered.snoc (fun _ ht => ht ▸ hi) fun _ _ he => nomatch he)

/-! ## Live blocks -/

/-- A block that starts is live, next to those before. -/
theorem live_start (h : Begun events) (hi : i = (starts events).length) (b : Block) :
    Live (events ++ [.contentBlockStart i b]) j ↔ Live events j ∨ j = i := by
  have hnew : i ∉ starts events := by
    rw [h.ordered.mem_starts]
    omega
  have hstop : i ∉ stops events := fun hmem => hnew (h.ordered.stops.1 i hmem)
  simp only [Live, starts_start, stops_start, List.mem_append, List.mem_singleton]
  constructor
  · rintro ⟨hj | hj, hns⟩
    · exact Or.inl ⟨hj, hns⟩
    · exact Or.inr hj
  · rintro (⟨hj, hns⟩ | rfl)
    · exact ⟨Or.inl hj, hns⟩
    · exact ⟨Or.inr rfl, hstop⟩

/-- A delta neither starts nor ends a block. -/
@[simp] theorem live_delta (d : Delta) :
    Live (events ++ [.contentBlockDelta i d]) j ↔ Live events j := by
  simp [Live]

/-- A block that is stopped is no longer live, and only it. -/
theorem live_stop : Live (events ++ [.contentBlockStop i]) j ↔ Live events j ∧ j ≠ i := by
  simp [Live, and_assoc]

/-! ## The end -/

/-- A failed stream ends with its error. -/
theorem Begun.error (h : Begun events) (message : Json) :
    WellFormed (events ++ [.error message]) := by
  refine ⟨h.ordered.snoc (fun _ ht => ht.elim) fun _ _ he => (nomatch he), ?_⟩
  obtain ⟨id, model, tokens, body, rfl, hbody⟩ := h.shape
  exact ⟨id, model, tokens, body, _, rfl, hbody, .error message⟩

/-- A message ends when no block is live any more. -/
theorem Begun.close (h : Begun events) (hlive : ∀ i, ¬ Live events i) (reason : String)
    (usage : Obj) : WellFormed (events ++ [.messageDelta reason usage] ++ [.messageStop]) := by
  have hdelta := h.ordered.snoc (e := .messageDelta reason usage) (fun _ ht => ht.elim)
    fun _ _ he => nomatch he
  refine ⟨hdelta.snoc (fun _ ht => ht.elim) fun _ _ he => (nomatch he), ?_⟩
  have hstops := h.ordered.stops
  have hperm : (stops events).Perm (starts events) := by
    rw [List.perm_ext_iff_of_nodup hstops.2 h.ordered.nodup_starts]
    refine fun i => ⟨hstops.1 i, fun hi => ?_⟩
    by_contra hns
    exact hlive i ⟨hi, hns⟩
  obtain ⟨id, model, tokens, body, rfl, hbody⟩ := h.shape
  refine ⟨id, model, tokens, body, _, ?_, hbody, .stop reason usage hperm⟩
  rw [List.append_assoc]
  rfl

end Snoc

end OpenWebUI.Anthropic
