import OpenWebUI.Lib.Transition
import OpenWebUI.Chat.Delete

/-! # Runs of history operations

The server edits a stored history by merging a posted one, by upserting a message
and by deleting one. Any sequence of these keeps the history well linked.
-/

namespace OpenWebUI.Chat

open Py Transition

/-- An edit of the stored history. -/
inductive HistoryOp where
  | merge (incoming : Option RawHistory)
  | upsert (id : String) (message : Message) (now : ℚ)
  | delete (id : String)

def HistoryOp.apply (h : History) : HistoryOp → History
  | .merge incoming => mergeHistory (some h.raw) incoming
  | .upsert id message now => upsertMessageToHistory h id message now
  | .delete id => (deleteMessageFromHistory h id).1

/-- What the callers owe: a union whose links resolve; a payload that leaves the links of
a stored message alone; a new message below a stored parent, or none, without children.
A parent id must not be empty, since `_add_child_id_to_parent` takes `''` for no parent. -/
def HistoryOp.Admissible (h : History) : HistoryOp → Prop
  | .merge incoming => Resolved (unionMessages (some h.raw) incoming)
  | .upsert id message _ =>
    if id ∈ h.messages then
      message.lookup "parentId" = none ∧ message.lookup "childrenIds" = none
    else
      message.lookup "childrenIds" = none ∧ (message.get "parentId" = .null ∨
        ∃ p ∈ h.messages, p ≠ "" ∧ message.get "parentId" = .str p)
  | .delete _ => True

/-- One admissible edit. -/
def HistoryStep (op : HistoryOp) (h h' : History) : Prop := op.Admissible h ∧ h' = op.apply h

/-! ## The edits keep a history well linked -/

theorem wellLinked_empty : WellLinked ⟨∅, none⟩ := by
  refine ⟨⟨?_, ?_, ?_, ?_, ?_⟩, ?_⟩
  · intro id m hm
    cases hm
  · intro x hx
    obtain ⟨y, hy, _⟩ := Relation.TransGen.head'_iff.mp hx
    cases hy
  · intro id m hm
    cases hm
  · intro p m hm
    cases hm
  · intro p m hm
    cases hm
  · intro c hc
    cases hc

/-- An upsert keeps a history well linked. -/
theorem wellLinked_upsert {h : History} (hw : WellLinked h) {id : String} {message : Message}
    {now : ℚ} (ha : (HistoryOp.upsert id message now).Admissible h) :
    WellLinked (upsertMessageToHistory h id message now) := by
  unfold HistoryOp.Admissible at ha
  by_cases hid : id ∈ h.messages
  · simp only [hid, if_true] at ha
    obtain ⟨hl, hcur, hmem⟩ := linked_upsert_stored hw.linked now hid ha.1 ha.2
    exact ⟨hl, fun c hc => (hmem c).mpr (hw.current c (hcur ▸ hc))⟩
  · simp only [hid, if_false] at ha
    obtain ⟨hl, hcur, hin⟩ := linked_upsert_new hw.linked now hid ha.1 ha.2
    refine ⟨hl, fun c hc => ?_⟩
    rw [hcur, Option.some.injEq] at hc
    exact hc ▸ hin

/-- A deletion keeps a history well linked. -/
theorem wellLinked_delete {h : History} (hw : WellLinked h) (id : String) :
    WellLinked (deleteMessageFromHistory h id).1 := by
  cases hm : h.messages.get? id with
  | none => simpa [deleteMessageFromHistory, hm] using hw
  | some m =>
      have hl := linked_delete hw.linked hm
      refine ⟨hl, fun c hc => ?_⟩
      have hcur : (deleteMessageFromHistory h id).1.currentId =
          currentAfterDelete (deleteMessageFromHistory h id).1.messages (m.get "parentId") := by
        simp only [deleteMessageFromHistory, hm]
      rw [hcur] at hc
      exact (Messages.stored_eq_some.mp hc).2

/-- Every step keeps a history well linked. -/
theorem wellLinked_step {op : HistoryOp} {h h' : History} (hw : WellLinked h)
    (hs : HistoryStep op h h') : WellLinked h' := by
  obtain ⟨ha, rfl⟩ := hs
  cases op with
  | merge incoming => exact wellLinked_mergeHistory ha
  | upsert id message now => exact wellLinked_upsert hw ha
  | delete id => exact wellLinked_delete hw id

/-! ## What a deletion does -/

/-- `h'` is `h` without `id` and its direct children, the grandchildren lifted. -/
structure DeletesMessage (h : History) (id : String) (h' : History) : Prop where
  removed : ∀ k, k ∈ h'.messages ↔ k ∈ h.messages ∧ k ≠ id ∧ h.messages.parentOf k ≠ some id
  lifted : ∀ c g, h.messages.parentOf c = some id → h.messages.parentOf g = some c →
    h'.messages.parentOf g = h.messages.parentOf id
  parents : ∀ k ∈ h'.messages, (∀ c, h.messages.parentOf k = some c →
    h.messages.parentOf c ≠ some id) → h'.messages.parentOf k = h.messages.parentOf k
  kept : ∀ k m', h'.messages.get? k = some m' → ∃ m, h.messages.get? k = some m ∧
    ∀ f, f ≠ "parentId" → f ≠ "childrenIds" → m'.lookup f = m.lookup f
  current_null : h'.currentId = none → h'.messages.keys = []
  current_leaf : ∀ c, h'.currentId = some c → h'.messages.IsLeaf c

/-- What a deletion does to a well-linked history. -/
theorem deletesMessage {h : History} (hw : WellLinked h) {id : String} (hid : id ∈ h.messages) :
    DeletesMessage h id (deleteMessageFromHistory h id).1 := by
  obtain ⟨m, hm⟩ := (Dict.mem_iff_exists _ _).mp hid
  have hl := hw.linked
  have hcur : (deleteMessageFromHistory h id).1.currentId =
      currentAfterDelete (deleteMessageFromHistory h id).1.messages (m.get "parentId") := by
    simp only [deleteMessageFromHistory, hm]
  have hparent : m.get "parentId" = .null ∨
      ∃ p ∈ (deleteMessageFromHistory h id).1.messages, m.get "parentId" = .str p := by
    rcases hl.resolves hm with hnull | ⟨p, hp, hpe⟩
    · exact Or.inl hnull
    · refine Or.inr ⟨p, (mem_delete hl hm p).mpr ⟨hp, hl.parent_not_deleted ?_⟩, hpe⟩
      rw [Messages.parentOf_of_get? hm, hpe, Messages.stored_str hp]
  have hspec := currentAfterDelete_spec (linked_delete hl hm) hparent
  constructor
  · intro k
    rw [mem_delete hl hm, hl.mem_deletedIds, not_or]
  · intro c g hc hg
    have hgrand : g ∈ h.messages.grandchildIds id := (hl.mem_grandchildIds id g).mpr ⟨c, hc, hg⟩
    have hin := (mem_delete hl hm g).mpr
      ⟨(Messages.mem_of_parentOf hg).1, hl.grandchild_survives hgrand⟩
    rw [delete_parentOf hl hm hin, if_pos hgrand]
  · intro k hk hng
    have hgrand : k ∉ h.messages.grandchildIds id := by
      rw [hl.mem_grandchildIds]
      rintro ⟨c, hc, hkc⟩
      exact hng c hkc hc
    rw [delete_parentOf hl hm hk, if_neg hgrand]
  · intro k m' hm'
    obtain ⟨_, n, hn, rfl⟩ := delete_survivor hl hm hm'
    exact ⟨n, hn, fun f hp hc => editDelete_get_ne _ _ _ _ _ hp hc⟩
  · intro hnone
    rw [hcur] at hnone
    rcases hspec with ⟨hempty, _⟩ | ⟨z, hz, _⟩
    · exact hempty
    · rw [hz] at hnone
      cases hnone
  · intro c hc
    rw [hcur] at hc
    rcases hspec with ⟨_, hnull⟩ | ⟨z, hz, hleaf⟩
    · rw [hnull] at hc
      cases hc
    · rw [hz, Option.some.injEq] at hc
      exact hc ▸ hleaf

/-! ## Runs -/

/-- Every history reached from a well-linked one is well linked, and there a deletion of a
stored message removes it with its children while one of an unknown id does nothing. -/
theorem history_runs {h₀ h : History} (hw : WellLinked h₀)
    (hr : Reachable (· = h₀) HistoryStep h) :
    WellLinked h ∧ (∀ id ∈ h.messages, DeletesMessage h id (deleteMessageFromHistory h id).1) ∧
      ∀ id, id ∉ h.messages → deleteMessageFromHistory h id = (h, []) := by
  have hwl : WellLinked h := hr.invariant (fun s hs => hs ▸ hw)
    (fun _ _ _ hs hstep => wellLinked_step hs hstep)
  refine ⟨hwl, fun id hid => deletesMessage hwl hid, fun id hid => ?_⟩
  rw [← Dict.get?_eq_none_iff] at hid
  simp [deleteMessageFromHistory, hid]

/-- A run of two edits from the empty history: a root and a reply. -/
def replyRun : History :=
  upsertMessageToHistory (upsertMessageToHistory ⟨∅, none⟩ "a" [("role", .str "user")] 1)
    "b" [("parentId", .str "a")] 2

/-- A question with an answer, whose question is deleted. -/
theorem history_runs_reply : replyRun.messages.parentOf "b" = some "a" ∧ WellLinked replyRun ∧
    DeletesMessage replyRun "a" (deleteMessageFromHistory replyRun "a").1 := by
  have h1 : Reachable (· = (⟨∅, none⟩ : History)) HistoryStep
      (upsertMessageToHistory ⟨∅, none⟩ "a" [("role", .str "user")] 1) :=
    .next (a := .upsert "a" [("role", .str "user")] 1) (.start rfl)
      ⟨by simp only [HistoryOp.Admissible]; decide, rfl⟩
  have h2 : Reachable (· = (⟨∅, none⟩ : History)) HistoryStep replyRun :=
    .next (a := .upsert "b" [("parentId", .str "a")] 2) h1
      ⟨by
        have hnew :
          "b" ∉ (upsertMessageToHistory ⟨∅, none⟩ "a" [("role", .str "user")] 1).messages :=
          by decide
        simp only [HistoryOp.Admissible, hnew, if_false]
        exact ⟨rfl, Or.inr ⟨"a", by decide, by decide, rfl⟩⟩, rfl⟩
  have hrun := history_runs wellLinked_empty h2
  exact ⟨by decide, hrun.1, hrun.2.1 "a" (by decide)⟩

/-- The root of a history may have the empty id. -/
def emptyIdRoot : History := upsertMessageToHistory ⟨∅, none⟩ "" [] 1

/-- Two inputs outside the contract: a reply to the message with the empty id is not listed
as its child, and deleting an unknown id leaves a null current id beside a message. -/
theorem history_runs_needs_ids :
    (WellLinked emptyIdRoot ∧ "" ∈ emptyIdRoot.messages ∧ "a" ∉ emptyIdRoot.messages ∧
      ¬ WellLinked (upsertMessageToHistory emptyIdRoot "a" [("parentId", .str "")] 2)) ∧
    (WellLinked ⟨emptyIdRoot.messages, none⟩ ∧
      (deleteMessageFromHistory ⟨emptyIdRoot.messages, none⟩ "a").1.currentId = none ∧
      (deleteMessageFromHistory ⟨emptyIdRoot.messages, none⟩ "a").1.messages.keys ≠ []) := by
  have hroot : WellLinked emptyIdRoot :=
    wellLinked_upsert wellLinked_empty (by simp only [HistoryOp.Admissible]; decide)
  refine ⟨⟨hroot, by decide, by decide, ?_⟩, ⟨hroot.linked, by simp⟩, by decide, by decide⟩
  intro hw
  let h := upsertMessageToHistory emptyIdRoot "a" [("parentId", .str "")] 2
  have hin : "" ∈ h.messages := by decide
  obtain ⟨m, hm⟩ := (Dict.mem_iff_exists _ _).mp hin
  have hlisted : .str "a" ∈ h.messages.childrenAt (.str "") :=
    (hw.linked.mem_childrenAt "" _).mpr ⟨"a", rfl, by decide⟩
  exact absurd hlisted (by decide)

end OpenWebUI.Chat
