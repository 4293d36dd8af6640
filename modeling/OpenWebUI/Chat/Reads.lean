import OpenWebUI.Chat.Turn

/-! # Saving a history that was read

`update_chat_by_id` with a history taken unchanged from an earlier read. Messages that were
removed since then come back; without those, the save keeps every message and its place.
-/

namespace OpenWebUI.Chat

open Py

/-- The history after `update_chat_by_id` with a history that was read. -/
def saveHistory (owner : String) (h read : History) : Option History :=
  (mergedHistory ⟨owner, ⟨some h, []⟩, .null, .null, 0⟩ read.raw).map cleanHistory

/-! ## Clean histories -/

theorem clean_appendChildren {m : Message} (h : Clean (.obj m)) {ids : List String}
    (hids : ∀ c ∈ ids, NulFree c) : Clean (.obj (appendChildren m ids)) := by
  induction ids generalizing m with
  | nil => exact h
  | cons c ids ih =>
      rw [appendChildren, List.foldl_cons]
      refine ih (h.set (by decide) (.arr fun x hx => ?_)) fun d hd =>
        hids d (List.mem_cons_of_mem _ hd)
      rcases List.mem_append.mp hx with hx | hx
      · exact clean_childrenIds h hx
      · rw [List.mem_singleton.mp hx]
        exact .str (hids c List.mem_cons_self)

/-- A stored history holds messages only. -/
theorem History.raw_dicts (h : History) : h.raw.Dicts := by
  intro id v hv
  rw [History.raw, Dict.get?_mapVal] at hv
  obtain ⟨m, -, rfl⟩ := Option.map_eq_some_iff.mp hv
  exact ⟨m, rfl⟩

/-- The copies of a stored history are its messages. -/
theorem History.raw_copy (h : History) (id : String) : h.raw.copy id = h.messages.get? id := by
  rw [RawHistory.copy, History.raw, Dict.get?_mapVal]
  cases h.messages.get? id <;> rfl

/-- Cleaning leaves clean messages alone. -/
theorem cleanHistory_of_clean {h : History} (hclean : CleanMessages h.messages) :
    (cleanHistory h).messages = h.messages := by
  rw [cleanHistory_messages fun id hid => ?_]
  · refine Dict.ext_get? (Dict.keys_mapVal _ _) fun id => ?_
    rw [Dict.get?_mapVal]
    cases hm : h.messages.get? id with
    | none => rfl
    | some m => rw [Option.map_some, (hclean id m hm).2.cleanMessage_eq]
  · obtain ⟨m, hm⟩ := (Dict.mem_iff_exists _ _).mp hid
    exact (hclean id m hm).1

/-- The copy that survives is the stored or the read one. -/
theorem survivor_read {owner : String} {h read : History} {id : String} {m : Message}
    (hm : survivor ⟨owner, ⟨some h, []⟩, .null, .null, 0⟩ read.raw id = some m) :
    h.messages.get? id = some m ∨ read.messages.get? id = some m := by
  unfold survivor at hm
  rw [History.raw_copy] at hm
  have hstored : ChatItem.messages ⟨owner, ⟨some h, []⟩, .null, .null, 0⟩ = h.messages := rfl
  rw [hstored] at hm
  cases hold : h.messages.get? id with
  | none =>
      rw [hold] at hm
      exact .inr hm
  | some old =>
      rw [hold] at hm
      dsimp only at hm
      split_ifs at hm
      · exact .inl hm
      · rcases Option.or_eq_some_iff.mp hm with hm | ⟨-, hm⟩
        · exact .inr hm
        · exact .inl hm

section Save

variable {owner : String} {h read merged : History} (hclean : CleanMessages h.messages)
  (hread : CleanMessages read.messages)
  (hmerged : mergedHistory ⟨owner, ⟨some h, []⟩, .null, .null, 0⟩ read.raw = some merged)

include hclean hread hmerged

/-- The merged messages are clean. -/
theorem cleanMessages_merged : CleanMessages merged.messages := by
  obtain ⟨ms, hmessages, hspec⟩ := mergedHistory_spec read.raw_dicts hmerged
  have hcopy : ∀ {id m}, survivor ⟨owner, ⟨some h, []⟩, .null, .null, 0⟩ read.raw id = some m →
      NulFree id ∧ Clean (.obj m) := by
    intro id m hm
    rcases survivor_read hm with hm | hm
    · exact hclean id m hm
    · exact hread id m hm
  have hids : ∀ id ∈ ms, NulFree id := by
    intro id hid
    obtain ⟨m', hm'⟩ := (Dict.mem_iff_exists _ _).mp ((mem_relink ms id).mpr hid)
    rw [hspec] at hm'
    obtain ⟨m, hm, -⟩ := Option.map_eq_some_iff.mp hm'
    exact (hcopy hm).1
  intro id m' hm'
  rw [hmessages, hspec] at hm'
  obtain ⟨m, hm, rfl⟩ := Option.map_eq_some_iff.mp hm'
  refine ⟨(hcopy hm).1, clean_appendChildren
    ((hcopy hm).2.set (by decide) (.arr fun x hx => ?_)) ?_⟩
  · cases hx
  · intro c hc
    exact hids c (Messages.mem_of_parentOf (mem_childList.mp hc)).1

/-- What is saved is what was merged. -/
theorem saveHistory_of_merged :
    saveHistory owner h read = some ⟨merged.messages, merged.currentId.map sanitizeText⟩ := by
  have hsame := cleanHistory_of_clean (cleanMessages_merged hclean hread hmerged)
  rw [saveHistory, hmerged, Option.map_some]
  exact congrArg (fun ms => some (⟨ms, merged.currentId.map sanitizeText⟩ : History)) hsame

end Save

/-- A save relinks the surviving copies. -/
theorem saveHistory_survivors {owner : String} {h read h' : History}
    (hclean : CleanMessages h.messages) (hread : CleanMessages read.messages)
    (hsave : saveHistory owner h read = some h') :
    ∃ ms : Messages, h'.messages = relink ms ∧ ∀ id, (relink ms).get? id =
      (survivor ⟨owner, ⟨some h, []⟩, .null, .null, 0⟩ read.raw id).map (withChildren ms id) := by
  obtain ⟨merged, hmerged, -⟩ := Option.map_eq_some_iff.mp hsave
  obtain ⟨ms, hmessages, hspec⟩ := mergedHistory_spec read.raw_dicts hmerged
  rw [saveHistory_of_merged hclean hread hmerged] at hsave
  cases hsave
  exact ⟨ms, hmessages, hspec⟩

/-! ## Reads of stored messages -/

/-- What was read agrees with the messages that are still stored. -/
def Earlier (read ms : Messages) : Prop :=
  ∀ k m m', read.get? k = some m → ms.get? k = some m' → Frozen m m'

theorem Frozen.symm {m m' : Message} (h : Frozen m m') : Frozen m' m where
  parent := h.parent.symm
  role := h.role.symm
  text hrole := (h.text (h.role.symm.trans hrole)).symm

/-- A history that grows was read earlier. -/
theorem Grows.earlier {ms ms' : Messages} (h : Grows ms ms') : Earlier ms ms' := by
  intro k m m' hm hm'
  obtain ⟨n, hn, hfrozen⟩ := h k m hm
  rw [hm'] at hn
  cases hn
  exact hfrozen

/-- A read stays one when the ids that are added are none of its own. -/
theorem Earlier.trans {read ms ms' : Messages} (h : Earlier read ms) (h' : Earlier ms ms')
    (hnew : ∀ k ∈ ms', k ∉ ms → k ∉ read) : Earlier read ms' := by
  intro k m m' hm hm'
  by_cases hk : k ∈ ms
  · obtain ⟨n, hn⟩ := (Dict.mem_iff_exists _ _).mp hk
    exact (h k m n hm hn).trans (h' k n m' hn hm')
  · exact absurd (Dict.mem_of_get? hm) (hnew k (Dict.mem_of_get? hm') hk)

/-- A save without removed messages keeps the messages and their places. -/
theorem saveHistory_spec {owner : String} {h read h' : History} (hs : Sane h.messages)
    (hread : Sane read.messages) (hearlier : Earlier read.messages h.messages)
    (hstored : ∀ k ∈ read.messages, k ∈ h.messages) (hsave : saveHistory owner h read = some h') :
    Sane h'.messages ∧ Grows h.messages h'.messages ∧ ∀ k ∈ h'.messages, k ∈ h.messages := by
  obtain ⟨ms, hmessages, hspec⟩ := saveHistory_survivors hs.clean hread.clean hsave
  obtain ⟨merged, -, heq⟩ := Option.map_eq_some_iff.mp hsave
  have hclean : CleanMessages h'.messages := heq ▸ cleanMessages_cleanHistory merged
  rw [hmessages] at hclean ⊢
  -- every message of the merge is a copy of the stored one
  have hfrom : ∀ {k m'}, (relink ms).get? k = some m' → ∃ m n, h.messages.get? k = some m ∧
      (n = m ∨ read.messages.get? k = some n) ∧ Frozen m n ∧ m' = withChildren ms k n := by
    intro k m' hm'
    rw [hspec] at hm'
    obtain ⟨n, hn, rfl⟩ := Option.map_eq_some_iff.mp hm'
    rcases survivor_read hn with hn | hn
    · exact ⟨n, n, hn, .inl rfl, (SameButChildren.refl n).frozen, rfl⟩
    · obtain ⟨m, hm⟩ := (Dict.mem_iff_exists _ _).mp (hstored k (Dict.mem_of_get? hn))
      exact ⟨m, n, hm, .inr hn, (hearlier k n m hn hm).symm, rfl⟩
  have hmem : ∀ k, k ∈ relink ms ↔ k ∈ h.messages := by
    intro k
    constructor
    · intro hk
      obtain ⟨m', hm'⟩ := (Dict.mem_iff_exists _ _).mp hk
      obtain ⟨m, n, hm, -⟩ := hfrom hm'
      exact Dict.mem_of_get? hm
    · intro hk
      rw [Dict.mem_iff, hspec, Option.isSome_map, survivor_isSome _ read.raw_dicts]
      exact .inl hk
  -- relinking touches the child list only
  have hfrozen : ∀ m k n, Frozen m n → Frozen m (withChildren ms k n) := by
    intro m k n hf
    have hget : ∀ f, f ≠ "childrenIds" → (withChildren ms k n).get f = n.get f :=
      fun f hf => withChildren_get_ne ms k n hf
    refine ⟨(hget _ (by decide)).trans hf.parent, (hget _ (by decide)).trans hf.role,
      fun hrole => ?_⟩
    rw [textOf, hget _ (by decide)]
    exact hf.text hrole
  have hgrows : Grows h.messages (relink ms) := by
    intro k m hm
    obtain ⟨m', hm'⟩ := (Dict.mem_iff_exists _ _).mp ((hmem k).mpr (Dict.mem_of_get? hm))
    obtain ⟨old, n, hold, -, hf, rfl⟩ := hfrom hm'
    rw [hm] at hold
    cases hold
    exact ⟨_, hm', hfrozen m k n hf⟩
  -- the parents are those of the stored messages
  have hresolved : Resolved (relink ms) := by
    constructor
    · intro k m' hm'
      obtain ⟨m, n, hm, -, hf, rfl⟩ := hfrom hm'
      rw [(hfrozen m k n hf).parent]
      rcases hs.linked.resolves hm with hnull | ⟨p, hp, heq⟩
      · exact .inl hnull
      · exact .inr ⟨p, (hmem p).mpr hp, heq⟩
    · refine hs.linked.acyclic.mono fun c p hcp => ?_
      rw [← hgrows.parentOf hs.linked ((hmem c).mp (Messages.mem_of_parentOf hcp).1)]
      exact hcp
  refine ⟨⟨?_, hclean, fun k m' hm' => ?_⟩, hgrows, fun k hk => (hmem k).mp hk⟩
  · have := linked_relink hresolved
    rwa [relink_relink] at this
  · obtain ⟨m, n, hm, hn, -, rfl⟩ := hfrom hm'
    refine ⟨(hs.ids k m hm).1, (withChildren_get_ne ms k n (by decide)).trans ?_⟩
    rcases hn with rfl | hn
    · exact (hs.ids k n hm).2
    · exact (hread.ids k n hn).2

end OpenWebUI.Chat
