import OpenWebUI.Chat.Table

/-! # Reading the rows back

What `ChatMessages.get_messages_map_by_chat_id` returns: every message of the map is
the dictionary of one row, up to the child lists the function rebuilds.
-/

namespace OpenWebUI.Chat

open Py

/-! ## One row -/

/-- The composite prefix comes off again. -/
@[simp] theorem stripId_compositeId (chatId messageId : String) :
    stripId (chatId ++ "-") (compositeId chatId messageId) = messageId := by
  have hpre : (compositeId chatId messageId).toList =
      (chatId ++ "-").toList ++ messageId.toList := by
    simp [compositeId]
  unfold stripId
  rw [hpre, if_pos (by rw [List.isPrefixOf_iff_prefix]; exact List.prefix_append _ _),
    List.drop_left, String.ofList_toList]

theorem nodup_rowFields (r : ChatMessage) : (Assoc.keys (rowFields r)).Nodup := by
  change List.Nodup ["user_id", "role", "parentId", "content", "output", "model", "files",
    "sources", "embeds", "meta", "done", "statusHistory", "error", "usage", "contextSummary",
    "timestamp"]
  decide

/-- The column under a JSON key, `null` for a key that names none. -/
def columnOf (r : ChatMessage) (f : String) : Json := Obj.get (rowFields r) f

/-- Dropping the null columns changes no value that is read. -/
theorem get_filter_null {o : Obj} (h : (Assoc.keys o).Nodup) (f : String) :
    Obj.get (o.filter fun p => p.2 ≠ .null) f = Obj.get o f := by
  unfold Obj.get
  have hfilter := Assoc.lookup_filter_val h (fun v => decide (v ≠ Json.null)) f
  simp only [ne_eq, decide_not] at hfilter ⊢
  rw [hfilter]
  cases ho : o.lookup f with
  | none => rfl
  | some v =>
      by_cases hv : v = .null <;> simp [hv, Option.filter_some]

theorem get_cons_ne (p : String × Json) (o : Obj) {f : String} (h : f ≠ p.1) :
    Obj.get (p :: o) f = Obj.get o f := by
  rw [Obj.get, Obj.get, Assoc.lookup_cons, if_neg h]

/-- A message read back carries the columns of its row; a missing content reads `''`. -/
theorem messageOfRow_get (id : String) (r : ChatMessage) {f : String} (hid : f ≠ "id")
    (hinfo : f ≠ "info") :
    (messageOfRow id r).get f =
      if f = "content" ∧ r.content = .null then .str "" else columnOf r f := by
  have hcols : ∀ g, g ≠ "id" →
      Obj.get (("id", .str id) :: (rowFields r).filter fun p => p.2 ≠ .null) g = columnOf r g := by
    intro g hg
    rw [get_cons_ne _ _ hg, get_filter_null (nodup_rowFields r), columnOf]
  unfold messageOfRow
  extract_lets msg msg'
  have hmsg' : msg'.get f = if f = "content" ∧ r.content = .null then .str ""
    else columnOf r f := by
    have hcontent : Assoc.has msg "content" = true ↔ r.content ≠ .null := by
      have hfilter := Assoc.lookup_filter_val (nodup_rowFields r)
        (fun v => decide (v ≠ Json.null)) "content"
      simp only [msg, Assoc.has, Assoc.lookup_cons]
      rw [if_neg (by decide), hfilter]
      change (Option.filter _ (some r.content)).isSome = true ↔ _
      rw [Option.filter_some]
      by_cases h : r.content = .null <;> simp [h]
    by_cases hc : r.content = .null
    · have hnot : ¬ Assoc.has msg "content" = true := by
        rw [hcontent]
        exact fun h => h hc
      simp only [msg', if_neg hnot, Obj.get_set, hc, and_true]
      rw [hcols f hid]
    · simp only [msg', if_pos (hcontent.mpr hc), hc, and_false, if_false]
      exact hcols f hid
  by_cases husage : Assoc.has msg' "usage" = true
  · rw [if_pos husage, Obj.get_set_ne _ _ hinfo, hmsg']
  · rw [if_neg husage, hmsg']

/-- The link of the message is the row's. -/
theorem messageOfRow_parentId (id : String) (r : ChatMessage) :
    (messageOfRow id r).get "parentId" = r.parentId := by
  rw [messageOfRow_get id r (by decide) (by decide), if_neg (by simp)]
  rfl

/-- The id of the message is the row's. -/
theorem messageOfRow_id (id : String) (r : ChatMessage) :
    (messageOfRow id r).get "id" = .str id := by
  unfold messageOfRow
  extract_lets msg msg'
  have hmsg : msg.get "id" = .str id := Obj.get_of_lookup (by simp [msg, Assoc.lookup_cons])
  have hmsg' : msg'.get "id" = .str id := by
    simp only [msg']
    split_ifs
    · exact hmsg
    · rw [Obj.get_set_ne _ _ (by decide), hmsg]
  split_ifs
  · rw [Obj.get_set_ne _ _ (by decide), hmsg']
  · exact hmsg'

/-! ## The map of all rows -/

/-- Linking a row changes lists of children only. -/
theorem sameMessages_linkRow (ms : Messages) (e : String × Message) :
    SameMessages ms (linkRow ms e) := by
  unfold linkRow
  extract_lets parentId
  split
  · exact .refl ms
  · apply sameMessages_modify
    intro m
    split_ifs
    · exact .refl m
    · exact sameButChildren_set m _

/-- Linking all the rows changes lists of children only. -/
theorem sameMessages_foldl_linkRow (l : List (String × Message)) :
    ∀ ms : Messages, SameMessages ms (l.foldl linkRow ms) := by
  induction l with
  | nil => exact SameMessages.refl
  | cons e l ih =>
      intro ms
      exact (sameMessages_linkRow ms e).trans (ih _)

/-- A map that changes lists of children only does so for all the messages. -/
theorem sameMessages_mapVal (ms : Messages) (f : String → Message → Message)
    (hf : ∀ k m, SameButChildren m (f k m)) : SameMessages ms (ms.mapVal f) := by
  intro k
  rw [Dict.get?_mapVal]
  cases hk : ms.get? k with
  | none => exact Or.inl ⟨rfl, rfl⟩
  | some m => exact Or.inr ⟨m, f k m, rfl, rfl, hf k m⟩

/-- The message ids of a chat's rows. -/
def rowIds (rows : Rows) (chatId : String) : List String :=
  (chatRows rows chatId).map fun r => stripId (chatId ++ "-") r.id

/-- Every message of the map comes from a row of the chat, and every row has its message. -/
theorem rowMessagesMap_spec {rows : Rows} {chatId : String} {ms : Messages}
    (h : rowMessagesMap rows chatId = some ms) :
    (∀ k m, ms.get? k = some m → ∃ r ∈ chatRows rows chatId,
      stripId (chatId ++ "-") r.id = k ∧ SameButChildren (messageOfRow k r) m) ∧
    ∀ k, k ∈ ms ↔ k ∈ rowIds rows chatId := by
  unfold rowMessagesMap at h
  extract_lets selected base linked at h
  split_ifs at h with hempty
  have hsame : SameMessages base ms := by
    rw [Option.some.injEq] at h
    rw [← h]
    refine (sameMessages_foldl_linkRow base.entries base).trans (sameMessages_mapVal _ _ ?_)
    intro _ m
    split_ifs
    · exact .refl m
    · exact sameButChildren_set m _
  have hbase := fun k => Dict.ofList_spec (selected.map fun r =>
    (stripId (chatId ++ "-") r.id, messageOfRow (stripId (chatId ++ "-") r.id) r)) k
  constructor
  · intro k m hm
    obtain ⟨m₀, hm₀, hs⟩ := hsame.get?_some hm
    obtain ⟨r, hr, heq⟩ := List.mem_map.mp ((hbase k).1 m₀ hm₀)
    rw [Prod.mk.injEq] at heq
    exact ⟨r, hr, heq.1, by rw [← heq.1, heq.2]; exact hs⟩
  · intro k
    rw [hsame.mem_iff, rowIds, List.mem_map]
    constructor
    · intro hk
      obtain ⟨m, hm⟩ := (Dict.mem_iff_exists base k).mp hk
      obtain ⟨r, hr, heq⟩ := List.mem_map.mp ((hbase k).1 m hm)
      rw [Prod.mk.injEq] at heq
      exact ⟨r, hr, heq.1⟩
    · rintro ⟨r, hr, rfl⟩
      exact (hbase _).2 ⟨_, List.mem_map.mpr ⟨r, hr, rfl⟩⟩

/-- There is no map where the chat has no rows. -/
theorem rowMessagesMap_eq_none {rows : Rows} {chatId : String} :
    rowMessagesMap rows chatId = none ↔ chatRows rows chatId = [] := by
  unfold rowMessagesMap
  extract_lets
  split_ifs with h <;> simpa using h

end OpenWebUI.Chat
