import OpenWebUI.Chat.Path
import OpenWebUI.Lib.Transition

/-! # Saving one message

`ChatTable.upsert_message_to_chat_by_id_and_message_id` merges a payload into the
stored message and writes the merged message to its row. The stored message takes
the latest usage, the row accumulates. As long as the usages saved for a message
agree, a save without usage leaves the row's usage alone and a repeated save
changes nothing in it.
-/

namespace OpenWebUI.Chat

open Py

/-- What the write path takes from Python and pydantic: `str` of a JSON value that is no
string, and whether a row or a chat passes `model_validate`. -/
structure Backend where
  render : Json → String
  validRow : ChatMessage → Bool
  validChat : ChatItem → Bool

/-- An empty content is replaced by the text of the output. -/
def withOutputText (render : Json → String) (message : Message) : Message :=
  if (message.get "content").truthy then message
  else
    let outputText := getOutputText render (message.get "output")
    if outputText = "" then message else Assoc.set message "content" (.str outputText)

/-- The payload as it is merged. -/
def savedPayload (b : Backend) (message : Message) : Message :=
  cleanMessage (withOutputText b.render message)

/-- The repaired history with the message merged in. -/
def historyAfterSave (item : ChatItem) (messageId : String) (message : Message) (now : ℚ) :
    History :=
  let history := (item.chat.history.map fun h => (repairChatCurrentId h).1).getD ⟨∅, none⟩
  upsertMessageToHistory history messageId message now

/-- The chat row around an edited history. -/
def ChatItem.withHistory (item : ChatItem) (history : History) (touch : Bool)
    (now : ℚ) : ChatItem :=
  let chat : ChatBody := { item.chat with history := some history }
  { item with
    chat
    title := cleanNullBytes (chat.rest.getD "title" (.str "New Chat"))
    currentMessageId := getCurrentMessageId chat
    updatedAt := if touch then now else item.updatedAt }

/-- The edit of `upsert_message_to_chat_by_id_and_message_id`; `none` when a step raises,
and then the transaction is rolled back. -/
def upsertMessageToChat (b : Backend) (chatId messageId : String) (touch : Bool) (now : ℚ)
    (message : Message) (store : Store) : Option Store :=
  let message := savedPayload b message
  let messageId := sanitizeText messageId
  match store.chat with
  | none => some store
  | some item =>
    let history := historyAfterSave item messageId message now
    let saved := (history.messages.get? messageId).getD []
    let userId := (saved.get "user_id").or (.str item.userId)
    let item := item.withHistory history touch now
    (upsertMessage b.validRow store.rows messageId chatId userId saved now).bind fun rows =>
      if b.validChat item then some ⟨some item, rows⟩ else none

/-- The store after the call: a raised exception leaves it as it was. -/
def saveMessage (b : Backend) (chatId messageId : String) (touch : Bool) (now : ℚ)
    (message : Message) (store : Store) : Store :=
  (upsertMessageToChat b chatId messageId touch now message store).getD store

/-- A backend that accepts every row and chat. -/
def plainBackend : Backend := ⟨fun _ => "", fun _ => true, fun _ => true⟩

/-- A chat without messages. -/
def emptyChat : Store := ⟨some ⟨"u", ⟨some ⟨∅, none⟩, []⟩, .null, .null, 0⟩, ∅⟩

/-! ## The usage a message carries -/

/-- One of the two usages a message may hold normalises to `usage`. -/
def Carries (m : Message) (usage : Obj) : Prop :=
  ∃ raw, (Obj.get m "usage" = .obj raw ∨
      ∃ info, Obj.get m "info" = .obj info ∧ Obj.get info "usage" = .obj raw) ∧
    raw ≠ [] ∧ normalizeUsage raw = some usage

/-- What is read as an object is one. -/
theorem eq_obj_of_asObj {x : Json} {o : Obj} (h : x.asObj = some o) : x = .obj o := by
  cases x <;> simp [Json.asObj] at h
  rw [h]

theorem truthy_obj {o : Obj} : (Json.obj o).truthy = true ↔ o ≠ [] := by
  cases o <;> simp [Json.truthy]

theorem normalizeUsage_ne_nil {raw usage : Obj} (hraw : raw ≠ [])
    (h : normalizeUsage raw = some usage) : usage ≠ [] := by
  unfold normalizeUsage at h
  rw [if_neg hraw] at h
  simp only [Option.bind_eq_bind, Option.bind_eq_some_iff, Option.pure_def, Option.some.injEq] at h
  obtain ⟨_, _, _, _, _, _, _, _, _, _, rfl⟩ := h
  intro hnil
  have hlookup := congrArg (List.lookup "total_tokens") hnil
  rw [Assoc.lookup_set_self] at hlookup
  cases hlookup

/-- What `get_usage` reads: nothing, or the normal form of a nonempty dictionary. -/
theorem getUsage_cases {m : Message} {r : Option Obj} (h : getUsage m = some r) :
    (r = none ∧ ∃ x, rawUsage m = some x ∧ x.truthy = false) ∨
      ∃ raw usage, r = some usage ∧ rawUsage m = some (.obj raw) ∧ raw ≠ [] ∧
        normalizeUsage raw = some usage := by
  unfold getUsage at h
  simp only [Option.bind_eq_bind, Option.bind_eq_some_iff] at h
  obtain ⟨x, hx, h⟩ := h
  by_cases ht : x.truthy = true
  · rw [if_pos ht] at h
    simp only [Option.bind_eq_some_iff, Option.pure_def, Option.some.injEq] at h
    obtain ⟨raw, hraw, usage, husage, rfl⟩ := h
    have hobj := eq_obj_of_asObj hraw
    subst hobj
    exact Or.inr ⟨raw, usage, rfl, hx, truthy_obj.mp ht, husage⟩
  · rw [if_neg ht, Option.pure_def, Option.some.injEq] at h
    exact Or.inl ⟨h.symm, x, hx, by simpa using ht⟩

/-- Where the usage is taken from. -/
theorem rawUsage_cases {m : Message} {x : Json} (h : rawUsage m = some x) :
    (Obj.get m "usage" = x ∧ x.truthy = true) ∨
      (Obj.get m "usage").truthy = false ∧
        ((Obj.get m "info").truthy = false ∧ x = .null ∨
          ∃ info, Obj.get m "info" = .obj info ∧ x = Obj.get info "usage") := by
  unfold rawUsage at h
  by_cases ht : (Obj.get m "usage").truthy = true
  · rw [if_pos ht, Option.some.injEq] at h
    exact Or.inl ⟨h, h ▸ ht⟩
  · rw [if_neg ht] at h
    simp only [Option.bind_eq_bind, Option.bind_eq_some_iff, Option.pure_def,
      Option.some.injEq] at h
    obtain ⟨info, hinfo, rfl⟩ := h
    refine Or.inr ⟨by simpa using ht, ?_⟩
    by_cases hi : (Obj.get m "info").truthy = true
    · rw [Json.or_of_truthy hi] at hinfo
      exact Or.inr ⟨info, eq_obj_of_asObj hinfo, rfl⟩
    · have hfalse : (Obj.get m "info").truthy = false := by simpa using hi
      rw [Json.or_of_falsy hfalse, Json.asObj_obj, Option.some.injEq] at hinfo
      subst hinfo
      exact Or.inl ⟨hfalse, rfl⟩

/-- What `get_usage` finds is carried. -/
theorem carries_of_getUsage {m : Message} {usage : Obj} (h : getUsage m = some (some usage)) :
    Carries m usage := by
  rcases getUsage_cases h with ⟨h, _⟩ | ⟨raw, usage', h, hraw, hne, hn⟩
  · cases h
  · rw [Option.some.injEq] at h
    subst h
    refine ⟨raw, ?_, hne, hn⟩
    rcases rawUsage_cases hraw with ⟨hu, _⟩ | ⟨_, ⟨_, hnull⟩ | ⟨info, hi, hu⟩⟩
    · exact Or.inl hu
    · cases hnull
    · exact Or.inr ⟨info, hi, hu.symm⟩

/-- A message that carries a usage does not read as one without. -/
theorem getUsage_ne_none_of_carries {m : Message} {usage : Obj} (h : Carries m usage) :
    getUsage m ≠ some none := by
  intro hget
  obtain ⟨raw, hwhere, hne, _⟩ := h
  have htruthy : (Json.obj raw).truthy = true := truthy_obj.mpr hne
  rcases getUsage_cases hget with ⟨_, x, hx, hfalse⟩ | ⟨_, _, h, _⟩
  · rcases rawUsage_cases hx with ⟨_, ht⟩ | ⟨hu, hinfo⟩
    · exact absurd ht (by simp [hfalse])
    · rcases hwhere with hm | ⟨info, hm, hi⟩
      · rw [hm, htruthy] at hu
        cases hu
      · rcases hinfo with ⟨hf, _⟩ | ⟨info', hm', rfl⟩
        · have hnil : info ≠ [] := by
            rintro rfl
            simp [Obj.get] at hi
          rw [hm, truthy_obj.mpr hnil] at hf
          cases hf
        · rw [hm, Json.obj.injEq] at hm'
          rw [← hm', hi, htruthy] at hfalse
          cases hfalse
  · cases h

/-! ## What a save writes -/

/-- The message stored in the embedded history. -/
def storedMessage (store : Store) (messageId : String) : Option Message :=
  store.chat.bind fun item => item.messages.get? messageId

/-- The usage in the message's row, `null` when there is none. -/
def rowUsageOf (store : Store) (chatId messageId : String) : Json :=
  ((store.rows.get? (compositeId chatId messageId)).map ChatMessage.usage).getD .null

/-- The keys under which a message may hold its usage. -/
def IsUsageKey (f : String) : Prop := f = "usage" ∨ f = "info"

/-- An upsert keeps the usage fields it does not carry. -/
theorem upsertMessageToHistory_usageKey (h : History) (messageId : String) (message : Message)
    (now : ℚ) {f : String} (hf : IsUsageKey f) :
    ∃ saved, (upsertMessageToHistory h messageId message now).messages.get? messageId = some saved ∧
      saved.lookup f = (message.lookup f).or (((h.messages.get? messageId).getD []).lookup f) := by
  have hchild : f ≠ "childrenIds" := by rcases hf with rfl | rfl <;> decide
  have hmeta : f ≠ "meta" := by rcases hf with rfl | rfl <;> decide
  unfold upsertMessageToHistory
  extract_lets h' parentId
  have hsame := sameMessages_addChildIdToParent h'.messages parentId messageId
  have hfound : ∃ m, h'.messages.get? messageId = some m ∧
      m.lookup f = (message.lookup f).or (((h.messages.get? messageId).getD []).lookup f) := by
    cases hs : h.messages.get? messageId with
    | some stored =>
        refine ⟨Assoc.update stored (keepMeta stored message), by simp [h', hs], ?_⟩
        rw [Assoc.lookup_update, keepMeta_lookup _ _ hmeta, Option.getD_some]
    | none =>
        refine ⟨newMessage h.messages messageId message now, by simp [h', hs], ?_⟩
        rw [newMessage, Assoc.lookup_update, Option.getD_none, List.lookup_nil, Option.or_none]
        have hnot : ∀ v₁ v₂ v₃ v₄ v₅ : Json, List.lookup f [("id", v₁), ("parentId", v₂),
            ("childrenIds", v₃), ("role", v₄), ("timestamp", v₅)] = none := by
          rcases hf with rfl | rfl <;> intros <;> rfl
        rw [hnot, Option.none_or]
  obtain ⟨m, hm, hlookup⟩ := hfound
  rcases hsame messageId with ⟨hnone, _⟩ | ⟨m₀, m', h1, h2, hbut⟩
  · rw [hm] at hnone
    cases hnone
  · rw [hm, Option.some.injEq] at h1
    subst h1
    exact ⟨m', h2, by rw [hbut f hchild, hlookup]⟩

/-- The usage column a write leaves in the row. -/
def RowUsage (old : Option ChatMessage) (saved : Message) (usage : Json) : Prop :=
  match old with
  | some row => applyUsage row.usage saved = some usage
  | none => ∃ r, getUsage saved = some r ∧ usage = (r.map Json.obj).getD .null

/-- The usage of the row that is written. -/
theorem upsertMessage_usage {validates : ChatMessage → Bool} {rows rows' : Rows}
    {messageId chatId : String} {userId : Json} {data : Message} {now : ℚ}
    (h : upsertMessage validates rows messageId chatId userId data now = some rows') :
    ∃ row, rows'.get? (compositeId chatId messageId) = some row ∧
      RowUsage (rows.get? (compositeId chatId messageId)) data row.usage := by
  have hwritten : ∀ row, (if validates row then some (rows.set (compositeId chatId messageId) row)
      else none) = some rows' → rows'.get? (compositeId chatId messageId) = some row := by
    intro row hset
    split_ifs at hset
    rw [Option.some.injEq] at hset
    rw [← hset, Dict.get?_set_self]
  unfold upsertMessage at h
  dsimp only at h
  cases hold : rows.get? (compositeId chatId messageId) with
  | some old =>
      rw [hold] at h
      obtain ⟨row, hrow, hset⟩ := Option.bind_eq_some_iff.mp h
      obtain ⟨usage, husage, heq⟩ := Option.bind_eq_some_iff.mp hrow
      rw [Option.pure_def, Option.some.injEq] at heq
      exact ⟨row, hwritten row hset, by rw [← heq]; exact husage⟩
  | none =>
      rw [hold] at h
      obtain ⟨row, hrow, hset⟩ := Option.bind_eq_some_iff.mp h
      obtain ⟨r, hr, heq⟩ := Option.bind_eq_some_iff.mp hrow
      rw [Option.pure_def, Option.some.injEq] at heq
      exact ⟨row, hwritten row hset, r, hr, by rw [← heq]⟩

/-- The stored message is that of the chat. -/
theorem storedMessage_eq {store : Store} {item : ChatItem} (h : store.chat = some item)
    (messageId : String) : storedMessage store messageId = item.messages.get? messageId := by
  simp [storedMessage, h]

/-- The repair keeps the usage keys of every stored message. -/
theorem repaired_usageKey (item : ChatItem) (messageId : String) {f : String} (hf : IsUsageKey f) :
    (((((item.chat.history.map fun h => (repairChatCurrentId h).1).getD ⟨∅, none⟩).messages.get?
      messageId).getD []).lookup f) = ((item.messages.get? messageId).getD []).lookup f := by
  have hchild : f ≠ "childrenIds" := by rcases hf with rfl | rfl <;> decide
  unfold ChatItem.messages
  cases hh : item.chat.history with
  | none => rfl
  | some h =>
      rcases sameMessages_repair h messageId with ⟨h1, h2⟩ | ⟨m, m', h1, h2, hbut⟩
      · simp [h1, h2]
      · simp [h1, h2, hbut f hchild]

/-- A save that goes through stores the payload's usage keys over the old ones and writes
the usage of the merged message to the row. -/
theorem upsertMessageToChat_usage {b : Backend} {chatId messageId : String} {touch : Bool}
    {now : ℚ} {message : Message} {store store' : Store}
    (h : upsertMessageToChat b chatId messageId touch now message store = some store') :
    store.chat = none ∧ store' = store ∨
      ∃ saved row, storedMessage store' (sanitizeText messageId) = some saved ∧
      (∀ f, IsUsageKey f → saved.lookup f = ((savedPayload b message).lookup f).or
        (((storedMessage store (sanitizeText messageId)).getD []).lookup f)) ∧
      store'.rows.get? (compositeId chatId (sanitizeText messageId)) = some row ∧
      RowUsage (store.rows.get? (compositeId chatId (sanitizeText messageId))) saved row.usage := by
  unfold upsertMessageToChat at h
  extract_lets payload id at h
  cases hchat : store.chat with
  | none =>
      rw [hchat, Option.some.injEq] at h
      exact Or.inl ⟨rfl, h.symm⟩
  | some item =>
      right
      rw [hchat] at h
      dsimp only at h
      obtain ⟨rows, hrows, hvalid⟩ := Option.bind_eq_some_iff.mp h
      split_ifs at hvalid
      rw [Option.some.injEq] at hvalid
      have hkey := fun f (hf : IsUsageKey f) => upsertMessageToHistory_usageKey
        ((item.chat.history.map fun h => (repairChatCurrentId h).1).getD ⟨∅, none⟩)
          id payload now hf
      obtain ⟨saved, hsaved, _⟩ := hkey "usage" (Or.inl rfl)
      change (historyAfterSave item id payload now).messages.get? id = some saved at hsaved
      rw [hsaved, Option.getD_some] at hrows
      obtain ⟨row, hrow, husage⟩ := upsertMessage_usage hrows
      refine ⟨saved, row, ?_, ?_, ?_, husage⟩
      · rw [← hvalid]
        exact hsaved
      · intro f hf
        obtain ⟨saved', hsaved', hlookup⟩ := hkey f hf
        have hsame : saved' = saved := by
          rw [← Option.some.injEq, ← hsaved', ← hsaved]
          rfl
        rw [← hsame, hlookup, repaired_usageKey item id hf, storedMessage_eq hchat]
      · rw [← hvalid]
        exact hrow

end OpenWebUI.Chat
