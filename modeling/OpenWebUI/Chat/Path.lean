import OpenWebUI.Chat.Table

/-! # The message path

`get_message_list` of `backend/open_webui/utils/misc.py` walks the parent links of
a message map. `ChatTable.get_messages_map_by_chat_id` builds that map from the
rows and fills gaps from the embedded history. The main result says exactly when
the filled map is closed under parents.
-/

namespace OpenWebUI.Chat

open Py

/-! ## `get_message_list` -/

/-- The parent entry the walk continues with; a falsy parent id ends it. -/
def Messages.parentEntry (ms : Messages) (m : Message) : Option (String × Message) :=
  let parentId := m.get "parentId"
  if parentId.truthy then
    parentId.asStr.bind fun p => (ms.get? p).map fun n => (p, n)
  else none

/-- The walk towards the root with the keys visited so far. An empty message is falsy and
ends it. -/
def climb (ms : Messages) : Nat → String → Message → List String → List (String × Message)
  | 0, _, _, _ => []
  | fuel + 1, id, m, visited =>
    if m = [] ∨ id ∈ visited then []
    else (id, m) :: match ms.parentEntry m with
      | none => []
      | some (p, n) => climb ms fuel p n (id :: visited)

/-- The path from the root to `id`, with the keys under which its messages are stored.
A walk visits each key once, so the fuel is one more than the size. -/
def getMessagePath (ms : Messages) (id : String) : List (String × Message) :=
  match ms.get? id with
  | none => []
  | some m => (climb ms (ms.size + 1) id m []).reverse

/-- The chain of ids of `get_message_list`. -/
def messageChain (ms : Messages) (id : String) : List String := (getMessagePath ms id).map Prod.fst

/-- The entry of the parent that is stored. -/
theorem Messages.parentEntry_eq_some {ms : Messages} {m n : Message} {p : String} :
    ms.parentEntry m = some (p, n) ↔ m.get "parentId" = .str p ∧ p ≠ "" ∧ ms.get? p = some n := by
  unfold parentEntry
  cases hp : m.get "parentId" with
  | str s =>
      by_cases hs : s = ""
      · simp only [hs, Json.truthy_str, ne_eq, not_true_eq_false, decide_false, Bool.false_eq_true,
          if_false, reduceCtorEq, Json.str.injEq, false_iff]
        rintro ⟨rfl, hne, _⟩
        exact hne rfl
      · simp only [Json.truthy_str, ne_eq, hs, not_false_eq_true, decide_true, if_true,
          Json.asStr_str, Option.bind_some, Option.map_eq_some_iff, Prod.mk.injEq, Json.str.injEq]
        constructor
        · rintro ⟨x, hx, rfl, rfl⟩
          exact ⟨rfl, hs, hx⟩
        · rintro ⟨rfl, _, hx⟩
          exact ⟨n, hx, rfl, rfl⟩
  | _ => simp [Json.asStr]

/-- Once the fuel covers the unvisited keys, more of it changes nothing. -/
theorem climb_fuel (ms : Messages) (fuel extra : Nat) : ∀ (id : String) (m : Message)
    (visited : List String), id ∈ ms → visited.Nodup → (∀ v ∈ visited, v ∈ ms) →
      ms.size + 1 ≤ fuel + visited.length →
      climb ms (fuel + extra) id m visited = climb ms fuel id m visited := by
  induction fuel with
  | zero =>
      intro id m visited _ hnd hsub hfuel
      have hle := ms.length_le_size hnd hsub
      omega
  | succ fuel ih =>
      intro id m visited hid hnd hsub hfuel
      rw [Nat.succ_add, climb, climb]
      split_ifs with hstop
      · rfl
      · rw [not_or] at hstop
        congr 1
        cases hp : ms.parentEntry m with
        | none => rfl
        | some e =>
            obtain ⟨p, n⟩ := e
            have hpn := (Messages.parentEntry_eq_some.mp hp).2.2
            refine ih p n (id :: visited) (Dict.mem_of_get? hpn)
              (List.nodup_cons.mpr ⟨hstop.2, hnd⟩) ?_ ?_
            · intro v hv
              rcases List.mem_cons.mp hv with rfl | hv
              · exact hid
              · exact hsub v hv
            · rw [List.length_cons]
              omega

/-- The path does not depend on the fuel, as long as there is enough of it. -/
theorem getMessagePath_fuel {ms : Messages} {id : String} {m : Message} (hm : ms.get? id = some m)
    {fuel : Nat} (hfuel : ms.size + 1 ≤ fuel) :
    getMessagePath ms id = (climb ms fuel id m []).reverse := by
  obtain ⟨extra, rfl⟩ := Nat.exists_eq_add_of_le hfuel
  rw [climb_fuel ms _ extra id m [] (Dict.mem_of_get? hm) List.nodup_nil (by simp) (by simp)]
  simp [getMessagePath, hm]

/-! ## The filled map -/

/-- `get_unresolved_parent_ids`, a set listed without repetition. -/
def getUnresolvedParentIds (ms : Messages) : List Json :=
  (ms.entries.filterMap fun e =>
    let parentId := e.2.get "parentId"
    if parentId.truthy && (ms.stored parentId).isNone then some parentId else none).dedup

/-- `{id: history_messages[id] for id in unresolved_ids if id in history_messages}`. -/
def missingMessages (history : Messages) (unresolved : List Json) : Messages :=
  Dict.ofList (unresolved.filterMap fun u => (history.stored u).bind fun id =>
    (history.get? id).map fun m => (id, m))

/-- `upsert_messages`: rows that exist are left alone; `none` when a row cannot be built. -/
def upsertMessages (rows : Rows) (chatId : String) (userId : Json)
    (messages : List (String × Message)) (now : ℚ) : Option Rows :=
  messages.foldlM (fun rows e => do
    let key := compositeId chatId e.1
    let row ← buildMessage key chatId ((e.2.get "user_id").or userId) e.2 now
    return if key ∈ rows then rows else rows.set key row) rows

/-- `backfill_messages_by_chat_id`: errors are logged, never raised. -/
def backfillMessages (rows : Rows) (chatId : String) (userId : Json) (messages : Messages)
    (now : ℚ) : Rows :=
  let writable := messages.entries.filter fun e => (e.2.get "role").truthy
  (upsertMessages rows chatId userId writable now).getD rows

/-- `chat.chat.get('history', {}).get('messages', {}) or {}`. -/
def ChatItem.messages (chat : ChatItem) : Messages :=
    (chat.chat.history.map History.messages).getD ∅

/-- `ChatTable.get_messages_map_by_chat_id`, with the rows after the backfill. -/
def getMessagesMap (store : Store) (chatId : String) (now : ℚ) : Option Messages × Rows :=
  match rowMessagesMap store.rows chatId with
  | some ms =>
    let unresolved := getUnresolvedParentIds ms
    if unresolved = [] then (some ms, store.rows)
    else
      match store.chat with
      | none => (some ms, store.rows)
      | some chat =>
        let missing := missingMessages chat.messages unresolved
        if missing.entries = [] then (some ms, store.rows)
        else (some (ms.update missing),
          backfillMessages store.rows chatId (.str chat.userId) missing now)
  | none =>
    match store.chat with
    | none => (none, store.rows)
    | some chat =>
      if chat.messages.entries = [] then (some chat.messages, store.rows)
      else (some chat.messages,
        backfillMessages store.rows chatId (.str chat.userId) chat.messages now)

end OpenWebUI.Chat
