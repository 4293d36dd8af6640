import OpenWebUI.Lib.Text
import OpenWebUI.Chat.Links
import OpenWebUI.Chat.Rows

/-! # The chat row

A row of the `chat` table with the embedded history, and the helpers every write
goes through: `_clean_null_bytes`, `_repair_chat_current_id`,
`get_current_message_id` and `get_output_text`.
-/

namespace OpenWebUI.Chat

open Py

/-- `chat.chat`: the embedded history and the other top-level keys. -/
structure ChatBody where
  history : Option History
  rest : Obj

/-- A row of the `chat` table, with the columns the message operations touch. -/
structure ChatItem where
  userId : String
  chat : ChatBody
  title : Json
  currentMessageId : Json
  updatedAt : ℚ

/-- The two message stores of one chat. -/
structure Store where
  chat : Option ChatItem
  rows : Rows

/-! ## `sanitize_data_for_db` -/

/-- `text.replace('\x00', '')`; a Lean string has no surrogates to remove. -/
def sanitizeText (s : String) : String :=
  if '\x00' ∈ s.toList then String.ofList (s.toList.filter (· ≠ '\x00')) else s

mutual

/-- `_strip_null_bytes_deep`. Two keys that clean to the same text collapse to the later. -/
def cleanNullBytes : Json → Json
  | .str s => .str (sanitizeText s)
  | .arr xs => .arr (cleanList xs)
  | .obj o => .obj (cleanMembers o [])
  | x => x

def cleanList : List Json → List Json
  | [] => []
  | x :: xs => cleanNullBytes x :: cleanList xs

def cleanMembers : Obj → Obj → Obj
  | [], cleaned => cleaned
  | (k, v) :: rest, cleaned =>
    cleanMembers rest (Assoc.set cleaned (sanitizeText k) (cleanNullBytes v))

end

/-- `_clean_null_bytes` of a message. -/
def cleanMessage (m : Message) : Message := cleanMembers m []

/-! ## `get_output_text` -/

/-- `str(part.get('text'))` of a text part; `none` for a part without text. -/
def partText (render : Json → String) (part : Json) : Option String :=
  part.asObj.bind fun o =>
    match o.get "text" with
    | .null => none
    | .str s => some s
    | x => some (render x)

/-- The texts of an output's message items, blank ones dropped, one per line. `render` is
`str` of a value that is no string. -/
def getOutputText (render : Json → String) (output : Json) : String :=
  let texts := (output.asArr.getD []).filterMap fun item => item.asObj.bind fun o =>
    if o.get "type" = .str "message" then
      match ((o.get "content").or (.arr [])).asArr with
      | none => none
      | some parts =>
        let text := String.join (parts.filterMap (partText render))
        if isBlank text then none else some text
    else none
  "\n".intercalate texts

/-! ## `get_current_message_id` -/

/-- The id of the last message of a legacy list. -/
def lastListedId (messages : Json) : Json :=
  (((messages.asArr.getD []).reverse.findSome? fun m => m.asObj.bind fun o =>
    if (o.get "id").truthy then some (o.get "id") else none)).getD .null

def getCurrentMessageId (chat : ChatBody) : Json :=
  let historyId : Json := ((chat.history.bind (·.currentId)).map Json.str).getD .null
  let currentId := (historyId.or (chat.rest.get "currentId")).or
    (chat.rest.get "branchPointMessageId")
  if currentId.truthy then currentId else lastListedId (chat.rest.get "messages")

/-! ## `_repair_chat_current_id` -/

/-- The next id below `id`: the last listed child that is stored, unseen, complete and
points back. -/
def nextDescendant (messages : Messages) (seen : List String) (id : String) : Option String :=
  (messages.childrenAt (.str id)).reverse.findSome? fun c =>
    match c with
    | .str s =>
      match messages.get? s with
      | some child =>
        if s ∉ seen ∧ child.get "id" = .str s ∧ (child.get "role").truthy ∧
          child.get "parentId" = .str id then some s else none
      | none => none
    | _ => none

/-- `_last_descendant_id`; the fuel is the number of messages, each seen at most once.
`next_id` is tested for truth, so an empty id ends the walk. -/
def lastDescendantId (messages : Messages) : Nat → List String → String → String
  | 0, _, id => id
  | fuel + 1, seen, id =>
    if id ∈ messages ∧ id ∉ seen then
      match nextDescendant messages (id :: seen) id with
      | none => id
      | some next => if next = "" then id else lastDescendantId messages fuel (id :: seen) next
    else id

/-- The first loop of the repair: every message is listed by its parent. -/
def repairChildren (messages : Messages) : Messages × Bool :=
  messages.entries.foldl (fun acc e =>
    let r := addChildIdToParent acc.1 (e.2.get "parentId") e.1
    (r.1, r.2 || acc.2)) (messages, false)

/-- The newest leaf: among the messages with a role and no children, the first with the
greatest positive or zero timestamp. -/
def latestLeaf (messages : Messages) : Option String :=
  (messages.entries.foldl (fun (acc : Option String × ℚ) e =>
    let timestamp := (((e.2.get "timestamp").or (.num 0)).asOperand).getD 0
    if (e.2.get "role").truthy ∧ childrenIds e.2 = [] ∧ acc.2 < timestamp then
      (some e.1, timestamp) else acc) (none, -1)).1

/-- The current message is an assistant output that lost its place in the tree. -/
def isBadLeaf (messages : Messages) (m : Message) : Bool :=
  outputRole ((m.get "output").or (.arr [])) = .str "assistant" ∧ m.get "parentId" = .null ∧
    ¬ (m.get "timestamp").truthy ∧ 1 < messages.size

def repairChatCurrentId (h : History) : History × Bool :=
  let (messages, changed) := repairChildren h.messages
  let current := h.currentId.bind messages.get?
  let sound := match current with
    | some m => (m.get "id").truthy && (m.get "role").truthy && !isBadLeaf messages m
    | none => false
  if sound then
    let last := h.currentId.map (lastDescendantId messages messages.size [])
    if last ≠ h.currentId then (⟨messages, last⟩, true) else (⟨messages, h.currentId⟩, changed)
  else
    match latestLeaf messages with
    | none => (⟨messages, h.currentId⟩, changed)
    | some leaf =>
      if leaf = "" ∨ some leaf = h.currentId then (⟨messages, h.currentId⟩, changed)
      else (⟨messages, some leaf⟩, true)

/-! ## What the repair leaves alone -/

/-- Two messages that differ at most in their child lists. -/
def SameButChildren (m m' : Message) : Prop :=
  ∀ f, f ≠ "childrenIds" → m'.lookup f = m.lookup f

theorem SameButChildren.refl (m : Message) : SameButChildren m m := fun _ _ => rfl

theorem SameButChildren.trans {a b c : Message} (h₁ : SameButChildren a b)
    (h₂ : SameButChildren b c) : SameButChildren a c :=
  fun f hf => (h₂ f hf).trans (h₁ f hf)

/-- Every other field stays. -/
theorem SameButChildren.get {m m' : Message} (h : SameButChildren m m') {f : String}
    (hf : f ≠ "childrenIds") : m'.get f = m.get f := by
  rw [Obj.get, h f hf, Obj.get]

theorem sameButChildren_set (m : Message) (xs : Json) :
    SameButChildren m (Assoc.set m "childrenIds" xs) :=
  fun _ hf => Assoc.lookup_set_ne _ _ hf

/-- Two maps over the same ids whose messages differ at most in their child lists. -/
def SameMessages (ms ms' : Messages) : Prop :=
  ∀ k, (ms.get? k = none ∧ ms'.get? k = none) ∨
    ∃ m m', ms.get? k = some m ∧ ms'.get? k = some m' ∧ SameButChildren m m'

theorem SameMessages.refl (ms : Messages) : SameMessages ms ms := by
  intro k
  cases hk : ms.get? k with
  | none => exact Or.inl ⟨rfl, rfl⟩
  | some m => exact Or.inr ⟨m, m, rfl, rfl, .refl m⟩

theorem SameMessages.trans {a b c : Messages} (h₁ : SameMessages a b) (h₂ : SameMessages b c) :
    SameMessages a c := by
  intro k
  rcases h₁ k with ⟨ha, hb⟩ | ⟨m, m', ha, hb, hm⟩
  · rcases h₂ k with ⟨_, hc⟩ | ⟨n, _, hb', _⟩
    · exact Or.inl ⟨ha, hc⟩
    · rw [hb] at hb'
      cases hb'
  · rcases h₂ k with ⟨hb', _⟩ | ⟨n, n', hb', hc, hn⟩
    · rw [hb] at hb'
      cases hb'
    · rw [hb, Option.some.injEq] at hb'
      exact Or.inr ⟨m, n', ha, hc, hm.trans (hb' ▸ hn)⟩

/-- Rewriting child lists in place. -/
theorem sameMessages_modify (ms : Messages) (p : String) (f : Message → Message)
    (hf : ∀ m, SameButChildren m (f m)) : SameMessages ms (ms.modify p f) := by
  intro k
  rw [Dict.get?_modify]
  cases hk : ms.get? k with
  | none => exact Or.inl ⟨rfl, by split_ifs <;> rfl⟩
  | some m =>
      by_cases hkp : k = p
      · exact Or.inr ⟨m, f m, rfl, by simp [hkp], hf m⟩
      · exact Or.inr ⟨m, m, rfl, by simp [hkp], .refl m⟩

/-- The ids stay. -/
theorem SameMessages.mem_iff {ms ms' : Messages} (h : SameMessages ms ms') (k : String) :
    k ∈ ms' ↔ k ∈ ms := by
  rcases h k with ⟨h1, h2⟩ | ⟨m, m', h1, h2, _⟩
  · rw [Dict.mem_iff, Dict.mem_iff, h1, h2]
  · rw [Dict.mem_iff, Dict.mem_iff, h1, h2]
    rfl

/-- A message was there before, but for its children. -/
theorem SameMessages.get?_some {ms ms' : Messages} (h : SameMessages ms ms') {k : String}
    {m' : Message} (hm' : ms'.get? k = some m') :
    ∃ m, ms.get? k = some m ∧ SameButChildren m m' := by
  rcases h k with ⟨_, h2⟩ | ⟨m, n, h1, h2, hs⟩
  · rw [h2] at hm'
    cases hm'
  · rw [h2, Option.some.injEq] at hm'
    exact ⟨m, h1, hm' ▸ hs⟩

/-- Listing a child changes a list of children only. -/
theorem sameMessages_addChildIdToParent (ms : Messages) (parentId : Json) (c : String) :
    SameMessages ms (addChildIdToParent ms parentId c).1 := by
  unfold addChildIdToParent
  split
  · exact .refl ms
  · dsimp only
    split_ifs
    · exact .refl ms
    · exact sameMessages_modify ms _ _ fun m => sameButChildren_set m _

/-- Listing all the children changes lists of children only. -/
theorem sameMessages_repairChildren (ms : Messages) : SameMessages ms (repairChildren ms).1 := by
  have hfold : ∀ (l : List (String × Message)) (acc : Messages × Bool), SameMessages ms acc.1 →
      SameMessages ms (l.foldl (fun acc e =>
        let r := addChildIdToParent acc.1 (e.2.get "parentId") e.1
        (r.1, r.2 || acc.2)) acc).1 := by
    intro l
    induction l with
    | nil => exact fun _ hacc => hacc
    | cons e l ih =>
        intro acc hacc
        exact ih _ (hacc.trans (sameMessages_addChildIdToParent acc.1 _ e.1))
  exact hfold _ _ (.refl ms)

/-- The repair lists the children. -/
theorem repairChatCurrentId_messages (h : History) :
    (repairChatCurrentId h).1.messages = (repairChildren h.messages).1 := by
  unfold repairChatCurrentId
  dsimp only
  generalize (match h.currentId.bind (repairChildren h.messages).1.get? with
    | some m => (m.get "id").truthy && (m.get "role").truthy &&
        !isBadLeaf (repairChildren h.messages).1 m
    | none => false) = sound
  cases sound with
  | true =>
      rw [if_pos rfl]
      split_ifs <;> rfl
  | false =>
      rw [if_neg Bool.false_ne_true]
      split
      · rfl
      · split_ifs <;> rfl

/-- The repair rewrites child lists and the current id, nothing else. -/
theorem sameMessages_repair (h : History) :
    SameMessages h.messages (repairChatCurrentId h).1.messages := by
  rw [repairChatCurrentId_messages]
  exact sameMessages_repairChildren h.messages

end OpenWebUI.Chat
