import OpenWebUI.Chat.Interleavings

/-! # Turns

`ChatTable.insert_chat_turn` stores a user message, or takes the stored one that a reply is
asked for again, and prepares its replies. The second part says what a turn keeps of the
messages that were stored before.
-/

namespace OpenWebUI.Chat

open Py

/-! ## `insert_chat_turn` -/

structure TurnUser where
  id : String
  name : String

/-- An entry of `message_ids`. -/
structure TurnReply where
  messageId : Json
  modelId : Json
  modelIdx : Json

/-- `isinstance(mid, str) and mid`. -/
def isMessageId (id : Json) : Bool := id.asStr.any (· ≠ "")

/-- A stored message that may be prepared as a reply again: an empty reply to the same
user message. -/
def preparable (owner : String) (user : TurnUser) (userMessage : Obj) (existing : Message) : Bool :=
  existing = [] ||
    (existing.get "role" = .str "assistant" && !(existing.get "done").truthy &&
      !(existing.get "content").truthy && !(existing.get "output").truthy &&
      (existing.get "user_id").or (.str owner) = .str user.id &&
      (userMessage = [] || existing.get "parentId" = userMessage.get "id"))

/-- The message of a user that is not stored yet. -/
def postedMessage (owner : String) (user : TurnUser) (userMessage : Obj) (id : String)
    (parentId : Json)
    (now : ℚ) : Message :=
  let message := if owner = user.id then userMessage
    else ["content", "files", "models"].filterMap fun k => (userMessage.lookup k).map (k, ·)
  Assoc.update message
    [("id", .str id), ("parentId", parentId), ("role", .str "user"), ("childrenIds", .arr []),
     ("timestamp", .num now), ("user_id", .str user.id),
     ("user", .obj [("id", .str user.id), ("name", .str user.name)])]

/-- The user message of a turn; `none` is an `HTTPException`. -/
def postUserMessage (owner : String) (user : TurnUser) (h : History)
    (userMessage : Obj) (id : String)
    (now : ℚ) : Option History :=
  let existing : Option Message := (h.messages.get? id).filter (· ≠ [])
  if existing.any (fun m => Obj.get m "role" ≠ .str "user") then none
  else
    let parentId := Obj.get (existing.getD userMessage) "parentId"
    if parentId ≠ .null ∧ h.messages.stored parentId = none then none
    else
      let message : Message := match existing with
        | none => postedMessage owner user userMessage id parentId now
        | some m =>
          if Assoc.has userMessage "models" ∧ (Obj.get m "user_id").or (.str
            owner) = .str user.id then
            Assoc.set m "models" (userMessage.get "models")
          else m
      some (upsertMessageToHistory h id (cleanMessage message) now)

/-- The reply that is prepared under an id. -/
def preparedReply (user : TurnUser) (userMessageId : Json) (now : ℚ) (r : TurnReply) : Message :=
  [("id", r.messageId), ("parentId", userMessageId), ("childrenIds", .arr []),
    ("role", .str "assistant"),
   ("content", .str ""), ("done", .bool false), ("model", r.modelId), ("modelIdx", r.modelIdx),
   ("timestamp", .num now), ("user_id", .str user.id)]

def prepareReply (user : TurnUser) (userMessageId : Json) (now : ℚ) (h : History) (r : TurnReply) :
    History :=
  match r.messageId.asStr with
  | none => h
  | some id => upsertMessageToHistory h id (preparedReply user userMessageId now r) now

/-- `insert_chat_turn`, on the history; `none` is an `HTTPException`. -/
def insertChatTurn (owner : String) (user : TurnUser) (h : History) (userMessage : Obj)
    (replies : List TurnReply) (now : ℚ) : Option History :=
  let userMessageId := userMessage.get "id"
  let assistantIds := replies.map TurnReply.messageId
  let ids := if userMessage = [] then assistantIds else userMessageId :: assistantIds
  if ids.any (fun id => !isMessageId id) ∨ ¬ ids.Nodup then none
  else if assistantIds.any fun id => (h.messages.at
    id).any fun m => !preparable owner user userMessage m then
    none
  else
    let posted := match userMessageId.asStr with
      | none => some h
      | some id => if userMessage = [] then some h
          else postUserMessage owner user h userMessage id now
    posted.map fun h => replies.foldl (prepareReply user userMessageId now) h

/-! ## What a transaction keeps -/

def textOf (m : Message) : String := (m.get "content").asStr.getD ""

/-- A later copy of a message has its parent, its role and, when a user wrote it, its text. -/
structure Frozen (m m' : Message) : Prop where
  parent : m'.get "parentId" = m.get "parentId"
  role : m'.get "role" = m.get "role"
  text : m.get "role" = .str "user" → textOf m' = textOf m

theorem Frozen.trans {a b c : Message} (h₁ : Frozen a b) (h₂ : Frozen b c) : Frozen a c where
  parent := h₂.parent.trans h₁.parent
  role := h₂.role.trans h₁.role
  text hrole := (h₂.text (h₁.role.trans hrole)).trans (h₁.text hrole)

/-- A change of the children leaves the rest frozen. -/
theorem SameButChildren.frozen {m m' : Message} (h : SameButChildren m m') : Frozen m m' where
  parent := h.get (by decide)
  role := h.get (by decide)
  text _ := by rw [textOf, h.get (by decide), textOf]

/-- No message is lost, and none changes its place. -/
def Grows (ms ms' : Messages) : Prop :=
  ∀ k m, ms.get? k = some m → ∃ m', ms'.get? k = some m' ∧ Frozen m m'

theorem Grows.refl (ms : Messages) :
    Grows ms ms := fun _ m hm => ⟨m, hm, (SameButChildren.refl m).frozen⟩

theorem Grows.trans {a b c : Messages} (h₁ : Grows a b) (h₂ : Grows b c) : Grows a c := by
  intro k m hm
  obtain ⟨m₁, hm₁, hf₁⟩ := h₁ k m hm
  obtain ⟨m₂, hm₂, hf₂⟩ := h₂ k m₁ hm₁
  exact ⟨m₂, hm₂, hf₁.trans hf₂⟩

theorem Grows.mem {ms ms' : Messages} (h : Grows ms ms') {k : String} (hk : k ∈ ms) : k ∈ ms' := by
  obtain ⟨m, hm⟩ := (Dict.mem_iff_exists _ _).mp hk
  obtain ⟨m', hm', -⟩ := h k m hm
  exact Dict.mem_of_get? hm'

/-- No link changes. -/
theorem Grows.parentOf {ms ms' : Messages} (h : Grows ms ms') (hl : Linked ms) {k : String}
    (hk : k ∈ ms) :
    ms'.parentOf k = ms.parentOf k := by
  obtain ⟨m, hm⟩ := (Dict.mem_iff_exists _ _).mp hk
  obtain ⟨m', hm', hf⟩ := h k m hm
  rw [Messages.parentOf_of_get? hm, Messages.parentOf_of_get? hm', hf.parent]
  rcases hl.resolves hm with hnull | ⟨p, hp, hparent⟩
  · rw [hnull]
    rfl
  · rw [hparent, Messages.stored_str hp, Messages.stored_str (h.mem hp)]

/-- The messages are linked and clean, and each is stored under its id. -/
structure Sane (ms : Messages) : Prop where
  linked : Linked ms
  clean : CleanMessages ms
  ids : ∀ k m, ms.get? k = some m → k ≠ "" ∧ m.get "id" = .str k

/-- A message has no children where none links to it. -/
theorem Linked.childless {ms : Messages} (h : Linked ms) {k : String} {m : Message}
    (hm : ms.get? k = some m) :
    childrenIds m = [] ↔ ∀ c, ms.parentOf c ≠ some k := by
  rw [List.eq_nil_iff_forall_not_mem]
  constructor
  · intro hnone c hc
    exact hnone (.str c) ((h.children hm _).mpr ⟨c, rfl, hc⟩)
  · intro hnone x hx
    obtain ⟨c, -, hc⟩ := (h.children hm x).mp hx
    exact hnone c hc

/-! ## Upserts -/

/-- The message an upsert stores. -/
def upserted (ms : Messages) (id : String) (message : Message) (now : ℚ) : Message :=
  match ms.get? id with
  | some stored => Assoc.update stored (keepMeta stored message)
  | none => newMessage ms id message now

/-- An upsert stores the message and lists it. -/
theorem sameMessages_upsert (h : History) (id : String) (message : Message) (now : ℚ) :
    SameMessages (h.messages.set id (upserted h.messages id message now))
      (upsertMessageToHistory h id message now).messages := by
  unfold upsertMessageToHistory upserted
  cases h.messages.get? id with
  | none => exact sameMessages_addChildIdToParent _ _ _
  | some stored => exact sameMessages_addChildIdToParent _ _ _

/-- A message after an upsert is the new one, or was there. -/
theorem upsert_get? {h : History} {id k : String} {message m' : Message} {now : ℚ}
    (hm' : (upsertMessageToHistory h id message now).messages.get? k = some m') :
    (k = id ∧ SameButChildren (upserted h.messages id message now) m') ∨
      ∃ m, k ≠ id ∧ h.messages.get? k = some m ∧ SameButChildren m m' := by
  obtain ⟨m, hm, hsame⟩ := (sameMessages_upsert h id message now).get?_some hm'
  rw [Dict.get?_set] at hm
  split_ifs at hm with hk
  · cases hm
    exact .inl ⟨hk, hsame⟩
  · exact .inr ⟨m, hk, hm, hsame⟩

theorem mem_upsert {h : History} {id k : String} {message : Message} {now : ℚ} :
    k ∈ (upsertMessageToHistory h id message now).messages ↔ k = id ∨ k ∈ h.messages := by
  rw [(sameMessages_upsert h id message now).mem_iff, Dict.mem_iff, Dict.get?_set, Dict.mem_iff]
  split_ifs with hk <;> simp [hk]

/-- An upsert of a new or frozen message lets the history grow. -/
theorem Grows.upsert {h : History} {id : String} {message : Message} {now : ℚ}
    (hn : ∀ m, h.messages.get? id = some m → Frozen m (upserted h.messages id message now)) :
    Grows h.messages (upsertMessageToHistory h id message now).messages := by
  intro k m hm
  have hk : k ∈ (upsertMessageToHistory h id message now).messages :=
    mem_upsert.mpr (.inr (Dict.mem_of_get? hm))
  obtain ⟨m', hm'⟩ := (Dict.mem_iff_exists _ _).mp hk
  refine ⟨m', hm', ?_⟩
  rcases upsert_get? hm' with ⟨rfl, hsame⟩ | ⟨old, -, hold, hsame⟩
  · exact (hn m hm).trans hsame.frozen
  · rw [hm] at hold
    cases hold
    exact hsame.frozen

/-- An upsert keeps the messages sane. -/
theorem Sane.upsert {h : History} (hs : Sane h.messages) {id : String} {message : Message} {now : ℚ}
    (hlinked : Linked (upsertMessageToHistory h id message now).messages) (hne : id ≠ "")
    (hnul : NulFree id) (hclean : Clean (.obj message))
    (hid : (upserted h.messages id message now).get "id" = .str id) :
    Sane (upsertMessageToHistory h id message now).messages := by
  refine ⟨hlinked, hs.clean.upsert hnul hclean, ?_⟩
  intro k m' hm'
  rcases upsert_get? hm' with ⟨rfl, hsame⟩ | ⟨m, -, hm, hsame⟩
  · exact ⟨hne, (hsame.get (by decide)).trans hid⟩
  · exact ⟨(hs.ids k m hm).1, (hsame.get (by decide)).trans (hs.ids k m hm).2⟩

/-- Upserting a stored message with its own links. -/
theorem linked_upsert_same {h : History} (hl : Linked h.messages) {id : String}
    {stored message : Message} {now : ℚ} (hstored : h.messages.get? id = some stored)
    (hparent : (upserted h.messages id message now).get "parentId" = stored.get "parentId")
    (hlist : HasChildList (upserted h.messages id message now))
    (hchildren : childrenIds (upserted h.messages id message now) = childrenIds stored) :
    Linked (upsertMessageToHistory h id message now).messages := by
  have hmem : ∀ k, k ∈ h.messages.set id (upserted h.messages id message now) ↔ k ∈ h.messages := by
    intro k
    rw [Dict.mem_iff, Dict.get?_set, Dict.mem_iff]
    split_ifs with hk
    · simp [hk, hstored]
    · rfl
  have hset : Linked (h.messages.set id (upserted h.messages id message now)) := by
    refine hl.of_links (fun k m' hm' => ?_) hmem
    rw [Dict.get?_set] at hm'
    split_ifs at hm' with hk
    · cases hm'
      exact ⟨stored, hk ▸ hstored, hparent, hlist, hchildren⟩
    · exact ⟨m', hm', rfl, hl.lists hm', rfl⟩
  have hnoop := addChildIdToParent_linked hset (Dict.get?_set_self h.messages id _)
  unfold upserted at hnoop hset
  rw [hstored] at hnoop hset
  unfold upsertMessageToHistory
  simp only [hstored, Dict.get?_set_self, Option.map_some, Option.getD_some, hnoop]
  exact hset

/-- The fields of an upsert over a stored message. -/
theorem upserted_lookup {ms : Messages} {id : String} {stored message : Message} {now : ℚ}
    (hstored : ms.get? id = some stored) {f : String} (hf : f ≠ "meta") :
    (upserted ms id message now).lookup f = (message.lookup f).or (stored.lookup f) := by
  unfold upserted
  rw [hstored, Assoc.lookup_update, keepMeta_lookup _ _ hf]

/-- An upsert of a new id is a new message. -/
theorem upserted_new {ms : Messages} {id : String} (hid : id ∉ ms) (message : Message) (now : ℚ) :
    upserted ms id message now = newMessage ms id message now := by
  unfold upserted
  rw [(Dict.get?_eq_none_iff _ _).mpr hid]

/-- Upserting a new message. -/
theorem Sane.upsert_new {h : History} (hs : Sane h.messages) {id : String} {message : Message}
    (now : ℚ) (hid : id ∉ h.messages) (hne : id ≠ "") (hnul : NulFree id)
    (hclean : Clean (.obj message)) (hself : message.get "id" = .str id)
    (hchildren : childrenIds message = [])
    (hparent : message.get "parentId" = .null ∨ ∃ p ∈ h.messages, message.get "parentId" = .str p) :
    Sane (upsertMessageToHistory h id message now).messages ∧
      Grows h.messages (upsertMessageToHistory h id message now).messages := by
  constructor
  · refine hs.upsert ?_ hne hnul hclean ?_
    · refine (linked_upsert_leaf hs.linked now hid hchildren (hparent.imp_right ?_)).1
      rintro ⟨p, hp, heq⟩
      obtain ⟨m, hm⟩ := (Dict.mem_iff_exists _ _).mp hp
      exact ⟨p, hp, (hs.ids p m hm).1, heq⟩
    · rw [upserted_new hid, newMessage, Obj.get_update_of_present rfl, hself]
      exact Json.or_of_truthy (by simp [hne]) _
  · refine Grows.upsert fun m hm => ?_
    exact absurd (Dict.mem_of_get? hm) hid

/-! ## The user message of a turn -/

theorem clean_pick {o : Obj} (h : Clean (.obj o)) {ks : List String} (hks : ks.Nodup) :
    Clean (.obj (ks.filterMap fun k => (o.lookup k).map (k, ·))) := by
  have hkeys : Assoc.keys (ks.filterMap fun k => (o.lookup k).map (k, ·)) =
      ks.filter fun k => (o.lookup k).isSome := by
    clear hks
    induction ks with
    | nil => rfl
    | cons k ks ih =>
        rw [List.filterMap_cons, List.filter_cons]
        cases o.lookup k with
        | none => exact ih
        | some v => exact congrArg (k :: ·) ih
  refine .obj ?_ ?_ ?_
  · rw [hkeys]
    exact hks.filter _
  · intro k hk
    rw [hkeys] at hk
    exact h.nulFree ((Assoc.mem_keys_iff _ _).mpr (List.mem_filter.mp hk).2)
  · intro k v hv
    obtain ⟨l, -, hl⟩ := List.mem_filterMap.mp (Assoc.mem_of_lookup hv)
    obtain ⟨w, hw, heq⟩ := Option.map_eq_some_iff.mp hl
    cases heq
    exact h.lookup hw

theorem lookup_pick (o : Obj) {ks : List String} {k : String} (hk : k ∈ ks) :
    (ks.filterMap fun k => (o.lookup k).map (k, ·)).lookup k = o.lookup k := by
  induction ks with
  | nil => cases hk
  | cons l ks ih =>
      rw [List.filterMap_cons]
      by_cases hkl : k = l
      · subst hkl
        cases ho : o.lookup k with
        | none =>
            by_cases hmem : k ∈ ks
            · exact (ih hmem).trans ho
            · rw [Option.map_none, Assoc.lookup_eq_none_iff_keys]
              intro hin
              obtain ⟨⟨k', v⟩, hpair, hfst⟩ := List.mem_map.mp hin
              obtain ⟨l', hl', hval⟩ := List.mem_filterMap.mp hpair
              obtain ⟨w, -, heq⟩ := Option.map_eq_some_iff.mp hval
              cases heq
              exact hmem (hfst ▸ hl')
        | some v => rw [Option.map_some, Assoc.lookup_cons, if_pos rfl]
      · have hrest := ih ((List.mem_cons.mp hk).resolve_left hkl)
        cases o.lookup l with
        | none => exact hrest
        | some v => rw [Option.map_some, Assoc.lookup_cons, if_neg hkl, hrest]

variable {owner : String} {user : TurnUser} {userMessage : Obj} {now : ℚ}

theorem clean_postedMessage {id : String} {parentId : Json}
    (huser : NulFree user.id ∧ NulFree user.name) (hclean : Clean (.obj userMessage))
    (hid : NulFree id) (hparent : Clean parentId) :
    Clean (.obj (postedMessage owner user userMessage id parentId now)) := by
  unfold postedMessage
  have hbase : Clean (.obj (if owner = user.id then userMessage
      else ["content", "files", "models"].filterMap fun k =>
        (userMessage.lookup k).map (k, ·))) := by
    split_ifs
    · exact hclean
    · exact clean_pick hclean (by decide)
  have hname : Clean (.obj [("id", .str user.id), ("name", .str user.name)]) := by
    refine .of_members ["id", "name"] rfl (by decide) ?_
    simp only [List.forall_mem_cons]
    exact ⟨.str huser.1, .str huser.2, fun e he => by cases he⟩
  refine hbase.update ?_
  refine .of_members ["id", "parentId", "role", "childrenIds", "timestamp", "user_id", "user"] rfl
    (by decide) ?_
  simp only [List.forall_mem_cons]
  exact ⟨.str hid, hparent, .str (by decide), .arr fun x hx => (by cases hx), .num now,
    .str huser.1, hname,
    fun e he => by cases he⟩

/-- The posted message keeps its text. -/
theorem textOf_postedMessage (owner : String) (user : TurnUser) (userMessage : Obj) (id : String)
    (parentId : Json) (now : ℚ) :
    textOf (postedMessage owner user userMessage id parentId now) = textOf userMessage := by
  have hcontent : (postedMessage owner user userMessage id parentId now).get "content" =
      Obj.get userMessage "content" := by
    unfold postedMessage
    rw [Obj.get_update_of_absent rfl]
    split_ifs
    · rfl
    · rw [Obj.get, lookup_pick _ (by decide), Obj.get]
  rw [textOf, hcontent, textOf]

/-- What a step of a turn leaves: the old messages, and the posted one. -/
theorem postUserMessage_spec {h h' : History} (hs : Sane h.messages) {id : String} (hne : id ≠ "")
    (hnul : NulFree id) (huser : NulFree user.id ∧ NulFree user.name)
    (hclean : Clean (.obj userMessage))
    (hpost : postUserMessage owner user h userMessage id now = some h') :
    Sane h'.messages ∧ Grows h.messages h'.messages ∧ id ∈ h'.messages ∧
      ∀ k m', h'.messages.get? k = some m' → k ∉ h.messages → k = id ∧
        textOf m' = textOf userMessage := by
  -- a stored message has an id, so it is never the empty dict
  have hfilter : (h.messages.get? id).filter (· ≠ []) = h.messages.get? id := by
    cases hm : h.messages.get? id with
    | none => rfl
    | some m =>
        have hid := (hs.ids id m hm).2
        rw [Option.filter_some, if_pos]
        rw [decide_eq_true_eq]
        rintro rfl
        cases hid
  unfold postUserMessage at hpost
  simp only [hfilter] at hpost
  split_ifs at hpost with hrole hparent
  cases hpost
  cases hm : h.messages.get? id with
  | none =>
      have hid : id ∉ h.messages := (Dict.get?_eq_none_iff _ _).mp hm
      rw [hm, Option.getD_none] at hparent
      dsimp only
      set message := postedMessage owner user userMessage id
        (Obj.get userMessage "parentId") now with hmessage
      have hcleanMessage : Clean (.obj message) :=
        clean_postedMessage huser hclean hnul (hclean.get _)
      rw [Option.getD_none, hcleanMessage.cleanMessage_eq]
      have hparentId : message.get "parentId" = Obj.get userMessage "parentId" :=
        Obj.get_update_of_present rfl _
      -- the guard has checked the parent
      have hstored : message.get "parentId" = .null ∨
        ∃ p ∈ h.messages, message.get "parentId" = .str p := by
        rw [hparentId]
        by_cases hnull : Obj.get userMessage "parentId" = .null
        · exact .inl hnull
        · obtain ⟨p, hp⟩ := Option.ne_none_iff_exists'.mp fun hnone => hparent ⟨hnull, hnone⟩
          obtain ⟨heq, hmem⟩ := Messages.stored_eq_some.mp hp
          exact .inr ⟨p, hmem, heq⟩
      have hchildren : childrenIds message = [] := by
        rw [childrenIds, hmessage, postedMessage, Obj.get_update_of_present rfl]
        rfl
      obtain ⟨hsane, hgrows⟩ := hs.upsert_new now hid hne hnul hcleanMessage
        (Obj.get_update_of_present rfl _) hchildren hstored
      refine ⟨hsane, hgrows, mem_upsert.mpr (.inl rfl), fun k m' hm' hk => ?_⟩
      rcases upsert_get? hm' with ⟨rfl, hsame⟩ | ⟨old, -, hold, -⟩
      · refine ⟨rfl, ?_⟩
        rw [upserted_new hid] at hsame
        rw [textOf, hsame.get (by decide), newMessage, Obj.get_update_of_absent rfl, ← textOf,
          hmessage, textOf_postedMessage]
      · exact absurd (Dict.mem_of_get? hold) hk
  -- a message posted again only gets the models of the turn
  | some stored =>
      dsimp only
      obtain ⟨-, hcleanStored⟩ := hs.clean id stored hm
      set message : Message := if Assoc.has userMessage "models" = true ∧
          (Obj.get stored "user_id").or (.str owner) = .str user.id then
        Assoc.set stored "models" (Obj.get userMessage "models") else stored with hmessage
      have hcleanMessage : Clean (.obj message) := by
        rw [hmessage]
        split_ifs
        · exact hcleanStored.set (by decide) (hclean.get _)
        · exact hcleanStored
      rw [hcleanMessage.cleanMessage_eq]
      -- its other fields stay as stored
      have hlookup : ∀ f, f ≠ "meta" → f ≠ "models" →
          (upserted h.messages id message now).lookup f = stored.lookup f := by
        intro f hmeta hmodels
        have hsame : message.lookup f = stored.lookup f := by
          rw [hmessage]
          split_ifs
          · exact Assoc.lookup_set_ne _ _ hmodels
          · rfl
        rw [upserted_lookup hm hmeta, hsame, Option.or_self]
      have hget : ∀ f, f ≠ "meta" → f ≠ "models" →
          (upserted h.messages id message now).get f = stored.get f := by
        intro f hmeta hmodels
        rw [Obj.get, hlookup f hmeta hmodels, Obj.get]
      have hlist : HasChildList (upserted h.messages id message now) := by
        have := hs.linked.lists hm
        rwa [HasChildList, ← hlookup _ (by decide) (by decide)] at this
      have hlinked := linked_upsert_same hs.linked hm (hget _ (by decide) (by decide)) hlist
        (childrenIds_congr (hlookup _ (by decide) (by decide)))
      refine ⟨hs.upsert hlinked hne hnul hcleanMessage ?_, Grows.upsert fun m hm' => ?_,
        mem_upsert.mpr (.inl rfl), fun k m' hm' hk => ?_⟩
      · rw [hget _ (by decide) (by decide)]
        exact (hs.ids id stored hm).2
      · rw [hm] at hm'
        cases hm'
        refine ⟨hget _ (by decide) (by decide), hget _ (by decide) (by decide), fun _ => ?_⟩
        rw [textOf, hget _ (by decide) (by decide), textOf]
      · have := mem_upsert.mp (Dict.mem_of_get? hm')
        rcases this with rfl | hin
        · exact absurd (Dict.mem_of_get? hm) hk
        · exact absurd hin hk

/-! ## The replies of a turn -/

/-- A reply that is new, or stored as an empty one that nothing hangs from. -/
structure Ready (ms : Messages) (userMessageId : Json) (r : TurnReply) : Prop where
  clean : Clean r.messageId ∧ Clean r.modelId ∧ Clean r.modelIdx
  id : ∃ id, r.messageId = .str id ∧ id ≠ "" ∧ userMessageId ≠ .str id ∧
    ∀ m, ms.get? id = some m → m.get "parentId" = userMessageId ∧ m.get "role" = .str "assistant" ∧
      ∀ c, ms.parentOf c ≠ some id

variable (now) in
theorem clean_preparedReply {r : TurnReply} {userMessageId : Json} (huser : NulFree user.id)
    (hr : Clean r.messageId ∧ Clean r.modelId ∧ Clean r.modelIdx) (hid : Clean userMessageId) :
    Clean (.obj (preparedReply user userMessageId now r)) := by
  refine .of_members ["id", "parentId", "childrenIds", "role", "content", "done",
    "model", "modelIdx",
    "timestamp", "user_id"] rfl (by decide) ?_
  simp only [preparedReply, List.forall_mem_cons]
  exact ⟨hr.1, hid, .arr fun x hx => (by cases hx), .str (by decide), .str (by decide),
    .bool false, hr.2.1,
    hr.2.2, .num now, .str huser, fun e he => by cases he⟩

variable (now) in
/-- What preparing one reply does. -/
theorem prepareReply_spec {h : History} (hs : Sane h.messages) {userMessageId : Json}
    {r : TurnReply} (hr : Ready h.messages userMessageId r) (huser : NulFree user.id)
    (hclean : Clean userMessageId)
    (hstored : userMessageId = .null ∨ ∃ u ∈ h.messages, userMessageId = .str u) :
    Sane (prepareReply user userMessageId now h r).messages ∧
      Grows h.messages (prepareReply user userMessageId now h r).messages ∧
      ∀ k m', (prepareReply user userMessageId now h r).messages.get? k = some m' → k ∉ h.messages →
        r.messageId = .str k ∧ m'.get "parentId" = userMessageId ∧
          m'.get "role" = .str "assistant" := by
  obtain ⟨hcleanReply, id, hid, hne, -, hagain⟩ := hr
  have hmessage := clean_preparedReply now huser hcleanReply hclean
  have hnul : NulFree id := by
    have := hcleanReply.1
    rw [hid] at this
    cases this
    assumption
  unfold prepareReply
  rw [hid]
  dsimp only [Json.asStr_str]
  have hself : Obj.get (preparedReply user userMessageId now r) "id" = .str id := hid
  -- a reply prepared again: it was childless under the same parent
  by_cases hin : id ∈ h.messages
  · obtain ⟨stored, hm⟩ := (Dict.mem_iff_exists _ _).mp hin
    obtain ⟨hparent, hrole, hleaf⟩ := hagain stored hm
    have hget : ∀ f v, f ≠ "meta" → (preparedReply user userMessageId now r).lookup f = some v →
        (upserted h.messages id (preparedReply user userMessageId now r) now).lookup f =
          some v := by
      intro f v hf hv
      rw [upserted_lookup hm hf, hv, Option.some_or]
    have hparent' := hget "parentId" _ (by decide) rfl
    have hchildren' := hget "childrenIds" _ (by decide) rfl
    have hnil : childrenIds stored = [] := (hs.linked.childless hm).mpr hleaf
    have hlinked := linked_upsert_same hs.linked hm
      ((Obj.get_of_lookup hparent').trans hparent.symm) (.inr ⟨[], hchildren'⟩)
      (by rw [hnil, childrenIds, Obj.get_of_lookup hchildren']; rfl)
    refine ⟨hs.upsert hlinked hne hnul hmessage ?_, Grows.upsert fun m hm' => ?_,
      fun k m' hm' hk => ?_⟩
    · rw [Obj.get_of_lookup (hget "id" _ (by decide) rfl), hid]
    · rw [hm] at hm'
      cases hm'
      refine ⟨(Obj.get_of_lookup hparent').trans hparent.symm, ?_, fun huser => ?_⟩
      · rw [Obj.get_of_lookup (hget "role" _ (by decide) rfl), hrole]
      · rw [hrole] at huser
        exact absurd huser (by decide)
    · rcases mem_upsert.mp (Dict.mem_of_get? hm') with rfl | hold
      · exact absurd hin hk
      · exact absurd hold hk
  -- a new reply is a new leaf
  · obtain ⟨hsane, hgrows⟩ := hs.upsert_new now hin hne hnul hmessage hself rfl hstored
    refine ⟨hsane, hgrows, fun k m' hm' hk => ?_⟩
    rcases upsert_get? hm' with ⟨rfl, hsame⟩ | ⟨old, -, hold, -⟩
    · rw [upserted_new hin] at hsame
      refine ⟨rfl, ?_, ?_⟩
      · rw [hsame.get (by decide), newMessage_parentId, parentOfNew_linked hs.linked hin]
        rfl
      · rw [hsame.get (by decide), newMessage, Obj.get_update_of_present rfl]
        rfl
    · exact absurd (Dict.mem_of_get? hold) hk

/-- Preparing one reply leaves the others ready. -/
theorem Ready.next {h h' : History} (hs : Sane h.messages) {userMessageId : Json} {r r' : TurnReply}
    (hr : Ready h.messages userMessageId r') (hne : r'.messageId ≠ r.messageId)
    (hgrows : Grows h.messages h'.messages)
    (hnew : ∀ k m', h'.messages.get? k = some m' → k ∉ h.messages →
      r.messageId = .str k ∧ m'.get "parentId" = userMessageId ∧ m'.get "role" = .str "assistant") :
    Ready h'.messages userMessageId r' := by
  obtain ⟨hclean, id, hid, hne', huser, hagain⟩ := hr
  refine ⟨hclean, id, hid, hne', huser, fun m' hm' => ?_⟩
  by_cases hin : id ∈ h.messages
  · obtain ⟨m, hm⟩ := (Dict.mem_iff_exists _ _).mp hin
    obtain ⟨n, hn, hfrozen⟩ := hgrows id m hm
    rw [hm'] at hn
    cases hn
    obtain ⟨hparent, hrole, hleaf⟩ := hagain m hm
    refine ⟨hfrozen.parent.trans hparent, hfrozen.role.trans hrole, fun c hc => ?_⟩
    by_cases hcin : c ∈ h.messages
    · rw [hgrows.parentOf hs.linked hcin] at hc
      exact hleaf c hc
    · -- a new reply hangs from the user message
      obtain ⟨n, hn⟩ := (Dict.mem_iff_exists _ _).mp (Messages.mem_of_parentOf hc).1
      rw [Messages.parentOf_of_get? hn, (hnew c n hn hcin).2.1] at hc
      exact huser (Messages.stored_eq_some.mp hc).1
  · exact absurd (hid.trans (hnew id m' hm' hin).1.symm) hne

variable (now) in
/-- What preparing all the replies does. -/
theorem prepareReplies_spec {h : History} (hs : Sane h.messages) {userMessageId : Json}
    {replies : List TurnReply} (hready : ∀ r ∈ replies, Ready h.messages userMessageId r)
    (hnodup : (replies.map TurnReply.messageId).Nodup) (huser : NulFree user.id)
    (hclean : Clean userMessageId)
    (hstored : userMessageId = .null ∨ ∃ u ∈ h.messages, userMessageId = .str u) :
    Sane (replies.foldl (prepareReply user userMessageId now) h).messages ∧
      Grows h.messages (replies.foldl (prepareReply user userMessageId now) h).messages ∧
      ∀ k m', (replies.foldl (prepareReply user userMessageId now) h).messages.get? k = some m' →
        k ∉ h.messages → .str k ∈ replies.map TurnReply.messageId ∧
          m'.get "role" = .str "assistant" := by
  induction replies generalizing h with
  | nil =>
      refine ⟨hs, .refl _, fun k m' hm' hk => ?_⟩
      exact absurd (Dict.mem_of_get? hm') hk
  | cons r replies ih =>
      obtain ⟨hsane, hgrows, hnew⟩ := prepareReply_spec now hs (hready r List.mem_cons_self) huser
        hclean hstored
      have hnodup' := List.nodup_cons.mp hnodup
      have hready' : ∀ r' ∈ replies,
          Ready (prepareReply user userMessageId now h r).messages userMessageId r' := by
        intro r' hr'
        refine (hready r' (List.mem_cons_of_mem _ hr')).next hs ?_ hgrows hnew
        exact fun heq => hnodup'.1 (heq ▸ List.mem_map_of_mem hr')
      obtain ⟨hsane', hgrows', hnew'⟩ := ih hsane hready' hnodup'.2
        (hstored.imp_right fun ⟨u, hu, heq⟩ => ⟨u, hgrows.mem hu, heq⟩)
      rw [List.foldl_cons]
      refine ⟨hsane', hgrows.trans hgrows', fun k m' hm' hk => ?_⟩
      by_cases hmid : k ∈ (prepareReply user userMessageId now h r).messages
      · obtain ⟨m, hm⟩ := (Dict.mem_iff_exists _ _).mp hmid
        obtain ⟨n, hn, hfrozen⟩ := hgrows' k m hm
        rw [hm'] at hn
        cases hn
        obtain ⟨hid, -, hrole⟩ := hnew k m hm hk
        exact ⟨hid ▸ List.mem_cons_self, hfrozen.role.trans hrole⟩
      · obtain ⟨hid, hrole⟩ := hnew' k m' hm' hmid
        exact ⟨List.mem_cons_of_mem _ hid, hrole⟩

/-! ## Turns -/

/-- What is posted has no null characters, and a reply that is prepared again belongs to a user
message and has no replies of its own. -/
structure Postable (user : TurnUser) (ms : Messages) (userMessage : Obj)
    (replies : List TurnReply) :
    Prop where
  author : NulFree user.id ∧ NulFree user.name
  posted : Clean (.obj userMessage)
  prepared : ∀ r ∈ replies, Clean r.messageId ∧ Clean r.modelId ∧ Clean r.modelIdx
  again : ∀ r ∈ replies, ∀ id m, r.messageId = .str id → ms.get? id = some m →
    userMessage ≠ [] ∧ childrenIds m = []

/-- An id is a text that is not empty. -/
theorem isMessageId_iff {id : Json} : isMessageId id = true ↔ ∃ s, id = .str s ∧ s ≠ "" := by
  cases id <;> simp [isMessageId, Json.asStr]

/-- Where the ids of a turn are valid each of them is a text that is not empty. -/
theorem exists_of_valid {ids : List Json} (hvalid : ¬ ids.any (fun id => !isMessageId id) = true)
    {id : Json} (hid : id ∈ ids) : ∃ s, id = .str s ∧ s ≠ "" := by
  by_contra hbad
  refine hvalid (List.any_eq_true.mpr ⟨id, hid, ?_⟩)
  rw [Bool.not_eq_true', Bool.eq_false_iff]
  exact fun hok => hbad (isMessageId_iff.mp hok)

/-- A stored reply that may be prepared hangs from the user message. -/
theorem preparable_spec {m : Message} (hempty : userMessage ≠ []) (hm : m ≠ [])
    (h : preparable owner user userMessage m = true) :
    m.get "parentId" = Obj.get userMessage "id" ∧ m.get "role" = .str "assistant" := by
  unfold preparable at h
  simp only [hm, hempty, decide_false, Bool.false_or, Bool.and_eq_true, decide_eq_true_eq] at h
  exact ⟨h.2, h.1.1.1.1.1⟩

/-- Once the user message is posted, a reply is ready that is new, or was prepared before under
that message. -/
theorem ready_of_posted {h h₁ : History} (hs : Sane h.messages)
    (hgrows : Grows h.messages h₁.messages) {u : String}
    (hnew : ∀ k m, h₁.messages.get? k = some m → k ∉ h.messages → k = u) {r : TurnReply}
    (hclean : Clean r.messageId ∧ Clean r.modelId ∧ Clean r.modelIdx) {id : String}
    (hid : r.messageId = .str id) (hne : id ≠ "") (hother : (.str u : Json) ≠ .str id)
    (hstored : ∀ m, h.messages.get? id = some m →
      m.get "parentId" = .str u ∧ m.get "role" = .str "assistant" ∧ childrenIds m = []) :
    Ready h₁.messages (.str u) r := by
  refine ⟨hclean, id, hid, hne, hother, fun m hm => ?_⟩
  by_cases hin : id ∈ h.messages
  · obtain ⟨old, hold⟩ := (Dict.mem_iff_exists _ _).mp hin
    obtain ⟨n, hn, hfrozen⟩ := hgrows id old hold
    rw [hm] at hn
    cases hn
    obtain ⟨hparent, hrole, hchildless⟩ := hstored old hold
    -- the user message was stored, so no new message has the reply as its parent
    have hmem : u ∈ h.messages := by
      rcases hs.linked.resolves hold with hnull | ⟨p, hp, heq⟩
      · rw [hparent] at hnull
        cases hnull
      · rw [hparent] at heq
        cases heq
        exact hp
    refine ⟨hfrozen.parent.trans hparent, hfrozen.role.trans hrole, fun c hc => ?_⟩
    obtain ⟨n, hn⟩ := (Dict.mem_iff_exists _ _).mp (Messages.mem_of_parentOf hc).1
    by_cases hcin : c ∈ h.messages
    · rw [hgrows.parentOf hs.linked hcin] at hc
      exact (hs.linked.childless hold).mp hchildless c hc
    · exact hcin (hnew c n hn hcin ▸ hmem)
  · exact absurd (congrArg Json.str (hnew id m hm hin)).symm hother

/-- A turn keeps every message, and adds the posted one and empty replies. -/
theorem insertChatTurn_spec {h h' : History} (hs : Sane h.messages) {replies : List TurnReply}
    (hp : Postable user h.messages userMessage replies)
    (hturn : insertChatTurn owner user h userMessage replies now = some h') :
    Sane h'.messages ∧ Grows h.messages h'.messages ∧
      ∀ k m', h'.messages.get? k = some m' → k ∉ h.messages →
        (Obj.get userMessage "id" = .str k ∨ .str k ∈ replies.map TurnReply.messageId) ∧
          (m'.get "role" = .str "user" →
            Obj.get userMessage "id" = .str k ∧ textOf m' = textOf userMessage) := by
  unfold insertChatTurn at hturn
  obtain ⟨hids, hturn⟩ := Option.ite_none_left_eq_some.mp hturn
  obtain ⟨hagain, hturn⟩ := Option.ite_none_left_eq_some.mp hturn
  obtain ⟨h₁, hposted, rfl⟩ := Option.map_eq_some_iff.mp hturn
  rw [not_or, not_not] at hids
  have hreply : ∀ r ∈ replies, ∃ id, r.messageId = .str id ∧ id ≠ "" := by
    intro r hr
    have hmem : r.messageId ∈ if userMessage = [] then replies.map TurnReply.messageId
        else Obj.get userMessage "id" :: replies.map TurnReply.messageId := by
      split_ifs
      · exact List.mem_map_of_mem hr
      · exact List.mem_cons_of_mem _ (List.mem_map_of_mem hr)
    exact exists_of_valid hids.1 hmem
  by_cases hempty : userMessage = []
  · -- replies without a user message are new roots
    subst hempty
    have hsame : h₁ = h := (Option.some.inj hposted).symm
    subst hsame
    have hready : ∀ r ∈ replies, Ready h₁.messages .null r := by
      intro r hr
      obtain ⟨id, hid, hne⟩ := hreply r hr
      refine ⟨hp.prepared r hr, id, hid, hne, fun heq => (by cases heq), fun m hm => ?_⟩
      exact absurd rfl (hp.again r hr id m hid hm).1
    obtain ⟨hsane, hgrows, hnew⟩ :=
      prepareReplies_spec now hs hready hids.2 hp.author.1 .null (.inl rfl)
    refine ⟨hsane, hgrows, fun k m' hm' hk => ?_⟩
    obtain ⟨hid, hrole⟩ := hnew k m' hm' hk
    refine ⟨.inr hid, fun huser => ?_⟩
    rw [hrole] at huser
    exact absurd huser (by decide)
  -- the user message is posted first, and the replies hang from it
  · rw [if_neg hempty] at hids
    obtain ⟨hany, hnodup⟩ := hids
    obtain ⟨hfresh, hnodup⟩ := List.nodup_cons.mp hnodup
    obtain ⟨u, hu, hne⟩ := exists_of_valid hany List.mem_cons_self
    rw [hu] at hposted hfresh ⊢
    simp only [Json.asStr_str, if_neg hempty] at hposted
    have hnul : NulFree u := by
      have := hp.posted.get "id"
      rw [hu] at this
      cases this
      assumption
    obtain ⟨hsane₁, hgrows₁, hu₁, hnew₁⟩ :=
      postUserMessage_spec hs hne hnul hp.author hp.posted hposted
    -- each reply is new, or was prepared before under this user message
    have hready : ∀ r ∈ replies, Ready h₁.messages (.str u) r := by
      intro r hr
      obtain ⟨id, hid, hne'⟩ := hreply r hr
      have hother : (.str u : Json) ≠ .str id := by
        intro heq
        exact hfresh (heq.trans hid.symm ▸ List.mem_map_of_mem hr)
      refine ready_of_posted hs hgrows₁ (fun k m hm hk => (hnew₁ k m hm hk).1) (hp.prepared r hr)
        hid hne' hother fun old hold => ?_
      have hprepared : preparable owner user userMessage old = true := by
        by_contra hnot
        refine hagain (List.any_eq_true.mpr ⟨.str id, hid ▸ List.mem_map_of_mem hr, ?_⟩)
        rw [Messages.at, Json.asStr_str, Option.bind_some, hold, Option.any_some,
          Bool.not_eq_true', Bool.eq_false_iff]
        exact hnot
      have hnonempty : old ≠ [] := by
        rintro rfl
        cases (hs.ids id _ hold).2
      obtain ⟨hparent, hrole⟩ := preparable_spec hempty hnonempty hprepared
      exact ⟨hparent.trans hu, hrole, (hp.again r hr id old hid hold).2⟩
    obtain ⟨hsane, hgrows, hnew⟩ :=
      prepareReplies_spec now hsane₁ hready hnodup hp.author.1 (.str hnul)
      (.inr ⟨u, hu₁, rfl⟩)
    -- what is new came with the replies or with the user message
    refine ⟨hsane, hgrows₁.trans hgrows, fun k m' hm' hk => ?_⟩
    by_cases hk₁ : k ∈ h₁.messages
    · obtain ⟨m, hm⟩ := (Dict.mem_iff_exists _ _).mp hk₁
      obtain ⟨n, hn, hfrozen⟩ := hgrows k m hm
      rw [hm'] at hn
      cases hn
      obtain ⟨rfl, htext⟩ := hnew₁ k m hm hk
      exact ⟨.inl rfl, fun huser =>
        ⟨rfl, (hfrozen.text (hfrozen.role.symm.trans huser)).trans htext⟩⟩
    · obtain ⟨hid, hrole⟩ := hnew k m' hm' hk₁
      refine ⟨.inr hid, fun huser => ?_⟩
      rw [hrole] at huser
      exact absurd huser (by decide)

end OpenWebUI.Chat
