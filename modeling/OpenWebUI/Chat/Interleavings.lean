import OpenWebUI.Chat.Merge

/-! # Updates that race with saves

Every chat operation is one transaction, but an update carries a history its caller read
and edited earlier. Whatever saves and updates ran in between, an update of well-formed
messages loses no stored message, keeps the messages that are not the caller's to change,
and rebuilds every child list.
-/

namespace OpenWebUI.Chat

open Py

/-! ## What an update of clean messages leaves -/

/-- An incoming history whose messages are dictionaries with clean ids, keys and parent ids. -/
structure RawHistory.Plain (h : RawHistory) : Prop where
  ids : ∀ id ∈ h.messages, NulFree id
  dicts : ∀ {id : String} {v : Json}, h.messages.get? id = some v →
    ∃ m : Message, v = .obj m ∧ Tidy m ∧ Clean (m.get "parentId")

/-- The stored ids and messages are clean. -/
def CleanMessages (ms : Messages) : Prop :=
  ∀ id m, ms.get? id = some m → NulFree id ∧ Clean (.obj m)

/-- The ids whose parent is the given one, in map order. -/
def idsBelow (ms : Messages) (id : String) : List Json :=
  (ms.entries.filter fun e => e.2.get "parentId" = .str id).map fun e => .str e.1

/-- What an update leaves of the stored and the incoming messages. -/
structure Updated (userId : String) (stored : Messages) (incoming : RawHistory) (new : Messages) :
    Prop where
  mem : ∀ id, id ∈ new ↔ id ∈ stored ∨ id ∈ incoming.messages
  kept : ∀ id m, stored.get? id = some m →
    Guarded userId m (incoming.copy id) ∨ id ∉ incoming.messages →
    ∃ m', new.get? id = some m' ∧ SameButChildren m m'
  replaced : ∀ id m, incoming.copy id = some m →
    (∀ old, stored.get? id = some old → ¬ Guarded userId old (some m)) →
    ∃ m', new.get? id = some m' ∧
      ∀ f, f ≠ "childrenIds" → m'.lookup f = (m.lookup f).map cleanNullBytes
  children : ∀ id m', new.get? id = some m' → childrenIds m' = idsBelow new id

/-- A plain history holds messages only. -/
theorem RawHistory.Plain.toDicts {h : RawHistory} (hp : h.Plain) : h.Dicts := by
  intro id v hv
  obtain ⟨m, rfl, -⟩ := hp.dicts hv
  exact ⟨m, rfl⟩

/-- The copies of a plain history are tidy. -/
theorem RawHistory.Plain.copy {h : RawHistory} (hp : h.Plain) {id : String} {m : Message}
    (hm : h.copy id = some m) : Tidy m ∧ Clean (m.get "parentId") ∧ NulFree id := by
  obtain ⟨v, hv, hobj⟩ := Option.bind_eq_some_iff.mp hm
  obtain ⟨n, rfl, htidy, hparent⟩ := hp.dicts hv
  cases hobj
  exact ⟨htidy, hparent, hp.ids id (Dict.mem_of_get? hv)⟩

/-- The surviving copies have clean ids, keys and parent ids. -/
theorem survivor_tidy {item : ChatItem} {incoming : RawHistory}
    (hclean : CleanMessages item.messages) (hp : incoming.Plain) {id : String} {m : Message}
    (hm : survivor item incoming id = some m) :
    Tidy m ∧ Clean (m.get "parentId") ∧ NulFree id := by
  unfold survivor at hm
  cases hstored : item.messages.get? id with
  | none =>
      rw [hstored] at hm
      exact hp.copy hm
  | some old =>
      have hold := hclean id old hstored
      rw [hstored] at hm
      dsimp only at hm
      split_ifs at hm
      · cases hm
        exact ⟨hold.2.tidy, hold.2.get _, hold.1⟩
      · rcases Option.or_eq_some_iff.mp hm with hm | ⟨-, hm⟩
        · exact hp.copy hm
        · cases hm
          exact ⟨hold.2.tidy, hold.2.get _, hold.1⟩

theorem tidy_appendChildren {m : Message} (h : Tidy m) (ids : List String) :
    Tidy (appendChildren m ids) := by
  induction ids generalizing m with
  | nil => exact h
  | cons id ids ih =>
      rw [appendChildren, List.foldl_cons]
      exact ih (h.set (by decide))

theorem appendChildren_lookup_ne (m : Message) (ids : List String) {k : String}
    (h : k ≠ "childrenIds") :
    (appendChildren m ids).lookup k = m.lookup k := by
  induction ids generalizing m with
  | nil => rfl
  | cons id ids ih =>
      rw [appendChildren, List.foldl_cons]
      exact (ih _).trans (Assoc.lookup_set_ne m _ h)

theorem withChildren_lookup_ne (ms : Messages) (id : String) (m : Message) {k : String}
    (h : k ≠ "childrenIds") : (withChildren ms id m).lookup k = m.lookup k := by
  rw [withChildren, appendChildren_lookup_ne _ _ h, Assoc.lookup_set_ne _ _ h]

theorem tidy_withChildren (ms : Messages) (id : String) {m : Message} (h : Tidy m) :
    Tidy (withChildren ms id m) :=
  tidy_appendChildren (h.set (by decide)) _

/-- The children after some were appended. -/
theorem appendChildren_lookup (m : Message) (ids : List String) {xs : List Json}
    (h : m.lookup "childrenIds" = some (.arr xs)) :
    (appendChildren m ids).lookup "childrenIds" = some (.arr (xs ++ ids.map .str)) := by
  induction ids generalizing m xs with
  | nil => rw [List.map_nil, List.append_nil, ← h, appendChildren, List.foldl_nil]
  | cons id ids ih =>
      have hnext : (appendChild m id).lookup "childrenIds" = some (.arr (xs ++ [.str id])) := by
        rw [appendChild, Assoc.lookup_set_self, childrenIds, Obj.get_of_lookup h]
        rfl
      rw [appendChildren, List.foldl_cons]
      refine (ih _ hnext).trans ?_
      rw [List.append_assoc, List.map_cons, List.singleton_append]

/-- The child list of a relinked message is clean, as the ids in it are. -/
theorem childrenIds_cleanMessage {ms : Messages} {id : String} {m : Message} (h : Tidy m)
    (hids : ∀ c ∈ childList ms id, NulFree c) :
    childrenIds (cleanMessage (withChildren ms id m)) = (childList ms id).map .str := by
  have hclean :
    cleanNullBytes (.arr ((childList ms id).map .str)) = .arr ((childList ms id).map .str) := by
    refine Clean.cleanNullBytes_eq (.arr fun x hx => ?_)
    obtain ⟨c, hc, rfl⟩ := List.mem_map.mp hx
    exact .str (hids c hc)
  have hlookup : (cleanMessage (withChildren ms id m)).lookup "childrenIds" =
      some (.arr ((childList ms id).map .str)) := by
    rw [lookup_cleanMessage (tidy_withChildren ms id h), withChildren,
      appendChildren_lookup _ _ (Assoc.lookup_set_self _ _ _), List.nil_append, Option.map_some,
      hclean]
  rw [childrenIds, Obj.get_of_lookup hlookup]
  rfl

theorem mem_childList {ms : Messages} {id c : String} :
    c ∈ childList ms id ↔ ms.parentOf c = some id := by
  unfold childList
  rw [List.mem_map]
  constructor
  · rintro ⟨⟨k, m⟩, he, rfl⟩
    obtain ⟨he, hparent⟩ := List.mem_filter.mp he
    rw [Messages.parentOf_of_get? ((Dict.mem_entries_iff _ _ _).mp he)]
    exact of_decide_eq_true hparent
  · intro h
    obtain ⟨m, hm⟩ := (Dict.mem_iff_exists _ _).mp (Messages.mem_of_parentOf h).1
    rw [Messages.parentOf_of_get? hm] at h
    exact ⟨(c, m), List.mem_filter.mpr ⟨(Dict.mem_entries_iff _ _ _).mpr hm, decide_eq_true h⟩, rfl⟩

/-- The list is that of the ids below. -/
theorem childList_eq_idsBelow {ms : Messages} {id : String} (hid : id ∈ ms) :
    (childList ms id).map Json.str = idsBelow ms id := by
  unfold childList idsBelow
  rw [List.map_map]
  have hparent : (fun e : String × Message => decide (ms.stored (e.2.get "parentId") = some id)) =
      fun e => decide (e.2.get "parentId" = .str id) := by
    funext e
    rw [decide_eq_decide, Messages.stored_eq_some]
    exact and_iff_left hid
  rw [hparent]
  rfl

/-- With clean ids, cleaning a history cleans its messages one by one. -/
theorem cleanHistory_messages {h : History} (hids : ∀ id ∈ h.messages, NulFree id) :
    (cleanHistory h).messages = h.messages.mapVal fun _ m => cleanMessage m := by
  have hentries : (h.messages.entries.map fun e => (sanitizeText e.1, cleanMessage e.2)) =
      h.messages.entries.map fun e => (e.1, cleanMessage e.2) := by
    refine List.map_congr_left fun e he => ?_
    rw [sanitizeText_of_nulFree (hids e.1 (List.mem_map_of_mem he))]
  unfold cleanHistory
  rw [hentries]
  refine Dict.ext ?_
  exact Dict.entries_ofList (h.messages.mapVal fun _ m => cleanMessage m).nodup_keys

/-- What survives a save was stored or came with it. -/
theorem survivor_isSome (item : ChatItem) {incoming : RawHistory} (hdicts : incoming.Dicts)
    (id : String) :
    (survivor item incoming id).isSome ↔ id ∈ item.messages ∨ id ∈ incoming.messages := by
  have hcopy : (incoming.copy id).isSome ↔ id ∈ incoming.messages := by
    rw [Dict.mem_iff, RawHistory.copy]
    cases hv : incoming.messages.get? id with
    | none => rfl
    | some v =>
        obtain ⟨m, rfl⟩ := hdicts hv
        rfl
  rw [Dict.mem_iff item.messages, ← hcopy]
  unfold survivor
  cases hm : item.messages.get? id with
  | none => simp
  | some m =>
      dsimp only
      split_ifs <;> simp

/-- An update of clean messages with a plain history. -/
theorem updated_mergedHistory {item : ChatItem} {incoming : RawHistory} {h : History}
    (hclean : CleanMessages item.messages) (hp : incoming.Plain)
    (hmerged : mergedHistory item incoming = some h) :
    Updated item.userId item.messages incoming (cleanHistory h).messages := by
  obtain ⟨ms, hmessages, hspec⟩ := mergedHistory_spec hp.toDicts hmerged
  have hmem : ∀ id, id ∈ h.messages ↔ id ∈ item.messages ∨ id ∈ incoming.messages := by
    intro id
    rw [hmessages, Dict.mem_iff, hspec, Option.isSome_map]
    exact survivor_isSome item hp.toDicts id
  have hids : ∀ id ∈ h.messages, NulFree id := by
    intro id hid
    rw [hmessages, Dict.mem_iff, hspec, Option.isSome_map] at hid
    obtain ⟨m, hm⟩ := Option.isSome_iff_exists.mp hid
    exact (survivor_tidy hclean hp hm).2.2
  rw [cleanHistory_messages hids]
  have hget : ∀ id, (h.messages.mapVal fun _ m => cleanMessage m).get? id =
      (survivor item incoming id).map fun m => cleanMessage (withChildren ms id m) := by
    intro id
    rw [Dict.get?_mapVal, hmessages, hspec, Option.map_map]
    rfl
  have hlookup : ∀ {id : String} {m : Message}, survivor item incoming id = some m →
      ∀ f, f ≠ "childrenIds" →
        (cleanMessage (withChildren ms id m)).lookup f = (m.lookup f).map cleanNullBytes := by
    intro id m hm f hf
    have htidy := (survivor_tidy hclean hp hm).1
    rw [lookup_cleanMessage (tidy_withChildren ms id htidy), withChildren_lookup_ne _ _ _ hf]
  refine ⟨?_, ?_, ?_, ?_⟩
  · intro id
    rw [Dict.mem_mapVal, hmem]
  -- a message the save does not touch: protected, or not sent
  · intro id m hm hkeep
    have hsurvives : survivor item incoming id = some m := by
      unfold survivor
      rw [hm]
      dsimp only
      rcases hkeep with hguard | habsent
      · rw [if_pos hguard]
      · have hnone : incoming.copy id = none := by
          rw [RawHistory.copy, (Dict.get?_eq_none_iff _ _).mpr habsent, Option.bind_none]
        rw [hnone]
        split_ifs <;> rfl
    refine ⟨_, by rw [hget, hsurvives, Option.map_some], fun f hf => ?_⟩
    rw [hlookup hsurvives f hf]
    cases hv : m.lookup f with
    | none => rfl
    | some v => rw [Option.map_some, ((hclean id m hm).2.lookup hv).cleanNullBytes_eq]
  -- a message the save may write is stored as sent
  · intro id m hm hfree
    have hsurvives : survivor item incoming id = some m := by
      unfold survivor
      cases hold : item.messages.get? id with
      | none => exact hm
      | some old =>
          dsimp only
          rw [hm, if_neg (hfree old hold), Option.some_or]
    exact ⟨_, by rw [hget, hsurvives, Option.map_some], hlookup hsurvives⟩
  -- the children are listed from the parent ids
  · intro id m' hm'
    have hid := Dict.mem_of_get? hm'
    rw [hget] at hm'
    obtain ⟨m, hm, rfl⟩ := Option.map_eq_some_iff.mp hm'
    have hchildren : ∀ c ∈ childList ms id, NulFree c := by
      intro c hc
      refine hids c ?_
      rw [hmessages, mem_relink]
      exact (Messages.mem_of_parentOf (mem_childList.mp hc)).1
    rw [childrenIds_cleanMessage (survivor_tidy hclean hp hm).1 hchildren, ←
      childList_eq_idsBelow hid]
    -- relinking and cleaning keep every parent id
    have hlist : childList (h.messages.mapVal fun _ m => cleanMessage m) id = childList ms id := by
      rw [childList_mapVal, hmessages, childList_relink]
      intro c n hn
      rw [hmessages, hspec] at hn
      obtain ⟨k, hk, rfl⟩ := Option.map_eq_some_iff.mp hn
      obtain ⟨-, hparent, -⟩ := survivor_tidy hclean hp hk
      rw [withChildren_get_ne _ _ _ (by decide), Obj.get, hlookup hk _ (by decide)]
      unfold Obj.get at hparent ⊢
      cases hv : k.lookup "parentId" with
      | none => rfl
      | some v =>
          rw [hv, Option.getD_some] at hparent
          rw [Option.map_some, Option.getD_some, hparent.cleanNullBytes_eq]
          rfl
    rw [hlist]

/-! ## Saves keep messages clean -/

/-- Messages stay clean where what is new is. -/
theorem CleanMessages.congr {ms ms' : Messages} (h : CleanMessages ms)
    (hset : ∀ id m', ms'.get? id = some m' →
      ms.get? id = some m' ∨ NulFree id ∧ Clean (.obj m')) : CleanMessages ms' := by
  intro id m' hm'
  rcases hset id m' hm' with hm | hm
  · exact h id m' hm
  · exact hm

theorem CleanMessages.set {ms : Messages} (h : CleanMessages ms) {id : String} {m : Message}
    (hid : NulFree id) (hm : Clean (.obj m)) : CleanMessages (ms.set id m) := by
  refine h.congr fun k n hn => ?_
  rw [Dict.get?_set] at hn
  split_ifs at hn with hk
  · cases hn
    exact .inr ⟨hk ▸ hid, hm⟩
  · exact .inl hn

theorem clean_childrenIds {m : Message} (h : Clean (.obj m)) {x : Json} (hx : x ∈ childrenIds m) :
    Clean x := by
  unfold childrenIds at hx
  have hget := h.get "childrenIds"
  cases hv : m.get "childrenIds" with
  | arr xs =>
      rw [hv] at hget hx
      exact hget.mem_arr hx
  | _ =>
      rw [hv] at hx
      cases hx

/-- Listing a child keeps them clean. -/
theorem CleanMessages.addChild {ms : Messages} (h : CleanMessages ms) (parentId : Json) {c : String}
    (hc : NulFree c) : CleanMessages (addChildIdToParent ms parentId c).1 := by
  unfold addChildIdToParent
  split
  · exact h
  · dsimp only
    split_ifs
    · exact h
    · intro id m' hm'
      rw [Dict.get?_modify] at hm'
      split_ifs at hm' with hid
      · obtain ⟨m, hm, rfl⟩ := Option.map_eq_some_iff.mp hm'
        have hclean := h id m hm
        refine ⟨hclean.1, hclean.2.set (by decide) (.arr fun x hx => ?_)⟩
        rcases List.mem_append.mp hx with hx | hx
        · rw [← hid, hm, Option.map_some, Option.getD_some] at hx
          exact clean_childrenIds hclean.2 hx
        · rw [List.mem_singleton.mp hx]
          exact .str hc
      · exact h id m' hm'

/-- The repair keeps them clean. -/
theorem CleanMessages.repair {ms : Messages} (h : CleanMessages ms) :
    CleanMessages (repairChildren ms).1 := by
  have hfold : ∀ (l : List (String × Message)) (acc : Messages × Bool), (∀ e ∈ l, NulFree e.1) →
      CleanMessages acc.1 → CleanMessages (l.foldl (fun acc e =>
        let r := addChildIdToParent acc.1 (e.2.get "parentId") e.1
        (r.1, r.2 || acc.2)) acc).1 := by
    intro l
    induction l with
    | nil => exact fun _ _ hacc => hacc
    | cons e l ih =>
        intro acc hids hacc
        rw [List.foldl_cons]
        refine ih _ (fun e' he' => hids e' (List.mem_cons_of_mem _ he')) ?_
        exact hacc.addChild _ (hids e List.mem_cons_self)
  exact hfold ms.entries (ms, false)
    (fun e he => (h e.1 e.2 ((Dict.mem_entries_iff _ _ _).mp he)).1) h

theorem clean_asObj {x : Json} (h : Clean x) : Clean (.obj (x.asObj.getD [])) := by
  cases x with
  | obj o => exact h
  | _ => exact .nil

theorem clean_keepMeta {stored message : Message} (hs : Clean (.obj stored))
    (hm : Clean (.obj message)) :
    Clean (.obj (keepMeta stored message)) := by
  have hexisting := clean_asObj (hs.get "meta")
  unfold keepMeta
  cases hincoming : (message.get "meta").asObj with
  | none => exact hm
  | some incoming =>
      have hin : Clean (.obj incoming) := by
        have := clean_asObj (hm.get "meta")
        rwa [hincoming] at this
      dsimp only
      split_ifs
      · exact hm.set (by decide) (hexisting.update hin)
      · refine hm.set (by decide) (Clean.update ?_ hin)
        -- the two voice entries, where there are any
        cases hvoice : ((stored.get "meta").asObj.getD []).lookup "voice" with
        | none =>
            cases htask : ((stored.get "meta").asObj.getD []).lookup "task_id" with
            | none => simpa [hvoice, htask] using Clean.nil
            | some task =>
                have : Clean (.obj [("task_id", task)]) :=
                  Clean.nil.set (by decide) (hexisting.lookup htask)
                simpa [hvoice, htask] using this
        | some voice =>
            have hone : Clean (.obj [("voice", voice)]) :=
              Clean.nil.set (by decide) (hexisting.lookup hvoice)
            cases htask : ((stored.get "meta").asObj.getD []).lookup "task_id" with
            | none => simpa [hvoice, htask] using hone
            | some task =>
                have : Clean (.obj [("voice", voice), ("task_id", task)]) :=
                  hone.set (k := "task_id") (by decide) (hexisting.lookup htask)
                simpa [hvoice, htask] using this

theorem clean_outputRole {output : Json} (h : Clean output) : Clean (outputRole output) := by
  unfold outputRole
  cases hfound : (output.asArr.getD []).findSome? _ with
  | none => exact .null
  | some role =>
      obtain ⟨item, hitem, hrole⟩ := List.exists_of_findSome?_eq_some hfound
      obtain ⟨o, ho, hrole⟩ := Option.bind_eq_some_iff.mp hrole
      split_ifs at hrole
      cases hrole
      have hclean : Clean item := by
        cases output with
        | arr xs => exact h.mem_arr hitem
        | _ => cases hitem
      have hobj := clean_asObj hclean
      rw [ho] at hobj
      exact hobj.get "role"

theorem clean_newMessage {ms : Messages} (h : CleanMessages ms) {id : String} {message : Message}
    {now : ℚ} (hid : NulFree id) (hm : Clean (.obj message)) :
    Clean (.obj (newMessage ms id message now)) := by
  have hparent : Clean (parentOfNew ms id message) := by
    unfold parentOfNew
    split_ifs
    · cases hfound : ms.entries.find? fun e => decide (.str id ∈ childrenIds e.2) with
      | none => exact .null
      | some e =>
          have he := List.mem_of_find?_eq_some hfound
          exact .str (h e.1 e.2 ((Dict.mem_entries_iff _ _ _).mp he)).1
    · exact hm.get _
  have hrole : Clean (roleOfNew ms (parentOfNew ms id message) message) := by
    unfold roleOfNew
    dsimp only
    split_ifs
    · exact (hm.get _).or (clean_outputRole ((hm.get _).or (.arr fun x hx => by cases hx)))
    all_goals exact .str (by decide)
  have hkeys : (["id", "parentId", "childrenIds", "role", "timestamp"]).Nodup ∧
      ∀ k ∈ ["id", "parentId", "childrenIds", "role", "timestamp"], NulFree k := by decide
  refine hm.update (.obj hkeys.1 hkeys.2 fun k v hk => ?_)
  simp only [Assoc.lookup_cons, List.lookup_nil] at hk
  split_ifs at hk
  · cases hk
    exact (hm.get _).or (.str hid)
  · cases hk
    exact hparent
  · cases hk
    exact .arr fun x hx => clean_childrenIds hm hx
  · cases hk
    exact hrole
  · cases hk
    exact (hm.get _).or (.num now)

/-- An upsert keeps the messages clean. -/
theorem CleanMessages.upsert {h : History} (hc : CleanMessages h.messages) {id : String}
    {message : Message} {now : ℚ} (hid : NulFree id) (hm : Clean (.obj message)) :
    CleanMessages (upsertMessageToHistory h id message now).messages := by
  unfold upsertMessageToHistory
  cases hstored : h.messages.get? id with
  | none => exact (hc.set hid (clean_newMessage hc hid hm)).addChild _ hid
  | some stored =>
      have hold := (hc id stored hstored).2
      exact (hc.set hid (hold.update (clean_keepMeta hold hm))).addChild _ hid

theorem mem_addChildIdToParent (ms : Messages) (parentId : Json) (c id : String) :
    id ∈ (addChildIdToParent ms parentId c).1 ↔ id ∈ ms :=
  (sameMessages_addChildIdToParent ms parentId c).mem_iff id

/-- A save loses no message. -/
theorem mem_upsertMessageToHistory {h : History} {id k : String} {message : Message} {now : ℚ}
    (hk : k ∈ h.messages) : k ∈ (upsertMessageToHistory h id message now).messages := by
  have hset : ∀ m : Message, k ∈ h.messages.set id m := by
    intro m
    rw [Dict.mem_iff, Dict.get?_set]
    split_ifs
    · rfl
    · exact (Dict.mem_iff _ _).mp hk
  unfold upsertMessageToHistory
  cases h.messages.get? id with
  | none => exact (mem_addChildIdToParent _ _ _ _).mpr (hset _)
  | some stored => exact (mem_addChildIdToParent _ _ _ _).mpr (hset _)

/-! ## The system -/

/-- An operation on the chat: one transaction. -/
inductive Call where
  | update (patch : ChatPatch) (touch : Bool) (now : ℚ)
  | save (messageId : String) (message : Message) (touch : Bool) (now : ℚ)

/-- One of the two merges of an update meets an id it cannot hash. -/
def updateRaises (item : ChatItem) (patch : ChatPatch) : Bool :=
  match patch.history with
  | some (some incoming) =>
      let merged := mergeHistory item.storedHistory (some incoming)
      unhashableLink (unionMessages item.storedHistory (some incoming)) ||
        ((protectMessages item.userId item.messages merged.messages).map unhashableLink).getD false
  | _ => false

/-- `messages.get(parent_id) if parent_id else None` raises. -/
def raisesWhenTruthy (parentId : Json) : Bool := unhashable parentId && parentId.truthy

/-- The repair or the save meets an id it cannot hash. -/
def saveRaises (b : Backend) (item : ChatItem) (message : Message) : Bool :=
  (item.messages.entries.any fun e => raisesWhenTruthy (e.2.get "parentId")) ||
    raisesWhenTruthy ((savedPayload b message).get "parentId")

/-- The store after a call that goes through; `none` when it raises. -/
def Call.run (b : Backend) (chatId : String) : Call → Store → Option Store
  | .update patch touch now, store =>
      if (store.chat.map fun item => updateRaises item patch).getD false then none
      else updateChat? b chatId patch touch now store
  | .save messageId message touch now, store =>
      if (store.chat.map fun item => saveRaises b item message).getD false then none
      else upsertMessageToChat b chatId messageId touch now message store

/-- A call that raises is rolled back. -/
def CallStep (b : Backend) (chatId : String) (call : Call) (s s' : Store) : Prop :=
  s' = (call.run b chatId s).getD s

/-- The messages of the chat. -/
def Store.messages (s : Store) : Messages := (s.chat.map ChatItem.messages).getD ∅

/-- A chat as any write leaves it. -/
def Store.Clean (s : Store) : Prop := CleanMessages s.messages

/-- An update carries a plain history, when it carries one. -/
def Call.Plain : Call → Prop
  | .update patch _ _ => ∀ incoming, patch.history = some (some incoming) → incoming.Plain
  | .save _ _ _ _ => True

variable {b : Backend} {chatId : String} {s s' : Store} {call : Call}

/-- The messages of the store are those of the chat. -/
theorem Store.messages_eq {item : ChatItem} (h : s.chat = some item) :
    s.messages = item.messages := by
  rw [Store.messages, h]
  rfl

/-- What a save of the chat leaves. -/
theorem updateChat?_ok {patch : ChatPatch} {touch : Bool} {now : ℚ} {item : ChatItem}
    (hchat : s.chat = some item) (h : updateChat? b chatId patch touch now s = some s') :
    ∃ history, item.updatedHistory patch = some history ∧
      s'.messages = (history.map History.messages).getD ∅ := by
  unfold updateChat? at h
  rw [hchat] at h
  obtain ⟨history, hhistory, h⟩ := Option.bind_eq_some_iff.mp h
  obtain ⟨rows, -, h⟩ := Option.bind_eq_some_iff.mp h
  dsimp only at h
  split_ifs at h
  cases h
  exact ⟨history, hhistory, rfl⟩

/-- What a save of a message leaves. -/
theorem upsertMessageToChat_ok {messageId : String} {message : Message} {touch : Bool} {now : ℚ}
    {item : ChatItem} (hchat : s.chat = some item)
    (h : upsertMessageToChat b chatId messageId touch now message s = some s') :
    s'.messages = (historyAfterSave item (sanitizeText messageId)
      (savedPayload b message) now).messages := by
  unfold upsertMessageToChat at h
  rw [hchat] at h
  dsimp only at h
  obtain ⟨rows, -, h⟩ := Option.bind_eq_some_iff.mp h
  split_ifs at h
  cases h
  rfl

/-- A cleaned history has clean messages. -/
theorem cleanMessages_cleanHistory (h : History) : CleanMessages (cleanHistory h).messages := by
  intro id m hm
  obtain ⟨hval, -⟩ := Dict.ofList_spec
    (h.messages.entries.map fun e => (sanitizeText e.1, cleanMessage e.2)) id
  obtain ⟨e, -, heq⟩ := List.mem_map.mp (hval m hm)
  obtain ⟨rfl, rfl⟩ := Prod.ext_iff.mp heq
  exact ⟨nulFree_sanitizeText e.1, clean_cleanMessage e.2⟩

/-- A saved history has clean messages. -/
theorem cleanMessages_updatedHistory {item : ChatItem} {patch : ChatPatch}
    {history : Option History} (h : item.updatedHistory patch = some history) :
    CleanMessages ((history.map History.messages).getD ∅) := by
  obtain ⟨raw, -, rfl⟩ := Option.map_eq_some_iff.mp h
  cases raw with
  | none => exact fun _ _ hm => by cases hm
  | some stored => exact cleanMessages_cleanHistory stored

/-- The repaired history has the same ids, and clean messages if they were clean. -/
theorem repaired_spec {item : ChatItem} :
    let repaired := (item.chat.history.map fun h => (repairChatCurrentId h).1).getD ⟨∅, none⟩
    (CleanMessages item.messages → CleanMessages repaired.messages) ∧
      ∀ id, id ∈ repaired.messages ↔ id ∈ item.messages := by
  unfold ChatItem.messages
  cases item.chat.history with
  | none => exact ⟨fun h => h, fun _ => Iff.rfl⟩
  | some h =>
      simp only [Option.map_some, Option.getD_some, repairChatCurrentId_messages]
      exact ⟨fun hc => hc.repair, (sameMessages_repairChildren h.messages).mem_iff⟩

/-- Without a chat there is nothing to change. -/
theorem Call.run_of_no_chat (hchat : s.chat = none) (h : call.run b chatId s = some s') :
    s' = s := by
  cases call with
  | update patch touch now =>
      rw [Call.run, hchat] at h
      unfold updateChat? at h
      rw [hchat] at h
      exact (Option.some.inj h).symm
  | save messageId message touch now =>
      rw [Call.run, hchat] at h
      unfold upsertMessageToChat at h
      rw [hchat] at h
      exact (Option.some.inj h).symm

/-- Every call keeps the store clean. -/
theorem CallStep.clean (hs : s.Clean) (h : CallStep b chatId call s s') : s'.Clean := by
  unfold CallStep at h
  cases hrun : call.run b chatId s with
  | none =>
      rw [hrun] at h
      exact h ▸ hs
  | some t =>
      rw [hrun, Option.getD_some] at h
      subst h
      cases hchat : s.chat with
      | none =>
          have hsame := Call.run_of_no_chat hchat hrun
          exact hsame ▸ hs
      | some item =>
          unfold Store.Clean at hs ⊢
          rw [Store.messages_eq hchat] at hs
          cases call with
          | update patch touch now =>
              rw [Call.run] at hrun
              split_ifs at hrun
              obtain ⟨history, hhistory, hmessages⟩ := updateChat?_ok hchat hrun
              rw [hmessages]
              exact cleanMessages_updatedHistory hhistory
          | save messageId message touch now =>
              rw [Call.run] at hrun
              split_ifs at hrun
              rw [upsertMessageToChat_ok hchat hrun]
              exact (repaired_spec.1 hs).upsert (nulFree_sanitizeText messageId)
                (clean_cleanMessage _)

/-- What an update with a plain history leaves, when it goes through. -/
theorem updated_of_run {patch : ChatPatch} {touch : Bool} {now : ℚ} {item : ChatItem}
    {incoming : RawHistory} (hs : s.Clean) (hchat : s.chat = some item)
    (hhistory : patch.history = some (some incoming)) (hp : incoming.Plain)
    (h : (Call.update patch touch now).run b chatId s = some s') :
    Updated item.userId s.messages incoming s'.messages := by
  rw [Call.run] at h
  split_ifs at h
  obtain ⟨history, hupdated, hmessages⟩ := updateChat?_ok hchat h
  unfold ChatItem.updatedHistory at hupdated
  rw [hhistory] at hupdated
  obtain ⟨raw, hraw, rfl⟩ := Option.map_eq_some_iff.mp hupdated
  obtain ⟨merged, hmerged, rfl⟩ := Option.map_eq_some_iff.mp hraw
  unfold Store.Clean at hs
  rw [Store.messages_eq hchat] at hs ⊢
  rw [hmessages]
  exact updated_mergedHistory hs hp hmerged

/-- A plain call loses no message. -/
theorem CallStep.mem (hs : s.Clean) (hcall : call.Plain) (h : CallStep b chatId call s s')
    {id : String} (hid : id ∈ s.messages) : id ∈ s'.messages := by
  unfold CallStep at h
  cases hrun : call.run b chatId s with
  | none =>
      rw [hrun] at h
      exact h ▸ hid
  | some t =>
      rw [hrun, Option.getD_some] at h
      subst h
      cases hchat : s.chat with
      | none => exact Call.run_of_no_chat hchat hrun ▸ hid
      | some item =>
          cases call with
          | update patch touch now =>
              cases hhistory : patch.history with
              | none =>
                  -- the stored history, cleaned once more
                  rw [Call.run] at hrun
                  split_ifs at hrun
                  obtain ⟨history, hupdated, hmessages⟩ := updateChat?_ok hchat hrun
                  unfold ChatItem.updatedHistory at hupdated
                  rw [hhistory, Option.map_some, Option.some.injEq] at hupdated
                  rw [Store.messages_eq hchat] at hid
                  unfold Store.Clean at hs
                  rw [Store.messages_eq hchat] at hs
                  rw [hmessages, ← hupdated]
                  unfold ChatItem.messages at hid hs
                  cases hstored : item.chat.history with
                  | none =>
                      rw [hstored] at hid
                      exact absurd hid List.not_mem_nil
                  | some stored =>
                      rw [hstored] at hid hs
                      rw [Option.map_some, Option.map_some, Option.getD_some, cleanHistory_messages]
                      · exact (Dict.mem_mapVal _ _ _).mpr hid
                      · intro k hk
                        obtain ⟨m, hm⟩ := (Dict.mem_iff_exists _ _).mp hk
                        exact (hs k m hm).1
              | some posted =>
                  cases posted with
                  | none =>
                      rw [Call.run] at hrun
                      split_ifs at hrun
                      obtain ⟨history, hupdated, -⟩ := updateChat?_ok hchat hrun
                      unfold ChatItem.updatedHistory at hupdated
                      rw [hhistory] at hupdated
                      cases hupdated
                  | some incoming =>
                      have hup := updated_of_run hs hchat hhistory (hcall incoming hhistory) hrun
                      exact (hup.mem id).mpr (.inl hid)
          | save messageId message touch now =>
              rw [Call.run] at hrun
              split_ifs at hrun
              rw [Store.messages_eq hchat] at hid
              rw [upsertMessageToChat_ok hchat hrun]
              exact mem_upsertMessageToHistory ((repaired_spec.2 id).mpr hid)

/-- The states of a chat after any updates and saves. -/
def ReachableChat (b : Backend) (chatId : String) : Store → Prop :=
  Transition.Reachable Store.Clean (CallStep b chatId)

/-- Every reachable store is clean. -/
theorem ReachableChat.clean (h : ReachableChat b chatId s) : s.Clean :=
  h.invariant (fun _ h => h) fun _ _ _ hs hstep => hstep.clean hs

/-- A user message with a content. -/
def userMessage (author content : String) : Message :=
  [("role", .str "user"), ("user_id", .str author), ("content", .str content), ("parentId", .null)]

theorem clean_userMessage (author content : String) (ha : NulFree author) (hc : NulFree content) :
    Clean (.obj (userMessage author content)) := by
  have h₁ := Clean.nil.set (k := "role") (v := .str "user") (by decide) (.str (by decide))
  have h₂ := h₁.set (k := "user_id") (v := .str author) (by decide) (.str ha)
  have h₃ := h₂.set (k := "content") (v := .str content) (by decide) (.str hc)
  exact h₃.set (k := "parentId") (v := .null) (by decide) .null

end OpenWebUI.Chat
