import OpenWebUI.Chat.Turn

/-! # What a turn does to the links

A turn keeps a history well linked exactly when its replies and its user message stay where they
are. A reply that is stored already is written with the parent of the turn and without children,
so it must have hung there, and from it nothing.
-/

namespace OpenWebUI.Chat

open Py

variable {owner : String} {user : TurnUser} {userMessage : Obj} {now : ℚ} {ms ms' : Messages}
  {id : String} {message m : Message}

/-! ## Listing children -/

/-- `_add_child_id_to_parent`, on the parent. -/
def listChild (m : Message) (id : String) : Message :=
  if .str id ∈ childrenIds m then m else appendChild m id

/-- Listing a child changes no other field. -/
theorem listChild_get (m : Message) (id : String) {k : String} (hk : k ≠ "childrenIds") :
    (listChild m id).get k = m.get k := by
  rw [listChild]
  split_ifs
  · rfl
  · exact Obj.get_set_ne m _ hk

theorem mem_childrenIds_listChild {x : Json} :
    x ∈ childrenIds (listChild m id) ↔ x ∈ childrenIds m ∨ x = .str id := by
  rw [listChild]
  split_ifs with h
  · exact ⟨Or.inl, fun hx => hx.elim (fun hx => hx) fun hx => hx ▸ h⟩
  · rw [appendChild, childrenIds_set, List.mem_append, List.mem_singleton]

theorem nodup_listChild : (childrenIds (listChild m id)).Nodup ↔ (childrenIds m).Nodup := by
  rw [listChild]
  split_ifs with h
  · rfl
  · rw [appendChild, childrenIds_set, List.nodup_append_comm, List.singleton_append,
      List.nodup_cons]
    exact ⟨fun hnodup => hnodup.2, fun hnodup => ⟨h, hnodup⟩⟩

theorem hasChildList_of_mem {x : Json} (h : x ∈ childrenIds m) : HasChildList m := by
  rw [childrenIds, Obj.get] at h
  rw [HasChildList]
  cases hlookup : m.lookup "childrenIds" with
  | none => exact Or.inl rfl
  | some v =>
      rw [hlookup, Option.getD_some] at h
      cases v with
      | arr xs => exact Or.inr ⟨xs, rfl⟩
      | _ => cases h

theorem hasChildList_listChild (m : Message) (id : String) : HasChildList (listChild m id) :=
  hasChildList_of_mem (mem_childrenIds_listChild.mpr (Or.inr rfl))

/-- The message once all ids are listed. -/
def listChildren (m : Message) (ids : List String) : Message := ids.foldl listChild m

/-- Listing children changes no other field. -/
theorem listChildren_get (ids : List String) {k : String} (hk : k ≠ "childrenIds") :
    ∀ m : Message, (listChildren m ids).get k = m.get k := by
  induction ids with
  | nil => exact fun _ => rfl
  | cons id ids ih => exact fun m => (ih _).trans (listChild_get m id hk)

theorem mem_childrenIds_listChildren {x : Json} (ids : List String) : ∀ m : Message,
    x ∈ childrenIds (listChildren m ids) ↔ x ∈ childrenIds m ∨ x ∈ ids.map Json.str := by
  induction ids with
  | nil => simp [listChildren]
  | cons id ids ih =>
      intro m
      rw [listChildren, List.foldl_cons]
      refine (ih _).trans ?_
      rw [mem_childrenIds_listChild, List.map_cons, List.mem_cons, or_assoc]

theorem nodup_listChildren (ids : List String) : ∀ m : Message,
    (childrenIds (listChildren m ids)).Nodup ↔ (childrenIds m).Nodup := by
  induction ids with
  | nil => exact fun _ => Iff.rfl
  | cons id ids ih => exact fun m => (ih _).trans nodup_listChild

theorem hasChildList_listChildren {ids : List String} :
    HasChildList (listChildren m ids) ↔ HasChildList m ∨ ids ≠ [] := by
  cases ids with
  | nil => exact ⟨Or.inl, fun h => h.elim (fun h => h) fun h => absurd rfl h⟩
  | cons id ids =>
      refine ⟨fun _ => Or.inr (List.cons_ne_nil id ids), fun _ => ?_⟩
      refine hasChildList_of_mem ((mem_childrenIds_listChildren (x := .str id) _ m).mpr (Or.inr ?_))
      exact List.mem_cons_self

/-- A child is listed with the message that is its parent. -/
theorem addChildIdToParent_get? (ms : Messages) (parentId : Json) (id k : String) :
    (addChildIdToParent ms parentId id).1.get? k =
      (ms.get? k).map fun m => if parentId = .str k ∧ k ≠ "" then listChild m id else m := by
  have hnone : (∀ m, ms.get? k = some m → ¬ (parentId = .str k ∧ k ≠ "")) →
      (ms.get? k).map (fun m => if parentId = .str k ∧ k ≠ "" then listChild m id else m) =
        ms.get? k := by
    intro h
    cases hm : ms.get? k with
    | none => rfl
    | some m => rw [Option.map_some, if_neg (h m hm)]
  cases hp : (if parentId.truthy then ms.stored parentId else none) with
  | none =>
      rw [hnone]
      · rw [addChildIdToParent, hp]
      · rintro m hm ⟨rfl, hk⟩
        rw [Json.truthy_str, if_pos (by simpa using hk),
          Messages.stored_str (Dict.mem_of_get? hm)] at hp
        cases hp
  | some p =>
      have htruthy : parentId.truthy = true := by
        by_contra hfalse
        rw [if_neg hfalse] at hp
        cases hp
      rw [if_pos htruthy] at hp
      obtain ⟨rfl, hmem⟩ := Messages.stored_eq_some.mp hp
      have hne : p ≠ "" := by simpa using htruthy
      obtain ⟨m, hm⟩ := (Dict.mem_iff_exists _ _).mp hmem
      by_cases hlisted : .str id ∈ childrenIds m
      · rw [addChildIdToParent_of_listed hm hlisted]
        by_cases hk : k = p
        · rw [hk, hm, Option.map_some, if_pos ⟨rfl, hne⟩, listChild, if_pos hlisted]
        · rw [hnone]
          rintro _ _ ⟨heq, -⟩
          exact hk (Json.str.inj heq).symm
      · rw [addChildIdToParent_of_new hne hm hlisted]
        by_cases hk : k = p
        · rw [hk, hm, Option.map_some, Option.map_some, if_pos rfl, if_pos ⟨rfl, hne⟩, listChild,
            if_neg hlisted]
        · rw [hnone]
          · cases ms.get? k with
            | none => rfl
            | some n => rw [Option.map_some, if_neg hk]
          · rintro _ _ ⟨heq, -⟩
            exact hk (Json.str.inj heq).symm

/-- An upsert stores the message and lists it below its parent. -/
theorem get?_upsert (h : History) (id : String) (message : Message) (now : ℚ) (k : String) :
    (upsertMessageToHistory h id message now).messages.get? k =
      ((h.messages.set id (upserted h.messages id message now)).get? k).map fun m =>
        if (upserted h.messages id message now).get "parentId" = .str k ∧ k ≠ "" then listChild m id
        else m := by
  rw [← addChildIdToParent_get?]
  unfold upsertMessageToHistory upserted
  cases h.messages.get? id with
  | none => simp only [Dict.get?_set_self, Option.map_some, Option.getD_some]
  | some stored => simp only [Dict.get?_set_self, Option.map_some, Option.getD_some]

/-- After an upsert the current id is stored. -/
theorem upsert_current (h : History) (id : String) (message : Message) (now : ℚ)
    (hcurrent : ∀ c, h.currentId = some c → c ∈ h.messages) :
    ∀ c, (upsertMessageToHistory h id message now).currentId = some c →
      c ∈ (upsertMessageToHistory h id message now).messages := by
  intro c hc
  rw [mem_upsert]
  unfold upsertMessageToHistory at hc
  cases hm : h.messages.get? id with
  | none =>
      rw [hm] at hc
      exact Or.inl (Option.some.inj hc).symm
  | some stored =>
      rw [hm] at hc
      exact Or.inr (hcurrent c hc)

/-! ## The replies -/

/-- The ids of the replies. -/
def replyIds (replies : List TurnReply) : List String :=
  replies.filterMap fun r => r.messageId.asStr

variable (user now) in
/-- A prepared reply hangs from the user message, and nothing from it. -/
theorem upserted_preparedReply {id : String} {userMessageId : Json} (r : TurnReply)
    (hunlisted : userMessageId = .null → id ∉ ms → ∀ k m, ms.get? k = some m →
      .str id ∉ childrenIds m) :
    (upserted ms id (preparedReply user userMessageId now r) now).get "parentId" = userMessageId ∧
      (upserted ms id (preparedReply user userMessageId now r) now).lookup "childrenIds" =
        some (.arr []) := by
  by_cases hin : id ∈ ms
  · obtain ⟨stored, hm⟩ := (Dict.mem_iff_exists _ _).mp hin
    rw [Obj.get, upserted_lookup hm (by decide), upserted_lookup hm (by decide)]
    exact ⟨rfl, rfl⟩
  · rw [upserted_new hin, newMessage_parentId, newMessage_childrenIds ms id now rfl]
    refine ⟨?_, rfl⟩
    have hown : (preparedReply user userMessageId now r).get "parentId" = userMessageId := rfl
    rw [parentOfNew, hown]
    split_ifs with hnull
    · have hfind : ms.entries.find? (fun e => .str id ∈ childrenIds e.2) = none := by
        rw [List.find?_eq_none]
        intro e he hc
        exact hunlisted hnull hin e.1 e.2 ((Dict.mem_entries_iff ms e.1 e.2).mp he)
          (by simpa using hc)
      rw [hfind, hnull]
      rfl
    · rfl

/-- What preparing the replies does to the messages: the replies hang from the user message and
are listed there, the others keep their links. -/
structure Prepared (ms ms' : Messages) (userMessageId : Json) (ids : List String) : Prop where
  mem : ∀ k, k ∈ ms' ↔ k ∈ ms ∨ k ∈ ids
  reply : ∀ k ∈ ids, ∃ m, ms'.get? k = some m ∧ m.get "parentId" = userMessageId ∧
    m.lookup "childrenIds" = some (.arr [])
  other : ∀ k, k ∉ ids → ms'.get? k =
    (ms.get? k).map fun m => if userMessageId = .str k ∧ k ≠ "" then listChildren m ids else m

variable (user now) in
/-- Preparing one reply. -/
theorem prepareReply_get? (h : History) {userMessageId : Json} {r : TurnReply}
    (hid : r.messageId = .str id) (hne : userMessageId ≠ .str id)
    (hunlisted : userMessageId = .null → id ∉ h.messages →
      ∀ k m, h.messages.get? k = some m → .str id ∉ childrenIds m) :
    Prepared h.messages (prepareReply user userMessageId now h r).messages userMessageId [id] := by
  have hstep : prepareReply user userMessageId now h r =
      upsertMessageToHistory h id (preparedReply user userMessageId now r) now := by
    rw [prepareReply, hid]
    rfl
  obtain ⟨hparent, hchildren⟩ := upserted_preparedReply user now r hunlisted
  rw [hstep]
  constructor
  · intro k
    rw [mem_upsert, List.mem_singleton, or_comm]
  · intro k hk
    obtain rfl := List.mem_singleton.mp hk
    refine ⟨_, ?_, hparent, hchildren⟩
    rw [get?_upsert, Dict.get?_set_self, Option.map_some, hparent, if_neg fun h => hne h.1]
  · intro k hk
    rw [get?_upsert, Dict.get?_set_ne _ _ (by simpa using hk), hparent]
    rfl

variable (user now) in
/-- Preparing the replies one after the other. -/
theorem prepareReplies_get? (replies : List TurnReply) {userMessageId : Json} : ∀ h : History,
    (replyIds replies).Nodup → (∀ id ∈ replyIds replies, userMessageId ≠ .str id) →
    (userMessageId = .null → ∀ id ∈ replyIds replies, id ∉ h.messages →
      ∀ k m, h.messages.get? k = some m → .str id ∉ childrenIds m) →
    Prepared h.messages (replies.foldl (prepareReply user userMessageId now) h).messages
      userMessageId
      (replyIds replies) := by
  induction replies with
  | nil =>
      intro h _ _ _
      refine ⟨fun k => by simp [replyIds], fun k hk => (by cases hk), fun k _ => ?_⟩
      have hid :
        (fun m : Message => if userMessageId = .str k ∧ k ≠ "" then listChildren m [] else m) =
          id := funext fun m => ite_self m
      exact (by rw [show replyIds [] = [] from rfl, hid, Option.map_id_fun]; rfl)
  | cons r replies ih =>
      intro h hnodup hne hunlisted
      rw [List.foldl_cons]
      cases hid : r.messageId.asStr with
      -- a reply without an id is skipped
      | none =>
          have hskip : prepareReply user userMessageId now h r = h := by rw [prepareReply, hid]
          have hids : replyIds (r :: replies) = replyIds replies := by
            rw [replyIds, List.filterMap_cons, hid, replyIds]
          rw [hids] at hnodup hne hunlisted ⊢
          rw [hskip]
          exact ih h hnodup hne hunlisted
      | some id =>
          have hids : replyIds (r :: replies) = id :: replyIds replies := by
            rw [replyIds, List.filterMap_cons, hid, replyIds]
          rw [hids] at hnodup hne hunlisted ⊢
          obtain ⟨hfresh, hnodup⟩ := List.nodup_cons.mp hnodup
          have hstr : r.messageId = .str id := by
            cases hr : r.messageId with
            | str s =>
                rw [hr] at hid
                rw [Option.some.inj hid]
            | _ =>
                rw [hr] at hid
                cases hid
          -- the replies are apart, so what the first did is left by the others
          have hfirst := prepareReply_get? user now h hstr (hne id List.mem_cons_self)
            fun hnull => hunlisted hnull id List.mem_cons_self
          have hrest := ih (prepareReply user userMessageId now h r) hnodup
            (fun id' hid' => hne id' (List.mem_cons_of_mem id hid')) ?_
          · constructor
            · intro k
              rw [hrest.mem, hfirst.mem, List.mem_singleton, List.mem_cons, or_assoc]
            · intro k hk
              by_cases hkrest : k ∈ replyIds replies
              · exact hrest.reply k hkrest
              · obtain rfl := (List.mem_cons.mp hk).resolve_right hkrest
                obtain ⟨n, hn, hparent, hchildren⟩ := hfirst.reply k (List.mem_singleton_self k)
                refine ⟨n, ?_, hparent, hchildren⟩
                rw [hrest.other k hkrest, hn, Option.map_some, if_neg fun h => hne k hk h.1]
            · intro k hk
              rw [List.mem_cons, not_or] at hk
              rw [hrest.other k hk.2, hfirst.other k (by simpa using hk.1), Option.map_map]
              refine congrArg (fun f => (h.messages.get? k).map f) (funext fun m => ?_)
              rw [Function.comp_apply]
              split_ifs <;> rfl
          · -- a reply without a user message lists nothing
            intro hnull id' hid' hnew k m hm
            have hnew' : id' ∉ h.messages := fun hin => hnew ((hfirst.mem id').mpr (Or.inl hin))
            by_cases hk : k = id
            · obtain ⟨n, hn, -, hchildren⟩ := hfirst.reply k (by simpa using hk)
              rw [hm] at hn
              obtain rfl := Option.some.inj hn
              rw [childrenIds, Obj.get_of_lookup hchildren]
              exact List.not_mem_nil
            · rw [hfirst.other k (by simpa using hk), hnull] at hm
              obtain ⟨n, hn, rfl⟩ := Option.map_eq_some_iff.mp hm
              rw [if_neg fun h => by cases h.1]
              exact hunlisted hnull id' (List.mem_cons_of_mem id hid') hnew' k n hn

/-! ## Kept links -/

/-- Every message keeps its parent, and its children stay listed. -/
def KeepsLinks (ms ms' : Messages) : Prop :=
  ∀ k m, ms.get? k = some m → ∃ m', ms'.get? k = some m' ∧ m'.get "parentId" = m.get "parentId" ∧
    ∀ x ∈ childrenIds m, x ∈ childrenIds m'

/-- The replies that are stored hang from the user message, and nothing from them. -/
def RepliesFit (ms : Messages) (userMessageId : Json) (ids : List String) : Prop :=
  ∀ id ∈ ids, ∀ m, ms.get? id = some m → m.get "parentId" = userMessageId ∧ childrenIds m = []

/-- What a prepared reply was before, if its links are kept. -/
theorem KeepsLinks.repliesFit {userMessageId : Json} {ids : List String}
    (hkeeps : KeepsLinks ms ms')
    (hreply : ∀ k ∈ ids, ∃ m, ms'.get? k = some m ∧ m.get "parentId" = userMessageId ∧
      m.lookup "childrenIds" = some (.arr [])) :
    RepliesFit ms userMessageId ids := by
  intro id hid m hm
  obtain ⟨m', hm', hparent, hchildren⟩ := hkeeps id m hm
  obtain ⟨n, hn, huser, hnone⟩ := hreply id hid
  rw [hm'] at hn
  obtain rfl := Option.some.inj hn
  refine ⟨hparent.symm.trans huser, List.eq_nil_iff_forall_not_mem.mpr fun x hx => ?_⟩
  have hmem := hchildren x hx
  rw [childrenIds, Obj.get_of_lookup hnone] at hmem
  exact List.not_mem_nil hmem

/-- A reply that fits had no children. -/
theorem RepliesFit.childless {userMessageId : Json} {ids : List String}
    (hfit : RepliesFit ms userMessageId ids) (hl : Linked ms) {k c : String} (hk : k ∈ ids) :
    ms.parentOf c ≠ some k := by
  intro hc
  obtain ⟨m, hm⟩ := (Dict.mem_iff_exists _ _).mp (Messages.mem_of_parentOf hc).2
  exact (hl.childless hm).mp (hfit k hk m hm).2 c hc

/-- The children of a message that may not be stored. -/
theorem Linked.mem_children (hl : Linked ms) (u : String) (x : Json) :
    x ∈ childrenIds ((ms.get? u).getD []) ↔ ∃ id, x = .str id ∧ ms.parentOf id = some u := by
  cases hm : ms.get? u with
  | none =>
      refine ⟨fun hx => (by cases hx), ?_⟩
      rintro ⟨id, -, hid⟩
      exact absurd (Messages.mem_of_parentOf hid).2 ((Dict.get?_eq_none_iff _ _).mp hm)
  | some m => exact hl.children hm x

/-- The parent of a message of a linked map, whatever is added to the map. -/
theorem Linked.parentOf_of_parent (hl : Linked ms) (hsub : ∀ k ∈ ms, k ∈ ms') {k : String}
    {m' : Message} (hm : ms.get? k = some m) (hm' : ms'.get? k = some m')
    (hparent : m'.get "parentId" = m.get "parentId") :
    ms'.parentOf k = ms.parentOf k := by
  rw [Messages.parentOf_of_get? hm', Messages.parentOf_of_get? hm, hparent]
  rcases hl.resolves hm with hnull | ⟨p, hp, heq⟩
  · rw [hnull]
    rfl
  · rw [heq, Messages.stored_str hp, Messages.stored_str (hsub p hp)]

/-- Replies without a user message keep the links when those that are stored are roots without
children. -/
theorem linked_roots_iff {ids : List String} (hl : Linked ms) (hprep : Prepared ms ms' .null ids) :
    Linked ms' ∧ KeepsLinks ms ms' ↔ RepliesFit ms .null ids := by
  constructor
  · rintro ⟨-, hkeeps⟩
    exact hkeeps.repliesFit hprep.reply
  · intro hfit
    -- what is no reply is as before
    have hother : ∀ k, k ∉ ids → ms'.get? k = ms.get? k := by
      intro k hk
      have hnone :
        ∀ m : Message, (if Json.null = .str k ∧ k ≠ "" then listChildren m ids else m) = m :=
        fun m => if_neg fun h => by cases h.1
      rw [hprep.other k hk]
      simp only [hnone, Option.map_id']
    have hsub : ∀ k ∈ ms, k ∈ ms' := fun k hk => (hprep.mem k).mpr (Or.inl hk)
    have hkeeps : ∀ k m, ms.get? k = some m → ∃ m', ms'.get? k = some m' ∧
        m'.get "parentId" = m.get "parentId" ∧ childrenIds m' = childrenIds m := by
      intro k m hm
      by_cases hk : k ∈ ids
      · obtain ⟨n, hn, hparent, hchildren⟩ := hprep.reply k hk
        obtain ⟨hroot, hleaf⟩ := hfit k hk m hm
        refine ⟨n, hn, hparent.trans hroot.symm, ?_⟩
        rw [hleaf, childrenIds, Obj.get_of_lookup hchildren]
        rfl
      · exact ⟨m, (hother k hk).trans hm, rfl, rfl⟩
    -- so every parent is as before
    have hparentOf : ∀ k, ms'.parentOf k = ms.parentOf k := by
      intro k
      by_cases hk : k ∈ ms
      · obtain ⟨m, hm⟩ := (Dict.mem_iff_exists _ _).mp hk
        obtain ⟨m', hm', hparent, -⟩ := hkeeps k m hm
        exact hl.parentOf_of_parent hsub hm hm' hparent
      · rw [Messages.parentOf_of_not_mem hk]
        by_cases hid : k ∈ ids
        · obtain ⟨n, hn, hparent, -⟩ := hprep.reply k hid
          rw [Messages.parentOf_of_get? hn, hparent]
          rfl
        · exact Messages.parentOf_of_not_mem fun hin => ((hprep.mem k).mp hin).elim hk hid
    -- a reply that is new is a root without children
    have hnew : ∀ {k m'}, ms'.get? k = some m' → (∃ m, ms.get? k = some m ∧
        m'.get "parentId" = m.get "parentId" ∧ childrenIds m' = childrenIds m) ∨
        k ∉ ms ∧ m'.get "parentId" = .null ∧ childrenIds m' = [] := by
      intro k m' hm'
      by_cases hk : k ∈ ms
      · obtain ⟨m, hm⟩ := (Dict.mem_iff_exists _ _).mp hk
        obtain ⟨n, hn, hlinks⟩ := hkeeps k m hm
        rw [hm'] at hn
        obtain rfl := Option.some.inj hn
        exact Or.inl ⟨m, hm, hlinks⟩
      · have hid : k ∈ ids := ((hprep.mem k).mp (Dict.mem_of_get? hm')).resolve_left hk
        obtain ⟨n, hn, hparent, hchildren⟩ := hprep.reply k hid
        rw [hm'] at hn
        obtain rfl := Option.some.inj hn
        refine Or.inr ⟨hk, hparent, ?_⟩
        rw [childrenIds, Obj.get_of_lookup hchildren]
        rfl
    -- the five conditions of the new table, then the links kept
    refine ⟨⟨?_, ?_, ?_, ?_, ?_⟩, fun k m hm => ?_⟩
    · intro k m' hm'
      rcases hnew hm' with ⟨m, hm, hparent, -⟩ | ⟨-, hnull, -⟩
      · rw [hparent]
        refine (hl.resolves hm).imp_right fun hstored => ?_
        obtain ⟨p, hp, heq⟩ := hstored
        exact ⟨p, hsub p hp, heq⟩
      · exact Or.inl hnull
    · exact hl.acyclic.mono fun c p hc => hparentOf c ▸ hc
    · intro k m' hm'
      by_cases hk : k ∈ ids
      · obtain ⟨n, hn, -, hchildren⟩ := hprep.reply k hk
        rw [hm'] at hn
        obtain rfl := Option.some.inj hn
        exact Or.inr ⟨[], hchildren⟩
      · rw [hother k hk] at hm'
        exact hl.lists hm'
    · intro k m' hm'
      rcases hnew hm' with ⟨m, hm, -, hchildren⟩ | ⟨-, -, hnil⟩
      · rw [hchildren]
        exact hl.nodup hm
      · rw [hnil]
        exact List.nodup_nil
    · intro k m' hm' x
      simp only [hparentOf]
      rcases hnew hm' with ⟨m, hm, -, hchildren⟩ | ⟨hk, -, hnil⟩
      · rw [hchildren]
        exact hl.children hm x
      · rw [hnil]
        refine ⟨fun hx => absurd hx List.not_mem_nil, ?_⟩
        rintro ⟨c, -, hc⟩
        exact absurd (Messages.mem_of_parentOf hc).2 hk
    · obtain ⟨m', hm', hparent, hchildren⟩ := hkeeps k m hm
      exact ⟨m', hm', hparent, fun x hx => hchildren ▸ hx⟩

/-! ## Replies to a user message -/

/-- The message `n` that is stored for the user keeps the links: it hangs where it was, or from a
stored message, and lists no other children than before and the replies. -/
structure Placed (ms : Messages) (u : String) (n : Message) (ids : List String) : Prop where
  parent : (∃ m, ms.get? u = some m ∧ n.get "parentId" = m.get "parentId") ∨
    u ∉ ms ∧ (n.get "parentId" = .null ∨ ∃ p ∈ ms, p ≠ "" ∧ n.get "parentId" = .str p)
  list : HasChildList n ∨ ids ≠ []
  nodup : (childrenIds n).Nodup
  children : ∀ x, x ∈ childrenIds n ∨ x ∈ ids.map Json.str ↔
    x ∈ childrenIds ((ms.get? u).getD []) ∨ x ∈ ids.map Json.str

/-- What a turn does to the messages: `n` is stored under `u` and listed below its parent, and the
replies are prepared. -/
structure Turned (ms ms' : Messages) (u : String) (n : Message) (ids : List String) : Prop where
  mem : ∀ k, k ∈ ms' ↔ k = u ∨ k ∈ ms ∨ k ∈ ids
  fresh : u ∉ ids
  user : ms'.get? u = some
    (listChildren (if n.get "parentId" = .str u ∧ u ≠ "" then listChild n u else n) ids)
  reply : ∀ k ∈ ids, ∃ m, ms'.get? k = some m ∧ m.get "parentId" = .str u ∧
    m.lookup "childrenIds" = some (.arr [])
  other : ∀ k, k ≠ u → k ∉ ids → ms'.get? k =
    (ms.get? k).map fun m => if n.get "parentId" = .str k ∧ k ≠ "" then listChild m u else m

variable {u : String} {n : Message} {ids : List String}

/-- A message that was sent, with its replies prepared. -/
theorem Turned.of_prepared {ms₁ : Messages} (hu : u ≠ "") (hfresh : u ∉ ids)
    (hsent : ∀ k, ms₁.get? k = ((ms.set u n).get? k).map fun m =>
      if n.get "parentId" = .str k ∧ k ≠ "" then listChild m u else m)
    (hprep : Prepared ms₁ ms' (.str u) ids) : Turned ms ms' u n ids where
  mem k := by
    rw [hprep.mem, Dict.mem_iff, hsent, Option.isSome_map, Dict.get?_set, ← or_assoc]
    split_ifs with hk
    · simp [hk]
    · rw [← Dict.mem_iff]
      simp [hk]
  fresh := hfresh
  user := by
    rw [hprep.other u hfresh, hsent, Dict.get?_set_self, Option.map_some, Option.map_some,
      if_pos ⟨rfl, hu⟩]
  reply := hprep.reply
  other k hk hid := by
    have hne :
      ∀ m : Message, (if Json.str u = .str k ∧ k ≠ "" then listChildren m ids else m) = m :=
      fun m => if_neg fun h => hk (Json.str.inj h.1).symm
    rw [hprep.other k hid, hsent, Dict.get?_set_ne _ _ hk]
    simp only [hne, Option.map_id']

section Turned

variable (ht : Turned ms ms' u n ids)

include ht

/-- No message is lost. -/
theorem Turned.sub : ∀ k ∈ ms, k ∈ ms' := fun k hk => (ht.mem k).mpr (Or.inr (Or.inl hk))

/-- The user's message is stored. -/
theorem Turned.mem_user : u ∈ ms' := (ht.mem u).mpr (Or.inl rfl)

/-- A reply links to the user's message. -/
theorem Turned.parentOf_reply {k : String} (hk : k ∈ ids) : ms'.parentOf k = some u := by
  obtain ⟨m, hm, hparent, -⟩ := ht.reply k hk
  rw [Messages.parentOf_of_get? hm, hparent, Messages.stored_str ht.mem_user]

/-- The other links stay. -/
theorem Turned.parentOf_other (hl : Linked ms) {k : String} (hk : k ≠ u) (hid : k ∉ ids) :
    ms'.parentOf k = ms.parentOf k := by
  by_cases hmem : k ∈ ms
  · obtain ⟨m, hm⟩ := (Dict.mem_iff_exists _ _).mp hmem
    have hm' := ht.other k hk hid
    rw [hm, Option.map_some] at hm'
    refine hl.parentOf_of_parent ht.sub hm hm' ?_
    split_ifs
    · exact listChild_get m u (by decide)
    · rfl
  · rw [Messages.parentOf_of_not_mem hmem]
    refine Messages.parentOf_of_not_mem fun hin => ?_
    rcases (ht.mem k).mp hin with rfl | hin | hin
    · exact hk rfl
    · exact hmem hin
    · exact hid hin

/-- The user's message keeps the link it was sent with. -/
theorem Turned.user_parent : ∃ m, ms'.get? u = some m ∧ m.get "parentId" = n.get "parentId" := by
  refine ⟨_, ht.user, ?_⟩
  rw [listChildren_get ids (by decide)]
  split_ifs
  · exact listChild_get n u (by decide)
  · rfl

/-- The parent of the user's message is the one it names, if stored. -/
theorem Turned.parentOf_user : ms'.parentOf u = ms'.stored (n.get "parentId") := by
  obtain ⟨m, hm, hparent⟩ := ht.user_parent
  rw [Messages.parentOf_of_get? hm, hparent]

/-- The user message, unless it hangs from itself. -/
theorem Turned.user_of_ne (hne : n.get "parentId" ≠ .str u) :
    ms'.get? u = some (listChildren n ids) := by
  rw [ht.user, if_neg fun h => hne h.1]

/-- What the final links say of the parts of the turn. -/
theorem Turned.placed (hl : Linked ms) (hl' : Linked ms') (hkeeps : KeepsLinks ms ms') :
    Placed ms u n ids := by
  have hself : n.get "parentId" ≠ .str u := by
    intro heq
    refine hl'.acyclic.ne_parent (c := u) (p := u) ?_ rfl
    rw [ht.parentOf_user, heq, Messages.stored_str ht.mem_user]
  have huser := ht.user_of_ne hself
  refine ⟨?_, hasChildList_listChildren.mp (hl'.lists huser),
    (nodup_listChildren ids n).mp (hl'.nodup huser),
    fun x => ?_⟩
  · obtain ⟨m', hm', hparent⟩ := ht.user_parent
    by_cases hu : u ∈ ms
    · obtain ⟨m, hm⟩ := (Dict.mem_iff_exists _ _).mp hu
      obtain ⟨n', hn', hsame, -⟩ := hkeeps u m hm
      rw [hm'] at hn'
      obtain rfl := Option.some.inj hn'
      exact Or.inl ⟨m, hm, hparent.symm.trans hsame⟩
    · refine Or.inr ⟨hu, ?_⟩
      rw [← hparent]
      refine (hl'.resolves hm').imp_right ?_
      rintro ⟨p, hp, heq⟩
      have hup : ms'.parentOf u = some p := by
        rw [Messages.parentOf_of_get? hm', heq, Messages.stored_str hp]
      have hid : p ∉ ids := fun hid =>
        hl'.acyclic.asymm (.single hup) (.single (ht.parentOf_reply hid))
      have hpu : p ≠ u := fun h => hself (hparent.symm.trans (h ▸ heq))
      have hin : p ∈ ms := (((ht.mem p).mp hp).resolve_left hpu).resolve_right hid
      refine ⟨p, hin, ?_, heq⟩
      -- nothing is listed below an empty id
      rintro rfl
      obtain ⟨m, hm⟩ := (Dict.mem_iff_exists _ _).mp hin
      have hm'' := ht.other "" hpu hid
      rw [hm, Option.map_some, if_neg fun h => h.2 rfl] at hm''
      obtain ⟨c, hc, hcp⟩ := (hl.children hm _).mp ((hl'.children hm'' _).mpr ⟨u, rfl, hup⟩)
      rw [← Json.str.inj hc] at hcp
      exact hu (Messages.mem_of_parentOf hcp).1
  · rw [← mem_childrenIds_listChildren, hl'.children huser, hl.mem_children]
    constructor
    · rintro ⟨c, rfl, hc⟩
      by_cases hid : c ∈ ids
      · exact Or.inr (List.mem_map_of_mem hid)
      · have hcu : c ≠ u := hl'.acyclic.ne_parent hc
        rw [ht.parentOf_other hl hcu hid] at hc
        exact Or.inl ⟨c, rfl, hc⟩
    · rintro (⟨c, rfl, hc⟩ | hx)
      · by_cases hid : c ∈ ids
        · exact ⟨c, rfl, ht.parentOf_reply hid⟩
        · have hcu : c ≠ u := hl.acyclic.ne_parent hc
          exact ⟨c, rfl, (ht.parentOf_other hl hcu hid).trans hc⟩
      · obtain ⟨c, hid, rfl⟩ := List.mem_map.mp hx
        exact ⟨c, rfl, ht.parentOf_reply hid⟩

/-- Where the user message hangs. -/
theorem Turned.user_hangs (hl : Linked ms) (hfit : RepliesFit ms (.str u) ids)
    (hplaced : Placed ms u n ids) :
    n.get "parentId" ≠ .str u ∧ (n.get "parentId" = .null ∨
      ∃ p ∈ ms, p ∉ ids ∧ (u ∉ ms → p ≠ "") ∧ n.get "parentId" = .str p) ∧
      (u ∈ ms → ms'.parentOf u = ms.parentOf u) := by
  rcases hplaced.parent with ⟨m, hm, hparent⟩ | ⟨hu, hparent⟩
  · obtain ⟨m', hm', hparent'⟩ := ht.user_parent
    have hsame := hl.parentOf_of_parent ht.sub hm hm' (hparent'.trans hparent)
    have hup : ∀ p ∈ ms, n.get "parentId" = .str p → ms.parentOf u = some p := by
      intro p hp heq
      rw [Messages.parentOf_of_get? hm, ← hparent, heq, Messages.stored_str hp]
    refine ⟨fun heq => ?_, ?_, fun _ => hsame⟩
    · exact hl.acyclic.ne_parent (hup u (Dict.mem_of_get? hm) heq) rfl
    · rw [hparent]
      refine (hl.resolves hm).imp_right ?_
      rintro ⟨p, hp, heq⟩
      refine ⟨p, hp, fun hid => ?_, fun hu => absurd (Dict.mem_of_get? hm) hu, heq⟩
      exact hfit.childless hl hid (hup p hp (hparent.trans heq))
  · refine ⟨fun heq => ?_, hparent.imp_right ?_, fun hin => absurd hin hu⟩
    · rw [heq] at hparent
      rcases hparent with hnull | ⟨p, hp, -, heq'⟩
      · cases hnull
      · exact hu (Json.str.inj heq' ▸ hp)
    · rintro ⟨p, hp, hne, heq⟩
      refine ⟨p, hp, fun hid => ?_, fun _ => hne, heq⟩
      -- a stored reply hangs from a stored message
      obtain ⟨m, hm⟩ := (Dict.mem_iff_exists _ _).mp hp
      rcases hl.resolves hm with hnull | ⟨q, hq, hparent⟩
      · rw [(hfit p hid m hm).1] at hnull
        cases hnull
      · rw [(hfit p hid m hm).1] at hparent
        exact hu (Json.str.inj hparent ▸ hq)

section Fits

variable (hl : Linked ms) (hfit : RepliesFit ms (.str u) ids) (hplaced : Placed ms u n ids)

include hl hfit hplaced

/-- The parent of the user's message was there before the turn. -/
theorem Turned.user_below {p : String} (hp : ms'.parentOf u = some p) :
    p ∈ ms ∧ p ∉ ids ∧ (u ∉ ms → p ≠ "") ∧ n.get "parentId" = .str p := by
  rw [ht.parentOf_user] at hp
  obtain ⟨heq, -⟩ := Messages.stored_eq_some.mp hp
  rcases (ht.user_hangs hl hfit hplaced).2.1 with hnull | ⟨q, hq, hid, hne, heq'⟩
  · rw [hnull] at heq
    cases heq
  · obtain rfl := Json.str.inj (heq.symm.trans heq')
    exact ⟨hq, hid, hne, heq⟩

/-- The user's message is not its own parent. -/
theorem Turned.user_ne_own : ms'.parentOf u ≠ some u := fun h =>
  (ht.user_hangs hl hfit hplaced).1 (ht.user_below hl hfit hplaced h).2.2.2

omit hfit hplaced in
/-- The links after a turn: of a reply, of the user message, and the old ones. -/
theorem Turned.parentOf_cases {c p : String} (hc : ms'.parentOf c = some p) :
    c ∈ ids ∧ p = u ∨ c = u ∧ ms'.parentOf u = some p ∨ c ≠ u ∧ c ∉ ids ∧
      ms.parentOf c = some p := by
  by_cases hid : c ∈ ids
  · exact Or.inl ⟨hid, (Option.some.inj ((ht.parentOf_reply hid).symm.trans hc)).symm⟩
  · by_cases hcu : c = u
    · exact Or.inr (Or.inl ⟨hcu, hcu ▸ hc⟩)
    · exact Or.inr (Or.inr ⟨hcu, hid, ht.parentOf_other hl hcu hid ▸ hc⟩)

/-- A reply has no children. -/
theorem Turned.reply_leaf {k : String} (hk : k ∈ ids) (c : String) : ms'.parentOf c ≠ some k := by
  intro hc
  rcases ht.parentOf_cases hl hc with ⟨-, rfl⟩ | ⟨-, h⟩ | ⟨-, -, h⟩
  · exact ht.fresh hk
  · exact (ht.user_below hl hfit hplaced h).2.1 hk
  · exact hfit.childless hl hk h

/-- The turn closes no loop. -/
theorem Turned.acyclic : Forest.Acyclic ms'.parentOf := by
  -- first the user message, then the replies, which are leaves
  have huser : Forest.Acyclic fun c => if c = u then ms'.parentOf u else ms.parentOf c := by
    by_cases hu : u ∈ ms
    · have heq : (fun c => if c = u then ms'.parentOf u else ms.parentOf c) = ms.parentOf := by
        funext c
        by_cases hcu : c = u
        · rw [if_pos hcu, (ht.user_hangs hl hfit hplaced).2.2 hu, hcu]
        · rw [if_neg hcu]
      rw [heq]
      exact hl.acyclic
    · refine hl.acyclic.add_leaf (x := u) (fun c hc => ?_) fun c hc => if_neg hc
      by_cases hcu : c = u
      · rw [if_pos hcu] at hc
        exact ht.user_ne_own hl hfit hplaced hc
      · rw [if_neg hcu] at hc
        exact hu (Messages.mem_of_parentOf hc).2
  refine huser.add_leaves (S := {k | k ∈ ids}) (fun c x hx => ?_) fun c hc => ?_
  · exact ht.reply_leaf hl hfit hplaced hx c
  · by_cases hcu : c = u
    · rw [if_pos hcu, hcu]
    · rw [if_neg hcu, ht.parentOf_other hl hcu hc]

/-- A message that is neither the user's nor a reply lists what it listed, and the user message
where that is new below it. -/
theorem Turned.other_links {k : String} {m' : Message} (hk : k ≠ u) (hid : k ∉ ids)
    (hm' : ms'.get? k = some m') : ∃ m, ms.get? k = some m ∧ m'.get "parentId" = m.get "parentId" ∧
      HasChildList m' ∧ (childrenIds m').Nodup ∧
      ∀ x, x ∈ childrenIds m' ↔ x ∈ childrenIds m ∨ u ∉ ms ∧ x = .str u ∧
        ms'.parentOf u = some k := by
  rw [ht.other k hk hid] at hm'
  obtain ⟨m, hm, rfl⟩ := Option.map_eq_some_iff.mp hm'
  refine ⟨m, hm, ?_⟩
  by_cases hpk : n.get "parentId" = .str k ∧ k ≠ ""
  · rw [if_pos hpk]
    refine ⟨listChild_get m u (by decide), hasChildList_listChild m u,
      nodup_listChild.mpr (hl.nodup hm),
      fun x => ?_⟩
    have huk : ms'.parentOf u = some k := by
      rw [ht.parentOf_user, hpk.1, Messages.stored_str (ht.sub k (Dict.mem_of_get? hm))]
    rw [mem_childrenIds_listChild]
    refine or_congr_right' fun hx => ⟨fun hxu => ⟨fun hu => hx ?_, hxu, huk⟩, fun h => h.2.1⟩
    rw [hxu, hl.children hm]
    exact ⟨u, rfl, (ht.user_hangs hl hfit hplaced).2.2 hu ▸ huk⟩
  · rw [if_neg hpk]
    refine ⟨rfl, hl.lists hm, hl.nodup hm, fun x => ⟨Or.inl, ?_⟩⟩
    rintro (hx | ⟨hu, -, huk⟩)
    · exact hx
    · obtain ⟨-, -, hne, heq⟩ := ht.user_below hl hfit hplaced huk
      exact absurd ⟨heq, hne hu⟩ hpk

/-- The user's message lists its replies. -/
theorem Turned.children_user (x : Json) :
    x ∈ childrenIds (listChildren n ids) ↔ ∃ c, x = .str c ∧ ms'.parentOf c = some u := by
  rw [mem_childrenIds_listChildren, hplaced.children, hl.mem_children]
  constructor
  · rintro (⟨c, rfl, hc⟩ | hx)
    · by_cases hid : c ∈ ids
      · exact ⟨c, rfl, ht.parentOf_reply hid⟩
      · exact ⟨c, rfl, (ht.parentOf_other hl (hl.acyclic.ne_parent hc) hid).trans hc⟩
    · obtain ⟨c, hid, rfl⟩ := List.mem_map.mp hx
      exact ⟨c, rfl, ht.parentOf_reply hid⟩
  · rintro ⟨c, rfl, hc⟩
    rcases ht.parentOf_cases hl hc with ⟨hid, -⟩ | ⟨-, h⟩ | ⟨-, -, h⟩
    · exact Or.inr (List.mem_map_of_mem hid)
    · exact absurd h (ht.user_ne_own hl hfit hplaced)
    · exact Or.inl ⟨c, rfl, h⟩

/-- Every other message lists its children. -/
theorem Turned.children_other {k : String} {m' : Message} (hk : k ≠ u) (hid : k ∉ ids)
    (hm' : ms'.get? k = some m') (x : Json) :
    x ∈ childrenIds m' ↔ ∃ c, x = .str c ∧ ms'.parentOf c = some k := by
  obtain ⟨m, hm, -, -, -, hchildren⟩ := ht.other_links hl hfit hplaced hk hid hm'
  rw [hchildren, hl.children hm]
  constructor
  · rintro (⟨c, rfl, hc⟩ | ⟨-, rfl, hc⟩)
    · by_cases hcid : c ∈ ids
      · -- a stored reply hangs from the user message
        exfalso
        obtain ⟨r, hr⟩ := (Dict.mem_iff_exists _ _).mp (Messages.mem_of_parentOf hc).1
        rw [Messages.parentOf_of_get? hr, (hfit c hcid r hr).1] at hc
        exact hk (Json.str.inj (Messages.stored_eq_some.mp hc).1).symm
      · by_cases hcu : c = u
        · rw [hcu] at hc
          have hsame := (ht.user_hangs hl hfit hplaced).2.2 (Messages.mem_of_parentOf hc).1
          exact ⟨c, rfl, by rw [hcu, hsame, hc]⟩
        · exact ⟨c, rfl, (ht.parentOf_other hl hcu hcid).trans hc⟩
    · exact ⟨u, rfl, hc⟩
  · rintro ⟨c, rfl, hc⟩
    rcases ht.parentOf_cases hl hc with ⟨-, h⟩ | ⟨rfl, h⟩ | ⟨-, -, h⟩
    · exact absurd h hk
    · by_cases hu : c ∈ ms
      · exact Or.inl ⟨c, rfl, ((ht.user_hangs hl hfit hplaced).2.2 hu).symm.trans h⟩
      · exact Or.inr ⟨hu, rfl, h⟩
    · exact Or.inl ⟨c, rfl, h⟩

/-- The turn keeps the links. -/
theorem Turned.linked : Linked ms' := by
  have huser := ht.user_of_ne (ht.user_hangs hl hfit hplaced).1
  -- a message of the new map is a reply, the user's, or an old one
  have hreply : ∀ {k m'}, k ∈ ids → ms'.get? k = some m' →
      m'.get "parentId" = .str u ∧ m'.lookup "childrenIds" = some (.arr []) := by
    intro k m' hid hm'
    obtain ⟨m, hm, hlinks⟩ := ht.reply k hid
    rw [hm'] at hm
    exact Option.some.inj hm ▸ hlinks
  refine ⟨?_, ht.acyclic hl hfit hplaced, ?_, ?_, ?_⟩
  · intro k m' hm'
    by_cases hid : k ∈ ids
    · exact Or.inr ⟨u, ht.mem_user, (hreply hid hm').1⟩
    · by_cases hk : k = u
      · obtain ⟨m, hm, hparent⟩ := ht.user_parent
        rw [hk, hm] at hm'
        rw [← Option.some.inj hm', hparent]
        refine (ht.user_hangs hl hfit hplaced).2.1.imp_right ?_
        rintro ⟨p, hp, -, -, heq⟩
        exact ⟨p, ht.sub p hp, heq⟩
      · obtain ⟨m, hm, hparent, -⟩ := ht.other_links hl hfit hplaced hk hid hm'
        rw [hparent]
        refine (hl.resolves hm).imp_right ?_
        rintro ⟨p, hp, heq⟩
        exact ⟨p, ht.sub p hp, heq⟩
  · intro k m' hm'
    by_cases hid : k ∈ ids
    · exact Or.inr ⟨[], (hreply hid hm').2⟩
    · by_cases hk : k = u
      · rw [hk, huser] at hm'
        rw [← Option.some.inj hm']
        exact hasChildList_listChildren.mpr hplaced.list
      · obtain ⟨m, -, -, hlist, -⟩ := ht.other_links hl hfit hplaced hk hid hm'
        exact hlist
  · intro k m' hm'
    by_cases hid : k ∈ ids
    · rw [childrenIds, Obj.get_of_lookup (hreply hid hm').2]
      exact List.nodup_nil
    · by_cases hk : k = u
      · rw [hk, huser] at hm'
        rw [← Option.some.inj hm']
        exact (nodup_listChildren ids n).mpr hplaced.nodup
      · obtain ⟨m, -, -, -, hnodup, -⟩ := ht.other_links hl hfit hplaced hk hid hm'
        exact hnodup
  · intro k m' hm' x
    by_cases hid : k ∈ ids
    · rw [childrenIds, Obj.get_of_lookup (hreply hid hm').2]
      refine ⟨fun hx => absurd hx List.not_mem_nil, ?_⟩
      rintro ⟨c, -, hc⟩
      exact absurd hc (ht.reply_leaf hl hfit hplaced hid c)
    · by_cases hk : k = u
      · rw [hk, huser] at hm'
        rw [← Option.some.inj hm', hk]
        exact ht.children_user hl hfit hplaced x
      · exact ht.children_other hl hfit hplaced hk hid hm' x

/-- The turn keeps what was linked. -/
theorem Turned.keepsLinks : KeepsLinks ms ms' := by
  intro k m hm
  by_cases hid : k ∈ ids
  · obtain ⟨m', hm', hparent, -⟩ := ht.reply k hid
    obtain ⟨hroot, hnil⟩ := hfit k hid m hm
    refine ⟨m', hm', hparent.trans hroot.symm, fun x hx => ?_⟩
    rw [hnil] at hx
    exact absurd hx List.not_mem_nil
  · by_cases hk : k = u
    · rw [hk] at hm ⊢
      refine ⟨_, ht.user_of_ne (ht.user_hangs hl hfit hplaced).1, ?_, fun x hx => ?_⟩
      · rw [listChildren_get ids (by decide)]
        rcases hplaced.parent with ⟨m₁, hm₁, hparent⟩ | ⟨hu, -⟩
        · rw [hm] at hm₁
          rw [hparent, Option.some.inj hm₁]
        · exact absurd (Dict.mem_of_get? hm) hu
      · rw [mem_childrenIds_listChildren, hplaced.children, hm]
        exact Or.inl hx
    · obtain ⟨m', hm'⟩ := (Dict.mem_iff_exists _ _).mp (ht.sub k (Dict.mem_of_get? hm))
      obtain ⟨m₁, hm₁, hparent, -, -, hchildren⟩ := ht.other_links hl hfit hplaced hk hid hm'
      rw [hm] at hm₁
      obtain rfl := Option.some.inj hm₁
      exact ⟨m', hm', hparent, fun x hx => (hchildren x).mpr (Or.inl hx)⟩

end Fits

end Turned

end OpenWebUI.Chat
