import OpenWebUI.Chat.HistoryRuns
import OpenWebUI.Chat.TurnLinks

/-! # When a turn keeps the links

`insert_chat_turn` on any well-linked history: the stored history is well linked again, with the
old links, exactly when the replies and the user message of the turn fit.
-/

namespace OpenWebUI.Chat

open Py

variable {owner : String} {user : TurnUser} {userMessage : Obj} {now : ℚ} {ms : Messages}
  {u : String} {sent : Message} {ids : List String} {h h' : History} {replies : List TurnReply}

/-! ## The user message -/

/-- The message that a turn writes for the user, over the stored one where there is one. -/
def sentMessage (owner : String) (user : TurnUser) (ms : Messages) (userMessage : Obj) (u : String)
    (now : ℚ) : Message :=
  cleanMessage (match (ms.get? u).filter (· ≠ []) with
    | none => postedMessage owner user userMessage u (userMessage.get "parentId") now
    | some m =>
      if Assoc.has userMessage "models" ∧ (Obj.get m "user_id").or (.str owner) = .str user.id then
        Assoc.set m "models" (userMessage.get "models")
      else m)

/-- A posted message is an upsert. -/
theorem postUserMessage_some (hpost : postUserMessage owner user h userMessage u now = some h') :
    h' = upsertMessageToHistory h u (sentMessage owner user h.messages userMessage u now) now := by
  unfold postUserMessage at hpost
  dsimp only at hpost
  split_ifs at hpost
  rw [← Option.some.inj hpost, sentMessage]
  cases (h.messages.get? u).filter (· ≠ []) with
  | none => rfl
  | some m => rfl

/-- The user message that is written keeps the links: over a stored message it leaves the parent,
a new one has no parent or one that is stored under an id; and it lists no other children than
were listed, apart from the replies of the turn. -/
structure UserFits (ms : Messages) (u : String) (sent : Message) (ids : List String) : Prop where
  parent : match ms.get? u with
    | some m => Obj.get (Assoc.update m sent) "parentId" = Obj.get m "parentId"
    | none => sent.get "parentId" = .null ∨ ∃ p ∈ ms, p ≠ "" ∧ sent.get "parentId" = .str p
  list : ∀ m, ms.get? u = some m → HasChildList (Assoc.update m sent) ∨ ids ≠ []
  nodup : (childrenIds (Assoc.update ((ms.get? u).getD []) sent)).Nodup
  children : ∀ x, x ∈ childrenIds (Assoc.update ((ms.get? u).getD []) sent) ∨ x ∈ ids.map Json.str ↔
    x ∈ childrenIds ((ms.get? u).getD []) ∨ x ∈ ids.map Json.str

theorem childrenIds_newMessage (ms : Messages) (u : String) (sent : Message) (now : ℚ) :
    childrenIds (newMessage ms u sent now) = childrenIds sent := by
  rw [childrenIds, newMessage, Obj.get_update_of_present rfl]
  rfl

theorem hasChildList_newMessage (ms : Messages) (u : String) (sent : Message) (now : ℚ) :
    HasChildList (newMessage ms u sent now) := by
  refine Or.inr ⟨childrenIds sent, ?_⟩
  rw [newMessage, Assoc.lookup_update]
  rfl

theorem childrenIds_update_nil (sent : Message) :
    childrenIds (Assoc.update [] sent) = childrenIds sent := by
  refine childrenIds_congr ?_
  rw [Assoc.lookup_update]
  exact Option.or_none

/-- What the written message fits is what the stored one is placed by. -/
theorem placed_iff (hl : Linked ms) :
    Placed ms u (upserted ms u sent now) ids ↔ UserFits ms u sent ids := by
  cases hm : ms.get? u with
  | none =>
      have hu : u ∉ ms := (Dict.get?_eq_none_iff _ _).mp hm
      -- a message that is new is made of what is sent, and its parent is stored or none
      have hparent : (newMessage ms u sent now).get "parentId" = sent.get "parentId" :=
        (newMessage_parentId ms u sent now).trans (parentOfNew_linked hl hu sent)
      rw [upserted_new hu]
      constructor
      · rintro ⟨hhangs, -, hnodup, hchildren⟩
        rw [hparent] at hhangs
        rw [childrenIds_newMessage] at hnodup
        simp only [childrenIds_newMessage] at hchildren
        refine ⟨?_, fun m hm' => ?_, ?_, ?_⟩
        · rw [hm]
          rcases hhangs with ⟨m, hm', -⟩ | ⟨-, hhangs⟩
          · rw [hm] at hm'
            cases hm'
          · exact hhangs
        · rw [hm] at hm'
          cases hm'
        · rw [hm, Option.getD_none, childrenIds_update_nil]
          exact hnodup
        · rw [hm, Option.getD_none, childrenIds_update_nil]
          rw [hm, Option.getD_none] at hchildren
          exact hchildren
      · rintro ⟨hhangs, -, hnodup, hchildren⟩
        rw [hm] at hhangs
        rw [hm, Option.getD_none, childrenIds_update_nil] at hnodup hchildren
        refine ⟨Or.inr ⟨hu, ?_⟩, Or.inl (hasChildList_newMessage ms u sent now), ?_, ?_⟩
        · rw [hparent]
          exact hhangs
        · rw [childrenIds_newMessage]
          exact hnodup
        · rw [childrenIds_newMessage, hm, Option.getD_none]
          exact hchildren
  | some m =>
      -- the fields of a stored message are overwritten by those sent
      have hlookup : ∀ f, f ≠ "meta" →
          (upserted ms u sent now).lookup f = (Assoc.update m sent).lookup f := by
        intro f hf
        rw [upserted_lookup hm hf, Assoc.lookup_update]
      have hparent :
        (upserted ms u sent now).get "parentId" = Obj.get (Assoc.update m sent) "parentId" := by
        rw [Obj.get, hlookup _ (by decide), Obj.get]
      have hchildren : childrenIds (upserted ms u sent now) = childrenIds (Assoc.update m sent) :=
        childrenIds_congr (hlookup _ (by decide))
      have hlist : HasChildList (upserted ms u sent now) ↔ HasChildList (Assoc.update m sent) := by
        rw [HasChildList, HasChildList, hlookup _ (by decide)]
      constructor
      · rintro ⟨hhangs, hlists, hnodup, hsame⟩
        rw [hm, Option.getD_some] at hsame
        refine ⟨?_, fun m' hm' => ?_, ?_, ?_⟩
        · rw [hm]
          rcases hhangs with ⟨m', hm', heq⟩ | ⟨hu, -⟩
          · rw [hm] at hm'
            rw [← Option.some.inj hm', hparent] at heq
            exact heq
          · exact absurd (Dict.mem_of_get? hm) hu
        · rw [hm] at hm'
          rw [← Option.some.inj hm', ← hlist]
          exact hlists
        · rw [hm, Option.getD_some, ← hchildren]
          exact hnodup
        · rw [hm, Option.getD_some, ← hchildren]
          exact hsame
      · rintro ⟨hhangs, hlists, hnodup, hsame⟩
        rw [hm] at hhangs
        rw [hm, Option.getD_some, ← hchildren] at hnodup hsame
        refine ⟨Or.inl ⟨m, hm, hparent.trans hhangs⟩, ?_, hnodup, ?_⟩
        · rw [hlist]
          exact hlists m hm
        · rw [hm, Option.getD_some]
          exact hsame

/-- Over a stored message without null characters a turn writes the same links. -/
theorem userFits_stored (hl : Linked ms) {m : Message} (hm : ms.get? u = some m) (hne : m ≠ [])
    (hclean : Clean (.obj m)) :
    UserFits ms u (sentMessage owner user ms userMessage u now) ids := by
  have hkept : ∀ f, f ≠ "models" →
      (Assoc.update m (sentMessage owner user ms userMessage u now)).lookup f = m.lookup f := by
    intro f hf
    have hvalue : (m.lookup f).map cleanNullBytes = m.lookup f := by
      cases hv : m.lookup f with
      | none => rfl
      | some v => rw [Option.map_some, (hclean.lookup hv).cleanNullBytes_eq]
    have hsent : (sentMessage owner user ms userMessage u now).lookup f = m.lookup f := by
      have htidy : Tidy m := ⟨hclean.nodup, fun k hk => hclean.nulFree hk⟩
      rw [sentMessage, hm, Option.filter_some, if_pos (by simpa using hne)]
      dsimp only
      split_ifs
      · rw [lookup_cleanMessage (htidy.set (by decide)), Assoc.lookup_set_ne _ _ hf, hvalue]
      · rw [lookup_cleanMessage htidy, hvalue]
    rw [Assoc.lookup_update, hsent, Option.or_self]
  have hchildren : childrenIds (Assoc.update m (sentMessage owner user ms userMessage u now)) =
      childrenIds m := childrenIds_congr (hkept _ (by decide))
  refine ⟨?_, fun m' hm' => Or.inl ?_, ?_, ?_⟩
  · rw [hm]
    dsimp only
    rw [Obj.get, hkept _ (by decide), Obj.get]
  · rw [hm] at hm'
    rw [← Option.some.inj hm', HasChildList, hkept _ (by decide)]
    exact hl.lists hm
  · rw [hm, Option.getD_some, hchildren]
    exact hl.nodup hm
  · rw [hm, Option.getD_some, hchildren]
    exact fun _ => Iff.rfl

/-! ## Turns -/

/-- The replies that are stored hang from the user message and have no children, and the user
message that is written keeps the links. -/
def TurnFits (owner : String) (user : TurnUser) (ms : Messages) (userMessage : Obj)
    (replies : List TurnReply) (now : ℚ) : Prop :=
  RepliesFit ms (userMessage.get "id") (replyIds replies) ∧
    ∀ u, userMessage.get "id" = .str u →
      UserFits ms u (sentMessage owner user ms userMessage u now) (replyIds replies)

theorem mem_replyIds {id : String} :
    id ∈ replyIds replies ↔ .str id ∈ replies.map TurnReply.messageId := by
  rw [replyIds, List.mem_filterMap, List.mem_map]
  refine exists_congr fun r => and_congr_right fun _ => ?_
  cases r.messageId <;> simp [Json.asStr]

theorem nodup_replyIds (h : (replies.map TurnReply.messageId).Nodup) :
    (replyIds replies).Nodup := by
  have hmap : replyIds replies = (replies.map TurnReply.messageId).filterMap Json.asStr := by
    rw [replyIds, List.filterMap_map]
    rfl
  rw [hmap]
  refine h.filterMap fun a b s ha hb => ?_
  have hstr : ∀ {x : Json}, s ∈ x.asStr → x = .str s := by
    intro x hx
    cases x <;> simp [Json.asStr] at hx
    rw [hx]
  rw [hstr ha, hstr hb]

/-- What a turn that does not raise does: with a user message it writes it and hangs the replies
from it, without one it writes the replies as roots. -/
theorem insertChatTurn_some (hl : Linked h.messages)
    (hturn : insertChatTurn owner user h userMessage replies now = some h') :
    (userMessage.get "id" = .null ∧ Prepared h.messages h'.messages .null (replyIds replies)) ∨
      ∃ u, userMessage.get "id" = .str u ∧ Turned h.messages h'.messages u
        (upserted h.messages u (sentMessage owner user h.messages userMessage u now) now)
        (replyIds replies) := by
  unfold insertChatTurn at hturn
  obtain ⟨hids, hturn⟩ := Option.ite_none_left_eq_some.mp hturn
  obtain ⟨-, hturn⟩ := Option.ite_none_left_eq_some.mp hturn
  obtain ⟨h₁, hposted, rfl⟩ := Option.map_eq_some_iff.mp hturn
  rw [not_or, not_not] at hids
  by_cases hempty : userMessage = []
  · subst hempty
    have hsame : h₁ = h := (Option.some.inj hposted).symm
    rw [hsame]
    refine Or.inl ⟨rfl, prepareReplies_get? user now replies h (nodup_replyIds hids.2)
      (fun _ _ heq => ?_) ?_⟩
    · cases heq
    · -- what a linked map lists is stored
      intro _ id _ hnew k m hm hmem
      obtain ⟨c, hc, hck⟩ := (hl.children hm _).mp hmem
      exact hnew (Json.str.inj hc ▸ (Messages.mem_of_parentOf hck).1)
  · rw [if_neg hempty] at hids
    obtain ⟨hany, hnodup⟩ := hids
    obtain ⟨hfresh, hnodup⟩ := List.nodup_cons.mp hnodup
    obtain ⟨u, hu, hne⟩ := exists_of_valid hany List.mem_cons_self
    have hfreshId : u ∉ replyIds replies := fun hmem => hfresh (hu ▸ mem_replyIds.mp hmem)
    rw [hu] at hposted
    simp only [Json.asStr_str, if_neg hempty] at hposted
    rw [postUserMessage_some hposted, hu]
    refine Or.inr ⟨u, rfl, Turned.of_prepared hne hfreshId
      (fun k => get?_upsert h u _ now k)
        (prepareReplies_get? user now replies _ (nodup_replyIds hnodup)
        (fun id hid heq => hfreshId (Json.str.inj heq ▸ hid)) fun hnull => ?_)⟩
    cases hnull

/-- After a turn the current id is stored. -/
theorem insertChatTurn_current (hcurrent : ∀ c, h.currentId = some c → c ∈ h.messages)
    (hturn : insertChatTurn owner user h userMessage replies now = some h') :
    ∀ c, h'.currentId = some c → c ∈ h'.messages := by
  unfold insertChatTurn at hturn
  obtain ⟨-, hturn⟩ := Option.ite_none_left_eq_some.mp hturn
  obtain ⟨-, hturn⟩ := Option.ite_none_left_eq_some.mp hturn
  obtain ⟨h₁, hposted, rfl⟩ := Option.map_eq_some_iff.mp hturn
  have hprepare :
    ∀ (replies : List TurnReply) (h : History), (∀ c, h.currentId = some c → c ∈ h.messages) →
      ∀ c, (replies.foldl (prepareReply user (userMessage.get "id") now) h).currentId = some c →
        c ∈ (replies.foldl (prepareReply user (userMessage.get "id") now) h).messages := by
    intro replies
    induction replies with
    | nil => exact fun h hcurrent => hcurrent
    | cons r replies ih =>
        intro h hcurrent
        refine ih _ ?_
        rw [prepareReply]
        cases r.messageId.asStr with
        | none => exact hcurrent
        | some id => exact upsert_current h id _ now hcurrent
  refine hprepare replies h₁ ?_
  cases hid : (userMessage.get "id").asStr with
  | none =>
      rw [hid] at hposted
      exact Option.some.inj hposted ▸ hcurrent
  | some u =>
      rw [hid] at hposted
      dsimp only at hposted
      split_ifs at hposted
      · exact Option.some.inj hposted ▸ hcurrent
      · rw [postUserMessage_some hposted]
        exact upsert_current h u _ now hcurrent

/-- A turn keeps a history well linked and its old links exactly when its messages fit. -/
theorem insertChatTurn_keeps_iff (hl : WellLinked h)
    (hturn : insertChatTurn owner user h userMessage replies now = some h') :
    WellLinked h' ∧ KeepsLinks h.messages h'.messages ↔
      TurnFits owner user h.messages userMessage replies now := by
  have hcurrent := insertChatTurn_current hl.current hturn
  rcases insertChatTurn_some hl.linked hturn with ⟨hnull, hprep⟩ | ⟨u, hu, ht⟩
  · rw [TurnFits, hnull]
    constructor
    · rintro ⟨hwell, hkeeps⟩
      refine ⟨(linked_roots_iff hl.linked hprep).mp ⟨hwell.linked, hkeeps⟩, fun u hu => ?_⟩
      cases hu
    · rintro ⟨hfit, -⟩
      obtain ⟨hlinked, hkeeps⟩ := (linked_roots_iff hl.linked hprep).mpr hfit
      exact ⟨⟨hlinked, hcurrent⟩, hkeeps⟩
  · rw [TurnFits, hu]
    constructor
    · rintro ⟨hwell, hkeeps⟩
      refine ⟨hkeeps.repliesFit ht.reply, fun v hv => ?_⟩
      rw [← Json.str.inj hv]
      exact (placed_iff hl.linked).mp (ht.placed hl.linked hwell.linked hkeeps)
    · rintro ⟨hfit, huser⟩
      have hplaced : Placed h.messages u (upserted h.messages u _ now) (replyIds replies) :=
        (placed_iff hl.linked).mpr (huser u rfl)
      exact ⟨⟨ht.linked hl.linked hfit hplaced, hcurrent⟩, ht.keepsLinks hl.linked hfit hplaced⟩

/-- A question and an empty reply to it. -/
def emptyReply : History :=
  upsertMessageToHistory (upsertMessageToHistory ⟨∅, none⟩ "u" [("role", .str "user")] 1) "r"
    [("parentId", .str "u"), ("role", .str "assistant")] 2

/-- The reply has been answered. -/
def answeredReply : History :=
  upsertMessageToHistory emptyReply "v" [("parentId", .str "r"), ("role", .str "user")] 3

def turnReply (id : String) : TurnReply := ⟨.str id, .str "m", .num 0⟩

theorem wellLinked_emptyReply : WellLinked emptyReply := by
  have hroot : WellLinked (upsertMessageToHistory ⟨∅, none⟩ "u" [("role", .str "user")] 1) :=
    wellLinked_upsert wellLinked_empty (by simp only [HistoryOp.Admissible]; decide)
  refine wellLinked_upsert hroot ?_
  rw [HistoryOp.Admissible, if_neg (by decide)]
  exact ⟨rfl, Or.inr ⟨"u", by decide, by decide, rfl⟩⟩

/-- The second example is well linked. -/
theorem wellLinked_answeredReply : WellLinked answeredReply := by
  refine wellLinked_upsert wellLinked_emptyReply ?_
  rw [HistoryOp.Admissible, if_neg (by decide)]
  exact ⟨rfl, Or.inr ⟨"r", by decide, by decide, rfl⟩⟩

/-- An empty reply is prepared again. -/
theorem insertChatTurn_keeps_emptyReply :
    ∃ h', insertChatTurn "o" ⟨"o", "O"⟩ emptyReply [("id", .str "u")] [turnReply "r"] 3 = some h' ∧
      WellLinked h' ∧ KeepsLinks emptyReply.messages h'.messages := by
  obtain ⟨h', hturn⟩ :
    ∃ h', insertChatTurn "o" ⟨"o", "O"⟩ emptyReply [("id", .str "u")] [turnReply "r"] 3 =
      some h' := ⟨_, rfl⟩
  refine ⟨h', hturn, (insertChatTurn_keeps_iff wellLinked_emptyReply hturn).mpr
    ⟨?_, fun u hu => ?_⟩⟩
  · intro id hid m hm
    obtain rfl : id = "r" := by simpa [replyIds, turnReply, Json.asStr] using hid
    obtain rfl := Option.some.inj (hm.symm.trans rfl)
    exact ⟨rfl, rfl⟩
  · obtain rfl : u = "u" := by
      have hu' : Json.str "u" = .str u := hu
      exact (Json.str.inj hu').symm
    have hm : emptyReply.messages.get? "u" = some [("role", .str "user"), ("id", .str "u"),
        ("parentId", .null), ("childrenIds", .arr [.str "r"]), ("timestamp", .num 1)] := by decide
    refine userFits_stored wellLinked_emptyReply.linked hm (by decide) ?_
    refine .of_members ["role", "id", "parentId", "childrenIds", "timestamp"] rfl (by decide) ?_
    simp only [List.forall_mem_cons]
    exact ⟨.str (by decide), .str (by decide), .null,
      .arr (List.forall_mem_singleton.mpr (.str (by decide))),
      .num 1, fun e he => by cases he⟩

/-- Preparing an answered reply again drops its child, and without its question it becomes a
root. -/
theorem insertChatTurn_drops_links :
    WellLinked answeredReply ∧
      (∃ h', insertChatTurn "o" ⟨"o", "O"⟩ answeredReply [("id", .str "u")] [turnReply "r"] 4 =
        some h' ∧
        ¬ WellLinked h' ∧ ¬ KeepsLinks answeredReply.messages h'.messages) ∧
      ∃ h', insertChatTurn "o" ⟨"o", "O"⟩ emptyReply [] [turnReply "r"] 4 = some h' ∧
        ¬ KeepsLinks emptyReply.messages h'.messages := by
  refine ⟨wellLinked_answeredReply, ⟨_, rfl, fun hwell => ?_, fun hkeeps => ?_⟩, _, rfl,
    fun hkeeps => ?_⟩
  · have hlisted := (hwell.linked.children (p := "r") rfl (.str "v")).mpr ⟨"v", rfl, rfl⟩
    exact absurd hlisted (by decide)
  · obtain ⟨m', hm', -, hchildren⟩ := hkeeps "r" _ rfl
    obtain rfl := Option.some.inj (hm'.symm.trans rfl)
    exact absurd (hchildren (.str "v") (by decide)) (by decide)
  · obtain ⟨m', hm', hparent, -⟩ := hkeeps "r" _ rfl
    obtain rfl := Option.some.inj (hm'.symm.trans rfl)
    exact absurd hparent (by decide)

end OpenWebUI.Chat
