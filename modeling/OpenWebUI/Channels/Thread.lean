import OpenWebUI.Lib.Dict
import OpenWebUI.Lib.Json
import OpenWebUI.Lib.Paging
import Mathlib.Data.String.Basic

/-! # Threads of a channel

`backend/open_webui/models/messages.py`: `get_messages_by_parent_id` reads the replies to a
message in pages, from the newest to the oldest, with the message itself after the oldest.
-/

namespace OpenWebUI.Channels

open Py

/-! ## The table -/

/-- A row of the table, without its pins. -/
structure Message where
  id : String
  userId : Option String
  appId : Option String
  channelId : Option String
  replyToId : Option String
  parentId : Option String
  content : String
  data : Option Obj
  metadata : Option Obj
  createdAt : ℤ
  updatedAt : ℤ

structure App where
  name : String
  manifest : Obj

/-- The messages and what their senders are looked up in. An id is generated with its row, so it
is not empty and names no parent yet. -/
structure Store where
  messages : List Message
  apps : Dict String App
  /-- The names of the webhooks. -/
  webhooks : Dict String String
  nodup : (messages.map Message.id).Nodup
  named : ∀ m ∈ messages, m.id ≠ ""
  apart : ∀ m ∈ messages, m.parentId ≠ some m.id

def Store.get (s : Store) (id : String) : Option Message := s.messages.find? (·.id = id)

/-- `value`, where it is not empty. -/
def given (value : Option String) : Option String := value.filter (· ≠ "")

/-! ## A reply as it is sent -/

/-- The sender, for an app or a webhook. -/
def resolveUserInfo (s : Store) (m : Message) : Option Obj :=
  match given m.appId with
  | some appId => some [
      ("id", .str appId),
      ("name", .str ((s.apps.get? appId).elim "Removed App" App.name)),
      ("role", .str "app"),
      ("profile_image_url", ((s.apps.get? appId).map fun app =>
        Obj.get app.manifest "profile_image_url").getD .null)]
  | none =>
    match Obj.get (m.metadata.getD []) "webhook" with
    | .obj webhookInfo =>
      let id := Obj.get webhookInfo "id"
      if id.truthy then
        let name := (id.asStr.bind s.webhooks.get?).getD "Deleted Webhook"
        some [("id", id), ("name", .str name), ("role", .str "webhook")]
      else none
    | _ => none

structure MessageReplyToResponse where
  message : Message
  user : Option Obj
  replyToMessage : Option Message

def respond (s : Store) (m : Message) : MessageReplyToResponse where
  message := m
  user := resolveUserInfo s m
  replyToMessage := (given m.replyToId).bind s.get

/-! ## The query -/

/-- `a` comes before `b` in `ORDER BY created_at DESC, id DESC`. -/
def Newer (a b : Message) : Prop :=
  b.createdAt < a.createdAt ∨ b.createdAt = a.createdAt ∧ b.id < a.id

def NotOlder (a b : Message) : Prop :=
  b.createdAt < a.createdAt ∨ b.createdAt = a.createdAt ∧ b.id ≤ a.id

instance : DecidableRel Newer := fun _ _ => inferInstanceAs (Decidable (_ ∨ _))

instance : DecidableRel NotOlder := fun _ _ => inferInstanceAs (Decidable (_ ∨ _))

/-- The replies to a message, in the order of the table. -/
def Store.replies (s : Store) (channelId parentId : String) : List Message :=
  s.messages.filter fun m => m.channelId = some channelId ∧ m.parentId = some parentId

/-- `ORDER BY … OFFSET skip LIMIT limit`, and the parent where the page is not full. -/
def page (s : Store) (parent : Message) (rows : List Message) (skip limit : ℕ) :
    List MessageReplyToResponse :=
  let all := ((rows.insertionSort NotOlder).drop skip).take limit
  (if all.length < limit then all ++ [parent] else all).map (respond s)

def getMessagesByParentId (s : Store) (channelId parentId : String) (skip limit : ℕ)
    (around before : Option String) : List MessageReplyToResponse :=
  match s.get parentId with
  | none => []
  | some message =>
    -- a foreign channel's message is not disclosed
    if message.channelId ≠ some channelId then []
    else
      let rows := s.replies channelId parentId
      match (given before).or (given around) with
      | none => page s message rows skip limit
      | some anchorId =>
        match s.get anchorId with
        | none => []
        | some anchor =>
          if anchor.channelId ≠ some channelId ∨
              anchor.id ≠ parentId ∧ anchor.parentId ≠ some parentId then []
          else if (given before).isSome then
            page s message (rows.filter fun m => Newer anchor m) 0 limit
          else
            -- a window that starts just above the match
            page s message rows (rows.countP (fun m => Newer m anchor) - 10) limit

/-! ## The order -/

/-- Of two messages at most one is the newer one. -/
theorem Newer.asymm (a b : Message) (h : Newer a b) : ¬ Newer b a := by
  rcases h with hlt | ⟨heq, hlt⟩
  · rintro (hlt' | ⟨heq', -⟩) <;> omega
  · rintro (hlt' | ⟨-, hlt'⟩)
    · omega
    · exact lt_asymm hlt hlt'

instance : Std.Total NotOlder where
  total a b := by
    rcases lt_trichotomy a.createdAt b.createdAt with hlt | heq | hlt
    · exact Or.inr (Or.inl hlt)
    · exact (le_total a.id b.id).symm.imp (fun hid => Or.inr ⟨heq.symm, hid⟩) fun hid =>
        Or.inr ⟨heq, hid⟩
    · exact Or.inl (Or.inl hlt)

instance : IsTrans Message NotOlder where
  trans a b c hab hbc := by
    rcases hab with hab | ⟨hab, hid⟩ <;> rcases hbc with hbc | ⟨hbc, hid'⟩
    · exact Or.inl (by omega)
    · exact Or.inl (by omega)
    · exact Or.inl (by omega)
    · exact Or.inr ⟨by omega, hid'.trans hid⟩

/-- Rows with distinct ids are sorted strictly. -/
theorem sorted_newer {rows : List Message} (hnodup : (rows.map Message.id).Nodup) :
    (rows.insertionSort NotOlder).Pairwise Newer := by
  have hids : ((rows.insertionSort NotOlder).map Message.id).Nodup :=
    ((List.perm_insertionSort NotOlder rows).map _).nodup_iff.mpr hnodup
  have hsorted := List.pairwise_insertionSort NotOlder rows
  refine (hsorted.and (List.pairwise_map.mp hids)).imp ?_
  rintro a b ⟨hlt | ⟨heq, hid⟩, hne⟩
  · exact Or.inl hlt
  · exact Or.inr ⟨heq, lt_of_le_of_ne hid fun h => hne h.symm⟩

/-- The replies as they are paged. -/
def Store.order (s : Store) (channelId parentId : String) : List Message :=
  (s.replies channelId parentId).insertionSort NotOlder

section Order

variable (s : Store) (channelId parentId : String)

/-- The order lists the replies, each once. -/
theorem Store.order_perm : (s.order channelId parentId).Perm (s.replies channelId parentId) :=
  List.perm_insertionSort ..

/-- The order goes from the newest reply to the oldest. -/
theorem Store.order_newer : (s.order channelId parentId).Pairwise Newer :=
  sorted_newer (s.nodup.sublist (List.filter_sublist.map _))

variable {s channelId parentId}

/-- Whatever the order lists is a stored reply of the thread. -/
theorem Store.mem_order {m : Message} (h : m ∈ s.order channelId parentId) :
    m ∈ s.messages ∧ m.channelId = some channelId ∧ m.parentId = some parentId := by
  have hmem := List.mem_filter.mp ((s.order_perm channelId parentId).mem_iff.mp h)
  exact ⟨hmem.1, of_decide_eq_true hmem.2⟩

/-- A stored message is found by its id. -/
theorem Store.get_of_mem {m : Message} (h : m ∈ s.messages) : s.get m.id = some m := by
  obtain ⟨front, back, hsplit⟩ := List.append_of_mem h
  have hnodup := s.nodup
  rw [Store.get, hsplit, List.find?_append]
  rw [hsplit, List.map_append, List.map_cons, List.nodup_append] at hnodup
  have hfront : front.find? (fun x => decide (x.id = m.id)) = none := by
    rw [List.find?_eq_none]
    intro x hx hid
    exact hnodup.2.2 x.id (List.mem_map_of_mem hx) m.id List.mem_cons_self (of_decide_eq_true hid)
  rw [hfront, List.find?_cons, decide_eq_true rfl]
  rfl

/-- What is found by an id has that id. -/
theorem Store.get_id {id : String} {m : Message} (h : s.get id = some m) : m.id = id := by
  have hfound : s.messages.find? (fun x => decide (x.id = id)) = some m := h
  simpa using List.find?_some hfound

/-- Sorting a part of the replies keeps that part of the order. -/
theorem Store.sorted_filter (p : Message → Bool) :
    ((s.replies channelId parentId).filter p).insertionSort NotOlder =
      (s.order channelId parentId).filter p := by
  have hids : (((s.replies channelId parentId).filter p).map Message.id).Nodup :=
    s.nodup.sublist ((List.filter_sublist.trans List.filter_sublist).map _)
  have hperm : (((s.replies channelId parentId).filter p).insertionSort NotOlder).Perm
      ((s.order channelId parentId).filter p) :=
    (List.perm_insertionSort ..).trans ((s.order_perm channelId parentId).filter p).symm
  refine hperm.eq_of_pairwise ?_ (sorted_newer hids) ((s.order_newer channelId parentId).filter p)
  intro a b _ _ hab hba
  exact absurd hba (hab.asymm)

end Order

/-! ## Pages -/

/-- The first rows of `rest`, and the parent where they are all. -/
def firstPage (s : Store) (parent : Message) (rest : List Message) (limit : ℕ) :
    List MessageReplyToResponse :=
  (if (rest.take limit).length < limit then rest.take limit ++ [parent] else rest.take limit).map
    (respond s)

section Pages

variable {s : Store} {channelId parentId : String} {parent : Message}
    {front back rest : List Message}
  {anchor : Message} {skip limit : ℕ}

/-- Without a cursor the page starts at the newest reply, after those skipped. -/
theorem get_first (hparent : s.get parentId = some parent)
    (hchannel : parent.channelId = some channelId) :
    getMessagesByParentId s channelId parentId skip limit none none =
      firstPage s parent ((s.order channelId parentId).drop skip) limit := by
  unfold getMessagesByParentId
  rw [hparent]
  simp only [hchannel, ne_eq, not_true_eq_false, if_false]
  rfl

/-- With `before` the page starts right after the anchor. -/
theorem get_before (hparent : s.get parentId = some parent)
    (hchannel : parent.channelId = some channelId)
    (horder : s.order channelId parentId = front ++ anchor :: back) (around : Option String) :
    getMessagesByParentId s channelId parentId skip limit around (some anchor.id) =
      firstPage s parent back limit := by
  have hmem : anchor ∈ s.order channelId parentId := by rw [horder]; simp
  obtain ⟨hrow, hanchorChannel, hanchorParent⟩ := s.mem_order hmem
  have hgiven : given (some anchor.id) = some anchor.id :=
    Option.filter_some_pos (decide_eq_true (s.named anchor hrow))
  unfold getMessagesByParentId
  rw [hparent, hgiven]
  simp only [hchannel, ne_eq, not_true_eq_false, if_false, Option.some_or, Store.get_of_mem hrow,
    hanchorChannel, hanchorParent, and_false, or_false, Option.isSome_some, if_true]
  rw [page, Store.sorted_filter, horder]
  have hsorted := s.order_newer channelId parentId
  rw [horder] at hsorted
  rw [Paging.filter_after Newer.asymm hsorted, List.drop_zero]
  rfl

/-- With `around` the page starts ten replies before the anchor. -/
theorem get_around (hparent : s.get parentId = some parent)
    (hchannel : parent.channelId = some channelId)
    (horder : s.order channelId parentId = front ++ anchor :: back) :
    getMessagesByParentId s channelId parentId skip limit (some anchor.id) none =
      firstPage s parent ((front ++ anchor :: back).drop (front.length - 10)) limit := by
  have hmem : anchor ∈ s.order channelId parentId := by rw [horder]; simp
  obtain ⟨hrow, hanchorChannel, hanchorParent⟩ := s.mem_order hmem
  have hgiven : given (some anchor.id) = some anchor.id :=
    Option.filter_some_pos (decide_eq_true (s.named anchor hrow))
  have hnone : given none = none := rfl
  have hsorted := s.order_newer channelId parentId
  have hcount : (s.replies channelId parentId).countP (fun m => decide (Newer m anchor)) =
    front.length := by
    rw [← (s.order_perm channelId parentId).countP_eq, horder]
    rw [horder] at hsorted
    exact Paging.countP_before Newer.asymm hsorted
  unfold getMessagesByParentId
  rw [hparent, hgiven, hnone]
  simp only [hchannel, ne_eq, not_true_eq_false, if_false, Option.none_or, Store.get_of_mem hrow,
    hanchorChannel, hanchorParent, and_false, or_false, Option.isSome_none, Bool.false_eq_true,
    hcount]
  rw [← horder]
  rfl

/-- A page holds the first rows, and says whether it is the last one. -/
theorem firstPage_replies (hparent : s.get parentId = some parent)
    (hrest : ∀ m ∈ rest, m ∈ s.order channelId parentId) :
    (firstPage s parent rest limit).filter (fun r => r.message.id ≠ parentId) =
      (rest.take limit).map (respond s) := by
  have hreplies : ∀ m ∈ rest.take limit, m.id ≠ parentId := by
    intro m hm hid
    obtain ⟨hrow, -, hreply⟩ := s.mem_order (hrest m (List.mem_of_mem_take hm))
    exact s.apart m hrow (hid ▸ hreply)
  have hid := s.get_id hparent
  have hself : (rest.take limit).filter (fun m => m.id ≠ parentId) = rest.take limit :=
    List.filter_eq_self.mpr fun m hm => decide_eq_true (hreplies m hm)
  have hmap :
    ∀ rows : List Message, (rows.map (respond s)).filter (fun r => r.message.id ≠ parentId) =
      (rows.filter fun m => m.id ≠ parentId).map (respond s) := fun rows => List.filter_map ..
  rw [firstPage, hmap]
  split_ifs
  · rw [List.filter_append, hself, List.filter_singleton]
    simp [hid]
  · rw [hself]

end Pages

/-! ## Reading a thread -/

/-- Pages from `before` on, until one has fewer than `limit` replies. -/
def readThread (s : Store) (channelId parentId : String) (limit : ℕ) :
    ℕ → Option String → List (List MessageReplyToResponse)
  | 0, _ => []
  | fuel + 1, before =>
    let page := getMessagesByParentId s channelId parentId 0 limit none before
    let replies := page.filter fun r => r.message.id ≠ parentId
    match replies.getLast? with
    | some last =>
      if replies.length < limit then [page]
      else page :: readThread s channelId parentId limit fuel (some last.message.id)
    | none => [page]

section Reading

variable {s : Store} {channelId parentId : String} {parent : Message} {limit : ℕ}

/-- The cursor from which `rest` is read. -/
def CursorAt (front : List Message) : Option String → Prop
  | none => front = []
  | some id => ∃ m, front.getLast? = some m ∧ m.id = id

/-- A page at a cursor goes on where the pages before it ended. -/
theorem get_at (hparent : s.get parentId = some parent)
    (hchannel : parent.channelId = some channelId) {front rest : List Message}
    (horder : s.order channelId parentId = front ++ rest) {before : Option String}
    (hcursor : CursorAt front before) :
    getMessagesByParentId s channelId parentId 0 limit none before =
      firstPage s parent rest limit := by
  cases before with
  | none =>
      obtain rfl : front = [] := hcursor
      rw [get_first hparent hchannel, horder]
      rfl
  | some id =>
      obtain ⟨m, hlast, rfl⟩ := hcursor
      obtain ⟨front, rfl⟩ := List.getLast?_eq_some_iff.mp hlast
      rw [List.append_assoc, List.singleton_append] at horder
      exact get_before hparent hchannel horder none

/-- From a cursor on, the rest of the replies is read, and then the parent. -/
theorem readThread_from (hparent : s.get parentId = some parent)
    (hchannel : parent.channelId = some channelId) (hlimit : 1 ≤ limit) (fuel : ℕ) :
    ∀ {front rest : List Message} {before : Option String},
      s.order channelId parentId = front ++ rest → CursorAt front before → rest.length < fuel →
      (readThread s channelId parentId limit fuel before).flatten =
        (rest ++ [parent]).map (respond s) := by
  induction fuel with
  | zero => intro front rest before _ _ hfuel; omega
  | succ fuel ih =>
      intro front rest before horder hcursor hfuel
      have hrest : ∀ m ∈ rest, m ∈ s.order channelId parentId :=
        fun m hm => horder ▸ List.mem_append_right _ hm
      rw [readThread, get_at hparent hchannel horder hcursor, firstPage_replies hparent hrest]
      cases hlast : (rest.take limit).getLast? with
      | none =>
          -- nothing is left
          obtain rfl : rest = [] := by
            rw [List.getLast?_eq_none_iff, List.take_eq_nil_iff] at hlast
            exact hlast.resolve_left (by omega)
          rw [List.take_nil]
          simp only [List.map_nil, List.getLast?_nil, List.flatten_cons, List.flatten_nil,
            firstPage, List.take_nil, List.length_nil]
          rw [if_pos (by omega)]
          simp
      | some last =>
          rw [List.getLast?_map, hlast]
          simp only [Option.map_some, List.length_map]
          split_ifs with hshort
          · -- the last page
            have hall : rest.take limit = rest := by
              rw [List.length_take] at hshort
              exact List.take_of_length_le (by omega)
            rw [List.flatten_singleton, firstPage, if_pos hshort, hall]
          · -- a full page: the rest is read from its last reply
            have hsplit :
              s.order channelId parentId = (front ++ rest.take limit) ++ rest.drop limit := by
              rw [List.append_assoc, List.take_append_drop, horder]
            have hnext : CursorAt (front ++ rest.take limit) (some last.id) := by
              refine ⟨last, ?_, rfl⟩
              rw [List.getLast?_append, hlast]
              rfl
            have hlength : (rest.drop limit).length < fuel := by
              rw [List.length_take] at hshort
              rw [List.length_drop]
              omega
            rw [List.flatten_cons, firstPage, if_neg hshort]
            change _ ++ (readThread s channelId parentId limit fuel (some last.id)).flatten = _
            rw [ih hsplit hnext hlength, ← List.map_append, ← List.append_assoc,
              List.take_append_drop]

/-- Paging reads every reply once, from the newest to the oldest, and the parent after them; a page
around a reply is a part of the same order, and what is older follows it. -/
theorem thread_paged (hparent : s.get parentId = some parent)
    (hchannel : parent.channelId = some channelId) :
    ∃ order : List Message, order.Perm (s.replies channelId parentId) ∧ order.Pairwise Newer ∧
      (1 ≤ limit → ∀ fuel, order.length < fuel →
        (readThread s channelId parentId limit fuel none).flatten =
          (order ++ [parent]).map (respond s)) ∧
      (10 < limit → ∀ anchor ∈ order, ∃ newer window older, order = newer ++ window ++ older ∧
        anchor ∈ window ∧
        (∀ skip, getMessagesByParentId s channelId parentId skip limit (some anchor.id) none =
          (if window.length < limit then window ++ [parent] else window).map (respond s)) ∧
        ∀ last ∈ window.getLast?, ∀ fuel, older.length < fuel →
          (readThread s channelId parentId limit fuel (some last.id)).flatten =
            (older ++ [parent]).map (respond s)) := by
  refine ⟨s.order channelId parentId, s.order_perm .., s.order_newer ..,
    fun hlimit fuel hfuel => ?_,
    fun hlimit anchor hanchor => ?_⟩
  · have hstart : s.order channelId parentId = [] ++ s.order channelId parentId := rfl
    exact readThread_from hparent hchannel hlimit fuel hstart rfl hfuel
  · obtain ⟨front, back, horder⟩ := List.append_of_mem hanchor
    -- the window starts at most ten above the anchor
    let start := front.length - 10
    let rest := (front ++ anchor :: back).drop start
    have hsplit : s.order channelId parentId =
        ((front ++ anchor :: back).take start ++ rest.take limit) ++ rest.drop limit := by
      rw [List.append_assoc, List.take_append_drop, List.take_append_drop, horder]
    refine ⟨_, rest.take limit, rest.drop limit, hsplit, Paging.mem_window (by omega) (by omega),
      fun skip => ?_,
      fun last hlast fuel hfuel => ?_⟩
    · exact get_around hparent hchannel horder
    · refine readThread_from hparent hchannel (by omega) fuel hsplit ⟨last, ?_, rfl⟩ hfuel
      rw [List.getLast?_append, hlast]
      rfl

def question : Message := ⟨"q", some "u", none, some "c", none, none, "?", none, none, 1, 1⟩

/-- A question with two answers of one instant. -/
def answers : Store where
  messages := [
    question,
    ⟨"a", some "v", none, some "c", none, some "q", "1", none, none, 2, 2⟩,
    ⟨"b", some "w", none, some "c", some "a", some "q", "2", none, none, 2, 2⟩]
  apps := ∅
  webhooks := ∅
  nodup := by decide
  named := by decide
  apart := by decide

/-- Five pages of one, on a thread with a tie. -/
theorem thread_paged_answers : ∃ order : List Message, order.Perm (answers.replies "c" "q") ∧
    order.Pairwise Newer ∧ (readThread answers "c" "q" 1 5 none).flatten.map (·.message.id) =
      order.map Message.id ++ ["q"] := by
  obtain ⟨order, hperm, hnewer, hread, -⟩ := @thread_paged answers "c" "q" question 1 rfl rfl
  refine ⟨order, hperm, hnewer, ?_⟩
  have hlength : order.length < 5 := by
    rw [hperm.length_eq]
    decide
  rw [hread le_rfl 5 hlength, List.map_map, List.map_append]
  rfl

end Reading

end OpenWebUI.Channels
