import OpenWebUI.Chat.Path
import OpenWebUI.Chat.ReadBack

/-! # Filling gaps from the embedded history

When some messages of a chat have no row, `ChatTable.get_messages_map_by_chat_id`
adds the embedded messages that the rows name as parents. It does so once: a
message it adds may name a parent that is in turn missing. The main result says
exactly when the returned map is closed under parents and every path in it is the
path of the embedded history.
-/

namespace OpenWebUI.Chat

open Py

/-! ## Parents -/

/-- The parent id of a stored message, when it is truthy and stored. -/
def Messages.parentKey (ms : Messages) (k : String) : Option String :=
  (ms.get? k).bind fun m => (ms.parentEntry m).map Prod.fst

/-- The link to a stored parent. -/
theorem Messages.parentKey_eq_some {ms : Messages} {k p : String} :
    ms.parentKey k = some p ↔
      ∃ m, ms.get? k = some m ∧ m.get "parentId" = .str p ∧ p ≠ "" ∧ p ∈ ms := by
  unfold parentKey
  rw [Option.bind_eq_some_iff]
  constructor
  · rintro ⟨m, hm, hp⟩
    obtain ⟨⟨q, n⟩, he, rfl⟩ := Option.map_eq_some_iff.mp hp
    obtain ⟨h1, h2, h3⟩ := Messages.parentEntry_eq_some.mp he
    exact ⟨m, hm, h1, h2, Dict.mem_of_get? h3⟩
  · rintro ⟨m, hm, h1, h2, h3⟩
    obtain ⟨n, hn⟩ := (Dict.mem_iff_exists ms p).mp h3
    refine ⟨m, hm, ?_⟩
    rw [Messages.parentEntry_eq_some.mpr ⟨h1, h2, hn⟩]
    rfl

/-- Every parent named in `ms` that `history` can resolve is resolved. A falsy id names no
parent, as in `get_unresolved_parent_ids` and in the walk. -/
def ParentClosed (ms history : Messages) : Prop :=
  ∀ k m p, ms.get? k = some m → m.get "parentId" = .str p → p ≠ "" → p ∈ history → p ∈ ms

/-- `ms` is a part of `history`, as far as the walk towards the root looks at it. -/
def SubPath (ms history : Messages) : Prop :=
  ∀ k m, ms.get? k = some m →
    ∃ n, history.get? k = some n ∧ (m = [] ↔ n = []) ∧ m.get "parentId" = n.get "parentId"

/-- In a closed part of the history the walk goes the way it goes in the history. -/
theorem climb_congr {ms history : Messages} (hsub : SubPath ms history)
    (hclosed : ParentClosed ms history) (fuel : Nat) : ∀ (k : String) (m n : Message)
    (visited : List String), ms.get? k = some m → history.get? k = some n →
      (climb ms fuel k m visited).map Prod.fst = (climb history fuel k n visited).map Prod.fst := by
  induction fuel with
  | zero =>
      intro k m n visited _ _
      rfl
  | succ fuel ih =>
      intro k m n visited hm hn
      obtain ⟨n', hn', hempty, hparent⟩ := hsub k m hm
      rw [hn, Option.some.injEq] at hn'
      subst hn'
      rw [climb, climb]
      by_cases hstop : m = [] ∨ k ∈ visited
      · rw [if_pos hstop, if_pos (hstop.imp_left hempty.mp)]
      · rw [if_neg hstop, if_neg fun h => hstop (h.imp_left hempty.mpr),
          List.map_cons, List.map_cons]
        congr 1
        -- both walks continue with the same stored parent, or neither does
        cases hp : history.parentEntry n with
        | none =>
            cases hq : ms.parentEntry m with
            | none => rfl
            | some e =>
                obtain ⟨p, r⟩ := e
                obtain ⟨h1, h2, h3⟩ := Messages.parentEntry_eq_some.mp hq
                obtain ⟨s, hs, _⟩ := hsub p r h3
                rw [Messages.parentEntry_eq_some.mpr ⟨hparent ▸ h1, h2, hs⟩] at hp
                cases hp
        | some e =>
            obtain ⟨p, s⟩ := e
            obtain ⟨h1, h2, h3⟩ := Messages.parentEntry_eq_some.mp hp
            have hmem : p ∈ ms := hclosed k m p hm (hparent ▸ h1) h2 (Dict.mem_of_get? h3)
            obtain ⟨r, hr⟩ := (Dict.mem_iff_exists ms p).mp hmem
            rw [Messages.parentEntry_eq_some.mpr ⟨hparent ▸ h1, h2, hr⟩]
            exact ih p r s (k :: visited) hr h3

theorem messageChain_congr {ms history : Messages} (hsub : SubPath ms history)
    (hclosed : ParentClosed ms history) {k : String} (hk : k ∈ ms) :
    messageChain ms k = messageChain history k := by
  obtain ⟨m, hm⟩ := (Dict.mem_iff_exists ms k).mp hk
  obtain ⟨n, hn, _⟩ := hsub k m hm
  -- enough fuel for both walks
  let fuel := ms.size + history.size + 1
  have hms : ms.size + 1 ≤ fuel := by omega
  have hhistory : history.size + 1 ≤ fuel := by omega
  rw [messageChain, messageChain, getMessagePath_fuel hm hms, getMessagePath_fuel hn hhistory,
    List.map_reverse, List.map_reverse, climb_congr hsub hclosed fuel k m n [] hm hn]

/-! ## The messages added -/

theorem mem_getUnresolvedParentIds {ms : Messages} {p : String} :
    .str p ∈ getUnresolvedParentIds ms ↔
      p ≠ "" ∧ p ∉ ms ∧ ∃ k m, ms.get? k = some m ∧ m.get "parentId" = .str p := by
  unfold getUnresolvedParentIds
  rw [List.mem_dedup, List.mem_filterMap]
  have hstored : (ms.stored (.str p)).isNone = true ↔ p ∉ ms := by
    rw [Option.isNone_iff_eq_none, Option.eq_none_iff_forall_ne_some]
    constructor
    · exact fun h hp => h p (Messages.stored_eq_some.mpr ⟨rfl, hp⟩)
    · intro h q hq
      obtain ⟨h1, h2⟩ := Messages.stored_eq_some.mp hq
      rw [Json.str.injEq] at h1
      exact h (h1 ▸ h2)
  constructor
  · rintro ⟨⟨k, m⟩, hmem, he⟩
    dsimp only at he
    split_ifs at he with hcond
    rw [Option.some.injEq] at he
    rw [he, Bool.and_eq_true, hstored, Json.truthy_str, decide_eq_true_eq] at hcond
    exact ⟨hcond.1, hcond.2, k, m, (Dict.mem_entries_iff ms k m).mp hmem, he⟩
  · rintro ⟨hne, hnot, k, m, hm, hp⟩
    refine ⟨(k, m), (Dict.mem_entries_iff ms k m).mpr hm, ?_⟩
    dsimp only
    rw [hp, if_pos]
    rw [Bool.and_eq_true, hstored, Json.truthy_str, decide_eq_true_eq]
    exact ⟨hne, hnot⟩

theorem get?_missingMessages (history : Messages) (unresolved : List Json) (k : String) :
    (missingMessages history unresolved).get? k =
      if .str k ∈ unresolved then history.get? k else none := by
  obtain ⟨hval, hkey⟩ := Dict.ofList_spec (unresolved.filterMap fun u =>
    (history.stored u).bind fun id => (history.get? id).map fun m => (id, m)) k
  have hmem : ∀ m, (k, m) ∈ (unresolved.filterMap fun u =>
      (history.stored u).bind fun id => (history.get? id).map fun m => (id, m)) ↔
      .str k ∈ unresolved ∧ history.get? k = some m := by
    intro m
    rw [List.mem_filterMap]
    constructor
    · rintro ⟨u, hu, he⟩
      obtain ⟨id, hid, hm⟩ := Option.bind_eq_some_iff.mp he
      obtain ⟨n, hn, heq⟩ := Option.map_eq_some_iff.mp hm
      rw [Prod.mk.injEq] at heq
      obtain ⟨rfl, rfl⟩ := heq
      exact ⟨(Messages.stored_eq_some.mp hid).1 ▸ hu, hn⟩
    · rintro ⟨hu, hm⟩
      refine ⟨.str k, hu, ?_⟩
      rw [Messages.stored_eq_some.mpr ⟨rfl, Dict.mem_of_get? hm⟩, Option.bind_some, hm]
      rfl
  unfold missingMessages
  cases hget : (Dict.ofList (unresolved.filterMap fun u =>
      (history.stored u).bind fun id => (history.get? id).map fun m => (id, m))).get? k with
  | some m =>
      obtain ⟨h1, h2⟩ := (hmem m).mp (hval m hget)
      rw [if_pos h1, h2]
  | none =>
      split_ifs with hu
      · cases hh : history.get? k with
        | none => rfl
        | some m =>
            have := hkey ⟨m, (hmem m).mpr ⟨hu, hh⟩⟩
            rw [Dict.get?_eq_none_iff] at hget
            exact absurd this hget
      · rfl

/-- The returned map: the rows' messages and, over them, the embedded messages they name
as missing parents. -/
theorem getMessagesMap_spec {store : Store} {chatId : String} (now : ℚ) {chat : ChatItem}
    {ms : Messages} (hchat : store.chat = some chat)
    (hms : rowMessagesMap store.rows chatId = some ms) :
    ∃ filled, (getMessagesMap store chatId now).1 = some filled ∧
      ∀ k, filled.get? k =
        (if .str k ∈ getUnresolvedParentIds ms then chat.messages.get? k else none).or
          (ms.get? k) := by
  unfold getMessagesMap
  rw [hms, hchat]
  dsimp only
  generalize hunresolved : getUnresolvedParentIds ms = unresolved
  generalize hm : missingMessages chat.messages unresolved = missing
  have hmissing : ∀ k, missing.get? k =
      if .str k ∈ unresolved then chat.messages.get? k else none :=
    hm ▸ get?_missingMessages chat.messages unresolved
  by_cases h1 : unresolved = []
  · refine ⟨ms, by rw [if_pos h1], ?_⟩
    intro k
    have hnot : ¬ Json.str k ∈ unresolved := by simp [h1]
    rw [if_neg hnot, Option.none_or]
  · rw [if_neg h1]
    by_cases h2 : missing.entries = []
    · refine ⟨ms, by rw [if_pos h2], ?_⟩
      intro k
      have hnone : missing.get? k = none := by rw [Dict.get?, h2, List.lookup_nil]
      rw [← hmissing k, hnone, Option.none_or]
    · refine ⟨ms.update missing, by rw [if_neg h2], ?_⟩
      intro k
      rw [Dict.get?_update, hmissing]

/-! ## When no gap remains -/

/-- The row `r` stores the message `m` of the embedded history. -/
def RowOf (chatId messageId : String) (m : Message) (r : ChatMessage) : Prop :=
  r.id = compositeId chatId messageId ∧ r.parentId = m.get "parentId" ∧ (m.get "role").truthy

/-- The two grandparents of a gap: a row's parent that has no row itself has a parent
that the first filling already supplies. -/
def NoDeepGap (history : Messages) (ids : List String) : Prop :=
  ∀ k ∈ ids, ∀ p, history.parentKey k = some p → p ∉ ids →
    ∀ q, history.parentKey p = some q → q ∈ ids ∨ ∃ k' ∈ ids, history.parentKey k' = some q

/-- The returned map is closed under the parents the embedded history knows, and every
row has the path it has there. -/
def FillsGaps (store : Store) (chatId : String) (now : ℚ) (history : Messages) : Prop :=
  ∃ filled, (getMessagesMap store chatId now).1 = some filled ∧ ParentClosed filled history ∧
    ∀ k ∈ rowIds store.rows chatId, messageChain filled k = messageChain history k

section Filled

variable {rows : Rows} {chatId : String} {history ms filled : Messages}

/-- Each message built from the rows is, for the walk, the embedded message of its id. -/
theorem subPath_rowMessagesMap (hms : rowMessagesMap rows chatId = some ms)
    (hrows : ∀ r ∈ chatRows rows chatId, ∃ messageId m, history.get? messageId = some m ∧
      RowOf chatId messageId m r) : SubPath ms history := by
  intro k m hm
  obtain ⟨r, hr, hid, hsame⟩ := (rowMessagesMap_spec hms).1 k m hm
  obtain ⟨messageId, n, hn, hrid, hparent, hrole⟩ := hrows r hr
  have hk : k = messageId := by rw [← hid, hrid, stripId_compositeId]
  have hkey := hsame.get (f := "parentId") (by decide)
  have hself := hsame.get (f := "id") (by decide)
  rw [messageOfRow_parentId, hparent] at hkey
  rw [messageOfRow_id] at hself
  refine ⟨n, hk ▸ hn, ?_, hkey⟩
  have hm₀ : m ≠ [] := by
    rintro rfl
    simp [Obj.get] at hself
  have hn₀ : n ≠ [] := by
    rintro rfl
    simp [Obj.get] at hrole
  exact iff_of_false hm₀ hn₀

variable (hsub : SubPath ms history) (hids : ∀ k, k ∈ ms ↔ k ∈ rowIds rows chatId)
  (hfilled : ∀ k, filled.get? k =
    (if .str k ∈ getUnresolvedParentIds ms then history.get? k else none).or (ms.get? k))

include hsub in
/-- A message of the rows names its parent as the embedded message does. -/
theorem parent_of_row {k p : String} {m : Message} (hm : ms.get? k = some m) (hp : p ∈ history) :
    history.parentKey k = some p ↔ m.get "parentId" = .str p ∧ p ≠ "" := by
  obtain ⟨n, hn, _, hparent⟩ := hsub k m hm
  rw [Messages.parentKey_eq_some]
  constructor
  · rintro ⟨n', hn', h1, h2, _⟩
    rw [hn, Option.some.injEq] at hn'
    subst hn'
    exact ⟨hparent ▸ h1, h2⟩
  · rintro ⟨h1, h2⟩
    exact ⟨n, hn, hparent ▸ h1, h2, hp⟩

include hsub hids hfilled in
/-- The ids of the filled map: the rows' ids and their parents in the embedded history. -/
theorem mem_filled_iff (k : String) :
    k ∈ filled ↔ k ∈ rowIds rows chatId ∨
      ∃ k' ∈ rowIds rows chatId, history.parentKey k' = some k := by
  rw [Dict.mem_iff, hfilled, Option.isSome_or, Bool.or_eq_true, ← Dict.mem_iff, hids]
  constructor
  · rintro (h | h)
    · split_ifs at h with hu
      · obtain ⟨_, _, k', m, hm, hp⟩ := mem_getUnresolvedParentIds.mp hu
        rw [← Dict.mem_iff] at h
        obtain ⟨hne, _⟩ := mem_getUnresolvedParentIds.mp hu
        exact Or.inr ⟨k', (hids k').mp (Dict.mem_of_get? hm),
          (parent_of_row hsub hm h).mpr ⟨hp, hne⟩⟩
      · cases h
    · exact Or.inl h
  · rintro (h | ⟨k', hk', hp⟩)
    · exact Or.inr h
    · by_cases hk : k ∈ ms
      · exact Or.inr ((hids k).mp hk)
      · obtain ⟨m, hm⟩ := (Dict.mem_iff_exists ms k').mp ((hids k').mpr hk')
        have hmem := (Messages.parentKey_eq_some.mp hp).choose_spec.2.2.2
        obtain ⟨h1, h2⟩ := (parent_of_row hsub hm hmem).mp hp
        left
        rw [if_pos (mem_getUnresolvedParentIds.mpr ⟨h2, hk, k', m, hm, h1⟩), ← Dict.mem_iff]
        exact hmem

include hsub hfilled in
/-- The filled map is part of the history. -/
theorem subPath_filled : SubPath filled history := by
  intro k m hm
  rw [hfilled] at hm
  split_ifs at hm with hu
  · cases hn : history.get? k with
    | none =>
        rw [hn, Option.none_or] at hm
        exact hn ▸ hsub k m hm
    | some n =>
        rw [hn, Option.some_or, Option.some.injEq] at hm
        exact ⟨n, rfl, hm ▸ Iff.rfl, hm ▸ rfl⟩
  · rw [Option.none_or] at hm
    exact hsub k m hm

include hsub hids hfilled in
/-- The filled map is closed exactly when no gap is two messages deep. -/
theorem parentClosed_filled_iff :
    ParentClosed filled history ↔ NoDeepGap history (rowIds rows chatId) := by
  have hmem := mem_filled_iff hsub hids hfilled
  have hpart := subPath_filled hsub hfilled
  constructor
  · intro hclosed k hk p hp hnot q hq
    obtain ⟨n, hn, h1, h2, h3⟩ := Messages.parentKey_eq_some.mp hq
    have hpf : p ∈ filled := (hmem p).mpr (Or.inr ⟨k, hk, hp⟩)
    obtain ⟨m, hm⟩ := (Dict.mem_iff_exists filled p).mp hpf
    obtain ⟨n', hn', _, hparent⟩ := hpart p m hm
    rw [hn, Option.some.injEq] at hn'
    exact (hmem q).mp (hclosed p m q hm (by rw [hparent, ← hn', h1]) h2 h3)
  · intro hgap k m p hm h1 h2 h3
    obtain ⟨n, hn, _, hparent⟩ := hpart k m hm
    have hp : history.parentKey k = some p :=
      Messages.parentKey_eq_some.mpr ⟨n, hn, hparent ▸ h1, h2, h3⟩
    rw [hmem]
    -- the parent of a row is filled in; the parent of a filled message is the question
    rcases (hmem k).mp (Dict.mem_of_get? hm) with hk | ⟨k', hk', hkp⟩
    · exact Or.inr ⟨k, hk, hp⟩
    · by_cases hk : k ∈ rowIds rows chatId
      · exact Or.inr ⟨k, hk, hp⟩
      · exact hgap k' hk' k hkp hk p hp

end Filled

/-- Gap filling restores every path exactly when no row is followed by two consecutive
ancestors that are missing, the upper one named by no row. -/
theorem fillsGaps_iff (store : Store) (chatId : String) (now : ℚ) (chat : ChatItem)
    (hchat : store.chat = some chat) (hne : chatRows store.rows chatId ≠ [])
    (hrows : ∀ r ∈ chatRows store.rows chatId, ∃ messageId m,
      chat.messages.get? messageId = some m ∧ RowOf chatId messageId m r) :
    FillsGaps store chatId now chat.messages ↔
      NoDeepGap chat.messages (rowIds store.rows chatId) := by
  obtain ⟨ms, hms⟩ : ∃ ms, rowMessagesMap store.rows chatId = some ms := by
    rw [← Option.ne_none_iff_exists']
    rwa [ne_eq, rowMessagesMap_eq_none]
  obtain ⟨filled, hresult, hfilled⟩ := getMessagesMap_spec now hchat hms
  have hsub := subPath_rowMessagesMap hms hrows
  have hids := (rowMessagesMap_spec hms).2
  rw [← parentClosed_filled_iff hsub hids hfilled]
  constructor
  · rintro ⟨filled', hresult', hclosed, _⟩
    rw [hresult, Option.some.injEq] at hresult'
    exact hresult' ▸ hclosed
  · intro hclosed
    refine ⟨filled, hresult, hclosed, ?_⟩
    intro k hk
    exact messageChain_congr (subPath_filled hsub hfilled) hclosed
      ((mem_filled_iff hsub hids hfilled k).mpr (Or.inl hk))

/-- A chat of three messages in a row of which only the last has a table row. -/
def deepGap : Store :=
  let message (parentId : Json) : Message := [("role", .str "user"), ("parentId", parentId)]
  let messages : Messages :=
    Dict.ofList [("a", message .null), ("b", message (.str "a")), ("c", message (.str "b"))]
  { chat := some ⟨"u", ⟨some ⟨messages, some "c"⟩, []⟩, .null, .null, 0⟩
    rows := (upsertMessages ∅ "t" (.str "u") [("c", message (.str "b"))] 0).getD ∅ }

def deepGapHistory : Messages := (deepGap.chat.map ChatItem.messages).getD ∅

/-- The path of the last message loses its root: `b` is filled in, its parent `a` is not. -/
theorem deepGap_not_filled :
    (∀ e ∈ deepGapHistory.entries, e.2.get "parentId" = .null ∨
      (deepGapHistory.stored (e.2.get "parentId")).isSome) ∧
    chatRows deepGap.rows "t" ≠ [] ∧
    (∀ r ∈ chatRows deepGap.rows "t", ∃ messageId m,
      deepGapHistory.get? messageId = some m ∧ RowOf "t" messageId m r) ∧
    messageChain deepGapHistory "c" = ["a", "b", "c"] ∧
    ((getMessagesMap deepGap "t" 0).1.map fun ms => messageChain ms "c") = some ["b", "c"] ∧
    ¬ FillsGaps deepGap "t" 0 deepGapHistory := by
  have hrow : ∀ r ∈ chatRows deepGap.rows "t",
      RowOf "t" "c" [("role", .str "user"), ("parentId", .str "b")] r := by
    unfold RowOf
    decide
  have hlong : messageChain deepGapHistory "c" = ["a", "b", "c"] := by decide
  have hshort : ((getMessagesMap deepGap "t" 0).1.map fun ms => messageChain ms "c") =
      some ["b", "c"] := by decide
  refine ⟨by decide, by decide, fun r hr => ⟨"c", _, by decide, hrow r hr⟩, hlong, hshort, ?_⟩
  rintro ⟨filled, hfilled, _, hchain⟩
  have hc := hchain "c" (by decide)
  rw [hfilled, Option.map_some, hc, hlong] at hshort
  exact absurd hshort (by decide)

/-- The same chat with a row for `b` as well: its gap is one message deep. -/
def shallowGap : Store :=
  { deepGap with
    rows := (upsertMessages deepGap.rows "t" (.str "u")
      [("b", [("role", .str "user"), ("parentId", .str "a")])] 0).getD ∅ }

/-- A gap of one message is filled. -/
theorem shallowGap_filled : FillsGaps shallowGap "t" 0 deepGapHistory := by
  have hrow : ∀ r ∈ chatRows shallowGap.rows "t",
      (RowOf "t" "c" [("role", .str "user"), ("parentId", .str "b")] r ∨
        RowOf "t" "b" [("role", .str "user"), ("parentId", .str "a")] r) := by
    unfold RowOf
    decide
  have hparents : ∀ k ∈ rowIds shallowGap.rows "t", ∀ p ∈ deepGapHistory.parentKey k,
      p ∉ rowIds shallowGap.rows "t" → deepGapHistory.parentKey p = none := by
    decide
  refine (fillsGaps_iff shallowGap "t" 0 _ rfl (by decide) ?_).mpr ?_
  · intro r hr
    rcases hrow r hr with h | h
    · exact ⟨"c", _, by decide, h⟩
    · exact ⟨"b", _, by decide, h⟩
  · intro k hk p hp hnot q hq
    have hnone := hparents k hk p hp hnot
    exact absurd (hnone.symm.trans hq) (by simp)

end OpenWebUI.Chat
