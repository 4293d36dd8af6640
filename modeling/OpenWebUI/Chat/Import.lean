import OpenWebUI.Lib.Dict
import OpenWebUI.Lib.Forest
import Mathlib.Data.Rat.Floor

/-! # Importing an exported conversation

`src/lib/utils/index.ts`: `convertOpenAIMessages` makes a history of the nodes of an exported
conversation. Its parents are linked one after the other, its children are those of the export.
-/

namespace OpenWebUI.Chat.Import

open Py

/-! ## An export -/

/-- A part that is no string is an image or the like. -/
inductive Part where
  | text (s : String)
  | object
deriving DecidableEq

structure Content where
  parts : Option (List Part)
  text : Option String

structure NodeMessage where
  role : Option String
  content : Option Content
  modelSlug : Option String
  createTime : Option ℚ

structure Node where
  message : Option NodeMessage
  parent : Option String
  children : Option (List String)

/-- The nodes of `mapping` in the order they are enumerated. -/
structure Conversation where
  title : Option String
  createTime : Option ℚ
  mapping : Dict String Node

/-! ## The import -/

structure ChatMessage where
  id : String
  parentId : Option String
  childrenIds : List String
  role : String
  content : String
  model : String
  timestamp : Option ℤ

structure History where
  currentId : String
  messages : Dict String ChatMessage

structure ImportedChat where
  history : History
  models : List String
  messages : List ChatMessage
  timestamp : Option ℚ
  title : String

def defaultModel : String := "gpt-3.5-turbo"

def extractOpenAIMessageContent (message : Option NodeMessage) : String :=
  let content := message.bind NodeMessage.content
  let textParts := ((content.bind Content.parts).getD []).filterMap fun p => match p with
    | .text s => some s
    | .object => none
  if textParts ≠ [] then "\n".intercalate textParts
  else (content.bind Content.text).getD ""

/-- A node that is not taken before another one: without a message, or with an empty one.
Without a content the test raises, and the node is not taken either. -/
def Node.blank (n : Node) : Bool :=
  match n.message.bind NodeMessage.content with
  | none => true
  | some content =>
    decide ((content.parts.bind List.head?) = some (.text "")) && content.text.isNone

/-- System and tool messages are never taken. -/
def Node.hidden (n : Node) : Bool :=
  let role := n.message.bind NodeMessage.role
  role = some "system" || role = some "tool"

def Node.model (n : Node) : String :=
  match n.message.bind NodeMessage.modelSlug with
  | some slug => if slug = "" then defaultModel else slug
  | none => defaultModel

/-- `new_chat` -/
def newChat (id : String) (n : Node) (lastId : Option String) : ChatMessage where
  id := id
  parentId := lastId
  childrenIds := n.children.getD []
  role := if n.message.bind NodeMessage.role ≠ some "user" then "assistant" else "user"
  content := extractOpenAIMessageContent n.message
  model := n.model
  timestamp := (n.message.bind NodeMessage.createTime).bind fun t => if t = 0 then
    none else some ⌊t⌋

/-- The variables of the loop. -/
structure State where
  messages : List ChatMessage
  currentId : String
  lastId : Option String
  uniqueModels : List String

def State.visit (s : State) (entry : String × Node) : State :=
  let id := entry.1
  let node := entry.2
  if s.messages = [] ∧ node.blank = true then { s with currentId := id }
  else if node.hidden then { s with currentId := id }
  else
    let chat := newChat id node s.lastId
    { messages := s.messages ++ [chat]
      currentId := id
      lastId := some id
      uniqueModels :=
        if chat.role ≠ "user" ∧ chat.model ∉ s.uniqueModels then s.uniqueModels ++ [chat.model]
        else s.uniqueModels }

/-- `messages[messages.length - 1].childrenIds = []` -/
def closeLast : List ChatMessage → List ChatMessage
  | [] => []
  | [m] => [{ m with childrenIds := [] }]
  | m :: n :: rest => m :: closeLast (n :: rest)

def convertOpenAIMessages (convo : Conversation) : ImportedChat :=
  let s := convo.mapping.entries.foldl State.visit ⟨[], "", none, []⟩
  let messages := closeLast s.messages
  { history := ⟨s.currentId, .ofList (messages.map fun m => (m.id, m))⟩
    models := if s.uniqueModels = [] then [defaultModel] else s.uniqueModels
    messages := messages
    timestamp := convo.createTime
    title := convo.title.getD "New Chat" }

/-! ## The chain of taken nodes -/

/-- The nodes that are taken. -/
def kept (entries : List (String × Node)) : List (String × Node) :=
  (entries.dropWhile fun e => e.2.blank || e.2.hidden).filter fun e => !e.2.hidden

/-- The messages of taken nodes, each under the one before it. -/
def chain : Option String → List (String × Node) → List ChatMessage
  | _, [] => []
  | lastId, e :: es => newChat e.1 e.2 lastId :: chain (some e.1) es

/-- The id of the last of some nodes. -/
def lastOf (nodes : List (String × Node)) (before : Option String) : Option String :=
  (nodes.getLast?.map Prod.fst).or before

section Loop

variable {s : State} {e : String × Node} {nodes front back : List (String × Node)}
    {before : Option String}

/-- A visible message is taken, below the last one. -/
theorem visit_of_taken (hs : s.messages ≠ [] ∨ e.2.blank = false) (hhidden : e.2.hidden = false) :
    (s.visit e).messages = s.messages ++ [newChat e.1 e.2 s.lastId] ∧
      (s.visit e).lastId = some e.1 := by
  have hfirst : ¬ (s.messages = [] ∧ e.2.blank = true) := by
    rintro ⟨hnil, hblank⟩
    rcases hs with hs | hs
    · exact hs hnil
    · rw [hs] at hblank
      cases hblank
  unfold State.visit
  simp only [if_neg hfirst, hhidden]
  exact ⟨rfl, rfl⟩

/-- A hidden or a leading blank one is passed over. -/
theorem visit_of_passed (h : s.messages = [] ∧ e.2.blank = true ∨ e.2.hidden = true) :
    (s.visit e).messages = s.messages ∧ (s.visit e).lastId = s.lastId := by
  unfold State.visit
  rcases h with h | h
  · simp only [if_pos h, and_self]
  · by_cases hfirst : s.messages = [] ∧ e.2.blank = true
    · simp only [if_pos hfirst, and_self]
    · simp only [if_neg hfirst, h, if_true, and_self]

/-- The visit sets the current id. -/
theorem visit_currentId (s : State) (e : String × Node) : (s.visit e).currentId = e.1 := by
  unfold State.visit
  dsimp only
  split_ifs <;> rfl

/-- Once a node is taken, only system and tool messages are passed over. -/
theorem foldl_visit_taken (hs : s.messages ≠ []) : (nodes.foldl State.visit s).messages =
    s.messages ++ chain s.lastId (nodes.filter fun e => !e.2.hidden) := by
  induction nodes generalizing s with
  | nil => rw [List.filter_nil, chain, List.append_nil]; rfl
  | cons e nodes ih =>
      rw [List.foldl_cons]
      cases hhidden : e.2.hidden with
      | true =>
          obtain ⟨hmessages, hlast⟩ := visit_of_passed (s := s) (Or.inr hhidden)
          rw [ih (hmessages ▸ hs), hmessages, hlast, List.filter_cons_of_neg (by simp [hhidden])]
      | false =>
          obtain ⟨hmessages, hlast⟩ := visit_of_taken (Or.inl hs) hhidden
          have hne : (s.visit e).messages ≠ [] := by rw [hmessages]; simp
          rw [ih hne, hmessages, hlast, List.filter_cons_of_pos (by simp [hhidden]), chain,
            List.append_assoc, List.singleton_append]

/-- The messages taken form a chain. -/
theorem foldl_visit (hs : s.messages = []) : (nodes.foldl State.visit s).messages =
    chain s.lastId (kept nodes) := by
  induction nodes generalizing s with
  | nil => exact hs
  | cons e nodes ih =>
      rw [List.foldl_cons, kept]
      by_cases hpassed : (e.2.blank || e.2.hidden) = true
      · have hor : s.messages = [] ∧ e.2.blank = true ∨ e.2.hidden = true := by
          rcases Bool.or_eq_true_iff.mp hpassed with h | h
          · exact Or.inl ⟨hs, h⟩
          · exact Or.inr h
        obtain ⟨hmessages, hlast⟩ := visit_of_passed hor
        rw [ih (hmessages.trans hs), hlast, List.dropWhile_cons, if_pos hpassed]
        rfl
      · have hboth : e.2.blank = false ∧ e.2.hidden = false := by simpa using hpassed
        obtain ⟨hmessages, hlast⟩ := visit_of_taken (s := s) (Or.inr hboth.1) hboth.2
        have hne : (s.visit e).messages ≠ [] := by rw [hmessages]; simp
        rw [foldl_visit_taken hne, hmessages, hlast, List.dropWhile_cons, if_neg hpassed,
          List.filter_cons_of_pos (by simp [hboth.2]), chain, hs, List.nil_append,
          List.singleton_append]

/-- The current id is the last node's. -/
theorem foldl_currentId (s : State) : (nodes.foldl State.visit s).currentId =
    (nodes.getLast?.map Prod.fst).getD s.currentId := by
  induction nodes using List.reverseRecOn with
  | nil => rfl
  | append_singleton nodes e _ =>
      rw [List.foldl_append, List.getLast?_append]
      exact visit_currentId _ _

end Loop

/-! ## The links of the history -/

/-- What a history promises about its links. -/
structure WellLinked (h : History) : Prop where
  parents : ∀ id m, h.messages.get? id = some m → ∀ p, m.parentId = some p → p ∈ h.messages
  children : ∀ id m, h.messages.get? id = some m → ∀ c,
    c ∈ m.childrenIds ↔ ∃ n, h.messages.get? c = some n ∧ n.parentId = some id
  acyclic : Forest.Acyclic fun id => (h.messages.get? id).bind ChatMessage.parentId
  current : ∃ m, h.messages.get? h.currentId = some m ∧ m.childrenIds = []

/-- The message of a taken node between the others. -/
def chatAt (front : List (String × Node)) (e : String × Node)
    (back : List (String × Node)) : ChatMessage :=
  { newChat e.1 e.2 (lastOf front none) with
    childrenIds := if back = [] then [] else e.2.children.getD [] }

section Links

variable {nodes front back front' back' : List (String × Node)} {e e' : String × Node}
  {before : Option String} {convo : Conversation} {id : String} {m : ChatMessage}

theorem closeLast_cons {m : ChatMessage} {ms : List ChatMessage} (h : ms ≠ []) :
    closeLast (m :: ms) = m :: closeLast ms := by
  cases ms with
  | nil => exact absurd rfl h
  | cons n ms => rfl

theorem mem_closeLast (front : List (String × Node)) :
    m ∈ closeLast (chain (lastOf front none) nodes) ↔
    ∃ mid e back, nodes = mid ++ e :: back ∧ m = chatAt (front ++ mid) e back := by
  induction nodes generalizing front with
  | nil => simp [chain, closeLast]
  | cons e nodes ih =>
      have hnext : lastOf (front ++ [e]) none = some e.1 := by simp [lastOf]
      rw [chain]
      cases nodes with
      | nil =>
          rw [chain, closeLast, List.mem_singleton]
          constructor
          · rintro rfl
            exact ⟨[], e, [], rfl, by rw [List.append_nil]; rfl⟩
          · rintro ⟨mid, e', back, hsplit, rfl⟩
            cases mid with
            | nil =>
                obtain ⟨rfl, rfl⟩ := List.cons.inj hsplit
                rw [List.append_nil]
                rfl
            | cons x mid => cases mid <;> cases (List.cons.inj hsplit).2
      | cons e₂ nodes =>
          have hne : chain (some e.1) (e₂ :: nodes) ≠ [] := List.cons_ne_nil _ _
          rw [closeLast_cons hne, List.mem_cons, ← hnext, ih (front ++ [e])]
          constructor
          · rintro (rfl | ⟨mid, e', back, hsplit, rfl⟩)
            · exact ⟨[], e, e₂ :: nodes, rfl, by rw [List.append_nil]; rfl⟩
            · exact ⟨e :: mid, e', back, by rw [hsplit]; rfl, by rw [List.append_assoc]; rfl⟩
          · rintro ⟨mid, e', back, hsplit, rfl⟩
            cases mid with
            | nil =>
                obtain ⟨rfl, rfl⟩ := List.cons.inj hsplit
                left
                rw [List.append_nil]
                rfl
            | cons x mid =>
                obtain ⟨rfl, hrest⟩ := List.cons.inj hsplit
                right
                exact ⟨mid, e', back, hrest, by rw [List.append_assoc]; rfl⟩

/-- Closing keeps the ids. -/
theorem map_id_closeLast (ms : List ChatMessage) :
    (closeLast ms).map ChatMessage.id = ms.map ChatMessage.id := by
  induction ms with
  | nil => rfl
  | cons m ms ih =>
      cases ms with
      | nil => rfl
      | cons n ms => rw [closeLast, List.map_cons, ih]; rfl

/-- The ids of the chain. -/
theorem map_id_chain (before : Option String) :
    (chain before nodes).map ChatMessage.id = nodes.map Prod.fst := by
  induction nodes generalizing before with
  | nil => rfl
  | cons e nodes ih => rw [chain, List.map_cons, ih, List.map_cons]; rfl

theorem kept_sublist (nodes : List (String × Node)) : (kept nodes).Sublist nodes :=
  List.filter_sublist.trans (List.dropWhile_sublist _)

/-- No id is kept twice. -/
theorem kept_nodup (convo : Conversation) : ((kept convo.mapping.entries).map Prod.fst).Nodup :=
  convo.mapping.nodup_keys.sublist ((kept_sublist _).map _)

/-- The messages of the conversion. -/
theorem converted_messages (convo : Conversation) :
    (convertOpenAIMessages convo).messages = closeLast (chain none (kept convo.mapping.entries)) :=
  congrArg closeLast (foldl_visit rfl)

/-- The stored messages are those of the taken nodes. -/
theorem get?_converted : (convertOpenAIMessages convo).history.messages.get? id = some m ↔
    ∃ front e back, kept convo.mapping.entries = front ++ e :: back ∧ e.1 = id ∧
      m = chatAt front e back := by
  have hids : Assoc.keys ((convertOpenAIMessages convo).messages.map fun m => (m.id, m)) =
      (kept convo.mapping.entries).map Prod.fst := by
    rw [Assoc.keys, List.map_map, converted_messages]
    exact (map_id_closeLast _).trans (map_id_chain none)
  have hnodup :
    (Assoc.keys ((convertOpenAIMessages convo).messages.map fun m => (m.id, m))).Nodup := by
    rw [hids]
    exact kept_nodup convo
  rw [← Dict.mem_entries_iff]
  change (id, m) ∈ (Dict.ofList
    ((convertOpenAIMessages convo).messages.map fun m => (m.id, m))).entries ↔ _
  rw [Dict.entries_ofList hnodup, converted_messages, List.mem_map]
  constructor
  · rintro ⟨m', hm', heq⟩
    obtain ⟨rfl, rfl⟩ := Prod.mk.inj heq
    obtain ⟨front, e, back, hsplit, rfl⟩ := (mem_closeLast []).mp hm'
    exact ⟨front, e, back, hsplit, rfl, rfl⟩
  · rintro ⟨front, e, back, hsplit, rfl, rfl⟩
    exact ⟨_, (mem_closeLast []).mpr ⟨front, e, back, hsplit, rfl⟩, rfl⟩

/-- If the last node is taken, it is the last one taken. -/
theorem kept_getLast? (hlast : nodes.getLast? = some e) (hkept : e ∈ kept nodes) :
    ∃ front, kept nodes = front ++ [e] := by
  obtain ⟨hdrop, hhidden⟩ := List.mem_filter.mp hkept
  obtain ⟨dropped, hsuffix⟩ :=
    List.dropWhile_suffix (fun e : String × Node => e.2.blank || e.2.hidden) (l := nodes)
  have hrest : (nodes.dropWhile fun e => e.2.blank || e.2.hidden).getLast? = some e := by
    rw [← hsuffix, List.getLast?_append] at hlast
    cases hnone : (nodes.dropWhile fun e => e.2.blank || e.2.hidden).getLast? with
    | none => rw [List.getLast?_eq_none_iff.mp hnone] at hdrop; cases hdrop
    | some e' => rw [hnone] at hlast; exact hlast
  obtain ⟨mid, hmid⟩ := List.getLast?_eq_some_iff.mp hrest
  refine ⟨mid.filter fun e => !e.2.hidden, ?_⟩
  rw [kept, hmid, List.filter_append, List.filter_singleton, hhidden]
  rfl

/-- A taken node has one place among the others. -/
theorem split_unique (hnodup : ((front ++ e :: back).map Prod.fst).Nodup)
    (heq : front ++ e :: back = front' ++ e' :: back') (hid : e.1 = e'.1) :
    front = front' ∧ e = e' ∧ back = back' := by
  have hlength : front.length = front'.length := by
    have hget : ((front ++ e :: back).map Prod.fst)[front.length]? = some e.1 := by simp
    have hget' :
      ((front ++ e :: back).map Prod.fst)[front'.length]? = some e.1 := by rw [heq, hid]; simp
    refine (List.getElem?_inj ?_ hnodup).mp (hget.trans hget'.symm)
    simp
  obtain ⟨hfront, hrest⟩ := List.append_inj heq hlength
  obtain ⟨he, hback⟩ := List.cons.inj hrest
  exact ⟨hfront, he, hback⟩

/-- The export is a chain already where it counts: the last node is taken, and each taken node but
the last has the next one for its only child. -/
structure Linear (convo : Conversation) : Prop where
  last : ∃ e ∈ kept convo.mapping.entries, convo.mapping.entries.getLast? = some e
  next : ∀ front e e' back, kept convo.mapping.entries = front ++ e :: e' :: back →
    ∀ c, c ∈ e.2.children.getD [] ↔ c = e'.1

/-- A message hangs from the one before it. -/
theorem parent_chatAt_iff (hnodup : ((front ++ e :: back).map Prod.fst).Nodup)
    (hsame : front ++ e :: back = front' ++ e' :: back') :
    (chatAt front' e' back').parentId = some e.1 ↔ back = e' :: back' := by
  change (front'.getLast?.map Prod.fst).or none = some e.1 ↔ _
  rw [Option.or_none, Option.map_eq_some_iff]
  constructor
  · rintro ⟨x, hlast, hid⟩
    obtain ⟨mid, rfl⟩ := List.getLast?_eq_some_iff.mp hlast
    rw [List.append_assoc, List.singleton_append] at hsame
    exact (split_unique hnodup hsame hid.symm).2.2
  · rintro rfl
    have hfront : front ++ [e] = front' := by
      have hright : (front ++ [e]) ++ e' :: back' = front' ++ e' :: back' := by
        rw [← hsame, List.append_assoc]
        rfl
      exact List.append_cancel_right hright
    rw [← hfront]
    exact ⟨e, by simp, rfl⟩

/-- The children of a stored message are right exactly if the export names the next one. -/
theorem children_iff (hsplit : kept convo.mapping.entries = front ++ e :: back) :
    (∀ c, c ∈ (chatAt front e back).childrenIds ↔
      ∃ n, (convertOpenAIMessages convo).history.messages.get? c = some n ∧ n.parentId = some e.1) ↔
    ∀ e' rest, back = e' :: rest → ∀ c, c ∈ e.2.children.getD [] ↔ c = e'.1 := by
  have hnodup := kept_nodup convo
  rw [hsplit] at hnodup
  have hchild : ∀ c, (∃ n, (convertOpenAIMessages convo).history.messages.get? c = some n ∧
      n.parentId = some e.1) ↔ ∃ e' rest, back = e' :: rest ∧ c = e'.1 := by
    intro c
    constructor
    · rintro ⟨n, hn, hparent⟩
      obtain ⟨front', e', back', hsplit', rfl, rfl⟩ := get?_converted.mp hn
      exact ⟨e', back', (parent_chatAt_iff hnodup (hsplit ▸ hsplit')).mp hparent, rfl⟩
    · rintro ⟨e', rest, rfl, rfl⟩
      have hsplit' : front ++ e :: e' :: rest = (front ++ [e]) ++ e' :: rest := by simp
      exact ⟨_, get?_converted.mpr ⟨_, _, _, hsplit.trans hsplit', rfl, rfl⟩,
        (parent_chatAt_iff hnodup hsplit').mpr rfl⟩
  simp only [hchild]
  cases back with
  | nil => simp [chatAt]
  | cons e' rest => simp [chatAt]

/-- Parents come before their children. -/
theorem converted_acyclic (convo : Conversation) : Forest.Acyclic fun id =>
    ((convertOpenAIMessages convo).history.messages.get? id).bind ChatMessage.parentId := by
  let ids := (kept convo.mapping.entries).map Prod.fst
  refine Forest.Acyclic.of_rank (fun id => ids.idxOf id) fun c p hparent => ?_
  obtain ⟨m, hm, hp⟩ := Option.bind_eq_some_iff.mp hparent
  obtain ⟨front, e, back, hsplit, rfl, rfl⟩ := get?_converted.mp hm
  change (front.getLast?.map Prod.fst).or none = some p at hp
  rw [Option.or_none, Option.map_eq_some_iff] at hp
  obtain ⟨x, hlast, rfl⟩ := hp
  obtain ⟨mid, rfl⟩ := List.getLast?_eq_some_iff.mp hlast
  have hnodup := kept_nodup convo
  have hids : ids = mid.map Prod.fst ++ x.1 :: e.1 :: back.map Prod.fst := by
    change (kept convo.mapping.entries).map Prod.fst = _
    rw [hsplit]
    simp
  change ids.Nodup at hnodup
  rw [hids] at hnodup ⊢
  obtain ⟨-, hrest, hcross⟩ := List.nodup_append.mp hnodup
  have hx : x.1 ∉ mid.map Prod.fst := fun hmem => hcross _ hmem _ List.mem_cons_self rfl
  have he : e.1 ∉ mid.map Prod.fst := fun hmem => hcross _ hmem _ (by simp) rfl
  have hne : x.1 ≠ e.1 := fun heq => (List.nodup_cons.mp hrest).1 (by simp [heq])
  rw [List.idxOf_append_of_notMem hx, List.idxOf_append_of_notMem he, List.idxOf_cons_self,
    List.idxOf_cons_ne _ hne]
  omega

/-- The history is well linked exactly if the taken nodes form a chain in the export. -/
theorem converted_wellLinked_iff (convo : Conversation) :
    WellLinked (convertOpenAIMessages convo).history ↔ Linear convo := by
  have hcurrent : (convertOpenAIMessages convo).history.currentId =
      (convo.mapping.entries.getLast?.map Prod.fst).getD "" := foldl_currentId _
  constructor
  · intro h
    constructor
    -- the current message is stored, so the last node was kept
    · obtain ⟨m, hm, -⟩ := h.current
      obtain ⟨front, e, back, hsplit, hid, -⟩ := get?_converted.mp hm
      have hkept : e ∈ kept convo.mapping.entries := by rw [hsplit]; simp
      refine ⟨e, hkept, ?_⟩
      have hmem := (kept_sublist _).subset hkept
      rw [hcurrent] at hid
      cases hlast : convo.mapping.entries.getLast? with
      | none => rw [List.getLast?_eq_none_iff.mp hlast] at hmem; cases hmem
      | some last =>
          rw [hlast] at hid
          have hlookup := Assoc.lookup_of_mem convo.mapping.nodup_keys hmem
          have hlookup' := Assoc.lookup_of_mem convo.mapping.nodup_keys (List.mem_of_getLast? hlast)
          rw [hid] at hlookup
          have hnode : last.2 = e.2 := Option.some.inj (hlookup'.symm.trans hlookup)
          exact congrArg some (Prod.ext hid.symm hnode)
    -- the children of the kept node are the node kept next
    · intro front e e' back hsplit
      have hget := get?_converted.mpr ⟨front, e, e' :: back, hsplit, rfl, rfl⟩
      exact (children_iff hsplit).mp (h.children _ _ hget) e' back rfl
  · intro h
    refine ⟨?_, ?_, converted_acyclic convo, ?_⟩
    -- the parent is the node kept before, which was converted too
    · intro id m hm p hp
      obtain ⟨front, e, back, hsplit, rfl, rfl⟩ := get?_converted.mp hm
      change (front.getLast?.map Prod.fst).or none = some p at hp
      rw [Option.or_none, Option.map_eq_some_iff] at hp
      obtain ⟨x, hlast, rfl⟩ := hp
      obtain ⟨mid, rfl⟩ := List.getLast?_eq_some_iff.mp hlast
      rw [List.append_assoc, List.singleton_append] at hsplit
      exact Dict.mem_of_get? (get?_converted.mpr ⟨mid, x, e :: back, hsplit, rfl, rfl⟩)
    · intro id m hm
      obtain ⟨front, e, back, hsplit, rfl, rfl⟩ := get?_converted.mp hm
      refine (children_iff hsplit).mpr fun e' rest hback => ?_
      subst hback
      exact h.next _ _ _ _ hsplit
    · obtain ⟨e, hkept, hlast⟩ := h.last
      obtain ⟨front, hsplit⟩ := kept_getLast? hlast hkept
      refine ⟨_, get?_converted.mpr ⟨front, e, [], hsplit, ?_, rfl⟩, rfl⟩
      rw [hcurrent, hlast]
      rfl

end Links

/-- The nodes form a tree: parents and children say the same. -/
structure IsTree (convo : Conversation) : Prop where
  links : ∀ id n p, convo.mapping.get? id = some n → (n.parent = some p ↔
    ∃ q, convo.mapping.get? p = some q ∧ id ∈ q.children.getD [])
  acyclic : Forest.Acyclic fun id => (convo.mapping.get? id).bind Node.parent

/-- A question that is answered through a tool. -/
def toolConversation : Conversation where
  title := none
  createTime := none
  mapping := .ofList [
    ("u", ⟨some ⟨some "user", some ⟨some [.text "?"], none⟩, none, none⟩, none, some ["t"]⟩),
    ("t", ⟨some ⟨some "tool", some ⟨none, none⟩, none, none⟩, some "u", some ["a"]⟩),
    ("a", ⟨some ⟨some "assistant", some ⟨none, some "!"⟩, none, none⟩, some "t", some []⟩)]

/-- The links of the example. -/
theorem toolConversation_parents (id : String) :
    (toolConversation.mapping.get? id).bind Node.parent =
    if id = "t" then some "u" else if id = "a" then some "t" else none := by
  by_cases hid : id ∈ toolConversation.mapping
  · have hids : id ∈ ["u", "t", "a"] := hid
    simp only [List.mem_cons, List.not_mem_nil, or_false] at hids
    rcases hids with rfl | rfl | rfl <;> rfl
  · have hids : id ∉ ["u", "t", "a"] := hid
    simp only [List.mem_cons, List.not_mem_nil, or_false, not_or] at hids
    rw [(Dict.get?_eq_none_iff ..).mpr hid, if_neg hids.2.1, if_neg hids.2.2]
    rfl

/-- The example is a tree. -/
theorem toolConversation_tree : IsTree toolConversation := by
  constructor
  · intro id n p hn
    have hparent := toolConversation_parents id
    rw [hn, Option.bind_some] at hparent
    have hids : ∀ e ∈ toolConversation.mapping.entries, (e.2.children.getD []) =
        if e.1 = "u" then ["t"] else if e.1 = "t" then ["a"] else [] := by decide
    constructor
    · intro hp
      rw [hp] at hparent
      split_ifs at hparent with ht ha
      · rw [ht, Option.some.inj hparent]
        exact ⟨_, rfl, by decide⟩
      · rw [ha, Option.some.inj hparent]
        exact ⟨_, rfl, by decide⟩
    · rintro ⟨q, hq, hid⟩
      have hchildren : q.children.getD [] = if p = "u" then ["t"] else if p = "t" then
        ["a"] else [] :=
        hids (p, q) (Assoc.mem_of_lookup hq)
      rw [hchildren] at hid
      rw [hparent]
      split_ifs at hid with hu ht
      · rw [if_pos (List.mem_singleton.mp hid), hu]
      · rw [List.mem_singleton.mp hid, ht]
        decide
      · cases hid
  · -- the parents are fewer and fewer steps below the root
    refine Forest.Acyclic.of_rank (fun id => if id = "u" then 0 else if id = "t" then 1
      else 2) fun c p hp => ?_
    rw [toolConversation_parents] at hp
    split_ifs at hp with ht ha
    · rw [ht, ← Option.some.inj hp]
      decide
    · rw [ha, ← Option.some.inj hp]
      decide

/-- The question names the tool's node for its child, which is not stored. -/
theorem toolConversation_not_wellLinked : IsTree toolConversation ∧
    ¬ WellLinked (convertOpenAIMessages toolConversation).history := by
  refine ⟨toolConversation_tree, fun h => ?_⟩
  have hu : ∃ m, (convertOpenAIMessages toolConversation).history.messages.get? "u" = some m ∧
      "t" ∈ m.childrenIds := ⟨_, rfl, by decide⟩
  obtain ⟨m, hm, ht⟩ := hu
  obtain ⟨n, hn, -⟩ := (h.children "u" m hm "t").mp ht
  cases hn

end OpenWebUI.Chat.Import
