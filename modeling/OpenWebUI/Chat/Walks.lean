import OpenWebUI.Lib.Forest
import OpenWebUI.Chat.Path

/-! # Three walks over the parent links

The server reads a branch with `get_message_list`, copies it with `build_fork_history` of
`backend/open_webui/utils/chat_fork.py`, and the client lists it with `createMessagesList`
of `src/lib/utils/index.ts`. The server's walks remember the keys they visited; the
client's does not. The main result says on which maps the three agree.
-/

namespace OpenWebUI.Chat

open Py

/-- The id a message names as its parent; `''` names none. It need not be stored. -/
def Messages.linkedId (ms : Messages) (k : String) : Option String :=
  (ms.get? k).bind fun m => (m.get "parentId").asStr.filter fun p => p ≠ ""

/-- Messages as a chat keeps them: not empty, the parent link `null` or an id. -/
def Messages.Wellformed (ms : Messages) : Prop :=
  ∀ k m, ms.get? k = some m → m ≠ [] ∧ (m.get "parentId" = .null ∨ ∃ p, m.get "parentId" = .str p)

/-! ## `build_fork_history` -/

/-- What `build_fork_history` raises. -/
inductive ForkError where
  | noMessages
  | cycle
  | notFound
  | unhashable
deriving DecidableEq

/-- The loop `while message_id`, with the ids in `seen`. -/
def forkBranch (ms : Messages) : ℕ → Json → List String → List (String × Message) →
    Option (Except ForkError (List (String × Message)))
  | 0, _, _, _ => none
  | fuel + 1, messageId, seen, branch =>
    if !messageId.truthy then some (.ok branch)
    else
      match messageId with
      | .str s =>
        if s ∈ seen then some (.error .cycle)
        else
          match ms.get? s with
          | none => some (.error .notFound)
          | some m => forkBranch ms fuel (m.get "parentId") (s :: seen) (branch ++ [(s, m)])
      | .arr _ => some (.error .unhashable)
      | .obj _ => some (.error .unhashable)
      | _ => some (.error .notFound)

/-- A copied message with its new links. -/
def forkCopy (m : Message) (id : String) (parentId : Option String)
    (children : List String) : Message :=
  let copied := Assoc.set m "id" (.str id)
  let copied := Assoc.set copied "parentId" ((parentId.map Json.str).getD .null)
  Assoc.set copied "childrenIds" (.arr (children.map Json.str))

/-- `fork_messages[parent_id]['childrenIds'] = [message_id]` under a truthy `parent_id`. -/
def giveChild (forkMessages : Messages) (parentId : Option String)
    (messageId : String) : Messages :=
  match parentId.filter fun p => p ≠ "" with
  | none => forkMessages
  | some p => forkMessages.modify p fun m => Assoc.set m "childrenIds" (.arr [.str messageId])

/-- One turn of the copying loop, on the copies so far and `parent_id`. -/
def forkMessage (state : Messages × Option String) (entry : String × Message) :
    Messages × Option String :=
  let copied := forkCopy entry.2 entry.1 state.2 []
  ((giveChild state.1 state.2 entry.1).set entry.1 copied, some entry.1)

/-- The fork: its history, and its messages in order, which are the same objects. -/
structure Fork where
  history : History
  ordered : List Message

/-- The fork of a branch listed from the source upwards. -/
def forkOf (sourceMessageId : String) (branch : List (String × Message)) : Fork :=
  let forkMessages := (branch.reverse.foldl forkMessage (∅, none)).1
  ⟨⟨forkMessages, some sourceMessageId⟩, branch.reverse.filterMap fun e => forkMessages.get? e.1⟩

def buildForkHistory (ms : Messages) (fuel : ℕ) (sourceMessageId : String) :
    Option (Except ForkError Fork) :=
  if ms.entries = [] then some (.error .noMessages)
  else (forkBranch ms fuel (.str sourceMessageId) [] []).map fun r => r.map (forkOf sourceMessageId)

/-! ## `createMessagesList` -/

/-- What a JavaScript object answers to besides its own properties. -/
def objectPrototype : List String :=
  ["constructor", "__proto__", "__defineGetter__", "__defineSetter__", "__lookupGetter__",
    "__lookupSetter__", "hasOwnProperty", "isPrototypeOf", "propertyIsEnumerable",
    "toLocaleString", "toString", "valueOf"]

/-- `history.messages[currentId]`; what is inherited has no `parentId`. -/
def Messages.property (ms : Messages) (k : String) : Option Message :=
  (ms.get? k).or (if k ∈ objectPrototype then some [] else none)

/-- The loop of `createMessagesList`, with the keys it read and the list pushed so far. -/
def createMessagesList (ms : Messages) : ℕ → Option String → List (String × Message) →
    Option (List (String × Message))
  | 0, _, _ => none
  | _ + 1, none, list => some list.reverse
  | fuel + 1, some currentId, list =>
    match ms.property currentId with
    | none => some list.reverse
    | some m => createMessagesList ms fuel (m.get "parentId").asStr (list ++ [(currentId, m)])

/-! ## What the walks should do -/

/-- A link above `id`, or `id` itself, names no stored message. -/
def Broken (ms : Messages) (id : String) : Prop :=
  ∃ k, Relation.ReflTransGen (Forest.Up ms.linkedId) id k ∧ k ∉ ms

/-- The links above `id` run into a cycle. -/
def Cyclic (ms : Messages) (id : String) : Prop := Forest.CyclicAbove ms.linkedId id

/-- `path` lists the messages above `id`, each once, from the top down: it starts under a
message that is no parent, is not stored or is listed already. -/
structure ParentPath (ms : Messages) (id : String) (path : List (String × Message)) : Prop where
  stored : ∀ e ∈ path, ms.get? e.1 = some e.2
  nodup : (path.map Prod.fst).Nodup
  last : path.getLast? = (ms.get? id).map fun m => (id, m)
  linked : path.IsChain fun parent child => ms.parentEntry child.2 = some parent
  top : ∀ e ∈ path.head?, ∀ p ∈ ms.parentEntry e.2, p ∈ path

/-- The fork is one chain through copies of the messages of `path`, each changed in its id and
its links only. -/
structure ForkChain (id : String) (path : List (String × Message)) (fork : Fork) : Prop where
  keys : fork.history.messages.keys = path.map Prod.fst
  entry : ∀ before e after, path = before ++ e :: after →
    fork.history.messages.get? e.1 = some (forkCopy e.2 e.1 (before.getLast?.map Prod.fst)
      (after.head?.toList.map Prod.fst))
  ordered : fork.ordered.map some = path.map fun e => fork.history.messages.get? e.1
  currentId : fork.history.currentId = some id

/-- The three walks from `id` do what they should, and terminate. -/
structure WalksAgree (ms : Messages) (id : String) : Prop where
  path : ParentPath ms id (getMessagePath ms id)
  fork : ∃ fuel r, buildForkHistory ms fuel id = some r ∧
    ((∃ e, r = .error e) ↔ Broken ms id ∨ Cyclic ms id) ∧
    ∀ f, r = .ok f → ForkChain id (getMessagePath ms id) f
  list : ∃ fuel l, createMessagesList ms fuel (some id) [] = some l ∧
    l.map Prod.fst = messageChain ms id

/-! ## Links -/

variable {ms : Messages}

/-- The stored entries under the keys of `l`. -/
def Messages.entriesAt (ms : Messages) (l : List String) : List (String × Message) :=
  l.filterMap fun k => (ms.get? k).map fun m => (k, m)

/-- An entry is a stored message of the list. -/
theorem Messages.mem_entriesAt {l : List String} {e : String × Message} :
    e ∈ ms.entriesAt l ↔ e.1 ∈ l ∧ ms.get? e.1 = some e.2 := by
  rw [entriesAt, List.mem_filterMap]
  constructor
  · rintro ⟨k, hk, he⟩
    obtain ⟨m, hm, rfl⟩ := Option.map_eq_some_iff.mp he
    exact ⟨hk, hm⟩
  · rintro ⟨hk, hm⟩
    exact ⟨e.1, hk, by rw [hm, Option.map_some]⟩

theorem Messages.entriesAt_cons {k : String} {m : Message} (l : List String)
    (hm : ms.get? k = some m) :
    ms.entriesAt (k :: l) = (k, m) :: ms.entriesAt l := by
  rw [entriesAt, List.filterMap_cons, hm]
  rfl

/-- What is not stored gives no entry. -/
theorem Messages.entriesAt_missing {k : String} (hk : k ∉ ms) : ms.entriesAt [k] = [] := by
  rw [entriesAt, List.filterMap_cons, (Dict.get?_eq_none_iff ms k).mpr hk]
  rfl

/-- The link is a text that is not empty. -/
theorem Messages.linkedId_eq_some {k p : String} :
    ms.linkedId k = some p ↔ ∃ m, ms.get? k = some m ∧ m.get "parentId" = .str p ∧ p ≠ "" := by
  rw [linkedId, Option.bind_eq_some_iff]
  refine exists_congr fun m => and_congr_right fun _ => ?_
  rw [Option.filter_eq_some_iff, decide_eq_true_eq]
  refine and_congr_left fun _ => ?_
  cases m.get "parentId" with
  | str s => rw [Json.asStr_str, Option.some.injEq, Json.str.injEq]
  | _ => simp [Json.asStr]

/-- What is not stored has no link. -/
theorem Messages.linkedId_of_missing {k : String} (hk : k ∉ ms) : ms.linkedId k = none := by
  rw [linkedId, (Dict.get?_eq_none_iff ms k).mpr hk, Option.bind_none]

/-- How the parent link of a stored message reads. -/
theorem Messages.Wellformed.link (h : ms.Wellformed) {k : String} {m : Message}
    (hm : ms.get? k = some m) :
    (ms.linkedId k = none ∧ ((m.get "parentId") = .null ∨ m.get "parentId" = .str "")) ∨
      ∃ p, ms.linkedId k = some p ∧ m.get "parentId" = .str p ∧ p ≠ "" := by
  have hnone : (¬ ∃ p, m.get "parentId" = .str p ∧ p ≠ "") → ms.linkedId k = none := by
    intro hno
    refine Option.eq_none_iff_forall_not_mem.mpr fun p hp => ?_
    obtain ⟨n, hn, hlink⟩ := linkedId_eq_some.mp hp
    obtain rfl := Option.some.inj (hm.symm.trans hn)
    exact hno ⟨p, hlink⟩
  rcases (h k m hm).2 with hnull | ⟨p, hp⟩
  · refine .inl ⟨hnone ?_, .inl hnull⟩
    rintro ⟨p, hp, _⟩
    rw [hnull] at hp
    cases hp
  · by_cases hempty : p = ""
    · subst hempty
      refine .inl ⟨hnone ?_, .inr hp⟩
      rintro ⟨q, hq, hne⟩
      exact hne (Json.str.inj (hq.symm.trans hp))
    · exact .inr ⟨p, linkedId_eq_some.mpr ⟨m, hm, hp, hempty⟩, hp, hempty⟩

/-- Without a link there is no entry of a parent. -/
theorem Messages.parentEntry_of_linkedId_none {k : String} {m : Message} (hm : ms.get? k = some m)
    (hlink : ms.linkedId k = none) : ms.parentEntry m = none := by
  refine Option.eq_none_iff_forall_not_mem.mpr fun e he => ?_
  obtain ⟨hp, hne, _⟩ := Messages.parentEntry_eq_some (p := e.1) (n := e.2).mp he
  rw [linkedId_eq_some.mpr ⟨m, hm, hp, hne⟩] at hlink
  cases hlink

/-- Where no cycle is met, the walk up from `id` can be listed. -/
theorem exists_ascent_of_not_cyclic {id : String} (h : ¬ Cyclic ms id) :
    ∃ l, Forest.Ascent ms.linkedId id l := by
  refine Forest.exists_ascent (S := {p | p ∈ ms.keys.filterMap ms.linkedId})
    (List.finite_toSet _) (fun c p hcp => ?_) h
  obtain ⟨m, hm, _⟩ := Messages.linkedId_eq_some.mp hcp
  exact List.mem_filterMap.mpr ⟨c, (Assoc.mem_keys_iff _ _).mpr (by
    rw [show ms.entries.lookup c = some m from hm]; rfl), hcp⟩

/-- A path is broken where a message on it is not stored. -/
theorem broken_iff {id : String} {l : List String} (h : Forest.Ascent ms.linkedId id l) :
    Broken ms id ↔ ∃ k ∈ l, k ∉ ms := by
  refine exists_congr fun k => and_congr_left fun _ => ?_
  exact h.mem_iff.symm

/-! ## `get_message_list` -/

/-- On a branch without cycles the walk takes every stored message. -/
theorem climb_ascent (hms : ms.Wellformed) {k : String} {l : List String}
    (h : Forest.Ascent ms.linkedId k l) : ∀ (m : Message) (fuel : ℕ) (visited : List String),
      ms.get? k = some m → l.length ≤ fuel → (∀ x ∈ l, x ∉ visited) →
      climb ms fuel k m visited = ms.entriesAt l := by
  induction h with
  | @root k hroot =>
      intro m fuel visited hm hfuel hfresh
      obtain ⟨n, rfl⟩ := Nat.exists_eq_add_of_le' hfuel
      have hgo : ¬ (m = [] ∨ k ∈ visited) :=
        not_or.mpr ⟨(hms k m hm).1, hfresh k List.mem_cons_self⟩
      rw [show n + [k].length = n + 1 from rfl, climb, if_neg hgo,
        Messages.parentEntry_of_linkedId_none hm hroot, Messages.entriesAt_cons [] hm]
      rfl
  | @up k p l hup hp ih =>
      intro m fuel visited hm hfuel hfresh
      obtain ⟨n, rfl⟩ := Nat.exists_eq_add_of_le' hfuel
      have hgo : ¬ (m = [] ∨ k ∈ visited) :=
        not_or.mpr ⟨(hms k m hm).1, hfresh k List.mem_cons_self⟩
      have hnodup := (Forest.Ascent.up hup hp).nodup
      rw [List.length_cons, ← Nat.add_assoc, climb, if_neg hgo, Messages.entriesAt_cons l hm]
      congr 1
      obtain ⟨m', hm', hlink, hne⟩ := Messages.linkedId_eq_some.mp hup
      obtain rfl := Option.some.inj (hm.symm.trans hm')
      cases hn : ms.get? p with
      | none =>
          -- the link dangles, so the branch ends here
          have hmissing := (Dict.get?_eq_none_iff ms p).mp hn
          have hentry : ms.parentEntry m = none := by
            refine Option.eq_none_iff_forall_not_mem.mpr fun e he => ?_
            obtain ⟨hp', _, hget⟩ := (Messages.parentEntry_eq_some (p := e.1) (n := e.2)).mp he
            obtain rfl := Json.str.inj (hlink.symm.trans hp')
            rw [hn] at hget
            cases hget
          rw [hentry]
          cases hp with
          | root _ => exact (Messages.entriesAt_missing hmissing).symm
          | up hq _ =>
              rw [Messages.linkedId_of_missing hmissing] at hq
              cases hq
      | some n' =>
          rw [Messages.parentEntry_eq_some.mpr ⟨hlink, hne, hn⟩]
          refine ih n' _ (k :: visited) hn (Nat.le_add_left _ _) fun x hx hmem => ?_
          rcases List.mem_cons.mp hmem with rfl | hmem
          · exact (List.nodup_cons.mp hnodup).1 hx
          · exact hfresh x (List.mem_cons_of_mem _ hx) hmem

/-- The path is that of the links, from the root. -/
theorem getMessagePath_ascent (hms : ms.Wellformed) {id : String} {l : List String}
    (h : Forest.Ascent ms.linkedId id l) : getMessagePath ms id = (ms.entriesAt l).reverse := by
  cases hm : ms.get? id with
  | some m =>
      rw [getMessagePath_fuel hm (Nat.le_add_right _ l.length),
        climb_ascent hms h m _ [] hm (by omega) fun _ _ => List.not_mem_nil]
  | none =>
      have hmissing := (Dict.get?_eq_none_iff ms id).mp hm
      rw [getMessagePath, hm]
      cases h with
      | root _ => rw [Messages.entriesAt_missing hmissing, List.reverse_nil]
      | up hq _ =>
          rw [Messages.linkedId_of_missing hmissing] at hq
          cases hq

/-- What the walk lists from `id`, with `visited` behind it. -/
structure Climbed (ms : Messages) (id : String) (m : Message) (visited : List String)
    (l : List (String × Message)) : Prop where
  stored : ∀ e ∈ l, ms.get? e.1 = some e.2
  nodup : (l.map Prod.fst).Nodup
  fresh : ∀ e ∈ l, e.1 ∉ visited
  first : l.head? = some (id, m)
  linked : l.IsChain fun child parent => ms.parentEntry child.2 = some parent
  last : ∀ e ∈ l.getLast?, ∀ p ∈ ms.parentEntry e.2, p ∈ l ∨ p.1 ∈ visited

/-- The climb with enough fuel. -/
theorem climbed_climb (hms : ms.Wellformed) (fuel : ℕ) : ∀ (id : String) (m : Message)
    (visited : List String), ms.get? id = some m → id ∉ visited → visited.Nodup →
      (∀ v ∈ visited, v ∈ ms) → ms.size + 1 ≤ fuel + visited.length →
      Climbed ms id m visited (climb ms fuel id m visited) := by
  induction fuel with
  | zero =>
      intro id m visited hm hid hnd hsub hfuel
      have hle := ms.length_le_size hnd hsub
      omega
  | succ fuel ih =>
      intro id m visited hm hid hnd hsub hfuel
      -- the message is stored and not seen, so it is listed
      have hgo : ¬ (m = [] ∨ id ∈ visited) := not_or.mpr ⟨(hms id m hm).1, hid⟩
      rw [climb, if_neg hgo]
      -- the walk ends here, if the parent was seen or there is none
      have hstop : (∀ p ∈ ms.parentEntry m, p = (id, m) ∨ p.1 ∈ visited) →
          Climbed ms id m visited [(id, m)] := fun hend =>
        { stored := fun e he => List.mem_singleton.mp he ▸ hm
          nodup := List.nodup_singleton id
          fresh := fun e he => List.mem_singleton.mp he ▸ hid
          first := rfl
          linked := List.isChain_singleton _
          last := fun e he p hp => by
            obtain rfl := Option.some.inj he
            exact (hend p hp).imp_left List.mem_singleton.mpr }
      cases hp : ms.parentEntry m with
      | none => exact hstop fun p hpm => by rw [hp] at hpm; cases hpm
      | some e =>
          obtain ⟨p, n⟩ := e
          have hn := (Messages.parentEntry_eq_some.mp hp).2.2
          by_cases hseen : p ∈ id :: visited
          · -- the parent was listed before
            have hnil : climb ms fuel p n (id :: visited) = [] := by
              cases fuel with
              | zero => rfl
              | succ fuel => rw [climb, if_pos (.inr hseen)]
            simp only [hnil]
            refine hstop fun q hq => ?_
            rw [hp] at hq
            obtain rfl := Option.some.inj hq
            rcases List.mem_cons.mp hseen with rfl | hvisited
            · exact .inl (by rw [Option.some.inj (hn.symm.trans hm)])
            · exact .inr hvisited
          -- the parent is listed next
          · have hrest := ih p n (id :: visited) hn hseen (List.nodup_cons.mpr ⟨hid, hnd⟩)
              (fun v hv => (List.mem_cons.mp hv).elim (fun h => h ▸ Dict.mem_of_get? hm) (hsub v))
              (by rw [List.length_cons]; omega)
            exact
              { stored := fun e he => (List.mem_cons.mp he).elim (fun h => h ▸ hm) (hrest.stored e)
                nodup := by
                  rw [List.map_cons, List.nodup_cons]
                  refine ⟨fun hmem => ?_, hrest.nodup⟩
                  obtain ⟨e, he, heq⟩ := List.mem_map.mp hmem
                  exact hrest.fresh e he (heq ▸ List.mem_cons_self)
                fresh := fun e he => (List.mem_cons.mp he).elim (fun h => h ▸ hid)
                  fun h hmem => hrest.fresh e h (List.mem_cons_of_mem _ hmem)
                first := rfl
                linked := by
                  refine List.isChain_cons.mpr ⟨fun e he => ?_, hrest.linked⟩
                  rw [hrest.first] at he
                  obtain rfl := Option.some.inj he
                  exact hp
                last := by
                  intro e he q hq
                  have hne : climb ms fuel p n (id :: visited) ≠ [] := by
                    intro hnil
                    have hfirst := hrest.first
                    rw [hnil] at hfirst
                    cases hfirst
                  rw [List.getLast?_cons_of_ne_nil hne] at he
                  rcases hrest.last e he q hq with hmem | hmem
                  · exact .inl (List.mem_cons_of_mem _ hmem)
                  · rcases List.mem_cons.mp hmem with heq | hvisited
                    · -- the walk ends under the message it started from
                      have hstored := (Messages.parentEntry_eq_some (p := q.1) (n := q.2).mp hq).2.2
                      rw [heq, hm] at hstored
                      exact .inl (List.mem_cons.mpr
                        (.inl (Prod.ext heq (Option.some.inj hstored).symm)))
                    · exact .inr hvisited }

/-- The path follows the parents. -/
theorem parentPath_getMessagePath (hms : ms.Wellformed) (id : String) :
    ParentPath ms id (getMessagePath ms id) := by
  cases hm : ms.get? id with
  | none =>
      have hnil : getMessagePath ms id = [] := by rw [getMessagePath, hm]
      rw [hnil]
      exact
        { stored := fun _ he => absurd he List.not_mem_nil
          nodup := List.nodup_nil
          last := by rw [hm]; rfl
          linked := List.isChain_nil
          top := fun _ he => by cases he }
  | some m =>
      have h := climbed_climb hms (ms.size + 1) id m [] hm List.not_mem_nil List.nodup_nil
        (fun _ hv => absurd hv List.not_mem_nil) (by simp)
      rw [getMessagePath_fuel hm (le_refl _)]
      exact
        { stored := fun e he => h.stored e (List.mem_reverse.mp he)
          nodup := by
            rw [List.map_reverse]
            exact List.nodup_reverse.mpr h.nodup
          last := by rw [List.getLast?_reverse, h.first, hm]; rfl
          linked := List.isChain_reverse.mpr h.linked
          top := fun e he p hp => by
            rw [List.head?_reverse] at he
            exact List.mem_reverse.mpr ((h.last e he p hp).resolve_right List.not_mem_nil) }

/-! ## `build_fork_history` -/

/-- One step of the fork's walk. -/
theorem forkBranch_str {k : String} (hk : k ≠ "") (fuel : ℕ) (seen : List String)
    (branch : List (String × Message)) :
    forkBranch ms (fuel + 1) (.str k) seen branch =
      if k ∈ seen then some (.error .cycle)
      else match ms.get? k with
        | none => some (.error .notFound)
        | some m => forkBranch ms fuel (m.get "parentId") (k :: seen) (branch ++ [(k, m)]) := by
  rw [forkBranch, if_neg (by simp [hk])]

/-- The fork's walk stops without a parent. -/
theorem forkBranch_stop {parentId : Json} (h : parentId = .null ∨ parentId = .str "") (fuel : ℕ)
    (seen : List String) (branch : List (String × Message)) :
    forkBranch ms (fuel + 1) parentId seen branch = some (.ok branch) := by
  rcases h with rfl | rfl <;> rfl

/-- On a branch without cycles the loop collects every message, or meets a missing one. -/
theorem forkBranch_ascent (hms : ms.Wellformed) {k : String} {l : List String}
    (h : Forest.Ascent ms.linkedId k l) : ∀ (fuel : ℕ) (seen : List String)
      (branch : List (String × Message)), k ≠ "" → l.length + 1 ≤ fuel → (∀ x ∈ l, x ∉ seen) →
      forkBranch ms fuel (.str k) seen branch =
        some (if ∀ x ∈ l, x ∈ ms then .ok (branch ++ ms.entriesAt l) else .error .notFound) := by
  induction h with
  | @root k hroot =>
      intro fuel seen branch hk hfuel hfresh
      obtain ⟨n, rfl⟩ := Nat.exists_eq_add_of_le' hfuel
      rw [show n + ([k].length + 1) = n + 1 + 1 from rfl, forkBranch_str hk,
        if_neg (hfresh k List.mem_cons_self)]
      cases hm : ms.get? k with
      | none =>
          have hmissing := (Dict.get?_eq_none_iff ms k).mp hm
          rw [if_neg fun hall => hmissing (hall k List.mem_cons_self)]
      | some m =>
          rcases hms.link hm with ⟨_, hstop⟩ | ⟨p, hp, _⟩
          · have hall : ∀ x ∈ [k], x ∈ ms :=
              fun x hx => List.mem_singleton.mp hx ▸ Dict.mem_of_get? hm
            simp only [forkBranch_stop hstop]
            rw [if_pos hall, Messages.entriesAt_cons [] hm]
            rfl
          · rw [hroot] at hp
            cases hp
  | @up k p l hup hp ih =>
      intro fuel seen branch hk hfuel hfresh
      obtain ⟨n, rfl⟩ := Nat.exists_eq_add_of_le' hfuel
      have hnodup := (Forest.Ascent.up hup hp).nodup
      obtain ⟨m, hm, hlink, hne⟩ := Messages.linkedId_eq_some.mp hup
      rw [List.length_cons, ← Nat.add_assoc, forkBranch_str hk,
        if_neg (hfresh k List.mem_cons_self), hm]
      simp only [hlink]
      rw [ih _ (k :: seen) (branch ++ [(k, m)]) hne (by omega) ?_, Messages.entriesAt_cons l hm,
        List.append_assoc, List.singleton_append]
      · have hiff : (∀ x ∈ k :: l, x ∈ ms) ↔ ∀ x ∈ l, x ∈ ms := by
          rw [List.forall_mem_cons]
          exact and_iff_right (Dict.mem_of_get? hm)
        simp only [hiff]
      · intro x hx hmem
        rcases List.mem_cons.mp hmem with rfl | hmem
        · exact (List.nodup_cons.mp hnodup).1 hx
        · exact hfresh x (List.mem_cons_of_mem _ hx) hmem

/-- The ids in `seen` are keys, each once, so the loop comes to an end. -/
theorem forkBranch_total (hms : ms.Wellformed) (fuel : ℕ) : ∀ (k : String) (seen : List String)
    (branch : List (String × Message)), k ≠ "" → seen.Nodup → (∀ v ∈ seen, v ∈ ms) →
      ms.size + 2 ≤ fuel + seen.length → ∃ r, forkBranch ms fuel (.str k) seen branch = some r := by
  induction fuel with
  | zero =>
      intro k seen branch _ hnd hsub hfuel
      have hle := ms.length_le_size hnd hsub
      omega
  | succ fuel ih =>
      intro k seen branch hk hnd hsub hfuel
      rw [forkBranch_str hk]
      split_ifs with hseen
      · exact ⟨_, rfl⟩
      · cases hm : ms.get? k with
        | none => exact ⟨_, rfl⟩
        | some m =>
            have hnd' : (k :: seen).Nodup := List.nodup_cons.mpr ⟨hseen, hnd⟩
            have hsub' : ∀ v ∈ k :: seen, v ∈ ms := fun v hv =>
              (List.mem_cons.mp hv).elim (fun h => h ▸ Dict.mem_of_get? hm) (hsub v)
            have hle := ms.length_le_size hnd' hsub'
            rw [List.length_cons] at hle
            simp only
            rcases hms.link hm with ⟨_, hstop⟩ | ⟨p, _, hlink, hne⟩
            · obtain ⟨n, rfl⟩ : ∃ n, fuel = n + 1 := ⟨fuel - 1, by omega⟩
              exact ⟨_, forkBranch_stop hstop _ _ _⟩
            · rw [hlink]
              exact ih p _ _ hne hnd' hsub' (by rw [List.length_cons]; omega)

/-- The loop returns from no cycle. -/
theorem not_cyclic_of_forkBranch (hms : ms.Wellformed) (fuel : ℕ) : ∀ (k : String)
    (seen : List String) (branch r : List (String × Message)), k ≠ "" →
      forkBranch ms fuel (.str k) seen branch = some (.ok r) → ¬ Cyclic ms k := by
  induction fuel with
  | zero =>
      intro k seen branch r _ h
      cases h
  | succ fuel ih =>
      intro k seen branch r hk h
      rw [forkBranch_str hk] at h
      by_cases hseen : k ∈ seen
      · rw [if_pos hseen] at h
        cases h
      rw [if_neg hseen] at h
      cases hm : ms.get? k with
      | none =>
          rw [hm] at h
          cases h
      | some m =>
          rw [hm] at h
          simp only at h
          rcases hms.link hm with ⟨hnone, _⟩ | ⟨p, hp, hlink, hne⟩
          · exact Forest.not_cyclicAbove_root hnone
          · rw [hlink] at h
            rw [Cyclic, Forest.CyclicAbove.up hp]
            exact ih p _ _ r hne h

/-! ### The copies -/

/-- The copies of a list of messages with distinct ids, as the copying loop leaves them. -/
structure Copied (path : List (String × Message)) (state : Messages × Option String) : Prop where
  keys : state.1.keys = path.map Prod.fst
  entry : ∀ before e after, path = before ++ e :: after →
    state.1.get? e.1 = some (forkCopy e.2 e.1 (before.getLast?.map Prod.fst)
      (after.head?.toList.map Prod.fst))
  parent : state.2 = path.getLast?.map Prod.fst

theorem get?_giveChild (forkMessages : Messages) {parentId : Option String}
    (hne : ∀ p, parentId = some p → p ≠ "") (child k : String) :
    (giveChild forkMessages parentId child).get? k = if parentId = some k then
      (forkMessages.get? k).map fun m => Assoc.set m "childrenIds" (.arr [.str child])
      else forkMessages.get? k := by
  cases parentId with
  | none => rfl
  | some p =>
      rw [giveChild, Option.filter_some, if_pos (by simp [hne p rfl])]
      simp only [Dict.get?_modify, Option.some.injEq]
      by_cases hk : p = k
      · rw [if_pos hk, if_pos hk.symm]
      · rw [if_neg hk, if_neg fun hk' => hk hk'.symm]

theorem keys_giveChild (forkMessages : Messages) (parentId : Option String) (child : String) :
    (giveChild forkMessages parentId child).keys = forkMessages.keys := by
  rw [giveChild]
  cases parentId.filter fun p => p ≠ "" with
  | none => rfl
  | some p => exact Dict.keys_modify _ _ _

/-- The loop copies one more message under the last one. -/
theorem copied_forkMessage {path : List (String × Message)} {state : Messages × Option String}
    (h : Copied path state) {e : String × Message} (hnew : e.1 ∉ path.map Prod.fst)
    (hne : ∀ x ∈ path, x.1 ≠ "") (hnodup : (path.map Prod.fst).Nodup) :
    Copied (path ++ [e]) (forkMessage state e) := by
  -- the last copy gets the new one as its child
  have hmap : ∀ k, (giveChild state.1 state.2 e.1).get? k = if state.2 = some k then
      (state.1.get? k).map fun m => Assoc.set m "childrenIds" (.arr [.str e.1])
      else state.1.get? k := by
    intro k
    refine get?_giveChild state.1 (fun p hp => ?_) e.1 k
    rw [h.parent] at hp
    obtain ⟨last, hlast, rfl⟩ := Option.map_eq_some_iff.mp hp
    exact hne last (List.mem_of_getLast? hlast)
  refine ⟨?_, ?_, ?_⟩
  -- the keys
  · have hfresh : e.1 ∉ giveChild state.1 state.2 e.1 := by
      show e.1 ∉ (giveChild state.1 state.2 e.1).keys
      rw [keys_giveChild, h.keys]
      exact hnew
    rw [forkMessage]
    simp only
    rw [Dict.keys_set_new hfresh, keys_giveChild, h.keys, List.map_append]
    rfl
  · intro before x after hpath
    rw [forkMessage]
    simp only
    rw [Dict.get?_set]
    rcases List.eq_nil_or_concat after with rfl | ⟨after, y, rfl⟩
    · -- the new copy
      obtain ⟨rfl, hx⟩ := List.append_inj' hpath rfl
      obtain rfl := List.head_eq_of_cons_eq hx
      rw [if_pos rfl, h.parent]
      rfl
    · rw [List.concat_eq_append, ← List.cons_append, ← List.append_assoc] at hpath
      obtain ⟨hold, hy⟩ := List.append_inj' hpath rfl
      obtain rfl := List.head_eq_of_cons_eq hy
      have hx : x ∈ path := by
        rw [hold]
        exact List.mem_append_right _ List.mem_cons_self
      have hxe : x.1 ≠ e.1 := fun heq => hnew (heq ▸ List.mem_map_of_mem hx)
      rw [if_neg hxe, hmap, h.entry before x after hold, h.parent]
      rcases List.eq_nil_or_concat after with rfl | ⟨after, z, rfl⟩
      · -- the copy that was last so far
        rw [hold, List.getLast?_append, List.getLast?_singleton, Option.some_or, Option.map_some,
          if_pos rfl, Option.map_some, forkCopy, Assoc.set_set]
        rfl
      -- any other copy already has its child
      · have hz : path.getLast? = some z := by
          rw [hold, List.concat_eq_append, ← List.cons_append, ← List.append_assoc,
            List.getLast?_append]
          rfl
        have hxz : z.1 ≠ x.1 := by
          intro heq
          rw [hold, List.map_append, List.nodup_append] at hnodup
          have hcons := hnodup.2.1
          rw [List.map_cons, List.nodup_cons] at hcons
          refine hcons.1 (heq ▸ List.mem_map_of_mem ?_)
          rw [List.concat_eq_append]
          exact List.mem_append_right _ (List.mem_singleton_self z)
        rw [hz, Option.map_some, if_neg fun heq => hxz (Option.some.inj heq)]
        cases after with
        | nil => rfl
        | cons a after => rfl
  · rw [forkMessage, List.getLast?_append]
    rfl

/-- The fork copies the path. -/
theorem copied_foldl {path : List (String × Message)} (hne : ∀ x ∈ path, x.1 ≠ "")
    (hnodup : (path.map Prod.fst).Nodup) : Copied path (path.foldl forkMessage (∅, none)) := by
  induction path using List.reverseRecOn with
  | nil =>
      refine ⟨rfl, fun before e after h => ?_, rfl⟩
      exact absurd (congrArg List.length h) (by simp)
  | append_singleton path e ih =>
      rw [List.map_append, List.nodup_append] at hnodup
      have hpath : ∀ x ∈ path, x.1 ≠ "" := fun x hx => hne x (List.mem_append_left _ hx)
      rw [List.foldl_append]
      refine copied_forkMessage (ih hpath hnodup.1) (fun hmem => ?_) hpath hnodup.1
      exact hnodup.2.2 _ hmem _ (List.mem_singleton_self e.1) rfl

/-- The fork is a chain of the path. -/
theorem forkChain_forkOf (id : String) {path : List (String × Message)} (hne : ∀ x ∈ path, x.1 ≠ "")
    (hnodup : (path.map Prod.fst).Nodup) : ForkChain id path (forkOf id path.reverse) := by
  have h := copied_foldl hne hnodup
  refine ⟨?_, ?_, ?_, rfl⟩
  · rw [forkOf, List.reverse_reverse]
    exact h.keys
  · rw [forkOf, List.reverse_reverse]
    exact h.entry
  · rw [forkOf, List.reverse_reverse]
    have hall : ∀ e ∈ path, ((path.foldl forkMessage (∅, none)).1.get? e.1).isSome := by
      intro e he
      obtain ⟨before, after, hpath⟩ := List.append_of_mem he
      rw [h.entry before e after hpath, Option.isSome_some]
    show (path.filterMap fun e => (path.foldl forkMessage (∅, none)).1.get? e.1).map some =
      path.map fun e => (path.foldl forkMessage (∅, none)).1.get? e.1
    generalize (path.foldl forkMessage (∅, none)).1 = d at hall ⊢
    clear h hne hnodup
    induction path with
    | nil => rfl
    | cons e path ih =>
        obtain ⟨m, hm⟩ := Option.isSome_iff_exists.mp (hall e List.mem_cons_self)
        rw [List.filterMap_cons, hm, List.map_cons, List.map_cons, hm,
          ih fun x hx => hall x (List.mem_cons_of_mem _ hx)]

/-! ## `createMessagesList` -/

/-- One step of the client's walk. -/
theorem createMessagesList_some (fuel : ℕ) (k : String) (list : List (String × Message)) :
    createMessagesList ms (fuel + 1) (some k) list =
      match ms.property k with
      | none => some list.reverse
      | some m => createMessagesList ms fuel (m.get "parentId").asStr (list ++ [(k, m)]) := rfl

/-- A stored message is the property. -/
theorem Messages.property_of_get? {k : String} {m : Message} (hm : ms.get? k = some m) :
    ms.property k = some m := by
  rw [property, hm, Option.some_or]

/-- What is not stored may be a property of every object. -/
theorem Messages.property_of_missing {k : String} (hk : k ∉ ms) :
    ms.property k = if k ∈ objectPrototype then some [] else none := by
  rw [property, (Dict.get?_eq_none_iff ms k).mpr hk, Option.none_or]

/-- Where the client's walk meets no key the server's does not follow, it takes the same branch. -/
theorem createMessagesList_ascent (hms : ms.Wellformed) {k : String} {l : List String}
    (h : Forest.Ascent ms.linkedId k l)
    (hempty : ∀ x ∈ l, ∀ m, ms.get? x = some m → m.get "parentId" = .str "" → "" ∉ ms)
    (hinherited : ∀ x ∈ l, x ∉ ms → x ∉ objectPrototype) : ∀ list : List (String × Message),
      createMessagesList ms (l.length + 1) (some k) list =
        some (list ++ ms.entriesAt l).reverse := by
  induction h with
  | @root k hroot =>
      intro list
      rw [createMessagesList_some]
      cases hm : ms.get? k with
      | none =>
          have hmissing := (Dict.get?_eq_none_iff ms k).mp hm
          rw [Messages.property_of_missing hmissing,
            if_neg (hinherited k List.mem_cons_self hmissing), Messages.entriesAt_missing hmissing,
            List.append_nil]
      | some m =>
          rw [Messages.property_of_get? hm, Messages.entriesAt_cons [] hm]
          rcases hms.link hm with ⟨_, hnull | hstr⟩ | ⟨p, hp, _⟩
          · simp only [hnull]
            rfl
          · -- the client looks the empty id up, in vain
            have hmissing := hempty k List.mem_cons_self m hm hstr
            simp only [hstr, Json.asStr_str]
            rw [show [k].length = 0 + 1 from rfl, createMessagesList_some,
              Messages.property_of_missing hmissing, if_neg (by decide)]
            rfl
          · rw [hroot] at hp
            cases hp
  | @up k p l hup _ ih =>
      intro list
      obtain ⟨m, hm, hlink, _⟩ := Messages.linkedId_eq_some.mp hup
      rw [List.length_cons, createMessagesList_some, Messages.property_of_get? hm,
        Messages.entriesAt_cons l hm]
      simp only [hlink, Json.asStr_str]
      rw [ih (fun x hx => hempty x (List.mem_cons_of_mem _ hx))
        (fun x hx => hinherited x (List.mem_cons_of_mem _ hx)),
        List.append_assoc, List.singleton_append]

/-- The client's list only grows. -/
theorem length_le_createMessagesList (fuel : ℕ) : ∀ (k : Option String)
    (list r : List (String × Message)), createMessagesList ms fuel k list = some r →
      list.length ≤ r.length := by
  induction fuel with
  | zero =>
      intro k list r h
      cases h
  | succ fuel ih =>
      intro k list r h
      cases k with
      | none =>
          obtain rfl := Option.some.inj h
          rw [List.length_reverse]
      | some k =>
          rw [createMessagesList_some] at h
          cases hm : ms.property k with
          | none =>
              rw [hm] at h
              obtain rfl := Option.some.inj h
              rw [List.length_reverse]
          | some m =>
              rw [hm] at h
              have hle := ih _ _ r h
              rw [List.length_append, List.length_singleton] at hle
              omega

/-- A key the client finds adds a message. -/
theorem length_lt_createMessagesList {fuel : ℕ} {k : String} {m : Message}
    {list r : List (String × Message)} (hm : ms.property k = some m)
    (h : createMessagesList ms fuel (some k) list = some r) : list.length < r.length := by
  cases fuel with
  | zero => cases h
  | succ fuel =>
      rw [createMessagesList_some, hm] at h
      have hle := length_le_createMessagesList fuel _ _ r h
      rw [List.length_append, List.length_singleton] at hle
      omega

/-- A list of the branch's length took no key that the server's walk does not follow. -/
theorem createMessagesList_exact {k : String} {l : List String}
    (h : Forest.Ascent ms.linkedId k l) : ∀ (fuel : ℕ) (list r : List (String × Message)),
      createMessagesList ms fuel (some k) list = some r →
      r.length = list.length + (ms.entriesAt l).length →
      (∀ x ∈ l, ∀ m, ms.get? x = some m → m.get "parentId" = .str "" → "" ∉ ms) ∧
        ∀ x ∈ l, x ∉ ms → x ∉ objectPrototype := by
  induction h with
  | @root k hroot =>
      intro fuel list r hr hlen
      simp only [List.mem_singleton, forall_eq]
      constructor
      · -- a stored empty id would add a message
        intro m hm hstr hstored
        obtain ⟨n, hn⟩ := (Dict.mem_iff_exists ms "").mp hstored
        cases fuel with
        | zero => cases hr
        | succ fuel =>
            rw [createMessagesList_some, Messages.property_of_get? hm] at hr
            simp only [hstr, Json.asStr_str] at hr
            have hlt := length_lt_createMessagesList (Messages.property_of_get? hn) hr
            rw [Messages.entriesAt_cons [] hm] at hlen
            simp only [Messages.entriesAt, List.filterMap_nil, List.length_append,
              List.length_singleton]
              at hlt hlen
            omega
      -- an inherited name reads as a message, which would be one too many
      · intro hmissing hinherited
        have hprop : ms.property k = some [] := by
          rw [Messages.property_of_missing hmissing, if_pos hinherited]
        have hlt := length_lt_createMessagesList hprop hr
        rw [Messages.entriesAt_missing hmissing] at hlen
        simp only [List.length_nil] at hlen
        omega
  -- the message is listed, and the walk goes on at its parent
  | @up k p l hup _ ih =>
      intro fuel list r hr hlen
      obtain ⟨m, hm, hlink, hne⟩ := Messages.linkedId_eq_some.mp hup
      cases fuel with
      | zero => cases hr
      | succ fuel =>
          rw [createMessagesList_some, Messages.property_of_get? hm] at hr
          simp only [hlink, Json.asStr_str] at hr
          rw [Messages.entriesAt_cons l hm, List.length_cons] at hlen
          have hrest := ih fuel _ r hr (by rw [List.length_append, List.length_singleton]; omega)
          constructor
          · intro x hx n hn hstr
            rcases List.mem_cons.mp hx with rfl | hx
            · obtain rfl := Option.some.inj (hm.symm.trans hn)
              exact absurd (Json.str.inj (hlink.symm.trans hstr)) hne
            · exact hrest.1 x hx n hn hstr
          · intro x hx hmissing
            rcases List.mem_cons.mp hx with rfl | hx
            · exact absurd (Dict.mem_of_get? hm) hmissing
            · exact hrest.2 x hx hmissing

/-- The client's loop never leaves a cycle. -/
theorem not_cyclic_of_createMessagesList (fuel : ℕ) : ∀ (k : String)
    (list r : List (String × Message)), createMessagesList ms fuel (some k) list = some r →
      ¬ Cyclic ms k := by
  induction fuel with
  | zero =>
      intro k list r h
      cases h
  | succ fuel ih =>
      intro k list r h
      cases hp : ms.linkedId k with
      | none => exact Forest.not_cyclicAbove_root hp
      | some p =>
          obtain ⟨m, hm, hlink, _⟩ := Messages.linkedId_eq_some.mp hp
          rw [createMessagesList_some, Messages.property_of_get? hm] at h
          simp only [hlink, Json.asStr_str] at h
          rw [Cyclic, Forest.CyclicAbove.up hp]
          exact ih p _ r h

/-! ## Where the walks agree -/

/-- No cycle is met, a message that names `''` as its parent ends the branch in every walk, and a
missing key is missing for the client too. -/
structure Walkable (ms : Messages) (id : String) : Prop where
  source : id = "" → ms.entries = []
  acyclic : ¬ Cyclic ms id
  empty : ∀ k m, Relation.ReflTransGen (Forest.Up ms.linkedId) id k → ms.get? k = some m →
    m.get "parentId" = .str "" → "" ∉ ms
  inherited : ∀ k, Relation.ReflTransGen (Forest.Up ms.linkedId) id k → k ∉ ms → k ∉ objectPrototype

/-- The fork raises exactly on a broken or cyclic branch, and otherwise copies the branch. -/
theorem fork_spec (hms : ms.Wellformed) {id : String} (hid : id = "" → ms.entries = []) :
    ∃ fuel r, buildForkHistory ms fuel id = some r ∧
      ((∃ e, r = .error e) ↔ Broken ms id ∨ Cyclic ms id) ∧
      ∀ f, r = .ok f → ForkChain id (getMessagePath ms id) f := by
  by_cases hempty : ms.entries = []
  · -- an empty map: every id is missing
    have hmissing : id ∉ ms := by
      rw [Dict.mem_iff, Dict.get?, hempty]
      exact fun h => by cases h
    refine ⟨0, .error .noMessages, ?_, iff_of_true ⟨_, rfl⟩ (.inl ⟨id, .refl, hmissing⟩), ?_⟩
    · rw [buildForkHistory, if_pos hempty]
    · intro f hf
      cases hf
  · have hne : id ≠ "" := fun h => hempty (hid h)
    obtain ⟨r, hr⟩ := forkBranch_total hms (ms.size + 2) id [] [] hne List.nodup_nil
      (fun _ hv => absurd hv List.not_mem_nil) (Nat.le_add_right _ _)
    -- a cycle is noticed, so the walk only raises
    by_cases hcyclic : Cyclic ms id
    · cases r with
      | error e =>
          refine ⟨ms.size + 2, .error e, ?_, iff_of_true ⟨e, rfl⟩ (.inr hcyclic), ?_⟩
          · rw [buildForkHistory, if_neg hempty, hr]
            rfl
          · intro f hf
            cases hf
      | ok branch => exact absurd hcyclic (not_cyclic_of_forkBranch hms _ id _ _ branch hne hr)
    -- without one the branch is followed to its end, and every id on it is looked up
    · obtain ⟨l, hl⟩ := exists_ascent_of_not_cyclic hcyclic
      have hfork := forkBranch_ascent hms hl (l.length + 1) [] [] hne le_rfl fun _ _ =>
        List.not_mem_nil
      rw [List.nil_append] at hfork
      by_cases hall : ∀ x ∈ l, x ∈ ms
      · have hbroken : ¬ Broken ms id := by
          rw [broken_iff hl]
          rintro ⟨k, hk, hmissing⟩
          exact hmissing (hall k hk)
        rw [if_pos hall] at hfork
        refine ⟨l.length + 1, .ok (forkOf id (ms.entriesAt l)), ?_, iff_of_false ?_ ?_, ?_⟩
        · rw [buildForkHistory, if_neg hempty, hfork]
          rfl
        · rintro ⟨e, he⟩
          cases he
        · exact not_or.mpr ⟨hbroken, hcyclic⟩
        · intro f hf
          obtain rfl := Except.ok.inj hf
          have hnodup := (parentPath_getMessagePath hms id).nodup
          rw [getMessagePath_ascent hms hl] at hnodup ⊢
          have hchain :
            ForkChain id (ms.entriesAt l).reverse (forkOf id (ms.entriesAt l).reverse.reverse) :=
            forkChain_forkOf id (fun x hx => ?_) hnodup
          · rwa [List.reverse_reverse] at hchain
          · -- an id above another one is not empty
            have hx := (Messages.mem_entriesAt.mp (List.mem_reverse.mp hx)).1
            rcases Relation.ReflTransGen.cases_tail (hl.mem_iff.mp hx) with heq | ⟨c, _, hc⟩
            · exact heq ▸ hne
            · obtain ⟨_, _, _, hx⟩ := Messages.linkedId_eq_some.mp hc
              exact hx
      · rw [if_neg hall] at hfork
        refine ⟨l.length + 1, .error .notFound, ?_, iff_of_true ⟨_, rfl⟩ (.inl ?_), ?_⟩
        · rw [buildForkHistory, if_neg hempty, hfork]
          rfl
        · rw [broken_iff hl]
          simpa using hall
        · intro f hf
          cases hf

/-- The three walks agree on a map exactly where the client's needs no guard. -/
theorem walksAgree_iff (hms : ms.Wellformed) (id : String) : WalksAgree ms id ↔ Walkable ms id := by
  constructor
  · intro h
    obtain ⟨fuel, list, hlist, hkeys⟩ := h.list
    have hcyclic := not_cyclic_of_createMessagesList fuel id _ _ hlist
    obtain ⟨l, hl⟩ := exists_ascent_of_not_cyclic hcyclic
    have hpath := getMessagePath_ascent hms hl
    have hlength :
      list.length = ([] : List (String × Message)).length + (ms.entriesAt l).length := by
      have hlen := congrArg List.length hkeys
      rw [messageChain, List.length_map, List.length_map, hpath, List.length_reverse] at hlen
      rw [hlen, List.length_nil, Nat.zero_add]
    have hexact := createMessagesList_exact hl fuel _ _ hlist hlength
    refine ⟨fun hid => ?_, hcyclic, fun k m hk => hexact.1 k (hl.mem_iff.mpr hk) m,
      fun k hk => hexact.2 k (hl.mem_iff.mpr hk)⟩
    -- from the empty id the fork is empty, though the message is stored
    by_contra hempty
    subst hid
    obtain ⟨n, r, hr, hraises, hchain⟩ := h.fork
    cases n with
    | zero =>
        rw [buildForkHistory, if_neg hempty] at hr
        cases hr
    | succ n =>
        rw [buildForkHistory, if_neg hempty, forkBranch_stop (.inr rfl)] at hr
        obtain rfl := Option.some.inj hr
        have hstored : "" ∈ ms := by
          by_contra hmissing
          obtain ⟨e, he⟩ := hraises.mpr (.inl ⟨"", .refl, hmissing⟩)
          cases he
        obtain ⟨m, hm⟩ := (Dict.mem_iff_exists ms "").mp hstored
        have hkeys := (hchain _ rfl).keys
        have hlast := h.path.last
        have hnil : getMessagePath ms "" = [] := List.map_eq_nil_iff.mp hkeys.symm
        rw [hnil, hm] at hlast
        cases hlast
  · intro h
    obtain ⟨l, hl⟩ := exists_ascent_of_not_cyclic h.acyclic
    refine ⟨parentPath_getMessagePath hms id, fork_spec hms h.source, l.length + 1, _,
      createMessagesList_ascent hms hl (fun k hk m => h.empty k m (hl.mem_iff.mp hk))
        (fun k hk => h.inherited k (hl.mem_iff.mp hk)) [], ?_⟩
    rw [messageChain, getMessagePath_ascent hms hl, List.nil_append]

/-- A message that is its own parent. -/
def selfParent : Messages := ⟨[("a", [("parentId", .str "a"), ("role", .str "user")])], by decide⟩

/-- The server lists the message once; the client lists it for ever. -/
theorem selfParent_not_walksAgree : selfParent.Wellformed ∧ ¬ WalksAgree selfParent "a" ∧
    messageChain selfParent "a" = ["a"] ∧
    ∀ fuel, createMessagesList selfParent fuel (some "a") [] = none := by
  have hlink : Forest.Up selfParent.linkedId "a" "a" := by
    show selfParent.linkedId "a" = some "a"
    decide
  have hcyclic : Cyclic selfParent "a" := ⟨"a", .refl, .single hlink⟩
  have hnone : ∀ fuel, createMessagesList selfParent fuel (some "a") [] = none := by
    intro fuel
    refine Option.eq_none_iff_forall_not_mem.mpr fun r hr => ?_
    exact not_cyclic_of_createMessagesList fuel "a" [] r hr hcyclic
  refine ⟨fun k m hm => ?_, fun h => ?_, by decide, hnone⟩
  · have hmem : (k, m) ∈ selfParent.entries := (Dict.mem_entries_iff _ k m).mpr hm
    obtain ⟨rfl, rfl⟩ := Prod.mk.inj (List.mem_singleton.mp hmem)
    exact ⟨by simp, .inr ⟨"a", rfl⟩⟩
  · obtain ⟨fuel, l, hl, _⟩ := h.list
    rw [hnone fuel] at hl
    cases hl

/-- A branch of two messages under a link to a message that is gone. -/
def danglingBranch : Messages :=
  ⟨[("b", [("parentId", .str "gone")]), ("c", [("parentId", .str "b")])], by decide⟩

/-- A branch whose parent is not stored. -/
theorem walksAgree_danglingBranch : WalksAgree danglingBranch "c" ↔ Walkable danglingBranch "c" :=
  walksAgree_iff (fun k m hm => by
    have hmem : (k, m) ∈ danglingBranch.entries := (Dict.mem_entries_iff _ k m).mpr hm
    rcases List.mem_cons.mp hmem with heq | hmem
    · obtain ⟨rfl, rfl⟩ := Prod.mk.inj heq
      exact ⟨by simp, .inr ⟨"gone", rfl⟩⟩
    · obtain ⟨rfl, rfl⟩ := Prod.mk.inj (List.mem_singleton.mp hmem)
      exact ⟨by simp, .inr ⟨"b", rfl⟩⟩) "c"

end OpenWebUI.Chat
