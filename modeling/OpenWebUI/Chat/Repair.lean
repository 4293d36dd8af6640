import Mathlib.Data.List.MinMax
import OpenWebUI.Lib.Forest
import OpenWebUI.Chat.Table

/-! # Repairing the current id of a stored chat

`_repair_chat_current_id` of `backend/open_webui/models/chats.py` on whatever a chat may hold:
a history or a message that is no dict, an id of any type. It lists every message with its
parent, then moves `currentId` to the end of its branch, or to the newest leaf. The main
result says when a second call finds nothing to do and no usable child is left below the
current message. A call that raises is `none`.
-/

namespace OpenWebUI.Chat.Raw

open Py

/-- `chat['history']` where it is a dict; `none` stands for messages that are no dict. -/
structure StoredHistory where
  messages : Option (Dict String Json)
  currentId : Json
deriving DecidableEq

/-- Whether a value may be a key. -/
def hashable : Json → Bool
  | .arr _ => false
  | .obj _ => false
  | _ => true

/-- Whether a value may be looped over. -/
def iterable : Json → Bool
  | .null => false
  | .bool _ => false
  | .num _ => false
  | _ => true

/-- The message stored under `id`, if it is a dict. -/
def messageAt (ms : Dict String Json) (id : String) : Option Message := (ms.get? id).bind Json.asObj

/-! ## The children lists -/

def addChildIdToParent (ms : Dict String Json) (parentId : Json) (childId : String) :
    Option (Dict String Json × Bool) :=
  if !parentId.truthy then some (ms, false)
  else if !hashable parentId then none
  else
    match parentId.asStr.bind fun p => (messageAt ms p).map fun parent => (p, parent) with
    | none => some (ms, false)
    | some (p, parent) =>
      if .str childId ∈ childrenIds parent then some (ms, false)
      else some (ms.set p (.obj (Assoc.set parent "childrenIds"
        (.arr (childrenIds parent ++ [.str childId])))), true)

/-- One turn of the first loop. -/
def listChild (acc : Dict String Json × Bool) (id : String) : Option (Dict String Json × Bool) :=
  match messageAt acc.1 id with
  | none => some acc
  | some m => (addChildIdToParent acc.1 (m.get "parentId") id).map fun r => (r.1, r.2 || acc.2)

/-- The first loop: every message is listed by its parent. -/
def listChildren (ms : Dict String Json) : Option (Dict String Json × Bool) :=
  ms.keys.foldlM listChild (ms, false)

/-! ## The current id -/

/-- A stored child with its own id, a role and a link back to `id`. -/
def usable (ms : Dict String Json) (id childId : String) : Bool :=
  match messageAt ms childId with
  | none => false
  | some child =>
    decide (child.get "id" = .str childId) && (child.get "role").truthy &&
      decide (child.get "parentId" = .str id)

/-- The ids `id` lists as its children. -/
def childrenAt (ms : Dict String Json) (id : String) : List Json :=
  ((messageAt ms id).map childrenIds).getD []

/-- The last usable child that is not in `seen`. -/
def nextId (ms : Dict String Json) (seen : List String) (id : String) : Option String :=
  (childrenAt ms id).reverse.findSome? fun c => c.asStr.filter fun s => s ∉ seen && usable ms id s

/-- `_last_descendant_id`; a stored id is seen at most once, and an empty `next_id` ends the
walk. -/
def lastDescendantId (ms : Dict String Json) : ℕ → List String → String → String
  | 0, _, id => id
  | fuel + 1, seen, id =>
    if id ∈ ms ∧ id ∉ seen then
      match nextId ms (id :: seen) id with
      | none => id
      | some next => if next = "" then id else lastDescendantId ms fuel (id :: seen) next
    else id

/-- `current_message.get('output') or []`. -/
def outputOf (m : Message) : Json := (m.get "output").or (.arr [])

/-- The current message is an assistant output that lost its place in the tree. The items of a
text or of a dict are no dicts, and a number cannot be looped over. -/
def isBadLeaf (ms : Dict String Json) (m : Message) : Option Bool :=
  if iterable (outputOf m) then
    some (decide (outputRole (outputOf m) = .str "assistant") &&
      decide (m.get "parentId" = .null) &&
      !(m.get "timestamp").truthy && decide (1 < ms.size))
  else none

/-- One turn of the search for the newest leaf, on the leaf so far and its timestamp. -/
def latestStep (acc : Option String × ℚ) (entry : String × Json) : Option (Option String × ℚ) :=
  match entry.2.asObj with
  | none => some acc
  | some m =>
    if !(m.get "role").truthy then some acc
    else if childrenIds m ≠ [] then some acc
    else (((m.get "timestamp").or (.num 0)).asOperand).map fun timestamp =>
      if acc.2 < timestamp then (some entry.1, timestamp) else acc

/-- `latest_leaf_id` after the last loop. -/
def latestLeafId (ms : Dict String Json) : Option (Option String) :=
  (ms.entries.foldlM latestStep (none, -1)).map Prod.fst

/-- The leaf the fallback moves to, if it moves. -/
def fallbackId (ms : Dict String Json) (currentId : Json) : Option (Option String) :=
  (latestLeafId ms).map fun leaf => leaf.filter fun l => l ≠ "" && decide (.str l ≠ currentId)

/-- The id to store as `currentId`, if it changes. -/
def newCurrentId (ms : Dict String Json) (currentId : Json) : Option (Option String) :=
  if !hashable currentId then none
  else
    match currentId.asStr.bind fun id => (messageAt ms id).map fun m => (id, m) with
    | none => fallbackId ms currentId
    | some (id, m) =>
      (isBadLeaf ms m).bind fun currentIsBadLeaf =>
        if (m.get "id").truthy && (m.get "role").truthy && !currentIsBadLeaf then
          let last := lastDescendantId ms ms.size [] id
          some (if last ≠ id then some last else none)
        else fallbackId ms currentId

/-- `_repair_chat_current_id`; `none` as the history stands for one that is no dict. -/
def repairChatCurrentId : Option StoredHistory → Option (Option StoredHistory × Bool)
  | none => some (none, false)
  | some ⟨none, currentId⟩ => some (some ⟨none, currentId⟩, false)
  | some ⟨some ms, currentId⟩ =>
    (listChildren ms).bind fun listed =>
      (newCurrentId listed.1 currentId).map fun newId =>
        match newId with
        | none => (some ⟨some listed.1, currentId⟩, listed.2)
        | some id => (some ⟨some listed.1, .str id⟩, true)

/-! ## What the repair should do -/

/-- The parent a message names. -/
def parentLink (ms : Dict String Json) (k : String) : Option String :=
  (messageAt ms k).bind fun m => (m.get "parentId").asStr

/-- `ms'` holds the messages of `ms`, where a message may have got children at the end of its
list: stored messages whose parent it is. -/
structure Kept (ms ms' : Dict String Json) : Prop where
  keys : ms'.keys = ms.keys
  grown : ∀ k v, ms'.get? k = some v → ms.get? k = some v ∨
    ∃ m, ∃ added : List String, ms.get? k = some (.obj m) ∧ added ≠ [] ∧
      v = .obj (Assoc.set m "childrenIds" (.arr (childrenIds m ++ added.map .str))) ∧
      ∀ c ∈ added, parentLink ms c = some k

/-- Some listed child of `id` is usable. -/
def HasUsableChild (ms : Dict String Json) (id : String) : Prop :=
  ∃ c, .str c ∈ childrenAt ms id ∧ usable ms id c = true

/-- What a call that turned `before` into `after` should have done. -/
structure Repairs (before after : Option StoredHistory) : Prop where
  untouched : (∀ ms currentId, before ≠ some ⟨some ms, currentId⟩) → after = before
  idempotent : repairChatCurrentId after = some (after, false)
  kept : ∀ ms currentId, before = some ⟨some ms, currentId⟩ →
    ∃ ms' currentId', after = some ⟨some ms', currentId'⟩ ∧ Kept ms ms'
  settled : ∀ ms id m, after = some ⟨some ms, .str id⟩ → messageAt ms id = some m →
    (m.get "id").truthy → (m.get "role").truthy → ¬ HasUsableChild ms id

/-! ## Messages -/

variable {ms ms' L : Dict String Json}

/-- A message is a dictionary under its id. -/
theorem messageAt_eq_some {k : String} {m : Message} :
    messageAt ms k = some m ↔ ms.get? k = some (.obj m) := by
  rw [messageAt, Option.bind_eq_some_iff]
  constructor
  · rintro ⟨v, hv, hm⟩
    cases v with
    | obj o =>
        obtain rfl := Option.some.inj hm
        exact hv
    | _ => cases hm
  · exact fun h => ⟨_, h, rfl⟩

/-- The link is the text a message names. -/
theorem parentLink_eq_some {k p : String} :
    parentLink ms k = some p ↔ ∃ m, messageAt ms k = some m ∧ m.get "parentId" = .str p := by
  rw [parentLink, Option.bind_eq_some_iff]
  refine exists_congr fun m => and_congr_right fun _ => ?_
  cases m.get "parentId" with
  | str s => rw [Json.asStr_str, Option.some.injEq, Json.str.injEq]
  | _ => simp [Json.asStr]

/-- Parents of lower rank close no cycle. -/
theorem acyclic_of_entries (rank : String → ℕ)
    (h : ∀ e ∈ ms.entries, ∀ (m : Message) (p : String), e.2 = .obj m → m.get "parentId" = .str p →
      rank p < rank e.1) :
    Forest.Acyclic (parentLink ms) := by
  refine Forest.Acyclic.of_rank rank fun c p hcp => ?_
  obtain ⟨m, hm, hp⟩ := parentLink_eq_some.mp hcp
  exact h (c, .obj m) ((Dict.mem_entries_iff ms c _).mpr (messageAt_eq_some.mp hm)) m p rfl hp

theorem childrenIds_set (m : Message) (xs : List Json) :
    childrenIds (Assoc.set m "childrenIds" (.arr xs)) = xs := by
  rw [childrenIds, Obj.get_set_self, Json.asArr_arr, Option.getD_some]

theorem Kept.refl (ms : Dict String Json) : Kept ms ms := ⟨rfl, fun _ _ h => .inl h⟩

/-- A kept message differs in its children only. -/
theorem Kept.message (h : Kept ms ms') {k : String} {m' : Message}
    (hm' : messageAt ms' k = some m') :
    ∃ m, messageAt ms k = some m ∧ SameButChildren m m' := by
  rcases h.grown k _ (messageAt_eq_some.mp hm') with heq | ⟨m, added, hm, _, heq, _⟩
  · exact ⟨m', messageAt_eq_some.mpr heq, .refl m'⟩
  · obtain rfl := Json.obj.inj heq
    exact ⟨m, messageAt_eq_some.mpr hm, sameButChildren_set m _⟩

/-- A message is still there, but for its children. -/
theorem Kept.message' (h : Kept ms ms') {k : String} {m : Message} (hm : messageAt ms k = some m) :
    ∃ m', messageAt ms' k = some m' ∧ SameButChildren m m' := by
  have hmem : k ∈ ms' := by
    show k ∈ ms'.keys
    rw [h.keys]
    exact Dict.mem_of_get? (messageAt_eq_some.mp hm)
  obtain ⟨v, hv⟩ := (Dict.mem_iff_exists ms' k).mp hmem
  have hstored := messageAt_eq_some.mp hm
  rcases h.grown k v hv with heq | ⟨n, added, hn, _, rfl, _⟩
  · rw [hstored] at heq
    obtain rfl := Option.some.inj heq
    exact ⟨m, messageAt_eq_some.mpr hv, .refl m⟩
  · rw [hstored] at hn
    obtain rfl := Json.obj.inj (Option.some.inj hn)
    exact ⟨_, messageAt_eq_some.mpr hv, sameButChildren_set m _⟩

/-- The links stay. -/
theorem Kept.parentLink_eq (h : Kept ms ms') (k : String) : parentLink ms' k = parentLink ms k := by
  refine Option.ext fun p => ?_
  rw [parentLink_eq_some, parentLink_eq_some]
  constructor
  · rintro ⟨m', hm', hp⟩
    obtain ⟨m, hm, hsame⟩ := h.message hm'
    exact ⟨m, hm, (hsame.get (by decide)).symm.trans hp⟩
  · rintro ⟨m, hm, hp⟩
    obtain ⟨m', hm', hsame⟩ := h.message' hm
    exact ⟨m', hm', (hsame.get (by decide)).trans hp⟩

/-! ## The first loop -/

/-- The message under `c` is listed by its parent, where it names one that is stored. -/
def Listed (ms : Dict String Json) (parentId : Json) (c : String) : Prop :=
  parentId.truthy → hashable parentId ∧
    ∀ p parent, parentId = .str p → messageAt ms p = some parent → .str c ∈ childrenIds parent

/-- What is listed is not listed again. -/
theorem addChildIdToParent_listed {parentId : Json} {c : String} (h : Listed ms parentId c) :
    addChildIdToParent ms parentId c = some (ms, false) := by
  rw [addChildIdToParent]
  by_cases htruthy : parentId.truthy
  · obtain ⟨hhash, hlisted⟩ := h htruthy
    rw [if_neg (by simp [htruthy]), if_neg (by simp [hhash])]
    cases hp : parentId.asStr.bind fun p => (messageAt ms p).map fun parent => (p, parent) with
    | none => rfl
    | some e =>
        obtain ⟨p, hpid, he⟩ := Option.bind_eq_some_iff.mp hp
        obtain ⟨parent, hparent, rfl⟩ := Option.map_eq_some_iff.mp he
        have hstr : parentId = .str p := by
          cases parentId with
          | str s => rw [Option.some.inj hpid]
          | _ => cases hpid
        exact if_pos (hlisted p parent hstr hparent)
  · rw [if_pos (by simp [htruthy])]

/-- What one call can do: nothing, or append the child to the list of its stored parent. -/
theorem addChildIdToParent_cases {parentId : Json} {c : String} {r : Dict String Json × Bool}
    (h : addChildIdToParent ms parentId c = some r) :
    (r = (ms, false) ∧ Listed ms parentId c) ∨ ∃ p parent, parentId = .str p ∧ p ≠ "" ∧
      messageAt ms p = some parent ∧ .str c ∉ childrenIds parent ∧
        r = (ms.set p (.obj (Assoc.set parent "childrenIds"
        (.arr (childrenIds parent ++ [.str c])))), true) := by
  rw [addChildIdToParent] at h
  by_cases htruthy : parentId.truthy
  · rw [if_neg (by simp [htruthy])] at h
    by_cases hhash : hashable parentId
    · rw [if_neg (by simp [hhash])] at h
      cases hp : parentId.asStr.bind fun p => (messageAt ms p).map fun parent => (p, parent) with
      | none =>
          rw [hp] at h
          refine .inl ⟨(Option.some.inj h).symm, fun _ => ⟨hhash, ?_⟩⟩
          rintro p parent rfl hparent
          rw [Json.asStr_str, Option.bind_some, hparent] at hp
          cases hp
      | some e =>
          rw [hp] at h
          obtain ⟨p, hpid, he⟩ := Option.bind_eq_some_iff.mp hp
          obtain ⟨parent, hparent, rfl⟩ := Option.map_eq_some_iff.mp he
          have hstr : parentId = .str p := by
            cases parentId with
            | str s => rw [Option.some.inj hpid]
            | _ => cases hpid
          simp only at h
          by_cases hmem : .str c ∈ childrenIds parent
          · rw [if_pos hmem] at h
            refine .inl ⟨(Option.some.inj h).symm, fun _ => ⟨hhash, ?_⟩⟩
            intro q parent' hq hparent'
            obtain rfl := Json.str.inj (hstr.symm.trans hq)
            rw [hparent] at hparent'
            obtain rfl := Option.some.inj hparent'
            exact hmem
          · rw [if_neg hmem] at h
            refine .inr ⟨p, parent, hstr, ?_, hparent, hmem, (Option.some.inj h).symm⟩
            rintro rfl
            rw [hstr] at htruthy
            cases htruthy
    · rw [if_pos (by simp [hhash])] at h
      cases h
  · rw [if_pos (by simp [htruthy])] at h
    exact .inl ⟨(Option.some.inj h).symm, fun ht => absurd ht htruthy⟩

/-- Appending a child keeps the messages. -/
theorem Kept.append (h : Kept ms ms') {p c : String} {parent : Message}
    (hparent : messageAt ms' p = some parent) (hlink : parentLink ms c = some p) :
    Kept ms (ms'.set p (.obj (Assoc.set parent "childrenIds"
      (.arr (childrenIds parent ++ [.str c]))))) := by
  have hstored := messageAt_eq_some.mp hparent
  refine ⟨?_, fun k v hv => ?_⟩
  · rw [← h.keys]
    refine (Assoc.keys_set _ _ _).trans (if_pos ?_)
    exact (Assoc.has_iff _ _).mpr (Dict.mem_of_get? hstored)
  · rw [Dict.get?_set] at hv
    by_cases hk : k = p
    · subst hk
      rw [if_pos rfl] at hv
      obtain rfl := Option.some.inj hv
      refine .inr ?_
      rcases h.grown k _ hstored with hold | ⟨m, added, hm, _, heq, hadded⟩
      · exact ⟨parent, [c], hold, List.cons_ne_nil _ _, rfl, fun x hx => by
          rwa [List.mem_singleton.mp hx]⟩
      · obtain rfl := Json.obj.inj heq
        refine ⟨m, added ++ [c], hm, by simp, ?_, fun x hx => ?_⟩
        · rw [childrenIds_set, Assoc.set_set, List.map_append, List.append_assoc]
          rfl
        · rcases List.mem_append.mp hx with hx | hx
          · exact hadded x hx
          · rwa [List.mem_singleton.mp hx]
    · rw [if_neg hk] at hv
      exact h.grown k v hv

/-- A message listed by its parent stays so while lists grow. -/
theorem Listed.append {parentId : Json} {d p c : String} {parent : Message}
    (h : Listed ms parentId d) (hparent : messageAt ms p = some parent) :
    Listed (ms.set p (.obj (Assoc.set parent "childrenIds"
      (.arr (childrenIds parent ++ [.str c]))))) parentId d := by
  intro htruthy
  refine ⟨(h htruthy).1, fun q n hq hn => ?_⟩
  rw [messageAt_eq_some, Dict.get?_set] at hn
  by_cases hqp : q = p
  · subst hqp
    rw [if_pos rfl] at hn
    obtain rfl := Json.obj.inj (Option.some.inj hn)
    rw [childrenIds_set]
    exact List.mem_append_left _ ((h htruthy).2 q parent hq hparent)
  · rw [if_neg hqp] at hn
    exact (h htruthy).2 q n hq (messageAt_eq_some.mpr hn)

/-- The message under `c`, if it is one, is listed by its parent. -/
def ListedAt (ms : Dict String Json) (c : String) : Prop :=
  ∀ m, messageAt ms c = some m → Listed ms (m.get "parentId") c

theorem ListedAt.append {d p c : String} {parent : Message} (h : ListedAt ms d)
    (hparent : messageAt ms p = some parent) :
    ListedAt (ms.set p (.obj (Assoc.set parent "childrenIds"
      (.arr (childrenIds parent ++ [.str c]))))) d := by
  intro m hm
  rw [messageAt_eq_some, Dict.get?_set] at hm
  by_cases hdp : d = p
  · subst hdp
    rw [if_pos rfl] at hm
    obtain rfl := Json.obj.inj (Option.some.inj hm)
    rw [Obj.get_set_ne _ _ (by decide)]
    exact (h parent hparent).append hparent
  · rw [if_neg hdp] at hm
    exact (h m (messageAt_eq_some.mpr hm)).append hparent

/-- One turn keeps the messages and lists its own. -/
theorem listChild_step {acc acc' : Dict String Json × Bool} {c : String} (hkept : Kept ms acc.1)
    (h : listChild acc c = some acc') :
    Kept ms acc'.1 ∧ ListedAt acc'.1 c ∧ ∀ d, ListedAt acc.1 d → ListedAt acc'.1 d := by
  rw [listChild] at h
  cases hm : messageAt acc.1 c with
  | none =>
      rw [hm] at h
      obtain rfl := Option.some.inj h
      refine ⟨hkept, fun m hm' => ?_, fun _ hd => hd⟩
      rw [hm] at hm'
      cases hm'
  | some m =>
      rw [hm] at h
      obtain ⟨r, hr, rfl⟩ := Option.map_eq_some_iff.mp h
      rcases addChildIdToParent_cases hr with ⟨rfl, hlisted⟩ | ⟨p, parent, hp, -, hparent, -, rfl⟩
      · refine ⟨hkept, fun m' hm' => ?_, fun _ hd => hd⟩
        rw [hm] at hm'
        obtain rfl := Option.some.inj hm'
        exact hlisted
      · have hlink : parentLink ms c = some p := by
          rw [← hkept.parentLink_eq]
          exact parentLink_eq_some.mpr ⟨m, hm, hp⟩
        refine ⟨hkept.append hparent hlink, fun m' hm' => ?_, fun d hd => hd.append hparent⟩
        -- the parent now lists the child
        have hp' : m'.get "parentId" = .str p := by
          rw [messageAt_eq_some, Dict.get?_set] at hm'
          by_cases hcp : c = p
          · subst hcp
            rw [if_pos rfl] at hm'
            obtain rfl := Json.obj.inj (Option.some.inj hm')
            rw [Obj.get_set_ne _ _ (by decide)]
            rw [hparent] at hm
            rw [Option.some.inj hm]
            exact hp
          · rw [if_neg hcp, messageAt_eq_some.mp hm] at hm'
            rw [← Json.obj.inj (Option.some.inj hm')]
            exact hp
        intro _
        rw [hp']
        refine ⟨rfl, fun q n hq hn => ?_⟩
        obtain rfl := Json.str.inj hq
        rw [messageAt_eq_some, Dict.get?_set, if_pos rfl] at hn
        obtain rfl := Json.obj.inj (Option.some.inj hn)
        rw [childrenIds_set]
        exact List.mem_append_right _ (List.mem_singleton_self _)

/-- After the loop every child is listed. -/
theorem foldlM_listChild (l : List String) : ∀ acc r : Dict String Json × Bool, Kept ms acc.1 →
    l.foldlM listChild acc = some r →
      Kept ms r.1 ∧ (∀ c ∈ l, ListedAt r.1 c) ∧ ∀ d, ListedAt acc.1 d → ListedAt r.1 d := by
  induction l with
  | nil =>
      intro acc r hkept h
      obtain rfl := Option.some.inj h
      exact ⟨hkept, fun _ hc => absurd hc List.not_mem_nil, fun _ hd => hd⟩
  | cons c l ih =>
      intro acc r hkept h
      rw [List.foldlM_cons] at h
      obtain ⟨acc', hstep, hrest⟩ := Option.bind_eq_some_iff.mp h
      obtain ⟨hkept', hlisted, hold⟩ := listChild_step hkept hstep
      obtain ⟨hkeptr, hall, hmono⟩ := ih acc' r hkept' hrest
      refine ⟨hkeptr, fun d hd => ?_, fun d hd => hmono d (hold d hd)⟩
      rcases List.mem_cons.mp hd with rfl | hd
      · exact hmono d hlisted
      · exact hall d hd

/-- A loop over messages that are listed changes nothing. -/
theorem foldlM_listChild_listed (l : List String) (b : Bool) (h : ∀ c ∈ l, ListedAt ms c) :
    l.foldlM listChild (ms, b) = some (ms, b) := by
  induction l with
  | nil => rfl
  | cons c l ih =>
      have hstep : listChild (ms, b) c = some (ms, b) := by
        rw [listChild]
        cases hm : messageAt ms c with
        | none => rfl
        | some m =>
            simp only
            rw [addChildIdToParent_listed (h c List.mem_cons_self m hm)]
            rfl
      rw [List.foldlM_cons, hstep]
      exact ih fun d hd => h d (List.mem_cons_of_mem _ hd)

/-- The first loop keeps every message, and a second run of it changes nothing. -/
theorem listChildren_spec {r : Dict String Json × Bool} (h : listChildren ms = some r) :
    Kept ms r.1 ∧ listChildren r.1 = some (r.1, false) := by
  obtain ⟨hkept, hall, _⟩ := foldlM_listChild ms.keys (ms, false) r (.refl ms) h
  refine ⟨hkept, ?_⟩
  rw [listChildren, hkept.keys]
  exact foldlM_listChild_listed _ _ hall

/-! ### Which children it adds -/

/-- The messages of `done` that name `p` as their parent and are not in its list. -/
def missing (ms : Dict String Json) (done : List String) (p : String) : List String :=
  done.filter fun c => p ≠ "" ∧ parentLink ms c = some p ∧ .str c ∉ childrenAt ms p

/-- The message with further children at the end of its list. -/
def extend (m : Message) (children : List String) : Message :=
  if children = [] then m
  else Assoc.set m "childrenIds" (.arr (childrenIds m ++ children.map .str))

/-- The map with the messages of `done` listed by their parents. -/
def withListed (ms : Dict String Json) (done : List String) : Dict String Json :=
  ms.mapVal fun p v => (v.asObj.map fun m => .obj (extend m (missing ms done p))).getD v

/-- The map with every message listed by its parent. -/
def withChildren (ms : Dict String Json) : Dict String Json := withListed ms ms.keys

theorem childrenIds_extend (m : Message) (children : List String) :
    childrenIds (extend m children) = childrenIds m ++ children.map .str := by
  rw [extend]
  split_ifs with hnil
  · rw [hnil, List.map_nil, List.append_nil]
  · exact childrenIds_set m _

theorem extend_append (m : Message) (children : List String) (c : String) :
    extend m (children ++ [c]) =
      Assoc.set (extend m children) "childrenIds"
        (.arr (childrenIds (extend m children) ++ [.str c])) := by
  rw [childrenIds_extend, extend, if_neg (by simp), extend, List.map_append, ← List.append_assoc]
  split_ifs
  · rfl
  · rw [Assoc.set_set]
    rfl

/-- A message with the children listed so far. -/
theorem messageAt_withListed (done : List String) (k : String) :
    messageAt (withListed ms done) k = (messageAt ms k).map fun m =>
      extend m (missing ms done k) := by
  rw [messageAt, messageAt, withListed, Dict.get?_mapVal]
  cases ms.get? k with
  | none => rfl
  | some v => cases v <;> rfl

theorem missing_append (done : List String) (c p : String) :
    missing ms (done ++ [c]) p = missing ms done p ++
      if p ≠ "" ∧ parentLink ms c = some p ∧ .str c ∉ childrenAt ms p then [c] else [] := by
  rw [missing, List.filter_append, ← missing, List.filter_singleton]
  split_ifs with h
  · rw [decide_eq_true h, cond_true]
  · rw [decide_eq_false h, cond_false]

/-- Maps of the same keys whose messages and other values agree. -/
theorem withListed_eq {done done' : List String}
    (h : ∀ k m, messageAt ms k = some m → missing ms done k = missing ms done' k) :
    withListed ms done = withListed ms done' := by
  refine Dict.ext_get? (by rw [withListed, withListed, Dict.keys_mapVal, Dict.keys_mapVal]) fun k =>
    ?_
  rw [withListed, withListed, Dict.get?_mapVal, Dict.get?_mapVal]
  cases hv : ms.get? k with
  | none => rfl
  | some v =>
      cases v with
      | obj m => rw [Option.map_some, Option.map_some, h k m (messageAt_eq_some.mpr hv)]
      | _ => rfl

/-- One turn lists its message, if its parent does not. -/
theorem listChild_withListed {done : List String} {b : Bool} {c : String}
    {r : Dict String Json × Bool} (hc : c ∉ done)
    (h : listChild (withListed ms done, b) c = some r) :
    r.1 = withListed ms (done ++ [c]) := by
  rw [listChild] at h
  -- a message that cannot be read hangs nowhere
  cases hm : messageAt ms c with
  | none =>
      rw [messageAt_withListed, hm] at h
      rw [← Option.some.inj h]
      refine withListed_eq fun k _ _ => ?_
      rw [missing_append, if_neg, List.append_nil]
      rintro ⟨-, hlink, -⟩
      rw [parentLink, hm] at hlink
      cases hlink
  | some m =>
      rw [messageAt_withListed, hm, Option.map_some] at h
      obtain ⟨r', hr', rfl⟩ := Option.map_eq_some_iff.mp h
      have hget : (extend m (missing ms done c)).get "parentId" = m.get "parentId" := by
        rw [extend]
        split_ifs
        · rfl
        · exact Obj.get_set_ne _ _ (by decide)
      rw [hget] at hr'
      -- what is said of the parent is read from the message
      have hlink : ∀ k, parentLink ms c = some k ↔ m.get "parentId" = .str k := fun k =>
        parentLink_eq_some.trans ⟨fun ⟨n, hn, hk⟩ => Option.some.inj (hm.symm.trans hn) ▸ hk,
          fun hk => ⟨m, hm, hk⟩⟩
      have hnot : ∀ k n, messageAt ms k = some n →
          (.str c ∈ childrenIds (extend n (missing ms done k)) ↔ .str c ∈ childrenAt ms k) := by
        intro k n hn
        rw [childrenIds_extend, List.mem_append, childrenAt, hn, Option.map_some, Option.getD_some]
        refine or_iff_left fun hmem => hc ?_
        obtain ⟨d, hd, heq⟩ := List.mem_map.mp hmem
        exact Json.str.inj heq ▸ List.mem_of_mem_filter hd
      -- nothing is added, for the message is no child or is listed already
      rcases addChildIdToParent_cases hr' with ⟨rfl, hlisted⟩ | ⟨p, parent, hp, hne,
        hparent, hfresh, rfl⟩
      · refine withListed_eq fun k n hn => ?_
        rw [missing_append, if_neg, List.append_nil]
        rintro ⟨hk, hup, hmissing⟩
        have hup' := (hlink k).mp hup
        have htruthy : (m.get "parentId").truthy := by simpa [hup', Json.truthy] using hk
        refine hmissing ((hnot k n hn).mp ((hlisted htruthy).2 k _ hup' ?_))
        rw [messageAt_withListed, hn]
        rfl
      -- the message is added at the end of the list of its parent
      · rw [messageAt_withListed] at hparent
        obtain ⟨n, hn, rfl⟩ := Option.map_eq_some_iff.mp hparent
        have hstored : p ∈ withListed ms done := by
          refine (Dict.mem_mapVal _ _ _).mpr (Dict.mem_of_get? (messageAt_eq_some.mp hn))
        refine Dict.ext_get? ?_ fun k => ?_
        · refine ((Assoc.keys_set _ _ _).trans (if_pos ((Assoc.has_iff _ _).mpr hstored))).trans ?_
          exact (Dict.keys_mapVal _ _).trans (Dict.keys_mapVal _ _).symm
        · rw [Dict.get?_set, withListed, withListed, Dict.get?_mapVal, Dict.get?_mapVal]
          by_cases hk : k = p
          · subst hk
            have hadds : k ≠ "" ∧ parentLink ms c = some k ∧ .str c ∉ childrenAt ms k :=
              ⟨hne, (hlink k).mpr hp, fun hmem => hfresh ((hnot k n hn).mpr hmem)⟩
            rw [if_pos rfl, messageAt_eq_some.mp hn, Option.map_some, missing_append, if_pos hadds]
            exact congrArg (some ∘ Json.obj) (extend_append n (missing ms done k) c).symm
          · have hother : ¬ (k ≠ "" ∧ parentLink ms c = some k ∧ .str c ∉ childrenAt ms k) :=
              fun hadds => hk (Json.str.inj (((hlink k).mp hadds.2.1).symm.trans hp))
            rw [if_neg hk, missing_append, if_neg hother, List.append_nil]

/-- The loop over all keys. -/
theorem foldlM_withListed (l : List String) :
    ∀ (done : List String) (b : Bool) (r : Dict String Json × Bool),
    (done ++ l).Nodup → l.foldlM listChild (withListed ms done, b) = some r →
      r.1 = withListed ms (done ++ l) := by
  induction l with
  | nil =>
      intro done b r _ h
      obtain rfl := Option.some.inj h
      rw [List.append_nil]
  | cons c l ih =>
      intro done b r hnodup h
      rw [List.foldlM_cons] at h
      obtain ⟨⟨next, b'⟩, hstep, hrest⟩ := Option.bind_eq_some_iff.mp h
      have hc : c ∉ done := fun hmem =>
        (List.nodup_append.mp hnodup).2.2 c hmem c List.mem_cons_self rfl
      obtain rfl : next = _ := listChild_withListed hc hstep
      rw [List.append_cons] at hnodup ⊢
      exact ih (done ++ [c]) b' r hnodup hrest

theorem withListed_nil (ms : Dict String Json) : withListed ms [] = ms := by
  refine Dict.ext_get? (Dict.keys_mapVal _ _) fun k => ?_
  rw [withListed, Dict.get?_mapVal]
  cases ms.get? k with
  | none => rfl
  | some v => cases v <;> rfl

/-- The first loop adds to every list the children that are missing in it. -/
theorem listChildren_eq {r : Dict String Json × Bool} (h : listChildren ms = some r) :
    r.1 = withChildren ms := by
  refine foldlM_withListed ms.keys [] false r ms.nodup_keys ?_
  rw [withListed_nil]
  exact h

/-! ## The branch below a message -/

/-- The last usable child. -/
def lastUsable (ms : Dict String Json) (id : String) : Option String :=
  (childrenAt ms id).reverse.findSome? fun c => c.asStr.filter fun s => usable ms id s

/-- The child the walk goes on with. -/
def nextUsable (ms : Dict String Json) (id : String) : Option String :=
  (lastUsable ms id).filter fun c => c ≠ ""

/-- A usable child is a message that names its parent. -/
theorem usable_iff {id c : String} : usable L id c = true ↔ ∃ child, messageAt L c = some child ∧
    child.get "id" = .str c ∧ (child.get "role").truthy ∧ child.get "parentId" = .str id := by
  rw [usable]
  cases messageAt L c with
  | none => simp
  | some child => simp [and_assoc]

/-- A usable child is linked. -/
theorem parentLink_of_usable {id c : String} (h : usable L id c = true) :
    parentLink L c = some id := by
  obtain ⟨child, hchild, _, _, hparent⟩ := usable_iff.mp h
  exact parentLink_eq_some.mpr ⟨child, hchild, hparent⟩

/-- The child found is listed and usable. -/
theorem lastUsable_spec {id c : String} (h : lastUsable L id = some c) :
    .str c ∈ childrenAt L id ∧ usable L id c = true := by
  obtain ⟨v, hv, hc⟩ := List.exists_of_findSome?_eq_some h
  obtain ⟨hstr, husable⟩ := Option.filter_eq_some_iff.mp hc
  cases v with
  | str s =>
      obtain rfl := Option.some.inj hstr
      exact ⟨List.mem_reverse.mp hv, husable⟩
  | _ => cases hstr

/-- None is found where none is usable. -/
theorem lastUsable_eq_none_iff {id : String} : lastUsable L id = none ↔ ¬ HasUsableChild L id := by
  rw [lastUsable, List.findSome?_eq_none_iff]
  constructor
  · rintro h ⟨c, hc, husable⟩
    have hnone := h (.str c) (List.mem_reverse.mpr hc)
    rw [Json.asStr_str, Option.filter_some, if_pos husable] at hnone
    cases hnone
  · intro h v hv
    refine Option.eq_none_iff_forall_not_mem.mpr fun c hc => ?_
    obtain ⟨hstr, husable⟩ := Option.filter_eq_some_iff.mp hc
    cases v with
    | str s =>
        obtain rfl := Option.some.inj hstr
        exact h ⟨s, List.mem_reverse.mp hv, husable⟩
    | _ => cases hstr

/-- The walk stops at the empty id. -/
theorem nextUsable_eq_some {id c : String} :
    nextUsable L id = some c ↔ lastUsable L id = some c ∧ c ≠ "" := by
  rw [nextUsable, Option.filter_eq_some_iff, decide_eq_true_eq]

/-- Without cycles no child of `id` is above it, so the walk skips none of them. -/
theorem nextId_eq_lastUsable (hacyclic : Forest.Acyclic (parentLink L)) {id : String}
    {seen : List String}
    (hseen : ∀ s ∈ seen, Relation.ReflTransGen (Forest.Up (parentLink L)) id s) :
    nextId L seen id = lastUsable L id := by
  rw [nextId, lastUsable]
  congr 1
  funext c
  congr 1
  funext s
  by_cases husable : usable L id s = true
  · have hs : s ∉ seen := fun hmem =>
      hacyclic s (.head' (parentLink_of_usable husable) (hseen s hmem))
    simp [husable, hs]
  · simp [husable]

/-- The walk follows usable children and stops where there is none to follow. -/
theorem lastDescendantId_spec (hacyclic : Forest.Acyclic (parentLink L)) (fuel : ℕ) :
    ∀ (seen : List String) (id : String), id ∈ L → seen.Nodup → (∀ s ∈ seen, s ∈ L) →
      (∀ s ∈ seen, Relation.TransGen (Forest.Up (parentLink L)) id s) →
      L.size ≤ fuel + seen.length →
      Relation.ReflTransGen (Forest.Up (nextUsable L)) id (lastDescendantId L fuel seen id) ∧
        nextUsable L (lastDescendantId L fuel seen id) = none := by
  induction fuel with
  | zero =>
      intro seen id hid hnodup hsub habove hfuel
      have hnew : id ∉ seen := fun hmem => hacyclic id (habove id hmem)
      have hle := L.length_le_size (List.nodup_cons.mpr ⟨hnew, hnodup⟩)
        fun s hs => (List.mem_cons.mp hs).elim (fun h => h ▸ hid) (hsub s)
      rw [List.length_cons] at hle
      omega
  | succ fuel ih =>
      intro seen id hid hnodup hsub habove hfuel
      have hnew : id ∉ seen := fun hmem => hacyclic id (habove id hmem)
      have hnext : nextId L (id :: seen) id = lastUsable L id := by
        refine nextId_eq_lastUsable hacyclic fun s hs => ?_
        rcases List.mem_cons.mp hs with rfl | hs
        · exact .refl
        · exact (habove s hs).to_reflTransGen
      rw [lastDescendantId, if_pos ⟨hid, hnew⟩, hnext]
      cases hlast : lastUsable L id with
      | none => exact ⟨.refl, by rw [nextUsable, hlast, Option.filter_none]⟩
      | some next =>
          by_cases hempty : next = ""
          · simp only [if_pos hempty]
            exact ⟨.refl, by rw [nextUsable, hlast, Option.filter_some, if_neg (by simp [hempty])]⟩
          · simp only [if_neg hempty]
            have hlink := parentLink_of_usable (lastUsable_spec hlast).2
            obtain ⟨child, hchild, _⟩ := usable_iff.mp (lastUsable_spec hlast).2
            have hrest := ih (id :: seen) next (Dict.mem_of_get? (messageAt_eq_some.mp hchild))
              (List.nodup_cons.mpr ⟨hnew, hnodup⟩)
              (fun s hs => (List.mem_cons.mp hs).elim (fun h => h ▸ hid) (hsub s)) ?_
              (by rw [List.length_cons]; omega)
            · exact ⟨.head (nextUsable_eq_some.mpr ⟨hlast, hempty⟩) hrest.1, hrest.2⟩
            · intro s hs
              rcases List.mem_cons.mp hs with rfl | hs
              · exact .single hlink
              · exact .head hlink (habove s hs)

/-! ## The newest leaf -/

/-- The leaf an entry is, with its timestamp. -/
def leafOf (entry : String × Json) : Option (String × ℚ) :=
  entry.2.asObj.bind fun m =>
    if (m.get "role").truthy ∧ childrenIds m = [] then
      ((((m.get "timestamp").or (.num 0)).asOperand).filter fun t => -1 < t).map fun t =>
        (entry.1, t)
    else none

/-- The first leaf among those with the greatest timestamp. -/
def newestLeaf (ms : Dict String Json) : Option String :=
  ((ms.entries.filterMap leafOf).argmax Prod.snd).map Prod.fst

/-- The newest leaf is a message without children. -/
theorem newestLeaf_spec {k : String} (h : newestLeaf L = some k) :
    ∃ m, messageAt L k = some m ∧ (m.get "role").truthy ∧ childrenIds m = [] := by
  obtain ⟨e, he, rfl⟩ := Option.map_eq_some_iff.mp h
  obtain ⟨entry, hentry, hleaf⟩ := List.mem_filterMap.mp (List.argmax_mem he)
  obtain ⟨m, hm, hif⟩ := Option.bind_eq_some_iff.mp hleaf
  split_ifs at hif with hcond
  obtain ⟨t, _, rfl⟩ := Option.map_eq_some_iff.mp hif
  obtain ⟨key, v⟩ := entry
  cases v with
  | obj o =>
      obtain rfl := Option.some.inj hm
      exact ⟨o, messageAt_eq_some.mpr ((Dict.mem_entries_iff L key _).mp hentry), hcond⟩
  | _ => cases hm

/-- The accumulator of the search as a leaf: no leaf counts as `-1`. -/
def accOf (leaf : Option (String × ℚ)) : Option String × ℚ :=
  (leaf.map Prod.fst, (leaf.map Prod.snd).getD (-1))

/-- One entry of the loop for the newest leaf. -/
theorem latestStep_accOf {leaf : Option (String × ℚ)} (hpos : ∀ x ∈ leaf, -1 < x.2)
    {entry : String × Json} {r : Option String × ℚ} (h : latestStep (accOf leaf) entry = some r) :
    ∃ leaf', r = accOf leaf' ∧ (∀ x ∈ leaf', -1 < x.2) ∧ leaf' = (leafOf entry).toList.foldl
      (List.argAux fun b c => c.2 < b.2) leaf := by
  rw [latestStep] at h
  rw [leafOf]
  cases hm : entry.2.asObj with
  | none =>
      rw [hm] at h
      exact ⟨leaf, (Option.some.inj h).symm, hpos, rfl⟩
  | some m =>
      rw [hm] at h
      simp only at h
      rw [Option.bind_some]
      by_cases hrole : (m.get "role").truthy
      · rw [if_neg (by simp [hrole])] at h
        by_cases hchildren : childrenIds m = []
        · rw [if_neg (not_not_intro hchildren)] at h
          obtain ⟨t, ht, hr⟩ := Option.map_eq_some_iff.mp h
          rw [if_pos ⟨hrole, hchildren⟩, ht]
          cases leaf with
          | none =>
              -- the first leaf has to beat `-1`
              by_cases hlt : -1 < t
              · refine ⟨some (entry.1, t), hr.symm.trans (if_pos hlt), fun x hx => ?_, ?_⟩
                · rw [← Option.some.inj hx]
                  exact hlt
                · rw [Option.filter_some, if_pos (by simpa using hlt)]
                  rfl
              · refine ⟨none, hr.symm.trans (if_neg hlt), hpos, ?_⟩
                rw [Option.filter_some, if_neg (by simpa using hlt)]
                rfl
          | some old =>
              have hold := hpos old rfl
              by_cases hlt : old.2 < t
              · refine ⟨some (entry.1, t), hr.symm.trans (if_pos hlt), fun x hx => ?_, ?_⟩
                · rw [← Option.some.inj hx]
                  exact hold.trans hlt
                · rw [Option.filter_some, if_pos (by simpa using hold.trans hlt)]
                  exact (if_pos hlt).symm
              · refine ⟨some old, hr.symm.trans (if_neg hlt), hpos, ?_⟩
                rw [Option.filter_some]
                split_ifs
                · exact (if_neg hlt).symm
                · rfl
        · rw [if_pos hchildren] at h
          rw [if_neg fun hc => hchildren hc.2]
          exact ⟨leaf, (Option.some.inj h).symm, hpos, rfl⟩
      · rw [if_pos (by simp [hrole])] at h
        rw [if_neg fun hc => hrole hc.1]
        exact ⟨leaf, (Option.some.inj h).symm, hpos, rfl⟩

/-- The whole loop for the newest leaf. -/
theorem foldlM_latestStep (l : List (String × Json)) : ∀ (leaf : Option (String × ℚ))
    (r : Option String × ℚ), (∀ x ∈ leaf, -1 < x.2) → l.foldlM latestStep (accOf leaf) = some r →
      r = accOf ((l.filterMap leafOf).foldl (List.argAux fun b c => c.2 < b.2) leaf) := by
  induction l with
  | nil =>
      intro leaf r _ h
      exact (Option.some.inj h).symm
  | cons entry l ih =>
      intro leaf r hpos h
      rw [List.foldlM_cons] at h
      obtain ⟨acc, hstep, hrest⟩ := Option.bind_eq_some_iff.mp h
      obtain ⟨leaf', rfl, hpos', hleaf'⟩ := latestStep_accOf hpos hstep
      rw [ih leaf' r hpos' hrest, List.filterMap_cons, hleaf']
      cases leafOf entry <;> rfl

/-- The search finds the newest leaf. -/
theorem latestLeafId_eq {r : Option String} (h : latestLeafId L = some r) : r = newestLeaf L := by
  obtain ⟨acc, hacc, rfl⟩ := Option.map_eq_some_iff.mp h
  rw [foldlM_latestStep L.entries none acc (fun _ hx => by cases hx) hacc]
  rfl

/-! ## The move of the current id -/

/-- The output of a message can be read. -/
def Readable (ms : Dict String Json) (id : String) : Prop :=
  ∀ m, messageAt ms id = some m → iterable (outputOf m) = true

/-- The current message is complete and no bad leaf. -/
def Sound (ms : Dict String Json) (currentId : Json) (id : String) (m : Message) : Prop :=
  currentId = .str id ∧ messageAt ms id = some m ∧ (m.get "id").truthy ∧ (m.get "role").truthy ∧
    isBadLeaf ms m = some false

/-- A message with a parent is no bad leaf. -/
theorem isBadLeaf_of_linked {m : Message} {p : String} (hp : m.get "parentId" = .str p)
    (hread : iterable (outputOf m) = true) : isBadLeaf L m = some false := by
  rw [isBadLeaf, if_pos hread, hp]
  simp

/-- Where the test succeeds the output can be read. -/
theorem readable_of_isBadLeaf {m : Message} {b : Bool} {id : String} (hm : messageAt L id = some m)
    (h : isBadLeaf L m = some b) : Readable L id := by
  intro n hn
  obtain rfl := Option.some.inj (hm.symm.trans hn)
  rw [isBadLeaf] at h
  by_contra hread
  rw [if_neg hread] at h
  cases h

/-- The current id, where it names a message. -/
theorem newCurrentId_message {id : String} {m : Message} (hm : messageAt L id = some m) :
    newCurrentId L (.str id) = (isBadLeaf L m).bind fun currentIsBadLeaf =>
      if (m.get "id").truthy && (m.get "role").truthy && !currentIsBadLeaf then
        some (if lastDescendantId L L.size [] id ≠ id then some (lastDescendantId L L.size [] id)
          else none)
      else fallbackId L (.str id) := by
  rw [newCurrentId, if_neg (by simp [hashable]), Json.asStr_str, Option.bind_some, hm]
  rfl

/-- A current message that is sound moves to the end of its branch. -/
theorem newCurrentId_sound {currentId : Json} {id : String} {m : Message}
    (h : Sound L currentId id m) : newCurrentId L currentId =
      some (if lastDescendantId L L.size [] id ≠ id then some (lastDescendantId L L.size [] id)
        else none) := by
  obtain ⟨rfl, hm, hid, hrole, hbad⟩ := h
  rw [newCurrentId_message hm, hbad, Option.bind_some, if_pos (by simp [hid, hrole])]

/-- Any other current message sends the repair to the newest leaf. -/
theorem newCurrentId_unsound {currentId : Json} {r : Option String}
    (hunsound : ∀ id m, ¬ Sound L currentId id m) (h : newCurrentId L currentId = some r) :
    fallbackId L currentId = some r := by
  rw [newCurrentId] at h
  by_cases hhash : hashable currentId
  · rw [if_neg (by simp [hhash])] at h
    cases hcur : currentId.asStr.bind fun id => (messageAt L id).map fun m => (id, m) with
    | none =>
        rw [hcur] at h
        exact h
    | some e =>
        rw [hcur] at h
        obtain ⟨id, hstr, he⟩ := Option.bind_eq_some_iff.mp hcur
        obtain ⟨m, hm, rfl⟩ := Option.map_eq_some_iff.mp he
        have hcurrent : currentId = .str id := by
          cases currentId with
          | str s => rw [Option.some.inj hstr]
          | _ => cases hstr
        obtain ⟨bad, hbad, hr⟩ := Option.bind_eq_some_iff.mp h
        by_cases hcond : ((m.get "id").truthy && (m.get "role").truthy && !bad) = true
        · simp only [Bool.and_eq_true, Bool.not_eq_true'] at hcond
          exact absurd ⟨hcurrent, hm, hcond.1.1, hcond.1.2, hcond.2 ▸ hbad⟩ (hunsound id m)
        · rwa [if_neg hcond] at hr
  · rw [if_pos (by simp [hhash])] at h
    cases h

/-- A message without a child to follow is the end of its branch. -/
theorem lastDescendantId_end (hacyclic : Forest.Acyclic (parentLink L)) {id : String} (hid : id ∈ L)
    (hend : nextUsable L id = none) : lastDescendantId L L.size [] id = id := by
  obtain ⟨hreach, _⟩ := lastDescendantId_spec hacyclic L.size [] id hid List.nodup_nil
    (fun _ hs => absurd hs List.not_mem_nil) (fun _ hs => absurd hs List.not_mem_nil)
      (Nat.le_add_right _ _)
  rcases Relation.ReflTransGen.cases_head hreach with heq | ⟨c, hc, _⟩
  · exact heq.symm
  · rw [Forest.Up, hend] at hc
    cases hc

/-- The end of the branch of a sound current message. -/
structure BranchEnd (ms : Dict String Json) (id last : String) (m : Message) : Prop where
  reach : Relation.ReflTransGen (Forest.Up (nextUsable ms)) id last
  stop : nextUsable ms last = none
  stored : messageAt ms last = some m
  hasId : (m.get "id").truthy
  hasRole : (m.get "role").truthy
  linked : last ≠ id → ∃ p, m.get "parentId" = .str p

/-- The walk ends at the end of the branch. -/
theorem branchEnd (hacyclic : Forest.Acyclic (parentLink L)) {currentId : Json} {id : String}
    {m : Message} (h : Sound L currentId id m) :
    ∃ m', BranchEnd L id (lastDescendantId L L.size [] id) m' := by
  obtain ⟨-, hm, hid, hrole, -⟩ := h
  obtain ⟨hreach, hstop⟩ := lastDescendantId_spec hacyclic L.size [] id
    (Dict.mem_of_get? (messageAt_eq_some.mp hm)) List.nodup_nil
    (fun _ hs => absurd hs List.not_mem_nil) (fun _ hs => absurd hs List.not_mem_nil)
      (Nat.le_add_right _ _)
  generalize lastDescendantId L L.size [] id = last at hreach hstop
  rcases Relation.ReflTransGen.cases_tail hreach with rfl | ⟨p, _, hp⟩
  · exact ⟨m, hreach, hstop, hm, hid, hrole, fun hne => absurd rfl hne⟩
  · obtain ⟨hlast, hne⟩ := nextUsable_eq_some.mp hp
    obtain ⟨child, hchild, hcid, hcrole, hcparent⟩ := usable_iff.mp (lastUsable_spec hlast).2
    refine ⟨child, hreach, hstop, hchild, ?_, hcrole, fun _ => ⟨p, hcparent⟩⟩
    rw [hcid, Json.truthy_str]
    simpa using hne

/-- Where the repair has moved, a second one stays, if it can read the output there. -/
theorem newCurrentId_branchEnd (hacyclic : Forest.Acyclic (parentLink L)) {id last : String}
    {m : Message} (h : BranchEnd L id last m) (hne : last ≠ id) :
    newCurrentId L (.str last) = some none ↔ Readable L last := by
  rw [newCurrentId_message h.stored]
  constructor
  · intro hnew
    obtain ⟨bad, hbad, _⟩ := Option.bind_eq_some_iff.mp hnew
    exact readable_of_isBadLeaf h.stored hbad
  · intro hread
    obtain ⟨p, hp⟩ := h.linked hne
    rw [isBadLeaf_of_linked hp (hread m h.stored), Option.bind_some,
      if_pos (by simp [h.hasId, h.hasRole]),
      lastDescendantId_end hacyclic (Dict.mem_of_get? (messageAt_eq_some.mp h.stored)) h.stop,
      if_neg (not_not_intro rfl)]

/-- The fall-back is the newest leaf. -/
theorem newCurrentId_leaf (hacyclic : Forest.Acyclic (parentLink L)) {currentId : Json} {k : String}
    (h : fallbackId L currentId = some (some k)) :
    newestLeaf L = some k ∧ k ≠ "" ∧ (newCurrentId L (.str k) = some none ↔ Readable L k) := by
  obtain ⟨leaf, hleaf, hfilter⟩ := Option.map_eq_some_iff.mp h
  obtain ⟨rfl, hcond⟩ := Option.filter_eq_some_iff.mp hfilter
  have hnewest := (latestLeafId_eq hleaf).symm
  obtain ⟨m, hm, hrole, hchildren⟩ := newestLeaf_spec hnewest
  simp only [Bool.and_eq_true, decide_eq_true_eq] at hcond
  refine ⟨hnewest, hcond.1, ?_⟩
  rw [newCurrentId_message hm]
  constructor
  · intro hnew
    obtain ⟨bad, hbad, _⟩ := Option.bind_eq_some_iff.mp hnew
    exact readable_of_isBadLeaf hm hbad
  · intro hread
    rw [isBadLeaf, if_pos (hread m hm), Option.bind_some]
    split_ifs with hgood hlast
    · -- a leaf is the end of its branch
      refine absurd (lastDescendantId_end hacyclic (Dict.mem_of_get? (messageAt_eq_some.mp hm)) ?_)
        hlast
      have hnone : lastUsable L k = none := by
        rw [lastUsable_eq_none_iff]
        rintro ⟨c, hc, _⟩
        rw [childrenAt, hm, Option.map_some, Option.getD_some, hchildren] at hc
        exact absurd hc List.not_mem_nil
      rw [nextUsable, hnone, Option.filter_none]
    · rfl
    · rw [fallbackId, hleaf, Option.map_some, Option.filter_some, if_neg (by simp)]

/-! ## Histories of messages -/

/-- Messages as values of the map. -/
def ofMessages (ms : Messages) : Dict String Json := ms.mapVal fun _ m => .obj m

/-- A message reads as itself. -/
theorem messageAt_ofMessages (ms : Messages) (k : String) :
    messageAt (ofMessages ms) k = ms.get? k := by
  rw [messageAt, ofMessages, Dict.get?_mapVal]
  cases ms.get? k <;> rfl

/-- The children of a message read as themselves. -/
theorem childrenAt_ofMessages (ms : Messages) (k : String) :
    childrenAt (ofMessages ms) k = ((ms.get? k).map childrenIds).getD [] := by
  rw [childrenAt, messageAt_ofMessages]

theorem mem_ofMessages (ms : Messages) (k : String) :
    k ∈ ofMessages ms ↔ k ∈ ms := Dict.mem_mapVal _ _ _

/-- Modifying a message sets its value. -/
theorem ofMessages_modify {ms : Messages} {p : String} {m : Message} (hm : ms.get? p = some m)
    (f : Message → Message) : ofMessages (ms.modify p f) = (ofMessages ms).set p (.obj (f m)) := by
  refine Dict.ext_get? ?_ fun k => ?_
  · have hp : p ∈ ofMessages ms := (mem_ofMessages ms p).mpr (Dict.mem_of_get? hm)
    have hset : ((ofMessages ms).set p (.obj (f m))).keys = (ofMessages ms).keys :=
      (Assoc.keys_set _ _ _).trans (if_pos ((Assoc.has_iff _ _).mpr hp))
    rw [hset, ofMessages, ofMessages, Dict.keys_mapVal, Dict.keys_mapVal, Dict.keys_modify]
  · rw [Dict.get?_set, ofMessages, ofMessages, Dict.get?_mapVal, Dict.get?_mapVal, Dict.get?_modify]
    split_ifs with hk
    · rw [hk, hm]
      rfl
    · rfl

/-- On messages the repair lists a child as the upsert does. -/
theorem addChildIdToParent_ofMessages {ms : Messages} {parentId : Json} {c : String}
    {r : Dict String Json × Bool} (h : addChildIdToParent (ofMessages ms) parentId c = some r) :
    r = (ofMessages (Chat.addChildIdToParent ms parentId c).1,
      (Chat.addChildIdToParent ms parentId c).2) := by
  rw [Chat.addChildIdToParent]
  rcases addChildIdToParent_cases h with ⟨rfl, hlisted⟩ | ⟨p, parent, rfl, hne,
    hparent, hfresh, rfl⟩
  · cases hstored : if parentId.truthy then ms.stored parentId else none with
    | none => rfl
    | some p =>
        dsimp only
        split_ifs at hstored with htruthy
        obtain ⟨hp, hmem⟩ := Option.filter_eq_some_iff.mp hstored
        obtain ⟨parent, hget⟩ := (Dict.mem_iff_exists _ _).mp (of_decide_eq_true hmem)
        have hstr : parentId = .str p := by
          cases parentId with
          | str s => rw [Option.some.inj hp]
          | _ => cases hp
        have hin := (hlisted htruthy).2 p parent hstr ((messageAt_ofMessages ms p).trans hget)
        rw [hget, Option.map_some, Option.getD_some, if_pos hin]
  · rw [messageAt_ofMessages] at hparent
    have hstored : (if (Json.str p).truthy then ms.stored (.str p) else none) = some p := by
      rw [if_pos (by simpa using hne)]
      exact Option.filter_eq_some_iff.mpr ⟨rfl, decide_eq_true (Dict.mem_of_get? hparent)⟩
    rw [hstored]
    dsimp only
    rw [hparent, Option.map_some, Option.getD_some, if_neg hfresh, ofMessages_modify hparent]

/-- Both first loops list the same children. -/
theorem foldlM_listChild_ofMessages (ms : Messages) (l : List (String × Message)) :
    ∀ (acc : Messages × Bool) (r : Dict String Json × Bool), SameMessages ms acc.1 →
      (∀ e ∈ l, ms.get? e.1 = some e.2) →
      (l.map Prod.fst).foldlM listChild (ofMessages acc.1, acc.2) = some r →
        r = (ofMessages (l.foldl (fun acc e =>
            let r := Chat.addChildIdToParent acc.1 (e.2.get "parentId") e.1
            (r.1, r.2 || acc.2)) acc).1,
          (l.foldl (fun acc e =>
            let r := Chat.addChildIdToParent acc.1 (e.2.get "parentId") e.1
            (r.1, r.2 || acc.2)) acc).2) := by
  induction l with
  | nil =>
      intro acc r _ _ h
      exact (Option.some.inj h).symm
  | cons e l ih =>
      intro acc r hsame hget h
      rw [List.map_cons, List.foldlM_cons] at h
      obtain ⟨next, hstep, hrest⟩ := Option.bind_eq_some_iff.mp h
      obtain ⟨m', hm', hsub⟩ : ∃ m', acc.1.get? e.1 = some m' ∧
        m'.get "parentId" = e.2.get "parentId" := by
        rcases hsame e.1 with ⟨hnone, -⟩ | ⟨m, m', hm, hm', hbut⟩
        · rw [hget e List.mem_cons_self] at hnone
          cases hnone
        · rw [hget e List.mem_cons_self] at hm
          exact ⟨m', hm', Option.some.inj hm ▸ hbut.get (by decide)⟩
      rw [listChild] at hstep
      dsimp only at hstep
      rw [messageAt_ofMessages, hm'] at hstep
      dsimp only at hstep
      rw [hsub] at hstep
      obtain ⟨r', hr', rfl⟩ := Option.map_eq_some_iff.mp hstep
      rw [addChildIdToParent_ofMessages hr'] at hrest
      exact ih _ r (hsame.trans (sameMessages_addChildIdToParent acc.1 _ e.1))
        (fun e' he' => hget e' (List.mem_cons_of_mem _ he')) hrest

/-- On messages the repair lists all the children as the upsert does. -/
theorem listChildren_ofMessages {ms : Messages} {r : Dict String Json × Bool}
    (h : listChildren (ofMessages ms) = some r) :
    r = (ofMessages (repairChildren ms).1, (repairChildren ms).2) := by
  refine foldlM_listChild_ofMessages ms ms.entries (ms, false) r (.refl ms)
    (fun e he => (Dict.mem_entries_iff _ _ _).mp he) ?_
  have hkeys : (ofMessages ms).keys = ms.entries.map Prod.fst := Dict.keys_mapVal _ _
  rw [← hkeys]
  exact h

/-- On messages the walk down takes the same steps. -/
theorem nextId_ofMessages (ms : Messages) (seen : List String) (id : String) :
    nextId (ofMessages ms) seen id = nextDescendant ms seen id := by
  rw [nextId, nextDescendant, childrenAt_ofMessages]
  have hchildren : ms.childrenAt (.str id) = ((ms.get? id).map childrenIds).getD [] := rfl
  rw [hchildren]
  congr 1
  funext c
  cases c with
  | str s =>
      rw [Json.asStr_str, Option.filter_some, usable, messageAt_ofMessages]
      dsimp only
      cases ms.get? s with
      | none => simp
      | some child => simp [and_assoc]
  | _ => rfl

/-- On messages the walk down ends at the same message. -/
theorem lastDescendantId_ofMessages (ms : Messages) (fuel : ℕ) :
    ∀ (seen : List String) (id : String),
    lastDescendantId (ofMessages ms) fuel seen id = Chat.lastDescendantId ms fuel seen id := by
  induction fuel with
  | zero => exact fun _ _ => rfl
  | succ fuel ih =>
      intro seen id
      rw [lastDescendantId, Chat.lastDescendantId]
      refine if_congr (and_congr (mem_ofMessages ms id) Iff.rfl) ?_ rfl
      rw [nextId_ofMessages]
      cases nextDescendant ms (id :: seen) id with
      | none => rfl
      | some next => exact if_congr Iff.rfl rfl (ih _ _)

/-- On messages the loop for the newest leaf does the same. -/
theorem foldlM_latestStep_ofMessages (l : List (String × Message)) : ∀ acc r : Option String × ℚ,
    (l.map fun e => (e.1, Json.obj e.2)).foldlM latestStep acc = some r →
      l.foldl (fun (acc : Option String × ℚ) e =>
        let timestamp := (((e.2.get "timestamp").or (.num 0)).asOperand).getD 0
        if (e.2.get "role").truthy ∧ childrenIds e.2 = [] ∧ acc.2 < timestamp then
          (some e.1, timestamp) else acc) acc = r := by
  induction l with
  | nil => exact fun _ _ h => Option.some.inj h
  | cons e l ih =>
      intro acc r h
      rw [List.map_cons, List.foldlM_cons] at h
      obtain ⟨next, hstep, hrest⟩ := Option.bind_eq_some_iff.mp h
      rw [List.foldl_cons, ← ih next r hrest]
      congr 1
      rw [latestStep] at hstep
      dsimp only [Json.asObj_obj] at hstep ⊢
      split_ifs at hstep with hrole hchildren
      · obtain rfl := Option.some.inj hstep
        exact if_neg fun h => by simp [h.1] at hrole
      · obtain rfl := Option.some.inj hstep
        exact if_neg fun h => hchildren h.2.1
      · obtain ⟨t, ht, hnext⟩ := Option.map_eq_some_iff.mp hstep
        rw [ht, Option.getD_some, ← hnext]
        have hrole' : (e.2.get "role").truthy = true := by simpa using hrole
        simp only [hrole', not_not.mp hchildren, true_and]

/-- Both searches find the same leaf, where no timestamp raises. -/
theorem latestLeafId_ofMessages {ms : Messages} {leaf : Option String}
    (h : latestLeafId (ofMessages ms) = some leaf) : leaf = latestLeaf ms := by
  obtain ⟨r, hr, rfl⟩ := Option.map_eq_some_iff.mp h
  rw [latestLeaf, foldlM_latestStep_ofMessages ms.entries (none, -1) r hr]

/-- The id of a history as a value. -/
def idValue (currentId : Option String) : Json := (currentId.map .str).getD .null

/-- On messages the fall-back is the same. -/
theorem fallbackId_ofMessages {ms : Messages} {currentId newId : Option String}
    (h : fallbackId (ofMessages ms) (idValue currentId) = some newId) :
    newId = (latestLeaf ms).filter fun leaf => ¬ (leaf = "" ∨ some leaf = currentId) := by
  obtain ⟨leaf, hleaf, rfl⟩ := Option.map_eq_some_iff.mp h
  rw [latestLeafId_ofMessages hleaf]
  refine congrArg (fun f => (latestLeaf ms).filter f) (funext fun l => ?_)
  cases currentId with
  | none => simp [idValue]
  | some id => simp [idValue]

/-- The id that the repair of a history moves to, if it moves. -/
def movedTo (ms : Messages) (currentId : Option String) : Option String :=
  match currentId.bind fun id => (ms.get? id).map fun m => (id, m) with
  | none => (latestLeaf ms).filter fun leaf => ¬ (leaf = "" ∨ some leaf = currentId)
  | some (id, m) =>
    if (m.get "id").truthy && (m.get "role").truthy && !Chat.isBadLeaf ms m then
      some (Chat.lastDescendantId ms ms.size [] id) |>.filter (· ≠ id)
    else (latestLeaf ms).filter fun leaf => ¬ (leaf = "" ∨ some leaf = currentId)

/-- A result that follows the search for the latest leaf is what `movedTo` says of it. -/
theorem repair_fallback {ms : Messages} {currentId : Option String} {changed : Bool}
    {r : History × Bool} (hnone : latestLeaf ms = none → r = (⟨ms, currentId⟩, changed))
    (hsome : ∀ leaf, latestLeaf ms = some leaf → r = if leaf = "" ∨ some leaf = currentId then
      (⟨ms, currentId⟩, changed) else (⟨ms, some leaf⟩, true)) :
    r = (⟨ms, ((latestLeaf ms).filter fun leaf => ¬ (leaf = "" ∨ some leaf = currentId)).or
      currentId⟩,
      ((latestLeaf ms).filter fun leaf => ¬ (leaf = "" ∨ some leaf = currentId)).isSome ||
        changed) := by
  cases hleaf : latestLeaf ms with
  | none => exact hnone hleaf
  | some leaf =>
      rw [hsome leaf hleaf, Option.filter_some]
      split_ifs with hstays hmoves
      · simp [hstays] at hmoves
      · rfl
      · rfl
      · simp_all

/-- The repair lists the children and moves the current id. -/
theorem repairChatCurrentId_moves (h : History) : Chat.repairChatCurrentId h =
    (⟨(repairChildren h.messages).1,
      (movedTo (repairChildren h.messages).1 h.currentId).or h.currentId⟩,
      (movedTo (repairChildren h.messages).1 h.currentId).isSome ||
        (repairChildren h.messages).2) := by
  obtain ⟨ms, currentId⟩ := h
  rw [Chat.repairChatCurrentId, movedTo]
  dsimp only
  generalize repairChildren ms = repaired
  obtain ⟨ms', changed⟩ := repaired
  dsimp only
  cases currentId with
  | none => exact repair_fallback (fun h => by rw [h]; rfl) fun leaf h => by rw [h]; rfl
  | some id =>
      rw [Option.bind_some, Option.bind_some]
      cases hm : ms'.get? id with
      | none => exact repair_fallback (fun h => by rw [h]; rfl) fun leaf h => by rw [h]; rfl
      | some m =>
          simp only [Option.map_some]
          by_cases hsound :
            ((m.get "id").truthy && (m.get "role").truthy && !Chat.isBadLeaf ms' m) = true
          · rw [if_pos hsound, if_pos hsound, Option.filter_some]
            by_cases hlast : Chat.lastDescendantId ms' ms'.size [] id = id
            · simp [hlast]
            · simp [hlast]
          · rw [if_neg hsound, if_neg hsound]
            exact repair_fallback (fun h => by rw [h]) fun leaf h => by rw [h]

/-- Both versions move the current id alike. -/
theorem newCurrentId_ofMessages {ms : Messages} {currentId newId : Option String}
    (h : newCurrentId (ofMessages ms) (idValue currentId) = some newId) :
    newId = movedTo ms currentId := by
  rw [newCurrentId] at h
  cases currentId with
  | none => exact fallbackId_ofMessages h
  | some id =>
      have hid : (idValue (some id)).asStr = some id := rfl
      rw [if_neg (by simp [hashable, idValue]), hid, Option.bind_some, messageAt_ofMessages] at h
      rw [movedTo, Option.bind_some]
      cases hm : ms.get? id with
      | none =>
          rw [hm] at h
          exact fallbackId_ofMessages h
      | some m =>
          rw [hm, Option.map_some] at h
          rw [Option.map_some]
          dsimp only at h ⊢
          obtain ⟨bad, hbad, h⟩ := Option.bind_eq_some_iff.mp h
          have hsame : bad = Chat.isBadLeaf ms m := by
            rw [isBadLeaf] at hbad
            split_ifs at hbad
            rw [← Option.some.inj hbad, Chat.isBadLeaf, outputOf]
            have hsize : (ofMessages ms).size = ms.size := List.length_map ..
            rw [hsize, Bool.eq_iff_iff]
            simp [and_assoc]
          subst hsame
          by_cases hsound :
            ((m.get "id").truthy && (m.get "role").truthy && !Chat.isBadLeaf ms m) = true
          · rw [if_pos hsound] at h
            have hsize : (ofMessages ms).size = ms.size := List.length_map ..
            rw [if_pos hsound, ← Option.some.inj h, lastDescendantId_ofMessages, hsize,
              Option.filter_some]
            simp
          · rw [if_neg hsound] at h
            rw [if_neg hsound]
            exact fallbackId_ofMessages h

/-- On a history of messages the repair does what it does there, where it returns. -/
theorem repairChatCurrentId_ofMessages (h : History) {after : Option StoredHistory} {changed : Bool}
    (hrun : repairChatCurrentId (some ⟨some (ofMessages h.messages), idValue h.currentId⟩) =
      some (after, changed)) :
    after = some ⟨some (ofMessages (Chat.repairChatCurrentId h).1.messages),
      idValue (Chat.repairChatCurrentId h).1.currentId⟩ ∧
    changed = (Chat.repairChatCurrentId h).2 := by
  obtain ⟨listed, hlisted, hmove⟩ := Option.bind_eq_some_iff.mp hrun
  obtain rfl := listChildren_ofMessages hlisted
  obtain ⟨newId, hnew, hresult⟩ := Option.map_eq_some_iff.mp hmove
  rw [repairChatCurrentId_moves, ← newCurrentId_ofMessages hnew]
  cases newId with
  | none => exact ⟨(Prod.mk.inj hresult).1.symm, (Prod.mk.inj hresult).2.symm⟩
  | some id => exact ⟨(Prod.mk.inj hresult).1.symm, (Prod.mk.inj hresult).2.symm⟩

/-! ## When the repair settles -/

/-- With every child listed: the branch of a sound current message reaches no message stored under
`''` and ends where the output can be read; otherwise the output of the newest leaf can be read,
and where the current message has a usable child there is a leaf to move to. -/
structure Settles (ms : Dict String Json) (currentId : Json) : Prop where
  branch : ∀ id m, Sound ms currentId id m →
    ¬ Relation.TransGen (Forest.Up (lastUsable ms)) id "" ∧
    ∀ k, Relation.ReflTransGen (Forest.Up (lastUsable ms)) id k →
      lastUsable ms k = none → Readable ms k
  readable : (∀ id m, ¬ Sound ms currentId id m) → ∀ k, newestLeaf ms = some k →
    k ≠ "" → Readable ms k
  leaf : (∀ id m, ¬ Sound ms currentId id m) → ∀ id m, currentId = .str id →
    messageAt ms id = some m →
    (m.get "id").truthy → (m.get "role").truthy → HasUsableChild ms id →
    ∃ k, newestLeaf ms = some k ∧ k ≠ ""

/-- What the move should have done. -/
structure Moves (ms : Dict String Json) (currentId : Json) (newId : Option String) : Prop where
  stays : ∀ k, newId = some k → newCurrentId ms (.str k) = some none
  settled : ∀ id m, (newId.map Json.str).getD currentId = .str id → messageAt ms id = some m →
    (m.get "id").truthy → (m.get "role").truthy → ¬ HasUsableChild ms id

/-- On a way that ends without meeting `''`, nothing below the start is `''`. -/
theorem ne_empty_of_reach {id last : String}
    (hreach : Relation.ReflTransGen (Forest.Up (nextUsable L)) id last)
    (hlast : lastUsable L last = none) : ¬ Relation.TransGen (Forest.Up (lastUsable L)) id "" := by
  induction hreach using Relation.ReflTransGen.head_induction_on with
  | refl =>
      intro h
      obtain ⟨c, hc, _⟩ := Relation.TransGen.head'_iff.mp h
      rw [Forest.Up, hlast] at hc
      cases hc
  | @head a b hab _ ih =>
      intro h
      obtain ⟨hb, hne⟩ := nextUsable_eq_some.mp hab
      obtain ⟨c, hc, hrest⟩ := Relation.TransGen.head'_iff.mp h
      obtain rfl : b = c := Option.some.inj (hb.symm.trans hc)
      rcases Relation.reflTransGen_iff_eq_or_transGen.mp hrest with heq | htrans
      · exact hne heq.symm
      · exact ih htrans

/-- A way along last usable children has one end. -/
theorem end_unique {id a b : String} (ha : Relation.ReflTransGen (Forest.Up (lastUsable L)) id a)
    (haend : lastUsable L a = none) (hb : Relation.ReflTransGen (Forest.Up (lastUsable L)) id b)
    (hbend : lastUsable L b = none) : a = b := by
  induction ha using Relation.ReflTransGen.head_induction_on with
  | refl =>
      rcases Relation.ReflTransGen.cases_head hb with heq | ⟨c, hc, _⟩
      · exact heq
      · rw [Forest.Up, haend] at hc
        cases hc
  | @head x y hxy _ ih =>
      rcases Relation.ReflTransGen.cases_head hb with rfl | ⟨c, hc, hcb⟩
      · rw [Forest.Up, hbend] at hxy
        cases hxy
      · obtain rfl : y = c := Option.some.inj (hxy.symm.trans hc)
        exact ih hcb

/-- The walk goes along usable children. -/
theorem reach_lastUsable {id k : String}
    (h : Relation.ReflTransGen (Forest.Up (nextUsable L)) id k) :
    Relation.ReflTransGen (Forest.Up (lastUsable L)) id k :=
  Relation.ReflTransGen.mono (fun _ _ hc => (nextUsable_eq_some.mp hc).1) _ _ h

/-- Below a sound current message the move does its work exactly where the branch allows it. -/
theorem moves_sound (hacyclic : Forest.Acyclic (parentLink L)) {currentId : Json} {id : String}
    {m : Message} (hsound : Sound L currentId id m) {newId : Option String}
    (hnew : newCurrentId L currentId = some newId) :
    Moves L currentId newId ↔ Settles L currentId := by
  obtain ⟨m', hend⟩ := branchEnd hacyclic hsound
  rw [newCurrentId_sound hsound] at hnew
  have hcur := hsound.1
  generalize lastDescendantId L L.size [] id = last at hend hnew
  have hfinal : (newId.map Json.str).getD currentId = .str last := by
    rw [← Option.some.inj hnew]
    split_ifs with hne
    · rfl
    · rw [not_not.mp hne]
      exact hcur
  -- where no new id is returned, the code has read the output of the last message
  have hread : newId = none → Readable L last := by
    intro hnone
    rw [← Option.some.inj hnew] at hnone
    split_ifs at hnone with hne
    rw [not_not.mp hne]
    exact readable_of_isBadLeaf hsound.2.1 hsound.2.2.2.2
  -- the move ends at the leaf of the branch, so what is asked of the move is asked of that leaf
  constructor
  · intro h
    have hnone : lastUsable L last = none :=
      lastUsable_eq_none_iff.mpr (h.settled last m' hfinal hend.stored hend.hasId hend.hasRole)
    have hlast : Readable L last := by
      cases newId with
      | none => exact hread rfl
      | some k =>
          obtain rfl : k = last := Json.str.inj hfinal
          have hne : k ≠ id := by
            rintro rfl
            rw [if_neg (not_not_intro rfl)] at hnew
            cases hnew
          exact (newCurrentId_branchEnd hacyclic hend hne).mp (h.stays k rfl)
    refine ⟨fun i n hi => ?_, fun hno => absurd hsound (hno id m),
      fun hno => absurd hsound (hno id m)⟩
    obtain rfl : id = i := Json.str.inj (hcur.symm.trans hi.1)
    refine ⟨ne_empty_of_reach hend.reach hnone, fun k hk hkend => ?_⟩
    rw [← end_unique (reach_lastUsable hend.reach) hnone hk hkend]
    exact hlast
  -- the leaf of the branch can be read, and it has no usable child
  · intro h
    obtain ⟨hempty, hends⟩ := h.branch id m hsound
    have hnone : lastUsable L last = none := by
      refine Option.eq_none_iff_forall_not_mem.mpr fun c hc => ?_
      by_cases hce : c = ""
      · subst hce
        exact hempty (.tail' (reach_lastUsable hend.reach) hc)
      · have hstop := hend.stop
        rw [nextUsable_eq_some.mpr ⟨hc, hce⟩] at hstop
        cases hstop
    refine ⟨fun k hk => ?_, fun i n hi hn _ _ => ?_⟩
    · subst hk
      obtain rfl : k = last := Json.str.inj hfinal
      have hne : k ≠ id := by
        rintro rfl
        rw [if_neg (not_not_intro rfl)] at hnew
        cases hnew
      exact (newCurrentId_branchEnd hacyclic hend hne).mpr
        (hends k (reach_lastUsable hend.reach) hnone)
    · obtain rfl := Json.str.inj (hfinal.symm.trans hi)
      exact lastUsable_eq_none_iff.mp hnone

/-- Otherwise the move does its work exactly where the leaves allow it. -/
theorem moves_unsound (hacyclic : Forest.Acyclic (parentLink L)) {currentId : Json}
    (hunsound : ∀ id m, ¬ Sound L currentId id m) {newId : Option String}
    (hnew : newCurrentId L currentId = some newId) :
    Moves L currentId newId ↔ Settles L currentId := by
  have hfallback := newCurrentId_unsound hunsound hnew
  obtain ⟨leaf, hleaf, hfilter⟩ := Option.map_eq_some_iff.mp hfallback
  have hnewest := latestLeafId_eq hleaf
  constructor
  · intro h
    refine ⟨fun id m hs => absurd hs (hunsound id m), fun _ k hk hne => ?_,
      fun _ id m hcur hm hid hrole hchild => ?_⟩
    · rw [hnewest, hk, Option.filter_some] at hfilter
      by_cases hsame : .str k = currentId
      · -- the current message is the newest leaf, whose output the first call has read
        rw [← hsame] at hnew
        obtain ⟨m, hm, _, _⟩ := newestLeaf_spec hk
        rw [newCurrentId_message hm] at hnew
        obtain ⟨bad, hbad, _⟩ := Option.bind_eq_some_iff.mp hnew
        exact readable_of_isBadLeaf hm hbad
      · rw [if_pos (by simp [hne, hsame])] at hfilter
        subst hfilter
        exact ((newCurrentId_leaf hacyclic hfallback).2.2).mp (h.stays k rfl)
    · cases newId with
      | none => exact absurd hchild (h.settled id m hcur hm hid hrole)
      | some k =>
          obtain ⟨hk, hne, _⟩ := newCurrentId_leaf hacyclic hfallback
          exact ⟨k, hk, hne⟩
  · intro h
    refine ⟨fun k hk => ?_, fun id m hcur hm hid hrole hchild => ?_⟩
    · subst hk
      obtain ⟨hk, hne, hiff⟩ := newCurrentId_leaf hacyclic hfallback
      exact hiff.mpr (h.readable hunsound k hk hne)
    -- a message with a usable child is no leaf
    · have hleafNone : ∀ k, newestLeaf L = some k → k ≠ id := by
        rintro k hk rfl
        obtain ⟨n, hn, _, hnil⟩ := newestLeaf_spec hk
        obtain ⟨c, hc, _⟩ := hchild
        rw [childrenAt, hn, Option.map_some, Option.getD_some, hnil] at hc
        exact absurd hc List.not_mem_nil
      cases newId with
      | some k =>
          obtain ⟨hk, _, _⟩ := newCurrentId_leaf hacyclic hfallback
          exact hleafNone k hk (Json.str.inj hcur)
      | none =>
          -- the newest leaf would have been taken
          obtain ⟨k, hk, hne⟩ := h.leaf hunsound id m hcur hm hid hrole hchild
          have hcur' : currentId = .str id := hcur
          have hki := hleafNone k hk
          rw [hnewest, hk, Option.filter_some, if_pos (by simp [hne, hcur', hki])] at hfilter
          cases hfilter

/-- The current id moves as it should exactly where it can be settled. -/
theorem moves_iff (hacyclic : Forest.Acyclic (parentLink L)) {currentId : Json}
    {newId : Option String} (hnew : newCurrentId L currentId = some newId) :
    Moves L currentId newId ↔ Settles L currentId := by
  by_cases hsound : ∃ id m, Sound L currentId id m
  · obtain ⟨id, m, hs⟩ := hsound
    exact moves_sound hacyclic hs hnew
  · exact moves_unsound hacyclic (fun id m hs => hsound ⟨id, m, hs⟩) hnew

/-- A call that returns has repaired the chat for good exactly where the move settles. -/
theorem repairs_iff {before after : Option StoredHistory} {changed : Bool}
    (hacyclic : ∀ ms currentId, before = some ⟨some ms, currentId⟩ → Forest.Acyclic (parentLink ms))
    (hrun : repairChatCurrentId before = some (after, changed)) :
    Repairs before after ↔
      ∀ ms currentId, before = some ⟨some ms, currentId⟩ → Settles (withChildren ms) currentId := by
  rcases before with _ | ⟨_ | ms, currentId⟩
  · obtain ⟨rfl, rfl⟩ := Prod.mk.inj (Option.some.inj hrun)
    refine iff_of_true ⟨fun _ => rfl, rfl, fun _ _ h => ?_, fun _ _ _ h => ?_⟩ fun _ _ h => ?_
    · cases h
    · cases h
    · cases h
  · obtain ⟨rfl, rfl⟩ := Prod.mk.inj (Option.some.inj hrun)
    refine iff_of_true ⟨fun _ => rfl, rfl, fun _ _ h => ?_, fun _ _ _ h => ?_⟩ fun _ _ h => ?_
    · cases h
    · cases h
    · cases h
  · obtain ⟨listed, hlisted, hmove⟩ := Option.bind_eq_some_iff.mp hrun
    obtain ⟨newId, hnew, hresult⟩ := Option.map_eq_some_iff.mp hmove
    obtain ⟨hkept, hagain⟩ := listChildren_spec hlisted
    have hwith : withChildren ms = listed.1 := (listChildren_eq hlisted).symm
    -- listing the children keeps every parent, so the walk ends there too
    have hacyclic' : Forest.Acyclic (parentLink listed.1) := by
      have hfun : parentLink listed.1 = parentLink ms := funext hkept.parentLink_eq
      rw [hfun]
      exact hacyclic ms currentId rfl
    have hafter : after = some ⟨some listed.1, (newId.map Json.str).getD currentId⟩ := by
      cases newId with
      | none => exact (Prod.mk.inj hresult).1.symm
      | some k => exact (Prod.mk.inj hresult).1.symm
    -- the condition is asked of the history the first loop leaves
    have hgoal :
      (∀ ms' currentId', some (⟨some ms, currentId⟩ : StoredHistory) = some ⟨some ms', currentId'⟩ →
        Settles (withChildren ms') currentId') ↔ Settles listed.1 currentId := by
      constructor
      · intro h
        exact hwith ▸ h ms currentId rfl
      · rintro h _ _ heq
        obtain ⟨hms, rfl⟩ := StoredHistory.mk.inj (Option.some.inj heq)
        obtain rfl := Option.some.inj hms
        exact hwith.symm ▸ h
    rw [hgoal, ← moves_iff hacyclic' hnew]
    subst hafter
    constructor
    · intro h
      refine ⟨fun k hk => ?_, fun id m hid hm => h.settled listed.1 id m (by rw [hid]) hm⟩
      -- the second call came back without a move
      have hsecond := h.idempotent
      subst hk
      rw [repairChatCurrentId, hagain, Option.bind_some] at hsecond
      obtain ⟨again, hnew', hpair⟩ := Option.map_eq_some_iff.mp hsecond
      cases again with
      | none => exact hnew'
      | some k' => cases (Prod.mk.inj hpair).2
    · intro h
      refine ⟨fun hno => absurd rfl (hno ms currentId), ?_, ?_, ?_⟩
      · have hnone : newCurrentId listed.1 ((newId.map Json.str).getD currentId) = some none := by
          cases newId with
          | none => exact hnew
          | some k => exact h.stays k rfl
        rw [repairChatCurrentId, hagain, Option.bind_some, hnone]
        rfl
      · rintro _ _ heq
        obtain ⟨hms, rfl⟩ := StoredHistory.mk.inj (Option.some.inj heq)
        obtain rfl := Option.some.inj hms
        exact ⟨listed.1, _, rfl, hkept⟩
      · rintro ms' id m heq hm hid hrole
        obtain ⟨hms, hcur⟩ := StoredHistory.mk.inj (Option.some.inj heq)
        obtain rfl := Option.some.inj hms
        exact h.settled id m hcur hm hid hrole

/-- An assistant output that lost its place, above a message whose only child is gone. -/
def staleChild : Dict String Json :=
  ⟨[("x", .obj [("id", .str "x"), ("role", .str "assistant"), ("parentId", .null),
      ("childrenIds", .arr [.str "y"]), ("output", .arr [.obj [("role", .str "assistant")]])]),
    ("y", .obj [("id", .str "y"), ("role", .str "user"), ("parentId", .str "x"),
      ("childrenIds", .arr [.str "gone"])])], by decide⟩

/-- The search for a leaf does not skip stale links, so `x` stays current above its usable child. -/
theorem staleChild_not_repaired :
    Forest.Acyclic (parentLink staleChild) ∧
    repairChatCurrentId (some ⟨some staleChild, .str "x"⟩) =
      some (some ⟨some staleChild, .str "x"⟩, false) ∧
    HasUsableChild staleChild "x" ∧
    ¬ Repairs (some ⟨some staleChild, .str "x"⟩) (some ⟨some staleChild, .str "x"⟩) := by
  have hchild : HasUsableChild staleChild "x" := ⟨"y", by decide, by decide⟩
  refine ⟨?_, ?_, hchild, fun h => ?_⟩
  · refine acyclic_of_entries (fun k => if k = "y" then 1 else 0) fun e he m p hm hp => ?_
    rcases List.mem_cons.mp he with rfl | he
    · rw [← Json.obj.inj hm] at hp
      cases hp
    · obtain rfl := List.mem_singleton.mp he
      rw [← Json.obj.inj hm] at hp
      obtain rfl := Json.str.inj hp
      decide
  · have hlisted : listChildren staleChild = some (staleChild, false) := by decide
    have hstay : newCurrentId staleChild (.str "x") = some none := by decide
    rw [repairChatCurrentId, hlisted, Option.bind_some, hstay]
    rfl
  · exact h.settled staleChild "x" _ rfl (messageAt_eq_some.mpr rfl) (by decide) (by decide) hchild

/-- Two messages, the answer not listed by its question. -/
def unlistedAnswer : Dict String Json :=
  ⟨[("q", .obj [("id", .str "q"), ("role", .str "user"), ("parentId", .null)]),
    ("a", .obj [("id", .str "a"), ("role", .str "assistant"), ("parentId", .str "q")])], by decide⟩

/-- An answer that its question does not list. -/
theorem repairs_unlistedAnswer :
    Repairs (some ⟨some unlistedAnswer, .str "q"⟩)
      (some ⟨some (withChildren unlistedAnswer), .str "a"⟩) ↔
      ∀ ms currentId, some (⟨some unlistedAnswer, .str "q"⟩ : StoredHistory) =
        some ⟨some ms, currentId⟩ →
        Settles (withChildren ms) currentId := by
  have hrun : repairChatCurrentId (some ⟨some unlistedAnswer, .str "q"⟩) =
      some (some ⟨some (withChildren unlistedAnswer), .str "a"⟩, true) := by decide
  refine repairs_iff (fun ms currentId h => ?_) hrun
  obtain ⟨hms, _⟩ := StoredHistory.mk.inj (Option.some.inj h)
  obtain rfl := Option.some.inj hms
  refine acyclic_of_entries (fun k => if k = "a" then 1 else 0) fun e he m p hm hp => ?_
  rcases List.mem_cons.mp he with rfl | he
  · rw [← Json.obj.inj hm] at hp
    cases hp
  · obtain rfl := List.mem_singleton.mp he
    rw [← Json.obj.inj hm] at hp
    obtain rfl := Json.str.inj hp
    decide

end OpenWebUI.Chat.Raw
