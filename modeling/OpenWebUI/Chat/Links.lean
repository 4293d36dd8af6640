import OpenWebUI.Lib.Forest
import OpenWebUI.Chat.History

/-! # Links of a chat history

`Linked` says that a message map is a forest whose two link directions agree.
The section on each server operation proves that it keeps a map linked; what an
operation does to the links is stated once, as a lemma on `parentOf` and
`childrenIds`, before the invariant is derived from it.
-/

namespace OpenWebUI.Chat

open Py

/-! ## Reading lemmas -/

/-- An id is stored where it is a text under which there is a message. -/
theorem Messages.stored_eq_some {messages : Messages} {id : Json} {p : String} :
    messages.stored id = some p ↔ id = .str p ∧ p ∈ messages := by
  cases id <;> simp [Messages.stored, Json.asStr, Option.filter_eq_some_iff]

@[simp] theorem Messages.stored_null (messages : Messages) : messages.stored .null = none := rfl

/-- The id of a message is stored. -/
theorem Messages.stored_str {messages : Messages} {p : String} (h : p ∈ messages) :
    messages.stored (.str p) = some p :=
  stored_eq_some.mpr ⟨rfl, h⟩

theorem Messages.stored_congr {ms ms' : Messages} (h : ∀ k, k ∈ ms' ↔ k ∈ ms) (id : Json) :
    ms'.stored id = ms.stored id := by
  apply Option.ext
  intro p
  rw [stored_eq_some, stored_eq_some, h]

/-- The link of a stored message. -/
theorem Messages.parentOf_of_get? {messages : Messages} {id : String} {m : Message}
    (h : messages.get? id = some m) :
    messages.parentOf id = messages.stored (m.get "parentId") := by
  simp [parentOf, h]

/-- Both ends of a link are stored. -/
theorem Messages.mem_of_parentOf {messages : Messages} {id p : String}
    (h : messages.parentOf id = some p) : id ∈ messages ∧ p ∈ messages := by
  unfold parentOf at h
  obtain ⟨m, hm, hp⟩ := Option.bind_eq_some_iff.mp h
  exact ⟨Dict.mem_of_get? hm, (stored_eq_some.mp hp).2⟩

/-- What is not stored has no link. -/
theorem Messages.parentOf_of_not_mem {messages : Messages} {id : String} (h : id ∉ messages) :
    messages.parentOf id = none := by
  rw [← Dict.get?_eq_none_iff] at h
  simp [parentOf, h]

@[simp] theorem childrenIds_set (m : Message) (xs : List Json) :
    childrenIds (Assoc.set m "childrenIds" (.arr xs)) = xs := by
  simp [childrenIds]

theorem childrenIds_set_ne (m : Message) {k : String} (v : Json) (h : k ≠ "childrenIds") :
    childrenIds (Assoc.set m k v) = childrenIds m := by
  rw [childrenIds, Obj.get_set_ne m v h.symm, childrenIds]

theorem childrenIds_congr {m m' : Message} (h : m'.lookup "childrenIds" = m.lookup "childrenIds") :
    childrenIds m' = childrenIds m := by
  simp [childrenIds, Obj.get, h]

/-! ## Well-linked maps -/

/-- `message['childrenIds']` is a list whenever the key is there. -/
def HasChildList (m : Message) : Prop :=
  m.lookup "childrenIds" = none ∨ ∃ xs, m.lookup "childrenIds" = some (.arr xs)

/-- The two link directions of a message map agree and form a forest. -/
structure Linked (messages : Messages) : Prop where
  resolves : ∀ {id m}, messages.get? id = some m →
    m.get "parentId" = .null ∨ ∃ p ∈ messages, m.get "parentId" = .str p
  acyclic : Forest.Acyclic messages.parentOf
  lists : ∀ {id m}, messages.get? id = some m → HasChildList m
  nodup : ∀ {p m}, messages.get? p = some m → (childrenIds m).Nodup
  children : ∀ {p m}, messages.get? p = some m → ∀ c,
    c ∈ childrenIds m ↔ ∃ id, c = .str id ∧ messages.parentOf id = some p

/-- A well-linked history: a linked map and a current id that is null or stored. -/
structure WellLinked (h : History) : Prop where
  linked : Linked h.messages
  current : ∀ c, h.currentId = some c → c ∈ h.messages

/-- Maps with the same ids, parents and children are linked together. -/
theorem Linked.of_links {ms ms' : Messages} (h : Linked ms)
    (hget : ∀ id m', ms'.get? id = some m' → ∃ m, ms.get? id = some m ∧
      m'.get "parentId" = m.get "parentId" ∧ HasChildList m' ∧ childrenIds m' = childrenIds m)
    (hmem : ∀ id, id ∈ ms' ↔ id ∈ ms) : Linked ms' := by
  have hparent : ∀ id, ms'.parentOf id = ms.parentOf id := by
    intro id
    by_cases hid : id ∈ ms'
    · obtain ⟨m', hm'⟩ := (Dict.mem_iff_exists _ _).mp hid
      obtain ⟨m, hm, hp, _⟩ := hget id m' hm'
      rw [Messages.parentOf_of_get? hm', Messages.parentOf_of_get? hm, hp,
        Messages.stored_congr hmem]
    · rw [Messages.parentOf_of_not_mem hid,
        Messages.parentOf_of_not_mem fun hin => hid ((hmem id).mpr hin)]
  constructor
  · intro id m' hm'
    obtain ⟨m, hm, hp, _⟩ := hget id m' hm'
    rw [hp]
    rcases h.resolves hm with hnull | ⟨p, hpm, hpe⟩
    · exact Or.inl hnull
    · exact Or.inr ⟨p, (hmem p).mpr hpm, hpe⟩
  · exact h.acyclic.mono fun c p hcp => hparent c ▸ hcp
  · intro id m' hm'
    obtain ⟨m, hm, _, hlist, _⟩ := hget id m' hm'
    exact hlist
  · intro p m' hm'
    obtain ⟨m, hm, _, _, hc⟩ := hget p m' hm'
    rw [hc]
    exact h.nodup hm
  · intro p m' hm' c
    obtain ⟨m, hm, _, _, hc⟩ := hget p m' hm'
    simp only [hc, hparent]
    exact h.children hm c

/-- Maps with the same ids and the same links are linked together. -/
theorem Linked.congr {ms ms' : Messages} (h : Linked ms)
    (hget : ∀ id m', ms'.get? id = some m' → ∃ m, ms.get? id = some m ∧
      m'.get "parentId" = m.get "parentId" ∧ m'.lookup "childrenIds" = m.lookup "childrenIds")
    (hmem : ∀ id, id ∈ ms' ↔ id ∈ ms) : Linked ms' := by
  refine h.of_links (fun id m' hm' => ?_) hmem
  obtain ⟨m, hm, hp, hc⟩ := hget id m' hm'
  refine ⟨m, hm, hp, ?_, childrenIds_congr hc⟩
  simpa [HasChildList, hc] using h.lists hm

/-! ## Relinking -/

/-- The ids appended to one child list by the relinking loop. -/
def appendChildren (m : Message) (ids : List String) : Message := ids.foldl appendChild m

theorem appendChildren_get_ne (m : Message) (ids : List String) {k : String}
    (h : k ≠ "childrenIds") : (appendChildren m ids).get k = m.get k := by
  induction ids generalizing m with
  | nil => rfl
  | cons id ids ih =>
      rw [appendChildren, List.foldl_cons]
      exact (ih _).trans (Obj.get_set_ne m _ h)

theorem childrenIds_appendChildren (m : Message) (ids : List String) :
    childrenIds (appendChildren m ids) = childrenIds m ++ ids.map .str := by
  induction ids generalizing m with
  | nil => simp [appendChildren]
  | cons id ids ih =>
      rw [appendChildren, List.foldl_cons]
      refine (ih _).trans ?_
      simp [appendChild]

theorem hasChildList_appendChildren {m : Message} (h : HasChildList m) (ids : List String) :
    HasChildList (appendChildren m ids) := by
  induction ids generalizing m with
  | nil => exact h
  | cons id ids ih =>
      rw [appendChildren, List.foldl_cons]
      exact ih (Or.inr ⟨_, Assoc.lookup_set_self _ _ _⟩)

/-- Linking a child changes its parent only. -/
theorem linkChild_get? (ms : Messages) (e : String × Message) (k : String) :
    (linkChild ms e).get? k =
      (ms.get? k).map fun m => if ms.stored (e.2.get "parentId") = some k then appendChild m e.1
        else m := by
  unfold linkChild
  cases hp : ms.stored (e.2.get "parentId") with
  | none => simp
  | some p =>
      simp only [Dict.get?_modify, Option.some.injEq]
      by_cases hk : k = p
      · subst hk
        simp
      · have hk' : ¬ p = k := fun h => hk h.symm
        simp [hk, hk']

theorem mem_linkChild (ms : Messages) (e : String × Message) (k : String) :
    k ∈ linkChild ms e ↔ k ∈ ms := by
  rw [Dict.mem_iff, Dict.mem_iff, linkChild_get?, Option.isSome_map]

/-- What the relinking loop does: each message gets, in order, the ids of the entries
whose parent it is. -/
theorem foldl_linkChild_get? (l : List (String × Message)) (ms : Messages) (k : String) :
    (l.foldl linkChild ms).get? k = (ms.get? k).map fun m =>
      appendChildren m ((l.filter fun e => ms.stored (e.2.get "parentId") = some k).map
        Prod.fst) := by
  induction l generalizing ms with
  | nil => simp [appendChildren]
  | cons e l ih =>
      have hstored : ∀ id, (linkChild ms e).stored id = ms.stored id :=
        Messages.stored_congr (mem_linkChild ms e)
      rw [List.foldl_cons, ih, linkChild_get?, Option.map_map]
      simp only [hstored, List.filter_cons]
      congr 1
      funext m
      by_cases hp : ms.stored (e.2.get "parentId") = some k
      · simp [hp, appendChildren]
      · simp [hp]

theorem mem_foldl_linkChild (l : List (String × Message)) (ms : Messages) (k : String) :
    k ∈ l.foldl linkChild ms ↔ k ∈ ms := by
  rw [Dict.mem_iff, Dict.mem_iff, foldl_linkChild_get?, Option.isSome_map]

/-! ## `merge_history` -/

/-- The parent links of a map all resolve and close no cycle. -/
structure Resolved (messages : Messages) : Prop where
  resolves : ∀ {id m}, messages.get? id = some m →
    m.get "parentId" = .null ∨ ∃ p ∈ messages, m.get "parentId" = .str p
  acyclic : Forest.Acyclic messages.parentOf

/-- Emptied child lists, as before the relinking loop. -/
def clearChildren (messages : Messages) : Messages :=
  messages.mapVal fun _ m => Assoc.set m "childrenIds" (.arr [])

/-- The map with its child lists rebuilt from the parent links. -/
def relink (messages : Messages) : Messages :=
  (clearChildren messages).entries.foldl linkChild (clearChildren messages)

theorem mem_relink (ms : Messages) (k : String) : k ∈ relink ms ↔ k ∈ ms := by
  rw [relink, mem_foldl_linkChild, clearChildren, Dict.mem_mapVal]

/-- Clearing empties every list of children. -/
theorem clearChildren_get? (ms : Messages) (k : String) :
    (clearChildren ms).get? k =
      (ms.get? k).map fun m => Assoc.set m "childrenIds" (.arr []) :=
  Dict.get?_mapVal ms _ k

/-- A relinked message keeps everything but its child list, which names its children
in map order. -/
theorem relink_get? {ms : Messages} {k : String} {m' : Message} (h : (relink ms).get? k = some m') :
    ∃ m ids, ms.get? k = some m ∧ m' = appendChildren (Assoc.set m "childrenIds" (.arr [])) ids ∧
      ids.Nodup ∧ ∀ id, id ∈ ids ↔ ms.parentOf id = some k := by
  rw [relink, foldl_linkChild_get?, clearChildren_get?, Option.map_map] at h
  obtain ⟨m, hm, rfl⟩ := Option.map_eq_some_iff.mp h
  refine ⟨m, _, hm, rfl, ?_, ?_⟩
  · exact Assoc.nodup_keys_filter (clearChildren ms).nodup_keys _
  · intro id
    have hstored : ∀ x, (clearChildren ms).stored x = ms.stored x :=
      Messages.stored_congr fun k => Dict.mem_mapVal ms _ k
    simp only [hstored, List.mem_map, List.mem_filter, decide_eq_true_eq, Prod.exists,
      exists_and_right, exists_eq_right, Dict.mem_entries_iff, clearChildren_get?,
      Option.map_eq_some_iff]
    constructor
    · rintro ⟨n', ⟨n, hn, rfl⟩, hp⟩
      rw [Obj.get_set_ne _ _ (by decide)] at hp
      rw [Messages.parentOf_of_get? hn, hp]
    · intro hp
      obtain ⟨n, hn⟩ := (Dict.mem_iff_exists _ _).mp (Messages.mem_of_parentOf hp).1
      refine ⟨_, ⟨n, hn, rfl⟩, ?_⟩
      rw [Obj.get_set_ne _ _ (by decide), ← Messages.parentOf_of_get? hn, hp]

/-- Linking the children keeps the links. -/
theorem relink_parentOf (ms : Messages) (id : String) :
    (relink ms).parentOf id = ms.parentOf id := by
  by_cases hid : id ∈ relink ms
  · obtain ⟨m', hm'⟩ := (Dict.mem_iff_exists _ _).mp hid
    obtain ⟨m, ids, hm, rfl, _, _⟩ := relink_get? hm'
    rw [Messages.parentOf_of_get? hm', Messages.parentOf_of_get? hm,
      appendChildren_get_ne _ _ (by decide), Obj.get_set_ne _ _ (by decide),
      Messages.stored_congr (mem_relink ms)]
  · rw [Messages.parentOf_of_not_mem hid,
      Messages.parentOf_of_not_mem fun hin => hid ((mem_relink ms id).mpr hin)]

/-- Relinking a resolved map gives a linked one. -/
theorem linked_relink {ms : Messages} (h : Resolved ms) : Linked (relink ms) := by
  constructor
  · intro id m' hm'
    obtain ⟨m, ids, hm, rfl, _, _⟩ := relink_get? hm'
    rw [appendChildren_get_ne _ _ (by decide), Obj.get_set_ne _ _ (by decide)]
    rcases h.resolves hm with hnull | ⟨p, hp, hpe⟩
    · exact Or.inl hnull
    · exact Or.inr ⟨p, (mem_relink ms p).mpr hp, hpe⟩
  · exact h.acyclic.mono fun c p hcp => relink_parentOf ms c ▸ hcp
  · intro id m' hm'
    obtain ⟨m, ids, _, rfl, _, _⟩ := relink_get? hm'
    exact hasChildList_appendChildren (Or.inr ⟨_, Assoc.lookup_set_self _ _ _⟩) ids
  · intro p m' hm'
    obtain ⟨m, ids, _, rfl, hnd, _⟩ := relink_get? hm'
    rw [childrenIds_appendChildren, childrenIds_set, List.nil_append]
    exact hnd.map fun _ _ he => Json.str.inj he
  · intro p m' hm' c
    obtain ⟨m, ids, _, rfl, _, hids⟩ := relink_get? hm'
    rw [childrenIds_appendChildren, childrenIds_set, List.nil_append, List.mem_map]
    simp only [relink_parentOf, ← hids]
    constructor
    · rintro ⟨id, hid, rfl⟩
      exact ⟨id, rfl, hid⟩
    · rintro ⟨id, rfl, hid⟩
      exact ⟨id, hid, rfl⟩

/-- The merged messages are the union, linked anew. -/
theorem mergeHistory_messages (existing incoming : Option RawHistory) :
    (mergeHistory existing incoming).messages = relink (unionMessages existing incoming) := rfl

/-- The merged current id is stored. -/
theorem mergeHistory_current (existing incoming : Option RawHistory) {c : String}
    (h : (mergeHistory existing incoming).currentId = some c) :
    c ∈ (mergeHistory existing incoming).messages := by
  simp only [mergeHistory, Option.or_eq_some_iff, Option.filter_eq_some_iff,
    decide_eq_true_eq] at h
  rcases h with h | h
  · exact h.2
  · exact h.2.2

/-- Merging histories whose union resolves gives a well-linked history. -/
theorem wellLinked_mergeHistory {existing incoming : Option RawHistory}
    (h : Resolved (unionMessages existing incoming)) :
    WellLinked (mergeHistory existing incoming) :=
  ⟨linked_relink h, fun _ hc => mergeHistory_current existing incoming hc⟩

/-! ## `upsert_message_to_history` -/

/-- Without a stored parent nothing is listed. -/
theorem addChildIdToParent_of_none {ms : Messages} {parentId : Json} (c : String)
    (h : parentId.truthy = false ∨ ms.stored parentId = none) :
    (addChildIdToParent ms parentId c).1 = ms := by
  rcases h with h | h <;> simp [addChildIdToParent, h]

/-- A child that is listed is not listed again. -/
theorem addChildIdToParent_of_listed {ms : Messages} {p c : String} {m : Message}
    (hm : ms.get? p = some m) (hc : .str c ∈ childrenIds m) :
    (addChildIdToParent ms (.str p) c).1 = ms := by
  by_cases hp : p = ""
  · exact addChildIdToParent_of_none c (Or.inl (by simp [hp]))
  · simp [addChildIdToParent, hp, Messages.stored_str (Dict.mem_of_get? hm), hm, hc]

/-- A new child is listed with its parent. -/
theorem addChildIdToParent_of_new {ms : Messages} {p c : String} {m : Message} (hp : p ≠ "")
    (hm : ms.get? p = some m) (hc : .str c ∉ childrenIds m) (k : String) :
    (addChildIdToParent ms (.str p) c).1.get? k =
      (ms.get? k).map fun n => if k = p then appendChild n c else n := by
  simp only [addChildIdToParent, Json.truthy_str, hp, ne_eq, not_false_eq_true, decide_true,
    if_true, Messages.stored_str (Dict.mem_of_get? hm), hm, Option.map_some, Option.getD_some, hc,
    if_false, Dict.get?_modify]
  by_cases hk : k = p
  · subst hk
    simp [hm, appendChild]
  · simp [hk]

/-- Listing a child where it is already listed changes nothing. -/
theorem addChildIdToParent_linked {ms : Messages} (h : Linked ms) {id : String} {m : Message}
    (hm : ms.get? id = some m) : (addChildIdToParent ms (m.get "parentId") id).1 = ms := by
  rcases h.resolves hm with hnull | ⟨p, hp, hpe⟩
  · exact addChildIdToParent_of_none id (Or.inl (by rw [hnull]; rfl))
  · obtain ⟨n, hn⟩ := (Dict.mem_iff_exists _ _).mp hp
    rw [hpe]
    refine addChildIdToParent_of_listed hn ((h.children hn _).mpr ⟨id, rfl, ?_⟩)
    rw [Messages.parentOf_of_get? hm, hpe, Messages.stored_str hp]

/-- Keeping the metadata changes no other field. -/
theorem keepMeta_lookup (stored message : Message) {k : String} (h : k ≠ "meta") :
    (keepMeta stored message).lookup k = message.lookup k := by
  unfold keepMeta
  cases hm : (message.get "meta").asObj with
  | none => rfl
  | some incoming =>
      dsimp only
      split_ifs
      · exact Assoc.lookup_set_ne _ _ h
      · exact Assoc.lookup_set_ne _ _ h

/-- Updating a stored message without touching its links. -/
theorem linked_upsert_stored {h : History} (hl : Linked h.messages) {id : String}
    {message : Message} (now : ℚ) (hid : id ∈ h.messages)
    (hparent : message.lookup "parentId" = none) (hchildren : message.lookup "childrenIds" = none) :
    Linked (upsertMessageToHistory h id message now).messages ∧
      (upsertMessageToHistory h id message now).currentId = h.currentId ∧
      ∀ k, k ∈ (upsertMessageToHistory h id message now).messages ↔ k ∈ h.messages := by
  obtain ⟨stored, hstored⟩ := (Dict.mem_iff_exists _ _).mp hid
  have hlinks : ∀ k, k ≠ "meta" → message.lookup k = none →
      (Assoc.update stored (keepMeta stored message)).lookup k = stored.lookup k := by
    intro k hk hnone
    rw [Assoc.lookup_update, keepMeta_lookup _ _ hk, hnone, Option.none_or]
  have hmem : ∀ k, k ∈ h.messages.set id (Assoc.update stored (keepMeta stored message)) ↔
      k ∈ h.messages := by
    intro k
    rw [Dict.mem_iff, Dict.mem_iff, Dict.get?_set]
    by_cases hk : k = id
    · simp [hk, hstored]
    · simp [hk]
  have hl' : Linked (h.messages.set id (Assoc.update stored (keepMeta stored message))) := by
    refine hl.congr ?_ hmem
    intro k m' hm'
    rw [Dict.get?_set] at hm'
    by_cases hk : k = id
    · rw [if_pos hk, Option.some.injEq] at hm'
      refine ⟨stored, hk ▸ hstored, ?_, ?_⟩
      · rw [← hm', Obj.get, hlinks _ (by decide) hparent, Obj.get]
      · rw [← hm', hlinks _ (by decide) hchildren]
    · rw [if_neg hk] at hm'
      exact ⟨m', hm', rfl, rfl⟩
  have hup : upsertMessageToHistory h id message now =
      ⟨h.messages.set id (Assoc.update stored (keepMeta stored message)), h.currentId⟩ := by
    have hnoop := addChildIdToParent_linked hl' (Dict.get?_set_self h.messages id _)
    simp only [upsertMessageToHistory, hstored, Dict.get?_set_self, Option.map_some,
      Option.getD_some, hnoop]
  rw [hup]
  exact ⟨hl', rfl, hmem⟩

/-- A new leaf hangs below `parent`, or beside the roots, and is listed there. -/
structure HangsLeaf (ms ms' : Messages) (id : String) (n : Message) (parent : Option String) :
    Prop where
  new : id ∉ ms
  parentIn : ∀ p, parent = some p → p ∈ ms
  stored : ms'.get? id = some n
  names : n.get "parentId" = (parent.map Json.str).getD .null
  childless : n.lookup "childrenIds" = some (.arr [])
  others : ∀ k, k ≠ id → ms'.get? k =
    (ms.get? k).map fun m => if parent = some k then appendChild m id else m

section HangsLeaf

variable {ms ms' : Messages} {id : String} {n : Message} {parent : Option String}

theorem HangsLeaf.mem_iff (hl : HangsLeaf ms ms' id n parent) (k : String) :
    k ∈ ms' ↔ k = id ∨ k ∈ ms := by
  by_cases hk : k = id
  · simp [hk, Dict.mem_of_get? hl.stored]
  · rw [Dict.mem_iff, hl.others k hk, Option.isSome_map, ← Dict.mem_iff]
    simp [hk]

/-- Another message has at most got one child more. -/
theorem HangsLeaf.other (hl : HangsLeaf ms ms' id n parent) {k : String} {m' : Message}
    (hk : k ≠ id) (hm' : ms'.get? k = some m') : ∃ m, ms.get? k = some m ∧
      m' = if parent = some k then appendChild m id else m := by
  rw [hl.others k hk] at hm'
  obtain ⟨m, hm, he⟩ := Option.map_eq_some_iff.mp hm'
  exact ⟨m, hm, he.symm⟩

/-- Appending a child leaves the parent id of a message. -/
theorem parentId_appendChild (m : Message) (c : String) (p : Prop) [Decidable p] :
    Obj.get (if p then appendChild m c else m) "parentId" = Obj.get m "parentId" := by
  split_ifs
  · exact Obj.get_set_ne m _ (by decide)
  · rfl

theorem HangsLeaf.parentOf_new (hl : HangsLeaf ms ms' id n parent) : ms'.parentOf id = parent := by
  rw [Messages.parentOf_of_get? hl.stored, hl.names]
  cases hp : parent with
  | none => rfl
  | some p => exact Messages.stored_str ((hl.mem_iff p).mpr (Or.inr (hl.parentIn p hp)))

theorem HangsLeaf.parentOf_other (hl : HangsLeaf ms ms' id n parent) (h : Linked ms) {k : String}
    (hk : k ≠ id) : ms'.parentOf k = ms.parentOf k := by
  by_cases hkm : k ∈ ms
  · obtain ⟨m, hm⟩ := (Dict.mem_iff_exists _ _).mp hkm
    have hm' := hl.others k hk
    rw [hm, Option.map_some] at hm'
    rw [Messages.parentOf_of_get? hm', Messages.parentOf_of_get? hm, parentId_appendChild]
    rcases h.resolves hm with hnull | ⟨p, hp, hpe⟩
    · rw [hnull]
      rfl
    · rw [hpe, Messages.stored_str hp, Messages.stored_str ((hl.mem_iff p).mpr (Or.inr hp))]
  · have hkm' : k ∉ ms' := by
      rw [hl.mem_iff]
      exact fun hor => hor.elim hk hkm
    rw [Messages.parentOf_of_not_mem hkm, Messages.parentOf_of_not_mem hkm']

/-- Nothing hangs from the new message. -/
theorem HangsLeaf.leaf (hl : HangsLeaf ms ms' id n parent) (h : Linked ms) (c : String) :
    ms'.parentOf c ≠ some id := by
  intro hc
  by_cases hcid : c = id
  · rw [hcid, hl.parentOf_new] at hc
    exact hl.new (hl.parentIn id hc)
  · rw [hl.parentOf_other h hcid] at hc
    exact hl.new (Messages.mem_of_parentOf hc).2

/-- No child is listed twice: the new one was in no list. -/
theorem HangsLeaf.nodup (hl : HangsLeaf ms ms' id n parent) (h : Linked ms) {k : String}
    {m' : Message} (hm' : ms'.get? k = some m') : (childrenIds m').Nodup := by
  by_cases hk : k = id
  · rw [hk, hl.stored, Option.some.injEq] at hm'
    rw [← hm', childrenIds, Obj.get_of_lookup hl.childless]
    exact List.nodup_nil
  · obtain ⟨m, hm, rfl⟩ := hl.other hk hm'
    split_ifs
    · have hfresh : Json.str id ∉ childrenIds m := by
        rw [h.children hm]
        rintro ⟨i, hi, hip⟩
        cases hi
        exact hl.new (Messages.mem_of_parentOf hip).1
      rw [appendChild, childrenIds_set]
      refine List.Nodup.append (h.nodup hm) (List.nodup_singleton _) ?_
      exact List.disjoint_singleton.mpr hfresh
    · exact h.nodup hm

/-- A message lists exactly those that hang from it. -/
theorem HangsLeaf.children (hl : HangsLeaf ms ms' id n parent) (h : Linked ms) {k : String}
    {m' : Message} (hm' : ms'.get? k = some m') (c : Json) :
    c ∈ childrenIds m' ↔ ∃ i, c = .str i ∧ ms'.parentOf i = some k := by
  by_cases hk : k = id
  · rw [hk, hl.stored, Option.some.injEq] at hm'
    rw [← hm', childrenIds, Obj.get_of_lookup hl.childless, hk]
    simp only [Json.asArr_arr, Option.getD_some, List.not_mem_nil, false_iff, not_exists, not_and]
    exact fun i _ => hl.leaf h i
  · obtain ⟨m, hm, rfl⟩ := hl.other hk hm'
    have hc := h.children hm c
    have hne : ∀ {i}, ms.parentOf i = some k → i ≠ id :=
      fun hi he => hl.new (he ▸ (Messages.mem_of_parentOf hi).1)
    split_ifs with hpk
    · rw [appendChild, childrenIds_set, List.mem_append, List.mem_singleton, hc]
      constructor
      · rintro (⟨i, rfl, hi⟩ | rfl)
        · exact ⟨i, rfl, by rw [hl.parentOf_other h (hne hi), hi]⟩
        · exact ⟨id, rfl, by rw [hl.parentOf_new, hpk]⟩
      · rintro ⟨i, rfl, hi⟩
        by_cases hi' : i = id
        · exact Or.inr (by rw [hi'])
        · exact Or.inl ⟨i, rfl, by rw [← hl.parentOf_other h hi', hi]⟩
    · rw [hc]
      constructor
      · rintro ⟨i, rfl, hi⟩
        exact ⟨i, rfl, by rw [hl.parentOf_other h (hne hi), hi]⟩
      · rintro ⟨i, rfl, hi⟩
        have hi' : i ≠ id := by
          rintro rfl
          exact hpk (hl.parentOf_new ▸ hi)
        exact ⟨i, rfl, by rw [← hl.parentOf_other h hi', hi]⟩

/-- A linked map stays linked with a new leaf. -/
theorem HangsLeaf.linked (hl : HangsLeaf ms ms' id n parent) (h : Linked ms) : Linked ms' where
  resolves := by
    intro k m' hm'
    by_cases hk : k = id
    · rw [hk, hl.stored, Option.some.injEq] at hm'
      rw [← hm', hl.names]
      cases hp : parent with
      | none => exact Or.inl rfl
      | some p => exact Or.inr ⟨p, (hl.mem_iff p).mpr (Or.inr (hl.parentIn p hp)), rfl⟩
    · obtain ⟨m, hm, rfl⟩ := hl.other hk hm'
      rw [parentId_appendChild]
      rcases h.resolves hm with hnull | ⟨p, hp, hpe⟩
      · exact Or.inl hnull
      · exact Or.inr ⟨p, (hl.mem_iff p).mpr (Or.inr hp), hpe⟩
  acyclic := h.acyclic.add_leaf (hl.leaf h) fun _ hk => hl.parentOf_other h hk
  lists := by
    intro k m' hm'
    by_cases hk : k = id
    · rw [hk, hl.stored, Option.some.injEq] at hm'
      exact Or.inr ⟨[], hm' ▸ hl.childless⟩
    · obtain ⟨m, hm, rfl⟩ := hl.other hk hm'
      split_ifs
      · exact Or.inr ⟨_, Assoc.lookup_set_self _ _ _⟩
      · exact h.lists hm
  nodup := hl.nodup h
  children := hl.children h

end HangsLeaf

/-- In a linked map no child list names an unstored id, so a new message without a
parent stays a root. -/
theorem parentOfNew_linked {ms : Messages} (h : Linked ms) {id : String} (hid : id ∉ ms)
    (message : Message) : parentOfNew ms id message = message.get "parentId" := by
  unfold parentOfNew
  split_ifs with hnull
  · have hfind : ms.entries.find? (fun e => .str id ∈ childrenIds e.2) = none := by
      rw [List.find?_eq_none]
      intro e he hc
      have hget := (Dict.mem_entries_iff ms e.1 e.2).mp he
      obtain ⟨i, hi, hp⟩ := (h.children hget _).mp (by simpa using hc)
      cases hi
      exact hid (Messages.mem_of_parentOf hp).1
    rw [hfind, hnull]
    rfl
  · rfl

/-- The link of a new message. -/
theorem newMessage_parentId (ms : Messages) (id : String) (message : Message) (now : ℚ) :
    (newMessage ms id message now).get "parentId" = parentOfNew ms id message := by
  simp [newMessage, Obj.get, Assoc.lookup_update, Assoc.lookup_cons]

/-- A new message starts without children. -/
theorem newMessage_childrenIds (ms : Messages) (id : String) {message : Message} (now : ℚ)
    (h : childrenIds message = []) :
    (newMessage ms id message now).lookup "childrenIds" = some (.arr []) := by
  simp [newMessage, Assoc.lookup_update, Assoc.lookup_cons, h]

/-- Storing a message without children and listing it below its parent. -/
theorem linked_hang {ms : Messages} (hl : Linked ms) {id : String} {n : Message} (hid : id ∉ ms)
    (hnc : n.lookup "childrenIds" = some (.arr []))
    (hparent : n.get "parentId" = .null ∨ ∃ p ∈ ms, p ≠ "" ∧ n.get "parentId" = .str p) :
    Linked (addChildIdToParent (ms.set id n) (n.get "parentId") id).1 := by
  have hself : (ms.set id n).get? id = some n := Dict.get?_set_self _ _ _
  rcases hparent with hnull | ⟨p, hp, hpne, hpe⟩
  · rw [addChildIdToParent_of_none id (Or.inl (by rw [hnull]; rfl))]
    have hleaf : HangsLeaf ms (ms.set id n) id n none := by
      refine ⟨hid, by simp, hself, by rw [hnull]; rfl, hnc, fun k hk => ?_⟩
      rw [Dict.get?_set_ne _ _ hk]
      simp
    exact hleaf.linked hl
  · obtain ⟨m, hm⟩ := (Dict.mem_iff_exists _ _).mp hp
    have hpid : p ≠ id := fun he => hid (he ▸ hp)
    have hm' : (ms.set id n).get? p = some m := (Dict.get?_set_ne _ _ hpid).trans hm
    have hfresh : Json.str id ∉ childrenIds m := by
      rw [hl.children hm]
      rintro ⟨i, hi, hip⟩
      cases hi
      exact hid (Messages.mem_of_parentOf hip).1
    have hget := addChildIdToParent_of_new hpne hm' hfresh
    have hn' : (addChildIdToParent (ms.set id n) (.str p) id).1.get? id = some n := by
      rw [hget, hself]
      simp [hpid.symm]
    rw [hpe]
    have hleaf : HangsLeaf ms (addChildIdToParent (ms.set id n) (.str p) id).1 id n (some p) := by
      refine ⟨hid, by simpa using hp, hn', by rw [hpe]; rfl, hnc, fun k hk => ?_⟩
      rw [hget, Dict.get?_set_ne _ _ hk]
      simp [eq_comm]
    exact hleaf.linked hl

/-- Inserting a message without children under a stored parent, or as a root. -/
theorem linked_upsert_leaf {h : History} (hl : Linked h.messages) {id : String} {message : Message}
    (now : ℚ) (hid : id ∉ h.messages) (hchildren : childrenIds message = [])
    (hparent : message.get "parentId" = .null ∨
      ∃ p ∈ h.messages, p ≠ "" ∧ message.get "parentId" = .str p) :
    Linked (upsertMessageToHistory h id message now).messages ∧
      (upsertMessageToHistory h id message now).currentId = some id ∧
      id ∈ (upsertMessageToHistory h id message now).messages := by
  have hnone : h.messages.get? id = none := (Dict.get?_eq_none_iff _ _).mpr hid
  let n := newMessage h.messages id message now
  have hnp : n.get "parentId" = message.get "parentId" :=
    (newMessage_parentId ..).trans (parentOfNew_linked hl hid message)
  have hup : upsertMessageToHistory h id message now =
      ⟨(addChildIdToParent (h.messages.set id n) (n.get "parentId") id).1, some id⟩ := by
    simp only [upsertMessageToHistory, hnone, Dict.get?_set_self, Option.map_some, Option.getD_some]
    rfl
  rw [hup]
  refine ⟨linked_hang hl hid (newMessage_childrenIds h.messages id now hchildren) (hnp ▸ hparent),
    rfl, ?_⟩
  unfold addChildIdToParent
  dsimp only
  split
  · exact Dict.mem_of_get? (Dict.get?_set_self _ _ _)
  · split_ifs
    · exact Dict.mem_of_get? (Dict.get?_set_self _ _ _)
    · rw [Dict.mem_iff, Dict.get?_modify, Dict.get?_set_self]
      split_ifs <;> rfl

/-- Inserting a message under a stored parent, or as a root. -/
theorem linked_upsert_new {h : History} (hl : Linked h.messages) {id : String} {message : Message}
    (now : ℚ) (hid : id ∉ h.messages) (hchildren : message.lookup "childrenIds" = none)
    (hparent : message.get "parentId" = .null ∨
      ∃ p ∈ h.messages, p ≠ "" ∧ message.get "parentId" = .str p) :
    Linked (upsertMessageToHistory h id message now).messages ∧
      (upsertMessageToHistory h id message now).currentId = some id ∧
      id ∈ (upsertMessageToHistory h id message now).messages := by
  have hnil : childrenIds message = [] := by
    rw [childrenIds, Obj.get_of_absent hchildren]
    rfl
  exact linked_upsert_leaf hl now hid hnil hparent

end OpenWebUI.Chat
