import Mathlib.Data.List.Nodup
import Mathlib.Order.WellFoundedSet
import OpenWebUI.Chat.Links

/-! # Deleting a message

`delete_message_from_history` removes a message and its direct children and lifts
the grandchildren. The edited map is computed once (`delete_get?`); from it come
the new links (`delete_parentOf`), the invariant, and the new current id.
-/

namespace OpenWebUI.Chat

open Py

/-! ## Folds over the map -/

/-- Modifying a list of messages changes those and no others. -/
theorem foldl_modify_get? {l : List String} (hl : l.Nodup) (ms : Messages) (f : Message → Message)
    (k : String) : (l.foldl (fun ms g => ms.modify g f) ms).get? k =
      if k ∈ l then (ms.get? k).map f else ms.get? k := by
  induction l generalizing ms with
  | nil => simp
  | cons g l ih =>
      rw [List.nodup_cons] at hl
      rw [List.foldl_cons, ih hl.2, Dict.get?_modify]
      by_cases hk : k = g
      · subst hk
        simp [hl.1]
      · simp [hk]

/-! ## Children and grandchildren -/

/-- The stored children of a message, as the deletion collects them. -/
def Messages.childIds (ms : Messages) (id : String) : List String :=
  (ms.childrenAt (.str id)).filterMap ms.stored

/-- The stored grandchildren of a message, as the deletion collects them. -/
def Messages.grandchildIds (ms : Messages) (id : String) : List String :=
  (ms.childIds id).flatMap ms.childIds

/-- The children of a stored message. -/
theorem Messages.childrenAt_of_get? {ms : Messages} {id : String} {m : Message}
    (h : ms.get? id = some m) : ms.childrenAt (.str id) = childrenIds m := by
  simp [childrenAt, Messages.at, h]

/-- What is not stored has no children. -/
theorem Messages.childrenAt_of_not_mem {ms : Messages} {id : String} (h : id ∉ ms) :
    ms.childrenAt (.str id) = [] := by
  rw [← Dict.get?_eq_none_iff] at h
  simp [childrenAt, Messages.at, h]

/-- The children listed are those with the link. -/
theorem Linked.mem_childrenAt {ms : Messages} (h : Linked ms) (id : String) (c : Json) :
    c ∈ ms.childrenAt (.str id) ↔ ∃ i, c = .str i ∧ ms.parentOf i = some id := by
  by_cases hid : id ∈ ms
  · obtain ⟨m, hm⟩ := (Dict.mem_iff_exists _ _).mp hid
    rw [Messages.childrenAt_of_get? hm]
    exact h.children hm c
  · rw [Messages.childrenAt_of_not_mem hid]
    constructor
    · intro hc
      cases hc
    · rintro ⟨i, _, hi⟩
      exact absurd (Messages.mem_of_parentOf hi).2 hid

/-- The ids of the children are those with the link. -/
theorem Linked.mem_childIds {ms : Messages} (h : Linked ms) (id c : String) :
    c ∈ ms.childIds id ↔ ms.parentOf c = some id := by
  simp only [Messages.childIds, List.mem_filterMap, h.mem_childrenAt, Messages.stored_eq_some]
  constructor
  · rintro ⟨_, ⟨i, rfl, hi⟩, hc, _⟩
    cases hc
    exact hi
  · intro hc
    exact ⟨.str c, ⟨c, rfl, hc⟩, rfl, (Messages.mem_of_parentOf hc).1⟩

/-- Each child is listed once. -/
theorem Linked.nodup_childIds {ms : Messages} (h : Linked ms) (id : String) :
    (ms.childIds id).Nodup := by
  have hnd : (ms.childrenAt (.str id)).Nodup := by
    by_cases hid : id ∈ ms
    · obtain ⟨m, hm⟩ := (Dict.mem_iff_exists _ _).mp hid
      rw [Messages.childrenAt_of_get? hm]
      exact h.nodup hm
    · rw [Messages.childrenAt_of_not_mem hid]
      exact List.nodup_nil
  apply hnd.filterMap
  intro a a' b hb hb'
  rw [Option.mem_def, Messages.stored_eq_some] at hb hb'
  rw [hb.1, hb'.1]

/-- The grandchildren are two links down. -/
theorem Linked.mem_grandchildIds {ms : Messages} (h : Linked ms) (id g : String) :
    g ∈ ms.grandchildIds id ↔ ∃ c, ms.parentOf c = some id ∧ ms.parentOf g = some c := by
  simp only [Messages.grandchildIds, List.mem_flatMap, h.mem_childIds]

/-- Each grandchild is listed once. -/
theorem Linked.nodup_grandchildIds {ms : Messages} (h : Linked ms) (id : String) :
    (ms.grandchildIds id).Nodup := by
  rw [Messages.grandchildIds, List.nodup_flatMap]
  refine ⟨fun c _ => h.nodup_childIds c, ?_⟩
  refine (h.nodup_childIds id).imp ?_
  intro a b hab x hxa hxb
  rw [h.mem_childIds] at hxa hxb
  exact hab (Option.some.inj (hxa.symm.trans hxb))

/-! ## The edited map -/

/-- The ids a deletion removes. -/
def Messages.deletedIds (ms : Messages) (id : String) : List String := id :: ms.childIds id

/-- What the deletion of `id` makes of the message stored under `k`. -/
def editDelete (ms : Messages) (id : String) (parentId : Json) (k : String) (m : Message) :
    Message :=
  let m := if ms.parentOf id = some k then
    Assoc.set m "childrenIds" (.arr ((childrenIds m).filter (· ≠ .str id) ++
      (ms.grandchildIds id).map .str)) else m
  if k ∈ ms.grandchildIds id then Assoc.set m "parentId" parentId else m

/-- What a deletion leaves under an id. -/
theorem delete_get? {h : History} (hl : Linked h.messages) {id : String} {m₀ : Message}
    (hm₀ : h.messages.get? id = some m₀) (k : String) :
    (deleteMessageFromHistory h id).1.messages.get? k =
      if k ∈ h.messages.deletedIds id then none
      else (h.messages.get? k).map (editDelete h.messages id (m₀.get "parentId") k) := by
  have hchild : (childrenIds m₀).filterMap h.messages.stored = h.messages.childIds id := by
    rw [Messages.childIds, Messages.childrenAt_of_get? hm₀]
  have hgrand : ((h.messages.childIds id).flatMap fun c =>
      (h.messages.childrenAt (.str c)).filterMap h.messages.stored) =
      h.messages.grandchildIds id := rfl
  have hparent := Messages.parentOf_of_get? hm₀
  simp only [deleteMessageFromHistory, hm₀, hchild, hgrand, Dict.get?_foldl_erase,
    foldl_modify_get? (hl.nodup_grandchildIds id)]
  rw [Messages.deletedIds]
  by_cases hk : k ∈ id :: h.messages.childIds id
  · rw [if_pos hk, if_pos hk]
  · rw [if_neg hk, if_neg hk]
    cases hkm : h.messages.get? k with
    | none => cases hp : h.messages.stored (m₀.get "parentId") <;> simp [Dict.get?_modify, hkm]
    | some m =>
        by_cases hg : k ∈ h.messages.grandchildIds id <;>
          cases hp : h.messages.stored (m₀.get "parentId") with
          | none => simp [editDelete, hparent, hp, hkm, hg]
          | some p =>
              by_cases hkp : k = p
              · subst hkp
                simp [editDelete, hparent, hp, Dict.get?_modify, hkm, hg]
              · have hpk : ¬ p = k := fun he => hkp he.symm
                simp [editDelete, hparent, hp, Dict.get?_modify, hkm, hkp, hpk, hg]

/-- The grandchildren move up. -/
theorem editDelete_parentId (ms : Messages) (id : String) (parentId : Json) (k : String)
    (m : Message) : (editDelete ms id parentId k m).get "parentId" =
      if k ∈ ms.grandchildIds id then parentId else m.get "parentId" := by
  unfold editDelete
  by_cases hg : k ∈ ms.grandchildIds id
  · simp [hg]
  · by_cases hp : ms.parentOf id = some k
    · simp [hg, hp, Obj.get_set]
    · simp [hg, hp]

/-- The parent takes the grandchildren over. -/
theorem editDelete_childrenIds (ms : Messages) (id : String) (parentId : Json) (k : String)
    (m : Message) : childrenIds (editDelete ms id parentId k m) =
      if ms.parentOf id = some k then
        (childrenIds m).filter (· ≠ .str id) ++ (ms.grandchildIds id).map .str
      else childrenIds m := by
  unfold editDelete
  by_cases hg : k ∈ ms.grandchildIds id
  · by_cases hp : ms.parentOf id = some k <;>
      simp [hg, hp, childrenIds_set_ne _ _ (show "parentId" ≠ "childrenIds" by decide)]
  · by_cases hp : ms.parentOf id = some k <;> simp [hg, hp]

theorem editDelete_get_ne (ms : Messages) (id : String) (parentId : Json) (k : String)
    (m : Message) {f : String} (hp : f ≠ "parentId") (hc : f ≠ "childrenIds") :
    (editDelete ms id parentId k m).lookup f = m.lookup f := by
  unfold editDelete
  by_cases h1 : ms.parentOf id = some k <;> by_cases h2 : k ∈ ms.grandchildIds id <;>
    simp [h1, h2, Assoc.lookup_set, hp, hc]

theorem hasChildList_editDelete {ms : Messages} {id : String} {parentId : Json} {k : String}
    {m : Message} (h : HasChildList m) : HasChildList (editDelete ms id parentId k m) := by
  have hset : ∀ n : Message, HasChildList n → HasChildList (Assoc.set n "parentId" parentId) := by
    intro n hn
    simpa [HasChildList, Assoc.lookup_set] using hn
  have hlist : ∀ n xs, HasChildList (Assoc.set n "childrenIds" (.arr xs)) :=
    fun n xs => Or.inr ⟨xs, Assoc.lookup_set_self _ _ _⟩
  unfold editDelete
  by_cases h1 : ms.parentOf id = some k <;> by_cases h2 : k ∈ ms.grandchildIds id
  · simpa [h1, h2] using hset _ (hlist _ _)
  · simpa [h1, h2] using hlist _ _
  · simpa [h1, h2] using hset _ h
  · simpa [h1, h2] using h

/-! ## The links after a deletion -/

section Links

variable {h : History} (hl : Linked h.messages) {id : String} {m₀ : Message}
  (hm₀ : h.messages.get? id = some m₀)
include hl

/-- The message and its children are deleted. -/
theorem Linked.mem_deletedIds (k : String) :
    k ∈ h.messages.deletedIds id ↔ k = id ∨ h.messages.parentOf k = some id := by
  rw [Messages.deletedIds, List.mem_cons, hl.mem_childIds]

/-- The parent of the deleted message is not deleted: it is above, not below. -/
theorem Linked.parent_not_deleted {p : String} (hp : h.messages.parentOf id = some p) :
    p ∉ h.messages.deletedIds id := by
  rw [hl.mem_deletedIds]
  rintro (rfl | hpid)
  · exact hl.acyclic p (.single hp)
  · exact hl.acyclic.asymm (.single hp) (.single hpid)

/-- A surviving message that is no grandchild keeps a surviving parent. -/
theorem Linked.parent_survives {k p : String} (hk : k ∉ h.messages.deletedIds id)
    (hg : k ∉ h.messages.grandchildIds id) (hp : h.messages.parentOf k = some p) :
    p ∉ h.messages.deletedIds id := by
  rw [hl.mem_deletedIds] at hk ⊢
  rw [hl.mem_grandchildIds] at hg
  rintro (rfl | hpid)
  · exact hk (Or.inr hp)
  · exact hg ⟨p, hpid, hp⟩

/-- A grandchild is not deleted. -/
theorem Linked.grandchild_survives {g : String} (hg : g ∈ h.messages.grandchildIds id) :
    g ∉ h.messages.deletedIds id := by
  rw [hl.mem_grandchildIds] at hg
  obtain ⟨c, hc, hgc⟩ := hg
  rw [hl.mem_deletedIds]
  rintro (rfl | hgid)
  · exact hl.acyclic.asymm (.single hgc) (.single hc)
  · rw [hgc, Option.some.injEq] at hgid
    exact hl.acyclic c (.single (hgid ▸ hc))

include hm₀

/-- What is left after a deletion. -/
theorem mem_delete (k : String) :
    k ∈ (deleteMessageFromHistory h id).1.messages ↔
      k ∈ h.messages ∧ k ∉ h.messages.deletedIds id := by
  rw [Dict.mem_iff, delete_get? hl hm₀, Dict.mem_iff]
  by_cases hk : k ∈ h.messages.deletedIds id <;> simp [hk]

/-- The edited message of a surviving id. -/
theorem delete_survivor {k : String} {m' : Message}
    (hm' : (deleteMessageFromHistory h id).1.messages.get? k = some m') :
    k ∉ h.messages.deletedIds id ∧ ∃ m, h.messages.get? k = some m ∧
      m' = editDelete h.messages id (m₀.get "parentId") k m := by
  rw [delete_get? hl hm₀] at hm'
  by_cases hk : k ∈ h.messages.deletedIds id
  · simp [hk] at hm'
  · rw [if_neg hk] at hm'
    obtain ⟨m, hm, he⟩ := Option.map_eq_some_iff.mp hm'
    exact ⟨hk, m, hm, he.symm⟩

/-- Grandchildren move up to the deleted message's parent, the others stay. -/
theorem delete_parentOf {k : String} (hk : k ∈ (deleteMessageFromHistory h id).1.messages) :
    (deleteMessageFromHistory h id).1.messages.parentOf k =
      if k ∈ h.messages.grandchildIds id then h.messages.parentOf id
        else h.messages.parentOf k := by
  obtain ⟨m', hm'⟩ := (Dict.mem_iff_exists _ _).mp hk
  obtain ⟨hkd, m, hm, rfl⟩ := delete_survivor hl hm₀ hm'
  -- a stored parent link is kept because its target survives
  have hkeep : ∀ x, (∀ p, h.messages.stored x = some p → p ∉ h.messages.deletedIds id) →
      (deleteMessageFromHistory h id).1.messages.stored x = h.messages.stored x := by
    intro x hx
    apply Option.ext
    intro p
    constructor
    · intro hp
      rw [Messages.stored_eq_some, mem_delete hl hm₀] at hp
      exact Messages.stored_eq_some.mpr ⟨hp.1, hp.2.1⟩
    · intro hp
      have hpd := hx p hp
      rw [Messages.stored_eq_some] at hp ⊢
      exact ⟨hp.1, (mem_delete hl hm₀ p).mpr ⟨hp.2, hpd⟩⟩
  rw [Messages.parentOf_of_get? hm', editDelete_parentId, Messages.parentOf_of_get? hm₀,
    Messages.parentOf_of_get? hm]
  by_cases hg : k ∈ h.messages.grandchildIds id
  · rw [if_pos hg, if_pos hg]
    refine hkeep _ fun p hp => hl.parent_not_deleted ?_
    rw [Messages.parentOf_of_get? hm₀, hp]
  · rw [if_neg hg, if_neg hg]
    refine hkeep _ fun p hp => hl.parent_survives hkd hg ?_
    rw [Messages.parentOf_of_get? hm, hp]

/-- A deletion only shortcuts ancestor chains. -/
theorem delete_acyclic : Forest.Acyclic (deleteMessageFromHistory h id).1.messages.parentOf := by
  refine hl.acyclic.of_shortcut ?_
  intro c p hcp
  rw [delete_parentOf hl hm₀ (Messages.mem_of_parentOf hcp).1] at hcp
  by_cases hg : c ∈ h.messages.grandchildIds id
  · rw [if_pos hg] at hcp
    obtain ⟨d, hd, hcd⟩ := (hl.mem_grandchildIds id c).mp hg
    have hup : Relation.TransGen (Forest.Up h.messages.parentOf) c d := .single hcd
    exact (hup.tail hd).tail hcp
  · rw [if_neg hg] at hcp
    exact .single hcp

/-- Deleting any stored message keeps the map linked. -/
theorem linked_delete : Linked (deleteMessageFromHistory h id).1.messages := by
  have hmem := mem_delete hl hm₀
  constructor
  · intro k m' hm'
    obtain ⟨hkd, m, hm, rfl⟩ := delete_survivor hl hm₀ hm'
    have hresolve : ∀ (x : Json), (x = .null ∨ ∃ p ∈ h.messages, x = .str p) →
        (∀ p, h.messages.stored x = some p → p ∉ h.messages.deletedIds id) →
        x = .null ∨ ∃ p ∈ (deleteMessageFromHistory h id).1.messages, x = .str p := by
      rintro x (hnull | ⟨p, hp, rfl⟩) hsurvive
      · exact Or.inl hnull
      · exact Or.inr ⟨p, (hmem p).mpr ⟨hp, hsurvive p (Messages.stored_str hp)⟩, rfl⟩
    rw [editDelete_parentId]
    by_cases hg : k ∈ h.messages.grandchildIds id
    · rw [if_pos hg]
      refine hresolve _ (hl.resolves hm₀) fun p hp => hl.parent_not_deleted ?_
      rw [Messages.parentOf_of_get? hm₀, hp]
    · rw [if_neg hg]
      refine hresolve _ (hl.resolves hm) fun p hp => hl.parent_survives hkd hg ?_
      rw [Messages.parentOf_of_get? hm, hp]
  · exact delete_acyclic hl hm₀
  · intro k m' hm'
    obtain ⟨_, m, hm, rfl⟩ := delete_survivor hl hm₀ hm'
    exact hasChildList_editDelete (hl.lists hm)
  · intro k m' hm'
    obtain ⟨hkd, m, hm, rfl⟩ := delete_survivor hl hm₀ hm'
    rw [editDelete_childrenIds]
    split_ifs with hp
    · refine List.nodup_append.mpr ⟨(hl.nodup hm).filter _,
        (hl.nodup_grandchildIds id).map fun _ _ he => Json.str.inj he, ?_⟩
      rintro a ha b hb rfl
      -- a child of the parent is no grandchild, whose parent is deleted
      obtain ⟨g, hg, rfl⟩ := List.mem_map.mp hb
      obtain ⟨i, hi, hik⟩ := (hl.children hm _).mp (List.mem_of_mem_filter ha)
      cases hi
      obtain ⟨c, hc, hgc⟩ := (hl.mem_grandchildIds id g).mp hg
      rw [hik, Option.some.injEq] at hgc
      exact hkd ((hl.mem_deletedIds k).mpr (Or.inr (hgc ▸ hc)))
    · exact hl.nodup hm
  · intro k m' hm' c
    have hkin := Dict.mem_of_get? hm'
    obtain ⟨hkd, m, hm, rfl⟩ := delete_survivor hl hm₀ hm'
    have hnotChild : h.messages.parentOf k ≠ some id := fun he =>
      hkd ((hl.mem_deletedIds k).mpr (Or.inr he))
    have hnotId : k ≠ id := fun he => hkd ((hl.mem_deletedIds k).mpr (Or.inl he))
    -- the parent of a grandchild is deleted, hence not `k`
    have hgrand : ∀ {g}, g ∈ h.messages.grandchildIds id → h.messages.parentOf g ≠ some k := by
      intro g hg hgk
      obtain ⟨d, hd, hgd⟩ := (hl.mem_grandchildIds id g).mp hg
      rw [hgk, Option.some.injEq] at hgd
      exact hnotChild (hgd ▸ hd)
    have hnew : ∀ i, (deleteMessageFromHistory h id).1.messages.parentOf i = some k ↔
        (h.messages.parentOf i = some k ∧ i ≠ id) ∨
          (i ∈ h.messages.grandchildIds id ∧ h.messages.parentOf id = some k) := by
      intro i
      constructor
      · intro hi
        have hiin := (Messages.mem_of_parentOf hi).1
        rw [delete_parentOf hl hm₀ hiin] at hi
        by_cases hg : i ∈ h.messages.grandchildIds id
        · rw [if_pos hg] at hi
          exact Or.inr ⟨hg, hi⟩
        · rw [if_neg hg] at hi
          refine Or.inl ⟨hi, fun he => ((hmem i).mp hiin).2 ?_⟩
          exact (hl.mem_deletedIds i).mpr (Or.inl he)
      · rintro (⟨hi, hne⟩ | ⟨hg, hi⟩)
        · have hg : i ∉ h.messages.grandchildIds id := fun hg => hgrand hg hi
          have hiin : i ∈ (deleteMessageFromHistory h id).1.messages := by
            refine (hmem i).mpr ⟨(Messages.mem_of_parentOf hi).1, ?_⟩
            rw [hl.mem_deletedIds]
            rintro (he | he)
            · exact hne he
            · rw [hi, Option.some.injEq] at he
              exact hnotId he
          rw [delete_parentOf hl hm₀ hiin, if_neg hg, hi]
        · obtain ⟨d, _, hid⟩ := (hl.mem_grandchildIds id i).mp hg
          have hiin : i ∈ (deleteMessageFromHistory h id).1.messages :=
            (hmem i).mpr ⟨(Messages.mem_of_parentOf hid).1, hl.grandchild_survives hg⟩
          rw [delete_parentOf hl hm₀ hiin, if_pos hg, hi]
    simp only [hnew, editDelete_childrenIds]
    split_ifs with hp
    · simp only [List.mem_append, List.mem_filter, hl.children hm, List.mem_map, hp, and_true,
        decide_eq_true_eq, ne_eq]
      constructor
      · rintro (⟨⟨i, rfl, hi⟩, hne⟩ | ⟨g, hg, rfl⟩)
        · exact ⟨i, rfl, Or.inl ⟨hi, fun he => hne (by rw [he])⟩⟩
        · exact ⟨g, rfl, Or.inr hg⟩
      · rintro ⟨i, rfl, ⟨hi, hne⟩ | hg⟩
        · exact Or.inl ⟨⟨i, rfl, hi⟩, fun he => hne (Json.str.inj he)⟩
        · exact Or.inr ⟨i, hg, rfl⟩
    · simp only [hl.children hm, hp, and_false, or_false]
      constructor
      · rintro ⟨i, rfl, hi⟩
        exact ⟨i, rfl, hi, fun he => hp (he ▸ hi)⟩
      · rintro ⟨i, rfl, hi, _⟩
        exact ⟨i, rfl, hi⟩

end Links

/-! ## The new current id -/

/-- A child of a message is among all children. -/
theorem Messages.mem_allChildren {ms : Messages} {id : String} {m : Message}
    (hm : ms.get? id = some m) {c : Json} (hc : c ∈ childrenIds m) : c ∈ ms.allChildren :=
  List.mem_flatMap.mpr ⟨(id, m), (Dict.mem_entries_iff ms id m).mpr hm, hc⟩

/-- A leaf of the history. -/
def Messages.IsLeaf (ms : Messages) (id : String) : Prop := id ∈ ms ∧ ms.childrenAt (.str id) = []

/-- From a stored message the descent ends in a leaf. The visited ids are ancestors of
the current one, so acyclicity keeps the loop from stopping early, and they are
different members of `ids`, so the fuel lasts. -/
theorem descend_leaf {ms : Messages} (h : Linked ms) (ids : List Json)
    (huniv : ∀ id ∈ ms, ∀ c ∈ ms.childrenAt (.str id), c ∈ ids) (fuel : Nat) :
    ∀ (x : String) (visited : List Json), x ∈ ms → visited.Nodup → (∀ v ∈ visited, v ∈ ids) →
      (∀ v ∈ visited, ∃ y, v = .str y ∧
        (y = x ∨ Relation.TransGen (Forest.Up ms.parentOf) x y)) →
      ids.length + 1 ≤ fuel + visited.length →
      ∃ z, descend ms fuel (.str x) (ms.childrenAt (.str x)) visited = .str z ∧ ms.IsLeaf z := by
  induction fuel with
  -- more children visited than there are
  | zero =>
      intro x visited _ hnd hsub _ hfuel
      have hle := (List.subperm_of_subset hnd hsub).length_le
      omega
  | succ fuel ih =>
      intro x visited hx hnd hsub hanc hfuel
      unfold descend
      cases hlast : (ms.childrenAt (.str x)).getLast? with
      | none =>
          exact ⟨x, rfl, hx, List.getLast?_eq_none_iff.mp hlast⟩
      | some last =>
          have hin := List.mem_of_getLast? hlast
          obtain ⟨c, rfl, hc⟩ := (h.mem_childrenAt x last).mp hin
          have hup : Forest.Up ms.parentOf c x := hc
          -- a child seen before would be above itself
          have hfresh : Json.str c ∉ visited := by
            intro hv
            obtain ⟨y, hy, hyx⟩ := hanc _ hv
            cases hy
            rcases hyx with rfl | hyx
            · exact h.acyclic _ (.single hup)
            · exact h.acyclic _ (hyx.head hup)
          dsimp only
          rw [if_neg hfresh]
          refine ih c (.str c :: visited) (Messages.mem_of_parentOf hc).1
            (List.nodup_cons.mpr ⟨hfresh, hnd⟩) ?_ ?_ ?_
          · intro v hv
            rcases List.mem_cons.mp hv with rfl | hv
            · exact huniv x hx _ hin
            · exact hsub v hv
          · intro v hv
            rcases List.mem_cons.mp hv with rfl | hv
            · exact ⟨c, rfl, Or.inl rfl⟩
            · obtain ⟨y, hy, hyx⟩ := hanc v hv
              refine ⟨y, hy, Or.inr ?_⟩
              rcases hyx with rfl | hyx
              · exact .single hup
              · exact hyx.head hup
          · rw [List.length_cons]
            omega

/-- A linked map that is not empty has a root. -/
theorem Linked.exists_root {ms : Messages} (h : Linked ms) {id : String} (hid : id ∈ ms) :
    ∃ r m, ms.get? r = some m ∧ m.get "parentId" = .null := by
  obtain ⟨r, hr, hroot⟩ := h.acyclic.exists_root {k | k ∈ ms}
    (List.finite_toSet ms.keys) ⟨id, hid⟩ fun c p hcp => (Messages.mem_of_parentOf hcp).2
  obtain ⟨m, hm⟩ := (Dict.mem_iff_exists _ _).mp hr
  refine ⟨r, m, hm, ?_⟩
  rcases h.resolves hm with hnull | ⟨p, hp, hpe⟩
  · exact hnull
  · rw [Messages.parentOf_of_get? hm, hpe, Messages.stored_str hp] at hroot
    cases hroot

/-- The current id after a deletion is a leaf, or null when nothing is left. -/
theorem currentAfterDelete_spec {ms : Messages} (h : Linked ms) {parentId : Json}
    (hparent : parentId = .null ∨ ∃ p ∈ ms, parentId = .str p) :
    (ms.keys = [] ∧ currentAfterDelete ms parentId = none) ∨
      ∃ z, currentAfterDelete ms parentId = some z ∧ ms.IsLeaf z := by
  have huniv : ∀ id ∈ ms, ∀ c ∈ ms.childrenAt (.str id), c ∈ ms.allChildren := by
    intro id hid c hc
    obtain ⟨m, hm⟩ := (Dict.mem_iff_exists _ _).mp hid
    rw [Messages.childrenAt_of_get? hm] at hc
    exact Messages.mem_allChildren hm hc
  rcases hparent with rfl | ⟨p, hp, rfl⟩
  -- a deleted root: the walk starts at the last root left
  · let roots := (ms.entries.filter fun e => e.2.get "parentId" = .null).map fun e => Json.str e.1
    have hdef : currentAfterDelete ms .null =
        ms.stored (descend ms (roots.length + ms.allChildren.length + 1) .null roots []) := rfl
    cases hlast : roots.getLast? with
    -- without a root there is no message
    | none =>
        refine Or.inl ⟨?_, ?_⟩
        · by_contra hne
          obtain ⟨id, hid⟩ := List.exists_mem_of_ne_nil _ hne
          obtain ⟨r, m, hm, hnull⟩ := h.exists_root (show id ∈ ms from hid)
          have hin : Json.str r ∈ roots := List.mem_map.mpr
            ⟨(r, m), List.mem_filter.mpr
              ⟨(Dict.mem_entries_iff ms r m).mpr hm, by simpa using hnull⟩,
              rfl⟩
          rw [List.getLast?_eq_none_iff.mp hlast] at hin
          cases hin
        · rw [hdef, List.getLast?_eq_none_iff.mp hlast]
          rfl
    | some last =>
        have hin := List.mem_of_getLast? hlast
        obtain ⟨e, he, rfl⟩ := List.mem_map.mp hin
        have hmem := Dict.mem_of_get?
          ((Dict.mem_entries_iff ms e.1 e.2).mp (List.mem_of_mem_filter he))
        obtain ⟨z, hz, hleaf⟩ := descend_leaf h (roots ++ ms.allChildren)
          (fun id hid c hc => List.mem_append_right _ (huniv id hid c hc))
          (roots.length + ms.allChildren.length) e.1 [.str e.1] hmem (List.nodup_singleton _)
          (by simpa using Or.inl hin) (by simp) (by simp)
        refine Or.inr ⟨z, ?_, hleaf⟩
        rw [hdef, descend, hlast]
        simp only [List.not_mem_nil, if_false]
        rw [hz, Messages.stored_str hleaf.1]
  -- any other message: the walk starts at its parent
  · obtain ⟨z, hz, hleaf⟩ := descend_leaf h ms.allChildren huniv
      ((ms.childrenAt (.str p)).length + ms.allChildren.length + 1) p [] hp List.nodup_nil
      (by simp) (by simp) (by simp)
    refine Or.inr ⟨z, ?_, hleaf⟩
    have hne : ¬ Json.str p = .null := by simp
    simp only [currentAfterDelete, if_neg hne]
    rw [hz, Messages.stored_str hleaf.1]

end OpenWebUI.Chat
