import OpenWebUI.Chat.Clean
import OpenWebUI.Chat.Update

/-! # Merging histories

`merge_history` on whole history dictionaries, with the keys it copies and the ids it
cannot hash. Merging twice is merging once. The section on `update_chat_by_id` says which
copy of each message survives the merge and the protection of messages.
-/

namespace OpenWebUI.Chat

open Py

/-- A value Python cannot look up in a dictionary. -/
def unhashable : Json → Bool
  | .arr _ => true
  | .obj _ => true
  | _ => false

/-- A history dictionary: its messages, its `currentId`, `None` when it has none, and the
other keys. -/
structure HistoryDict where
  messages : Dict String Json
  currentId : Json
  rest : Dict String Json

/-- The dictionary `{}`. -/
def HistoryDict.empty : HistoryDict := ⟨∅, .null, ∅⟩

/-- A history as the merge of messages reads it. -/
def HistoryDict.raw (h : HistoryDict) : RawHistory := ⟨h.messages, h.currentId.asStr⟩

/-- Some message has a parent id that cannot be hashed. -/
def unhashableLink (messages : Messages) : Bool :=
  messages.entries.any fun e => unhashable (e.2.get "parentId")

/-- The ids whose parent is the given one, in map order. -/
def childList (ms : Messages) (k : String) : List String :=
  (ms.entries.filter fun e => ms.stored (e.2.get "parentId") = some k).map Prod.fst

/-- The children depend on the links. -/
theorem childList_mapVal (ms : Messages) (f : String → Message → Message) (k : String)
    (hf : ∀ id m, ms.get? id = some m → (f id m).get "parentId" = m.get "parentId") :
    childList (ms.mapVal f) k = childList ms k := by
  have hstored : ∀ x, Messages.stored (ms.mapVal f) x = ms.stored x :=
    Messages.stored_congr fun k => Dict.mem_mapVal ms _ k
  have hentries : (ms.mapVal f).entries = ms.entries.map fun e => (e.1, f e.1 e.2) := rfl
  unfold childList
  rw [hentries, List.filter_map, List.map_map]
  have hparent : ms.entries.filter ((fun e : String × Message =>
      decide (Messages.stored (ms.mapVal f) (e.2.get "parentId") = some k)) ∘ fun e =>
        (e.1, f e.1 e.2)) =
      ms.entries.filter fun e => decide (ms.stored (e.2.get "parentId") = some k) := by
    refine List.filter_congr fun e he => ?_
    simp only [Function.comp_apply, hstored]
    rw [hf e.1 e.2 ((Dict.mem_entries_iff _ _ _).mp he)]
  rw [hparent]
  rfl

/-- A message with the given child list. -/
def withChildren (ms : Messages) (k : String) (m : Message) : Message :=
  appendChildren (Assoc.set m "childrenIds" (.arr [])) (childList ms k)

theorem keys_foldl_linkChild (l : List (String × Message)) (ms : Messages) :
    (l.foldl linkChild ms).keys = ms.keys := by
  induction l generalizing ms with
  | nil => rfl
  | cons e l ih =>
      rw [List.foldl_cons, ih]
      unfold linkChild
      split
      · rfl
      · exact Dict.keys_modify _ _ _

/-- Relinking rewrites each child list in place. -/
theorem relink_eq (ms : Messages) : relink ms = ms.mapVal (withChildren ms) := by
  refine Dict.ext_get? ?_ fun k => ?_
  · rw [relink, keys_foldl_linkChild, clearChildren, Dict.keys_mapVal, Dict.keys_mapVal]
  · rw [relink, foldl_linkChild_get?, clearChildren_get?, Option.map_map, Dict.get?_mapVal]
    have hlist : ((clearChildren ms).entries.filter fun e =>
        (clearChildren ms).stored (e.2.get "parentId") = some k).map Prod.fst = childList ms k :=
      childList_mapVal ms _ k fun _ m _ => Obj.get_set_ne m _ (by decide)
    rw [hlist]
    rfl

theorem withChildren_get_ne (ms : Messages) (k : String) (m : Message) {f : String}
    (h : f ≠ "childrenIds") : (withChildren ms k m).get f = m.get f := by
  rw [withChildren, appendChildren_get_ne _ _ h, Obj.get_set_ne _ _ h]

/-- Linking keeps the children. -/
theorem childList_relink (ms : Messages) (k : String) :
    childList (relink ms) k = childList ms k := by
  rw [relink_eq]
  exact childList_mapVal ms _ k fun id m _ => withChildren_get_ne ms id m (by decide)

/-- A list that is set replaces what was appended. -/
theorem set_appendChildren (m : Message) (ids : List String) (v w : Json) :
    Assoc.set (appendChildren (Assoc.set m "childrenIds" v) ids) "childrenIds" w =
      Assoc.set m "childrenIds" w := by
  induction ids generalizing v with
  | nil => exact Assoc.set_set _ _ _ _
  | cons id ids ih =>
      rw [appendChildren, List.foldl_cons]
      have happend :
        ∃ x, appendChild (Assoc.set m "childrenIds" v) id = Assoc.set m "childrenIds" x :=
        ⟨_, Assoc.set_set _ _ _ _⟩
      obtain ⟨x, hx⟩ := happend
      rw [hx]
      exact ih x

/-- Relinking twice is relinking once. -/
theorem relink_relink (ms : Messages) : relink (relink ms) = relink ms := by
  refine Dict.ext_get? ?_ fun k => ?_
  · rw [relink_eq (relink ms), Dict.keys_mapVal]
  · rw [relink_eq (relink ms), Dict.get?_mapVal]
    cases hk : (relink ms).get? k with
    | none => rfl
    | some m' =>
        have hm' := hk
        rw [relink_eq, Dict.get?_mapVal] at hm'
        obtain ⟨m, -, rfl⟩ := Option.map_eq_some_iff.mp hm'
        rw [Option.map_some, withChildren, childList_relink]
        simp only [withChildren, set_appendChildren]

/-- The union with nothing is the stored history. -/
theorem unionMessages_raw (ms : Messages) (c : Option String) :
    unionMessages (some ⟨ms.mapVal fun _ m => .obj m, c⟩) none = ms := by
  unfold unionMessages
  refine Dict.ext_get? ?_ fun k => ?_
  · show Assoc.keys ((Assoc.update _ []).filterMap _) = Assoc.keys ms.entries
    simp [Assoc.update, Assoc.keys, Dict.mapVal, List.filterMap_map, Function.comp_def]
  · rw [Dict.get?_filterMapVal, Dict.get?_update]
    cases hk : ms.get? k <;> simp [hk]

/-- A stored message that an update may not replace: another user's, or an assistant
message that is not done in the stored or in the incoming copy. -/
def Guarded (userId : String) (m : Message) (incoming : Option Message) : Prop :=
  (m.get "user_id").or (.str userId) ≠ .str userId ∨
    m.get "role" = .str "assistant" ∧
      (m.get "done" = .bool false ∨ ∃ c, incoming = some c ∧ c.get "done" = .bool false)

instance (userId : String) (m : Message) (incoming : Option Message) :
    Decidable (Guarded userId m incoming) :=
  decidable_of_iff ((m.get "user_id").or (.str userId) ≠ .str userId ∨
      m.get "role" = .str "assistant" ∧
        (m.get "done" = .bool false ∨ incoming.map (fun c => c.get "done") = some (.bool false)))
          (by
    unfold Guarded
    simp [Option.map_eq_some_iff])

/-- The incoming copy of a message, when it is a dictionary. -/
def RawHistory.copy (h : RawHistory) (id : String) : Option Message :=
    (h.messages.get? id).bind Json.asObj

/-- The copy of a message that an update keeps. -/
def survivor (item : ChatItem) (incoming : RawHistory) (id : String) : Option Message :=
  match item.messages.get? id with
  | none => incoming.copy id
  | some m => if Guarded item.userId m (incoming.copy id) then some m
      else (incoming.copy id).or (some m)

theorem isProtected_congr {userId mid : String} {ms ms' : Messages} {m : Message}
    (h : ms.get? mid = ms'.get? mid) :
    isProtected userId ms mid m = isProtected userId ms' mid m := by
  unfold isProtected
  rw [h]

/-- The loop decides every stored message by the merged map as it was. -/
theorem protect_foldlM {userId : String} (l : List (String × Message))
    (hnodup : (Assoc.keys l).Nodup) {merged ms : Messages}
    (h : l.foldlM (fun ms e => (isProtected userId ms e.1 e.2).map fun keep => if keep then
      ms.set e.1 e.2 else ms) merged = some ms)
    (id : String) :
    match l.lookup id with
    | none => ms.get? id = merged.get? id
    | some m => ∃ keep, isProtected userId merged id m = some keep ∧
        ms.get? id = if keep then some m else merged.get? id := by
  induction l generalizing merged with
  | nil =>
      rw [List.foldlM_nil] at h
      cases h
      rfl
  | cons e l ih =>
      rw [List.foldlM_cons] at h
      obtain ⟨next, hnext, h⟩ := Option.bind_eq_some_iff.mp h
      obtain ⟨keep, hkeep, rfl⟩ := Option.map_eq_some_iff.mp hnext
      have hnodup' := List.nodup_cons.mp hnodup
      have hother : ∀ k, k ≠ e.1 →
        (if keep then merged.set e.1 e.2 else merged).get? k = merged.get? k := by
        intro k hk
        split_ifs
        · exact Dict.get?_set_ne _ _ hk
        · rfl
      have hrest := ih hnodup'.2 h
      rw [Assoc.lookup_cons]
      -- the keys are apart, so what is done for the first entry is left by the others
      by_cases hid : id = e.1
      · have hl : l.lookup id = none := (Assoc.lookup_eq_none_iff_keys _ _).mpr (hid ▸ hnodup'.1)
        rw [hl] at hrest
        rw [if_pos hid]
        refine ⟨keep, hid ▸ hkeep, hrest.trans ?_⟩
        rw [hid]
        split_ifs
        · exact Dict.get?_set_self _ _ _
        · rfl
      -- what is decided for another entry does not look at the first
      · rw [if_neg hid]
        cases hl : l.lookup id with
        | none =>
            rw [hl] at hrest
            exact hrest.trans (hother id hid)
        | some m =>
            rw [hl] at hrest
            obtain ⟨keep', hkeep', hget⟩ := hrest
            rw [hother id hid] at hget
            exact ⟨keep', (isProtected_congr (hother id hid)).symm.trans hkeep', hget⟩

/-- In the union the incoming copy wins. -/
theorem unionMessages_get? (item : ChatItem) (incoming : RawHistory) (id : String) :
    (unionMessages item.storedHistory (some incoming)).get? id =
      ((incoming.messages.get? id).or ((item.messages.get? id).map Json.obj)).bind Json.asObj := by
  have hstored : ((item.storedHistory.map RawHistory.messages).getD ∅).get? id =
      (item.messages.get? id).map Json.obj := by
    unfold ChatItem.storedHistory ChatItem.messages
    cases item.chat.history with
    | none => rfl
    | some h => exact Dict.get?_mapVal h.messages (fun _ m => Json.obj m) id
  rw [unionMessages, Dict.get?_filterMapVal, Dict.get?_update, hstored]
  rfl

/-- Every incoming message is a dictionary. -/
def RawHistory.Dicts (h : RawHistory) : Prop :=
  ∀ {id : String} {v : Json}, h.messages.get? id = some v → ∃ m, v = .obj m

/-- In the union the incoming copy wins, where all copies are messages. -/
theorem unionMessages_of_dicts {incoming : RawHistory} (hdicts : incoming.Dicts) (item : ChatItem)
    (id : String) : (unionMessages item.storedHistory (some incoming)).get? id =
      (incoming.copy id).or (item.messages.get? id) := by
  rw [unionMessages_get?, RawHistory.copy]
  cases hin : incoming.messages.get? id with
  | none => cases item.messages.get? id <;> rfl
  | some v =>
      obtain ⟨m, rfl⟩ := hdicts hin
      rfl

/-- When the check keeps the stored copy. -/
theorem isProtected_iff {item : ChatItem} {incoming : RawHistory} (hdicts : incoming.Dicts)
    {id : String} {m : Message} {keep : Bool} (hm : item.messages.get? id = some m)
    (h : isProtected item.userId (relink (unionMessages item.storedHistory (some incoming))) id m =
      some keep) : keep = true ↔ Guarded item.userId m (incoming.copy id) := by
  unfold isProtected at h
  unfold Guarded
  split_ifs at h with hother hrole hdone
  · cases h
    simp [hother]
  · cases h
    simp [hrole, hdone]
  · -- the merged copy is the incoming one, or else the stored one
    rw [relink_eq, Dict.get?_mapVal, unionMessages_of_dicts hdicts, hm] at h
    obtain ⟨c', hc', rfl⟩ := Option.map_eq_some_iff.mp h
    obtain ⟨c, hc, rfl⟩ := Option.map_eq_some_iff.mp hc'
    rw [withChildren_get_ne _ _ _ (by decide), decide_eq_true_eq]
    simp only [hother, hrole, hdone, false_or, true_and]
    cases hcopy : incoming.copy id with
    | none =>
        rw [hcopy, Option.none_or, Option.some.injEq] at hc
        simp [← hc, hdone]
    | some d =>
        rw [hcopy, Option.some_or, Option.some.injEq] at hc
        simp [hc]
  · cases h
    simp [hother, hrole]

/-- The merged history: the surviving copies, relinked. -/
theorem mergedHistory_spec {item : ChatItem} {incoming : RawHistory} (hdicts : incoming.Dicts)
    {h : History} (hmerged : mergedHistory item incoming = some h) :
    ∃ ms : Messages, h.messages = relink ms ∧ ∀ id, (relink ms).get? id =
      (survivor item incoming id).map (withChildren ms id) := by
  obtain ⟨ms, hms, rfl⟩ := Option.map_eq_some_iff.mp hmerged
  refine ⟨ms, ?_, fun id => ?_⟩
  · rw [mergeHistory_messages]
    exact congrArg relink (unionMessages_raw ms _)
  · have hcopy : ∀ m : Message, withChildren ms id
        (withChildren (unionMessages item.storedHistory (some incoming)) id m) =
          withChildren ms id m := by
      intro m
      simp only [withChildren, set_appendChildren]
    have hspec := protect_foldlM _ item.messages.nodup_keys hms id
    rw [mergeHistory_messages, relink_eq (unionMessages _ _), Dict.get?_mapVal,
      unionMessages_of_dicts hdicts] at hspec
    rw [relink_eq, Dict.get?_mapVal]
    change match item.messages.get? id with | none => _ | some m => _ at hspec
    unfold survivor
    cases hm : item.messages.get? id with
    | none =>
        rw [hm] at hspec
        dsimp only at hspec ⊢
        rw [hspec, Option.or_none, Option.map_map]
        refine congrArg (fun f => Option.map f _) (funext fun m => ?_)
        exact hcopy m
    | some m =>
        rw [hm] at hspec
        obtain ⟨keep, hkeep, hget⟩ := hspec
        have hguard := isProtected_iff hdicts hm (by rwa [relink_eq])
        dsimp only
        rw [hget]
        split_ifs with hk hg hg
        · rfl
        · exact absurd (hguard.mp hk) hg
        · exact absurd (hguard.mpr hg) hk
        · rw [Option.map_map]
          refine congrArg (fun f => Option.map f _) (funext fun m => ?_)
          exact hcopy m

end OpenWebUI.Chat
