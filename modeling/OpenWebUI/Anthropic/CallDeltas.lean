import Mathlib.Data.List.TakeWhile
import OpenWebUI.Anthropic.Reassembly

/-! # The deltas of a call

Which tool call each delta of a stream belongs to: that of its id, or else the one last seen
under its index. A call has a part before its name is known and a part from there on.
-/

namespace OpenWebUI.Anthropic

open Py Program

/-! ## Deltas -/

/-- The delta of a tool call, as the loop reads it. -/
structure ToolDelta where
  index : Json
  id : Json
  name : Json
  arguments : String

def ToolDelta.of (toolCall : Json) : ToolDelta :=
  let call := toolCall.asObj.getD []
  let function := (objOrEmpty (Obj.get call "function")).getD []
  { index := (Obj.getD call "index" (.num 0)).canon
    id := Obj.getD call "id" (.str "")
    name := Obj.getD function "name" (.str "")
    arguments := (Obj.getD function "arguments" (.str "")).asStr.getD "" }

/-- What the loop reads of a tool call has the types it expects. -/
def ReadableCall (toolCall : Json) : Prop :=
  ∃ call function, toolCall.asObj = some call ∧
    objOrEmpty (Obj.get call "function") = some function ∧
    (keyOf (Obj.getD call "index" (.num 0))).isSome ∧
    ((Obj.getD call "id" (.str "")).truthy = true → (keyOf (Obj.getD call "id" (.str ""))).isSome) ∧
    ((Obj.getD function "arguments" (.str "")).truthy = true →
      (Obj.getD function "arguments" (.str "")).asStr.isSome)

/-- The delta before its arguments are read. -/
def ToolDelta.bare (d : ToolDelta) : ToolDelta := { d with arguments := "" }

/-- Deltas with the key of their call. -/
abbrev CallLog := List (Json × ToolDelta)

/-- The calls in the order they are first seen. -/
def firstSeen (log : CallLog) : List Json :=
  log.foldl (fun keys e => if e.1 ∈ keys then keys else keys ++ [e.1]) []

/-- The call last seen under an index. -/
def lastUnder (log : CallLog) (index : Json) : Option Json :=
  ((log.filter fun e => e.2.index = index).getLast?).map Prod.fst

/-- The call a delta belongs to: that of its id, or the last one under its index, or a new one. -/
def callOf (freshId : List Json → String) (log : CallLog) (d : ToolDelta) : Json :=
  if d.id.truthy then d.id.canon
  else (lastUnder log d.index).getD (.str (freshId (firstSeen log)))

/-- The deltas of a stream with their calls. -/
def callLog (freshId : List Json → String) (deltas : List ToolDelta) : CallLog :=
  deltas.foldl (fun log d => log ++ [(callOf freshId log d, d)]) []

def deltasOf (log : CallLog) (key : Json) : List ToolDelta :=
  (log.filter fun e => e.1 = key).map Prod.snd

/-- The argument chunks, concatenated. -/
def textOf (ds : List ToolDelta) : String := String.join (ds.map ToolDelta.arguments)

def Named (ds : List ToolDelta) : Prop := ∃ d ∈ ds, d.name.truthy = true

instance (ds : List ToolDelta) : Decidable (Named ds) := inferInstanceAs (Decidable (∃ d ∈ ds, _))

/-- The deltas before the first with a name. -/
def early (ds : List ToolDelta) : List ToolDelta := ds.takeWhile fun d => !d.name.truthy

/-- The deltas from the first with a name on. -/
def late (ds : List ToolDelta) : List ToolDelta := ds.dropWhile fun d => !d.name.truthy

section Log

variable (log : CallLog) (freshId : List Json → String) (d : ToolDelta) (key k : Json)
  (ds : List ToolDelta)

/-- A call comes into the order with its first delta. -/
theorem firstSeen_snoc : firstSeen (log ++ [(key, d)]) =
    if key ∈ firstSeen log then firstSeen log else firstSeen log ++ [key] := by
  rw [firstSeen, List.foldl_append]
  rfl

/-- The last delta with an index decides what it means. -/
theorem lastUnder_snoc (index : Json) : lastUnder (log ++ [(key, d)]) index =
    if d.index = index then some key else lastUnder log index := by
  rw [lastUnder, List.filter_append]
  by_cases h : d.index = index
  · rw [if_pos h]
    simp [h]
  · rw [if_neg h, List.filter_singleton, decide_eq_false h, cond_false, List.append_nil]
    rfl

/-- One more delta, under the call it is about. -/
theorem callLog_snoc (deltas : List ToolDelta) : callLog freshId (deltas ++ [d]) =
    callLog freshId deltas ++ [(callOf freshId (callLog freshId deltas) d, d)] := by
  rw [callLog, List.foldl_append]
  rfl

/-- One more delta, if it is of the call. -/
theorem deltasOf_snoc : deltasOf (log ++ [(key, d)]) k =
    if key = k then deltasOf log k ++ [d] else deltasOf log k := by
  rw [deltasOf, List.filter_append, List.map_append]
  by_cases h : key = k
  · rw [if_pos h]
    simp [h, deltasOf]
  · rw [if_neg h, List.filter_singleton, decide_eq_false h, cond_false, List.map_nil,
      List.append_nil]
    rfl

/-- A call has been seen when some delta is about it. -/
theorem mem_firstSeen : key ∈ firstSeen log ↔ ∃ e ∈ log, e.1 = key := by
  induction log using List.reverseRecOn with
  | nil => simp [firstSeen]
  | append_singleton log e ih =>
      have hlast : (∃ e' ∈ log ++ [e], e'.1 = key) ↔ key ∈ firstSeen log ∨ e.1 = key := by
        simp [ih, or_and_right, exists_or]
      rw [hlast, firstSeen_snoc]
      split_ifs with h
      · exact ⟨Or.inl, fun hk => hk.elim (fun hk => hk) fun hk => hk ▸ h⟩
      · rw [List.mem_append, List.mem_singleton]
        exact or_congr_right eq_comm

variable {log key} in
/-- A call that was not seen has no deltas. -/
theorem deltasOf_of_not_mem (h : key ∉ firstSeen log) : deltasOf log key = [] := by
  rw [deltasOf, List.map_eq_nil_iff, List.filter_eq_nil_iff]
  intro e he hkey
  exact h ((mem_firstSeen log key).mpr ⟨e, he, of_decide_eq_true hkey⟩)

/-- The call last seen under an index has been seen. -/
theorem lastUnder_mem {index : Json} (h : lastUnder log index = some key) :
    key ∈ firstSeen log := by
  obtain ⟨e, he, rfl⟩ := Option.map_eq_some_iff.mp h
  exact (mem_firstSeen log e.1).mpr ⟨e, (List.mem_filter.mp (List.mem_of_getLast? he)).1, rfl⟩

@[simp] theorem firstSeen_bare :
    firstSeen (log ++ [(key, d.bare)]) = firstSeen (log ++ [(key, d)]) := by
  rw [firstSeen_snoc, firstSeen_snoc]

@[simp] theorem lastUnder_bare (index : Json) :
    lastUnder (log ++ [(key, d.bare)]) index = lastUnder (log ++ [(key, d)]) index := by
  rw [lastUnder_snoc, lastUnder_snoc]
  rfl

/-! ## One call -/

/-- The text grows by the arguments of the delta. -/
theorem textOf_snoc : textOf (ds ++ [d]) = textOf ds ++ d.arguments := by
  rw [textOf, List.map_append, String.join_append]
  simp [textOf, String.join_cons]

/-- What came before the name and what came from it on make the whole text. -/
theorem textOf_early_late : textOf (early ds) ++ textOf (late ds) = textOf ds := by
  rw [textOf, textOf, ← String.join_append, ← List.map_append, early, late,
    List.takeWhile_append_dropWhile]
  rfl

/-- A call is named by one of its deltas. -/
theorem named_snoc : Named (ds ++ [d]) ↔ Named ds ∨ d.name.truthy = true := by
  simp [Named, or_and_right, exists_or]

@[simp] theorem named_bare : Named (ds ++ [d.bare]) ↔ Named (ds ++ [d]) := by
  rw [named_snoc, named_snoc]
  rfl

variable {ds}

/-- Without a name everything is early. -/
theorem early_of_unnamed (h : ¬ Named ds) : early ds = ds := by
  rw [early, List.takeWhile_eq_self_iff]
  intro d hd
  rw [Bool.not_eq_true', Bool.eq_false_iff]
  exact fun htruthy => h ⟨d, hd, htruthy⟩

/-- Without a name nothing is late. -/
theorem late_of_unnamed (h : ¬ Named ds) : late ds = [] := by
  rw [late, List.dropWhile_eq_nil_iff]
  intro d hd
  rw [Bool.not_eq_true', Bool.eq_false_iff]
  exact fun htruthy => h ⟨d, hd, htruthy⟩

/-- Once the call is named every delta is late. -/
theorem early_late_snoc_of_named (h : Named ds) :
    early (ds ++ [d]) = early ds ∧ late (ds ++ [d]) = late ds ++ [d] := by
  obtain ⟨named, hmem, htruthy⟩ := h
  have hnot : ¬ ∀ x ∈ ds, (!x.name.truthy) = true := by
    intro hall
    have := hall named hmem
    rw [htruthy] at this
    cases this
  constructor
  · rw [early, List.takeWhile_append, if_neg]
    · rfl
    · intro hlength
      exact hnot (List.takeWhile_eq_self_iff.mp ((List.takeWhile_prefix _).eq_of_length hlength))
  · rw [late, List.dropWhile_append, if_neg]
    · rfl
    · rw [List.isEmpty_iff, List.dropWhile_eq_nil_iff]
      exact hnot

/-- The delta with the first name is the first late one. -/
theorem early_late_snoc_of_first (h : ¬ Named ds) (hd : d.name.truthy = true) :
    early (ds ++ [d]) = ds ∧ late (ds ++ [d]) = [d] := by
  have hall := early_of_unnamed h
  have hnone := late_of_unnamed h
  rw [early, List.takeWhile_eq_self_iff] at hall
  constructor
  · rw [early, List.takeWhile_append_of_pos hall, List.takeWhile_cons, hd]
    simp
  · rw [late, List.dropWhile_append_of_pos hall, List.dropWhile_cons, hd]
    rfl

end Log

end OpenWebUI.Anthropic
