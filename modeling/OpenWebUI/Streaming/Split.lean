import OpenWebUI.Lib.Text
import OpenWebUI.Streaming.ToolCalls

/-! # Splitting the collected calls

`_split_tool_calls`: a call whose arguments are several objects in a row becomes a call for
each of them, with the same name and a new id.
-/

namespace OpenWebUI.Streaming

open Py

/-- The JSON codec: `JSONCodec.dumps`, and `JSONDecoder.raw_decode` on the text from a position
on, with what is left. -/
structure JsonCodec where
  dumps : Json → String
  rawDecode : List Char → Option (Json × List Char)

variable {codec : JsonCodec}

/-- `JSONCodec.loads` of a text without blanks around it. -/
def JsonCodec.loads (codec : JsonCodec) (text : String) : Option Json :=
  match codec.rawDecode text.toList with
  | some (v, []) => some v
  | _ => none

/-- The loop of `split_json_objects`; `none` where decoding fails. -/
def scanObjects (codec : JsonCodec) : ℕ → List Char → Option (List String)
  | 0, chars => if (chars.dropWhile isSpace).isEmpty then some [] else none
  | fuel + 1, chars =>
    let chars := chars.dropWhile isSpace
    if chars.isEmpty then some []
    else match codec.rawDecode chars with
      | some (_, rest) => (scanObjects codec fuel rest).map
          (strip (String.ofList (chars.take (chars.length - rest.length))) :: ·)
      | none => none

/-- `split_json_objects`; decoding takes a character at least, so there are no more turns than
characters. -/
def splitJsonObjects (codec : JsonCodec) (raw : String) : List String :=
  match scanObjects codec raw.toList.length raw.toList with
  | some [] => [raw]
  | some results => results
  | none => [raw]

/-- One call; `newId` are the ids of its clones. -/
def splitCall (codec : JsonCodec) (newId : ℕ → String) (call : CollectedCall) :
    List CollectedCall :=
  let arguments := splitJsonObjects codec call.arguments
  if arguments.length ≤ 1 then [call]
  else arguments.mapIdx fun k argument => { call with id := newId k, arguments := argument }

def splitToolCalls (codec : JsonCodec) (newId : ℤ → ℕ → String) (calls : List CollectedCall) :
    List CollectedCall :=
  calls.flatMap fun call => splitCall codec (newId call.index) call

/-! ## Object texts -/

/-- The text of an object is in braces and decodes to it, whatever follows. -/
structure JsonCodec.Decodes (codec : JsonCodec) (members : Obj) : Prop where
  decode : ∀ rest, codec.rawDecode ((codec.dumps (.obj members)).toList ++ rest) =
    some (.obj members, rest)
  braces : ∃ inner : List Char, (codec.dumps (.obj members)).toList = '\x7b' :: inner ++ ['\x7d']

/-- A value that decodes is read back. -/
theorem JsonCodec.Decodes.loads {members : Obj} (h : codec.Decodes members) :
    codec.loads (codec.dumps (.obj members)) = some (.obj members) := by
  have hdecode := h.decode []
  rw [List.append_nil] at hdecode
  rw [JsonCodec.loads, hdecode]

/-- The text of a value that decodes has no space around it. -/
theorem JsonCodec.Decodes.strip {members : Obj} (h : codec.Decodes members) :
    strip (codec.dumps (.obj members)) = codec.dumps (.obj members) := by
  obtain ⟨inner, hinner⟩ := h.braces
  have hl : lstrip (codec.dumps (.obj members)) = codec.dumps (.obj members) := by
    rw [lstrip, hinner, List.cons_append, List.dropWhile_cons_of_neg (by decide),
      ← List.cons_append, ← hinner, String.ofList_toList]
  rw [Py.strip, hl, rstrip, hinner, List.reverse_append, List.reverse_singleton,
    List.singleton_append, List.dropWhile_cons_of_neg (by decide), List.reverse_cons,
    List.reverse_reverse, ← hinner, String.ofList_toList]

/-- Object texts in a row are found one by one. -/
theorem scanObjects_dumps (values : List Obj) : ∀ {fuel : ℕ}, values.length ≤ fuel →
    (∀ members ∈ values, codec.Decodes members) →
    scanObjects codec fuel (values.flatMap fun members => (codec.dumps (.obj members)).toList) =
      some (values.map fun members => codec.dumps (.obj members)) := by
  induction values with
  | nil =>
      intro fuel _ _
      cases fuel <;> rfl
  | cons members values ih =>
      intro fuel hfuel h
      obtain ⟨fuel, rfl⟩ : ∃ k, fuel = k + 1 := ⟨fuel - 1, by rw [List.length_cons] at hfuel; omega⟩
      have hmembers := h members List.mem_cons_self
      have hlength : values.length ≤ fuel := by
        rw [List.length_cons] at hfuel
        omega
      have hrest := ih hlength fun members' hmem => h members' (List.mem_cons_of_mem _ hmem)
      generalize hchars : values.flatMap (fun members => (codec.dumps (.obj members)).toList) = rest
        at hrest
      have hdrop : ((codec.dumps (.obj members)).toList ++ rest).dropWhile isSpace =
          (codec.dumps (.obj members)).toList ++ rest := by
        obtain ⟨inner, hinner⟩ := hmembers.braces
        rw [hinner]
        exact List.dropWhile_cons_of_neg (by decide)
      have hne : ((codec.dumps (.obj members)).toList ++ rest).isEmpty = false := by
        obtain ⟨inner, hinner⟩ := hmembers.braces
        rw [hinner]
        rfl
      have htake : ((codec.dumps (.obj members)).toList ++ rest).take
          (((codec.dumps (.obj members)).toList ++ rest).length - rest.length) =
            (codec.dumps (.obj members)).toList := by
        rw [List.length_append, Nat.add_sub_cancel, List.take_left']
        rfl
      rw [List.flatMap_cons, hchars, scanObjects, hdrop, hne, hmembers.decode]
      dsimp only
      rw [htake, String.ofList_toList, hmembers.strip, hrest]
      rfl

/-- A call whose arguments are object texts in a row is split into a call for each. -/
theorem splitCall_dumps {newId : ℕ → String} {call : CollectedCall} {values : List Obj}
    (hvalues : values ≠ []) (h : ∀ members ∈ values, codec.Decodes members)
    (harguments : call.arguments =
      String.join (values.map fun members => codec.dumps (.obj members))) :
    (splitCall codec newId call).map (fun c => (c.name, c.arguments)) =
      values.map fun members => (call.name, codec.dumps (.obj members)) := by
  have hchars : call.arguments.toList =
      values.flatMap fun members => (codec.dumps (.obj members)).toList := by
    rw [harguments, String.toList_join, List.flatMap_map]
  -- each object has at least a brace, so the scanner has enough fuel
  have hlength : ∀ vs : List Obj, (∀ members ∈ vs, codec.Decodes members) → vs.length ≤
      (vs.flatMap fun members => (codec.dumps (.obj members)).toList).length := by
    intro vs
    induction vs with
    | nil => exact fun _ => Nat.le_refl 0
    | cons members vs ih =>
        intro hvs
        have hrest := ih fun members' hmem => hvs members' (List.mem_cons_of_mem _ hmem)
        obtain ⟨inner, hinner⟩ := (hvs members List.mem_cons_self).braces
        rw [List.flatMap_cons, List.length_append, List.length_cons, hinner, List.cons_append,
          List.length_cons]
        omega
  have hsplit : splitJsonObjects codec call.arguments =
      values.map fun members => codec.dumps (.obj members) := by
    rw [splitJsonObjects, hchars, scanObjects_dumps values (hlength values h) h]
    cases values with
    | nil => exact absurd rfl hvalues
    | cons members values => rfl
  rw [splitCall, hsplit, List.length_map]
  split_ifs with hone
  · -- a single object is the call itself
    obtain ⟨members, rfl⟩ : ∃ members, values = [members] := by
      cases values with
      | nil => exact absurd rfl hvalues
      | cons members values =>
          rw [List.length_cons] at hone
          rw [List.length_eq_zero_iff.mp (by omega : values.length = 0)]
          exact ⟨members, rfl⟩
    rw [List.map_singleton, List.map_singleton, harguments]
    simp
  -- several objects: one call for each, under one name
  · refine List.ext_getElem (by simp) fun k hk _ => ?_
    simp

end OpenWebUI.Streaming
