import OpenWebUI.Streaming.Reducer

/-! # Coalescing deltas

Text deltas with one key can be joined into one event: what they write one after the other is
what their concatenation writes at once. The exception is a delta for the type of an item: it
can make the next delta go elsewhere.
-/

namespace OpenWebUI.Streaming

open Py

variable {pyStr : Json → String} {deltaType : String} {e : DeltaEvent} {get : Fields}
  {output : List Json}

/-- The same event with another text. -/
def DeltaEvent.withText (e : DeltaEvent) (s : String) : DeltaEvent := { e with delta := .str s }

/-- The text of an event whose delta is a text. -/
def DeltaEvent.text (e : DeltaEvent) : String :=
  match e.delta with
  | .str s => s
  | _ => ""

/-- The event that `load_response_stream` and `queue_pending_delta_data` make of adjacent ones. -/
def joined (first : DeltaEvent) (rest : List DeltaEvent) : DeltaEvent :=
  first.withText (first.text ++ String.join (rest.map DeltaEvent.text))

/-- The item type is `message` or `reasoning`, so the deltas go to parts. -/
def HasParts (type : Json) : Prop := type = .str "message" ∨ type = .str "reasoning"

instance (type : Json) : Decidable (HasParts type) := inferInstanceAs (Decidable (_ ∨ _))

/-- The events write the type of an item without parts, and before the last of them the type
becomes that of an item with parts. -/
def Retypes (output : List Json) (e : DeltaEvent) (texts : List String) : Prop :=
  e.deltaType = some "type" ∧ 0 ≤ itemIndex output e ∧
    ∃ members : Obj, output[(itemIndex output e).toNat]? = some (.obj members) ∧
      ¬ HasParts ((members.lookup "type").getD (.str "")) ∧
      ∃ n, 0 < n ∧ n < texts.length ∧
        HasParts (deepMerge (currentVal (.str "") (members.lookup "type"))
          (.str (String.join (texts.take n))))

/-! ## One field -/

/-- A text merged into a value gives a text. -/
theorem deepMerge_str (v : Json) (s : String) :
    deepMerge v (.str s) = .str ((match v with | .str t => t | _ => "") ++ s) := by
  cases v <;> simp [deepMerge]

/-- Merging two texts one after the other merges them joined. -/
theorem deepMerge_twice (v : Json) (s₁ s₂ : String) :
    deepMerge (deepMerge v (.str s₁)) (.str s₂) = deepMerge v (.str (s₁ ++ s₂)) := by
  rw [deepMerge_str v, deepMerge_str v, deepMerge_str, String.append_assoc]

/-- The current value after a first text. -/
theorem currentVal_deepMerge (v : Json) (s₁ s₂ : String) :
    currentVal (.str s₂) (some (deepMerge v (.str s₁))) = deepMerge v (.str s₁) := by
  rw [deepMerge_str]
  rfl

/-- Which value is current does not depend on the text. -/
theorem currentVal_str (s₁ s₂ : String) : currentVal (.str s₁) = currentVal (.str s₂) := by
  funext v
  cases v with
  | none => rfl
  | some v => cases v <;> rfl

/-- Two texts merged into a field of a part. -/
theorem mergePart_twice (key : String) {initial₁ initial₂ : Option Json → Json} (s₁ s₂ : String)
    (hinitial : ∀ v s, initial₂ (some (deepMerge v (.str s))) = deepMerge v (.str s))
    (part : Json) :
    (mergePart key initial₁ (.str s₁) part).bind (mergePart key initial₂ (.str s₂)) =
      mergePart key initial₁ (.str (s₁ ++ s₂)) part := by
  cases part with
  | obj members =>
      simp only [mergePart, Option.bind_some]
      rw [Assoc.lookup_set_self, hinitial, deepMerge_twice, Assoc.set_set]
  | _ => rfl

/-- Two texts for one part. -/
theorem writeParts_twice {field : String} {default : Json} {index : ℤ}
    {f g h : Json → Option Json} (hcompose : ∀ part, (f part).bind g = h part)
    {w₁ w₂ : Option (String × Json)} (h₁ : writeParts field default index f get = some w₁)
    (h₂ : writeParts field default index g (get.after w₁) = some w₂) :
    ∃ w, writeParts field default index h get = some w ∧
      ∀ members, applyWrite w₂ (applyWrite w₁ members) = applyWrite w members := by
  obtain ⟨parts, hparts, hwrite⟩ := Option.bind_eq_some_iff.mp h₁
  obtain ⟨parts₁, hparts₁, rfl⟩ := Option.map_eq_some_iff.mp hwrite
  rw [writeParts, partsOf_after, Option.bind_some] at h₂
  obtain ⟨parts₂, hparts₂, rfl⟩ := Option.map_eq_some_iff.mp h₂
  refine ⟨some (field, .arr parts₂), ?_, fun members => Assoc.set_set members field _ _⟩
  have hfun : (fun part => (f part).bind g) = h := funext hcompose
  have hboth : writePart default index h parts = some parts₂ := by
    rw [← hfun, ← writePart_writePart, hparts₁, Option.bind_some, hparts₂]
  rw [writeParts, hparts, Option.bind_some, hboth]
  rfl

/-- Writing parts leaves the type of the item. -/
theorem writeParts_ne_type {field : String} {default : Json} {index : ℤ}
    {f : Json → Option Json} {write : Option (String × Json)} (hne : field ≠ "type")
    (h : writeParts field default index f get = some write) (v : Json) :
    write ≠ some ("type", v) := by
  rintro rfl
  obtain ⟨parts, -, hwrite⟩ := Option.bind_eq_some_iff.mp h
  obtain ⟨parts₁, -, heq⟩ := Option.map_eq_some_iff.mp hwrite
  exact hne (congrArg Prod.fst (Option.some.inj heq))

/-- Writing one text and then another is writing both, unless the first makes the item one
with parts. -/
theorem fieldWrite_twice {s₁ s₂ : String} {w₁ w₂ : Option (String × Json)}
    (h₁ : fieldWrite pyStr deltaType (e.withText s₁) get = some w₁)
    (h₂ : fieldWrite pyStr deltaType (e.withText s₂) (get.after w₁) = some w₂)
    (hretype : ¬ HasParts ((get "type").getD (.str "")) → ∀ v, w₁ = some ("type", v) →
      ¬ HasParts v) :
    ∃ w, fieldWrite pyStr deltaType (e.withText (s₁ ++ s₂)) get = some w ∧
      ∀ members, applyWrite w₂ (applyWrite w₁ members) = applyWrite w members := by
  have hcurrent :
    ∀ v s, currentVal (.str s₂) (some (deepMerge v (.str s))) = deepMerge v (.str s) :=
    fun v s => currentVal_deepMerge v s s₂
  have hgetD : ∀ v s, (some (deepMerge v (.str s))).getD (Json.str "") = deepMerge v (.str s) :=
    fun _ _ => rfl
  -- where nothing is written or the type is not, the second event sees the same type
  have hsame : ∀ {w : Option (String × Json)}, (∀ v, w ≠ some ("type", v)) →
      (get.after w) "type" = get "type" := by
    intro w hw
    cases w with
    | none => rfl
    | some p =>
        refine if_neg fun heq => hw p.2 ?_
        rw [heq]
  unfold fieldWrite at h₁ h₂ ⊢
  simp only [DeltaEvent.withText] at h₁ h₂ ⊢
  by_cases hcall : deltaType = "function_call_arguments"
  · simp only [if_pos hcall] at h₁ h₂ ⊢
    by_cases htype : (get "type").getD (.str "") = .str "function_call"
    · rw [if_pos htype] at h₁ ⊢
      cases harguments : (get "arguments").getD (.str "") with
      | str arguments =>
          rw [harguments] at h₁
          obtain rfl := Option.some.inj h₁
          rw [hsame (fun v => by simp), if_pos htype] at h₂
          simp only [Fields.after, if_true, Option.getD_some] at h₂
          obtain rfl := Option.some.inj h₂
          refine ⟨_, rfl, fun members => ?_⟩
          rw [applyWrite, applyWrite, applyWrite, Assoc.set_set, String.append_assoc]
      | _ =>
          rw [harguments] at h₁
          cases h₁
    · rw [if_neg htype] at h₁ ⊢
      obtain rfl := Option.some.inj h₁
      rw [hsame (fun v => by simp), if_neg htype] at h₂
      obtain rfl := Option.some.inj h₂
      exact ⟨none, rfl, fun _ => rfl⟩
  · simp only [if_neg hcall] at h₁ h₂ ⊢
    by_cases hmessage : (get "type").getD (.str "") = .str "message"
    · rw [if_pos hmessage] at h₁ ⊢
      by_cases hskip : deltaType ∈ ["reasoning_text", "reasoning_summary_text"]
      · rw [if_pos hskip] at h₁ ⊢
        obtain rfl := Option.some.inj h₁
        rw [hsame (fun v => by simp), if_pos hmessage, if_pos hskip] at h₂
        obtain rfl := Option.some.inj h₂
        exact ⟨none, rfl, fun _ => rfl⟩
      · rw [if_neg hskip] at h₁ ⊢
        have hfield := writeParts_ne_type (by decide) h₁
        rw [hsame hfield, if_pos hmessage, if_neg hskip] at h₂
        refine writeParts_twice (fun part => ?_) h₁ h₂
        rw [mergePart_twice _ _ _ hcurrent, currentVal_str s₁ (s₁ ++ s₂)]
    · rw [if_neg hmessage] at h₁ ⊢
      by_cases hreasoning : (get "type").getD (.str "") = .str "reasoning"
      · rw [if_pos hreasoning] at h₁ ⊢
        by_cases hsummary : deltaType = "reasoning_summary_text"
        · rw [if_pos hsummary] at h₁ ⊢
          have hfield := writeParts_ne_type (by decide) h₁
          rw [hsame hfield, if_neg hmessage, if_pos hreasoning, if_pos hsummary] at h₂
          exact writeParts_twice (fun part => mergePart_twice _ _ _ hgetD part) h₁ h₂
        · rw [if_neg hsummary] at h₁ ⊢
          by_cases htext : deltaType = "reasoning_text"
          · rw [if_pos htext] at h₁ ⊢
            have hfield := writeParts_ne_type (by decide) h₁
            rw [hsame hfield, if_neg hmessage, if_pos hreasoning, if_neg hsummary,
              if_pos htext] at h₂
            exact writeParts_twice (fun part => mergePart_twice _ _ _ hgetD part) h₁ h₂
          · rw [if_neg htext] at h₁ ⊢
            obtain rfl := Option.some.inj h₁
            rw [hsame (fun v => by simp), if_neg hmessage, if_pos hreasoning, if_neg hsummary,
              if_neg htext] at h₂
            obtain rfl := Option.some.inj h₂
            exact ⟨none, rfl, fun _ => rfl⟩
      · rw [if_neg hreasoning] at h₁ ⊢
        obtain rfl := Option.some.inj h₁
        have hparts : ¬ HasParts ((get "type").getD (.str "")) :=
          fun h => h.elim hmessage hreasoning
        -- the item has no parts after the first text either
        have hparts₁ : ¬ HasParts (((get.after (some (keyOf deltaType,
            deepMerge (currentVal (.str s₁) (get (keyOf deltaType))) (.str s₁)))) "type").getD
              (.str "")) := by
          by_cases hkey : keyOf deltaType = "type"
          · generalize deepMerge (currentVal (.str s₁) (get (keyOf deltaType)))
              (.str s₁) = v at hretype ⊢
            rw [hkey] at hretype ⊢
            exact hretype hparts v rfl
          · rw [hsame fun v heq => hkey (congrArg Prod.fst (Option.some.inj heq))]
            exact hparts
        rw [if_neg fun h => hparts₁ (Or.inl h), if_neg fun h => hparts₁ (Or.inr h)] at h₂
        obtain rfl := Option.some.inj h₂
        refine ⟨_, rfl, fun members => ?_⟩
        simp only [applyWrite, Fields.after, if_true, Assoc.set_set]
        rw [hcurrent, deepMerge_twice, currentVal_str s₁ (s₁ ++ s₂)]

/-! ## The output -/

/-- Two texts written to one item are written joined, where the first does not retype it. -/
theorem applyToItem_twice {s₁ s₂ : String} {item item₁ item₂ : Json}
    (h₁ : applyToItem pyStr deltaType (e.withText s₁) item = some item₁)
    (h₂ : applyToItem pyStr deltaType (e.withText s₂) item₁ = some item₂)
    (hretype : ∀ members : Obj, item = .obj members → deltaType = "type" →
      ¬ HasParts ((members.lookup "type").getD (.str "")) →
      ¬ HasParts (deepMerge (currentVal (.str "") (members.lookup "type")) (.str s₁))) :
    applyToItem pyStr deltaType (e.withText (s₁ ++ s₂)) item = some item₂ := by
  cases item with
  | obj members =>
      obtain ⟨w₁, hw₁, rfl⟩ := Option.map_eq_some_iff.mp h₁
      obtain ⟨w₂, hw₂, rfl⟩ := Option.map_eq_some_iff.mp h₂
      rw [lookup_applyWrite] at hw₂
      obtain ⟨w, hw, hboth⟩ := fieldWrite_twice hw₁ hw₂ (by
        rintro hparts v rfl
        -- an item without parts has its type written by the delta for it only
        have hnot : (members.lookup "type").getD (.str "") ≠ .str "message" ∧
            (members.lookup "type").getD (.str "") ≠ .str "reasoning" :=
          ⟨fun h => hparts (Or.inl h), fun h => hparts (Or.inr h)⟩
        have hkey : deltaType = "type" ∧
            v = deepMerge (currentVal (.str s₁) (members.lookup "type")) (.str s₁) := by
          unfold fieldWrite at hw₁
          simp only [DeltaEvent.withText, hnot.1, hnot.2, if_false] at hw₁
          by_cases hcall : deltaType = "function_call_arguments"
          · rw [if_pos hcall] at hw₁
            split_ifs at hw₁
            · cases harguments : (members.lookup "arguments").getD (.str "") with
              | str arguments =>
                  rw [harguments] at hw₁
                  simp at hw₁
              | _ =>
                  rw [harguments] at hw₁
                  cases hw₁
            · cases hw₁
          · rw [if_neg hcall] at hw₁
            simp only [Option.some.injEq, Prod.mk.injEq] at hw₁
            obtain ⟨hkey, rfl⟩ := hw₁
            rw [hkey]
            refine ⟨?_, rfl⟩
            rw [keyOf] at hkey
            split_ifs at hkey
            · simp at hkey
            · exact hkey
        rw [hkey.2, currentVal_str s₁ ""]
        exact hretype members rfl hkey.1 hparts)
      rw [applyToItem, hw, Option.map_some, hboth]
  | _ => cases h₁

/-- After the missing items were added the index is there. -/
theorem lt_length_addMissing (deltaType : String) (e : DeltaEvent) (output : List Json) :
    itemIndex output e < (addMissing deltaType e output).length := by
  rw [addMissing]
  split_ifs with h
  · rw [List.length_append, List.length_append, List.length_replicate, List.length_singleton]
    omega
  · omega

/-- Handling an event does not move the item it addresses. -/
theorem itemIndex_addMissing {output' : List Json}
    (hlength : output'.length = (addMissing deltaType e output).length) :
    itemIndex output' e = itemIndex output e := by
  rw [itemIndex, itemIndex]
  cases hindex : e.outputIndex with
  | some i => rfl
  | none =>
      rw [Option.getD_none, Option.getD_none, hlength, addMissing, itemIndex, hindex,
        Option.getD_none]
      split_ifs with h
      · rw [List.length_append, List.length_append, List.length_replicate, List.length_singleton]
        omega
      · rfl

/-- Where the index is there nothing is missing. -/
theorem addMissing_of_lt (h : itemIndex output e < output.length) :
    addMissing deltaType e output = output := if_neg (by omega)

/-- Two texts, one after the other, and both at once. -/
theorem handleDelta_twice {s₁ s₂ : String} {out₁ out₂ : List Json}
    (h₁ : handleDelta pyStr output (e.withText s₁) = some out₁)
    (h₂ : handleDelta pyStr out₁ (e.withText s₂) = some out₂)
    (hretype : ¬ Retypes output e [s₁, s₂]) :
    handleDelta pyStr output (e.withText (s₁ ++ s₂)) = some out₂ := by
  have htype : ∀ s, (e.withText s).deltaType = e.deltaType := fun _ => rfl
  have hindex : ∀ (out : List Json) s, itemIndex out (e.withText s) = itemIndex out e :=
    fun _ _ => rfl
  have hadd : ∀ (name : String) (out : List Json) s,
      addMissing name (e.withText s) out = addMissing name e out := fun _ _ _ => rfl
  rw [handleDelta, htype] at h₁ h₂ ⊢
  cases hname : e.deltaType with
  -- an event without a type changes nothing
  | none =>
      rw [hname] at h₁ h₂
      obtain rfl := Option.some.inj h₁
      exact h₂
  | some name =>
      rw [hname] at h₁ h₂
      dsimp only at h₁ h₂ ⊢
      rw [hindex, hadd] at h₁ h₂ ⊢
      by_cases hlt : 0 ≤ itemIndex output e ∧ itemIndex output e < (addMissing name e output).length
      -- the item exists after the first event, and the second finds it there
      · rw [if_pos hlt] at h₁ ⊢
        have hlength := Slots.length_updateAt h₁
        have hsame : itemIndex out₁ e = itemIndex output e := itemIndex_addMissing hlength
        rw [hsame, addMissing_of_lt (by rw [hsame]; omega), if_pos ⟨hlt.1, by omega⟩] at h₂
        obtain ⟨item, item₁, hitem, hitem₁, rfl⟩ := Slots.updateAt_eq_some.mp h₁
        obtain ⟨item₁', item₂, hitem₁', hitem₂, rfl⟩ := Slots.updateAt_eq_some.mp h₂
        have hbound : (itemIndex output e).toNat < (addMissing name e output).length := by omega
        rw [List.getElem?_set_self hbound] at hitem₁'
        obtain rfl := Option.some.inj hitem₁'
        refine Slots.updateAt_eq_some.mpr ⟨item, item₂, hitem, ?_, List.set_set ..⟩
        refine applyToItem_twice hitem₁ hitem₂ ?_
        -- only a change of the item's type could make the second write another field
        rintro members rfl rfl hparts hbecomes
        by_cases hexists : itemIndex output e < output.length
        · rw [addMissing_of_lt hexists] at hitem
          refine hretype ⟨hname, hlt.1, members, hitem, hparts, 1, by decide, by simp, ?_⟩
          simpa using hbecomes
        · -- a new item gets a type with parts
          rw [addMissing, if_pos (by omega)] at hitem
          have hlast :
            (output ++ List.replicate (itemIndex output e - output.length).toNat placeholder ++
              [startedItem "type" e.itemId])[(itemIndex output e).toNat]? =
                some (startedItem "type" e.itemId) := by
            rw [List.getElem?_append_right (by
              rw [List.length_append, List.length_replicate]
              omega)]
            have hzero : (itemIndex output e).toNat - (output ++ List.replicate
                (itemIndex output e - output.length).toNat placeholder).length = 0 := by
              rw [List.length_append, List.length_replicate]
              omega
            rw [hzero]
            rfl
          rw [hlast] at hitem
          obtain rfl := Json.obj.inj (Option.some.inj hitem)
          exact hparts (Or.inl rfl)
      · have hneg : itemIndex output e < 0 := by
          -- an index below the list is left alone both times
          by_contra hnot
          exact hlt ⟨by omega, lt_length_addMissing name e output⟩
        have hnone : addMissing name e output = output := addMissing_of_lt (by omega)
        rw [hnone] at hlt h₁ ⊢
        rw [if_neg hlt] at h₁ ⊢
        obtain rfl := Option.some.inj h₁
        rw [hnone, if_neg hlt] at h₂
        exact h₂

/-! ## All deltas at once -/

/-- A text that retypes the item early does so in a longer list. -/
theorem retypes_first {s₁ s₂ : String} {rest : List String} (h : Retypes output e [s₁, s₂]) :
    Retypes output e (s₁ :: s₂ :: rest) := by
  obtain ⟨hname, hindex, members, hitem, hparts, n, hn, hlt, hbecomes⟩ := h
  have hone : n = 1 := by
    rw [List.length_cons, List.length_singleton] at hlt
    omega
  subst hone
  refine ⟨hname, hindex, members, hitem, hparts, 1, hn, ?_, hbecomes⟩
  rw [List.length_cons, List.length_cons]
  omega

/-- What retypes the item joined does so apart. -/
theorem retypes_merged {s₁ s₂ : String} {rest : List String}
    (h : Retypes output e ((s₁ ++ s₂) :: rest)) : Retypes output e (s₁ :: s₂ :: rest) := by
  obtain ⟨hname, hindex, members, hitem, hparts, n, hn, hlt, hbecomes⟩ := h
  rw [List.length_cons] at hlt
  refine ⟨hname, hindex, members, hitem, hparts, n + 1, by omega, ?_, ?_⟩
  · rw [List.length_cons, List.length_cons]
    omega
  · obtain ⟨k, rfl⟩ : ∃ k, n = k + 1 := ⟨n - 1, by omega⟩
    rw [List.take_succ_cons, String.join_cons] at hbecomes
    rw [List.take_succ_cons, List.take_succ_cons, String.join_cons, String.join_cons,
      ← String.append_assoc]
    exact hbecomes

/-- Texts one after the other, and all at once. -/
theorem handleDeltas_texts (texts : List String) : ∀ {s : String} {out : List Json},
    handleDeltas pyStr output ((s :: texts).map e.withText) = some out →
    ¬ Retypes output e (s :: texts) →
    handleDelta pyStr output (e.withText (String.join (s :: texts))) = some out := by
  induction texts with
  | nil =>
      intro s out h _
      rw [handleDeltas, List.map_singleton, List.foldlM_cons] at h
      simpa using h
  | cons t texts ih =>
      intro s out h hretype
      rw [handleDeltas, List.map_cons, List.foldlM_cons] at h
      obtain ⟨out₁, h₁, hrest⟩ := Option.bind_eq_some_iff.mp h
      rw [List.map_cons, List.foldlM_cons] at hrest
      obtain ⟨out₂, h₂, hrest⟩ := Option.bind_eq_some_iff.mp hrest
      have hboth := handleDelta_twice h₁ h₂ fun h => hretype (retypes_first h)
      have hmerged : handleDeltas pyStr output (((s ++ t) :: texts).map e.withText) = some out := by
        rw [handleDeltas, List.map_cons, List.foldlM_cons]
        exact Option.bind_eq_some_iff.mpr ⟨out₂, hboth, hrest⟩
      have hall := ih hmerged fun h => hretype (retypes_merged h)
      rw [String.join_cons] at hall ⊢
      rwa [String.join_cons, ← String.append_assoc]

/-- Events with one key differ in their delta only. -/
theorem eq_withText {first other : DeltaEvent}
    (hkey : getResponseDeltaKey other = getResponseDeltaKey first)
    (hsome : getResponseDeltaKey first ≠ none) (htext : other.delta = .str other.text) :
    other = first.withText other.text := by
  have hsome' : getResponseDeltaKey other ≠ none := hkey ▸ hsome
  rw [getResponseDeltaKey] at hsome hsome'
  rw [getResponseDeltaKey, getResponseDeltaKey] at hkey
  rw [if_pos (of_not_not fun h => hsome (if_neg h)), if_pos (of_not_not fun h => hsome' (if_neg h))]
    at hkey
  simp only [Option.some.injEq, Prod.mk.injEq] at hkey
  obtain ⟨type, itemId, outputIndex, contentIndex, summaryIndex, delta⟩ := other
  obtain ⟨rfl, rfl, rfl, rfl, rfl⟩ := hkey
  rw [DeltaEvent.withText]
  dsimp only at htext ⊢
  rw [← htext]

/-- Adjacent text deltas with one key give what their joined event gives. -/
theorem handleDelta_joined (output : List Json) (first : DeltaEvent) (rest : List DeltaEvent)
    (hsome : getResponseDeltaKey first ≠ none)
    (hkey : ∀ e ∈ rest, getResponseDeltaKey e = getResponseDeltaKey first)
    (htext : ∀ e ∈ first :: rest, e.delta = .str e.text)
    (hretype : ¬ Retypes output first ((first :: rest).map DeltaEvent.text)) {out : List Json}
    (h : handleDeltas pyStr output (first :: rest) = some out) :
    handleDelta pyStr output (joined first rest) = some out := by
  have hevents : first :: rest = ((first :: rest).map DeltaEvent.text).map first.withText := by
    rw [List.map_map]
    refine (List.map_id _).symm.trans (List.map_congr_left fun e he => ?_)
    rcases List.mem_cons.mp he with rfl | hmem
    · exact eq_withText rfl hsome (htext e he)
    · exact eq_withText (hkey e hmem) hsome (htext e he)
  rw [hevents, List.map_cons] at h
  have hall := handleDeltas_texts _ h hretype
  rwa [String.join_cons] at hall

end OpenWebUI.Streaming
