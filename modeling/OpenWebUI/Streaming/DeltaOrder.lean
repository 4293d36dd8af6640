import OpenWebUI.Streaming.Coalescing

/-! # Deltas of different slots

A message or a reasoning item has a slot for each of its content and summary parts, any other
item is one slot. Events for different slots of existing items can be applied in any order.
-/

namespace OpenWebUI.Streaming

open Py

variable {pyStr : Json → String} {deltaType : String} {e a b : DeltaEvent} {get : Fields}
  {output output' : List Json} {events events' : List DeltaEvent}

inductive Slot where
  | item
  | content (index : ℤ)
  | summary (index : ℤ)
deriving DecidableEq

/-- The type of the item an event addresses. -/
def typeAt (output : List Json) (e : DeltaEvent) : Json :=
  match output[(itemIndex output e).toNat]? with
  | some (.obj members) => (members.lookup "type").getD (.str "")
  | _ => .null

/-- The part of an item with parts that an event addresses. -/
def partOf (e : DeltaEvent) : Slot :=
  if e.deltaType = some "reasoning_summary_text" then .summary (e.summaryIndex.getD 0)
  else .content (e.contentIndex.getD 0)

/-- The slot an event addresses. -/
def slotOf (output : List Json) (e : DeltaEvent) : ℤ × Slot :=
  (itemIndex output e, if HasParts (typeAt output e) then partOf e else .item)

/-- The events address existing items, with part indices that are not negative, and pairwise
different slots. -/
structure Separate (output : List Json) (events : List DeltaEvent) : Prop where
  existing : ∀ e ∈ events, 0 ≤ itemIndex output e ∧ itemIndex output e < output.length
  content : ∀ e ∈ events, 0 ≤ e.contentIndex.getD 0
  summary : ∀ e ∈ events, 0 ≤ e.summaryIndex.getD 0
  slots : (events.map (slotOf output)).Nodup

/-! ## Up to the order of members -/

/-- An item as its members, without their order. -/
def view : Json → Json ⊕ Fields
  | .obj members => .inr fun k => members.lookup k
  | v => .inl v

/-- The same items with the same members. -/
def SameOutput (output output' : List Json) : Prop := output.map view = output'.map view

/-- Both fail, or both give the same items. -/
def SameOutcome (x y : Option (List Json)) : Prop := x.map (List.map view) = y.map (List.map view)

/-- An item that an event leads to, seen by its members. -/
def fieldStep (pyStr : Json → String) (deltaType : String) (e : DeltaEvent) (get : Fields) :
    Option Fields :=
  (fieldWrite pyStr deltaType e get).map get.after

/-- An item is changed as its fields are. -/
theorem view_applyToItem (members : Obj) :
    (applyToItem pyStr deltaType e (.obj members)).map view =
      (fieldStep pyStr deltaType e fun k => members.lookup k).map Sum.inr := by
  rw [applyToItem, fieldStep, Option.map_map, Option.map_map]
  refine congrArg (fun f => Option.map f _) (funext fun write => ?_)
  simp only [Function.comp_apply, view]
  exact congrArg Sum.inr (lookup_applyWrite write members)

/-- What an event makes of an item depends on its members only. -/
theorem applyToItem_congr {x y : Json} (h : view x = view y) :
    (applyToItem pyStr deltaType e x).map view = (applyToItem pyStr deltaType e y).map view := by
  cases x with
  | obj members =>
      cases y with
      | obj members' =>
          rw [view_applyToItem, view_applyToItem, Sum.inr.inj h]
      | _ => cases h
  | _ =>
      cases y with
      | obj members' => cases h
      | _ => rfl

theorem length_of_same (h : SameOutput output output') : output.length = output'.length := by
  have hlength := congrArg List.length h
  rwa [List.length_map, List.length_map] at hlength

/-- What an event makes of an output depends on the members of its items only. -/
theorem handleDelta_congr (e : DeltaEvent) (h : SameOutput output output') :
    SameOutcome (handleDelta pyStr output e) (handleDelta pyStr output' e) := by
  have hlength := length_of_same h
  have hindex : itemIndex output e = itemIndex output' e := by rw [itemIndex, itemIndex, hlength]
  rw [handleDelta, handleDelta]
  cases e.deltaType with
  | none => exact congrArg some h
  | some name =>
      have hadd : SameOutput (addMissing name e output) (addMissing name e output') := by
        rw [addMissing, addMissing, hindex, hlength]
        split_ifs
        · rw [SameOutput, List.map_append, List.map_append, List.map_append, List.map_append, h]
        · exact h
      dsimp only
      rw [hindex, length_of_same hadd]
      split_ifs
      · exact Slots.updateAt_congr hadd fun x y _ _ hxy => applyToItem_congr hxy
      · exact congrArg some hadd

theorem handleDeltas_congr (events : List DeltaEvent) : ∀ {output output' : List Json},
    SameOutput output output' →
    SameOutcome (handleDeltas pyStr output events) (handleDeltas pyStr output' events) := by
  induction events with
  | nil => exact fun h => congrArg some h
  | cons e events ih =>
      intro output output' h
      have hstep : SameOutcome (handleDelta pyStr output e) (handleDelta pyStr output' e) :=
        handleDelta_congr e h
      rw [handleDeltas, handleDeltas, List.foldlM_cons, List.foldlM_cons]
      cases hout : handleDelta pyStr output e with
      | none =>
          rw [hout] at hstep
          rw [Option.map_eq_none_iff.mp hstep.symm]
          rfl
      | some out =>
          rw [hout] at hstep
          obtain ⟨out', hout', hsame⟩ := Option.map_eq_some_iff.mp hstep.symm
          rw [hout']
          exact ih hsame.symm

/-! ## Two events -/

/-- Two changes of different parts of an item commute. -/
theorem writeParts_comm {field field' : String} {default default' : Json} {i j : ℤ}
    {f g : Json → Option Json} (hi : 0 ≤ i) (hj : 0 ≤ j)
    (hdefault : field = field' → default = default') (hne : field = field' → i ≠ j) :
    ((writeParts field default i f get).map get.after).bind (fun get =>
        (writeParts field' default' j g get).map get.after) =
      ((writeParts field' default' j g get).map get.after).bind fun get =>
        (writeParts field default i f get).map get.after := by
  by_cases hfield : field = field'
  · -- two parts of one field
    obtain rfl := hfield
    obtain rfl := hdefault rfl
    have hboth : ∀ {i j : ℤ} {f g : Json → Option Json},
        ((writeParts field default i f get).map get.after).bind (fun get =>
            (writeParts field default j g get).map get.after) =
          (partsOf field get).bind fun parts =>
            ((writePart default i f parts).bind (writePart default j g)).map fun parts =>
              get.after (some (field, .arr parts)) := by
      intro i j f g
      rw [writeParts]
      cases partsOf field get with
      | none => rfl
      | some parts =>
          rw [Option.bind_some, Option.bind_some]
          cases writePart default i f parts with
          | none => rfl
          | some parts₁ =>
              simp only [Option.map_some, Option.bind_some, writeParts, partsOf_after]
              cases writePart default j g parts₁ with
              | none => rfl
              | some parts₂ => simp only [Option.map_some, after_after]
    rw [hboth, hboth]
    refine Option.bind_congr fun parts _ => ?_
    rw [writePart_comm hi hj (hne rfl)]
  -- two fields: neither write sees the other
  · rw [writeParts, writeParts]
    have hswap := fun parts => partsOf_after_ne get (Ne.symm hfield) (.arr parts)
    have hswap' := fun parts => partsOf_after_ne get hfield (.arr parts)
    cases hparts : partsOf field get with
    | none =>
        rw [Option.bind_none, Option.map_none, Option.bind_none]
        cases partsOf field' get with
        | none => rfl
        | some parts' =>
            rw [Option.bind_some]
            cases writePart default' j g parts' with
            | none => rfl
            | some parts₁ => simp [writeParts, hswap', hparts]
    | some parts =>
        rw [Option.bind_some]
        cases hparts' : partsOf field' get with
        | none =>
            rw [Option.bind_none, Option.map_none, Option.bind_none]
            cases writePart default i f parts with
            | none => rfl
            | some parts₁ => simp [writeParts, hswap, hparts']
        | some parts' =>
            rw [Option.bind_some]
            cases hf : writePart default i f parts with
            | none =>
                cases writePart default' j g parts' with
                | none => rfl
                | some parts₂ => simp [writeParts, hswap', hparts, hf]
            | some parts₁ =>
                cases hg : writePart default' j g parts' with
                | none => simp [writeParts, hswap, hparts', hg]
                | some parts₂ =>
                    simp only [Option.map_some, Option.bind_some, writeParts, hswap, hswap', hparts,
                      hparts', hf, hg]
                    rw [after_comm get hfield]

/-- What an event does to an item with parts: nothing, or it changes the part of its slot. -/
theorem fieldWrite_parts (pyStr : Json → String) {deltaType : String} {e : DeltaEvent} {type : Json}
    (hname : e.deltaType = some deltaType) (hparts : HasParts type) :
    (∀ get : Fields, (get "type").getD (.str "") = type →
      fieldWrite pyStr deltaType e get = some none) ∨
    ∃ field default index f, (∀ get : Fields, (get "type").getD (.str "") = type →
        fieldWrite pyStr deltaType e get = writeParts field default index f get) ∧
      (field = "content" ∧ default = textPart ∧ index = e.contentIndex.getD 0 ∧
          e.deltaType ≠ some "reasoning_summary_text" ∨
        field = "summary" ∧ default = summaryPart ∧ index = e.summaryIndex.getD 0 ∧
          e.deltaType = some "reasoning_summary_text") := by
  -- an item with parts is no call
  have hcallType : type ≠ .str "function_call" := by
    rintro rfl
    rcases hparts with h | h
    · exact absurd (Json.str.inj h) (by decide)
    · exact absurd (Json.str.inj h) (by decide)
  by_cases hcall : deltaType = "function_call_arguments"
  · refine Or.inl fun get htype => ?_
    simp only [fieldWrite, htype, if_pos hcall, if_neg hcallType]
  · rcases hparts with rfl | rfl
    -- a message: everything but reasoning goes to its content
    · by_cases hskip : deltaType ∈ ["reasoning_text", "reasoning_summary_text"]
      · refine Or.inl fun get htype => ?_
        simp only [fieldWrite, htype, if_neg hcall, if_pos hskip, if_true]
      · refine Or.inr ⟨"content", textPart, _,
          mergePart (keyOf deltaType) (currentVal e.delta) e.delta,
          fun get htype => ?_, Or.inl ⟨rfl, rfl, rfl, ?_⟩⟩
        · simp only [fieldWrite, htype, if_neg hcall, if_neg hskip, if_true]
        · rintro heq
          rw [hname] at heq
          exact hskip (by rw [Option.some.inj heq]; decide)
    -- a reasoning item: summaries and texts go to fields of their own
    · have hmessage : Json.str "reasoning" ≠ .str "message" := by decide
      by_cases hsummary : deltaType = "reasoning_summary_text"
      · refine Or.inr ⟨"summary", summaryPart, _, mergePart "text" (·.getD (.str "")) e.delta,
          fun get htype => ?_, Or.inr ⟨rfl, rfl, rfl, by rw [hname, hsummary]⟩⟩
        simp only [fieldWrite, htype, if_neg hcall, if_neg hmessage, if_pos hsummary, if_true]
      · by_cases htext : deltaType = "reasoning_text"
        · refine Or.inr ⟨"content", textPart, _, mergePart "text" (·.getD (.str "")) e.delta,
            fun get htype => ?_, Or.inl ⟨rfl, rfl, rfl, ?_⟩⟩
          · simp only [fieldWrite, htype, if_neg hcall, if_neg hmessage, if_neg hsummary,
              if_pos htext, if_true]
          · rintro heq
            rw [hname] at heq
            exact hsummary (Option.some.inj heq)
        · refine Or.inl fun get htype => ?_
          simp only [fieldWrite, htype, if_neg hcall, if_neg hmessage, if_neg hsummary,
            if_neg htext, if_true]

theorem type_after {type : Json} {field : String} {v : Json}
    (h : (get "type").getD (.str "") = type) (hfield : field = "content" ∨ field = "summary") :
    ((get.after (some (field, v))) "type").getD (.str "") = type := by
  rcases hfield with rfl | rfl
  · exact h
  · exact h

/-- An event for a part keeps the type of the item. -/
theorem type_fieldStep {type : Json} {get' : Fields} (hname : e.deltaType = some deltaType)
    (hparts : HasParts type) (htype : (get "type").getD (.str "") = type)
    (h : fieldStep pyStr deltaType e get = some get') : ( get' "type").getD (.str "") = type := by
  obtain ⟨write, hwrite, rfl⟩ := Option.map_eq_some_iff.mp h
  rcases fieldWrite_parts pyStr hname hparts with hnone | ⟨field, default, index, f, hfield, hcases⟩
  · rw [hnone get htype] at hwrite
    obtain rfl := Option.some.inj hwrite
    exact htype
  · rw [hfield get htype] at hwrite
    obtain ⟨parts, -, hparts'⟩ := Option.bind_eq_some_iff.mp hwrite
    obtain ⟨parts', -, rfl⟩ := Option.map_eq_some_iff.mp hparts'
    exact type_after htype (hcases.elim (fun h => Or.inl h.1) fun h => Or.inr h.1)

/-- Two events for different parts of one item commute. -/
theorem fieldStep_comm {deltaType' : String} (ha : a.deltaType = some deltaType)
    (hb : b.deltaType = some deltaType') (hparts : HasParts ((get "type").getD (.str "")))
    (hcontent : 0 ≤ a.contentIndex.getD 0 ∧ 0 ≤ b.contentIndex.getD 0)
    (hsummary : 0 ≤ a.summaryIndex.getD 0 ∧ 0 ≤ b.summaryIndex.getD 0) (hne : partOf a ≠ partOf b) :
    (fieldStep pyStr deltaType a get).bind (fieldStep pyStr deltaType' b) =
      (fieldStep pyStr deltaType' b get).bind (fieldStep pyStr deltaType a) := by
  generalize htype : (get "type").getD (.str "") = type at hparts
  have hnothing :
    ∀ {name : String} {e : DeltaEvent}, (∀ get : Fields, (get "type").getD (.str "") = type →
      fieldWrite pyStr name e get = some none) →
        ∀ get' : Fields, ( get' "type").getD (.str "") = type →
      fieldStep pyStr name e get' = some get' := by
    intro name e hnone get' htype'
    rw [fieldStep, hnone get' htype']
    rfl
  rcases fieldWrite_parts pyStr ha hparts with hnone | ⟨field, default, i, f, hfield, hcases⟩
  · -- the first event changes nothing
    rw [hnothing hnone get htype, Option.bind_some]
    cases hstep : fieldStep pyStr deltaType' b get with
    | none => rfl
    | some get' => rw [Option.bind_some, hnothing hnone get' (type_fieldStep hb hparts htype hstep)]
  · rcases fieldWrite_parts pyStr hb hparts with hnone | ⟨field', default', j, g, hfield', hcases'⟩
    -- the second event changes nothing
    · rw [hnothing hnone get htype, Option.bind_some]
      cases hstep : fieldStep pyStr deltaType a get with
      | none => rfl
      | some get' => rw [Option.bind_some,
          hnothing hnone get' (type_fieldStep ha hparts htype hstep)]
    -- both write, and the type they branch on stays the same
    · have hboth : ∀ {name name' : String} {e e' : DeltaEvent}
          {u u' : Fields → Option (Option (String × Json))},
          e.deltaType = some name →
          (∀ get : Fields, (get "type").getD (.str "") = type →
            fieldWrite pyStr name e get = u get) →
          (∀ get : Fields, (get "type").getD (.str "") = type →
            fieldWrite pyStr name' e' get = u' get) →
          (fieldStep pyStr name e get).bind (fieldStep pyStr name' e') =
            ((u get).map get.after).bind fun get => (u' get).map get.after := by
        intro name name' e e' u u' hname hu hu'
        have hfirst : fieldStep pyStr name e get = (u get).map get.after := by
          rw [fieldStep, hu get htype]
        rw [hfirst]
        refine Option.bind_congr fun get' hget' => ?_
        rw [fieldStep, hu' get' (type_fieldStep hname hparts htype (hfirst.trans hget'))]
      rw [hboth ha hfield hfield', hboth hb hfield' hfield]
      rcases hcases with ⟨rfl, rfl, rfl, hnot⟩ | ⟨rfl, rfl, rfl, his⟩
      · rcases hcases' with ⟨rfl, rfl, rfl, hnot'⟩ | ⟨rfl, rfl, rfl, his'⟩
        -- two writes of one field are at different indices
        · refine writeParts_comm hcontent.1 hcontent.2 (fun _ => rfl) fun _ heq => hne ?_
          rw [partOf, partOf, if_neg hnot, if_neg hnot', heq]
        · exact writeParts_comm hcontent.1 hsummary.2 (fun h => absurd h (by decide))
            fun h => absurd h (by decide)
      · rcases hcases' with ⟨rfl, rfl, rfl, hnot'⟩ | ⟨rfl, rfl, rfl, his'⟩
        · exact writeParts_comm hsummary.1 hcontent.2 (fun h => absurd h (by decide))
            fun h => absurd h (by decide)
        · refine writeParts_comm hsummary.1 hsummary.2 (fun _ => rfl) fun _ heq => hne ?_
          rw [partOf, partOf, if_pos his, if_pos his', heq]

/-- Two changes of an item are those of its fields. -/
theorem view_applyToItem_bind {deltaType' : String} (members : Obj) :
    ((applyToItem pyStr deltaType a (.obj members)).bind (applyToItem pyStr deltaType' b)).map
      view =
      ((fieldStep pyStr deltaType a fun k => members.lookup k).bind
        (fieldStep pyStr deltaType' b)).map Sum.inr := by
  rw [applyToItem, fieldStep]
  cases fieldWrite pyStr deltaType a fun k => members.lookup k with
  | none => rfl
  | some write =>
      rw [Option.map_some, Option.map_some, Option.bind_some, Option.bind_some, view_applyToItem,
        lookup_applyWrite]

/-! ## One event after another -/

/-- A delta of an item that is there changes it. -/
theorem handleDelta_existing (hname : e.deltaType = some deltaType)
    (hindex : 0 ≤ itemIndex output e) (hlt : itemIndex output e < output.length) :
    handleDelta pyStr output e =
      Slots.updateAt (itemIndex output e).toNat (applyToItem pyStr deltaType e) output := by
  rw [handleDelta, hname]
  dsimp only
  rw [addMissing_of_lt hlt, if_pos ⟨hindex, hlt⟩]

/-- A delta without a type changes nothing. -/
theorem handleDelta_noType (hname : e.deltaType = none) :
    handleDelta pyStr output e = some output := by
  rw [handleDelta, hname]

/-- The index depends only on the number of items. -/
theorem itemIndex_of_length (e : DeltaEvent) (h : output'.length = output.length) :
    itemIndex output' e = itemIndex output e := by
  rw [itemIndex, itemIndex, h]

theorem length_handleDelta (hindex : 0 ≤ itemIndex output e)
    (hlt : itemIndex output e < output.length) (h : handleDelta pyStr output e = some output') :
    output'.length = output.length := by
  cases hname : e.deltaType with
  | none =>
      rw [handleDelta_noType hname] at h
      rw [Option.some.inj h]
  | some name =>
      rw [handleDelta_existing hname hindex hlt] at h
      exact Slots.length_updateAt h

/-- Of two slots in one item, both are parts. -/
theorem hasParts_of_slots (hindex : itemIndex output a = itemIndex output b)
    (hne : slotOf output a ≠ slotOf output b) : HasParts (typeAt output a) := by
  by_contra hparts
  have hsame : typeAt output a = typeAt output b := by rw [typeAt, typeAt, hindex]
  rw [slotOf, slotOf, hindex, if_neg hparts, if_neg (hsame ▸ hparts)] at hne
  exact hne rfl

/-- An event leaves the other slots where they are. -/
theorem slotOf_handleDelta (ha : 0 ≤ itemIndex output a ∧ itemIndex output a < output.length)
    (hb : 0 ≤ itemIndex output b) (hne : slotOf output a ≠ slotOf output b)
    (h : handleDelta pyStr output a = some output') : slotOf output' b = slotOf output b := by
  have hindex := itemIndex_of_length b (length_handleDelta ha.1 ha.2 h)
  suffices htype : HasParts (typeAt output' b) ↔ HasParts (typeAt output b) by
    rw [slotOf, slotOf, hindex]
    simp only [htype]
  cases hname : a.deltaType with
  | none =>
      rw [handleDelta_noType hname] at h
      rw [Option.some.inj h]
  | some name =>
      rw [handleDelta_existing hname ha.1 ha.2] at h
      by_cases hsame : itemIndex output a = itemIndex output b
      · -- the item has parts, and the event keeps its type
        have hparts := hasParts_of_slots hsame hne
        obtain ⟨item, item', hitem, happly, rfl⟩ := Slots.updateAt_eq_some.mp h
        have hitem' : (output.set (itemIndex output a).toNat item')[(itemIndex output a).toNat]? =
            some item' := List.getElem?_set_self (by omega)
        rw [typeAt, typeAt, hindex, ← hsame, hitem, hitem']
        rw [typeAt, hitem] at hparts
        cases item with
        | obj members =>
            obtain ⟨write, hwrite, rfl⟩ := Option.map_eq_some_iff.mp happly
            have hstep : fieldStep pyStr name a (fun k => members.lookup k) =
                some fun k => (applyWrite write members).lookup k := by
              rw [fieldStep, hwrite, lookup_applyWrite]
              rfl
            have htype := type_fieldStep hname hparts rfl hstep
            dsimp only
            rw [htype]
        | _ => cases happly
      · have hget := Slots.getElem?_updateAt_ne h (j := (itemIndex output b).toNat) (by omega)
        rw [typeAt, typeAt, hindex, hget]

/-- The events after the first are separate where it has been applied. -/
theorem Separate.tail (hsep : Separate output (e :: events))
    (h : handleDelta pyStr output e = some output') : Separate output' events := by
  have he := hsep.existing e List.mem_cons_self
  have hlength := length_handleDelta he.1 he.2 h
  have hnodup := hsep.slots
  rw [List.map_cons, List.nodup_cons] at hnodup
  refine ⟨fun b hb => ?_, fun b hb => hsep.content b (List.mem_cons_of_mem e hb),
    fun b hb => hsep.summary b (List.mem_cons_of_mem e hb), ?_⟩
  · rw [itemIndex_of_length b hlength, hlength]
    exact hsep.existing b (List.mem_cons_of_mem e hb)
  · have hslots : events.map (slotOf output') = events.map (slotOf output) := by
      refine List.map_congr_left fun b hb => ?_
      refine slotOf_handleDelta he (hsep.existing b (List.mem_cons_of_mem e hb)).1 ?_ h
      intro heq
      exact hnodup.1 (heq ▸ List.mem_map_of_mem hb)
    rw [hslots]
    exact hnodup.2

/-- Being separate does not depend on the order. -/
theorem Separate.perm (hsep : Separate output events) (hperm : events.Perm events') :
    Separate output events' :=
  ⟨fun e he => hsep.existing e (hperm.mem_iff.mpr he),
    fun e he => hsep.content e (hperm.mem_iff.mpr he),
    fun e he => hsep.summary e (hperm.mem_iff.mpr he), (hperm.map _).nodup_iff.mp hsep.slots⟩

/-- Two events for different slots commute. -/
theorem handleDelta_comm (hsep : Separate output (a :: b :: events)) :
    SameOutcome ((handleDelta pyStr output a).bind fun out => handleDelta pyStr out b)
      ((handleDelta pyStr output b).bind fun out => handleDelta pyStr out a) := by
  have hmem : b ∈ a :: b :: events := List.mem_cons_of_mem a List.mem_cons_self
  have ha := hsep.existing a List.mem_cons_self
  have hb := hsep.existing b hmem
  cases hname : a.deltaType with
  | none =>
      have hskip : ∀ out, handleDelta pyStr out a = some out := fun out => handleDelta_noType hname
      simp only [hskip, Option.bind_some, Option.bind_fun_some]
      rfl
  | some name =>
      cases hname' : b.deltaType with
      | none =>
          have hskip : ∀ out, handleDelta pyStr out b = some out :=
            fun out => handleDelta_noType hname'
          simp only [hskip, Option.bind_some, Option.bind_fun_some]
          rfl
      | some name' =>
          -- the second event updates its item where the first has left it
          have hboth : ∀ {e e' : DeltaEvent} {n n' : String}, e.deltaType = some n →
              e'.deltaType = some n' → 0 ≤ itemIndex output e ∧ itemIndex output e < output.length →
              0 ≤ itemIndex output e' ∧ itemIndex output e' < output.length →
              ((handleDelta pyStr output e).bind fun out => handleDelta pyStr out e') =
                (Slots.updateAt (itemIndex output e).toNat (applyToItem pyStr n e) output).bind
                  (Slots.updateAt (itemIndex output e').toNat (applyToItem pyStr n' e')) := by
            intro e e' n n' hn hn' he he'
            rw [handleDelta_existing hn he.1 he.2]
            refine Option.bind_congr fun out hout => ?_
            have hlength := Slots.length_updateAt hout
            have hindex := itemIndex_of_length e' hlength
            rw [handleDelta_existing hn' (by omega) (by omega), hindex]
          rw [hboth hname hname' ha hb, hboth hname' hname hb ha]
          have hslots : slotOf output a ≠ slotOf output b := by
            have hnodup := hsep.slots
            rw [List.map_cons, List.map_cons, List.nodup_cons] at hnodup
            exact fun heq => hnodup.1 (heq ▸ List.mem_cons_self)
          by_cases hsame : itemIndex output a = itemIndex output b
          · have hparts := hasParts_of_slots hsame hslots
            rw [← hsame, Slots.updateAt_updateAt, Slots.updateAt_updateAt]
            refine Slots.updateAt_congr rfl fun item item' hitem hitem' _ => ?_
            obtain rfl := Option.some.inj (hitem.symm.trans hitem')
            rw [typeAt, hitem] at hparts
            cases item with
            | obj members =>
                have hparts' : partOf a ≠ partOf b := by
                  intro heq
                  refine hslots ?_
                  have htype : typeAt output b = typeAt output a := by rw [typeAt, typeAt, hsame]
                  rw [slotOf, slotOf, htype, hsame, heq]
                rw [view_applyToItem_bind, view_applyToItem_bind, fieldStep_comm hname hname' hparts
                  ⟨hsep.content a List.mem_cons_self, hsep.content b hmem⟩
                  ⟨hsep.summary a List.mem_cons_self, hsep.summary b hmem⟩ hparts']
            | _ => rfl
          · have hne : (itemIndex output a).toNat ≠ (itemIndex output b).toNat := by omega
            rw [Slots.updateAt_comm hne]
            rfl

/-! ## Any order -/

/-- Outcomes that look the same go on alike. -/
theorem bind_handleDeltas {x y : Option (List Json)} (events : List DeltaEvent)
    (h : SameOutcome x y) :
    SameOutcome (x.bind fun out => handleDeltas pyStr out events)
      (y.bind fun out => handleDeltas pyStr out events) := by
  cases x with
  | none =>
      rw [Option.map_eq_none_iff.mp h.symm]
      rfl
  | some out =>
      obtain ⟨out', rfl, hsame⟩ := Option.map_eq_some_iff.mp h.symm
      exact handleDeltas_congr events hsame.symm

/-- Events for different slots give the same in any order. -/
theorem handleDeltas_perm (hperm : events.Perm events') : ∀ {output : List Json},
    Separate output events →
    SameOutcome (handleDeltas pyStr output events) (handleDeltas pyStr output events') := by
  induction hperm with
  | nil => exact fun _ => rfl
  | @cons e events events' _ ih =>
      intro output hsep
      rw [handleDeltas, handleDeltas, List.foldlM_cons, List.foldlM_cons]
      cases hout : handleDelta pyStr output e with
      | none => rfl
      | some out => exact ih (hsep.tail hout)
  | swap a b events =>
      intro output hsep
      have hpair : ∀ e e', handleDeltas pyStr output (e :: e' :: events) =
          ((handleDelta pyStr output e).bind fun out => handleDelta pyStr out e').bind
            fun out => handleDeltas pyStr out events := by
        intro e e'
        rw [Option.bind_assoc]
        rfl
      rw [hpair, hpair]
      exact bind_handleDeltas events (handleDelta_comm hsep)
  | trans hfirst _ ih₁ ih₂ =>
      intro output hsep
      exact (ih₁ hsep).trans (ih₂ (hsep.perm hfirst))

/-- Joining the adjacent text deltas of one key changes nothing, and neither does the order of
events for different slots. -/
theorem deltas_joined_and_reordered (pyStr : Json → String) (output : List Json) :
    (∀ first rest, getResponseDeltaKey first ≠ none →
      (∀ e ∈ rest, getResponseDeltaKey e = getResponseDeltaKey first) →
      (∀ e ∈ first :: rest, e.delta = .str e.text) →
      ¬ Retypes output first ((first :: rest).map DeltaEvent.text) →
      ∀ out, handleDeltas pyStr output (first :: rest) = some out →
        handleDelta pyStr output (joined first rest) = some out) ∧
    ∀ events events', Separate output events → events.Perm events' →
      SameOutcome (handleDeltas pyStr output events) (handleDeltas pyStr output events') :=
  ⟨fun first rest hsome hkey htext hretype _ h =>
      handleDelta_joined output first rest hsome hkey htext hretype h,
    fun _ _ hsep hperm => handleDeltas_perm hperm hsep⟩

theorem deltaType_congr (h : a.type = b.type) : a.deltaType = b.deltaType := by
  rw [DeltaEvent.deltaType, DeltaEvent.deltaType, h]

/-- Two deltas one after the other. -/
theorem handleDeltas_two {out₁ out₂ : List Json} (h₁ : handleDelta pyStr output a = some out₁)
    (h₂ : handleDelta pyStr out₁ b = some out₂) : handleDeltas pyStr output [a, b] = some out₂ := by
  rw [handleDeltas, List.foldlM_cons, h₁]
  show (handleDelta pyStr out₁ b).bind some = some out₂
  rw [h₂, Option.bind_some]

/-- A text delta for a part of the first item. -/
def textDelta (content : ℤ) (s : String) : DeltaEvent :=
  { type := "response.output_text.delta", itemId := .str "m", outputIndex := some 0,
    contentIndex := some content, summaryIndex := none, delta := .str s }

/-- A message with texts. -/
def messageItem (texts : List String) : Json :=
  .obj [("type", .str "message"),
    ("content", .arr (texts.map fun s => .obj [("type", .str "text"), ("text", .str s)]))]

/-- Two texts of one part, and of two. -/
theorem deltas_joined_and_reordered_message :
    handleDelta (fun _ => "") [messageItem []] (joined (textDelta 0 "a") [textDelta 0 "b"]) =
        some [messageItem ["ab"]] ∧
      SameOutcome (handleDeltas (fun _ => "") [messageItem []] [textDelta 0 "a", textDelta 1 "b"])
        (handleDeltas (fun _ => "") [messageItem []] [textDelta 1 "b", textDelta 0 "a"]) := by
  constructor
  · have hname : ∀ t, (textDelta 0 t).deltaType = some "output_text" := by
      intro t
      rw [deltaType_congr (a := textDelta 0 t) (b := textDelta 0 "") rfl]
      decide
    have hstep : ∀ s t, handleDelta (fun _ => "") [messageItem s] (textDelta 0 t) =
        Slots.updateAt 0 (applyToItem (fun _ => "") "output_text" (textDelta 0 t))
          [messageItem s] :=
      fun s t => handleDelta_existing (hname t) (le_refl 0) Int.zero_lt_one
    refine (deltas_joined_and_reordered (fun _ => "") [messageItem []]).1 (textDelta 0 "a")
      [textDelta 0 "b"] (by decide) ?_ ?_ ?_ _
      (handleDeltas_two ((hstep [] "a").trans rfl) ((hstep ["a"] "b").trans rfl))
    · exact List.forall_mem_singleton.mpr rfl
    · exact List.forall_mem_cons.mpr ⟨rfl, List.forall_mem_singleton.mpr rfl⟩
    · rintro ⟨h, -⟩
      exact absurd h (by decide)
  · refine (deltas_joined_and_reordered (fun _ => "") [messageItem []]).2 _ _ ⟨?_, ?_, ?_, ?_⟩
      (List.Perm.swap ..)
    · simp [textDelta, itemIndex, messageItem]
    · simp [textDelta]
    · simp [textDelta]
    · decide

/-- A delta for the type of the first item. -/
def typeDelta (s : String) : DeltaEvent :=
  { type := "response.type.delta", itemId := .null, outputIndex := some 0, contentIndex := none,
    summaryIndex := none, delta := .str s }

def argumentsDelta (content : ℤ) (s : String) : DeltaEvent :=
  { type := "response.function_call_arguments.delta", itemId := .null, outputIndex := some 0,
    contentIndex := some content, summaryIndex := none, delta := .str s }

def callItem (arguments : String) : Json :=
  .obj [("type", .str "function_call"), ("arguments", .str arguments)]

/-- A type completed by the first delta sends the second to a part; the arguments of a call are
one slot, whatever part an event names. -/
theorem deltas_retype_and_collide :
    (getResponseDeltaKey (typeDelta "x") = getResponseDeltaKey (typeDelta "age") ∧
      ∃ out, handleDeltas (fun _ => "") [.obj [("type", .str "mess")]]
          [typeDelta "age", typeDelta "x"] = some out ∧
        handleDelta (fun _ => "") [.obj [("type", .str "mess")]]
          (joined (typeDelta "age") [typeDelta "x"]) ≠ some out) ∧
    (handleDeltas (fun _ => "") [callItem ""] [argumentsDelta 0 "a", argumentsDelta 1 "b"] =
        some [callItem "ab"] ∧
      handleDeltas (fun _ => "") [callItem ""] [argumentsDelta 1 "b", argumentsDelta 0 "a"] =
        some [callItem "ba"]) := by
  have hname : ∀ t, (typeDelta t).deltaType = some "type" := by
    intro t
    rw [deltaType_congr (a := typeDelta t) (b := typeDelta "") rfl]
    decide
  have hname' : ∀ i t, (argumentsDelta i t).deltaType = some "function_call_arguments" := by
    intro i t
    rw [deltaType_congr (a := argumentsDelta i t) (b := argumentsDelta 0 "") rfl]
    decide
  have htype : ∀ members t, handleDelta (fun _ => "") [.obj members] (typeDelta t) =
      Slots.updateAt 0 (applyToItem (fun _ => "") "type" (typeDelta t)) [.obj members] :=
    fun members t => handleDelta_existing (hname t) (le_refl 0) Int.zero_lt_one
  have hcall : ∀ s i t, handleDelta (fun _ => "") [callItem s] (argumentsDelta i t) =
      Slots.updateAt 0 (applyToItem (fun _ => "") "function_call_arguments" (argumentsDelta i t))
        [callItem s] := fun s i t => handleDelta_existing (hname' i t) (le_refl 0) Int.zero_lt_one
  refine ⟨⟨by decide, [.obj [("type", .str "message"),
    ("content", .arr [.obj [("type", .str "textx"), ("text", .str "")]])]], ?_, ?_⟩, ?_, ?_⟩
  · exact handleDeltas_two ((htype [("type", .str "mess")] "age").trans rfl)
      ((htype [("type", .str "message")] "x").trans rfl)
  · rw [show joined (typeDelta "age") [typeDelta "x"] = typeDelta "agex" by decide, htype]
    decide
  · exact handleDeltas_two ((hcall "" 0 "a").trans rfl) ((hcall "a" 1 "b").trans rfl)
  · exact handleDeltas_two ((hcall "" 1 "b").trans rfl) ((hcall "b" 0 "a").trans rfl)

end OpenWebUI.Streaming
