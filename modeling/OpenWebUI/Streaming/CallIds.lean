import OpenWebUI.Streaming.ToolCalls

/-! # Call ids of their own

A new call keeps the id it came with unless an item has it already, so ids clash only within
a chunk: the calls of a chunk get their items once all its deltas are read. Where no chunk
brings one id for two new indices, each index has one call and one item; else two calls share
an item.
-/

namespace OpenWebUI.Streaming

open Py

variable {s : Supply} {taken prior : List String} {calls : List CollectedCall} {d : ToolDelta}
  {deltas : List ToolDelta} {made : ℕ}

/-! ## The ids of the new calls -/

/-- The ids of new calls, and how many ids are made then. -/
def assignIds (s : Supply) (taken : List String) : ℕ → List ToolDelta → List String × ℕ
  | made, [] => ([], made)
  | made, d :: ds =>
    let assigned := assignIds s taken (callIdOf s taken made d).2 ds
    ((callIdOf s taken made d).1 :: assigned.1, assigned.2)

/-- A delta of a known index adds no call. -/
theorem collectDelta_old (s : Supply) (taken : List String) (made : ℕ)
    (h : d.index ∈ calls.map CollectedCall.index) :
    (collectDelta s taken (calls, made) d).1.map CollectedCall.index =
      calls.map CollectedCall.index ∧
    (collectDelta s taken (calls, made) d).1.map CollectedCall.id = calls.map CollectedCall.id ∧
    (collectDelta s taken (calls, made) d).2 = made := by
  have hany : calls.any (·.index = d.index) = true := by
    obtain ⟨call, hcall, heq⟩ := List.mem_map.mp h
    exact List.any_eq_true.mpr ⟨call, hcall, decide_eq_true heq⟩
  rw [collectDelta, if_pos hany]
  dsimp only
  rw [List.map_map, List.map_map]
  refine ⟨List.map_congr_left fun call _ => ?_, List.map_congr_left fun call _ => ?_, rfl⟩
  · simp only [Function.comp_apply]
    split_ifs <;> rfl
  · simp only [Function.comp_apply]
    split_ifs <;> rfl

/-- A delta of a new index starts a call. -/
theorem collectDelta_new (h : d.index ∉ calls.map CollectedCall.index) :
    collectDelta s taken (calls, made) d =
      (calls ++ [⟨d.index, (callIdOf s taken made d).1, d.name.getD "",
        fragmentText s.dumps d.arguments⟩],
        (callIdOf s taken made d).2) := by
  rw [collectDelta, if_neg]
  intro hany
  obtain ⟨call, hcall, heq⟩ := List.any_eq_true.mp hany
  exact h (List.mem_map.mpr ⟨call, hcall, of_decide_eq_true heq⟩)

/-- The deltas of a chunk add the ids of the calls they introduce. -/
theorem foldl_collectDelta_ids (s : Supply) (taken : List String) (deltas : List ToolDelta) :
    ∀ (calls : List CollectedCall) (made : ℕ),
    let acc := deltas.foldl (collectDelta s taken) (calls, made)
    let assigned := assignIds s taken made (introduces (calls.map CollectedCall.index) deltas)
    acc.1.map CollectedCall.id = calls.map CollectedCall.id ++ assigned.1 ∧ acc.2 = assigned.2 := by
  induction deltas with
  | nil => exact fun calls made => ⟨(List.append_nil _).symm, rfl⟩
  | cons d deltas ih =>
      intro calls made
      rw [List.foldl_cons, introduces]
      by_cases hd : d.index ∈ calls.map CollectedCall.index
      · obtain ⟨hindex, hid, hmade⟩ := collectDelta_old s taken made hd
        generalize collectDelta s taken (calls, made) d = next at hindex hid hmade
        obtain ⟨calls', made'⟩ := next
        have hnext := ih calls' made'
        dsimp only at hindex hid hmade
        rw [hindex, hid, hmade] at hnext
        rw [if_pos hd, hmade]
        exact hnext
      · have hnext := ih (calls ++ [⟨d.index, (callIdOf s taken made d).1, d.name.getD "",
          fragmentText s.dumps d.arguments⟩]) (callIdOf s taken made d).2
        have hseen : introduces ((calls ++ [(⟨d.index, (callIdOf s taken made d).1, d.name.getD "",
            fragmentText s.dumps d.arguments⟩ : CollectedCall)]).map CollectedCall.index) deltas =
              introduces (d.index :: calls.map CollectedCall.index) deltas := by
          refine introduces_congr deltas fun index => ?_
          rw [List.map_append, List.mem_append, List.mem_cons, Or.comm]
          simp
        dsimp only at hnext
        rw [hseen, List.map_append, List.append_assoc] at hnext
        rw [collectDelta_new hd, if_neg hd]
        exact hnext

/-- What the ids of new calls are: made, or given and not taken. -/
structure Assigned (s : Supply) (taken : List String) (made : ℕ) (deltas : List ToolDelta)
    (assigned : List String × ℕ) : Prop where
  le : made ≤ assigned.2
  origin : ∀ id ∈ assigned.1, (∃ n, made ≤ n ∧ n < assigned.2 ∧ id = s.fresh n) ∨
    (id ∈ givenIds deltas ∧ id ∉ taken)
  kept : ∀ id ∈ givenIds deltas, id ∉ taken → id ∈ assigned.1
  nodup : assigned.1.Nodup ↔ ((givenIds deltas).filter fun id => id ∉ taken).Nodup

theorem givenIds_cons (d : ToolDelta) (deltas : List ToolDelta) :
    givenIds (d :: deltas) = d.givenId.toList ++ givenIds deltas := by
  rw [givenIds, List.filterMap_cons]
  cases d.givenId <;> rfl

/-- An id is made, or the given one is kept. -/
theorem callIdOf_cases (s : Supply) (taken : List String) (made : ℕ) (d : ToolDelta) :
    (callIdOf s taken made d = (s.fresh made, made + 1) ∧ ∀ id, d.givenId = some id → id ∈ taken) ∨
    ∃ id, d.givenId = some id ∧ id ∉ taken ∧ callIdOf s taken made d = (id, made) := by
  rw [callIdOf]
  cases hgiven : d.givenId with
  | none => exact Or.inl ⟨rfl, fun id h => by cases h⟩
  | some id =>
      dsimp only
      split_ifs with htaken
      · exact Or.inl ⟨rfl, fun id' h => Option.some.inj h ▸ htaken⟩
      · exact Or.inr ⟨id, rfl, htaken, rfl⟩

/-- The ids of the new deltas are the given ones or fresh. -/
theorem assigned_assignIds (taken : List String) (hinj : Function.Injective s.fresh)
    (deltas : List ToolDelta) :
    ∀ (made : ℕ), (∀ n, s.fresh n ∉ givenIds deltas) →
      Assigned s taken made deltas (assignIds s taken made deltas) := by
  induction deltas with
  | nil =>
      intro made _
      refine ⟨le_refl made, ?_, ?_, iff_of_true List.nodup_nil List.nodup_nil⟩
      · intro id hid
        cases hid
      · intro id hid
        cases hid
  | cons d deltas ih =>
      intro made hfresh
      rw [givenIds_cons] at hfresh
      have htail : ∀ n, s.fresh n ∉ givenIds deltas :=
        fun n hn => hfresh n (List.mem_append_right _ hn)
      rcases callIdOf_cases s taken made d with ⟨hid, htaken⟩ | ⟨id, hgiven, htaken, hid⟩
      · -- an id is made
        have h := ih (made + 1) htail
        rw [assignIds, hid]
        dsimp only
        have hnew : s.fresh made ∉ (assignIds s taken (made + 1) deltas).1 := by
          intro hmem
          rcases h.origin _ hmem with ⟨n, hle, -, heq⟩ | ⟨hgiven, -⟩
          · have := hinj heq
            omega
          · exact htail made hgiven
        have hle := h.le
        refine ⟨by dsimp only; omega, ?_, ?_, ?_⟩
        · intro id hmem
          rcases List.mem_cons.mp hmem with rfl | hmem
          · exact Or.inl ⟨made, le_refl made, by dsimp only; omega, rfl⟩
          · rcases h.origin id hmem with ⟨n, hn, hlt, heq⟩ | ⟨hgiven, hnot⟩
            · exact Or.inl ⟨n, by omega, hlt, heq⟩
            · refine Or.inr ⟨?_, hnot⟩
              rw [givenIds_cons]
              exact List.mem_append_right _ hgiven
        · intro id hmem hnot
          rw [givenIds_cons] at hmem
          rcases List.mem_append.mp hmem with hmem | hmem
          · exact absurd (htaken id (Option.mem_toList.mp hmem)) hnot
          · exact List.mem_cons_of_mem _ (h.kept id hmem hnot)
        · have hfilter : d.givenId.toList.filter (fun id => id ∉ taken) = [] := by
            rw [List.filter_eq_nil_iff]
            intro id hmem hnot
            exact of_decide_eq_true hnot (htaken id (Option.mem_toList.mp hmem))
          rw [List.nodup_cons, givenIds_cons, List.filter_append, hfilter, List.nil_append, h.nodup]
          exact and_iff_right hnew
      · -- the given id is kept
        have h := ih made htail
        have hne : ∀ n, s.fresh n ≠ id := by
          intro n heq
          refine hfresh n (List.mem_append_left _ ?_)
          rw [hgiven, heq]
          exact List.mem_singleton_self id
        rw [assignIds, hid]
        dsimp only
        refine ⟨h.le, ?_, ?_, ?_⟩
        · intro id' hmem
          rw [givenIds_cons, hgiven]
          rcases List.mem_cons.mp hmem with rfl | hmem
          · exact Or.inr ⟨List.mem_cons_self, htaken⟩
          · rcases h.origin id' hmem with hmade | ⟨hgiven', hnot⟩
            · exact Or.inl hmade
            · exact Or.inr ⟨List.mem_cons_of_mem _ hgiven', hnot⟩
        · intro id' hmem hnot
          rw [givenIds_cons, hgiven] at hmem
          rcases List.mem_cons.mp hmem with rfl | hmem
          · exact List.mem_cons_self
          · exact List.mem_cons_of_mem _ (h.kept id' hmem hnot)
        · have hfilter : (givenIds (d :: deltas)).filter (fun id => id ∉ taken) =
              id :: (givenIds deltas).filter fun id => id ∉ taken := by
            rw [givenIds_cons, hgiven]
            exact List.filter_cons_of_pos (decide_eq_true htaken)
          rw [hfilter, List.nodup_cons, List.nodup_cons, h.nodup]
          refine and_congr_left fun _ => not_congr ?_
          rw [List.mem_filter]
          constructor
          · intro hmem
            rcases h.origin id hmem with ⟨n, -, -, heq⟩ | ⟨hgiven', hnot⟩
            · exact absurd heq.symm (hne n)
            · exact ⟨hgiven', decide_eq_true hnot⟩
          · exact fun hmem => h.kept id hmem.1 htaken

/-! ## Items -/

theorem modifyItem_append {id : String} {f : CallItem → CallItem} {front rest : List CallItem}
    {item : CallItem} (hfront : id ∉ front.map CallItem.callId) (hid : item.callId = id) :
    modifyItem id f (front ++ item :: rest) = front ++ f item :: rest := by
  induction front with
  | nil => exact if_pos hid
  | cons first front ih =>
      rw [List.map_cons, List.mem_cons, not_or] at hfront
      rw [List.cons_append, modifyItem, if_neg fun h => hfront.1 h.symm, ih hfront.2,
        List.cons_append]

/-- Modifying an item keeps the ids. -/
theorem callIds_modifyItem {id : String} {f : CallItem → CallItem}
    (hf : ∀ item, (f item).callId = item.callId) (items : List CallItem) :
    (modifyItem id f items).map CallItem.callId = items.map CallItem.callId := by
  induction items with
  | nil => rfl
  | cons item items ih =>
      rw [modifyItem]
      split_ifs
      · rw [List.map_cons, List.map_cons, hf]
      · rw [List.map_cons, List.map_cons, ih]

/-- Every call has an item. -/
theorem mem_emitCalls (calls : List CollectedCall) (id : String) : ∀ items : List CallItem,
    id ∈ (calls.foldl emitCall items).map CallItem.callId ↔
      id ∈ items.map CallItem.callId ∨ id ∈ calls.map CollectedCall.id := by
  induction calls with
  | nil => simp
  | cons call calls ih =>
      intro items
      have hemit : id ∈ (emitCall items call).map CallItem.callId ↔
          id ∈ items.map CallItem.callId ∨ id = call.id := by
        rw [emitCall]
        split_ifs with hmem
        · have hsame : ∀ item : CallItem, ({ item with
              name := call.name, arguments := call.arguments, status :=
                .inProgress } : CallItem).callId =
                item.callId := fun _ => rfl
          rw [callIds_modifyItem hsame]
          constructor
          · exact Or.inl
          · rintro (h | rfl)
            · exact h
            · exact hmem
        · rw [List.map_append, List.mem_append]
          simp
      rw [List.foldl_cons, ih, hemit, List.map_cons, List.mem_cons, or_assoc]

/-- Calls with ids of their own have an item each. -/
theorem emitCalls_eq (calls : List CollectedCall) : ∀ (front stale : List CallItem),
    (front.map CallItem.callId ++ calls.map CollectedCall.id).Nodup →
    stale.map CallItem.callId <+: calls.map CollectedCall.id →
    calls.foldl emitCall (front ++ stale) = front ++ calls.map (·.item .inProgress) := by
  induction calls with
  | nil =>
      intro front stale _ hstale
      rw [List.map_nil, List.prefix_nil, List.map_eq_nil_iff] at hstale
      rw [hstale]
      rfl
  | cons call calls ih =>
      intro front stale hnodup hstale
      have hfront : call.id ∉ front.map CallItem.callId := fun hmem =>
        (List.nodup_append.mp hnodup).2.2 _ hmem _ List.mem_cons_self rfl
      have hnext : ((front ++ [call.item .inProgress]).map CallItem.callId ++
          calls.map CollectedCall.id).Nodup := by
        rw [List.map_append, List.append_assoc]
        exact hnodup
      have hemit : ∃ stale', stale'.map CallItem.callId <+: calls.map CollectedCall.id ∧
          emitCall (front ++ stale) call = front ++ [call.item .inProgress] ++ stale' := by
        cases stale with
        | nil =>
            refine ⟨[], List.nil_prefix, ?_⟩
            rw [List.append_nil, emitCall, if_neg hfront, List.append_nil]
            rfl
        | cons item stale =>
            obtain ⟨hid, hstale⟩ := List.cons_prefix_cons.mp hstale
            refine ⟨stale, hstale, ?_⟩
            have hmem : call.id ∈ (front ++ item :: stale).map CallItem.callId := by
              rw [List.map_append, List.map_cons, hid]
              exact List.mem_append_right _ List.mem_cons_self
            rw [emitCall, if_pos hmem, modifyItem_append hfront hid, List.append_assoc,
              CollectedCall.item, ← hid]
            rfl
      obtain ⟨stale', hstale', hemit⟩ := hemit
      rw [List.foldl_cons, hemit, ih _ _ hnext hstale', List.append_assoc]
      rfl

/-- Where the ids are distinct, every call's own item is completed. -/
theorem completeCalls_eq (calls : List CollectedCall) : ∀ (front : List CallItem),
    (front.map CallItem.callId ++ calls.map CollectedCall.id).Nodup →
    calls.foldl completeCall (front ++ calls.map (·.item .inProgress)) =
      front ++ calls.map (·.item .completed) := by
  induction calls with
  | nil => exact fun _ _ => rfl
  | cons call calls ih =>
      intro front hnodup
      have hfront : call.id ∉ front.map CallItem.callId := fun hmem =>
        (List.nodup_append.mp hnodup).2.2 _ hmem _ List.mem_cons_self rfl
      have hnext : ((front ++ [call.item .completed]).map CallItem.callId ++
          calls.map CollectedCall.id).Nodup := by
        rw [List.map_append, List.append_assoc]
        exact hnodup
      have hcomplete : completeCall (front ++ (call :: calls).map (·.item .inProgress)) call =
          front ++ [call.item .completed] ++ calls.map (·.item .inProgress) := by
        rw [completeCall, List.map_cons, modifyItem_append hfront rfl, List.append_assoc]
        rfl
      rw [List.foldl_cons, hcomplete, ih _ hnext, List.append_assoc]
      rfl

/-! ## Chunk by chunk -/

/-- What holds once some chunks are read. -/
structure ReadChunks (s : Supply) (prior : List String) (chunks : List (List ToolDelta))
    (acc : Collected) : Prop where
  view : acc.calls.map CollectedCall.view = sent s.dumps chunks.flatten
  items : ∀ id, id ∈ acc.items.map CallItem.callId ↔ id ∈ acc.calls.map CollectedCall.id
  origin : ∀ id ∈ acc.calls.map CollectedCall.id, (∃ n < acc.made, id = s.fresh n) ∨
    id ∈ givenIds (introduces [] chunks.flatten)
  kept : ∀ id ∈ givenIds (introduces [] chunks.flatten),
    id ∈ prior ∨ id ∈ acc.calls.map CollectedCall.id
  new : ∀ id ∈ acc.calls.map CollectedCall.id, id ∉ prior
  nodup : (acc.calls.map CollectedCall.id).Nodup ↔ DistinctInChunks prior chunks
  emitted : (acc.calls.map CollectedCall.id).Nodup → acc.items = acc.calls.map (·.item .inProgress)

theorem distinctInChunks_snoc {chunks : List (List ToolDelta)} {chunk : List ToolDelta} :
    DistinctInChunks prior (chunks ++ [chunk]) ↔ DistinctInChunks prior chunks ∧
      ((givenIds (introduces (chunks.flatten.map ToolDelta.index) chunk)).filter fun id =>
        id ∉ prior ++ givenIds (introduces [] chunks.flatten)).Nodup := by
  constructor
  · intro h
    refine ⟨fun before chunk' after heq => h before chunk' (after ++ [chunk]) ?_,
      h chunks chunk [] rfl⟩
    rw [heq, List.append_assoc]
    rfl
  · rintro ⟨hchunks, hchunk⟩ before chunk' after heq
    rcases List.eq_nil_or_concat after with rfl | ⟨after', last, rfl⟩
    · obtain ⟨rfl, hlast⟩ := List.append_inj' heq rfl
      obtain rfl := (List.cons.inj hlast).1
      exact hchunk
    · rw [List.concat_eq_append, ← List.cons_append, ← List.append_assoc] at heq
      exact hchunks before chunk' after' (List.append_inj' heq rfl).1

theorem givenIds_append (deltas more : List ToolDelta) :
    givenIds (deltas ++ more) = givenIds deltas ++ givenIds more := List.filterMap_append

/-- Before the first chunk nothing is collected. -/
theorem readChunks_empty : ReadChunks s prior [] Collected.empty where
  view := rfl
  items := fun _ => Iff.rfl
  origin := fun id hid => by cases hid
  kept := fun id hid => by cases hid
  new := fun id hid => by cases hid
  nodup := by
    refine iff_of_true List.nodup_nil fun before chunk after heq => ?_
    cases before <;> cases heq
  emitted := fun _ => rfl

/-- The collected calls have the indices of the deltas. -/
theorem ReadChunks.indices {chunks : List (List ToolDelta)} {acc : Collected}
    (h : ReadChunks s prior chunks acc) :
    acc.calls.map CollectedCall.index = indices chunks.flatten := by
  have hfst := congrArg (List.map Prod.fst) h.view
  rw [sent, List.map_map, List.map_map] at hfst
  exact hfst.trans (List.map_id _)

/-- What a chunk that is not empty brings to the calls of the chunks before it: calls with the ids
`ids`, and items. -/
structure Brings (s : Supply) (prior : List String) (chunks : List (List ToolDelta))
    (chunk : List ToolDelta)
    (acc next : Collected) (ids : List String) : Prop where
  appended : next.calls.map CollectedCall.id = acc.calls.map CollectedCall.id ++ ids
  view : next.calls.map CollectedCall.view = sent s.dumps (chunks.flatten ++ chunk)
  items : next.items = next.calls.foldl emitCall acc.items
  assigned : Assigned s (prior ++ acc.items.map CallItem.callId) acc.made
    (introduces (chunks.flatten.map ToolDelta.index) chunk) (ids, next.made)

section Brings

variable {chunks : List (List ToolDelta)} {chunk : List ToolDelta} {acc next : Collected}
    {ids : List String}

theorem introduces_snoc : introduces [] (chunks ++ [chunk]).flatten =
    introduces [] chunks.flatten ++ introduces (chunks.flatten.map ToolDelta.index) chunk := by
  rw [List.flatten_append, List.flatten_singleton, introduces_append, List.nil_append]

/-- Ids that no delta gives are given by none that introduces a call. -/
theorem notMem_introduces {id : String} {seen : List ℤ} {deltas : List ToolDelta}
    (h : id ∉ givenIds deltas) :
    id ∉ givenIds (introduces seen deltas) :=
  fun hmem => h (List.Sublist.subset
    (List.Sublist.filterMap _ (introduces_sublist deltas seen)) hmem)

/-- The ids taken are those before the stream and those of the calls. -/
theorem ReadChunks.mem_taken (h : ReadChunks s prior chunks acc) (id : String) :
    id ∈ prior ++ acc.items.map CallItem.callId ↔
      id ∈ prior ∨ id ∈ acc.calls.map CollectedCall.id := by
  rw [List.mem_append, h.items]

/-- One more chunk brings the ids of the calls it starts. -/
theorem ReadChunks.brings (h : ReadChunks s prior chunks acc) (hinj : Function.Injective s.fresh)
    (hgiven : ∀ n, s.fresh n ∉ givenIds chunk) (hnil : chunk ≠ []) :
    ∃ ids, Brings s prior chunks chunk acc (collectChunk s prior acc chunk) ids := by
  have hseen : introduces (acc.calls.map CollectedCall.index) chunk =
      introduces (chunks.flatten.map ToolDelta.index) chunk :=
    introduces_congr chunk fun index => by rw [h.indices, mem_indices]
  obtain ⟨hids, hmade⟩ :=
    foldl_collectDelta_ids s (prior ++ acc.items.map CallItem.callId) chunk acc.calls acc.made
  have hview := foldl_collectDelta_view (prior ++ acc.items.map CallItem.callId) chunk
    (acc.calls, acc.made) h.view
  rw [hseen] at hids hmade
  rw [collectChunk, if_neg (by simpa using hnil)]
  refine ⟨_, ⟨hids, hview, rfl, ?_⟩⟩
  have hassigned := assigned_assignIds (prior ++ acc.items.map CallItem.callId) hinj
    (introduces (chunks.flatten.map ToolDelta.index) chunk) acc.made fun n =>
      notMem_introduces (hgiven n)
  dsimp only at hmade ⊢
  rw [hmade]
  exact hassigned

/-- The new ids are none of those before. -/
theorem Brings.nodup_ids (hb : Brings s prior chunks chunk acc next ids)
    (h : ReadChunks s prior chunks acc) (hinj : Function.Injective s.fresh)
    (hgiven : ∀ n, s.fresh n ∉ givenIds chunks.flatten) :
    (next.calls.map CollectedCall.id).Nodup ↔ (acc.calls.map CollectedCall.id).Nodup ∧
      ids.Nodup := by
  have hdisjoint : ∀ id ∈ acc.calls.map CollectedCall.id, ∀ id' ∈ ids, id ≠ id' := by
    rintro id hid id' hid' rfl
    rcases hb.assigned.origin id hid' with ⟨n, hle, -, rfl⟩ | ⟨-, hnot⟩
    · rcases h.origin _ hid with ⟨m, hlt, heq⟩ | hmem
      · have := hinj heq
        omega
      · exact notMem_introduces (hgiven n) hmem
    · exact hnot ((h.mem_taken id).mpr (Or.inr hid))
  rw [hb.appended, List.nodup_append]
  exact ⟨fun hall => ⟨hall.1, hall.2.1⟩, fun hboth => ⟨hboth.1, hboth.2, hdisjoint⟩⟩

/-- The ids that the items have are those of earlier first deltas, as far as they were given. -/
theorem ReadChunks.filter_taken (h : ReadChunks s prior chunks acc)
    (hgiven : ∀ n, s.fresh n ∉ givenIds chunk) :
    (givenIds (introduces (chunks.flatten.map ToolDelta.index) chunk)).filter
        (fun id => id ∉ prior ++ acc.items.map CallItem.callId) =
      (givenIds (introduces (chunks.flatten.map ToolDelta.index) chunk)).filter
        fun id => id ∉ prior ++ givenIds (introduces [] chunks.flatten) := by
  refine List.filter_congr fun id hid => decide_eq_decide.mpr (not_congr ?_)
  rw [h.mem_taken, List.mem_append]
  constructor
  · rintro (hmem | hmem)
    · exact Or.inl hmem
    · rcases h.origin id hmem with ⟨n, -, rfl⟩ | hmem
      · exact absurd hid (notMem_introduces (hgiven n))
      · exact Or.inr hmem
  · rintro (hmem | hmem)
    · exact Or.inl hmem
    · exact h.kept id hmem

/-- One more chunk is read. -/
theorem Brings.readChunks (hb : Brings s prior chunks chunk acc next ids)
    (h : ReadChunks s prior chunks acc) (hinj : Function.Injective s.fresh)
    (hfresh : ∀ n, s.fresh n ∉ givenIds (chunks.flatten ++ chunk))
    (hprior : ∀ n, s.fresh n ∉ prior) : ReadChunks s prior (chunks ++ [chunk]) next := by
  have hgiven : ∀ n, s.fresh n ∉ givenIds chunks.flatten ∧ s.fresh n ∉ givenIds chunk := by
    intro n
    rw [← not_or, ← List.mem_append, ← givenIds_append]
    exact hfresh n
  have hnodup := hb.nodup_ids h hinj fun n => (hgiven n).1
  constructor
  case view =>
    rw [List.flatten_append, List.flatten_singleton]
    exact hb.view
  case items =>
    -- an item is shown as soon as its call is collected
    intro id
    rw [hb.items, mem_emitCalls, h.items, hb.appended, List.mem_append]
    tauto
  case origin =>
    intro id hid
    rw [hb.appended] at hid
    rw [introduces_snoc, givenIds_append]
    -- an id known before, or one of this chunk
    rcases List.mem_append.mp hid with hid | hid
    · rcases h.origin id hid with ⟨n, hlt, heq⟩ | hmem
      · exact Or.inl ⟨n, lt_of_lt_of_le hlt hb.assigned.le, heq⟩
      · exact Or.inr (List.mem_append_left _ hmem)
    · rcases hb.assigned.origin id hid with ⟨n, -, hlt, heq⟩ | ⟨hmem, -⟩
      · exact Or.inl ⟨n, hlt, heq⟩
      · exact Or.inr (List.mem_append_right _ hmem)
  case kept =>
    intro id hid
    rw [introduces_snoc, givenIds_append] at hid
    rw [hb.appended, List.mem_append]
    rcases List.mem_append.mp hid with hid | hid
    · exact (h.kept id hid).imp_right Or.inl
    · by_cases hmem : id ∈ prior ++ acc.items.map CallItem.callId
      · exact ((h.mem_taken id).mp hmem).imp_right Or.inl
      · exact Or.inr (Or.inr (hb.assigned.kept id hid hmem))
  case new =>
    intro id hid
    rw [hb.appended] at hid
    rcases List.mem_append.mp hid with hid | hid
    · exact h.new id hid
    · rcases hb.assigned.origin id hid with ⟨n, -, -, rfl⟩ | ⟨-, hnot⟩
      · exact hprior n
      · exact fun hmem => hnot ((h.mem_taken id).mpr (Or.inl hmem))
  case nodup =>
    rw [hnodup, h.nodup, hb.assigned.nodup, h.filter_taken fun n => (hgiven n).2,
      distinctInChunks_snoc]
  case emitted =>
    -- every id is new, so the items follow the calls
    intro hall
    have hold := h.emitted (hnodup.mp hall).1
    have hstale : acc.items.map CallItem.callId <+: next.calls.map CollectedCall.id := by
      rw [hold, List.map_map, hb.appended]
      exact List.prefix_append _ _
    rw [hb.items]
    exact emitCalls_eq next.calls [] acc.items hall hstale

/-- An empty chunk changes nothing. -/
theorem ReadChunks.snoc_nil (h : ReadChunks s prior chunks acc) :
    ReadChunks s prior (chunks ++ [[]]) acc := by
  have hflatten : (chunks ++ [[]]).flatten = chunks.flatten := by
    rw [List.flatten_append, List.flatten_singleton, List.append_nil]
  refine ⟨hflatten ▸ h.view, h.items, hflatten ▸ h.origin, hflatten ▸ h.kept, h.new, ?_, h.emitted⟩
  rw [h.nodup, distinctInChunks_snoc]
  exact (and_iff_left List.nodup_nil).symm

/-- One more chunk. -/
theorem readChunks_snoc (hinj : Function.Injective s.fresh)
    (hfresh : ∀ n, s.fresh n ∉ givenIds (chunks.flatten ++ chunk)) (hprior : ∀ n, s.fresh n ∉ prior)
    (h : ReadChunks s prior chunks acc) :
    ReadChunks s prior (chunks ++ [chunk]) (collectChunk s prior acc chunk) := by
  by_cases hnil : chunk = []
  · subst hnil
    exact h.snoc_nil
  · have hgiven : ∀ n, s.fresh n ∉ givenIds chunk := by
      intro n hn
      refine hfresh n ?_
      rw [givenIds_append]
      exact List.mem_append_right _ hn
    obtain ⟨ids, hb⟩ := h.brings hinj hgiven hnil
    exact hb.readChunks h hinj hfresh hprior

end Brings

/-- All the chunks are read. -/
theorem readChunks_foldl (hinj : Function.Injective s.fresh) (hprior : ∀ n, s.fresh n ∉ prior)
    (more : List (List ToolDelta)) : ∀ {chunks : List (List ToolDelta)} {acc : Collected},
    (∀ n, s.fresh n ∉ givenIds (chunks ++ more).flatten) → ReadChunks s prior chunks acc →
    ReadChunks s prior (chunks ++ more) (more.foldl (collectChunk s prior) acc) := by
  induction more with
  | nil =>
      intro chunks acc _ h
      rwa [List.append_nil]
  | cons chunk more ih =>
      intro chunks acc hfresh h
      have hnext : ReadChunks s prior (chunks ++ [chunk]) (collectChunk s prior acc chunk) := by
        refine readChunks_snoc hinj (fun n hn => hfresh n ?_) hprior h
        rw [List.flatten_append, List.flatten_cons, ← List.append_assoc, givenIds_append]
        exact List.mem_append_left _ hn
      have hall := ih (by rwa [List.append_assoc]) hnext
      rwa [List.append_assoc] at hall

/-- Each index has one call and one item of its own if and only if no chunk brings one id for
two new indices. -/
theorem collected_iff_distinct (s : Supply) (prior : List String) (chunks : List (List ToolDelta))
    (hfresh : s.Fresh prior chunks.flatten) :
    OneCallPerIndex s.dumps prior chunks.flatten (collectRound s prior chunks) ↔
      DistinctInChunks prior chunks := by
  have h : ReadChunks s prior chunks (chunks.foldl (collectChunk s prior) Collected.empty) := by
    have hread := readChunks_foldl hfresh.injective hfresh.prior chunks
      (by rw [List.nil_append]; exact hfresh.given) readChunks_empty
    rwa [List.nil_append] at hread
  constructor
  · exact fun hone => h.nodup.mp hone.nodup
  · intro hdistinct
    have hnodup := h.nodup.mpr hdistinct
    refine ⟨h.view, ?_, hnodup, fun call hcall => h.new _ (List.mem_map_of_mem hcall)⟩
    show List.foldl completeCall (chunks.foldl (collectChunk s prior) Collected.empty).items
      (chunks.foldl (collectChunk s prior) Collected.empty).calls = _
    rw [h.emitted hnodup]
    have hcomplete := completeCalls_eq _ [] hnodup
    exact hcomplete

/-- Ids that differ in their length. -/
def countedSupply : Supply := ⟨fun _ => "{}", fun n => String.ofList ('f' :: List.replicate n '_')⟩

/-- The example's supply is fresh. -/
theorem countedSupply_fresh : countedSupply.Fresh [] [⟨0, some "call", some "a", .str "{}"⟩,
    ⟨1, some "call", some "b", .str "{}"⟩] where
  injective := by
    intro n m h
    have hlength := congrArg String.length h
    simpa [countedSupply] using hlength
  prior := fun n hn => by cases hn
  given := by
    intro n hn
    have hid : "call" = countedSupply.fresh n ∧ ¬ countedSupply.fresh n = "" := by
      simpa [givenIds, ToolDelta.givenId] using hn
    have hhead := congrArg (fun id => id.toList.head?) hid.1
    simp [countedSupply] at hhead

/-- Two calls that come with one id in two chunks get ids and items of their own. -/
theorem collected_two_chunks :
    OneCallPerIndex countedSupply.dumps [] [⟨0, some "call", some "a", .str "{}"⟩,
        ⟨1, some "call", some "b", .str "{}"⟩]
      (collectRound countedSupply [] [[⟨0, some "call", some "a", .str "{}"⟩],
        [⟨1, some "call", some "b", .str "{}"⟩]]) := by
  refine (collected_iff_distinct countedSupply []
    [[⟨0, some "call", some "a", .str "{}"⟩], [⟨1, some "call", some "b", .str "{}"⟩]]
    countedSupply_fresh).mpr fun before chunk after heq => ?_
  have hone : ∀ (d : ToolDelta) (seen : List ℤ) (known : List String),
      ((givenIds (introduces seen [d])).filter fun id => id ∉ known).Nodup := by
    intro d seen known
    refine List.Nodup.filter _ ?_
    rw [introduces]
    split_ifs
    · exact List.nodup_nil
    · rw [introduces, givenIds_cons]
      cases d.givenId <;> simp [givenIds]
  have hmem : chunk ∈ [[(⟨0, some "call", some "a", .str "{}"⟩ : ToolDelta)],
      [⟨1, some "call", some "b", .str "{}"⟩]] := by
    rw [heq]
    exact List.mem_append_right _ List.mem_cons_self
  rcases List.mem_cons.mp hmem with rfl | hmem
  · exact hone _ _ _
  · rw [List.mem_singleton.mp hmem]
    exact hone _ _ _

/-- Two calls that come with one id in one chunk share an item, which has the second's name. -/
theorem shared_item_one_chunk :
    let deltas : List ToolDelta := [⟨0, some "call", some "a", .str "{}"⟩,
      ⟨1, some "call", some "b", .str "{}"⟩]
    (collectRound countedSupply [] [deltas]).items = [⟨"call", "b", "{}", .completed⟩] ∧
      (collectRound countedSupply [] [deltas]).calls =
        [⟨0, "call", "a", "{}"⟩, ⟨1, "call", "b", "{}"⟩] ∧
      ¬ OneCallPerIndex countedSupply.dumps [] deltas (collectRound countedSupply [] [deltas]) := by
  intro deltas
  have hcalls : (collectRound countedSupply [] [deltas]).calls =
      [⟨0, "call", "a", "{}"⟩, ⟨1, "call", "b", "{}"⟩] := by decide
  refine ⟨by decide, hcalls, fun h => ?_⟩
  have hnodup := h.nodup
  rw [hcalls] at hnodup
  revert hnodup
  decide

end OpenWebUI.Streaming
