import OpenWebUI.Chat.Update

/-! # The two message stores agree

A message lives twice: in the embedded history and in a row. The fields compared are
those both hold. A row may be told a field under the name of its column or under the
JSON key; it keeps a field it is told nothing about.
-/

namespace OpenWebUI.Chat

open Py

/-! ## Fields -/

/-- A compared field: the spelling of its column and its JSON key. -/
abbrev Field := String × String

def comparedFields : List Field :=
  [("role", "role"), ("parent_id", "parentId"), ("content", "content"), ("output", "output"),
    ("files", "files"), ("sources", "sources"), ("embeds", "embeds"), ("meta", "meta"),
    ("error", "error"), ("status_history", "statusHistory"), ("context_summary", "contextSummary")]

/-- The value a column reads back as: a missing content is `''`. -/
def readsAs (key : String) (v : Json) : Json := if key = "content" ∧ v = .null then .str "" else v

/-- The message read back has the stored value under `key`, or the column default when the
stored message has none. -/
def FieldReads (m back : Message) (key : String) : Prop :=
  Json.pyEq (Obj.get back key) (readsAs key (Obj.get m key)) = true

instance (m back : Message) (key : String) : Decidable (FieldReads m back key) :=
  inferInstanceAs (Decidable (_ = true))

/-- The message carries the field under its JSON key and no other value under the
spelling of the column. -/
def CarriesField (m : Message) (f : Field) : Prop :=
  Assoc.has m f.2 = true ∧ ((Obj.get m f.1).truthy = true →
    Json.pyEq (Obj.get m f.1) (Obj.get m f.2) = true)

/-- The message has the field under neither spelling. -/
def LacksField (m : Message) (f : Field) : Prop :=
  Assoc.has m f.1 = false ∧ Assoc.has m f.2 = false

/-- Equal values are read alike. -/
theorem pyEq_readsAs {key : String} {v w : Json} (h : Json.pyEq v w = true) :
    Json.pyEq (readsAs key v) (readsAs key w) = true := by
  have hnull : v = .null ↔ w = .null := by
    rw [← Json.canon_eq_null, (Json.pyEq_iff v w).mp h, Json.canon_eq_null]
  unfold readsAs
  by_cases hk : key = "content" ∧ v = .null
  · rw [if_pos hk, if_pos ⟨hk.1, hnull.mp hk.2⟩]
    exact Json.pyEq_refl _
  · rw [if_neg hk, if_neg fun hw => hk ⟨hw.1, hnull.mpr hw.2⟩]
    exact h

/-- Either spelling, when the two do not disagree. -/
theorem eitherKey_of_carries {m : Message} {f : Field} (h : CarriesField m f) :
    Json.pyEq (eitherKey m f.1 f.2) (Obj.get m f.2) = true := by
  unfold eitherKey
  by_cases ht : (Obj.get m f.1).truthy = true
  · rw [Json.or_of_truthy ht]
    exact h.2 ht
  · rw [Json.or_of_falsy (by simpa using ht)]
    exact Json.pyEq_refl _

/-! ## One write of a row -/

/-- A value or itself. -/
theorem or_self (x : Json) : x.or x = x := by
  unfold Json.or
  split_ifs <;> rfl

/-- An update stores a field the payload has under either spelling and keeps the others. -/
theorem columnOf_applyMessageData {r r' : ChatMessage} {data : Message} {now : ℚ}
    (h : applyMessageData r data now = some r') : ∀ f ∈ comparedFields,
      columnOf r' f.2 = if Assoc.has data f.1 || Assoc.has data f.2 then eitherKey data f.1 f.2
        else columnOf r f.2 := by
  obtain ⟨usage, _, hr⟩ := Option.bind_eq_some_iff.mp h
  rw [Option.pure_def, Option.some.injEq] at hr
  subst hr
  intro f hf
  have hcol : ∀ (x : ChatMessage) (k : String), columnOf x k = Obj.get (rowFields x) k :=
    fun _ _ => rfl
  simp only [comparedFields, List.mem_cons, List.not_mem_nil, or_false] at hf
  rcases hf with rfl | rfl | rfl | rfl | rfl | rfl | rfl | rfl | rfl | rfl | rfl <;>
    simp [columnOf, Obj.get, rowFields, Assoc.lookup_cons, eitherKey, or_self]

/-- A new row stores the same fields. -/
theorem columnOf_buildMessage {id chatId : String} {userId : Json} {r : ChatMessage}
    {data : Message} {now : ℚ} (h : buildMessage id chatId userId data now = some r)
    (hrole : Assoc.has data "role" = true) : ∀ f ∈ comparedFields,
      columnOf r f.2 = eitherKey data f.1 f.2 := by
  obtain ⟨usage, _, hr⟩ := Option.bind_eq_some_iff.mp h
  rw [Option.pure_def, Option.some.injEq] at hr
  subst hr
  have hget : Obj.getD data "role" (.str "user") = Obj.get data "role" := by
    obtain ⟨v, hv⟩ := Option.isSome_iff_exists.mp hrole
    rw [Obj.getD, Obj.get, hv, Option.getD_some, Option.getD_some]
  intro f hf
  simp only [comparedFields, List.mem_cons, List.not_mem_nil, or_false] at hf
  rcases hf with rfl | rfl | rfl | rfl | rfl | rfl | rfl | rfl | rfl | rfl | rfl <;>
    simp [columnOf, Obj.get, rowFields, Assoc.lookup_cons, eitherKey, or_self]
  exact hget

/-! ## Reading a row back -/

/-- The rows of a chat are the rows under its composite ids. -/
def RowsKeyed (rows : Rows) (chatId : String) : Prop :=
  ∀ key r, rows.get? key = some r → r.id = key ∧
    (r.chatId = chatId ↔ ∃ mid, key = compositeId chatId mid)

/-- The message the rows give for an id. -/
def readBack (rows : Rows) (chatId mid : String) : Option Message :=
  (rowMessagesMap rows chatId).bind fun ms => ms.get? mid

/-- A message read back shows the columns of the row, a missing content as `''`. -/
def Shows (r : ChatMessage) (back : Message) : Prop :=
  ∀ f ∈ comparedFields, Obj.get back f.2 = readsAs f.2 (columnOf r f.2)

/-- Two messages of a chat have different row ids. -/
theorem compositeId_injective {chatId a b : String}
    (h : compositeId chatId a = compositeId chatId b) : a = b := by
  rw [← stripId_compositeId chatId a, h, stripId_compositeId]

/-- A message made of a row shows the row. -/
theorem messageOfRow_shows (mid : String) (r : ChatMessage) : Shows r (messageOfRow mid r) := by
  intro f hf
  have hne : f.2 ≠ "id" ∧ f.2 ≠ "info" := by
    have hall : ∀ f ∈ comparedFields, f.2 ≠ "id" ∧ f.2 ≠ "info" := by decide
    exact hall f hf
  have hcontent : columnOf r "content" = r.content := rfl
  rw [messageOfRow_get mid r hne.1 hne.2, readsAs]
  by_cases hf2 : f.2 = "content"
  · rw [hf2, hcontent]
  · rw [if_neg fun h => hf2 h.1, if_neg fun h => hf2 h.1]

theorem mem_chatRows {rows : Rows} {chatId : String} {r : ChatMessage} :
    r ∈ chatRows rows chatId ↔ (∃ key, rows.get? key = some r) ∧ r.chatId = chatId := by
  unfold chatRows
  rw [List.mem_filter, List.mem_map, decide_eq_true_eq]
  constructor
  · rintro ⟨⟨⟨key, r'⟩, hmem, rfl⟩, hc⟩
    exact ⟨⟨key, (Dict.mem_entries_iff rows key r').mp hmem⟩, hc⟩
  · rintro ⟨⟨key, hkey⟩, hc⟩
    exact ⟨⟨(key, r), (Dict.mem_entries_iff rows key r).mpr hkey, rfl⟩, hc⟩

/-- An id reads back exactly when it has a row, and then shows that row. -/
theorem readBack_spec {rows : Rows} {chatId : String} (hk : RowsKeyed rows chatId) (mid : String) :
    (rows.get? (compositeId chatId mid) = none → readBack rows chatId mid = none) ∧
    ∀ r, rows.get? (compositeId chatId mid) = some r →
      ∃ back, readBack rows chatId mid = some back ∧ Shows r back := by
  -- the only row that strips to `mid` is the one under its composite id
  have hrow : ∀ r ∈ chatRows rows chatId, stripId (chatId ++ "-") r.id = mid →
      rows.get? (compositeId chatId mid) = some r := by
    intro r hr hid
    obtain ⟨⟨key, hkey⟩, hc⟩ := mem_chatRows.mp hr
    obtain ⟨hrid, hiff⟩ := hk key r hkey
    obtain ⟨mid', rfl⟩ := hiff.mp hc
    rw [hrid, stripId_compositeId] at hid
    rw [← hid]
    exact hkey
  constructor
  · intro hnone
    unfold readBack
    cases hms : rowMessagesMap rows chatId with
    | none => rfl
    | some ms =>
        rw [Option.bind_some]
        cases hm : ms.get? mid with
        | none => rfl
        | some m =>
            obtain ⟨r, hr, hid, _⟩ := (rowMessagesMap_spec hms).1 mid m hm
            rw [hrow r hr hid] at hnone
            cases hnone
  · intro r hr
    have hmem : r ∈ chatRows rows chatId :=
      mem_chatRows.mpr ⟨⟨_, hr⟩, (hk _ r hr).2.mpr ⟨mid, rfl⟩⟩
    obtain ⟨ms, hms⟩ : ∃ ms, rowMessagesMap rows chatId = some ms := by
      rw [← Option.ne_none_iff_exists']
      intro hnone
      rw [rowMessagesMap_eq_none.mp hnone] at hmem
      cases hmem
    obtain ⟨hval, hids⟩ := rowMessagesMap_spec hms
    have hstored : mid ∈ ms := by
      rw [hids, rowIds, List.mem_map]
      exact ⟨r, hmem, by rw [(hk _ r hr).1, stripId_compositeId]⟩
    obtain ⟨m, hm⟩ := (Dict.mem_iff_exists ms mid).mp hstored
    obtain ⟨r', hr', hid, hsame⟩ := hval mid m hm
    have heq : r' = r := by
      have h' := hrow r' hr' hid
      rw [hr, Option.some.injEq] at h'
      exact h'.symm
    subst heq
    refine ⟨m, by rw [readBack, hms, Option.bind_some, hm], ?_⟩
    intro f hf
    have hne : f.2 ≠ "childrenIds" := by
      have hall : ∀ f ∈ comparedFields, f.2 ≠ "childrenIds" := by decide
      exact hall f hf
    rw [hsame.get hne]
    exact messageOfRow_shows mid r' f hf

/-! ## The write loop -/

/-- The row holds the message over what it held before. -/
def RowWritten (old : Option ChatMessage) (m : Message) (r : ChatMessage) : Prop :=
  ∀ f ∈ comparedFields, columnOf r f.2 =
    if Assoc.has m f.1 || Assoc.has m f.2 then eitherKey m f.1 f.2
    else (old.map fun r => columnOf r f.2).getD .null

/-- A field that is missing reads as null. -/
theorem eitherKey_of_lacks {m : Message} {f : Field} (h : LacksField m f) :
    eitherKey m f.1 f.2 = .null := by
  have hnull : ∀ k, Assoc.has m k = false → Obj.get m k = .null := by
    intro k hk
    apply Obj.get_of_absent
    simpa [Assoc.has] using hk
  rw [eitherKey, hnull _ h.1, hnull _ h.2, Json.null_or]

section Loop

variable {b : Backend} {userId chatId : String} {stored updated : Messages} {now : ℚ}
  {rows rows' : Rows}

/-- A write touches one row, and the table stays keyed. -/
theorem upsertMessage_written {mid : String} {user : Json} {m : Message}
    (h : upsertMessage b.validRow rows mid chatId user m now = some rows')
    (hrole : Assoc.has m "role" = true) (hk : RowsKeyed rows chatId) :
    RowsKeyed rows' chatId ∧
      (∃ r, rows'.get? (compositeId chatId mid) = some r ∧
        RowWritten (rows.get? (compositeId chatId mid)) m r) ∧
      ∀ key, key ≠ compositeId chatId mid → rows'.get? key = rows.get? key := by
  -- the row written, its identity, and its columns
  have hrow : ∃ r, rows' = rows.set (compositeId chatId mid) r ∧ r.id = compositeId chatId mid ∧
      r.chatId = chatId ∧ RowWritten (rows.get? (compositeId chatId mid)) m r := by
    have hset : ∀ r, (if b.validRow r then some (rows.set (compositeId chatId mid) r) else none) =
        some rows' → rows' = rows.set (compositeId chatId mid) r := by
      intro r hr
      split_ifs at hr
      rw [Option.some.injEq] at hr
      exact hr.symm
    unfold upsertMessage at h
    dsimp only at h
    cases hold : rows.get? (compositeId chatId mid) with
    | some old =>
        rw [hold] at h
        obtain ⟨r, hr, hvalid⟩ := Option.bind_eq_some_iff.mp h
        have hcols := columnOf_applyMessageData hr
        obtain ⟨usage, _, heq⟩ := Option.bind_eq_some_iff.mp hr
        rw [Option.pure_def, Option.some.injEq] at heq
        obtain ⟨hid, hiff⟩ := hk _ old hold
        exact ⟨r, hset r hvalid, by rw [← heq]; exact hid,
          by rw [← heq]; exact hiff.mpr ⟨mid, rfl⟩, hcols⟩
    | none =>
        rw [hold] at h
        obtain ⟨r, hr, hvalid⟩ := Option.bind_eq_some_iff.mp h
        have hcols := columnOf_buildMessage hr hrole
        obtain ⟨usage, _, heq⟩ := Option.bind_eq_some_iff.mp hr
        rw [Option.pure_def, Option.some.injEq] at heq
        refine ⟨r, hset r hvalid, by rw [← heq], by rw [← heq], ?_⟩
        intro f hf
        rw [hcols f hf]
        by_cases hhas : (Assoc.has m f.1 || Assoc.has m f.2) = true
        · rw [if_pos hhas]
        · rw [Bool.or_eq_true, not_or, Bool.not_eq_true, Bool.not_eq_true] at hhas
          rw [eitherKey_of_lacks hhas, hhas.1, hhas.2]
          rfl
  obtain ⟨r, rfl, hid, hchat, hwritten⟩ := hrow
  refine ⟨?_, ⟨r, Dict.get?_set_self _ _ _, hwritten⟩, fun key hne => Dict.get?_set_ne _ _ hne⟩
  intro key r' hr'
  rw [Dict.get?_set] at hr'
  split_ifs at hr' with hkey
  · rw [Option.some.injEq] at hr'
    subst hr'
    exact ⟨hid.trans hkey.symm, iff_of_true hchat ⟨mid, hkey⟩⟩
  · exact hk key r' hr'

/-- What the loop does for one incoming id. -/
def Synced (stored updated : Messages) (old new : Option ChatMessage) (mid : String) : Prop :=
  ∀ m, updated.get? mid = some m → (Obj.get m "role").truthy = true →
    (new = old ∧ ∃ m₀, stored.get? mid = some m₀ ∧ Json.pyEq (.obj m) (.obj m₀) = true) ∨
      ∃ r, new = some r ∧ RowWritten old m r

/-- What is true is there. -/
theorem has_of_truthy {m : Message} {k : String} (h : (Obj.get m k).truthy = true) :
    Assoc.has m k = true := by
  unfold Assoc.has
  cases hm : m.lookup k with
  | some v => rfl
  | none =>
      rw [Obj.get_of_absent hm] at h
      cases h

/-- Writing a changed message syncs its row. -/
theorem writeChanged_spec {mid : String}
    (h : writeChanged b userId chatId stored updated now rows mid = some rows')
    (hk : RowsKeyed rows chatId) :
    RowsKeyed rows' chatId ∧
      Synced stored updated (rows.get? (compositeId chatId mid))
        (rows'.get? (compositeId chatId mid)) mid ∧
      ∀ key, key ≠ compositeId chatId mid → rows'.get? key = rows.get? key := by
  unfold writeChanged at h
  cases hm : updated.get? mid with
  | none =>
      rw [hm, Option.some.injEq] at h
      subst h
      refine ⟨hk, ?_, fun _ _ => rfl⟩
      intro m hm'
      rw [hm] at hm'
      cases hm'
  | some m =>
      rw [hm] at h
      dsimp only at h
      by_cases hrole : (Obj.get m "role").truthy = true
      -- a message that is new to the chat is written
      · cases hs : stored.get? mid with
        | none =>
            rw [hs, hrole, Bool.not_false, Bool.and_true, if_pos rfl] at h
            obtain ⟨h1, ⟨r, hr, hw⟩, h3⟩ := upsertMessage_written h (has_of_truthy hrole) hk
            refine ⟨h1, ?_, h3⟩
            intro m' hm' _
            rw [hm, Option.some.injEq] at hm'
            exact Or.inr ⟨r, hr, hm' ▸ hw⟩
        | some m₀ =>
            rw [hs, hrole, Bool.true_and] at h
            dsimp only at h
            -- a message with a role is written where it differs from the stored one
            split_ifs at h with hsame
            · obtain ⟨h1, ⟨r, hr, hw⟩, h3⟩ := upsertMessage_written h (has_of_truthy hrole) hk
              refine ⟨h1, ?_, h3⟩
              intro m' hm' _
              rw [hm, Option.some.injEq] at hm'
              exact Or.inr ⟨r, hr, hm' ▸ hw⟩
            · rw [Option.some.injEq] at h
              subst h
              refine ⟨hk, ?_, fun _ _ => rfl⟩
              intro m' hm' _
              rw [hm, Option.some.injEq] at hm'
              exact Or.inl ⟨rfl, m₀, hs, by simpa [hm'] using hsame⟩
      -- a message without a role gets no row
      · have hfalse : (Obj.get m "role").truthy = false := by simpa using hrole
        rw [hfalse, Bool.false_and, if_neg (by simp), Option.some.injEq] at h
        subst h
        refine ⟨hk, ?_, fun _ _ => rfl⟩
        intro m' hm' hrole'
        rw [hm, Option.some.injEq] at hm'
        exact absurd hrole' (hm' ▸ hrole)

/-- The loop over distinct ids syncs each of them and touches no other row. -/
theorem writeLoop_spec (mids : List String) : ∀ {rows rows' : Rows}, mids.Nodup →
    mids.foldlM (writeChanged b userId chatId stored updated now) rows = some rows' →
    RowsKeyed rows chatId →
      RowsKeyed rows' chatId ∧
        (∀ mid ∈ mids, Synced stored updated (rows.get? (compositeId chatId mid))
          (rows'.get? (compositeId chatId mid)) mid) ∧
        ∀ key, (∀ mid ∈ mids, key ≠ compositeId chatId mid) → rows'.get? key = rows.get? key := by
  induction mids with
  | nil =>
      intro rows rows' _ h hk
      rw [List.foldlM_nil, Option.pure_def, Option.some.injEq] at h
      subst h
      exact ⟨hk, by simp, fun _ _ => rfl⟩
  | cons mid mids ih =>
      intro rows rows' hnd h hk
      rw [List.foldlM_cons] at h
      obtain ⟨rows₁, h₁, h₂⟩ := Option.bind_eq_some_iff.mp h
      obtain ⟨hnot, hnd⟩ := List.nodup_cons.mp hnd
      obtain ⟨hk₁, hsync, hframe⟩ := writeChanged_spec h₁ hk
      obtain ⟨hk₂, hrest, hframe'⟩ := ih hnd h₂ hk₁
      have hother : ∀ mid' ∈ mids, compositeId chatId mid ≠ compositeId chatId mid' := by
        rintro mid' hmem heq
        exact hnot (compositeId_injective heq ▸ hmem)
      refine ⟨hk₂, ?_, ?_⟩
      · intro mid' hmem
        rcases List.mem_cons.mp hmem with rfl | hmem
        · rw [hframe' _ hother]
          exact hsync
        · rw [← hframe _ (hother mid' hmem).symm]
          exact hrest mid' hmem
      · intro key hkey
        rw [hframe' key fun mid' hmem => hkey mid' (List.mem_cons_of_mem _ hmem),
          hframe key (hkey mid (List.mem_cons_self ..))]

end Loop

/-! ## Agreement after an update -/

/-- Every stored message with a role reads back from its row, each field it carries. -/
structure StoresAgree (store : Store) (chatId : String) : Prop where
  keyed : RowsKeyed store.rows chatId
  agree : ∀ mid m, storedMessage store mid = some m → (Obj.get m "role").truthy = true →
    ∃ back, readBack store.rows chatId mid = some back ∧
      ∀ f ∈ comparedFields, CarriesField m f → FieldReads m back f.2

/-- What a field read before, the column default when the message had no row. -/
def previously (rows : Rows) (chatId mid : String) (f : Field) : Json :=
  ((readBack rows chatId mid).map fun back => Obj.get back f.2).getD (readsAs f.2 .null)

/-- A field carried by one of two equal messages is carried by the other. -/
theorem CarriesField.congr {m m₀ : Message} (h : Json.pyEq (.obj m) (.obj m₀) = true) {f : Field}
    (hc : CarriesField m f) : CarriesField m₀ f := by
  constructor
  · rw [← Json.has_of_pyEq h]
    exact hc.1
  · intro ht
    rw [← Json.truthy_of_pyEq (Json.pyEq_get h f.1)] at ht
    exact Json.pyEq_trans (Json.pyEq_symm (Json.pyEq_get h f.1))
      (Json.pyEq_trans (hc.2 ht) (Json.pyEq_get h f.2))

/-- A written row shows the fields the message carries, and keeps those it lacks. -/
theorem RowWritten.reads {old : Option ChatMessage} {m back : Message} {r : ChatMessage}
    (h : RowWritten old m r) (hback : Shows r back) {f : Field} (hf : f ∈ comparedFields) :
    (CarriesField m f → FieldReads m back f.2) ∧
      (LacksField m f → Obj.get back f.2 =
        readsAs f.2 ((old.map fun r => columnOf r f.2).getD .null)) ∧
      (Obj.get back f.2 = readsAs f.2 (eitherKey m f.1 f.2) ∨
        Obj.get back f.2 = readsAs f.2 ((old.map fun r => columnOf r f.2).getD .null)) := by
  refine ⟨?_, ?_, ?_⟩
  · intro hc
    have hcol : columnOf r f.2 = eitherKey m f.1 f.2 := by
      rw [h f hf, hc.1, Bool.or_true, if_pos rfl]
    rw [FieldReads, hback f hf, hcol]
    exact pyEq_readsAs (eitherKey_of_carries hc)
  · intro hl
    rw [hback f hf, h f hf, hl.1, hl.2]
    rfl
  · rw [hback f hf, h f hf]
    split_ifs
    · exact Or.inl rfl
    · exact Or.inr rfl

/-- The value compared with is the one of the row. -/
theorem previously_eq {rows : Rows} {chatId : String} (hk : RowsKeyed rows chatId) (mid : String)
    {f : Field} (hf : f ∈ comparedFields) :
    previously rows chatId mid f = readsAs f.2
      (((rows.get? (compositeId chatId mid)).map fun r => columnOf r f.2).getD .null) := by
  obtain ⟨hnone, hsome⟩ := readBack_spec hk mid
  unfold previously
  cases hr : rows.get? (compositeId chatId mid) with
  | none =>
      rw [hnone hr]
      rfl
  | some r =>
      obtain ⟨back, hback, hshows⟩ := hsome r hr
      rw [hback]
      exact hshows f hf

/-- After `update_chat_by_id`, each incoming message with a role reads back from its row:
every field the stored message carries as it is stored there, every field it lacks as it
read before, and no field as anything but one of its spellings or its value before. -/
theorem update_agrees (b : Backend) (chatId : String) (patch : ChatPatch) (touch : Bool) (now : ℚ)
    (store : Store) (hstore : StoresAgree store chatId) (mid : String) (hmid : mid ∈ patch.ids)
    (m : Message) (hm : storedMessage (updateChat b chatId patch touch now store) mid = some m)
    (hrole : (Obj.get m "role").truthy = true) :
    ∃ back, readBack (updateChat b chatId patch touch now store).rows chatId mid = some back ∧
      ∀ f ∈ comparedFields, (CarriesField m f → FieldReads m back f.2) ∧
        (LacksField m f → Obj.get back f.2 = previously store.rows chatId mid f) ∧
        (Obj.get back f.2 = readsAs f.2 (eitherKey m f.1 f.2) ∨
          Obj.get back f.2 = previously store.rows chatId mid f) := by
  have hsame : ∀ back, readBack store.rows chatId mid = some back → ∀ f : Field,
      Obj.get back f.2 = previously store.rows chatId mid f := by
    intro back hback f
    rw [previously, hback]
    rfl
  unfold updateChat at hm ⊢
  cases hup : updateChat? b chatId patch touch now store with
  | none =>
      -- rolled back: both stores are as before
      rw [hup] at hm
      obtain ⟨back, hback, hreads⟩ := hstore.agree mid m hm hrole
      exact ⟨back, hback, fun f hf => ⟨hreads f hf, fun _ => hsame back hback f,
        Or.inr (hsame back hback f)⟩⟩
  | some store' =>
      rw [hup, Option.getD_some] at hm
      rw [Option.getD_some]
      unfold updateChat? at hup
      cases hchat : store.chat with
      -- there is no chat, and nothing is done
      | none =>
          rw [hchat, Option.some.injEq] at hup
          subst hup
          obtain ⟨back, hback, hreads⟩ := hstore.agree mid m hm hrole
          exact ⟨back, hback, fun f hf => ⟨hreads f hf, fun _ => hsame back hback f,
            Or.inr (hsame back hback f)⟩⟩
      | some item =>
          rw [hchat] at hup
          obtain ⟨history, hhistory, hup⟩ := Option.bind_eq_some_iff.mp hup
          obtain ⟨rows, hrows, hup⟩ := Option.bind_eq_some_iff.mp hup
          dsimp only at hup
          split_ifs at hup
          rw [Option.some.injEq] at hup
          -- the written messages are apart, so what the loop does to one is left by the others
          have hnodup : patch.ids.Nodup := by
            unfold ChatPatch.ids
            split
            · exact Dict.nodup_keys _
            · exact List.nodup_nil
          obtain ⟨hkeyed, hsync, _⟩ := writeLoop_spec patch.ids hnodup hrows hstore.keyed
          have hm' : ((history.map History.messages).getD ∅).get? mid = some m := by
            rw [← hm, ← hup]
            rfl
          rw [← hup]
          rcases hsync mid hmid m hm' hrole with ⟨hold, m₀, hm₀, heq⟩ | ⟨r, hr, hwritten⟩
          · -- skipped: equal to the stored message, so the old row still shows it
            have hrole₀ : (Obj.get m₀ "role").truthy = true := by
              rw [← Json.truthy_of_pyEq (Json.pyEq_get heq "role")]
              exact hrole
            obtain ⟨back₀, hback₀, hreads⟩ := hstore.agree mid m₀
              (by rw [storedMessage_eq hchat, hm₀]) hrole₀
            obtain ⟨hnone, hsome⟩ := readBack_spec hstore.keyed mid
            cases hr : store.rows.get? (compositeId chatId mid) with
            | none =>
                rw [hnone hr] at hback₀
                cases hback₀
            | some r =>
                obtain ⟨back₁, hback₁, hshows₁⟩ := hsome r hr
                rw [hback₀, Option.some.injEq] at hback₁
                subst hback₁
                obtain ⟨back, hback, hshows⟩ := (readBack_spec hkeyed mid).2 r (hold.trans hr)
                refine ⟨back, hback, ?_⟩
                intro f hf
                have hget : Obj.get back f.2 = Obj.get back₀ f.2 := by
                  rw [hshows f hf, hshows₁ f hf]
                refine ⟨?_, ?_, Or.inr (hget.trans (hsame back₀ hback₀ f))⟩
                · intro hc
                  rw [FieldReads, hget]
                  exact Json.pyEq_trans (hreads f hf (hc.congr heq))
                    (pyEq_readsAs (Json.pyEq_symm (Json.pyEq_get heq f.2)))
                · intro _
                  rw [hget]
                  exact hsame back₀ hback₀ f
          · -- written
            obtain ⟨back, hback, hshows⟩ := (readBack_spec hkeyed mid).2 r hr
            refine ⟨back, hback, ?_⟩
            intro f hf
            rw [previously_eq hstore.keyed mid hf]
            exact hwritten.reads hshows hf

/-- The two stores agree on every compared field of a message, a field the message lacks
reading as the column default. -/
def AgreeAt (store : Store) (chatId mid : String) : Prop :=
  ∀ m, storedMessage store mid = some m → (Obj.get m "role").truthy = true →
    ∃ back, readBack store.rows chatId mid = some back ∧
      ∀ f ∈ comparedFields, FieldReads m back f.2

/-- A post of one user message `m` with the given further members. -/
def postOf (members : Obj) : ChatPatch :=
  ⟨some (some ⟨Dict.ofList [("m", .obj ([("id", .str "m"), ("role", .str "user"),
    ("content", .str "hi")] ++ members))], some "m"⟩), []⟩

/-- A chat whose only message has a file. -/
def filesChat : Store :=
  updateChat plainBackend "t" (postOf [("files", .arr [.str "f"])]) true 0 emptyChat

/-- The example's rows have their ids. -/
theorem filesChat_keyed : RowsKeyed filesChat.rows "t" := by
  have hall : ∀ e ∈ filesChat.rows.entries, e.2.id = e.1 ∧ e.2.chatId = "t" ∧
      e.1 = compositeId "t" "m" := by decide +kernel
  intro key r hr
  obtain ⟨hid, hchat, hkey⟩ := hall (key, r) ((Dict.mem_entries_iff _ _ _).mpr hr)
  exact ⟨hid, iff_of_true hchat ⟨"m", hkey⟩⟩

/-- The example's row agrees with its message. -/
theorem filesChat_agreeAt (mid : String) : AgreeAt filesChat "t" mid := by
  have hall : ∀ e ∈ ((filesChat.chat.map ChatItem.messages).getD ∅).entries,
      ((readBack filesChat.rows "t" e.1).map fun back =>
        decide (∀ f ∈ comparedFields, FieldReads e.2 back f.2)) = some true := by decide +kernel
  intro m hm _
  have hstored : ((filesChat.chat.map ChatItem.messages).getD ∅).get? mid = some m := by
    obtain ⟨item, hitem, hmid⟩ := Option.bind_eq_some_iff.mp hm
    rw [hitem]
    exact hmid
  obtain ⟨back, hback, hreads⟩ := Option.map_eq_some_iff.mp
    (hall (mid, m) ((Dict.mem_entries_iff _ _ _).mpr hstored))
  exact ⟨back, hback, of_decide_eq_true hreads⟩

/-- The example's stores agree. -/
theorem filesChat_storesAgree : StoresAgree filesChat "t" := by
  refine ⟨filesChat_keyed, ?_⟩
  intro mid m hm hrole
  obtain ⟨back, hback, hreads⟩ := filesChat_agreeAt mid m hm hrole
  exact ⟨back, hback, fun f hf _ => hreads f hf⟩

/-- A second post renames the file; the row follows. -/
theorem update_agrees_renamed : ∃ m back,
    storedMessage (updateChat plainBackend "t"
      (postOf [("files", .arr [.str "g"])]) true 0 filesChat)
      "m" = some m ∧
    readBack (updateChat plainBackend "t" (postOf [("files", .arr [.str "g"])]) true 0
      filesChat).rows
      "t" "m" = some back ∧
    FieldReads m back "files" := by
  have hstored : ((storedMessage (updateChat plainBackend "t" (postOf [("files", .arr [.str "g"])])
      true 0 filesChat) "m").map fun m => decide ((Obj.get m "role").truthy = true ∧
        Assoc.has m "files" = true)) = some true := by decide +kernel
  obtain ⟨m, hm, hdec⟩ := Option.map_eq_some_iff.mp hstored
  obtain ⟨hrole, hfiles⟩ := of_decide_eq_true hdec
  obtain ⟨back, hback, hreads⟩ :=
    update_agrees plainBackend "t" (postOf [("files", .arr [.str "g"])])
    true 0 filesChat filesChat_storesAgree "m" (by decide) m hm hrole
  exact ⟨m, back, hm, hback, (hreads ("files", "files") (by decide)).1
    ⟨hfiles, fun _ => Json.pyEq_refl _⟩⟩

/-- Disagreement at `m` is decided by one field of the message read back. -/
theorem not_agreeAt {store : Store} {f : Field} (hf : f ∈ comparedFields)
    (h : ((storedMessage store "m").bind fun m => (readBack store.rows "t" "m").map fun back =>
      decide ((Obj.get m "role").truthy = true ∧ ¬ FieldReads m back f.2)) = some true) :
    ¬ AgreeAt store "t" "m" := by
  intro hagree
  obtain ⟨m, hm, hrest⟩ := Option.bind_eq_some_iff.mp h
  obtain ⟨back, hback, hdec⟩ := Option.map_eq_some_iff.mp hrest
  obtain ⟨hrole, hdiffers⟩ := of_decide_eq_true hdec
  obtain ⟨back', hback', hreads⟩ := hagree m hm hrole
  rw [hback, Option.some.injEq] at hback'
  exact hdiffers (hback' ▸ hreads f hf)

/-- A second post without the file: the stored message loses it, the row keeps it. A second
post with a `parent_id` and no `parentId`: the row takes it for the parent. -/
theorem update_keeps_dropped_field :
    RowsKeyed filesChat.rows "t" ∧ (∀ mid, AgreeAt filesChat "t" mid) ∧
    "m" ∈ (postOf []).ids ∧
    ¬ AgreeAt (updateChat plainBackend "t" (postOf []) true 0 filesChat) "t" "m" ∧
    "m" ∈ (postOf [("parent_id", .str "p")]).ids ∧
    ¬ AgreeAt (updateChat plainBackend "t" (postOf [("parent_id", .str "p")]) true 0 filesChat)
      "t" "m" := by
  refine ⟨filesChat_keyed, filesChat_agreeAt, by decide, ?_, by decide, ?_⟩
  · exact not_agreeAt (f := ("files", "files")) (by decide) (by decide +kernel)
  · exact not_agreeAt (f := ("parent_id", "parentId")) (by decide) (by decide +kernel)

end OpenWebUI.Chat
