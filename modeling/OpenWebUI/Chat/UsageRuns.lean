import OpenWebUI.Chat.Save

/-! # The usage of a row over many saves

The row accumulates a usage unless it equals what is already there, and the stored
message keeps offering the latest one. As long as every usage saved equals the row's,
the row never moves again: that is the invariant of the runs below. Two different
usages break it.
-/

namespace OpenWebUI.Chat

open Py

/-! ## One write of the column -/

/-- Accumulating onto nothing. -/
theorem mergeUsage_nil {usage : Obj} (hne : usage ≠ []) (h : normalizeUsage usage = some usage) :
    mergeUsage [] usage = some usage := by
  unfold mergeUsage
  rw [h]
  simp [normalizeUsage, hne]

/-- A usage equal to the stored one leaves it, and the first usage is stored as it is. -/
theorem applyUsage_spec {old new : Json} {m : Message} (h : applyUsage old m = some new)
    (hold : old = .null ∨ ∃ u, old = .obj u ∧ u ≠ [] ∧ normalizeUsage u = some u)
    (hsame : ∀ u, Carries m u → normalizeUsage u = some u ∨ old ≠ .null)
    (hequal : ∀ u, Carries m u → old ≠ .null → Json.pyEq (.obj u) old = true) :
    (new = old ∧ (old = .null → getUsage m = some none)) ∨
      old = .null ∧ ∃ u, getUsage m = some (some u) ∧ new = .obj u := by
  unfold applyUsage at h
  obtain ⟨r, hr, h⟩ := Option.bind_eq_some_iff.mp h
  cases r with
  | none =>
      rw [Option.pure_def, Option.some.injEq] at h
      exact Or.inl ⟨h.symm, fun _ => hr⟩
  | some u =>
      have hc := carries_of_getUsage hr
      have hne : u ≠ [] := by
        obtain ⟨raw, _, hraw, hu⟩ := hc
        exact normalizeUsage_ne_nil hraw hu
      dsimp only at h
      rw [if_neg hne] at h
      obtain ⟨raw, hraw, h⟩ := Option.bind_eq_some_iff.mp h
      obtain ⟨existing, hexisting, h⟩ := Option.bind_eq_some_iff.mp h
      rcases hold with rfl | ⟨v, rfl, hv, hstable⟩
      · -- nothing stored yet
        right
        rw [rowUsage, Option.some.injEq] at hraw
        rw [← hraw, normalizeUsage, if_pos rfl, Option.some.injEq] at hexisting
        subst hexisting
        have hdiff : ¬ Json.pyEq (.obj u) (.obj []) = true := by
          intro heq
          have := Json.truthy_of_pyEq heq
          rw [truthy_obj.mpr hne] at this
          cases this
        have hu : normalizeUsage u = some u := by
          rcases hsame u hc with hu | hu
          · exact hu
          · exact absurd rfl hu
        rw [if_neg hdiff] at h
        obtain ⟨merged, hmerged, h⟩ := Option.bind_eq_some_iff.mp h
        rw [mergeUsage_nil hne hu, Option.some.injEq] at hmerged
        rw [Option.pure_def, Option.some.injEq, ← hmerged] at h
        exact ⟨rfl, u, hr, h.symm⟩
      · -- the stored usage is its own normal form and equal to the new one
        left
        rw [rowUsage, Option.some.injEq] at hraw
        rw [← hraw, hstable, Option.some.injEq] at hexisting
        subst hexisting
        rw [if_pos (hequal u hc (by simp)), Option.pure_def, Option.some.injEq] at h
        exact ⟨h.symm, by simp⟩

/-- The same for a row that may not exist yet. -/
theorem rowUsage_spec {row : Option ChatMessage} {old new : Json} {m : Message}
    (h : RowUsage row m new) (hrow : old = (row.map ChatMessage.usage).getD .null)
    (hold : old = .null ∨ ∃ u, old = .obj u ∧ u ≠ [] ∧ normalizeUsage u = some u)
    (hsame : ∀ u, Carries m u → normalizeUsage u = some u ∨ old ≠ .null)
    (hequal : ∀ u, Carries m u → old ≠ .null → Json.pyEq (.obj u) old = true) :
    (new = old ∧ (old = .null → getUsage m = some none)) ∨
      old = .null ∧ ∃ u, getUsage m = some (some u) ∧ new = .obj u := by
  cases row with
  | some r =>
      subst hrow
      exact applyUsage_spec h hold hsame hequal
  | none =>
      obtain ⟨r, hr, rfl⟩ := h
      subst hrow
      cases r with
      | none => exact Or.inl ⟨rfl, fun _ => hr⟩
      | some u => exact Or.inr ⟨rfl, u, hr, rfl⟩

/-! ## One save -/

/-- The usages of a payload are all equal, each its own normal form, and equal to the
usage already in the row, if there is one. -/
def UsageAgrees (old : Json) (payload : Message) : Prop :=
  ∀ u, Carries payload u → normalizeUsage u = some u ∧
    (∀ v, Carries payload v → Json.pyEq (.obj u) (.obj v) = true) ∧
    (old = .null ∨ Json.pyEq (.obj u) old = true)

/-- The row's usage is its own normal form and equal to every usage the stored message
still offers. -/
structure Settled (chatId messageId : String) (store : Store) : Prop where
  row : rowUsageOf store chatId messageId = .null ∨
    ∃ u, rowUsageOf store chatId messageId = .obj u ∧ u ≠ [] ∧ normalizeUsage u = some u
  offered : ∀ m u, storedMessage store messageId = some m → Carries m u →
    rowUsageOf store chatId messageId ≠ .null ∧
      Json.pyEq (.obj u) (rowUsageOf store chatId messageId) = true

/-- The merged message carries what the payload carries, and nothing that neither carried. -/
theorem carries_saved {payload old saved : Message}
    (h : ∀ f, IsUsageKey f → saved.lookup f = (payload.lookup f).or (old.lookup f)) (u : Obj) :
    (Carries payload u → Carries saved u) ∧
      (Carries saved u → Carries payload u ∨ Carries old u) := by
  have hpresent : ∀ {f : String} {o : Obj}, IsUsageKey f → Obj.get payload f = .obj o →
      Obj.get saved f = .obj o := by
    intro f o hf hget
    have hp := Obj.lookup_of_get hget (by simp)
    exact Obj.get_of_lookup (by rw [h f hf, hp, Option.some_or])
  have hsplit : ∀ {f : String} {o : Obj}, IsUsageKey f → Obj.get saved f = .obj o →
      Obj.get payload f = .obj o ∨ Obj.get old f = .obj o := by
    intro f o hf hget
    have hs := Obj.lookup_of_get hget (by simp)
    rw [h f hf] at hs
    rcases Option.or_eq_some_iff.mp hs with hp | ⟨_, hold⟩
    · exact Or.inl (Obj.get_of_lookup hp)
    · exact Or.inr (Obj.get_of_lookup hold)
  constructor
  · rintro ⟨raw, hwhere, hne, hn⟩
    refine ⟨raw, ?_, hne, hn⟩
    rcases hwhere with hu | ⟨info, hi, hu⟩
    · exact Or.inl (hpresent (Or.inl rfl) hu)
    · exact Or.inr ⟨info, hpresent (Or.inr rfl) hi, hu⟩
  · rintro ⟨raw, hwhere, hne, hn⟩
    rcases hwhere with hu | ⟨info, hi, hu⟩
    · rcases hsplit (Or.inl rfl) hu with hu | hu
      · exact Or.inl ⟨raw, Or.inl hu, hne, hn⟩
      · exact Or.inr ⟨raw, Or.inl hu, hne, hn⟩
    · rcases hsplit (Or.inr rfl) hi with hi | hi
      · exact Or.inl ⟨raw, Or.inr ⟨info, hi, hu⟩, hne, hn⟩
      · exact Or.inr ⟨raw, Or.inr ⟨info, hi, hu⟩, hne, hn⟩

/-- Usage that a message carries is not empty. -/
theorem ne_nil_of_carries {m : Message} {u : Obj} (h : Carries m u) : u ≠ [] := by
  obtain ⟨raw, _, hraw, hu⟩ := h
  exact normalizeUsage_ne_nil hraw hu

section Step

variable {b : Backend} {chatId messageId : String} {touch : Bool} {now : ℚ} {message : Message}
  {store store' : Store}

/-- A save whose usages agree keeps the stores settled. It leaves the row's usage alone
unless it is the first to bring one. -/
theorem settled_upsert (hs : Settled chatId (sanitizeText messageId) store)
    (hagree : UsageAgrees (rowUsageOf store chatId (sanitizeText messageId))
      (savedPayload b message))
    (h : upsertMessageToChat b chatId messageId touch now message store = some store') :
    Settled chatId (sanitizeText messageId) store' ∧
      (rowUsageOf store chatId (sanitizeText messageId) ≠ .null ∨
          (∀ u, ¬ Carries (savedPayload b message) u) →
        rowUsageOf store' chatId (sanitizeText messageId) =
          rowUsageOf store chatId (sanitizeText messageId)) ∧
      (store.chat.isSome → ∀ u, Carries (savedPayload b message) u →
        ∃ m, storedMessage store' (sanitizeText messageId) = some m ∧ Carries m u) := by
  rcases upsertMessageToChat_usage h with ⟨hnone, rfl⟩ | ⟨saved, row, hsaved, hkeys, hrow, husage⟩
  · exact ⟨hs, fun _ => rfl, by simp [hnone]⟩
  generalize hold : rowUsageOf store chatId (sanitizeText messageId) = old at *
  have hnew : rowUsageOf store' chatId (sanitizeText messageId) = row.usage := by
    simp [rowUsageOf, hrow]
  -- what the merged message carries comes from the payload or agrees with the row already
  have hcarried : ∀ u, Carries saved u → Carries (savedPayload b message) u ∨
      old ≠ .null ∧ Json.pyEq (.obj u) old = true := by
    intro u hu
    rcases (carries_saved hkeys u).2 hu with hp | hm
    · exact Or.inl hp
    · cases hst : storedMessage store (sanitizeText messageId) with
      | none =>
          obtain ⟨raw, hwhere | ⟨info, hi, _⟩, _⟩ := hst ▸ hm
          · cases hwhere
          · cases hi
      | some m =>
          rw [hst, Option.getD_some] at hm
          exact Or.inr (hold ▸ hs.offered m u hst hm)
  have hequal : ∀ u, Carries saved u → old ≠ .null → Json.pyEq (.obj u) old = true := by
    intro u hu hne
    rcases hcarried u hu with hp | ⟨_, heq⟩
    · exact (hagree u hp).2.2.resolve_left hne
    · exact heq
  have hsame : ∀ u, Carries saved u → normalizeUsage u = some u ∨ old ≠ .null := by
    intro u hu
    rcases hcarried u hu with hp | ⟨hne, _⟩
    · exact Or.inl (hagree u hp).1
    · exact Or.inr hne
  refine ⟨?_, ?_, fun _ u hu => ⟨saved, hsaved, (carries_saved hkeys u).1 hu⟩⟩
  -- nothing is written, and the row agrees with what the message carries
  · rcases rowUsage_spec husage hold.symm (hold ▸ hs.row) hsame hequal with
      ⟨heq, hnone⟩ | ⟨hnull, v, hv, heq⟩
    · constructor
      · rw [hnew, heq]
        exact hold ▸ hs.row
      · intro m u hm hu
        rw [hsaved, Option.some.injEq] at hm
        subst hm
        have hne : old ≠ .null := fun hnull => getUsage_ne_none_of_carries hu (hnone hnull)
        rw [hnew, heq]
        exact ⟨hne, hequal u hu hne⟩
    -- the row takes the usage over, which came with the payload
    · have hpayload : ∀ u, Carries saved u → Carries (savedPayload b message) u :=
        fun u hu => (hcarried u hu).resolve_right fun h => h.1 hnull
      have hcv := carries_of_getUsage hv
      constructor
      · right
        exact ⟨v, by rw [hnew, heq], ne_nil_of_carries hcv, (hagree v (hpayload v hcv)).1⟩
      · intro m u hm hu
        rw [hsaved, Option.some.injEq] at hm
        subst hm
        rw [hnew, heq]
        exact ⟨by simp, (hagree u (hpayload u hu)).2.1 v (hpayload v hcv)⟩
  · intro hfree
    rcases rowUsage_spec husage hold.symm (hold ▸ hs.row) hsame hequal with
      ⟨heq, _⟩ | ⟨hnull, v, hv, _⟩
    · rw [hnew, heq]
    · rcases hfree with hne | hno
      · exact absurd hnull hne
      · rcases hcarried v (carries_of_getUsage hv) with hp | ⟨hne, _⟩
        · exact absurd hp (hno v)
        · exact absurd hnull hne

end Step

/-! ## Runs -/

/-- No save has stored the message yet. -/
def Unsaved (chatId messageId : String) (store : Store) : Prop :=
  storedMessage store messageId = none ∧ store.rows.get? (compositeId chatId messageId) = none

/-- Before the first save nothing is to be kept. -/
theorem Unsaved.settled {chatId messageId : String} {store : Store}
    (h : Unsaved chatId messageId store) : Settled chatId messageId store := by
  constructor
  · left
    simp [rowUsageOf, h.2]
  · intro m u hm
    rw [h.1] at hm
    cases hm

/-- One call: the payload, whether it touches the chat, and the time. -/
structure SaveCall where
  message : Message
  touch : Bool
  now : ℚ

/-- A save whose usages agree with each other and with the row. -/
def AgreeingSave (b : Backend) (chatId messageId : String) (call : SaveCall)
    (s s' : Store) : Prop :=
  UsageAgrees (rowUsageOf s chatId (sanitizeText messageId)) (savedPayload b call.message) ∧
    s' = saveMessage b chatId messageId call.touch call.now call.message s

/-- In every reachable store the two usages agree. -/
theorem settled_of_reachable {b : Backend} {chatId messageId : String} {s : Store}
    (h : Transition.Reachable (Unsaved chatId (sanitizeText messageId))
      (AgreeingSave b chatId messageId) s) : Settled chatId (sanitizeText messageId) s := by
  refine h.invariant (fun _ => Unsaved.settled) ?_
  rintro call s _ hs ⟨hagree, rfl⟩
  unfold saveMessage
  cases hsave : upsertMessageToChat b chatId messageId call.touch call.now call.message s with
  | none => exact hs
  | some s' => exact (settled_upsert hs hagree hsave).1

/-- In every run of saves whose usages agree, a save that carries no usage leaves the row's
usage unchanged, and so does repeating an agreeing save that went through. -/
theorem usage_saves (b : Backend) (chatId messageId : String) (s : Store)
    (h : Transition.Reachable (Unsaved chatId (sanitizeText messageId))
      (AgreeingSave b chatId messageId) s) (call : SaveCall) :
    ((∀ u, ¬ Carries (savedPayload b call.message) u) →
      rowUsageOf (saveMessage b chatId messageId call.touch call.now call.message s) chatId
          (sanitizeText messageId) =
        rowUsageOf s chatId (sanitizeText messageId)) ∧
    (UsageAgrees (rowUsageOf s chatId (sanitizeText messageId)) (savedPayload b call.message) →
      ∀ s', upsertMessageToChat b chatId messageId call.touch call.now call.message s = some s' →
      ∀ touch now, rowUsageOf (saveMessage b chatId messageId touch now call.message s') chatId
          (sanitizeText messageId) =
        rowUsageOf s' chatId (sanitizeText messageId)) := by
  have hs := settled_of_reachable h
  constructor
  · intro hfree
    unfold saveMessage
    cases hsave : upsertMessageToChat b chatId messageId call.touch call.now call.message s with
    | none => rfl
    | some s' =>
        have hagree : UsageAgrees (rowUsageOf s chatId (sanitizeText messageId))
            (savedPayload b call.message) := fun u hu => absurd hu (hfree u)
        exact (settled_upsert hs hagree hsave).2.1 (Or.inr hfree)
  · intro hagree s' hsave touch now
    obtain ⟨hs', _, hstored⟩ := settled_upsert hs hagree hsave
    unfold saveMessage
    cases hagain : upsertMessageToChat b chatId messageId touch now call.message s' with
    | none => rfl
    | some s'' =>
        cases hchat : s.chat with
        | none =>
            -- no chat: neither save does anything
            simp only [upsertMessageToChat, hchat, Option.some.injEq] at hsave
            subst hsave
            simp only [upsertMessageToChat, hchat, Option.some.injEq] at hagain
            rw [hagain, Option.getD_some]
        | some item =>
            -- what the payload carries is now offered by the stored message, hence settled
            have hoffered : ∀ u, Carries (savedPayload b call.message) u →
                rowUsageOf s' chatId (sanitizeText messageId) ≠ .null ∧
                  Json.pyEq (.obj u) (rowUsageOf s' chatId (sanitizeText messageId)) = true := by
              intro u hu
              obtain ⟨m, hm, hcm⟩ := hstored (by simp [hchat]) u hu
              exact hs'.offered m u hm hcm
            have hagree' : UsageAgrees (rowUsageOf s' chatId (sanitizeText messageId))
                (savedPayload b call.message) := fun u hu =>
              ⟨(hagree u hu).1, (hagree u hu).2.1, Or.inr (hoffered u hu).2⟩
            apply (settled_upsert hs' hagree' hagain).2.1
            by_cases hnull : rowUsageOf s' chatId (sanitizeText messageId) = .null
            · exact Or.inr fun u hu => (hoffered u hu).1 hnull
            · exact Or.inl hnull

/-- A payload with `n` input and `n` output tokens. -/
def usagePayload (n : ℚ) : Message :=
  [("usage", .obj [("input_tokens", .num n), ("output_tokens", .num n)])]

/-- A payload without usage. -/
def textPayload : Message := [("content", .str "hi")]

/-- The store after a save of the message `m` in the chat `t`. -/
def savedIn (store : Store) (message : Message) : Store :=
  saveMessage plainBackend "t" "m" true 0 message store

/-- The second payload carries no usage. -/
theorem textPayload_carries_nothing (u : Obj) :
    ¬ Carries (savedPayload plainBackend textPayload) u := by
  have hpayload : savedPayload plainBackend textPayload = textPayload := by decide +kernel
  rw [hpayload]
  rintro ⟨raw, hu | ⟨info, hi, _⟩, _⟩
  · cases hu
  · cases hi

/-- The first payload's usage agrees. -/
theorem usagePayload_one_agrees :
    UsageAgrees .null (savedPayload plainBackend (usagePayload 1)) := by
  have hpayload : savedPayload plainBackend (usagePayload 1) = usagePayload 1 := by decide +kernel
  have hnormal : normalizeUsage [("input_tokens", .num 1), ("output_tokens", .num 1)] =
      some [("input_tokens", .num 1), ("output_tokens", .num 1), ("total_tokens", .num 2)] := by
    decide +kernel
  have hcarries : ∀ u, Carries (usagePayload 1) u →
      u = [("input_tokens", .num 1), ("output_tokens", .num 1), ("total_tokens", .num 2)] := by
    rintro u ⟨raw, hu | ⟨info, hi, _⟩, _, hn⟩
    · have hraw : raw = [("input_tokens", .num 1), ("output_tokens", .num 1)] :=
        (Json.obj.injEq _ _ ▸ hu : _ = raw).symm
      rw [hraw, hnormal, Option.some.injEq] at hn
      exact hn.symm
    · cases hi
  rw [hpayload]
  intro u hu
  refine ⟨?_, ?_, Or.inl rfl⟩
  · rw [hcarries u hu]
    decide +kernel
  · intro v hv
    rw [hcarries u hu, hcarries v hv]
    exact Json.pyEq_refl _

/-- A save without usage keeps the stored one. -/
theorem usage_saves_one :
    rowUsageOf (savedIn (savedIn emptyChat (usagePayload 1)) textPayload) "t" "m" =
      rowUsageOf (savedIn emptyChat (usagePayload 1)) "t" "m" := by
  have hid : sanitizeText "m" = "m" := by decide +kernel
  have hunsaved : Unsaved "t" (sanitizeText "m") emptyChat := by
    rw [hid]
    constructor <;> rfl
  have hagree : UsageAgrees (rowUsageOf emptyChat "t" (sanitizeText "m"))
      (savedPayload plainBackend (usagePayload 1)) := by
    rw [hid]
    exact usagePayload_one_agrees
  have hrun := (usage_saves plainBackend "t" "m" (savedIn emptyChat (usagePayload 1))
    (.next (a := ⟨usagePayload 1, true, 0⟩) (.start hunsaved) ⟨hagree, rfl⟩)
    ⟨textPayload, true, 0⟩).1 textPayload_carries_nothing
  rw [hid] at hrun
  exact hrun

/-- The store after two saves with different usages. -/
def twoUsages : Store := savedIn (savedIn emptyChat (usagePayload 1)) (usagePayload 2)

/-- After two different usages the row holds their sum and the stored message the second
one: every further save, with that usage or with none, adds it again. -/
theorem usage_saves_accumulate :
    Unsaved "t" "m" emptyChat ∧ (∀ u, ¬ Carries (savedPayload plainBackend textPayload) u) ∧
    rowUsageOf (savedIn twoUsages textPayload) "t" "m" ≠ rowUsageOf twoUsages "t" "m" ∧
    rowUsageOf (savedIn twoUsages (usagePayload 2)) "t" "m" ≠ rowUsageOf twoUsages "t" "m" := by
  refine ⟨⟨rfl, rfl⟩, textPayload_carries_nothing, ?_⟩
  constructor <;> decide +kernel

end OpenWebUI.Chat
