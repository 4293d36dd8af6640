import OpenWebUI.Lib.Keyed
import OpenWebUI.Timers.System

/-! # What holds of every run

The right to end a timer is held once: by its pending row, by one execution, or by the
turn that was committed. A cancellation takes it from the row only, so an execution that
holds it can still commit over a cancelled row.
-/

namespace OpenWebUI.Timers

open Py Transition Keyed

variable {s s' : State} {c : ClaimId} {t : TimerId} {a : Answers}

/-! ## Turns -/

theorem turnsOf_set (chat : ParentChat) (currentId : Option MessageId) (k : MessageId) (m : Message)
    (t : TimerId) :
    turnsOf ⟨chat.messages.set k m, currentId⟩ t +
        ((chat.messages.get? k).elim 0 fun old => (decide (old.timerId = some t)).toNat) =
      turnsOf chat t + (decide (m.timerId = some t)).toNat :=
  Assoc.countP_set chat.messages.nodup_keys k m fun m => m.timerId = some t

/-- Linking a child adds no turn. -/
theorem turnsOf_addChild (messages : Dict MessageId Message) (parentId : Option MessageId)
    (child : MessageId) (currentId : Option MessageId) (t : TimerId) :
    turnsOf ⟨addChild messages parentId child, currentId⟩ t = turnsOf ⟨messages, currentId⟩ t := by
  unfold addChild
  split
  · rfl
  · next p m hm =>
      split_ifs
      · rfl
      · -- the message keeps its timer
        obtain ⟨q, -, hq⟩ := Option.bind_eq_some_iff.mp hm
        obtain ⟨m', hget, hpair⟩ := Option.map_eq_some_iff.mp hq
        cases hpair
        have h := turnsOf_set ⟨messages, currentId⟩ currentId p
          { m with childrenIds := m.childrenIds ++ [child] } t
        dsimp only at h
        rw [hget, Option.elim_some] at h
        omega

/-- A turn adds one message of its timer at most, and none of another timer. -/
theorem turnsOf_addTurn (chat : ParentChat) (t u : TimerId) (claim : ClaimId) (info : Meta)
    (job : Job) (now : ℤ) :
    turnsOf (addTurn chat t claim info job now) u ≤ turnsOf chat u + if t = u then 1 else 0 := by
  unfold addTurn
  dsimp only
  rw [turnsOf_addChild]
  have huser := turnsOf_set chat none (.userTurn claim)
    (userMessage t claim (turnParent chat info) job now) u
  have hassistant := turnsOf_set
    ⟨chat.messages.set (.userTurn claim) (userMessage t claim (turnParent chat info) job now), none⟩
    (some (.assistantTurn claim)) (.assistantTurn claim) (assistantMessage claim job now) u
  have hone :
    (decide ((userMessage t claim (turnParent chat info) job now).timerId = some u)).toNat =
      if t = u then 1 else 0 := by
    by_cases h : t = u <;> simp [userMessage, h]
  have hnone : (decide ((assistantMessage claim job now).timerId = some u)).toNat = 0 := rfl
  dsimp only at hassistant
  omega

/-! ## The invariant -/

/-- Neither the turn nor an error nor the way back is committed or decided. -/
def Phase.unfired : Phase → Bool
  | .fired | .settle _ | .settling _ _ | .done => false
  | _ => true

/-- The copy of the parent chat an execution is to write back. -/
def Phase.copy : Phase → Option ParentChat
  | .turn _ _ parent | .fire _ _ parent _ => some parent
  | _ => none

structure Sound (s : State) : Prop where
  column : ∀ (t : TimerId) (row : Row), s.timers[t]? = some row →
    (row.timerAt.isSome ↔ row.info.status = .pending)
  waiting : ∀ (t : TimerId) (row : Row), s.timers[t]? = some row → row.info.status = .pending →
    t ∉ s.turns ∧ ∀ (c : ClaimId) (e : Execution), s.claims[c]? = some e → e.timer = t →
      e.phase = .done
  tracked : ∀ (c : ClaimId) (e : Execution), s.claims[c]? = some e → e.phase.unfired →
    e.timer ∉ s.turns ∧
    ∀ row : Row, s.timers[e.timer]? = some row → row.info.status = .running ∨
      row.info.status = .cancelled
  exclusive : ∀ (c d : ClaimId) (e f : Execution), s.claims[c]? = some e → s.claims[d]? = some f →
    e.phase ≠ .done →
    f.phase ≠ .done → e.timer = f.timer → c = d
  claimed : ∀ (c : ClaimId) (e : Execution), s.claims[c]? = some e → e.timer < s.timers.length
  known : ∀ t ∈ s.turns, t < s.timers.length
  once : s.turns.Nodup
  chats : ∀ chat t, turnsOf (s.chats chat) t ≤ s.turns.count t
  copies : ∀ (c : ClaimId) (e : Execution) (parent : ParentChat), s.claims[c]? = some e →
    e.phase.copy = some parent →
    ∀ t, turnsOf parent t ≤ s.turns.count t

/-- The state without timers is sound. -/
theorem sound_initial (h : Initial s) : Sound s := by
  obtain ⟨htimers, hclaims, -, hturns, hchats⟩ := h
  constructor
  case chats =>
    intro chat t
    rw [hchats]
    exact Nat.zero_le _
  case once => rw [hturns]; exact List.nodup_nil
  all_goals simp [htimers, hclaims, hturns]

/-- The invariant does not look at what cancellations have read. -/
theorem Sound.cancels (h : Sound s) (cancels : List (List Snapshot)) :
    Sound { s with cancels := cancels } :=
  ⟨h.column, h.waiting, h.tracked, h.exclusive, h.claimed, h.known, h.once, h.chats, h.copies⟩

/-- A write to one row. -/
theorem Sound.write (h : Sound s) (f : Row → Row)
    (hcolumn : ∀ row : Row, s.timers[t]? = some row →
      ((f row).timerAt.isSome ↔ (f row).info.status = .pending))
    (hwaiting : ∀ row : Row, s.timers[t]? = some row → (f row).info.status = .pending →
      t ∉ s.turns ∧ ∀ (c : ClaimId) (e : Execution), s.claims[c]? = some e → e.timer = t →
      e.phase = .done)
    (htracked : ∀ (c : ClaimId) (e : Execution), s.claims[c]? = some e → e.phase.unfired →
      e.timer = t → ∀ row : Row, s.timers[t]? = some row → (f row).info.status = .running ∨
      (f row).info.status = .cancelled) :
    Sound { s with timers := s.timers.modify t f } := by
  constructor
  case column =>
    intro u row hrow
    rcases of_modify hrow with ⟨-, hrow⟩ | ⟨rfl, old, hold, rfl⟩
    -- the timer that is written, and the others
    · exact h.column u row hrow
    · exact hcolumn old hold
  case waiting =>
    intro u row hrow hpending
    rcases of_modify hrow with ⟨-, hrow⟩ | ⟨rfl, old, hold, rfl⟩
    · exact h.waiting u row hrow hpending
    · exact hwaiting old hold hpending
  case tracked =>
    intro c e he hunfired
    refine ⟨(h.tracked c e he hunfired).1, fun row hrow => ?_⟩
    rcases of_modify hrow with ⟨-, hrow⟩ | ⟨heq, old, hold, rfl⟩
    · exact (h.tracked c e he hunfired).2 row hrow
    · exact htracked c e he hunfired heq.symm old (heq ▸ hold)
  case exclusive => exact h.exclusive
  case claimed =>
    intro c e he
    rw [List.length_modify]
    exact h.claimed c e he
  case known =>
    intro u hu
    rw [List.length_modify]
    exact h.known u hu
  case once => exact h.once
  case chats => exact h.chats
  case copies => exact h.copies

/-- A step of an execution that writes no row and adds no turn. -/
theorem Sound.setPhase (h : Sound s) {e : Execution} (he : s.claims[c]? = some e)
    (hactive : e.phase ≠ .done) (p : Phase) (hunfired : p.unfired → e.phase.unfired)
    (hcopy : ∀ parent, p.copy = some parent → ∀ t, turnsOf parent t ≤ s.turns.count t) :
    Sound (s.setPhase c p) := by
  constructor
  case column => exact h.column
  case waiting =>
    intro u row hrow hpending
    refine ⟨(h.waiting u row hrow hpending).1, fun d f hf hu => ?_⟩
    rcases of_modify hf with ⟨-, hf⟩ | ⟨rfl, e', he', rfl⟩
    · exact (h.waiting u row hrow hpending).2 d f hf hu
    · rw [he, Option.some.injEq] at he'
      subst he'
      exact absurd ((h.waiting u row hrow hpending).2 c e he hu) hactive
  case tracked =>
    intro d f hf hf'
    rcases of_modify hf with ⟨-, hf⟩ | ⟨rfl, e', he', rfl⟩
    · exact h.tracked d f hf hf'
    · rw [he, Option.some.injEq] at he'
      subst he'
      exact h.tracked c e he (hunfired hf')
  case exclusive =>
    -- the timers of the executions are the same, and this one was active
    have hold : ∀ (d : ClaimId) (f : Execution), (s.setPhase c p).claims[d]? = some f →
      f.phase ≠ .done →
        ∃ f' : Execution, s.claims[d]? = some f' ∧ f'.phase ≠ .done ∧ f'.timer = f.timer := by
      intro d f hf hactive'
      rcases of_modify hf with ⟨-, hf⟩ | ⟨rfl, e', he', rfl⟩
      · exact ⟨f, hf, hactive', rfl⟩
      · rw [he, Option.some.injEq] at he'
        subst he'
        exact ⟨e, he, hactive, rfl⟩
    intro d₁ d₂ f₁ f₂ h₁ h₂ ha₁ ha₂ heq
    obtain ⟨g₁, hg₁, hga₁, ht₁⟩ := hold d₁ f₁ h₁ ha₁
    obtain ⟨g₂, hg₂, hga₂, ht₂⟩ := hold d₂ f₂ h₂ ha₂
    exact h.exclusive d₁ d₂ g₁ g₂ hg₁ hg₂ hga₁ hga₂ (ht₁.trans (heq.trans ht₂.symm))
  case claimed =>
    intro d f hf
    rcases of_modify hf with ⟨-, hf⟩ | ⟨rfl, e', he', rfl⟩
    · exact h.claimed d f hf
    · exact h.claimed c e' he'
  case known => exact h.known
  case once => exact h.once
  case chats => exact h.chats
  case copies =>
    intro d f parent hf hparent
    rcases of_modify hf with ⟨-, hf⟩ | ⟨rfl, e', -, rfl⟩
    · exact h.copies d f parent hf hparent
    · exact hcopy parent hparent

/-- A step to a phase that holds no copy of the parent. -/
theorem Sound.move (h : Sound s) {e : Execution} (he : s.claims[c]? = some e)
    (hactive : e.phase ≠ .done) (p : Phase) (hunfired : p.unfired = false ∨ e.phase.unfired)
    (hcopy : p.copy = none) :
    Sound (s.setPhase c p) := by
  refine h.setPhase he hactive p ?_ ?_
  · intro hp
    rcases hunfired with hfalse | hunfired
    · rw [hfalse] at hp
      cases hp
    · exact hunfired
  · intro parent hparent
    rw [hcopy] at hparent
    cases hparent

/-- The execution of a running row whose other executions are over. -/
theorem Sound.spawn (h : Sound s) {row : Row} (hrow : s.timers[t]? = some row)
    (hrunning : row.info.status = .running) (hturn : t ∉ s.turns)
    (hover : ∀ (c : ClaimId) (e : Execution), s.claims[c]? = some e → e.timer = t →
      e.phase = .done) :
    Sound { s with claims := s.claims ++ [⟨t, .start⟩] } := by
  constructor
  case column => exact h.column
  case waiting =>
    intro u row' hrow' hpending
    -- a pending timer is not the one that runs
    refine ⟨(h.waiting u row' hrow' hpending).1, fun d f hf hu => ?_⟩
    rcases of_snoc hf with hf | ⟨-, rfl⟩
    · exact (h.waiting u row' hrow' hpending).2 d f hf hu
    · obtain rfl : t = u := hu
      rw [hrow, Option.some.injEq] at hrow'
      subst hrow'
      rw [hrunning] at hpending
      cases hpending
  case tracked =>
    intro d f hf hf'
    rcases of_snoc hf with hf | ⟨-, rfl⟩
    · exact h.tracked d f hf hf'
    · refine ⟨hturn, fun row' hrow' => .inl ?_⟩
      have hrow' : s.timers[t]? = some row' := hrow'
      rw [hrow, Option.some.injEq] at hrow'
      exact hrow' ▸ hrunning
  case exclusive =>
    intro d₁ d₂ f₁ f₂ h₁ h₂ ha₁ ha₂ heq
    -- no other execution of the timer is under way
    rcases of_snoc h₁ with h₁ | ⟨rfl, rfl⟩ <;> rcases of_snoc h₂ with h₂ | ⟨rfl, rfl⟩
    · exact h.exclusive d₁ d₂ f₁ f₂ h₁ h₂ ha₁ ha₂ heq
    · exact absurd (hover d₁ f₁ h₁ heq) ha₁
    · exact absurd (hover d₂ f₂ h₂ heq.symm) ha₂
    · rfl
  case claimed =>
    intro d f hf
    rcases of_snoc hf with hf | ⟨-, rfl⟩
    · exact h.claimed d f hf
    · exact (List.getElem?_eq_some_iff.mp hrow).1
  case known => exact h.known
  case once => exact h.once
  case chats => exact h.chats
  case copies =>
    intro d f parent hf hparent
    rcases of_snoc hf with hf | ⟨-, rfl⟩
    · exact h.copies d f parent hf hparent
    · cases hparent

/-- A turn of a timer that nothing else can end. -/
theorem Sound.addTurn (h : Sound s) (hlt : t < s.timers.length) (hturn : t ∉ s.turns)
    (hrow : ∀ row : Row, s.timers[t]? = some row → row.info.status ≠ .pending)
    (hover : ∀ (c : ClaimId) (e : Execution), s.claims[c]? = some e → e.phase.unfired → e.timer ≠ t)
    {chat : String} {parent : ParentChat}
    (hparent : ∀ u, turnsOf parent u ≤ s.turns.count u + if t = u then 1 else 0) :
    Sound { s with chats := Function.update s.chats chat parent, turns := s.turns ++ [t] } := by
  have hcount : ∀ u, (s.turns ++ [t]).count u = s.turns.count u + if t = u then 1 else 0 := by
    intro u
    rw [List.count_append, List.count_singleton]
    simp only [beq_iff_eq]
  constructor
  case column => exact h.column
  case waiting =>
    intro u row hrow' hpending
    refine ⟨?_, (h.waiting u row hrow' hpending).2⟩
    rw [List.mem_append, List.mem_singleton]
    -- a timer that fired is not pending
    rintro (hu | rfl)
    · exact (h.waiting u row hrow' hpending).1 hu
    · exact hrow row hrow' hpending
  case tracked =>
    intro c e he hunfired
    refine ⟨?_, (h.tracked c e he hunfired).2⟩
    rw [List.mem_append, List.mem_singleton]
    rintro (hu | hu)
    · exact (h.tracked c e he hunfired).1 hu
    · exact hover c e he hunfired hu
  case exclusive => exact h.exclusive
  case claimed => exact h.claimed
  case known =>
    intro u hu
    rcases List.mem_append.mp hu with hu | hu
    · exact h.known u hu
    · rw [List.mem_singleton.mp hu]
      exact hlt
  case once =>
    refine List.Nodup.append h.once (List.nodup_singleton t) ?_
    -- the turn is the first one of this timer
    intro u hu hu'
    exact hturn (List.mem_singleton.mp hu' ▸ hu)
  case chats =>
    intro chat' u
    dsimp only
    rw [hcount]
    -- only this chat gets the turn
    by_cases hc : chat' = chat
    · subst hc
      rw [Function.update_self]
      exact hparent u
    · rw [Function.update_of_ne hc]
      exact (h.chats chat' u).trans (Nat.le_add_right _ _)
  case copies =>
    intro c e parent' he hcopy u
    rw [hcount]
    exact (h.copies c e parent' he hcopy u).trans (Nat.le_add_right _ _)

/-! ## The operations keep it -/

theorem mem_dueTimers {rows : List Row} {now : ℤ} {limit : ℕ} {locked : TimerId → Bool}
    (h : t ∈ dueTimers rows now limit locked) :
    ∃ row, rows[t]? = some row ∧ row.info.status = .pending := by
  obtain ⟨e, he, rfl⟩ := List.mem_map.mp h
  have he := List.mem_filter.mp ((List.mem_insertionSort _).mp (List.mem_of_mem_take he))
  obtain ⟨⟨row, u⟩, hrow, rfl⟩ := List.mem_map.mp he.1
  exact ⟨row, List.mem_zipIdx_iff_getElem?.mp hrow, (of_decide_eq_true he.2).1.1⟩

theorem nodup_dueTimers (rows : List Row) (now : ℤ) (limit : ℕ) (locked : TimerId → Bool) :
    (dueTimers rows now limit locked).Nodup := by
  have hall : (((rows.zipIdx.map Prod.swap)).map Prod.fst).Nodup := by
    have : (rows.zipIdx.map Prod.swap).map Prod.fst = rows.zipIdx.map Prod.snd := by
      rw [List.map_map]
      rfl
    rw [this, List.zipIdx_map_snd]
    exact List.nodup_range'
  have hsorted :
    (((rows.zipIdx.map Prod.swap).filter fun e => e.2.due now ∧ locked e.1 = false).insertionSort
      earlier |>.map Prod.fst).Nodup := by
    refine ((List.perm_insertionSort earlier _).map Prod.fst).nodup_iff.mpr ?_
    exact hall.sublist (List.filter_sublist.map _)
  exact hsorted.sublist ((List.take_sublist _ _).map _)

/-- Claiming a pending timer keeps the invariant. -/
theorem Sound.claimOne (h : Sound s) {row : Row} (hrow : s.timers[t]? = some row)
    (hpending : row.info.status = .pending) (now : ℤ) : Sound (s.claimOne now t) := by
  obtain ⟨hturn, hover⟩ := h.waiting t row hrow hpending
  have hwrite :
    Sound { s with timers := s.timers.modify t fun row => row.claimed s.claims.length now } := by
    refine h.write _ ?_ ?_ ?_
    · intro old _
      exact ⟨nofun, nofun⟩
    · exact fun _ _ => nofun
    · exact fun _ _ _ _ _ _ _ => .inl rfl
  have hclaimed : (s.timers.modify t fun row => row.claimed s.claims.length now)[t]? =
      some (row.claimed s.claims.length now) := by
    rw [List.getElem?_modify_eq, hrow]
    rfl
  exact hwrite.spawn hclaimed rfl hturn hover

/-- Claiming a list of distinct pending timers keeps the invariant. -/
theorem Sound.claimAll (now : ℤ) {ts : List TimerId} (hnodup : ts.Nodup) (h : Sound s)
    (hts : ∀ t ∈ ts, ∃ row, s.timers[t]? = some row ∧ row.info.status = .pending) :
    Sound (ts.foldl (State.claimOne now) s) := by
  induction ts generalizing s with
  | nil => exact h
  | cons t ts ih =>
      have ⟨hmem, hnodup⟩ := List.nodup_cons.mp hnodup
      obtain ⟨row, hrow, hpending⟩ := hts t List.mem_cons_self
      refine ih hnodup (h.claimOne hrow hpending now) fun u hu => ?_
      -- the other rows are as they were
      obtain ⟨row', hrow', hpending'⟩ := hts u (List.mem_cons_of_mem _ hu)
      refine ⟨row', ?_, hpending'⟩
      rw [← hrow']
      exact List.getElem?_modify_ne _ _ (fun heq => hmem (heq ▸ hu))

/-- Writing a cancellation back keeps the invariant. -/
theorem Sound.cancelOne (h : Sound s) (now : ℤ) (snap : Snapshot) :
    Sound (s.cancelOne now snap) := by
  refine h.write _ ?_ ?_ ?_
  · intro old _
    exact ⟨nofun, nofun⟩
  · exact fun _ _ => nofun
  · exact fun _ _ _ _ _ _ _ => .inr rfl

/-- The commit of a cancellation keeps the invariant. -/
theorem Sound.cancelTimers (h : Sound s) (call : ℕ) (snaps : List Snapshot) (now : ℤ) :
    Sound (s.cancelTimers call snaps now) := by
  suffices hall : Sound (snaps.foldl (State.cancelOne now) s) from hall.cancels _
  induction snaps generalizing s with
  | nil => exact h
  | cons snap snaps ih => exact ih (h.cancelOne now snap)

/-- A new timer keeps the invariant. -/
theorem Sound.create (h : Sound s) {row : Row} (hpending : row.info.status = .pending)
    (hcolumn : row.timerAt.isSome) : Sound { s with timers := s.timers ++ [row] } := by
  constructor
  case column =>
    intro u row' hrow'
    rcases of_snoc hrow' with hrow' | ⟨-, rfl⟩
    · exact h.column u row' hrow'
    · exact ⟨fun _ => hpending, fun _ => hcolumn⟩
  case waiting =>
    intro u row' hrow' hpending'
    rcases of_snoc hrow' with hrow' | ⟨rfl, rfl⟩
    · exact h.waiting u row' hrow' hpending'
    · -- the new id is in use nowhere
      refine ⟨fun hu => Nat.lt_irrefl _ (h.known _ hu), fun c e he heq => ?_⟩
      exact absurd (heq ▸ h.claimed c e he) (Nat.lt_irrefl _)
  case tracked =>
    intro c e he hunfired
    refine ⟨(h.tracked c e he hunfired).1, fun row' hrow' => ?_⟩
    rcases of_snoc hrow' with hrow' | ⟨heq, -⟩
    · exact (h.tracked c e he hunfired).2 row' hrow'
    · exact absurd (heq ▸ h.claimed c e he) (Nat.lt_irrefl _)
  case exclusive => exact h.exclusive
  case claimed =>
    intro c e he
    rw [List.length_append]
    exact Nat.lt_of_lt_of_le (h.claimed c e he) (Nat.le_add_right _ _)
  case known =>
    intro u hu
    rw [List.length_append]
    exact Nat.lt_of_lt_of_le (h.known u hu) (Nat.le_add_right _ _)
  case once => exact h.once
  case chats => exact h.chats
  case copies => exact h.copies

/-- A new timer is pending and has a due time. -/
theorem createTimer_pending {r : TimerRequest} {row : Row} (h : createTimer r = .ok row) :
    row.info.status = .pending ∧ row.timerAt.isSome := by
  unfold createTimer at h
  split at h
  · cases h
  split at h
  · cases h
  split at h
  · cases h
  split at h
  · cases h
  split at h
  · cases h
  split at h
  · cases h
  cases h
  exact ⟨rfl, rfl⟩

/-- Where an execution has committed its turn, or its way back, its timer has no other. -/
theorem Sound.alone (h : Sound s) {e f : Execution} {d : ClaimId} (he : s.claims[c]? = some e)
    (hactive : e.phase ≠ .done) (p : Phase) (hp : p.unfired = false)
    (hf : (s.setPhase c p).claims[d]? = some f) (hf' : f.phase.unfired) : f.timer ≠ e.timer := by
  intro heq
  rcases of_modify hf with ⟨hne, hf⟩ | ⟨rfl, e', -, rfl⟩
  · refine hne (h.exclusive c d e f he hf hactive ?_ heq.symm)
    rintro hdone
    rw [hdone] at hf'
    cases hf'
  · rw [show p.unfired = true from hf'] at hp
    cases hp

/-- The row of an execution that is not over does not wait. -/
theorem Sound.not_pending (h : Sound s) {e : Execution} (he : s.claims[c]? = some e)
    (hactive : e.phase ≠ .done) {row : Row} (hrow : s.timers[e.timer]? = some row) :
    row.info.status ≠ .pending ∧ row.timerAt.isSome = false := by
  have hnot : row.info.status ≠ .pending := fun hpending =>
    hactive ((h.waiting _ row hrow hpending).2 c e he rfl)
  refine ⟨hnot, ?_⟩
  rw [← Bool.not_eq_true, h.column _ row hrow]
  exact hnot

/-- Putting a deferred timer back keeps the invariant. -/
theorem Sound.putBack (h : Sound s) {e : Execution} (he : s.claims[c]? = some e) {row : Row}
    (hphase : e.phase = .putBack row) :
    Sound ((s.writeRow e.timer row.info.putBack (some row.info.timerAt)).setPhase c .done) := by
  have hactive : e.phase ≠ .done := by simp [hphase]
  have hdone : Sound (s.setPhase c .done) := h.move he hactive .done (.inl rfl) rfl
  have hturn : e.timer ∉ s.turns := (h.tracked c e he (by rw [hphase]; rfl)).1
  show Sound { s.setPhase c .done with timers := s.timers.modify e.timer _ }
  refine hdone.write _ ?_ ?_ ?_
  · intro old _
    exact ⟨fun _ => rfl, fun _ => rfl⟩
  · -- every execution of the timer is over
    intro old _ _
    refine ⟨hturn, fun d f hf heq => ?_⟩
    rcases of_modify hf with ⟨hne, hf⟩ | ⟨-, e', -, rfl⟩
    · by_contra hf'
      exact hne (h.exclusive c d e f he hf hactive hf' heq.symm)
    · rfl
  · intro d f hf hf' heq
    exact absurd heq (h.alone he hactive .done rfl hf hf')

/-- Recording a failure keeps the invariant. -/
theorem Sound.fail (h : Sound s) {e : Execution} (he : s.claims[c]? = some e) {error : String}
    {row : Row} (hphase : e.phase = .settling error row) :
    Sound ((s.writeMeta e.timer (row.info.failed error)).setPhase c .done) := by
  have hactive : e.phase ≠ .done := by simp [hphase]
  have hdone : Sound (s.setPhase c .done) := h.move he hactive .done (.inl rfl) rfl
  show Sound { s.setPhase c .done with timers := s.timers.modify e.timer _ }
  refine hdone.write _ ?_ ?_ ?_
  · intro old hold
    rw [(h.not_pending he hactive hold).2]
    exact ⟨nofun, nofun⟩
  · exact fun _ _ => nofun
  · intro d f hf hf' heq
    exact absurd heq (h.alone he hactive .done rfl hf hf')

/-- The commit that fires a timer adds its first turn and keeps the invariant. -/
theorem Sound.fire (h : Sound s) {e : Execution} (he : s.claims[c]? = some e) {info : Meta}
    {job : Job} {parent : ParentChat} {row : Option Row}
    (hphase : e.phase = .fire info job parent row) (now : ℤ) :
    Sound { (match row with
        | none => s
        | some row => s.writeMeta e.timer (row.info.completed now)).setPhase c .fired with
      chats := Function.update s.chats info.parentChatId
        (Timers.addTurn parent e.timer c info job now)
      turns := s.turns ++ [e.timer] } := by
  have hactive : e.phase ≠ .done := by simp [hphase]
  have hfired : Sound (s.setPhase c .fired) := h.move he hactive .fired (.inl rfl) rfl
  have hturn : e.timer ∉ s.turns := (h.tracked c e he (by rw [hphase]; rfl)).1
  -- the copy that was read has no turn of this timer yet
  have hparent : ∀ u, turnsOf (Timers.addTurn parent e.timer c info job now) u ≤
      s.turns.count u + if e.timer = u then 1 else 0 := by
    intro u
    refine (turnsOf_addTurn parent e.timer u c info job now).trans (Nat.add_le_add_right ?_ _)
    exact h.copies c e parent he (by rw [hphase]; rfl) u
  cases row with
  -- the row was deleted meanwhile: only the turn is written
  | none =>
      refine hfired.addTurn (h.claimed c e he) hturn ?_ ?_ hparent
      · exact fun row hrow => (h.not_pending he hactive hrow).1
      · exact fun d f hf hf' => h.alone he hactive .fired rfl hf hf'
  -- the row is completed in the same commit
  | some row =>
      have hwrite : Sound { s.setPhase c .fired with
          timers := s.timers.modify e.timer fun old =>
            { old with info := row.info.completed now } } := by
        refine hfired.write _ ?_ ?_ ?_
        · intro old hold
          rw [(h.not_pending he hactive hold).2]
          exact ⟨nofun, nofun⟩
        · exact fun _ _ => nofun
        · intro d f hf hf' heq
          exact absurd heq (h.alone he hactive .fired rfl hf hf')
      refine hwrite.addTurn ?_ hturn ?_ ?_ hparent
      · rw [List.length_modify]
        exact h.claimed c e he
      · intro new hnew
        rcases of_modify hnew with ⟨hne, -⟩ | ⟨-, old, -, rfl⟩
        · exact absurd rfl hne
        · exact nofun
      · exact fun d f hf hf' => h.alone he hactive .fired rfl hf hf'

/-- Every phase of an execution keeps the invariant. -/
theorem Sound.executeDueTimer (h : Sound s) {e : Execution} (he : s.claims[c]? = some e)
    (a : Answers) :
    Sound (s.executeDueTimer c e.timer a e.phase) := by
  cases hp : e.phase with
  | start =>
      rw [State.executeDueTimer]
      -- the row may be gone, no longer running, or under another claim
      split
      · exact h.move he (by simp [hp]) _ (.inl rfl) rfl
      · split_ifs
        · exact h.move he (by simp [hp]) _ (.inl rfl) rfl
        · exact h.move he (by simp [hp]) _ (.inl rfl) rfl
        · exact h.move he (by simp [hp]) _ (.inr (by rw [hp]; rfl)) rfl
  | found info =>
      rw [State.executeDueTimer]
      split
      · exact h.move he (by simp [hp]) _ (.inl rfl) rfl
      · exact h.move he (by simp [hp]) _ (.inr (by rw [hp]; rfl)) rfl
  | ready info job =>
      rw [State.executeDueTimer]
      split_ifs
      -- a busy chat puts the timer back
      · exact h.move he (by simp [hp]) _ (.inl rfl) rfl
      · exact h.move he (by simp [hp]) _ (.inr (by rw [hp]; rfl)) rfl
      · refine h.setPhase he (by simp [hp]) _ (fun _ => by rw [hp]; rfl) fun parent hparent => ?_
        cases hparent
        -- the chat is read here
        exact h.chats _
  | defer =>
      rw [State.executeDueTimer]
      split
      · exact h.move he (by simp [hp]) _ (.inl rfl) rfl
      · exact h.move he (by simp [hp]) _ (.inr (by rw [hp]; rfl)) rfl
  | putBack row => exact h.putBack he hp
  | turn info job parent =>
      refine h.setPhase he (by simp [hp]) _ (fun _ => by rw [hp]; rfl) fun parent' hparent => ?_
      cases hparent
      -- the copy read before is the one written
      exact h.copies c e parent he (by rw [hp]; rfl)
  | fire info job parent row => exact h.fire he hp a.now
  | fired =>
      rw [State.executeDueTimer]
      split
      · exact h.move he (by simp [hp]) _ (.inl rfl) rfl
      · exact h.move he (by simp [hp]) _ (.inl rfl) rfl
  | settle error =>
      rw [State.executeDueTimer]
      split
      · exact h.move he (by simp [hp]) _ (.inl rfl) rfl
      · exact h.move he (by simp [hp]) _ (.inl rfl) rfl
  | settling error row => exact h.fail he hp
  | done => exact h

/-- Every step keeps the invariant. -/
theorem Sound.step (h : Sound s) {act : Action} (hs : Step act s s') : Sound s' := by
  unfold Step State.next at hs
  cases act with
  | create r =>
      dsimp only at hs
      split at hs
      · cases hs
      · next row hrow =>
          cases hs
          exact h.create (createTimer_pending hrow).1 (createTimer_pending hrow).2
  | claim now limit locked =>
      cases hs
      exact Sound.claimAll now (nodup_dueTimers _ _ _ _) h fun t ht => mem_dueTimers ht
  | cancelRead parentChatId event userId =>
      cases hs
      exact h.cancels _
  | cancelCommit call now =>
      dsimp only at hs
      split at hs
      · cases hs
      · cases hs
        exact h.cancelTimers _ _ _
  | execute c a =>
      dsimp only at hs
      split at hs
      · cases hs
      · next e he =>
          cases hs
          exact h.executeDueTimer he a

/-- Every reachable state is sound. -/
theorem sound_of_reachable (h : Reachable Initial Step s) : Sound s :=
  h.invariant (fun _ => sound_initial) fun _ _ _ hsound hs => hsound.step hs

/-! ## Cancelled timers -/

def Phase.commits : Phase → Bool
  | .putBack _ | .fire _ _ _ _ => true
  | _ => false

/-- When an execution commits its turn or its way back, its row is still running. -/
def StillRunning (act : Action) (s : State) : Prop :=
  match act with
  | .execute c _ => ∀ e row, s.claims[c]? = some e → e.phase.commits →
      s.timers[e.timer]? = some row →
    row.info.status = .running
  | _ => True

/-- The timer is cancelled, or its cancelled row was turned into an error. -/
def Settled (t : TimerId) (s : State) : Prop :=
  ∃ row, s.timers[t]? = some row ∧ (row.info.status = .cancelled ∨ row.info.status = .error)

/-- A write to another timer, or one that leaves this one over, keeps it over. -/
theorem Settled.write (h : Settled t s) (u : TimerId) (f : Row → Row)
    (hf : u = t → ∀ row, (f row).info.status = .cancelled ∨ (f row).info.status = .error) :
    Settled t { s with timers := s.timers.modify u f } := by
  obtain ⟨row, hrow, hstatus⟩ := h
  by_cases hut : u = t
  · refine ⟨f row, ?_, hf hut row⟩
    dsimp only
    rw [hut, List.getElem?_modify_eq, hrow]
    rfl
  · refine ⟨row, ?_, hstatus⟩
    dsimp only
    rw [List.getElem?_modify_ne _ _ hut, hrow]

/-- A poll that does not list the timer leaves it over and adds no turn. -/
theorem Settled.claimAll (now : ℤ) {ts : List TimerId} (h : Settled t s) (hts : t ∉ ts) :
    Settled t (ts.foldl (State.claimOne now) s) ∧
      (ts.foldl (State.claimOne now) s).turns = s.turns := by
  induction ts generalizing s with
  | nil => exact ⟨h, rfl⟩
  | cons u ts ih =>
      rw [List.mem_cons, not_or] at hts
      exact ih (h.write u _ fun hut => absurd hut.symm hts.1) hts.2

/-- A cancellation leaves the timer over and adds no turn. -/
theorem Settled.cancelAll (now : ℤ) (snaps : List Snapshot) (h : Settled t s) :
    Settled t (snaps.foldl (State.cancelOne now) s) ∧
      (snaps.foldl (State.cancelOne now) s).turns = s.turns := by
  induction snaps generalizing s with
  | nil => exact ⟨h, rfl⟩
  | cons snap snaps ih => exact ih (h.write snap.timer _ fun _ _ => .inl rfl)

/-- A settled timer is not the one whose running row an execution commits over. -/
theorem Settled.ne_of_running (h : Settled t s) {u : TimerId}
    (hrunning : ∀ row : Row, s.timers[u]? = some row → row.info.status = .running) : u ≠ t := by
  rintro rfl
  obtain ⟨row, hrow, hstatus⟩ := h
  rw [hrunning row hrow] at hstatus
  rcases hstatus with h | h <;> cases h

/-- An execution that commits only to running timers adds no turn of one that is over. -/
theorem Settled.executeDueTimer (h : Settled t s) {e : Execution} (a : Answers)
    (hclear : e.phase.commits → ∀ row : Row, s.timers[e.timer]? = some row →
      row.info.status = .running) :
    Settled t (s.executeDueTimer c e.timer a e.phase) ∧
      (s.executeDueTimer c e.timer a e.phase).turns.count t = s.turns.count t := by
  cases hp : e.phase with
  | putBack row =>
      have hne := h.ne_of_running (hclear (by rw [hp]; rfl))
      exact ⟨h.write e.timer _ fun heq => absurd heq hne, rfl⟩
  | fire info job parent row =>
      have hne := h.ne_of_running (hclear (by rw [hp]; rfl))
      have hcount : (s.turns ++ [e.timer]).count t = s.turns.count t := by
        rw [List.count_append, List.count_singleton, beq_eq_false_iff_ne.mpr hne]
        rfl
      refine ⟨?_, hcount⟩
      cases row with
      | none => exact h
      | some row => exact h.write e.timer _ fun heq => absurd heq hne
  | settling error row => exact ⟨h.write e.timer _ fun _ _ => .inr rfl, rfl⟩
  | turn info job parent => exact ⟨h, rfl⟩
  | done => exact ⟨h, rfl⟩
  | start =>
      rw [State.executeDueTimer]
      split
      · exact ⟨h, rfl⟩
      · split_ifs <;> exact ⟨h, rfl⟩
  | ready info job =>
      rw [State.executeDueTimer]
      split_ifs <;> exact ⟨h, rfl⟩
  | found _ | defer | fired | settle _ =>
      rw [State.executeDueTimer]
      split <;> exact ⟨h, rfl⟩

/-- No step brings a timer back that is over, where commits find their timer running. -/
theorem Settled.step (h : Settled t s) {act : Action} (hclear : StillRunning act s)
    (hs : Step act s s') : Settled t s' ∧ s'.turns.count t = s.turns.count t := by
  unfold Step State.next at hs
  cases act with
  | create r =>
      dsimp only at hs
      split at hs
      · cases hs
      · cases hs
        obtain ⟨row, hrow, hstatus⟩ := h
        refine ⟨⟨row, ?_, hstatus⟩, rfl⟩
        exact (List.getElem?_append_left (List.getElem?_eq_some_iff.mp hrow).1).trans hrow
  | claim now limit locked =>
      cases hs
      -- a settled timer is not claimed
      have hts : t ∉ dueTimers s.timers now limit locked := by
        intro ht
        obtain ⟨row, hrow, hpending⟩ := mem_dueTimers ht
        obtain ⟨row', hrow', hstatus⟩ := h
        rw [hrow, Option.some.injEq] at hrow'
        rw [← hrow', hpending] at hstatus
        rcases hstatus with h | h <;> cases h
      have hall := h.claimAll now hts
      exact ⟨hall.1, congrArg (List.count t) hall.2⟩
  | cancelRead parentChatId event userId =>
      cases hs
      exact ⟨h, rfl⟩
  | cancelCommit call now =>
      dsimp only at hs
      split at hs
      · cases hs
      · next snaps _ =>
          cases hs
          have hall := h.cancelAll now snaps
          exact ⟨hall.1, congrArg (List.count t) hall.2⟩
  | execute c a =>
      dsimp only at hs
      split at hs
      · cases hs
      · next e he =>
          cases hs
          exact h.executeDueTimer a fun hcommits row hrow => hclear e row he hcommits hrow

/-- Without an execution that commits over a row it no longer runs, a settled timer stays. -/
theorem Settled.run (h : Settled t s)
    (hrun : Reachable (· = s) (fun act s s' => StillRunning act s ∧ Step act s s') s') :
    Settled t s' ∧ s'.turns.count t = s.turns.count t := by
  induction hrun with
  | start hs =>
      subst hs
      exact ⟨h, rfl⟩
  | next _ hstep ih =>
      have hnext := ih.1.step hstep.1 hstep.2
      exact ⟨hnext.1, hnext.2.trans ih.2⟩

/-- An execution that commits over a row it no longer runs ends a cancelled timer again. -/
theorem overtaken (hsound : Sound s) {act : Action} (hs : Step act s s')
    (hnot : ¬ StillRunning act s) :
    ∃ (t : TimerId) (row : Row), s.timers[t]? = some row ∧ row.info.status = .cancelled ∧
      (s'.turns.count t = s.turns.count t + 1 ∨
        ∃ row' : Row, s'.timers[t]? = some row' ∧ row'.info.status = .pending) := by
  unfold StillRunning at hnot
  cases act with
  | execute c a =>
      dsimp only at hnot
      push Not at hnot
      obtain ⟨e, row, he, hcommits, hrow, hstatus⟩ := hnot
      have hunfired : e.phase.unfired := by
        cases hp : e.phase <;> rw [hp] at hcommits <;> first | rfl | cases hcommits
      refine ⟨e.timer, row, hrow,
        ((hsound.tracked c e he hunfired).2 row hrow).resolve_left hstatus, ?_⟩
      unfold Step State.next at hs
      dsimp only at hs
      rw [he] at hs
      cases hs
      cases hp : e.phase with
      | putBack old =>
          right
          refine ⟨{ row with info := old.info.putBack, timerAt := some old.info.timerAt }, ?_, rfl⟩
          show (s.timers.modify e.timer _)[e.timer]? = _
          rw [List.getElem?_modify_eq, hrow]
          rfl
      | fire info job parent old =>
          left
          show (s.turns ++ [e.timer]).count e.timer = _
          rw [List.count_append, List.count_singleton_self]
      | _ =>
          rw [hp] at hcommits
          cases hcommits
  | _ => exact absurd trivial hnot

/-- In every run the column is set while a timer waits, and a timer adds one turn at most.
A cancelled timer neither fires nor waits again unless an execution commits over a row it
no longer runs, and such a commit always ends a cancelled timer again. -/
theorem cancelled_timers_stay (s : State) (hs : Reachable Initial Step s) :
    ((∀ (t : TimerId) (row : Row), s.timers[t]? = some row →
        (row.timerAt.isSome ↔ row.info.status = .pending)) ∧
      (∀ t, s.turns.count t ≤ 1) ∧ ∀ chat t, turnsOf (s.chats chat) t ≤ 1) ∧
    (∀ (t : TimerId) (row : Row), s.timers[t]? = some row → row.info.status = .cancelled →
      ∀ s', Reachable (· = s) (fun act s s' => StillRunning act s ∧ Step act s s') s' →
        s'.turns.count t = s.turns.count t ∧
          ∃ row' : Row, s'.timers[t]? = some row' ∧ row'.info.status ≠ .pending) ∧
    ∀ act s', Step act s s' → ¬ StillRunning act s →
      ∃ (t : TimerId) (row : Row), s.timers[t]? = some row ∧ row.info.status = .cancelled ∧
        (s'.turns.count t = s.turns.count t + 1 ∨
          ∃ row' : Row, s'.timers[t]? = some row' ∧ row'.info.status = .pending) := by
  refine ⟨?_, fun t row hrow hcancelled s' hrun => ?_, fun act s' hstep hnot => ?_⟩
  · have h := sound_of_reachable hs
    have honce : ∀ t, s.turns.count t ≤ 1 := List.nodup_iff_count_le_one.mp h.once
    exact ⟨h.column, honce, fun chat t => (h.chats chat t).trans (honce t)⟩
  · have hsettled : Settled t s := ⟨row, hrow, .inl hcancelled⟩
    obtain ⟨⟨row', hrow', hstatus⟩, hcount⟩ := hsettled.run hrun
    refine ⟨hcount, row', hrow', ?_⟩
    rcases hstatus with h | h <;> rw [h] <;> decide
  · exact overtaken (sound_of_reachable hs) hstep hnot

/-! ## An overtaken cancellation -/

def exampleRequest : TimerRequest :=
  { prompt := "go", dueAt := .ok 5, cancelOn := ["chat.read"], userId := "u", modelId := "m",
    direct := false, parentChatId := "p", parentMessageId := none }

def exampleAnswers : Answers :=
  { found := ⟨true, some (.text "go"), some .user⟩, parentFound := true, busy := false,
    failure := none, now := 7 }

def exampleStart : State :=
  { timers := [], chats := fun _ => ⟨∅, none⟩, claims := [], cancels := [], turns := [] }

/-- The cancellation reads the pending row, and commits when the execution has checked it. -/
def untilCancelled : List Action :=
  [.create exampleRequest, .cancelRead "p" .chatRead "u", .claim 5 10 fun _ => false,
    .execute 0 exampleAnswers, .cancelCommit 0 6]

/-- The execution goes on to its turn. -/
def afterCancelled : List Action :=
  [.execute 0 exampleAnswers, .execute 0 exampleAnswers, .execute 0 exampleAnswers,
    .execute 0 exampleAnswers]

theorem initial_exampleStart : Initial exampleStart :=
  ⟨rfl, rfl, rfl, rfl, fun _ _ => rfl⟩

/-- `State.next`, for executions that commit over a running row. -/
def State.nextRunning (s : State) : Action → Option State
  | .execute c answers =>
    if s.claims[c]?.all fun e => !e.phase.commits ||
        s.timers[e.timer]?.all fun row => decide (row.info.status = .running) then
      s.next (.execute c answers)
    else none
  | act => s.next act

/-- The checked run of the example takes steps of the kind the theorem is about. -/
theorem stillRunning_of_nextRunning {act : Action} (h : s.nextRunning act = some s') :
    StillRunning act s ∧ Step act s s' := by
  cases act with
  | execute c answers =>
      rw [State.nextRunning] at h
      split_ifs at h with hrunning
      refine ⟨fun e row he hcommits hrow => ?_, h⟩
      rw [he, Option.all_some, hcommits, Bool.not_true, Bool.false_or, hrow,
        Option.all_some] at hrunning
      exact of_decide_eq_true hrunning
  | create r => exact ⟨trivial, h⟩
  | claim now limit locked => exact ⟨trivial, h⟩
  | cancelRead parentChatId event userId => exact ⟨trivial, h⟩
  | cancelCommit call now => exact ⟨trivial, h⟩

/-- Two timers, the first of which is cancelled while it waits. -/
def oneCancelled : List Action :=
  [.create exampleRequest, .create { exampleRequest with parentChatId := "q" },
    .cancelRead "p" .chatRead "u", .cancelCommit 0 6]

/-- The other timer is claimed, and executed to its turn. -/
def otherFires : List Action :=
  [.claim 5 10 fun _ => false, .execute 0 exampleAnswers, .execute 0 exampleAnswers,
    .execute 0 exampleAnswers, .execute 0 exampleAnswers, .execute 0 exampleAnswers]

/-- A timer that is cancelled before it is claimed stays so while another one fires. -/
theorem cancelled_timers_stay_unclaimed :
    ∃ s s' : State, (∃ row : Row, s.timers[0]? = some row ∧ row.info.status = .cancelled) ∧
      otherFires.foldlM State.nextRunning s = some s' ∧ s'.turns = [1] ∧ s.turns.count 0 ≤ 1 ∧
      s'.turns.count 0 = s.turns.count 0 ∧
      ∃ row' : Row, s'.timers[0]? = some row' ∧ row'.info.status ≠ .pending := by
  obtain ⟨s, hs⟩ : ∃ s, oneCancelled.foldlM State.next exampleStart = some s := ⟨_, rfl⟩
  obtain ⟨s', hs', hfired⟩ : ∃ s', otherFires.foldlM State.nextRunning s = some s' ∧
    s'.turns = [1] := by
    cases hs
    exact ⟨_, rfl, rfl⟩
  have hreach : Reachable Initial Step s := Reachable.foldlM (.start initial_exampleStart) hs
  obtain ⟨row, hrow, hcancelled⟩ :
      ∃ row : Row, s.timers[0]? = some row ∧ row.info.status = .cancelled := by
    cases hs
    exact ⟨_, rfl, rfl⟩
  have hstart : Reachable (· = s) (fun act s s' => State.nextRunning s act = some s') s :=
    .start rfl
  have hrun := (hstart.foldlM hs').mono fun _ _ _ => stillRunning_of_nextRunning
  exact ⟨s, s', ⟨row, hrow, hcancelled⟩, hs', hfired, (cancelled_timers_stay s hreach).1.2.1 0,
    (cancelled_timers_stay s hreach).2.1 0 row hrow hcancelled s' hrun⟩

/-- A timer fires after its cancellation was committed. -/
theorem cancelled_timer_fires :
    ∃ s s' : State, Reachable Initial Step s ∧
      (∃ row : Row, s.timers[0]? = some row ∧ row.info.status = .cancelled) ∧
      Reachable (· = s) Step s' ∧ s.turns.count 0 = 0 ∧ s'.turns.count 0 = 1 := by
  obtain ⟨s, hs⟩ : ∃ s, untilCancelled.foldlM State.next exampleStart = some s := ⟨_, rfl⟩
  obtain ⟨s', hs'⟩ : ∃ s', afterCancelled.foldlM State.next s = some s' := by
    cases hs
    exact ⟨_, rfl⟩
  refine ⟨s, s', ?_, ?_, ?_, ?_, ?_⟩
  · exact Reachable.foldlM (.start initial_exampleStart) hs
  · cases hs
    exact ⟨_, rfl, rfl⟩
  · exact Reachable.foldlM (.start rfl) hs'
  · cases hs
    rfl
  · cases hs
    cases hs'
    rfl

end OpenWebUI.Timers
