import OpenWebUI.Lib.Keyed
import OpenWebUI.Subagents.Delegate

/-! # Capacity is given back

A delegation holds its capacity from the moment the caller has taken it to the moment the
child's `finally` block gives it back. The caller hands it to the child when the child
task is created, and gives it back itself only if there is no child.
-/

namespace OpenWebUI.Subagents

open Transition Keyed

variable {config : Config} {full : Bool} {s s' : State} {d d' : Delegation}
    {effect : Effect} {id : ℕ}

/-! ## One delegation -/

/-- The caller has capacity that it has not handed to a child. -/
def Caller.holds : Caller → Bool
  | .inserting | .undoInsert => true
  | _ => false

/-- The child has capacity to give back. -/
def Child.holds : Child → Bool
  | .created | .running | .failing | .releasing => true
  | _ => false

/-- Between the taking of the capacity and its return. -/
def Delegation.holds (d : Delegation) : Bool := d.caller.holds || d.child.holds

/-- It holds a permit. -/
def Delegation.permit (d : Delegation) : Bool := d.took && d.holds

/-- It holds a place in `_background_active`. -/
def Delegation.slot (d : Delegation) : Bool := d.mode = .background && d.holds

/-- A foreground delegation without a permit, as where there is no limit. -/
def Delegation.Uncounted (d : Delegation) : Prop := d.mode = .foreground ∧ d.took = false

/-- No step loses the capacity or gives it back twice: the caller is not cancelled while
the capacity is its own, the registration of the child does not raise, and the child is
cancelled neither before its first step nor while it waits to give the capacity back. -/
def Event.Clear (d : Delegation) : Event → Prop
  | .callerCancelled => d.Uncounted ∨ (d.caller ≠ .inserting ∧ d.caller ≠ .undoInsert)
  | .callerRaises => d.Uncounted ∨ d.caller ≠ .registering
  | .childCancelled => d.Uncounted ∨ (d.child ≠ .created ∧ d.child ≠ .releasing)
  | _ => True

/-- The caller has not created a child. -/
def Caller.early : Caller → Bool
  | .start | .waiting | .inserting | .undoInsert => true
  | _ => false

structure Delegation.Ok (config : Config) (d : Delegation) : Prop where
  early : d.caller.early → d.child = .absent
  registered : d.caller ≠ .undoRegister
  untaken : d.caller = .start ∨ d.caller = .waiting ∨ d.mode = .background → d.took = false
  foreground : d.mode = .foreground → d.caller ≠ .undoInsert ∧ d.child ≠ .releasing
  counted : d.gaveBack = (d.took && !d.holds).toNat
  limited : d.mode = .foreground → config.maxConcurrent ≠ none → d.holds → d.took

/-- What an effect says about the capacity a delegation holds. -/
def Effect.Between (d d' : Delegation) : Effect → Prop
  | .none => d'.permit = d.permit ∧ d'.slot = d.slot
  | .acquire => d.mode = .foreground ∧ d.permit = false ∧ d'.permit = true ∧ d'.slot = d.slot
  | .release => d.permit = true ∧ d'.permit = false ∧ d'.slot = d.slot
  | .add => d.mode = .background ∧ d.slot = false ∧ d'.slot = true ∧ d'.permit = d.permit
  | .discard => d.slot = true ∧ d'.slot = false ∧ d'.permit = d.permit

/-- The step takes capacity. -/
def Effect.grows : Effect → Bool
  | .acquire | .add => true
  | _ => false

/-- A step keeps the rules, and has the effect it names. -/
def Kept (config : Config) (d : Delegation) (step : Delegation × Effect) : Prop :=
  step.1.Ok config ∧ step.2.Between d step.1

/-- Once there is a child, the caller has handed its capacity over. -/
theorem Delegation.Ok.late (h : d.Ok config) (hchild : d.child ≠ .absent) :
    d.caller.early = false ∧ d.caller.holds = false := by
  have hearly : d.caller.early = false := by
    by_contra he
    exact hchild (h.early (eq_true_of_ne_false he))
  refine ⟨hearly, ?_⟩
  cases hc : d.caller <;> rw [hc] at hearly <;> first | rfl | cases hearly

/-- The child goes on and holds what it held. -/
theorem kept_child (h : d.Ok config) (hchild : d.child ≠ .absent) (c : Child)
    (hholds : c.holds = d.child.holds) (hforeground : d.mode = .foreground → c ≠ .releasing) :
    Kept config d ({ d with child := c }, .none) := by
  have hsame : ({ d with child := c } : Delegation).holds = d.holds := by
    simp only [Delegation.holds, hholds]
  refine ⟨⟨?_, h.registered, h.untaken, ?_, ?_, ?_⟩, ?_, ?_⟩
  · intro he
    rw [(h.late hchild).1] at he
    cases he
  · exact fun hmode => ⟨(h.foreground hmode).1, hforeground hmode⟩
  · exact h.counted.trans (by rw [hsame])
  · exact fun hmode hlimit hholds => h.limited hmode hlimit (hsame ▸ hholds)
  · show (d.took && _) = (d.took && _)
    rw [hsame]
  · show (decide (d.mode = .background) && _) = (decide (d.mode = .background) && _)
    rw [hsame]

/-- The caller goes on and holds what it held. -/
theorem kept_caller (h : d.Ok config) (c : Caller) (hholds : c.holds = d.caller.holds)
    (hearly : c.early → d.caller.early) (hregistered : c ≠ .undoRegister)
    (huntaken : c = .start ∨ c = .waiting → d.caller = .start ∨ d.caller = .waiting)
    (hforeground : d.mode = .foreground → c ≠ .undoInsert) :
    Kept config d ({ d with caller := c }, .none) := by
  have hsame : ({ d with caller := c } : Delegation).holds = d.holds := by
    simp only [Delegation.holds, hholds]
  refine ⟨⟨fun he => h.early (hearly he), hregistered, ?_, ?_, ?_, ?_⟩, ?_, ?_⟩
  · rintro (hc | hc | hmode)
    · exact h.untaken ((huntaken (.inl hc)).imp_right .inl)
    · exact h.untaken ((huntaken (.inr hc)).imp_right .inl)
    · exact h.untaken (.inr (.inr hmode))
  · exact fun hmode => ⟨hforeground hmode, (h.foreground hmode).2⟩
  · exact h.counted.trans (by rw [hsame])
  · exact fun hmode hlimit hholds => h.limited hmode hlimit (hsame ▸ hholds)
  · show (d.took && _) = (d.took && _)
    rw [hsame]
  · show (decide (d.mode = .background) && _) = (decide (d.mode = .background) && _)
    rw [hsame]

/-- A delegation without capacity goes on. -/
theorem kept_uncounted (h : d.Ok config) (hd : d.Uncounted) {caller : Caller} {child : Child}
    (hearly : caller.early = false) (hregistered : caller ≠ .undoRegister)
    (hreleasing : child ≠ .releasing) (hchild : child.holds → d.holds) :
    Kept config d ({ d with caller := caller, child := child }, .none) := by
  obtain ⟨hmode, htook⟩ := hd
  have hcaller : caller.holds = false := by
    cases caller <;> first | rfl | cases hearly
  refine ⟨⟨fun he => ?_, hregistered, fun _ => htook, fun _ => ⟨?_, hreleasing⟩, ?_,
    fun hm hl hh => ?_⟩, ?_, ?_⟩
  · exact absurd he (by rw [hearly]; exact Bool.false_ne_true)
  · rintro rfl
    cases hearly
  · rw [h.counted, htook]
    rfl
  · refine h.limited hm hl (hchild ?_)
    simpa [Delegation.holds, hcaller] using hh
  · simp [Delegation.permit, htook]
  · simp [Delegation.slot, hmode]

/-- A caller that holds nothing ends. -/
theorem kept_done (h : d.Ok config) (hholds : d.caller.holds = false) :
    Kept config d ({ d with caller := .done }, .none) := by
  refine kept_caller h .done hholds.symm ?_ ?_ ?_ ?_
  · exact fun he => by cases he
  · exact fun hc => by cases hc
  · rintro (hc | hc) <;> cases hc
  · exact fun _ hc => by cases hc

/-- A caller past its early phases holds nothing itself. -/
theorem Caller.not_holds_of_not_early {c : Caller} (h : c.early = false) : c.holds = false := by
  cases c <;> first | rfl | cases h

/-- A child that holds something exists. -/
theorem Child.ne_absent_of_holds {c : Child} (h : c.holds) : c ≠ .absent := by
  rintro rfl
  cases h

/-- A foreground delegation ends and calls `release`. -/
theorem kept_release (h : d.Ok config) (hmode : d.mode = .foreground) (hholds : d.holds)
    {caller : Caller} {child : Child} (hearly : caller.early = false)
    (hregistered : caller ≠ .undoRegister) (hchild : child.holds = false) :
    Kept config d { d with caller := caller, child := child }.release := by
  have hcaller := Caller.not_holds_of_not_early hearly
  have hcounted : d.gaveBack = 0 := by
    rw [h.counted, hholds, Bool.not_true, Bool.and_false]
    rfl
  -- a foreground delegation never gives back a place
  have hforeground : d.mode = .foreground → caller ≠ .undoInsert ∧ child ≠ .releasing := by
    refine fun _ => ⟨?_, ?_⟩
    · rintro rfl
      cases hearly
    · rintro rfl
      cases hchild
  have huntaken : caller = .start ∨ caller = .waiting ∨ d.mode = .background → d.took = false := by
    rintro (rfl | rfl | hbackground)
    · cases hearly
    · cases hearly
    · exact h.untaken (.inr (.inr hbackground))
  have hslot : ∀ b : Bool, (decide (d.mode = .background) && b) = false := by
    rw [hmode]
    exact fun b => rfl
  unfold Delegation.release
  split_ifs with htook
  -- the permit goes back once
  · dsimp only at htook
    refine ⟨⟨fun he => ?_, hregistered, huntaken, hforeground, ?_, fun _ _ _ => htook⟩, ?_, ?_, ?_⟩
    · exact absurd he (by rw [hearly]; exact Bool.false_ne_true)
    · simp [Delegation.holds, hcaller, hchild, hcounted, htook]
    · rw [Delegation.permit, htook, hholds]
      rfl
    · simp [Delegation.permit, Delegation.holds, hcaller, hchild]
    · rw [Delegation.slot, Delegation.slot, hslot, hslot]
  -- none was taken without a limit
  · dsimp only at htook
    rw [Bool.not_eq_true] at htook
    refine ⟨⟨fun he => ?_, hregistered, huntaken, hforeground, ?_,
      fun hm hl _ => h.limited hm hl hholds⟩, ?_, ?_⟩
    · exact absurd he (by rw [hearly]; exact Bool.false_ne_true)
    · simp [hcounted, htook]
    · simp [Delegation.permit, htook]
    · rw [Delegation.slot, Delegation.slot, hslot, hslot]

/-- A background delegation discards its id. -/
theorem kept_discard (h : d.Ok config) (hmode : d.mode = .background) (hholds : d.holds)
    {caller : Caller} {child : Child} (hearly : caller.early = false)
    (hregistered : caller ≠ .undoRegister) (hchild : child.holds = false) :
    Kept config d ({ d with caller := caller, child := child }, .discard) := by
  have hcaller := Caller.not_holds_of_not_early hearly
  have htook : d.took = false := h.untaken (.inr (.inr hmode))
  refine ⟨⟨fun he => ?_, hregistered, fun _ => htook, fun hfg => ?_, ?_, fun hfg => ?_⟩, ?_, ?_, ?_⟩
  · exact absurd he (by rw [hearly]; exact Bool.false_ne_true)
  · rw [hmode] at hfg
    cases hfg
  · rw [h.counted, htook]
    rfl
  · rw [hmode] at hfg
    cases hfg
  · rw [Delegation.slot, hmode, hholds]
    rfl
  · simp [Delegation.slot, Delegation.holds, hcaller, hchild]
  · simp [Delegation.permit, htook]

/-- The caller takes its capacity. -/
theorem kept_reserve (h : d.Ok config) (hcaller : d.caller = .waiting) {step : Delegation × Effect}
    (hstep : d.reserve config full = some step) :
    Kept config d step ∧ (step.2.grows → full = false) := by
  have hchild : d.child = .absent := h.early (by rw [hcaller]; rfl)
  have htook : d.took = false := h.untaken (.inr (.inl hcaller))
  have hcounted : d.gaveBack = 0 := by
    rw [h.counted, htook]
    rfl
  have hdone : Kept config d ({ d with caller := .done }, .none) :=
    kept_done h (by rw [hcaller]; rfl)
  unfold Delegation.reserve at hstep
  split at hstep
  -- background: refused when the list is full, else added to it
  · next hmode =>
      split_ifs at hstep with hfull
      · cases hstep
        exact ⟨hdone, fun hg => by cases hg⟩
      · cases hstep
        refine ⟨⟨⟨fun _ => hchild, ?_, fun _ => htook, ?_, ?_, ?_⟩, hmode, ?_, ?_, ?_⟩,
          fun _ => by simpa using hfull⟩
        · simp
        · simp [hmode]
        · simp [hcounted, htook]
        · simp [hmode]
        · simp [Delegation.slot, Delegation.holds, hcaller, hchild, Caller.holds, Child.holds]
        · simp [Delegation.slot, Delegation.holds, hmode, Caller.holds]
        · simp [Delegation.permit, htook]
  -- foreground: no limit, or a permit that is free
  · next hmode =>
      split_ifs at hstep with hlimit hfull
      · cases hstep
        refine ⟨⟨⟨fun _ => hchild, ?_, fun _ => htook, ?_, ?_, ?_⟩, ?_, ?_⟩, fun hg => by cases hg⟩
        · simp
        · simp [hchild]
        · simp [hcounted, htook]
        · exact fun _ hl => absurd hlimit hl
        · simp [Delegation.permit, htook]
        · simp [Delegation.slot, hmode]
      · cases hstep
        refine ⟨⟨⟨fun _ => hchild, ?_, ?_, ?_, ?_, fun _ _ _ => rfl⟩, hmode, ?_, ?_, ?_⟩,
          fun _ => by simpa using hfull⟩
        · simp
        · simp [hmode]
        · simp [hchild]
        · simp [hcounted, Delegation.holds, Caller.holds]
        · simp [Delegation.permit, htook]
        · simp [Delegation.permit, Delegation.holds, Caller.holds]
        · simp [Delegation.slot, hmode]

/-- The caller hands its capacity to the child it creates. -/
theorem kept_created (h : d.Ok config) (hcaller : d.caller = .inserting) :
    Kept config d ({ d with caller := .registering, child := .created }, .none) := by
  have hsame :
    ({ d with caller := .registering, child := .created } : Delegation).holds = d.holds := by
    rw [Delegation.holds, Delegation.holds, hcaller]
    rfl
  refine ⟨⟨?_, ?_, ?_, ?_, ?_, ?_⟩, ?_, ?_⟩
  · exact fun he => by cases he
  · exact fun hc => by cases hc
  · rintro (hc | hc | hmode)
    · cases hc
    · cases hc
    · exact h.untaken (.inr (.inr hmode))
  · exact fun _ => ⟨by simp, by simp⟩
  · exact h.counted.trans (by rw [hsame])
  · exact fun hmode hlimit hholds => h.limited hmode hlimit (hsame ▸ hholds)
  · show (d.took && _) = (d.took && _)
    rw [hsame]
  · show (decide (d.mode = .background) && _) = (decide (d.mode = .background) && _)
    rw [hsame]

/-- The `finally` block of `run_reserved`. -/
theorem kept_finish (h : d.Ok config) (hchild : d.child.holds) : Kept config d d.finish := by
  have hne := Child.ne_absent_of_holds hchild
  have hholds : d.holds = true := by rw [Delegation.holds, hchild, Bool.or_true]
  unfold Delegation.finish
  split
  · next hmode =>
      refine kept_child h hne .releasing hchild.symm fun hfg => ?_
      rw [hmode] at hfg
      cases hfg
  · next hmode => exact kept_release h hmode hholds (h.late hne).1 h.registered rfl

/-- A return of the caller keeps the books, and takes capacity only where there is some. -/
theorem kept_callerReturns (h : d.Ok config) {step : Delegation × Effect}
    (hstep : d.callerReturns config full = some step) :
    Kept config d step ∧ (step.2.grows → full = false) := by
  unfold Delegation.callerReturns at hstep
  split at hstep
  · next hc =>
      cases hstep
      -- waiting for the room of its mode
      refine ⟨kept_caller h .waiting (by rw [hc]; rfl) ?_ ?_ ?_ ?_, fun hg => by cases hg⟩
      · exact fun _ => by rw [hc]; rfl
      · exact fun hc' => by cases hc'
      · exact fun _ => .inl hc
      · exact fun _ hc' => by cases hc'
  · next hc => exact kept_reserve h hc hstep
  · next hc =>
      -- the row of the sub-agent exists
      cases hstep
      exact ⟨kept_created h hc, fun hg => by cases hg⟩
  · next hc =>
      -- a failed insert gives the place back
      cases hstep
      have hmode : d.mode = .background := by
        cases hm : d.mode with
        | background => rfl
        | foreground => exact absurd hc (h.foreground hm).1
      have hchild : d.child = .absent := h.early (by rw [hc]; rfl)
      refine ⟨kept_discard h hmode ?_ rfl (fun hc' => by cases hc') ?_, fun hg => by cases hg⟩
      · rw [Delegation.holds, hc]
        rfl
      · rw [hchild]
        rfl
  · next hc => exact absurd hc h.registered
  -- a foreground call joins its child, a background one is over
  · next hc =>
      split at hstep
      · cases hstep
        exact ⟨kept_done h (by rw [hc]; rfl), fun hg => by cases hg⟩
      · cases hstep
        refine ⟨kept_caller h .joining (by rw [hc]; rfl) ?_ ?_ ?_ ?_, fun hg => by cases hg⟩
        · exact fun he => by cases he
        · exact fun hc' => by cases hc'
        · rintro (hc' | hc') <;> cases hc'
        · exact fun _ hc' => by cases hc'
  · next hc =>
      split_ifs at hstep
      cases hstep
      exact ⟨kept_done h (by rw [hc]; rfl), fun hg => by cases hg⟩
  · cases hstep

/-- Giving a permit back takes none. -/
theorem grows_release (d : Delegation) : d.release.2.grows = false := by
  unfold Delegation.release
  split_ifs <;> rfl

/-- The end of a child takes no capacity. -/
theorem grows_finish (d : Delegation) : d.finish.2.grows = false := by
  unfold Delegation.finish
  split
  · rfl
  · exact grows_release _

/-- An exception in the caller keeps the books, outside the early registration of a child. -/
theorem kept_callerRaises (h : d.Ok config) (hclear : Event.callerRaises.Clear d)
    {step : Delegation × Effect} (hstep : d.callerRaises = some step) :
    Kept config d step ∧ step.2.grows = false := by
  unfold Delegation.callerRaises at hstep
  split at hstep
  · next hc =>
      have hchild : d.child = .absent := h.early (by rw [hc]; rfl)
      split at hstep
      · next hmode =>
          cases hstep
          refine ⟨kept_caller h .undoInsert (by rw [hc]; rfl) ?_ ?_ ?_ ?_, rfl⟩
          · exact fun _ => by rw [hc]; rfl
          · exact fun hc' => by cases hc'
          · rintro (hc' | hc') <;> cases hc'
          · intro hfg
            rw [hmode] at hfg
            cases hfg
      · next hmode =>
          cases hstep
          refine ⟨kept_release h hmode ?_ rfl (fun hc' => by cases hc') ?_, grows_release _⟩
          · rw [Delegation.holds, hc]
            rfl
          · rw [hchild]
            rfl
  · next hc =>
      obtain ⟨hmode, htook⟩ := hclear.resolve_right fun hne => hne hc
      split at hstep
      · next hm =>
          rw [hmode] at hm
          cases hm
      · cases hstep
        rw [Delegation.release, if_neg (by rw [htook]; exact Bool.false_ne_true)]
        exact ⟨kept_done h (by rw [hc]; rfl), rfl⟩
  · cases hstep

/-- A cancellation of the caller keeps the books where it holds nothing. -/
theorem kept_callerCancelled (h : d.Ok config) (hclear : Event.callerCancelled.Clear d)
    {step : Delegation × Effect} (hstep : d.callerCancelled = some step) :
    Kept config d step ∧ step.2.grows = false := by
  unfold Delegation.callerCancelled at hstep
  split at hstep
  · cases hstep
  · cases hstep
  · cases hstep
    refine ⟨?_, rfl⟩
    rcases hclear with hun | hclear
    · refine kept_uncounted h hun rfl (by decide) ?_ ?_
      · exact (h.foreground hun.1).2
      · intro hchild
        rw [Delegation.holds, hchild, Bool.or_true]
    · refine kept_done h ?_
      cases hc : d.caller with
      | inserting => exact absurd hc hclear.1
      | undoInsert => exact absurd hc hclear.2
      | _ => rfl

/-- The child goes on without its capacity changing hands. -/
theorem kept_childMoves (h : d.Ok config) {c c' : Child} (hc : d.child = c) (hne : c ≠ .absent)
    (hholds : c'.holds = c.holds) (hreleasing : c' ≠ .releasing) :
    Kept config d ({ d with child := c' }, .none) :=
  kept_child h (hc ▸ hne) c' (hc ▸ hholds) fun _ => hreleasing

/-- A return of the child keeps the books. -/
theorem kept_childReturns (h : d.Ok config) {step : Delegation × Effect}
    (hstep : d.childReturns = some step) :
    Kept config d step ∧ step.2.grows = false := by
  unfold Delegation.childReturns at hstep
  split at hstep
  · next hc =>
      cases hstep
      exact ⟨kept_childMoves h hc (by decide) rfl (by decide), rfl⟩
  · next hc =>
      cases hstep
      exact ⟨kept_finish h (by rw [hc]; rfl), grows_finish d⟩
  · next hc =>
      cases hstep
      exact ⟨kept_finish h (by rw [hc]; rfl), grows_finish d⟩
  · next hc =>
      cases hstep
      have hmode : d.mode = .background := by
        cases hm : d.mode with
        | background => rfl
        | foreground => exact absurd hc (h.foreground hm).2
      have hholds : d.holds = true := by
        rw [Delegation.holds, hc, Bool.or_eq_true]
        exact .inr rfl
      have hlate := h.late (hc ▸ (by decide) : d.child ≠ .absent)
      exact ⟨kept_discard h hmode hholds hlate.1 h.registered rfl, rfl⟩
  · next hc =>
      cases hstep
      exact ⟨kept_childMoves h hc (by decide) rfl (by decide), rfl⟩
  · cases hstep
  · cases hstep

/-- An exception in the child keeps the books. -/
theorem kept_childRaises (h : d.Ok config) {step : Delegation × Effect}
    (hstep : d.childRaises = some step) :
    Kept config d step ∧ step.2.grows = false := by
  unfold Delegation.childRaises at hstep
  split at hstep
  · next hc =>
      cases hstep
      exact ⟨kept_childMoves h hc (by decide) rfl (by decide), rfl⟩
  · next hc =>
      cases hstep
      exact ⟨kept_finish h (by rw [hc]; rfl), grows_finish d⟩
  · next hc =>
      cases hstep
      exact ⟨kept_childMoves h hc (by decide) rfl (by decide), rfl⟩
  · cases hstep

/-- A cancellation of the child keeps the books once its body has started. -/
theorem kept_childCancelled (h : d.Ok config) (hclear : Event.childCancelled.Clear d)
    {step : Delegation × Effect} (hstep : d.childCancelled = some step) :
    Kept config d step ∧ step.2.grows = false := by
  unfold Delegation.childCancelled at hstep
  split at hstep
  · next hc =>
      cases hstep
      have hun := hclear.resolve_right fun hne => hne.1 hc
      have hlate := h.late (by rw [hc]; decide)
      exact ⟨kept_uncounted h hun hlate.1 h.registered (by decide) (fun hh => by cases hh), rfl⟩
  · next hc =>
      cases hstep
      exact ⟨kept_childMoves h hc (by decide) rfl (by decide), rfl⟩
  · next hc =>
      cases hstep
      exact ⟨kept_finish h (by rw [hc]; rfl), grows_finish d⟩
  · next hc =>
      have hun := hclear.resolve_right fun hne => hne.2 hc
      exact absurd hc (h.foreground hun.1).2
  · next hc =>
      cases hstep
      exact ⟨kept_childMoves h hc (by decide) rfl (by decide), rfl⟩
  · cases hstep
  · cases hstep

/-- What one step of a delegation does to its capacity. -/
theorem kept_next (h : d.Ok config) {e : Event} (hclear : e.Clear d) {step : Delegation × Effect}
    (hstep : d.next config full e = some step) :
    Kept config d step ∧ (step.2.grows → full = false) := by
  have hnot : step.2.grows = false → step.2.grows → full = false :=
    fun hfalse htrue => absurd (hfalse.symm.trans htrue) Bool.false_ne_true
  cases e with
  | callerReturns => exact kept_callerReturns h hstep
  | callerRefuses =>
      rw [Delegation.next] at hstep
      split_ifs at hstep with hc
      cases hstep
      exact ⟨kept_done h (by rw [hc]; rfl), hnot rfl⟩
  | callerRaises => exact (kept_callerRaises h hclear hstep).imp_right hnot
  | callerCancelled => exact (kept_callerCancelled h hclear hstep).imp_right hnot
  | childReturns => exact (kept_childReturns h hstep).imp_right hnot
  | childRaises => exact (kept_childRaises h hstep).imp_right hnot
  | childCancelled => exact (kept_childCancelled h hclear hstep).imp_right hnot

/-! ## The process -/

structure Sound (config : Config) (s : State) : Prop where
  ok : ∀ d ∈ s.delegations, d.Ok config
  permits : ∀ n, config.maxConcurrent = some n → s.free + s.delegations.countP Delegation.permit = n
  slots : s.active.length = s.delegations.countP Delegation.slot
  nodup : s.active.Nodup
  mem : ∀ id, id ∈ s.active ↔ ∃ d : Delegation, s.delegations[id]? = some d ∧ d.slot
  bound : ∀ n, config.maxAsync = some n → s.active.length ≤ n

/-- At the start all the capacity is free. -/
theorem sound_initial (h : Initial config s) : Sound config s := by
  obtain ⟨hdelegations, hactive, hfree⟩ := h
  constructor
  case permits =>
    intro n hn
    rw [hdelegations, hfree n hn]
    rfl
  all_goals simp [hdelegations, hactive]

/-- A new delegation holds nothing yet. -/
theorem Sound.delegate (h : Sound config s) (mode : Mode) :
    Sound config { s with delegations := s.delegations ++ [newDelegation mode] } := by
  have hpermit : (newDelegation mode).permit = false := rfl
  have hslot : (newDelegation mode).slot = false := by
    rw [Delegation.slot, show (newDelegation mode).holds = false from rfl, Bool.and_false]
  have hcount : ∀ p : Delegation → Bool, p (newDelegation mode) = false →
      (s.delegations ++ [newDelegation mode]).countP p = s.delegations.countP p := by
    intro p hp
    rw [List.countP_append, List.countP_singleton, hp]
    rfl
  constructor
  case ok =>
    intro d hd
    rcases List.mem_append.mp hd with hd | hd
    · exact h.ok d hd
    · rw [List.mem_singleton.mp hd]
      constructor <;> simp [newDelegation, Delegation.holds, Caller.holds, Child.holds]
  case permits =>
    intro n hn
    rw [hcount _ hpermit]
    exact h.permits n hn
  case slots => exact h.slots.trans (hcount _ hslot).symm
  case nodup => exact h.nodup
  case mem =>
    intro id
    rw [h.mem]
    constructor
    · rintro ⟨d, hd, hs⟩
      exact ⟨d, (List.getElem?_append_left (List.getElem?_eq_some_iff.mp hd).1).trans hd, hs⟩
    · rintro ⟨d, hd, hs⟩
      rcases of_snoc hd with hd | ⟨-, rfl⟩
      · exact ⟨d, hd, hs⟩
      · rw [hslot] at hs
        cases hs
  case bound => exact h.bound

/-- Who has a place after a step of one delegation. -/
theorem Sound.mem_set (h : Sound config s) (d' : Delegation) (hd : s.delegations[id]? = some d)
    (i : ℕ) :
    (∃ e : Delegation, (s.delegations.set id d')[i]? = some e ∧ e.slot) ↔
      if i = id then d'.slot = true else i ∈ s.active := by
  have hlt := (List.getElem?_eq_some_iff.mp hd).1
  split_ifs with hi
  · subst hi
    rw [List.getElem?_set_self hlt]
    simp
  · rw [List.getElem?_set_ne (Ne.symm hi), h.mem]

/-- One event of one delegation keeps the books of them all. -/
theorem Sound.event (h : Sound config s) (hd : s.delegations[id]? = some d) {e : Event}
    (hclear : e.Clear d) {step : Delegation × Effect}
    (hstep : d.next config (s.full config d.mode) e = some step) :
    Sound config (({ s with delegations := s.delegations.set id step.1 } :
    State).apply id step.2) := by
  obtain ⟨⟨hok, hbetween⟩, hfull⟩ := kept_next (h.ok d (List.mem_of_getElem? hd)) hclear hstep
  obtain ⟨d', effect⟩ := step
  dsimp only at hok hbetween hfull ⊢
  have hall : ∀ e ∈ s.delegations.set id d', e.Ok config := by
    intro e he
    rcases List.mem_or_eq_of_mem_set he with he | rfl
    · exact h.ok e he
    · exact hok
  have hpermit := countP_set hd d' Delegation.permit
  have hslot := countP_set hd d' Delegation.slot
  have hslots := h.slots
  have hmem := fun i => h.mem_set d' hd i
  have hin : id ∈ s.active ↔ d.slot = true := by
    rw [h.mem]
    constructor
    · rintro ⟨d₀, hd₀, hs⟩
      exact Option.some.inj (hd.symm.trans hd₀) ▸ hs
    · exact fun hs => ⟨d, hd, hs⟩
  -- no permit, and no place, changes hands
  have hfree : d'.permit = d.permit → ∀ n, config.maxConcurrent = some n →
      s.free + (s.delegations.set id d').countP Delegation.permit = n := by
    intro hp n hn
    have := h.permits n hn
    rw [hp] at hpermit
    omega
  have hactive : d'.slot = d.slot →
      s.active.length = (s.delegations.set id d').countP Delegation.slot ∧
        ∀ i, i ∈ s.active ↔ ∃ e : Delegation, (s.delegations.set id d')[i]? = some e ∧ e.slot := by
    intro hs
    rw [hs] at hslot
    refine ⟨by omega, fun i => Iff.trans ?_ (hmem i).symm⟩
    split_ifs with hi
    · rw [hi, hs]
      exact hin
    · exact Iff.rfl
  cases effect with
  -- neither a permit nor a place
  | none =>
      obtain ⟨hp, hs⟩ := hbetween
      exact ⟨hall, hfree hp, (hactive hs).1, h.nodup, (hactive hs).2, h.bound⟩
  | acquire =>
      -- a free permit is taken
      obtain ⟨hmode, hp, hp', hs⟩ := hbetween
      have hpos : s.free ≠ 0 := by
        have := hfull rfl
        rw [hmode] at this
        exact of_decide_eq_false this
      rw [hp, hp', Bool.toNat_false, Bool.toNat_true] at hpermit
      refine ⟨hall, fun n hn => ?_, (hactive hs).1, h.nodup, (hactive hs).2, h.bound⟩
      have := h.permits n hn
      show s.free - 1 + (s.delegations.set id d').countP Delegation.permit = n
      omega
  | release =>
      -- a permit comes back
      obtain ⟨hp, hp', hs⟩ := hbetween
      rw [hp, hp', Bool.toNat_false, Bool.toNat_true] at hpermit
      refine ⟨hall, fun n hn => ?_, (hactive hs).1, h.nodup, (hactive hs).2, h.bound⟩
      have := h.permits n hn
      show s.free + 1 + (s.delegations.set id d').countP Delegation.permit = n
      omega
  | add =>
      -- the id is added to the active list
      obtain ⟨hmode, hs, hs', hp⟩ := hbetween
      rw [hs, hs', Bool.toNat_false, Bool.toNat_true] at hslot
      have hnot : id ∉ s.active := fun hmem => by
        rw [hin, hs] at hmem
        cases hmem
      have hlength : (s.active ++ [id]).length = s.active.length + 1 := by
        rw [List.length_append, List.length_singleton]
      refine ⟨hall, hfree hp, ?_, ?_, fun i => ?_, fun n hn => ?_⟩
      · show (s.active ++ [id]).length = (s.delegations.set id d').countP Delegation.slot
        omega
      · exact List.Nodup.append h.nodup (List.nodup_singleton id) (List.disjoint_singleton.mpr hnot)
      · refine Iff.trans ?_ (hmem i).symm
        show i ∈ s.active ++ [id] ↔ _
        rw [List.mem_append, List.mem_singleton]
        split_ifs with hi
        · exact iff_of_true (.inr hi) hs'
        · exact or_iff_left hi
      · -- the limit was checked before the id was added
        have := hfull rfl
        rw [hmode] at this
        have hlt : ¬ n ≤ s.active.length := by simpa [State.full, hn] using this
        show (s.active ++ [id]).length ≤ n
        omega
  | discard =>
      -- the id is discarded from it
      obtain ⟨hs, hs', hp⟩ := hbetween
      rw [hs, hs', Bool.toNat_false, Bool.toNat_true] at hslot
      have hlength : (s.active.filter (· ≠ id)).length + 1 = s.active.length := by
        have hfilter : s.active.filter (· ≠ id) = s.active.erase id := by
          rw [h.nodup.erase_eq_filter]
          exact List.filter_congr fun x _ => by rw [Bool.eq_iff_iff]; simp
        rw [hfilter, List.length_erase_of_mem (hin.mpr hs)]
        exact Nat.succ_pred_eq_of_pos (List.length_pos_of_mem (hin.mpr hs))
      refine ⟨hall, hfree hp, ?_, h.nodup.filter _, fun i => ?_, fun n hn => ?_⟩
      · show (s.active.filter (· ≠ id)).length = (s.delegations.set id d').countP Delegation.slot
        omega
      · refine Iff.trans ?_ (hmem i).symm
        show i ∈ s.active.filter (· ≠ id) ↔ _
        rw [List.mem_filter, decide_eq_true_eq]
        split_ifs with hi
        · exact iff_of_false (fun hne => hne.2 hi) (by rw [hs']; exact Bool.false_ne_true)
        · exact and_iff_left hi
      · have := h.bound n hn
        show (s.active.filter (· ≠ id)).length ≤ n
        omega

/-- No step of the run loses capacity or gives it back twice. -/
def Clear (act : Action) (s : State) : Prop :=
  match act with
  | .event id e => ∀ d, s.delegations[id]? = some d → e.Clear d
  | _ => True

/-- Every clear step keeps the books. -/
theorem Sound.step (h : Sound config s) {act : Action} (hclear : Clear act s)
    (hs : Step config act s s') : Sound config s' := by
  unfold Step State.next at hs
  cases act with
  | delegate mode =>
      cases hs
      exact h.delegate mode
  | event id e =>
      dsimp only at hs
      split at hs
      · cases hs
      · next d' effect hstep =>
          cases hs
          obtain ⟨d, hd, hnext⟩ := Option.bind_eq_some_iff.mp hstep
          exact h.event hd (hclear d hd) hnext

/-- The books are right in every state of a run of clear steps. -/
theorem sound_of_reachable
    (h : Reachable (Initial config) (fun act s s' => Clear act s ∧ Step config act s s') s) :
    Sound config s :=
  h.invariant (fun _ => sound_initial) fun _ _ _ hsound hs => hsound.step hs.1 hs.2

/-- A sub-agent that runs holds what its mode asks for. -/
theorem holds_of_runs {mode : Mode} (h : d.runs mode) : d.mode = mode ∧ d.holds := by
  obtain ⟨hmode, hchild⟩ := of_decide_eq_true h
  refine ⟨hmode, ?_⟩
  rw [Delegation.holds, Bool.or_eq_true]
  right
  rcases hchild with hc | hc | hc <;> rw [hc] <;> rfl

/-- The limits are kept, and when no delegation is in progress every permit was given back
exactly once and no id is left, if no step of the run loses capacity or gives it back twice. -/
theorem capacity_given_back (config : Config) :
    ∀ s, Reachable (Initial config) (fun act s s' => Clear act s ∧ Step config act s s') s →
      (∀ n, config.maxConcurrent = some n → s.running .foreground ≤ n) ∧
      (∀ n, config.maxAsync = some n → s.running .background ≤ n) ∧
      (Quiet s → (∀ n, config.maxConcurrent = some n → s.free = n) ∧
        (∀ d ∈ s.delegations, d.gaveBack = d.took.toNat) ∧ s.active = []) := by
  intro s hs
  have h := sound_of_reachable hs
  refine ⟨fun n hn => ?_, fun n hn => ?_, fun hquiet => ?_⟩
  · -- a foreground sub-agent that runs holds a permit
    have hle : s.running .foreground ≤ s.delegations.countP Delegation.permit := by
      refine List.countP_mono_left fun d hd hruns => ?_
      obtain ⟨hmode, hholds⟩ := holds_of_runs hruns
      have htook := (h.ok d hd).limited hmode (by rw [hn]; simp) hholds
      rw [Delegation.permit, htook, hholds]
      rfl
    have := h.permits n hn
    omega
  -- a background sub-agent that runs has its place in the list
  · have hle : s.running .background ≤ s.delegations.countP Delegation.slot := by
      refine List.countP_mono_left fun d _ hruns => ?_
      obtain ⟨hmode, hholds⟩ := holds_of_runs hruns
      rw [Delegation.slot, hmode, hholds]
      rfl
    have := h.slots
    have := h.bound n hn
    omega
  -- at rest nobody holds anything
  · have hnone : ∀ d ∈ s.delegations, d.holds = false := by
      intro d hd
      obtain ⟨hcaller, hchild⟩ := hquiet d hd
      rw [Delegation.holds, hcaller]
      rcases hchild with hc | hc <;> rw [hc] <;> rfl
    have hzero : ∀ p : Delegation → Bool, (∀ d ∈ s.delegations, d.holds = false → p d = false) →
        s.delegations.countP p = 0 := by
      intro p hp
      refine List.countP_eq_zero.mpr fun d hd => ?_
      rw [hp d hd (hnone d hd)]
      exact Bool.false_ne_true
    refine ⟨fun n hn => ?_, fun d hd => ?_, ?_⟩
    · have := h.permits n hn
      rwa [hzero _ fun d _ hd => by rw [Delegation.permit, hd, Bool.and_false],
        Nat.add_zero] at this
    · rw [(h.ok d hd).counted, hnone d hd, Bool.not_false, Bool.and_true]
    · refine List.eq_nil_of_length_eq_zero ?_
      rw [h.slots, hzero _ fun d _ hd => by rw [Delegation.slot, hd, Bool.and_false]]

def exampleConfig : Config := ⟨some 1, some 1⟩

def exampleStart : State := ⟨[], 1, []⟩

theorem initial_exampleStart : Initial exampleConfig exampleStart := by
  refine ⟨rfl, rfl, fun n hn => ?_⟩
  cases hn
  rfl

/-- A foreground delegation up to its child task. -/
def delegated (id : ℕ) (mode : Mode) : List Action :=
  [.delegate mode, .event id .callerReturns, .event id .callerReturns, .event id .callerReturns]

instance (d : Delegation) (e : Event) : Decidable (e.Clear d) := by
  unfold Event.Clear Delegation.Uncounted
  split <;> infer_instance

/-- `State.next`, for the steps that are clear. -/
def State.nextClear (config : Config) (s : State) (act : Action) : Option State :=
  match act with
  | .event id e =>
    if s.delegations[id]?.all fun d => decide (e.Clear d) then s.next config act else none
  | .delegate _ => s.next config act

/-- The checked run of the example takes clear steps. -/
theorem clear_of_nextClear {act : Action} (h : s.nextClear config act = some s') :
    Clear act s ∧ Step config act s s' := by
  cases act with
  | delegate mode => exact ⟨trivial, h⟩
  | event id e =>
      unfold State.nextClear at h
      dsimp only at h
      split_ifs at h with hall
      refine ⟨fun d hd => ?_, h⟩
      rw [hd, Option.all_some, decide_eq_true_eq] at hall
      exact hall

/-- A checked run reaches its last state. -/
theorem reachable_of_nextClear {acts : List Action}
    (h : acts.foldlM (State.nextClear exampleConfig) exampleStart = some s) :
    Reachable (Initial exampleConfig) (fun act s s' => Clear act s ∧
      Step exampleConfig act s s') s :=
  (Reachable.foldlM (.start initial_exampleStart) h).mono fun _ _ _ => clear_of_nextClear

/-- A foreground and a background delegation, up to their running children. -/
def bothRun : List Action :=
  delegated 0 .foreground ++ [.event 0 .callerReturns, .event 0 .childReturns] ++
    delegated 1 .background ++ [.event 1 .callerReturns, .event 1 .childReturns]

/-- The first child returns; the second raises, and its results are delivered later. -/
def bothEnd : List Action :=
  bothRun ++ [.event 0 .childReturns, .event 0 .callerReturns, .event 1 .childRaises,
    .event 1 .childReturns, .event 1 .childReturns, .event 1 .childReturns]

/-- While both sub-agents run they hold the permit and the place, and at the end both have been
given back. -/
theorem capacity_given_back_both :
    (∃ s, bothRun.foldlM (State.nextClear exampleConfig) exampleStart = some s ∧
      s.running .foreground = 1 ∧ s.running .background = 1 ∧ s.free = 0 ∧ s.active = [1] ∧
      s.running .foreground ≤ 1 ∧ s.running .background ≤ 1) ∧
    ∃ s, bothEnd.foldlM (State.nextClear exampleConfig) exampleStart = some s ∧ Quiet s ∧
      s.delegations.map Delegation.took = [true, false] ∧ s.free = 1 ∧
      (∀ d ∈ s.delegations, d.gaveBack = d.took.toNat) ∧ s.active = [] := by
  constructor
  · obtain ⟨s, hs⟩ : ∃ s, bothRun.foldlM (State.nextClear exampleConfig) exampleStart = some s :=
      ⟨_, rfl⟩
    have h := capacity_given_back exampleConfig s (reachable_of_nextClear hs)
    refine ⟨s, hs, ?_, ?_, ?_, ?_, h.1 1 rfl, h.2.1 1 rfl⟩
    all_goals
      cases hs
      rfl
  · obtain ⟨s, hs⟩ : ∃ s, bothEnd.foldlM (State.nextClear exampleConfig) exampleStart = some s :=
      ⟨_, rfl⟩
    have hquiet : Quiet s := by
      cases hs
      unfold Quiet Delegation.over
      decide
    have h := (capacity_given_back exampleConfig s (reachable_of_nextClear hs)).2.2 hquiet
    refine ⟨s, hs, hquiet, ?_, h.1 1 rfl, h.2.1, h.2.2⟩
    cases hs
    rfl

/-- A failed registration gives the permit back beside the child, and two sub-agents run; a
child that is cancelled before its first step never gives its capacity back. -/
theorem capacity_lost_or_doubled :
    (∃ s : State, Reachable (Initial exampleConfig) (Step exampleConfig) s ∧
      s.running .foreground = 2) ∧
    (∃ s : State, Reachable (Initial exampleConfig) (Step exampleConfig) s ∧ Quiet s ∧ s.free = 0) ∧
    ∃ s : State, Reachable (Initial exampleConfig) (Step exampleConfig) s ∧ Quiet s ∧
      s.active = [0] := by
  have hreach : ∀ (events : List Action) (s : State),
      events.foldlM (State.next exampleConfig) exampleStart = some s →
        Reachable (Initial exampleConfig) (Step exampleConfig) s :=
    fun _ _ => Reachable.foldlM (.start initial_exampleStart)
  refine ⟨⟨_, hreach (delegated 0 .foreground ++ [.event 0 .childReturns, .event 0 .callerRaises] ++
    delegated 1 .foreground ++ [.event 1 .childReturns]) _ rfl, by decide⟩, ?_, ?_⟩
  · refine ⟨_, hreach (delegated 0 .foreground ++
      [.event 0 .childCancelled, .event 0 .callerReturns,
      .event 0 .callerReturns]) _ rfl, ?_, rfl⟩
    intro d hd
    rw [List.mem_singleton.mp hd]
    exact ⟨rfl, .inr rfl⟩
  · refine ⟨_, hreach (delegated 0 .background ++
      [.event 0 .childCancelled, .event 0 .callerReturns])
      _ rfl, ?_, rfl⟩
    intro d hd
    rw [List.mem_singleton.mp hd]
    exact ⟨rfl, .inr rfl⟩

end OpenWebUI.Subagents
