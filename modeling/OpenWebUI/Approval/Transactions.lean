import OpenWebUI.Approval.Views

/-! # What the three transactions do

One theorem a transaction: when it goes through, what it found, and its effect on the
output.
-/

namespace OpenWebUI.Approval

open Py

variable {xs ys : List Item} {m m' : Message}

/-! ## Active outputs -/

/-- Active is a pending call that is approved, or in progress. -/
theorem isActive_iff (h : Identified xs) :
    isActive xs = true ↔ ∃ k, Pending xs k ∧ Approved xs k ∨ Running xs k := by
  simp only [isActive, List.any_eq_true, Bool.or_eq_true, decide_eq_true_eq]
  constructor
  · rintro ⟨c, hc, hor⟩
    have hfind := find_of_mem_pending h hc
    have hp := (mem_pending.mp hc).2
    refine ⟨c.key, hor.imp (fun happ => ⟨⟨c, hfind, hp⟩, c, hfind, happ⟩) fun hrun => ?_⟩
    exact ⟨c, hfind, hp, hrun⟩
  · rintro ⟨k, ⟨⟨c, hc, hp⟩, c', hc', happ⟩ | ⟨c, hc, hp, hrun⟩⟩
    · obtain rfl := Option.some.inj (hc.symm.trans hc')
      exact ⟨c, mem_pending_of_find hc hp, .inl happ⟩
    · exact ⟨c, mem_pending_of_find hc hp, .inr hrun⟩

/-- Where nothing is active no call is in progress. -/
theorem not_running_of_idle (h : Identified xs) (hidle : isActive xs = false) (k : String) :
    ¬ Running xs k := by
  intro hrun
  have := (isActive_iff h).mpr ⟨k, .inr hrun⟩
  rw [hidle] at this
  cases this

/-- The count is zero when no call is in progress. -/
theorem runningCount_eq_zero (h : Identified xs) (hnone : ∀ k, ¬ Running xs k) :
    runningCount xs = 0 := by
  rw [runningCount, List.countP_eq_zero]
  intro c hc hrun
  rw [isRunning, Bool.and_eq_true, decide_eq_true_eq] at hrun
  exact hnone c.key ⟨c, find_of_mem h hc, hrun⟩

/-! ## Resolving -/

variable {dumps : Json → String} {caller : Caller} {form : ResolveToolCallForm} {uuid : String}
  {resume : Option Resume}

/-- What a resolution changes. -/
def ResolveToolCallForm.change (form : ResolveToolCallForm) (resume : Option Resume) : Change where
  approved := if form.action = .approve then some form.callId else none
  answered := if form.action = .approve then none else some form.callId
  started := none
  wrote := if resume = some .model then 1 else 0

/-- A resolution that goes through. -/
structure Resolved (form : ResolveToolCallForm) (resume : Option Resume) (xs ys : List Item) :
    Prop where
  pending : Pending xs form.callId
  fresh : ¬ Approved xs form.callId
  effect : Effect (form.change resume) xs ys
  kept : ∀ k c, findCall k xs = some c → isPending xs c = true → c.status = .inProgress →
    k ≠ form.callId ∧ findCall k ys = some c
  tools : resume = some .tools ↔ form.action = .approve ∧ isActive xs = false
  model : resume = some .model ↔ ∀ k, ¬ Pending ys k

/-- Filling in the id of a call by its key changes no key. -/
theorem key_setDefaultId {c : FunctionCall} {k : String} (h : c.key = k) :
    (c.setDefaultId k).key = k := by
  unfold FunctionCall.setDefaultId
  unfold FunctionCall.key at h ⊢
  cases hc : c.callId with
  | none =>
      rw [hc] at h
      simp only [Option.getD_none]
      split_ifs with hk
      · exact h
      · rfl
  | some k' =>
      rw [hc] at h
      simpa using h

/-- What can be resolved is open and not in progress. -/
theorem resolvable_open {s : Status} (h : s.resolvable = true) :
    s.open = true ∧ s ≠ .inProgress := by
  cases s <;> simp_all [Status.resolvable, Status.open]

/-- The call a form names may be resolved. -/
structure Resolvable (form : ResolveToolCallForm) (xs : List Item)
    (call : FunctionCall) : Prop where
  found : findCall form.callId xs = some call
  unanswered : hasResult xs form.callId = false
  status : call.status.resolvable = true
  unapproved : call.approved = false

namespace Resolvable

variable {call : FunctionCall} (hr : Resolvable form xs call)

include hr

/-- The call that is resolved is pending. -/
theorem pending : Pending xs form.callId :=
  (Pending.iff_of_find hr.found).mpr ⟨hr.unanswered, (resolvable_open hr.status).1⟩

/-- It has not been approved before. -/
theorem not_approved : ¬ Approved xs form.callId := by
  rintro ⟨c, hc, happ⟩
  obtain rfl := Option.some.inj (hr.found.symm.trans hc)
  rw [hr.unapproved] at happ
  cases happ

/-- A running call is not the one that is resolved. -/
theorem ne_of_running {k : String} {c : FunctionCall} (hc : findCall k xs = some c)
    (hrun : c.status = .inProgress) : k ≠ form.callId := by
  rintro rfl
  obtain rfl := Option.some.inj (hr.found.symm.trans hc)
  exact (resolvable_open hr.status).2 hrun

/-- A call in progress is another one, and stays. -/
theorem kept (h : Identified xs) {f : FunctionCall → FunctionCall}
    (hf : ∀ c, c.key = form.callId → (f c).key = form.callId) {k : String} {c : FunctionCall}
    (hc : findCall k xs = some c) (hrun : c.status = .inProgress) :
    findCall k (editCall (fun c => c.key = form.callId) f xs) = some c := by
  have hkey := Keyed.key_of_find hr.found
  rw [find_editCall h hr.found ((hf call hkey).trans hkey.symm), if_neg, hc]
  rw [hkey]
  exact hr.ne_of_running hc hrun

/-- An approval starts the tools unless some call is active. -/
theorem approve (h : Identified xs) (hname : call.name ≠ "ask_user")
    (haction : form.action = .approve) :
    Resolved form (if isActive xs then none else some .tools) xs
      (editCall (fun c => c.key = form.callId) (.approve form.callId) xs) := by
  have hkey := Keyed.key_of_find hr.found
  have heffect : Effect (form.change (if isActive xs then none else some .tools)) xs
      (editCall (fun c => c.key = form.callId) (.approve form.callId) xs) := by
    refine Effect.edit h hr.found ?_ ?_ ?_ ?_ ?_ ?_ rfl ?_ ?_ ?_
    · intro c hc
      have hc : c.key = form.callId := of_decide_eq_true hc
      exact (key_setDefaultId hc).trans hc.symm
    · exact (resolvable_open hr.status).1.symm
    · simp [ResolveToolCallForm.change, haction, hkey, FunctionCall.approve]
    · intro j hj
      simp only [ResolveToolCallForm.change, haction, if_true, Option.some.injEq] at hj
      rw [← hj, hkey]
    · simp [FunctionCall.approve]
    · simp [FunctionCall.approve]
    · exact fun _ => hname
    · simp [ResolveToolCallForm.change, haction]
    · simp only [ResolveToolCallForm.change]
      split_ifs <;> simp_all
  refine ⟨hr.pending, hr.not_approved, heffect, ?_, ?_, ?_⟩
  · intro k c hc _ hrun
    exact ⟨hr.ne_of_running hc hrun,
      hr.kept h (f := .approve _) (fun c hc => key_setDefaultId (c := c) hc) hc hrun⟩
  · split_ifs with hact <;> simp [haction, hact]
  · -- the approved call stays pending
    have hstill := (heffect.pending form.callId).mpr
      ⟨hr.pending, by simp [ResolveToolCallForm.change, haction]⟩
    refine iff_of_false ?_ fun hnone => hnone _ hstill
    split_ifs <;> simp

/-- Settling a call gives it a result and closes it. -/
theorem effect_settle (h : Identified xs) (text : String) {status : Status}
    (hclosed : status ≠ .inProgress) :
    Effect ⟨none, some form.callId, none, 0⟩ xs (settle form.callId text status xs) := by
  have hkey := Keyed.key_of_find hr.found
  rw [settle, ← hkey]
  refine Effect.answer h (by rw [hkey]; exact hr.found) ?_ rfl (fun _ => hclosed) rfl
  intro c hc
  have hc : c.key = call.key := of_decide_eq_true hc
  exact (key_setDefaultId hc).trans hc.symm

/-- A rejected or answered call: whoever is active goes on, or the model does once nothing is
pending, or the next call is shown. -/
theorem settle (h : Identified xs) (uuid text : String) {status : Status}
    (hclosed : status ≠ .inProgress) (haction : form.action ≠ .approve) :
    let after := afterResolution (isActive xs) form.action uuid
      (Approval.settle form.callId text status xs)
    Resolved form after.2 xs after.1 := by
  have heffect := hr.effect_settle h text hclosed
  -- a running call is not the one settled, which changes nothing of the others
  have hkept : ∀ k c, findCall k xs = some c → c.status = .inProgress →
      k ≠ form.callId ∧ findCall k (Approval.settle form.callId text status xs) = some c := by
    intro k c hc hrun
    refine ⟨hr.ne_of_running hc hrun, ?_⟩
    rw [Approval.settle, resolution, find_result]
    exact hr.kept h (f := fun c => (c.setDefaultId _).setStatus status)
      (fun c hc => key_setDefaultId (c := c) hc) hc hrun
  generalize Approval.settle form.callId text status xs = zs at heffect hkept ⊢
  have hchange : ∀ r, form.change r =
      ⟨none, some form.callId, none, if r = some .model then 1 else 0⟩ := by
    intro r
    simp [ResolveToolCallForm.change, haction]
  unfold afterResolution
  rw [if_neg haction]
  by_cases hact : isActive xs = true
  · -- some other call is approved or running, and stays pending
    rw [if_pos hact]
    obtain ⟨k, hk⟩ := (isActive_iff h).mp hact
    have hne : k ≠ form.callId := by
      rintro rfl
      rcases hk with ⟨_, hk⟩ | ⟨c, hc, _, hrun⟩
      · exact hr.not_approved hk
      · exact hr.ne_of_running hc hrun rfl
    have hpend : Pending xs k := hk.elim And.left fun ⟨c, hc, hp, _⟩ => ⟨c, hc, hp⟩
    have hstill := (heffect.pending k).mpr ⟨hpend, by simp [Ne.symm hne]⟩
    refine ⟨hr.pending, hr.not_approved, ?_, fun k c hc _ => hkept k c hc, ?_, ?_⟩
    · rw [hchange]
      exact heffect
    · simp [haction]
    · exact iff_of_false (by simp) fun hnone => hnone k hstill
  · rw [if_neg hact]
    have hnorun := not_running_of_idle h (eq_false_of_ne_true hact)
    -- nothing runs, so what is said of running calls holds of none
    have hvacuous : ∀ k c ys, findCall k xs = some c → isPending xs c = true →
        c.status = .inProgress → k ≠ form.callId ∧ findCall k ys = some c :=
      fun k c ys hc hp hrun => absurd ⟨c, hc, hp, hrun⟩ (hnorun k)
    by_cases hempty : (pendingToolCalls zs).isEmpty = true
    · -- the last call: the model goes on
      rw [if_pos hempty]
      rw [List.isEmpty_iff, pending_eq_nil heffect.identified] at hempty
      refine ⟨hr.pending, hr.not_approved, ?_, fun k c => hvacuous k c _, ?_, ?_⟩
      · rw [hchange]
        exact heffect.continue uuid
      · simp [haction]
      · refine iff_of_true rfl fun k hk => ?_
        rw [Pending.congr (find_continuation ..) (hasResult_continuation ..)] at hk
        exact hempty k hk
    · -- the next call is shown
      rw [if_neg hempty]
      rw [List.isEmpty_iff, pending_eq_nil heffect.identified] at hempty
      have hshown : Effect ⟨none, some form.callId, none, 0⟩ xs (promoteFirst zs) :=
        heffect.promote fun c hc => hc
      refine ⟨hr.pending, hr.not_approved, ?_, fun k c => hvacuous k c _, ?_, ?_⟩
      · rw [hchange]
        exact hshown
      · simp [haction]
      · refine iff_of_false (by simp) fun hnone => hempty fun k hk => hnone k ?_
        rw [hshown.pending, ← heffect.pending]
        exact hk

end Resolvable

/-- A resolution that goes through found a call that may be resolved. -/
theorem resolveToolCallOutput_ok (h : Identified m.output)
    (hok : resolveToolCallOutput dumps caller form uuid (some m) = .ok (m', resume)) :
    Resolved form resume m.output m'.output := by
  unfold resolveToolCallOutput at hok
  split_ifs at hok with hwritable
  simp only at hok
  split_ifs at hok with howner
  cases hcall : findCall form.callId m.output with
  | none =>
      rw [hcall] at hok
      cases hok
  | some call =>
      rw [hcall] at hok
      simp only at hok
      split_ifs at hok with hdone
      simp only [not_or, Bool.not_eq_true, Bool.not_eq_false] at hdone
      -- every guard has been passed: the call is pending and not approved
      have hr : Resolvable form m.output call := ⟨hcall, hdone.1, hdone.2.1, hdone.2.2⟩
      unfold resolveCall at hok
      cases haction : form.action with
      | approve =>
          simp only [haction] at hok
          split_ifs at hok with hname
          · cases hok
          · cases hok
            have := hr.approve h hname haction
            unfold afterResolution
            rw [if_pos rfl]
            split_ifs at this ⊢ <;> exact this
      | reject =>
          simp only [haction] at hok
          cases hok
          have := hr.settle h uuid "Error: tool call rejected by user."
            (by simp : Status.rejected ≠ _) (by simp [haction])
          rwa [haction] at this
      | answer =>
          simp only [haction] at hok
          split_ifs at hok with hname hanswers
          · cases hok
          · cases hok
          · cases hok
            have := hr.settle h uuid (dumps (answerPayload form))
              (by simp : Status.completed ≠ _) (by simp [haction])
            rwa [haction] at this

/-! ## Claiming -/

variable {full : Bool} {c : FunctionCall}

/-- A worker looks for a running call among the pending ones, which is where they all are. -/
theorem any_running_iff (h : Identified xs) :
    ((pendingToolCalls xs).any fun c => c.status = .inProgress) = true ↔ ∃ k, Running xs k := by
  simp only [List.any_eq_true, decide_eq_true_eq]
  constructor
  · rintro ⟨c, hc, hrun⟩
    exact ⟨c.key, c, find_of_mem_pending h hc, (mem_pending.mp hc).2, hrun⟩
  · rintro ⟨k, c, hc, hp, hrun⟩
    exact ⟨c, mem_pending_of_find hc hp, hrun⟩

/-- A worker that finds nothing to run: some call runs already, or no pending call may run. -/
theorem claim_none (h : Identified m.output) (hclaim : claim full m = (m', none)) :
    Effect .nothing m.output m'.output ∧
      ((∃ k, Running m.output k) ∧ m' = m ∨ (∀ k, ¬ Running m.output k) ∧
        ∀ k c, findCall k m.output = some c → isPending m.output c = true →
          runnable full c = false) := by
  have hsame := Effect.refl h
  unfold claim at hclaim
  split_ifs at hclaim with hrun
  · rw [any_running_iff h] at hrun
    cases hclaim
    exact ⟨hsame, .inl ⟨hrun, rfl⟩⟩
  · rw [any_running_iff h, not_exists] at hrun
    cases hfind : (pendingToolCalls m.output).find? (runnable full) with
    | some c =>
        rw [hfind] at hclaim
        cases hclaim
    | none =>
        rw [hfind] at hclaim
        cases hclaim
        refine ⟨hsame.promote fun c hc => hc, .inr ⟨hrun, fun k c hc hp => ?_⟩⟩
        have := List.find?_eq_none.mp hfind c (mem_pending_of_find hc hp)
        exact eq_false_of_ne_true this

@[simp] theorem key_start (c : FunctionCall) : c.start.key = c.key := by
  change (if c.key = "" then c.id else c.key) = c.key
  split_ifs with hk
  · -- a call without an id keeps none
    unfold FunctionCall.key at hk ⊢
    split at hk
    · split_ifs at hk ⊢ with hk'
      · rfl
      · exact absurd hk hk'
    · rfl
  · rfl

/-- A worker that claims a call: nothing runs, and the call is approved or needs no approval. -/
theorem claim_some (h : Identified m.output) (hclaim : claim full m = (m', some c)) :
    ∃ saved, c = saved.start ∧ findCall c.key m.output = some saved ∧
      isPending m.output saved = true ∧ runnable full saved = true ∧
      (∀ k, ¬ Running m.output k) ∧
      Effect ⟨none, none, some c.key, 0⟩ m.output m'.output ∧
        findCall c.key m'.output = some c := by
  unfold claim at hclaim
  split_ifs at hclaim with hrun
  · cases hclaim
  · rw [any_running_iff h, not_exists] at hrun
    cases hfind : (pendingToolCalls m.output).find? (runnable full) with
    | none =>
        rw [hfind] at hclaim
        cases hclaim
    | some saved =>
        rw [hfind] at hclaim
        cases hclaim
        have hfind : (calls m.output).find? (fun c => isPending m.output c && runnable full c) =
            some saved := by
          rw [← hfind, pendingToolCalls, List.find?_filter]
          simp only [Bool.decide_and, Bool.decide_eq_true]
        have hsaved := List.find?_some hfind
        rw [Bool.and_eq_true] at hsaved
        have hopen := (isPending_iff.mp hsaved.1).2
        refine ⟨saved, rfl, ?_, hsaved.1, hsaved.2, hrun, ?_, ?_⟩
        · rw [key_start]
          exact find_of_mem h (List.mem_of_find?_eq_some hfind)
        · refine .edit h hfind (fun c _ => key_start c) hopen.symm ?_ ?_
            (fun _ => congrArg some (key_start saved)) ?_ rfl ?_ rfl rfl
          all_goals simp [FunctionCall.start]
        · rw [find_editCall h hfind (key_start saved), key_start, if_pos rfl]

/-! ## Recording a result -/

/-- The key of a call that has an id is that id. -/
theorem key_of_callId {c : FunctionCall} {k : String} (hid : c.callId = some k) (hk : k ≠ "") :
    c.key = k := by
  rw [FunctionCall.key, hid]
  exact if_neg hk

/-- The worker that runs a call finds it as it left it, and the model goes on once nothing is
pending. -/
theorem completeToolCall_ok (call : FunctionCall) (r : FunctionCallOutput) (uuid : String)
    (h : Identified m.output) (hc : findCall c.key m.output = some c)
    (hp : isPending m.output c = true) (hrun : c.status = .inProgress)
    (hid : c.callId = some c.key) (hcallId : call.callId = c.callId)
    (happ : call.approved = c.approved) (hclosed : call.status ≠ .inProgress)
    (hr : r.callId = c.callId) :
    ∃ m', completeToolCall call r uuid (some m) = .ok m' ∧
      Effect ⟨none, some c.key, none,
        if r.status ≠ .incomplete ∧ pendingToolCalls m'.output = [] then 1 else 0⟩
        m.output m'.output := by
  have hne : c.key ≠ "" := h.named c (Keyed.mem_of_find hc)
  have hkeys : ∀ c' : FunctionCall, c'.callId = call.callId → c'.key = c.key := fun c' hc' =>
    key_of_callId (hc'.trans (hcallId.trans hid)) hne
  -- the pending call looked up by its id is the one that runs
  have hfind : (calls m.output).find? (fun c' => isPending m.output c' && c'.callId = call.callId) =
      some c := by
    cases hf :
      (calls m.output).find? (fun c' => isPending m.output c' && c'.callId = call.callId) with
    | none =>
        have := List.find?_eq_none.mp hf c (Keyed.mem_of_find hc)
        simp [hp, hcallId] at this
    | some c' =>
        have hc' := List.find?_some hf
        rw [Bool.and_eq_true, decide_eq_true_eq] at hc'
        rw [← hc, ← hkeys c' hc'.2]
        exact (find_of_mem h (List.mem_of_find?_eq_some hf)).symm
  have heffect := Effect.answer (f := (·.update call)) h hfind
    (fun c' hc' => by
      rw [Bool.and_eq_true, decide_eq_true_eq] at hc'
      exact (hkeys (c'.update call) rfl).trans (hkeys c' hc'.2).symm)
    (by simp [FunctionCall.update, happ]) (fun _ => hclosed) (hr.trans hid)
  unfold completeToolCall
  simp only [hfind, hrun, ne_eq, not_true_eq_false, if_false]
  generalize editCall (fun c' => isPending m.output c' && decide (c'.callId = call.callId))
    (·.update call) m.output ++ [.functionCallOutput r] = zs at heffect ⊢
  split_ifs with hinc hempty
  -- an interrupted run writes no continuation
  · exact ⟨_, rfl, by simpa [hinc] using heffect⟩
  -- the last call: the model goes on
  · rw [List.isEmpty_iff] at hempty
    have hcont := heffect.continue uuid
    have hnone : pendingToolCalls (zs ++ [toolContinuation uuid]) = [] := by
      rw [pending_eq_nil hcont.identified]
      intro k hk
      rw [Pending.congr (find_continuation ..) (hasResult_continuation ..)] at hk
      exact (pending_eq_nil heffect.identified).mp hempty k hk
    exact ⟨_, rfl, by simpa [hinc, hnone] using hcont⟩
  -- another call is left, and the first one not approved is shown
  · rw [List.isEmpty_iff, pending_eq_nil heffect.identified] at hempty
    have hshown : Effect ⟨none, some c.key, none, 0⟩ m.output
        (editCall (fun c => isPending zs c && !c.approved) (.setStatus .pending) zs) :=
      heffect.promote fun c hc => (Bool.and_eq_true _ _ ▸ hc).1
    have hsome : pendingToolCalls
        (editCall (fun c => isPending zs c && !c.approved) (.setStatus .pending) zs) ≠ [] := by
      rw [ne_eq, pending_eq_nil hshown.identified]
      refine fun hnone => hempty fun k hk => hnone k ?_
      rw [hshown.pending, ← heffect.pending]
      exact hk
    exact ⟨_, rfl, by simpa [hsome] using hshown⟩

end OpenWebUI.Approval
