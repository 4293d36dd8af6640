import OpenWebUI.Approval.Protocol

/-! # What an edit does to the calls

An output is read through a few views: which ids are approved, pending, running or
answered, and how many messages wait for the model. An `Effect` says how an edit
changes all of them.
-/

namespace OpenWebUI.Approval

/-- The call known as `k` is approved. -/
def Approved (output : List Item) (k : String) : Prop :=
  ∃ c, findCall k output = some c ∧ c.approved = true

/-- The call known as `k` waits for its result. -/
def Pending (output : List Item) (k : String) : Prop :=
  ∃ c, findCall k output = some c ∧ isPending output c = true

/-- The pending call known as `k` is running. -/
def Running (output : List Item) (k : String) : Prop :=
  ∃ c, findCall k output = some c ∧ isPending output c = true ∧ c.status = .inProgress

def isRunning (output : List Item) (c : FunctionCall) : Bool :=
  isPending output c && c.status = .inProgress

/-- How many calls are in progress. -/
def runningCount (output : List Item) : ℕ := (calls output).countP (isRunning output)

/-- A pending question to the user is never approved: it is answered. -/
def AskFree (output : List Item) : Prop :=
  ∀ k c, findCall k output = some c → isPending output c = true → c.approved = true →
    c.name ≠ "ask_user"

variable {output : List Item} {p : FunctionCall → Bool} {f : FunctionCall → FunctionCall}
  {c : FunctionCall} {k : String}

/-! ## Looking up -/

theorem mem_pending : c ∈ pendingToolCalls output ↔ c ∈ calls output ∧ isPending output c = true :=
  List.mem_filter

/-- A pending call is found under its key. -/
theorem find_of_mem_pending (h : Identified output) (hc : c ∈ pendingToolCalls output) :
    findCall c.key output = some c :=
  find_of_mem h (mem_pending.mp hc).1

/-- What is found and pending is in the list. -/
theorem mem_pending_of_find (hc : findCall k output = some c) (hp : isPending output c = true) :
    c ∈ pendingToolCalls output :=
  mem_pending.mpr ⟨Keyed.mem_of_find hc, hp⟩

/-- The list is empty when no key is pending. -/
theorem pending_eq_nil (h : Identified output) :
    pendingToolCalls output = [] ↔ ∀ k, ¬ Pending output k := by
  constructor
  · rintro hnil k ⟨c, hc, hp⟩
    have := mem_pending_of_find hc hp
    rw [hnil] at this
    exact List.not_mem_nil this
  · intro hnone
    rw [List.eq_nil_iff_forall_not_mem]
    intro c hc
    exact hnone c.key ⟨c, find_of_mem_pending h hc, (mem_pending.mp hc).2⟩

/-- Pending is open and without a result. -/
theorem isPending_iff : isPending output c = true ↔
    hasResult output c.key = false ∧ c.status.open = true := by
  rw [isPending, Bool.and_eq_true, Bool.not_eq_true']

/-- Under a key the call that is found decides. -/
theorem Pending.iff_of_find (hc : findCall k output = some c) :
    Pending output k ↔ hasResult output k = false ∧ c.status.open = true := by
  have hk := Keyed.key_of_find hc
  constructor
  · rintro ⟨c', hc', hp⟩
    obtain rfl := Option.some.inj (hc.symm.trans hc')
    rwa [isPending_iff, hk] at hp
  · intro hp
    exact ⟨c, hc, by rwa [isPending_iff, hk]⟩

/-- Two outputs with the same calls under `k` and the same results agree on `k`. -/
theorem Pending.congr {xs ys : List Item} (hfind : findCall k xs = findCall k ys)
    (hres : hasResult xs k = hasResult ys k) : Pending xs k ↔ Pending ys k := by
  cases hc : findCall k ys with
  | none =>
      rw [hc] at hfind
      exact iff_of_false (fun ⟨_, h, _⟩ => by rw [hfind] at h; cases h)
        (fun ⟨_, h, _⟩ => by rw [hc] at h; cases h)
  | some c => rw [iff_of_find (hfind.trans hc), iff_of_find hc, hres]

/-- Approval can be seen from the call that is found. -/
theorem Approved.congr {xs ys : List Item} (hfind : findCall k xs = findCall k ys) :
    Approved xs k ↔ Approved ys k := by
  unfold Approved
  rw [hfind]

/-! ## Editing one call -/

section Edit

variable (h : Identified output) (hc : (calls output).find? p = some c) (hf : (f c).key = c.key)

include h hc hf

/-- The edited call is found under its key, the others as before. -/
theorem find_editCall (k : String) :
    findCall k (editCall p f output) = if k = c.key then some (f c) else findCall k output := by
  rw [findCall, calls_editCall]
  exact Keyed.find_editFirst h.distinct hc hf

/-- An edit that leaves open what was open moves nothing in or out of the pending calls. -/
theorem pending_editCall (hfc : (f c).status.open = c.status.open) :
    Pending (editCall p f output) k ↔ Pending output k := by
  have hself : findCall c.key output = some c := find_of_mem h (List.mem_of_find?_eq_some hc)
  by_cases hk : k = c.key
  · have hnow : findCall k (editCall p f output) = some (f c) := by
      rw [find_editCall h hc hf, if_pos hk]
    rw [Pending.iff_of_find hnow, Pending.iff_of_find (hk ▸ hself), hasResult_editCall, hfc]
  · exact Pending.congr (by rw [find_editCall h hc hf, if_neg hk]) (hasResult_editCall ..)

end Edit

/-! ## Effects -/

/-- How many results answer the call known as `k`. -/
def resultCount (output : List Item) (k : String) : ℕ :=
  (results output).countP fun r => r.callId = some k

/-- What a transaction does: the ids it approves, answers and starts, and the number of
messages it hands to the model. -/
structure Change where
  approved : Option String
  answered : Option String
  started : Option String
  wrote : ℕ

def Change.nothing : Change := ⟨none, none, none, 0⟩

structure Effect (d : Change) (xs ys : List Item) : Prop where
  identified : Identified ys
  approved : ∀ j, Approved ys j ↔ Approved xs j ∨ d.approved = some j
  results : ∀ j, resultCount ys j = resultCount xs j + if d.answered = some j then 1 else 0
  pending : ∀ j, Pending ys j ↔ Pending xs j ∧ d.answered ≠ some j
  running : ∀ j, Running ys j → Running xs j ∨ d.started = some j
  runningCount : runningCount ys ≤ runningCount xs + if d.started = none then 0 else 1
  continuations : continuations ys = continuations xs + d.wrote
  askFree : AskFree xs → AskFree ys

/-- A call has a result when it has been counted. -/
theorem hasResult_iff (output : List Item) (k : String) :
    hasResult output k = true ↔ 0 < resultCount output k := by
  rw [hasResult, resultCount, List.any_eq_true, List.countP_pos_iff]

/-- Editing a call counts no result. -/
theorem resultCount_editCall (k : String) :
    resultCount (editCall p f output) k = resultCount output k := by
  rw [resultCount, results_editCall, resultCount]

/-- One more result counts for its own call. -/
theorem resultCount_result (output : List Item) (r : FunctionCallOutput) (k : String) :
    resultCount (output ++ [.functionCallOutput r]) k =
      resultCount output k + if r.callId = some k then 1 else 0 := by
  simp [resultCount, List.countP_append]

/-- What is running depends on the results, and these stay. -/
theorem isRunning_editCall : isRunning (editCall p f output) = isRunning output := by
  funext c
  simp [isRunning, isPending]

/-- An edit that starts nothing raises no count. -/
theorem runningCount_editCall_le (h : ∀ c, p c → isRunning output (f c) → isRunning output c) :
    runningCount (editCall p f output) ≤ runningCount output := by
  rw [runningCount, isRunning_editCall, calls_editCall]
  exact Keyed.countP_editFirst_le h _

/-- A result can only end a run. -/
theorem runningCount_result_le (output : List Item) (r : FunctionCallOutput) :
    runningCount (output ++ [.functionCallOutput r]) ≤ runningCount output := by
  rw [runningCount, runningCount, calls_append, calls_result, List.append_nil]
  refine List.countP_mono_left fun c _ hc => ?_
  simp only [isRunning, isPending, hasResult_result, Bool.and_eq_true, Bool.not_eq_true',
    Bool.or_eq_false_iff] at hc ⊢
  exact ⟨⟨hc.1.1.1, hc.1.2⟩, hc.2⟩

/-- A continuation starts nothing. -/
theorem runningCount_continuation (output : List Item) (uuid : String) :
    runningCount (output ++ [toolContinuation uuid]) = runningCount output := by
  have hsame : isRunning (output ++ [toolContinuation uuid]) = isRunning output := by
    funext c
    simp [isRunning, isPending]
  rw [runningCount, runningCount, hsame, calls_append, calls_continuation, List.append_nil]

/-- Under a key the call that is found decides. -/
theorem Running.iff_of_find (hc : findCall k output = some c) :
    Running output k ↔ Pending output k ∧ c.status = .inProgress := by
  constructor
  · rintro ⟨c', hc', hp, hs⟩
    obtain rfl := Option.some.inj (hc.symm.trans hc')
    exact ⟨⟨c, hc, hp⟩, hs⟩
  · rintro ⟨⟨c', hc', hp⟩, hs⟩
    obtain rfl := Option.some.inj (hc.symm.trans hc')
    exact ⟨c, hc, hp, hs⟩

/-- Whether a key is running can be seen from its call and its result. -/
theorem Running.congr {xs ys : List Item} (hfind : findCall k xs = findCall k ys)
    (hres : hasResult xs k = hasResult ys k) : Running xs k ↔ Running ys k := by
  cases hc : findCall k ys with
  | none =>
      rw [hc] at hfind
      exact iff_of_false (fun ⟨_, h, _⟩ => by rw [hfind] at h; cases h)
        (fun ⟨_, h, _⟩ => by rw [hc] at h; cases h)
  | some c =>
      rw [iff_of_find (hfind.trans hc), iff_of_find hc, Pending.congr hfind hres]

section Primitives

variable {d : Change} {xs ys : List Item}

/-- An edit that leaves the call open. -/
theorem Effect.edit (h : Identified xs) (hc : (calls xs).find? p = some c)
    (hf : ∀ c, p c → (f c).key = c.key) (hopen : (f c).status.open = c.status.open)
    (happroved : (f c).approved = true ↔ c.approved = true ∨ d.approved = some c.key)
    (hself : ∀ j, d.approved = some j → j = c.key)
    (hstarted : (f c).status = .inProgress → d.started = some c.key)
    (hidle : d.started = none → ∀ c, (f c).status ≠ .inProgress)
    (hname : (f c).name = c.name) (hask : d.approved = some c.key → c.name ≠ "ask_user")
    (hanswered : d.answered = none) (hwrote : d.wrote = 0) : Effect d xs (editCall p f xs) := by
  have hkey := hf c (List.find?_some hc)
  have hown : findCall c.key xs = some c := find_of_mem h (List.mem_of_find?_eq_some hc)
  constructor
  · exact h.editCall hf
  -- approvals: only the edited call can gain one
  · intro j
    by_cases hj : j = c.key
    · have hnow : findCall j (editCall p f xs) = some (f c) := by
        rw [find_editCall h hc hkey, if_pos hj]
      rw [Approved, Approved, hnow, hj, hown]
      simpa using happroved
    · rw [Approved.congr (by rw [find_editCall h hc hkey, if_neg hj] : _ = findCall j xs)]
      exact ⟨.inl, fun hor => hor.resolve_right fun hd => hj (hself j hd)⟩
  -- no result is written
  · intro j
    rw [resultCount_editCall, hanswered]
    simp
  · intro j
    rw [pending_editCall h hc hkey hopen, hanswered]
    simp
  · rintro j ⟨c', hc', hpend, hrun⟩
    rw [find_editCall h hc hkey] at hc'
    split_ifs at hc' with hj
    · -- the edited call runs only if the edit starts it
      obtain rfl := Option.some.inj hc'
      exact .inr (hj ▸ hstarted hrun)
    · rw [isPending, hasResult_editCall] at hpend
      exact .inl ⟨c', hc', hpend, hrun⟩
  -- runs: only the edited call can start
  · split_ifs with hd
    · refine runningCount_editCall_le fun c _ hrun => ?_
      have := (Bool.and_eq_true _ _ ▸ hrun).2
      exact absurd (of_decide_eq_true this) (hidle hd c)
    · rw [Approval.runningCount, isRunning_editCall, calls_editCall]
      exact Keyed.countP_editFirst_le_succ _ _
  · rw [hwrote]
    exact continuations_editCall p f xs
  -- no question to the user is approved
  · intro hfree j c' hc' hpend happ
    rw [isPending, hasResult_editCall] at hpend
    rw [find_editCall h hc hkey] at hc'
    split_ifs at hc' with hj
    · obtain rfl := Option.some.inj hc'
      rw [hname]
      rw [hopen, hkey] at hpend
      exact (happroved.mp happ).elim (hfree c.key c hown hpend) hask
    · exact hfree j c' hc' hpend happ

/-- A call that is closed and answered. -/
theorem Effect.answer (h : Identified xs) (hc : (calls xs).find? p = some c)
    (hf : ∀ c, p c → (f c).key = c.key) (happroved : (f c).approved = c.approved)
    (hclosed : ∀ c, (f c).status ≠ .inProgress) {r : FunctionCallOutput}
    (hr : r.callId = some c.key) :
    Effect ⟨none, some c.key, none, 0⟩ xs (editCall p f xs ++ [.functionCallOutput r]) := by
  have hkey := hf c (List.find?_some hc)
  have hown : findCall c.key xs = some c := find_of_mem h (List.mem_of_find?_eq_some hc)
  have hres : ∀ j, hasResult (editCall p f xs ++ [.functionCallOutput r]) j =
      (hasResult xs j || decide (c.key = j)) := by
    intro j
    rw [hasResult_result, hasResult_editCall, hr]
    simp
  have hfind : ∀ j, j ≠ c.key →
      findCall j (editCall p f xs ++ [.functionCallOutput r]) = findCall j xs := by
    intro j hj
    rw [find_result, find_editCall h hc hkey, if_neg hj]
  -- once its result is there the call is no longer pending
  have hgone : ∀ c', findCall c.key (editCall p f xs ++ [.functionCallOutput r]) = some c' →
      isPending (editCall p f xs ++ [.functionCallOutput r]) c' = true → False := by
    intro c' hc' hpend
    have := (isPending_iff.mp hpend).1
    rw [hres, Keyed.key_of_find hc'] at this
    simp at this
  constructor
  · exact (h.editCall hf).of_calls (by simp)
  -- approvals are as they were
  · intro j
    by_cases hj : j = c.key
    · rw [Approved, Approved, find_result, find_editCall h hc hkey, if_pos hj, hj, hown]
      simp [happroved]
    · rw [Approved.congr (hfind j hj)]
      simp
  · intro j
    rw [resultCount_result, resultCount_editCall, hr]
  -- the answered call leaves the pending ones
  · intro j
    by_cases hj : j = c.key
    · subst hj
      exact iff_of_false (fun ⟨c', hc', hpend⟩ => hgone c' hc' hpend) (fun hand => hand.2 rfl)
    · rw [Pending.congr (hfind j hj) (by rw [hres]; simp [Ne.symm hj])]
      simp [Ne.symm hj]
  · rintro j ⟨c', hc', hpend, hrun⟩
    by_cases hj : j = c.key
    · exact (hgone c' (hj ▸ hc') hpend).elim
    · left
      rw [← Running.congr (hfind j hj) (by rw [hres]; simp [Ne.symm hj])]
      exact ⟨c', hc', hpend, hrun⟩
  · refine Nat.le_trans (runningCount_result_le _ _) (runningCount_editCall_le fun c _ hrun => ?_)
    have := (Bool.and_eq_true _ _ ▸ hrun).2
    exact absurd (of_decide_eq_true this) (hclosed c)
  · simp
  · intro hfree j c' hc' hpend happ
    have hj : j ≠ c.key := by
      rintro rfl
      exact hgone c' hc' hpend
    rw [isPending_iff, hres, Bool.or_eq_false_iff] at hpend
    rw [hfind j hj] at hc'
    exact hfree j c' hc' (isPending_iff.mpr ⟨hpend.1.1, hpend.2⟩) happ

/-- Nothing happens to an output that stays. -/
theorem Effect.refl (h : Identified xs) : Effect .nothing xs xs := by
  refine ⟨h, ?_, ?_, ?_, fun _ hj => .inl hj, Nat.le_refl _, rfl, id⟩ <;> simp [Change.nothing]

/-- What has no effect can follow any change. -/
theorem Effect.trans_nothing {zs : List Item} (h : Effect d xs ys) (h' : Effect .nothing ys zs) :
    Effect d xs zs := by
  constructor
  · exact h'.identified
  · intro j
    rw [h'.approved, h.approved]
    simp [Change.nothing]
  · intro j
    rw [h'.results, h.results]
    simp [Change.nothing]
  · intro j
    rw [h'.pending, h.pending]
    simp [Change.nothing]
  · intro j hj
    rcases h'.running j hj with hj | hj
    · exact h.running j hj
    · cases hj
  · exact Nat.le_trans h'.runningCount h.runningCount
  · exact h'.continuations.trans h.continuations
  · exact fun hfree => h'.askFree (h.askFree hfree)

/-- Showing a pending call to the user changes no view. -/
theorem Effect.promote (h : Effect d xs ys) (hp : ∀ c, p c → isPending ys c = true) :
    Effect d xs (editCall p (.setStatus .pending) ys) := by
  cases hc : (calls ys).find? p with
  | none => rwa [editCall_of_none hc]
  | some c =>
      have hopen := (isPending_iff.mp (hp c (List.find?_some hc))).2
      refine h.trans_nothing (.edit h.identified hc (fun _ _ => rfl) hopen.symm ?_ ?_ ?_ ?_ ?_ ?_
        rfl rfl)
      all_goals simp [Change.nothing, FunctionCall.setStatus]

/-- A message for the model to write is no call and no result. -/
theorem Effect.continue (h : Effect d xs ys) (uuid : String) :
    Effect { d with wrote := d.wrote + 1 } xs (ys ++ [toolContinuation uuid]) := by
  have hfind : ∀ j, findCall j (ys ++ [toolContinuation uuid]) = findCall j ys :=
    find_continuation ys uuid
  have hres : ∀ j, hasResult (ys ++ [toolContinuation uuid]) j = hasResult ys j :=
    hasResult_continuation ys uuid
  constructor
  · exact h.identified.of_calls (by simp)
  · intro j
    rw [Approved.congr (hfind j), h.approved]
  · intro j
    rw [← h.results, resultCount, results_append, results_continuation,
      List.append_nil, resultCount]
  · intro j
    rw [Pending.congr (hfind j) (hres j), h.pending]
  · intro j hj
    rw [Running.congr (hfind j) (hres j)] at hj
    exact h.running j hj
  · rw [runningCount_continuation]
    exact h.runningCount
  · rw [continuations_continuation, h.continuations, Nat.add_assoc]
  · intro hfree j c hc hpend happ
    rw [isPending, hres] at hpend
    exact h.askFree hfree j c (hfind j ▸ hc) hpend happ

end Primitives

end OpenWebUI.Approval
