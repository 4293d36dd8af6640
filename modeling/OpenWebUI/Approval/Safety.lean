import OpenWebUI.Approval.System

/-! # Safety of the tool-approval protocol

From any output with distinct ids, and however users and workers interleave: a call is
answered once, one call runs at a time, a call runs only when it may, nothing is resolved
twice, and the model goes on exactly once each time the pending calls run out.
-/

namespace OpenWebUI.Approval

open Py Transition

/-- What must have happened before an event. -/
def Lawful (origin : List Item) (before : List Event) : Event → Prop
  | .executed _ k full =>
      (full = true ∨ Approved origin k ∨ ∃ r, .resolved k .approve r ∈ before) ∧
        (∀ r, .resolved k .reject r ∉ before) ∧ resultCount origin k = 0
  | .resolved k _ _ =>
      (∀ a r, .resolved k a r ∉ before) ∧ ¬ Approved origin k ∧ resultCount origin k = 0
  | .completed .. | .interrupted .. => True

/-- What the output shows of the run so far. -/
structure Books (origin : List Item) (output : List Item) (log : List Event) : Prop where
  identified : Identified output
  once : ∀ k, resultCount output k ≤ max 1 (resultCount origin k)
  exclusive : runningCount output ≤ max 1 (runningCount origin)
  approvals : ∀ k, Approved output k → Approved origin k ∨ ∃ r, .resolved k .approve r ∈ log
  settled : ∀ k a r, .resolved k a r ∈ log → Approved output k ∨ 0 < resultCount output k
  rejected : ∀ k r, .resolved k .reject r ∈ log → 0 < resultCount output k
  approved : ∀ k, Approved origin k → Approved output k
  grown : ∀ k, resultCount origin k ≤ resultCount output k
  history : Justified (Lawful origin) log

variable {origin xs ys : List Item} {log : List Event} {d : Change} {m : Message} {s s' : System}

/-- A pending call has no result yet. -/
theorem Pending.unanswered {k : String} (h : Pending xs k) : resultCount xs k = 0 := by
  obtain ⟨c, hc, hp⟩ := h
  have hres := (isPending_iff.mp hp).1
  rw [Keyed.key_of_find hc, ← Bool.not_eq_true, hasResult_iff] at hres
  omega

/-- Before the first event the output shows just the start. -/
theorem Books.init (h : Identified origin) : Books origin origin [] where
  identified := h
  once _ := le_max_right _ _
  exclusive := le_max_right _ _
  approvals _ hk := .inl hk
  settled _ _ _ hmem := absurd hmem List.not_mem_nil
  rejected _ _ hmem := absurd hmem List.not_mem_nil
  approved _ hk := hk
  grown _ := Nat.le_refl _
  history := .nil

/-- A pending call has not been rejected, nor answered at the start. -/
theorem Books.unanswered (hb : Books origin xs log) {k : String} (h : Pending xs k) :
    (∀ r, .resolved k .reject r ∉ log) ∧ resultCount origin k = 0 := by
  have hzero := h.unanswered
  refine ⟨fun r hmem => ?_, ?_⟩
  · have := hb.rejected k r hmem
    omega
  · have := hb.grown k
    omega

/-- A pending call that is not approved has not been resolved. -/
theorem Books.unresolved (hb : Books origin xs log) {k : String} (h : Pending xs k)
    (happ : ¬ Approved xs k) :
    (∀ a r, .resolved k a r ∉ log) ∧ ¬ Approved origin k ∧ resultCount origin k = 0 := by
  refine ⟨fun a r hmem => ?_, fun hk => happ (hb.approved k hk), (hb.unanswered h).2⟩
  rcases hb.settled k a r hmem with hk | hk
  · exact happ hk
  · have := h.unanswered
    omega

/-- One transaction with its event: it answers only what has no result, starts a call only while
none runs, and each resolution in the log is one of its own or an old one. -/
theorem Books.step {log' : List Event} (hb : Books origin xs log) (he : Effect d xs ys)
    (hanswered : ∀ k, d.answered = some k → Pending xs k)
    (hstarted : d.started ≠ none → runningCount xs = 0) (hlog : log ⊆ log')
    (happroved : ∀ k, d.approved = some k → ∃ r, .resolved k .approve r ∈ log')
    (hresolved : ∀ k a r, .resolved k a r ∈ log' →
      .resolved k a r ∈ log ∨ a = .approve ∧ d.approved = some k ∨ d.answered = some k)
    (hhistory : Justified (Lawful origin) log') : Books origin ys log' := by
  have hmono : ∀ k, resultCount xs k ≤ resultCount ys k := fun k => by
    rw [he.results]
    omega
  have happ : ∀ k, Approved xs k → Approved ys k := fun k hk => (he.approved k).mpr (.inl hk)
  have hnew : ∀ k, d.answered = some k → 0 < resultCount ys k := fun k hk => by
    rw [he.results, if_pos hk]
    omega
  constructor
  · exact he.identified
  -- one result at most: the call answered now had none
  · intro k
    rw [he.results]
    split_ifs with hk
    · rw [(hanswered k hk).unanswered]
      exact le_max_left _ _
    · exact hb.once k
  -- one running call at most: a call is started only where none runs
  · have hcount := he.runningCount
    split_ifs at hcount with hs
    · exact Nat.le_trans hcount hb.exclusive
    · rw [hstarted hs] at hcount
      exact Nat.le_trans hcount (le_max_left _ _)
  -- an approved call was approved before, or is by an event of this step
  · intro k hk
    rcases (he.approved k).mp hk with hk | hk
    · exact (hb.approvals k hk).imp_right fun ⟨r, hr⟩ => ⟨r, hlog hr⟩
    · exact .inr (happroved k hk)
  -- a settled call stays settled
  · intro k a r hmem
    rcases hresolved k a r hmem with hold | ⟨-, hk⟩ | hk
    · exact (hb.settled k a r hold).imp (happ k) fun hk => Nat.lt_of_lt_of_le hk (hmono k)
    · exact .inl ((he.approved k).mpr (.inr hk))
    · exact .inr (hnew k hk)
  -- a rejected call has its result
  · intro k r hmem
    rcases hresolved k _ r hmem with hold | ⟨hne, -⟩ | hk
    · exact Nat.lt_of_lt_of_le (hb.rejected k r hold) (hmono k)
    · cases hne
    · exact hnew k hk
  · exact fun k hk => happ k (hb.approved k hk)
  · exact fun k => Nat.le_trans (hb.grown k) (hmono k)
  · exact hhistory

/-- A transaction that resolves nothing, with its event if there is one. -/
theorem Books.record {e : Option Event} (hb : Books origin xs log) (he : Effect d xs ys)
    (hanswered : ∀ k, d.answered = some k → Pending xs k)
    (hstarted : d.started ≠ none → runningCount xs = 0) (happroved : d.approved = none)
    (hlawful : ∀ e', e = some e' → Lawful origin log e')
    (hnot : ∀ k a r, e ≠ some (.resolved k a r)) : Books origin ys (log ++ e.toList) := by
  refine hb.step he hanswered hstarted (List.subset_append_left _ _) (by simp [happroved]) ?_ ?_
  · intro k a r hmem
    rcases List.mem_append.mp hmem with hmem | hmem
    · exact .inl hmem
    · exact absurd (Option.mem_toList.mp hmem) (hnot k a r)
  · cases e with
    | none => simpa using hb.history
    | some e => exact hb.history.snoc (hlawful e rfl)

/-- A resolution is booked as an approval or as an answer. -/
theorem Books.resolved {form : ResolveToolCallForm} {resume : Option Resume}
    (hb : Books origin xs log) (h : Resolved form resume xs ys) :
    Books origin ys (log ++ [.resolved form.callId form.action resume]) := by
  refine hb.step h.effect ?_ (fun hs => absurd rfl hs) (List.subset_append_left _ _) ?_ ?_ ?_
  · intro k hk
    simp only [ResolveToolCallForm.change] at hk
    split_ifs at hk
    exact Option.some.inj hk ▸ h.pending
  · intro k hk
    simp only [ResolveToolCallForm.change] at hk
    split_ifs at hk with haction
    obtain rfl := Option.some.inj hk
    exact ⟨resume, by simp [haction]⟩
  · intro k a r hmem
    rcases List.mem_append.mp hmem with hmem | hmem
    · exact .inl hmem
    · obtain ⟨rfl, rfl, rfl⟩ : k = form.callId ∧ a = form.action ∧ r = resume := by
        simpa using hmem
      right
      simp only [ResolveToolCallForm.change]
      split_ifs with haction
      · exact .inl ⟨haction, rfl⟩
      · exact .inr rfl
  · exact hb.history.snoc (hb.unresolved h.pending h.fresh)

/-! ## The invariant -/

/-- A step keeps the running worker and its call together. -/
theorem Owned.step (ho : Owned s) {mv : Move} (hs : Stepped s mv s') : Owned s' := by
  have hrunning : ∀ w full c, s.worker w = some ⟨full, .executing c⟩ → Running s.output c.key := by
    intro w full c hw
    obtain ⟨hc, hp, hrun, -⟩ := ho.call w full c hw
    exact ⟨c, hc, hp, hrun⟩
  cases hs with
  | refused => exact ho
  | @resolved caller form uuid full m resume h =>
      -- the resolution starts a worker, which runs nothing yet
      have hold : ∀ w full' c, (if resume = some .tools then s.workers ++ [⟨full, .ready⟩]
          else s.workers)[w]? = some ⟨full', .executing c⟩ →
          s.worker w = some ⟨full', .executing c⟩ := by
        intro w full' c hw
        split_ifs at hw
        · exact executing_of_append hw
        · exact hw
      constructor
      · intro w full' c hw
        obtain ⟨hc, hp, hrun, hid⟩ := ho.call w full' c (hold w full' c hw)
        -- a running call is not the one resolved
        obtain ⟨hne, hnow⟩ := h.kept c.key c hc hp hrun
        refine ⟨hnow, ?_, hrun, hid⟩
        have hpend : Pending m.output c.key := by
          refine (h.effect.pending _).mpr ⟨⟨c, hc, hp⟩, ?_⟩
          simp only [ResolveToolCallForm.change]
          split_ifs <;> simp [Ne.symm hne]
        rw [Pending.iff_of_find hnow] at hpend
        exact isPending_iff.mpr hpend
      · intro w w' full₁ full₂ c c' hw hw'
        exact ho.single w w' full₁ full₂ c c' (hold w full₁ c hw) (hold w' full₂ c' hw')
  | started full =>
      constructor
      · intro w full' c hw
        exact ho.call w full' c (executing_of_append hw)
      · intro w w' full₁ full₂ c c' hw hw'
        exact ho.single w w' full₁ full₂ c c' (executing_of_append hw) (executing_of_append hw')
  | @idle w full m hw h hwhy =>
      -- the worker that returns runs nothing, so the others are as before
      have hold : ∀ w' full' c, (s.workers.set w ⟨full, .returned true⟩)[w']? =
          some ⟨full', .executing c⟩ → s.worker w' = some ⟨full', .executing c⟩ := by
        intro w' full' c hw'
        rcases executing_of_set hw' with ⟨-, hx⟩ | ⟨-, hx⟩
        · cases hx
        · exact hx
      rcases hwhy with ⟨-, rfl⟩ | ⟨hnone, -⟩
      · exact ⟨fun w' full' c hw' => ho.call w' full' c (hold w' full' c hw'),
          fun w₁ w₂ full₁ full₂ c c' h₁ h₂ => ho.single w₁ w₂ full₁ full₂ c c'
            (hold w₁ full₁ c h₁) (hold w₂ full₂ c' h₂)⟩
      · -- nothing runs, so no worker runs a call
        exact .of_none fun w' full' c hw' =>
          hnone c.key (hrunning w' full' c (hold w' full' c hw'))
  | @claimed w full m saved hw hsaved hp hrunnable hnone h hnow =>
      -- nothing ran before the claim, so the claimed call is the only one that runs
      have hown : ∀ w' full' c, (s.workers.set w ⟨full, .executing saved.start⟩)[w']? =
          some ⟨full', .executing c⟩ → w' = w ∧ c = saved.start := by
        intro w' full' c hw'
        rcases executing_of_set hw' with ⟨hww, hx⟩ | ⟨-, hx⟩
        · cases hx
          exact ⟨hww, rfl⟩
        · exact absurd (hrunning w' full' c hx) (hnone c.key)
      constructor
      · intro w' full' c hw'
        obtain ⟨-, rfl⟩ := hown w' full' c hw'
        rw [key_start]
        have hpend : Pending m.output saved.key :=
          (h.pending _).mpr ⟨⟨saved, hsaved, hp⟩, by simp⟩
        rw [Pending.iff_of_find hnow] at hpend
        exact ⟨hnow, isPending_iff.mpr (by rwa [key_start]), rfl, rfl⟩
      · intro w₁ w₂ full₁ full₂ c c' h₁ h₂
        exact (hown w₁ full₁ c h₁).1.trans (hown w₂ full₂ c' h₂).1.symm
  | @completed w run id uuid full m c hw h =>
      -- the worker ran the only call there is, and has ended it
      refine .of_none fun w' full' c' hw' => ?_
      rcases executing_of_set hw' with ⟨-, hx⟩ | ⟨hne, hx⟩
      · have hphase := congrArg Worker.phase hx
        unfold nextPhase at hphase
        split_ifs at hphase
      · exact hne (ho.single _ _ _ _ _ _ hx hw)
  | @interrupted w id uuid full m c hw h =>
      refine .of_none fun w' full' c' hw' => ?_
      rcases executing_of_set hw' with ⟨-, hx⟩ | ⟨hne, hx⟩
      · cases hx
      · exact hne (ho.single _ _ _ _ _ _ hx hw)

/-- A step keeps the books right. -/
theorem Books.stepped (hb : Books origin s.output s.log) (ho : Owned s) {mv : Move}
    (hs : Stepped s mv s') : Books origin s'.output s'.log := by
  have hpending : ∀ w full c k, s.worker w = some ⟨full, .executing c⟩ → some c.key = some k →
      Pending s.output k := by
    rintro w full c k hw hk
    obtain ⟨hc, hp, -⟩ := ho.call w full c hw
    exact Option.some.inj hk ▸ ⟨c, hc, hp⟩
  cases hs with
  | refused => exact hb
  | resolved caller form uuid full h => exact hb.resolved h
  | started full => exact hb
  | @idle w full m hw h hwhy =>
      have := hb.record (e := none) h (by simp [Change.nothing]) (fun hs => absurd rfl hs) rfl
        (by simp) (by simp)
      simpa using this
  | @claimed w full m saved hw hsaved hp hrunnable hnone h hnow =>
      refine hb.record (e := some (.executed w saved.key full)) h (by simp)
        (fun _ => runningCount_eq_zero hb.identified hnone) rfl ?_ (by simp)
      intro e he
      obtain rfl := Option.some.inj he
      refine ⟨?_, hb.unanswered ⟨saved, hsaved, hp⟩⟩
      rw [runnable, Bool.and_eq_true, Bool.or_eq_true] at hrunnable
      rcases hrunnable.2 with happ | hfull
      · exact .inr (hb.approvals saved.key ⟨saved, hsaved, happ⟩)
      · exact .inl hfull
  | @completed w run id uuid full m c hw h =>
      refine hb.record (e := some (.completed w c.key _)) h (hpending w full c · hw)
        (fun hs => absurd rfl hs) rfl ?_ (by simp)
      intro e he
      obtain rfl := Option.some.inj he
      trivial
  | @interrupted w id uuid full m c hw h =>
      refine hb.record (e := some (.interrupted w c.key)) h (hpending w full c · hw)
        (fun hs => absurd rfl hs) rfl ?_ (by simp)
      intro e he
      obtain rfl := Option.some.inj he
      trivial

structure Inv (origin : List Item) (s : System) : Prop where
  books : Books origin s.output s.log
  owned : Owned s

variable {dumps : Json → String}

/-- The invariant holds in every state a run reaches. -/
theorem Reachable.inv (h : Identified m.output) (hs : Reachable dumps m s) : Inv m.output s := by
  refine Transition.Reachable.invariant hs ?_ ?_
  · rintro _ rfl
    exact ⟨.init h, .of_none fun w full c hw => by simp [System.start] at hw⟩
  · intro mv s s' hi hstep
    have := step_cases hi.books.identified hi.owned hstep
    exact ⟨hi.books.stepped hi.owned this, hi.owned.step this⟩

/-! ## The protocol -/

def Move.interrupts : Move → Bool
  | .interrupt .. => true
  | _ => false

/-- A resolution or a completed run takes the last pending call away. -/
def Emptied (mv : Move) (s s' : System) : Prop :=
  pendingToolCalls s.output ≠ [] ∧ pendingToolCalls s'.output = [] ∧ mv.interrupts = false

instance (mv : Move) (s s' : System) : Decidable (Emptied mv s s') := by
  unfold Emptied
  infer_instance

/-- The step appends a message for the model, and its actor goes on with it, exactly when the
pending calls run out. -/
structure ContinuesOnce (mv : Move) (s s' : System) : Prop where
  message : continuations s'.output =
    continuations s.output + if Emptied mv s s' then 1 else 0
  actor : continuers s'.log = continuers s.log + if Emptied mv s s' then 1 else 0

/-- With a pending call before, the move has emptied the list when none is left. -/
theorem emptied_iff (h : Identified s.output) (h' : Identified s'.output) {mv : Move}
    (hmv : mv.interrupts = false) {k : String} (hk : Pending s.output k) :
    Emptied mv s s' ↔ ∀ k, ¬ Pending s'.output k := by
  rw [Emptied, pending_eq_nil h', ne_eq, pending_eq_nil h]
  exact ⟨fun he => he.2.1, fun he => ⟨fun hnone => hnone k hk, he, hmv⟩⟩

/-- A move that leaves the pending calls as they are empties nothing. -/
theorem not_emptied (mv : Move) (h : Identified s.output) (h' : Identified s'.output)
    (hk : ∀ k, Pending s'.output k ↔ Pending s.output k) : ¬ Emptied mv s s' := by
  rintro ⟨hsome, hnone, -⟩
  rw [pending_eq_nil h'] at hnone
  rw [ne_eq, pending_eq_nil h] at hsome
  exact hsome fun k hp => hnone k ((hk k).mpr hp)

/-- One more event is one more continuation at most. -/
theorem continuers_snoc (log : List Event) (e : Event) :
    continuers (log ++ [e]) = continuers log + if e.continues then 1 else 0 := by
  simp [continuers, List.countP_append]

/-- A step after which the same calls are pending hands nothing to the model. -/
theorem ContinuesOnce.of_same (h : Identified s.output) (h' : Identified s'.output) {mv : Move}
    (hk : ∀ k, Pending s'.output k ↔ Pending s.output k)
    (hmessage : continuations s'.output = continuations s.output)
    (hactor : continuers s'.log = continuers s.log) : ContinuesOnce mv s s' := by
  have hne := not_emptied mv h h' hk
  exact ⟨by rw [hmessage, if_neg hne]; rfl, by rw [hactor, if_neg hne]; rfl⟩

/-- A step writes the continuation exactly when it takes the last pending call away. -/
theorem Inv.continuesOnce (hi : Inv origin s) {mv : Move} (hs : Stepped s mv s') :
    ContinuesOnce mv s s' := by
  have hid := hi.books.identified
  have hid' := (hi.books.stepped hi.owned hs).identified
  cases hs with
  | refused => exact .of_same hid hid (fun _ => Iff.rfl) rfl rfl
  | @resolved caller form uuid full m resume h =>
      -- the model goes on exactly where the resolution answered the last pending call
      have hemptied : Emptied (.resolve caller form uuid full) s ⟨m,
          if resume = some .tools then s.workers ++ [⟨full, .ready⟩] else s.workers,
          s.log ++ [.resolved form.callId form.action resume]⟩ ↔ resume = some .model :=
        (emptied_iff hid hid' rfl h.pending).trans h.model.symm
      constructor
      · rw [h.effect.continuations]
        simp only [hemptied, ResolveToolCallForm.change]
      · rw [continuers_snoc]
        simp only [hemptied, Event.continues, decide_eq_true_eq]
  | started full => exact .of_same hid hid' (fun _ => Iff.rfl) rfl rfl
  | @idle w full m hw h hwhy =>
      exact .of_same hid hid' (fun k => by simp [h.pending, Change.nothing]) h.continuations rfl
  | @claimed w full m saved hw hsaved hp hrunnable hnone h hnow =>
      refine .of_same hid hid' (fun k => by simp [h.pending]) h.continuations ?_
      rw [continuers_snoc]
      rfl
  | @completed w run id uuid full m c hw h =>
      obtain ⟨hc, hp, -⟩ := hi.owned.call w full c hw
      -- the same for a completion
      have hemptied : Emptied (.complete w run id uuid) s
          ⟨m, s.workers.set w ⟨full, nextPhase full m.output⟩,
            s.log ++ [.completed w c.key (pendingToolCalls m.output).isEmpty]⟩ ↔
          pendingToolCalls m.output = [] := by
        rw [emptied_iff hid hid' rfl ⟨c, hc, hp⟩, pending_eq_nil hid']
      constructor
      · rw [h.continuations]
        simp only [hemptied]
      · rw [continuers_snoc]
        simp only [hemptied, Event.continues, List.isEmpty_iff]
  | @interrupted w id uuid full m c hw h =>
      -- an interruption writes no continuation, and no interruption empties the calls
      have hne : ¬ Emptied (.interrupt w id uuid) s
          ⟨m, s.workers.set w ⟨full, .raised⟩, s.log ++ [.interrupted w c.key]⟩ := by
        rintro ⟨-, -, hmv⟩
        cases hmv
      constructor
      · rw [if_neg hne]
        exact h.continuations
      · rw [continuers_snoc, if_neg hne]
        rfl

/-- What holds in every state of a run. -/
structure Safe (origin : List Item) (s : System) : Prop where
  once : ∀ k, resultCount s.output k ≤ max 1 (resultCount origin k)
  exclusive : runningCount s.output ≤ max 1 (runningCount origin)
  history : Justified (Lawful origin) s.log

/-- From any output with distinct ids, every interleaving is safe, and every step continues the
model exactly once if it takes the last pending call away, and not otherwise. -/
theorem protocol_safe (dumps : Json → String) (m : Message) (h : Identified m.output) (s : System)
    (hs : Reachable dumps m s) :
    Safe m.output s ∧ ∀ mv s', Step dumps mv s s' → ContinuesOnce mv s s' := by
  have hi := hs.inv h
  refine ⟨⟨hi.books.once, hi.books.exclusive, hi.books.history⟩, fun mv s' hstep => ?_⟩
  exact hi.continuesOnce (step_cases hi.books.identified hi.owned hstep)

/-! ## A run, and an output that starts with two running calls -/

def toolCall (k : String) (status : Status) : Item :=
  .functionCall
    { id := "fc", callId := some k, name := "search", arguments := "", status := status
      approved := false }

def user : Caller := { user := "u", owner := "u", writable := true }

def approve (k : String) : Move :=
  .resolve user { callId := k, action := .approve, answers := .null, timedOut := false } "1" false

def toolRun : ToolRun :=
  { arguments := "", failed := false, output := [.inputText "found"], files := [], embeds := [] }

/-- Two calls wait, and the first is shown to the user. -/
def twoWaiting : Message :=
  { userId := some "u", output := [toolCall "a" .pending, toolCall "b" .queued], done := false }

/-- Two calls are in progress. -/
def twoRunning : Message :=
  { userId := some "u", output := [toolCall "a" .inProgress, toolCall "b" .inProgress]
    done := false }

theorem identified_twoWaiting : Identified twoWaiting.output := ⟨by decide, by decide⟩

theorem identified_twoRunning : Identified twoRunning.output := ⟨by decide, by decide⟩

/-- One worker runs both calls; the second is approved while the first runs. -/
def bothApproved : List Move :=
  [approve "a", .claim 0, approve "b", .complete 0 toolRun "1" "2", .claim 0,
    .complete 0 toolRun "3" "4"]

theorem protocol_safe_bothApproved :
    ∃ s, run (fun _ => "") bothApproved (.start twoWaiting) = some s ∧ continuers s.log = 1 ∧
      Safe twoWaiting.output s ∧ ∀ mv s', Step (fun _ => "") mv s s' → ContinuesOnce mv s s' := by
  refine ⟨_, rfl, rfl, protocol_safe _ twoWaiting identified_twoWaiting _ ?_⟩
  exact Reachable.run (.start rfl) (show run _ bothApproved _ = some _ from rfl)

/-- An output may start with more than one call in progress, and with more than one result. -/
theorem starts_with_two_running :
    ¬ ∀ m : Message, Identified m.output → ∀ s, Reachable (fun _ => "") m s →
      runningCount s.output ≤ 1 := by
  intro h
  have := h twoRunning identified_twoRunning _ (.start rfl)
  exact absurd this (by decide)

end OpenWebUI.Approval
