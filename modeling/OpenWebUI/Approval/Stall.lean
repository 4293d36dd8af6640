import OpenWebUI.Approval.Safety

/-! # Approved calls without a worker

An approval relies on the active worker to pick the call up. When that worker is
interrupted the approved calls it leaves behind have no worker, and no later resolution
starts one. Without such interruptions every approved call is executed or has a worker.
-/

namespace OpenWebUI.Approval

open Py

variable {m : Message} {s s' : System} {xs : List Item} {dumps : Json → String}

/-! ## Paused outputs -/

/-- Nothing is approved and nothing runs. -/
structure Quiet (output : List Item) : Prop where
  unapproved : ∀ c ∈ calls output, isPending output c = true → c.approved = false
  stopped : ∀ c ∈ calls output, isPending output c = true → c.status ≠ .inProgress

/-- The id that is filled in is the key. -/
theorem key_fillId (c : FunctionCall) : c.fillId.key = c.key := by
  unfold FunctionCall.fillId
  split_ifs with h
  · unfold FunctionCall.key
    cases hc : c.callId with
    | none => simp [h.2]
    | some k =>
        rw [hc, Option.getD_some] at h
        simp [h.1, h.2]
  · rfl

/-- Once ids are filled in, `call_id` is the id a call is known by. -/
theorem callId_fillId {c : FunctionCall} (h : c.key ≠ "") : c.fillId.callId.getD "" = c.key := by
  unfold FunctionCall.fillId
  unfold FunctionCall.key at h ⊢
  cases hc : c.callId with
  | none =>
      rw [hc] at h
      simp [h]
  | some k =>
      rw [hc] at h
      by_cases hk : k = ""
      · simp_all
      · simp [hc, hk]

@[simp] theorem approved_fillId (c : FunctionCall) : c.fillId.approved = c.approved := by
  unfold FunctionCall.fillId
  split_ifs <;> rfl

/-- What the pause does to one call. -/
structure Paused (answered : String → Bool) (c c' : FunctionCall) : Prop where
  key : c'.key = c.key
  approved : c'.approved = c.approved
  stopped : c.key ≠ "" → answered c.key = false → c'.status ≠ .inProgress

variable {answered : String → Bool} {shown : Bool}

/-- A call that is taken out of progress is paused. -/
theorem Paused.setStatus {c : FunctionCall} {status : Status} (h : status ≠ .inProgress) :
    Paused answered c (c.fillId.setStatus status) :=
  ⟨key_fillId c, approved_fillId c, fun _ _ => h⟩

/-- A call that is not in progress can stay as it is. -/
theorem Paused.leave {c : FunctionCall}
    (h : c.key ≠ "" → answered c.key = false → c.fillId.status ≠ .inProgress) :
    Paused answered c c.fillId :=
  ⟨key_fillId c, approved_fillId c, h⟩

/-- The pause takes each call for itself. -/
theorem paused_calls (answered : String → Bool) (shown : Bool) (output : List Item) :
    List.Forall₂ (Paused answered) (calls output) (calls (pauseCalls answered shown output)) := by
  fun_induction pauseCalls answered shown output with
  | case1 => exact .nil
  | case2 call rest c hopen ih => exact .cons (.setStatus (by simp)) ih
  | case3 shown call rest c hopen hshown hstatus ih => exact .cons (.setStatus (by simp)) ih
  | case4 shown call rest c hopen hshown hstatus ih =>
      exact .cons (.leave fun _ _ hrun => hstatus (.inl hrun)) ih
  | case5 shown call rest c hopen ih =>
      refine .cons (.leave fun hkey hans hrun => hopen ?_) ih
      refine ⟨?_, ?_, ?_⟩
      · rwa [callId_fillId hkey]
      · rwa [callId_fillId hkey]
      · rw [hrun]
        simp
  | case6 shown item rest hitem ih =>
      cases item with
      | functionCall c => exact absurd rfl (hitem c)
      | functionCallOutput r => exact ih
      | message m => exact ih
      | other j => exact ih

/-- The pause gives no results. -/
theorem results_pauseCalls (answered : String → Bool) (shown : Bool) (output : List Item) :
    results (pauseCalls answered shown output) = results output := by
  fun_induction pauseCalls answered shown output with
  | case1 => rfl
  | case2 _ _ _ _ ih => exact ih
  | case3 _ _ _ _ _ _ _ ih => exact ih
  | case4 _ _ _ _ _ _ _ ih => exact ih
  | case5 _ _ _ _ _ ih => exact ih
  | case6 shown item rest hitem ih =>
      cases item with
      | functionCallOutput r => exact congrArg (r :: ·) ih
      | functionCall c => exact absurd rfl (hitem c)
      | message m => exact ih
      | other j => exact ih

/-- The pause renames no call. -/
theorem Identified.pause (h : Identified xs) : Identified (pauseForToolApproval xs) := by
  have hcalls := paused_calls (hasResult xs) false xs
  have hkeys : (calls (pauseForToolApproval xs)).map FunctionCall.key =
      (calls xs).map FunctionCall.key := by
    rw [← List.forall₂_eq_eq_eq, List.forall₂_map_left_iff, List.forall₂_map_right_iff]
    exact hcalls.flip.imp fun c c' hp => hp.key
  constructor
  · intro c hc
    have : c.key ∈ (calls xs).map FunctionCall.key := hkeys ▸ List.mem_map_of_mem hc
    obtain ⟨c', hc', heq⟩ := List.mem_map.mp this
    exact heq ▸ h.named c' hc'
  · rw [hkeys]
    exact h.distinct

/-- Every call of the paused output comes from one before. -/
theorem exists_paused {l l' : List FunctionCall} (h : List.Forall₂ (Paused answered) l l')
    {c' : FunctionCall} (hc' : c' ∈ l') : ∃ c ∈ l, Paused answered c c' := by
  induction h with
  | nil => exact absurd hc' List.not_mem_nil
  | @cons a b l l' hab _ ih =>
      rcases List.mem_cons.mp hc' with rfl | hc'
      · exact ⟨a, List.mem_cons_self, hab⟩
      · obtain ⟨c, hc, hp⟩ := ih hc'
        exact ⟨c, List.mem_cons_of_mem _ hc, hp⟩

/-- A pause leaves nothing running, and approves nothing. -/
theorem quiet_pause (h : Identified xs)
    (happroved : ∀ c ∈ calls xs, c.approved = true → hasResult xs c.key = true) :
    Quiet (pauseForToolApproval xs) := by
  have hpaused : ∀ c' ∈ calls (pauseForToolApproval xs),
      isPending (pauseForToolApproval xs) c' = true →
      ∃ c ∈ calls xs, Paused (hasResult xs) c c' ∧ hasResult xs c.key = false := by
    intro c' hc' hp
    obtain ⟨c, hc, hpaused⟩ := exists_paused (paused_calls (hasResult xs) false xs) hc'
    have hres := (isPending_iff.mp hp).1
    rw [hpaused.key, pauseForToolApproval,
      hasResult_congr (results_pauseCalls (hasResult xs) false xs)] at hres
    exact ⟨c, hc, hpaused, hres⟩
  constructor
  · intro c' hc' hp
    obtain ⟨c, hc, hpaused, hres⟩ := hpaused c' hc' hp
    rw [hpaused.approved]
    refine eq_false_of_ne_true fun happ => ?_
    rw [happroved c hc happ] at hres
    cases hres
  · intro c' hc' hp
    obtain ⟨c, hc, hpaused, hres⟩ := hpaused c' hc' hp
    exact hpaused.stopped (h.named c hc) hres

/-! ## The invariant -/

/-- Every running call has its worker, and while an approved call waits some worker is alive. -/
structure Attended (s : System) : Prop where
  askFree : AskFree s.output
  owner : ∀ k, Running s.output k → ∃ w full c, s.worker w = some ⟨full, .executing c⟩ ∧ c.key = k
  alive : (∃ k, Pending s.output k ∧ Approved s.output k) →
    ∃ w x, s.worker w = some x ∧ x.live = true

/-- The interruption leaves no approved call behind, or some other worker that takes it up. Other
moves are free. -/
def Handled (mv : Move) (s : System) : Prop :=
  match mv with
  | .interrupt w _ _ => ∀ full c, s.worker w = some ⟨full, .executing c⟩ →
      (∀ k, Pending s.output k → Approved s.output k → k = c.key) ∨
        ∃ w' x, w' ≠ w ∧ s.worker w' = some x ∧ x.live = true
  | _ => True

/-- A quiet output needs no worker. -/
theorem Attended.start {m : Message} (hq : Quiet m.output) :
    Attended (.start m) := by
  constructor
  · intro k c hc hp happ
    rw [hq.unapproved c (Keyed.mem_of_find hc) hp] at happ
    cases happ
  · rintro k ⟨c, hc, hp, hrun⟩
    exact absurd hrun (hq.stopped c (Keyed.mem_of_find hc) hp)
  · rintro ⟨k, ⟨c, hc, hp⟩, c', hc', happ⟩
    obtain rfl := Option.some.inj (hc.symm.trans hc')
    rw [hq.unapproved c (Keyed.mem_of_find hc) hp] at happ
    cases happ

/-- A worker with something to run is alive. -/
theorem Attended.alive_of_running (ha : Attended s) {k : String} (hk : Running s.output k) :
    ∃ w x, s.worker w = some x ∧ x.live = true := by
  obtain ⟨w, full, c, hw, -⟩ := ha.owner k hk
  exact ⟨w, _, hw, rfl⟩

/-- Replacing a worker that runs nothing leaves the running ones. -/
theorem executing_set {w w' : ℕ} {full full' : Bool} {c : FunctionCall} {x : Worker}
    (hw : s.worker w = some ⟨full, .ready⟩) (hw' : s.worker w' = some ⟨full', .executing c⟩) :
    (s.workers.set w x)[w']? = some ⟨full', .executing c⟩ := by
  have hne : w ≠ w' := by
    rintro rfl
    cases hw.symm.trans hw'
  rw [List.getElem?_set_ne hne]
  exact hw'

theorem worker_set_self {w : ℕ} {x y : Worker} (hw : s.worker w = some x) :
    (s.workers.set w y)[w]? = some y :=
  List.getElem?_set_self (List.getElem?_eq_some_iff.mp hw).1

/-- A resolution that approves a call starts a worker, or finds a running call whose worker is
alive. -/
theorem Attended.resolved (ha : Attended s) (h : Identified s.output) {m : Message}
    {form : ResolveToolCallForm} {resume : Option Resume} {full : Bool}
    (hr : Resolved form resume s.output m.output) (log : List Event) :
    Attended ⟨m, if resume = some .tools then s.workers ++ [⟨full, .ready⟩]
      else s.workers, log⟩ := by
  -- the workers there were stay where they are
  have hkeep : ∀ (w : ℕ) (x : Worker), s.worker w = some x →
      (if resume = some .tools then s.workers ++ [⟨full, .ready⟩] else s.workers)[w]? = some x := by
    intro w x hw
    split_ifs
    · rw [List.getElem?_append_left (List.getElem?_eq_some_iff.mp hw).1]
      exact hw
    · exact hw
  have hold : (∃ w x, s.worker w = some x ∧ x.live = true) → ∃ (w : ℕ) (x : Worker),
      (if resume = some .tools then s.workers ++ [⟨full, .ready⟩] else s.workers)[w]? = some x ∧
        x.live = true :=
    fun ⟨w, x, hw, hx⟩ => ⟨w, x, hkeep w x hw, hx⟩
  constructor
  · exact hr.effect.askFree ha.askFree
  · intro k hk
    obtain ⟨w, full', c, hw, hc⟩ := ha.owner k ((hr.effect.running k hk).resolve_right (by
      simp [ResolveToolCallForm.change]))
    exact ⟨w, full', c, hkeep w _ hw, hc⟩
  · rintro ⟨k, hpend, happ⟩
    have hwas := ((hr.effect.pending k).mp hpend).1
    rcases (hr.effect.approved k).mp happ with happ | hnew
    · exact hold (ha.alive ⟨k, hwas, happ⟩)
    · -- the call has just been approved: either somebody is active, or a worker starts
      have haction : form.action = .approve := by
        simp only [ResolveToolCallForm.change] at hnew
        split_ifs at hnew with haction
        exact haction
      by_cases hact : isActive s.output = true
      · obtain ⟨j, ⟨hj, hj'⟩ | hj⟩ := (isActive_iff h).mp hact
        · exact hold (ha.alive ⟨j, hj, hj'⟩)
        · exact hold (ha.alive_of_running hj)
      · have htools := hr.tools.mpr ⟨haction, eq_false_of_ne_true hact⟩
        refine ⟨s.workers.length, ⟨full, .ready⟩, ?_, rfl⟩
        change (if resume = some .tools then _ else _)[_]? = _
        rw [if_pos htools, List.getElem?_concat_length]

/-- A step whose interruption is handled leaves no approved call alone. -/
theorem Attended.step (ha : Attended s) (ho : Owned s) (h : Identified s.output) {mv : Move}
    (hs : Stepped s mv s') (hmv : Handled mv s) : Attended s' := by
  cases hs with
  | refused => exact ha
  | resolved caller form uuid full hr => exact ha.resolved h hr _
  | started full =>
      -- the other workers keep their place in the list
      have hkeep : ∀ (w : ℕ) (x : Worker), s.worker w = some x →
          (s.workers ++ [⟨full, .ready⟩])[w]? = some x := by
        intro w x hw
        rw [List.getElem?_append_left (List.getElem?_eq_some_iff.mp hw).1]
        exact hw
      refine ⟨ha.askFree, fun k hk => ?_, fun hk => ?_⟩
      · obtain ⟨w, full', c, hw, hc⟩ := ha.owner k hk
        exact ⟨w, full', c, hkeep w _ hw, hc⟩
      · obtain ⟨w, x, hw, hx⟩ := ha.alive hk
        exact ⟨w, x, hkeep w x hw, hx⟩
  | @idle w full m hw he hwhy =>
      have howner : ∀ k, Running m.output k → ∃ (w' : ℕ) (full' : Bool) (c : FunctionCall),
          (s.workers.set w ⟨full, .returned true⟩)[w']? = some ⟨full', .executing c⟩ ∧
            c.key = k := by
        intro k hk
        obtain ⟨w', full', c, hw', hc⟩ := ha.owner k ((he.running k hk).resolve_right (by
          simp [Change.nothing]))
        exact ⟨w', full', c, executing_set hw hw', hc⟩
      refine ⟨he.askFree ha.askFree, howner, ?_⟩
      rintro ⟨k, hpend, happ⟩
      rcases hwhy with ⟨⟨j, hj⟩, rfl⟩ | ⟨-, hidle⟩
      · -- somebody else runs a call
        obtain ⟨w', full', c, hw', -⟩ := howner j hj
        exact ⟨w', _, hw', rfl⟩
      · -- an approved call would have been claimed
        obtain ⟨c, hc, hp⟩ := ((he.pending k).mp hpend).1
        obtain ⟨c', hc', happ'⟩ :=
          ((he.approved k).mp happ).resolve_right (by simp [Change.nothing])
        obtain rfl := Option.some.inj (hc.symm.trans hc')
        have hname := ha.askFree k c hc hp happ'
        have := hidle k c hc hp
        simp [runnable, hname, happ'] at this
  | @claimed w full m saved hw hsaved hp hrunnable hnone he hnow =>
      -- the worker that claimed runs the claimed call
      have hself := worker_set_self (y := ⟨full, .executing saved.start⟩) hw
      refine ⟨he.askFree ha.askFree, fun k hk => ?_, fun _ => ⟨w, _, hself, rfl⟩⟩
      refine ⟨w, full, _, hself, ?_⟩
      rw [key_start]
      exact Option.some.inj ((he.running k hk).resolve_left (hnone k))
  | @completed w run id uuid full m c hw he =>
      have hself := worker_set_self (y := ⟨full, nextPhase full m.output⟩) hw
      refine ⟨he.askFree ha.askFree, fun k hk => ?_, ?_⟩
      · -- the worker that goes on ran the only running call
        obtain ⟨w', full', c', hw', rfl⟩ := ha.owner k ((he.running k hk).resolve_right (by simp))
        obtain rfl := ho.single w w' _ _ _ _ hw hw'
        obtain ⟨c'', hc'', hp, -⟩ := hk
        cases hw.symm.trans hw'
        exact absurd rfl ((he.pending _).mp ⟨c'', hc'', hp⟩).2
      -- an approved call is left, so the worker looks for the next one
      · rintro ⟨k, ⟨c', hc', hp⟩, c'', hc'', happ⟩
        obtain rfl := Option.some.inj (hc'.symm.trans hc'')
        have hmem := mem_pending_of_find hc' hp
        have hphase : nextPhase full m.output = .ready := by
          unfold nextPhase
          rw [if_neg, if_neg]
          · rintro ⟨-, hnone⟩
            rw [List.any_eq_false] at hnone
            exact hnone c' hmem happ
          · rw [List.isEmpty_iff]
            exact List.ne_nil_of_mem hmem
        exact ⟨w, _, hself, by rw [hphase]; rfl⟩
  | @interrupted w id uuid full m c hw he =>
      refine ⟨he.askFree ha.askFree, fun k hk => ?_, ?_⟩
      -- the running call was this worker's own
      · obtain ⟨w', full', c', hw', rfl⟩ := ha.owner k ((he.running k hk).resolve_right (by simp))
        obtain rfl := ho.single w w' _ _ _ _ hw hw'
        obtain ⟨c'', hc'', hp, -⟩ := hk
        cases hw.symm.trans hw'
        exact absurd rfl ((he.pending _).mp ⟨c'', hc'', hp⟩).2
      -- an approved call left over has another worker that is alive, by what is asked of the
      -- interruption
      · rintro ⟨k, hpend, happ⟩
        have hwas := (he.pending k).mp hpend
        have happ := ((he.approved k).mp happ).resolve_right (by simp)
        rcases hmv full c hw with honly | ⟨w', x, hne, hw', hx⟩
        · exact absurd (congrArg some (honly k hwas.1 happ).symm) hwas.2
        · exact ⟨w', x, (List.getElem?_set_ne hne.symm).trans hw', hx⟩

/-! ## Runs -/

/-- A step whose interruption, if it is one, is handled. -/
def HandledStep (dumps : Json → String) (mv : Move) (s s' : System) : Prop :=
  Step dumps mv s s' ∧ Handled mv s

/-- A pending call is approved. -/
def Stranded (output : List Item) : Prop := ∃ k, Pending output k ∧ Approved output k

/-- A resolution resumes the tools when it approves, and the model when nothing is left. -/
def Resumes (dumps : Json → String) (m : Message) : Prop :=
  ∀ caller form uuid m' resume,
    resolveToolCallOutput dumps caller form uuid (some m) = .ok (m', resume) →
      (form.action = .approve → resume = some .tools) ∧
        (pendingToolCalls m'.output = [] → resume = some .model)

def Message.pause (m : Message) : Message := { m with output := pauseForToolApproval m.output }

/-- Every run of handled steps from a paused output is attended. -/
theorem attended_of_run (h : Identified m.output)
    (happroved : ∀ c ∈ calls m.output, c.approved = true → hasResult m.output c.key = true)
    (hs : Transition.Reachable (· = .start m.pause) (HandledStep dumps) s) : Attended s := by
  have hinv : ∀ s, Transition.Reachable (· = .start m.pause) (HandledStep dumps) s →
      Inv m.pause.output s := fun s hs =>
    Reachable.inv h.pause (hs.mono fun _ _ _ hstep => hstep.1)
  refine hs.invariant_of hinv ?_ ?_
  · rintro _ rfl
    exact .start (quiet_pause h happroved)
  · intro mv s s' hi ha hstep
    have hid := hi.books.identified
    exact ha.step hi.owned hid (step_cases hid hi.owned hstep.1) hstep.2

/-- Where nothing is active the next resolution resumes the tools or the model. -/
theorem resumes_of_not_active (h : Identified m.output) (hidle : isActive m.output = false) :
    Resumes dumps m := by
  intro caller form uuid m' resume hok
  have hr := resolveToolCallOutput_ok h hok
  refine ⟨fun haction => hr.tools.mpr ⟨haction, hidle⟩, fun hnone => hr.model.mpr ?_⟩
  exact (pending_eq_nil hr.effect.identified).mp hnone

/-- From a pause, in every run whose interruptions are handled, no approved call waits once the
workers are gone, and the next resolution resumes the run. An interruption that is not handled
leaves an approved call and no worker. -/
theorem approved_calls_attended (dumps : Json → String) (m : Message) (h : Identified m.output)
    (happroved : ∀ c ∈ calls m.output, c.approved = true → hasResult m.output c.key = true)
    (s : System) (hs : Transition.Reachable (· = .start m.pause) (HandledStep dumps) s) :
    ((∀ x ∈ s.workers, x.live = false) → ¬ Stranded s.output ∧ Resumes dumps s.message) ∧
      ∀ w id uuid s', Step dumps (.interrupt w id uuid) s s' → ¬ Handled (.interrupt w id uuid) s →
        (∀ x ∈ s'.workers, x.live = false) ∧ Stranded s'.output := by
  have ha := attended_of_run h happroved hs
  have hi : Inv m.pause.output s := Reachable.inv h.pause (hs.mono fun _ _ _ hstep => hstep.1)
  have hid := hi.books.identified
  constructor
  · intro hdead
    have hnone : ¬ ∃ w x, s.worker w = some x ∧ x.live = true := by
      rintro ⟨w, x, hw, hx⟩
      rw [hdead x (List.mem_of_getElem? hw)] at hx
      cases hx
    refine ⟨fun hk => hnone (ha.alive hk), resumes_of_not_active hid ?_⟩
    refine eq_false_of_ne_true fun hact => hnone ?_
    obtain ⟨k, hk | hk⟩ := (isActive_iff hid).mp hact
    · exact ha.alive ⟨k, hk⟩
    · exact ha.alive_of_running hk
  · intro w id uuid s' hstep hnot
    cases step_cases hid hi.owned hstep with
    | @interrupted _ _ _ full m' c hw he =>
        simp only [Handled, not_forall, not_or, not_exists, not_and] at hnot
        obtain ⟨full', c', hw', ⟨k, hpend, happ, hne⟩, hothers⟩ := hnot
        cases hw.symm.trans hw'
        constructor
        · intro x hx
          obtain ⟨w', hx⟩ := List.mem_iff_getElem?.mp hx
          rw [List.getElem?_set] at hx
          split_ifs at hx with hww
          · cases hx
            rfl
          · exact eq_false_of_ne_true (hothers w' x (Ne.symm hww) hx)
        · refine ⟨k, (he.pending k).mpr ⟨hpend, ?_⟩, (he.approved k).mpr (.inl happ)⟩
          simpa using Ne.symm hne

/-! ## A handled run, and one that strands a call -/

/-- Three calls as a stream leaves them. -/
def threeCalls : Message :=
  { userId := some "u"
    output := [toolCall "a" .inProgress, toolCall "b" .inProgress, toolCall "c" .inProgress]
    done := false }

theorem identified_threeCalls : Identified threeCalls.output := ⟨by decide, by decide⟩

def reject (k : String) : Move :=
  .resolve user { callId := k, action := .reject, answers := .null, timedOut := false } "1" false

/-- The worker of the first call stops after it, and the others wait for the user. -/
theorem approved_calls_attended_one :
    ∃ s, run (fun _ => "") [approve "a", .claim 0, .complete 0 toolRun "1" "2"]
        (.start threeCalls.pause) = some s ∧ ¬ Stranded s.output ∧
      Resumes (fun _ => "") s.message := by
  have hrun : Transition.Reachable (· = .start threeCalls.pause) (HandledStep fun _ => "") _ :=
    .next (.next (.next (.start rfl) ⟨show step _ (approve "a") _ = some _ from rfl, trivial⟩)
      ⟨show step _ (.claim 0) _ = some _ from rfl, trivial⟩)
      ⟨show step _ (.complete 0 toolRun "1" "2") _ = some _ from rfl, trivial⟩
  refine ⟨_, rfl, (approved_calls_attended _ threeCalls identified_threeCalls (by decide) _
    hrun).1 (by decide)⟩

/-- The second call is approved while the first runs; the first is interrupted, and the third is
rejected. No worker is left, and nothing resumes. -/
def strandingRun : List Move :=
    [approve "a", .claim 0, approve "b", .interrupt 0 "1" "2", reject "c"]

/-- The interrupted worker leaves the second approved call behind, and nobody comes for it. -/
theorem stranded_after_interrupt :
    ∃ s, Reachable (fun _ => "") threeCalls.pause s ∧ (∀ x ∈ s.workers, x.live = false) ∧
      Stranded s.output := by
  refine ⟨_, Reachable.run (.start rfl)
    (show run _ strandingRun _ = some _ from rfl), by decide, ?_⟩
  exact ⟨"b", ⟨_, rfl, by decide⟩, _, rfl, by decide⟩

end OpenWebUI.Approval
