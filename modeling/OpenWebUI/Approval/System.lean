import OpenWebUI.Approval.Transactions
import OpenWebUI.Lib.Transition

/-! # Users and workers on one message

Any number of users resolve calls and any number of resume workers run them. A
resolution that resumes the tools starts a worker. Every transaction is one step, and
the log records what the steps did.
-/

namespace OpenWebUI.Approval

open Py

/-- Where a worker is in `resume_tool_calls`: before a claim, running a call, or gone. It
returns `true` when the run stops here and `false` when the model goes on. -/
inductive Phase where
  | ready
  | executing (call : FunctionCall)
  | returned (stops : Bool)
  | raised

/-- A resume worker. `full` says that its mode is `'full'`. -/
structure Worker where
  full : Bool
  phase : Phase

/-- The worker still runs. -/
def Worker.live (w : Worker) : Bool :=
  match w.phase with
  | .ready | .executing _ => true
  | .returned _ | .raised => false

inductive Event where
  | resolved (callId : String) (action : Action) (resume : Option Resume)
  | executed (worker : ℕ) (callId : String) (full : Bool)
  | completed (worker : ℕ) (callId : String) (continues : Bool)
  | interrupted (worker : ℕ) (callId : String)

/-- The actor of the event goes on with the model. -/
def Event.continues : Event → Bool
  | .resolved _ _ resume => resume = some .model
  | .completed _ _ continues => continues
  | .executed .. | .interrupted .. => false

/-- How many actors went on with the model. -/
def continuers (log : List Event) : ℕ := log.countP Event.continues

structure System where
  message : Message
  workers : List Worker
  log : List Event

abbrev System.output (s : System) : List Item := s.message.output

abbrev System.worker (s : System) (w : ℕ) : Option Worker := s.workers[w]?

/-- A saved message before anybody acts on it. -/
def System.start (m : Message) : System := ⟨m, [], []⟩

inductive Move where
  | resolve (caller : Caller) (form : ResolveToolCallForm) (uuid : String) (full : Bool)
  | start (full : Bool)
  | claim (worker : ℕ)
  | complete (worker : ℕ) (run : ToolRun) (id uuid : String)
  | interrupt (worker : ℕ) (id uuid : String)

/-- The end of the loop body of `resume_tool_calls`. -/
def nextPhase (full : Bool) (output : List Item) : Phase :=
  if (pendingToolCalls output).isEmpty then .returned false
  else if full = false ∧ (pendingToolCalls output).any FunctionCall.approved = false then
    .returned true
  else .ready

/-- The handler around the execution of a call. -/
def interruptWorker (w : ℕ) (full : Bool) (c : FunctionCall) (id uuid : String) (s : System) :
    System :=
  let workers := s.workers.set w ⟨full, .raised⟩
  match completeToolCall (c.setStatus .incomplete) (interruptedResult id c) uuid s.message with
  | .ok m => ⟨m, workers, s.log ++ [.interrupted w c.key]⟩
  | .error _ => { s with workers := workers }

def step (dumps : Json → String) : Move → System → Option System
  | .resolve caller form uuid full, s =>
      match resolveToolCallOutput dumps caller form uuid s.message with
      | .error _ => some s
      | .ok (m, resume) =>
          let workers := if resume = some .tools then s.workers ++ [⟨full, .ready⟩] else s.workers
          some ⟨m, workers, s.log ++ [.resolved form.callId form.action resume]⟩
  | .start full, s => some { s with workers := s.workers ++ [⟨full, .ready⟩] }
  | .claim w, s =>
      match s.worker w with
      | some ⟨full, .ready⟩ =>
          match claim full s.message with
          | (m, none) => some ⟨m, s.workers.set w ⟨full, .returned true⟩, s.log⟩
          | (m, some c) =>
              some ⟨m, s.workers.set w ⟨full, .executing c⟩, s.log ++ [.executed w c.key full]⟩
      | _ => none
  | .complete w run id uuid, s =>
      match s.worker w with
      | some ⟨full, .executing c⟩ =>
          match completeToolCall (run.call c) (run.result id c) uuid s.message with
          | .ok m =>
              some ⟨m, s.workers.set w ⟨full, nextPhase full m.output⟩,
                s.log ++ [.completed w c.key (pendingToolCalls m.output).isEmpty]⟩
          | .error _ => some (interruptWorker w full c id uuid s)
      | _ => none
  | .interrupt w id uuid, s =>
      match s.worker w with
      | some ⟨full, .executing c⟩ => some (interruptWorker w full c id uuid s)
      | _ => none

def Step (dumps : Json → String) (mv : Move) (s s' : System) : Prop := step dumps mv s = some s'

/-- The states some run from the saved message reaches. -/
def Reachable (dumps : Json → String) (m : Message) : System → Prop :=
  Transition.Reachable (· = .start m) (Step dumps)

/-- The moves one after the other. -/
def run (dumps : Json → String) : List Move → System → Option System
  | [], s => some s
  | mv :: mvs, s => (step dumps mv s).bind (run dumps mvs)

/-- A list of moves leads on from a reachable state. -/
theorem Reachable.run {dumps : Json → String} {m : Message} {mvs : List Move} {s s' : System}
    (hs : Reachable dumps m s) (h : Approval.run dumps mvs s = some s') : Reachable dumps m s' := by
  induction mvs generalizing s with
  | nil => exact Option.some.inj h ▸ hs
  | cons mv mvs ih =>
      obtain ⟨s₁, hstep, hrest⟩ := Option.bind_eq_some_iff.mp h
      exact ih (.next hs hstep) hrest

/-! ## What a step does -/

/-- A running worker's call is in progress in the output, and only one worker runs a call. -/
structure Owned (s : System) : Prop where
  call : ∀ w full c, s.worker w = some ⟨full, .executing c⟩ →
    findCall c.key s.output = some c ∧ isPending s.output c = true ∧ c.status = .inProgress ∧
      c.callId = some c.key
  single : ∀ w w' full full' c c', s.worker w = some ⟨full, .executing c⟩ →
    s.worker w' = some ⟨full', .executing c'⟩ → w = w'

/-- Where no worker runs a call there is nothing to own. -/
theorem Owned.of_none {s : System} (h : ∀ w full c, s.worker w ≠ some ⟨full, .executing c⟩) :
    Owned s :=
  ⟨fun w full c hw => absurd hw (h w full c), fun w _ full _ c _ hw _ => absurd hw (h w full c)⟩

/-- A worker that runs a call, once some worker has been replaced. -/
theorem executing_of_set {s : System} {w w' : ℕ} {x : Worker} {full : Bool} {c : FunctionCall}
    (h : (s.workers.set w x)[w']? = some ⟨full, .executing c⟩) :
    w' = w ∧ x = ⟨full, .executing c⟩ ∨ w' ≠ w ∧ s.worker w' = some ⟨full, .executing c⟩ := by
  rw [List.getElem?_set] at h
  split_ifs at h with hw hlt
  · exact .inl ⟨hw.symm, Option.some.inj h⟩
  · exact .inr ⟨Ne.symm hw, h⟩

/-- A worker that runs a call is not the one that has just been started. -/
theorem executing_of_append {s : System} {w : ℕ} {full full' : Bool} {c : FunctionCall}
    (h : (s.workers ++ [⟨full', .ready⟩])[w]? = some ⟨full, .executing c⟩) :
    s.worker w = some ⟨full, .executing c⟩ := by
  rw [List.getElem?_append] at h
  split_ifs at h with hlt
  · exact h
  · have := List.mem_of_getElem? h
    simp at this

/-- The ways a step goes. -/
inductive Stepped (s : System) : Move → System → Prop where
  | refused (caller form uuid full) : Stepped s (.resolve caller form uuid full) s
  | resolved (caller form uuid full) {m : Message} {resume : Option Resume}
      (h : Resolved form resume s.output m.output) :
      Stepped s (.resolve caller form uuid full)
        ⟨m, if resume = some .tools then s.workers ++ [⟨full, .ready⟩] else s.workers,
          s.log ++ [.resolved form.callId form.action resume]⟩
  | started (full) : Stepped s (.start full) { s with workers := s.workers ++ [⟨full, .ready⟩] }
  | idle (w : ℕ) {full : Bool} {m : Message} (hw : s.worker w = some ⟨full, .ready⟩)
      (h : Effect .nothing s.output m.output)
      (hwhy : (∃ k, Running s.output k) ∧ m = s.message ∨ (∀ k, ¬ Running s.output k) ∧
        ∀ k c, findCall k s.output = some c → isPending s.output c = true →
          runnable full c = false) :
      Stepped s (.claim w) ⟨m, s.workers.set w ⟨full, .returned true⟩, s.log⟩
  | claimed (w : ℕ) {full : Bool} {m : Message} {saved : FunctionCall}
      (hw : s.worker w = some ⟨full, .ready⟩)
      (hsaved : findCall saved.key s.output = some saved) (hp : isPending s.output saved = true)
      (hrunnable : runnable full saved = true) (hnone : ∀ k, ¬ Running s.output k)
      (h : Effect ⟨none, none, some saved.key, 0⟩ s.output m.output)
      (hnow : findCall saved.key m.output = some saved.start) :
      Stepped s (.claim w) ⟨m, s.workers.set w ⟨full, .executing saved.start⟩,
        s.log ++ [.executed w saved.key full]⟩
  | completed (w : ℕ) (run id uuid) {full : Bool} {m : Message} {c : FunctionCall}
      (hw : s.worker w = some ⟨full, .executing c⟩)
      (h : Effect ⟨none, some c.key, none, if pendingToolCalls m.output = [] then 1 else 0⟩
        s.output m.output) :
      Stepped s (.complete w run id uuid) ⟨m, s.workers.set w ⟨full, nextPhase full m.output⟩,
        s.log ++ [.completed w c.key (pendingToolCalls m.output).isEmpty]⟩
  | interrupted (w : ℕ) (id uuid) {full : Bool} {m : Message} {c : FunctionCall}
      (hw : s.worker w = some ⟨full, .executing c⟩)
      (h : Effect ⟨none, some c.key, none, 0⟩ s.output m.output) :
      Stepped s (.interrupt w id uuid) ⟨m, s.workers.set w ⟨full, .raised⟩,
        s.log ++ [.interrupted w c.key]⟩

/-- A step does nothing else than what its move says. -/
theorem step_cases {dumps : Json → String} {mv : Move} {s s' : System}
    (hid : Identified s.output) (ho : Owned s) (hs : Step dumps mv s s') : Stepped s mv s' := by
  unfold Step step at hs
  cases mv with
  | resolve caller form uuid full =>
      simp only at hs
      cases hr : resolveToolCallOutput dumps caller form uuid s.message with
      | error e =>
          rw [hr] at hs
          cases hs
          exact .refused ..
      | ok r =>
          obtain ⟨m, resume⟩ := r
          rw [hr] at hs
          cases hs
          exact .resolved caller form uuid full (resolveToolCallOutput_ok hid hr)
  | start full =>
      cases hs
      exact .started full
  | claim w =>
      simp only at hs
      split at hs
      · next full hw =>
          -- whether the worker found a call to run
          split at hs
          · next m hclaim =>
              cases hs
              obtain ⟨he, hwhy⟩ := claim_none hid hclaim
              exact .idle w hw he hwhy
          · next m c hclaim =>
              cases hs
              obtain ⟨saved, rfl, hsaved, hp, hrunnable, hnone, he, hnow⟩ := claim_some hid hclaim
              rw [key_start] at hsaved he hnow ⊢
              exact .claimed w hw hsaved hp hrunnable hnone he hnow
      · cases hs
  | complete w run id uuid =>
      simp only at hs
      split at hs
      · next full c hw =>
          obtain ⟨hc, hp, hrun, hcid⟩ := ho.call w full c hw
          -- a run is over when it reports
          have hstatus : run.status ≠ .inProgress ∧ run.status ≠ .incomplete := by
            unfold ToolRun.status
            split_ifs <;> simp
          obtain ⟨m, hok, he⟩ := completeToolCall_ok (run.call c)
            (run.result id c) uuid hid hc hp hrun hcid rfl rfl hstatus.1 rfl
          rw [hok] at hs
          cases hs
          refine .completed w run id uuid hw ?_
          simpa [ToolRun.result, hstatus.2] using he
      · cases hs
  | interrupt w id uuid =>
      simp only at hs
      split at hs
      · next full c hw =>
          obtain ⟨hc, hp, hrun, hcid⟩ := ho.call w full c hw
          obtain ⟨m, hok, he⟩ := completeToolCall_ok (c.setStatus .incomplete)
            (interruptedResult id c) uuid hid hc hp hrun hcid rfl rfl
              (by simp [FunctionCall.setStatus]) rfl
          unfold interruptWorker at hs
          rw [hok] at hs
          cases hs
          refine .interrupted w id uuid hw ?_
          simpa [interruptedResult] using he
      · cases hs

end OpenWebUI.Approval
