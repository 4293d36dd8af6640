import OpenWebUI.Lib.Transition
import OpenWebUI.Timers.Timer

/-! # The timer operations of several workers

A claim is one transaction. A cancellation and an execution read rows and commit later,
and a commit writes the whole meta that was read. Locks within one worker only remove
orders, so none is modelled.
-/

namespace OpenWebUI.Timers

open Py Transition

/-- The next step of `execute_due_timer`. -/
inductive Phase where
  /-- Spawned by the claim; reads its row. -/
  | start
  /-- The row is running under this claim; looks up the parent, the prompt and the user. -/
  | found (info : Meta)
  /-- Holds the parent's lock; reads the parent and asks for its active tasks. -/
  | ready (info : Meta) (job : Job)
  /-- The parent is busy; reads its row again. -/
  | defer
  /-- Commits the row back to pending. -/
  | putBack (row : Row)
  /-- The parent is free; reads its row again. -/
  | turn (info : Meta) (job : Job) (parent : ParentChat)
  /-- Commits the turn and the completed row. -/
  | fire (info : Meta) (job : Job) (parent : ParentChat) (row : Option Row)
  /-- The turn is committed; the completion handler runs. -/
  | fired
  /-- `_set_timer_state`: reads the row. -/
  | settle (error : String)
  /-- `_set_timer_state`: commits the error. -/
  | settling (error : String) (row : Row)
  | done

structure Execution where
  timer : TimerId
  phase : Phase

/-- A row that a cancellation read. -/
structure Snapshot where
  timer : TimerId
  row : Row
  event : CancelEvent

/-- The rows, the parent chats, the executions by claim id, the cancellations between
their read and their commit, and the timers of the turns committed so far. -/
structure State where
  timers : List Row
  chats : String → ParentChat
  claims : List Execution
  cancels : List (List Snapshot)
  turns : List TimerId

/-- What the rest of the program answers to an execution. -/
structure Answers where
  found : Lookups
  parentFound : Bool
  busy : Bool
  failure : Option String
  now : ℤ

inductive Action where
  | create (r : TimerRequest)
  | claim (now : ℤ) (limit : ℕ) (locked : TimerId → Bool)
  | cancelRead (parentChatId : String) (event : CancelEvent) (userId : String)
  | cancelCommit (call : ℕ) (now : ℤ)
  | execute (claim : ClaimId) (answers : Answers)

/-! ## The operations -/

/-- Commits a meta, leaving the column. -/
def State.writeMeta (s : State) (t : TimerId) (info : Meta) : State :=
  { s with timers := s.timers.modify t fun row => { row with info := info } }

/-- Commits a meta and the column. -/
def State.writeRow (s : State) (t : TimerId) (info : Meta) (timerAt : Option ℤ) : State :=
  { s with timers := s.timers.modify t fun row => { row with info := info, timerAt := timerAt } }

def State.setPhase (s : State) (c : ClaimId) (phase : Phase) : State :=
  { s with claims := s.claims.modify c fun e => { e with phase := phase } }

/-- Claims one row, and spawns its execution. -/
def State.claimOne (now : ℤ) (s : State) (t : TimerId) : State :=
  { s with
    timers := s.timers.modify t fun row => row.claimed s.claims.length now
    claims := s.claims ++ [⟨t, .start⟩] }

/-- `claim_due_timers`, and `create_task(execute_due_timer(...))` for each claimed timer. -/
def State.claimDueTimers (s : State) (now : ℤ) (limit : ℕ) (locked : TimerId → Bool) : State :=
  (dueTimers s.timers now limit locked).foldl (State.claimOne now) s

/-- The rows `cancel_timers_for_chat` reads. -/
def State.snapshots (s : State) (parentChatId : String) (event : CancelEvent) (userId : String) :
    List Snapshot :=
  (s.timers.zipIdx.filter fun e => e.1.cancellable parentChatId event userId).map fun e =>
    ⟨e.2, e.1, event⟩

def State.cancelOne (now : ℤ) (s : State) (snap : Snapshot) : State :=
  s.writeRow snap.timer (snap.row.info.cancelled snap.event now) none

/-- The commit of `cancel_timers_for_chat`. -/
def State.cancelTimers (s : State) (call : ℕ) (snaps : List Snapshot) (now : ℤ) : State :=
  { snaps.foldl (State.cancelOne now) s with cancels := s.cancels.set call [] }

/-- One step of the execution of `t` under the claim `c`. -/
def State.executeDueTimer (s : State) (c : ClaimId) (t : TimerId) (a : Answers) : Phase → State
  | .start =>
    match s.timers[t]? with
    | none => s.setPhase c .done
    | some row =>
      if row.info.status ≠ .running then s.setPhase c .done
      else if row.info.timerClaimId ≠ some c then s.setPhase c .done
      else s.setPhase c (.found row.info)
  | .found info =>
    match prepare info a.found with
    | .error e => s.setPhase c (.settle e)
    | .ok job => s.setPhase c (.ready info job)
  | .ready info job =>
    if !a.parentFound then s.setPhase c (.settle "parent chat no longer exists")
    else if a.busy then s.setPhase c .defer
    else s.setPhase c (.turn info job (s.chats info.parentChatId))
  | .defer =>
    match s.timers[t]? with
    | none => s.setPhase c .done
    | some row => s.setPhase c (.putBack row)
  | .putBack row => (s.writeRow t row.info.putBack (some row.info.timerAt)).setPhase c .done
  | .turn info job parent => s.setPhase c (.fire info job parent s.timers[t]?)
  | .fire info job parent row =>
    let s' := match row with
      | none => s
      | some row => s.writeMeta t (row.info.completed a.now)
    { s'.setPhase c .fired with
      chats := Function.update s.chats info.parentChatId (addTurn parent t c info job a.now)
      turns := s.turns ++ [t] }
  | .fired =>
    match a.failure with
    | none => s.setPhase c .done
    | some detail => s.setPhase c (.settle (String.ofList (detail.toList.take 500)))
  | .settle e =>
    match s.timers[t]? with
    | none => s.setPhase c .done
    | some row => s.setPhase c (.settling e row)
  | .settling e row => (s.writeMeta t (row.info.failed e)).setPhase c .done
  | .done => s

def State.next (s : State) : Action → Option State
  | .create r =>
    match createTimer r with
    | .error _ => none
    | .ok row => some { s with timers := s.timers ++ [row] }
  | .claim now limit locked => some (s.claimDueTimers now limit locked)
  | .cancelRead parentChatId event userId =>
    some { s with cancels := s.cancels ++ [s.snapshots parentChatId event userId] }
  | .cancelCommit call now =>
    match s.cancels[call]? with
    | none => none
    | some snaps => some (s.cancelTimers call snaps now)
  | .execute c a =>
    match s.claims[c]? with
    | none => none
    | some e => some (s.executeDueTimer c e.timer a e.phase)

/-- No timer exists. -/
def Initial (s : State) : Prop :=
  s.timers = [] ∧ s.claims = [] ∧ s.cancels = [] ∧ s.turns = [] ∧
    ∀ chat t, turnsOf (s.chats chat) t = 0

def Step (a : Action) (s s' : State) : Prop := s.next a = some s'

end OpenWebUI.Timers
