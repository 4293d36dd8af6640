import OpenWebUI.Lib.Transition

/-! # Delegations in one process

`delegate` in `backend/open_webui/utils/subagents.py`, with `create_task` of
`backend/open_webui/tasks.py`. A foreground delegation takes a permit of the semaphore, a
background one puts its id into `_background_active`. The caller and the child task go on
from one awaited call to the next; each call may return, raise, or be cancelled. Where a
limit is -1 it is `none` here, and `delegation_id`s are numbered.
-/

namespace OpenWebUI.Subagents

open Transition

structure Config where
  /-- The first value of `_foreground_semaphore`. -/
  maxConcurrent : Option ℕ
  maxAsync : Option ℕ

inductive Mode where
  | foreground
  | background
deriving DecidableEq, Repr

/-- What the caller awaits. -/
inductive Caller where
  /-- The configuration; nothing is taken yet. -/
  | start
  /-- The semaphore, or the lock before the limit is checked. -/
  | waiting
  /-- `insert_new_chat`. -/
  | inserting
  /-- The lock, to discard the id after a failed insert. -/
  | undoInsert
  /-- `redis_save_task` in `create_task`; the child task exists. -/
  | registering
  /-- The lock, to discard the id after a failed registration. -/
  | undoRegister
  /-- The child task. -/
  | joining
  | done
deriving DecidableEq, Repr

/-- What the child task awaits. -/
inductive Child where
  | absent
  /-- Created; its coroutine has not started. -/
  | created
  /-- A call in the `try` block of `run_reserved`. -/
  | running
  /-- The update of the message in an `except` block. -/
  | failing
  /-- The lock in the `finally` block, to discard the id. -/
  | releasing
  /-- A later call of `run_background`. -/
  | delivering
  | done
deriving DecidableEq, Repr

structure Delegation where
  mode : Mode
  caller : Caller
  child : Child
  /-- It took a permit. -/
  took : Bool
  /-- How often it called `release`. -/
  gaveBack : ℕ
deriving DecidableEq, Repr

/-- The capacity a step takes or gives back. -/
inductive Effect where
  | none
  | acquire
  | release
  | add
  | discard
deriving DecidableEq, Repr

inductive Event where
  /-- The call the caller awaits returns. -/
  | callerReturns
  /-- The caller ends before it takes capacity: it refuses the arguments, or fails. -/
  | callerRefuses
  | callerRaises
  /-- A caller that awaits the child cancels the child with it, and goes on with it. -/
  | callerCancelled
  | childReturns
  | childRaises
  | childCancelled
deriving DecidableEq, Repr

/-- `foreground_semaphore.release()`, where there is one. -/
def Delegation.release (d : Delegation) : Delegation × Effect :=
  if d.took then ({ d with gaveBack := d.gaveBack + 1 }, .release) else (d, .none)

/-- The `finally` block of `run_reserved`. -/
def Delegation.finish (d : Delegation) : Delegation × Effect :=
  match d.mode with
  | .background => ({ d with child := .releasing }, .none)
  | .foreground => { d with child := .done }.release

/-- The caller takes its capacity; `full` says that there is none. -/
def Delegation.reserve (config : Config) (full : Bool)
    (d : Delegation) : Option (Delegation × Effect) :=
  match d.mode with
  | .background =>
    if full then some ({ d with caller := .done }, .none)
    else some ({ d with caller := .inserting }, .add)
  | .foreground =>
    if config.maxConcurrent = none then some ({ d with caller := .inserting }, .none)
    else if full then none
    else some ({ d with caller := .inserting, took := true }, .acquire)

def Delegation.callerReturns (config : Config) (full : Bool) (d : Delegation) :
    Option (Delegation × Effect) :=
  match d.caller with
  | .start => some ({ d with caller := .waiting }, .none)
  | .waiting => d.reserve config full
  -- `asyncio.create_task` comes before the first await of `create_task`
  | .inserting => some ({ d with caller := .registering, child := .created }, .none)
  | .undoInsert | .undoRegister => some ({ d with caller := .done }, .discard)
  | .registering =>
    match d.mode with
    | .background => some ({ d with caller := .done }, .none)
    | .foreground => some ({ d with caller := .joining }, .none)
  | .joining => if d.child = .done then some ({ d with caller := .done }, .none) else none
  | .done => none

/-- The `except Exception` blocks. -/
def Delegation.callerRaises (d : Delegation) : Option (Delegation × Effect) :=
  match d.caller with
  | .inserting =>
    match d.mode with
    | .background => some ({ d with caller := .undoInsert }, .none)
    | .foreground => some { d with caller := .done }.release
  | .registering =>
    match d.mode with
    | .background => some ({ d with caller := .undoRegister }, .none)
    | .foreground => some { d with caller := .done }.release
  | _ => none

/-- A `CancelledError` is no `Exception`. -/
def Delegation.callerCancelled (d : Delegation) : Option (Delegation × Effect) :=
  match d.caller with
  | .joining | .done => none
  | _ => some ({ d with caller := .done }, .none)

def Delegation.childReturns (d : Delegation) : Option (Delegation × Effect) :=
  match d.child with
  | .created => some ({ d with child := .running }, .none)
  | .running | .failing => some d.finish
  | .releasing => some ({ d with child := .delivering }, .discard)
  | .delivering => some ({ d with child := .done }, .none)
  | .absent | .done => none

def Delegation.childRaises (d : Delegation) : Option (Delegation × Effect) :=
  match d.child with
  | .running => some ({ d with child := .failing }, .none)
  | .failing => some d.finish
  | .delivering => some ({ d with child := .done }, .none)
  | _ => none

/-- Before its first step a cancelled coroutine runs no line; `run_background` goes on
after a cancelled `run_reserved`. -/
def Delegation.childCancelled (d : Delegation) : Option (Delegation × Effect) :=
  match d.child with
  | .created => some ({ d with child := .done }, .none)
  | .running => some ({ d with child := .failing }, .none)
  | .failing => some d.finish
  | .releasing => some ({ d with child := .delivering }, .none)
  | .delivering => some ({ d with child := .done }, .none)
  | .absent | .done => none

def Delegation.next (config : Config) (full : Bool) (d : Delegation) :
    Event → Option (Delegation × Effect)
  | .callerReturns => d.callerReturns config full
  | .callerRefuses => if d.caller = .start then some ({ d with caller := .done }, .none) else none
  | .callerRaises => d.callerRaises
  | .callerCancelled => d.callerCancelled
  | .childReturns => d.childReturns
  | .childRaises => d.childRaises
  | .childCancelled => d.childCancelled

/-! ## The process -/

structure State where
  delegations : List Delegation
  /-- The value of the semaphore. -/
  free : ℕ
  /-- `_background_active`. -/
  active : List ℕ

def State.apply (s : State) (id : ℕ) : Effect → State
  | .none => s
  | .acquire => { s with free := s.free - 1 }
  | .release => { s with free := s.free + 1 }
  | .add => { s with active := s.active ++ [id] }
  | .discard => { s with active := s.active.filter (· ≠ id) }

/-- No capacity is left for the mode. -/
def State.full (config : Config) (s : State) : Mode → Bool
  | .foreground => s.free = 0
  | .background => config.maxAsync.any fun n => n ≤ s.active.length

inductive Action where
  | delegate (mode : Mode)
  | event (id : ℕ) (e : Event)

def newDelegation (mode : Mode) : Delegation :=
  { mode := mode, caller := .start, child := .absent, took := false, gaveBack := 0 }

def State.next (config : Config) (s : State) : Action → Option State
  | .delegate mode => some { s with delegations := s.delegations ++ [newDelegation mode] }
  | .event id e =>
    match s.delegations[id]?.bind fun d => d.next config (s.full config d.mode) e with
    | none => none
    | some (d, effect) => some
        (({ s with delegations := s.delegations.set id d } : State).apply id effect)

def Step (config : Config) (a : Action) (s s' : State) : Prop := s.next config a = some s'

def Initial (config : Config) (s : State) : Prop :=
  s.delegations = [] ∧ s.active = [] ∧ ∀ n, config.maxConcurrent = some n → s.free = n

/-- No delegation is in progress. -/
def Delegation.over (d : Delegation) : Prop :=
    d.caller = .done ∧ (d.child = .absent ∨ d.child = .done)

def Quiet (s : State) : Prop := ∀ d ∈ s.delegations, d.over

def Delegation.runs (mode : Mode) (d : Delegation) : Bool :=
  d.mode = mode ∧ (d.child = .running ∨ d.child = .failing ∨ d.child = .releasing)

/-- The number of sub-agents of a mode that run. -/
def State.running (s : State) (mode : Mode) : ℕ := s.delegations.countP (Delegation.runs mode)

end OpenWebUI.Subagents
