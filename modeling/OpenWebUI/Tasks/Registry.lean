import Mathlib.Logic.Function.Basic
import OpenWebUI.Lib.Transition

/-! # The task registry

`backend/open_webui/tasks.py` with Redis. A task has a key that expires, an entry in the
task hash, and a place in the set of its item. Every Redis command is one step, and a
pipeline is its commands in order; the two commands of a cleanup that remove the response
stream touch nothing else. Task ids, drawn with `uuid4`, are numbered.
-/

namespace OpenWebUI.Tasks

open Transition

abbrev TaskId := ℕ

structure Redis where
  /-- `tasks:{task_id}`. -/
  keys : TaskId → Bool
  /-- `tasks`: the item ids under the task ids. -/
  hash : TaskId → Option String
  /-- `tasks:item:{item_id}`. -/
  items : String → List TaskId

inductive Command where
  | set (t : TaskId)
  | hset (t : TaskId) (item : String)
  | sadd (item : String) (t : TaskId)
  | delete (t : TaskId)
  | hdel (t : TaskId)
  | srem (item : String) (t : TaskId)
deriving DecidableEq, Repr

def Command.run (r : Redis) : Command → Redis
  | .set t => { r with keys := Function.update r.keys t true }
  | .hset t item => { r with hash := Function.update r.hash t (some item) }
  | .sadd item t =>
    { r with items := Function.update r.items item (if t ∈ r.items item then r.items item
        else r.items item ++ [t]) }
  | .delete t => { r with keys := Function.update r.keys t false }
  | .hdel t => { r with hash := Function.update r.hash t none }
  | .srem item t => { r with items := Function.update r.items item ((r.items item).filter (· ≠ t)) }

/-- An id that is there and not empty. -/
def itemOf (id : Option String) : Option String := id.filter (· ≠ "")

/-- `redis_save_task`. -/
def saveCommands (t : TaskId) (item : Option String) : List Command :=
  [.set t, .hset t (item.getD "")] ++ item.toList.map fun i => .sadd i t

/-- `redis_cleanup_task`. -/
def cleanupCommands (t : TaskId) (item : Option String) : List Command :=
  [.delete t, .hdel t] ++ item.toList.map fun i => .srem i t

/-! ## Operations -/

/-- The next command of an operation that no task runs itself. -/
inductive Op where
  /-- `stop_task`: HGET. -/
  | lookup (t : TaskId)
  /-- PUBLISH. -/
  | publish (t : TaskId) (item : Option String)
  /-- `redis_list_tasks`: SMEMBERS. -/
  | members (item : String)
  /-- EXISTS of each task. -/
  | probe (item : String) (todo active dead : List TaskId)
  /-- The commands of the cleanups that are left, and the answer after them. -/
  | clean (rest : List Command) (answer : List TaskId)
  /-- EXPIRE of each task of a worker. -/
  | heartbeat (todo : List TaskId)
deriving DecidableEq, Repr

def Op.over : Op → Bool
  | .clean rest _ => rest.isEmpty
  | .heartbeat todo => todo.isEmpty
  | _ => false

/-- After the last EXISTS the tasks without a key are cleaned up, one after another. -/
def probed (item : String) (todo active dead : List TaskId) : Op :=
  if todo.isEmpty then
    .clean (dead.flatMap fun t => cleanupCommands t (itemOf (some item))) active
  else .probe item todo active dead

/-- One command; `ttl` is `REDIS_TASK_TTL`. EXPIRE cannot recreate a key. -/
def Op.command (ttl : ℕ) (r : Redis) : Op → Redis × Op
  | .lookup t => (r, .publish t (itemOf (r.hash t)))
  | .publish t item => (r, .clean (cleanupCommands t item) [])
  | .members item =>
    if r.items item = [] ∨ ttl = 0 then (r, .clean [] (r.items item))
    else (r, .probe item (r.items item) [] [])
  | .probe item (t :: todo) active dead =>
    if r.keys t then (r, probed item todo (active ++ [t]) dead)
    else (r, probed item todo active (dead ++ [t]))
  | .probe item [] active dead => (r, probed item [] active dead)
  | .clean (c :: rest) answer => (c.run r, .clean rest answer)
  | .clean [] answer => (r, .clean [] answer)
  | .heartbeat todo => (r, .heartbeat todo.tail)

/-- A task: its item, the commands left of its registration, whether it runs, the commands
left of its cleanup, and whether its worker's `tasks` has it. -/
structure Task where
  item : Option String
  saving : List Command
  running : Bool
  cleaning : List Command
  listed : Bool

structure State where
  redis : Redis
  tasks : List Task
  /-- The ids that `stop_task` was called with. -/
  asked : TaskId → Bool
  ops : List Op

inductive Action where
  | create (id : Option String)
  | register (t : TaskId)
  | finish (t : TaskId)
  | cleanup (t : TaskId)
  | stop (t : TaskId)
  | list (item : String)
  | heartbeat (ts : List TaskId)
  | run (op : ℕ)
  | expire (t : TaskId)

def newTask (t : TaskId) (item : Option String) : Task :=
  { item := item, saving := saveCommands t item, running := true, cleaning := [], listed := true }

def Task.saved (task : Task) : Task := { task with saving := task.saving.tail }

/-- The done callback spawns `cleanup_task`. -/
def Task.finished (task : Task) (t : TaskId) : Task :=
  { task with running := false, cleaning := cleanupCommands t task.item }

/-- After the last command the task is popped from `tasks`. -/
def Task.cleaned (task : Task) : Task :=
  { task with cleaning := task.cleaning.tail, listed := task.cleaning.tail ≠ [] }

def State.next (ttl : ℕ) (s : State) : Action → Option State
  | .create id => some { s with tasks := s.tasks ++ [newTask s.tasks.length (itemOf id)] }
  | .register t =>
    match s.tasks[t]?.bind fun task => task.saving.head? with
    | none => none
    | some c => some { s with redis := c.run s.redis, tasks := s.tasks.modify t Task.saved }
  | .finish t =>
    if s.tasks[t]?.any fun task => task.running then
      some { s with tasks := s.tasks.modify t fun task => task.finished t }
    else none
  | .cleanup t =>
    match s.tasks[t]?.bind fun task => task.cleaning.head? with
    | none => none
    | some c => some { s with redis := c.run s.redis, tasks := s.tasks.modify t Task.cleaned }
  | .stop t => some { s with asked := Function.update s.asked t true, ops := s.ops ++ [.lookup t] }
  | .list item => some { s with ops := s.ops ++ [.members item] }
  | .heartbeat ts => some { s with ops := s.ops ++ [.heartbeat ts] }
  | .run op =>
    match s.ops[op]? with
    | none => none
    | some o => some { s with
        redis := (o.command ttl s.redis).1, ops := s.ops.set op (o.command ttl s.redis).2 }
  -- heartbeats renew the key of a task that a worker's `tasks` has
  | .expire t =>
    if ttl ≠ 0 ∧ s.tasks[t]?.any fun task => !task.listed then
      some { s with redis := (Command.delete t).run s.redis }
    else none

def Step (ttl : ℕ) (a : Action) (s s' : State) : Prop := s.next ttl a = some s'

/-- An empty registry. -/
def Initial (s : State) : Prop :=
  s.tasks = [] ∧ s.ops = [] ∧ (∀ t, s.asked t = false) ∧ (∀ t, s.redis.keys t = false) ∧
    (∀ t, s.redis.hash t = none) ∧ ∀ item, s.redis.items item = []

/-- No operation is in progress. -/
def Quiet (s : State) : Prop :=
  (∀ task ∈ s.tasks, task.saving = [] ∧ task.cleaning = []) ∧ ∀ op ∈ s.ops, op.over

end OpenWebUI.Tasks
