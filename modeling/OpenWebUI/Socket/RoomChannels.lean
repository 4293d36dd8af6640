import Mathlib
import OpenWebUI.Lib.Transition

/-! # Room channels

`AsyncRedisRoomChannelManager` of `backend/open_webui/socket/redis_room_channels.py`: one instance,
its connection to Redis and the clients that enter and leave rooms. The instance subscribes to one
channel for each room with members; a join returns when Redis has answered a ping that was sent
after the subscription.

Redis and the `PubSub` of redis-py are the environment, and what is assumed of them is stated in
their steps. Redis executes the commands of a connection in order, answers each of them, and sends a
published message to the connections that are subscribed then. `PubSub` sends a command and keeps
its books in one step, reads one reply at a time, takes a channel from its books at the answer to
`unsubscribe`, and subscribes to the channels of its books when it connects again.
-/

namespace OpenWebUI.Rooms

/-- A room of a socket.io namespace. -/
structure Room where
  ns : String
  name : String
deriving DecidableEq

/-- `_room_channel(namespace, room)`. -/
def roomChannel (base : String) (room : Room) : String := base ++ "#" ++ room.ns ++ "#" ++ room.name

inductive Command where
  | subscribe (channels : List String)
  | unsubscribe (channels : List String)
  | ping (serial : ℕ)
deriving DecidableEq

inductive Reply where
  | subscribed (channel : String)
  | unsubscribed (channel : String)
  | pong (serial : ℕ)
  | message (channel data : String)
deriving DecidableEq

/-- The messages among some replies. -/
def messages (replies : List Reply) : List (String × String) := replies.filterMap fun
  | .message channel data => some (channel, data)
  | _ => none

/-- A join and how often its room had been emptied when it began. -/
structure Join where
  room : Room
  emptied : ℕ
deriving DecidableEq

/-- An `asyncio.Event` of the queue: nobody waits for it, or a join does. -/
inductive Waiter where
  | change
  | join (j : Join)
deriving DecidableEq

/-- The joins among some events. -/
def joins (waiters : List Waiter) : List Join := waiters.filterMap fun
  | .change => none
  | .join j => some j

/-- Where the listener stands in a round of `_sync_rooms` and the ping after it. -/
inductive Phase where
  | idle
  | subscribing (wanted added : List String)
  | unsubscribing (wanted : List String)
  | pinging
deriving DecidableEq

/-- A join that returned, and how many connections had been lost by then. -/
structure Returned where
  join : Join
  drops : ℕ
deriving DecidableEq

/-- `for ready in waiters: ready.set()`. -/
def returns (drops : ℕ) (waiters : List Waiter) : List Returned :=
  (joins waiters).map fun j => { join := j, drops := drops }

structure State where
  /-- `self.rooms` -/
  members : List (String × Room)
  /-- `self._subscription_queue` -/
  queue : List Waiter
  /-- `pubsub.channels` -/
  channels : List String
  /-- `pubsub.pending_unsubscribe_channels` -/
  pending : List String
  phase : Phase
  /-- what the task `changed` has taken from the queue -/
  changed : Option Waiter
  waiters : List Waiter
  serial : ℕ
  /-- what the task `message` has read -/
  inbox : Option Reply
  /-- commands on their way to Redis -/
  pipe : List Command
  /-- the channels Redis has for the connection -/
  subscribed : List String
  /-- replies on their way to the instance -/
  replies : List Reply
  -- the history
  emptied : Room → ℕ
  drops : ℕ
  /-- the rooms that clients have ever entered -/
  entered : List Room
  started : List Join
  returned : List Returned
  /-- what was published since the connection is up, after what had been read by then -/
  published : List (String × String)
  /-- what the listener has yielded since the connection is up -/
  received : List (String × String)
  /-- what was published since then to rooms whose joins had returned -/
  owed : List (String × String)

inductive Event where
  /-- a local client enters a room, `enter_room`, or its own one, `connect` -/
  | enter (sid : String) (room : Room)
  /-- `basic_enter_room` at the request of another instance -/
  | enrol (sid : String) (room : Room)
  | leave (sid : String) (room : Room)
  | publish (room : Room) (data : String)
  | broadcast (data : String)
  | fetch
  | collect
  | subscribe
  | unsubscribe
  | ping
  | read
  | handle
  | serve
  /-- the Redis client connects again by itself -/
  | reconnect
  /-- the listener fails and is started again -/
  | restart
deriving DecidableEq

variable (base : String)

/-- The listener as it starts: the common channel is the first to be subscribed to. -/
def State.init : State :=
  { members := [], queue := [.change], channels := [base], pending := [], phase := .idle,
    changed := none,
    waiters := [], serial := 0, inbox := none, pipe := [.subscribe [base]], subscribed :=
      [], replies := [], emptied := fun _ => 0,
    drops := 0, entered := [], started := [], returned := [], published := [], received :=
      [], owed := [] }

def State.Occupied (s : State) (room : Room) : Prop := ∃ m ∈ s.members, m.2 = room

instance (s : State) (room : Room) : Decidable (s.Occupied room) :=
  inferInstanceAs (Decidable (∃ m ∈ s.members, m.2 = room))

/-- The channels `_sync_rooms` wants. -/
def State.wanted (s : State) : List String :=
    (base :: s.members.map fun m => roomChannel base m.2).dedup

/-- A join of the room has returned, and since then the room had members and the connection was
up. -/
def State.Joined (s : State) (room : Room) : Prop :=
  ∃ t ∈ s.returned, t.join.room = room ∧ t.join.emptied = s.emptied room ∧ t.drops = s.drops

instance (s : State) (room : Room) : Decidable (s.Joined room) :=
  inferInstanceAs
    (Decidable (∃ t ∈ s.returned, t.join.room = room ∧ t.join.emptied = s.emptied room ∧
      t.drops = s.drops))

/-! ## The clients -/

/-- `basic_enter_room(sid, namespace, room)`. -/
def State.enrol (s : State) (sid : String) (room : Room) : State :=
  { s with
    members := if (sid, room) ∈ s.members then s.members else s.members ++ [(sid, room)],
    queue := s.queue ++ [.change],
    entered := s.entered ++ [room] }

/-- `enter_room(sid, namespace, room)` up to the wait. -/
def State.enter (s : State) (sid : String) (room : Room) : State :=
  let j : Join := { room := room, emptied := s.emptied room }
  { s.enrol sid room with
    queue := (s.enrol sid room).queue ++ [.join j], started := s.started ++ [j] }

/-- `basic_leave_room(sid, namespace, room)`. -/
def State.leave (s : State) (sid : String) (room : Room) : State :=
  let s' := { s with members := s.members.filter (· ≠ (sid, room)) }
  if s'.Occupied room then s'
  else
    { s' with
      queue := s.queue ++ [.change],
      emptied := if s.Occupied room then Function.update s.emptied room (s.emptied room + 1)
        else s.emptied }

/-- A message for a room, which Redis sends to the connection if it is subscribed. -/
def State.publish (s : State) (room : Room) (data : String) : State :=
  let channel := roomChannel base room
  { s with
    replies := if channel ∈ s.subscribed then s.replies ++ [.message channel data] else s.replies,
    published := s.published ++ [(channel, data)],
    owed := if s.Joined room then s.owed ++ [(channel, data)] else s.owed }

/-- A message for the common channel. -/
def State.broadcast (s : State) (data : String) : State :=
  { s with
    replies := if base ∈ s.subscribed then s.replies ++ [.message base data] else s.replies,
    published := s.published ++ [(base, data)] }

/-! ## Redis, as it is assumed -/

/-- The channels of a connection after a command. -/
def Command.apply (subscribed : List String) : Command → List String
  | subscribe channels => subscribed ∪ channels
  | unsubscribe channels => subscribed.filter (· ∉ channels)
  | ping _ => subscribed

/-- The answers to a command: one for each channel, and one to a ping. -/
def Command.answers : Command → List Reply
  | subscribe channels => channels.map .subscribed
  | unsubscribe channels => channels.map .unsubscribed
  | ping serial => [.pong serial]

/-- Redis executes the oldest command on its way. -/
def State.serve (s : State) : Option State :=
  match s.pipe with
  | [] => none
  | command :: pipe => some
      { s with
        pipe := pipe, subscribed := command.apply s.subscribed,
        replies := s.replies ++ command.answers }

/-! ## The listener -/

/-- The task `changed`: `self._subscription_queue.get()`. -/
def State.fetch (s : State) : Option State :=
  match s.changed, s.queue with
  | none, w :: queue => some { s with changed := some w, queue := queue }
  | _, _ => none

/-- The beginning of a round: all events are taken, and the channels to add are determined. -/
def State.collect (s : State) : Option State :=
  match s.phase, s.waiters, s.changed with
  | .idle, [], some w =>
      let wanted := s.wanted base
      let added := wanted.filter fun c => ¬ (c ∈ s.channels ∧ c ∉ s.pending)
      some { s with
        waiters := w :: s.queue, queue := [], changed := none, phase := .subscribing wanted added }
  | _, _, _ => none

/-- `if added := ...: await pubsub.subscribe(*added)`; a removal of an added channel is no longer
pending. -/
def State.subscribe (s : State) : Option State :=
  match s.phase with
  | .subscribing wanted added => some
      { s with
        phase := .unsubscribing wanted,
        pipe := if added = [] then s.pipe else s.pipe ++ [.subscribe added],
        channels := s.channels ∪ added,
        pending := s.pending.filter (· ∉ added) }
  | _ => none

/-- `if removed := ...: await pubsub.unsubscribe(*removed)`. -/
def State.unsubscribe (s : State) : Option State :=
  match s.phase with
  | .unsubscribing wanted =>
      let removed := s.channels.filter fun c => c ∉ wanted ∧ c ∉ s.pending
      some
        { s with
          phase := .pinging,
          pipe := if removed = [] then s.pipe else s.pipe ++ [.unsubscribe removed],
          pending := s.pending ∪ removed }
  | _ => none

/-- `await pubsub.ping(...)`: the round is over, its events wait for the answer. -/
def State.ping (s : State) : Option State :=
  match s.phase with
  | .pinging => some { s with
      phase := .idle, serial := s.serial + 1, pipe := s.pipe ++ [.ping (s.serial + 1)] }
  | _ => none

/-- The task `message`: `pubsub.get_message()`. An answer to `unsubscribe` ends a pending
removal. -/
def State.read (s : State) : Option State :=
  match s.inbox, s.replies with
  | none, .unsubscribed channel :: replies => some
      { s with
        inbox := some (.unsubscribed channel), replies := replies,
        channels := if channel ∈ s.pending then s.channels.filter (· ≠ channel) else s.channels,
        pending := s.pending.filter (· ≠ channel) }
  | none, reply :: replies => some { s with inbox := some reply, replies := replies }
  | _, _ => none

/-- What is done with a reply. -/
def State.handle (s : State) : Option State :=
  match s.phase, s.inbox with
  | .idle, some (.subscribed channel) => some
      { s with
        inbox := none, queue := s.queue ++ [.change],
        pipe := if channel = base then s.pipe ++ [.ping s.serial] else s.pipe }
  | .idle, some (.pong serial) =>
      if serial = s.serial then some
        { s with
          inbox := none, waiters := [],
          returned := s.returned ++ returns s.drops s.waiters }
      else some { s with inbox := none }
  | .idle, some (.message channel data) =>
      some { s with inbox := none, received := s.received ++ [(channel, data)] }
  | .idle, some (.unsubscribed _) => some { s with inbox := none }
  | _, _ => none

/-! ## Lost connections -/

/-- The Redis client connects again while it reads or sends: it subscribes to its channels, those
with a pending removal too. -/
def State.reconnect (s : State) : Option State :=
  if s.inbox = none ∨ s.phase ≠ .idle then some
    { s with
      pipe := [.subscribe s.channels], subscribed := [], replies := [], pending :=
        [], drops := s.drops + 1,
      published := messages s.inbox.toList, received := [], owed := [] }
  else none

/-- The listener ends with an error, puts its events back into the queue and starts with a new
connection. -/
def State.restart (s : State) : State :=
  { s with
    queue := s.queue ++ s.waiters ++ s.changed.toList ++ [.change],
    channels := [base], pending := [], phase := .idle, changed := none, waiters := [], serial :=
      0, inbox := none,
    pipe := [.subscribe [base]], subscribed := [], replies := [], drops := s.drops + 1, published :=
      [], received := [],
    owed := [] }

def next (s : State) : Event → Option State
  | .enter sid room => some (s.enter sid room)
  | .enrol sid room => some (s.enrol sid room)
  | .leave sid room => some (s.leave sid room)
  | .publish room data => some (s.publish base room data)
  | .broadcast data => some (s.broadcast base data)
  | .fetch => s.fetch
  | .collect => s.collect base
  | .subscribe => s.subscribe
  | .unsubscribe => s.unsubscribe
  | .ping => s.ping
  | .read => s.read
  | .handle => s.handle base
  | .serve => s.serve
  | .reconnect => s.reconnect
  | .restart => some (s.restart base)

/-! ## What Redis knows after the commands on their way -/

/-- The channels after all commands. -/
def settled (subscribed : List String) (pipe : List Command) : List String :=
    pipe.foldl Command.apply subscribed

/-- Redis has the channel now and keeps it through all commands. -/
def Solid (channel : String) : List String → List Command → Prop
  | subscribed, [] => channel ∈ subscribed
  | subscribed, command :: pipe => channel ∈ subscribed ∧
      Solid channel (command.apply subscribed) pipe

/-- Redis has the channel from the time on it answers a ping. -/
def SolidAt (serial : ℕ) (channel : String) : List String → List Command → Prop
  | _, [] => True
  | subscribed, command :: pipe =>
      (command = .ping serial → Solid channel subscribed pipe) ∧
        SolidAt serial channel (command.apply subscribed) pipe

/-- A command that takes the channel away from nobody who has it. -/
def Command.Keeps (channel : String) (command : Command) : Prop :=
  ∀ channels, command = .unsubscribe channels → channel ∉ channels

variable {base} {channel : String} {subscribed : List String} {pipe : List Command}
    {command : Command} {serial : ℕ}

/-- A channel that the command keeps is there after it. -/
theorem Command.Keeps.mem_apply (h : command.Keeps channel) (hmem : channel ∈ subscribed) :
    channel ∈ command.apply subscribed := by
  cases command with
  | subscribe channels => exact List.mem_union_left hmem channels
  | unsubscribe channels => exact List.mem_filter.mpr ⟨hmem, by simpa using h channels rfl⟩
  | ping n => exact hmem

theorem keeps_subscribe {channels : List String} : (Command.subscribe channels).Keeps channel := by
  intro _ h
  cases h

theorem keeps_ping : (Command.ping serial).Keeps channel := by
  intro _ h
  cases h

theorem keeps_unsubscribe {channels : List String} (h : channel ∉ channels) :
    (Command.unsubscribe channels).Keeps channel := by
  intro _ heq
  cases heq
  exact h

/-- The newest command is executed last. -/
theorem settled_append :
    settled subscribed (pipe ++ [command]) = command.apply (settled subscribed pipe) := by
  rw [settled, List.foldl_append]
  rfl

/-- What is kept through all commands is there now. -/
theorem Solid.mem (h : Solid channel subscribed pipe) : channel ∈ subscribed := by
  cases pipe with
  | nil => exact h
  | cons command pipe => exact h.1

/-- A further command that keeps the channel breaks nothing. -/
theorem Solid.append (h : Solid channel subscribed pipe) (hkeeps : command.Keeps channel) :
    Solid channel subscribed (pipe ++ [command]) := by
  induction pipe generalizing subscribed with
  | nil => exact ⟨h, hkeeps.mem_apply h⟩
  | cons first pipe ih => exact ⟨h.1, ih h.2⟩

/-- A further command keeps the channel after the ping; if it is the ping, the channel must have
come before it. -/
theorem SolidAt.append (h : SolidAt serial channel subscribed pipe) (hkeeps : command.Keeps channel)
    (hping : command = .ping serial → channel ∈ settled subscribed pipe) :
    SolidAt serial channel subscribed (pipe ++ [command]) := by
  induction pipe generalizing subscribed with
  | nil => exact ⟨hping, trivial⟩
  | cons first pipe ih => exact ⟨fun hfirst => (h.1 hfirst).append hkeeps, ih h.2 hping⟩

/-- Without the ping on its way there is nothing to show. -/
theorem solidAt_of_not_mem (h : .ping serial ∉ pipe) : SolidAt serial channel subscribed pipe := by
  induction pipe generalizing subscribed with
  | nil => trivial
  | cons command pipe ih =>
      exact ⟨fun hcommand => absurd (hcommand ▸ List.mem_cons_self) h,
        ih fun hmem => h (List.mem_cons_of_mem _ hmem)⟩

/-! ## The invariant -/

/-- The channel is one the instance is subscribed to and does not mean to leave. -/
def State.Listed (s : State) (channel : String) : Prop := channel ∈ s.channels ∧ channel ∉ s.pending

/-- What holds of the channel of a join whose event has been collected. -/
def State.Awaits (s : State) (channel : String) : Prop :=
  match s.phase with
  | .subscribing wanted added => channel ∈ wanted ∧ (channel ∈ added ∨ s.Listed channel)
  | .unsubscribing wanted => channel ∈ wanted ∧ s.Listed channel
  | .pinging => s.Listed channel
  | .idle => s.Listed channel ∧ SolidAt s.serial channel s.subscribed s.pipe ∧
      (.pong s.serial ∈ s.replies ∨ s.inbox = some (.pong s.serial) →
        Solid channel s.subscribed s.pipe)

/-- What holds of the channel of a join that has returned. -/
def State.Held (s : State) (channel : String) : Prop :=
  s.Listed channel ∧ Solid channel s.subscribed s.pipe ∧
    match s.phase with
    | .subscribing wanted _ => channel ∈ wanted
    | .unsubscribing wanted => channel ∈ wanted
    | .pinging => True
    | .idle => True

/-- A join that has not returned, wherever its event is. -/
def State.unreturned (s : State) : List Join :=
    joins s.queue ++ joins s.changed.toList ++ joins s.waiters

structure Inv (base : String) (s : State) : Prop where
  /-- what the instance lists is subscribed when the commands on their way are done -/
  listed : ∀ c, s.Listed c → c ∈ settled s.subscribed s.pipe
  /-- no ping is ahead of the serial -/
  pings : ∀ n, (.ping n ∈ s.pipe ∨ .pong n ∈ s.replies ∨ s.inbox = some (.pong n)) → n ≤ s.serial
  /-- the room of a join is occupied until it is emptied -/
  occupied : ∀ j, (j ∈ s.unreturned ∨ j ∈ s.returned.map (·.join)) →
    j.emptied ≤ s.emptied j.room ∧ (j.emptied = s.emptied j.room → s.Occupied j.room)
  awaits : ∀ j ∈ joins s.waiters, j.emptied = s.emptied j.room → s.Awaits (roomChannel base j.room)
  drops : ∀ t ∈ s.returned, t.drops ≤ s.drops
  held : ∀ t ∈ s.returned, t.join.emptied = s.emptied t.join.room → t.drops = s.drops →
    s.Held (roomChannel base t.join.room)

/-- The common channel is on its way, and no join has begun. -/
theorem inv_init : Inv base (State.init base) := by
  constructor <;> simp [State.init, State.Listed, settled, Command.apply, State.unreturned, joins]

variable {s s' : State} {sid : String} {room : Room} {data : String} {waiters : List Waiter}

/-! ## One lemma for each step -/

@[simp] theorem joins_append (waiters waiters' : List Waiter) :
    joins (waiters ++ waiters') = joins waiters ++ joins waiters' :=
  List.filterMap_append

@[simp] theorem joins_nil : joins [] = [] := rfl

@[simp] theorem joins_change : joins [.change] = [] := rfl

@[simp] theorem joins_join (j : Join) : joins [.join j] = [j] := rfl

/-- An occupied room stays so when somebody enters. -/
theorem occupied_enrol_of (h : s.Occupied room) (sid : String) (room' : Room) :
    (s.enrol sid room').Occupied room := by
  obtain ⟨m, hm, hroom⟩ := h
  refine ⟨m, ?_, hroom⟩
  rw [State.enrol]
  split_ifs
  · exact hm
  · exact List.mem_append_left _ hm

theorem occupied_enrol : (s.enrol sid room).Occupied room := by
  refine ⟨(sid, room), ?_, rfl⟩
  rw [State.enrol]
  split_ifs with hmem
  · exact hmem
  · exact List.mem_append_right _ (List.mem_singleton_self _)

/-- The event of an enrolment is no join. -/
theorem unreturned_enrol : (s.enrol sid room).unreturned = s.unreturned := by
  simp [State.unreturned, State.enrol]

/-- An enrolment asks for a round and returns no join. -/
theorem inv_enrol (h : Inv base s) : Inv base (s.enrol sid room) where
  listed := h.listed
  pings := h.pings
  occupied := by
    intro j hj
    rw [unreturned_enrol] at hj
    obtain ⟨hle, hoccupied⟩ := h.occupied j hj
    exact ⟨hle, fun heq => occupied_enrol_of (hoccupied heq) sid room⟩
  awaits := h.awaits
  drops := h.drops
  held := h.held

/-- Entering begins one join. -/
theorem mem_unreturned_enter {j : Join} (hj : j ∈ (s.enter sid room).unreturned) :
    j ∈ s.unreturned ∨ j = { room := room, emptied := s.emptied room } := by
  simp only [State.unreturned, State.enter, State.enrol, joins_append, joins_change, joins_join,
    List.append_nil, List.mem_append, List.mem_singleton] at hj ⊢
  tauto

/-- The new join waits for its room, which is occupied now. -/
theorem inv_enter (h : Inv base s) : Inv base (s.enter sid room) where
  listed := h.listed
  pings := h.pings
  occupied := by
    intro j hj
    have henrol : Inv base (s.enrol sid room) := inv_enrol h
    have hold : j ∈ s.unreturned ∨ j ∈ s.returned.map (·.join) →
        j.emptied ≤ s.emptied j.room ∧
          (j.emptied = s.emptied j.room → (s.enter sid room).Occupied j.room) := by
      intro hj
      have hj := henrol.occupied j (by rwa [unreturned_enrol])
      exact hj
    rcases hj with hj | hj
    · rcases mem_unreturned_enter hj with hj | rfl
      · exact hold (.inl hj)
      · exact ⟨Nat.le_refl _, fun _ => occupied_enrol⟩
    · exact hold (.inr hj)
  awaits := h.awaits
  drops := h.drops
  held := h.held

/-- A room that is emptied counts it, so its old joins claim nothing more. -/
theorem inv_leave (h : Inv base s) : Inv base (s.leave sid room) := by
  have hkeep : ∀ room', room' ≠ room → s.Occupied room' →
      ({ s with members := s.members.filter (· ≠ (sid, room)) } : State).Occupied room' := by
    rintro room' hne ⟨m, hm, rfl⟩
    refine ⟨m, List.mem_filter.mpr ⟨hm, ?_⟩, rfl⟩
    simp only [decide_eq_true_eq]
    rintro rfl
    exact hne rfl
  rw [State.leave]
  dsimp only
  split_ifs with hstill hwas
  -- another member is still in the room
  · exact
      { listed := h.listed, pings := h.pings, awaits := h.awaits, drops := h.drops, held := h.held
        occupied := by
          intro j hj
          obtain ⟨hle, hoccupied⟩ := h.occupied j hj
          refine ⟨hle, fun heq => ?_⟩
          by_cases hroom : j.room = room
          · rw [hroom]
            exact hstill
          · exact hkeep j.room hroom (hoccupied heq) }
  · -- the room has been emptied, so no join of it counts any more
    have hlater : ∀ j : Join, j.emptied ≤ s.emptied j.room →
        j.emptied = Function.update s.emptied room (s.emptied room + 1) j.room →
        j.emptied = s.emptied j.room ∧ j.room ≠ room := by
      intro j hle heq
      by_cases hroom : j.room = room
      · rw [hroom, Function.update_self] at heq
        rw [hroom] at hle
        omega
      · rw [Function.update_of_ne hroom] at heq
        exact ⟨heq, hroom⟩
    have hmem : ∀ j, j ∈ joins s.waiters → j ∈ s.unreturned :=
      fun j hj => List.mem_append_right _ hj
    exact
      { listed := h.listed, pings := h.pings, drops := h.drops
        occupied := by
          intro j hj
          have hj : j ∈ s.unreturned ∨ j ∈ s.returned.map (·.join) := by
            simpa [State.unreturned] using hj
          obtain ⟨hle, hoccupied⟩ := h.occupied j hj
          constructor
          · show j.emptied ≤ Function.update s.emptied room (s.emptied room + 1) j.room
            by_cases hroom : j.room = room
            · rw [hroom, Function.update_self]
              rw [hroom] at hle
              omega
            · rw [Function.update_of_ne hroom]
              exact hle
          · intro heq
            obtain ⟨heq, hroom⟩ := hlater j hle heq
            exact hkeep j.room hroom (hoccupied heq)
        awaits := by
          intro j hj heq
          exact h.awaits j hj (hlater j (h.occupied j (.inl (hmem j hj))).1 heq).1
        held := by
          intro t ht heq
          exact h.held t ht (hlater t.join
            (h.occupied t.join (.inr (List.mem_map_of_mem ht))).1 heq).1 }
  · exact
      { listed := h.listed, pings := h.pings, awaits := h.awaits, drops := h.drops, held := h.held
        occupied := by
          intro j hj
          have hj : j ∈ s.unreturned ∨ j ∈ s.returned.map (·.join) := by
            simpa [State.unreturned] using hj
          obtain ⟨hle, hoccupied⟩ := h.occupied j hj
          refine ⟨hle, fun heq => ?_⟩
          by_cases hroom : j.room = room
          · exact absurd (hroom ▸ hoccupied heq) hwas
          · exact hkeep j.room hroom (hoccupied heq) }

/-- Messages change neither the books nor the commands. -/
theorem inv_of_replies (h : Inv base s) (channel data : String)
    (published owed : List (String × String)) :
    Inv base { s with
      replies := s.replies ++ [.message channel data], published := published, owed := owed } where
  listed := h.listed
  pings := by
    intro n hn
    refine h.pings n ?_
    simpa using hn
  occupied := h.occupied
  awaits := by
    intro j hj heq
    have hawaits := h.awaits j hj heq
    simp only [State.Awaits] at hawaits ⊢
    cases hphase : s.phase <;> simp only [hphase] at hawaits ⊢
    · refine ⟨hawaits.1, hawaits.2.1, fun hpong => hawaits.2.2 ?_⟩
      simpa using hpong
    all_goals exact hawaits
  drops := h.drops
  held := h.held

/-- A message touches neither subscriptions nor joins. -/
theorem inv_publish (h : Inv base s) : Inv base (s.publish base room data) := by
  rw [State.publish]
  split_ifs
  · exact inv_of_replies h _ _ _ _
  · exact inv_of_replies h _ _ _ _
  · exact { h with }
  · exact { h with }

theorem inv_broadcast (h : Inv base s) : Inv base (s.broadcast base data) := by
  rw [State.broadcast]
  split_ifs
  · exact inv_of_replies h base data _ s.owed
  · exact { h with }

/-- What Redis executes leaves the channels after all commands as they were. -/
theorem inv_serve (h : Inv base s) (hstep : s.serve = some s') : Inv base s' := by
  rw [State.serve] at hstep
  cases hpipe : s.pipe with
  | nil => simp [hpipe] at hstep
  | cons command pipe =>
      rw [hpipe] at hstep
      obtain rfl := Option.some.inj hstep
      -- only the ping of a number is answered by its pong
      have hpong : ∀ n, .pong n ∈ command.answers → command = .ping n := by
        intro n hn
        cases command <;> simp_all [Command.answers]
      exact
        { listed := by
            intro c hc
            have hold := h.listed c hc
            rw [hpipe] at hold
            exact hold
          pings := by
            intro n hn
            refine h.pings n ?_
            rw [hpipe]
            -- a pong in the answers is this ping, which is counted already
            rcases hn with hn | hn | hn
            · exact .inl (List.mem_cons_of_mem _ hn)
            · rcases List.mem_append.mp hn with hn | hn
              · exact .inr (.inl hn)
              · exact .inl (hpong n hn ▸ List.mem_cons_self)
            · exact .inr (.inr hn)
          occupied := h.occupied
          awaits := by
            intro j hj heq
            have hawaits := h.awaits j hj heq
            simp only [State.Awaits, hpipe] at hawaits ⊢
            cases hphase : s.phase <;> simp only [hphase] at hawaits ⊢
            · obtain ⟨hlisted, hat, hsolid⟩ := hawaits
              refine ⟨hlisted, hat.2, fun hmem => ?_⟩
              rcases hmem with hmem | hmem
              · rcases List.mem_append.mp hmem with hmem | hmem
                · exact (hsolid (.inl hmem)).2
                · -- Redis answers the ping here
                  obtain rfl := hpong _ hmem
                  exact hat.1 rfl
              · exact (hsolid (.inr hmem)).2
            all_goals exact hawaits
          drops := h.drops
          held := by
            -- the command leaves the pipe for what is subscribed
            intro t ht heq hdrops
            obtain ⟨hlisted, hsolid, hphase⟩ := h.held t ht heq hdrops
            rw [hpipe] at hsolid
            exact ⟨hlisted, hsolid.2, hphase⟩ }

theorem inv_fetch (h : Inv base s) (hstep : s.fetch = some s') : Inv base s' := by
  rw [State.fetch] at hstep
  split at hstep
  · next w queue hchanged hqueue =>
      obtain rfl := Option.some.inj hstep
      exact
        { h with
          occupied := by
            intro j hj
            refine h.occupied j (hj.imp_left fun hj => ?_)
            have hsplit : joins (w :: queue) = joins [w] ++ joins queue := joins_append [w] queue
            simp only [State.unreturned, hchanged, hqueue, hsplit, Option.toList_some,
              List.mem_append] at hj ⊢
            tauto }
  · cases hstep

theorem roomChannel_mem_wanted (h : s.Occupied room) : roomChannel base room ∈ s.wanted base := by
  obtain ⟨m, hm, rfl⟩ := h
  exact List.mem_dedup.mpr (List.mem_cons_of_mem _ (List.mem_map.mpr ⟨m, hm, rfl⟩))

/-- A round wants the channels of all occupied rooms, so the joins it takes can wait for them. -/
theorem inv_collect (h : Inv base s) (hstep : s.collect base = some s') : Inv base s' := by
  rw [State.collect] at hstep
  split at hstep
  · next w hphase hwaiters hchanged =>
      obtain rfl := Option.some.inj hstep
      have hsplit : joins (w :: s.queue) = joins [w] ++ joins s.queue := joins_append [w] s.queue
      have hmem : ∀ j ∈ joins (w :: s.queue), j ∈ s.unreturned := by
        intro j hj
        simp only [State.unreturned, hchanged, hsplit, Option.toList_some, List.mem_append] at hj ⊢
        tauto
      exact
        { listed := h.listed
          pings := h.pings
          occupied := by
            intro j hj
            refine h.occupied j (hj.imp_left fun hj => hmem j ?_)
            simpa [State.unreturned] using hj
          awaits := by
            intro j hj heq
            -- the room of a join that counts is occupied, and an occupied room is wanted
            have hwanted : roomChannel base j.room ∈ s.wanted base :=
              roomChannel_mem_wanted ((h.occupied j (.inl (hmem j hj))).2 heq)
            refine ⟨hwanted, ?_⟩
            by_cases hlisted : s.Listed (roomChannel base j.room)
            · exact .inr hlisted
            -- a wanted channel that is not listed is in the command of this round
            · exact .inl (List.mem_filter.mpr ⟨hwanted, decide_eq_true hlisted⟩)
          drops := h.drops
          held := by
            intro t ht heq hdrops
            obtain ⟨hlisted, hsolid, -⟩ := h.held t ht heq hdrops
            refine ⟨hlisted, hsolid, ?_⟩
            exact roomChannel_mem_wanted
              ((h.occupied t.join (.inr (List.mem_map_of_mem ht))).2 heq) }
  · cases hstep

/-- The added channels are on their way before the ping of the round. -/
theorem inv_subscribe (h : Inv base s) (hstep : s.subscribe = some s') : Inv base s' := by
  rw [State.subscribe] at hstep
  split at hstep
  · next wanted added hphase =>
      obtain rfl := Option.some.inj hstep
      -- once the command is sent, all that is added counts as subscribed
      have hsent : ∀ c, c ∈ settled s.subscribed s.pipe ∨ c ∈ added →
          c ∈ settled s.subscribed
            (if added = [] then s.pipe else s.pipe ++ [.subscribe added]) := by
        intro c hc
        split_ifs with hnil
        · simpa [hnil] using hc
        · rw [settled_append]
          exact List.mem_union_iff.mpr hc
      have hlisted : ∀ c, c ∈ added ∨ s.Listed c →
          c ∈ s.channels ∪ added ∧ c ∉ s.pending.filter (· ∉ added) := by
        rintro c (hc | ⟨hc, hpending⟩)
        · exact ⟨List.mem_union_right _ hc, by simp [hc]⟩
        · exact ⟨List.mem_union_left hc _, fun hmem => hpending (List.mem_filter.mp hmem).1⟩
      have hsolid : ∀ c, Solid c s.subscribed s.pipe →
          Solid c s.subscribed (if added = [] then s.pipe else s.pipe ++ [.subscribe added]) := by
        intro c hc
        split_ifs
        · exact hc
        · exact hc.append keeps_subscribe
      exact
        { listed := by
            rintro c ⟨hc, hpending⟩
            refine hsent c ?_
            by_cases hadded : c ∈ added
            -- a channel listed now was listed before, or is in the command
            · exact .inr hadded
            · refine .inl (h.listed c ⟨(List.mem_union_iff.mp hc).resolve_right hadded,
                fun hmem => ?_⟩)
              exact hpending (List.mem_filter.mpr ⟨hmem, by simpa using hadded⟩)
          pings := by
            intro n hn
            refine h.pings n (hn.imp_left fun hn => ?_)
            dsimp only at hn
            split_ifs at hn
            · exact hn
            · simpa using hn
          occupied := h.occupied
          awaits := by
            intro j hj heq
            have hawaits := h.awaits j hj heq
            simp only [State.Awaits, hphase] at hawaits
            -- the channel of a waiting join is wanted, so this round adds it or has it
            exact ⟨hawaits.1, hlisted _ hawaits.2⟩
          drops := h.drops
          held := by
            intro t ht heq hdrops
            obtain ⟨hl, hs, hwanted⟩ := h.held t ht heq hdrops
            simp only [hphase] at hwanted
            exact ⟨hlisted _ (.inr hl), hsolid _ hs, hwanted⟩ }
  · cases hstep

/-- Only channels that nobody wants are given up. -/
theorem inv_unsubscribe (h : Inv base s) (hstep : s.unsubscribe = some s') : Inv base s' := by
  rw [State.unsubscribe] at hstep
  split at hstep
  · next wanted hphase =>
      obtain rfl := Option.some.inj hstep
      -- what is wanted is never among the channels let go
      have hkept : ∀ c, c ∈ wanted → c ∉ s.channels.filter fun c => c ∉ wanted ∧ c ∉ s.pending := by
        intro c hc hmem
        have := (List.mem_filter.mp hmem).2
        simp [hc] at this
      have hlisted : ∀ c, c ∈ wanted → s.Listed c →
          c ∈ s.channels ∧ c ∉ s.pending ∪ s.channels.filter fun c => c ∉ wanted ∧
            c ∉ s.pending := by
        rintro c hc ⟨hmem, hpending⟩
        refine ⟨hmem, fun hunion => ?_⟩
        rcases List.mem_union_iff.mp hunion with hunion | hunion
        · exact hpending hunion
        · exact hkept c hc hunion
      exact
        { listed := by
            rintro c ⟨hc, hpending⟩
            have hnot : c ∉ s.pending := fun hmem => hpending (List.mem_union_left hmem _)
            have hremoved : c ∉ s.channels.filter fun c => c ∉ wanted ∧ c ∉ s.pending :=
              fun hmem => hpending (List.mem_union_right _ hmem)
            have hold := h.listed c ⟨hc, hnot⟩
            dsimp only
            split_ifs
            · exact hold
            -- the command takes only what is pending from now on
            · rw [settled_append]
              exact (keeps_unsubscribe hremoved).mem_apply hold
          pings := by
            intro n hn
            refine h.pings n (hn.imp_left fun hn => ?_)
            dsimp only at hn
            split_ifs at hn
            · exact hn
            · simpa using hn
          occupied := h.occupied
          awaits := by
            intro j hj heq
            have hawaits := h.awaits j hj heq
            simp only [State.Awaits, hphase] at hawaits
            exact hlisted _ hawaits.1 hawaits.2
          drops := h.drops
          held := by
            intro t ht heq hdrops
            obtain ⟨hl, hs, hwanted⟩ := h.held t ht heq hdrops
            simp only [hphase] at hwanted
            -- the room of a returned join is wanted, and stays subscribed behind the command
            refine ⟨hlisted _ hwanted hl, ?_, trivial⟩
            dsimp only
            split_ifs
            · exact hs
            · exact hs.append (keeps_unsubscribe (hkept _ hwanted)) }
  · cases hstep

/-- The ping of a round comes after the subscriptions that its joins wait for. -/
theorem inv_ping (h : Inv base s) (hstep : s.ping = some s') : Inv base s' := by
  rw [State.ping] at hstep
  split at hstep
  · next hphase =>
      obtain rfl := Option.some.inj hstep
      -- the serial is new
      have hfresh : ¬ (.ping (s.serial + 1) ∈ s.pipe ∨ .pong (s.serial + 1) ∈ s.replies ∨
          s.inbox = some (.pong (s.serial + 1))) := by
        intro hmem
        have := h.pings _ hmem
        omega
      exact
        { listed := by
            intro c hc
            show c ∈ settled s.subscribed (s.pipe ++ [.ping (s.serial + 1)])
            rw [settled_append]
            exact h.listed c hc
          pings := by
            intro n hn
            show n ≤ s.serial + 1
            rcases hn with hn | hn | hn
            · rcases List.mem_append.mp hn with hn | hn
              · have := h.pings n (.inl hn)
                omega
              · cases List.mem_singleton.mp hn
                exact Nat.le_refl _
            · have := h.pings n (.inr (.inl hn))
              omega
            · have := h.pings n (.inr (.inr hn))
              omega
          occupied := h.occupied
          awaits := by
            intro j hj heq
            have hawaits := h.awaits j hj heq
            simp only [State.Awaits, hphase] at hawaits
            refine ⟨hawaits, ?_, fun hpong => absurd (.inr hpong) hfresh⟩
            exact (solidAt_of_not_mem fun hmem => hfresh (.inl hmem)).append keeps_ping fun _ =>
              h.listed _ hawaits
          drops := h.drops
          held := by
            intro t ht heq hdrops
            obtain ⟨hl, hs, -⟩ := h.held t ht heq hdrops
            exact ⟨hl, hs.append keeps_ping, trivial⟩ }
  · cases hstep

/-- An answer to `unsubscribe` changes no channel that is listed. -/
theorem listed_read {c : String} (channel : String) :
    (c ∈ (if channel ∈ s.pending then s.channels.filter (· ≠ channel) else s.channels) ∧
      c ∉ s.pending.filter (· ≠ channel)) ↔ s.Listed c := by
  rw [State.Listed]
  by_cases hchannel : channel ∈ s.pending
  · rw [if_pos hchannel]
    by_cases hc : c = channel
    · subst hc
      simp [hchannel]
    · simp [hc]
  · rw [if_neg hchannel]
    refine and_congr_right fun _ => not_congr ?_
    rw [List.mem_filter]
    refine and_iff_left_of_imp fun hc => ?_
    simp only [decide_eq_true_eq]
    rintro rfl
    exact hchannel hc

/-- Reading one more reply. -/
theorem inv_of_inbox {reply : Reply} {replies : List Reply} (h : Inv base s)
    (hreplies : s.replies = reply :: replies) :
    Inv base { s with inbox := some reply, replies := replies } := by
  have hpong : ∀ n, .pong n ∈ replies ∨ some reply = some (.pong n) →
      .pong n ∈ s.replies ∨ s.inbox = some (.pong n) := by
    intro n hn
    refine .inl ?_
    rw [hreplies]
    rcases hn with hn | hn
    · exact List.mem_cons_of_mem _ hn
    · exact Option.some.inj hn ▸ List.mem_cons_self
  exact
    { h with
      pings := fun n hn => h.pings n (hn.imp_right (hpong n))
      awaits := by
        intro j hj heq
        have hawaits := h.awaits j hj heq
        simp only [State.Awaits] at hawaits ⊢
        cases hphase : s.phase <;> simp only [hphase] at hawaits ⊢
        · exact ⟨hawaits.1, hawaits.2.1, fun hn => hawaits.2.2 (hpong _ hn)⟩
        all_goals exact hawaits }

/-- Books that list the same channels. -/
theorem inv_of_listed (h : Inv base s) {channels pending : List String}
    (hlisted : ∀ c, (c ∈ channels ∧ c ∉ pending) ↔ s.Listed c) :
    Inv base { s with channels := channels, pending := pending } where
  listed := fun c hc => h.listed c ((hlisted c).mp hc)
  pings := h.pings
  occupied := h.occupied
  awaits := by
    intro j hj heq
    have hawaits := h.awaits j hj heq
    simp only [State.Awaits] at hawaits ⊢
    cases hphase : s.phase <;> simp only [hphase] at hawaits ⊢
    · exact ⟨(hlisted _).mpr hawaits.1, hawaits.2⟩
    · exact ⟨hawaits.1, hawaits.2.imp_right (hlisted _).mpr⟩
    · exact ⟨hawaits.1, (hlisted _).mpr hawaits.2⟩
    · exact (hlisted _).mpr hawaits
  drops := h.drops
  held := by
    intro t ht heq hdrops
    obtain ⟨hl, hrest⟩ := h.held t ht heq hdrops
    exact ⟨(hlisted _).mpr hl, hrest⟩

/-- The answer to `unsubscribe` takes a channel from the books that was pending. -/
theorem inv_read (h : Inv base s) (hstep : s.read = some s') : Inv base s' := by
  rw [State.read] at hstep
  split at hstep
  · next channel replies _ hreplies =>
      obtain rfl := Option.some.inj hstep
      exact inv_of_listed (inv_of_inbox h hreplies) fun c => listed_read channel
  · next reply replies _ _ hreplies =>
      obtain rfl := Option.some.inj hstep
      exact inv_of_inbox h hreplies
  · cases hstep

/-- A reply that is done with and no awaited answer. -/
theorem inv_of_handled (h : Inv base s) : Inv base { s with inbox := none } where
  listed := h.listed
  pings := fun n hn => h.pings n (hn.imp_right (Or.imp_right fun hnone => by cases hnone))
  occupied := h.occupied
  awaits := by
    intro j hj heq
    have hawaits := h.awaits j hj heq
    simp only [State.Awaits] at hawaits ⊢
    cases hphase : s.phase <;> simp only [hphase] at hawaits ⊢
    · refine ⟨hawaits.1, hawaits.2.1, fun hpong => hawaits.2.2 (.inl ?_)⟩
      exact hpong.resolve_right fun hnone => by cases hnone
    all_goals exact hawaits
  drops := h.drops
  held := h.held

/-- The current serial may be pinged again at any time. -/
theorem inv_of_ping (h : Inv base s) : Inv base { s with pipe := s.pipe ++ [.ping s.serial] } where
  listed := by
    intro c hc
    show c ∈ settled s.subscribed (s.pipe ++ [.ping s.serial])
    rw [settled_append]
    exact h.listed c hc
  pings := by
    intro n hn
    rcases hn with hn | hn
    · rcases List.mem_append.mp hn with hn | hn
      · exact h.pings n (.inl hn)
      -- the new ping has the serial itself
      · cases List.mem_singleton.mp hn
        exact Nat.le_refl _
    · exact h.pings n (.inr hn)
  occupied := h.occupied
  awaits := by
    intro j hj heq
    have hawaits := h.awaits j hj heq
    simp only [State.Awaits] at hawaits ⊢
    cases hphase : s.phase <;> simp only [hphase] at hawaits ⊢
    -- the ping stands behind all that was sent, so its pong comes last
    · obtain ⟨hl, hat, hsolid⟩ := hawaits
      exact ⟨hl, hat.append keeps_ping fun _ => h.listed _ hl,
        fun hpong => (hsolid hpong).append keeps_ping⟩
    all_goals exact hawaits
  drops := h.drops
  held := by
    intro t ht heq hdrops
    obtain ⟨hl, hs, hphase⟩ := h.held t ht heq hdrops
    exact ⟨hl, hs.append keeps_ping, hphase⟩

theorem inv_of_change (h : Inv base s) : Inv base { s with queue := s.queue ++ [.change] } :=
  { h with
    occupied := by
      intro j hj
      refine h.occupied j (hj.imp_left fun hj => ?_)
      simpa [State.unreturned] using hj }

/-- The awaited answer: the channels of the joins that return are subscribed. -/
theorem inv_of_pong (h : Inv base s) (hphase : s.phase = .idle)
    (hinbox : s.inbox = some (.pong s.serial)) :
    Inv base { s with
      inbox := none, waiters := [], returned := s.returned ++ returns s.drops s.waiters } := by
  -- each waiting join returns now, under the drops of this connection
  have hreturned : ∀ t ∈ returns s.drops s.waiters, t.join ∈ joins s.waiters ∧
    t.drops = s.drops := by
    intro t ht
    obtain ⟨j, hj, rfl⟩ := List.mem_map.mp ht
    exact ⟨hj, rfl⟩
  have hdone := inv_of_handled h
  exact
    { listed := h.listed
      pings := hdone.pings
      occupied := by
        intro j hj
        refine h.occupied j ?_
        rcases hj with hj | hj
        · refine .inl ?_
          simp only [State.unreturned, joins_nil, List.append_nil, List.mem_append] at hj ⊢
          tauto
        -- a join returned before, or one of the round
        · rw [List.map_append] at hj
          rcases List.mem_append.mp hj with hj | hj
          · exact .inr hj
          · obtain ⟨t, ht, rfl⟩ := List.mem_map.mp hj
            exact .inl (List.mem_append_right _ (hreturned t ht).1)
      awaits := fun j hj => by cases hj
      drops := by
        intro t ht
        rcases List.mem_append.mp ht with ht | ht
        · exact h.drops t ht
        · exact Nat.le_of_eq (hreturned t ht).2
      held := by
        intro t ht heq hdrops
        rcases List.mem_append.mp ht with ht | ht
        · exact h.held t ht heq hdrops
        -- all that the round sent has been served, so the channel is subscribed
        · have hawaits := h.awaits t.join (hreturned t ht).1 heq
          simp only [State.Awaits, hphase] at hawaits
          exact ⟨hawaits.1, hawaits.2.2 (.inr hinbox), by simp only [hphase]⟩ }

/-- The pong of the last ping shows that the channels of the waiting joins are held. -/
theorem inv_handle (h : Inv base s) (hstep : s.handle base = some s') : Inv base s' := by
  rw [State.handle] at hstep
  split at hstep
  · next channel hphase hinbox =>
      obtain rfl := Option.some.inj hstep
      split_ifs with hbase
      · exact inv_of_change (inv_of_ping (inv_of_handled h))
      · exact inv_of_change (inv_of_handled h)
  · next n hphase hinbox =>
      split_ifs at hstep with hserial
      · obtain rfl := Option.some.inj hstep
        exact inv_of_pong h hphase (hserial ▸ hinbox)
      · obtain rfl := Option.some.inj hstep
        exact inv_of_handled h
  · obtain rfl := Option.some.inj hstep
    exact { inv_of_handled h with }
  · obtain rfl := Option.some.inj hstep
    exact inv_of_handled h
  · cases hstep

/-- The channels of the books are subscribed to again, and no join is owed anything from before. -/
theorem inv_reconnect (h : Inv base s) (hstep : s.reconnect = some s') : Inv base s' := by
  rw [State.reconnect] at hstep
  split_ifs at hstep with hguard
  obtain rfl := Option.some.inj hstep
  exact
    { listed := fun c hc => List.mem_union_right _ hc.1
      pings := by
        intro n hn
        refine h.pings n (.inr (.inr ?_))
        simpa using hn
      occupied := h.occupied
      awaits := by
        intro j hj heq
        have hawaits := h.awaits j hj heq
        simp only [State.Awaits] at hawaits ⊢
        cases hphase : s.phase <;> simp only [hphase] at hawaits hguard ⊢
        · -- nothing is left of the answers of the old connection
          have hnone : s.inbox = none := by simpa using hguard
          refine ⟨⟨hawaits.1.1, List.not_mem_nil⟩, ⟨Command.noConfusion, trivial⟩, fun hpong => ?_⟩
          rcases hpong with hpong | hpong
          · cases hpong
          · rw [hnone] at hpong
            cases hpong
        · exact ⟨hawaits.1, hawaits.2.imp_right fun hl => ⟨hl.1, List.not_mem_nil⟩⟩
        · exact ⟨hawaits.1, hawaits.2.1, List.not_mem_nil⟩
        · exact ⟨hawaits.1, List.not_mem_nil⟩
      drops := fun t ht => Nat.le_succ_of_le (h.drops t ht)
      held := by
        intro t ht _ hdrops
        have hle := h.drops t ht
        -- no join returned since the new connection
        change t.drops = s.drops + 1 at hdrops
        omega }

/-- The events go back into the queue, and the new connection starts with the common channel. -/
theorem inv_restart (h : Inv base s) : Inv base (s.restart base) where
  listed := by
    rintro c ⟨hc, -⟩
    exact List.mem_union_right _ hc
  pings := by
    intro n hn
    simp [State.restart] at hn
  occupied := by
    intro j hj
    refine h.occupied j (hj.imp_left fun hj => ?_)
    simp only [State.unreturned, State.restart, joins_append, joins_change, joins_nil,
      Option.toList_none, List.append_nil, List.mem_append] at hj ⊢
    tauto
  awaits := fun j hj => by cases hj
  drops := fun t ht => Nat.le_succ_of_le (h.drops t ht)
  held := by
    intro t ht _ hdrops
    have hle := h.drops t ht
    change t.drops = s.drops + 1 at hdrops
    omega

/-! ## Runs -/

/-- The states some run reaches. -/
abbrev Reachable (base : String) : State → Prop :=
  Transition.Reachable (· = State.init base) fun a s s' => next base s a = some s'

/-- One step, by its kind. -/
theorem inv_next (h : Inv base s) (a : Event) (hstep : next base s a = some s') : Inv base s' := by
  cases a with
  | enter sid room => exact Option.some.inj hstep ▸ inv_enter h
  | enrol sid room => exact Option.some.inj hstep ▸ inv_enrol h
  | leave sid room => exact Option.some.inj hstep ▸ inv_leave h
  | publish room data => exact Option.some.inj hstep ▸ inv_publish h
  | broadcast data => exact Option.some.inj hstep ▸ inv_broadcast h
  | fetch => exact inv_fetch h hstep
  | collect => exact inv_collect h hstep
  | subscribe => exact inv_subscribe h hstep
  | unsubscribe => exact inv_unsubscribe h hstep
  | ping => exact inv_ping h hstep
  | read => exact inv_read h hstep
  | handle => exact inv_handle h hstep
  | serve => exact inv_serve h hstep
  | reconnect => exact inv_reconnect h hstep
  | restart => exact Option.some.inj hstep ▸ inv_restart h

theorem reachable_of_run {events : List Event}
    (h : events.foldlM (next base) (State.init base) = some s) :
    Reachable base s := by
  have hstart : Reachable base (State.init base) := .start rfl
  exact hstart.foldlM h

/-- The invariant holds in every run. -/
theorem inv_reachable (h : Reachable base s) : Inv base s :=
  h.invariant (fun _ hinit => hinit ▸ inv_init) fun a _ _ hinv hstep => inv_next hinv a hstep

end OpenWebUI.Rooms
