import OpenWebUI.Lib.Base64
import OpenWebUI.Lib.Json
import OpenWebUI.Lib.Program

/-! # The encryption relay

`backend/open_webui/socket/encryption.py`: the registry of live encrypted sessions, one
per channel, and the relay that forwards opaque packets between their members. Several
workers share the registry; each keeps the channels of its own sockets in memory.

A request runs inside one registry transaction. What the database and the
configuration say at that moment (authorisation, eligibility, channel membership, the
rate limit, the clock, the fresh identifiers) is its environment.
-/

namespace OpenWebUI.Encryption

open Py Program

def maxPacket : ℕ := 1024 * 1024

def ttl : ℚ := 90

/-! ## State -/

/-- A participation's entry in `state['members']`. -/
structure Member where
  sid : String
  user : String
  name : String
  key : Option String
  seen : ℚ
  out : ℕ
  admitted : Bool

/-- The registry's value for a channel. -/
structure Session where
  channel : String
  session : String
  host : String
  members : Dict String Member
  expires : ℚ

/-- An entry of `bindings` in `view`. -/
structure Binding where
  channel : String
  session : String
  user : String
  participation : String
  key : String

/-- An entry of `participants` in `view`. -/
structure Participant where
  participation : String
  user : String
  name : String

structure View where
  channel : String
  session : String
  host : String
  bindings : List Binding
  participants : List Participant

/-- What an `encryption:event` says beyond the view and the sequence number. -/
inductive Body where
  | candidate (sender packet : String)
  | mls (sender packet : String)
  | welcome (sender packet : String)
  | departed (participation : String) (admitted : Bool)

/-- A message of the relay. An event remembers the participation it was delivered to. -/
inductive Emission where
  | event (participation sid : String) (body : Body) (view : View) (sequence : ℕ)
  | ended (sid channel : String) (session : Option String)
  | available (channel : String) (session : Option String)

/-- The registry, each worker's `local`, everything emitted and every participation handed
out so far. -/
structure World where
  registry : String → Option Session
  locals : String → Dict String String
  emitted : List Emission
  issued : List String
  clock : ℚ

/-- What one request finds around it. -/
structure Env where
  worker : String
  now : ℚ
  /-- `authorize`: the user of a socket that may use the channel. -/
  authorize : String → String → Option String
  /-- `len(json.dumps(data))`. -/
  size : Obj → ℕ
  /-- `limit`. -/
  allowed : Bool
  /-- `eligible_users`: the names of the users that may take part. -/
  eligible : String → Option String
  /-- The users that are active channel members. -/
  active : String → Bool
  /-- `Channels.is_user_channel_member`. -/
  channelMember : String → Bool
  /-- `uuid4()`, for the participation and for the session. -/
  freshParticipation : String
  freshSession : String

/-- `Rejected`, or any other exception. -/
inductive Failure where
  | rejected
  | raised
deriving DecidableEq

/-- A handler of the relay. -/
abbrev Handler := Prog World Failure

def require (c : Prop) [Decidable c] : Handler Unit := ensure .rejected c

/-- The value, or `Rejected` when there is none. -/
def demand {α : Type} (o : Option α) : Handler α := ofOption .rejected o

/-- `packet`: a nonempty base64 text of bounded size. -/
def packet : Json → Handler String
  | .str s => do
    require (0 < s.length ∧ s.length ≤ (maxPacket + 2) / 3 * 4)
    let decoded ← demand (b64decode s)
    require (0 < decoded.length ∧ decoded.length ≤ maxPacket)
    return s
  | _ => throw .rejected

/-- `state['members'].get(id)`; looking up an unhashable id raises. -/
def memberAt (s : Session) : Json → Handler (Option (String × Member))
  | .str id => pure ((s.members.get? id).map fun m => (id, m))
  | .arr _ => throw .raised
  | .obj _ => throw .raised
  | _ => pure none

/-! ## Registry and emissions -/

/-- The state a transaction on the channel reads. -/
def World.live (w : World) (channel : String) : Option Session :=
  (w.registry channel).filter fun s => decide (w.clock < s.expires)

def World.store (w : World) (channel : String) (s : Option Session) : World :=
  { w with registry := fun c => if c = channel then s else w.registry c }

def World.emit (w : World) (es : List Emission) : World := { w with emitted := w.emitted ++ es }

/-- `self.local[sid] = channel` or, with `none`, `self.local.pop(sid, None)`. -/
def World.setLocal (w : World) (worker sid : String) (channel : Option String) : World :=
  { w with locals := fun v => if v = worker then
      match channel with
      | some c => (w.locals v).set sid c
      | none => (w.locals v).erase sid
    else w.locals v }

/-- `state['expires'] = time.time() + TTL`. -/
def Session.renew (env : Env) (s : Session) : Session := { s with expires := env.now + ttl }

/-- `save` of a state that is not `None`. -/
def save (env : Env) (s : Session) : Handler Session := do
  modify fun w => w.store s.channel (some (s.renew env))
  return s.renew env

def view (s : Session) : View where
  channel := s.channel
  session := s.session
  host := s.host
  bindings := s.members.entries.filterMap fun e => (e.2.key.filter (· ≠ "")).map fun key =>
    ⟨s.channel, s.session, e.2.user, e.1, key⟩
  participants := s.members.entries.map fun e => ⟨e.1, e.2.user, e.2.name⟩

/-- `invite`: tells the channel's room that a session is available, or none. -/
def invite (session : Option String) (channel : String) : Handler Unit :=
  modify fun w => w.emit [.available channel session]

/-- The recipient of one event: its participation, its socket and the sequence number. -/
structure Target where
  participation : String
  sid : String
  sequence : ℕ

/-- The loop of `deliver` over the recipients; `none` for an unknown one. -/
def bump (s : Session) : List String → Option (Session × List Target)
  | [] => some (s, [])
  | pid :: rest => do
    let member ← s.members.get? pid
    let member := { member with out := member.out + 1 }
    let (s', targets) ← bump { s with members := s.members.set pid member } rest
    return (s', ⟨pid, member.sid, member.out⟩ :: targets)

def deliver (env : Env) (s : Session) (recipients : List String) (body : Body) : Handler Session :=
  match bump s recipients with
  | none => throw .raised
  | some (s, targets) => do
    let s ← save env s
    modify fun w => w.emit (targets.map fun t =>
      .event t.participation t.sid body (view s) t.sequence)
    return s

/-- `close`. -/
def close (env : Env) (channel : String) (s : Option Session) : Handler Unit := do
  modify fun w => w.store channel none
  modify fun w => ((s.map fun s => s.members.entries).getD []).foldl (fun w e =>
    (w.setLocal env.worker e.2.sid none).emit
      [.ended e.2.sid channel (s.map Session.session)]) w
  invite none channel

/-- The participations that are admitted. -/
def admitted (s : Session) : List String :=
  (s.members.entries.filter fun e => e.2.admitted).map Prod.fst

/-- One departure: the socket is told, then every admitted member. -/
def depart (env : Env) (s : Session) (e : String × Member) : Handler Session := do
  modify fun w => (w.setLocal env.worker e.2.sid none).emit
    [.ended e.2.sid s.channel (some s.session)]
  deliver env s (admitted s) (.departed e.1 e.2.admitted)

/-- `remove`: a leaving host ends the session. Every removed member is taken out before any
departure is announced. -/
def remove (env : Env) (s : Session) (pids : List String) : Handler (Option Session) :=
  if s.host ∈ pids then do
    close env s.channel (some s)
    return none
  else
    match pids.mapM fun pid => (s.members.get? pid).map fun m => (pid, m) with
    | none => throw .raised
    | some removed => do
      let s ← removed.foldlM (depart env) { s with members := pids.foldl Dict.erase s.members }
      return some s

/-- The participations that timed out or lost their access. -/
def stale (env : Env) (s : Session) : List String :=
  (s.members.entries.filter fun e => decide (e.2.seen < env.now - 45) || !env.active e.2.user ||
    (env.eligible e.2.user).isNone).map Prod.fst

def prune (env : Env) : Option Session → Handler (Option Session)
  | none => return none
  | some s =>
    if s.host ∈ stale env s then do
      close env s.channel (some s)
      return none
    else if stale env s ≠ [] then remove env s (stale env s)
    else return some s

/-! ## Requests -/

inductive Action where
  | start
  | status
  | join
  | bind
  | packet
  | leave
  | ping
deriving DecidableEq

/-- The answer to an accepted request. -/
inductive Reply where
  | status (session : Option String) (available : Bool)
  | entered (view : View) (participation : String)
  | left
  | ok (view : View)

/-- The key of a member, when it has one that is not empty. -/
def Member.boundKey (m : Member) : Option String := m.key.filter (· ≠ "")

/-- `state['members'][state['host']]`. -/
def hostMember (s : Session) : Handler Member :=
  match s.members.get? s.host with
  | none => throw .raised
  | some m => pure m

/-- Another worker may have ended the session this socket was in. -/
def forgetEnded (env : Env) (sid channel : String) (state : Option Session) : Handler Unit :=
  modify fun w =>
    if (w.locals env.worker).get? sid = some channel ∧
        ¬ (state.map fun s => s.members.entries.any fun e => e.2.sid = sid).getD false then
      w.setLocal env.worker sid none
    else w

/-- The new member of a session; only the host starts admitted. -/
def enter (env : Env) (start : Bool) (sid user name channel : String) (s : Session) :
    Handler Reply := do
  modify fun w => { w with issued := env.freshParticipation :: w.issued }
  let member : Member := ⟨sid, user, name, none, env.now, 0, start⟩
  modify fun w => w.setLocal env.worker sid (some channel)
  let s ← save env { s with members := s.members.set env.freshParticipation member }
  return .entered (view s) env.freshParticipation

/-- `reserve`, for `start` and `join`. -/
def reserve (env : Env) (start : Bool) (sid user name channel : String) (data : Obj)
    (state : Option Session) : Handler Reply := do
  forgetEnded env sid channel state
  let w ← get
  require ((w.locals env.worker).get? sid = none)
  match start, state with
  | true, none =>
    enter env true sid user name channel ⟨channel, env.freshSession, env.freshParticipation, ∅, 0⟩
  | false, some s =>
    require (data.get "session" = .str s.session)
    require (s.members.size < 128 ∧ ¬ s.members.entries.any fun e => e.2.user = user)
    let host ← hostMember s
    require host.boundKey.isSome
    enter env false sid user name channel s
  | _, _ => throw .rejected

/-- `bind`. -/
def bind (env : Env) (s : Session) (pid : String) (member : Member) (data : Obj) :
    Handler Session := do
  require (member.key = none)
  let key ← packet (data.get "key")
  require ((b64decode key).map List.length = some 32)
  let s := { s with members := s.members.modify pid fun m => { m with key := some key } }
  if pid ≠ s.host then
    let kp ← packet (data.get "packet")
    deliver env s [s.host] (.candidate pid kp)
  else
    let s ← save env s
    invite (some s.session) s.channel
    return s

/-- The admitted members other than the sender. -/
def others (s : Session) (pid : String) : List String := (admitted s).filter fun i => i ≠ pid

/-- `forward`. -/
def forward (env : Env) (s : Session) (pid : String) (member : Member) (data : Obj) :
    Handler Session := do
  require (member.boundKey.isSome ∧ member.admitted)
  let body ← packet (data.get "packet")
  if data.get "kind" = .str "admit" then
    require (pid = s.host)
    let (target, joining) ← demand (← memberAt s (data.get "target"))
    require (joining.boundKey.isSome ∧ ¬ joining.admitted)
    let welcome ← packet (data.get "welcome")
    let existing := others s pid
    let s := { s with members := s.members.modify target fun m => { m with admitted := true } }
    let s ← deliver env s existing (.mls pid body)
    deliver env s [target] (.welcome pid welcome)
  else
    require (data.get "kind" = .str "mls")
    deliver env s (others s pid) (.mls pid body)

/-- A request of a participant: the checks on its session and participation, then the
action. -/
def participate (env : Env) (action : Action) (sid user channel : String) (data : Obj)
    (state : Option Session) : Handler Reply := do
  let s ← demand state
  let w ← get
  require (data.get "session" = .str s.session ∧ (w.locals env.worker).get? sid = some channel)
  let (pid, member) ← demand (← memberAt s (data.get "participation"))
  require (member.sid = sid ∧ member.user = user)
  let s := { s with members := s.members.modify pid fun m => { m with seen := env.now } }
  match action with
  | .leave =>
    let _ ← remove env s [pid]
    return .left
  | .bind => return .ok (view (← bind env s pid member data))
  | .ping => return .ok (view (← save env s))
  | .packet => return .ok (view (← forward env s pid member data))
  | _ => throw .rejected

/-- The body of `handle`, inside the transaction. -/
def transact (env : Env) (action : Action) (sid user channel : String) (data : Obj) :
    Handler Reply := do
  let w ← get
  let state ← prune env (w.live channel)
  let name ← demand (env.eligible user)
  require (env.channelMember user)
  match action with
  | .status =>
    match state with
    | none => return .status none false
    | some s => return .status (some s.session) (← hostMember s).boundKey.isSome
  | .start => reserve env true sid user name channel data state
  | .join => reserve env false sid user name channel data state
  | _ => participate env action sid user channel data state

/-- The checks of `handle` before the transaction. -/
def accept (env : Env) (sid : String) (data : Json) : Option (String × String × Obj) := do
  let data ← data.asObj
  let channel ← (data.get "channel").asStr
  guard (0 < channel.length ∧ channel.length ≤ 128)
  guard (env.size data ≤ 3 * maxPacket)
  let user ← env.authorize sid channel
  guard env.allowed
  return (channel, user, data)

/-- `fail_local`: the worker forgets the channel's sockets; the registry is not touched. -/
def World.failLocal (w : World) (worker channel : String) : World :=
  (((w.locals worker).entries.filter fun e => e.2 = channel).foldl (fun w e =>
    (w.setLocal worker e.1 none).emit [.ended e.1 channel none]) w)

/-- `handle`. -/
def handle (env : Env) (action : Action) (sid : String) (data : Json) (w : World) :
    World × Option Reply :=
  match accept env sid data with
  | none => (w, none)
  | some (channel, user, data) =>
    match (transact env action sid user channel data).exec w with
    | (.ok reply, w) => (w, some reply)
    | (.error .rejected, w) => (w, none)
    | (.error .raised, w) => (w.failLocal env.worker channel, none)

/-- `disconnect`. -/
def disconnect (env : Env) (sid : String) (w : World) : World :=
  match (w.locals env.worker).get? sid with
  | none => w
  | some channel =>
    let w := w.setLocal env.worker sid none
    match w.live channel with
    | none => w
    | some s =>
      match s.members.entries.find? fun e => e.2.sid = sid with
      | none => w
      | some e =>
        match (remove env s [e.1]).exec w with
        | (.ok _, w) => w
        | (.error _, w) => w.failLocal env.worker channel

/-- `invalidate`: a change of the channel's access ends the session. -/
def invalidate (env : Env) (channel : String) (w : World) : World :=
  match (close env channel (w.live channel)).exec w with
  | (.ok _, w) => w
  | (.error _, w) => w.failLocal env.worker channel

/-- One turn of `sweep`. -/
def sweep (env : Env) (channel : String) (w : World) : World :=
  match w.live channel with
  | none => w.failLocal env.worker channel
  | some s =>
    match (prune env (some s)).exec w with
    | (.ok _, w) => w
    | (.error _, w) => w.failLocal env.worker channel

/-- Expired values are dropped, by the sweep or by the store itself. -/
def expire (channel : String) (w : World) : World :=
  if (w.live channel).isNone then w.store channel none else w

end OpenWebUI.Encryption
