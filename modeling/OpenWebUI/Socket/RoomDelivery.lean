import Mathlib
import OpenWebUI.Lib.Split
import OpenWebUI.Socket.RoomChannels

/-! # Messages and joins of room channels

What the invariant of the subscriptions is for: messages for a room arrive once and in order after
a join has returned, messages for rooms nobody here entered do not arrive, and no join is lost or
stuck.
-/

namespace OpenWebUI.Rooms

variable {base : String} {s s' : State} {sid : String} {room : Room} {data : String} {a : Event}

/-! ## Messages -/

/-- What has arrived or will, in order, if the connection stays up. -/
def State.log (s : State) : List (String × String) :=
  s.received ++ messages s.inbox.toList ++ messages s.replies

@[simp] theorem messages_append (replies replies' : List Reply) :
    messages (replies ++ replies') = messages replies ++ messages replies' := List.filterMap_append

@[simp] theorem messages_nil : messages [] = [] := rfl

@[simp] theorem messages_message (channel data : String) :
    messages [.message channel data] = [(channel, data)] := rfl

/-- Answers to commands carry no message. -/
theorem messages_answers (command : Command) : messages command.answers = [] := by
  rw [messages, List.filterMap_eq_nil_iff]
  intro reply hreply
  cases command with
  | ping serial =>
      obtain rfl := List.mem_singleton.mp hreply
      rfl
  | _ channels =>
      obtain ⟨channel, -, rfl⟩ := List.mem_map.mp hreply
      rfl

theorem messages_cons (reply : Reply) (replies : List Reply) :
    messages (reply :: replies) = messages [reply] ++ messages replies :=
      messages_append [reply] replies

/-- What the steps on the connection leave as it is. -/
structure Wired (s s' : State) : Prop where
  members : s'.members = s.members
  queue : s'.queue = s.queue
  changed : s'.changed = s.changed
  waiters : s'.waiters = s.waiters
  started : s'.started = s.started
  returned : s'.returned = s.returned
  log : s'.log = s.log
  published : s'.published = s.published
  owed : s'.owed = s.owed

/-- The steps on the connection: what the listener sends and Redis answers, before a reply is
handled. -/
inductive OnWire : Event → Prop
  | subscribe : OnWire .subscribe
  | unsubscribe : OnWire .unsubscribe
  | ping : OnWire .ping
  | read : OnWire .read
  | serve : OnWire .serve

/-- A step on the connection moves replies, and that is all. -/
theorem wired_next (ha : OnWire a) (hstep : next base s a = some s') : Wired s s' := by
  cases ha with
  | subscribe =>
      simp only [next, State.subscribe] at hstep
      split at hstep
      · exact Option.some.inj hstep ▸ ⟨rfl, rfl, rfl, rfl, rfl, rfl, rfl, rfl, rfl⟩
      · cases hstep
  | unsubscribe =>
      simp only [next, State.unsubscribe] at hstep
      split at hstep
      · exact Option.some.inj hstep ▸ ⟨rfl, rfl, rfl, rfl, rfl, rfl, rfl, rfl, rfl⟩
      · cases hstep
  | ping =>
      simp only [next, State.ping] at hstep
      split at hstep
      · exact Option.some.inj hstep ▸ ⟨rfl, rfl, rfl, rfl, rfl, rfl, rfl, rfl, rfl⟩
      · cases hstep
  | read =>
      -- reading moves the head of the replies, and the log is what it was
      have hlog : ∀ reply replies, s.inbox = none → s.replies = reply :: replies →
          s.received ++ messages [reply] ++ messages replies = s.log := by
        intro reply replies hinbox hreplies
        rw [State.log, hinbox, hreplies, messages_cons reply replies, ← List.append_assoc]
        simp
      simp only [next, State.read] at hstep
      split at hstep
      -- a confirmation with an empty inbox
      · next channel replies hinbox hreplies =>
          obtain rfl := Option.some.inj hstep
          exact ⟨rfl, rfl, rfl, rfl, rfl, rfl, hlog _ _ hinbox hreplies, rfl, rfl⟩
      -- any other reply
      · next reply replies _ hinbox hreplies =>
          obtain rfl := Option.some.inj hstep
          exact ⟨rfl, rfl, rfl, rfl, rfl, rfl, hlog _ _ hinbox hreplies, rfl, rfl⟩
      · cases hstep
  | serve =>
      simp only [next, State.serve] at hstep
      split at hstep
      · cases hstep
      · next command pipe hpipe =>
          obtain rfl := Option.some.inj hstep
          refine ⟨rfl, rfl, rfl, rfl, rfl, rfl, ?_, rfl, rfl⟩
          -- the answers of a command hold no message
          simp [State.log, messages_answers]

/-- What is owed has arrived or will, and nothing arrives that was not published, or twice. -/
structure Delivery (s : State) : Prop where
  owed : s.owed.Sublist s.log
  published : s.log.Sublist s.published

/-- What leaves messages alone keeps the delivery. -/
theorem delivery_of_eq (h : Delivery s) (howed : s'.owed = s.owed) (hlog : s'.log = s.log)
    (hpublished : s'.published = s.published) : Delivery s' := by
  constructor
  · rw [howed, hlog]
    exact h.owed
  · rw [hlog, hpublished]
    exact h.published

theorem delivery_of_wired (h : Delivery s) (hwired : Wired s s') : Delivery s' :=
  delivery_of_eq h hwired.owed hwired.log hwired.published

/-- On a new connection nothing has been published yet. -/
theorem delivery_of_nil (howed : s.owed = []) (hlog : s.log = []) : Delivery s := by
  constructor
  · rw [howed]
    exact List.nil_sublist _
  · rw [hlog]
    exact List.nil_sublist _

/-- Redis sends the message of a joined room to the connection. -/
theorem mem_subscribed_of_joined (h : Inv base s) (hjoined : s.Joined room) :
    roomChannel base room ∈ s.subscribed := by
  obtain ⟨t, ht, rfl, hemptied, hdrops⟩ := hjoined
  exact (h.held t ht hemptied hdrops).2.1.mem

theorem log_message (channel : String) (published owed : List (String × String)) :
    State.log { s with
      replies := s.replies ++ [.message channel data], published := published, owed := owed } =
      s.log ++ [(channel, data)] := by
  simp [State.log]

/-- Where the room is owed the message, Redis has its channel and sends it. -/
theorem delivery_publish (hinv : Inv base s) (h : Delivery s) :
    Delivery (s.publish base room data) := by
  rw [State.publish]
  by_cases hmem : roomChannel base room ∈ s.subscribed
  · simp only [if_pos hmem]
    constructor
    · rw [log_message]
      dsimp only
      split_ifs
      · exact h.owed.append (List.Sublist.refl _)
      · exact h.owed.trans (List.sublist_append_left _ _)
    · rw [log_message]
      exact h.published.append (List.Sublist.refl _)
  · have hjoined : ¬ s.Joined room := fun hjoined => hmem (mem_subscribed_of_joined hinv hjoined)
    simp only [if_neg hmem, if_neg hjoined]
    exact ⟨h.owed, h.published.trans (List.sublist_append_left _ _)⟩

theorem delivery_broadcast (h : Delivery s) : Delivery (s.broadcast base data) := by
  rw [State.broadcast]
  by_cases hmem : base ∈ s.subscribed
  · simp only [if_pos hmem]
    constructor
    · exact (log_message (s := s) base _ s.owed).symm ▸ h.owed.trans (List.sublist_append_left _ _)
    · exact (log_message (s := s) base _ s.owed).symm ▸ h.published.append (List.Sublist.refl _)
  · simp only [if_neg hmem]
    exact ⟨h.owed, h.published.trans (List.sublist_append_left _ _)⟩

/-- Taking an event from the queue moves no message. -/
theorem delivery_fetch (h : Delivery s) (hstep : s.fetch = some s') : Delivery s' := by
  rw [State.fetch] at hstep
  split at hstep
  · obtain rfl := Option.some.inj hstep
    exact delivery_of_eq h rfl rfl rfl
  · cases hstep

theorem delivery_collect (h : Delivery s) (hstep : s.collect base = some s') : Delivery s' := by
  rw [State.collect] at hstep
  split at hstep
  · obtain rfl := Option.some.inj hstep
    exact delivery_of_eq h rfl rfl rfl
  · cases hstep

/-- A handled message moves from the inbox to what was received. -/
theorem log_handle (hstep : s.handle base = some s') : s'.log = s.log := by
  rw [State.handle] at hstep
  split at hstep
  · next channel _ hinbox =>
      obtain rfl := Option.some.inj hstep
      simp [State.log, hinbox, messages]
  · next n _ hinbox =>
      split_ifs at hstep
      all_goals
        obtain rfl := Option.some.inj hstep
        simp [State.log, hinbox, messages]
  · next channel data _ hinbox =>
      obtain rfl := Option.some.inj hstep
      simp [State.log, hinbox, messages]
  · next channel _ hinbox =>
      obtain rfl := Option.some.inj hstep
      simp [State.log, hinbox, messages]
  · cases hstep

theorem delivery_handle (h : Delivery s) (hstep : s.handle base = some s') : Delivery s' := by
  have hlog := log_handle hstep
  rw [State.handle] at hstep
  split at hstep
  · obtain rfl := Option.some.inj hstep
    exact delivery_of_eq h rfl hlog rfl
  · split_ifs at hstep
    all_goals
      obtain rfl := Option.some.inj hstep
      exact delivery_of_eq h rfl hlog rfl
  · obtain rfl := Option.some.inj hstep
    exact delivery_of_eq h rfl hlog rfl
  · obtain rfl := Option.some.inj hstep
    exact delivery_of_eq h rfl hlog rfl
  · cases hstep

/-- After a lost connection nothing is owed, and what is in the inbox counts as published. -/
theorem delivery_reconnect (hstep : s.reconnect = some s') : Delivery s' := by
  rw [State.reconnect] at hstep
  split_ifs at hstep with hguard
  obtain rfl := Option.some.inj hstep
  constructor
  · exact List.nil_sublist _
  · simp [State.log]

/-- One step, by its kind. -/
theorem delivery_next (hinv : Inv base s) (h : Delivery s) (hstep : next base s a = some s') :
    Delivery s' := by
  cases a with
  | enter sid room => exact Option.some.inj hstep ▸ delivery_of_eq h rfl rfl rfl
  | enrol sid room => exact Option.some.inj hstep ▸ delivery_of_eq h rfl rfl rfl
  | leave sid room =>
      obtain rfl := Option.some.inj hstep
      rw [State.leave]
      split_ifs <;> exact delivery_of_eq h rfl rfl rfl
  | publish room data => exact Option.some.inj hstep ▸ delivery_publish hinv h
  | broadcast data => exact Option.some.inj hstep ▸ delivery_broadcast h
  | fetch => exact delivery_fetch h hstep
  | collect => exact delivery_collect h hstep
  | subscribe => exact delivery_of_wired h (wired_next .subscribe hstep)
  | unsubscribe => exact delivery_of_wired h (wired_next .unsubscribe hstep)
  | ping => exact delivery_of_wired h (wired_next .ping hstep)
  | read => exact delivery_of_wired h (wired_next .read hstep)
  | handle => exact delivery_handle h hstep
  | serve => exact delivery_of_wired h (wired_next .serve hstep)
  | reconnect => exact delivery_reconnect hstep
  -- nothing is owed or received at the start
  | restart =>
      obtain rfl := Option.some.inj hstep
      exact delivery_of_nil rfl rfl

/-- Whatever the clients, Redis and the listener do and however often the connection is lost: what
was published to a room while a join of it had returned, its members stayed and the connection was
up arrives in order, and nothing arrives twice. -/
theorem delivery_reachable (h : Reachable base s) :
    s.owed.Sublist s.log ∧ s.log.Sublist s.published := by
  have hdelivery : Delivery s := by
    refine h.invariant_of (fun s hs => inv_reachable hs) ?_ fun a s s' hinv h hstep =>
      delivery_next hinv h hstep
    rintro s rfl
    exact delivery_of_nil rfl rfl
  exact ⟨hdelivery.owed, hdelivery.published⟩

def lobby : Room := { ns := "/", name := "lobby" }

/-- A client enters the lobby, and once the join has returned there is a message for the lobby and
one for a room nobody has entered. -/
def lobbyRun : List Event :=
  [.enter "c1" lobby, .fetch, .collect, .subscribe, .unsubscribe, .ping, .serve, .serve, .serve,
    .read, .handle, .read,
    .handle, .read, .handle, .publish lobby "hello",
      .publish { lobby with name := "other" } "unseen", .read, .handle]

theorem exists_lobbyRun :
    ∃ s, lobbyRun.foldlM (next "m") (State.init "m") = some s ∧ s.entered = [lobby] ∧
    s.owed = [("m#/#lobby", "hello")] ∧
      s.published = [("m#/#lobby", "hello"), ("m#/#other", "unseen")] := by
  have hrun :
    (lobbyRun.foldlM (next "m") (State.init "m")).map (fun s => (s.entered, s.owed, s.published)) =
      some ([lobby], [("m#/#lobby", "hello")],
        [("m#/#lobby", "hello"), ("m#/#other", "unseen")]) := by
    decide +kernel
  obtain ⟨s, hs, hvalues⟩ := Option.map_eq_some_iff.mp hrun
  simp only [Prod.mk.injEq] at hvalues
  exact ⟨s, hs, hvalues⟩

theorem delivery_reachable_lobby :
    ∃ s, Reachable "m" s ∧ s.owed = [("m#/#lobby", "hello")] ∧ s.owed.Sublist s.log ∧
      s.log.Sublist s.published := by
  obtain ⟨s, hs, -, howed, -⟩ := exists_lobbyRun
  have hreach : Reachable "m" s := reachable_of_run hs
  exact ⟨s, hreach, howed, delivery_reachable hreach⟩

/-! ## Names -/

/-- The channels of different rooms are different, as the comment of `_room_channel` says. -/
theorem roomChannel_inj {room room' : Room} (hns : '#' ∉ room.ns.toList)
    (hns' : '#' ∉ room'.ns.toList) (h : roomChannel base room = roomChannel base room') :
    room = room' := by
  have htexts : room.ns.toList ++ '#' :: room.name.toList = room'.ns.toList ++ '#' ::
    room'.name.toList := by
    have hlist := congrArg String.toList h
    simp only [roomChannel, String.toList_append, List.append_assoc] at hlist
    exact List.append_cancel_left (List.append_cancel_left hlist)
  have hparts := congrArg (Py.partitionAt '#') htexts
  rw [Py.partitionAt_append hns, Py.partitionAt_append hns', Prod.mk.injEq] at hparts
  obtain ⟨hleft, hright⟩ := hparts
  cases room
  cases room'
  rw [Room.mk.injEq]
  exact ⟨String.toList_injective hleft, String.toList_injective hright⟩

/-- The channel of a room is longer than the common one. -/
theorem roomChannel_ne_base : roomChannel base room ≠ base := by
  intro h
  have hlength := congrArg (fun text : String => text.toList.length) h
  simp [roomChannel] at hlength

/-- The common channel, or the one of a room somebody here has entered. -/
def State.Known (base : String) (s : State) (channel : String) : Prop :=
  channel = base ∨ ∃ room ∈ s.entered, channel = roomChannel base room

/-- No channel of a room that nobody here has entered occurs anywhere. -/
structure Named (base : String) (s : State) : Prop where
  members : ∀ m ∈ s.members, m.2 ∈ s.entered
  channels : ∀ c ∈ s.channels, s.Known base c
  added : ∀ wanted added, s.phase = .subscribing wanted added → ∀ c ∈ added, s.Known base c
  pipe : ∀ channels, .subscribe channels ∈ s.pipe → ∀ c ∈ channels, s.Known base c
  subscribed : ∀ c ∈ s.subscribed, s.Known base c
  log : ∀ m ∈ s.log, s.Known base m.1

theorem known_base : s.Known base base := .inl rfl

/-- What is known stays known as rooms are entered. -/
theorem State.Known.mono {channel : String} (h : s.Known base channel)
    (hentered : s.entered ⊆ s'.entered) :
    s'.Known base channel := by
  rcases h with h | ⟨room, hroom, h⟩
  · exact .inl h
  · exact .inr ⟨room, hentered hroom, h⟩

/-- At first only the common channel is named. -/
theorem named_init : Named base (State.init base) := by
  have hbase : ∀ c ∈ [base], (State.init base).Known base c := by
    intro c hc
    exact List.mem_singleton.mp hc ▸ known_base
  refine ⟨List.forall_mem_nil _, hbase, fun _ _ h => (by cases h), ?_, List.forall_mem_nil _,
    List.forall_mem_nil _⟩
  intro channels hchannels
  cases List.mem_singleton.mp hchannels
  exact hbase

/-- The room that is entered becomes known with its member. -/
theorem named_enrol (h : Named base s) : Named base (s.enrol sid room) := by
  have hentered : s.entered ⊆ (s.enrol sid room).entered := List.subset_append_left _ _
  refine
    { members := ?_
      channels := fun c hc => (h.channels c hc).mono hentered
      added := fun wanted added hphase c hc => (h.added wanted added hphase c hc).mono hentered
      pipe := fun channels hchannels c hc => (h.pipe channels hchannels c hc).mono hentered
      subscribed := fun c hc => (h.subscribed c hc).mono hentered
      log := fun m hm => (h.log m hm).mono hentered }
  intro m hm
  simp only [State.enrol] at hm ⊢
  split_ifs at hm
  · exact hentered (h.members m hm)
  · rcases List.mem_append.mp hm with hm | hm
    · exact hentered (h.members m hm)
    · exact List.mem_append_right
        _ (by rw [List.mem_singleton.mp hm]; exact List.mem_singleton_self _)

theorem named_leave (h : Named base s) : Named base (s.leave sid room) := by
  have hmembers : ∀ m ∈ s.members.filter (· ≠ (sid, room)), m.2 ∈ s.entered :=
    fun m hm => h.members m (List.mem_filter.mp hm).1
  rw [State.leave]
  split_ifs <;> exact { h with members := hmembers }

/-- Redis sends a message only on a channel the connection is subscribed to. -/
theorem named_message {channel : String} (h : Named base s) (hchannel : channel ∈ s.subscribed)
    (published owed : List (String × String)) :
    Named base { s with
      replies := s.replies ++ [.message channel data], published := published, owed := owed } := by
  refine { h with log := ?_ }
  intro m hm
  rw [log_message] at hm
  rcases List.mem_append.mp hm with hm | hm
  · exact h.log m hm
  · rw [List.mem_singleton.mp hm]
    exact h.subscribed channel hchannel

/-- A message goes only to a channel that is subscribed, and so known. -/
theorem named_publish (h : Named base s) : Named base (s.publish base room data) := by
  rw [State.publish]
  split_ifs with hmem
  · exact named_message h hmem _ _
  · exact named_message h hmem _ _
  · exact { h with }
  · exact { h with }

theorem named_broadcast (h : Named base s) : Named base (s.broadcast base data) := by
  rw [State.broadcast]
  split_ifs with hmem
  · exact named_message h hmem _ s.owed
  · exact { h with }

/-- What is wanted is the common channel or that of a member. -/
theorem known_of_mem_wanted {channel : String} (h : Named base s)
    (hchannel : channel ∈ s.wanted base) :
    s.Known base channel := by
  rcases List.mem_cons.mp (List.mem_dedup.mp hchannel) with rfl | hchannel
  · exact known_base
  · obtain ⟨m, hm, rfl⟩ := List.mem_map.mp hchannel
    exact .inr ⟨m.2, h.members m hm, rfl⟩

/-- The channels to add are wanted. -/
theorem named_collect (h : Named base s) (hstep : s.collect base = some s') : Named base s' := by
  rw [State.collect] at hstep
  split at hstep
  · obtain rfl := Option.some.inj hstep
    refine { h with added := ?_ }
    intro wanted added hphase c hc
    cases hphase
    have hknown : s.Known base c := known_of_mem_wanted h (List.mem_filter.mp hc).1
    exact hknown
  · cases hstep

/-- The channels on their way are those that were to be added. -/
theorem named_subscribe (h : Named base s) (hstep : s.subscribe = some s') : Named base s' := by
  rw [State.subscribe] at hstep
  split at hstep
  · next wanted added hphase =>
      obtain rfl := Option.some.inj hstep
      refine
        { members := h.members
          channels := ?_
          added := fun _ _ hphase' => by cases hphase'
          pipe := ?_
          subscribed := h.subscribed
          log := h.log }
      · intro c hc
        -- a channel listed before, or one the round adds
        rcases List.mem_union_iff.mp hc with hc | hc
        · exact h.channels c hc
        · exact h.added wanted added hphase c hc
      · intro channels hchannels
        dsimp only at hchannels
        split_ifs at hchannels
        · exact h.pipe channels hchannels
        · rcases List.mem_append.mp hchannels with hchannels | hchannels
          · exact h.pipe channels hchannels
          · cases List.mem_singleton.mp hchannels
            exact h.added wanted added hphase
  · cases hstep

theorem named_unsubscribe (h : Named base s) (hstep : s.unsubscribe = some s') : Named base s' := by
  rw [State.unsubscribe] at hstep
  split at hstep
  · obtain rfl := Option.some.inj hstep
    refine { h with added := fun _ _ hphase' => (by cases hphase'), pipe := ?_ }
    intro channels hchannels
    dsimp only at hchannels
    split_ifs at hchannels
    · exact h.pipe channels hchannels
    · exact h.pipe channels (by simpa using hchannels)
  · cases hstep

theorem named_ping (h : Named base s) (hstep : s.ping = some s') : Named base s' := by
  rw [State.ping] at hstep
  split at hstep
  · obtain rfl := Option.some.inj hstep
    refine { h with added := fun _ _ hphase' => (by cases hphase'), pipe := ?_ }
    intro channels hchannels
    exact h.pipe channels (by simpa using hchannels)
  · cases hstep

theorem named_serve (h : Named base s) (hstep : s.serve = some s') : Named base s' := by
  have hnext : next base s .serve = some s' := hstep
  have hlog := (wired_next .serve hnext).log
  rw [State.serve] at hstep
  split at hstep
  · cases hstep
  · next command pipe hpipe =>
      obtain rfl := Option.some.inj hstep
      refine
        { members := h.members
          channels := h.channels
          added := h.added
          pipe := fun channels hchannels =>
            h.pipe channels (hpipe ▸ List.mem_cons_of_mem _ hchannels)
          subscribed := ?_
          log := fun m hm => h.log m (hlog ▸ hm) }
      intro c hc
      cases command with
      -- Redis subscribes only what a command in the pipe names
      | subscribe channels =>
          rcases List.mem_union_iff.mp hc with hc | hc
          · exact h.subscribed c hc
          · exact h.pipe channels (hpipe ▸ List.mem_cons_self) c hc
      | unsubscribe channels => exact h.subscribed c (List.mem_filter.mp hc).1
      | ping serial => exact h.subscribed c hc

theorem named_read (h : Named base s) (hstep : s.read = some s') : Named base s' := by
  have hnext : next base s .read = some s' := hstep
  have hlog := (wired_next .read hnext).log
  rw [State.read] at hstep
  split at hstep
  · next channel replies hinbox hreplies =>
      obtain rfl := Option.some.inj hstep
      refine { h with channels := ?_, log := fun m hm => h.log m (hlog ▸ hm) }
      intro c hc
      dsimp only at hc
      split_ifs at hc
      · exact h.channels c (List.mem_filter.mp hc).1
      · exact h.channels c hc
  · next reply replies _ hinbox hreplies =>
      obtain rfl := Option.some.inj hstep
      exact { h with log := fun m hm => h.log m (hlog ▸ hm) }
  · cases hstep

theorem named_handle (h : Named base s) (hstep : s.handle base = some s') : Named base s' := by
  have hlog := log_handle hstep
  rw [State.handle] at hstep
  split at hstep
  · next channel _ hinbox =>
      obtain rfl := Option.some.inj hstep
      refine { h with pipe := ?_, log := fun m hm => h.log m (hlog ▸ hm) }
      intro channels hchannels
      dsimp only at hchannels
      split_ifs at hchannels
      · exact h.pipe channels (by simpa using hchannels)
      · exact h.pipe channels hchannels
  · split_ifs at hstep
    all_goals
      obtain rfl := Option.some.inj hstep
      exact { h with log := fun m hm => h.log m (hlog ▸ hm) }
  · obtain rfl := Option.some.inj hstep
    exact { h with log := fun m hm => h.log m (hlog ▸ hm) }
  · obtain rfl := Option.some.inj hstep
    exact { h with log := fun m hm => h.log m (hlog ▸ hm) }
  · cases hstep

/-- The channels of the books are subscribed to again, and no others. -/
theorem named_reconnect (h : Named base s) (hstep : s.reconnect = some s') : Named base s' := by
  rw [State.reconnect] at hstep
  split_ifs at hstep with hguard
  obtain rfl := Option.some.inj hstep
  refine
    { members := h.members
      channels := h.channels
      added := h.added
      pipe := ?_
      subscribed := fun c hc => (by cases hc)
      log := ?_ }
  · intro channels hchannels
    cases List.mem_singleton.mp hchannels
    exact h.channels
  · intro m hm
    refine h.log m ?_
    simp only [State.log, messages_nil, List.append_nil, List.nil_append] at hm
    exact List.mem_append_left _ (List.mem_append_right _ hm)

/-- One step, by its kind. -/
theorem named_next (h : Named base s) (hstep : next base s a = some s') : Named base s' := by
  cases a with
  | enter sid room => exact Option.some.inj hstep ▸ { named_enrol h with }
  | enrol sid room => exact Option.some.inj hstep ▸ named_enrol h
  | leave sid room => exact Option.some.inj hstep ▸ named_leave h
  | publish room data => exact Option.some.inj hstep ▸ named_publish h
  | broadcast data => exact Option.some.inj hstep ▸ named_broadcast h
  | fetch =>
      simp only [next, State.fetch] at hstep
      split at hstep
      · exact Option.some.inj hstep ▸ { h with }
      · cases hstep
  | collect => exact named_collect h hstep
  | subscribe => exact named_subscribe h hstep
  | unsubscribe => exact named_unsubscribe h hstep
  | ping => exact named_ping h hstep
  | read => exact named_read h hstep
  | handle => exact named_handle h hstep
  | serve => exact named_serve h hstep
  | reconnect => exact named_reconnect h hstep
  | restart =>
      obtain rfl := Option.some.inj hstep
      have hbase : ∀ c ∈ [base], (s.restart base).Known base c := by
        intro c hc
        exact List.mem_singleton.mp hc ▸ known_base
      refine ⟨h.members, hbase, fun _ _ hphase => (by cases hphase), ?_, List.forall_mem_nil _,
        List.forall_mem_nil _⟩
      intro channels hchannels
      cases List.mem_singleton.mp hchannels
      exact hbase

/-- No run names a channel of a room that nobody has entered. -/
theorem named_reachable (h : Reachable base s) : Named base s := by
  refine h.invariant ?_ fun a s s' h hstep => named_next h hstep
  rintro s rfl
  exact named_init

/-- Messages for a room nobody on this instance has entered are never sent to it: their packets
need no decoding. The rooms are those of namespaces without `#`. -/
theorem silent_of_not_entered (h : Reachable base s)
    (hentered : ∀ room ∈ s.entered, '#' ∉ room.ns.toList) (hns : '#' ∉ room.ns.toList)
    (hroom : room ∉ s.entered) : (roomChannel base room, data) ∉ s.log := by
  intro hmem
  rcases (named_reachable h).log _ hmem with hbase | ⟨room', hroom', hchannel⟩
  · exact roomChannel_ne_base hbase
  · rw [roomChannel_inj hns (hentered room' hroom') hchannel] at hroom
    exact hroom hroom'

theorem silent_of_not_entered_lobby : ∃ s, Reachable "m" s ∧ ("m#/#other", "unseen") ∈ s.published ∧
    ("m#/#other", "unseen") ∉ s.log := by
  obtain ⟨s, hs, hentered, -, hpublished⟩ := exists_lobbyRun
  have hreach : Reachable "m" s := reachable_of_run hs
  refine ⟨s, hreach, by simp [hpublished], ?_⟩
  have hns : ∀ room ∈ s.entered, '#' ∉ room.ns.toList := by
    rw [hentered]
    decide
  have hother : ({ lobby with name := "other" } : Room) ∉ s.entered := by
    rw [hentered]
    decide
  exact silent_of_not_entered hreach hns (by decide) hother

end OpenWebUI.Rooms
