import Mathlib
import OpenWebUI.Socket.RoomRest

/-! # Rounds of room channels

The listener and Redis alone bring every state to rest: all joins have returned, and Redis has the
channels of the occupied rooms and no others.
-/

namespace OpenWebUI.Rooms

variable {base : String} {s s' : State} {sid : String} {room : Room} {data : String} {a : Event}

/-! ## No join is stuck -/

/-- The steps of the listener and of Redis on a connection that stays up. -/
inductive Internal : Event → Prop
  | fetch : Internal .fetch
  | collect : Internal .collect
  | subscribe : Internal .subscribe
  | unsubscribe : Internal .unsubscribe
  | ping : Internal .ping
  | read : Internal .read
  | handle : Internal .handle
  | serve : Internal .serve

/-- What the listener and Redis can bring about by themselves. -/
def Leads (base : String) : State → State → Prop :=
  Relation.ReflTransGen fun s s' => ∃ a, Internal a ∧ next base s a = some s'

theorem Reachable.leads (h : Reachable base s) (hleads : Leads base s s') : Reachable base s' := by
  induction hleads with
  | refl => exact h
  | tail _ hstep ih =>
      obtain ⟨a, -, hnext⟩ := hstep
      exact .next ih hnext

/-! ## Draining the connection -/

/-- The steps a reply still causes, once it is read. -/
def Reply.weight : Reply → ℕ
  | .subscribed _ => 6
  | _ => 2

/-- The steps a command still causes. -/
def Command.weight : Command → ℕ
  | .subscribe channels => 1 + 7 * channels.length
  | .unsubscribe channels => 1 + 3 * channels.length
  | .ping _ => 4

/-- The steps all commands and replies still cause. -/
def State.load (s : State) : ℕ :=
  (s.pipe.map Command.weight).sum + (s.replies.map fun reply => reply.weight + 1).sum +
    (s.inbox.toList.map Reply.weight).sum

/-- A command outweighs its answers, so the load falls when it is executed. -/
theorem weight_answers (command : Command) :
    (command.answers.map fun reply => reply.weight + 1).sum < command.weight := by
  cases command with
  | ping serial => exact Nat.lt_succ_self 3
  | subscribe channels =>
      simp [Command.answers, Command.weight, Reply.weight, Function.comp_def]
      omega
  | unsubscribe channels =>
      simp [Command.answers, Command.weight, Reply.weight, Function.comp_def]
      omega

/-- What the steps between two rounds leave as it is. Only the answers to subscriptions ask for a
round. -/
structure Drained (s s' : State) : Prop where
  phase : s'.phase = .idle
  members : s'.members = s.members
  changed : s'.changed = s.changed
  listed : ∀ c, s'.Listed c ↔ s.Listed c
  calm : Calm s → Calm s' ∧ s'.queue = s.queue

/-- Draining goes on. -/
theorem Drained.trans {s'' : State} (h : Drained s s') (h' : Drained s' s'') : Drained s s'' where
  phase := h'.phase
  members := h'.members.trans h.members
  changed := h'.changed.trans h.changed
  listed := fun c => (h'.listed c).trans (h.listed c)
  calm := by
    intro hcalm
    obtain ⟨hcalm', hqueue⟩ := h.calm hcalm
    obtain ⟨hcalm'', hqueue'⟩ := h'.calm hcalm'
    exact ⟨hcalm'', hqueue'.trans hqueue⟩

/-- A handled reply is gone; what it sends is lighter. -/
theorem drain_handle (hstep : s.handle base = some s') : s'.load < s.load ∧ Drained s s' := by
  have hcalm : Calm s → Calm { s with inbox := none } := by
    intro hcalm
    exact ⟨hcalm.pipe, hcalm.replies, fun c hc => by cases hc⟩
  rw [State.handle] at hstep
  split at hstep
  -- a dropped channel: the base channel pings again, which weighs less than the reply
  · next channel hphase hinbox =>
      obtain rfl := Option.some.inj hstep
      refine ⟨?_, hphase, rfl, rfl, fun c => Iff.rfl, fun h => absurd hinbox (h.inbox channel)⟩
      by_cases hbase : channel = base
      · simp [State.load, hinbox, hbase, Command.weight, Reply.weight]
        omega
      · simp [State.load, hinbox, hbase, Reply.weight]
  -- a pong, of this round or of an earlier one
  · next n hphase hinbox =>
      split_ifs at hstep
      all_goals
        obtain rfl := Option.some.inj hstep
        refine ⟨?_, hphase, rfl, rfl, fun c => Iff.rfl, fun h => ⟨{ hcalm h with }, rfl⟩⟩
        simp [State.load, hinbox, Reply.weight]
  -- a message
  · next channel data hphase hinbox =>
      obtain rfl := Option.some.inj hstep
      refine ⟨?_, hphase, rfl, rfl, fun c => Iff.rfl, fun h => ⟨{ hcalm h with }, rfl⟩⟩
      simp [State.load, hinbox, Reply.weight]
  -- a confirmation
  · next channel hphase hinbox =>
      obtain rfl := Option.some.inj hstep
      refine ⟨?_, hphase, rfl, rfl, fun c => Iff.rfl, fun h => ⟨hcalm h, rfl⟩⟩
      simp [State.load, hinbox, Reply.weight]
  · cases hstep

/-- Reading a reply leaves fewer on their way. -/
theorem calm_read {reply : Reply} {replies : List Reply} (h : Calm s)
    (hreplies : s.replies = reply :: replies) :
    Calm { s with inbox := some reply, replies := replies } where
  pipe := h.pipe
  replies := fun c hc => h.replies c (hreplies ▸ List.mem_cons_of_mem _ hc)
  inbox := by
    intro c hc
    cases hc
    exact h.replies c (hreplies ▸ List.mem_cons_self)

/-- Handling a reply moves no client. -/
theorem members_handle (hstep : s.handle base = some s') : s'.members = s.members :=
  (drain_handle hstep).2.members

/-- A reply in the inbox is lighter than one on its way. -/
theorem drain_read (hphase : s.phase = .idle) (hstep : s.read = some s') :
    s'.load < s.load ∧ Drained s s' := by
  rw [State.read] at hstep
  split at hstep
  · next channel replies hinbox hreplies =>
      obtain rfl := Option.some.inj hstep
      refine ⟨?_, hphase, rfl, rfl, fun c => listed_read channel,
        fun h => ⟨{ calm_read h hreplies with }, rfl⟩⟩
      simp [State.load, hinbox, hreplies, Reply.weight]
      omega
  · next reply replies _ hinbox hreplies =>
      obtain rfl := Option.some.inj hstep
      refine ⟨?_, hphase, rfl, rfl, fun c => Iff.rfl, fun h => ⟨calm_read h hreplies, rfl⟩⟩
      simp [State.load, hinbox, hreplies]
      omega
  · cases hstep

/-- The answers are lighter than the command. -/
theorem drain_serve (hphase : s.phase = .idle) (hstep : s.serve = some s') :
    s'.load < s.load ∧ Drained s s' := by
  rw [State.serve] at hstep
  split at hstep
  · cases hstep
  · next command pipe hpipe =>
      obtain rfl := Option.some.inj hstep
      refine ⟨?_, hphase, rfl, rfl, fun c => Iff.rfl, fun h => ⟨?_, rfl⟩⟩
      -- the answers of a command weigh less than the command
      · have hweight := weight_answers command
        simp only [State.load, hpipe, List.map_append, List.sum_append,
          List.map_cons, List.sum_cons]
        omega
      · refine ⟨fun channels hchannels =>
          h.pipe channels (hpipe ▸ List.mem_cons_of_mem _ hchannels), ?_, h.inbox⟩
        -- no confirmation is answered: the commands left subscribe nothing
        intro c hc
        rcases List.mem_append.mp hc with hc | hc
        · exact h.replies c hc
        · cases command with
          | subscribe channels =>
              obtain rfl := h.pipe channels (hpipe ▸ List.mem_cons_self)
              cases hc
          | unsubscribe channels => simp [Command.answers] at hc
          | ping serial => simp [Command.answers] at hc

/-- Every reply can be handled while no round is going on. -/
theorem exists_handle {reply : Reply} (hphase : s.phase = .idle) (hinbox : s.inbox = some reply) :
    ∃ s', s.handle base = some s' := by
  simp only [State.handle, hphase, hinbox]
  cases reply with
  | pong serial =>
      by_cases hserial : serial = s.serial
      · simp only [if_pos hserial]
        exact ⟨_, rfl⟩
      · simp only [if_neg hserial]
        exact ⟨_, rfl⟩
  | _ => exact ⟨_, rfl⟩

theorem exists_read {reply : Reply} {replies : List Reply} (hinbox : s.inbox = none)
    (hreplies : s.replies = reply :: replies) :
    ∃ s', s.read = some s' := by
  simp only [State.read, hinbox, hreplies]
  cases reply <;> exact ⟨_, rfl⟩

/-- Between two rounds everything on its way can be dealt with. -/
theorem drain (base : String) {s : State} (hphase : s.phase = .idle) :
    ∃ s', Leads base s s' ∧ s'.Quiet ∧ Drained s s' := by
  by_cases hquiet : s.Quiet
  · exact ⟨s, .refl, hquiet, hphase, rfl, rfl, fun c => Iff.rfl, fun h => ⟨h, rfl⟩⟩
  -- some step is possible: the inbox goes first, then the replies, then the pipe
  · have hstep : ∃ a s', Internal a ∧ next base s a = some s' ∧ s'.load < s.load ∧
      Drained s s' := by
      cases hinbox : s.inbox with
      | some reply =>
          obtain ⟨s', hnext⟩ : ∃ s', s.handle base = some s' := exists_handle hphase hinbox
          exact ⟨.handle, s', .handle, hnext, drain_handle hnext⟩
      | none =>
          cases hreplies : s.replies with
          | cons reply replies =>
              obtain ⟨s', hnext⟩ := exists_read hinbox hreplies
              exact ⟨.read, s', .read, hnext, drain_read hphase hnext⟩
          | nil =>
              cases hpipe : s.pipe with
              | cons command pipe =>
                  obtain ⟨s', hnext⟩ : ∃ s', s.serve = some s' := by
                    simp only [State.serve, hpipe]
                    exact ⟨_, rfl⟩
                  exact ⟨.serve, s', .serve, hnext, drain_serve hphase hnext⟩
              | nil => exact absurd ⟨hpipe, hreplies, hinbox⟩ hquiet
    obtain ⟨a, s₁, ha, hnext, hlt, hdrained⟩ := hstep
    -- what is left weighs less
    obtain ⟨s', hleads, hquiet', hdrained'⟩ := drain base hdrained.phase
    exact ⟨s', .head ⟨a, ha, hnext⟩ hleads, hquiet', hdrained.trans hdrained'⟩
termination_by s.load
decreasing_by exact hlt

/-! ## Rounds -/

/-- What sending a command leaves as it is. -/
structure Sent (s s' : State) : Prop where
  members : s'.members = s.members
  queue : s'.queue = s.queue
  changed : s'.changed = s.changed

theorem Sent.trans {s'' : State} (h : Sent s s') (h' : Sent s' s'') : Sent s s'' where
  members := h'.members.trans h.members
  queue := h'.queue.trans h.queue
  changed := h'.changed.trans h.changed

/-- A command that subscribes to nothing keeps the calm. -/
theorem Calm.send {command : Command} (h : Calm s)
    (hcommand : ∀ channels, command = .subscribe channels → channels = []) :
    Calm { s with pipe := s.pipe ++ [command] } where
  pipe := by
    intro channels hchannels
    rcases List.mem_append.mp hchannels with hchannels | hchannels
    · exact h.pipe channels hchannels
    · exact hcommand channels (List.mem_singleton.mp hchannels).symm
  replies := h.replies
  inbox := h.inbox

/-- The first half of a round, which lists the added channels. -/
theorem exists_subscribe {wanted added : List String}
    (hphase : s.phase = .subscribing wanted added) :
    ∃ s', s.subscribe = some s' ∧ s'.phase = .unsubscribing wanted ∧ Sent s s' ∧
      (∀ c, c ∈ added ∨ s.Listed c → s'.Listed c) ∧ (added = [] → Calm s → Calm s') := by
  simp only [State.subscribe, hphase]
  refine ⟨_, rfl, rfl, ⟨rfl, rfl, rfl⟩, ?_, ?_⟩
  · rintro c (hc | ⟨hchannels, hpending⟩)
    · exact ⟨List.mem_union_right _ hc, by simp [hc]⟩
    · exact ⟨List.mem_union_left hchannels _, fun hmem => hpending (List.mem_filter.mp hmem).1⟩
  · rintro rfl hcalm
    exact { hcalm with }

/-- The second half, after which exactly the wanted channels are listed. -/
theorem exists_unsubscribe {wanted : List String} (hphase : s.phase = .unsubscribing wanted) :
    ∃ s', s.unsubscribe = some s' ∧ s'.phase = .pinging ∧ Sent s s' ∧
      ((∀ c ∈ wanted, s.Listed c) → ∀ c, s'.Listed c ↔ c ∈ wanted) ∧ (Calm s → Calm s') := by
  simp only [State.unsubscribe, hphase]
  refine ⟨_, rfl, rfl, ⟨rfl, rfl, rfl⟩, fun hlisted c => listed_unsubscribe hlisted c,
    fun hcalm => ?_⟩
  split_ifs
  · exact { hcalm with }
  · exact { hcalm.send (fun _ heq => by cases heq) with }

/-- The ping at the end of a round. -/
theorem exists_ping (hphase : s.phase = .pinging) :
    ∃ s', s.ping = some s' ∧ s'.phase = .idle ∧ Sent s s' ∧ (∀ c, s'.Listed c ↔ s.Listed c) ∧
      (Calm s → Calm s') := by
  simp only [State.ping, hphase]
  refine ⟨_, rfl, rfl, ⟨rfl, rfl, rfl⟩, fun c => Iff.rfl, fun hcalm => ?_⟩
  exact { hcalm.send (fun _ heq => by cases heq) with }

/-- A round that has begun can be ended. -/
theorem finish_round (base : String) (s : State) : ∃ s', Leads base s s' ∧ s'.phase = .idle := by
  have hping : ∀ s : State, s.phase = .pinging → ∃ s', Leads base s s' ∧ s'.phase = .idle := by
    intro s hphase
    obtain ⟨s', hs', hidle, -⟩ := exists_ping hphase
    exact ⟨s', .single ⟨.ping, .ping, hs'⟩, hidle⟩
  have hunsubscribe : ∀ (s : State) (wanted : List String), s.phase = .unsubscribing wanted →
      ∃ s', Leads base s s' ∧ s'.phase = .idle := by
    intro s wanted hphase
    obtain ⟨s₁, hs₁, hphase₁, -⟩ := exists_unsubscribe hphase
    obtain ⟨s', hleads, hidle⟩ := hping s₁ hphase₁
    exact ⟨s', .head ⟨.unsubscribe, .unsubscribe, hs₁⟩ hleads, hidle⟩
  cases hphase : s.phase with
  | idle => exact ⟨s, .refl, hphase⟩
  | pinging => exact hping s hphase
  | unsubscribing wanted => exact hunsubscribe s wanted hphase
  | subscribing wanted added =>
      obtain ⟨s₁, hs₁, hphase₁, -⟩ := exists_subscribe hphase
      obtain ⟨s', hleads, hidle⟩ := hunsubscribe s₁ wanted hphase₁
      exact ⟨s', .head ⟨.subscribe, .subscribe, hs₁⟩ hleads, hidle⟩

/-- Whatever is on its way can be dealt with. -/
theorem settle (base : String) (s : State) :
    ∃ s', Leads base s s' ∧ s'.phase = .idle ∧ s'.Quiet := by
  obtain ⟨s₁, hleads₁, hidle₁⟩ := finish_round base s
  obtain ⟨s', hleads, hquiet, hdrained⟩ := drain base hidle₁
  exact ⟨s', hleads₁.trans hleads, hdrained.phase, hquiet⟩

/-- What one whole round achieves. -/
structure Round (base : String) (s s' : State) : Prop where
  phase : s'.phase = .idle
  quiet : s'.Quiet
  members : s'.members = s.members
  changed : s'.changed = none
  listed : ∀ c, s'.Listed c ↔ c ∈ s.wanted base
  /-- when no channel was missing, no other round is asked for -/
  queue : (∀ c ∈ s.wanted base, s.Listed c) → s'.queue = []

/-- A round can be gone through with nothing else in between. -/
theorem round {w : Waiter} (hphase : s.phase = .idle) (hquiet : s.Quiet) (hwaiters : s.waiters = [])
    (hchanged : s.changed = some w) : ∃ s', Leads base s s' ∧ Round base s s' := by
  obtain ⟨hpipe, hreplies, hinbox⟩ := hquiet
  -- the round collects, sends its two commands and a ping, and the node drains
  let wanted := s.wanted base
  let added := wanted.filter fun c => ¬ (c ∈ s.channels ∧ c ∉ s.pending)
  let s₁ : State := { s with
    waiters := w :: s.queue, queue := [], changed := none, phase := .subscribing wanted added }
  have hs₁ : s.collect base = some s₁ := by
    simp only [State.collect, hphase, hwaiters, hchanged]
    rfl
  have hcalm₁ : Calm s₁ := by
    constructor
    · simp [s₁, hpipe]
    · simp [s₁, hreplies]
    · simp [s₁, hinbox]
  obtain ⟨s₂, hs₂, hphase₂, hsent₂, hlisted₂, hcalm₂⟩ := exists_subscribe (s := s₁) rfl
  obtain ⟨s₃, hs₃, hphase₃, hsent₃, hlisted₃, hcalm₃⟩ := exists_unsubscribe hphase₂
  obtain ⟨s₄, hs₄, hphase₄, hsent₄, hlisted₄, hcalm₄⟩ := exists_ping hphase₃
  obtain ⟨s', hleads, hquiet', hdrained⟩ := drain base hphase₄
  have hsent : Sent s₁ s₄ := (hsent₂.trans hsent₃).trans hsent₄
  -- every wanted channel is listed once the first command is sent
  have hall : ∀ c ∈ wanted, s₂.Listed c := by
    intro c hc
    refine hlisted₂ c ?_
    by_cases hlisted : s.Listed c
    · exact .inr hlisted
    · exact .inl (List.mem_filter.mpr ⟨hc, decide_eq_true hlisted⟩)
  refine ⟨s', ?_, ?_⟩
  · exact .head ⟨.collect, .collect, hs₁⟩ (.head ⟨.subscribe, .subscribe, hs₂⟩
      (.head ⟨.unsubscribe, .unsubscribe, hs₃⟩ (.head ⟨.ping, .ping, hs₄⟩ hleads)))
  · exact
      { phase := hdrained.phase
        quiet := hquiet'
        members := hdrained.members.trans hsent.members
        changed := hdrained.changed.trans hsent.changed
        listed := fun c => ((hdrained.listed c).trans (hlisted₄ c)).trans (hlisted₃ hall c)
        queue := by
          -- where nothing was missing, no command is sent that would queue a change
          intro hmissing
          have hadded : added = [] :=
            List.filter_eq_nil_iff.mpr fun c hc => by simpa [State.Listed] using hmissing c hc
          have hcalm : Calm s₄ := hcalm₄ (hcalm₃ (hcalm₂ hadded hcalm₁))
          exact (hdrained.calm hcalm).2.trans hsent.queue }

/-- Between two rounds, an event of the queue is taken. -/
theorem exists_fetch {w : Waiter} {queue : List Waiter} (hchanged : s.changed = none)
    (hqueue : s.queue = w :: queue) :
    s.fetch = some { s with changed := some w, queue := queue } := by
  simp only [State.fetch, hchanged, hqueue]

/-- A round for the events there are, or rest. -/
theorem rest_or_round (h : Reachable base s) (hphase : s.phase = .idle) (hquiet : s.Quiet) :
    Rest s ∨ ∃ s', Leads base s s' ∧ Round base s s' := by
  have hwaiters := waiters_eq_nil (alive_reachable h) hphase hquiet
  cases hchanged : s.changed with
  | some w => exact .inr (round hphase hquiet hwaiters hchanged)
  | none =>
      cases hqueue : s.queue with
      | nil => exact .inl ⟨hphase, hquiet, hqueue, hchanged⟩
      | cons w queue =>
          obtain ⟨s', hleads, hround⟩ :
            ∃ s', Leads base { s with changed := some w, queue := queue } s' ∧
              Round base { s with changed := some w, queue := queue } s' :=
                round hphase hquiet hwaiters rfl
          refine .inr ⟨s', .head ⟨.fetch, .fetch, exists_fetch hchanged hqueue⟩ hleads, ?_⟩
          exact
            { phase := hround.phase, quiet := hround.quiet, members := hround.members,
              changed := hround.changed
              listed := hround.listed, queue := hround.queue }

/-- Three rounds are enough: the one in progress, one that sends the missing subscriptions, and one
their answers ask for. -/
theorem comes_to_rest (h : Reachable base s) : ∃ s', Leads base s s' ∧ Rest s' := by
  obtain ⟨s₁, hleads₁, hphase₁, hquiet₁⟩ := settle base s
  have hreach₁ : Reachable base s₁ := h.leads hleads₁
  rcases rest_or_round hreach₁ hphase₁ hquiet₁ with hrest | ⟨s₂, hleads₂, hround₂⟩
  · exact ⟨s₁, hleads₁, hrest⟩
  have hreach₂ : Reachable base s₂ := hreach₁.leads hleads₂
  rcases rest_or_round hreach₂ hround₂.phase hround₂.quiet with hrest | ⟨s₃, hleads₃, hround₃⟩
  · exact ⟨s₂, hleads₁.trans hleads₂, hrest⟩
  refine ⟨s₃, (hleads₁.trans hleads₂).trans hleads₃, hround₃.phase, hround₃.quiet, ?_,
    hround₃.changed⟩
  refine hround₃.queue fun c hc => (hround₂.listed c).mpr ?_
  rw [State.wanted, hround₂.members] at hc
  exact hc

/-- The listener and Redis begin no joins and move no clients. -/
theorem kept_of_leads (hleads : Leads base s s') :
    s'.started = s.started ∧ s'.members = s.members := by
  induction hleads with
  | refl => exact ⟨rfl, rfl⟩
  | tail _ hstep ih =>
      obtain ⟨a, ha, hnext⟩ := hstep
      rw [← ih.1, ← ih.2]
      cases ha with
      | fetch =>
          simp only [next, State.fetch] at hnext
          split at hnext
          · exact Option.some.inj hnext ▸ ⟨rfl, rfl⟩
          · cases hnext
      | collect =>
          simp only [next, State.collect] at hnext
          split at hnext
          · exact Option.some.inj hnext ▸ ⟨rfl, rfl⟩
          · cases hnext
      | handle => exact ⟨(moved_handle hnext).started, members_handle hnext⟩
      | subscribe => exact ⟨(wired_next .subscribe hnext).started,
          (wired_next .subscribe hnext).members⟩
      | unsubscribe => exact ⟨(wired_next .unsubscribe hnext).started,
          (wired_next .unsubscribe hnext).members⟩
      | ping => exact ⟨(wired_next .ping hnext).started, (wired_next .ping hnext).members⟩
      | read => exact ⟨(wired_next .read hnext).started, (wired_next .read hnext).members⟩
      | serve => exact ⟨(wired_next .serve hnext).started, (wired_next .serve hnext).members⟩

/-- From every state, however often the connection was lost before, the listener and Redis alone
can bring all joins that have begun to return and the subscriptions to be those of the occupied
rooms. -/
theorem joins_return (h : Reachable base s) :
    ∃ s', Leads base s s' ∧ Rest s' ∧ s'.done.Perm s.started ∧
    ∀ c, c ∈ s'.subscribed ↔ c = base ∨ ∃ room, s.Occupied room ∧ roomChannel base room = c := by
  obtain ⟨s', hleads, hrest⟩ := comes_to_rest h
  have hreach : Reachable base s' := h.leads hleads
  obtain ⟨hstarted, hmembers⟩ := kept_of_leads hleads
  refine ⟨s', hleads, hrest, hstarted ▸ done_of_rest hreach hrest, fun c => ?_⟩
  have hsubscribed := subscribed_of_rest hreach hrest c
  simpa only [State.Occupied, hmembers] using hsubscribed

/-- A client has entered the lobby, nothing has been done about it, and the connection is lost. -/
theorem joins_return_lobby :
    ∃ s s', [.enter "c1" lobby, .fetch, .collect, .reconnect].foldlM (next "m") (State.init "m") =
      some s ∧
    Leads "m" s s' ∧ Rest s' ∧ s'.done.Perm s.started ∧
    ∀ c, c ∈ s'.subscribed ↔ c = "m" ∨ ∃ room, s.Occupied room ∧ roomChannel "m" room = c := by
  have hrun :
    ([.enter "c1" lobby, .fetch, .collect, .reconnect].foldlM (next "m") (State.init "m")).isSome =
    true := by
    decide +kernel
  obtain ⟨s, hs⟩ := Option.isSome_iff_exists.mp hrun
  obtain ⟨s', h⟩ := joins_return (reachable_of_run hs)
  exact ⟨s, s', hs, h⟩

end OpenWebUI.Rooms
