import Mathlib
import OpenWebUI.Socket.RoomDelivery

/-! # Joins of room channels

No join is lost, and none is stuck.
-/

namespace OpenWebUI.Rooms

variable {base : String} {s s' : State} {sid : String} {room : Room} {data : String} {a : Event}

/-! ## No join is lost -/

/-- The joins that have returned. -/
def State.done (s : State) : List Join := s.returned.map (·.join)

theorem joins_cons (w : Waiter) (waiters : List Waiter) :
    joins (w :: waiters) = joins [w] ++ joins waiters :=
  joins_append [w] waiters

/-- The joins are moved about, and none begins. -/
structure Moved (s s' : State) : Prop where
  started : s'.started = s.started
  joins : (s'.unreturned ++ s'.done).Perm (s.unreturned ++ s.done)

/-- A step that touches no join. -/
theorem moved_of_eq (hstarted : s'.started = s.started) (hunreturned : s'.unreturned = s.unreturned)
    (hreturned : s'.returned = s.returned) : Moved s s' := by
  refine ⟨hstarted, ?_⟩
  rw [hunreturned, State.done, hreturned]
  exact List.Perm.refl _

/-- The connection touches no join. -/
theorem moved_of_wired (h : Wired s s') : Moved s s' := by
  refine moved_of_eq h.started ?_ h.returned
  rw [State.unreturned, h.queue, h.changed, h.waiters, State.unreturned]

/-- An event that is fetched stays unreturned. -/
theorem moved_fetch (hstep : s.fetch = some s') : Moved s s' := by
  rw [State.fetch] at hstep
  split at hstep
  · next w queue hchanged hqueue =>
      obtain rfl := Option.some.inj hstep
      refine ⟨rfl, List.Perm.append_right _ ?_⟩
      simp only [State.unreturned, hchanged, hqueue, joins_cons w queue, Option.toList_some,
        Option.toList_none, joins_nil, List.append_nil]
      exact List.Perm.append_right _ List.perm_append_comm
  · cases hstep

/-- The events of a round stay unreturned until the pong. -/
theorem moved_collect (hstep : s.collect base = some s') : Moved s s' := by
  rw [State.collect] at hstep
  split at hstep
  · next w _ hwaiters hchanged =>
      obtain rfl := Option.some.inj hstep
      refine ⟨rfl, List.Perm.append_right _ ?_⟩
      simp only [State.unreturned, hchanged, hwaiters, joins_cons w s.queue, Option.toList_some,
        Option.toList_none, joins_nil, List.append_nil, List.nil_append]
      exact List.perm_append_comm
  · cases hstep

theorem joins_returns (drops : ℕ) (waiters : List Waiter) :
    (returns drops waiters).map (·.join) = joins waiters := by
  rw [returns, List.map_map]
  exact List.map_id _

/-- A pong returns the joins that waited for it, once. -/
theorem moved_handle (hstep : s.handle base = some s') : Moved s s' := by
  rw [State.handle] at hstep
  split at hstep
  · obtain rfl := Option.some.inj hstep
    exact moved_of_eq rfl (by simp [State.unreturned]) rfl
  · split_ifs at hstep
    · obtain rfl := Option.some.inj hstep
      refine ⟨rfl, ?_⟩
      simp only [State.unreturned, State.done, List.map_append, joins_returns, joins_nil,
        List.append_nil, List.append_assoc]
      refine List.Perm.append_left _ (List.Perm.append_left _ ?_)
      exact List.perm_append_comm
    · obtain rfl := Option.some.inj hstep
      exact moved_of_eq rfl rfl rfl
  · obtain rfl := Option.some.inj hstep
    exact moved_of_eq rfl rfl rfl
  · obtain rfl := Option.some.inj hstep
    exact moved_of_eq rfl rfl rfl
  · cases hstep

/-- No join is lost or returned twice in a step. -/
theorem kept_next (h : (s.unreturned ++ s.done).Perm s.started) (hstep : next base s a = some s') :
    (s'.unreturned ++ s'.done).Perm s'.started := by
  -- what only moves joins from one place to another keeps the count
  have hmoved : Moved s s' → (s'.unreturned ++ s'.done).Perm s'.started := by
    intro hmoved
    rw [hmoved.started]
    exact hmoved.joins.trans h
  cases a with
  -- a join starts, and is queued
  | enter sid room =>
      obtain rfl := Option.some.inj hstep
      have hmove : ((s.enter sid room).unreturned ++ (s.enter sid room).done).Perm
          (s.unreturned ++ s.done ++ [{ room := room, emptied := s.emptied room }]) := by
        simp only [State.unreturned, State.enter, State.enrol, State.done, joins_append,
          joins_change, joins_join, List.append_nil]
        grind
      exact hmove.trans (h.append_right _)
  | enrol sid room =>
      obtain rfl := Option.some.inj hstep
      exact hmoved (moved_of_eq rfl unreturned_enrol rfl)
  | leave sid room =>
      obtain rfl := Option.some.inj hstep
      have hleave : Moved s (s.leave sid room) := by
        rw [State.leave]
        split_ifs <;> exact moved_of_eq rfl (by simp [State.unreturned]) rfl
      exact hmoved hleave
  | publish room data => exact Option.some.inj hstep ▸ h
  | broadcast data => exact Option.some.inj hstep ▸ h
  | fetch => exact hmoved (moved_fetch hstep)
  | collect => exact hmoved (moved_collect hstep)
  | handle => exact hmoved (moved_handle hstep)
  -- the waiters of a cancelled round are queued again
  | restart =>
      obtain rfl := Option.some.inj hstep
      refine hmoved ⟨rfl, List.Perm.append_right _ ?_⟩
      simp only [State.unreturned, State.restart, joins_append, joins_change, joins_nil,
        Option.toList_none, List.append_nil, List.append_assoc]
      exact List.Perm.append_left _ List.perm_append_comm
  | subscribe => exact hmoved (moved_of_wired (wired_next .subscribe hstep))
  | unsubscribe => exact hmoved (moved_of_wired (wired_next .unsubscribe hstep))
  | ping => exact hmoved (moved_of_wired (wired_next .ping hstep))
  | read => exact hmoved (moved_of_wired (wired_next .read hstep))
  | serve => exact hmoved (moved_of_wired (wired_next .serve hstep))
  | reconnect =>
      simp only [next, State.reconnect] at hstep
      split_ifs at hstep
      exact Option.some.inj hstep ▸ h

/-- Every join that has begun is in one place: in the queue, with the listener, or it has
returned. -/
theorem kept_reachable (h : Reachable base s) : (s.unreturned ++ s.done).Perm s.started := by
  refine h.invariant ?_ fun a s s' h hstep => kept_next h hstep
  rintro s rfl
  exact List.Perm.refl _

/-! ## Who waits gets an answer -/

/-- Something that will answer the events the listener has collected. -/
def State.Answer (base : String) (s : State) : Prop :=
  .ping s.serial ∈ s.pipe ∨ .pong s.serial ∈ s.replies ∨ s.inbox = some (.pong s.serial) ∨
    (∃ channels, .subscribe channels ∈ s.pipe ∧ base ∈ channels) ∨ .subscribed base ∈ s.replies ∨
    s.inbox = some (.subscribed base)

/-- The common channel stays, and whoever waits for an answer gets one. -/
structure Alive (base : String) (s : State) : Prop where
  listed : s.Listed base
  wanted : match s.phase with
    | .subscribing wanted _ => base ∈ wanted
    | .unsubscribing wanted => base ∈ wanted
    | .pinging => True
    | .idle => True
  answer : s.phase = .idle → s.waiters ≠ [] → s.Answer base

/-- An answer that is on its way stays there while nothing is taken from it. -/
theorem State.Answer.mono (h : s.Answer base) (hserial : s'.serial = s.serial)
    (hpipe : s.pipe ⊆ s'.pipe) (hreplies : s.replies ⊆ s'.replies) (hinbox : s'.inbox = s.inbox) :
    s'.Answer base := by
  rcases h with h | h | h | ⟨channels, h, hbase⟩ | h | h
  · exact .inl (hserial ▸ hpipe h)
  · exact .inr (.inl (hserial ▸ hreplies h))
  · exact .inr (.inr (.inl (by rw [hinbox, hserial, h])))
  · exact .inr (.inr (.inr (.inl ⟨channels, hpipe h, hbase⟩)))
  · exact .inr (.inr (.inr (.inr (.inl (hreplies h)))))
  · exact .inr (.inr (.inr (.inr (.inr (hinbox.trans h)))))

/-- The first subscription is on its way. -/
theorem alive_init : Alive base (State.init base) where
  listed := ⟨List.mem_singleton_self _, List.not_mem_nil⟩
  wanted := trivial
  answer := fun _ h => absurd rfl h

/-- More replies do no harm. -/
theorem alive_of_replies (h : Alive base s) (hphase : s'.phase = s.phase)
    (hchannels : s'.channels = s.channels) (hpending : s'.pending = s.pending)
    (hwaiters : s'.waiters = s.waiters) (hserial : s'.serial = s.serial)
    (hpipe : s'.pipe = s.pipe) (hreplies : s.replies ⊆ s'.replies) (hinbox : s'.inbox = s.inbox) :
    Alive base s' where
  listed := by
    rw [State.Listed, hchannels, hpending]
    exact h.listed
  wanted := by
    rw [hphase]
    exact h.wanted
  answer := by
    intro hidle hne
    rw [hphase] at hidle
    rw [hwaiters] at hne
    exact (h.answer hidle hne).mono hserial (hpipe ▸ List.Subset.refl _) hreplies hinbox

/-- Redis answers what it executes, so the answer stays on its way. -/
theorem alive_serve (h : Alive base s) (hstep : s.serve = some s') : Alive base s' := by
  rw [State.serve] at hstep
  split at hstep
  · cases hstep
  · next command pipe hpipe =>
      obtain rfl := Option.some.inj hstep
      refine { listed := h.listed, wanted := h.wanted, answer := fun hidle hne => ?_ }
      have hanswers : ∀ reply, reply ∈ command.answers → reply ∈ s.replies ++ command.answers :=
        fun reply hreply => List.mem_append_right _ hreply
      -- the answer waited for is in the pipe, among the replies, in the inbox, or follows from a
      -- command on the base channel
      rcases h.answer hidle hne with h | h | h | ⟨channels, h, hbase⟩ | h | h
      · rw [hpipe] at h
        rcases List.mem_cons.mp h with rfl | h
        · exact .inr (.inl (hanswers _ (List.mem_singleton_self _)))
        · exact .inl h
      · exact .inr (.inl (List.mem_append_left _ h))
      · exact .inr (.inr (.inl h))
      · rw [hpipe] at h
        rcases List.mem_cons.mp h with rfl | h
        · exact .inr (.inr (.inr (.inr (.inl (hanswers _ (List.mem_map_of_mem hbase))))))
        · exact .inr (.inr (.inr (.inl ⟨channels, h, hbase⟩)))
      · exact .inr (.inr (.inr (.inr (.inl (List.mem_append_left _ h)))))
      · exact .inr (.inr (.inr (.inr (.inr h))))

theorem base_mem_wanted : base ∈ s.wanted base := List.mem_dedup.mpr List.mem_cons_self

/-- A round sends commands and takes none back. -/
theorem alive_subscribe (h : Alive base s) (hstep : s.subscribe = some s') : Alive base s' := by
  rw [State.subscribe] at hstep
  split at hstep
  · next wanted added hphase =>
      obtain rfl := Option.some.inj hstep
      have hwanted := h.wanted
      simp only [hphase] at hwanted
      exact
        { listed :=
            ⟨List.mem_union_left h.listed.1 _, fun hmem => h.listed.2 (List.mem_filter.mp hmem).1⟩
          wanted := hwanted
          answer := fun hidle => by cases hidle }
  · cases hstep

theorem alive_unsubscribe (h : Alive base s) (hstep : s.unsubscribe = some s') : Alive base s' := by
  rw [State.unsubscribe] at hstep
  split at hstep
  · next wanted hphase =>
      obtain rfl := Option.some.inj hstep
      have hwanted := h.wanted
      simp only [hphase] at hwanted
      refine { listed := ⟨h.listed.1, fun hmem => ?_⟩, wanted := trivial,
               answer := fun hidle => by cases hidle }
      rcases List.mem_union_iff.mp hmem with hmem | hmem
      · exact h.listed.2 hmem
      · have := (List.mem_filter.mp hmem).2
        simp [hwanted] at this
  · cases hstep

/-- What is read stays an answer. -/
theorem answer_of_read {reply : Reply} {replies : List Reply} (h : s.Answer base)
    (hinbox : s.inbox = none) (hreplies : s.replies = reply :: replies) :
    State.Answer base { s with inbox := some reply, replies := replies } := by
  rcases h with h | h | h | h | h | h
  · exact .inl h
  · rw [hreplies] at h
    rcases List.mem_cons.mp h with rfl | h
    · exact .inr (.inr (.inl rfl))
    · exact .inr (.inl h)
  · rw [hinbox] at h
    cases h
  · exact .inr (.inr (.inr (.inl h)))
  · rw [hreplies] at h
    rcases List.mem_cons.mp h with rfl | h
    · exact .inr (.inr (.inr (.inr (.inr rfl))))
    · exact .inr (.inr (.inr (.inr (.inl h))))
  · rw [hinbox] at h
    cases h

/-- A reply that is read is in the inbox. -/
theorem alive_read (h : Alive base s) (hstep : s.read = some s') : Alive base s' := by
  rw [State.read] at hstep
  split at hstep
  · next channel replies hinbox hreplies =>
      obtain rfl := Option.some.inj hstep
      exact
        { listed := (listed_read channel).mpr h.listed
          wanted := h.wanted
          answer := fun hidle hne => answer_of_read (h.answer hidle hne) hinbox hreplies }
  · next reply replies _ hinbox hreplies =>
      obtain rfl := Option.some.inj hstep
      exact
        { listed := h.listed
          wanted := h.wanted
          answer := fun hidle hne => answer_of_read (h.answer hidle hne) hinbox hreplies }
  · cases hstep

/-- A reply that is neither the awaited answer nor one that asks for it again. -/
theorem answer_of_handled {reply : Reply} (h : s.Answer base) (hinbox : s.inbox = some reply)
    (hpong : reply ≠ .pong s.serial) (hbase : reply ≠ .subscribed base) {queue : List Waiter}
    {received : List (String × String)} :
    State.Answer base { s with inbox := none, queue := queue, received := received } := by
  rcases h with h | h | h | h | h | h
  · exact .inl h
  · exact .inr (.inl h)
  · rw [hinbox] at h
    exact absurd (Option.some.inj h) hpong
  · exact .inr (.inr (.inr (.inl h)))
  · exact .inr (.inr (.inr (.inr (.inl h))))
  · rw [hinbox] at h
    exact absurd (Option.some.inj h) hbase

/-- The answer about the common channel asks for a ping again, and the pong of the last ping leaves
nobody waiting. -/
theorem alive_handle (h : Alive base s) (hstep : s.handle base = some s') : Alive base s' := by
  rw [State.handle] at hstep
  split at hstep
  · next channel hphase hinbox =>
      obtain rfl := Option.some.inj hstep
      refine { listed := h.listed, wanted := h.wanted, answer := fun hidle hne => ?_ }
      split_ifs with hbase
      · -- the serial is pinged again
        exact .inl (List.mem_append_right _ (List.mem_singleton_self _))
      · refine answer_of_handled (h.answer hidle hne) hinbox Reply.noConfusion fun heq => hbase ?_
        cases heq
        rfl
  · next n hphase hinbox =>
      -- the pong of this round ends it, and nothing is waited for
      split_ifs at hstep with hserial
      · obtain rfl := Option.some.inj hstep
        exact { listed := h.listed, wanted := h.wanted, answer := fun _ hne => absurd rfl hne }
      -- an older pong is none of the answers waited for
      · obtain rfl := Option.some.inj hstep
        refine { listed := h.listed, wanted := h.wanted, answer := fun hidle hne => ?_ }
        refine answer_of_handled (h.answer hidle hne) hinbox
          (fun heq => hserial ?_) Reply.noConfusion
        cases heq
        rfl
  · next channel data hphase hinbox =>
      obtain rfl := Option.some.inj hstep
      refine { listed := h.listed, wanted := h.wanted, answer := fun hidle hne => ?_ }
      exact answer_of_handled (h.answer hidle hne) hinbox Reply.noConfusion Reply.noConfusion
  · next channel hphase hinbox =>
      obtain rfl := Option.some.inj hstep
      refine { listed := h.listed, wanted := h.wanted, answer := fun hidle hne => ?_ }
      exact answer_of_handled (h.answer hidle hne) hinbox Reply.noConfusion Reply.noConfusion
  · cases hstep

/-- One step, by its kind. -/
theorem alive_next (h : Alive base s) (hstep : next base s a = some s') : Alive base s' := by
  cases a with
  | enter sid room => exact Option.some.inj hstep ▸ { h with }
  | enrol sid room => exact Option.some.inj hstep ▸ { h with }
  | leave sid room =>
      obtain rfl := Option.some.inj hstep
      rw [State.leave]
      split_ifs <;> exact { h with }
  -- a message is one more reply, which is no answer to a command
  | publish room data =>
      obtain rfl := Option.some.inj hstep
      refine alive_of_replies h rfl rfl rfl rfl rfl rfl ?_ rfl
      simp only [State.publish]
      split_ifs
      · exact List.subset_append_left _ _
      · exact List.Subset.refl _
  | broadcast data =>
      obtain rfl := Option.some.inj hstep
      refine alive_of_replies h rfl rfl rfl rfl rfl rfl ?_ rfl
      simp only [State.broadcast]
      split_ifs
      · exact List.subset_append_left _ _
      · exact List.Subset.refl _
  | fetch =>
      simp only [next, State.fetch] at hstep
      split at hstep
      · exact Option.some.inj hstep ▸ { h with }
      · cases hstep
  | collect =>
      simp only [next, State.collect] at hstep
      split at hstep
      · obtain rfl := Option.some.inj hstep
        exact { listed := h.listed, wanted := base_mem_wanted,
                answer := fun hidle => by cases hidle }
      · cases hstep
  | subscribe => exact alive_subscribe h hstep
  | unsubscribe => exact alive_unsubscribe h hstep
  -- the ping is behind all that was sent before it
  | ping =>
      simp only [next, State.ping] at hstep
      split at hstep
      · obtain rfl := Option.some.inj hstep
        refine { listed := h.listed, wanted := trivial, answer := fun _ _ => .inl ?_ }
        exact List.mem_append_right _ (List.mem_singleton_self _)
      · cases hstep
  | read => exact alive_read h hstep
  | handle => exact alive_handle h hstep
  | serve => exact alive_serve h hstep
  -- a new connection subscribes again to what was listed
  | reconnect =>
      simp only [next, State.reconnect] at hstep
      split_ifs at hstep
      obtain rfl := Option.some.inj hstep
      refine { listed := ⟨h.listed.1, List.not_mem_nil⟩, wanted := h.wanted,
               answer := fun _ _ => ?_ }
      exact .inr (.inr (.inr (.inl ⟨s.channels, List.mem_singleton_self _, h.listed.1⟩)))
  | restart =>
      obtain rfl := Option.some.inj hstep
      exact
        { listed := ⟨List.mem_singleton_self _, List.not_mem_nil⟩, wanted := trivial
          answer := fun _ hne => absurd rfl hne }

/-- In every run whoever waits for an answer gets one, and the common channel stays. -/
theorem alive_reachable (h : Reachable base s) : Alive base s := by
  refine h.invariant ?_ fun a s s' h hstep => alive_next h hstep
  rintro s rfl
  exact alive_init

/-! ## What the instance lists is what Redis has -/

/-- After the commands on their way Redis has no channel that the instance does not list. -/
def State.Exact (s : State) : Prop := ∀ c ∈ settled s.subscribed s.pipe, s.Listed c

/-- Only books and commands matter. -/
theorem exact_of_eq (h : s.Exact) (hchannels : s'.channels = s.channels)
    (hpending : s'.pending = s.pending)
    (hsettled : settled s'.subscribed s'.pipe = settled s.subscribed s.pipe) : s'.Exact := by
  intro c hc
  rw [State.Listed, hchannels, hpending]
  exact h c (hsettled ▸ hc)

/-- The added channels are listed as they are sent. -/
theorem exact_subscribe (h : s.Exact) (hstep : s.subscribe = some s') : s'.Exact := by
  rw [State.subscribe] at hstep
  split at hstep
  · next wanted added hphase =>
      obtain rfl := Option.some.inj hstep
      intro c hc
      have hc : c ∈ settled s.subscribed s.pipe ∨ c ∈ added := by
        dsimp only at hc
        split_ifs at hc
        · exact .inl hc
        · rw [settled_append] at hc
          exact List.mem_union_iff.mp hc
      by_cases hadded : c ∈ added
      · exact ⟨List.mem_union_right _ hadded, by simp [hadded]⟩
      · obtain ⟨hchannels, hpending⟩ := h c (hc.resolve_right hadded)
        exact ⟨List.mem_union_left hchannels _, fun hmem => hpending (List.mem_filter.mp hmem).1⟩
  · cases hstep

/-- What is no longer listed is given up by the command that follows. -/
theorem exact_unsubscribe (h : s.Exact) (hstep : s.unsubscribe = some s') : s'.Exact := by
  rw [State.unsubscribe] at hstep
  split at hstep
  · next wanted hphase =>
      obtain rfl := Option.some.inj hstep
      intro c hc
      have hkept : c ∈ settled s.subscribed s.pipe ∧ c ∉ s.channels.filter fun c => c ∉ wanted ∧
        c ∉ s.pending := by
        dsimp only at hc
        split_ifs at hc with hnil
        · exact ⟨hc, hnil ▸ List.not_mem_nil⟩
        · rw [settled_append] at hc
          obtain ⟨hold, hkeep⟩ := List.mem_filter.mp hc
          exact ⟨hold, of_decide_eq_true hkeep⟩
      obtain ⟨hchannels, hpending⟩ := h c hkept.1
      refine ⟨hchannels, fun hmem => ?_⟩
      rcases List.mem_union_iff.mp hmem with hmem | hmem
      · exact hpending hmem
      · exact hkept.2 hmem
  · cases hstep

theorem settled_ping (subscribed : List String) (pipe : List Command) (n : ℕ) :
    settled subscribed (pipe ++ [.ping n]) = settled subscribed pipe := settled_append

/-- Handling a reply sends a ping at most. -/
theorem exact_handle (h : s.Exact) (hstep : s.handle base = some s') : s'.Exact := by
  rw [State.handle] at hstep
  split at hstep
  · obtain rfl := Option.some.inj hstep
    refine exact_of_eq h rfl rfl ?_
    dsimp only
    split_ifs
    · exact settled_ping _ _ _
    · rfl
  · split_ifs at hstep
    all_goals
      obtain rfl := Option.some.inj hstep
      exact exact_of_eq h rfl rfl rfl
  · obtain rfl := Option.some.inj hstep
    exact exact_of_eq h rfl rfl rfl
  · obtain rfl := Option.some.inj hstep
    exact exact_of_eq h rfl rfl rfl
  · cases hstep

/-- One step, by its kind. -/
theorem exact_next (h : s.Exact) (hstep : next base s a = some s') : s'.Exact := by
  cases a with
  | enter sid room => exact Option.some.inj hstep ▸ exact_of_eq h rfl rfl rfl
  | enrol sid room => exact Option.some.inj hstep ▸ exact_of_eq h rfl rfl rfl
  | leave sid room =>
      obtain rfl := Option.some.inj hstep
      rw [State.leave]
      split_ifs <;> exact exact_of_eq h rfl rfl rfl
  | publish room data => exact Option.some.inj hstep ▸ exact_of_eq h rfl rfl rfl
  | broadcast data => exact Option.some.inj hstep ▸ exact_of_eq h rfl rfl rfl
  | fetch =>
      simp only [next, State.fetch] at hstep
      split at hstep
      · exact Option.some.inj hstep ▸ exact_of_eq h rfl rfl rfl
      · cases hstep
  | collect =>
      simp only [next, State.collect] at hstep
      split at hstep
      · exact Option.some.inj hstep ▸ exact_of_eq h rfl rfl rfl
      · cases hstep
  | subscribe => exact exact_subscribe h hstep
  | unsubscribe => exact exact_unsubscribe h hstep
  | ping =>
      simp only [next, State.ping] at hstep
      split at hstep
      · exact Option.some.inj hstep ▸ exact_of_eq h rfl rfl (settled_ping _ _ _)
      · cases hstep
  -- an answer read from the pipe was counted there already
  | read =>
      simp only [next, State.read] at hstep
      split at hstep
      · obtain rfl := Option.some.inj hstep
        exact fun c hc => (listed_read _).mpr (h c hc)
      · exact Option.some.inj hstep ▸ exact_of_eq h rfl rfl rfl
      · cases hstep
  | handle => exact exact_handle h hstep
  | serve =>
      simp only [next, State.serve] at hstep
      split at hstep
      · cases hstep
      · next command pipe hpipe =>
          obtain rfl := Option.some.inj hstep
          refine exact_of_eq h rfl rfl ?_
          rw [hpipe]
          rfl
  -- a new connection is asked for exactly the channels listed
  | reconnect =>
      simp only [next, State.reconnect] at hstep
      split_ifs at hstep
      obtain rfl := Option.some.inj hstep
      intro c hc
      have hc : c ∈ [] ∪ s.channels := hc
      exact ⟨by simpa using hc, List.not_mem_nil⟩
  -- after a restart the node listens to the base channel alone
  | restart =>
      obtain rfl := Option.some.inj hstep
      intro c hc
      have hc : c ∈ [] ∪ [base] := hc
      exact ⟨by simpa [State.restart] using hc, List.not_mem_nil⟩

/-- In no run Redis ends up with a channel that is not listed. -/
theorem exact_reachable (h : Reachable base s) : s.Exact := by
  refine h.invariant ?_ fun a s s' h hstep => exact_next h hstep
  rintro s rfl c hc
  have hc : c ∈ [] ∪ [base] := hc
  exact ⟨by simpa [State.init] using hc, List.not_mem_nil⟩

/-! ## When nobody has asked for a round -/

/-- No subscription is on its way: its answer would ask for a round. -/
structure Calm (s : State) : Prop where
  pipe : ∀ channels, .subscribe channels ∈ s.pipe → channels = []
  replies : ∀ c, .subscribed c ∉ s.replies
  inbox : ∀ c, s.inbox ≠ some (.subscribed c)

/-- Nothing asks for a round. -/
structure Unasked (s : State) : Prop where
  queue : s.queue = []
  changed : s.changed = none
  calm : Calm s

/-- The round in progress, or the last one, is about the rooms there are now. -/
def State.Current (base : String) (s : State) : Prop :=
  match s.phase with
  | .subscribing wanted added => (∀ c, c ∈ wanted ↔ c ∈ s.wanted base) ∧
      ∀ c ∈ wanted, c ∈ added ∨ s.Listed c
  | .unsubscribing wanted => (∀ c, c ∈ wanted ↔ c ∈ s.wanted base) ∧ ∀ c ∈ wanted, s.Listed c
  | .pinging => ∀ c, s.Listed c ↔ c ∈ s.wanted base
  | .idle => ∀ c, s.Listed c ↔ c ∈ s.wanted base

theorem State.Current.mono (h : s.Current base) (hphase : s'.phase = s.phase)
    (hlisted : ∀ c, s'.Listed c ↔ s.Listed c)
    (hwanted : ∀ c, c ∈ s'.wanted base ↔ c ∈ s.wanted base) : s'.Current base := by
  unfold State.Current at h ⊢
  rw [hphase]
  cases hs : s.phase <;> simp only [hs, hlisted, hwanted] at h ⊢ <;> exact h

/-- The common channel and those of occupied rooms are wanted. -/
theorem mem_wanted {c : String} :
    c ∈ s.wanted base ↔ c = base ∨ ∃ room, s.Occupied room ∧ roomChannel base room = c := by
  rw [State.wanted, List.mem_dedup, List.mem_cons, List.mem_map]
  refine or_congr_right ⟨?_, ?_⟩
  · rintro ⟨m, hm, hc⟩
    exact ⟨m.2, ⟨m, hm, rfl⟩, hc⟩
  · rintro ⟨room, ⟨m, hm, rfl⟩, hc⟩
    exact ⟨m, hm, hc⟩

/-- Who leaves a room that keeps members changes nothing about the channels. -/
theorem occupied_leave {room' : Room}
    (hstill : ({ s with members := s.members.filter (· ≠ (sid, room)) } : State).Occupied room) :
    ({ s with members := s.members.filter (· ≠ (sid, room)) } : State).Occupied room' ↔
      s.Occupied room' := by
  constructor
  · rintro ⟨m, hm, hroom⟩
    exact ⟨m, (List.mem_filter.mp hm).1, hroom⟩
  · rintro ⟨m, hm, rfl⟩
    by_cases hroom : m.2 = room
    · rw [hroom]
      exact hstill
    · refine ⟨m, List.mem_filter.mpr ⟨hm, decide_eq_true ?_⟩, rfl⟩
      rintro rfl
      exact hroom rfl

/-- Calm looks at what is on its way only. -/
theorem Calm.mono (h : Calm s') (hpipe : s.pipe ⊆ s'.pipe) (hreplies : s.replies ⊆ s'.replies)
    (hinbox : s'.inbox = s.inbox) :
    Calm s where
  pipe := fun channels hchannels => h.pipe channels (hpipe hchannels)
  replies := fun c hc => h.replies c (hreplies hc)
  inbox := fun c hc => h.inbox c (hinbox.trans hc)

/-- Steps that only add commands and replies. -/
theorem Unasked.mono (h : Unasked s') (hqueue : s'.queue = s.queue)
    (hchanged : s'.changed = s.changed) (hpipe : s.pipe ⊆ s'.pipe)
    (hreplies : s.replies ⊆ s'.replies) (hinbox : s'.inbox = s.inbox) : Unasked s where
  queue := hqueue.symm.trans h.queue
  changed := hchanged.symm.trans h.changed
  calm := h.calm.mono hpipe hreplies hinbox

theorem append_change_ne_nil {queue : List Waiter} {w : Waiter} : queue ++ [w] ≠ [] := by simp

/-- A room that is emptied asks for a round. -/
theorem current_leave (h : Unasked s → s.Current base) (hunasked : Unasked (s.leave sid room)) :
    (s.leave sid room).Current base := by
  rw [State.leave] at hunasked ⊢
  split_ifs at hunasked ⊢ with hstill hwas
  · have hs : Unasked s := hunasked.mono rfl rfl (List.Subset.refl _) (List.Subset.refl _) rfl
    refine (h hs).mono rfl (fun _ => Iff.rfl) fun c => ?_
    rw [mem_wanted, mem_wanted]
    refine or_congr_right (exists_congr fun room' => and_congr_left fun _ => ?_)
    exact occupied_leave hstill
  · exact absurd hunasked.queue append_change_ne_nil
  · exact absurd hunasked.queue append_change_ne_nil

/-- A round begins with the channels that are wanted now. -/
theorem current_collect (hstep : s.collect base = some s') : s'.Current base := by
  rw [State.collect] at hstep
  split at hstep
  · obtain rfl := Option.some.inj hstep
    refine ⟨fun c => Iff.rfl, fun c hc => ?_⟩
    by_cases hlisted : s.Listed c
    · exact .inr hlisted
    · exact .inl (List.mem_filter.mpr ⟨hc, decide_eq_true hlisted⟩)
  · cases hstep

theorem subset_send {commands : List Command} {c : Prop} [Decidable c] :
    s.pipe ⊆ if c then s.pipe else s.pipe ++ commands := by
  split_ifs
  · exact List.Subset.refl _
  · exact List.subset_append_left _ _

/-- Up to the ping the round lists what it wants. -/
theorem current_subscribe (h : Unasked s → s.Current base) (hunasked : Unasked s')
    (hstep : s.subscribe = some s') :
    s'.Current base := by
  rw [State.subscribe] at hstep
  split at hstep
  · next wanted added hphase =>
      obtain rfl := Option.some.inj hstep
      have hcurrent := h (hunasked.mono rfl rfl subset_send (List.Subset.refl _) rfl)
      simp only [State.Current, hphase] at hcurrent
      refine ⟨hcurrent.1, fun c hc => ?_⟩
      by_cases hadded : c ∈ added
      · exact ⟨List.mem_union_right _ hadded, by simp [hadded]⟩
      · obtain ⟨hchannels, hpending⟩ := (hcurrent.2 c hc).resolve_left hadded
        exact ⟨List.mem_union_left hchannels _, fun hmem => hpending (List.mem_filter.mp hmem).1⟩
  · cases hstep

/-- After the removals just the wanted channels are listed. -/
theorem listed_unsubscribe {wanted : List String} (hlisted : ∀ c ∈ wanted, s.Listed c)
    (c : String) :
    (c ∈ s.channels ∧ c ∉ s.pending ∪ s.channels.filter fun c => c ∉ wanted ∧ c ∉ s.pending) ↔
      c ∈ wanted := by
  rw [List.mem_union_iff, List.mem_filter, decide_eq_true_eq]
  constructor
  · rintro ⟨hchannels, hpending⟩
    by_contra hwanted
    exact hpending (.inr ⟨hchannels, hwanted, fun hmem => hpending (.inl hmem)⟩)
  · intro hwanted
    obtain ⟨hchannels, hpending⟩ := hlisted c hwanted
    refine ⟨hchannels, ?_⟩
    rintro (hmem | ⟨-, hnot, -⟩)
    · exact hpending hmem
    · exact hnot hwanted

/-- After the removal exactly what is wanted is listed. -/
theorem current_unsubscribe (h : Unasked s → s.Current base) (hunasked : Unasked s')
    (hstep : s.unsubscribe = some s') :
    s'.Current base := by
  rw [State.unsubscribe] at hstep
  split at hstep
  · next wanted hphase =>
      obtain rfl := Option.some.inj hstep
      have hcurrent := h (hunasked.mono rfl rfl subset_send (List.Subset.refl _) rfl)
      simp only [State.Current, hphase] at hcurrent
      exact fun c => (listed_unsubscribe hcurrent.2 c).trans (hcurrent.1 c)
  · cases hstep

/-- The ping ends the round. -/
theorem current_ping (h : Unasked s → s.Current base) (hunasked : Unasked s')
    (hstep : s.ping = some s') :
    s'.Current base := by
  rw [State.ping] at hstep
  split at hstep
  · next hphase =>
      obtain rfl := Option.some.inj hstep
      have hcurrent := h (hunasked.mono rfl rfl (List.subset_append_left _ _)
        (List.Subset.refl _) rfl)
      simp only [State.Current, hphase] at hcurrent
      exact hcurrent
  · cases hstep

/-- Reading a reply that asks for nothing leaves a state that asked for nothing. -/
theorem unasked_of_read {reply : Reply} {replies : List Reply} (hqueue : s.queue = [])
    (hchanged : s.changed = none)
    (hpipe : ∀ channels, .subscribe channels ∈ s.pipe → channels = []) (hinbox : s.inbox = none)
    (hreplies : s.replies = reply :: replies) (hreply : ∀ c, reply ≠ .subscribed c)
    (hrest : ∀ c, .subscribed c ∉ replies) :
    Unasked s where
  queue := hqueue
  changed := hchanged
  calm :=
    { pipe := hpipe
      replies := by
        intro c hc
        rw [hreplies] at hc
        rcases List.mem_cons.mp hc with hc | hc
        · exact hreply c hc.symm
        · exact hrest c hc
      inbox := by
        intro c hc
        rw [hinbox] at hc
        cases hc }

/-- The answer to `unsubscribe` ends a removal that was decided before. -/
theorem current_read (h : Unasked s → s.Current base) (hunasked : Unasked s')
    (hstep : s.read = some s') :
    s'.Current base := by
  rw [State.read] at hstep
  split at hstep
  · next channel replies hinbox hreplies =>
      obtain rfl := Option.some.inj hstep
      have hs : Unasked s := unasked_of_read hunasked.queue hunasked.changed hunasked.calm.pipe
        hinbox hreplies
        (fun _ => Reply.noConfusion) hunasked.calm.replies
      exact (h hs).mono rfl (fun c => listed_read channel) fun c => Iff.rfl
  · next reply replies _ hinbox hreplies =>
      obtain rfl := Option.some.inj hstep
      have hs : Unasked s := unasked_of_read hunasked.queue hunasked.changed hunasked.calm.pipe
        hinbox hreplies
        (fun c heq => hunasked.calm.inbox c (congrArg some heq)) hunasked.calm.replies
      exact (h hs).mono rfl (fun c => Iff.rfl) fun c => Iff.rfl
  · cases hstep

/-- A reply to `subscribe` asks for a round, the others for nothing. -/
theorem current_handle (h : Unasked s → s.Current base) (hunasked : Unasked s')
    (hstep : s.handle base = some s') :
    s'.Current base := by
  -- a reply that is no confirmation changes nothing the round depends on
  have hkeep : ∀ reply, s.inbox = some reply → (∀ c, reply ≠ .subscribed c) → s'.queue = s.queue →
      s'.changed = s.changed → s'.pipe = s.pipe → s'.replies = s.replies → s.Current base := by
    intro reply hinbox hreply hqueue hchanged hpipe hreplies
    refine h ⟨hqueue.symm.trans hunasked.queue, hchanged.symm.trans hunasked.changed, ?_, ?_, ?_⟩
    · exact hpipe ▸ hunasked.calm.pipe
    · exact hreplies ▸ hunasked.calm.replies
    · intro c hc
      rw [hinbox] at hc
      exact hreply c (Option.some.inj hc)
  rw [State.handle] at hstep
  split at hstep
  -- a dropped channel queues a change, so the node has something to do
  · obtain rfl := Option.some.inj hstep
    exact absurd hunasked.queue append_change_ne_nil
  · next n _ hinbox =>
      split_ifs at hstep
      all_goals
        obtain rfl := Option.some.inj hstep
        have hs := hkeep _ hinbox (fun _ => Reply.noConfusion) rfl rfl rfl rfl
        exact hs.mono rfl (fun c => Iff.rfl) fun c => Iff.rfl
  · next channel data _ hinbox =>
      obtain rfl := Option.some.inj hstep
      have hs := hkeep _ hinbox (fun _ => Reply.noConfusion) rfl rfl rfl rfl
      exact hs.mono rfl (fun c => Iff.rfl) fun c => Iff.rfl
  · next channel _ hinbox =>
      obtain rfl := Option.some.inj hstep
      have hs := hkeep _ hinbox (fun _ => Reply.noConfusion) rfl rfl rfl rfl
      exact hs.mono rfl (fun c => Iff.rfl) fun c => Iff.rfl
  · cases hstep

theorem current_serve (h : Unasked s → s.Current base) (hunasked : Unasked s')
    (hstep : s.serve = some s') : s'.Current base := by
  rw [State.serve] at hstep
  split at hstep
  · cases hstep
  · next command pipe hpipe =>
      obtain rfl := Option.some.inj hstep
      -- a command that is answered by a confirmation would leave one among the replies
      have hs : Unasked s :=
        { queue := hunasked.queue
          changed := hunasked.changed
          calm :=
            { pipe := by
                intro channels hchannels
                rw [hpipe] at hchannels
                rcases List.mem_cons.mp hchannels with rfl | hchannels
                · -- its answers would be on their way
                  cases channels with
                  | nil => rfl
                  | cons c channels =>
                      exact absurd (by simp [Command.answers]) (hunasked.calm.replies c)
                · exact hunasked.calm.pipe channels hchannels
              replies := fun c hc => hunasked.calm.replies c (List.mem_append_left _ hc)
              inbox := hunasked.calm.inbox } }
      exact (h hs).mono rfl (fun c => Iff.rfl) fun c => Iff.rfl

/-- One step, by its kind. -/
theorem current_next (halive : Alive base s) (h : Unasked s → s.Current base)
    (hstep : next base s a = some s') (hunasked : Unasked s') : s'.Current base := by
  have hreplies : ∀ (replies : List Reply) (published owed : List (String × String)),
    s.replies ⊆ replies →
      Unasked { s with replies := replies, published := published, owed := owed } →
      State.Current base { s with replies := replies, published := published, owed := owed } := by
    intro replies published owed hsubset hunasked
    have hs : Unasked s := hunasked.mono rfl rfl (List.Subset.refl _) hsubset rfl
    exact (h hs).mono rfl (fun c => Iff.rfl) fun c => Iff.rfl
  have hsubset : ∀ (c : Prop) [Decidable c] (reply : Reply),
      s.replies ⊆ if c then s.replies ++ [reply] else s.replies := by
    intro c _ reply
    split_ifs
    · exact List.subset_append_left _ _
    · exact List.Subset.refl _
  cases a with
  | enter sid room =>
      obtain rfl := Option.some.inj hstep
      exact absurd hunasked.queue append_change_ne_nil
  | enrol sid room =>
      obtain rfl := Option.some.inj hstep
      exact absurd hunasked.queue append_change_ne_nil
  | leave sid room =>
      obtain rfl := Option.some.inj hstep
      exact current_leave h hunasked
  | publish room data =>
      obtain rfl := Option.some.inj hstep
      exact hreplies _ _ _ (hsubset _ _) hunasked
  | broadcast data =>
      obtain rfl := Option.some.inj hstep
      exact hreplies _ _ s.owed (hsubset _ _) hunasked
  | fetch =>
      simp only [next, State.fetch] at hstep
      split at hstep
      · obtain rfl := Option.some.inj hstep
        cases hunasked.changed
      · cases hstep
  | collect => exact current_collect hstep
  | subscribe => exact current_subscribe h hunasked hstep
  | unsubscribe => exact current_unsubscribe h hunasked hstep
  | ping => exact current_ping h hunasked hstep
  | read => exact current_read h hunasked hstep
  | handle => exact current_handle h hunasked hstep
  | serve => exact current_serve h hunasked hstep
  | reconnect =>
      simp only [next, State.reconnect] at hstep
      split_ifs at hstep
      obtain rfl := Option.some.inj hstep
      -- the common channel is among those subscribed to again
      have hnil : s.channels = [] := hunasked.calm.pipe s.channels (List.mem_singleton_self _)
      exact absurd (hnil ▸ halive.listed.1) List.not_mem_nil
  | restart =>
      obtain rfl := Option.some.inj hstep
      exact absurd hunasked.queue append_change_ne_nil

/-- Whenever nobody has asked for a round the listed channels are those wanted. -/
theorem current_reachable (h : Reachable base s) : Unasked s → s.Current base := by
  refine h.invariant_of (fun s hs => alive_reachable hs) ?_ fun a s s' halive h hstep =>
    current_next halive h hstep
  rintro s rfl hunasked
  cases hunasked.queue

/-! ## Rest -/

/-- Nothing is on its way. -/
def State.Quiet (s : State) : Prop := s.pipe = [] ∧ s.replies = [] ∧ s.inbox = none

/-- The listener waits, and nothing is left for it to do. -/
structure Rest (s : State) : Prop where
  phase : s.phase = .idle
  quiet : s.Quiet
  queue : s.queue = []
  changed : s.changed = none

instance (s : State) : Decidable (Rest s) :=
  decidable_of_iff (s.phase = .idle ∧ (s.pipe = [] ∧ s.replies = [] ∧ s.inbox = none) ∧
    s.queue = [] ∧ s.changed = none)
    ⟨fun ⟨hphase, hquiet, hqueue, hchanged⟩ => ⟨hphase, hquiet, hqueue, hchanged⟩,
      fun ⟨hphase, hquiet, hqueue, hchanged⟩ => ⟨hphase, hquiet, hqueue, hchanged⟩⟩

/-- When nothing is on its way, nobody is waiting for an answer. -/
theorem waiters_eq_nil (h : Alive base s) (hphase : s.phase = .idle) (hquiet : s.Quiet) :
    s.waiters = [] := by
  obtain ⟨hpipe, hreplies, hinbox⟩ := hquiet
  by_contra hne
  have hanswer := h.answer hphase hne
  simp [State.Answer, hpipe, hreplies, hinbox] at hanswer

/-- At rest nobody has asked for a round. -/
theorem Rest.unasked (h : Rest s) : Unasked s := by
  obtain ⟨hpipe, hreplies, hinbox⟩ := h.quiet
  refine ⟨h.queue, h.changed, ?_, ?_, ?_⟩
  · simp [hpipe]
  · simp [hreplies]
  · simp [hinbox]

/-- At rest every join has returned. -/
theorem done_of_rest (h : Reachable base s) (hrest : Rest s) : s.done.Perm s.started := by
  have hkept := kept_reachable h
  have hnone : s.unreturned = [] := by
    rw [State.unreturned, hrest.queue, hrest.changed,
      waiters_eq_nil (alive_reachable h) hrest.phase hrest.quiet]
    rfl
  rwa [hnone, List.nil_append] at hkept

/-- At rest Redis has the channels that are listed, which are those wanted. -/
theorem subscribed_of_rest (h : Reachable base s) (hrest : Rest s) (c : String) :
    c ∈ s.subscribed ↔ c = base ∨ ∃ room, s.Occupied room ∧ roomChannel base room = c := by
  have hsettled : settled s.subscribed s.pipe = s.subscribed := by
    rw [hrest.quiet.1]
    rfl
  have hlisted : c ∈ s.subscribed ↔ s.Listed c := by
    rw [← hsettled]
    exact ⟨exact_reachable h c, (inv_reachable h).listed c⟩
  have hcurrent := current_reachable h hrest.unasked
  simp only [State.Current, hrest.phase] at hcurrent
  rw [hlisted, hcurrent c, mem_wanted]

/-- Whenever a run comes to rest, all joins that have begun have returned, and Redis has the common
channel and those of the occupied rooms for this instance: no join is missing, and no room that was
left is still heard. -/
theorem rest_spec (h : Reachable base s) (hrest : Rest s) :
    s.done.Perm s.started ∧
      ∀ c, c ∈ s.subscribed ↔ c = base ∨ ∃ room, s.Occupied room ∧ roomChannel base room = c :=
  ⟨done_of_rest h hrest, subscribed_of_rest h hrest⟩

/-- The events of a round and of the two answers to it. -/
def roundEvents : List Event :=
  [.fetch, .collect, .subscribe, .unsubscribe, .ping, .serve, .serve, .read, .handle,
    .read, .handle]

/-- The client enters the lobby and leaves it again. -/
def leaveRun : List Event := lobbyRun ++ roundEvents ++ [.leave "c1" lobby] ++ roundEvents

theorem rest_spec_lobby : ∃ s, Reachable "m" s ∧ Rest s ∧ s.done.Perm s.started ∧
    ∀ c, c ∈ s.subscribed ↔ c = "m" ∨ ∃ room, s.Occupied room ∧ roomChannel "m" room = c := by
  have hrun : (leaveRun.foldlM (next "m") (State.init "m")).any (fun s => decide (Rest s)) =
    true := by decide +kernel
  obtain ⟨s, hs, hrest⟩ := (Option.any_eq_true _ _).mp hrun
  have hrest : Rest s := of_decide_eq_true hrest
  have hreach : Reachable "m" s := reachable_of_run hs
  exact ⟨s, hreach, hrest, rest_spec hreach hrest⟩

end OpenWebUI.Rooms
