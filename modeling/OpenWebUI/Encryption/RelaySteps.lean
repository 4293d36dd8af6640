import Mathlib.Tactic.Linarith
import OpenWebUI.Encryption.RelayInvariant

/-! # What the relay's steps keep

One triple for each function of the relay. A function working on a session in memory is
entered with a stored world that satisfies the invariant and with a session that could be
saved into it; it leaves both in that state. It may be rejected, but no lookup in it
fails.
-/

namespace OpenWebUI.Encryption

open Py Program

/-! ## Counting deliveries -/

/-- The sequence numbers given to a participation. -/
def given (targets : List Target) (pid : String) : List ℕ :=
  targets.filterMap fun t => if t.participation = pid then some t.sequence else none

/-- What a delivery gives to a participation are the numbers of its targets. -/
theorem sequences_targets (targets : List Target) (body : Body) (v : View) (pid : String) :
    sequences (targets.map fun t => .event t.participation t.sid body v t.sequence) pid =
      given targets pid := by
  rw [sequences, List.filterMap_map]
  rfl

/-- The loop of `deliver` gives each recipient its next number and changes nothing else. -/
theorem bump_spec (recipients : List String) : ∀ s : Session,
    (∀ pid ∈ recipients, pid ∈ s.members) → recipients.Nodup →
    ∃ s' targets, bump s recipients = some (s', targets) ∧ SameSeats s s' ∧
      (∀ pid m', s'.members.get? pid = some m' → ∃ m, s.members.get? pid = some m ∧
        (pid ∈ recipients → m'.out = m.out + 1 ∧ given targets pid = [m.out + 1]) ∧
        (pid ∉ recipients → m'.out = m.out)) ∧
      ∀ pid, pid ∉ recipients → given targets pid = [] := by
  induction recipients with
  | nil =>
      intro s _ _
      refine ⟨s, [], rfl, .refl s, ?_, fun _ _ => rfl⟩
      intro pid m' hm'
      exact ⟨m', hm', by simp, fun _ => rfl⟩
  | cons r rest ih =>
      intro s hmem hnd
      obtain ⟨hr, hnd⟩ := List.nodup_cons.mp hnd
      obtain ⟨m₀, hm₀⟩ := (Dict.mem_iff_exists _ _).mp (hmem r (List.mem_cons_self ..))
      -- the session after the first recipient
      let m₁ : Member := { m₀ with out := m₀.out + 1 }
      let s₁ : Session := { s with members := s.members.set r m₁ }
      have hseats : SameSeats s s₁ := by
        refine ⟨rfl, rfl, rfl, ?_⟩
        intro pid
        simp only [s₁, Dict.get?_set]
        split_ifs with hp
        · rw [hp, hm₀]
          rfl
        · rfl
      obtain ⟨s', targets, hbump, hseats', houts, hnone⟩ := ih s₁
        (fun pid hpid => (hseats.mem_iff pid).mpr (hmem pid (List.mem_cons_of_mem r hpid))) hnd
      refine ⟨s', ⟨r, m₀.sid, m₀.out + 1⟩ :: targets, ?_, hseats.trans hseats', ?_, ?_⟩
      · simp only [bump, hm₀, Option.bind_eq_bind, Option.bind_some]
        change (bump s₁ rest).bind _ = _
        rw [hbump]
        rfl
      · intro pid m' hm'
        obtain ⟨m, hm, hin, hout⟩ := houts pid m' hm'
        simp only [s₁, Dict.get?_set] at hm
        by_cases hp : pid = r
        · -- the first recipient is not met again
          subst hp
          rw [if_pos rfl, Option.some.injEq] at hm
          refine ⟨m₀, hm₀, fun _ => ⟨?_, ?_⟩, fun h => absurd (List.mem_cons_self ..) h⟩
          · rw [hout hr, ← hm]
          · rw [given, List.filterMap_cons]
            dsimp only
            rw [if_pos rfl]
            exact congrArg (List.cons _) (hnone pid hr)
        -- any other member is left to the rest
        · rw [if_neg hp] at hm
          have hskip : given (⟨r, m₀.sid, m₀.out + 1⟩ :: targets) pid = given targets pid := by
            rw [given, List.filterMap_cons]
            dsimp only
            rw [if_neg (Ne.symm hp)]
            rfl
          refine ⟨m, hm, ?_, ?_⟩
          · intro hpid
            rw [hskip]
            exact hin ((List.mem_cons.mp hpid).resolve_left hp)
          · exact fun hpid => hout fun h => hpid (List.mem_cons_of_mem r h)
      · intro pid hpid
        rw [List.mem_cons, not_or] at hpid
        rw [given, List.filterMap_cons]
        dsimp only
        rw [if_neg (Ne.symm hpid.1)]
        exact hnone pid hpid.2

/-! ## Saving and delivering -/

section Handlers

variable {home : String → String} {env : Env} {issued : List String} {c : String}

/-- The moment of the request: its time, and the participations handed out before. -/
def Current (env : Env) (issued : List String) (w : World) : Prop :=
  w.clock = env.now ∧ w.issued = issued

/-- The stored world is sound. -/
def Safe (home : String → String) (env : Env) (issued : List String) (w : World) : Prop :=
  WorldInv home w ∧ Current env issued w

/-- The session in memory may be saved, and is not expired. -/
def Holds (home : String → String) (c : String) (s : Session) (w : World) : Prop :=
  WorldInv home (w.store c (some s)) ∧ w.clock < s.expires

/-- A session that may be saved is sound. -/
theorem Holds.session {s : Session} {w : World} (h : Holds home c s w) : SessionInv c s :=
  h.1.session c s (by simp)

/-- A session in memory. -/
def Ready (home : String → String) (env : Env) (issued : List String) (c : String) (s : Session)
    (w : World) : Prop :=
  Current env issued w ∧ Holds home c s w

/-- Nothing but `Rejected` is raised, and then the stored world is sound. -/
def Rejects (home : String → String) (env : Env) (issued : List String) (e : Failure) (w : World) :
    Prop :=
  e = .rejected ∧ Safe home env issued w

/-- The session is stored, and the stored world is sound. -/
def Settled (home : String → String) (env : Env) (issued : List String) (c : String)
    (s : Option Session) (w : World) : Prop :=
  Safe home env issued w ∧ w.live c = s

/-- A session is live until it expires. -/
theorem live_eq_some {w : World} {s : Session} :
    w.live c = some s ↔ w.registry c = some s ∧ w.clock < s.expires := by
  rw [World.live, Option.filter_eq_some_iff, decide_eq_true_eq]

/-- A stored session may be worked on. -/
theorem Settled.ready {s : Session} {w : World} (h : Settled home env issued c (some s) w) :
    Ready home env issued c s w := by
  obtain ⟨⟨hinv, hnow⟩, hlive⟩ := h
  obtain ⟨hreg, hexp⟩ := live_eq_some.mp hlive
  exact ⟨hnow, by rw [store_self hreg]; exact hinv, hexp⟩

/-- Renewing keeps the seats. -/
theorem sameSeats_renew (s : Session) : SameSeats s (s.renew env) := ⟨rfl, rfl, rfl, fun _ => rfl⟩

/-- A renewed session is not expired. -/
theorem renew_live {w : World} (hnow : w.clock = env.now) (s : Session) :
    w.clock < (s.renew env).expires := by
  rw [hnow, Session.renew, ttl]
  linarith

/-- Saving stores the session with its seats. -/
theorem save_triple (s : Session) : Triple (Ready home env issued c s) (save env s)
    (fun s' w => Settled home env issued c (some s') w ∧ SameSeats s s') (fun _ _ => False) := by
  rintro w ⟨hnow, hs⟩
  have hnew : WorldInv home (w.store c (some (s.renew env))) :=
    hs.1.replace_quiet hs.2 (hs.session.sameSeats (sameSeats_renew s))
      fun pid m hm => ⟨m, hm, rfl, rfl⟩
  change Settled home env issued c (some (s.renew env)) (w.store s.channel (some (s.renew env))) ∧ _
  rw [hs.session.channel_eq]
  exact ⟨⟨⟨hnew, hnow⟩, live_eq_some.mpr ⟨by simp, renew_live hnow.1 s⟩⟩, sameSeats_renew s⟩

/-- A delivery stores the session with its new counters and emits one event for each
recipient. -/
theorem deliver_exec (s : Session) (recipients : List String) (body : Body)
    (hmem : ∀ pid ∈ recipients, pid ∈ s.members) (hnd : recipients.Nodup) {w : World}
    (hw : Ready home env issued c s w) : ∃ s' es,
      (deliver env s recipients body).exec w = (.ok s', (w.store c (some s')).emit es) ∧
      Settled home env issued c (some s') ((w.store c (some s')).emit es) ∧ SameSeats s s' := by
  obtain ⟨hnow, hs⟩ := hw
  obtain ⟨s', targets, hbump, hseats, houts, hnone⟩ := bump_spec recipients s hmem hnd
  have hseats' : SameSeats s (s'.renew env) := hseats.trans (sameSeats_renew s')
  let es : List Emission := targets.map fun t =>
    .event t.participation t.sid body (view (s'.renew env)) t.sequence
  have hes : ∀ pid, sequences es pid = given targets pid := sequences_targets targets body _
  -- every recipient has one more event and one more on its counter
  have hdelivered : Delivered (w.emitted ++ es) (s'.renew env) := by
    intro pid m' hm'
    obtain ⟨m, hm, hin, hout⟩ := houts pid m' hm'
    have hold : sequences w.emitted pid = List.range' 1 m.out :=
      hs.1.delivered c s (by simp) pid m hm
    rw [sequences_append, hes, hold]
    by_cases hpid : pid ∈ recipients
    · obtain ⟨h1, h2⟩ := hin hpid
      rw [h1, h2, List.range'_1_concat, Nat.add_comm]
    · rw [hout hpid, hnone pid hpid, List.append_nil]
  have hnew : WorldInv home ((w.store c (some (s'.renew env))).emit es) := by
    refine hs.1.replace hs.2 (hs.session.sameSeats hseats') ?_ hdelivered ?_
    · intro pid m' hm'
      obtain ⟨m, hm, hsid, _⟩ := hseats'.get? hm'
      exact ⟨m, hm, hsid⟩
    · intro pid hpid
      rw [hes]
      exact hnone pid fun h => hpid (hmem pid h)
  have hchannel : s'.channel = c := by rw [hseats.1, hs.session.channel_eq]
  refine ⟨s'.renew env, es, ?_, ⟨⟨hnew, hnow⟩, ?_⟩, hseats'⟩
  · rw [deliver, hbump, ← hchannel]
    rfl
  · exact live_eq_some.mpr ⟨by simp, renew_live hnow.1 s'⟩

/-- A delivery stores the session with its seats. -/
theorem deliver_triple (s : Session) (recipients : List String) (body : Body)
    (hmem : ∀ pid ∈ recipients, pid ∈ s.members) (hnd : recipients.Nodup) :
    Triple (Ready home env issued c s) (deliver env s recipients body)
      (fun s' w => Settled home env issued c (some s') w ∧ SameSeats s s') (fun _ _ => False) := by
  intro w hw
  obtain ⟨s', es, hexec, hsettled, hseats⟩ := deliver_exec s recipients body hmem hnd hw
  rw [hexec]
  exact ⟨hsettled, hseats⟩

/-! ## Leaving -/

/-- A member of the session in memory is on a socket no other live session uses. -/
theorem Holds.unused {s : Session} {w : World} (h : Holds home c s w) {pid : String} {m : Member}
    (hm : s.members.get? pid = some m) : ∀ c' s', c' ≠ c → w.registry c' = some s' →
      w.clock < s'.expires → ∀ pid' m', s'.members.get? pid' = some m' → m'.sid ≠ m.sid := by
  intro c' s' hne hs' hlive pid' m' hm' hsid
  have hstored : (w.store c (some s)).registry c' = some s' := by simpa [hne] using hs'
  have h₁ := h.1.located c s (by simp) h.2 pid m hm
  have h₂ := h.1.located c' s' hstored hlive pid' m' hm'
  rw [hsid, h₁, Option.some.injEq] at h₂
  rw [h.session.channel_eq, (h.1.session c' s' hstored).channel_eq] at h₂
  exact hne h₂.symm

/-- The socket of a member that was taken out is free. -/
theorem Holds.unused_erased {s s' : Session} {w : World} (h : Holds home c s w) {pid : String}
    {m : Member} (hm : s.members.get? pid = some m)
    (hs' : ∀ p n, s'.members.get? p = some n → s.members.get? p = some n ∧ p ≠ pid) :
    Unused (w.store c (some s')) m.sid := by
  intro c₁ s₁ hs₁ hlive p n hn
  by_cases hc : c₁ = c
  · rw [store_registry, if_pos hc, Option.some.injEq] at hs₁
    subst hs₁
    obtain ⟨hn', hp⟩ := hs' p n hn
    exact fun hsid => hp (h.session.sids p pid n m hn' hm hsid)
  · rw [store_registry, if_neg hc] at hs₁
    exact h.unused hm c₁ s₁ hc hs₁ hlive p n hn

/-- Telling sockets without a live member that the session ended. -/
theorem foldl_end {α : Type} (sidOf : α → String) (worker channel : String)
    (session : Option String) (l : List α) : ∀ w : World, WorldInv home w →
      (∀ a ∈ l, home (sidOf a) = worker → Unused w (sidOf a)) →
      ∃ w', l.foldl (fun w a => (w.setLocal worker (sidOf a) none).emit
          [.ended (sidOf a) channel session]) w = w' ∧
        WorldInv home w' ∧ w'.registry = w.registry ∧ w'.clock = w.clock ∧
          w'.issued = w.issued := by
  induction l with
  | nil => exact fun w hw _ => ⟨w, rfl, hw, rfl, rfl, rfl⟩
  | cons a l ih =>
      intro w hw hunused
      have hquiet : ∀ pid sid body v n,
          Emission.event pid sid body v n ∉ [Emission.ended (sidOf a) channel session] := by simp
      have hnext := (hw.forget (hunused a (List.mem_cons_self ..))).emit hquiet
      obtain ⟨w', heq, h1, h2, h3, h4⟩ := ih _ hnext fun a' ha' =>
        hunused a' (List.mem_cons_of_mem a ha')
      exact ⟨w', heq, h1, h2, h3, h4⟩

/-- An invitation changes nothing that is stored. -/
theorem invite_triple (session : Option String) (channel : String) (o : Option Session) :
    Triple (Settled home env issued c o) (invite session channel)
      (fun _ w => Settled home env issued c o w)
      (fun _ _ => False) := by
  refine triple_modify ?_
  rintro w ⟨⟨hinv, hnow⟩, hlive⟩
  exact ⟨⟨hinv.emit (by simp), hnow⟩, hlive⟩

/-- The world without the session is sound, and its members' sockets are free there. -/
def Closable (home : String → String) (env : Env) (issued : List String) (c : String) (s : Session)
    (w : World) : Prop :=
  Current env issued w ∧ s.channel = c ∧ WorldInv home (w.store c none) ∧
    ∀ pid m, s.members.get? pid = some m → Unused (w.store c none) m.sid

/-- A session in memory may be ended. -/
theorem Ready.closable {s : Session} {w : World} (h : Ready home env issued c s w) :
    Closable home env issued c s w := by
  obtain ⟨hnow, hs⟩ := h
  have hdrop := hs.1.drop c
  rw [store_store] at hdrop
  refine ⟨hnow, hs.session.channel_eq, hdrop, ?_⟩
  intro pid m hm c₁ s₁ hs₁ hlive p n hn
  rw [store_registry] at hs₁
  split_ifs at hs₁ with hc
  exact hs.unused hm c₁ s₁ hc hs₁ hlive p n hn

/-- Ending a session. -/
theorem close_triple (s : Session) : Triple (Closable home env issued c s) (close env c (some s))
    (fun _ w => Settled home env issued c none w) (fun _ _ => False) := by
  rintro w ⟨hnow, _, hinv, hfree⟩
  obtain ⟨w', heq, h1, h2, h3, h4⟩ := foldl_end (fun e : String × Member => e.2.sid) env.worker c
    (some s.session) s.members.entries _ hinv fun e he _ =>
      hfree e.1 e.2 ((Dict.mem_entries_iff _ _ _).mp he)
  have hquiet : ∀ pid sid body v n,
      Emission.event pid sid body v n ∉ [Emission.available c none] := by simp
  have hexec : (close env c (some s)).exec w = (.ok ⟨⟩, w'.emit [.available c none]) := by
    rw [← heq]
    rfl
  rw [hexec]
  refine ⟨⟨h1.emit hquiet, h3.trans hnow.1, h4.trans hnow.2⟩, ?_⟩
  have hreg := congrFun h2 c
  rw [store_registry, if_pos rfl] at hreg
  exact congrArg (Option.filter _) hreg

/-- A loop over departures in progress: the session is stored, and the sockets of all
members taken out are free. -/
def Departing (home : String → String) (env : Env) (issued : List String) (c : String)
    (sids : List String) (s : Session) (w : World) : Prop :=
  Ready home env issued c s w ∧ ∀ sid ∈ sids, Unused (w.store c (some s)) sid

/-- The admitted are members, each once. -/
theorem admitted_spec (s : Session) :
    (∀ pid ∈ admitted s, pid ∈ s.members) ∧ (admitted s).Nodup := by
  unfold admitted
  constructor
  · intro pid hpid
    obtain ⟨e, he, rfl⟩ := List.mem_map.mp hpid
    exact Dict.mem_of_get? ((Dict.mem_entries_iff _ _ _).mp (List.mem_of_mem_filter he))
  · exact s.members.nodup_keys.sublist (List.filter_sublist.map _)

/-- One departure is delivered, and the loop may go on. -/
theorem depart_triple (s : Session) (e : String × Member) (sids : List String)
    (he : e.2.sid ∈ sids) :
    Triple (Departing home env issued c sids s) (depart env s e)
      (fun s' w => Departing home env issued c sids s' w ∧ Settled home env issued c (some s') w)
      (fun _ _ => False) := by
  rintro w ⟨⟨hnow, hs⟩, hunused⟩
  let w₁ := (w.setLocal env.worker e.2.sid none).emit [.ended e.2.sid s.channel (some s.session)]
  have hw₁ : Ready home env issued c s w₁ := by
    refine ⟨hnow, ?_, hs.2⟩
    exact (hs.1.forget fun _ => hunused _ he).emit (by simp)
  obtain ⟨hmem, hnd⟩ := admitted_spec s
  obtain ⟨s', es, hexec, hsettled, hseats⟩ :=
    deliver_exec s (admitted s) (.departed e.1 e.2.admitted) hmem hnd hw₁
  have hdepart : (depart env s e).exec w = (.ok s', (w₁.store c (some s')).emit es) := by
    rw [← hexec]
    rfl
  rw [hdepart]
  refine ⟨⟨hsettled.ready, ?_⟩, hsettled⟩
  intro sid hsid c₁ s₁ hs₁ hlive pid m hm
  by_cases hc : c₁ = c
  · rw [store_registry, if_pos hc, Option.some.injEq] at hs₁
    subst hs₁
    obtain ⟨m₀, hm₀, hsid₀, _⟩ := hseats.get? hm
    rw [← hsid₀]
    exact hunused sid hsid c s (by simp) hs.2 pid m₀ hm₀
  · rw [store_registry, if_neg hc] at hs₁
    have hold : (w.store c (some s)).registry c₁ = some s₁ := by
      simpa [w₁, hc] using hs₁
    exact hunused sid hsid c₁ s₁ hold hlive pid m hm

/-- `state['members'].pop` for each of the given participations. -/
theorem mapM_members {s : Session} {pids : List String} (h : ∀ pid ∈ pids, pid ∈ s.members) :
    ∃ removed, (pids.mapM fun pid => (s.members.get? pid).map fun m => (pid, m)) = some removed ∧
      removed.map Prod.fst = pids ∧ ∀ e ∈ removed, s.members.get? e.1 = some e.2 := by
  induction pids with
  | nil => exact ⟨[], rfl, rfl, by simp⟩
  | cons pid pids ih =>
      obtain ⟨m, hm⟩ := (Dict.mem_iff_exists _ _).mp (h pid (List.mem_cons_self ..))
      obtain ⟨removed, hr, hkeys, hget⟩ := ih fun p hp => h p (List.mem_cons_of_mem pid hp)
      refine ⟨(pid, m) :: removed, ?_, by rw [List.map_cons, hkeys], ?_⟩
      · rw [List.mapM_cons, hm, hr]
        rfl
      · intro e he
        rcases List.mem_cons.mp he with rfl | he
        · exact hm
        · exact hget e he

/-- Several members other than the host leave at once. -/
theorem SessionInv.foldl_erase {s : Session} (hs : SessionInv c s) (pids : List String)
    (hhost : s.host ∉ pids) :
    SessionInv c { s with members := pids.foldl Dict.erase s.members } := by
  induction pids generalizing s with
  | nil => exact hs
  | cons pid pids ih =>
      rw [List.mem_cons, not_or] at hhost
      exact ih (hs.erase (Ne.symm hhost.1)) hhost.2

/-- What `remove` needs: the session may be ended, and without the leaving members it may
be stored and their sockets are free. -/
def Leaving (home : String → String) (env : Env) (issued : List String) (c : String) (s : Session)
    (pids : List String) (w : World) : Prop :=
  Closable home env issued c s w ∧ (s.host ∉ pids →
    Ready home env issued c { s with members := pids.foldl Dict.erase s.members } w ∧
    ∀ pid ∈ pids, ∀ m, s.members.get? pid = some m →
      Unused (w.store c (some { s with members := pids.foldl Dict.erase s.members })) m.sid)

/-- Any members of a session in memory may leave. -/
theorem Ready.leaving {s : Session} {w : World} (h : Ready home env issued c s w)
    (pids : List String) :
    Leaving home env issued c s pids w := by
  refine ⟨h.closable, fun hhost => ?_⟩
  obtain ⟨hnow, hs⟩ := h
  have hold : ∀ p n, (pids.foldl Dict.erase s.members).get? p = some n →
      s.members.get? p = some n ∧ p ∉ pids := by
    intro p n hn
    rw [Dict.get?_foldl_erase] at hn
    split_ifs at hn with hp
    exact ⟨hn, hp⟩
  refine ⟨⟨hnow, hs.1.replace_quiet hs.2 (hs.session.foldl_erase pids hhost) ?_, hs.2⟩, ?_⟩
  · intro pid m hm
    exact ⟨m, (hold pid m hm).1, rfl, rfl⟩
  · intro pid hpid m hm
    refine hs.unused_erased hm ?_
    intro p n hn
    exact ⟨(hold p n hn).1, fun heq => (hold p n hn).2 (heq ▸ hpid)⟩

/-- Removing members ends the session with its host, or stores what is left. -/
theorem remove_triple (s : Session) (pids : List String) (hne : pids ≠ [])
    (hpids : ∀ pid ∈ pids, pid ∈ s.members) :
    Triple (Leaving home env issued c s pids) (remove env s pids)
      (fun o w => Settled home env issued c o w) (fun _ _ => False) := by
  unfold remove
  -- the host leaves, which closes the session
  refine triple_ite (fun _ => ?_) (fun hhost => ?_)
  · intro w hw
    have hclose := close_triple s w hw.1
    rw [exec_bind, hw.1.2.1]
    rcases hexec : (close env c (some s)).exec w with ⟨e | _, w'⟩
    · rw [hexec] at hclose
      exact hclose
    · rw [hexec] at hclose
      exact hclose
  -- others leave: their sockets are freed, and the session stays
  · obtain ⟨removed, hremoved, hkeys, hget⟩ := mapM_members hpids
    rw [hremoved]
    dsimp only
    let s₁ : Session := { s with members := pids.foldl Dict.erase s.members }
    have hstart : ∀ w, Leaving home env issued c s pids w →
        Departing home env issued c (removed.map fun e => e.2.sid) s₁ w := by
      rintro w ⟨_, hleave⟩
      obtain ⟨hready, hfree⟩ := hleave hhost
      refine ⟨hready, ?_⟩
      intro sid hsid
      obtain ⟨e, he, rfl⟩ := List.mem_map.mp hsid
      exact hfree e.1 (hkeys ▸ List.mem_map.mpr ⟨e, he, rfl⟩) e.2 (hget e he)
    cases removed with
    | nil => exact absurd hkeys.symm (by simpa using hne)
    | cons e rest =>
        have hmem : ∀ e' ∈ e :: rest, e'.2.sid ∈ (e :: rest).map fun e => e.2.sid :=
          fun e' he' => List.mem_map.mpr ⟨e', he', rfl⟩
        rw [List.foldlM_cons]
        have hfirst := (depart_triple s₁ e _ (hmem e (List.mem_cons_self ..))).mono hstart
          -- the turn of the loop keeps both what the next one needs and what is left at the end
          (fun _ _ h => h) (fun _ _ h => h)
        let J : Session → World → Prop := fun s w =>
          Departing home env issued c ((e :: rest).map fun e => e.2.sid) s w ∧
            Settled home env issued c (some s) w
        have hturn : ∀ s', ∀ e' ∈ rest, Triple (J s') (depart env s' e') J fun _ _ => False :=
          fun s' e' he' => (depart_triple s' e' _ (hmem e' (List.mem_cons_of_mem e he'))).mono
            (fun _ h => h.1) (fun _ _ h => h) (fun _ _ h => h)
        have hrest : ∀ s', Triple (J s') (rest.foldlM (depart env) s') J fun _ _ => False :=
          triple_foldlM rest hturn
        refine triple_bind (triple_bind hfirst hrest) ?_
        intro s'
        exact triple_pure _ fun w h => h.2

theorem mem_stale {s : Session} {pid : String} (h : pid ∈ stale env s) : pid ∈ s.members := by
  obtain ⟨e, he, rfl⟩ := List.mem_map.mp h
  exact Dict.mem_of_get? ((Dict.mem_entries_iff _ _ _).mp (List.mem_of_mem_filter he))

/-- Pruning leaves the session stored, or ended. -/
theorem prune_triple (o : Option Session) : Triple (Settled home env issued c o) (prune env o)
    (fun o' w => Settled home env issued c o' w) (fun _ _ => False) := by
  cases o with
  | none => exact triple_pure _ fun _ hw => hw
  | some s =>
      unfold prune
      refine triple_ite (fun _ => ?_) fun _ => triple_ite (fun hne => ?_) fun _ => ?_
      · intro w hw
        have hclose := close_triple s w hw.ready.closable
        rw [exec_bind, hw.ready.2.session.channel_eq]
        rcases hexec : (close env c (some s)).exec w with ⟨e | _, w'⟩
        · rw [hexec] at hclose
          exact hclose
        · rw [hexec] at hclose
          exact hclose
      · exact (remove_triple s (stale env s) hne fun pid hpid => mem_stale hpid).mono
          (fun _ hw => hw.ready.leaving _) (fun _ _ h => h) fun _ _ h => h
      · exact triple_pure _ fun _ hw => hw

end Handlers

end OpenWebUI.Encryption
