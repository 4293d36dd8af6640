import OpenWebUI.Encryption.RelayRequests
import OpenWebUI.Lib.Transition

/-! # Runs of the relay

Every request is one step, and so are a disconnect, a change of a channel's access, a
turn of the sweep and an expiry. A request that looks up a list or an object as an id
raises instead of being rejected: the worker then forgets its sockets while the session
keeps their members. In runs without such requests the invariant holds throughout.
-/

namespace OpenWebUI.Encryption

open Py Program

/-- One step of the relay. -/
inductive RelayStep where
  | request (env : Env) (action : Action) (sid : String) (data : Json)
  | disconnect (env : Env) (sid : String)
  | invalidate (env : Env) (channel : String)
  | sweep (env : Env) (channel : String)
  | expire (now : ℚ) (channel : String)

def World.at (w : World) (now : ℚ) : World := { w with clock := now }

/-- A step at its time: a socket is served by its own worker, and identifiers are fresh. -/
def Steps (home : String → String) : RelayStep → World → World → Prop
  | .request env action sid data, w, w' =>
    w.clock ≤ env.now ∧ env.worker = home sid ∧ env.freshParticipation ∉ w.issued ∧
      w' = (handle env action sid data (w.at env.now)).1
  | .disconnect env sid, w, w' =>
    w.clock ≤ env.now ∧ env.worker = home sid ∧ w' = disconnect env sid (w.at env.now)
  | .invalidate env channel, w, w' => w.clock ≤ env.now ∧ w' = invalidate env channel (w.at env.now)
  | .sweep env channel, w, w' => w.clock ≤ env.now ∧ w' = sweep env channel (w.at env.now)
  | .expire now channel, w, w' => w.clock ≤ now ∧ w' = expire channel (w.at now)

/-- The ids a request looks up are no lists and no objects. -/
def NamesIds : RelayStep → Prop
  | .request _ action _ data => ∀ o, data.asObj = some o → Lookups action o
  | _ => True

/-- No session, no socket, nothing emitted. -/
def Fresh (w : World) : Prop :=
  (∀ c, w.registry c = none) ∧ w.emitted = []

/-- The empty world is sound. -/
theorem Fresh.inv {home : String → String} {w : World} (h : Fresh w) : WorldInv home w := by
  have hnone : ∀ {c s}, w.registry c ≠ some s := by simp [h.1]
  exact
    { session := fun _ _ hs => absurd hs hnone
      delivered := fun _ _ hs => absurd hs hnone
      located := fun _ _ hs => absurd hs hnone
      apart := fun _ _ _ _ _ hs => absurd hs hnone
      heard := fun _ _ => by rw [h.2]; rfl
      seated := fun _ _ hs => absurd hs hnone }

section Steps

variable {home : String → String} {env : Env} {w : World}

/-- An accepted request carries an object. -/
theorem accept_channel {sid channel user : String} {data : Json} {o : Obj}
    (h : accept env sid data = some (channel, user, o)) : data.asObj = some o := by
  unfold accept at h
  simp only [Option.bind_eq_bind, Option.bind_eq_some_iff, Option.pure_def, Option.some.injEq,
    Prod.mk.injEq] at h
  obtain ⟨o', ho, _, _, _, _, _, _, _, _, _, _, _, _, rfl⟩ := h
  exact ho

/-- A request keeps the invariant, unless a lookup raises. -/
theorem handle_sound (h : WorldInv home w) (hnow : w.clock = env.now) {sid : String}
    (hsid : env.worker = home sid) (hfresh : env.freshParticipation ∉ w.issued) (action : Action)
    {data : Json} (hids : ∀ o, data.asObj = some o → Lookups action o) :
    WorldInv home (handle env action sid data w).1 := by
  unfold handle
  cases haccept : accept env sid data with
  | none => exact h
  | some r =>
      obtain ⟨channel, user, o⟩ := r
      have htransact := transact_triple (c := channel) action sid user o hsid.symm hfresh
        (hids o (accept_channel haccept)) w ⟨h, hnow, rfl⟩
      dsimp only
      rcases hexec : (transact env action sid user channel o).exec w with ⟨e | reply, w'⟩
      · rw [hexec] at htransact
        obtain ⟨rfl, hsafe⟩ := htransact
        exact hsafe.1
      · rw [hexec] at htransact
        exact htransact

/-- A worker may forget all sockets of a channel without a live session. -/
theorem failLocal_sound (h : WorldInv home w) {channel : String} (hlive : w.live channel = none)
    (worker : String) : WorldInv home (w.failLocal worker channel) := by
  obtain ⟨w', heq, hinv, _⟩ := foldl_end (fun e : String × String => e.1) worker channel
    none ((w.locals worker).entries.filter fun e => decide (e.2 = channel)) w h (by
      rintro ⟨sid, c⟩ he hworker c' s hs hexp pid m hm heq
      obtain ⟨hmem, hc⟩ := List.mem_filter.mp he
      have hl := h.located c' s hs hexp pid m hm
      have hsid : m.sid = sid := heq
      have hget := (Dict.mem_entries_iff _ _ _).mp hmem
      rw [hsid, hworker, hget, (h.session c' s hs).channel_eq, Option.some.injEq] at hl
      -- a live member on the socket would make the session live
      have hlive' : w.live channel = some s := by
        rw [live_eq_some, ← of_decide_eq_true hc, hl]
        exact ⟨hs, hexp⟩
      rw [hlive] at hlive'
      cases hlive')
  have hfold : w.failLocal worker channel = w' := heq
  rw [hfold]
  exact hinv

/-- The sweep of a channel keeps the world sound. -/
theorem sweep_sound (h : WorldInv home w) (hnow : w.clock = env.now) (channel : String) :
    WorldInv home (sweep env channel w) := by
  unfold sweep
  cases hlive : w.live channel with
  | none => exact failLocal_sound h hlive env.worker
  | some s =>
      have hsettled : Settled home env w.issued channel (some s) w := ⟨⟨h, hnow, rfl⟩, hlive⟩
      have hprune := prune_triple (some s) w hsettled
      dsimp only
      rcases hexec : (prune env (some s)).exec w with ⟨e | o, w'⟩
      · rw [hexec] at hprune
        exact hprune.elim
      · rw [hexec] at hprune
        exact hprune.1.1

/-- Revoking access keeps the world sound. -/
theorem invalidate_sound (h : WorldInv home w) (hnow : w.clock = env.now) (channel : String) :
    WorldInv home (invalidate env channel w) := by
  unfold invalidate
  cases hlive : w.live channel with
  | none =>
      have hquiet : ∀ pid sid body v n,
          Emission.event pid sid body v n ∉ [Emission.available channel none] := by simp
      exact (h.drop channel).emit hquiet
  | some s =>
      have hsettled : Settled home env w.issued channel (some s) w := ⟨⟨h, hnow, rfl⟩, hlive⟩
      have hclose := close_triple s w hsettled.ready.closable
      rcases hexec : (close env channel (some s)).exec w with ⟨e | _, w'⟩
      · rw [hexec] at hclose
        exact hclose.elim
      · rw [hexec] at hclose
        exact hclose.1.1

/-- The end of a record's lifetime keeps the world sound. -/
theorem expire_sound (h : WorldInv home w) (channel : String) :
    WorldInv home (expire channel w) := by
  unfold expire
  split_ifs
  · exact h.drop channel
  · exact h

/-- A socket that is gone may be forgotten before its member is taken out. -/
theorem Settled.leaving_disconnected {s : Session} {channel sid pid : String} {m : Member}
    (h : Settled home env w.issued channel (some s) w) (hm : s.members.get? pid = some m)
    (hsid : m.sid = sid) (worker : String) :
    Leaving home env w.issued channel s [pid] (w.setLocal worker sid none) := by
  obtain ⟨hclosable, hleave⟩ := h.ready.leaving [pid]
  obtain ⟨hnow, hchannel, hinv, hfree⟩ := hclosable
  refine ⟨⟨hnow, hchannel, hinv.forget fun _ => hsid ▸ hfree pid m hm, hfree⟩, fun hhost => ?_⟩
  obtain ⟨⟨_, hholds⟩, hunused⟩ := hleave hhost
  have hpid := hunused pid (List.mem_singleton_self pid) m hm
  exact ⟨⟨hnow, hholds.1.forget fun _ => hsid ▸ hpid, hholds.2⟩, hunused⟩

/-- A lost socket keeps the world sound. -/
theorem disconnect_sound (h : WorldInv home w) (hnow : w.clock = env.now) {sid : String}
    (hsid : env.worker = home sid) : WorldInv home (disconnect env sid w) := by
  unfold disconnect
  cases hlocal : (w.locals env.worker).get? sid with
  | none => exact h
  | some channel =>
      dsimp only
      -- a live member on the socket is in the channel the worker knows
      have hmember : ∀ c s, w.registry c = some s → w.clock < s.expires → ∀ pid m,
          s.members.get? pid = some m → m.sid = sid → w.live channel = some s := by
        intro c s hs hexp pid m hm heq
        have hl := h.located c s hs hexp pid m hm
        rw [heq, ← hsid, hlocal, (h.session c s hs).channel_eq, Option.some.injEq] at hl
        rw [live_eq_some, hl]
        exact ⟨hs, hexp⟩
      have hlive : (w.setLocal env.worker sid none).live channel = w.live channel := rfl
      rw [hlive]
      cases hstate : w.live channel with
      | none =>
          refine h.forget fun _ c s hs hexp pid m hm heq => ?_
          have hsome := hmember c s hs hexp pid m hm heq
          rw [hstate] at hsome
          cases hsome
      | some s =>
          dsimp only
          cases hfind : s.members.entries.find? fun e => decide (e.2.sid = sid) with
          | none =>
              refine h.forget fun _ c s' hs' hexp pid m hm heq => ?_
              have hsome := hmember c s' hs' hexp pid m hm heq
              rw [hstate, Option.some.injEq] at hsome
              subst hsome
              have hno := List.find?_eq_none.mp hfind (pid, m) ((Dict.mem_entries_iff _ _ _).mpr hm)
              exact hno (by simpa using heq)
          | some e =>
              have he := List.find?_some hfind
              have hget := (Dict.mem_entries_iff _ _ _).mp (List.mem_of_find?_eq_some hfind)
              have hsettled : Settled home env w.issued channel (some s) w :=
                ⟨⟨h, hnow, rfl⟩, hstate⟩
              have hremove := remove_triple s [e.1] (by simp)
                (fun p hp => (List.mem_singleton.mp hp) ▸ Dict.mem_of_get? hget) _
                (hsettled.leaving_disconnected hget (of_decide_eq_true he) env.worker)
              dsimp only
              rcases hexec :
                (remove env s [e.1]).exec (w.setLocal env.worker sid none) with ⟨e | o, w'⟩
              · rw [hexec] at hremove
                exact hremove.elim
              · rw [hexec] at hremove
                exact hremove.1.1

/-- Every step whose ids can be looked up keeps the invariant. -/
theorem worldInv_step {step : RelayStep} {w' : World} (h : WorldInv home w)
    (hstep : Steps home step w w') (hids : NamesIds step) : WorldInv home w' := by
  cases step with
  | request env action sid data =>
      obtain ⟨hnow, hsid, hfresh, rfl⟩ := hstep
      exact handle_sound (h.advance hnow) rfl hsid hfresh action hids
  | disconnect env sid =>
      obtain ⟨hnow, hsid, rfl⟩ := hstep
      exact disconnect_sound (h.advance hnow) rfl hsid
  | invalidate env channel =>
      obtain ⟨hnow, rfl⟩ := hstep
      exact invalidate_sound (h.advance hnow) rfl channel
  | sweep env channel =>
      obtain ⟨hnow, rfl⟩ := hstep
      exact sweep_sound (h.advance hnow) rfl channel
  | expire now channel =>
      obtain ⟨hnow, rfl⟩ := hstep
      exact expire_sound (h.advance hnow) channel

end Steps

/-- The membership of a session is in order, and each member has received exactly the
events `1, …, out`. -/
structure InOrder (w : World) (s : Session) : Prop where
  host : ∃ m, s.members.get? s.host = some m ∧ m.admitted = true
  bound : ∀ pid m, s.members.get? pid = some m → m.admitted = true →
    (∃ key bytes, m.key = some key ∧ b64decode key = some bytes ∧ bytes.length = 32) ∨
      (pid = s.host ∧ m.key = none)
  users : ∀ pid pid' m m', s.members.get? pid = some m → s.members.get? pid' = some m' →
    m.user = m'.user → pid = pid'
  sids : ∀ pid pid' m m', s.members.get? pid = some m → s.members.get? pid' = some m' →
    m.sid = m'.sid → pid = pid'
  size : s.members.size ≤ 128
  sequences : ∀ pid m, s.members.get? pid = some m → sequences w.emitted pid = List.range' 1 m.out

/-- In a sound world every session is in order. -/
theorem WorldInv.inOrder {home : String → String} {w : World} (h : WorldInv home w) {c : String}
    {s : Session} (hs : w.registry c = some s) : InOrder w s := by
  have hinv := h.session c s hs
  refine ⟨hinv.host, ?_, hinv.users, hinv.sids, hinv.size, h.delivered c s hs⟩
  intro pid m hm ha
  cases hkey : m.key with
  | some key =>
      obtain ⟨bytes, hbytes, hlen⟩ := Option.map_eq_some_iff.mp (hinv.keys pid m hm key hkey)
      exact Or.inl ⟨key, bytes, rfl, hbytes, hlen⟩
  | none => exact Or.inr ⟨(hinv.bound pid m hm ha).resolve_left fun hne => hne hkey, rfl⟩

/-- In every run whose requests name ids that can be looked up, every session is in order. -/
theorem relay_inOrder (home : String → String) (w : World)
    (h : Transition.Reachable Fresh (fun step w w' => Steps home step w w' ∧ NamesIds step) w)
    (c : String) (s : Session) (hs : w.registry c = some s) : InOrder w s := by
  have hinv : WorldInv home w :=
    h.invariant (fun _ => Fresh.inv) fun _ _ _ hw hstep => worldInv_step hw hstep.1 hstep.2
  exact hinv.inOrder hs

/-! ## Runs on one worker -/

/-- A worker at time `1`, with a policy that lets every user take part. -/
def openEnv (user fresh : String) : Env where
  worker := "w"
  now := 1
  authorize := fun _ _ => some user
  size := fun _ => 0
  allowed := true
  eligible := fun user => some user
  active := fun _ => true
  channelMember := fun _ => true
  freshParticipation := fresh
  freshSession := "S"

/-- A request of `user` on the socket `sid`. -/
structure Call where
  user : String
  fresh : String
  sid : String
  action : Action
  data : Obj

def Call.json (call : Call) : Json := .obj (("channel", .str "c") :: call.data)

def Call.step (call : Call) : RelayStep :=
  .request (openEnv call.user call.fresh) call.action call.sid call.json

/-- The world after the calls, from one without sessions. -/
def after : List Call → World
  | [] => ⟨fun _ => none, fun _ => ∅, [], [], 0⟩
  | call :: earlier =>
    (handle (openEnv call.user call.fresh) call.action call.sid call.json ((after earlier).at 1)).1

/-- One more call of the example is a step. -/
theorem after_steps {call : Call} {earlier : List Call} (hclock : (after earlier).clock ≤ 1)
    (hfresh : call.fresh ∉ (after earlier).issued) :
    Steps (fun _ => "w") call.step (after earlier) (after (call :: earlier)) :=
  ⟨hclock, rfl, hfresh, rfl⟩

/-- The example starts empty. -/
theorem after_nil_fresh : Fresh (after []) := ⟨fun _ => rfl, rfl⟩

/-- The host starts a session. -/
def hostStarts : Call := ⟨"host", "p0", "s0", .start, []⟩

def exampleKey : Json := .str "AAAAAAAAAAAAAAAAAAAAAAAAAAAAAAAAAAAAAAAAAAA="

/-- The host binds its key. -/
def hostBinds : Call :=
  ⟨"host", "x1", "s0", .bind,
    [("session", .str "S"), ("participation", .str "p0"), ("key", exampleKey)]⟩

/-- Ann joins on a socket of her own. -/
def annJoins : Call := ⟨"ann", "p1", "s1", .join, [("session", .str "S")]⟩

/-- Ann binds a key, the host admits her, and she sends a packet; latest request first. -/
def admission : List Call :=
  [⟨"ann", "x4", "s1", .packet, [("session", .str "S"), ("participation", .str "p1"),
      ("kind", .str "mls"), ("packet", .str "aGk=")]⟩,
    ⟨"host", "x3", "s0", .packet, [("session", .str "S"), ("participation", .str "p0"),
      ("kind", .str "admit"), ("target", .str "p1"), ("packet", .str "aGk="),
      ("welcome", .str "aGk=")]⟩,
    ⟨"ann", "x2", "s1", .bind, [("session", .str "S"), ("participation", .str "p1"),
      ("key", exampleKey), ("packet", .str "aGk=")]⟩,
    annJoins, hostBinds, hostStarts]

/-- The example's calls name ids where ids are looked up. -/
theorem namesIds_step {call : Call}
    (h : Lookups call.action (("channel", .str "c") :: call.data)) : NamesIds call.step :=
  fun _ ho => Option.some.inj ho ▸ h

/-- After the admission both are admitted: the host has heard of the candidate and the packet,
Ann of her welcome. -/
theorem relay_inOrder_admission :
    ∃ s, (after admission).registry "c" = some s ∧ InOrder (after admission) s ∧
      admitted s = ["p0", "p1"] ∧ sequences (after admission).emitted "p0" = [1, 2] ∧
      sequences (after admission).emitted "p1" = [1] := by
  have hrun : Transition.Reachable Fresh
      (fun step w w' => Steps (fun _ => "w") step w w' ∧ NamesIds step) (after admission) := by
    refine .next (.next (.next (.next (.next (.next (.start after_nil_fresh)
      ⟨after_steps ?_ ?_, namesIds_step ⟨?_, ?_⟩⟩) ⟨after_steps ?_ ?_, namesIds_step ⟨?_, ?_⟩⟩)
      ⟨after_steps ?_ ?_, namesIds_step ⟨?_, ?_⟩⟩) ⟨after_steps ?_ ?_, namesIds_step ⟨?_, ?_⟩⟩)
      ⟨after_steps ?_ ?_, namesIds_step ⟨?_, ?_⟩⟩) ⟨after_steps ?_ ?_, namesIds_step ⟨?_, ?_⟩⟩
    all_goals first
      | exact fun _ => trivial
      | exact fun _ _ => trivial
      | decide +kernel
  have hsome : ((after admission).registry "c").map admitted = some ["p0", "p1"] := by
    decide +kernel
  obtain ⟨s, hs, hadmitted⟩ := Option.map_eq_some_iff.mp hsome
  exact ⟨s, hs, relay_inOrder (fun _ => "w") _ hrun "c" s hs, hadmitted, by decide +kernel,
    by decide +kernel⟩

/-- Two users on one socket, latest request first: a participation that is a list makes
the worker forget the socket, and another user joins on it. -/
def sharedSocket : List Call :=
  [⟨"ben", "p2", "s1", .join, [("session", .str "S")]⟩,
    ⟨"ann", "x2", "s1", .packet, [("session", .str "S"), ("participation", .arr [])]⟩,
    annJoins, hostBinds, hostStarts]

/-- A run in which one socket holds two participations. -/
theorem relay_sharedSocket :
    Transition.Reachable Fresh (Steps fun _ => "w") (after sharedSocket) ∧
      ∃ s, (after sharedSocket).registry "c" = some s ∧ ¬ InOrder (after sharedSocket) s := by
  refine ⟨?_, ?_⟩
  · refine .next (.next (.next (.next (.next (.start after_nil_fresh) (after_steps ?_ ?_))
      (after_steps ?_ ?_)) (after_steps ?_ ?_)) (after_steps ?_ ?_)) (after_steps ?_ ?_)
    all_goals decide +kernel
  · have hsids : ((after sharedSocket).registry "c").map (fun s =>
        ((s.members.get? "p1").map Member.sid, (s.members.get? "p2").map Member.sid)) =
        some (some "s1", some "s1") := by decide +kernel
    obtain ⟨s, hs, heq⟩ := Option.map_eq_some_iff.mp hsids
    refine ⟨s, hs, fun h => ?_⟩
    rw [Prod.mk.injEq] at heq
    obtain ⟨m1, hm1, h1⟩ := Option.map_eq_some_iff.mp heq.1
    obtain ⟨m2, hm2, h2⟩ := Option.map_eq_some_iff.mp heq.2
    exact absurd (h.sids "p1" "p2" m1 m2 hm1 hm2 (h1.trans h2.symm)) (by decide)

end OpenWebUI.Encryption
