import OpenWebUI.Encryption.RelaySteps

/-! # What the relay's requests keep

The checks of a request only reject; what it does to its session keeps the invariant.
-/

namespace OpenWebUI.Encryption

open Py Program

/-! ## Checks -/

section Checks

variable {β : Type} {P : World → Prop} {R : β → World → Prop} {E : Failure → World → Prop}

/-- After `packet` the data is a string. -/
theorem packet_bind {x : Json} {f : String → Handler β} (hE : ∀ w, P w → E .rejected w)
    (hf : ∀ s, Triple P (f s) R E) : Triple P (packet x >>= f) R E := by
  refine triple_bind (Q := fun _ w => P w) ?_ hf
  unfold packet
  split
  · refine ensure_bind hE fun _ => ofOption_bind hE fun _ _ => ensure_bind hE fun _ => ?_
    exact triple_pure _ fun _ hw => hw
  · exact triple_throw _ hE

/-- Values Python can look up in a dictionary. -/
def Hashable : Json → Prop
  | .arr _ => False
  | .obj _ => False
  | _ => True

/-- The ids that a request looks up are no lists and no objects. `status`, `start` and `join`
look up none, and only an admission has a target. -/
structure Lookups (action : Action) (data : Obj) : Prop where
  participation : action ∈ [.bind, .packet, .leave, .ping] → Hashable (data.get "participation")
  target : action = .packet → data.get "kind" = .str "admit" → Hashable (data.get "target")

/-- After `memberAt` the member found is one of the session. -/
theorem memberAt_bind {s : Session} {id : Json} (hid : Hashable id)
    {f : Option (String × Member) → Handler β}
    (hf : ∀ r, (∀ pid m, r = some (pid, m) → s.members.get? pid = some m) → Triple P (f r) R E) :
    Triple P (memberAt s id >>= f) R E := by
  refine triple_bind (Q := fun r w => (∀ pid m, r = some (pid, m) → s.members.get? pid = some m) ∧
    P w) ?_ fun r => triple_of_pre (hf r)
  unfold memberAt
  split
  · refine triple_pure _ fun w hw => ⟨?_, hw⟩
    intro pid m hr
    obtain ⟨m', hm', heq⟩ := Option.map_eq_some_iff.mp hr
    rw [Prod.mk.injEq] at heq
    obtain ⟨rfl, rfl⟩ := heq
    exact hm'
  · exact absurd hid id
  · exact absurd hid id
  · exact triple_pure _ fun w hw => ⟨by simp, hw⟩

end Checks

/-! ## Actions of a participant -/

section Requests

variable {home : String → String} {env : Env} {issued : List String} {c : String}

/-- A bound key is a key. -/
theorem boundKey_ne_none {m : Member} (h : m.boundKey.isSome) : m.key ≠ none := by
  intro hnone
  rw [Member.boundKey, hnone] at h
  cases h

/-- The stored world is sound, and so is the session in memory. -/
def Working (home : String → String) (env : Env) (issued : List String) (c : String) (s : Session)
    (w : World) : Prop :=
  Safe home env issued w ∧ Ready home env issued c s w

/-- The session is stored. -/
def Done (home : String → String) (env : Env) (issued : List String) (c : String) (s : Session)
    (w : World) : Prop :=
  Settled home env issued c (some s) w

/-- A rejected request leaves the stored world. -/
theorem Working.rejects {s : Session} (w : World) (h : Working home env issued c s w) :
    Rejects home env issued .rejected w :=
  ⟨rfl, h.1⟩

/-- A change to one member that keeps the session sound. -/
theorem Ready.modify {s : Session} {w : World} (h : Ready home env issued c s w) {pid : String}
    {f : Member → Member} (hs : SessionInv c { s with members := s.members.modify pid f })
    (hf : ∀ m, (f m).sid = m.sid ∧ (f m).out = m.out) :
    Ready home env issued c { s with members := s.members.modify pid f } w := by
  refine ⟨h.1, h.2.1.replace_quiet h.2.2 hs ?_, h.2.2⟩
  intro p m' hm'
  change (s.members.modify pid f).get? p = some m' at hm'
  rw [Dict.get?_modify] at hm'
  split_ifs at hm'
  · obtain ⟨m, hm, rfl⟩ := Option.map_eq_some_iff.mp hm'
    exact ⟨m, hm, (hf m).1.symm, (hf m).2.symm⟩
  · exact ⟨m', hm', rfl, rfl⟩

/-- `save` ends with the session stored. -/
theorem save_done (s : Session) : Triple (Working home env issued c s) (save env s)
    (fun s' w => Done home env issued c s' w) (Rejects home env issued) :=
  (save_triple s).mono (fun _ h => h.2) (fun _ _ h => h.1) fun _ _ h => h.elim

/-- `deliver` ends with the session stored. -/
theorem deliver_done (s : Session) (recipients : List String) (body : Body)
    (hmem : ∀ pid ∈ recipients, pid ∈ s.members) (hnd : recipients.Nodup) :
    Triple (Ready home env issued c s) (deliver env s recipients body)
      (fun s' w => Done home env issued c s' w) (Rejects home env issued) :=
  (deliver_triple s recipients body hmem hnd).mono (fun _ h => h) (fun _ _ h => h.1)
    fun _ _ h => h.elim

/-- `bind` ends with the session stored, or rejects. -/
theorem bind_triple (s : Session) (pid : String) (member : Member) (data : Obj) :
    Triple (Working home env issued c s) (bind env s pid member data)
      (fun s' w => Done home env issued c s' w) (Rejects home env issued) := by
  unfold bind
  refine ensure_bind Working.rejects fun hnone => packet_bind Working.rejects fun key =>
    ensure_bind Working.rejects fun hlen => ?_
  -- a key of 32 bytes may be stored at any member
  have hkey : ∀ w, Working home env issued c s w → Working home env issued c
      { s with members := s.members.modify pid fun m => { m with key := some key } } w := by
    intro w hw
    refine ⟨hw.1, hw.2.modify ?_ fun _ => ⟨rfl, rfl⟩⟩
    refine hw.2.2.session.modify fun m _ => ⟨rfl, rfl, id, ?_, fun _ => Or.inl (by simp)⟩
    intro key' hkey'
    rw [Option.some.injEq] at hkey'
    exact hkey' ▸ hlen
  refine Triple.mono ?_ hkey (fun _ _ h => h) fun _ _ h => h
  refine triple_ite (fun hne => ?_) fun _ => ?_
  · refine packet_bind Working.rejects fun kp => ?_
    intro w hw
    obtain ⟨m, hm', _⟩ := hw.2.2.session.host
    refine deliver_done _ _ _ ?_ (List.nodup_singleton _) w hw.2
    intro p hp
    rw [List.mem_singleton] at hp
    rw [hp]
    exact Dict.mem_of_get? hm'
  · refine triple_bind (save_done _) fun s' => triple_bind (Q := fun _ w =>
      Done home env issued c s' w) ?_ fun _ => triple_pure _ fun _ hw => hw
    exact (invite_triple _ _ _).mono (fun _ h => h) (fun _ _ h => h) fun _ _ h => h.elim

/-- The others are members, each once. -/
theorem others_spec (s : Session) (pid : String) :
    (∀ p ∈ others s pid, p ∈ s.members) ∧ (others s pid).Nodup := by
  obtain ⟨hmem, hnd⟩ := admitted_spec s
  exact ⟨fun p hp => hmem p (List.mem_of_mem_filter hp), hnd.filter _⟩

/-- `forward` ends with the session stored, or rejects. -/
theorem forward_triple (s : Session) (pid : String) (member : Member) (data : Obj)
    (htarget : data.get "kind" = .str "admit" → Hashable (data.get "target")) :
    Triple (Working home env issued c s) (forward env s pid member data)
      (fun s' w => Done home env issued c s' w) (Rejects home env issued) := by
  unfold forward
  refine ensure_bind Working.rejects fun _ => packet_bind Working.rejects fun body =>
    triple_ite (fun hadmits => ?_) fun _ => ?_
  · refine ensure_bind Working.rejects fun _ => memberAt_bind (htarget hadmits) fun r hr =>
      ofOption_bind Working.rejects fun e he => ?_
    obtain ⟨target, joining⟩ := e
    have hjoining : s.members.get? target = some joining := hr target joining he
    refine ensure_bind Working.rejects fun hbound => packet_bind Working.rejects fun welcome => ?_
    -- the candidate has a key, so it may be admitted
    have hadmit : ∀ w, Working home env issued c s w → Ready home env issued c
        { s with members := s.members.modify target fun m => { m with admitted := true } } w := by
      intro w hw
      refine hw.2.modify (hw.2.2.session.modify fun m hm => ?_) fun _ => ⟨rfl, rfl⟩
      rw [hjoining, Option.some.injEq] at hm
      subst hm
      exact ⟨rfl, rfl, fun _ => rfl, hw.2.2.session.keys target joining hjoining,
        fun _ => Or.inl (boundKey_ne_none hbound.1)⟩
    have hkeys : ∀ p, p ∈ s.members.modify target (fun m => { m with admitted := true }) ↔
        p ∈ s.members := fun p => Dict.mem_mapVal _ _ _
    obtain ⟨hmem, hnd⟩ := others_spec s pid
    refine Triple.mono ?_ hadmit (fun _ _ h => h) fun _ _ h => h
    refine triple_bind ((deliver_triple _ _ _ (fun p hp => (hkeys p).mpr (hmem p hp)) hnd).mono
      (fun _ h => h) (fun _ _ h => h) fun _ _ h => h.elim) fun s' => ?_
    rintro w ⟨hsettled, hseats⟩
    refine deliver_done s' [target] _ ?_ (List.nodup_singleton _) w hsettled.ready
    intro p hp
    rw [List.mem_singleton] at hp
    rw [hp, hseats.mem_iff, hkeys]
    exact Dict.mem_of_get? hjoining
  · refine ensure_bind Working.rejects fun _ => ?_
    obtain ⟨hmem, hnd⟩ := others_spec s pid
    exact (deliver_done _ _ _ hmem hnd).mono (fun _ h => h.2) (fun _ _ h => h) fun _ _ h => h

/-- Any end of a request leaves a sound world. -/
def Sound (home : String → String) (w : World) : Prop := WorldInv home w

/-- A finished request leaves the world sound. -/
theorem Done.sound {s : Session} {w : World} (h : Done home env issued c s w) :
    Sound home w := h.1.1

/-- A request may be rejected once the session is stored. -/
theorem Settled.safe {o : Option Session} (w : World) (h : Settled home env issued c o w) :
    Rejects home env issued .rejected w :=
  ⟨rfl, h.1⟩

/-- A request of a participant whose ids can be looked up. -/
theorem participate_triple (action : Action) (sid user channel : String) (data : Obj)
    (state : Option Session) (haction : action ∈ [.bind, .packet, .leave, .ping])
    (hids : Lookups action data) :
    Triple (Settled home env issued c state)
      (participate env action sid user channel data state) (fun _ w => Sound home w)
      (Rejects home env issued) := by
  unfold participate
  refine ofOption_bind Settled.safe fun s hs => triple_get_bind fun w₀ hw₀ => ?_
  refine Triple.mono (P := Settled home env issued c state) ?_ (fun w hw => hw ▸ hw₀)
    (fun _ _ h => h) fun _ _ h => h
  refine ensure_bind Settled.safe fun _ => memberAt_bind (hids.participation haction) fun r hr =>
    ofOption_bind Settled.safe fun e he => ?_
  obtain ⟨pid, member⟩ := e
  have hmember : s.members.get? pid = some member := hr pid member he
  refine ensure_bind Settled.safe fun _ => ?_
  -- the member was just seen
  let s₁ : Session := { s with members := s.members.modify pid fun m => { m with seen := env.now } }
  have hseen : ∀ w, Settled home env issued c state w → Working home env issued c s₁ w := by
    rintro w hw
    subst hs
    refine ⟨hw.1, hw.ready.modify (hw.ready.2.session.modify fun m hm => ?_) fun _ => ⟨rfl, rfl⟩⟩
    exact ⟨rfl, rfl, id, hw.ready.2.session.keys pid m hm, hw.ready.2.session.bound pid m hm⟩
  refine Triple.mono (P := Working home env issued c s₁) ?_ hseen (fun _ _ h => h) fun _ _ h => h
  cases action with
  | leave =>
      have hmem : ∀ p ∈ [pid], p ∈ s₁.members := by
        intro p hp
        rw [List.mem_singleton] at hp
        rw [hp]
        exact (Dict.mem_mapVal _ _ _).mpr (Dict.mem_of_get? hmember)
      refine triple_bind ((remove_triple s₁ [pid] (by simp) hmem).mono (fun _ h => h.2.leaving _)
        (fun _ _ h => h) fun _ _ h => h.elim) fun _ => ?_
      exact triple_pure _ fun _ hw => hw.1.1
  | bind =>
      refine triple_bind (bind_triple s₁ pid member data) fun _ => ?_
      exact triple_pure _ fun _ hw => hw.sound
  | ping =>
      refine triple_bind (save_done s₁) fun _ => ?_
      exact triple_pure _ fun _ hw => hw.sound
  | packet =>
      refine triple_bind (forward_triple s₁ pid member data (hids.target rfl)) fun _ => ?_
      exact triple_pure _ fun _ hw => hw.sound
  | start => exact triple_throw _ Working.rejects
  | status => exact triple_throw _ Working.rejects
  | join => exact triple_throw _ Working.rejects

/-! ## Entering a session -/

/-- A new member on a free socket, for a user who is not a member yet. -/
theorem SessionInv.insert {s : Session} (hs : SessionInv c s) {pid : String} {m : Member}
    (hpid : pid ∉ s.members) (hkey : m.key = none) (hadmitted : m.admitted = false)
    (huser : ∀ p n, s.members.get? p = some n → n.user ≠ m.user)
    (hsid : ∀ p n, s.members.get? p = some n → n.sid ≠ m.sid) (hsize : s.members.size < 128) :
    SessionInv c { s with members := s.members.set pid m } := by
  -- a member of the new session is the one inserted or an old one
  have hget : ∀ {p n}, (s.members.set pid m).get? p = some n →
      p = pid ∧ n = m ∨ p ≠ pid ∧ s.members.get? p = some n := by
    intro p n hn
    rw [Dict.get?_set] at hn
    split_ifs at hn with hp
    · rw [Option.some.injEq] at hn
      exact Or.inl ⟨hp, hn.symm⟩
    · exact Or.inr ⟨hp, hn⟩
  constructor
  · exact hs.channel_eq
  · obtain ⟨n, hn, ha⟩ := hs.host
    have hne : s.host ≠ pid := fun heq => hpid (heq ▸ Dict.mem_of_get? hn)
    exact ⟨n, by rw [Dict.get?_set, if_neg hne, hn], ha⟩
  · intro p n hn key hnk
    rcases hget hn with ⟨_, rfl⟩ | ⟨_, hn⟩
    · rw [hkey] at hnk
      cases hnk
    · exact hs.keys p n hn key hnk
  · intro p n hn ha
    rcases hget hn with ⟨_, rfl⟩ | ⟨_, hn⟩
    · rw [hadmitted] at ha
      cases ha
    · exact hs.bound p n hn ha
  -- no user is in the session twice
  · intro p p' n n' hn hn' hu
    rcases hget hn with ⟨rfl, rfl⟩ | ⟨_, hold⟩
    · rcases hget hn' with ⟨rfl, _⟩ | ⟨_, hold'⟩
      · rfl
      · exact absurd hu.symm (huser p' n' hold')
    · rcases hget hn' with ⟨rfl, rfl⟩ | ⟨_, hold'⟩
      · exact absurd hu (huser p n hold)
      · exact hs.users p p' n n' hold hold' hu
  -- no socket is
  · intro p p' n n' hn hn' hu
    rcases hget hn with ⟨rfl, rfl⟩ | ⟨_, hold⟩
    · rcases hget hn' with ⟨rfl, _⟩ | ⟨_, hold'⟩
      · rfl
      · exact absurd hu.symm (hsid p' n' hold')
    · rcases hget hn' with ⟨rfl, rfl⟩ | ⟨_, hold'⟩
      · exact absurd hu (hsid p n hold)
      · exact hs.sids p p' n n' hold hold' hu
  -- there is room for one more
  · have hkeys : (s.members.set pid m).size ≤ s.members.size + 1 := by
      rw [Dict.size_eq_keys, Dict.size_eq_keys]
      change (Assoc.keys (Assoc.set s.members.entries pid m)).length ≤
        (Assoc.keys s.members.entries).length + 1
      rw [Assoc.keys_set]
      split_ifs <;> simp
    change (s.members.set pid m).size ≤ 128
    omega

/-- The session a host opens. -/
theorem SessionInv.open {channel session pid : String} {m : Member} (hkey : m.key = none)
    (hadmitted : m.admitted = true) (expires : ℚ) :
    SessionInv channel ⟨channel, session, pid, (∅ : Dict String Member).set pid m, expires⟩ := by
  have hget : ∀ {p n}, ((∅ : Dict String Member).set pid m).get? p = some n → p = pid ∧ n = m := by
    intro p n hn
    rw [Dict.get?_set] at hn
    split_ifs at hn with hp
    · rw [Option.some.injEq] at hn
      exact ⟨hp, hn.symm⟩
    · cases hn
  constructor
  · rfl
  · exact ⟨m, Dict.get?_set_self _ _ _, hadmitted⟩
  · intro p n hn key hnk
    obtain ⟨_, rfl⟩ := hget hn
    rw [hkey] at hnk
    cases hnk
  · exact fun p n hn _ => Or.inr (hget hn).1
  · exact fun p p' n n' hn hn' _ => (hget hn).1.trans (hget hn').1.symm
  · exact fun p p' n n' hn hn' _ => (hget hn).1.trans (hget hn').1.symm
  · change 1 ≤ 128
    omega

/-- A member enters the session of a channel: it is new, its socket was free, and it has
heard nothing. -/
theorem WorldInv.enter {w : World} (h : WorldInv home w) {s' : Session} {pid : String} {m : Member}
    (hs' : SessionInv c s') (hmembers : ∀ p n, s'.members.get? p = some n → p = pid ∧ n = m ∨
      ∃ s, w.registry c = some s ∧ w.clock < s.expires ∧ s.members.get? p = some n)
    (hfresh : pid ∉ w.issued) (hout : m.out = 0)
    (hfree : (w.locals (home m.sid)).get? m.sid = none) :
    WorldInv home ((({ w with issued := pid :: w.issued } : World).setLocal (home m.sid) m.sid
      (some c)).store c (some s')) := by
  have hnew : ∀ {s''}, (w.store c (some s')).registry c = some s'' → s'' = s' := by
    intro s'' hs''
    rw [store_registry, if_pos rfl, Option.some.injEq] at hs''
    exact hs''.symm
  have hother : ∀ {c' s''}, c' ≠ c → (w.store c (some s')).registry c' = some s'' →
      w.registry c' = some s'' := by
    intro c' s'' hne hs''
    rwa [store_registry, if_neg hne] at hs''
  -- a located member is not on the free socket
  have hlocal : ∀ {c' : String} {n : Member}, (w.locals (home n.sid)).get? n.sid = some c' →
      ((({ w with issued := pid :: w.issued } : World).setLocal (home m.sid) m.sid
        (some c)).locals (home n.sid)).get? n.sid = some c' := by
    intro c' n hn
    rw [setLocal_get?, if_neg]
    · exact hn
    · rintro ⟨_, heq⟩
      rw [heq, hfree] at hn
      cases hn
  constructor
  · intro c' s'' hs''
    by_cases hc : c' = c
    · subst hc
      rw [hnew hs'']
      exact hs'
    · exact h.session c' s'' (hother hc hs'')
  · intro c' s'' hs''
    by_cases hc : c' = c
    · subst hc
      rw [hnew hs'']
      intro p n hn
      -- nobody has heard the new participation yet
      rcases hmembers p n hn with ⟨rfl, rfl⟩ | ⟨s, hs, _, hn⟩
      · rw [hout]
        exact h.heard p hfresh
      · exact h.delivered c' s hs p n hn
    · exact h.delivered c' s'' (hother hc hs'')
  · intro c' s'' hs'' hlive
    by_cases hc : c' = c
    · subst hc
      rw [hnew hs'']
      intro p n hn
      rcases hmembers p n hn with ⟨rfl, rfl⟩ | ⟨s, hs, hl, hn⟩
      · change ((({ w with issued := p :: w.issued } : World).setLocal (home n.sid) n.sid
          (some c')).locals (home n.sid)).get? n.sid = _
        rw [setLocal_get?, if_pos ⟨rfl, rfl⟩, hs'.channel_eq]
      · have hold := h.located c' s hs hl p n hn
        rw [(h.session c' s hs).channel_eq] at hold
        rw [hs'.channel_eq]
        exact hlocal hold
    · exact fun p n hn => hlocal (h.located c' s'' (hother hc hs'') hlive p n hn)
  · -- the new participation is in no other session
    have hout' : ∀ {c' s''} p, c' ≠ c → w.registry c' = some s'' → p ∈ s'.members →
        p ∉ s''.members := by
      intro c' s'' p hne hs'' hp hp''
      obtain ⟨n, hn⟩ := (Dict.mem_iff_exists _ _).mp hp
      rcases hmembers p n hn with ⟨rfl, _⟩ | ⟨s, hs, _, hn⟩
      · exact hfresh (h.seated c' s'' hs'' p hp'')
      · exact hne (h.apart c' c s'' s p hs'' hs hp'' (Dict.mem_of_get? hn))
    intro c₁ c₂ s₁ s₂ p h₁ h₂ hp₁ hp₂
    by_cases hc₁ : c₁ = c
    · by_cases hc₂ : c₂ = c
      · rw [hc₁, hc₂]
      · subst hc₁
        rw [hnew h₁] at hp₁
        exact absurd hp₂ (hout' p hc₂ (hother hc₂ h₂) hp₁)
    · by_cases hc₂ : c₂ = c
      · subst hc₂
        rw [hnew h₂] at hp₂
        exact absurd hp₁ (hout' p hc₁ (hother hc₁ h₁) hp₂)
      · exact h.apart c₁ c₂ s₁ s₂ p (hother hc₁ h₁) (hother hc₂ h₂) hp₁ hp₂
  · intro p hp
    exact h.heard p fun hin => hp (List.mem_cons_of_mem pid hin)
  · intro c' s'' hs'' p hp
    by_cases hc : c' = c
    · subst hc
      rw [hnew hs''] at hp
      obtain ⟨n, hn⟩ := (Dict.mem_iff_exists _ _).mp hp
      rcases hmembers p n hn with ⟨rfl, _⟩ | ⟨s, hs, _, hn⟩
      · exact List.mem_cons_self ..
      · exact List.mem_cons_of_mem pid (h.seated c' s hs p (Dict.mem_of_get? hn))
    · exact List.mem_cons_of_mem pid (h.seated c' s'' (hother hc hs'') p hp)

/-- The registry after a member entered. -/
theorem enter_exec (env : Env) (start : Bool) (sid user name channel : String) (s : Session)
    (w : World) :
    ∃ r, (enter env start sid user name channel s).exec w =
      (.ok r, (({ w with issued := env.freshParticipation :: w.issued } : World).setLocal env.worker
        sid (some channel)).store s.channel (some (Session.renew env { s with
          members := s.members.set env.freshParticipation
            ⟨sid, user, name, none, env.now, 0, start⟩ }))) :=
  ⟨_, rfl⟩

/-- A socket whose worker forgets it has no member in the session it was in. -/
theorem forgetEnded_triple (sid : String) (state : Option Session) (hsid : home sid = env.worker) :
    Triple (Settled home env issued c state) (forgetEnded env sid c state)
      (fun _ w => Settled home env issued c state w) (Rejects home env issued) := by
  refine triple_modify fun w hw => ?_
  by_cases hstale : (w.locals env.worker).get? sid = some c ∧
      ¬ (state.map fun s => s.members.entries.any fun e => e.2.sid = sid).getD false = true
  · rw [if_pos hstale]
    obtain ⟨⟨hinv, hnow⟩, hlive⟩ := hw
    refine ⟨⟨hinv.forget fun _ => ?_, hnow⟩, hlive⟩
    -- a live member on the socket would be of the channel the worker remembers
    intro c' s' hs' hlive' pid m hm heq
    have hl := hinv.located c' s' hs' hlive' pid m hm
    rw [heq, hsid, hstale.1, (hinv.session c' s' hs').channel_eq, Option.some.injEq] at hl
    subst hl
    have hstate : state = some s' := by
      rw [← hlive]
      exact live_eq_some.mpr ⟨hs', hlive'⟩
    refine hstale.2 ?_
    rw [hstate, Option.map_some, Option.getD_some, List.any_eq_true]
    exact ⟨(pid, m), (Dict.mem_entries_iff _ _ _).mpr hm, by simpa using heq⟩
  · rw [if_neg hstale]
    exact hw

/-- The host is a member of its session. -/
theorem hostMember_bind {s : Session} (hs : SessionInv c s) {β : Type} {P : World → Prop}
    {R : β → World → Prop} {E : Failure → World → Prop} {f : Member → Handler β}
    (hf : ∀ m, s.members.get? s.host = some m → Triple P (f m) R E) :
    Triple P (hostMember s >>= f) R E := by
  obtain ⟨m, hm, _⟩ := hs.host
  refine triple_bind (Q := fun n w => n = m ∧ P w) ?_ fun n =>
    triple_of_pre fun hn => hf n (hn ▸ hm)
  unfold hostMember
  rw [hm]
  exact triple_pure _ fun _ hw => ⟨rfl, hw⟩

/-- Entering keeps the world sound, for a fresh participation on the socket's own worker. -/
theorem reserve_triple (start : Bool) (sid user name : String) (data : Obj)
    (state : Option Session) (hsid : home sid = env.worker)
    (hfresh : env.freshParticipation ∉ issued) :
    Triple (Settled home env issued c state) (reserve env start sid user name c data state)
      (fun _ w => Sound home w) (Rejects home env issued) := by
  unfold reserve
  refine triple_bind (forgetEnded_triple sid state hsid) fun _ => triple_get_bind fun w hw => ?_
  refine Triple.mono (P := fun w' => Settled home env issued c state w' ∧ w' = w) ?_
    (fun w' hw' => ⟨hw' ▸ hw, hw'⟩) (fun _ _ h => h) fun _ _ h => h
  have hrej : ∀ w', Settled home env issued c state w' ∧ w' = w →
    Rejects home env issued .rejected w' :=
    fun w' h => h.1.safe
  refine ensure_bind hrej fun hfree => ?_
  -- the socket sits in no session, and the participation was never issued
  obtain ⟨⟨hinv, hnow, hissued⟩, hlive⟩ := hw
  have hfree' : (w.locals (home sid)).get? sid = none := hsid ▸ hfree
  have hunissued : env.freshParticipation ∉ w.issued := hissued ▸ hfresh
  split
  · -- the host opens a session
    rintro w' ⟨_, rfl⟩
    obtain ⟨r, hexec⟩ := enter_exec env true sid user name c
      ⟨c, env.freshSession, env.freshParticipation, ∅, 0⟩ w'
    rw [hexec, ← hsid]
    refine hinv.enter (m := ⟨sid, user, name, none, env.now, 0, true⟩)
      (SessionInv.open rfl rfl _) ?_ hunissued rfl hfree'
    intro p n hn
    change ((∅ : Dict String Member).set _ _).get? p = some n at hn
    rw [Dict.get?_set] at hn
    split_ifs at hn with hp
    · rw [Option.some.injEq] at hn
      exact Or.inl ⟨hp, hn.symm⟩
    · cases hn
  · -- a candidate joins
    rename_i s
    obtain ⟨hreg, hexp⟩ := live_eq_some.mp hlive
    have hs := hinv.session c s hreg
    refine ensure_bind hrej fun _ => ensure_bind hrej fun hroom =>
      hostMember_bind hs fun host hhost => ensure_bind hrej fun _ => ?_
    rintro w' ⟨_, rfl⟩
    obtain rfl := hs.channel_eq
    let m : Member := ⟨sid, user, name, none, env.now, 0, false⟩
    -- so the new member is apart from those there
    have hnew : env.freshParticipation ∉ s.members := fun h => hunissued (hinv.seated _ s hreg _ h)
    have hinsert :
      SessionInv s.channel { s with members := s.members.set env.freshParticipation m } := by
      refine hs.insert hnew rfl rfl ?_ ?_ hroom.1
      · intro p n hn heq
        apply hroom.2
        rw [List.any_eq_true]
        exact ⟨(p, n), (Dict.mem_entries_iff _ _ _).mpr hn, by simpa using heq⟩
      · intro p n hn heq
        have hl := hinv.located _ s hreg hexp p n hn
        have hsid' : n.sid = sid := heq
        rw [hsid', hfree'] at hl
        cases hl
    obtain ⟨r, hexec⟩ := enter_exec env false sid user name s.channel s w'
    rw [hexec, ← hsid]
    refine hinv.enter (m := m) (hinsert.sameSeats (sameSeats_renew _)) ?_ hunissued rfl hfree'
    intro p n hn
    change (s.members.set _ _).get? p = some n at hn
    rw [Dict.get?_set] at hn
    split_ifs at hn with hp
    · rw [Option.some.injEq] at hn
      exact Or.inl ⟨hp, hn.symm⟩
    · exact Or.inr ⟨s, hreg, hexp, hn⟩
  · exact triple_throw _ hrej

/-! ## A request -/

/-- A request keeps the world sound, or rejects. -/
theorem transact_triple (action : Action) (sid user : String) (data : Obj)
    (hsid : home sid = env.worker) (hfresh : env.freshParticipation ∉ issued)
    (hids : Lookups action data) :
    Triple (Safe home env issued) (transact env action sid user c data) (fun _ w => Sound home w)
      (Rejects home env issued) := by
  unfold transact
  refine triple_get_bind fun w hw => ?_
  have hsettled : ∀ w', w' = w → Settled home env issued c (w.live c) w' := by
    rintro w' rfl
    exact ⟨hw, rfl⟩
  refine triple_bind ((prune_triple (w.live c)).mono hsettled (fun _ _ h => h)
    fun _ _ h => h.elim) fun state => ?_
  refine ofOption_bind Settled.safe fun name _ => ensure_bind Settled.safe fun _ => ?_
  cases action with
  | status =>
      cases state with
      | none => exact triple_pure _ fun _ h => h.1.1
      | some s =>
          intro w' hw'
          refine hostMember_bind hw'.ready.2.session (fun m _ => ?_) w' hw'
          exact triple_pure _ fun _ h => h.1.1
  | start => exact reserve_triple true sid user name data state hsid hfresh
  | join => exact reserve_triple false sid user name data state hsid hfresh
  | bind => exact participate_triple .bind sid user c data state (by decide) hids
  | packet => exact participate_triple .packet sid user c data state (by decide) hids
  | leave => exact participate_triple .leave sid user c data state (by decide) hids
  | ping => exact participate_triple .ping sid user c data state (by decide) hids

end Requests

end OpenWebUI.Encryption
