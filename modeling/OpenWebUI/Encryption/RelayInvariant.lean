import OpenWebUI.Encryption.Relay

/-! # The relay's invariant

What holds of every stored session: its host is admitted, admitted members have bound
their key, users and sockets are distinct, the size is bounded. Around it: each member's
counter equals the number of events delivered to it, the worker of each live member
knows its socket, and participations are never shared or handed out again.
-/

namespace OpenWebUI.Encryption

open Py Program

/-- The sequence numbers of the events delivered to a participation, in order. -/
def sequences (es : List Emission) (pid : String) : List ℕ :=
  es.filterMap fun
    | .event p _ _ _ n => if p = pid then some n else none
    | _ => none

/-- What holds of a channel's session. -/
structure SessionInv (channel : String) (s : Session) : Prop where
  channel_eq : s.channel = channel
  host : ∃ m, s.members.get? s.host = some m ∧ m.admitted = true
  keys : ∀ pid m, s.members.get? pid = some m → ∀ key, m.key = some key →
    (b64decode key).map List.length = some 32
  bound : ∀ pid m, s.members.get? pid = some m → m.admitted = true → m.key ≠ none ∨ pid = s.host
  users : ∀ pid pid' m m', s.members.get? pid = some m → s.members.get? pid' = some m' →
    m.user = m'.user → pid = pid'
  sids : ∀ pid pid' m m', s.members.get? pid = some m → s.members.get? pid' = some m' →
    m.sid = m'.sid → pid = pid'
  size : s.members.size ≤ 128

/-- Each member has received exactly the events `1, …, out`. -/
def Delivered (es : List Emission) (s : Session) : Prop :=
  ∀ pid m, s.members.get? pid = some m → sequences es pid = List.range' 1 m.out

/-- The worker that serves a member's socket knows its channel. -/
def Located (home : String → String) (locals : String → Dict String String) (s : Session) : Prop :=
  ∀ pid m, s.members.get? pid = some m → (locals (home m.sid)).get? m.sid = some s.channel

/-- The invariant of the relay. -/
structure WorldInv (home : String → String) (w : World) : Prop where
  session : ∀ c s, w.registry c = some s → SessionInv c s
  delivered : ∀ c s, w.registry c = some s → Delivered w.emitted s
  located : ∀ c s, w.registry c = some s → w.clock < s.expires → Located home w.locals s
  apart : ∀ c c' s s' pid, w.registry c = some s → w.registry c' = some s' → pid ∈ s.members →
    pid ∈ s'.members → c = c'
  heard : ∀ pid, pid ∉ w.issued → sequences w.emitted pid = []
  seated : ∀ c s, w.registry c = some s → ∀ pid ∈ s.members, pid ∈ w.issued

/-- No live session has a member on the socket. -/
def Unused (w : World) (sid : String) : Prop :=
  ∀ c s, w.registry c = some s → w.clock < s.expires → ∀ pid m, s.members.get? pid = some m →
    m.sid ≠ sid

/-! ## Sequences -/

theorem sequences_append (es es' : List Emission) (pid : String) :
    sequences (es ++ es') pid = sequences es pid ++ sequences es' pid :=
  List.filterMap_append

/-- Only events carry a sequence number. -/
theorem sequences_eq_nil {es : List Emission} {pid : String}
    (h : ∀ sid body v n, .event pid sid body v n ∉ es) : sequences es pid = [] := by
  unfold sequences
  rw [List.filterMap_eq_nil_iff]
  rintro (⟨p, sid, body, v, n⟩ | _ | _) he
  · dsimp only
    rw [if_neg]
    rintro rfl
    exact h _ _ _ _ he
  · rfl
  · rfl

/-! ## Edits of the world -/

@[simp] theorem store_registry (w : World) (c : String) (s : Option Session) (c' : String) :
    (w.store c s).registry c' = if c' = c then s else w.registry c' := rfl

@[simp] theorem store_store (w : World) (c : String) (s s' : Option Session) :
    (w.store c s).store c s' = w.store c s' := by
  simp only [World.store, World.mk.injEq, and_true]
  funext c'
  split_ifs <;> rfl

/-- Storing what is stored changes nothing. -/
theorem store_self {w : World} {c : String} {s : Option Session} (h : w.registry c = s) :
    w.store c s = w := by
  cases w
  simp only [World.store, World.mk.injEq, and_true]
  funext c'
  split_ifs with hc
  · rw [hc, ← h]
  · rfl

@[simp] theorem setLocal_registry (w : World) (worker sid : String) (c : Option String) :
    (w.setLocal worker sid c).registry = w.registry := rfl

@[simp] theorem setLocal_emitted (w : World) (worker sid : String) (c : Option String) :
    (w.setLocal worker sid c).emitted = w.emitted := rfl

@[simp] theorem setLocal_clock (w : World) (worker sid : String) (c : Option String) :
    (w.setLocal worker sid c).clock = w.clock := rfl

@[simp] theorem store_clock (w : World) (c : String) (s : Option Session) :
    (w.store c s).clock = w.clock := rfl

@[simp] theorem emit_clock (w : World) (es : List Emission) : (w.emit es).clock = w.clock := rfl

@[simp] theorem emit_registry (w : World) (es : List Emission) :
    (w.emit es).registry = w.registry := rfl

theorem emit_nil (w : World) : w.emit [] = w := by
  simp [World.emit]

/-- Setting a socket's channel changes only its entry. -/
theorem setLocal_get? (w : World) (worker sid : String) (c : Option String) (v sid' : String) :
    ((w.setLocal worker sid c).locals v).get? sid' =
      if v = worker ∧ sid' = sid then c else (w.locals v).get? sid' := by
  unfold World.setLocal
  dsimp only
  by_cases hv : v = worker
  · rw [if_pos hv]
    cases c with
    | none =>
        dsimp only
        rw [Dict.get?_erase]
        by_cases hs : sid' = sid <;> simp [hv, hs]
    | some c =>
        dsimp only
        rw [Dict.get?_set]
        by_cases hs : sid' = sid <;> simp [hv, hs]
  · rw [if_neg hv, if_neg fun h => hv h.1]

section Edits

variable {home : String → String} {w : World} {c : String} {s s' : Session}

/-- Dropping a session. -/
theorem WorldInv.drop (h : WorldInv home w) (c : String) : WorldInv home (w.store c none) := by
  have hsub : ∀ {c' s'}, (w.store c none).registry c' = some s' → w.registry c' = some s' := by
    intro c' s' hs'
    rw [store_registry] at hs'
    split_ifs at hs'
    exact hs'
  exact
    { session := fun c' s' hs' => h.session c' s' (hsub hs')
      delivered := fun c' s' hs' => h.delivered c' s' (hsub hs')
      located := fun c' s' hs' => h.located c' s' (hsub hs')
      apart := fun c' c'' s' s'' pid hs' hs'' => h.apart c' c'' s' s'' pid (hsub hs') (hsub hs'')
      heard := h.heard
      seated := fun c' s' hs' => h.seated c' s' (hsub hs') }

/-- Time passing only ends sessions. -/
theorem WorldInv.advance (h : WorldInv home w) {now : ℚ} (hnow : w.clock ≤ now) :
    WorldInv home { w with clock := now } :=
  { session := h.session
    delivered := h.delivered
    located := fun c s hs hlive => h.located c s hs (lt_of_le_of_lt hnow hlive)
    apart := h.apart
    heard := h.heard
    seated := h.seated }

/-- Messages that are no events concern no counter. -/
theorem WorldInv.emit (h : WorldInv home w) {es : List Emission}
    (hes : ∀ pid sid body v n, .event pid sid body v n ∉ es) : WorldInv home (w.emit es) :=
  { session := h.session
    delivered := by
      intro c s hs pid m hm
      rw [World.emit, sequences_append, sequences_eq_nil (hes pid), List.append_nil]
      exact h.delivered c s hs pid m hm
    located := h.located
    apart := h.apart
    heard := by
      intro pid hpid
      rw [World.emit, sequences_append, sequences_eq_nil (hes pid), List.append_nil]
      exact h.heard pid hpid
    seated := h.seated }

/-- A worker may forget a socket of its own without a live member, and any other socket. -/
theorem WorldInv.forget (h : WorldInv home w) {worker sid : String}
    (hsid : home sid = worker → Unused w sid) : WorldInv home (w.setLocal worker sid none) :=
  { session := h.session
    delivered := h.delivered
    located := by
      intro c s hs hlive pid m hm
      rw [setLocal_get?, if_neg]
      · exact h.located c s hs hlive pid m hm
      · rintro ⟨hworker, heq⟩
        exact hsid (heq ▸ hworker) c s hs hlive pid m hm heq
    apart := h.apart
    heard := h.heard
    seated := h.seated }

/-- Replacing the session of a channel: the new one has no new member, and the events
emitted with it are the ones its counters add. -/
theorem WorldInv.replace (h : WorldInv home (w.store c (some s))) (hlive : w.clock < s.expires)
    {es : List Emission} (hs' : SessionInv c s')
    (hsub : ∀ pid m', s'.members.get? pid = some m' → ∃ m, s.members.get? pid = some m ∧
      m.sid = m'.sid)
    (hdelivered : Delivered (w.emitted ++ es) s')
    (hes : ∀ pid, pid ∉ s.members → sequences es pid = []) :
    WorldInv home ((w.store c (some s')).emit es) := by
  have hself : (w.store c (some s)).registry c = some s := by simp
  have hother : ∀ {c' s''}, c' ≠ c → (w.store c (some s')).registry c' = some s'' →
      (w.store c (some s)).registry c' = some s'' := by
    intro c' s'' hne hs''
    simpa [hne] using hs''
  -- in the new world only the session of this channel is another one
  have hnew : ∀ {s''}, (w.store c (some s')).registry c = some s'' → s'' = s' := by
    intro s'' hs''
    rw [store_registry, if_pos rfl, Option.some.injEq] at hs''
    exact hs''.symm
  have hmem : ∀ pid, pid ∈ s'.members → pid ∈ s.members := by
    intro pid hpid
    obtain ⟨m', hm'⟩ := (Dict.mem_iff_exists _ _).mp hpid
    obtain ⟨m, hm, _⟩ := hsub pid m' hm'
    exact Dict.mem_of_get? hm
  constructor
  · intro c' s'' hs''
    by_cases hc : c' = c
    · subst hc
      rw [hnew hs'']
      exact hs'
    · exact h.session c' s'' (hother hc hs'')
  · intro c' s'' hs''
    by_cases hc : c' = c
    · subst hc
      rw [hnew hs'']
      exact hdelivered
    -- what was emitted is about members of this channel only
    · intro pid m hm
      have hnot : pid ∉ s.members := fun hin =>
        hc (h.apart c' c s'' s pid (hother hc hs'') hself (Dict.mem_of_get? hm) hin)
      have hlog : sequences (w.emitted ++ es) pid = sequences w.emitted pid := by
        rw [sequences_append, hes pid hnot, List.append_nil]
      exact hlog.trans (h.delivered c' s'' (hother hc hs'') pid m hm)
  · intro c' s'' hs'' hlive''
    by_cases hc : c' = c
    · subst hc
      rw [hnew hs'']
      -- the members left sit where they sat
      intro pid m' hm'
      obtain ⟨m, hm, hsid⟩ := hsub pid m' hm'
      have hl := h.located c' s hself hlive pid m hm
      rw [(h.session c' s hself).channel_eq, hsid] at hl
      rw [hs'.channel_eq]
      exact hl
    · exact h.located c' s'' (hother hc hs'') hlive''
  -- no participation is in two sessions
  · intro c₁ c₂ s₁ s₂ pid h₁ h₂ hp₁ hp₂
    by_cases hc₁ : c₁ = c
    · by_cases hc₂ : c₂ = c
      · rw [hc₁, hc₂]
      · subst hc₁
        rw [hnew h₁] at hp₁
        exact h.apart c₁ c₂ s s₂ pid hself (hother hc₂ h₂) (hmem pid hp₁) hp₂
    · by_cases hc₂ : c₂ = c
      · subst hc₂
        rw [hnew h₂] at hp₂
        exact h.apart c₁ c₂ s₁ s pid (hother hc₁ h₁) hself hp₁ (hmem pid hp₂)
      · exact h.apart c₁ c₂ s₁ s₂ pid (hother hc₁ h₁) (hother hc₂ h₂) hp₁ hp₂
  · intro pid hpid
    have hnot : pid ∉ s.members := fun hin => hpid (h.seated c s hself pid hin)
    rw [World.emit, sequences_append, hes pid hnot, List.append_nil]
    exact h.heard pid hpid
  · intro c' s'' hs'' pid hpid
    by_cases hc : c' = c
    · subst hc
      rw [hnew hs''] at hpid
      exact h.seated c' s hself pid (hmem pid hpid)
    · exact h.seated c' s'' (hother hc hs'') pid hpid

/-- Replacing a session without emitting anything. -/
theorem WorldInv.replace_quiet (h : WorldInv home (w.store c (some s)))
    (hlive : w.clock < s.expires) (hs' : SessionInv c s')
    (hsub : ∀ pid m', s'.members.get? pid = some m' → ∃ m, s.members.get? pid = some m ∧
      m.sid = m'.sid ∧ m.out = m'.out) :
    WorldInv home (w.store c (some s')) := by
  have hdelivered : Delivered (w.emitted ++ []) s' := by
    intro pid m' hm'
    obtain ⟨m, hm, _, hout⟩ := hsub pid m' hm'
    rw [List.append_nil, ← hout]
    exact h.delivered c s (by simp) pid m hm
  have hquiet := h.replace hlive hs' (fun pid m' hm' => by
    obtain ⟨m, hm, hsid, _⟩ := hsub pid m' hm'
    exact ⟨m, hm, hsid⟩) hdelivered fun _ _ => rfl
  rwa [emit_nil] at hquiet

end Edits

/-! ## Edits of a session -/

/-- The same seats: who sits where on which socket, with which key and admission. Counters
and times may differ. -/
def SameSeats (s s' : Session) : Prop :=
  s'.channel = s.channel ∧ s'.session = s.session ∧ s'.host = s.host ∧
    ∀ pid, (s'.members.get? pid).map (fun m => (m.sid, m.user, m.key, m.admitted)) =
      (s.members.get? pid).map fun m => (m.sid, m.user, m.key, m.admitted)

theorem SameSeats.refl (s : Session) : SameSeats s s := ⟨rfl, rfl, rfl, fun _ => rfl⟩

theorem SameSeats.trans {a b c : Session} (h₁ : SameSeats a b) (h₂ : SameSeats b c) :
    SameSeats a c :=
  ⟨h₂.1.trans h₁.1, h₂.2.1.trans h₁.2.1, h₂.2.2.1.trans h₁.2.2.1,
    fun pid => (h₂.2.2.2 pid).trans (h₁.2.2.2 pid)⟩

theorem SameSeats.symm {a b : Session} (h : SameSeats a b) : SameSeats b a :=
  ⟨h.1.symm, h.2.1.symm, h.2.2.1.symm, fun pid => (h.2.2.2 pid).symm⟩

/-- A member sits where it sat. -/
theorem SameSeats.get? {s s' : Session} (h : SameSeats s s') {pid : String} {m' : Member}
    (hm' : s'.members.get? pid = some m') : ∃ m, s.members.get? pid = some m ∧ m.sid = m'.sid ∧
      m.user = m'.user ∧ m.key = m'.key ∧ m.admitted = m'.admitted := by
  have hpid := h.2.2.2 pid
  rw [hm', Option.map_some] at hpid
  obtain ⟨m, hm, heq⟩ := Option.map_eq_some_iff.mp hpid.symm
  simp only [Prod.mk.injEq] at heq
  exact ⟨m, hm, heq⟩

/-- The members are the same. -/
theorem SameSeats.mem_iff {s s' : Session} (h : SameSeats s s') (pid : String) :
    pid ∈ s'.members ↔ pid ∈ s.members := by
  have hpid := congrArg Option.isSome (h.2.2.2 pid)
  rw [Option.isSome_map, Option.isSome_map] at hpid
  rw [Dict.mem_iff, Dict.mem_iff, hpid]

/-- There are as many members. -/
theorem SameSeats.size_eq {s s' : Session} (h : SameSeats s s') :
    s'.members.size = s.members.size := by
  have hle : ∀ {a b : Session}, SameSeats a b → b.members.size ≤ a.members.size := by
    intro a b hab
    rw [Dict.size_eq_keys b.members]
    exact a.members.length_le_size b.members.nodup_keys fun k hk => (hab.mem_iff k).mp hk
  exact le_antisymm (hle h) (hle h.symm)

/-- The invariant of a session depends on its seats only. -/
theorem SessionInv.sameSeats {c : String} {s s' : Session} (hs : SessionInv c s)
    (h : SameSeats s s') : SessionInv c s' := by
  constructor
  · rw [h.1]
    exact hs.channel_eq
  · obtain ⟨m, hm, ha⟩ := hs.host
    obtain ⟨m', hm', _, _, _, ha'⟩ := h.symm.get? hm
    rw [h.2.2.1]
    exact ⟨m', hm', ha'.trans ha⟩
  · intro pid m' hm' key hkey
    obtain ⟨m, hm, _, _, hk, _⟩ := h.get? hm'
    exact hs.keys pid m hm key (hk.trans hkey)
  · intro pid m' hm' ha'
    obtain ⟨m, hm, _, _, hk, ha⟩ := h.get? hm'
    rw [← hk, h.2.2.1]
    exact hs.bound pid m hm (ha.trans ha')
  · intro pid pid' m m' hm hm' hu
    obtain ⟨n, hn, _, hnu, _⟩ := h.get? hm
    obtain ⟨n', hn', _, hnu', _⟩ := h.get? hm'
    exact hs.users pid pid' n n' hn hn' (hnu.trans (hu.trans hnu'.symm))
  · intro pid pid' m m' hm hm' hsid
    obtain ⟨n, hn, hns, _⟩ := h.get? hm
    obtain ⟨n', hn', hns', _⟩ := h.get? hm'
    exact hs.sids pid pid' n n' hn hn' (hns.trans (hsid.trans hns'.symm))
  · rw [h.size_eq]
    exact hs.size

/-- Removing members other than the host. -/
theorem SessionInv.erase {c : String} {s : Session} (hs : SessionInv c s) {pid : String}
    (hne : pid ≠ s.host) : SessionInv c { s with members := s.members.erase pid } := by
  have hget : ∀ {p m}, (s.members.erase pid).get? p = some m → s.members.get? p = some m := by
    intro p m hm
    rw [Dict.get?_erase] at hm
    split_ifs at hm
    exact hm
  constructor
  · exact hs.channel_eq
  · obtain ⟨m, hm, ha⟩ := hs.host
    exact ⟨m, by rw [Dict.get?_erase, if_neg (Ne.symm hne), hm], ha⟩
  · exact fun p m hm => hs.keys p m (hget hm)
  · exact fun p m hm => hs.bound p m (hget hm)
  · exact fun p p' m m' hm hm' => hs.users p p' m m' (hget hm) (hget hm')
  · exact fun p p' m m' hm hm' => hs.sids p p' m m' (hget hm) (hget hm')
  · have hle : (s.members.erase pid).size ≤ s.members.size := by
      rw [Dict.size_eq_keys (s.members.erase pid)]
      refine s.members.length_le_size (s.members.erase pid).nodup_keys ?_
      intro k hk
      obtain ⟨m, hm⟩ := (Dict.mem_iff_exists _ k).mp hk
      exact Dict.mem_of_get? (hget hm)
    exact le_trans hle hs.size

/-- Changing one member's key, admission or times. -/
theorem SessionInv.modify {c : String} {s : Session} (hs : SessionInv c s) {pid : String}
    {f : Member → Member} (hf : ∀ m, s.members.get? pid = some m → (f m).sid = m.sid ∧
      (f m).user = m.user ∧ (m.admitted = true → (f m).admitted = true) ∧
      (∀ key, (f m).key = some key → (b64decode key).map List.length = some 32) ∧
      ((f m).admitted = true → (f m).key ≠ none ∨ pid = s.host)) :
    SessionInv c { s with members := s.members.modify pid f } := by
  -- a member of the new map is a member of the old one, or its image
  have hget : ∀ {p m'}, (s.members.modify pid f).get? p = some m' →
      ∃ m, s.members.get? p = some m ∧ m' = if p = pid then f m else m := by
    intro p m' hm'
    rw [Dict.get?_modify] at hm'
    split_ifs at hm' with hp
    · obtain ⟨m, hm, rfl⟩ := Option.map_eq_some_iff.mp hm'
      exact ⟨m, hm, by rw [if_pos hp]⟩
    · exact ⟨m', hm', by rw [if_neg hp]⟩
  have hseat : ∀ {p m'}, (s.members.modify pid f).get? p = some m' →
      ∃ m, s.members.get? p = some m ∧ m'.sid = m.sid ∧ m'.user = m.user := by
    intro p m' hm'
    obtain ⟨m, hm, rfl⟩ := hget hm'
    split_ifs with hp
    · exact ⟨m, hm, (hf m (hp ▸ hm)).1, (hf m (hp ▸ hm)).2.1⟩
    · exact ⟨m, hm, rfl, rfl⟩
  constructor
  · exact hs.channel_eq
  · obtain ⟨m, hm, ha⟩ := hs.host
    rw [Dict.get?_modify]
    split_ifs with hp
    · exact ⟨f m, by rw [hm]; rfl, (hf m (hp ▸ hm)).2.2.1 ha⟩
    · exact ⟨m, hm, ha⟩
  · intro p m' hm' key hkey
    obtain ⟨m, hm, rfl⟩ := hget hm'
    split_ifs at hkey with hp
    · exact (hf m (hp ▸ hm)).2.2.2.1 key hkey
    · exact hs.keys p m hm key hkey
  · intro p m' hm' ha
    obtain ⟨m, hm, rfl⟩ := hget hm'
    split_ifs at ha ⊢ with hp
    · exact hp ▸ (hf m (hp ▸ hm)).2.2.2.2 ha
    · exact hs.bound p m hm ha
  · intro p p' m m' hm hm' hu
    obtain ⟨n, hn, _, hnu⟩ := hseat hm
    obtain ⟨n', hn', _, hnu'⟩ := hseat hm'
    exact hs.users p p' n n' hn hn' (hnu.symm.trans (hu.trans hnu'))
  · intro p p' m m' hm hm' hsid
    obtain ⟨n, hn, hns, _⟩ := hseat hm
    obtain ⟨n', hn', hns', _⟩ := hseat hm'
    exact hs.sids p p' n n' hn hn' (hns.symm.trans (hsid.trans hns'))
  · have hsize : (s.members.modify pid f).size = s.members.size := by
      rw [Dict.size_eq_keys, Dict.size_eq_keys, Dict.keys_modify]
    exact le_of_eq_of_le hsize hs.size

end OpenWebUI.Encryption
