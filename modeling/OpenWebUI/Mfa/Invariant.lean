import OpenWebUI.Mfa.System

/-! # What each save keeps

A save writes over the state it was computed from, so it is enough to follow the edits one
after another. The invariant has one part for each of: the random values, the factors, the
challenges, the limit, and the stored secret.
-/

namespace OpenWebUI.Mfa

open Py Transition

variable {m m' : MfaData} {log : List Entry} {fresh : Id} {auth : AuthModel}
    {edit : Edit} {f : Factor}

/-! ## The log -/

theorem accepted_append (log : List Entry) (e : Option Entry) :
    accepted (log ++ e.toList) = accepted log ++ (e.bind Entry.accepted).toList := by
  rw [accepted, List.filterMap_append]
  cases e with
  | none => rfl
  | some e => cases h : e.accepted <;> simp [accepted, h]

theorem succeeded_append (log : List Entry) (e : Option Entry) :
    succeeded (log ++ e.toList) = succeeded log ++ (e.bind Entry.succeeded).toList := by
  rw [succeeded, List.filterMap_append]
  cases e with
  | none => rfl
  | some e => cases h : e.succeeded <;> simp [succeeded, h]

theorem attemptsOf_append (log : List Entry) (e : Option Entry) (t : Id) :
    attemptsOf (log ++ e.toList) t = attemptsOf log t + attemptsOf e.toList t := List.countP_append

theorem attemptsIn_append (log : List Entry) (e : Option Entry) (w : ℕ) :
    attemptsIn (log ++ e.toList) w = attemptsIn log w + attemptsIn e.toList w := List.countP_append

theorem storedSecret_snoc (log : List Entry) (e : Entry) :
    storedSecret (log ++ [e]) = e.secretAfter (storedSecret log) := by
  rw [storedSecret, List.foldl_append]
  rfl

theorem Issued.append {secret code : Id} (h : Issued log secret code) (l : List Entry) :
    Issued (log ++ l) secret code := by
  obtain ⟨before, e, after, rfl, he⟩ := h
  exact ⟨before, e, after ++ l, by rw [List.append_assoc, List.cons_append], he⟩

/-! ## Edits -/

/-- The factor is good for the state. -/
def Factor.Available (m : MfaData) : Factor → Prop
  | .totp secret step => m.secret = some secret ∧ m.lastStep < step
  | .recovery code => code ∈ m.recoveryHashes

/-- What the checks before a save found in the state. -/
def Edit.Ready (m : MfaData) : Edit → Prop
  | .attempt slot c now => m.challenge slot = some c ∧ c.attempts < 5 ∧
    (m.limit "factor" now).count < 10
  | .enroll slot c => m.challenge slot = some c
  | .confirm c secret _ =>
    (∃ slot, m.challenge slot = some c) ∧ c.secret = some secret ∧
      (c.type = .enroll ∨ c.type = .replace)
  | .verify c f => m.loginChallenge = some c ∧ f.Available m
  | .limit now => (m.limit "factor" now).count < 10
  | .replace f _ _ | .regenerate f => f.Available m
  | .redeem _ _ => m.resetRequired = true
  | _ => True

@[simp] theorem challenge_setChallenge_self (m : MfaData) (c : Option MfaChallenge) (slot : Slot) :
    (m.setChallenge c slot).challenge slot = c := by cases slot <;> rfl

/-- Writing one slot. -/
theorem challenge_setChallenge {c : MfaChallenge} {slot slot' : Slot} {x : Option MfaChallenge}
    (h : (m.setChallenge x slot).challenge slot' = some c) :
    (slot' = slot ∧ x = some c) ∨ (slot' ≠ slot ∧ m.challenge slot' = some c) := by
  cases slot <;> cases slot'
  · exact .inl ⟨rfl, h⟩
  · exact .inr ⟨nofun, h⟩
  · exact .inr ⟨nofun, h⟩
  · exact .inl ⟨rfl, h⟩

@[simp] theorem secret_setChallenge (m : MfaData) (c : Option MfaChallenge) (slot : Slot) :
    (m.setChallenge c slot).secret = m.secret := by cases slot <;> rfl

@[simp] theorem lastStep_setChallenge (m : MfaData) (c : Option MfaChallenge) (slot : Slot) :
    (m.setChallenge c slot).lastStep = m.lastStep := by cases slot <;> rfl

@[simp] theorem recoveryHashes_setChallenge (m : MfaData) (c : Option MfaChallenge) (slot : Slot) :
    (m.setChallenge c slot).recoveryHashes = m.recoveryHashes := by cases slot <;> rfl

@[simp] theorem resetRequired_setChallenge (m : MfaData) (c : Option MfaChallenge) (slot : Slot) :
    (m.setChallenge c slot).resetRequired = m.resetRequired := by cases slot <;> rfl

@[simp] theorem limits_setChallenge (m : MfaData) (c : Option MfaChallenge) (slot : Slot) :
    (m.setChallenge c slot).limits = m.limits := by cases slot <;> rfl

@[simp] theorem secret_consume (m : MfaData) (f : Factor) : (f.consume m).secret = m.secret := by
  cases f <;> rfl

@[simp] theorem challenge_consume (m : MfaData) (f : Factor) (slot : Slot) :
    (f.consume m).challenge slot = m.challenge slot := by
  cases f <;> cases slot <;> rfl

@[simp] theorem resetRequired_consume (m : MfaData) (f : Factor) :
    (f.consume m).resetRequired = m.resetRequired := by cases f <;> rfl

@[simp] theorem limits_consume (m : MfaData) (f : Factor) : (f.consume m).limits = m.limits := by
  cases f <;> rfl

/-- Using a factor only takes recovery codes away. -/
theorem recoveryHashes_consume (m : MfaData) (f : Factor) :
    (f.consume m).recoveryHashes.Sublist m.recoveryHashes := by
  cases f with
  | totp secret step => exact List.Sublist.refl _
  | recovery code => exact List.erase_sublist

/-- The slot that an edit puts a new challenge into, if it does. -/
def Edit.slot : Edit → Slot
  | .replace _ _ _ => .manage
  | _ => .login

/-- The slots after an edit: a new challenge with a fresh token and no secret, or the old one
with one more attempt, with a fresh secret, or as it was. -/
theorem challenge_apply {slot : Slot} {c : MfaChallenge} (hready : edit.Ready auth.state)
    (h : (edit.apply fresh auth).challenge slot = some c) :
    (c.token = fresh ∧ c.secret = none ∧ slot = edit.slot) ∨
      ∃ old, auth.state.challenge slot = some old ∧ c.token = old.token ∧ c.type = old.type ∧
        (c.secret = old.secret ∨ c.secret = some fresh) ∧
        (c.attempts = old.attempts ∨
          ∃ now, edit = .attempt slot old now ∧ c.attempts = old.attempts + 1) := by
  -- a challenge that was there before is the old one itself
  have hold : ∀ old, auth.state.challenge slot = some old → c = old →
      ∃ old, auth.state.challenge slot = some old ∧ c.token = old.token ∧ c.type = old.type ∧
        (c.secret = old.secret ∨ c.secret = some fresh) ∧
        (c.attempts = old.attempts ∨
          ∃ now, edit = .attempt slot old now ∧ c.attempts = old.attempts + 1) := by
    rintro old hslot rfl
    exact ⟨c, hslot, rfl, rfl, .inl rfl, .inl rfl⟩
  cases edit with
  | login context now =>
      cases slot with
      | login =>
          cases h
          exact .inl ⟨rfl, rfl, rfl⟩
      | manage => exact .inr (hold c h rfl)
  | attempt slot' old now =>
      rcases challenge_setChallenge h with ⟨rfl, hc⟩ | ⟨-, hc⟩
      · cases hc
        exact .inr ⟨old, hready.1, rfl, rfl, .inl rfl, .inr ⟨now, rfl, rfl⟩⟩
      · exact .inr (hold c hc rfl)
  | enroll slot' old =>
      rcases challenge_setChallenge h with ⟨rfl, hc⟩ | ⟨-, hc⟩
      · cases hc
        exact .inr ⟨old, hready, rfl, rfl, .inr rfl, .inl rfl⟩
      · exact .inr (hold c hc rfl)
  | confirm old secret step => cases slot <;> cases h
  | verify old f =>
      cases slot with
      | login => cases h
      | manage => exact .inr (hold c ((challenge_consume _ f .manage).symm.trans h) rfl)
  | limit now => exact .inr (hold c h rfl)
  | replace f context now =>
      cases slot with
      | login => exact .inr (hold c ((challenge_consume _ f .login).symm.trans h) rfl)
      | manage =>
          cases h
          exact .inl ⟨rfl, rfl, rfl⟩
  | regenerate f => cases slot <;> cases h
  | redeem old now =>
      cases slot with
      | login =>
          cases h
          exact .inl ⟨rfl, rfl, rfl⟩
      | manage => exact .inr (hold c h rfl)
  | reset now => cases slot <;> cases h
  | clear => cases slot <;> cases h

/-- An edit keeps the secret, confirms a new one, or clears everything. -/
theorem secret_apply (fresh : Id) (auth : AuthModel) (edit : Edit) :
    (edit.apply fresh auth).secret = auth.state.secret ∨
      (∃ c secret step, edit = .confirm c secret step ∧
        (edit.apply fresh auth).secret = some secret) ∨
      ((edit.apply fresh auth).secret = none ∧ (edit.apply fresh auth).recoveryHashes = []) := by
  cases edit with
  | confirm c secret step => exact .inr (.inl ⟨c, secret, step, rfl, rfl⟩)
  | reset now => exact .inr (.inr ⟨rfl, rfl⟩)
  | attempt slot c now => exact .inl (secret_setChallenge _ _ _)
  | enroll slot c => exact .inl (secret_setChallenge _ _ _)
  | verify c f => exact .inl (secret_consume _ f)
  | replace f context now => exact .inl (secret_consume _ f)
  | regenerate f => exact .inl (secret_consume _ f)
  | _ => exact .inl rfl

/-- The recovery codes after an edit are among the old ones, or they are fresh. -/
theorem recoveryHashes_apply (fresh : Id) (auth : AuthModel) (edit : Edit) :
    (edit.apply fresh auth).recoveryHashes.Sublist auth.state.recoveryHashes ∨
      (edit.apply fresh auth).recoveryHashes = recoveryCodes fresh := by
  cases edit with
  | confirm c secret step => exact .inr rfl
  | regenerate f => exact .inr rfl
  | reset now => exact .inl (List.nil_sublist _)
  | attempt slot c now =>
      left
      rw [Edit.apply, recoveryHashes_setChallenge]
      exact List.Sublist.refl _
  | enroll slot c =>
      left
      rw [Edit.apply, recoveryHashes_setChallenge]
  | verify c f => exact .inl (recoveryHashes_consume _ f)
  | replace f context now => exact .inl (recoveryHashes_consume _ f)
  | _ => exact .inl (List.Sublist.refl _)

theorem mem_recoveryCodes {d : Id} : d ∈ recoveryCodes fresh ↔ fresh ≤ d ∧ d < fresh + 10 := by
  rw [recoveryCodes, List.mem_range'_1]

theorem nodup_recoveryCodes (fresh : Id) : (recoveryCodes fresh).Nodup := List.nodup_range'

/-- The factor a save accepts is good for the state it was computed from, or it is the first
of a secret that a challenge held. -/
theorem accepted_entry (hready : edit.Ready auth.state) {f : Factor}
    (h : (edit.entry fresh auth).bind Entry.accepted = some f) :
    f.Available auth.state ∨
      ∃ c secret step, edit = .confirm c secret step ∧ f = .totp secret step := by
  cases edit with
  | confirm c secret step =>
      cases h
      exact .inr ⟨c, secret, step, rfl, rfl⟩
  | verify c f' =>
      cases h
      exact .inl hready.2
  | replace f' context now =>
      cases h
      exact .inl hready
  | regenerate f' =>
      cases h
      exact .inl hready
  | _ => cases h

/-- A save reserves one attempt, of the challenge of the attempt. -/
theorem attempts_entry (fresh : Id) (auth : AuthModel) (edit : Edit) (t : Id) :
    attemptsOf (edit.entry fresh auth).toList t = 0 ∨
      ∃ slot c now, edit = .attempt slot c now ∧ c.token = t ∧
        attemptsOf (edit.entry fresh auth).toList t = 1 := by
  cases edit with
  | attempt slot c now =>
      by_cases ht : c.token = t
      · subst ht
        exact .inr ⟨slot, c, now, rfl, rfl, by simp [Edit.entry, attemptsOf]⟩
      · exact .inl (by simp [Edit.entry, attemptsOf, ht])
  | _ => exact .inl rfl

/-- A challenge succeeds when it is verified or confirmed, and then it is gone. -/
theorem succeeded_entry (hready : edit.Ready auth.state) {t : Id}
    (h : (edit.entry fresh auth).bind Entry.succeeded = some t) :
    ∃ slot c, auth.state.challenge slot = some c ∧ c.token = t ∧
      ∀ slot' c', (edit.apply fresh auth).challenge slot' = some c' →
        slot' ≠ slot ∧ auth.state.challenge slot' = some c' := by
  cases edit with
  | confirm c secret step =>
      cases h
      obtain ⟨⟨slot, hslot⟩, -⟩ := hready
      refine ⟨slot, c, hslot, rfl, fun slot' c' hc' => ?_⟩
      cases slot' <;> cases hc'
  | verify c f =>
      cases h
      refine ⟨.login, c, hready.1, rfl, fun slot' c' hc' => ?_⟩
      cases slot' with
      | login => cases hc'
      | manage => exact ⟨by decide, (challenge_consume _ f .manage).symm.trans hc'⟩
  | _ => cases h

/-! ## Random values -/

def Factor.id : Factor → Id
  | .totp secret _ => secret
  | .recovery code => code

/-- Every random value was drawn. -/
structure Drawn (m : MfaData) (log : List Entry) (fresh : Id) : Prop where
  token : ∀ slot c, m.challenge slot = some c → c.token < fresh
  pending : ∀ slot c b, m.challenge slot = some c → c.secret = some b → b < fresh
  secret : ∀ a, m.secret = some a → a < fresh
  recovery : ∀ d ∈ m.recoveryHashes, d < fresh
  factors : ∀ f ∈ accepted log, f.id < fresh
  attempted : ∀ t, attemptsOf log t ≠ 0 → t < fresh
  succeeded : ∀ t ∈ succeeded log, t < fresh

/-- A factor that can be used was drawn before. -/
theorem Factor.Available.id_lt (h : f.Available m) (hd : Drawn m log fresh) : f.id < fresh := by
  cases f with
  | totp secret step => exact hd.secret secret h.1
  | recovery code => exact hd.recovery code h

/-- Whatever an edit stores was drawn before the next edit. -/
theorem Drawn.step (h : Drawn auth.state log fresh) (hready : edit.Ready auth.state) :
    Drawn (edit.apply fresh auth) (log ++ (edit.entry fresh auth).toList) (fresh + 10) := by
  have hlt : ∀ {i : Id}, i < fresh → i < fresh + 10 := fun hi => Nat.lt_add_right 10 hi
  have hself : fresh < fresh + 10 := Nat.lt_add_of_pos_right (by decide)
  constructor
  case token =>
    intro slot c hc
    rcases challenge_apply hready hc with ⟨htoken, -, -⟩ | ⟨old, hold, htoken, -⟩
    · rw [htoken]
      exact hself
    · rw [htoken]
      exact hlt (h.token slot old hold)
  case pending =>
    intro slot c b hc hb
    rcases challenge_apply hready hc with ⟨-, hsecret, -⟩ | ⟨old, hold, -, -, hsecret | hsecret, -⟩
    · rw [hsecret] at hb
      cases hb
    · rw [hsecret] at hb
      exact hlt (h.pending slot old b hold hb)
    · rw [hsecret] at hb
      cases hb
      exact hself
  case secret =>
    intro a ha
    rcases secret_apply fresh auth edit with hsame | ⟨c, secret, step, rfl, hnew⟩ | ⟨hnone, -⟩
    · exact hlt (h.secret a (hsame ▸ ha))
    · obtain ⟨⟨slot, hslot⟩, hsecret, -⟩ := hready
      rw [hnew] at ha
      -- the secret confirmed is the one that was pending
      cases ha
      exact hlt (h.pending slot c _ hslot hsecret)
    · rw [hnone] at ha
      cases ha
  case recovery =>
    intro d hd
    rcases recoveryHashes_apply fresh auth edit with hsub | hnew
    · exact hlt (h.recovery d (hsub.subset hd))
    · rw [hnew] at hd
      exact (mem_recoveryCodes.mp hd).2
  case factors =>
    intro f hf
    rw [accepted_append] at hf
    rcases List.mem_append.mp hf with hf | hf
    · exact hlt (h.factors f hf)
    · rcases accepted_entry hready (Option.mem_toList.mp hf) with hav | ⟨c, secret, step, rfl, rfl⟩
      · exact hlt (hav.id_lt h)
      · obtain ⟨⟨slot, hslot⟩, hsecret, -⟩ := hready
        exact hlt (h.pending slot c _ hslot hsecret)
  case attempted =>
    intro t ht
    -- a token with attempts had them before, or is that of this attempt
    rw [attemptsOf_append] at ht
    by_cases hold : attemptsOf log t = 0
    · rcases attempts_entry fresh auth edit t with hzero | ⟨slot, c, now, rfl, rfl, -⟩
      · rw [hold, hzero] at ht
        exact absurd rfl ht
      · exact hlt (h.token slot c hready.1)
    · exact hlt (h.attempted t hold)
  case succeeded =>
    intro t ht
    rw [succeeded_append] at ht
    rcases List.mem_append.mp ht with ht | ht
    · exact hlt (h.succeeded t ht)
    · obtain ⟨slot, c, hslot, rfl, -⟩ := succeeded_entry hready (Option.mem_toList.mp ht)
      exact hlt (h.token slot c hslot)

/-! ## Factors -/

/-- No accepted factor can be accepted again. -/
structure Replay (m : MfaData) (log : List Entry) : Prop where
  once : (accepted log).Nodup
  codes : m.recoveryHashes.Nodup
  recovery : ∀ d ∈ m.recoveryHashes, .recovery d ∉ accepted log
  step : ∀ a, m.secret = some a → ∀ k, .totp a k ∈ accepted log → k ≤ m.lastStep
  pending : ∀ slot c b, m.challenge slot = some c → c.secret = some b →
    m.secret ≠ some b ∧ ∀ k, .totp b k ∉ accepted log

/-- A factor that is good for the state was not accepted. -/
theorem Replay.not_mem (h : Replay m log) (hf : f.Available m) : f ∉ accepted log := by
  cases f with
  | totp secret step =>
      intro hmem
      have := h.step secret hf.1 step hmem
      exact absurd hf.2 (Int.not_lt.mpr this)
  | recovery code => exact h.recovery code hf

/-- A step accepted under the current secret is not above the last one stored. -/
theorem Replay.consume_step (h : Replay m log) (hf : f.Available m) {a : Id}
    (ha : m.secret = some a) {k : ℤ} (hk : .totp a k ∈ accepted log ++ [f]) :
    k ≤ (f.consume m).lastStep := by
  rcases List.mem_append.mp hk with hk | hk
  · have hle := h.step a ha k hk
    cases f with
    | totp secret step => exact Int.le_trans hle (Int.le_of_lt hf.2)
    | recovery code => exact hle
  · obtain rfl := List.mem_singleton.mp hk
    exact Int.le_refl k

/-- A save that accepts a recovery code takes it from the codes, or draws new ones. -/
theorem consumed_entry (h : Replay auth.state log) {d : Id}
    (hd : (edit.entry fresh auth).bind Entry.accepted = some (.recovery d)) :
    d ∉ (edit.apply fresh auth).recoveryHashes ∨
      (edit.apply fresh auth).recoveryHashes = recoveryCodes fresh := by
  cases edit with
  | verify c f =>
      cases hd
      exact .inl h.codes.not_mem_erase
  | replace f context now =>
      cases hd
      exact .inl h.codes.not_mem_erase
  | regenerate f => exact .inr rfl
  | _ => cases hd

/-- An edit keeps every accepted factor spent. -/
theorem Replay.save (h : Replay auth.state log) (hd : Drawn auth.state log fresh)
    (hready : edit.Ready auth.state) :
    Replay (edit.apply fresh auth) (log ++ (edit.entry fresh auth).toList) := by
  -- a factor that the save accepts is new
  have hnew : ∀ f, (edit.entry fresh auth).bind Entry.accepted = some f → f ∉ accepted log := by
    intro f hf
    rcases accepted_entry hready hf with hav | ⟨c, secret, k, rfl, rfl⟩
    · exact h.not_mem hav
    · obtain ⟨⟨slot, hslot⟩, hsecret, -⟩ := hready
      exact (h.pending slot c secret hslot hsecret).2 k
  have hmem : ∀ f, f ∈ accepted (log ++ (edit.entry fresh auth).toList) →
      f ∈ accepted log ∨ (edit.entry fresh auth).bind Entry.accepted = some f := by
    intro f hf
    rw [accepted_append] at hf
    exact (List.mem_append.mp hf).imp_right Option.mem_toList.mp
  constructor
  case once =>
    rw [accepted_append]
    refine List.Nodup.append h.once ?_ ?_
    · cases (edit.entry fresh auth).bind Entry.accepted with
      | none => exact List.nodup_nil
      | some f => exact List.nodup_singleton f
    · intro f hf hf'
      exact hnew f (Option.mem_toList.mp hf') hf
  case codes =>
    rcases recoveryHashes_apply fresh auth edit with hsub | hcodes
    · exact h.codes.sublist hsub
    · rw [hcodes]
      exact nodup_recoveryCodes fresh
  case recovery =>
    intro d hd' haccepted
    have hlt : (edit.apply fresh auth).recoveryHashes = recoveryCodes fresh →
      d < fresh → False := by
      intro hcodes hdlt
      rw [hcodes] at hd'
      exact absurd (mem_recoveryCodes.mp hd').1 (Nat.not_le_of_lt hdlt)
    rcases hmem _ haccepted with hold | hentry
    · rcases recoveryHashes_apply fresh auth edit with hsub | hcodes
      · exact h.recovery d (hsub.subset hd') hold
      · exact hlt hcodes (hd.factors _ hold)
    · rcases consumed_entry h hentry with hnot | hcodes
      · exact hnot hd'
      · rcases accepted_entry hready hentry with hav | ⟨c, secret, k, -, heq⟩
        · exact hlt hcodes (hav.id_lt hd)
        · cases heq
  case step =>
    intro a ha k hk
    have happend := hk
    rw [accepted_append] at happend
    cases edit with
    | confirm c secret step =>
        cases ha
        obtain ⟨⟨slot, hslot⟩, hsecret, -⟩ := hready
        rcases hmem _ hk with hold | hentry
        · exact absurd hold ((h.pending slot c _ hslot hsecret).2 k)
        · cases hentry
          exact Int.le_refl _
    | verify c f => exact h.consume_step hready.2 ((secret_consume _ f).symm.trans ha) happend
    | replace f context now =>
        exact h.consume_step hready ((secret_consume _ f).symm.trans ha) happend
    | regenerate f => exact h.consume_step hready ((secret_consume _ f).symm.trans ha) happend
    | attempt slot c now =>
        rw [Edit.apply, secret_setChallenge] at ha
        rw [Edit.apply, lastStep_setChallenge]
        exact h.step a ha k ((hmem _ hk).resolve_right fun hentry => by cases hentry)
    | enroll slot c =>
        rw [Edit.apply, secret_setChallenge] at ha
        rw [Edit.apply, lastStep_setChallenge]
        exact h.step a ha k ((hmem _ hk).resolve_right fun hentry => by cases hentry)
    | reset now => cases ha
    | _ => exact h.step a ha k ((hmem _ hk).resolve_right fun hentry => by cases hentry)
  case pending =>
    intro slot c b hc hb
    have hconfirm : ∀ x y z, edit ≠ .confirm x y z := by
      rintro x y z rfl
      cases slot <;> cases hc
    -- a secret that a challenge holds is fresh, or it was held before
    have hb' : auth.state.secret ≠ some b ∧ ∀ k, .totp b k ∉ accepted log := by
      rcases challenge_apply hready hc with ⟨-, hsecret, -⟩ | ⟨old, hold, -, -,
        hsecret | hsecret, -⟩
      · rw [hsecret] at hb
        cases hb
      · exact h.pending slot old b hold (hsecret ▸ hb)
      · rw [hsecret] at hb
        cases hb
        exact ⟨fun hs => Nat.lt_irrefl _ (hd.secret _ hs),
          fun k hk => Nat.lt_irrefl _ (hd.factors _ hk)⟩
    constructor
    · rcases secret_apply fresh auth edit with hsame | ⟨x, y, z, heq, -⟩ | ⟨hnone, -⟩
      · rw [hsame]
        exact hb'.1
      · exact absurd heq (hconfirm x y z)
      · rw [hnone]
        exact fun hs => by cases hs
    · intro k hk
      rcases hmem _ hk with hold | hentry
      · exact hb'.2 k hold
      · rcases accepted_entry hready hentry with hav | ⟨x, y, z, heq, -⟩
        · exact hb'.1 hav.1
        · exact hconfirm x y z heq

/-! ## Challenges -/

/-- A challenge that succeeded is gone, and no challenge has more than five attempts. -/
structure Tokens (m : MfaData) (log : List Entry) : Prop where
  once : (succeeded log).Nodup
  live : ∀ slot c, m.challenge slot = some c → c.token ∉ succeeded log
  distinct : ∀ slot slot' c c', m.challenge slot = some c → m.challenge slot' = some c' →
    c.token = c'.token → slot = slot'
  bounded : ∀ t, attemptsOf log t ≤ 5
  counted : ∀ slot c, m.challenge slot = some c → attemptsOf log c.token ≤ c.attempts

/-- An edit keeps every finished challenge unusable. -/
theorem Tokens.save (h : Tokens auth.state log) (hd : Drawn auth.state log fresh)
    (hready : edit.Ready auth.state) :
    Tokens (edit.apply fresh auth) (log ++ (edit.entry fresh auth).toList) := by
  -- the token drawn now was not attempted
  have hfresh : attemptsOf log fresh = 0 := by
    by_contra hne
    exact Nat.lt_irrefl _ (hd.attempted fresh hne)
  constructor
  case once =>
    rw [succeeded_append]
    refine List.Nodup.append h.once ?_ ?_
    · cases (edit.entry fresh auth).bind Entry.succeeded with
      | none => exact List.nodup_nil
      | some t => exact List.nodup_singleton t
    · intro t ht ht'
      obtain ⟨slot, c, hslot, rfl, -⟩ := succeeded_entry hready (Option.mem_toList.mp ht')
      exact h.live slot c hslot ht
  case live =>
    intro slot c hc ht
    rw [succeeded_append] at ht
    -- a token that has succeeded is in no slot, nor is the new one
    rcases List.mem_append.mp ht with ht | ht
    · rcases challenge_apply hready hc with ⟨htoken, -⟩ | ⟨old, hold, htoken, -⟩
      · rw [htoken] at ht
        exact Nat.lt_irrefl _ (hd.succeeded _ ht)
      · rw [htoken] at ht
        exact h.live slot old hold ht
    · -- the other slot has another token
      obtain ⟨slot', c', hslot', htoken, hgone⟩ := succeeded_entry hready (Option.mem_toList.mp ht)
      obtain ⟨hne, hold⟩ := hgone slot c hc
      exact hne (h.distinct slot slot' c c' hold hslot' htoken.symm)
  case distinct =>
    intro slot slot' c c' hc hc' heq
    rcases challenge_apply hready hc with ⟨htoken, -, hslot⟩ | ⟨old, hold, htoken, -⟩ <;>
      rcases challenge_apply hready hc' with ⟨htoken', -, hslot'⟩ | ⟨old', hold', htoken', -⟩
    · exact hslot.trans hslot'.symm
    · rw [htoken, htoken'] at heq
      exact absurd (heq ▸ hd.token slot' old' hold') (Nat.lt_irrefl _)
    · rw [htoken, htoken'] at heq
      exact absurd (heq ▸ hd.token slot old hold) (Nat.lt_irrefl _)
    · rw [htoken, htoken'] at heq
      exact h.distinct slot slot' old old' hold hold' heq
  case bounded =>
    intro t
    rw [attemptsOf_append]
    -- an attempt is only allowed below the limit
    rcases attempts_entry fresh auth edit t with hzero | ⟨slot, c, now, rfl, rfl, hone⟩
    · rw [hzero]
      exact h.bounded t
    · have := h.counted slot c hready.1
      have := hready.2.1
      omega
  case counted =>
    intro slot c hc
    rw [attemptsOf_append]
    rcases attempts_entry fresh auth edit c.token with hzero | ⟨slot', old', now, rfl, heq, hone⟩
    · rw [hzero]
      rcases challenge_apply hready hc with ⟨htoken, -⟩ | ⟨old, hold, htoken, -, -, hattempts⟩
      · rw [htoken, hfresh]
        exact Nat.zero_le _
      · have := h.counted slot old hold
        rw [htoken]
        rcases hattempts with hsame | ⟨now, -, hmore⟩ <;> omega
    · have hold' := h.counted slot' old' hready.1
      rw [heq] at hold'
      -- the slot of the attempt counts it, and the other slot has another token
      rcases challenge_setChallenge hc with ⟨-, hnew⟩ | ⟨hne, hold⟩
      · cases hnew
        show _ ≤ old'.attempts + 1
        omega
      · exact absurd (h.distinct slot slot' c old' hold hready.1 heq.symm) hne

/-! ## The limit -/

/-- No window has more than ten attempts, and later windows have none yet. -/
structure Windows (m : MfaData) (log : List Entry) : Prop where
  bounded : ∀ w, attemptsIn log w ≤ 10
  running : ∀ l, m.limits.get? "factor" = some l →
    attemptsIn log l.expiresAt ≤ l.count ∧ ∀ w, l.expiresAt < w → attemptsIn log w = 0
  first : m.limits.get? "factor" = none → ∀ w, attemptsIn log w = 0

/-- The limit that is counted up next. -/
theorem Windows.limit (h : Windows m log) (now : ℕ) :
    attemptsIn log (m.limit "factor" now).expiresAt ≤ (m.limit "factor" now).count ∧
      ∀ w, (m.limit "factor" now).expiresAt < w → attemptsIn log w = 0 := by
  unfold MfaData.limit
  split
  · next hnone => exact ⟨Nat.le_of_eq (h.first hnone _), fun w _ => h.first hnone w⟩
  · next l hsome =>
      obtain ⟨hcount, hlater⟩ := h.running l hsome
      split_ifs with hexpired
      · -- a new window ends after the old one
        have hlt : l.expiresAt < now + limitSeconds :=
          Nat.lt_of_le_of_lt hexpired (Nat.lt_add_of_pos_right (by decide))
        refine ⟨Nat.le_of_eq (hlater _ hlt), fun w hw => hlater w (Nat.lt_trans hlt hw)⟩
      · exact ⟨hcount, hlater⟩

/-- A counted attempt is one of at most ten in its window. -/
theorem Windows.count (h : Windows m log) {now : ℕ} (hcount : (m.limit "factor" now).count < 10)
    {token : Option Id} {m' : MfaData} (hlimits : m'.limits = (m.countLimit "factor" now).limits) :
    Windows m' (log ++ [.attempted token (m.limit "factor" now).expiresAt]) := by
  obtain ⟨hle, hlater⟩ := h.limit now
  have happend : ∀ w, attemptsIn (log ++ [.attempted token (m.limit "factor" now).expiresAt]) w =
      attemptsIn log w + if (m.limit "factor" now).expiresAt = w then 1 else 0 := by
    intro w
    rw [attemptsIn, List.countP_append, List.countP_singleton]
    simp only [decide_eq_true_eq]
    rfl
  have hget : m'.limits.get? "factor" =
      some ⟨(m.limit "factor" now).count + 1, (m.limit "factor" now).expiresAt⟩ := by
    rw [hlimits]
    exact Dict.get?_set_self _ _ _
  constructor
  case bounded =>
    intro w
    rw [happend]
    split_ifs with hw
    · subst hw
      omega
    · exact h.bounded w
  case running =>
    intro l hl
    rw [hget] at hl
    cases hl
    constructor
    · rw [happend, if_pos rfl]
      exact Nat.succ_le_succ hle
    · intro w hw
      rw [happend, if_neg (Nat.ne_of_lt hw), hlater w hw]
  case first =>
    intro hnone
    rw [hget] at hnone
    cases hnone

/-- An edit keeps the attempts of each window counted. -/
theorem Windows.save (h : Windows auth.state log) (hready : edit.Ready auth.state) :
    Windows (edit.apply fresh auth) (log ++ (edit.entry fresh auth).toList) := by
  have hsame : ∀ {m' : MfaData} {e : Option Entry}, m'.limits = auth.state.limits →
      (∀ w, attemptsIn e.toList w = 0) → Windows m' (log ++ e.toList) := by
    intro m' e hlimits hzero
    refine ⟨fun w => ?_, fun l hl => ?_, fun hnone w => ?_⟩
    · rw [attemptsIn_append, hzero]
      exact h.bounded w
    · rw [hlimits] at hl
      refine ⟨?_, fun w hw => ?_⟩
      · rw [attemptsIn_append, hzero]
        exact (h.running l hl).1
      · rw [attemptsIn_append, hzero, (h.running l hl).2 w hw]
    · rw [hlimits] at hnone
      rw [attemptsIn_append, hzero, h.first hnone w]
  cases edit with
  | attempt slot c now => exact h.count hready.2.2 (limits_setChallenge _ _ _)
  | limit now => exact h.count hready rfl
  | enroll slot c => exact hsame (limits_setChallenge _ _ _) fun _ => rfl
  | verify c f => exact hsame (limits_consume _ f) fun _ => rfl
  | replace f context now => exact hsame (limits_consume _ f) fun _ => rfl
  | regenerate f => exact hsame (limits_consume _ f) fun _ => rfl
  | _ => exact hsame rfl fun _ => rfl

end OpenWebUI.Mfa
