import OpenWebUI.Mfa.Invariant

/-! # The stored secret

A secret is stored by a confirmation only: of a login challenge while no secret is stored,
or of the challenge that `manage_mfa` hands out for a factor of the stored secret. That
challenge goes with the secret it was handed out for.
-/

namespace OpenWebUI.Mfa

open Py Transition

variable {m m' : MfaData} {log : List Entry} {fresh : Id} {auth : AuthModel}
    {edit : Edit} {f : Factor}

structure Secrets (m : MfaData) (log : List Entry) : Prop where
  login : ∀ c, m.loginChallenge = some c → c.type ≠ .replace ∧ (c.type = .enroll → m.secret = none)
  manage : ∀ c, m.manageChallenge = some c → c.type = .replace ∧
    ∃ secret first f codes rest, m.secret = some secret ∧
      log = first ++ .managed f (some c.token) codes :: rest ∧ storedSecret first = some secret ∧
        f.Of first secret
  reset : m.resetRequired = true → m.secret = none
  codes : ∀ d ∈ m.recoveryHashes, ∃ secret, m.secret = some secret ∧ Issued log secret d
  stored : storedSecret log = m.secret
  sanctioned : Justified Sanctioned log

/-- A factor that is good for the state is one of the stored secret. -/
theorem Secrets.of_available (h : Secrets m log) (hf : f.Available m) :
    ∃ secret, m.secret = some secret ∧ f.Of log secret := by
  cases f with
  | totp secret step => exact ⟨secret, hf.1, rfl⟩
  | recovery code => exact h.codes code hf

/-- An entry that neither stores a secret nor needs a sanction, and edits that leave the
secret, and what the challenges are for, as they were. -/
theorem Secrets.keep (h : Secrets m log) {e : Option Entry} (hsecret : m'.secret = m.secret)
    (hentry : ∀ x ∈ e, Sanctioned log x ∧ x.secretAfter m.secret = m.secret)
    (hlogin : ∀ c, m'.loginChallenge = some c → c.type ≠ .replace ∧
      (c.type = .enroll → m.secret = none))
    (hmanage : ∀ c, m'.manageChallenge = some c → ∃ old, m.manageChallenge = some old ∧
      c.type = old.type ∧ c.token = old.token)
    (hreset : m'.resetRequired = true → m.resetRequired = true)
    (hcodes : m'.recoveryHashes.Sublist m.recoveryHashes) : Secrets m' (log ++ e.toList) := by
  constructor
  case login => exact fun c hc => ⟨(hlogin c hc).1, fun ht => hsecret.trans ((hlogin c hc).2 ht)⟩
  case manage =>
    intro c hc
    obtain ⟨old, hold, htype, htoken⟩ := hmanage c hc
    obtain ⟨hreplace, secret, first, f, codes, rest, hs, rfl, hstored, hof⟩ := h.manage old hold
    refine ⟨htype.trans hreplace, secret, first, f, codes, rest ++ e.toList, hsecret.trans hs,
      ?_, hstored, hof⟩
    rw [htoken, List.append_assoc, List.cons_append]
  case reset => exact fun hr => hsecret.trans (h.reset (hreset hr))
  case codes =>
    intro d hd
    obtain ⟨secret, hs, hissued⟩ := h.codes d (hcodes.subset hd)
    exact ⟨secret, hsecret.trans hs, hissued.append _⟩
  case stored =>
    cases e with
    | none =>
        rw [Option.toList_none, List.append_nil, hsecret]
        exact h.stored
    | some x =>
        rw [Option.toList_some, storedSecret_snoc, h.stored, (hentry x rfl).2, hsecret]
  case sanctioned =>
    cases e with
    | none =>
        rw [Option.toList_none, List.append_nil]
        exact h.sanctioned
    | some x => exact h.sanctioned.snoc (hentry x rfl).1

/-- As `keep`, for edits whose challenges were there before. -/
theorem Secrets.same (h : Secrets m log) {e : Option Entry} (hsecret : m'.secret = m.secret)
    (hentry : ∀ x ∈ e, Sanctioned log x ∧ x.secretAfter m.secret = m.secret)
    (hold : ∀ slot c, m'.challenge slot = some c → ∃ old, m.challenge slot = some old ∧
      c.type = old.type ∧ c.token = old.token)
    (hreset : m'.resetRequired = true → m.resetRequired = true)
    (hcodes : m'.recoveryHashes.Sublist m.recoveryHashes) : Secrets m' (log ++ e.toList) := by
  refine h.keep hsecret hentry ?_ (hold .manage) hreset hcodes
  intro c hc
  obtain ⟨old, hslot, htype, -⟩ := hold .login c hc
  rw [htype]
  exact h.login old hslot

/-- Taking a factor is sanctioned when the factor is good for the state. -/
theorem Secrets.sanctions (h : Secrets m log) (hf : f.Available m) :
    ∃ secret, storedSecret log = some secret ∧ f.Of log secret := by
  rw [h.stored]
  exact h.of_available hf

/-- A login never replaces a secret, and enrols only where there is none. -/
theorem loginKind_spec (m : MfaData) (h : m.resetRequired = true → m.secret = none) :
    m.loginKind ≠ .replace ∧ (m.loginKind = .enroll → m.secret = none) := by
  unfold MfaData.loginKind
  split_ifs with hreset hsome
  · exact ⟨by decide, fun _ => h hreset⟩
  · exact ⟨by decide, fun hkind => by cases hkind⟩
  · exact ⟨by decide, fun _ => Option.not_isSome_iff_eq_none.mp hsome⟩

/-- A confirmed secret replaces none, or one that a factor was taken of. -/
theorem Secrets.confirm (h : Secrets m log) {slot : Slot} {c : MfaChallenge} {secret : Id}
    {step : ℤ} (hslot : m.challenge slot = some c) (htype : c.type = .enroll ∨ c.type = .replace)
    (codes : List Id) : Sanctioned log (.confirmed c.token secret step codes) := by
  intro old hstored
  rw [h.stored] at hstored
  cases slot with
  | login =>
      obtain ⟨hne, hnone⟩ := h.login c hslot
      rw [hnone (htype.resolve_right hne)] at hstored
      cases hstored
  | manage =>
      obtain ⟨-, secret', first, f, codes', rest, hs, hlog, hfirst, hof⟩ := h.manage c hslot
      rw [hs] at hstored
      cases hstored
      exact ⟨first, f, codes', rest, hlog, hfirst, hof⟩

/-- A challenge is written again, for the same. -/
theorem Secrets.rewrite (h : Secrets m log) {slot : Slot} {c : MfaChallenge} (c' : MfaChallenge)
    (hslot : m.challenge slot = some c) (htype : c'.type = c.type) (htoken : c'.token = c.token)
    {e : Option Entry} (hentry : ∀ x ∈ e, Sanctioned log x ∧ x.secretAfter m.secret = m.secret) :
    Secrets (m.setChallenge (some c') slot) (log ++ e.toList) := by
  refine h.same (secret_setChallenge _ _ _) hentry ?_ ?_ ?_
  · intro slot' x hx
    rcases challenge_setChallenge hx with ⟨rfl, heq⟩ | ⟨-, hold⟩
    · cases heq
      exact ⟨c, hslot, htype, htoken⟩
    · exact ⟨x, hold, rfl, rfl⟩
  · rw [resetRequired_setChallenge]
    exact id
  · rw [recoveryHashes_setChallenge]

/-- A confirmation stores the secret and issues codes with it. -/
theorem Secrets.confirmed (h : Secrets auth.state log) {c : MfaChallenge} {secret : Id} {step : ℤ}
    (hsanctioned : Sanctioned log (.confirmed c.token secret step (recoveryCodes fresh))) :
    Secrets (Edit.apply fresh auth (.confirm c secret step))
      (log ++ [.confirmed c.token secret step (recoveryCodes fresh)]) where
  login := fun c hc => by cases hc
  manage := fun c hc => by cases hc
  reset := fun hr => by cases hr
  codes := fun d hd => ⟨secret, rfl, log, _, [], rfl, .inl ⟨c.token, step, _, rfl, hd⟩⟩
  stored := storedSecret_snoc _ _
  sanctioned := h.sanctioned.snoc hsanctioned

/-- A factor that is taken leaves the secret; a reset still asked for has none. -/
theorem Secrets.consumed (h : Secrets m log) (f : Factor)
    (hr : (f.consume m).resetRequired = true) : (f.consume m).secret = none :=
  (secret_consume m f).trans (h.reset ((resetRequired_consume m f).symm.trans hr))

/-- The challenge that is handed out is for the secret whose factor is taken. -/
theorem Secrets.replaced (h : Secrets auth.state log) (hf : f.Available auth.state)
    (context : Context) (now : ℕ) : Secrets (Edit.apply fresh auth (.replace f context now))
      (log ++ [.managed f (some fresh) []]) := by
  obtain ⟨secret, hs, hof⟩ := h.of_available hf
  constructor
  case login =>
    intro c hc
    rw [show (Edit.apply fresh auth (.replace f context now)).secret = auth.state.secret from
      secret_consume _ f]
    exact h.login c ((challenge_consume _ f .login).symm.trans hc)
  case manage =>
    intro c hc
    cases hc
    exact ⟨rfl, secret, log, f, [], [], (secret_consume _ f).trans hs, rfl, h.stored.trans hs, hof⟩
  case reset => exact h.consumed f
  case codes =>
    intro d hd
    obtain ⟨a, ha, hissued⟩ := h.codes d ((recoveryHashes_consume _ f).subset hd)
    exact ⟨a, (secret_consume _ f).trans ha, hissued.append _⟩
  case stored => exact (storedSecret_snoc _ _).trans (h.stored.trans (secret_consume _ f).symm)
  case sanctioned => exact h.sanctioned.snoc (h.sanctions hf)

/-- New codes are issued for a factor of the stored secret. -/
theorem Secrets.regenerated (h : Secrets auth.state log) (hf : f.Available auth.state) :
    Secrets (Edit.apply fresh auth (.regenerate f))
      (log ++ [.managed f none (recoveryCodes fresh)]) := by
  obtain ⟨secret, hs, -⟩ := h.of_available hf
  constructor
  case login => exact fun c hc => by cases hc
  case manage => exact fun c hc => by cases hc
  case reset => exact h.consumed f
  case codes =>
    intro d hd
    exact ⟨secret, (secret_consume _ f).trans hs, log, _, [], rfl,
      .inr ⟨f, none, _, rfl, hd, h.stored.trans hs⟩⟩
  case stored => exact (storedSecret_snoc _ _).trans (h.stored.trans (secret_consume _ f).symm)
  case sanctioned => exact h.sanctioned.snoc (h.sanctions hf)

/-- An edit that was ready keeps the secret accounted for by the log. -/
theorem Secrets.save (h : Secrets auth.state log) (hready : edit.Ready auth.state) :
    Secrets (edit.apply fresh auth) (log ++ (edit.entry fresh auth).toList) := by
  cases edit with
  | login context now =>
      refine h.keep rfl (fun x hx => by cases hx) ?_ ?_ id (List.Sublist.refl _)
      · intro c hc
        cases hc
        exact loginKind_spec _ h.reset
      · exact fun c hc => ⟨c, hc, rfl, rfl⟩
  | attempt slot c now =>
      -- the attempt is counted in the limits, which no secret depends on
      have hcounted : Secrets (auth.state.countLimit "factor" now) log :=
        ⟨h.login, h.manage, h.reset, h.codes, h.stored, h.sanctioned⟩
      refine hcounted.rewrite { c with attempts := c.attempts + 1 } hready.1 rfl rfl fun x hx => ?_
      cases hx
      exact ⟨trivial, rfl⟩
  | enroll slot c =>
      refine h.rewrite (e := none) { c with secret := some fresh } hready rfl rfl fun x hx => ?_
      cases hx
  | confirm c secret step =>
      obtain ⟨⟨slot, hslot⟩, -, htype⟩ := hready
      exact h.confirmed (h.confirm hslot htype _)
  | verify c f =>
      refine h.same (secret_consume _ f) ?_ ?_ ?_ (recoveryHashes_consume _ f)
      · intro x hx
        cases hx
        exact ⟨h.sanctions hready.2, rfl⟩
      · intro slot c' hc'
        cases slot with
        | login => cases hc'
        | manage => exact ⟨c', (challenge_consume _ f .manage).symm.trans hc', rfl, rfl⟩
      · intro hr
        rw [← resetRequired_consume _ f]
        exact hr
  | limit now =>
      refine h.same rfl ?_ (fun slot c hc => ⟨c, hc, rfl, rfl⟩) id (List.Sublist.refl _)
      intro x hx
      cases hx
      exact ⟨trivial, rfl⟩
  | replace f context now => exact h.replaced hready context now
  | regenerate f => exact h.regenerated hready
  | redeem challenge now =>
      refine h.keep rfl (fun x hx => by cases hx) ?_ ?_ id (List.Sublist.refl _)
      · intro c hc
        cases hc
        refine ⟨?_, fun _ => h.reset hready⟩
        exact fun ht => by cases ht
      · exact fun c hc => ⟨c, hc, rfl, rfl⟩
  | reset now =>
      constructor
      case login => exact fun c hc => by cases hc
      case manage => exact fun c hc => by cases hc
      case reset => exact fun _ => rfl
      case codes => exact fun d hd => by cases hd
      case stored => exact storedSecret_snoc _ _
      case sanctioned => exact h.sanctioned.snoc trivial
  | clear =>
      refine h.same rfl (fun x hx => by cases hx) ?_ id (List.Sublist.refl _)
      intro slot c hc
      cases slot <;> cases hc

end OpenWebUI.Mfa
