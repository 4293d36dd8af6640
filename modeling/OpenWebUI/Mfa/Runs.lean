import OpenWebUI.Mfa.Secrets

/-! # Runs

A save goes through only over the row that its job read, since every other row has another
revision. So the row takes one edit after another, and each edit was checked against the row
it goes over.
-/

namespace OpenWebUI.Mfa

open Py Transition

variable {codeHash : String → Id} {at' : Id → ℤ → String} {m : MfaData}
    {log : List Entry} {fresh : Id}
  {auth row row' : AuthModel} {op : Op} {edit edit' : Edit} {a : Answers} {s s' : State}

/-! ## The row -/

structure Inv (m : MfaData) (log : List Entry) (fresh : Id) : Prop where
  drawn : Drawn m log fresh
  replay : Replay m log
  tokens : Tokens m log
  windows : Windows m log
  secrets : Secrets m log

/-- The account without a second factor meets the invariant. -/
theorem Inv.empty (fresh : Id) : Inv .empty [] fresh := by
  have hslot : ∀ slot, MfaData.empty.challenge slot = none := by
    intro slot
    cases slot <;> rfl
  constructor
  case drawn =>
    constructor
    case token =>
      intro slot c hc
      rw [hslot] at hc
      cases hc
    case pending =>
      intro slot c b hc
      rw [hslot] at hc
      cases hc
    case secret => exact fun b hb => by cases hb
    case recovery => exact fun d hd => by cases hd
    case factors => exact fun f hf => by cases hf
    case attempted => exact fun t ht => absurd rfl ht
    case succeeded => exact fun t ht => by cases ht
  case replay =>
    constructor
    case once => exact List.nodup_nil
    case codes => exact List.nodup_nil
    case recovery => exact fun d hd => by cases hd
    case step => exact fun b hb => by cases hb
    case pending =>
      intro slot c b hc
      rw [hslot] at hc
      cases hc
  case tokens =>
    constructor
    case once => exact List.nodup_nil
    case live => exact fun slot c hc ht => by cases ht
    case distinct =>
      intro slot slot' c c' hc
      rw [hslot] at hc
      cases hc
    case bounded => exact fun t => Nat.zero_le _
    case counted => exact fun slot c hc => Nat.zero_le _
  case windows => exact ⟨fun w => Nat.zero_le _, fun l hl => (by cases hl), fun _ w => rfl⟩
  case secrets =>
    constructor
    case login => exact fun c hc => by cases hc
    case manage => exact fun c hc => by cases hc
    case reset => exact fun hr => by cases hr
    case codes => exact fun d hd => by cases hd
    case stored => rfl
    case sanctioned => exact Justified.nil

/-- An edit that was ready keeps the invariant. -/
theorem Inv.save (h : Inv auth.state log fresh) (hready : edit.Ready auth.state) :
    Inv (edit.apply fresh auth) (log ++ (edit.entry fresh auth).toList) (fresh + 10) where
  drawn := h.drawn.step hready
  replay := h.replay.save h.drawn hready
  tokens := h.tokens.save h.drawn hready
  windows := h.windows.save hready
  secrets := h.secrets.save hready

/-- The invariant does not read the revision. -/
theorem Inv.revise (h : Inv m log fresh) (r : Id) : Inv { m with revision := r } log fresh where
  drawn := ⟨h.drawn.token, h.drawn.pending, h.drawn.secret, h.drawn.recovery, h.drawn.factors,
    h.drawn.attempted, h.drawn.succeeded⟩
  replay := ⟨h.replay.once, h.replay.codes, h.replay.recovery, h.replay.step, h.replay.pending⟩
  tokens := ⟨h.tokens.once, h.tokens.live, h.tokens.distinct, h.tokens.bounded, h.tokens.counted⟩
  windows := ⟨h.windows.bounded, h.windows.running, h.windows.first⟩
  secrets := ⟨h.secrets.login, h.secrets.manage, h.secrets.reset, h.secrets.codes, h.secrets.stored,
    h.secrets.sanctioned⟩

/-! ## The checks of a request -/

/-- A challenge that is found is stored, under its slot and of a kind that was asked for. -/
theorem findChallenge_spec {token : Id} {kinds : List Kind} {now : ℕ} {slot : Slot}
    {c : MfaChallenge} (h : findChallenge auth token kinds now = some (slot, c)) :
    auth.state.challenge slot = some c ∧ c.type ∈ kinds ∧ (slot = .manage → .replace ∈ kinds) := by
  unfold findChallenge at h
  simp only at h
  split at h
  · cases h
  · next c' hc' =>
      obtain ⟨hbad, heq⟩ := Option.ite_none_left_eq_some.mp h
      obtain ⟨rfl, rfl⟩ := Prod.mk.inj (Option.some.inj heq)
      refine ⟨hc', ?_, ?_⟩
      · by_contra hkind
        exact hbad (.inl hkind)
      · intro hslot
        split_ifs at hslot with hreplace
        rcases hreplace with rfl | ⟨hmem, -⟩
        · exact List.mem_singleton_self _
        · exact hmem

/-- An attempt is an edit on a challenge that is still open. -/
theorem attemptEdit_spec {token : Id} {kinds : List Kind}
    (h : attemptEdit auth token kinds a = some edit) :
    ∃ slot c, edit = .attempt slot c a.now ∧ edit.Ready auth.state ∧ c.type ∈ kinds ∧
      (slot = .manage → .replace ∈ kinds) := by
  unfold attemptEdit at h
  split at h
  · cases h
  · next slot c hfind =>
      obtain ⟨hslot, hkind, hmanage⟩ := findChallenge_spec hfind
      split_ifs at h with hallowed hattempts hlimit
      cases h
      exact ⟨slot, c, rfl, ⟨hslot, Nat.lt_of_not_le hattempts, Nat.lt_of_not_le hlimit⟩,
        hkind, hmanage⟩

/-- A matching step is above the last one used. -/
theorem matchingStep_lt {secret : Id} {code : String} {lastStep step : ℤ} {now : ℕ}
    (h : matchingStep at' secret code lastStep now = some step) : lastStep < step := by
  unfold matchingStep at h
  split_ifs at h
  have := List.find?_some h
  simp only [decide_eq_true_eq] at this
  exact this.1

/-- A factor that matches can still be used. -/
theorem consumeFactor_available {code : String} {recovery readable : Bool} {now : ℕ} {f : Factor}
    (h : consumeFactor codeHash at' m code recovery readable now = some f) : f.Available m := by
  unfold consumeFactor at h
  cases recovery with
  | true =>
      obtain ⟨hmem, heq⟩ := Option.ite_none_right_eq_some.mp h
      cases heq
      exact hmem
  | false =>
      simp only [Bool.false_eq_true, if_false] at h
      split at h
      · cases h
      · next secret hs =>
          obtain ⟨-, heq⟩ := Option.ite_none_right_eq_some.mp h
          obtain ⟨step, hstep, rfl⟩ := Option.map_eq_some_iff.mp heq
          exact ⟨hs, matchingStep_lt hstep⟩

/-- What the request of a save is. -/
def Op.Fits : Op → Edit → Prop
  | .confirm _ _, .attempt _ c _ => c.type = .enroll ∨ c.type = .replace
  | .verify _ _ _, .attempt slot _ _ => slot = .login
  | .revoke, edit => edit = .clear
  | _, _ => True

/-- The first save of a request was checked against the row it read. -/
theorem prepare_spec (h : op.prepare auth a = some edit) :
    edit.Ready auth.state ∧ op.Fits edit := by
  cases op with
  | login context =>
      cases h
      exact ⟨trivial, trivial⟩
  | enrollment token =>
      unfold Op.prepare at h
      simp only at h
      split at h
      · cases h
      · next slot c hfind =>
          split_ifs at h
          cases h
          exact ⟨(findChallenge_spec hfind).1, trivial⟩
  | confirm token code =>
      obtain ⟨slot, c, rfl, hready, hkind, -⟩ := attemptEdit_spec h
      refine ⟨hready, ?_⟩
      -- both kinds of confirmation are ready in the same way
      rcases List.mem_cons.mp hkind with henroll | hreplace
      · exact .inl henroll
      · exact .inr (List.mem_singleton.mp hreplace)
  | verify token code recovery =>
      obtain ⟨slot, c, rfl, hready, -, hmanage⟩ := attemptEdit_spec h
      refine ⟨hready, ?_⟩
      cases slot with
      | login => rfl
      | manage => exact absurd (hmanage rfl) (by decide)
  | redeem token resetToken =>
      obtain ⟨slot, c, rfl, hready, -⟩ := attemptEdit_spec h
      exact ⟨hready, trivial⟩
  | manage sessionStamp context code recovery replace =>
      unfold Op.prepare at h
      simp only at h
      split_ifs at h with hallowed hstamp hlimit
      cases h
      exact ⟨Nat.lt_of_not_le hlimit, trivial⟩
  | reset =>
      cases h
      exact ⟨trivial, trivial⟩
  | password new =>
      cases h
      exact ⟨trivial, trivial⟩
  | revoke =>
      cases h
      exact ⟨trivial, rfl⟩

/-- The second save of a request was checked against the row that the first one left. -/
theorem test_spec {slot : Slot} {c : MfaChallenge} {now : ℕ}
    (hslot : row.state.challenge slot = some c) (hfits : op.Fits (.attempt slot c now))
    (h : op.test codeHash at' row a c = some edit) :
    edit.Ready row.state ∧ op.Fits edit := by
  cases op with
  | confirm token code =>
      unfold Op.test at h
      simp only at h
      split at h
      · cases h
      · next secret hsecret =>
          split_ifs at h
          obtain ⟨step, -, rfl⟩ := Option.map_eq_some_iff.mp h
          exact ⟨⟨⟨slot, hslot⟩, hsecret, hfits⟩, trivial⟩
  | verify token code recovery =>
      obtain ⟨f, hf, rfl⟩ := Option.map_eq_some_iff.mp h
      obtain rfl : slot = .login := hfits
      exact ⟨⟨hslot, consumeFactor_available hf⟩, trivial⟩
  | redeem token resetToken =>
      unfold Op.test at h
      simp only at h
      split_ifs at h with hticket
      cases h
      exact ⟨hticket.1, trivial⟩
  | _ => cases h

/-- An edit that a management request may make is ready and fits it. -/
theorem manageTest_spec (h : op.manageTest codeHash at' row a = some edit) :
    edit.Ready row.state ∧ op.Fits edit := by
  cases op with
  | manage sessionStamp context code recovery replace =>
      obtain ⟨f, hf, rfl⟩ := Option.map_eq_some_iff.mp h
      have hav := consumeFactor_available hf
      cases replace with
      | true => exact ⟨hav, trivial⟩
      | false => exact ⟨hav, trivial⟩
  | _ => cases h

/-- The edit of the second save is ready on the row as it is then. -/
theorem next_spec (hready : edit.Ready auth.state) (hfits : op.Fits edit)
    (hchallenge : ∀ slot, row.state.challenge slot = (edit.apply fresh auth).challenge slot)
    (h : op.next codeHash at' row a edit = some edit') : edit'.Ready row.state ∧ op.Fits edit' := by
  cases edit with
  | attempt slot c now =>
      have hslot : row.state.challenge slot = some { c with attempts := c.attempts + 1 } := by
        rw [hchallenge]
        exact challenge_setChallenge_self _ _ slot
      have hfits' : op.Fits (.attempt slot { c with attempts := c.attempts + 1 } now) := by
        cases op <;> first | exact hfits | cases hfits
      exact test_spec hslot hfits' h
  | limit now => exact manageTest_spec h
  | _ => cases h

/-! ## The requests -/

/-- A save that may go through goes over the row that its checks read. -/
structure Checked (row : AuthModel) (fresh : Id) (op : Op) (auth : AuthModel)
    (edit : Edit) : Prop where
  drawn : ∀ m, auth.mfa = some m → m.revision < fresh
  current : auth.mfa.map MfaData.revision = row.mfa.map MfaData.revision → auth.mfa = row.mfa
  ready : edit.Ready auth.state
  fits : op.Fits edit

/-- Another save leaves the MFA data as they were, or gives them a new revision. -/
theorem Checked.later (h : Checked row fresh op auth edit)
    (hrow : row'.mfa = row.mfa ∨ ∃ m, row'.mfa = some m ∧ m.revision = fresh) :
    Checked row' (fresh + 10) op auth edit := by
  refine ⟨fun m hm => Nat.lt_add_right 10 (h.drawn m hm), ?_, h.ready, h.fits⟩
  intro heq
  rcases hrow with hsame | ⟨m, hm, hrevision⟩
  · rw [hsame] at heq ⊢
    exact h.current heq
  · -- no row that was read has the new revision
    rw [hm, Option.map_some, hrevision] at heq
    obtain ⟨old, hold, hr⟩ := Option.map_eq_some_iff.mp heq
    exact absurd (h.drawn old hold) (by rw [hr]; exact Nat.lt_irrefl _)

structure Sound (s : State) : Prop where
  row : Inv s.row.state s.log s.fresh
  drawn : ∀ m, s.row.mfa = some m → m.revision < s.fresh
  jobs : ∀ op tries auth edit, .save op tries auth edit ∈ s.jobs →
    Checked s.row s.fresh op auth edit

/-- The start is sound. -/
theorem Initial.sound (h : Initial s) : Sound s := by
  obtain ⟨hmfa, hjobs, hlog⟩ := h
  constructor
  case row =>
    rw [AuthModel.state, hmfa, hlog]
    exact Inv.empty s.fresh
  case drawn =>
    intro m hm
    rw [hmfa] at hm
    cases hm
  case jobs =>
    intro op tries auth edit hjob
    rw [hjobs] at hjob
    cases hjob

/-- Setting a job that is not about to save. -/
theorem Sound.setJob (h : Sound s) {i : ℕ} {job : Job}
    (hjob : ∀ op tries auth edit, job = .save op tries auth edit →
      Checked s.row s.fresh op auth edit) :
    Sound { s with jobs := s.jobs.set i job } := by
  refine ⟨h.row, h.drawn, ?_⟩
  intro op tries auth edit hmem
  rcases List.mem_or_eq_of_mem_set hmem with hold | heq
  · exact h.jobs op tries auth edit hold
  · exact hjob op tries auth edit heq.symm

theorem entry_congr (h : auth.state = row.state) (fresh : Id) (edit : Edit) :
    edit.entry fresh auth = edit.entry fresh row := by
  cases edit <;> simp only [Edit.entry, h]

/-- The row after a save: the edit of the row before it, or, for a revocation of an account
without MFA data, the row before it. -/
theorem saved_mfa (auth : AuthModel) (fresh : Id) (hfits : op.Fits edit) :
    (auth.saved fresh op edit).mfa = some { edit.apply fresh auth with revision := fresh } ∨
      ((auth.saved fresh op edit).mfa = none ∧ auth.mfa = none ∧ edit = .clear) := by
  unfold AuthModel.saved
  by_cases hop : op = .revoke
  · subst hop
    cases hmfa : auth.mfa with
    | none => exact .inr ⟨by simp, rfl, hfits⟩
    | some m => exact .inl (by simp)
  · exact .inl (by simp [hop])

/-- The row as it is saved meets the invariant. -/
theorem Inv.saved (h : Inv auth.state log fresh) (hready : edit.Ready auth.state)
    (hfits : op.Fits edit) :
    Inv (auth.saved fresh op edit).state (log ++ (edit.entry fresh auth).toList) (fresh + 10) := by
  have hsave := h.save hready
  rw [AuthModel.state]
  rcases saved_mfa auth fresh hfits with hsome | ⟨hnone, hmfa, rfl⟩
  · rw [hsome]
    exact hsave.revise fresh
  · rw [Edit.apply, AuthModel.state, hmfa] at hsave
    rw [hnone]
    exact hsave

/-- A retry is not a save. -/
theorem retry_ne_save {tries tries' : ℕ} {op' : Op} :
    retry op tries edit ≠ .save op' tries' auth edit' := by
  unfold retry
  intro heq
  split at heq
  · split at heq <;> cases heq
  · split at heq <;> cases heq
  · cases heq

/-- A save that goes through; `base` has the MFA data that were read. -/
theorem Sound.save {base : AuthModel} (h : Sound s) (hchecked : Checked s.row s.fresh op auth edit)
    (hunchanged : s.row.unchanged auth op) (hbase : base.mfa = auth.mfa) (i : ℕ) :
    Sound
      { row := base.saved s.fresh op edit
        jobs := s.jobs.set i (match op.next codeHash at' (base.saved s.fresh op edit) a edit with
          | none => .done
          | some edit' => .save op 0 (base.saved s.fresh op edit) edit')
        fresh := s.fresh + 10
        log := s.log ++ (edit.entry s.fresh auth).toList } := by
  have hmfa : auth.mfa = s.row.mfa := hchecked.current hunchanged.1.symm
  -- the row has not changed since it was read, so the edit is ready for it
  have hstate : base.state = s.row.state := by rw [AuthModel.state, AuthModel.state, hbase, hmfa]
  have hstate' : auth.state = base.state := by rw [AuthModel.state, AuthModel.state, hbase]
  have hready : edit.Ready base.state := hstate' ▸ hchecked.ready
  have hrow := saved_mfa base s.fresh hchecked.fits
  have hlt : s.fresh < s.fresh + 10 := Nat.lt_add_of_pos_right (by decide)
  have hdrawn : ∀ m, (base.saved s.fresh op edit).mfa = some m → m.revision < s.fresh + 10 := by
    intro m hm
    rcases hrow with hsome | ⟨hnone, -⟩
    · rw [hsome] at hm
      cases hm
      exact hlt
    · rw [hnone] at hm
      cases hm
  constructor
  case row =>
    rw [entry_congr hstate' s.fresh edit]
    exact Inv.saved (hstate ▸ h.row) hready hchecked.fits
  case drawn => exact hdrawn
  case jobs =>
    intro op' tries' auth' edit' hmem
    rcases List.mem_or_eq_of_mem_set hmem with hold | heq
    -- the other jobs have read an earlier row
    · apply (h.jobs op' tries' auth' edit' hold).later
      rcases hrow with hsome | ⟨hnone, hempty, -⟩
      · exact .inr ⟨_, hsome, rfl⟩
      · left
        rw [hnone, ← hmfa, ← hbase, hempty]
    · -- the second save of the request
      split at heq
      · cases heq
      · next edit'' hnext =>
          cases heq
          have hchallenge : ∀ slot, (base.saved s.fresh op edit).state.challenge slot =
              (edit.apply s.fresh base).challenge slot := by
            intro slot
            rw [AuthModel.state]
            rcases hrow with hsome | ⟨hnone, hempty, rfl⟩
            · rw [hsome]
              rfl
            · cases hnext
          obtain ⟨hready', hfits'⟩ := next_spec hready hchecked.fits hchallenge hnext
          exact ⟨hdrawn, fun _ => rfl, hready', hfits'⟩

/-- Every step keeps the invariant. -/
theorem Sound.step {action : Action} (h : Sound s) (hstep : Step codeHash at' action s s') :
    Sound s' := by
  unfold Step State.next at hstep
  cases action with
  | start op =>
      cases hstep
      refine ⟨h.row, h.drawn, ?_⟩
      intro op' tries auth edit hmem
      rcases List.mem_append.mp hmem with hold | hnew
      · exact h.jobs op' tries auth edit hold
      · cases List.mem_singleton.mp hnew
  | read i a =>
      simp only at hstep
      split at hstep
      · next op tries hjob =>
          split at hstep
          · cases hstep
            exact h.setJob fun op tries auth edit heq => by cases heq
          · next edit hprepare =>
              cases hstep
              apply h.setJob
              intro op' tries' auth edit' heq
              cases heq
              obtain ⟨-, hedit⟩ := Option.ite_none_right_eq_some.mp hprepare
              obtain ⟨hready, hfits⟩ := prepare_spec hedit
              exact ⟨h.drawn, fun _ => rfl, hready, hfits⟩
      · cases hstep
  | save i a =>
      simp only at hstep
      split at hstep
      · next op tries auth edit hjob =>
          have hchecked := h.jobs op tries auth edit (List.mem_of_getElem? hjob)
          -- the save goes through where the row is still the one that was read
          by_cases hunchanged : s.row.unchanged auth op
          · rw [if_pos hunchanged] at hstep
            cases hstep
            exact h.save hchecked hunchanged (by split_ifs <;> rfl) i
          · rw [if_neg hunchanged] at hstep
            cases hstep
            exact h.setJob fun op' tries' auth' edit' heq => absurd heq retry_ne_save
      · cases hstep

/-- Every reachable state is sound. -/
theorem Sound.run (hs : Reachable Initial (Step codeHash at') s) : Sound s :=
  hs.invariant (fun _ => Initial.sound) fun _ _ _ h hstep => h.step hstep

/-! ## What every run keeps -/

/-- In every run no code is accepted twice and no challenge answered twice, the attempts stay within
both limits, and the secret is replaced only after a factor of the old one was taken. -/
theorem mfa_runs (codeHash : String → Id) (at' : Id → ℤ → String) (s : State)
    (hs : Reachable Initial (Step codeHash at') s) :
    (accepted s.log).Nodup ∧ (succeeded s.log).Nodup ∧
      (∀ t, attemptsOf s.log t ≤ 5) ∧ (∀ w, attemptsIn s.log w ≤ 10) ∧
      storedSecret s.log = s.row.state.secret ∧ Justified Sanctioned s.log := by
  obtain ⟨hinv, -, -⟩ := Sound.run hs
  exact ⟨hinv.replay.once, hinv.tokens.once, hinv.tokens.bounded, hinv.windows.bounded,
    hinv.secrets.stored, hinv.secrets.sanctioned⟩

/-- An account that enrolls, with two confirmations of one challenge in flight. -/
def enrolling : List Action :=
  let a : Answers := { allowed := true, readable := true, now := 3000 }
  [.start (.login ⟨"password", 3000, none, none⟩), .read 0 a, .save 0 a,
    .start (.enrollment 0), .read 1 a, .save 1 a,
    .start (.confirm 0 "123456"), .start (.confirm 0 "123456"),
    .read 2 a, .read 3 a, .save 2 a, .save 3 a, .save 2 a]

def newAccount : State :=
  { row := ⟨true, "hash", none, none⟩, jobs := [], fresh := 0, log := [] }

/-- An enrolment and a login, run to their ends. -/
theorem mfa_runs_enrolling :
    ∃ s, enrolling.foldlM (State.next (fun _ => 0) fun _ _ => "123456") newAccount = some s ∧
      s.log = [.attempted (some 0) 3900, .confirmed 0 10 100 (recoveryCodes 30)] ∧
      (accepted s.log).Nodup ∧ (succeeded s.log).Nodup ∧
      (∀ t, attemptsOf s.log t ≤ 5) ∧ (∀ w, attemptsIn s.log w ≤ 10) ∧
      storedSecret s.log = s.row.state.secret ∧ Justified Sanctioned s.log := by
  obtain ⟨s, hs, hlog⟩ :
      ∃ s, enrolling.foldlM (State.next (fun _ => 0) fun _ _ => "123456") newAccount = some s ∧
        s.log = [.attempted (some 0) 3900, .confirmed 0 10 100 (recoveryCodes 30)] := ⟨_, rfl, rfl⟩
  have hstart : Reachable Initial (Step (fun _ => 0) fun _ _ => "123456") newAccount :=
    .start ⟨rfl, rfl, rfl⟩
  exact ⟨s, hs, hlog, mfa_runs (fun _ => 0) (fun _ _ => "123456") s (hstart.foldlM hs)⟩

end OpenWebUI.Mfa
