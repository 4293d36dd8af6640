import OpenWebUI.Lib.Transition
import OpenWebUI.Mfa.Credential

/-! # Requests that race on one account

A request reads the credential row and later saves over it; a save is one compare-and-swap
on the revision, the session stamp and the password that were read. The log has what the
saves did, in their order.
-/

namespace OpenWebUI.Mfa

open Py Transition

inductive Op where
  | login (context : Context)
  | enrollment (token : Id)
  | confirm (token : Id) (code : String)
  | verify (token : Id) (code : String) (recovery : Bool)
  | manage (sessionStamp : Option Id) (context : Context) (code : String) (recovery replace : Bool)
  | redeem (token resetToken : Id)
  | reset
  | password (password : String)
  | revoke
deriving DecidableEq, Repr

/-- What a request finds outside the row: whether the user and the configuration allow
the step, whether secrets decrypt, and the time. -/
structure Answers where
  allowed : Bool
  readable : Bool
  now : ℕ
deriving DecidableEq, Repr

inductive Entry where
  /-- A code may be tested: the challenge, if there is one, and the end of the limit window. -/
  | attempted (token : Option Id) (window : ℕ)
  | verified (token : Id) (factor : Factor)
  | confirmed (token secret : Id) (step : ℤ) (codes : List Id)
  | managed (factor : Factor) (token : Option Id) (codes : List Id)
  | reset
deriving DecidableEq, Repr

/-! ## The requests between their saves -/

/-- `load_challenge` with an attempt. -/
def attemptEdit (auth : AuthModel) (token : Id) (kinds : List Kind) (a : Answers) : Option Edit :=
  match findChallenge auth token kinds a.now with
  | none => none
  | some (slot, c) =>
    if !a.allowed then none
    else if 5 ≤ c.attempts then none
    else if 10 ≤ (auth.state.limit "factor" a.now).count then none
    else some (.attempt slot c a.now)

/-- The first save of a request, from the row it read. -/
def Op.prepare (auth : AuthModel) (a : Answers) : Op → Option Edit
  | .login context => some (.login context a.now)
  | .enrollment token =>
    match findChallenge auth token [.enroll, .replace] a.now with
    | none => none
    | some (slot, c) => if !a.allowed ∨ c.secret.isSome then none else some (.enroll slot c)
  | .confirm token _ => attemptEdit auth token [.enroll, .replace] a
  | .verify token _ _ => attemptEdit auth token [.verify] a
  | .redeem token _ => attemptEdit auth token [.recover] a
  | .manage sessionStamp _ _ _ _ =>
    if !a.allowed then none
    else if auth.sessionStamp ≠ sessionStamp then none
    else if 10 ≤ (auth.state.limit "factor" a.now).count then none
    else some (.limit a.now)
  | .reset => some (.reset a.now)
  | .password _ | .revoke => some .clear

/-- The second save of a request, from the row its attempt left; the code is tested here. -/
def Op.test (codeHash : String → Id) (at' : Id → ℤ → String) (auth : AuthModel) (a : Answers)
    (c : MfaChallenge) : Op → Option Edit
  | .confirm _ code =>
    match c.secret with
    | none => none
    | some secret =>
      if a.readable then
        (matchingStep at' secret (strip code) (-1) a.now).map (.confirm c secret)
      else none
  | .verify _ code recovery =>
    (consumeFactor codeHash at' auth.state code recovery a.readable a.now).map (.verify c)
  | .redeem _ resetToken =>
    if auth.state.resetRequired ∧ auth.state.resetTicket.any (fun t => a.now < t.expiresAt ∧
      t.token = resetToken)
    then some (.redeem c a.now)
    else none
  | _ => none

/-- The second save of `manage_mfa`. -/
def Op.manageTest (codeHash : String → Id) (at' : Id → ℤ → String) (auth : AuthModel)
    (a : Answers) :
    Op → Option Edit
  | .manage _ context code recovery replace =>
    (consumeFactor codeHash at' auth.state code recovery a.readable a.now).map fun f =>
      if replace then .replace f context a.now else .regenerate f
  | _ => none

/-- What follows a save that succeeded. -/
def Op.next (codeHash : String → Id) (at' : Id → ℤ → String) (op : Op) (auth : AuthModel)
    (a : Answers) :
    Edit → Option Edit
  | .attempt _ c _ => op.test codeHash at' auth a { c with attempts := c.attempts + 1 }
  | .limit _ => op.manageTest codeHash at' auth a
  | _ => none

/-- What a save adds to the log. -/
def Edit.entry (fresh : Id) (auth : AuthModel) : Edit → Option Entry
  | .attempt _ c now => some (.attempted (some c.token) (auth.state.limit "factor" now).expiresAt)
  | .limit now => some (.attempted none (auth.state.limit "factor" now).expiresAt)
  | .confirm c secret step => some (.confirmed c.token secret step (recoveryCodes fresh))
  | .verify c factor => some (.verified c.token factor)
  | .replace factor _ _ => some (.managed factor (some fresh) [])
  | .regenerate factor => some (.managed factor none (recoveryCodes fresh))
  | .reset _ => some .reset
  | _ => none

/-! ## The system -/

inductive Job where
  /-- About to read the row; `tries` are left. -/
  | read (op : Op) (tries : ℕ)
  /-- About to save over the row it read. -/
  | save (op : Op) (tries : ℕ) (auth : AuthModel) (edit : Edit)
  | done

structure State where
  row : AuthModel
  jobs : List Job
  /-- The next random value. -/
  fresh : Id
  log : List Entry

/-- The `WHERE` clause of a save; a revocation leaves out the password and the active flag. -/
def AuthModel.unchanged (row auth : AuthModel) (op : Op) : Prop :=
  row.mfa.map MfaData.revision = auth.mfa.map MfaData.revision ∧
    row.sessionStamp = auth.sessionStamp ∧
    (op = .revoke ∨ (row.active = true ∧ row.password = auth.password))

instance (row auth : AuthModel) (op : Op) : Decidable (row.unchanged auth op) :=
  inferInstanceAs (Decidable (_ ∧ _ ∧ (_ ∨ (_ ∧ _))))

/-- `revoke=True`. -/
def Edit.revokes : Edit → Bool
  | .confirm _ _ _ | .regenerate _ | .reset _ | .clear => true
  | _ => false

/-- The row a save leaves. A revocation leaves an account without MFA data as it is. -/
def AuthModel.saved (auth : AuthModel) (fresh : Id) (op : Op) (edit : Edit) : AuthModel :=
  let mfa : MfaData := { edit.apply fresh auth with revision := fresh }
  { active := auth.active
    password := match op with
      | .password new => new
      | _ => auth.password
    mfa := if op = .revoke then auth.mfa.map fun _ => mfa else some mfa
    sessionStamp := if edit.revokes then some fresh else auth.sessionStamp }

/-- A request whose save failed reads the row again while it may. -/
def retry (op : Op) (tries : ℕ) (edit : Edit) : Job :=
  match edit with
  | .attempt _ _ _ | .limit _ => if tries = 0 then .done else .read op tries
  | _ => .done

inductive Action where
  | start (op : Op)
  | read (job : ℕ) (a : Answers)
  | save (job : ℕ) (a : Answers)

def State.next (codeHash : String → Id) (at' : Id → ℤ → String) (s : State) : Action → Option State
  | .start op => some { s with jobs := s.jobs ++ [.read op 5] }
  | .read job a =>
    match s.jobs[job]? with
    | some (.read op tries) =>
      match if s.row.active ∨ op = .revoke then op.prepare s.row a else none with
      | none => some { s with jobs := s.jobs.set job .done }
      | some edit => some { s with jobs := s.jobs.set job (.save op (tries - 1) s.row edit) }
    | _ => none
  | .save job a =>
    match s.jobs[job]? with
    | some (.save op tries auth edit) =>
      if s.row.unchanged auth op then
        let row := (if op = .revoke then
          { auth with active := s.row.active, password := s.row.password }
          else auth).saved s.fresh op edit
        some
          { row := row
            jobs := s.jobs.set job (match op.next codeHash at' row a edit with
              | none => .done
              | some edit' => .save op 0 row edit')
            fresh := s.fresh + 10
            log := s.log ++ (edit.entry s.fresh auth).toList }
      else some { s with jobs := s.jobs.set job (retry op tries edit) }
    | _ => none

def Step (codeHash : String → Id) (at' : Id → ℤ → String) (a : Action) (s s' : State) : Prop :=
  s.next codeHash at' a = some s'

/-- An account without MFA data. -/
def Initial (s : State) : Prop := s.row.mfa = none ∧ s.jobs = [] ∧ s.log = []

/-! ## What the log says -/

/-- The factor whose code a save accepted. -/
def Entry.accepted : Entry → Option Factor
  | .verified _ f | .managed f _ _ => some f
  | .confirmed _ secret step _ => some (.totp secret step)
  | _ => none

/-- The challenge that a save verified or confirmed. -/
def Entry.succeeded : Entry → Option Id
  | .verified t _ | .confirmed t _ _ _ => some t
  | _ => none

def accepted (log : List Entry) : List Factor := log.filterMap Entry.accepted

def succeeded (log : List Entry) : List Id := log.filterMap Entry.succeeded

/-- The number of codes that may have been tested for a challenge. -/
def attemptsOf (log : List Entry) (t : Id) : ℕ :=
  log.countP fun
    | .attempted token _ => token = some t
    | _ => false

/-- The number of codes that may have been tested in a limit window. -/
def attemptsIn (log : List Entry) (w : ℕ) : ℕ :=
  log.countP fun
    | .attempted _ window => window = w
    | _ => false

/-- The stored secret after an entry. -/
def Entry.secretAfter (secret : Option Id) : Entry → Option Id
  | .confirmed _ new _ _ => some new
  | .reset => none
  | _ => secret

def storedSecret (log : List Entry) : Option Id := log.foldl Entry.secretAfter none

/-- A recovery code was issued while the secret was stored, or with it. -/
def Issued (log : List Entry) (secret code : Id) : Prop :=
  ∃ before e after, log = before ++ e :: after ∧
    ((∃ t k codes, e = .confirmed t secret k codes ∧ code ∈ codes) ∨
      (∃ f t codes, e = .managed f t codes ∧ code ∈ codes ∧ storedSecret before = some secret))

/-- The factor is one of the secret. -/
def Factor.Of (log : List Entry) (secret : Id) : Factor → Prop
  | .totp s _ => s = secret
  | .recovery code => Issued log secret code

/-- What an entry needs of the entries before it. A login is verified and an account managed
with a factor of the stored secret; a stored secret is replaced through the challenge of a
`manage_mfa` that took such a factor. -/
def Sanctioned (before : List Entry) : Entry → Prop
  | .verified _ f | .managed f _ _ => ∃ secret, storedSecret before = some secret ∧
    f.Of before secret
  | .confirmed t _ _ _ => ∀ secret, storedSecret before = some secret →
    ∃ first f codes rest, before = first ++ .managed f (some t) codes :: rest ∧
      storedSecret first = some secret ∧ f.Of first secret
  | _ => True

end OpenWebUI.Mfa
