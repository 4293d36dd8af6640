import Mathlib.Data.Int.Notation
import OpenWebUI.Lib.Dict
import OpenWebUI.Lib.Text

/-! # The authenticator state of an account

`backend/open_webui/utils/mfa.py` and `backend/open_webui/models/auths.py`. Random tokens,
secrets, codes and stamps are numbers, and a token stands for its hash; an encrypted secret
stands for the secret. `codeHash` is `token_hash` of a submitted recovery code in lower
case, and `at'` the TOTP of a secret at a time step.
-/

namespace OpenWebUI.Mfa

open Py

abbrev Id := ℕ

inductive Kind where
  | enroll
  | verify
  | replace
  | recover
deriving DecidableEq, Repr

/-- What a challenge carries on to the session. -/
structure Context where
  authMethod : String
  authTime : ℕ
  oauthSessionId : Option String
  provider : Option String
deriving DecidableEq, Repr

structure MfaChallenge where
  token : Id
  type : Kind
  expiresAt : ℕ
  attempts : ℕ
  context : Context
  sessionStamp : Option Id
  secret : Option Id
deriving DecidableEq, Repr

structure MfaLimit where
  count : ℕ
  expiresAt : ℕ
deriving DecidableEq, Repr

structure MfaResetTicket where
  token : Id
  expiresAt : ℕ
deriving DecidableEq, Repr

structure MfaData where
  revision : Id
  secret : Option Id
  lastStep : ℤ
  recoveryHashes : List Id
  loginChallenge : Option MfaChallenge
  manageChallenge : Option MfaChallenge
  resetRequired : Bool
  resetTicket : Option MfaResetTicket
  limits : Dict String MfaLimit

/-- `MfaData()`. -/
def MfaData.empty : MfaData :=
  { revision := 0, secret := none, lastStep := -1, recoveryHashes := [], loginChallenge := none,
    manageChallenge := none, resetRequired := false, resetTicket := none, limits := ∅ }

structure AuthModel where
  active : Bool
  password : String
  mfa : Option MfaData
  sessionStamp : Option Id

/-- `auth.mfa.model_copy(deep=True) if auth.mfa else MfaData()`. -/
def AuthModel.state (auth : AuthModel) : MfaData := auth.mfa.getD .empty

def challengeSeconds : ℕ := 300
def limitSeconds : ℕ := 900

/-! ## Codes -/

/-- A factor that a code proves. -/
inductive Factor where
  | totp (secret : Id) (step : ℤ)
  | recovery (code : Id)
deriving DecidableEq, Repr

def isCode (code : String) : Bool :=
  code.length = 6 ∧ code.toList.all fun c => '0' ≤ c ∧ c ≤ '9'

def matchingStep (at' : Id → ℤ → String) (secret : Id) (code : String) (lastStep : ℤ) (now : ℕ) :
    Option ℤ :=
  if isCode code then
    let current : ℤ := now / 30
    [current, current - 1, current + 1].find? fun step => lastStep < step ∧ at' secret step = code
  else none

/-- The factor that `consume_factor` takes; `readable` says that the secret decrypts. -/
def consumeFactor (codeHash : String → Id) (at' : Id → ℤ → String) (mfa : MfaData) (code : String)
    (recovery readable : Bool) (now : ℕ) : Option Factor :=
  if recovery then
    let digest := codeHash (strip code)
    if digest ∈ mfa.recoveryHashes then some (.recovery digest) else none
  else
    match mfa.secret with
    | none => none
    | some secret =>
      if readable then (matchingStep at' secret (strip code) mfa.lastStep now).map (.totp secret)
      else none

/-- What `consume_factor` writes. -/
def Factor.consume (mfa : MfaData) : Factor → MfaData
  | .totp _ step => { mfa with lastStep := step }
  | .recovery code => { mfa with recoveryHashes := mfa.recoveryHashes.erase code }

def recoveryCodes (fresh : Id) : List Id := List.range' fresh 10

/-! ## Challenges and limits -/

inductive Slot where
  | login
  | manage
deriving DecidableEq, Repr

def MfaData.challenge (mfa : MfaData) : Slot → Option MfaChallenge
  | .login => mfa.loginChallenge
  | .manage => mfa.manageChallenge

def MfaData.setChallenge (mfa : MfaData) (c : Option MfaChallenge) : Slot → MfaData
  | .login => { mfa with loginChallenge := c }
  | .manage => { mfa with manageChallenge := c }

def newChallenge (fresh : Id) (auth : AuthModel) (kind : Kind) (context : Context) (now : ℕ) :
    MfaChallenge :=
  { token := fresh, type := kind, expiresAt := now + challengeSeconds, attempts := 0,
    context := context, sessionStamp := auth.sessionStamp, secret := none }

/-- The slot and the challenge that `load_challenge` finds for a token. -/
def findChallenge (auth : AuthModel) (token : Id) (kinds : List Kind) (now : ℕ) :
    Option (Slot × MfaChallenge) :=
  let mfa := auth.state
  let slot : Slot :=
    if kinds = [.replace] ∨ (.replace ∈ kinds ∧
      mfa.manageChallenge.any fun c => c.token = token) then
      .manage
    else .login
  match mfa.challenge slot with
  | none => none
  | some c =>
    if c.type ∉ kinds ∨ c.expiresAt ≤ now ∨ c.sessionStamp ≠ auth.sessionStamp ∨
        c.token ≠ token then none
    else some (slot, c)

/-- The running limit of a kind, or a new one. -/
def MfaData.limit (mfa : MfaData) (kind : String) (now : ℕ) : MfaLimit :=
  match mfa.limits.get? kind with
  | none => ⟨0, now + limitSeconds⟩
  | some l => if l.expiresAt ≤ now then ⟨0, now + limitSeconds⟩ else l

/-- `limit.count += 1`. -/
def MfaData.countLimit (mfa : MfaData) (kind : String) (now : ℕ) : MfaData :=
  let l := mfa.limit kind now
  { mfa with limits := mfa.limits.set kind ⟨l.count + 1, l.expiresAt⟩ }

/-! ## What is saved -/

/-- What the operations write over the state they read. -/
inductive Edit where
  /-- `start_mfa_login`. -/
  | login (context : Context) (now : ℕ)
  /-- `load_challenge` with an attempt. -/
  | attempt (slot : Slot) (challenge : MfaChallenge) (now : ℕ)
  /-- `start_mfa_enrollment`. -/
  | enroll (slot : Slot) (challenge : MfaChallenge)
  /-- `confirm_mfa_enrollment`, for the time step that matched. -/
  | confirm (challenge : MfaChallenge) (secret : Id) (step : ℤ)
  /-- `verify_mfa_challenge`. -/
  | verify (challenge : MfaChallenge) (factor : Factor)
  /-- `limit_account`. -/
  | limit (now : ℕ)
  /-- `manage_mfa` with `replace`. -/
  | replace (factor : Factor) (context : Context) (now : ℕ)
  /-- `manage_mfa` without. -/
  | regenerate (factor : Factor)
  /-- `redeem_mfa_reset_token`. -/
  | redeem (challenge : MfaChallenge) (now : ℕ)
  /-- `reset_mfa`. -/
  | reset (now : ℕ)
  /-- A password change, or `clear_mfa_challenges` of a revocation. -/
  | clear

/-- The kind of a new login challenge. -/
def MfaData.loginKind (mfa : MfaData) : Kind :=
  if mfa.resetRequired then .recover else if mfa.secret.isSome then .verify else .enroll

def MfaData.clearChallenges (mfa : MfaData) : MfaData :=
  { mfa with loginChallenge := none, manageChallenge := none, resetTicket := none }

/-- The state an operation saves, with the random values it draws numbered from `fresh`. -/
def Edit.apply (fresh : Id) (auth : AuthModel) : Edit → MfaData
  | .login context now =>
    { auth.state with
      loginChallenge := some (newChallenge fresh auth auth.state.loginKind context now) }
  | .attempt slot challenge now =>
    (auth.state.countLimit "factor" now).setChallenge
      (some { challenge with attempts := challenge.attempts + 1 }) slot
  | .enroll slot challenge =>
      auth.state.setChallenge (some { challenge with secret := some fresh }) slot
  | .confirm _ secret step =>
    { auth.state.clearChallenges with
      secret := some secret, lastStep := step, recoveryHashes := recoveryCodes fresh,
      resetRequired := false }
  | .verify _ factor => { factor.consume auth.state with loginChallenge := none }
  | .limit now => auth.state.countLimit "factor" now
  | .replace factor context now =>
    { factor.consume auth.state with
      manageChallenge := some (newChallenge fresh auth .replace context now) }
  | .regenerate factor =>
    { (factor.consume auth.state).clearChallenges with recoveryHashes := recoveryCodes fresh }
  | .redeem challenge now =>
    { auth.state with
      resetTicket := none
      loginChallenge := some (newChallenge fresh auth .enroll challenge.context now) }
  | .reset now =>
    { auth.state with
      secret := none, lastStep := -1, recoveryHashes := [], loginChallenge := none,
      manageChallenge := none, resetRequired := true,
      resetTicket := some ⟨fresh, now + 1800⟩ }
  | .clear => auth.state.clearChallenges

end OpenWebUI.Mfa
