import OpenWebUI.Lib.Base64
import OpenWebUI.Lib.Dict
import OpenWebUI.Lib.Program

/-! # The encryption session

`src/crypto/encryption/src/lib.rs`: one participant's session, which holds at most one
MLS group. The packets, the rosters and the expected senders come from the server.
OpenMLS and the JSON codec are parameters; what is assumed of them is in `Lawful`.
-/

namespace OpenWebUI.Crypto

open Py Program

def maxPacket : ℕ := 1024 * 1024

abbrev Bytes := List ℕ

structure Identity where
  channel : String
  session : String
  user : String
  participation : String
deriving DecidableEq

structure Binding where
  identity : Identity
  key : String

/-- A leaf node: its credential and its signature key. -/
structure Leaf where
  credential : Bytes
  signatureKey : Bytes

/-! ## The libraries -/

/-- `serde_json` at the session's types; `identity` also fails on other credential types. -/
structure Serde where
  identity : Bytes → Option Identity
  identityBytes : Identity → Bytes
  roster : String → Option (List Binding)

/-- The identity that was written is read back. -/
def Serde.Lawful (S : Serde) : Prop := ∀ id, S.identity (S.identityBytes id) = some id

inductive Sender where
  | member (index : ℕ)
  | other
deriving DecidableEq

inductive Proposal where
  | add (leaf : Leaf)
  | remove (index : ℕ)
  | update (leaf : Leaf)
  | other

structure QueuedProposal where
  sender : Sender
  proposal : Proposal

def Proposal.added : Proposal → Option Leaf
  | .add leaf => some leaf
  | _ => none

def Proposal.removed : Proposal → Option ℕ
  | .remove i => some i
  | _ => none

/-- The member that updates its leaf, and the new leaf. -/
def QueuedProposal.updated (q : QueuedProposal) : Option (ℕ × Leaf) :=
  match q.proposal with
  | .update leaf =>
    match q.sender with
    | .member i => some (i, leaf)
    | .other => none
  | _ => none

/-- A staged commit: the committer's position, its new leaf and the proposals. -/
structure Commit where
  committer : ℕ
  path : Option Leaf
  proposals : List QueuedProposal

def Commit.adds (c : Commit) : List Leaf := c.proposals.filterMap fun q => q.proposal.added

def Commit.removes (c : Commit) : List ℕ := c.proposals.filterMap fun q => q.proposal.removed

def Commit.updates (c : Commit) : List (ℕ × Leaf) := c.proposals.filterMap QueuedProposal.updated

inductive Content where
  | application (bytes : Bytes)
  | proposal (q : QueuedProposal)
  | commit (c : Commit)
  | other

structure Processed where
  sender : Sender
  credential : Bytes
  content : Content

/-- A call on a group: it may change the provider and the group even when it fails. -/
abbrev Mutation (π γ α : Type) := π → γ → (π × γ) × Option α

/-- What the session uses of OpenMLS. -/
structure OpenMls where
  Provider : Type
  Group : Type
  /-- A message that has not been serialized. -/
  Message : Type
  serialize : Message → Option Bytes
  members : Group → Dict ℕ Leaf
  pendingProposals : Group → List QueuedProposal
  pendingCommit : Group → Option Commit
  groupId : Group → Bytes
  /-- The group uses the session's ciphersuite. -/
  suite : Group → Bool
  keyPackage : Provider → Leaf → Provider × Option Message
  build : Provider → Leaf → Bytes → Provider × Option Group
  fromWelcome : Provider → Bytes → Provider × Option Group
  /-- A validated key package. -/
  validate : Bytes → Option Leaf
  addMembers : Leaf → Mutation Provider Group (Message × Message)
  removeMembers : ℕ → Mutation Provider Group Message
  selfUpdate : Mutation Provider Group Message
  proposeSelfUpdate : Mutation Provider Group Message
  commitToPendingProposals : Mutation Provider Group Message
  mergePendingCommit : Mutation Provider Group Unit
  createMessage : Bytes → Mutation Provider Group Message
  processMessage : Bytes → Mutation Provider Group Processed
  storePendingProposal : QueuedProposal → Mutation Provider Group Unit
  mergeStagedCommit : Commit → Mutation Provider Group Unit

/-! ## Checks -/

def encode (M : OpenMls) (m : M.Message) : Option String := (M.serialize m).map b64encode

def decode (v : String) : Option Bytes := do
  guard (v.utf8ByteSize ≤ maxPacket * 4 / 3 + 4)
  let bytes ← b64decodeStrict v
  guard (bytes.length ≤ maxPacket)
  return bytes

/-- `String::from_utf8`. -/
def utf8 (bytes : Bytes) : Option String := String.fromUTF8? ⟨(bytes.map UInt8.ofNat).toArray⟩

def bytesOf (s : String) : Bytes := s.toUTF8.toList.map UInt8.toNat

variable (S : Serde)

/-- `check`: the leaf's identity belongs to this session and is in the roster with its key. -/
def check (leaf : Leaf) (context : Identity) (roster : List Binding) : Option Identity := do
  let id ← S.identity leaf.credential
  guard (id.channel = context.channel ∧ id.session = context.session)
  guard (roster.any fun b => b.identity = id ∧ b.key = b64encode leaf.signatureKey)
  return id

/-- `roster`: the bindings the server claims, each user and each participation once. -/
def readRoster (value : String) (context : Identity) : Option (List Binding) := do
  let roster ← S.roster value
  guard (0 < roster.length ∧ roster.length ≤ 128)
  guard ((roster.map fun b => b.identity.user).Nodup ∧
    (roster.map fun b => b.identity.participation).Nodup)
  guard (∀ b ∈ roster, b.identity.channel = context.channel ∧ b.identity.session = context.session ∧
    (decode b.key).map List.length = some 32)
  return roster

/-- Whether a member of that user is in the group. -/
def hasUser (members : Dict ℕ Leaf) (user : String) : Bool :=
  members.entries.any fun e => (S.identity e.2.credential).any fun i => i.user = user

/-- The member with that participation. -/
def indexOf (members : Dict ℕ Leaf) (participation : String) : Option ℕ :=
  (members.entries.find? fun e =>
    (S.identity e.2.credential).any fun i => i.participation = participation).map Prod.fst

/-- The check of one proposal of a commit; it collects the users that are added. -/
def checkProposal (context : Identity) (roster : List Binding) (host : String)
    (members : Dict ℕ Leaf) (added : List String) (q : QueuedProposal) : Option (List String) :=
  match q.proposal with
  | .add leaf => do
    let id ← check S leaf context roster
    guard (id.user ∉ added ∧ ¬ hasUser S members id.user)
    return id.user :: added
  | .remove i => do
    let m ← members.get? i
    let id ← S.identity m.credential
    guard (id.participation ≠ host ∧ ¬ roster.any fun b => b.identity = id)
    return added
  | .update leaf =>
    match q.sender with
    | .member i => do
      let old ← members.get? i
      let id ← check S leaf context roster
      let oldId ← S.identity old.credential
      guard (id = oldId)
      return added
    | .other => none
  | .other => none

/-! ## The session -/

structure Session (M : OpenMls) where
  provider : M.Provider
  signatureKey : Bytes
  id : Identity
  host : String
  group : Option M.Group

/-- The session's own credential and key. -/
def Session.leaf {M : OpenMls} (s : Session M) : Leaf := ⟨S.identityBytes s.id, s.signatureKey⟩

/-- `Session::new`. -/
def Session.new {M : OpenMls} (provider : M.Provider) (signatureKey : Bytes) (id : Identity)
    (host : String) : Option (Session M) := do
  guard (∀ s ∈ [id.channel, id.session, id.user, id.participation],
    s ≠ "" ∧ s.utf8ByteSize ≤ 128)
  guard (host ≠ "")
  return ⟨provider, signatureKey, id, host, none⟩

/-- A method: every error is the same text. -/
abbrev Method (M : OpenMls) := Prog (Session M) Unit

variable {M : OpenMls} {α : Type}

def require (c : Prop) [Decidable c] : Method M Unit := ensure () c

/-- `ok_or_else(..)?`. -/
def demand (o : Option α) : Method M α := ofOption () o

/-- A call on the session's group. -/
def onGroup (f : Mutation M.Provider M.Group α) : Method M α := do
  let s ← get
  let g ← demand s.group
  let r := f s.provider g
  set { s with provider := r.1.1, group := some r.1.2 }
  demand r.2

def keyPackage : Method M String := do
  let s ← get
  require (s.group.isNone)
  let r := M.keyPackage s.provider (s.leaf S)
  set { s with provider := r.1 }
  let kp ← demand r.2
  demand (encode M kp)

def create : Method M Unit := do
  let s ← get
  require (s.group.isNone ∧ s.id.participation = s.host)
  let r := M.build s.provider (s.leaf S) (bytesOf s.id.session)
  set { s with provider := r.1 }
  let g ← demand r.2
  modify fun s => { s with group := some g }

def join (welcome bindings : String) : Method M Unit := do
  let s ← get
  require (s.group.isNone ∧ s.id.participation ≠ s.host)
  let roster ← demand (readRoster S bindings s.id)
  let packet ← demand (decode welcome)
  let r := M.fromWelcome s.provider packet
  set { s with provider := r.1 }
  let g ← demand r.2
  require (M.groupId g = bytesOf s.id.session ∧ M.suite g)
  let ids ← demand ((M.members g).entries.mapM fun e => check S e.2 s.id roster)
  require ((ids.map Identity.user).Nodup)
  require (s.host ∈ ids.map Identity.participation)
  modify fun s => { s with group := some g }

/-- Merges the commit that was just created and answers with its packets. -/
def mergeOwn {β : Type} (out : Option β) : Method M β := do
  let out ← demand out
  onGroup M.mergePendingCommit
  return out

def add (keyPackage expected bindings : String) : Method M (String × String) := do
  let s ← get
  require (s.id.participation = s.host)
  let roster ← demand (readRoster S bindings s.id)
  let kp ← demand (decode keyPackage >>= M.validate)
  let id ← demand (check S kp s.id roster)
  require (id.participation = expected)
  let g ← demand s.group
  require ((M.members g).size < 128 ∧ ¬ hasUser S (M.members g) id.user)
  let (commit, welcome) ← onGroup (M.addMembers kp)
  mergeOwn do
    let commit ← encode M commit
    let welcome ← encode M welcome
    return (commit, welcome)

def remove (participation bindings : String) : Method M String := do
  let s ← get
  require (s.id.participation = s.host ∧ participation ≠ s.host)
  let roster ← demand (readRoster S bindings s.id)
  require (¬ roster.any fun b => b.identity.participation = participation)
  let g ← demand s.group
  let index ← demand (indexOf S (M.members g) participation)
  let commit ← onGroup (M.removeMembers index)
  mergeOwn (encode M commit)

def update : Method M String := do
  let s ← get
  if s.id.participation = s.host then do
    let commit ← onGroup M.selfUpdate
    mergeOwn (encode M commit)
  else do
    let proposal ← onGroup M.proposeSelfUpdate
    demand (encode M proposal)

def commitUpdates : Method M String := do
  let s ← get
  require (s.id.participation = s.host)
  let commit ← onGroup M.commitToPendingProposals
  mergeOwn (encode M commit)

def encrypt (text : String) : Method M String := do
  require (text.utf8ByteSize ≤ 100 * 1024)
  let m ← onGroup (M.createMessage (bytesOf text))
  demand (encode M m)

inductive ProcessResult where
  | application (sender : Identity) (text : String)
  | proposal
  | commit

/-- `process` of a proposal: only an update that keeps its sender's identity is stored. -/
def processProposal (context : Identity) (roster : List Binding) (sender : Identity)
    (q : QueuedProposal) : Method M ProcessResult :=
  match q.proposal with
  | .update leaf => do
    let id ← demand (check S leaf context roster)
    require (id = sender)
    onGroup (M.storePendingProposal q)
    return .proposal
  | _ => throw ()

/-- `process` of a commit: only the host's, and only if all its proposals are in order. -/
def processCommit (s : Session M) (members : Dict ℕ Leaf) (roster : List Binding)
    (sender : Identity) (c : Commit) : Method M ProcessResult := do
  require (sender.participation = s.host)
  require (∀ leaf ∈ c.path, check S leaf s.id roster = some sender)
  let _ ← demand (c.proposals.foldlM (checkProposal S s.id roster s.host members) [])
  require (members.size + c.adds.length - c.removes.length ≤ 128)
  onGroup (M.mergeStagedCommit c)
  return .commit

/-- `process` of what OpenMLS has read and verified. -/
def processContent (expected : String) (roster : List Binding) (processed : Processed) :
    Method M ProcessResult := do
  let s ← get
  let g ← demand s.group
  match processed.sender with
  | .other => throw ()
  | .member index =>
    let member ← demand ((M.members g).get? index)
    let sender ← demand (check S ⟨processed.credential, member.signatureKey⟩ s.id roster)
    require (sender.participation = expected)
    match processed.content with
    | .application bytes =>
      require (bytes.length ≤ 100 * 1024)
      return .application sender (← demand (utf8 bytes))
    | .proposal q => processProposal S s.id roster sender q
    | .commit c => processCommit S s (M.members g) roster sender c
    | .other => throw ()

def process (packet expected bindings : String) : Method M ProcessResult := do
  let s ← get
  let roster ← demand (readRoster S bindings s.id)
  let _ ← demand s.group
  let bytes ← demand (decode packet)
  let processed ← onGroup (M.processMessage bytes)
  processContent S expected roster processed

end OpenWebUI.Crypto
