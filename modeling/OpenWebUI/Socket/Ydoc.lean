import Mathlib
import OpenWebUI.Lib.Transition

/-! # Shared documents

`YdocManager` of `backend/open_webui/socket/utils.py`, for one document. A document is stored as a
list of updates with a counter of their size. Under the lock one request at a time talks to Redis,
in single commands, and may be cancelled between two of them. The second backend keeps the updates
in memory.
-/

namespace OpenWebUI.Ydoc

def COMPACTION_THRESHOLD : ℕ := 500

def MAX_DOCUMENT_SIZE : ℤ := 2 * 1024 * 1024

abbrev Update := List (Fin 256)

/-- Documents as `pycrdt` has them: applying an update joins it, and the update of a document gives
the document back. -/
structure Pycrdt (D : Type) [SemilatticeSup D] [OrderBot D] where
  decode : Update → Option D
  encode : D → Update
  decode_encode : ∀ d, decode (encode d) = some d

variable {D : Type} [SemilatticeSup D] [OrderBot D] (y : Pycrdt D)

/-- `doc.apply_update(update)` for an update that can be decoded. -/
def applyUpdate (doc : D) (update : Update) : D := doc ⊔ (y.decode update).getD ⊥

/-- An empty document to which the updates were applied. -/
def merged (updates : List Update) : D := updates.foldl (applyUpdate y) ⊥

/-- `sum(len(u) for u in updates)`. -/
def totalSize (updates : List Update) : ℤ := (updates.map fun u => (u.length : ℤ)).sum

/-- The requests. The bytes of an update are missing where `bytes(update)` raises. -/
inductive Request where
  | append (update : Option Update)
  | get
  | addUser (userId : String)
  | removeUser (userId : String)
  | clear

inductive Reply where
  | accepted (b : Bool)
  | updates (l : List Update)
  | done
deriving DecidableEq

def addTo (l : List String) (x : String) : List String := if x ∈ l then l else l ++ [x]

def removeFrom (l : List String) (x : String) : List String := l.filter (· ≠ x)

/-! ## Redis -/

/-- The keys of the document, and the sessions that have it in their set. A missing counter
counts as 0. -/
structure Store where
  updates : List Update
  size : Option ℤ
  users : List String
  sessions : List String

/-- The command that a request sends next. -/
inductive Op where
  | incrby (update : Update)
  | decrby (update : Update)
  | rpush (update : Update)
  | llen
  | lrange
  | replace (snapshot : Update) (rest : List Update)
  | setSize (n : ℤ)
  | getUpdates
  | saddUser (userId : String)
  | saddSession (userId : String)
  | sremUser (userId : String)
  | sremSession (userId : String)
  | deleteUpdates
  | deleteUsers
  | deleteSize

inductive Next where
  | command (op : Op)
  | reply (r : Reply)

/-- What a request does before its first command. -/
def start : Request → Next
  | .append none => .reply (.accepted false)
  | .append (some update) =>
    if (y.decode update).isNone then .reply (.accepted false)
    else if MAX_DOCUMENT_SIZE < update.length then .reply (.accepted false)
    else .command (.incrby update)
  | .get => .command .getUpdates
  | .addUser userId => .command (.saddUser userId)
  | .removeUser userId => .command (.sremUser userId)
  | .clear => .command .deleteUpdates

/-- One command, and what follows it. -/
def command (s : Store) : Op → Store × Next
  | .incrby update =>
    let size := s.size.getD 0 + update.length
    ({ s with size := some size },
      .command (if MAX_DOCUMENT_SIZE < size then .decrby update else .rpush update))
  | .decrby update => ({ s with size := some (s.size.getD 0 - update.length) },
      .reply (.accepted false))
  | .rpush update => ({ s with updates := s.updates ++ [update] }, .command .llen)
  | .llen => (s, if COMPACTION_THRESHOLD ≤ s.updates.length then .command .lrange
      else .reply (.accepted true))
  | .lrange =>
    -- `_compact_updates_redis`
    let mid := s.updates.length / 2
    (s, if s.updates.length ≤ 1 then .reply (.accepted true)
      else .command (.replace (y.encode (merged y (s.updates.take mid))) (s.updates.drop mid)))
  | .replace snapshot rest =>
    ({ s with updates := snapshot :: rest }, .command (.setSize (snapshot.length + totalSize rest)))
  | .setSize n => ({ s with size := some n }, .reply (.accepted true))
  | .getUpdates => (s, .reply (.updates s.updates))
  | .saddUser userId => ({ s with users := addTo s.users userId }, .command (.saddSession userId))
  | .saddSession userId => ({ s with sessions := addTo s.sessions userId }, .reply .done)
  | .sremUser userId => ({ s with users := removeFrom s.users userId },
      .command (.sremSession userId))
  | .sremSession userId => ({ s with sessions := removeFrom s.sessions userId }, .reply .done)
  | .deleteUpdates => ({ s with updates := [] }, .command .deleteUsers)
  | .deleteUsers => ({ s with users := [] }, .command .deleteSize)
  | .deleteSize => ({ s with size := none }, .reply .done)

/-- A request without cancellation sends at most six commands. -/
def finish : ℕ → Store → Next → Store × Option Reply
  | _, s, .reply r => (s, some r)
  | 0, s, .command _ => (s, none)
  | n + 1, s, .command op => finish n (command y s op).1 (command y s op).2

def redisReplies (s : Store) : List Request → List (Option Reply)
  | [] => []
  | r :: requests => (finish y 6 s (start y r)).2 ::
      redisReplies (finish y 6 s (start y r)).1 requests

/-! ## In memory -/

/-- `_updates` and `_users` under the id of the document. -/
structure Memory where
  updates : Option (List Update)
  users : Option (List String)

/-- `_compact_updates_memory`. -/
def compactUpdatesMemory (updates : List Update) : List Update :=
  if updates.length ≤ 1 then updates
  else y.encode (merged y (updates.take (updates.length / 2))) :: updates.drop (updates.length / 2)

def memoryRequest (m : Memory) : Request → Memory × Reply
  | .append none => (m, .accepted false)
  | .append (some update) =>
    if (y.decode update).isNone then (m, .accepted false)
    else if MAX_DOCUMENT_SIZE < update.length then (m, .accepted false)
    else if MAX_DOCUMENT_SIZE < totalSize (m.updates.getD []) + update.length then
      (m, .accepted false)
    else
      let updates := m.updates.getD [] ++ [update]
      ({ m with
          updates := some (if COMPACTION_THRESHOLD ≤ updates.length then
            compactUpdatesMemory y updates else updates) },
        .accepted true)
  | .get => (m, .updates (m.updates.getD []))
  | .addUser userId => ({ m with users := some (addTo (m.users.getD []) userId) }, .done)
  | .removeUser userId =>
    let users := removeFrom (m.users.getD []) userId
    ({ m with users := if users = [] then none else some users }, .done)
  | .clear => (⟨none, none⟩, .done)

def memoryReplies (m : Memory) : List Request → List Reply
  | [] => []
  | r :: requests => (memoryRequest y m r).2 :: memoryReplies (memoryRequest y m r).1 requests

/-! ## Runs with cancellation -/

/-- The keys, the request that holds the lock, and the updates stored since the list was last
deleted. -/
structure State where
  store : Store
  running : Option Op
  accepted : List Update

inductive Event where
  | request (r : Request)
  | command
  | cancel

def Next.running : Next → Option Op
  | .command op => some op
  | .reply _ => none

/-- An update is accepted when it is pushed, and forgotten when the list is deleted. -/
def Op.record (accepted : List Update) : Op → List Update
  | .rpush update => accepted ++ [update]
  | .deleteUpdates => []
  | _ => accepted

def Step (e : Event) (s s' : State) : Prop :=
  match e with
  | .request r => s.running = none ∧ s' = { s with running := (start y r).running }
  | .command => ∃ op, s.running = some op ∧
    s' = ⟨(command y s.store op).1, (command y s.store op).2.running, op.record s.accepted⟩
  | .cancel => s.running ≠ none ∧ s' = { s with running := none }

/-- The counter is not what it will be when the request has ended. -/
def Op.owes : Op → Bool
  | .decrby _ | .rpush _ | .setSize _ | .deleteUsers | .deleteSize => true
  | _ => false

/-- Nothing is cancelled while the counter is behind. -/
def CleanStep (e : Event) (s s' : State) : Prop :=
  Step y e s s' ∧ (e = .cancel → ∀ op ∈ s.running, op.owes = false)

def Fresh (s : State) : Prop := s = ⟨⟨[], none, [], []⟩, none, []⟩

/-! ## Documents and sizes -/

variable {y}

/-- Updates can be merged before they are applied. -/
theorem foldl_applyUpdate (updates : List Update) :
    ∀ doc : D, updates.foldl (applyUpdate y) doc = doc ⊔ merged y updates := by
  induction updates with
  | nil => exact fun doc => (sup_bot_eq doc).symm
  | cons u updates ih =>
      intro doc
      rw [merged, List.foldl_cons, List.foldl_cons, ih, ih (applyUpdate y ⊥ u), applyUpdate,
        applyUpdate, bot_sup_eq, sup_assoc]

/-- Merging does not depend on where the updates are cut. -/
theorem merged_append (a b : List Update) : merged y (a ++ b) = merged y a ⊔ merged y b := by
  rw [merged, List.foldl_append, foldl_applyUpdate, ← merged]

/-- A snapshot of the first updates stands for them. -/
theorem merged_snapshot (updates : List Update) (n : ℕ) :
    merged y (y.encode (merged y (updates.take n)) :: updates.drop n) = merged y updates := by
  have hsnapshot : merged y [y.encode (merged y (updates.take n))] = merged y (updates.take n) := by
    rw [merged, List.foldl_cons, List.foldl_nil, applyUpdate, y.decode_encode,
      Option.getD_some, bot_sup_eq]
  rw [← List.singleton_append, merged_append, hsnapshot, ← merged_append, List.take_append_drop]

/-- Sizes add up. -/
theorem totalSize_append (a b : List Update) : totalSize (a ++ b) = totalSize a + totalSize b := by
  rw [totalSize, List.map_append, List.sum_append, totalSize, totalSize]

theorem totalSize_cons (u : Update) (l : List Update) :
    totalSize (u :: l) = u.length + totalSize l := by
  rw [totalSize, List.map_cons, List.sum_cons, totalSize]

/-! ## The counter -/

/-- What the counter shows when a command is due. -/
def Op.CounterShows (s : Store) : Op → Prop
  | .decrby update | .rpush update => s.size.getD 0 = totalSize s.updates + update.length
  | .setSize n => n = totalSize s.updates
  | .deleteUsers | .deleteSize => s.updates = []
  | _ => s.size.getD 0 = totalSize s.updates

def Next.CounterShows (s : Store) : Next → Prop
  | .command op => op.CounterShows s
  | .reply _ => s.size.getD 0 = totalSize s.updates

/-- A command leaves what the next one relies on. -/
theorem command_counter {s : Store} {op : Op} (h : op.CounterShows s) :
    (command y s op).2.CounterShows (command y s op).1 := by
  cases op with
  -- the size is taken up before the update is stored, and back if it is refused
  | incrby update =>
      have hsize : s.size.getD 0 = totalSize s.updates := h
      rw [command]
      dsimp only [Next.CounterShows]
      split_ifs
      · show s.size.getD 0 + update.length = totalSize s.updates + update.length
        rw [hsize]
      · show s.size.getD 0 + update.length = totalSize s.updates + update.length
        rw [hsize]
  | decrby update =>
      have hsize : s.size.getD 0 = totalSize s.updates + update.length := h
      show s.size.getD 0 - update.length = totalSize s.updates
      omega
  | rpush update =>
      have hsize : s.size.getD 0 = totalSize s.updates + update.length := h
      show s.size.getD 0 = totalSize (s.updates ++ [update])
      rw [totalSize_append, totalSize_cons, hsize]
      rfl
  | llen =>
      rw [command]
      split_ifs
      · exact h
      · exact h
  | lrange =>
      rw [command]
      dsimp only
      split_ifs
      · exact h
      · exact h
  -- the snapshot replaces what it was read from, and the rest stays
  | replace snapshot rest =>
      show (snapshot.length : ℤ) + totalSize rest = totalSize (snapshot :: rest)
      rw [totalSize_cons]
  | setSize n => exact h
  | getUpdates => exact h
  | saddUser userId => exact h
  | saddSession userId => exact h
  | sremUser userId => exact h
  | sremSession userId => exact h
  | deleteUpdates => rfl
  | deleteUsers => exact h
  | deleteSize =>
      have hempty : s.updates = [] := h
      show (0 : ℤ) = totalSize s.updates
      rw [hempty]
      rfl

/-- A request that begins finds the counter in step. -/
theorem start_counter {s : Store} (h : s.size.getD 0 = totalSize s.updates) (r : Request) :
    (start y r).CounterShows s := by
  rcases r with (_ | update) | _ | _ | _ | _
  · exact h
  · rw [start]
    split_ifs
    · exact h
    · exact h
    · exact h
  all_goals exact h

/-- The counter of a state: what the running request relies on, or the sum of the sizes. -/
def State.CounterShows (s : State) : Prop :=
  match s.running with
  | some op => op.CounterShows s.store
  | none => s.store.size.getD 0 = totalSize s.store.updates

/-- The counter is judged by what runs next. -/
theorem counterShows_of_next {store : Store} {next : Next} {accepted : List Update}
    (h : next.CounterShows store) :
    State.CounterShows ⟨store, next.running, accepted⟩ := by
  cases next <;> exact h

/-- No command and no clean cancellation puts the counter out of step. -/
theorem cleanStep_counter {e : Event} {s s' : State} (h : s.CounterShows)
    (hstep : CleanStep y e s s') : s'.CounterShows := by
  obtain ⟨hstep, hcancel⟩ := hstep
  cases e with
  | request r =>
      obtain ⟨hidle, rfl⟩ := hstep
      rw [State.CounterShows, hidle] at h
      exact counterShows_of_next (start_counter h r)
  | command =>
      obtain ⟨op, hop, rfl⟩ := hstep
      rw [State.CounterShows, hop] at h
      exact counterShows_of_next (command_counter h)
  | cancel =>
      obtain ⟨hrunning, rfl⟩ := hstep
      obtain ⟨op, hop⟩ := Option.ne_none_iff_exists'.mp hrunning
      have hsettled := hcancel rfl op hop
      rw [State.CounterShows, hop] at h
      -- a command that owes nothing is due when the counter is right
      show s.store.size.getD 0 = totalSize s.store.updates
      cases op <;> first | exact h | cases hsettled

/-! ## The document -/

/-- A compaction has read what it replaces. -/
def Op.Reads (y : Pycrdt D) (s : Store) : Op → Prop
  | .replace snapshot rest => merged y (snapshot :: rest) = merged y s.updates
  | _ => True

/-- The stored updates are those accepted, and a running compaction has read them. -/
structure Documents (y : Pycrdt D) (s : State) : Prop where
  merged : merged y s.store.updates = merged y s.accepted
  reads : ∀ op ∈ s.running, op.Reads y s.store

/-- A command leaves the document that the accepted updates merge to, and a compaction writes what
it has read. -/
theorem command_documents {s : Store} {op : Op} {accepted : List Update}
    (hmerged : merged y s.updates = merged y accepted) (hreads : op.Reads y s) :
    merged y (command y s op).1.updates = merged y (op.record accepted) ∧
      ∀ next ∈ (command y s op).2.running, next.Reads y (command y s op).1 := by
  cases op with
  | incrby update =>
      refine ⟨hmerged, fun next hnext => ?_⟩
      rw [command] at hnext
      dsimp only [Next.running] at hnext
      split_ifs at hnext <;> (cases hnext; trivial)
  -- the update is stored and counts as accepted from now on
  | rpush update =>
      refine ⟨?_, fun next hnext => by cases hnext; trivial⟩
      show merged y (s.updates ++ [update]) = merged y (accepted ++ [update])
      rw [merged_append, merged_append, hmerged]
  | llen =>
      refine ⟨hmerged, fun next hnext => ?_⟩
      rw [command] at hnext
      split_ifs at hnext
      · cases hnext
        trivial
      · cases hnext
  -- the list is compacted from what it holds now
  | lrange =>
      refine ⟨hmerged, fun next hnext => ?_⟩
      rw [command] at hnext
      dsimp only at hnext
      split_ifs at hnext <;> cases hnext
      exact merged_snapshot s.updates _
  -- the snapshot merges to what was read, so nothing accepted is lost
  | replace snapshot rest => exact ⟨hreads.trans hmerged, fun next hnext => by cases hnext; trivial⟩
  | deleteUpdates => exact ⟨rfl, fun next hnext => by cases hnext; trivial⟩
  | decrby update => exact ⟨hmerged, fun next hnext => by cases hnext⟩
  | setSize n => exact ⟨hmerged, fun next hnext => by cases hnext⟩
  | getUpdates => exact ⟨hmerged, fun next hnext => by cases hnext⟩
  | saddUser userId => exact ⟨hmerged, fun next hnext => by cases hnext; trivial⟩
  | saddSession userId => exact ⟨hmerged, fun next hnext => by cases hnext⟩
  | sremUser userId => exact ⟨hmerged, fun next hnext => by cases hnext; trivial⟩
  | sremSession userId => exact ⟨hmerged, fun next hnext => by cases hnext⟩
  | deleteUsers => exact ⟨hmerged, fun next hnext => by cases hnext; trivial⟩
  | deleteSize => exact ⟨hmerged, fun next hnext => by cases hnext⟩

/-- What begins to run has read nothing yet. -/
theorem start_reads (s : Store) (r : Request) : ∀ op ∈ (start y r).running, op.Reads y s := by
  intro op hop
  rcases r with (_ | update) | _ | _ | _ | _
  · cases hop
  · rw [start] at hop
    split_ifs at hop <;> cases hop
    trivial
  all_goals
    cases hop
    trivial

/-- One step keeps the document, also where it is cancelled. -/
theorem step_documents {e : Event} {s s' : State} (h : Documents y s) (hstep : Step y e s s') :
    Documents y s' := by
  cases e with
  | request r =>
      obtain ⟨_, rfl⟩ := hstep
      exact ⟨h.merged, start_reads s.store r⟩
  | command =>
      obtain ⟨op, hop, rfl⟩ := hstep
      obtain ⟨hmerged, hreads⟩ := command_documents h.merged (h.reads op hop)
      exact ⟨hmerged, hreads⟩
  | cancel =>
      obtain ⟨_, rfl⟩ := hstep
      exact ⟨h.merged, fun op hop => by cases hop⟩

/-! ## The two backends -/

/-- Redis and memory hold the same document. -/
structure Agrees (s : Store) (m : Memory) : Prop where
  updates : s.updates = m.updates.getD []
  size : s.size.getD 0 = totalSize s.updates
  users : s.users = m.users.getD []

variable {s : Store} {m : Memory}

theorem finish_command (n : ℕ) (s : Store) (op : Op) :
    finish y (n + 1) s (.command op) = finish y n (command y s op).1 (command y s op).2 := rfl

theorem finish_reply (n : ℕ) (s : Store) (r : Reply) : finish y n s (.reply r) = (s, some r) := by
  cases n <;> rfl

/-- An update that is pushed, with the compaction that may follow. -/
theorem finish_rpush (s : Store) (update : Update)
    (hsize : s.size.getD 0 = totalSize s.updates + update.length) :
    ∃ s', finish y 5 s (.command (.rpush update)) = (s', some (.accepted true)) ∧
      s'.users = s.users ∧
      s'.size.getD 0 = totalSize s'.updates ∧ s'.updates =
        if COMPACTION_THRESHOLD ≤ (s.updates ++ [update]).length then
          compactUpdatesMemory y (s.updates ++ [update])
        else s.updates ++ [update] := by
  have hpushed : s.size.getD 0 = totalSize (s.updates ++ [update]) := by
    rw [totalSize_append, totalSize_cons, hsize]
    rfl
  rw [finish_command, command, finish_command, command]
  dsimp only
  -- whether the list is compacted after the update is stored
  by_cases hmany : COMPACTION_THRESHOLD ≤ (s.updates ++ [update]).length
  · have hcompact : ¬ (s.updates ++ [update]).length ≤ 1 := by
      rw [COMPACTION_THRESHOLD] at hmany
      omega
    rw [if_pos hmany, if_pos hmany, finish_command, command]
    dsimp only
    rw [if_neg hcompact, finish_command, command, finish_command, command, finish_reply]
    refine ⟨_, rfl, rfl, ?_, ?_⟩
    · dsimp only [Option.getD_some]
      rw [totalSize_cons]
    · rw [compactUpdatesMemory, if_neg hcompact]
  · rw [if_neg hmany, if_neg hmany, finish_reply]
    exact ⟨_, rfl, rfl, hpushed, rfl⟩

/-- One request, finished on both sides. -/
theorem finish_agrees (h : Agrees s m) (r : Request) :
    ∃ s', finish y 6 s (start y r) = (s', some (memoryRequest y m r).2) ∧
    Agrees s' (memoryRequest y m r).1 := by
  rcases r with (_ | update) | _ | userId | userId | _
  · exact ⟨s, rfl, h⟩
  · rw [start, memoryRequest]
    split_ifs with hdecode hlong hfull
    · exact ⟨s, rfl, h⟩
    · exact ⟨s, rfl, h⟩
    · -- the counter is taken back
      have hover : MAX_DOCUMENT_SIZE < s.size.getD 0 + update.length := by rwa [h.size, h.updates]
      rw [finish_command, command]
      dsimp only
      rw [if_pos hover, finish_command, command, finish_reply]
      refine ⟨_, rfl, h.updates, ?_, h.users⟩
      show s.size.getD 0 + update.length - update.length = totalSize s.updates
      rw [h.size]
      omega
    -- the update fits: it is stored, and compacted where the list is long
    all_goals
      have hfits : ¬ MAX_DOCUMENT_SIZE < s.size.getD 0 + update.length := by rwa [h.size, h.updates]
      rw [finish_command, command]
      dsimp only
      rw [if_neg hfits]
      have hsize :
        Option.getD (some (s.size.getD 0 + (update.length : ℤ))) 0 = totalSize s.updates +
        update.length := by
        rw [Option.getD_some, h.size]
      obtain ⟨s', hs', husers, hsize, hupdates⟩ :=
        finish_rpush (y := y) { s with size := some (s.size.getD 0 + update.length) } update hsize
      refine ⟨s', hs', ?_, hsize, husers.trans h.users⟩
      rw [hupdates, ← h.updates]
      simp_all
  · exact ⟨s, by rw [memoryRequest, ← h.updates]; rfl, h⟩
  · refine ⟨_, rfl, h.updates, h.size, ?_⟩
    show addTo s.users userId = addTo (m.users.getD []) userId
    rw [h.users]
  · refine ⟨_, rfl, h.updates, h.size, ?_⟩
    show removeFrom s.users userId = (if removeFrom (m.users.getD []) userId = [] then none else
      some (removeFrom (m.users.getD []) userId)).getD []
    rw [h.users]
    split_ifs with hempty
    · exact hempty
    · rfl
  -- all keys of the document go, as the dict does
  · exact ⟨_, rfl, rfl, rfl, rfl⟩

/-- Request by request both backends answer the same. -/
theorem replies_agree (h : Agrees s m) (requests : List Request) :
    redisReplies y s requests = (memoryReplies y m requests).map some := by
  induction requests generalizing s m with
  | nil => rfl
  | cons r requests ih =>
      obtain ⟨s', hs', hagrees⟩ := finish_agrees (y := y) h r
      rw [redisReplies, memoryReplies, hs', List.map_cons, ih hagrees]

/-! ## Runs -/

/-- An empty document is that of no updates. -/
theorem fresh_documents : ∀ s, Fresh s → Documents y s := by
  rintro s rfl
  exact ⟨rfl, fun op hop => by cases hop⟩

/-- An empty document has no counter. -/
theorem fresh_counter : ∀ s, Fresh s → s.CounterShows := by
  rintro s rfl
  rfl

/-- The stored updates always merge to the accepted ones. Where no request is cancelled while the
counter is behind, the counter is right whenever no request is in progress. Without cancellation
both backends give the same replies. -/
theorem ydoc_runs (y : Pycrdt D) :
    (∀ s, Transition.Reachable Fresh (Step y) s → merged y s.store.updates = merged y s.accepted) ∧
      (∀ s, Transition.Reachable Fresh (CleanStep y) s → s.running = none →
        s.store.size.getD 0 = totalSize s.store.updates ∧
          merged y s.store.updates = merged y s.accepted) ∧
      ∀ requests, redisReplies y ⟨[], none, [], []⟩ requests =
        (memoryReplies y ⟨none, none⟩ requests).map some := by
  have hdocuments : ∀ s, Transition.Reachable Fresh (Step y) s →
    merged y s.store.updates = merged y s.accepted :=
    fun s hs => (hs.invariant fresh_documents fun _ _ _ => step_documents).merged
  refine ⟨hdocuments, fun s hs hidle => ⟨?_, hdocuments s (hs.mono fun _ _ _ h => h.1)⟩,
    replies_agree ⟨rfl, rfl, rfl⟩⟩
  have hcounter := hs.invariant fresh_counter fun _ _ _ => cleanStep_counter
  rwa [State.CounterShows, hidle] at hcounter

/-- Documents that are sets of bytes: an update has a header of two bytes, and `[0, 0]` is the
update of the empty document. -/
def byteSets : Pycrdt (Finset (Fin 256)) where
  decode update := if 2 ≤ update.length then some (update.drop 2).toFinset else none
  encode d := 0 :: 0 :: d.sort (· ≤ ·)
  decode_encode d := by
    rw [if_pos (by simp), List.drop_succ_cons, List.drop_succ_cons, List.drop_zero,
      Finset.sort_toFinset]

/-- One client's first change: the letter `a` in the text `t`. -/
def typedLetter : Update := [1, 1, 1, 0, 4, 1, 1, 116, 1, 97, 0]

/-- A letter is stored; a second append is cancelled when its update was pushed. -/
theorem ydoc_runs_cancelled : ∃ s : State, s.running = none ∧
    s.store.updates = [typedLetter, [0, 0]] ∧ s.store.size.getD 0 = totalSize s.store.updates ∧
    merged byteSets s.store.updates = merged byteSets s.accepted := by
  have hnot : ∀ {P : Prop} {e : Event}, e ≠ .cancel → e = .cancel → P := fun hne he => absurd he hne
  have hcounted : Transition.Reachable Fresh (CleanStep byteSets)
      ⟨⟨[], some 11, [], []⟩, some (.rpush typedLetter), []⟩ :=
    .next (a := .command) (.next (a := .request (.append (some typedLetter))) (.start rfl)
      ⟨⟨rfl, rfl⟩, hnot (by simp)⟩) ⟨⟨_, rfl, rfl⟩, hnot (by simp)⟩
  have hstored : Transition.Reachable Fresh (CleanStep byteSets)
      ⟨⟨[typedLetter], some 11, [], []⟩, none, [typedLetter]⟩ :=
    .next (a := .command) (.next (a := .command) hcounted ⟨⟨_, rfl, rfl⟩, hnot (by simp)⟩)
      ⟨⟨_, rfl, rfl⟩, hnot (by simp)⟩
  have hpushed : Transition.Reachable Fresh (CleanStep byteSets)
      ⟨⟨[typedLetter, [0, 0]], some 13, [], []⟩, some .llen, [typedLetter, [0, 0]]⟩ :=
    .next (a := .command) (.next (a := .command)
      (.next (a := .request (.append (some [0, 0]))) hstored
      ⟨⟨rfl, rfl⟩, hnot (by simp)⟩) ⟨⟨_, rfl, rfl⟩, hnot (by simp)⟩) ⟨⟨_, rfl, rfl⟩, hnot (by simp)⟩
  have hcancelled : Transition.Reachable Fresh (CleanStep byteSets)
      ⟨⟨[typedLetter, [0, 0]], some 13, [], []⟩, none, [typedLetter, [0, 0]]⟩ := by
    refine .next (a := .cancel) hpushed ⟨⟨by simp, rfl⟩, fun _ op hop => ?_⟩
    obtain rfl := Option.some.inj hop
    rfl
  obtain ⟨hsize, hmerged⟩ := (ydoc_runs byteSets).2.1 _ hcancelled rfl
  exact ⟨_, rfl, rfl, hsize, hmerged⟩

/-- Cancelled after `INCRBY`, an append leaves its size without its update. -/
theorem ydoc_counter_ahead :
    ¬ ∀ s, Transition.Reachable Fresh (Step byteSets) s → s.running = none →
    s.store.size.getD 0 = totalSize s.store.updates := by
  intro hall
  have hbegun : Transition.Reachable Fresh (Step byteSets)
      ⟨⟨[], none, [], []⟩, some (.incrby [0, 0]), []⟩ :=
    .next (a := .request (.append (some [0, 0]))) (.start rfl) ⟨rfl, rfl⟩
  have hcounted : Transition.Reachable Fresh (Step byteSets)
      ⟨⟨[], some 2, [], []⟩, some (.rpush [0, 0]), []⟩ :=
    .next (a := .command) hbegun ⟨_, rfl, rfl⟩
  have hcancelled : Transition.Reachable Fresh (Step byteSets) ⟨⟨[], some 2, [], []⟩, none, []⟩ :=
    .next (a := .cancel) hcounted ⟨by simp, rfl⟩
  exact absurd (hall _ hcancelled rfl) (by decide)

end OpenWebUI.Ydoc
