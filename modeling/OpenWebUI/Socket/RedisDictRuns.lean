import OpenWebUI.Lib.Transition
import OpenWebUI.Socket.RedisDict

/-! # Runs of the shared dictionary

Nothing locks the hash: `set` lists the keys, writes and publishes in separate commands.
In runs where no other worker writes the hash between these, a published signature
describes the hash whenever no operation is in progress, and a reader that knows it has
the hash.
-/

namespace OpenWebUI.Socket

open Py

variable {D W : Type}

/-! ## What an operation knows and still has to do -/

/-- The command changes the hash. -/
def Op.writes : Op D → Bool
  | .write _ _ | .remove _ _ | .setItem _ _ | .delItem _ | .deleteMany _ | .clear => true
  | _ => false

/-- A `set` that has listed the keys and has not published. -/
def Op.rewriting : Op D → Bool
  | .write _ _ | .remove _ _ | .publish _ => true
  | _ => false

/-- The operation will still write the signature. -/
def Op.signs : Op D → Bool
  | .drop _ | .list _ | .write _ _ | .remove _ _ | .publish _ | .invalidate => true
  | _ => false

/-- What a `set` that is rewriting knows of the hash. -/
def Op.Knows (hash : Mapping) : Op D → Prop
  | .write m keysToRemove => ∀ k, k ∈ keysToRemove ↔ k ∈ hash ∧ k ∉ m
  | .remove m keysToRemove => ∀ k,
    (k ∈ keysToRemove → k ∉ m) ∧ (k ∉ keysToRemove → hash.get? k = m.get? k)
  | .publish m => ∀ k, hash.get? k = m.get? k
  | _ => True

/-- Outside a rewrite nothing is known of the hash, so nothing can be broken. -/
theorem Op.knows_of_not_rewriting {hash : Mapping} {op : Op D} (h : op.rewriting = false) :
    op.Knows hash := by
  cases op with
  | write m keysToRemove => cases h
  | remove m keysToRemove => cases h
  | publish m => cases h
  | _ => trivial

variable [DecidableEq D]

/-- The next command knows what it needs. -/
theorem Op.knows_command {digest : List (String × String) → D} {uuid : ℕ} {r : Redis D}
    {cache : Cache D} {op op' : Op D} (h : op.Knows r.hash)
    (hop' : (op.command digest uuid r cache).2.2 = some op') :
    op'.Knows (op.command digest uuid r cache).1.hash := by
  cases op with
  | list m =>
      obtain rfl := Option.some.inj hop'
      intro k
      rw [List.mem_filter, decide_eq_true_eq]
      rfl
  -- the fields written are the task's own: what is in the hash and not in `m` is to be removed
  | write m keysToRemove =>
      obtain rfl := Option.some.inj hop'
      have hupdate : ∀ k, k ∉ keysToRemove → (r.hash.update m).get? k = m.get? k := by
        intro k hk
        rw [Dict.get?_update]
        by_cases hm : k ∈ m
        · obtain ⟨v, hv⟩ := (Dict.mem_iff_exists _ _).mp hm
          rw [hv, Option.some_or]
        · have hhash : k ∉ r.hash := fun hhash => hk ((h k).mpr ⟨hhash, hm⟩)
          rw [(Dict.get?_eq_none_iff _ _).mpr hhash, Option.or_none]
      split_ifs with hnil
      · intro k
        exact hupdate k (by simp [hnil])
      · exact fun k => ⟨fun hk => ((h k).mp hk).2, hupdate k⟩
  -- the other fields have been removed, so the hash is `m`
  | remove m keysToRemove =>
      obtain rfl := Option.some.inj hop'
      intro k
      change (keysToRemove.foldl Dict.erase r.hash).get? k = m.get? k
      rw [Dict.get?_foldl_erase]
      split_ifs with hk
      · exact ((Dict.get?_eq_none_iff _ _).mpr ((h k).1 hk)).symm
      · exact (h k).2 hk
  -- a comparison only leads to a refresh, which remembers nothing of the hash
  | compare m =>
      simp only [Op.command] at hop'
      split_ifs at hop'
      obtain rfl := Option.some.inj hop'
      trivial
  | delItem key =>
      simp only [Op.command] at hop'
      split_ifs at hop'
      obtain rfl := Option.some.inj hop'
      trivial
  | refresh =>
      simp only [Op.command] at hop'
      split_ifs at hop'
      obtain rfl := Option.some.inj hop'
      trivial
  | publish m => cases hop'
  | invalidate => cases hop'
  | fetch stored => cases hop'
  | drop m =>
      obtain rfl := Option.some.inj hop'
      trivial
  | setItem key value =>
      obtain rfl := Option.some.inj hop'
      trivial
  | deleteMany keys =>
      obtain rfl := Option.some.inj hop'
      trivial
  | clear =>
      obtain rfl := Option.some.inj hop'
      trivial

/-- Only `HSET`, `HDEL` and `DEL` change the hash. -/
theorem Op.command_hash {digest : List (String × String) → D} {uuid : ℕ} {r : Redis D}
    {cache : Cache D} {op : Op D} (h : op.writes = false) :
    (op.command digest uuid r cache).1.hash = r.hash := by
  cases op with
  | compare m =>
      simp only [Op.command]
      split_ifs <;> rfl
  | refresh =>
      simp only [Op.command]
      split_ifs <;> rfl
  | write m keysToRemove => cases h
  | remove m keysToRemove => cases h
  | setItem key value => cases h
  | delItem key => cases h
  | deleteMany keys => cases h
  | clear => cases h
  | _ => rfl

/-- What a command does to the signature, the hash and the cache: it leaves all alone, it
fills the cache, it changes the hash and will still sign, or it signs. -/
theorem Op.command_cases (digest : List (String × String) → D) (uuid : ℕ) (r : Redis D)
    (cache : Cache D) (op : Op D) {r' : Redis D} {cache' : Cache D} {rest : Option (Op D)}
    (h : op.command digest uuid r cache = (r', cache', rest)) :
    (r' = r ∧ cache' = cache ∧ (op.signs = true → ∃ op', rest = some op' ∧ op'.signs = true)) ∨
    (∃ stored, op = .fetch stored ∧ r' = r ∧ cache' = ⟨r.hash, stored⟩) ∨
    (r'.signature = r.signature ∧ cache' = cache ∧ ∃ op', rest = some op' ∧ op'.signs = true) ∨
    (cache' = cache ∧ r'.hash = r.hash ∧ (r'.signature = none ∨
      ∃ m, op = .publish m ∧ r'.signature = some (contentDigest digest m, uuid))) := by
  cases op with
  -- what only reads leaves the store and the cache as they are
  | compare m =>
      left
      simp only [Op.command] at h
      split_ifs at h <;> cases h <;> exact ⟨rfl, rfl, fun hs => by cases hs⟩
  | list m =>
      cases h
      exact Or.inl ⟨rfl, rfl, fun _ => ⟨_, rfl, rfl⟩⟩
  | refresh =>
      left
      simp only [Op.command] at h
      split_ifs at h <;> cases h <;> exact ⟨rfl, rfl, fun hs => by cases hs⟩
  -- the one command that fills the cache
  | fetch stored =>
      cases h
      exact Or.inr (Or.inl ⟨stored, rfl, rfl, rfl⟩)
  -- the fields change before the signature does, and an op that signs follows
  | write m keysToRemove =>
      cases h
      refine Or.inr (Or.inr (Or.inl ⟨rfl, rfl, _, rfl, ?_⟩))
      split_ifs <;> rfl
  | remove m keysToRemove =>
      cases h
      exact Or.inr (Or.inr (Or.inl ⟨rfl, rfl, _, rfl, rfl⟩))
  | setItem key value =>
      cases h
      exact Or.inr (Or.inr (Or.inl ⟨rfl, rfl, _, rfl, rfl⟩))
  | delItem key =>
      simp only [Op.command] at h
      split_ifs at h <;> cases h
      · exact Or.inr (Or.inr (Or.inl ⟨rfl, rfl, _, rfl, rfl⟩))
      · exact Or.inl ⟨rfl, rfl, fun hs => by cases hs⟩
  | deleteMany keys =>
      cases h
      exact Or.inr (Or.inr (Or.inl ⟨rfl, rfl, _, rfl, rfl⟩))
  | clear =>
      cases h
      exact Or.inr (Or.inr (Or.inl ⟨rfl, rfl, _, rfl, rfl⟩))
  -- what signs takes the signature away or writes a new one, and leaves the hash
  | drop m =>
      cases h
      exact Or.inr (Or.inr (Or.inr ⟨rfl, rfl, Or.inl rfl⟩))
  | invalidate =>
      cases h
      exact Or.inr (Or.inr (Or.inr ⟨rfl, rfl, Or.inl rfl⟩))
  | publish m =>
      cases h
      exact Or.inr (Or.inr (Or.inr ⟨rfl, rfl, Or.inr ⟨m, rfl, rfl⟩⟩))

/-- A reader fetches under the signature it has just read. -/
theorem Op.command_fetch {digest : List (String × String) → D} {uuid : ℕ} {r : Redis D}
    {cache : Cache D} {op : Op D} {stored : Option (Signature D)}
    (h : (op.command digest uuid r cache).2.2 = some (.fetch stored)) : r.signature = stored := by
  cases op with
  | compare m =>
      simp only [Op.command] at h
      split_ifs at h
      cases h
  | delItem key =>
      simp only [Op.command] at h
      split_ifs at h
      cases h
  | refresh =>
      simp only [Op.command] at h
      split_ifs at h
      cases h
      rfl
  | write m keysToRemove =>
      simp only [Op.command] at h
      split_ifs at h <;> cases h
  | _ => cases h

/-! ## The invariant -/

/-- Some operation will still write the signature. -/
def World.Signing (w : World W D) : Prop :=
  ∃ worker op, w.ops worker = some op ∧ op.signs = true

/-- A signature describes the hash, and a cache with that signature is the hash, unless an
operation will still write the signature. -/
structure Inv (digest : List (String × String) → D) (w : World W D) : Prop where
  knows : ∀ worker op, w.ops worker = some op → op.Knows w.redis.hash
  signed : ∀ d u, w.redis.signature = some (d, u) →
    contentDigest digest w.redis.hash = d ∨ w.Signing
  cached : ∀ worker sig, (w.caches worker).signature = some sig → w.redis.signature = some sig →
    (w.caches worker).entries = w.redis.hash ∨ w.Signing
  stored : ∀ sig, w.redis.signature = some sig → sig.2 ∈ w.drawn
  known : ∀ worker sig, (w.caches worker).signature = some sig → sig.2 ∈ w.drawn
  read : ∀ worker sig, w.ops worker = some (.fetch (some sig)) → sig.2 ∈ w.drawn

/-- No other worker is between listing the keys and publishing when the hash is written. -/
def Undisturbed (w : World W D) : Step W D → Prop
  | .start _ _ => True
  | .run worker _ => ∀ op, w.ops worker = some op → op.writes = true →
    ∀ other op', other ≠ worker → w.ops other = some op' → op'.rewriting = false

omit [DecidableEq D] in
/-- Where nothing runs and nothing is signed there is nothing to keep. -/
theorem Fresh.inv {digest : List (String × String) → D} {w : World W D} (h : Fresh w) :
    Inv digest w := by
  obtain ⟨hops, hsig, hcache⟩ := h
  constructor
  · intro worker op hop
    rw [hops] at hop
    cases hop
  · intro d u hs
    rw [hsig] at hs
    cases hs
  · intro worker sig hs
    rw [hcache] at hs
    cases hs
  · intro sig hs
    rw [hsig] at hs
    cases hs
  · intro worker sig hs
    rw [hcache] at hs
    cases hs
  · intro worker sig hs
    rw [hops] at hs
    cases hs

section Steps

variable [DecidableEq W] {digest : List (String × String) → D} {w : World W D} {worker : W}
  {op : Op D}

omit [DecidableEq D] in
theorem update_eq_some {ops : W → Option (Op D)} {rest : Option (Op D)} {other : W} {op : Op D}
    (h : Function.update ops worker rest other = some op) :
    other = worker ∧ rest = some op ∨ other ≠ worker ∧ ops other = some op := by
  by_cases hother : other = worker
  · subst hother
    rw [Function.update_self] at h
    exact Or.inl ⟨rfl, h⟩
  · rw [Function.update_of_ne hother] at h
    exact Or.inr ⟨hother, h⟩

omit [DecidableEq D] in
/-- A new operation has sent no command yet. -/
theorem inv_start (h : Inv digest w) (hidle : w.ops worker = none) (hstarts : op.starts = true) :
    Inv digest { w with ops := Function.update w.ops worker (some op) } := by
  have hsigning : w.Signing →
      World.Signing { w with ops := Function.update w.ops worker (some op) } := by
    rintro ⟨other, op', hop', hs⟩
    -- the worker that starts was idle, so whoever signed is another
    have hne : other ≠ worker := by
      rintro rfl
      rw [hidle] at hop'
      cases hop'
    have hkept : Function.update w.ops worker (some op) other = some op' := by
      rwa [Function.update_of_ne hne]
    exact ⟨other, op', hkept, hs⟩
  constructor
  -- a task that starts has read nothing yet
  · intro other op' hop'
    rcases update_eq_some hop' with ⟨_, hop'⟩ | ⟨_, hop'⟩
    · obtain rfl := Option.some.inj hop'
      refine Op.knows_of_not_rewriting ?_
      cases op <;> first | rfl | cases hstarts
    · exact h.knows other op' hop'
  · exact fun d u hs => (h.signed d u hs).imp_right hsigning
  · exact fun other sig hc hs => (h.cached other sig hc hs).imp_right hsigning
  · exact h.stored
  · exact h.known
  · intro other sig hop'
    rcases update_eq_some hop' with ⟨_, hop'⟩ | ⟨_, hop'⟩
    · obtain rfl := Option.some.inj hop'
      cases hstarts
    · exact h.read other sig hop'

/-- After a command of the worker every operation still knows what it needs. -/
theorem Inv.knows_run {uuid : ℕ} (h : Inv digest w) (hop : w.ops worker = some op)
    (hundisturbed : Undisturbed w (.run worker uuid)) (other : W) (op' : Op D)
    (hop' : Function.update w.ops worker
      (op.command digest uuid w.redis (w.caches worker)).2.2 other = some op') :
    op'.Knows (op.command digest uuid w.redis (w.caches worker)).1.hash := by
  rcases update_eq_some hop' with ⟨_, hop'⟩ | ⟨hother, hop'⟩
  · exact Op.knows_command (h.knows worker op hop) hop'
  -- another worker may rewrite only where this one knows nothing of the hash
  · cases hwrites : op.writes with
    | true => exact Op.knows_of_not_rewriting (hundisturbed op hop hwrites other op' hother hop')
    | false =>
        rw [Op.command_hash hwrites]
        exact h.knows other op' hop'

omit [DecidableEq D] in
/-- The worker itself still signs if it did and goes on signing. -/
theorem World.Signing.update (h : w.Signing) (hop : w.ops worker = some op) {rest : Option (Op D)}
    (hself : op.signs = true → ∃ op', rest = some op' ∧ op'.signs = true) (r : Redis D)
    (caches : W → Cache D) (drawn : List ℕ) :
    World.Signing ⟨r, Function.update w.ops worker rest, caches, drawn⟩ := by
  obtain ⟨other, op', hop', hs⟩ := h
  by_cases hother : other = worker
  · subst hother
    rw [hop, Option.some.injEq] at hop'
    obtain ⟨op'', hrest, hs'⟩ := hself (hop' ▸ hs)
    have hnext : Function.update w.ops other rest other = some op'' := by
      rw [hrest, Function.update_self]
    exact ⟨other, op'', hnext, hs'⟩
  · have hkept : Function.update w.ops worker rest other = some op' := by
      rwa [Function.update_of_ne hother]
    exact ⟨other, op', hkept, hs⟩

omit [DecidableEq D] in
/-- The worker filled its cache, with the hash as it is. -/
theorem Inv.filled {uuid : ℕ} (h : Inv digest w) {stored : Option (D × ℕ)}
    (hop : w.ops worker = some (.fetch stored)) {ops : W → Option (Op D)}
    (hknows : ∀ other op', ops other = some op' → op'.Knows w.redis.hash)
    (hread : ∀ other sig, ops other = some (.fetch (some sig)) → sig.2 ∈ uuid :: w.drawn)
    (hsigning : ∀ caches, w.Signing → World.Signing ⟨w.redis, ops, caches, uuid :: w.drawn⟩) :
    Inv digest ⟨w.redis, ops, Function.update w.caches worker ⟨w.redis.hash, stored⟩,
      uuid :: w.drawn⟩ := by
  have hdrawn : ∀ {n}, n ∈ w.drawn → n ∈ uuid :: w.drawn := List.mem_cons_of_mem uuid
  refine ⟨hknows, fun d u hd => (h.signed d u hd).imp_right (hsigning _), ?_,
    fun sig hd => hdrawn (h.stored sig hd), ?_, hread⟩
  · intro other sig hc hd
    by_cases hother : other = worker
    · subst hother
      left
      change (Function.update w.caches other _ other).entries = w.redis.hash
      rw [Function.update_self]
    · change (Function.update w.caches worker _ other).signature = some sig at hc
      rw [Function.update_of_ne hother] at hc
      refine Or.imp ?_ (hsigning _) (h.cached other sig hc hd)
      intro heq
      change (Function.update w.caches worker _ other).entries = w.redis.hash
      rwa [Function.update_of_ne hother]
  · intro other sig hc
    change (Function.update w.caches worker _ other).signature = some sig at hc
    by_cases hother : other = worker
    · subst hother
      rw [Function.update_self] at hc
      have hstored : stored = some sig := hc
      exact hdrawn (h.read other sig (hstored ▸ hop))
    · rw [Function.update_of_ne hother] at hc
      exact hdrawn (h.known other sig hc)

omit [DecidableEq D] [DecidableEq W] in
/-- The worker signed: the number drawn for the signature is on nobody's cache. -/
theorem Inv.published {uuid : ℕ} (h : Inv digest w) {m : Mapping}
    (hop : w.ops worker = some (.publish m)) (hfresh : uuid ∉ w.drawn) {r : Redis D}
    (hhash : r.hash = w.redis.hash) (hsome : r.signature = some (contentDigest digest m, uuid))
    {ops : W → Option (Op D)} (hknows : ∀ other op', ops other = some op' → op'.Knows r.hash)
    (hread : ∀ other sig, ops other = some (.fetch (some sig)) → sig.2 ∈ uuid :: w.drawn) :
    Inv digest ⟨r, ops, w.caches, uuid :: w.drawn⟩ := by
  refine ⟨hknows, ?_, ?_, ?_, fun other sig hc => List.mem_cons_of_mem _ (h.known other sig hc),
    hread⟩
  · intro d u hd
    left
    change r.signature = some (d, u) at hd
    rw [hsome, Option.some.injEq, Prod.mk.injEq] at hd
    change contentDigest digest r.hash = d
    rw [← hd.1, hhash]
    exact contentDigest_congr digest (h.knows worker _ hop)
  · intro other sig hc hd
    change r.signature = some sig at hd
    rw [hsome, Option.some.injEq] at hd
    exact absurd (h.known other sig hc) (hd ▸ hfresh)
  · intro sig hd
    change r.signature = some sig at hd
    rw [hsome, Option.some.injEq] at hd
    rw [← hd]
    exact List.mem_cons_self

/-- One command keeps the invariant, if no one is disturbed. -/
theorem inv_run {uuid : ℕ} (h : Inv digest w) (hop : w.ops worker = some op)
    (hfresh : uuid ∉ w.drawn) (hundisturbed : Undisturbed w (.run worker uuid))
    {r : Redis D} {cache : Cache D} {rest : Option (Op D)}
    (hcommand : op.command digest uuid w.redis (w.caches worker) = (r, cache, rest)) :
    Inv digest ⟨r, Function.update w.ops worker rest, Function.update w.caches worker cache,
      uuid :: w.drawn⟩ := by
  have hknows : ∀ other op', Function.update w.ops worker rest other = some op' →
      op'.Knows r.hash := by
    have hrun := h.knows_run hop hundisturbed
    rwa [hcommand] at hrun
  have hread : ∀ other sig, Function.update w.ops worker rest other = some (.fetch (some sig)) →
      sig.2 ∈ uuid :: w.drawn := by
    intro other sig hop'
    rcases update_eq_some hop' with ⟨_, hop'⟩ | ⟨_, hop'⟩
    · have hrest : (op.command digest uuid w.redis (w.caches worker)).2.2 =
          some (.fetch (some sig)) := by rw [hcommand, hop']
      exact List.mem_cons_of_mem _ (h.stored sig (Op.command_fetch hrest))
    · exact List.mem_cons_of_mem _ (h.read other sig hop')
  have hdrawn : ∀ {n}, n ∈ w.drawn → n ∈ uuid :: w.drawn := List.mem_cons_of_mem uuid
  rcases Op.command_cases digest uuid w.redis (w.caches worker) op hcommand with
    ⟨rfl, rfl, hself⟩ | ⟨stored, rfl, rfl, rfl⟩ | ⟨hsig, rfl, op', hrest, hs⟩ | ⟨rfl, hhash, hsig⟩
  -- the worker only read
  · rw [Function.update_eq_self]
    have hsigning := fun hsigns : w.Signing =>
      hsigns.update hop hself w.redis w.caches (uuid :: w.drawn)
    exact
      { knows := hknows
        signed := fun d u hd => (h.signed d u hd).imp_right hsigning
        cached := fun other sig hc hd => (h.cached other sig hc hd).imp_right hsigning
        stored := fun sig hd => hdrawn (h.stored sig hd)
        known := fun other sig hc => hdrawn (h.known other sig hc)
        read := hread }
  · refine h.filled hop hknows hread fun caches hsigns => ?_
    exact hsigns.update hop (fun hs => by cases hs) w.redis caches _
  -- the hash changed, and the worker goes on to sign
  · have hnext : Function.update w.ops worker rest worker = some op' := by
      rw [hrest, Function.update_self]
    have hnew : World.Signing (D := D) ⟨r, Function.update w.ops worker rest,
        Function.update w.caches worker (w.caches worker), uuid :: w.drawn⟩ :=
      ⟨worker, op', hnext, hs⟩
    rw [Function.update_eq_self] at hnew ⊢
    exact
      { knows := hknows
        signed := fun _ _ _ => Or.inr hnew
        cached := fun _ _ _ _ => Or.inr hnew
        stored := fun sig hd => hdrawn (h.stored sig (hsig ▸ hd))
        known := fun other sig hc => hdrawn (h.known other sig hc)
        read := hread }
  -- the signature changed, and the hash did not
  · rw [Function.update_eq_self]
    rcases hsig with hnone | ⟨m, rfl, hsome⟩
    · have hno : ∀ {sig}, r.signature ≠ some sig := by
        rw [hnone]
        exact fun hd => by cases hd
      exact
        { knows := hknows
          signed := fun _ _ hd => absurd hd hno
          cached := fun _ _ _ hd => absurd hd hno
          stored := fun _ hd => absurd hd hno
          known := fun other sig hc => hdrawn (h.known other sig hc)
          read := hread }
    · exact h.published hop hfresh hhash hsome hknows hread

/-- One command, by the worker that sends it: its own operation goes on, the others know as much as
before. -/
theorem inv_next {step : Step W D} {w' : World W D} (h : Inv digest w)
    (hnext : w.next digest step = some w') (hundisturbed : Undisturbed w step) : Inv digest w' := by
  cases step with
  | start worker op =>
      simp only [World.next] at hnext
      split_ifs at hnext with hstarts
      obtain rfl := Option.some.inj hnext
      exact inv_start h (Option.isNone_iff_eq_none.mp hstarts.1) hstarts.2
  | run worker uuid =>
      simp only [World.next] at hnext
      cases hop : w.ops worker with
      | none =>
          rw [hop] at hnext
          cases hnext
      | some op =>
          rw [hop] at hnext
          dsimp only at hnext
          split_ifs at hnext with hdrawn
          obtain rfl := Option.some.inj hnext
          exact inv_run h hop hdrawn hundisturbed rfl

end Steps

/-! ## Runs -/

/-- No operation but reads is in progress. -/
def World.Quiet (w : World W D) : Prop :=
  ∀ worker op, w.ops worker = some op → op = .refresh ∨ ∃ stored, op = .fetch stored

omit [DecidableEq D] in
/-- Without a writer no signature is on its way. -/
theorem World.Quiet.not_signing {w : World W D} (h : w.Quiet) : ¬ w.Signing := by
  rintro ⟨worker, op, hop, hs⟩
  rcases h worker op hop with rfl | ⟨_, rfl⟩ <;> cases hs

/-- The signature describes the hash: what is signed has the signature's digest, a `set`
that returns early leaves the hash at its argument, and a read that does not refetch
answers from the hash. -/
structure Coherent (digest : List (String × String) → D) (w : World W D) : Prop where
  described : ∀ d u, w.redis.signature = some (d, u) → contentDigest digest w.redis.hash = d
  skipped : ∀ m uuid cache, ((Op.compare m).command digest uuid w.redis cache).2.2 = none →
    ∀ k, ((Op.compare m).command digest uuid w.redis cache).1.hash.get? k = m.get? k
  served : ∀ worker uuid, (Op.refresh.command digest uuid w.redis (w.caches worker)).2.2 = none →
    (w.caches worker).entries = w.redis.hash

/-- With nobody writing, the signature that is stored is that of the hash. -/
theorem Inv.coherent {digest : List (String × String) → D} (hinj : Function.Injective digest)
    {w : World W D} (h : Inv digest w) (hquiet : w.Quiet) : Coherent digest w := by
  have hdescribed : ∀ d u, w.redis.signature = some (d, u) →
      contentDigest digest w.redis.hash = d := fun d u hs =>
    (h.signed d u hs).resolve_right hquiet.not_signing
  refine ⟨hdescribed, ?_, ?_⟩
  · intro m uuid cache hnone
    simp only [Op.command] at hnone ⊢
    split_ifs at hnone ⊢ with hsame
    · obtain ⟨⟨d, u⟩, hs, rfl⟩ := Option.map_eq_some_iff.mp hsame
      exact get?_of_contentDigest hinj (hdescribed _ u hs)
  · intro worker uuid hnone
    simp only [Op.command] at hnone
    split_ifs at hnone with hstale
    push Not at hstale
    obtain ⟨sig, hs⟩ := Option.ne_none_iff_exists'.mp hstale.1
    exact (h.cached worker sig (hstale.2 ▸ hs) hs).resolve_right hquiet.not_signing

/-- In every run where the hash is not written between another worker's listing of the keys
and its publishing, the signature describes the hash whenever no operation is in progress. -/
theorem redisDict_coherent [DecidableEq W] (digest : List (String × String) → D)
    (hinj : Function.Injective digest) (w : World W D)
    (h : Transition.Reachable Fresh (fun step w w' => w.next digest step = some w' ∧
      Undisturbed w step) w) (hquiet : w.Quiet) : Coherent digest w := by
  have hinv : Inv digest w := h.invariant (fun _ => Fresh.inv) fun _ _ _ hw hstep =>
    inv_next hw hstep.1 hstep.2
  exact hinv.coherent hinj hquiet

/-- Idle workers and an empty hash. -/
def idle : World W D := ⟨⟨∅, none⟩, fun _ => none, fun _ => ⟨∅, none⟩, []⟩

omit [DecidableEq D] in
theorem idle_fresh : Fresh (idle : World W D) := ⟨fun _ => rfl, rfl, fun _ => rfl⟩

def single (key value : String) : Mapping := (∅ : Mapping).set key value

/-- With two workers, the other one is not rewriting where this one writes. -/
def World.nextUndisturbed (digest : List (String × String) → D) (w : World Bool D) :
    Step Bool D → Option (World Bool D)
  | .start worker op => w.next digest (.start worker op)
  | .run worker uuid =>
    if (w.ops worker).all fun op => !op.writes || (w.ops !worker).all fun op' => !op'.rewriting then
      w.next digest (.run worker uuid)
    else none

theorem undisturbed_of_next {digest : List (String × String) → D} {w w' : World Bool D}
    {step : Step Bool D} (h : w.nextUndisturbed digest step = some w') :
    w.next digest step = some w' ∧ Undisturbed w step := by
  cases step with
  | start worker op => exact ⟨h, trivial⟩
  | run worker uuid =>
      rw [World.nextUndisturbed] at h
      split_ifs at h with hcalm
      refine ⟨h, fun op hop hwrites other op' hother hop' => ?_⟩
      obtain rfl : other = !worker := (Bool.eq_not).mpr hother
      rw [hop, Option.all_some, hwrites, Bool.not_true, Bool.false_or, hop',
        Option.all_some] at hcalm
      exact Bool.not_eq_true' _ ▸ hcalm

/-- While one worker sets a mapping the other reads; then the other adds a key and sets a
mapping of its own, and the first one reads. -/
def turns : List (Step Bool (List (String × String))) :=
  [.start false (.compare (single "a" "1")), .start true .refresh, .run false 0, .run true 1,
    .run false 2, .run false 3, .run true 4, .run false 5, .run false 6,
    .start true (.setItem "b" "2"), .run true 7, .run true 8,
    .start true (.compare (single "b" "3")), .start false .refresh, .run true 9, .run true 10,
    .run false 11, .run true 12, .run true 13, .run false 14, .run true 15, .run true 16]

theorem redisDict_coherent_turns :
    ∃ w : World Bool (List (String × String)),
      turns.foldlM (World.nextUndisturbed id) idle = some w ∧
      w.redis.signature.isSome ∧ w.redis.hash.keys = ["b"] ∧ Coherent id w := by
  -- the run is evaluated once, and what is needed of its last state is read off
  have hsome : (turns.foldlM (World.nextUndisturbed id) idle).map
      (fun w => (w.redis.signature.isSome, w.redis.hash.keys, (w.ops false).isNone,
        (w.ops true).isNone)) =
        some (true, ["b"], true, true) := by decide +kernel
  obtain ⟨w, hw, hdone⟩ := Option.map_eq_some_iff.mp hsome
  simp only [Prod.mk.injEq, Option.isNone_iff_eq_none] at hdone
  obtain ⟨hsigned, hkeys, hfalse, htrue⟩ := hdone
  have hrun := (Transition.Reachable.foldlM (.start idle_fresh) hw).mono
    fun _ _ _ => undisturbed_of_next
  refine ⟨w, hw, hsigned, hkeys, redisDict_coherent id Function.injective_id w hrun ?_⟩
  intro worker op hop
  cases worker with
  | false =>
      rw [hfalse] at hop
      cases hop
  | true =>
      rw [htrue] at hop
      cases hop

/-- Two workers set different mappings at once: both find no signature and no keys, both
write, and the second to publish signs its own mapping. -/
def overlappingSets : List (Step Bool (List (String × String))) :=
  [.start false (.compare (single "a" "1")), .start true (.compare (single "b" "2")),
    .run false 0, .run true 1, .run false 2, .run true 3, .run false 4, .run true 5,
    .run false 6, .run true 7, .run false 8, .run true 9]

/-- With no operation in progress, the signature is not that of the hash. -/
theorem redisDict_overlapping_sets :
    ∃ w : World Bool (List (String × String)),
      Transition.Reachable Fresh (fun step w w' => w.next id step = some w') w ∧ w.Quiet ∧
      ∃ d u, w.redis.signature = some (d, u) ∧ contentDigest id w.redis.hash ≠ d := by
  have hsome : (overlappingSets.foldlM (World.next id) idle).map
      (fun w => (w.ops false).isNone && (w.ops true).isNone &&
        w.redis.signature.any fun sig => contentDigest id w.redis.hash ≠ sig.1) = some true := by
    decide +kernel
  obtain ⟨w, hw, hdone⟩ := Option.map_eq_some_iff.mp hsome
  rw [Bool.and_eq_true, Bool.and_eq_true] at hdone
  obtain ⟨⟨hfalse, htrue⟩, hsig⟩ := hdone
  refine ⟨w, Transition.Reachable.foldlM (.start idle_fresh) hw, ?_, ?_⟩
  · intro worker op hop
    cases worker with
    | false =>
        rw [Option.isNone_iff_eq_none.mp hfalse] at hop
        cases hop
    | true =>
        rw [Option.isNone_iff_eq_none.mp htrue] at hop
        cases hop
  · cases hs : w.redis.signature with
    | none =>
        rw [hs] at hsig
        cases hsig
    | some sig =>
        rw [hs] at hsig
        exact ⟨sig.1, sig.2, rfl, of_decide_eq_true hsig⟩

end OpenWebUI.Socket
