import Mathlib.Data.List.Sort
import Mathlib.Data.String.Basic
import Mathlib.Logic.Function.Basic
import OpenWebUI.Lib.Dict

/-! # A dictionary shared through Redis

`backend/open_webui/socket/utils.py`: `RedisDict` with `cache_set_signature`, and
`CachedRedisDict`. The hash is under the name and the signature of its content under
`name:signature`. Workers interleave at single commands, and each runs one operation at
a time.
-/

namespace OpenWebUI.Socket

open Py

/-- The texts of a mapping's values, as `JSONCodec.dumps` writes them. -/
abbrev Mapping := Dict String String

variable {D W : Type}

/-- `f'{content_digest}:{uuid}'`. -/
abbrev Signature (D : Type) := D × ℕ

structure Redis (D : Type) where
  hash : Mapping
  signature : Option (Signature D)

/-- `_cache` and `_cached_signature` of one worker. -/
structure Cache (D : Type) where
  entries : Mapping
  signature : Option (Signature D)

def keyLe (a b : String × String) : Prop := a.1 ≤ b.1

instance : DecidableRel keyLe := fun a b => inferInstanceAs (Decidable (a.1 ≤ b.1))

/-- The digest of the entries in the order of their keys. -/
def contentDigest (digest : List (String × String) → D) (m : Mapping) : D :=
  digest (m.entries.insertionSort keyLe)

/-- The next command of a worker's operation. -/
inductive Op (D : Type) where
  /-- `set`: GET the signature. -/
  | compare (m : Mapping)
  /-- DEL the signature. -/
  | drop (m : Mapping)
  /-- HKEYS. -/
  | list (m : Mapping)
  /-- HSET, knowing the keys to remove. -/
  | write (m : Mapping) (keysToRemove : List String)
  /-- HDEL. -/
  | remove (m : Mapping) (keysToRemove : List String)
  /-- SET the signature. -/
  | publish (m : Mapping)
  /-- `__setitem__`: HSET. -/
  | setItem (key value : String)
  /-- `__delitem__`: HDEL. -/
  | delItem (key : String)
  /-- `delete_many`: HDEL. -/
  | deleteMany (keys : List String)
  /-- `clear`: DEL the hash. -/
  | clear
  /-- DEL the signature, the last command of the four operations above. -/
  | invalidate
  /-- `_refresh_cache`: GET the signature. -/
  | refresh
  /-- HGETALL. -/
  | fetch (stored : Option (Signature D))

/-- The first command of an operation; an empty mapping is cleared, and no keys are
nothing to delete. -/
def Op.starts : Op D → Bool
  | .compare m => !m.entries.isEmpty
  | .deleteMany keys => !keys.isEmpty
  | .setItem _ _ | .delItem _ | .clear | .refresh => true
  | _ => false

/-- One command: what it does to Redis and to the worker's cache, and the next command. -/
def Op.command [DecidableEq D] (digest : List (String × String) → D) (uuid : ℕ) (r : Redis D)
    (cache : Cache D) : Op D → Redis D × Cache D × Option (Op D)
  | .compare m =>
    if r.signature.map Prod.fst = some (contentDigest digest m) then (r, cache, none)
    else (r, cache, some (.drop m))
  | .drop m => ({ r with signature := none }, cache, some (.list m))
  | .list m => (r, cache, some (.write m (r.hash.keys.filter fun k => k ∉ m)))
  | .write m keysToRemove =>
    ({ r with hash := r.hash.update m }, cache,
      some (if keysToRemove = [] then .publish m else .remove m keysToRemove))
  | .remove m keysToRemove =>
    ({ r with hash := keysToRemove.foldl Dict.erase r.hash }, cache, some (.publish m))
  | .publish m => ({ r with signature := some (contentDigest digest m, uuid) }, cache, none)
  | .setItem key value => ({ r with hash := r.hash.set key value }, cache, some .invalidate)
  | .delItem key =>
    if key ∈ r.hash then ({ r with hash := r.hash.erase key }, cache, some .invalidate)
    else (r, cache, none)
  | .deleteMany keys => ({ r with hash := keys.foldl Dict.erase r.hash }, cache, some .invalidate)
  | .clear => ({ r with hash := ∅ }, cache, some .invalidate)
  | .invalidate => ({ r with signature := none }, cache, none)
  | .refresh =>
    if r.signature = none ∨ r.signature ≠ cache.signature then (r, cache, some (.fetch r.signature))
    else (r, cache, none)
  | .fetch stored => (r, ⟨r.hash, stored⟩, none)

/-- All workers. -/
structure World (W D : Type) where
  redis : Redis D
  ops : W → Option (Op D)
  caches : W → Cache D
  /-- The random parts drawn so far. -/
  drawn : List ℕ

inductive Step (W D : Type) where
  | start (worker : W) (op : Op D)
  | run (worker : W) (uuid : ℕ)

/-- An idle worker starts an operation, or a worker runs its next command. A signature gets
a random part that was never drawn before. -/
def World.next [DecidableEq W] [DecidableEq D] (digest : List (String × String) → D)
    (w : World W D) : Step W D → Option (World W D)
  | .start worker op =>
    if (w.ops worker).isNone ∧ op.starts then
      some { w with ops := Function.update w.ops worker (some op) }
    else none
  | .run worker uuid =>
    match w.ops worker with
    | none => none
    | some op =>
      if uuid ∈ w.drawn then none
      else
        let (redis, cache, rest) := op.command digest uuid w.redis (w.caches worker)
        some ⟨redis, Function.update w.ops worker rest, Function.update w.caches worker cache,
          uuid :: w.drawn⟩

/-- No operation has been started and nothing is signed or cached. -/
def Fresh (w : World W D) : Prop :=
  (∀ worker, w.ops worker = none) ∧ w.redis.signature = none ∧
    ∀ worker, (w.caches worker).signature = none

/-! ## Digests -/

/-- The digest depends on the content only. -/
theorem contentDigest_congr (digest : List (String × String) → D) {a b : Mapping}
    (h : ∀ k, a.get? k = b.get? k) : contentDigest digest a = contentDigest digest b := by
  have hmem : ∀ e : String × String, e ∈ a.entries ↔ e ∈ b.entries := by
    intro e
    rw [Dict.mem_entries_iff, Dict.mem_entries_iff, h]
  have hnodup : ∀ m : Mapping, m.entries.Nodup := fun m => List.Nodup.of_map _ m.nodup_keys
  -- both lists hold the same fields, so they are sorted to the same list
  have hperm : (a.entries.insertionSort keyLe).Perm (b.entries.insertionSort keyLe) :=
    ((List.perm_insertionSort keyLe _).trans
      ((List.perm_ext_iff_of_nodup (hnodup a) (hnodup b)).mpr hmem)).trans
      (List.perm_insertionSort keyLe _).symm
  have : Std.Total keyLe := ⟨fun x y => le_total x.1 y.1⟩
  have : IsTrans (String × String) keyLe := ⟨fun x y z => le_trans (a := x.1)⟩
  have heq : a.entries.insertionSort keyLe = b.entries.insertionSort keyLe := by
    refine hperm.eq_of_pairwise ?_ (List.pairwise_insertionSort keyLe _)
      (List.pairwise_insertionSort keyLe _)
    -- two fields in both orders have one name, and the name has one value
    intro x y hx hy hxy hyx
    rw [(List.perm_insertionSort keyLe _).mem_iff] at hx hy
    have hkey : x.1 = y.1 := le_antisymm hxy hyx
    have hx' := (Dict.mem_entries_iff _ _ _).mp hx
    have hy' := (Dict.mem_entries_iff _ _ _).mp hy
    rw [hkey, h, hy', Option.some.injEq] at hx'
    exact Prod.ext hkey hx'.symm
  rw [contentDigest, contentDigest, heq]

/-- With an injective digest, equal digests mean equal contents. -/
theorem get?_of_contentDigest {digest : List (String × String) → D}
    (hinj : Function.Injective digest) {a b : Mapping}
    (h : contentDigest digest a = contentDigest digest b) (k : String) : a.get? k = b.get? k := by
  have hperm : a.entries.Perm b.entries :=
    (List.perm_insertionSort keyLe _).symm.trans
      ((hinj h) ▸ List.perm_insertionSort keyLe _)
  have hiff : ∀ v, a.get? k = some v ↔ b.get? k = some v := by
    intro v
    rw [← Dict.mem_entries_iff, ← Dict.mem_entries_iff, hperm.mem_iff]
  exact Option.ext hiff

end OpenWebUI.Socket
