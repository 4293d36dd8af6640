import Mathlib.Algebra.Order.BigOperators.Group.List
import Mathlib.Algebra.Order.Group.Nat
import Mathlib.Tactic.Linarith
import OpenWebUI.Crypto.Commit
import OpenWebUI.Lib.Transition

/-! # Runs of a session

Every call keeps the group's members in order, whatever packets, rosters and senders the
server makes up. Nothing is assumed of a call that fails but that OpenMLS then leaves the
members alone.
-/

namespace OpenWebUI.Crypto

open Py Program

/-! ## What is assumed of OpenMLS -/

section Laws

variable (M : OpenMls)

/-- Neither the members nor the stored proposals have changed. -/
structure Unchanged (g g' : M.Group) : Prop where
  members : M.members g' = M.members g
  pending : M.pendingProposals g' = M.pendingProposals g

/-- A call that stages a commit of the stored proposals and of `new`. Its path keeps the
committer's credential. -/
def Stages {α : Type} (new : List Proposal) (f : Mutation M.Provider M.Group α) : Prop :=
  ∀ p g, Unchanged M g (f p g).1.2 ∧ ((f p g).2.isSome → ∃ c stored,
    M.pendingCommit (f p g).1.2 = some c ∧ c.Valid (M.members g) ∧
    c.proposals = stored ++ new.map (⟨.member c.committer, ·⟩) ∧
    stored ⊆ M.pendingProposals g ∧
    ∀ leaf ∈ c.path, ∃ own, (M.members g).get? c.committer = some own ∧
      leaf.credential = own.credential)

/-- A call that merges a validated commit. It drops the stored proposals, or fails and
leaves the group alone. -/
def MergesInto (c : Commit) (g : M.Group) (r : (M.Provider × M.Group) × Option Unit) : Prop :=
  c.Valid (M.members g) → c.Merges (M.members g) (M.members r.1.2) ∧
    M.pendingProposals r.1.2 = [] ∨ r.2 = none ∧ Unchanged M g r.1.2

/-- A message is from a member with its credential; a commit in it is validated. -/
structure Verified (g : M.Group) (processed : Processed) : Prop where
  credential : ∀ i m, processed.sender = .member i → (M.members g).get? i = some m →
    processed.credential = m.credential
  proposal : ∀ q, processed.content = .proposal q → q.sender = processed.sender
  commit : ∀ c, processed.content = .commit c → processed.sender = .member c.committer ∧
    c.Valid (M.members g)

/-- The documented behaviour the session relies on. -/
structure OpenMls.Lawful : Prop where
  build : ∀ p leaf gid g, (M.build p leaf gid).2 = some g →
    (∃ i, ∀ j, (M.members g).get? j = if j = i then some leaf else none) ∧
      M.pendingProposals g = []
  welcome : ∀ p bytes g, (M.fromWelcome p bytes).2 = some g → M.pendingProposals g = []
  addMembers : ∀ kp, Stages M [.add kp] (M.addMembers kp)
  removeMembers : ∀ i, Stages M [.remove i] (M.removeMembers i)
  selfUpdate : Stages M [] M.selfUpdate
  commitToPendingProposals : Stages M [] M.commitToPendingProposals
  mergePendingCommit : ∀ p g c, M.pendingCommit g = some c →
    MergesInto M c g (M.mergePendingCommit p g)
  mergeStagedCommit : ∀ p g c, MergesInto M c g (M.mergeStagedCommit c p g)
  proposeSelfUpdate : ∀ p g, M.members (M.proposeSelfUpdate p g).1.2 = M.members g ∧
    ∀ q ∈ M.pendingProposals (M.proposeSelfUpdate p g).1.2, q ∈ M.pendingProposals g ∨
      ∃ i own leaf, (M.members g).get? i = some own ∧ leaf.credential = own.credential ∧
        q = ⟨.member i, .update leaf⟩
  createMessage : ∀ text p g, Unchanged M g (M.createMessage text p g).1.2
  processMessage : ∀ bytes p g, Unchanged M g (M.processMessage bytes p g).1.2 ∧
    ∀ processed ∈ (M.processMessage bytes p g).2, Verified M g processed
  storePendingProposal : ∀ q p g, M.members (M.storePendingProposal q p g).1.2 = M.members g ∧
    ∀ q' ∈ M.pendingProposals (M.storePendingProposal q p g).1.2,
      q' = q ∨ q' ∈ M.pendingProposals g

end Laws

/-! ## The invariant -/

section Invariant

variable (S : Serde) {M : OpenMls}

/-- A stored proposal is an update that keeps its member's identity. -/
def KeepsIdentity (members : Dict ℕ Leaf) (q : QueuedProposal) : Prop :=
  ∃ i leaf, q = ⟨.member i, .update leaf⟩ ∧ S.identity leaf.credential = identityAt S members i

/-- The group's members are in order, and so is every stored proposal. -/
structure GroupInv (id : Identity) (host : String) (g : M.Group) : Prop where
  members : Membership S id host (M.members g)
  pending : ∀ q ∈ M.pendingProposals g, KeepsIdentity S (M.members g) q

def Sound (s : Session M) : Prop := ∀ g, s.group = some g → GroupInv S s.id s.host g

/-- The session after a call on its group. -/
def Session.put (s : Session M) (r : M.Provider × M.Group) : Session M :=
  { s with provider := r.1, group := some r.2 }

/-- The session has staged a commit that keeps its members in order. -/
def Prepared (s : Session M) : Prop :=
  ∃ g c, s.group = some g ∧ M.pendingCommit g = some c ∧ GroupInv S s.id s.host g ∧
    c.Valid (M.members g) ∧ c.Safe S s.id s.host (M.members g)

end Invariant

section Steps

variable {S : Serde} {M : OpenMls} {id : Identity} {host : String} {g g' : M.Group}
  {s : Session M} {α β : Type}

/-- A group whose members stay keeps the invariant. -/
theorem GroupInv.unchanged (h : GroupInv S id host g) (hsame : Unchanged M g g') :
    GroupInv S id host g' := by
  refine ⟨hsame.members ▸ h.members, ?_⟩
  rw [hsame.members, hsame.pending]
  exact h.pending

/-- Storing a group that meets the invariant keeps the session sound. -/
theorem Sound.put {r : M.Provider × M.Group} (h : GroupInv S s.id s.host r.2) :
    Sound S (s.put r) := by
  intro g hg
  obtain rfl := Option.some.inj hg
  exact h

/-- A prepared session is sound. -/
theorem Prepared.sound (h : Prepared S s) : Sound S s := by
  obtain ⟨g, c, hg, _, hinv, _⟩ := h
  intro g' hg'
  rw [hg, Option.some.injEq] at hg'
  exact hg' ▸ hinv

/-- Merging a safe commit keeps the membership. -/
theorem groupInv_merged {c : Commit} {r : (M.Provider × M.Group) × Option Unit}
    (h : GroupInv S id host g) (hvalid : c.Valid (M.members g))
    (hsafe : c.Safe S id host (M.members g)) (hmerge : MergesInto M c g r) :
    GroupInv S id host r.1.2 := by
  rcases hmerge hvalid with ⟨hmerged, hpending⟩ | ⟨_, hsame⟩
  · refine ⟨h.members.merged hvalid hsafe hmerged, ?_⟩
    rw [hpending]
    rintro q ⟨⟩
  · exact h.unchanged hsame

/-- A call on the group, from a known state. -/
theorem onGroup_bind {f : Mutation M.Provider M.Group α} {k : α → Method M β}
    {R : β → Session M → Prop} (hs : Sound S s)
    (hf : ∀ g, s.group = some g → GroupInv S s.id s.host g →
      GroupInv S s.id s.host (f s.provider g).1.2 ∧
      ∀ a, (f s.provider g).2 = some a →
        Triple (fun s' => s' = s.put (f s.provider g).1) (k a) R fun _ s => Sound S s) :
    Triple (fun s' => s' = s) (onGroup f >>= k) R fun _ s => Sound S s := by
  unfold onGroup
  simp only [bind_assoc]
  refine triple_get_bind fun s' hs' => ?_
  subst hs'
  refine ofOption_bind (fun _ hw => hw ▸ hs) fun g hg => ?_
  obtain ⟨hinv, hk⟩ := hf g hg (hs g hg)
  refine triple_set_bind (ofOption_bind (fun _ hw => hw ▸ Sound.put hinv) fun a ha => ?_)
  exact hk a ha

/-! ## Own commits -/

/-- What a session adds to a commit of the stored proposals. -/
structure NewSafe (S : Serde) (id : Identity) (host : String) (members : Dict ℕ Leaf)
    (new : List Proposal) : Prop where
  updates : ∀ leaf, .update leaf ∉ new
  adds : ∀ leaf ∈ new.filterMap Proposal.added, ∃ x, S.identity leaf.credential = some x ∧
    x.channel = id.channel ∧ x.session = id.session ∧
    ∀ i y, identityAt S members i = some y → y.user ≠ x.user
  distinct : ((new.filterMap Proposal.added).map fun leaf =>
    (S.identity leaf.credential).map Identity.user).Nodup
  removes : ∀ i ∈ new.filterMap Proposal.removed, ∀ x, identityAt S members i = some x →
    x.participation ≠ host
  size : members.size + (new.filterMap Proposal.added).length ≤ 128

theorem newSafe_nil {members : Dict ℕ Leaf} (h : Membership S id host members) :
    NewSafe S id host members [] where
  updates := by simp
  adds := by simp
  distinct := List.nodup_nil
  removes := by simp
  size := h.size

/-- Stored proposals are updates: a commit adds and removes only what is new. -/
theorem safe_own {c : Commit} {stored : List QueuedProposal} {new : List Proposal}
    (hinv : GroupInv S id host g) (hnew : NewSafe S id host (M.members g) new)
    (hproposals : c.proposals = stored ++ new.map (⟨.member c.committer, ·⟩))
    (hstored : stored ⊆ M.pendingProposals g)
    (hpath : ∀ leaf ∈ c.path, ∃ own, (M.members g).get? c.committer = some own ∧
      leaf.credential = own.credential) :
    c.Safe S id host (M.members g) := by
  -- the stored proposals are updates that keep their identity, as only those are kept
  have hkeeps : ∀ q ∈ stored, KeepsIdentity S (M.members g) q := fun q hq =>
    hinv.pending q (hstored hq)
  have hadds : c.adds = new.filterMap Proposal.added := by
    rw [Commit.adds, hproposals, List.filterMap_append, List.filterMap_map]
    have hnil : (stored.filterMap fun q => q.proposal.added) = [] := by
      rw [List.filterMap_eq_nil_iff]
      intro q hq
      obtain ⟨i, leaf, rfl, _⟩ := hkeeps q hq
      rfl
    rw [hnil, List.nil_append]
    rfl
  have hremoves : c.removes = new.filterMap Proposal.removed := by
    rw [Commit.removes, hproposals, List.filterMap_append, List.filterMap_map]
    have hnil : (stored.filterMap fun q => q.proposal.removed) = [] := by
      rw [List.filterMap_eq_nil_iff]
      intro q hq
      obtain ⟨i, leaf, rfl, _⟩ := hkeeps q hq
      rfl
    rw [hnil, List.nil_append]
    rfl
  -- a leaf on the path has the credential of the committer
  constructor
  · intro leaf hleaf
    obtain ⟨own, hown, hcredential⟩ := hpath leaf hleaf
    rw [identityAt_of_get? S hown, hcredential]
  · intro e he
    obtain ⟨q, hq, hupdated⟩ := List.mem_filterMap.mp he
    rw [hproposals, List.mem_append] at hq
    rcases hq with hq | hq
    · obtain ⟨i, leaf, rfl, hid⟩ := hkeeps q hq
      obtain rfl := Option.some.inj hupdated
      exact hid
    · obtain ⟨p, hp, rfl⟩ := List.mem_map.mp hq
      cases p with
      | update leaf => exact absurd hp (hnew.updates leaf)
      | add leaf => cases hupdated
      | remove i => cases hupdated
      | other => cases hupdated
  · rw [hadds]
    exact hnew.adds
  · rw [hadds]
    exact hnew.distinct
  · rw [hremoves]
    exact hnew.removes
  -- the size, which only the additions change
  · have hsize := hnew.size
    rw [hadds]
    omega

/-- Staging a commit of the stored proposals and of something safe, then going on. -/
theorem stage_bind {new : List Proposal} {f : Mutation M.Provider M.Group α} {k : α → Method M β}
    (hs : Sound S s) (hstages : Stages M new f)
    (hnew : ∀ g, s.group = some g → NewSafe S s.id s.host (M.members g) new)
    (hk : ∀ a s', Prepared S s' →
      Triple (fun s => s = s') (k a) (fun _ s => Sound S s) fun _ s => Sound S s) :
    Triple (fun s' => s' = s) (onGroup f >>= k) (fun _ s => Sound S s) fun _ s => Sound S s := by
  refine onGroup_bind hs fun g hg hinv => ?_
  obtain ⟨hsame, hstaged⟩ := hstages s.provider g
  refine ⟨hinv.unchanged hsame, fun a ha => hk a _ ?_⟩
  obtain ⟨c, stored, hc, hvalid, hproposals, hstored, hpath⟩ :=
    hstaged (Option.isSome_of_eq_some ha)
  have hsafe := safe_own hinv (hnew g hg) hproposals hstored hpath
  refine ⟨_, c, rfl, hc, hinv.unchanged hsame, ?_, ?_⟩
  · rw [hsame.members]
    exact hvalid
  · rw [hsame.members]
    exact hsafe

/-- Merging one's own pending commit keeps the session sound. -/
theorem mergeOwn_triple (laws : M.Lawful) (h : Prepared S s) (out : Option β) :
    Triple (fun s' => s' = s) (mergeOwn out) (fun _ s => Sound S s) fun _ s => Sound S s := by
  unfold mergeOwn
  refine ofOption_bind (fun _ hw => hw ▸ h.sound) fun b _ => ?_
  refine onGroup_bind h.sound fun g hg hinv => ?_
  obtain ⟨g', c, hg', hc, _, hvalid, hsafe⟩ := h
  rw [hg, Option.some.injEq] at hg'
  subst hg'
  have hmerged := groupInv_merged hinv hvalid hsafe (laws.mergePendingCommit s.provider g c hc)
  exact ⟨hmerged, fun _ _ => triple_pure _ fun _ hw => hw ▸ Sound.put hmerged⟩

/-! ## Methods -/

/-- A method keeps the session sound, whether it succeeds or fails. -/
def Keeps (S : Serde) (m : Method M α) : Prop :=
  Triple (Sound S) m (fun _ s => Sound S s) fun _ s => Sound S s

/-- A sound session stays sound when only its provider changes. -/
theorem Sound.provider (h : Sound S s) (p : M.Provider) : Sound S { s with provider := p } := h

/-- `keyPackage` keeps the session sound. -/
theorem keyPackage_keeps : Keeps S (keyPackage S (M := M)) := by
  refine triple_get_bind fun s hs => ensure_bind (fun _ hw => hw ▸ hs) fun _ => ?_
  have hfail : ∀ p s', s' = { s with provider := p } → Sound S s' :=
    fun p _ hw => hw ▸ hs.provider p
  refine triple_set_bind (ofOption_bind (hfail _) fun kp _ => ?_)
  exact triple_ofOption (hfail _) fun _ _ => hfail _

/-- `create` keeps the session sound. -/
theorem create_keeps (laws : M.Lawful) (hserde : S.Lawful) : Keeps S (create S (M := M)) := by
  refine triple_get_bind fun s hs => ensure_bind (fun _ hw => hw ▸ hs) fun hown => ?_
  refine triple_set_bind (ofOption_bind (fun _ hw => hw ▸ hs.provider _) fun g hg => ?_)
  obtain ⟨⟨i, hi⟩, hpending⟩ := laws.build _ _ _ g hg
  refine triple_modify fun s' hw => ?_
  subst hw
  have hid : ∀ j, identityAt S (M.members g) j = if j = i then some s.id else none := by
    intro j
    rw [identityAt, hi]
    split_ifs
    · exact hserde s.id
    · rfl
  refine Sound.put (r := (_, g)) ⟨⟨⟨i, s.id, ?_, hown.2⟩, ?_, ?_, ?_⟩, ?_⟩
  · rw [hid, if_pos rfl]
  · intro j hj
    obtain ⟨leaf, hleaf⟩ := (Dict.mem_iff_exists _ _).mp hj
    rw [hi] at hleaf
    split_ifs at hleaf with hji
    exact ⟨s.id, by rw [hid, if_pos hji], rfl, rfl⟩
  · intro j k x y hx hy _
    rw [hid] at hx hy
    split_ifs at hx hy with hj hk
    exact hj.trans hk.symm
  · have hsub : (M.members g).keys ⊆ [i] := by
      intro j hj
      have hj' : j ∈ M.members g := hj
      obtain ⟨leaf, hleaf⟩ := (Dict.mem_iff_exists _ _).mp hj'
      rw [hi] at hleaf
      split_ifs at hleaf with hji
      exact hji ▸ List.mem_singleton_self j
    have hle := (List.subperm_of_subset (M.members g).nodup_keys hsub).length_le
    rw [Dict.size_eq_keys]
    exact Nat.le_trans hle (show 1 ≤ 128 by decide)
  · rw [hpending]
    rintro q ⟨⟩

/-- The members a welcome leads to, once each has been checked. -/
theorem membership_of_checks {members : Dict ℕ Leaf} {roster : List Binding} {ids : List Identity}
    (hids : (members.entries.mapM fun e => check S e.2 id roster) = some ids)
    (hroster : roster.length ≤ 128) (husers : (ids.map Identity.user).Nodup)
    (hhost : host ∈ ids.map Identity.participation) : Membership S id host members := by
  have hmap := map_of_mapM_eq_some hids
  -- each leaf has passed the check, and each identity is that of a leaf
  have hchecked : ∀ e ∈ members.entries, ∃ x ∈ ids, check S e.2 id roster = some x := by
    intro e he
    have hmem := List.mem_map_of_mem (f := fun e => check S e.2 id roster) he
    rw [hmap, List.mem_map] at hmem
    obtain ⟨x, hx, heq⟩ := hmem
    exact ⟨x, hx, heq.symm⟩
  have hentry : ∀ {i x}, identityAt S members i = some x →
      ∃ leaf, (i, leaf) ∈ members.entries ∧ check S leaf id roster = some x := by
    intro i x hx
    obtain ⟨leaf, hleaf, hid⟩ := Option.bind_eq_some_iff.mp hx
    have hmem := (Dict.mem_entries_iff _ _ _).mpr hleaf
    obtain ⟨y, _, hy⟩ := hchecked (i, leaf) hmem
    rw [(check_spec hy).1, Option.some.injEq] at hid
    exact ⟨leaf, hmem, hid ▸ hy⟩
  refine ⟨?_, ?_, ?_, ?_⟩
  · obtain ⟨x, hx, rfl⟩ := List.mem_map.mp hhost
    have hmem := List.mem_map_of_mem (f := some) hx
    rw [← hmap, List.mem_map] at hmem
    obtain ⟨e, he, hcheck⟩ := hmem
    refine ⟨e.1, x, ?_, rfl⟩
    rw [identityAt_of_get? S ((Dict.mem_entries_iff _ _ _).mp he)]
    exact (check_spec hcheck).1
  -- every member is of this channel and session
  · intro i hi
    obtain ⟨leaf, hleaf⟩ := (Dict.mem_iff_exists _ _).mp hi
    obtain ⟨x, _, hx⟩ := hchecked (i, leaf) ((Dict.mem_entries_iff _ _ _).mpr hleaf)
    obtain ⟨hid, hchannel, hsession, _⟩ := check_spec hx
    exact ⟨x, (identityAt_of_get? S hleaf).trans hid, hchannel, hsession⟩
  -- no user has two members
  · intro i j x y hx hy huser
    obtain ⟨leaf, hleaf, hcheck⟩ := hentry hx
    obtain ⟨leaf', hleaf', hcheck'⟩ := hentry hy
    have hnodup : (members.entries.map fun e =>
        (check S e.2 id roster).map Identity.user).Nodup := by
      have heq := congrArg (List.map (Option.map Identity.user)) hmap
      rw [List.map_map, List.map_map] at heq
      have hsome := husers.map (Option.some_injective String)
      rw [List.map_map] at hsome
      exact heq ▸ hsome
    have hsame := List.inj_on_of_nodup_map hnodup hleaf hleaf'
      (by simp only [hcheck, hcheck', Option.map_some, huser])
    exact congrArg Prod.fst hsame
  -- there are as many users as members, and all of them are on the roster
  · have hlen : members.entries.length = ids.length := by
      have h := congrArg List.length hmap
      rwa [List.length_map, List.length_map] at h
    have hsub : ids.map Identity.user ⊆ roster.map fun b => b.identity.user := by
      intro user huser
      obtain ⟨x, hx, rfl⟩ := List.mem_map.mp huser
      have hmem := List.mem_map_of_mem (f := some) hx
      rw [← hmap, List.mem_map] at hmem
      obtain ⟨e, _, hcheck⟩ := hmem
      obtain ⟨_, _, _, b, hb, hbx⟩ := check_spec hcheck
      exact List.mem_map.mpr ⟨b, hb, by rw [hbx]⟩
    have hle := (List.subperm_of_subset husers hsub).length_le
    rw [List.length_map, List.length_map] at hle
    rw [Dict.size, hlen]
    exact Nat.le_trans hle hroster

/-- `join` keeps the session sound. -/
theorem join_keeps (laws : M.Lawful) (welcome bindings : String) :
    Keeps S (join S welcome bindings (M := M)) := by
  refine triple_get_bind fun s hs => ensure_bind (fun _ hw => hw ▸ hs) fun _ => ?_
  refine ofOption_bind (fun _ hw => hw ▸ hs) fun roster hroster => ?_
  refine ofOption_bind (fun _ hw => hw ▸ hs) fun packet _ => ?_
  have hfail : ∀ p s', s' = { s with provider := p } → Sound S s' :=
    fun p _ hw => hw ▸ hs.provider p
  refine triple_set_bind (ofOption_bind (hfail _) fun g hg => ensure_bind (hfail _) fun _ => ?_)
  refine ofOption_bind (hfail _) fun ids hids => ensure_bind (hfail _) fun husers => ?_
  refine ensure_bind (hfail _) fun hhost => triple_modify fun s' hw => ?_
  subst hw
  refine Sound.put (r := (_, g)) ⟨?_, ?_⟩
  · exact membership_of_checks hids (readRoster_spec hroster) husers hhost
  · rw [laws.welcome _ _ g hg]
    rintro q ⟨⟩

/-- `add` keeps the session sound. -/
theorem add_keeps (laws : M.Lawful) (keyPackage expected bindings : String) :
    Keeps S (add S keyPackage expected bindings (M := M)) := by
  refine triple_get_bind fun s hs => ensure_bind (fun _ hw => hw ▸ hs) fun _ => ?_
  refine ofOption_bind (fun _ hw => hw ▸ hs) fun roster _ => ?_
  refine ofOption_bind (fun _ hw => hw ▸ hs) fun kp _ => ?_
  refine ofOption_bind (fun _ hw => hw ▸ hs) fun x hx => ensure_bind (fun _ hw => hw ▸ hs) fun _ =>
    ?_
  refine ofOption_bind (fun _ hw => hw ▸ hs) fun g hg =>
    ensure_bind (fun _ hw => hw ▸ hs) fun hroom => ?_
  obtain ⟨hid, hchannel, hsession, _⟩ := check_spec hx
  refine stage_bind hs (laws.addMembers kp) ?_ fun _ s' hs' => mergeOwn_triple laws hs' _
  intro g' hg'
  rw [hg, Option.some.injEq] at hg'
  subst hg'
  refine ⟨by simp, ?_, List.nodup_singleton _, by simp [Proposal.removed], ?_⟩
  · intro leaf hleaf
    obtain rfl := List.mem_singleton.mp hleaf
    exact ⟨x, hid, hchannel, hsession, fun i y hy => hasUser_spec hroom.2 hy⟩
  · exact hroom.1

/-- `remove` keeps the session sound. -/
theorem remove_keeps (laws : M.Lawful) (participation bindings : String) :
    Keeps S (remove S participation bindings (M := M)) := by
  refine triple_get_bind fun s hs => ensure_bind (fun _ hw => hw ▸ hs) fun hother => ?_
  refine ofOption_bind (fun _ hw => hw ▸ hs) fun roster _ =>
    ensure_bind (fun _ hw => hw ▸ hs) fun _ => ?_
  refine ofOption_bind (fun _ hw => hw ▸ hs) fun g hg => ?_
  refine ofOption_bind (fun _ hw => hw ▸ hs) fun index hindex => ?_
  refine stage_bind hs (laws.removeMembers index) ?_ fun _ s' hs' => mergeOwn_triple laws hs' _
  intro g' hg'
  rw [hg, Option.some.injEq] at hg'
  subst hg'
  refine ⟨by simp, by simp [Proposal.added], List.nodup_nil, ?_, (hs g hg).members.size⟩
  intro i hi x hx
  obtain rfl := List.mem_singleton.mp hi
  rw [indexOf_spec hindex hx]
  exact hother.2

/-- `commitUpdates` keeps the session sound. -/
theorem commitUpdates_keeps (laws : M.Lawful) : Keeps S (commitUpdates (M := M)) := by
  refine triple_get_bind fun s hs => ensure_bind (fun _ hw => hw ▸ hs) fun _ => ?_
  exact stage_bind hs laws.commitToPendingProposals (fun g hg => newSafe_nil (hs g hg).members)
    fun _ s' hs' => mergeOwn_triple laws hs' _

/-- `update` keeps the session sound. -/
theorem update_keeps (laws : M.Lawful) : Keeps S (update (M := M)) := by
  refine triple_get_bind fun s hs => triple_ite (fun _ => ?_) fun _ => ?_
  · exact stage_bind hs laws.selfUpdate (fun g hg => newSafe_nil (hs g hg).members)
      fun _ s' hs' => mergeOwn_triple laws hs' _
  · refine onGroup_bind hs fun g hg hinv => ?_
    obtain ⟨hsame, hstored⟩ := laws.proposeSelfUpdate s.provider g
    have hinv' : GroupInv S s.id s.host (M.proposeSelfUpdate s.provider g).1.2 := by
      refine ⟨hsame ▸ hinv.members, ?_⟩
      intro q hq
      rw [hsame]
      rcases hstored q hq with hold | ⟨i, own, leaf, hown, hcredential, rfl⟩
      · exact hinv.pending q hold
      · exact ⟨i, leaf, rfl, by rw [identityAt_of_get? S hown, hcredential]⟩
    refine ⟨hinv', fun _ _ => ?_⟩
    exact triple_ofOption (fun _ hw => hw ▸ Sound.put hinv') fun _ _ _ hw => hw ▸ Sound.put hinv'

/-- `encrypt` keeps the session sound. -/
theorem encrypt_keeps (laws : M.Lawful) (text : String) : Keeps S (encrypt text (M := M)) := by
  refine ensure_bind (fun _ hw => hw) fun _ => ?_
  intro s hs
  refine onGroup_bind hs (fun g hg hinv => ?_) s rfl
  have hinv' := hinv.unchanged (laws.createMessage (bytesOf text) s.provider g)
  refine ⟨hinv', fun _ _ => ?_⟩
  exact triple_ofOption (fun _ hw => hw ▸ Sound.put hinv') fun _ _ _ hw => hw ▸ Sound.put hinv'

/-! ## Processing -/

/-- A processed proposal keeps the session sound. -/
theorem processProposal_keeps (laws : M.Lawful) {context : Identity} {roster : List Binding}
    {sender : Identity} {q : QueuedProposal} (hs : Sound S s)
    (hsender : ∀ g, s.group = some g → ∃ i, q.sender = .member i ∧
      identityAt S (M.members g) i = some sender) :
    Triple (fun s' => s' = s) (processProposal S context roster sender q)
      (fun _ s => Sound S s) fun _ s => Sound S s := by
  obtain ⟨qsender, proposal⟩ := q
  cases proposal with
  | update leaf =>
      refine ofOption_bind (fun _ hw => hw ▸ hs) fun x hx =>
        ensure_bind (fun _ hw => hw ▸ hs) fun heq => ?_
      refine onGroup_bind hs fun g hg hinv => ?_
      obtain ⟨hsame, hstored⟩ := laws.storePendingProposal ⟨qsender, .update leaf⟩ s.provider g
      obtain ⟨i, hi, hid⟩ := hsender g hg
      have hinv' : GroupInv S s.id s.host
          (M.storePendingProposal ⟨qsender, .update leaf⟩ s.provider g).1.2 := by
        refine ⟨hsame ▸ hinv.members, ?_⟩
        intro q' hq'
        rw [hsame]
        rcases hstored q' hq' with rfl | hold
        · have hi' : qsender = .member i := hi
          exact ⟨i, leaf, by rw [hi'], by rw [(check_spec hx).1, heq, hid]⟩
        · exact hinv.pending q' hold
      exact ⟨hinv', fun _ _ => triple_pure _ fun _ hw => hw ▸ Sound.put hinv'⟩
  | add leaf => exact triple_throw _ fun _ hw => hw ▸ hs
  | remove i => exact triple_throw _ fun _ hw => hw ▸ hs
  | other => exact triple_throw _ fun _ hw => hw ▸ hs

/-- A processed commit keeps the session sound. -/
theorem processCommit_keeps (laws : M.Lawful) {roster : List Binding} {sender : Identity}
    {c : Commit} (hs : Sound S s) (hg : s.group = some g) (hvalid : c.Valid (M.members g))
    (hsender : identityAt S (M.members g) c.committer = some sender) :
    Triple (fun s' => s' = s) (processCommit S s (M.members g) roster sender c)
      (fun _ s => Sound S s) fun _ s => Sound S s := by
  refine ensure_bind (fun _ hw => hw ▸ hs) fun _ => ensure_bind (fun _ hw => hw ▸ hs) fun hpath =>
    ?_
  refine ofOption_bind (fun _ hw => hw ▸ hs) fun added hadded =>
    ensure_bind (fun _ hw => hw ▸ hs) fun hsize => ?_
  obtain ⟨hupdates, hadds, hdistinct, hremoves⟩ := checkProposals_spec c.proposals hadded
  have hsafe : c.Safe S s.id s.host (M.members g) := by
    refine ⟨?_, hupdates, ?_, hdistinct, hremoves, hsize⟩
    · intro leaf hleaf
      exact (check_spec (hpath leaf hleaf)).1.trans hsender.symm
    · intro leaf hleaf
      obtain ⟨x, hx, hchannel, hsession, _, hnew⟩ := hadds leaf hleaf
      exact ⟨x, hx, hchannel, hsession, hnew⟩
  refine onGroup_bind hs fun g' hg' hinv => ?_
  rw [hg, Option.some.injEq] at hg'
  subst hg'
  have hmerged := groupInv_merged hinv hvalid hsafe (laws.mergeStagedCommit s.provider g c)
  exact ⟨hmerged, fun _ _ => triple_pure _ fun _ hw => hw ▸ Sound.put hmerged⟩

/-- Whatever a packet holds, processing it keeps the session sound. -/
theorem processContent_keeps (laws : M.Lawful) {expected : String} {roster : List Binding}
    {processed : Processed} (hs : Sound S s) (hg : s.group = some g)
    (hverified : Verified M g processed) :
    Triple (fun s' => s' = s) (processContent S expected roster processed)
      (fun _ s => Sound S s) fun _ s => Sound S s := by
  refine triple_get_bind fun s' hw => ?_
  subst hw
  refine ofOption_bind (fun _ hw => hw ▸ hs) fun g' hg' => ?_
  rw [hg, Option.some.injEq] at hg'
  subst hg'
  obtain ⟨psender, credential, content⟩ := processed
  cases psender with
  | other => exact triple_throw _ fun _ hw => hw ▸ hs
  | member index =>
      refine ofOption_bind (fun _ hw => hw ▸ hs) fun m hm => ?_
      refine ofOption_bind (fun _ hw => hw ▸ hs) fun sender hsender => ?_
      refine ensure_bind (fun _ hw => hw ▸ hs) fun _ => ?_
      have hid : identityAt S (M.members g) index = some sender := by
        have hcredential : credential = m.credential := hverified.credential index m rfl hm
        rw [identityAt_of_get? S hm, ← hcredential]
        exact (check_spec hsender).1
      cases content with
      | application bytes =>
          refine ensure_bind (fun _ hw => hw ▸ hs) fun _ =>
            ofOption_bind (fun _ hw => hw ▸ hs) fun _ _ => ?_
          exact triple_pure _ fun _ hw => hw ▸ hs
      | proposal q =>
          refine processProposal_keeps laws hs fun g' hg' => ?_
          rw [hg, Option.some.injEq] at hg'
          exact ⟨index, hverified.proposal q rfl, hg' ▸ hid⟩
      | commit c =>
          obtain ⟨hcommitter, hvalid⟩ := hverified.commit c rfl
          obtain rfl := Sender.member.inj hcommitter
          exact processCommit_keeps laws hs hg hvalid hid
      | other => exact triple_throw _ fun _ hw => hw ▸ hs

/-- `process` keeps the session sound. -/
theorem process_keeps (laws : M.Lawful) (packet expected bindings : String) :
    Keeps S (process S packet expected bindings (M := M)) := by
  refine triple_get_bind fun s hs => ?_
  refine ofOption_bind (fun _ hw => hw ▸ hs) fun roster _ =>
    ofOption_bind (fun _ hw => hw ▸ hs) fun _ _ => ?_
  refine ofOption_bind (fun _ hw => hw ▸ hs) fun bytes _ => onGroup_bind hs fun g hg hinv => ?_
  obtain ⟨hsame, hverified⟩ := laws.processMessage bytes s.provider g
  refine ⟨hinv.unchanged hsame, fun processed hprocessed => ?_⟩
  have h := hverified processed hprocessed
  refine processContent_keeps laws (Sound.put (hinv.unchanged hsame)) rfl ⟨?_, h.proposal, ?_⟩
  · intro i m hi hm
    exact h.credential i m hi (hsame.members ▸ hm)
  · intro c hc
    exact ⟨(h.commit c hc).1, hsame.members ▸ (h.commit c hc).2⟩

end Steps

/-! ## Runs -/

/-- A call of the session, with whatever arguments. -/
inductive Call where
  | keyPackage
  | create
  | join (welcome bindings : String)
  | add (keyPackage expected bindings : String)
  | remove (participation bindings : String)
  | update
  | commitUpdates
  | encrypt (text : String)
  | process (packet expected bindings : String)

/-- The session after a call, successful or not. -/
def Session.call {M : OpenMls} (S : Serde) (s : Session M) : Call → Session M
  | .keyPackage => ((Crypto.keyPackage S).exec s).2
  | .create => ((Crypto.create S).exec s).2
  | .join welcome bindings => ((Crypto.join S welcome bindings).exec s).2
  | .add kp expected bindings => ((Crypto.add S kp expected bindings).exec s).2
  | .remove participation bindings => ((Crypto.remove S participation bindings).exec s).2
  | .update => (Crypto.update.exec s).2
  | .commitUpdates => (Crypto.commitUpdates.exec s).2
  | .encrypt text => ((Crypto.encrypt text).exec s).2
  | .process packet expected bindings => ((Crypto.process S packet expected bindings).exec s).2

section Runs

variable {S : Serde} {M : OpenMls} {s : Session M}

/-- A method that keeps the session sound does so however it ends. -/
theorem Keeps.sound {α : Type} {m : Method M α} (h : Keeps S m) (hs : Sound S s) :
    Sound S (m.exec s).2 := by
  have h' := h s hs
  rcases hexec : m.exec s with ⟨_ | _, s'⟩
  · rw [hexec] at h'
    exact h'
  · rw [hexec] at h'
    exact h'

/-- Every call keeps the session sound. -/
theorem sound_call (laws : M.Lawful) (hserde : S.Lawful) (hs : Sound S s) (call : Call) :
    Sound S (s.call S call) := by
  cases call with
  | keyPackage => exact keyPackage_keeps.sound hs
  | create => exact (create_keeps laws hserde).sound hs
  | join welcome bindings => exact (join_keeps laws welcome bindings).sound hs
  | add kp expected bindings => exact (add_keeps laws kp expected bindings).sound hs
  | remove participation bindings => exact (remove_keeps laws participation bindings).sound hs
  | update => exact (update_keeps laws).sound hs
  | commitUpdates => exact (commitUpdates_keeps laws).sound hs
  | encrypt text => exact (encrypt_keeps laws text).sound hs
  | process packet expected bindings => exact (process_keeps laws packet expected bindings).sound hs

end Runs

/-- A session that was just made. -/
def Made {M : OpenMls} (s : Session M) : Prop :=
  ∃ provider signatureKey id host, Session.new provider signatureKey id host = some s

/-- After any calls, the members of a session's group are in order. -/
theorem session_membership (S : Serde) (M : OpenMls) (hserde : S.Lawful) (laws : M.Lawful)
    (s : Session M)
    (h : Transition.Reachable Made (fun call s s' => s' = Session.call S s call) s)
    (g : M.Group) (hg : s.group = some g) : Membership S s.id s.host (M.members g) := by
  have hsound : Sound S s := by
    refine h.invariant ?_ fun call s s' hs hstep => hstep ▸ sound_call laws hserde hs call
    rintro s ⟨provider, key, id, host, hnew⟩ g hg
    unfold Session.new at hnew
    simp only [Option.bind_eq_bind, Option.bind_eq_some_iff, guard_eq_some_iff, Option.pure_def,
      Option.some.injEq, exists_const] at hnew
    obtain ⟨_, _, rfl⟩ := hnew
    cases hg
  exact (hsound g hg).members

/-! ## A group without cryptography -/

/-- A text as its length and its characters. -/
def plainText (s : String) : Bytes := s.toList.length :: s.toList.map Char.toNat

def readText : Bytes → Option (String × Bytes)
  | n :: rest => some (String.ofList ((rest.take n).map Char.ofNat), rest.drop n)
  | [] => none

/-- The example's texts read back. -/
theorem readText_plainText (s : String) (rest : Bytes) :
    readText (plainText s ++ rest) = some (s, rest) := by
  have hlen : (s.toList.map Char.toNat).length = s.toList.length := List.length_map ..
  rw [plainText, List.cons_append, readText, List.take_left' hlen, List.drop_left' hlen]
  simp only [List.map_map, Function.comp_def, Char.ofNat_toNat, List.map_id', String.ofList_toList]

/-- An identity in four texts. -/
def readIdentity (bytes : Bytes) : Option (Identity × Bytes) := do
  let (channel, bytes) ← readText bytes
  let (session, bytes) ← readText bytes
  let (user, bytes) ← readText bytes
  let (participation, bytes) ← readText bytes
  return (⟨channel, session, user, participation⟩, bytes)

/-- A key of one byte thirty-two times. -/
def plainKey (n : ℕ) : Bytes := List.replicate 32 n

/-- An identity and the byte of its key. -/
def readBinding (bytes : Bytes) : Option (Binding × Bytes) := do
  let (id, bytes) ← readIdentity bytes
  let n ← bytes.head?
  return (⟨id, b64encode (plainKey n)⟩, bytes.tail)

def readBindings : ℕ → Bytes → Option (List Binding)
  | n + 1, b :: bytes => do
    let (binding, rest) ← readBinding (b :: bytes)
    let bindings ← readBindings n rest
    return binding :: bindings
  | _, _ => some []

def identityText (id : Identity) : Bytes :=
  plainText id.channel ++ (plainText id.session ++
    (plainText id.user ++ plainText id.participation))

def plainSerde : Serde where
  identityBytes := identityText
  identity bytes := (readIdentity bytes).map Prod.fst
  -- a session takes at most 128 bindings
  roster value := readBindings 129 (value.toList.map Char.toNat)

/-- The example's encoding reads back what it writes. -/
theorem plainSerde_lawful : plainSerde.Lawful := by
  intro id
  have hlast := readText_plainText id.participation []
  rw [List.append_nil] at hlast
  simp only [plainSerde, readIdentity, identityText, Option.bind_eq_bind, readText_plainText, hlast,
    Option.bind_some, Option.pure_def, Option.map_some]

/-- A group that is only its members, its stored proposals and its staged commit. -/
structure Ledger where
  members : Dict ℕ Leaf
  pending : List QueuedProposal
  staged : Option Commit
  id : Bytes
  own : ℕ

/-! ### Messages -/

def chunk (bytes : Bytes) : Bytes := bytes.length :: bytes

def readChunk : Bytes → Option (Bytes × Bytes)
  | n :: rest => some (rest.take n, rest.drop n)
  | [] => none

def leafBytes (leaf : Leaf) : Bytes := chunk leaf.credential ++ chunk leaf.signatureKey

def readLeaf (bytes : Bytes) : Option (Leaf × Bytes) := do
  let (credential, bytes) ← readChunk bytes
  let (signatureKey, bytes) ← readChunk bytes
  return (⟨credential, signatureKey⟩, bytes)

/-- A proposal with its sender's position. -/
def proposalBytes (q : QueuedProposal) : Bytes :=
  (match q.sender with
    | .member i => i
    | .other => 0) ::
  match q.proposal with
  | .add leaf => 0 :: leafBytes leaf
  | .remove i => [1, i]
  | .update leaf => 2 :: leafBytes leaf
  | .other => [3]

def readProposal : Bytes → Option (QueuedProposal × Bytes)
  | i :: 0 :: rest => (readLeaf rest).map fun r => (⟨.member i, .add r.1⟩, r.2)
  | i :: 1 :: j :: rest => some (⟨.member i, .remove j⟩, rest)
  | i :: 2 :: rest => (readLeaf rest).map fun r => (⟨.member i, .update r.1⟩, r.2)
  | _ => none

def readProposals : ℕ → Bytes → Option (List QueuedProposal)
  | n + 1, b :: bytes => do
    let (q, rest) ← readProposal (b :: bytes)
    let qs ← readProposals n rest
    return q :: qs
  | _, _ => some []

def memberBytes (e : ℕ × Leaf) : Bytes := e.1 :: leafBytes e.2

def readMembers : ℕ → Bytes → Option (List (ℕ × Leaf))
  | n + 1, i :: bytes => do
    let (leaf, rest) ← readLeaf bytes
    let members ← readMembers n rest
    return (i, leaf) :: members
  | _, _ => some []

/-- The first number says what is sent: a commit with or without a path, an application
message or a proposal. -/
def commitBytes (c : Commit) : Bytes :=
  match c.path with
  | none => 0 :: c.committer :: c.proposals.flatMap proposalBytes
  | some leaf => 1 :: c.committer :: (leafBytes leaf ++ c.proposals.flatMap proposalBytes)

def readCommit : Bytes → Option Commit
  | 0 :: i :: rest => (readProposals rest.length rest).map (⟨i, none, ·⟩)
  | 1 :: i :: rest => do
    let (leaf, rest) ← readLeaf rest
    let proposals ← readProposals rest.length rest
    return ⟨i, some leaf, proposals⟩
  | _ => none

/-! ### Calls -/

/-- Positions above all members. -/
def Ledger.slots (g : Ledger) (n : ℕ) : List ℕ := List.range' (g.members.keys.sum + 1) n

def Ledger.merge (g : Ledger) (c : Commit) : Ledger :=
  { g with members := c.apply (g.slots c.adds.length) g.members, pending := [], staged := none }

/-- The commit of the stored proposals and the new ones, with a path of the own leaf. -/
def Ledger.commit (g : Ledger) (new : List Proposal) : Commit :=
  ⟨g.own, g.members.get? g.own, g.pending ++ new.map (⟨.member g.own, ·⟩)⟩

def Commit.valid (c : Commit) (members : Dict ℕ Leaf) : Bool :=
  decide (c.committer ∈ members ∧ c.committer ∉ c.removes) &&
    decide (c.removes.Nodup ∧ ∀ i ∈ c.removes, i ∈ members) &&
    c.updates.all fun e => decide (e.1 ∈ members)

/-- Stages a commit, if it is valid. -/
def Ledger.stage {α : Type} (new : List Proposal) (reply : Ledger → Commit → α) :
    Mutation (Option Leaf) Ledger α := fun p g =>
  if (g.commit new).valid g.members then
    ((p, { g with staged := some (g.commit new) }), some (reply g (g.commit new)))
  else ((p, g), none)

/-- The welcome of a commit: the group's id and the members after it. -/
def Ledger.welcome (g : Ledger) (c : Commit) : Bytes :=
  chunk g.id ++ (g.merge c).members.entries.flatMap memberBytes

/-- Who was welcomed knows its own leaf. -/
def Ledger.ofWelcome (own : Leaf) (bytes : Bytes) : Option Ledger := do
  let (id, rest) ← readChunk bytes
  let members ← readMembers rest.length rest
  let e ← members.find? fun e => e.2.signatureKey = own.signatureKey
  return ⟨Dict.ofList members, [], none, id, e.1⟩

/-- A message is attributed to the member at the position it names. -/
def Ledger.attribute (g : Ledger) (i : ℕ) (content : Content) : Option Processed :=
  (g.members.get? i).map fun leaf => ⟨.member i, leaf.credential, content⟩

/-- Nobody processes a commit of their own. -/
def Ledger.read (g : Ledger) : Bytes → Option Processed
  | 2 :: i :: text => g.attribute i (.application text)
  | 3 :: i :: rest => do
    let (q, _) ← readProposal (i :: rest)
    g.attribute i (.proposal ⟨.member i, q.proposal⟩)
  | bytes => do
    let c ← readCommit bytes
    if c.committer ≠ g.own ∧ c.valid g.members then g.attribute c.committer (.commit c) else none

def Ledger.propose : Mutation (Option Leaf) Ledger Bytes := fun p g =>
  match g.members.get? g.own with
  | none => ((p, g), none)
  | some leaf =>
    ((p, { g with pending := g.pending ++ [⟨.member g.own, .update leaf⟩] }),
      some (3 :: proposalBytes ⟨.member g.own, .update leaf⟩))

def Ledger.mergePending : Mutation (Option Leaf) Ledger Unit := fun p g =>
  match g.staged with
  | some c => ((p, g.merge c), some ())
  | none => ((p, g), none)

/-- A library without cryptography: messages are what they say. Its provider remembers the
leaf of the last key package. -/
def ledgerMls : OpenMls where
  Provider := Option Leaf
  Group := Ledger
  Message := Bytes
  serialize := some
  members := Ledger.members
  pendingProposals := Ledger.pending
  pendingCommit := Ledger.staged
  groupId := Ledger.id
  suite _ := true
  keyPackage _ leaf := (some leaf, some (leafBytes leaf))
  build p leaf gid := (p, some ⟨(∅ : Dict ℕ Leaf).set 0 leaf, [], none, gid, 0⟩)
  fromWelcome p bytes := (p, p.bind fun own => Ledger.ofWelcome own bytes)
  validate bytes := (readLeaf bytes).map Prod.fst
  addMembers leaf := Ledger.stage [.add leaf] fun g c => (commitBytes c, g.welcome c)
  removeMembers i := Ledger.stage [.remove i] fun _ c => commitBytes c
  selfUpdate := Ledger.stage [] fun _ c => commitBytes c
  proposeSelfUpdate := Ledger.propose
  commitToPendingProposals := Ledger.stage [] fun _ c => commitBytes c
  mergePendingCommit := Ledger.mergePending
  createMessage text := fun p g => ((p, g), some (2 :: g.own :: text))
  processMessage bytes := fun p g => ((p, g), g.read bytes)
  storePendingProposal q := fun p g => ((p, { g with pending := g.pending ++ [q] }), some ())
  mergeStagedCommit c := fun p g => ((p, g.merge c), some ())

/-- The ledger changes its members as the commit says. -/
theorem Ledger.merges {g : Ledger} {c : Commit} : c.Merges g.members (g.merge c).members := by
  refine ⟨g.slots c.adds.length, List.nodup_range', List.length_range', ?_, fun _ => rfl⟩
  intro i hi
  left
  intro hmem
  have hle : i ≤ g.members.keys.sum := List.single_le_sum (by simp) i hmem
  have hlt := (List.mem_range'_1.mp hi).1
  omega

/-- A commit that passes the check is valid. -/
theorem Commit.valid_of {c : Commit} {members : Dict ℕ Leaf} (h : c.valid members = true) :
    c.Valid members := by
  rw [Commit.valid, Bool.and_eq_true, Bool.and_eq_true, decide_eq_true_eq, decide_eq_true_eq,
    List.all_eq_true] at h
  exact ⟨h.1.1, h.1.2, fun e he => of_decide_eq_true (h.2 e he)⟩

/-- Every commit that is staged keeps the laws. -/
theorem Ledger.stages {α : Type} (new : List Proposal) (reply : Ledger → Commit → α) :
    Stages ledgerMls new (Ledger.stage new reply) := by
  intro p g
  by_cases hvalid : (g.commit new).valid g.members = true
  · have heq : Ledger.stage new reply p g = ((p, { g with staged := some (g.commit new) }),
        some (reply g (g.commit new))) := if_pos hvalid
    rw [heq]
    exact ⟨⟨rfl, rfl⟩, fun _ => ⟨g.commit new, g.pending, rfl, Commit.valid_of hvalid, rfl,
      List.Subset.refl _, fun leaf hleaf => ⟨leaf, hleaf, rfl⟩⟩⟩
  · have heq : Ledger.stage new reply p g = ((p, g), none) := if_neg hvalid
    rw [heq]
    exact ⟨⟨rfl, rfl⟩, fun h => by cases h⟩

/-- What the ledger attributes comes from the leaf at the index. -/
theorem Ledger.attribute_eq {g : Ledger} {i : ℕ} {content : Content} {processed : Processed}
    (h : g.attribute i content = some processed) :
    ∃ leaf, g.members.get? i = some leaf ∧ processed = ⟨.member i, leaf.credential, content⟩ := by
  obtain ⟨leaf, hleaf, rfl⟩ := Option.map_eq_some_iff.mp h
  exact ⟨leaf, hleaf, rfl⟩

/-- An attributed message is verified. -/
theorem Ledger.attribute_verified {g : Ledger} {i : ℕ} {content : Content} {processed : Processed}
    (h : g.attribute i content = some processed)
    (hproposal : ∀ q, content = .proposal q → q.sender = .member i)
    (hcommit : ∀ c, content = .commit c → i = c.committer ∧ c.Valid g.members) :
    Verified ledgerMls g processed := by
  obtain ⟨leaf, hleaf, rfl⟩ := Ledger.attribute_eq h
  refine ⟨fun j m hj hm => ?_, hproposal, fun c hc => ?_⟩
  · obtain rfl := Sender.member.inj hj
    rw [Option.some.inj (hleaf.symm.trans hm)]
  · obtain ⟨rfl, hvalid⟩ := hcommit c hc
    exact ⟨rfl, hvalid⟩

/-- Whatever the ledger reads is verified. -/
theorem Ledger.read_verified {g : Ledger} {bytes : Bytes} {processed : Processed}
    (h : g.read bytes = some processed) : Verified ledgerMls g processed := by
  unfold Ledger.read at h
  split at h
  · exact Ledger.attribute_verified h (fun _ hq => by cases hq) fun _ hc => by cases hc
  · obtain ⟨q, _, h⟩ := Option.bind_eq_some_iff.mp h
    refine Ledger.attribute_verified h (fun _ hq => ?_) fun _ hc => by cases hc
    obtain rfl := Content.proposal.inj hq
    rfl
  · obtain ⟨c, _, h⟩ := Option.bind_eq_some_iff.mp h
    split_ifs at h with hvalid
    refine Ledger.attribute_verified h (fun _ hq => by cases hq) fun _ hc => ?_
    obtain rfl := Content.commit.inj hc
    exact ⟨rfl, Commit.valid_of hvalid.2⟩

/-- The ledger behaves as the session expects of OpenMLS. -/
theorem ledgerMls_lawful : ledgerMls.Lawful where
  build := by
    intro p leaf gid g hg
    obtain rfl := Option.some.inj hg
    refine ⟨⟨0, fun j => ?_⟩, rfl⟩
    change ((∅ : Dict ℕ Leaf).set 0 leaf).get? j = _
    rw [Dict.get?_set, Dict.get?_empty]
  welcome := by
    intro p bytes g hg
    obtain ⟨own, _, hg⟩ := Option.bind_eq_some_iff.mp hg
    obtain ⟨_, _, hg⟩ := Option.bind_eq_some_iff.mp hg
    obtain ⟨_, _, hg⟩ := Option.bind_eq_some_iff.mp hg
    obtain ⟨_, _, hg⟩ := Option.bind_eq_some_iff.mp hg
    obtain rfl := Option.some.inj hg
    rfl
  addMembers := fun _ => Ledger.stages _ _
  removeMembers := fun _ => Ledger.stages _ _
  selfUpdate := Ledger.stages _ _
  commitToPendingProposals := Ledger.stages _ _
  -- the staged commit is the one merged
  mergePendingCommit := by
    intro p g c hc _
    have hstaged : g.staged = some c := hc
    have heq : ledgerMls.mergePendingCommit p g = ((p, g.merge c), some ()) := by
      simp only [ledgerMls, Ledger.mergePending, hstaged]
    rw [heq]
    exact Or.inl ⟨Ledger.merges, rfl⟩
  mergeStagedCommit := fun _ _ _ _ => Or.inl ⟨Ledger.merges, rfl⟩
  -- a member without a leaf proposes nothing
  proposeSelfUpdate := by
    intro p g
    change (Ledger.propose p g).1.2.members = g.members ∧
      ∀ q ∈ (Ledger.propose p g).1.2.pending, q ∈ g.pending ∨ _
    unfold Ledger.propose
    cases hown : g.members.get? g.own with
    | none => exact ⟨rfl, fun _ hq => Or.inl hq⟩
    | some leaf =>
        refine ⟨rfl, fun q hq => ?_⟩
        rcases List.mem_append.mp hq with hq | hq
        · exact Or.inl hq
        · exact Or.inr ⟨g.own, leaf, leaf, hown, rfl, List.mem_singleton.mp hq⟩
  createMessage := fun _ _ _ => ⟨rfl, rfl⟩
  processMessage := fun _ _ _ => ⟨⟨rfl, rfl⟩, fun _ h => Ledger.read_verified h⟩
  storePendingProposal := by
    refine fun q p g => ⟨rfl, fun q' hq' => ?_⟩
    rcases List.mem_append.mp hq' with hq' | hq'
    · exact Or.inr hq'
    · exact Or.inl (List.mem_singleton.mp hq')

/-! ### Three members -/

def exampleId (user participation : String) : Identity := ⟨"c", "s", user, participation⟩

def exampleSession (user participation : String) (n : ℕ) : Session ledgerMls :=
  ⟨none, plainKey n, exampleId user participation, "p0", none⟩

/-- The server's roster, with all three users. -/
def exampleRoster : String :=
  String.ofList (([("ann", "p0", 1), ("ben", "p1", 2), ("cy", "p2", 3)].flatMap fun e =>
    identityText (exampleId e.1 e.2.1) ++ [e.2.2]).map Char.ofNat)

/-- The answer of a method that succeeds. -/
def answer {α : Type} [Inhabited α] (r : Except Unit α × Session ledgerMls) : α :=
  r.1.toOption.getD default

def packageOf (s : Session ledgerMls) : String := answer ((keyPackage plainSerde).exec s)

/-- The host creates the group and adds Ben, then Cy. -/
def hostCreates : Session ledgerMls := (exampleSession "ann" "p0" 1).call plainSerde .create

def addBen : Call := .add (packageOf (exampleSession "ben" "p1" 2)) "p1" exampleRoster

def addCy : Call := .add (packageOf (exampleSession "cy" "p2" 3)) "p2" exampleRoster

/-- The packets of an addition: the commit and the welcome. -/
def packets (s : Session ledgerMls) : Call → String × String
  | .add kp expected bindings => answer ((add plainSerde kp expected bindings).exec s)
  | _ => default

/-- Ben joins by the welcome and processes the commit that adds Cy. -/
def benJoins : Call := .join (packets hostCreates addBen).2 exampleRoster

def benProcesses : Call :=
  .process (packets (hostCreates.call plainSerde addBen) addCy).1 "p0" exampleRoster

def hostAfter : Session ledgerMls := (hostCreates.call plainSerde addBen).call plainSerde addCy

def benAfter : Session ledgerMls :=
  (((exampleSession "ben" "p1" 2).call plainSerde .keyPackage).call plainSerde benJoins).call
    plainSerde benProcesses

/-- After the host has added two users, and after one of them has joined and processed the
commit that added the other, both sessions hold a group of three. -/
theorem session_membership_added :
    (∃ g, hostAfter.group = some g ∧ (ledgerMls.members g).keys = [0, 1, 2] ∧
      Membership plainSerde hostAfter.id hostAfter.host (ledgerMls.members g)) ∧
    ∃ g, benAfter.group = some g ∧ (ledgerMls.members g).keys = [0, 1, 2] ∧
      Membership plainSerde benAfter.id benAfter.host (ledgerMls.members g) := by
  have hkeys : hostAfter.group.map (fun g => g.members.keys) = some [0, 1, 2] ∧
      benAfter.group.map (fun g => g.members.keys) = some [0, 1, 2] := by decide +kernel
  obtain ⟨g, hg, hhost⟩ := Option.map_eq_some_iff.mp hkeys.1
  obtain ⟨g', hg', hben⟩ := Option.map_eq_some_iff.mp hkeys.2
  have hrun :
    Transition.Reachable Made (fun call s s' => s' = Session.call plainSerde s call) hostAfter :=
    .next (a := addCy) (.next (a := addBen) (.next (a := .create)
      (.start ⟨none, _, exampleId "ann" "p0", "p0", rfl⟩) rfl) rfl) rfl
  have hrun' :
    Transition.Reachable Made (fun call s s' => s' = Session.call plainSerde s call) benAfter :=
    .next (a := benProcesses) (.next (a := benJoins) (.next (a := .keyPackage)
      (.start ⟨none, _, exampleId "ben" "p1", "p0", rfl⟩) rfl) rfl) rfl
  exact ⟨⟨g, hg, hhost, session_membership plainSerde ledgerMls plainSerde_lawful
      ledgerMls_lawful _ hrun g hg⟩, g', hg', hben, session_membership plainSerde ledgerMls
      plainSerde_lawful ledgerMls_lawful _ hrun' g' hg'⟩

end OpenWebUI.Crypto
