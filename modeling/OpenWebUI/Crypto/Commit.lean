import OpenWebUI.Crypto.Session

/-! # Commits and the member set

What merging a commit does to a group's members, and when it keeps them in order: the
host stays, every identity is of the session, no user is in the group twice and there
are at most 128 members.
-/

namespace OpenWebUI.Crypto

open Py Program

/-- The members after a commit: updates, then removals, then additions, then the
committer's path. The added leaves take the slots. -/
def Commit.apply (c : Commit) (slots : List ℕ) (members : Dict ℕ Leaf) :
    Dict ℕ Leaf :=
  let updated := c.updates.foldl (fun ms e => ms.set e.1 e.2) members
  let removed := c.removes.foldl Dict.erase updated
  let added := (slots.zip c.adds).foldl (fun ms e => ms.set e.1 e.2) removed
  match c.path with
  | none => added
  | some leaf => added.set c.committer leaf

/-- A commit that OpenMLS has validated: its committer stays, every removed or updated leaf
is a member and is removed once. -/
structure Commit.Valid (c : Commit) (members : Dict ℕ Leaf) : Prop where
  committer : c.committer ∈ members ∧ c.committer ∉ c.removes
  removes : c.removes.Nodup ∧ ∀ i ∈ c.removes, i ∈ members
  updates : ∀ e ∈ c.updates, e.1 ∈ members

/-- `members'` are the members after the commit; the added leaves are at blank positions. -/
def Commit.Merges (c : Commit) (members members' : Dict ℕ Leaf) : Prop :=
  ∃ slots : List ℕ, slots.Nodup ∧ slots.length = c.adds.length ∧
    (∀ i ∈ slots, i ∉ members ∨ i ∈ c.removes) ∧
    ∀ i, members'.get? i = (c.apply slots members).get? i

section Apply

variable {c : Commit} {slots : List ℕ} {members : Dict ℕ Leaf}

/-- Where a leaf of the new group comes from: the path, an addition, an update or before. -/
theorem apply_origin {i : ℕ} {leaf : Leaf}
    (h : (c.apply slots members).get? i = some leaf) :
    (i = c.committer ∧ c.path = some leaf) ∨ (i, leaf) ∈ slots.zip c.adds ∨
      i ∉ c.removes ∧ ((i, leaf) ∈ c.updates ∨ members.get? i = some leaf) := by
  have hadded : ∀ {i leaf}, ((slots.zip c.adds).foldl (fun ms e => ms.set e.1 e.2)
      (c.removes.foldl Dict.erase
        (c.updates.foldl (fun ms e => ms.set e.1 e.2) members))).get? i = some leaf →
      (i, leaf) ∈ slots.zip c.adds ∨
        i ∉ c.removes ∧ ((i, leaf) ∈ c.updates ∨ members.get? i = some leaf) := by
    intro i leaf hleaf
    rcases (Dict.foldl_set_spec _ _ i).1 leaf hleaf with hadd | ⟨_, hremoved⟩
    · exact Or.inl hadd
    · rw [Dict.get?_foldl_erase] at hremoved
      split_ifs at hremoved with hi
      rcases (Dict.foldl_set_spec _ _ i).1 leaf hremoved with hupdate | ⟨_, hold⟩
      · exact Or.inr ⟨hi, Or.inl hupdate⟩
      · exact Or.inr ⟨hi, Or.inr hold⟩
  unfold Commit.apply at h
  dsimp only at h
  cases hpath : c.path with
  | none =>
      rw [hpath] at h
      exact Or.inr (hadded h)
  | some path =>
      rw [hpath, Dict.get?_set] at h
      split_ifs at h with hi
      · exact Or.inl ⟨hi, h⟩
      · exact Or.inr (hadded h)

/-- A member that is not removed stays. -/
theorem apply_keeps {i : ℕ} (hi : i ∈ members) (hremoved : i ∉ c.removes) :
    i ∈ c.apply slots members := by
  have hadded : i ∈ (slots.zip c.adds).foldl (fun ms e => ms.set e.1 e.2)
      (c.removes.foldl Dict.erase (c.updates.foldl (fun ms e => ms.set e.1 e.2) members)) := by
    refine (Dict.foldl_set_spec _ _ i).2 (Or.inr ?_)
    rw [Dict.mem_iff, Dict.get?_foldl_erase, if_neg hremoved, ← Dict.mem_iff]
    exact (Dict.foldl_set_spec _ _ i).2 (Or.inr hi)
  unfold Commit.apply
  dsimp only
  cases c.path with
  | none => exact hadded
  | some leaf =>
      rw [Dict.mem_iff, Dict.get?_set]
      split_ifs
      · rfl
      · rwa [← Dict.mem_iff]

end Apply

/-! ## Membership -/

section Membership

variable (S : Serde)

/-- The identity of the member at a leaf. -/
def identityAt (members : Dict ℕ Leaf) (i : ℕ) : Option Identity :=
  (members.get? i).bind fun leaf => S.identity leaf.credential

/-- The identity at an index is the one of its leaf. -/
theorem identityAt_of_get? {members : Dict ℕ Leaf} {i : ℕ} {leaf : Leaf}
    (h : members.get? i = some leaf) : identityAt S members i = S.identity leaf.credential := by
  rw [identityAt, h, Option.bind_some]

/-- The members are in order. -/
structure Membership (id : Identity) (host : String) (members : Dict ℕ Leaf) : Prop where
  host : ∃ i x, identityAt S members i = some x ∧ x.participation = host
  ids : ∀ i ∈ members, ∃ x, identityAt S members i = some x ∧ x.channel = id.channel ∧
    x.session = id.session
  users : ∀ i j x y, identityAt S members i = some x → identityAt S members j = some y →
    x.user = y.user → i = j
  size : members.size ≤ 128

/-- The checks a session makes, or that hold of its own commits: identities are kept, added
users are new and of this session, and the host is not removed. -/
structure Commit.Safe (c : Commit) (id : Identity) (host : String)
    (members : Dict ℕ Leaf) : Prop where
  path : ∀ leaf ∈ c.path, S.identity leaf.credential = identityAt S members c.committer
  updates : ∀ e ∈ c.updates, S.identity e.2.credential = identityAt S members e.1
  adds : ∀ leaf ∈ c.adds, ∃ x, S.identity leaf.credential = some x ∧ x.channel = id.channel ∧
    x.session = id.session ∧ ∀ i y, identityAt S members i = some y → y.user ≠ x.user
  distinct : (c.adds.map fun leaf => (S.identity leaf.credential).map Identity.user).Nodup
  removes : ∀ i ∈ c.removes, ∀ x, identityAt S members i = some x → x.participation ≠ host
  size : members.size + c.adds.length - c.removes.length ≤ 128

variable {S} {id : Identity} {host : String} {c : Commit}
  {members members' : Dict ℕ Leaf}

/-- Every member after a safe commit is either an added leaf or keeps its identity. -/
theorem merged_origin (hvalid : c.Valid members)
    (hsafe : c.Safe S id host members) {slots : List ℕ} {i : ℕ} {leaf : Leaf}
    (h : (c.apply slots members).get? i = some leaf) :
    (i, leaf) ∈ slots.zip c.adds ∨
      i ∈ members ∧ i ∉ c.removes ∧ S.identity leaf.credential = identityAt S members i := by
  rcases apply_origin h with ⟨rfl, hpath⟩ | hadd | ⟨hremoved, hupdate | hold⟩
  · exact Or.inr ⟨hvalid.committer.1, hvalid.committer.2, hsafe.path leaf hpath⟩
  · exact Or.inl hadd
  · exact Or.inr ⟨hvalid.updates _ hupdate, hremoved, hsafe.updates _ hupdate⟩
  · exact Or.inr ⟨Dict.mem_of_get? hold, hremoved, (identityAt_of_get? S hold).symm⟩

/-- The members after the commit number at most the old ones, less the removed, plus the
added. -/
theorem merged_size (hvalid : c.Valid members)
    (hsafe : c.Safe S id host members) {slots : List ℕ}
    (hlen : slots.length = c.adds.length)
    (heq : ∀ i, members'.get? i = (c.apply slots members).get? i) :
    members'.size ≤ members.size + c.adds.length - c.removes.length := by
  let kept := members.keys.filter fun i => i ∉ c.removes
  have hkeys : ∀ i, i ∈ members ↔ i ∈ members.keys := fun i => Iff.rfl
  have hsub : members'.keys ⊆ kept ++ slots := by
    intro i hi
    obtain ⟨leaf, hleaf⟩ := (Dict.mem_iff_exists _ _).mp hi
    rw [heq] at hleaf
    rcases merged_origin hvalid hsafe hleaf with hadd | ⟨hmem, hremoved, _⟩
    · exact List.mem_append_right _ (List.of_mem_zip hadd).1
    · exact List.mem_append_left _ (List.mem_filter.mpr ⟨hmem, by simpa using hremoved⟩)
  have hle := (List.subperm_of_subset members'.nodup_keys hsub).length_le
  -- the removed leaves are distinct members, so they are all of the others
  have hremoved : c.removes.length ≤ (members.keys.filter fun i => i ∈ c.removes).length := by
    refine (List.subperm_of_subset hvalid.removes.1 ?_).length_le
    intro i hi
    exact List.mem_filter.mpr ⟨hvalid.removes.2 i hi, by simpa using hi⟩
  have hsplit := List.length_eq_length_filter_add (l := members.keys) fun i =>
    decide (i ∈ c.removes)
  have hkept : kept = members.keys.filter fun i => !decide (i ∈ c.removes) := by
    simp only [kept, decide_not]
  rw [List.length_append, hkept] at hle
  rw [Dict.size_eq_keys, Dict.size_eq_keys]
  have hdef : Assoc.keys members'.entries = members'.keys := rfl
  rw [hdef] at hle
  omega

/-- Two entries of a zip whose second components are told apart by `f`. -/
theorem eq_of_mem_zip {α β γ : Type} {f : β → γ} {l : List α} {m : List β} (hm : (m.map f).Nodup)
    {i j : α} {a b : β} (hi : (i, a) ∈ l.zip m) (hj : (j, b) ∈ l.zip m) (h : f a = f b) :
    i = j := by
  induction l generalizing m with
  | nil => cases hi
  | cons x l ih =>
      cases m with
      | nil => cases hi
      | cons y m =>
          rw [List.map_cons, List.nodup_cons] at hm
          rw [List.zip_cons_cons, List.mem_cons, Prod.mk.injEq] at hi hj
          have hnot : ∀ {k : α} {d : β}, (k, d) ∈ l.zip m → f y ≠ f d := by
            intro k d hk heq
            exact hm.1 (heq ▸ List.mem_map_of_mem (List.of_mem_zip hk).2)
          rcases hi with ⟨rfl, rfl⟩ | hi
          · rcases hj with ⟨rfl, rfl⟩ | hj
            · rfl
            · exact absurd h (hnot hj)
          · rcases hj with ⟨rfl, rfl⟩ | hj
            · exact absurd h.symm (hnot hi)
            · exact ih hm.2 hi hj

/-- A safe commit keeps the members in order. -/
theorem Membership.merged (h : Membership S id host members) (hvalid : c.Valid members)
    (hsafe : c.Safe S id host members) (hmerged : c.Merges members members') :
    Membership S id host members' := by
  obtain ⟨slots, hnodup, hlen, hblank, heq⟩ := hmerged
  have horigin : ∀ {i leaf}, members'.get? i = some leaf → (i, leaf) ∈ slots.zip c.adds ∨
      i ∈ members ∧ i ∉ c.removes ∧ identityAt S members' i = identityAt S members i := by
    intro i leaf hleaf
    rcases merged_origin hvalid hsafe (heq i ▸ hleaf) with hadd | ⟨hmem, hremoved, hid⟩
    · exact Or.inl hadd
    · exact Or.inr ⟨hmem, hremoved, (identityAt_of_get? S hleaf).trans hid⟩
  -- an added leaf is at a position of its own
  have hslot : ∀ {i leaf}, (i, leaf) ∈ slots.zip c.adds → i ∈ members → i ∈ c.removes := by
    intro i leaf hadd hmem
    exact (hblank i (List.of_mem_zip hadd).1).resolve_left fun hnot => hnot hmem
  have hsome : ∀ {i x}, identityAt S members' i = some x →
      ∃ leaf, members'.get? i = some leaf ∧ S.identity leaf.credential = some x := by
    intro i x hx
    exact Option.bind_eq_some_iff.mp hx
  refine ⟨?_, ?_, ?_, Nat.le_trans (merged_size hvalid hsafe hlen heq) hsafe.size⟩
  · obtain ⟨i, x, hx, hhost⟩ := h.host
    obtain ⟨leaf, hleaf, _⟩ := Option.bind_eq_some_iff.mp hx
    have hmem := Dict.mem_of_get? hleaf
    have hremoved : i ∉ c.removes := fun hi => hsafe.removes i hi x hx hhost
    have hstays : i ∈ c.apply slots members := apply_keeps hmem hremoved
    obtain ⟨leaf', hleaf'⟩ := (Dict.mem_iff_exists _ _).mp hstays
    rw [← heq] at hleaf'
    rcases horigin hleaf' with hadd | ⟨_, _, hid⟩
    · exact absurd (hslot hadd hmem) hremoved
    · exact ⟨i, x, hid.trans hx, hhost⟩
  · intro i hi
    obtain ⟨leaf, hleaf⟩ := (Dict.mem_iff_exists _ _).mp hi
    rcases horigin hleaf with hadd | ⟨hmem, _, hid⟩
    · obtain ⟨x, hx, hchannel, hsession, _⟩ := hsafe.adds leaf (List.of_mem_zip hadd).2
      exact ⟨x, (identityAt_of_get? S hleaf).trans hx, hchannel, hsession⟩
    · rw [hid]
      exact h.ids i hmem
  · intro i j x y hx hy huser
    obtain ⟨leaf, hleaf, hxleaf⟩ := hsome hx
    obtain ⟨leaf', hleaf', hyleaf⟩ := hsome hy
    rcases horigin hleaf with hadd | ⟨_, _, hid⟩
    · obtain ⟨x', hx', _, _, hnew⟩ := hsafe.adds leaf (List.of_mem_zip hadd).2
      rw [hxleaf, Option.some.injEq] at hx'
      subst hx'
      rcases horigin hleaf' with hadd' | ⟨_, _, hid'⟩
      · have hsame : (S.identity leaf.credential).map Identity.user =
            (S.identity leaf'.credential).map Identity.user := by
          rw [hxleaf, hyleaf, Option.map_some, Option.map_some, huser]
        exact eq_of_mem_zip hsafe.distinct hadd hadd' hsame
      · exact absurd huser.symm (hnew j y (hid' ▸ hy))
    · rcases horigin hleaf' with hadd' | ⟨_, _, hid'⟩
      · obtain ⟨y', hy', _, _, hnew⟩ := hsafe.adds leaf' (List.of_mem_zip hadd').2
        rw [hyleaf, Option.some.injEq] at hy'
        subst hy'
        exact absurd huser (hnew i x (hid ▸ hx))
      · exact h.users i j x y (hid ▸ hx) (hid' ▸ hy) huser

/-! ## The session's checks -/

/-- A leaf that passes is in the roster, and of this channel and session. -/
theorem check_spec {leaf : Leaf} {context x : Identity} {roster : List Binding}
    (h : check S leaf context roster = some x) : S.identity leaf.credential = some x ∧
      x.channel = context.channel ∧ x.session = context.session ∧
      ∃ b ∈ roster, b.identity = x := by
  unfold check at h
  simp only [Option.bind_eq_bind, Option.bind_eq_some_iff, guard_eq_some_iff, Option.pure_def,
    Option.some.injEq, exists_const] at h
  obtain ⟨x', hx, ⟨hchannel, hsession⟩, hroster, rfl⟩ := h
  obtain ⟨b, hb, heq⟩ := List.any_eq_true.mp hroster
  exact ⟨hx, hchannel, hsession, b, hb, (of_decide_eq_true heq).1⟩

/-- A roster has at most 128 entries. -/
theorem readRoster_spec {value : String} {context : Identity} {roster : List Binding}
    (h : readRoster S value context = some roster) : roster.length ≤ 128 := by
  unfold readRoster at h
  simp only [Option.bind_eq_bind, Option.bind_eq_some_iff, guard_eq_some_iff, Option.pure_def,
    Option.some.injEq, exists_const] at h
  obtain ⟨r, _, ⟨_, hle⟩, _, _, rfl⟩ := h
  exact hle

/-- Where no leaf is the user's, nobody in the group is. -/
theorem hasUser_spec {user : String} (h : ¬ hasUser S members user) {i : ℕ} {y : Identity}
    (hy : identityAt S members i = some y) : y.user ≠ user := by
  intro heq
  obtain ⟨leaf, hleaf, hid⟩ := Option.bind_eq_some_iff.mp hy
  refine h (List.any_eq_true.mpr ⟨(i, leaf), (Dict.mem_entries_iff _ _ _).mpr hleaf, ?_⟩)
  simp only [hid, Option.any_some, decide_eq_true_eq]
  exact heq

/-- The index found belongs to the participation. -/
theorem indexOf_spec {participation : String} {i : ℕ} (h : indexOf S members participation = some i)
    {x : Identity} (hx : identityAt S members i = some x) : x.participation = participation := by
  obtain ⟨e, he, rfl⟩ := Option.map_eq_some_iff.mp h
  have hmem := (Dict.mem_entries_iff _ _ _).mp (List.mem_of_find?_eq_some he)
  have hid := List.find?_some he
  rw [identityAt_of_get? S hmem] at hx
  rw [hx, Option.any_some] at hid
  exact of_decide_eq_true hid

/-- What the checks of a commit's proposals establish. -/
theorem checkProposals_spec {context : Identity} {roster : List Binding} (l : List QueuedProposal)
    {added added' : List String}
    (h : l.foldlM (checkProposal S context roster host members) added = some added') :
    (∀ e ∈ l.filterMap QueuedProposal.updated,
      S.identity e.2.credential = identityAt S members e.1) ∧
    (∀ leaf ∈ l.filterMap fun q => q.proposal.added, ∃ x, S.identity leaf.credential = some x ∧
      x.channel = context.channel ∧ x.session = context.session ∧ x.user ∉ added ∧
      ∀ i y, identityAt S members i = some y → y.user ≠ x.user) ∧
    ((l.filterMap fun q => q.proposal.added).map fun leaf =>
      (S.identity leaf.credential).map Identity.user).Nodup ∧
    ∀ i ∈ l.filterMap fun q => q.proposal.removed, ∀ x, identityAt S members i = some x →
      x.participation ≠ host := by
  induction l generalizing added with
  | nil => simp
  | cons q l ih =>
      rw [List.foldlM_cons, Option.bind_eq_bind, Option.bind_eq_some_iff] at h
      obtain ⟨added₁, hq, hl⟩ := h
      obtain ⟨hupdates, hadds, hdistinct, hremoves⟩ := ih hl
      obtain ⟨sender, proposal⟩ := q
      cases proposal with
      -- an addition: the user is not in the group and not among those added so far
      | add leaf =>
          simp only [checkProposal, Option.bind_eq_bind, Option.bind_eq_some_iff, guard_eq_some_iff,
            Option.pure_def, Option.some.injEq, exists_const] at hq
          obtain ⟨x, hx, ⟨hnew, huser⟩, rfl⟩ := hq
          obtain ⟨hid, hchannel, hsession, _⟩ := check_spec hx
          refine ⟨?_, ?_, ?_, ?_⟩
          · rw [List.filterMap_cons_none rfl]
            exact hupdates
          · rw [List.filterMap_cons_some (by rfl)]
            intro leaf' hleaf'
            rcases List.mem_cons.mp hleaf' with rfl | hleaf'
            · exact ⟨x, hid, hchannel, hsession, hnew, fun i y hy => hasUser_spec huser hy⟩
            · obtain ⟨y, hy, h1, h2, hnot, hother⟩ := hadds leaf' hleaf'
              exact ⟨y, hy, h1, h2, fun hmem => hnot (List.mem_cons_of_mem _ hmem), hother⟩
          · rw [List.filterMap_cons_some (by rfl), List.map_cons, List.nodup_cons]
            refine ⟨?_, hdistinct⟩
            intro hmem
            obtain ⟨leaf', hleaf', heq⟩ := List.mem_map.mp hmem
            obtain ⟨y, hy, _, _, hnot, _⟩ := hadds leaf' hleaf'
            rw [hy, hid, Option.map_some, Option.map_some, Option.some.injEq] at heq
            exact hnot (heq ▸ List.mem_cons_self)
          · rw [List.filterMap_cons_none rfl]
            exact hremoves
      -- a removal: not of the host
      | remove i =>
          simp only [checkProposal, Option.bind_eq_bind, Option.bind_eq_some_iff, guard_eq_some_iff,
            Option.pure_def, Option.some.injEq, exists_const] at hq
          obtain ⟨leaf, hleaf, x, hx, ⟨hhost, _⟩, rfl⟩ := hq
          refine ⟨?_, ?_, ?_, ?_⟩
          · rw [List.filterMap_cons_none rfl]
            exact hupdates
          · rw [List.filterMap_cons_none rfl]
            exact hadds
          · rw [List.filterMap_cons_none rfl]
            exact hdistinct
          · rw [List.filterMap_cons_some (by rfl)]
            intro j hj y hy
            rcases List.mem_cons.mp hj with rfl | hj
            · rw [identityAt_of_get? S hleaf, hx, Option.some.injEq] at hy
              exact hy ▸ hhost
            · exact hremoves j hj y hy
      -- an update: the sender is the member whose leaf it is
      | update leaf =>
          cases sender with
          | other => cases hq
          | member i =>
              simp only [checkProposal, Option.bind_eq_bind, Option.bind_eq_some_iff,
                guard_eq_some_iff, Option.pure_def, Option.some.injEq, exists_const] at hq
              obtain ⟨old, hold, x, hx, y, hy, rfl, rfl⟩ := hq
              refine ⟨?_, ?_, ?_, ?_⟩
              · rw [List.filterMap_cons_some (by rfl)]
                intro e he
                rcases List.mem_cons.mp he with rfl | he
                · exact (check_spec hx).1.trans (identityAt_of_get? S hold ▸ hy.symm)
                · exact hupdates e he
              · rw [List.filterMap_cons_none rfl]
                exact hadds
              · rw [List.filterMap_cons_none rfl]
                exact hdistinct
              · rw [List.filterMap_cons_none rfl]
                exact hremoves
      | other => cases hq

end Membership

end OpenWebUI.Crypto
