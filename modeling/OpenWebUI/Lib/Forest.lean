import Mathlib.Logic.Relation
import Mathlib.Order.WellFoundedSet
import Mathlib.Data.List.Perm.Subperm

/-! # Forests given by parent links

A forest over `κ` is a partial function `parent`. It is acyclic when no node is
its own proper ancestor. The lemmas say which edits of the links keep it so.
-/

namespace Forest

variable {κ : Type*}

/-- `Up parent c p`: the parent of `c` is `p`. -/
def Up (parent : κ → Option κ) (c p : κ) : Prop := parent c = some p

/-- No node is its own proper ancestor. -/
def Acyclic (parent : κ → Option κ) : Prop := ∀ x, ¬ Relation.TransGen (Up parent) x x

variable {parent parent' : κ → Option κ}

/-- Links that only shortcut existing ancestor chains close no cycle. -/
theorem Acyclic.of_shortcut (h : Acyclic parent)
    (hsub : ∀ c p, parent' c = some p → Relation.TransGen (Up parent) c p) : Acyclic parent' := by
  intro x hx
  have hlift : ∀ {a b}, Relation.TransGen (Up parent') a b → Relation.TransGen (Up parent) a b := by
    intro a b hab
    induction hab with
    | single h1 => exact hsub _ _ h1
    | tail _ h1 ih => exact ih.trans (hsub _ _ h1)
  exact h x (hlift hx)

/-- Links that lower a rank have no cycle. -/
theorem Acyclic.of_rank (rank : κ → ℕ) (h : ∀ c p, parent c = some p → rank p < rank c) :
    Acyclic parent := by
  have hlt : ∀ a b, Relation.TransGen (Up parent) a b → rank b < rank a := by
    intro a b hab
    induction hab with
    | single hlink => exact h _ _ hlink
    | tail _ hlink ih => exact (h _ _ hlink).trans ih
  exact fun x hx => absurd (hlt x x hx) (lt_irrefl _)

/-- Dropping links keeps a forest acyclic. -/
theorem Acyclic.mono (h : Acyclic parent) (hsub : ∀ c p, parent' c = some p → parent c = some p) :
    Acyclic parent' :=
  h.of_shortcut fun c p hcp => .single (hsub c p hcp)

/-- Nodes that are nobody's parent may hang anywhere else. -/
theorem Acyclic.add_leaves {S : Set κ} (h : Acyclic parent)
    (hleaf : ∀ c, ∀ x ∈ S, parent' c ≠ some x) (hold : ∀ c, c ∉ S → parent' c = parent c) :
    Acyclic parent' := by
  intro y hy
  -- every step of a cycle ends in some node's parent, so no leaf is on it
  have hne : ∀ {a b}, Relation.TransGen (Up parent') a b → b ∉ S := by
    intro a b hab
    induction hab with
    | single h1 => exact fun hb => hleaf _ _ hb h1
    | tail _ h1 _ => exact fun hb => hleaf _ _ hb h1
  have hlift : ∀ {a b}, a ∉ S → Relation.TransGen (Up parent') a b →
      Relation.TransGen (Up parent) a b := by
    intro a b ha hab
    induction hab with
    | single h1 => exact .single (by rw [Up, ← hold _ ha]; exact h1)
    | tail hab h1 ih => exact ih.tail (by rw [Up, ← hold _ (hne hab)]; exact h1)
  exact h y (hlift (hne hy) hy)

/-- A node that is nobody's parent may hang anywhere else. -/
theorem Acyclic.add_leaf {x : κ} (h : Acyclic parent) (hleaf : ∀ c, parent' c ≠ some x)
    (hold : ∀ c, c ≠ x → parent' c = parent c) : Acyclic parent' :=
  h.add_leaves (S := {x}) (fun c _ hx => hx ▸ hleaf c) hold

/-- A node may hang from any node that is not below it. -/
theorem Acyclic.relink {x p : κ} (h : Acyclic parent)
    (hfree : ¬ Relation.ReflTransGen (Up parent) p x) (hx : ∀ q, parent' x = some q → q = p)
    (hold : ∀ c, c ≠ x → parent' c = parent c) :
    Acyclic parent' := by
  intro y hy
  -- a chain keeps to the old links, or passes through the new one once
  have hsplit : ∀ {a b}, Relation.TransGen (Up parent') a b → Relation.TransGen (Up parent) a b ∨
      Relation.ReflTransGen (Up parent) a x ∧ Relation.ReflTransGen (Up parent) p b := by
    intro a b hab
    induction hab with
    | @single b h1 =>
        by_cases hax : a = x
        · subst hax
          obtain rfl := hx b h1
          exact .inr ⟨.refl, .refl⟩
        · exact .inl (.single (by rw [Up, ← hold _ hax]; exact h1))
    | @tail b c _ h1 ih =>
        by_cases hbx : b = x
        · subst hbx
          obtain rfl := hx c h1
          rcases ih with hab | ⟨-, hpb⟩
          · exact .inr ⟨hab.to_reflTransGen, .refl⟩
          · exact absurd hpb hfree
        · have h2 : Up parent b c := by rw [Up, ← hold _ hbx]; exact h1
          rcases ih with hab | ⟨hax, hpb⟩
          · exact .inl (hab.tail h2)
          · exact .inr ⟨hax, hpb.tail h2⟩
  rcases hsplit hy with hyy | ⟨hyx, hpy⟩
  · exact h y hyy
  · exact hfree (hpy.trans hyx)

/-- Nothing is its own parent. -/
theorem Acyclic.ne_parent (h : Acyclic parent) {c p : κ} (hp : parent c = some p) : c ≠ p := by
  rintro rfl
  exact h c (.single hp)

/-- Two nodes are not each other's proper ancestors. -/
theorem Acyclic.asymm (h : Acyclic parent) {a b : κ} (hab : Relation.TransGen (Up parent) a b) :
    ¬ Relation.TransGen (Up parent) b a :=
  fun hba => h a (hab.trans hba)

/-- Induction from the roots down, when only finitely many nodes are parents. -/
theorem Acyclic.induction (h : Acyclic parent) {S : Set κ} (hfin : S.Finite)
    (hclosed : ∀ c p, parent c = some p → p ∈ S) {P : κ → Prop}
    (hstep : ∀ x, (∀ p, parent x = some p → P p) → P x) (x : κ) : P x := by
  -- descend along the proper-ancestor order, which is strict
  let r : κ → κ → Prop := fun a b => Relation.TransGen (Up parent) b a
  have : IsStrictOrder κ r :=
    { irrefl := h
      trans := fun _ _ _ hab hbc => hbc.trans hab }
  have hwf : S.WellFoundedOn r := hfin.wellFoundedOn
  refine hstep x fun p hp => ?_
  refine @Set.WellFoundedOn.induction κ r S p hwf (hclosed x p hp) P fun y hy ih => ?_
  exact hstep y fun q hq => ih q (hclosed y q hq) (.single hq)

/-- A finite nonempty set closed under parents contains a root. -/
theorem Acyclic.exists_root (h : Acyclic parent) (S : Set κ) (hfin : S.Finite) (hne : S.Nonempty)
    (hclosed : ∀ c p, parent c = some p → p ∈ S) : ∃ x ∈ S, parent x = none := by
  obtain ⟨x, hx⟩ := hne
  revert hx
  refine h.induction (P := fun x => x ∈ S → ∃ y ∈ S, parent y = none) hfin hclosed
    (fun y ih hy => ?_) x
  cases hp : parent y with
  | none => exact ⟨y, hy, hp⟩
  | some p => exact ih p hp (hclosed y p hp)

/-! ## Walks down

A walk that acts on a node and then on everything below it, child by child.
-/

/-- Induction from the leaves up, when only finitely many nodes have a parent. -/
theorem Acyclic.induction_below (h : Acyclic parent) (hfin : {c | parent c ≠ none}.Finite)
    {P : κ → Prop} (hstep : ∀ x, (∀ c, parent c = some x → P c) → P x) (x : κ) : P x := by
  let r : κ → κ → Prop := Relation.TransGen (Up parent)
  have : IsStrictOrder κ r :=
    { irrefl := h
      trans := fun _ _ _ hab hbc => hab.trans hbc }
  have hwf : {c | parent c ≠ none}.WellFoundedOn r := hfin.wellFoundedOn
  have hchild : ∀ c, parent c ≠ none → P c := fun c hc =>
    hwf.induction hc fun y _ ih => hstep y fun d hd => ih d (by simp [hd]) (.single hd)
  exact hstep x fun c hc => hchild c (by simp [hc])

section Visit

variable {σ : Type*}

/-- The walk from `x`; `none` when the bound on its depth is too small. -/
def visit (children : κ → List κ) (act : κ → σ → σ) : ℕ → κ → σ → Option σ
  | 0, _, _ => none
  | n + 1, x, s => (children x).foldlM (fun s c => visit children act n c s) (act x s)

variable {children : κ → List κ} {act : κ → σ → σ} {R : Set κ → σ → σ → Prop}

/-- The walks from the children, one after the other. -/
theorem exists_visits (hcomp : ∀ S T s t u, R S s t → R T t u → R (S ∪ T) s u) {D : κ → Set κ}
    (l : List κ)
    (h : ∀ c ∈ l, ∃ n, ∀ m, n ≤ m → ∀ s, ∃ t, visit children act m c s = some t ∧ R (D c) s t) :
    ∃ n, ∀ m, n ≤ m → ∀ S s t, R S s t →
      ∃ u, l.foldlM (fun s c => visit children act m c s) t = some u ∧
      R (S ∪ {d | ∃ c ∈ l, d ∈ D c}) s u := by
  induction l with
  | nil =>
      refine ⟨0, fun m _ S s t hst => ⟨t, rfl, ?_⟩⟩
      have hempty : {d | ∃ c ∈ ([] : List κ), d ∈ D c} = ∅ := by simp
      rwa [hempty, Set.union_empty]
  | cons c l ih =>
      obtain ⟨n, hn⟩ := h c List.mem_cons_self
      obtain ⟨k, hk⟩ := ih fun x hx => h x (List.mem_cons_of_mem _ hx)
      refine ⟨max n k, fun m hm S s t hst => ?_⟩
      obtain ⟨t', ht', hR⟩ := hn m (le_of_max_le_left hm) t
      obtain ⟨u, hu, hRu⟩ := hk m (le_of_max_le_right hm) _ s t' (hcomp _ _ _ _ _ hst hR)
      refine ⟨u, ?_, ?_⟩
      · rw [List.foldlM_cons, ht']
        exact hu
      · have hset : S ∪ D c ∪ {d | ∃ x ∈ l, d ∈ D x} = S ∪ {d | ∃ x ∈ c :: l, d ∈ D x} := by
          ext d
          simp only [Set.mem_union, Set.mem_ofPred_eq, List.mem_cons, exists_eq_or_imp]
          exact or_assoc
        rwa [hset] at hRu

/-- With enough depth the walk acts on exactly the nodes that lead up to its start. -/
theorem exists_visit (h : Acyclic parent) (hfin : {c | parent c ≠ none}.Finite)
    (hchildren : ∀ x c, c ∈ children x ↔ parent c = some x) (hact : ∀ x s, R {x} s (act x s))
    (hcomp : ∀ S T s t u, R S s t → R T t u → R (S ∪ T) s u) (x : κ) :
    ∃ n, ∀ m, n ≤ m → ∀ s, ∃ t, visit children act m x s = some t ∧
      R {d | Relation.ReflTransGen (Up parent) d x} s t := by
  refine h.induction_below hfin (P := fun x => ∃ n, ∀ m, n ≤ m →
    ∀ s, ∃ t, visit children act m x s = some t ∧
    R {d | Relation.ReflTransGen (Up parent) d x} s t) (fun x ih => ?_) x
  obtain ⟨n, hn⟩ := exists_visits hcomp (D := fun c => {d | Relation.ReflTransGen (Up parent) d c})
    (children x) fun c hc => ih c ((hchildren x c).mp hc)
  refine ⟨n + 1, fun m hm s => ?_⟩
  obtain ⟨k, rfl⟩ : ∃ k, m = k + 1 := ⟨m - 1, by omega⟩
  obtain ⟨t, ht, hR⟩ := hn k (by omega) {x} s (act x s) (hact x s)
  refine ⟨t, ht, ?_⟩
  have hset : {x} ∪ {d | ∃ c ∈ children x, d ∈ {d | Relation.ReflTransGen (Up parent) d c}} =
      {d | Relation.ReflTransGen (Up parent) d x} := by
    ext d
    simp only [Set.mem_union, Set.mem_singleton_iff, Set.mem_ofPred_eq]
    constructor
    · rintro (rfl | ⟨c, hc, hdc⟩)
      · exact .refl
      · exact hdc.tail ((hchildren x c).mp hc)
    · intro hd
      rcases Relation.ReflTransGen.cases_tail hd with heq | ⟨c, hdc, hcx⟩
      · exact .inl heq.symm
      · exact .inr ⟨c, (hchildren x c).mpr hcx, hdc⟩
  rwa [hset] at hR

/-- A walk that has ended is the same under a larger bound. -/
theorem visit_mono {n m : ℕ} (hle : n ≤ m) {x : κ} {s t : σ}
    (h : visit children act n x s = some t) :
    visit children act m x s = some t := by
  induction n generalizing m x s t with
  | zero => cases h
  | succ n ih =>
      obtain ⟨m, rfl⟩ : ∃ k, m = k + 1 := ⟨m - 1, by omega⟩
      rw [visit] at h ⊢
      revert h
      generalize act x s = s
      induction children x generalizing s with
      | nil => exact id
      | cons c l ihl =>
          intro h
          rw [List.foldlM_cons] at h ⊢
          obtain ⟨u, hu, hrest⟩ := Option.bind_eq_some_iff.mp h
          rw [ih (by omega) hu]
          exact ihl u hrest

end Visit

/-! ## Cycles

A node has one parent, so a cycle has no way out, and climbing from a node finds out whether
it lies on one.
-/

/-- Everything above a node of a cycle is below it too. -/
theorem cycle_of_above {x y : κ} (hcycle : Relation.TransGen (Up parent) x x)
    (h : Relation.ReflTransGen (Up parent) x y) : Relation.TransGen (Up parent) y x := by
  induction h with
  | refl => exact hcycle
  | @tail b c _ hbc ih =>
      obtain ⟨d, hbd, hd⟩ := Relation.TransGen.head'_iff.mp ih
      obtain rfl : c = d := Option.some.inj (hbc.symm.trans hbd)
      rcases Relation.reflTransGen_iff_eq_or_transGen.mp hd with heq | htrans
      · exact heq ▸ hcycle
      · exact htrans

/-- A cycle that survives the loss of links still has everything above its nodes on it. -/
theorem above_of_cycle {x y : κ} (hsub : ∀ c p, parent' c = some p → parent c = some p)
    (hcycle : Relation.TransGen (Up parent') x x) (h : Relation.ReflTransGen (Up parent) x y) :
    Relation.ReflTransGen (Up parent') x y := by
  induction h with
  | refl => exact .refl
  | @tail b c _ hbc ih =>
      obtain ⟨d, hbd, -⟩ := Relation.TransGen.head'_iff.mp (cycle_of_above hcycle ih)
      obtain rfl : c = d := Option.some.inj (hbc.symm.trans (hsub _ _ hbd))
      exact ih.tail hbd

/-- Nodes that no link leaves and none of which leads to `x` hold no cycle through `x`. -/
theorem no_cycle_of_closed {x : κ} {S : Set κ} (hx : x ∈ S)
    (hclosed : ∀ y ∈ S, ∀ z, parent y = some z → z ∈ S) (hback : ∀ y ∈ S, parent y ≠ some x) :
    ¬ Relation.TransGen (Up parent) x x := by
  intro hcycle
  obtain ⟨z, hz, hlast⟩ := Relation.TransGen.tail'_iff.mp hcycle
  have hmem : z ∈ S := by
    clear hlast hcycle
    induction hz with
    | refl => exact hx
    | tail _ hstep ih => exact hclosed _ ih _ hstep
  exact hback z hmem hlast

/-! ## Ascents

The nodes from a node up to its root, listed. A node has an ascent exactly when nothing above
it lies on a cycle.
-/

/-- `Ascent parent x l`: climbing from `x` passes the nodes of `l` and ends. -/
inductive Ascent (parent : κ → Option κ) : κ → List κ → Prop
  | root {x : κ} (h : parent x = none) : Ascent parent x [x]
  | up {x p : κ} {l : List κ} (h : parent x = some p) (hp : Ascent parent p l) :
      Ascent parent x (x :: l)

/-- Some node above `x` is its own proper ancestor. -/
def CyclicAbove (parent : κ → Option κ) (x : κ) : Prop :=
  ∃ y, Relation.ReflTransGen (Up parent) x y ∧ Relation.TransGen (Up parent) y y

/-- A loop above a node is above its parent. -/
theorem CyclicAbove.up {x p : κ} (h : parent x = some p) :
    CyclicAbove parent x ↔ CyclicAbove parent p := by
  constructor
  · rintro ⟨y, hxy, hyy⟩
    rcases Relation.ReflTransGen.cases_head hxy with rfl | ⟨q, hq, hqy⟩
    · -- the cycle through `x` passes its parent
      obtain ⟨q, hq, hqx⟩ := Relation.TransGen.head'_iff.mp hyy
      obtain rfl : p = q := Option.some.inj (h.symm.trans hq)
      exact ⟨x, hqx, hyy⟩
    · obtain rfl : p = q := Option.some.inj (h.symm.trans hq)
      exact ⟨y, hqy, hyy⟩
  · rintro ⟨y, hpy, hyy⟩
    exact ⟨y, hpy.head h, hyy⟩

/-- There is no loop above a root. -/
theorem not_cyclicAbove_root {x : κ} (h : parent x = none) : ¬ CyclicAbove parent x := by
  rintro ⟨y, hxy, hyy⟩
  rcases Relation.ReflTransGen.cases_head hxy with rfl | ⟨q, hq, _⟩
  · obtain ⟨q, hq, _⟩ := Relation.TransGen.head'_iff.mp hyy
    exact absurd (h.symm.trans hq) (by simp)
  · exact absurd (h.symm.trans hq) (by simp)

/-- There is no loop above what climbs to a root. -/
theorem Ascent.not_cyclicAbove {x : κ} {l : List κ} (h : Ascent parent x l) :
    ¬ CyclicAbove parent x := by
  induction h with
  | root h => exact not_cyclicAbove_root h
  | up h _ ih => rwa [CyclicAbove.up h]

/-- The ascent lists what lies above. -/
theorem Ascent.mem_iff {x y : κ} {l : List κ} (h : Ascent parent x l) :
    y ∈ l ↔ Relation.ReflTransGen (Up parent) x y := by
  induction h with
  | @root x h =>
      rw [List.mem_singleton]
      constructor
      · rintro rfl
        exact .refl
      · intro hxy
        rcases Relation.ReflTransGen.cases_head hxy with rfl | ⟨q, hq, _⟩
        · rfl
        · exact absurd (h.symm.trans hq) (by simp)
  | @up x p l h _ ih =>
      rw [List.mem_cons, ih]
      constructor
      · rintro (rfl | hpy)
        · exact .refl
        · exact hpy.head h
      · intro hxy
        rcases Relation.ReflTransGen.cases_head hxy with rfl | ⟨q, hq, hqy⟩
        · exact Or.inl rfl
        · obtain rfl : p = q := Option.some.inj (h.symm.trans hq)
          exact Or.inr hqy

/-- An ascent meets each node once. -/
theorem Ascent.nodup {x : κ} {l : List κ} (h : Ascent parent x l) : l.Nodup := by
  induction h with
  | root h => exact List.nodup_singleton _
  | @up x p l h hp ih =>
      refine List.nodup_cons.mpr ⟨fun hx => ?_, ih⟩
      -- a node met again closes a cycle
      exact (Ascent.up h hp).not_cyclicAbove ⟨x, .refl, .head' h (hp.mem_iff.mp hx)⟩

/-- With finitely many parents, only a cycle keeps a climb from ending. -/
theorem exists_ascent {x : κ} {S : Set κ} (hfin : S.Finite)
    (hclosed : ∀ c p, parent c = some p → p ∈ S) (h : ¬ CyclicAbove parent x) :
    ∃ l, Ascent parent x l := by
  classical
  -- restricted to what lies above `x`, the links are acyclic
  let above : κ → Option κ := fun c => if CyclicAbove parent c then none else parent c
  have hsub : ∀ c p, above c = some p → parent c = some p ∧ ¬ CyclicAbove parent c := by
    intro c p hcp
    by_cases hc : CyclicAbove parent c
    · rw [show above c = none from if_pos hc] at hcp
      cases hcp
    · exact ⟨by rwa [show above c = parent c from if_neg hc] at hcp, hc⟩
  have hacyclic : Acyclic above := by
    intro y hyy
    obtain ⟨q, hq, _⟩ := Relation.TransGen.head'_iff.mp hyy
    have hlift : Relation.TransGen (Up parent) y y :=
      Relation.TransGen.mono (fun c p hcp => (hsub c p hcp).1) _ _ hyy
    exact (hsub y q hq).2 ⟨y, .refl, hlift⟩
  revert h
  refine hacyclic.induction hfin (fun c p hcp => hclosed c p (hsub c p hcp).1)
    (P := fun x => ¬ CyclicAbove parent x → ∃ l, Ascent parent x l) (fun y ih hy => ?_) x
  cases hp : parent y with
  | none => exact ⟨[y], .root hp⟩
  | some p =>
      have habove : above y = some p := (if_neg hy).trans hp
      obtain ⟨l, hl⟩ := ih p habove (by rwa [← CyclicAbove.up hp])
      exact ⟨y :: l, .up hp hl⟩

/-- A climb from `x` under way. -/
structure Climbing (parent : κ → Option κ) (x : κ) (current : Option κ) (seen : List κ) : Prop where
  start : x ∈ seen
  nodup : seen.Nodup
  next : ∀ y ∈ seen, ∀ z, parent y = some z → z ∈ seen ∨ current = some z
  goesOn : current ≠ none → ∀ y ∈ seen, parent y ≠ none
  back : ∀ y ∈ seen, parent y = some x → current = some x
  reached : ∀ c ∈ current, Relation.TransGen (Up parent) x c

/-- The climb starts at the node. -/
theorem Climbing.begin (x : κ) : Climbing parent x (parent x) [x] where
  start := List.mem_cons_self
  nodup := List.nodup_singleton x
  next := fun _ hy _ hz => Or.inr (List.mem_singleton.mp hy ▸ hz)
  goesOn := fun h _ hy => List.mem_singleton.mp hy ▸ h
  back := fun _ hy hz => List.mem_singleton.mp hy ▸ hz
  reached := fun _ hc => .single hc

/-- The climb goes on to a node not seen before. -/
theorem Climbing.step {x c : κ} {seen : List κ} (h : Climbing parent x (some c) seen)
    (hc : c ∉ seen) : Climbing parent x (parent c) (c :: seen) where
  start := List.mem_cons_of_mem _ h.start
  nodup := List.nodup_cons.mpr ⟨hc, h.nodup⟩
  next := by
    intro y hy z hz
    rcases List.mem_cons.mp hy with rfl | hy
    · exact Or.inr hz
    · rcases h.next y hy z hz with hmem | heq
      · exact Or.inl (List.mem_cons_of_mem _ hmem)
      · exact Or.inl (Option.some.inj heq ▸ List.mem_cons_self)
  goesOn := by
    intro hne y hy
    rcases List.mem_cons.mp hy with rfl | hy
    · exact hne
    · exact h.goesOn (Option.some_ne_none c) y hy
  back := by
    intro y hy hz
    rcases List.mem_cons.mp hy with rfl | hy
    · exact hz
    · -- an earlier node under `x` would have ended the climb
      have hcx := Option.some.inj (h.back y hy hz)
      exact absurd (hcx ▸ h.start) hc
  reached := fun d hd => (h.reached c rfl).tail hd

variable [DecidableEq κ]

/-- Climb until a node is met again or there is no parent: where the climb ends. -/
def climb (parent : κ → Option κ) : ℕ → Option κ → List κ → Option κ
  | n + 1, some c, seen => if c ∈ seen then some c else climb parent n (parent c) (c :: seen)
  | _, current, _ => current

/-- The climb ends at `x` exactly when `x` lies on a cycle. -/
theorem Climbing.ends {x : κ} {current : Option κ} {seen D : List κ}
    (h : Climbing parent x current seen) (hD : ∀ y, parent y ≠ none → y ∈ D) {n : ℕ}
    (hn : D.length < n + seen.length) :
    climb parent n current seen = some x ↔ Relation.TransGen (Up parent) x x := by
  -- where the climb ends elsewhere, what was seen is closed and never leads back
  have hclosed : ∀ {current : Option κ} {seen : List κ}, Climbing parent x current seen →
      current ≠ some x → (∀ c ∈ current, c ∈ seen) → ¬ Relation.TransGen (Up parent) x x := by
    intro current seen h hne hmem
    refine no_cycle_of_closed (S := {y | y ∈ seen}) h.start (fun y hy z hz => ?_) fun y hy hz => ?_
    · exact (h.next y hy z hz).elim id fun heq => hmem z heq
    · exact hne (h.back y hy hz)
  induction n generalizing current seen with
  | zero =>
      cases current with
      | none =>
          have hne : none ≠ some x := (Option.some_ne_none x).symm
          exact iff_of_false hne (hclosed h hne fun c hc => by cases hc)
      | some c =>
          have hlen := (h.nodup.subperm fun y hy =>
            hD y (h.goesOn (Option.some_ne_none c) y hy)).length_le
          omega
  | succ n ih =>
      cases current with
      | none =>
          have hne : none ≠ some x := (Option.some_ne_none x).symm
          exact iff_of_false hne (hclosed h hne fun c hc => by cases hc)
      | some c =>
          rw [climb]
          split_ifs with hseen
          · by_cases hcx : c = x
            · subst hcx
              exact iff_of_true rfl (h.reached c rfl)
            · have hne : some c ≠ some x := fun heq => hcx (Option.some.inj heq)
              refine iff_of_false hne (hclosed h hne fun d hd => ?_)
              exact Option.some.inj hd ▸ hseen
          · refine ih (h.step hseen) ?_
            rw [List.length_cons]
            omega

end Forest
