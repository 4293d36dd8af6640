import Mathlib.Data.List.Basic
import OpenWebUI.Lib.Forest

/-! # Forests whose nodes have names

Every node has at most one parent and a name. The path of a node is the list of the names from its
root down to it. A walk down by names and a climb up by parents both find it.
-/

namespace NamedForest

variable {κ ν : Type*}

/-- The parent of a node. -/
def parent (node : κ → Option (Option κ × ν)) (x : κ) : Option κ := (node x).bind Prod.fst

/-- `IsPath node path x`: the names from the root of `x` down to `x`. -/
inductive IsPath (node : κ → Option (Option κ × ν)) : List ν → κ → Prop
  | root {x : κ} {n : ν} (h : node x = some (none, n)) : IsPath node [n] x
  | child {x p : κ} {n : ν} {path : List ν} (h : node x = some (some p, n))
      (hp : IsPath node path p) :
      IsPath node (path ++ [n]) x

/-- Nodes with the same parent, and roots, have different names. -/
def Apart (node : κ → Option (Option κ × ν)) : Prop :=
  ∀ x y place, node x = some place → node y = some place → x = y

/-- Parents are nodes. -/
def Closed (node : κ → Option (Option κ × ν)) : Prop :=
  ∀ x p n, node x = some (some p, n) → ∃ place, node p = some place

variable {node : κ → Option (Option κ × ν)} {path path' : List ν} {x y p : κ} {n : ν}

/-- The link of a node is that of its place. -/
theorem parent_eq_some : parent node x = some p ↔ ∃ n, node x = some (some p, n) := by
  rw [parent, Option.bind_eq_some_iff]
  constructor
  · rintro ⟨⟨q, n⟩, hx, hq⟩
    exact ⟨n, hx.trans (congrArg (fun q => some (q, n)) hq)⟩
  · rintro ⟨n, hx⟩
    exact ⟨_, hx, rfl⟩

theorem IsPath.ne_nil (h : IsPath node path x) : path ≠ [] := by
  cases h with
  | root h => exact List.cons_ne_nil _ _
  | child h hp => exact List.append_ne_nil_of_right_ne_nil _ (List.cons_ne_nil _ _)

/-- What has a path has a place. -/
theorem IsPath.exists_place (h : IsPath node path x) : ∃ place, node x = some place := by
  cases h with
  | root h => exact ⟨_, h⟩
  | child h hp => exact ⟨_, h⟩

/-- A path ends with a name under a path, or at a root. -/
theorem isPath_append_singleton : IsPath node (path ++ [n]) x ↔
    (path = [] ∧ node x = some (none, n)) ∨ ∃ p, node x = some (some p, n) ∧
      IsPath node path p := by
  constructor
  · intro h
    generalize hl : path ++ [n] = l at h
    cases h with
    | @root _ m h =>
        have hlast : path = [] ∧
          n = m := by simpa using List.append_inj' (hl.trans (List.nil_append _).symm) rfl
        exact .inl ⟨hlast.1, hlast.2 ▸ h⟩
    | @child _ p m path' h hp =>
        have hlast : path = path' ∧ n = m := by simpa using List.append_inj' hl rfl
        exact .inr ⟨p, hlast.2 ▸ h, hlast.1 ▸ hp⟩
  · rintro (⟨rfl, h⟩ | ⟨p, h, hp⟩)
    · exact .root h
    · exact .child h hp

/-- A node has one path. -/
theorem IsPath.unique (h : IsPath node path x) (h' : IsPath node path' x) : path = path' := by
  induction h generalizing path' with
  | root h =>
      cases h' with
      | root h' => simpa using h.symm.trans h'
      | child h' hp' => simpa using h.symm.trans h'
  | @child _ _ n _ h _ ih =>
      cases h' with
      | root h' => simpa using h.symm.trans h'
      | child h' hp' =>
          have hplace := Prod.ext_iff.mp (Option.some.inj (h.symm.trans h'))
          rw [ih (Option.some.inj hplace.1 ▸ hp'), show n = _ from hplace.2]

/-- A path has one node when names tell siblings apart. -/
theorem IsPath.injective (hapart : Apart node) (h : IsPath node path x) (h' : IsPath node path y) :
    x = y := by
  induction h generalizing y with
  | root h =>
      have hsingle : IsPath node ([] ++ [_]) y := h'
      rcases isPath_append_singleton.mp hsingle with ⟨-, h'⟩ | ⟨p, -, hp⟩
      · exact hapart _ _ _ h h'
      · exact absurd rfl hp.ne_nil
  | child h hp ih =>
      rcases isPath_append_singleton.mp h' with ⟨hnil, -⟩ | ⟨p, h', hp'⟩
      · exact absurd hnil hp.ne_nil
      · obtain rfl := ih hp'
        exact hapart _ _ _ h h'

/-- In a finite forest every node has a path. -/
theorem exists_isPath (hacyclic : Forest.Acyclic (parent node)) (hclosed : Closed node)
    (hfin : {x | node x ≠ none}.Finite) {place : Option κ × ν} (hx : node x = some place) :
    ∃ path, IsPath node path x := by
  revert place hx
  refine hacyclic.induction (S := {x | node x ≠ none}) hfin (fun c p hc => ?_)
    (P := fun x => ∀ {place : Option κ × ν}, node x = some place → ∃ path, IsPath node path x)
      (fun x ih place hx => ?_) x
  · obtain ⟨n, hn⟩ := parent_eq_some.mp hc
    obtain ⟨place, hplace⟩ := hclosed c p n hn
    show node p ≠ none
    rw [hplace]
    exact Option.some_ne_none place
  · rcases place with ⟨_ | p, n⟩
    · exact ⟨_, .root hx⟩
    · obtain ⟨place, hplace⟩ := hclosed x p n hx
      obtain ⟨path, hpath⟩ := ih p (parent_eq_some.mpr ⟨n, hx⟩) hplace
      exact ⟨_, .child hx hpath⟩

/-- The nodes a path passes are different, so it is no longer than there are nodes. -/
theorem IsPath.length_le (h : IsPath node path x) (nodes : List κ)
    (hnodes : ∀ y, node y ≠ none → y ∈ nodes) :
    path.length ≤ nodes.length := by
  have hascent : ∃ l, Forest.Ascent (parent node) x l ∧ l.length = path.length ∧
    ∀ y ∈ l, node y ≠ none := by
    induction h with
    | root h =>
        refine ⟨_, .root (by rw [parent, h]; rfl), rfl, fun y hy => ?_⟩
        rw [List.mem_singleton.mp hy, h]
        exact Option.some_ne_none _
    | child h _ ih =>
        obtain ⟨l, hl, hlength, hmem⟩ := ih
        refine ⟨_, .up (parent_eq_some.mpr ⟨_, h⟩) hl, by simp [hlength], fun y hy => ?_⟩
        rcases List.mem_cons.mp hy with rfl | hy
        · rw [h]
          exact Option.some_ne_none _
        · exact hmem y hy
  obtain ⟨l, hl, hlength, hmem⟩ := hascent
  rw [← hlength]
  exact (hl.nodup.subperm fun y hy => hnodes y (hmem y hy)).length_le

/-! ## More and fewer nodes -/

section Change

variable {node' : κ → Option (Option κ × ν)}

/-- More nodes keep the paths there are. -/
theorem IsPath.mono (hsub : ∀ y place, node y = some place → node' y = some place)
    (h : IsPath node path x) :
    IsPath node' path x := by
  induction h with
  | root h => exact .root (hsub _ _ h)
  | child h _ ih => exact .child (hsub _ _ h) ih

/-- A node that is nobody's parent gets a path, and nothing else changes. -/
theorem isPath_leaf {place : Option κ × ν} (hnew : node x = none) (hx : node' x = some place)
    (hold : ∀ y, y ≠ x → node' y = node y) (hleaf : ∀ y n, node y ≠ some (some x, n))
    (hself : place.1 ≠ some x) :
    IsPath node' path y ↔ IsPath node path y ∨ y = x ∧ ∃ front, path = front ++ [place.2] ∧
      (place.1 = none ∧ front = [] ∨ ∃ p, place.1 = some p ∧ IsPath node front p) := by
  have hmore : ∀ y place, node y = some place → node' y = some place := by
    intro y place hy
    rw [hold y fun heq => by rw [heq, hnew] at hy; cases hy]
    exact hy
  have hkept : ∀ {path y}, IsPath node' path y → y ≠ x → IsPath node path y := by
    intro path y h
    induction h with
    | root h => exact fun hne => .root (hold _ hne ▸ h)
    | @child y p n path h _ ih =>
        intro hne
        rw [hold _ hne] at h
        exact .child h (ih fun heq => hleaf y n (heq ▸ h))
  constructor
  · intro h
    by_cases hyx : y = x
    · subst hyx
      refine .inr ⟨rfl, ?_⟩
      cases h with
      | root h =>
          obtain rfl := Option.some.inj (hx.symm.trans h)
          exact ⟨[], rfl, .inl ⟨rfl, rfl⟩⟩
      | @child _ p n path h hp =>
          obtain rfl := Option.some.inj (hx.symm.trans h)
          exact ⟨path, rfl, .inr ⟨p, rfl, hkept hp fun heq => hself (congrArg some heq)⟩⟩
    · exact .inl (hkept h hyx)
  · rintro (h | ⟨rfl, front, rfl, ⟨hroot, rfl⟩ | ⟨p, hparent, hp⟩⟩)
    · exact h.mono hmore
    · exact .root (hx.trans (congrArg some (Prod.ext hroot rfl)))
    · exact .child (hx.trans (congrArg some (Prod.ext hparent rfl))) (hp.mono hmore)

end Change

/-! ## Walking down and climbing up -/

/-- A walk down that takes one name after the other ends where the path does. -/
theorem walk_eq_iff {child : Option κ → ν → Option (Option κ)}
    (hdown : ∀ place n, child place n ≠ some none)
    (hchild : ∀ place n x, (∀ p, place = some p → ∃ above, node p = some above) →
      (child place n = some (some x) ↔ node x = some (place, n))) :
    path.foldlM child none = some (some x) ↔ IsPath node path x := by
  induction path using List.reverseRecOn generalizing x with
  | nil =>
      show some none = some (some x) ↔ _
      exact iff_of_false (fun h => Option.some_ne_none x (Option.some.inj h).symm) fun h =>
        h.ne_nil rfl
  | append_singleton path n ih =>
      rw [isPath_append_singleton, List.foldlM_append]
      show (path.foldlM child none).bind (fun place => [n].foldlM child place) = some (some x) ↔ _
      rw [Option.bind_eq_some_iff]
      have hsingle : ∀ place, [n].foldlM child place = child place n := by
        intro place
        rw [List.foldlM_cons, show (fun place => List.foldlM child place []) = some from rfl]
        exact Option.bind_fun_some _
      -- the walk is at no node only before its first name
      have hstart : path.foldlM child none = some none ↔ path = [] := by
        refine ⟨fun h => ?_, fun h => h ▸ rfl⟩
        rcases List.eq_nil_or_concat path with rfl | ⟨front, m, rfl⟩
        · rfl
        · rw [List.concat_eq_append, List.foldlM_append] at h
          obtain ⟨place, -, hlast⟩ := Option.bind_eq_some_iff.mp h
          obtain ⟨last, hm, hlast⟩ := Option.bind_eq_some_iff.mp hlast
          cases hlast
          exact absurd hm (hdown place m)
      constructor
      · rintro ⟨_ | p, hpath, hx⟩
        · rw [hsingle] at hx
          exact .inl ⟨hstart.mp hpath, (hchild none n x fun p hp => by cases hp).mp hx⟩
        · rw [hsingle] at hx
          have hp := ih.mp hpath
          exact .inr ⟨p, (hchild (some p) n x fun q hq => Option.some.inj hq ▸ hp.exists_place).mp
            hx, hp⟩
      · rintro (⟨hnil, hx⟩ | ⟨p, hx, hp⟩)
        · refine ⟨none, hstart.mpr hnil, ?_⟩
          rw [hsingle]
          exact (hchild none n x fun p hp => by cases hp).mpr hx
        · refine ⟨some p, ih.mpr hp, ?_⟩
          rw [hsingle]
          exact (hchild (some p) n x fun q hq => Option.some.inj hq ▸ hp.exists_place).mpr hx

/-- Climb from a parent to the root, putting the names before those collected. -/
def climb (node : κ → Option (Option κ × ν)) : ℕ → Option κ → List ν → Option (List ν)
  | 0, _, _ => none
  | _ + 1, none, names => some names
  | fuel + 1, some p, names =>
    match node p with
    | none => some names
    | some place => climb node fuel place.1 (place.2 :: names)

/-- The climb reads the path. -/
theorem IsPath.climb_eq (h : IsPath node path p) {fuel : ℕ} (hfuel : path.length < fuel)
    (names : List ν) :
    climb node fuel (some p) names = some (path ++ names) := by
  induction h generalizing fuel names with
  | root h =>
      obtain ⟨fuel, rfl⟩ : ∃ k, fuel = k + 2 := ⟨fuel - 2, by simp at hfuel; omega⟩
      rw [climb, h]
      rfl
  | child h _ ih =>
      rw [List.length_append, List.length_singleton] at hfuel
      obtain ⟨fuel, rfl⟩ : ∃ k, fuel = k + 1 := ⟨fuel - 1, by omega⟩
      rw [climb, h]
      show climb node fuel (some _) _ = _
      rw [ih (by omega), List.append_assoc]
      rfl

/-! ## What lies below a node -/

/-- What lies below a node has a path that goes on from the path of the node. -/
theorem IsPath.below_iff (hapart : Apart node) (hclosed : IsPath node path x) :
    (∃ rest, IsPath node (path ++ rest) y) ↔
      Relation.ReflTransGen (Forest.Up (parent node)) y x := by
  constructor
  · rintro ⟨rest, hy⟩
    induction rest using List.reverseRecOn generalizing y with
    | nil =>
        rw [List.append_nil] at hy
        rw [hy.injective hapart hclosed]
    | append_singleton rest n ih =>
        rw [← List.append_assoc] at hy
        rcases isPath_append_singleton.mp hy with ⟨hnil, -⟩ | ⟨p, hnode, hp⟩
        · exact absurd (List.append_eq_nil_iff.mp hnil).1 hclosed.ne_nil
        · exact (ih hp).head (parent_eq_some.mpr ⟨n, hnode⟩)
  · intro h
    induction h using Relation.ReflTransGen.head_induction_on with
    | refl => exact ⟨[], by rwa [List.append_nil]⟩
    | head hlink _ ih =>
        obtain ⟨rest, hrest⟩ := ih
        obtain ⟨n, hnode⟩ := parent_eq_some.mp hlink
        exact ⟨rest ++ [n], by rw [← List.append_assoc]; exact .child hnode hrest⟩

/-- The front of a path is a path. -/
theorem IsPath.front {rest : List ν} (h : IsPath node (path ++ rest) x) (hne : path ≠ []) :
    ∃ y, IsPath node path y := by
  induction rest using List.reverseRecOn generalizing x with
  | nil => exact ⟨x, List.append_nil path ▸ h⟩
  | append_singleton rest n ih =>
      rw [← List.append_assoc] at h
      rcases isPath_append_singleton.mp h with ⟨hnil, -⟩ | ⟨p, -, hp⟩
      · exact absurd (List.append_eq_nil_iff.mp hnil).1 hne
      · exact ih hp

/-! ## Paths as texts -/

section Joined

variable {α : Type*} [DecidableEq α] {sep : α} {path path' : List (List α)} {name name' : List α}

/-- A name that can stand in a text: it is not empty and has no separator. -/
def Plain (sep : α) (name : List α) : Prop := name ≠ [] ∧ sep ∉ name

instance (sep : α) (name : List α) : Decidable (Plain sep name) :=
    inferInstanceAs (Decidable (_ ∧ _))

/-- The names with separators between them. -/
def joined (sep : α) (path : List (List α)) : List α := [sep].intercalate path

/-- Splitting undoes joining plain names. -/
theorem splitOn_joined (hne : path ≠ []) (hplain : ∀ name ∈ path, Plain sep name) :
    (joined sep path).splitOn sep = path :=
  List.splitOn_intercalate sep (fun name hname => (hplain name hname).2) hne

/-- Joining undoes splitting. -/
theorem joined_splitOn (text : List α) : joined sep (text.splitOn sep) = text :=
  List.intercalate_splitOn sep

/-- Plain paths are told apart by their texts. -/
theorem joined_injective (hne : path ≠ []) (hne' : path' ≠ [])
    (hplain : ∀ name ∈ path, Plain sep name) (hplain' : ∀ name ∈ path', Plain sep name)
    (h : joined sep path = joined sep path') : path = path' := by
  rw [← splitOn_joined hne hplain, h, splitOn_joined hne' hplain']

omit [DecidableEq α] in
/-- The text of one name. -/
theorem joined_singleton : joined sep [name] = name := List.append_nil name

omit [DecidableEq α] in
theorem joined_cons (hne : path ≠ []) :
    joined sep (name :: path) = name ++ sep :: joined sep path := by
  obtain ⟨next, rest, rfl⟩ := List.exists_cons_of_ne_nil hne
  rfl

omit [DecidableEq α] in
/-- The text after one more name behind. -/
theorem joined_append_singleton (hne : path ≠ []) :
    joined sep (path ++ [name]) = joined sep path ++ sep :: name := by
  induction path with
  | nil => exact absurd rfl hne
  | cons first rest ih =>
      rcases eq_or_ne rest [] with rfl | hrest
      · rw [List.singleton_append, joined_cons (List.cons_ne_nil _ _), joined_singleton,
          joined_singleton]
      · rw [List.cons_append, joined_cons (List.append_ne_nil_of_left_ne_nil hrest _),
          joined_cons hrest, ih hrest, List.append_assoc, List.cons_append]

omit [DecidableEq α] in
/-- A joined path neither begins nor ends with a separator, and is not empty. -/
theorem joined_ends (hne : path ≠ []) (hplain : ∀ name ∈ path, Plain sep name) :
    (joined sep path).head? ≠ some sep ∧ (joined sep path).getLast? ≠ some sep ∧
      joined sep path ≠ [] := by
  have hhead : ∀ {name : List α} (tail : List α), Plain sep name →
    (name ++ tail).head? ≠ some sep := by
    intro name tail hname heq
    obtain ⟨c, cs, rfl⟩ := List.exists_cons_of_ne_nil hname.1
    exact hname.2 (Option.some.inj heq ▸ List.mem_cons_self)
  have hlast : ∀ {name : List α} (front : List α), Plain sep name →
    (front ++ name).getLast? ≠ some sep := by
    intro name front hname heq
    rw [List.getLast?_append_of_ne_nil _ hname.1] at heq
    exact hname.2 (List.mem_of_getLast? heq)
  refine ⟨?_, ?_, ?_⟩
  · obtain ⟨first, rest, rfl⟩ := List.exists_cons_of_ne_nil hne
    have hfirst := hplain first List.mem_cons_self
    rcases eq_or_ne rest [] with rfl | hrest
    · rw [joined_singleton, ← List.append_nil first]
      exact hhead [] hfirst
    · rw [joined_cons hrest]
      exact hhead _ hfirst
  · rcases List.eq_nil_or_concat path with rfl | ⟨front, last, rfl⟩
    · exact absurd rfl hne
    · have hlast' : Plain sep last := hplain last (by simp)
      rw [List.concat_eq_append]
      rcases eq_or_ne front [] with rfl | hfront
      · rw [List.nil_append, joined_singleton]
        exact hlast [] hlast'
      · rw [joined_append_singleton hfront, List.append_cons]
        exact hlast _ hlast'
  · obtain ⟨first, rest, rfl⟩ := List.exists_cons_of_ne_nil hne
    rcases eq_or_ne rest [] with rfl | hrest
    · rw [joined_singleton]
      exact (hplain first List.mem_cons_self).1
    · rw [joined_cons hrest]
      exact List.append_ne_nil_of_right_ne_nil _ (List.cons_ne_nil _ _)

/-- The names a text is joined from; none for the empty text. -/
def partsOf (sep : α) (text : List α) : List (List α) := if text = [] then [] else text.splitOn sep

/-- Joining undoes reading the parts. -/
theorem joined_partsOf (text : List α) : joined sep (partsOf sep text) = text := by
  rw [partsOf]
  split_ifs with hnil
  · rw [hnil]
    rfl
  · exact joined_splitOn text

/-- Reading the parts undoes joining plain names. -/
theorem partsOf_joined (hplain : ∀ name ∈ path, Plain sep name) :
    partsOf sep (joined sep path) = path := by
  rcases eq_or_ne path [] with rfl | hne
  · exact if_pos rfl
  · rw [partsOf, if_neg (joined_ends hne hplain).2.2, splitOn_joined hne hplain]

/-- Every name followed by a separator. -/
def closedWith (sep : α) (path : List (List α)) : List α := path.flatMap (· ++ [sep])

omit [DecidableEq α] in
/-- A closed path ends with the separator. -/
theorem closedWith_eq (hne : path ≠ []) : closedWith sep path = joined sep path ++ [sep] := by
  induction path with
  | nil => exact absurd rfl hne
  | cons first rest ih =>
      rcases eq_or_ne rest [] with rfl | hrest
      · rw [joined_singleton]
        exact List.append_nil _
      · rw [joined_cons hrest, List.append_assoc, List.cons_append, ← ih hrest]
        exact List.append_assoc _ _ _

omit [DecidableEq α] in
theorem closedWith_append (path : List (List α)) (name : List α) :
    closedWith sep path ++ name = joined sep (path ++ [name]) := by
  rcases eq_or_ne path [] with rfl | hne
  · exact (List.append_nil name).symm
  · rw [closedWith_eq hne, joined_append_singleton hne, List.append_assoc]
    rfl

omit [DecidableEq α] in
/-- What stands before the first separator, and what stands after it. -/
theorem first_eq_of_append {rest rest' : List α} (hname : sep ∉ name) (hname' : sep ∉ name')
    (h : name ++ sep :: rest = name' ++ sep :: rest') : name = name' ∧ rest = rest' := by
  induction name generalizing name' with
  | nil =>
      cases name' with
      | nil => exact ⟨rfl, (List.cons.inj h).2⟩
      | cons c name' => exact absurd ((List.cons.inj h).1 ▸ List.mem_cons_self) hname'
  | cons c name ih =>
      cases name' with
      | nil => exact absurd ((List.cons.inj h).1 ▸ List.mem_cons_self) hname
      | cons c' name' =>
          have hcons := List.cons.inj h
          have htail := ih (fun hmem => hname (List.mem_cons_of_mem _ hmem))
            (fun hmem => hname' (List.mem_cons_of_mem _ hmem)) hcons.2
          exact ⟨congrArg₂ List.cons hcons.1 htail.1, htail.2⟩

omit [DecidableEq α] in
/-- The texts below a path are those that go on after its last separator. -/
theorem closedWith_prefix_iff (hpath : ∀ name ∈ path, sep ∉ name)
    (hpath' : ∀ name ∈ path', sep ∉ name) (hname : sep ∉ name) :
    closedWith sep path <+: closedWith sep path' ++ name ↔ path <+: path' := by
  induction path generalizing path' with
  | nil => exact iff_of_true (List.nil_prefix) (List.nil_prefix)
  | cons first rest ih =>
      have hfirst := hpath first List.mem_cons_self
      have hrest : ∀ name ∈ rest, sep ∉ name := fun n hn => hpath n (List.mem_cons_of_mem _ hn)
      rw [show closedWith sep (first :: rest) = first ++ sep ::
        closedWith sep rest from List.append_assoc _ _ _]
      cases path' with
      | nil =>
          -- a name without separators has no path before it
          refine iff_of_false (fun h => ?_) fun h =>
            absurd (List.prefix_nil.mp h) (List.cons_ne_nil _ _)
          exact hname (h.subset (List.mem_append_right _ List.mem_cons_self))
      | cons first' rest' =>
          have hfirst' := hpath' first' List.mem_cons_self
          have hrest' : ∀ name ∈ rest', sep ∉ name :=
            fun n hn => hpath' n (List.mem_cons_of_mem _ hn)
          rw [show closedWith sep (first' :: rest') = first' ++ sep ::
            closedWith sep rest' from List.append_assoc _ _ _,
            List.append_assoc, List.cons_append, List.cons_prefix_cons, ← ih hrest hrest']
          constructor
          · rintro ⟨tail, htail⟩
            rw [List.append_assoc, List.cons_append] at htail
            have hcut := first_eq_of_append hfirst hfirst' htail
            exact ⟨hcut.1, tail, hcut.2⟩
          · rintro ⟨rfl, tail, htail⟩
            exact ⟨tail, by rw [List.append_assoc, List.cons_append, htail]⟩

end Joined

end NamedForest
