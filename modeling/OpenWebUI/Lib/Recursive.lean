import Mathlib.Data.List.Dedup
import Mathlib.Data.List.Perm.Subperm
import Mathlib.Logic.Relation

/-! # Recursive queries

`WITH RECURSIVE base UNION step`: each round applies the step to the rows the last
round added and keeps what is new. The rows a query returns are exactly those that
steps lead to from the base rows.
-/

namespace Recursive

variable {α : Type*} [DecidableEq α]

/-- The rows one round adds. -/
def fresh (next : α → List α) (rows work : List α) : List α :=
  (work.flatMap next).dedup.filter (· ∉ rows)

/-- Rounds until nothing is added, at most `n` of them. -/
def rounds (next : α → List α) : ℕ → List α → List α → List α
  | 0, rows, _ => rows
  | n + 1, rows, work =>
      if fresh next rows work = [] then rows
      else rounds next n (rows ++ fresh next rows work) (fresh next rows work)

/-- The query, with a bound on the number of its rows. -/
def recursiveUnion (next : α → List α) (bound : ℕ) (base : List α) : List α :=
  rounds next bound base.dedup base.dedup

variable {next : α → List α} {rows work base U : List α} {x y : α} {n : ℕ}

theorem mem_fresh : y ∈ fresh next rows work ↔ (∃ x ∈ work, y ∈ next x) ∧ y ∉ rows := by
  simp [fresh]

/-- No round loses a row. -/
theorem subset_rounds (n : ℕ) (rows work : List α) : rows ⊆ rounds next n rows work := by
  induction n generalizing rows work with
  | zero => exact List.Subset.refl _
  | succ n ih =>
      unfold rounds
      split_ifs
      · exact List.Subset.refl _
      · exact List.Subset.trans (List.subset_append_left _ _) (ih _ _)

/-- Every row of a query is the end of a path of steps. -/
theorem exists_path_of_mem_rounds (hwork : work ⊆ rows)
    (hrows : ∀ y ∈ rows, ∃ x ∈ base, Relation.ReflTransGen (fun a b => b ∈ next a) x y)
    (h : y ∈ rounds next n rows work) :
    ∃ x ∈ base, Relation.ReflTransGen (fun a b => b ∈ next a) x y := by
  induction n generalizing rows work with
  | zero => exact hrows y h
  | succ n ih =>
      unfold rounds at h
      split_ifs at h
      · exact hrows y h
      · refine ih (List.subset_append_right _ _) (fun z hz => ?_) h
        rcases List.mem_append.mp hz with hz | hz
        · exact hrows z hz
        · obtain ⟨⟨w, hw, hwz⟩, -⟩ := mem_fresh.mp hz
          obtain ⟨x, hx, hpath⟩ := hrows w (hwork hw)
          exact ⟨x, hx, hpath.tail hwz⟩

/-- With enough rounds the rows are closed under steps. -/
theorem rounds_closed (hU : ∀ x ∈ U, next x ⊆ U) (hrows : rows ⊆ U) (hnodup : rows.Nodup)
    (hsub : work ⊆ rows) (hwork : ∀ x ∈ rows, x ∈ work ∨ next x ⊆ rows)
    (hbound : U.length ≤ rows.length + n) (hx : x ∈ rounds next n rows work) :
    next x ⊆ rounds next n rows work := by
  induction n generalizing rows work with
  | zero =>
      -- the rows are all there are
      have hperm := (hnodup.subperm hrows).perm_of_length_le hbound
      intro y hy
      exact hperm.symm.subset (hU x (hrows hx) hy)
  | succ n ih =>
      unfold rounds at hx ⊢
      split_ifs at hx ⊢ with hfresh
      · -- the last round added nothing
        intro y hy
        by_contra hnot
        rcases hwork x hx with hmem | hold
        · have : y ∈ fresh next rows work := mem_fresh.mpr ⟨⟨x, hmem, hy⟩, hnot⟩
          rw [hfresh] at this
          exact List.not_mem_nil this
        · exact hnot (hold hy)
      · refine ih ?_ ?_ (List.subset_append_right _ _) ?_ ?_ hx
        · refine List.append_subset.mpr ⟨hrows, fun y hy => ?_⟩
          obtain ⟨⟨w, hw, hwy⟩, -⟩ := mem_fresh.mp hy
          exact hU w (hrows (hsub hw)) hwy
        · refine List.Nodup.append hnodup ((List.nodup_dedup _).filter _) fun y hy hy' => ?_
          exact (mem_fresh.mp hy').2 hy
        · intro z hz
          rcases List.mem_append.mp hz with hz | hz
          · right
            intro y hy
            rcases hwork z hz with hmem | hclosed
            · by_cases hold : y ∈ rows
              · exact List.mem_append_left _ hold
              · exact List.mem_append_right _ (mem_fresh.mpr ⟨⟨z, hmem, hy⟩, hold⟩)
            · exact List.mem_append_left _ (hclosed hy)
          · exact .inl hz
        · have hpos := List.length_pos_iff.mpr hfresh
          rw [List.length_append]
          omega

/-- A query returns exactly the rows that steps lead to from its base. -/
theorem mem_recursiveUnion (hbase : base ⊆ U) (hU : ∀ x ∈ U, next x ⊆ U) {bound : ℕ}
    (hbound : U.length ≤ bound) :
    y ∈ recursiveUnion next bound base ↔
      ∃ x ∈ base, Relation.ReflTransGen (fun a b => b ∈ next a) x y := by
  constructor
  · refine exists_path_of_mem_rounds (List.Subset.refl _) fun z hz => ?_
    exact ⟨z, List.mem_dedup.mp hz, .refl⟩
  · rintro ⟨x, hx, hpath⟩
    induction hpath with
    | refl => exact subset_rounds _ _ _ (List.mem_dedup.mpr hx)
    | @tail b c _ hbc ih =>
        refine rounds_closed hU (fun z hz => hbase (List.mem_dedup.mp hz)) (List.nodup_dedup _)
          (List.Subset.refl _) (fun z hz => .inl hz) ?_ ih hbc
        omega

end Recursive
