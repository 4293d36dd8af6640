import Mathlib.Data.List.Basic

/-! # Cutting at a separator

`*lines, rest = xs.split(sep)`: the parts a separator closes, and the one it leaves open.
-/

namespace Lines

variable {α : Type} [DecidableEq α]

/-- The parts that a separator closes. -/
def lines (sep : α) (xs : List α) : List (List α) := (xs.splitOn sep).dropLast

/-- What follows the last separator. -/
def rest (sep : α) (xs : List α) : List α :=
  (xs.splitOn sep).getLast (List.splitOn_ne_nil sep xs)

variable {sep : α}

/-- Splitting gives the closed lines and the rest. -/
theorem splitOn_eq (xs : List α) : xs.splitOn sep = lines sep xs ++ [rest sep xs] :=
  (List.dropLast_append_getLast _).symm

/-- The closed lines are all but the last part. -/
theorem lines_of_splitOn {xs : List α} {ls : List (List α)} {r : List α}
    (h : xs.splitOn sep = ls ++ [r]) : lines sep xs = ls ∧ rest sep xs = r := by
  rw [splitOn_eq] at h
  have hlast := List.append_inj' h rfl
  exact ⟨hlast.1, by simpa using hlast.2⟩

/-- Without a separator no line is closed. -/
theorem of_not_mem {xs : List α} (h : sep ∉ xs) : lines sep xs = [] ∧ rest sep xs = xs :=
  lines_of_splitOn (List.splitOn_eq_singleton h)

/-- A separator closes what stands before it. -/
theorem append_cons (xs ys : List α) :
    lines sep (xs ++ sep :: ys) = xs.splitOn sep ++ lines sep ys ∧
      rest sep (xs ++ sep :: ys) = rest sep ys := by
  apply lines_of_splitOn
  rw [List.splitOn_append_cons_self, splitOn_eq ys, List.append_assoc]

/-- Either nothing is closed, or the first separator closes the first part. -/
theorem first_cases (sep : α) (xs : List α) :
    (sep ∉ xs) ∨ ∃ l ys, sep ∉ l ∧ xs = l ++ sep :: ys := by
  by_cases h : sep ∈ xs
  · obtain ⟨l, ys, hxs, hl⟩ := List.eq_append_cons_of_mem h
    exact Or.inr ⟨l, ys, hl, hxs⟩
  · exact Or.inl h

/-- Cutting goes on from the open part: what was closed stays closed. -/
theorem append (xs ys : List α) :
    lines sep (xs ++ ys) = lines sep xs ++ lines sep (rest sep xs ++ ys) ∧
      rest sep (xs ++ ys) = rest sep (rest sep xs ++ ys) := by
  induction h : xs.length using Nat.strongRecOn generalizing xs with
  | _ n ih =>
      rcases first_cases sep xs with hnone | ⟨l, tail, hl, rfl⟩
      · rw [(of_not_mem hnone).1, (of_not_mem hnone).2]
        exact ⟨rfl, rfl⟩
      · have hlen : tail.length < n := by
          rw [← h, List.length_append, List.length_cons]
          omega
        have htail := ih tail.length hlen tail rfl
        rw [List.append_assoc, List.cons_append, (append_cons l (tail ++ ys)).1,
          (append_cons l (tail ++ ys)).2, (append_cons l tail).1, (append_cons l tail).2,
          List.append_assoc, htail.1, htail.2]
        exact ⟨rfl, rfl⟩

theorem not_mem_rest (xs : List α) : sep ∉ rest sep xs := by
  induction h : xs.length using Nat.strongRecOn generalizing xs with
  | _ n ih =>
      rcases first_cases sep xs with hnone | ⟨l, tail, hl, rfl⟩
      · rwa [(of_not_mem hnone).2]
      · rw [(append_cons l tail).2]
        refine ih tail.length ?_ tail rfl
        rw [← h, List.length_append, List.length_cons]
        omega

/-- No piece contains the separator. -/
theorem not_mem_of_mem_splitOn {xs l : List α} (h : l ∈ xs.splitOn sep) : sep ∉ l := by
  induction xs generalizing l with
  | nil =>
      obtain rfl := List.mem_singleton.mp (List.splitOn_nil sep ▸ h)
      exact List.not_mem_nil
  | cons x xs ih =>
      rw [List.splitOn_cons_eq_if_modifyHead] at h
      split_ifs at h with hx
      · rcases List.mem_cons.mp h with rfl | h
        · exact List.not_mem_nil
        · exact ih h
      · cases hpieces : xs.splitOn sep with
        | nil => exact absurd hpieces (List.splitOn_ne_nil sep xs)
        | cons piece pieces =>
            rw [hpieces, List.modifyHead_cons] at h
            rw [hpieces] at ih
            rcases List.mem_cons.mp h with rfl | h
            · intro hmem
              rcases List.mem_cons.mp hmem with rfl | hmem
              · exact hx (beq_self_eq_true sep)
              · exact ih List.mem_cons_self hmem
            · exact ih (List.mem_cons_of_mem _ h)

/-- A head without a separator lengthens the first part that gets closed, and nothing else. -/
theorem head_append {xs : List α} (hxs : sep ∈ xs) :
    ∃ l ls, ∀ hd, sep ∉ hd →
      lines sep (hd ++ xs) = (hd ++ l) :: ls ∧ rest sep (hd ++ xs) = rest sep xs := by
  rcases first_cases sep xs with hnone | ⟨l, tail, hl, rfl⟩
  · exact absurd hxs hnone
  · refine ⟨l, lines sep tail, fun hd hhd => ?_⟩
    have hboth : sep ∉ hd ++ l := fun hin => (List.mem_append.mp hin).elim hhd hl
    rw [← List.append_assoc, (append_cons (hd ++ l) tail).1, (append_cons (hd ++ l) tail).2,
      (append_cons l tail).2, List.splitOn_eq_singleton hboth]
    exact ⟨rfl, rfl⟩

end Lines
