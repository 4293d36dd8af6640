import Mathlib.Data.List.Dedup
import Mathlib.Data.List.Perm.Subperm
import Mathlib.Logic.Relation

/-! # Worklists

A worklist collects what steps lead to: the top of a stack is replaced by those of its successors
that are new. Enough turns collect everything that can be reached, and nothing else is collected.
-/

namespace Worklist

variable {α : Type*} [DecidableEq α]

/-- The successors that are new are collected and put on the stack, the last one on top. -/
def push (successors found stack : List α) : List α × List α :=
  successors.foldl (fun p y => if y ∈ p.1 then p else (p.1 ++ [y], y :: p.2)) (found, stack)

/-- Turns of the worklist, at most `n` of them. -/
def collect (next : α → List α) : ℕ → List α → List α → List α
  | 0, found, _ => found
  | _ + 1, found, [] => found
  | n + 1, found, x :: stack =>
      collect next n (push (next x) found stack).1 (push (next x) found stack).2

variable {next : α → List α} {successors found stack U : List α} {x y : α} {n : ℕ}

/-- What a turn adds: the successors that are new, each once. -/
theorem exists_push (successors found stack : List α) : ∃ new : List α,
    push successors found stack = (found ++ new, new.reverse ++ stack) ∧ new.Nodup ∧
      ∀ y, y ∈ new ↔ y ∈ successors ∧ y ∉ found := by
  induction successors generalizing found stack with
  | nil => exact ⟨[], by simp [push], List.nodup_nil, by simp⟩
  | cons z successors ih =>
      by_cases hz : z ∈ found
      · obtain ⟨new, hpush, hnodup, hmem⟩ := ih found stack
        refine ⟨new, ?_, hnodup, fun y => ?_⟩
        · rw [← hpush, push, List.foldl_cons, if_pos hz]
          rfl
        · rw [hmem]
          grind
      · obtain ⟨new, hpush, hnodup, hmem⟩ := ih (found ++ [z]) (z :: stack)
        refine ⟨z :: new, ?_, ?_, fun y => ?_⟩
        · rw [push, List.foldl_cons, if_neg hz]
          exact hpush.trans (by simp)
        · refine List.nodup_cons.mpr ⟨fun hmem' => ?_, hnodup⟩
          exact ((hmem z).mp hmem').2 (List.mem_append_right _ (List.mem_singleton_self _))
        · rw [List.mem_cons, hmem]
          grind

theorem collect_cons : collect next (n + 1) found (x :: stack) =
    collect next n (push (next x) found stack).1 (push (next x) found stack).2 := rfl

/-- What was found stays found. -/
theorem subset_collect (n : ℕ) (found stack : List α) : found ⊆ collect next n found stack := by
  induction n generalizing found stack with
  | zero => exact List.Subset.refl _
  | succ n ih =>
      cases stack with
      | nil => exact List.Subset.refl _
      | cons x stack =>
          obtain ⟨new, hpush, -, -⟩ := exists_push (next x) found stack
          rw [collect_cons, hpush]
          exact List.Subset.trans (List.subset_append_left _ _) (ih _ _)

/-- Whatever is collected is the end of a path of steps. -/
theorem exists_path_of_mem_collect {P : α → Prop} (hP : ∀ x y, P x → y ∈ next x → P y)
    (hstack : ∀ x ∈ stack, P x) (hfound : ∀ x ∈ found, P x) (h : y ∈ collect next n found stack) :
    P y := by
  induction n generalizing found stack with
  | zero => exact hfound y h
  | succ n ih =>
      cases stack with
      | nil => exact hfound y h
      | cons x stack =>
          obtain ⟨new, hpush, -, hmem⟩ := exists_push (next x) found stack
          rw [collect_cons, hpush] at h
          have hnew : ∀ z ∈ new, P z :=
            fun z hz => hP x z (hstack x List.mem_cons_self) ((hmem z).mp hz).1
          refine ih ?_ ?_ h
          · intro z hz
            rcases List.mem_append.mp hz with hz | hz
            · exact hnew z (List.mem_reverse.mp hz)
            · exact hstack z (List.mem_cons_of_mem _ hz)
          · intro z hz
            rcases List.mem_append.mp hz with hz | hz
            · exact hfound z hz
            · exact hnew z hz

/-- With enough turns the elements found are closed under steps: each turn takes one element from
the stack, and none comes there twice. -/
theorem collect_closed (hU : ∀ x ∈ U, next x ⊆ U) (hfound : found ⊆ U) (hnodup : found.Nodup)
    (hsub : stack ⊆ found) (hstack : ∀ x ∈ found, x ∈ stack ∨ next x ⊆ found)
    (hn : U.length + stack.length ≤ found.length + n) (hx : x ∈ collect next n found stack) :
    next x ⊆ collect next n found stack := by
  induction n generalizing found stack with
  | zero =>
      -- all of `U` has been found, so nothing is on the stack
      have hlength : found.length ≤ U.length := (hnodup.subperm hfound).length_le
      have hnil : stack = [] := List.length_eq_zero_iff.mp (by omega)
      subst hnil
      exact (hstack x hx).resolve_left List.not_mem_nil
  | succ n ih =>
      cases stack with
      | nil => exact (hstack x hx).resolve_left List.not_mem_nil
      | cons z stack =>
          obtain ⟨new, hpush, hnew, hmem⟩ := exists_push (next z) found stack
          rw [collect_cons, hpush] at hx ⊢
          have hz : z ∈ found := hsub List.mem_cons_self
          refine ih ?_ ?_ ?_ ?_ ?_ hx
          · refine List.append_subset.mpr ⟨hfound, fun y hy => ?_⟩
            exact hU z (hfound hz) ((hmem y).mp hy).1
          · exact List.Nodup.append hnodup hnew fun y hy hy' => ((hmem y).mp hy').2 hy
          · intro y hy
            rcases List.mem_append.mp hy with hy | hy
            · exact List.mem_append_right _ (List.mem_reverse.mp hy)
            · exact List.mem_append_left _ (hsub (List.mem_cons_of_mem _ hy))
          -- what is waiting is on the stack, and for the rest all successors are found
          · intro y hy
            rcases List.mem_append.mp hy with hy | hy
            · rcases hstack y hy with hold | hclosed
              · rcases List.mem_cons.mp hold with rfl | hold
                · -- all successors of the element taken are found now
                  right
                  intro w hw
                  by_cases hwf : w ∈ found
                  · exact List.mem_append_left _ hwf
                  · exact List.mem_append_right _ ((hmem w).mpr ⟨hw, hwf⟩)
                · exact .inl (List.mem_append_right _ hold)
              · exact .inr (List.Subset.trans hclosed (List.subset_append_left _ _))
            · exact .inl (List.mem_append_left _ (List.mem_reverse.mpr hy))
          · simp only [List.length_append, List.length_reverse, List.length_cons] at hn ⊢
            omega

/-- From one element, a worklist collects exactly what steps lead to. -/
theorem mem_collect (hx : x ∈ U) (hU : ∀ x ∈ U, next x ⊆ U) (hn : U.length ≤ n) :
    y ∈ collect next n [x] [x] ↔ Relation.ReflTransGen (fun a b => b ∈ next a) x y := by
  constructor
  · refine exists_path_of_mem_collect (P :=
      fun y => Relation.ReflTransGen (fun a b => b ∈ next a) x y)
      (fun a b hpath hb => hpath.tail hb) ?_ ?_
    all_goals
      intro z hz
      obtain rfl := List.mem_singleton.mp hz
      exact .refl
  · intro hpath
    induction hpath with
    | refl => exact subset_collect _ _ _ (List.mem_singleton_self _)
    | tail _ hstep ih =>
        refine collect_closed hU (by simpa using hx) (List.nodup_singleton x)
          (List.Subset.refl _) ?_ ?_ ih hstep
        · exact fun z hz => .inl hz
        · simp only [List.length_singleton]
          omega

end Worklist
