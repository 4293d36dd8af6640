import Mathlib.Data.List.Basic
import Mathlib.Logic.Relation

/-! # Labelled transition systems

A system is a predicate for its initial states and a step relation labelled by
events. The rules say once how a property of single steps becomes a property of
whole runs.
-/

namespace Transition

variable {σ ι : Type*} {init : σ → Prop} {step step' : ι → σ → σ → Prop}

/-- The states that some finite run reaches. -/
inductive Reachable (init : σ → Prop) (step : ι → σ → σ → Prop) : σ → Prop
  | start {s : σ} (h : init s) : Reachable init step s
  | next {s s' : σ} {a : ι} (hs : Reachable init step s) (h : step a s s') : Reachable init step s'

/-- Invariant induction: what holds initially and survives every step holds in
every reachable state. -/
theorem Reachable.invariant {Inv : σ → Prop} {s : σ} (hs : Reachable init step s)
    (hinit : ∀ s, init s → Inv s) (hstep : ∀ a s s', Inv s → step a s s' → Inv s') : Inv s := by
  induction hs with
  | start h => exact hinit _ h
  | next _ h ih => exact hstep _ _ _ ih h

/-- A system with fewer steps reaches fewer states. -/
theorem Reachable.mono {s : σ} (hs : Reachable init step s)
    (h : ∀ a s s', step a s s' → step' a s s') : Reachable init step' s := by
  induction hs with
  | start h0 => exact .start h0
  | next _ hstep ih => exact .next ih (h _ _ _ hstep)

/-- An invariant may be used while proving that a second one is preserved. -/
theorem Reachable.invariant_of {Inv Inv' : σ → Prop} {s : σ} (hs : Reachable init step s)
    (hall : ∀ s, Reachable init step s → Inv s) (hinit : ∀ s, init s → Inv' s)
    (hstep : ∀ a s s', Inv s → Inv' s → step a s s' → Inv' s') : Inv' s := by
  induction hs with
  | start h => exact hinit _ h
  | next hr h ih => exact hstep _ _ _ (hall _ hr) ih h

/-- The state after a list of events is reached. -/
theorem Reachable.foldlM {next : σ → ι → Option σ} {events : List ι} {s s' : σ}
    (hs : Reachable init (fun a s s' => next s a = some s') s)
    (h : events.foldlM next s = some s') :
    Reachable init (fun a s s' => next s a = some s') s' := by
  induction events generalizing s with
  | nil =>
      cases h
      exact hs
  | cons a events ih =>
      obtain ⟨s₁, hnext, hrest⟩ := Option.bind_eq_some_iff.mp (List.foldlM_cons.symm.trans h)
      exact ih (.next hs hnext) hrest

/-! ## Loops

A loop whose steps keep an invariant and stay in a transitive relation.
-/

section Loops

variable {α : Type*} {R : σ → σ → Prop} {I : σ → Prop} {l : List α} {s t : σ}

/-- What each step of a loop keeps the loop keeps. -/
theorem foldl_keeps {f : σ → α → σ} (hrefl : ∀ s, R s s) (htrans : ∀ s t u, R s t → R t u → R s u)
    (hstep : ∀ s, ∀ a ∈ l, I s → R s (f s a) ∧ I (f s a)) (hs : I s) :
    R s (l.foldl f s) ∧ I (l.foldl f s) := by
  induction l generalizing s with
  | nil => exact ⟨hrefl s, hs⟩
  | cons a l ih =>
      have hfirst := hstep s a List.mem_cons_self hs
      have hrest := ih (fun s b hb => hstep s b (List.mem_cons_of_mem _ hb)) hfirst.2
      exact ⟨htrans _ _ _ hfirst.1 hrest.1, hrest.2⟩

/-- What each step of a loop that may fail keeps the loop keeps. -/
theorem foldlM_keeps {f : σ → α → Option σ} (hrefl : ∀ s, R s s)
    (htrans : ∀ s t u, R s t → R t u → R s u)
    (hstep : ∀ s, ∀ a ∈ l, ∀ t, I s → f s a = some t → R s t ∧ I t) (hs : I s)
    (h : l.foldlM f s = some t) :
    R s t ∧ I t := by
  induction l generalizing s with
  | nil => exact Option.some.inj h ▸ ⟨hrefl s, hs⟩
  | cons a l ih =>
      obtain ⟨u, hu, hrest⟩ := Option.bind_eq_some_iff.mp (List.foldlM_cons.symm.trans h)
      have hfirst := hstep s a List.mem_cons_self u hs hu
      have hlast := ih (fun s b hb => hstep s b (List.mem_cons_of_mem _ hb)) hfirst.2 hrest
      exact ⟨htrans _ _ _ hfirst.1 hlast.1, hlast.2⟩

end Loops

/-! ## Histories -/

variable {ε : Type*} {P : List ε → ε → Prop} {log : List ε} {e : ε}

/-- Every entry of a history is justified by the entries before it. -/
def Justified (P : List ε → ε → Prop) (log : List ε) : Prop :=
  ∀ before e after, log = before ++ e :: after → P before e

theorem Justified.nil : Justified P [] := by
  intro before e after h
  have := congrArg List.length h
  simp at this

/-- A log stays justified with an entry that is. -/
theorem Justified.snoc (h : Justified P log) (he : P log e) : Justified P (log ++ [e]) := by
  intro before e' after heq
  rcases List.eq_nil_or_concat' after with rfl | ⟨after', e'', rfl⟩
  · -- the last entry
    obtain ⟨rfl, he'⟩ := List.append_inj' heq rfl
    obtain rfl := List.singleton_inj.mp he'
    exact he
  · -- an earlier one
    rw [← List.cons_append, ← List.append_assoc] at heq
    exact h before e' after' (List.append_inj' heq rfl).1

end Transition
