import Mathlib.Data.Option.Basic
import Mathlib.Tactic.SplitIfs

/-! # Programs that raise

A program over a state `σ` either returns or raises, and keeps the state it has
reached either way, as an interpreter does. A triple says what holds of that state in
both cases; the rules follow the program's structure.
-/

namespace Program

variable {σ ε α β : Type}

/-- A computation over `σ` that may raise an `ε`. -/
abbrev Prog (σ ε α : Type) := ExceptT ε (StateM σ) α

/-- The outcome and the state reached. -/
def Prog.exec (x : Prog σ ε α) (s : σ) : Except ε α × σ := (ExceptT.run x).run s

/-- Goes on if the condition holds and raises otherwise. -/
def ensure (e : ε) (c : Prop) [Decidable c] : Prog σ ε Unit := if c then pure () else throw e

/-- The value, if there is one. -/
def ofOption (e : ε) : Option α → Prog σ ε α
  | some a => pure a
  | none => throw e

/-- From `P`, a return satisfies `Q` and a raise satisfies `E`. -/
def Triple (P : σ → Prop) (x : Prog σ ε α) (Q : α → σ → Prop) (E : ε → σ → Prop) : Prop :=
  ∀ s, P s → match x.exec s with
    | (.ok a, s') => Q a s'
    | (.error e, s') => E e s'

variable {P P' : σ → Prop} {Q Q' : α → σ → Prop} {R : β → σ → Prop} {E E' : ε → σ → Prop}

/-! ## Outcomes -/

/-- A guard passes where its test does. -/
theorem guard_eq_some_iff {p : Prop} [Decidable p] {u : Unit} :
    (guard p : Option Unit) = some u ↔ p := by
  unfold guard
  split_ifs with hp
  · exact iff_of_true rfl hp
  · exact iff_of_false (fun h => by cases h) hp

/-- A traversal that succeeds has a result for every element. -/
theorem map_of_mapM_eq_some {f : α → Option β} {l : List α} {r : List β} (h : l.mapM f = some r) :
    l.map f = r.map some := by
  induction l generalizing r with
  | nil =>
      obtain rfl := Option.some.inj h
      rfl
  | cons a l ih =>
      rw [List.mapM_cons, Option.bind_eq_bind, Option.bind_eq_some_iff] at h
      obtain ⟨b, hb, h⟩ := h
      obtain ⟨r', hr', hr⟩ := Option.bind_eq_some_iff.mp h
      obtain rfl := Option.some.inj hr
      rw [List.map_cons, List.map_cons, hb, ih hr']

/-- A traversal that succeeds on every element. -/
theorem mapM_eq_some_map {f : α → Option β} {g : α → β} {l : List α}
    (h : ∀ a ∈ l, f a = some (g a)) : l.mapM f = some (l.map g) := by
  induction l with
  | nil => rfl
  | cons a l ih =>
      rw [List.mapM_cons, h a (List.mem_cons_self ..),
        ih fun b hb => h b (List.mem_cons_of_mem _ hb)]
      rfl

@[simp] theorem exec_pure (a : α) (s : σ) : (pure a : Prog σ ε α).exec s = (.ok a, s) := rfl

@[simp] theorem exec_throw (e : ε) (s : σ) : (throw e : Prog σ ε α).exec s = (.error e, s) := rfl

/-- A chain runs the second program where the first returned. -/
theorem exec_bind (x : Prog σ ε α) (f : α → Prog σ ε β) (s : σ) :
    (x >>= f).exec s = match x.exec s with
      | (.ok a, s') => (f a).exec s'
      | (.error e, s') => (.error e, s') := by
  change (ExceptT.bindCont f (x.exec s).1 : StateM σ (Except ε β)) (x.exec s).2 = _
  rcases x.exec s with ⟨_ | _, _⟩ <;> rfl

@[simp] theorem exec_get (s : σ) : (get : Prog σ ε σ).exec s = (.ok s, s) := rfl

@[simp] theorem exec_set (s' s : σ) : (set s' : Prog σ ε PUnit).exec s = (.ok ⟨⟩, s') := rfl

@[simp] theorem exec_modify (f : σ → σ) (s : σ) :
    (modify f : Prog σ ε PUnit).exec s = (.ok ⟨⟩, f s) := rfl

/-! ## Rules -/

/-- Returning a value. -/
theorem triple_pure (a : α) (h : ∀ s, P s → Q a s) : Triple P (pure a : Prog σ ε α) Q E :=
  fun s hs => h s hs

/-- Raising an error. -/
theorem triple_throw (e : ε) (h : ∀ s, P s → E e s) : Triple P (throw e : Prog σ ε α) Q E :=
  fun s hs => h s hs

/-- The rule for chains. -/
theorem triple_bind {x : Prog σ ε α} {f : α → Prog σ ε β} (hx : Triple P x Q E)
    (hf : ∀ a, Triple (Q a) (f a) R E) : Triple P (x >>= f) R E := by
  intro s hs
  have h := hx s hs
  rw [exec_bind]
  rcases hxs : x.exec s with ⟨e | a, s'⟩
  · rw [hxs] at h
    exact h
  · rw [hxs] at h
    exact hf a s' h

/-- The rest of a program may be verified for each state it can start from. -/
theorem triple_get_bind {f : σ → Prog σ ε β} (h : ∀ s, P s → Triple (fun s' => s' = s) (f s) R E) :
    Triple P (get >>= f) R E := by
  intro s hs
  rw [exec_bind, exec_get]
  exact h s hs s rfl

/-- Changing the state. -/
theorem triple_modify {f : σ → σ} {Q : PUnit → σ → Prop} (h : ∀ s, P s → Q ⟨⟩ (f s)) :
    Triple P (modify f : Prog σ ε PUnit) Q E :=
  fun s hs => h s hs

/-- The rest of a program starts from the state that was set. -/
theorem triple_set_bind {s' : σ} {f : PUnit → Prog σ ε β}
    (h : Triple (fun s => s = s') (f ⟨⟩) R E) : Triple P (set s' >>= f) R E := by
  intro s _
  rw [exec_bind, exec_set]
  exact h s' rfl

/-- Consequence. -/
theorem Triple.mono {x : Prog σ ε α} (h : Triple P x Q E) (hP : ∀ s, P' s → P s)
    (hQ : ∀ a s, Q a s → Q' a s) (hE : ∀ e s, E e s → E' e s) : Triple P' x Q' E' := by
  intro s hs
  have hx := h s (hP s hs)
  rcases hxs : x.exec s with ⟨e | a, s'⟩
  · rw [hxs] at hx
    exact hE e s' hx
  · rw [hxs] at hx
    exact hQ a s' hx

/-- Two triples of one program. -/
theorem Triple.and {x : Prog σ ε α} (h : Triple P x Q E) (h' : Triple P' x Q' E') :
    Triple (fun s => P s ∧ P' s) x (fun a s => Q a s ∧ Q' a s) fun e s => E e s ∧ E' e s := by
  intro s hs
  have hx := h s hs.1
  have hx' := h' s hs.2
  rcases hxs : x.exec s with ⟨e | a, s'⟩
  · rw [hxs] at hx hx'
    exact ⟨hx, hx'⟩
  · rw [hxs] at hx hx'
    exact ⟨hx, hx'⟩

/-- A pure part of the precondition becomes a hypothesis. -/
theorem triple_of_pre {p : Prop} {x : Prog σ ε α} (h : p → Triple P x Q E) :
    Triple (fun s => p ∧ P s) x Q E :=
  fun s hs => h hs.1 s hs.2

/-- The rule for branches. -/
theorem triple_ite {c : Prop} [Decidable c] {x y : Prog σ ε α} (hx : c → Triple P x Q E)
    (hy : ¬ c → Triple P y Q E) : Triple P (if c then x else y) Q E := by
  by_cases hc : c
  · rw [if_pos hc]
    exact hx hc
  · rw [if_neg hc]
    exact hy hc

/-- What follows a check may rely on it. -/
theorem ensure_bind {c : Prop} [Decidable c] {e : ε} {f : Unit → Prog σ ε β}
    (hE : ∀ s, P s → E e s) (hf : c → Triple P (f ()) R E) :
    Triple P (ensure e c >>= f) R E := by
  refine triple_bind (Q := fun _ s => c ∧ P s) ?_ fun _ => triple_of_pre hf
  exact triple_ite (fun hc => triple_pure _ fun _ hs => ⟨hc, hs⟩) fun _ => triple_throw _ hE

/-- A value that may be missing. -/
theorem triple_ofOption {o : Option α} {e : ε} (hE : ∀ s, P s → E e s)
    (hQ : ∀ a, o = some a → ∀ s, P s → Q a s) : Triple P (ofOption e o) Q E := by
  cases o with
  | none => exact triple_throw _ hE
  | some a => exact triple_pure _ (hQ a rfl)

/-- A chain after a value that may be missing. -/
theorem ofOption_bind {o : Option α} {e : ε} {f : α → Prog σ ε β} (hE : ∀ s, P s → E e s)
    (hf : ∀ a, o = some a → Triple P (f a) R E) : Triple P (ofOption e o >>= f) R E := by
  refine triple_bind (Q := fun a s => o = some a ∧ P s) ?_ fun a => triple_of_pre (hf a)
  exact triple_ofOption hE fun a ha _ hs => ⟨ha, hs⟩

/-- A chain after a value that is there. -/
theorem ofOption_bind_some {o : Option α} {e : ε} {f : α → Prog σ ε β} {a : α} (ho : o = some a)
    (hf : Triple P (f a) R E) : Triple P (ofOption e o >>= f) R E := by
  subst ho
  exact hf

/-- A loop that carries no value keeps what each of its turns keeps. -/
theorem triple_forM {f : α → Prog σ ε PUnit} (l : List α)
    (h : ∀ a ∈ l, Triple P (f a) (fun _ => P) E) : Triple P (l.forM f) (fun _ => P) E := by
  induction l with
  | nil => exact triple_pure _ fun _ hs => hs
  | cons a l ih =>
      exact triple_bind (h a (List.mem_cons_self ..)) fun _ =>
        ih fun a ha => h a (List.mem_cons_of_mem _ ha)

/-- A loop keeps what each of its turns keeps. -/
theorem triple_foldlM {I : β → σ → Prop} {f : β → α → Prog σ ε β} (l : List α)
    (h : ∀ b, ∀ a ∈ l, Triple (I b) (f b a) I E) (b : β) : Triple (I b) (l.foldlM f b) I E := by
  induction l generalizing b with
  | nil => exact triple_pure b fun _ hs => hs
  | cons a l ih =>
      rw [List.foldlM_cons]
      exact triple_bind (h b a (List.mem_cons_self ..)) fun b' =>
        ih (fun b a ha => h b a (List.mem_cons_of_mem _ ha)) b'

end Program
