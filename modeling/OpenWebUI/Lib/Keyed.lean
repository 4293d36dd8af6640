import Mathlib.Data.List.Nodup

/-! # Lists of records known by a key

Looking up the first record with a key, and editing the first record that satisfies a
test. Where keys are distinct, such an edit changes what is found under one key.
-/

namespace Keyed

variable {α κ β : Type*} {p q : α → Bool} {f : α → α} {l : List α} {a : α}

/-- Edits the first element that satisfies `p`. -/
def editFirst (p : α → Bool) (f : α → α) : List α → List α
  | [] => []
  | a :: l => if p a then f a :: l else a :: editFirst p f l

/-- An edit that keeps a field keeps it along the list. -/
theorem map_editFirst (g : α → β) (h : ∀ a, p a → g (f a) = g a) (l : List α) :
    (editFirst p f l).map g = l.map g := by
  induction l with
  | nil => rfl
  | cons a l ih =>
      unfold editFirst
      split_ifs with hp
      · rw [List.map_cons, List.map_cons, h a hp]
      · rw [List.map_cons, List.map_cons, ih]

/-- An edit that makes nothing satisfy `q` does not raise their number. -/
theorem countP_editFirst_le (h : ∀ a, p a → q (f a) → q a) (l : List α) :
    (editFirst p f l).countP q ≤ l.countP q := by
  induction l with
  | nil => exact Nat.le_refl _
  | cons a l ih =>
      unfold editFirst
      split_ifs with hp
      · rw [List.countP_cons, List.countP_cons]
        by_cases hq : q (f a)
        · simp only [hq, h a hp hq, if_true, Nat.le_refl]
        · simp only [hq, Bool.false_eq_true, if_false]
          omega
      · rw [List.countP_cons, List.countP_cons]
        omega

/-- An edit raises the number of elements that satisfy `q` by one at most. -/
theorem countP_editFirst_le_succ (q : α → Bool) (l : List α) :
    (editFirst p f l).countP q ≤ l.countP q + 1 := by
  induction l with
  | nil => exact Nat.zero_le _
  | cons a l ih =>
      unfold editFirst
      split_ifs with hp
      · rw [List.countP_cons, List.countP_cons]
        split_ifs <;> omega
      · rw [List.countP_cons, List.countP_cons]
        omega

/-! ## Edits at a position -/

variable {i j : ℕ} {b : α}

/-- An element after a modification. -/
theorem of_modify (h : (l.modify i f)[j]? = some b) :
    (i ≠ j ∧ l[j]? = some b) ∨ (i = j ∧ ∃ a, l[j]? = some a ∧ f a = b) := by
  by_cases hij : i = j
  · subst hij
    rw [List.getElem?_modify_eq] at h
    exact .inr ⟨rfl, Option.map_eq_some_iff.mp h⟩
  · rw [List.getElem?_modify_ne f l hij] at h
    exact .inl ⟨hij, h⟩

/-- An element before a modification. -/
theorem modify_of (h : l[j]? = some a) : (l.modify i f)[j]? = some (if i = j then f a else a) := by
  rw [List.getElem?_modify, h]
  rfl

/-- An edit at a position counts the new element for the old one. -/
theorem countP_set (h : l[i]? = some a) (b : α) (p : α → Bool) :
    (l.set i b).countP p + (p a).toNat = l.countP p + (p b).toNat := by
  have hone : ∀ c : α, (p c).toNat = if p c then 1 else 0 := fun c => by cases p c <;> rfl
  rw [hone, hone]
  induction l generalizing i with
  | nil => cases h
  | cons c l ih =>
      cases i with
      | zero =>
          obtain rfl : c = a := Option.some.inj h
          rw [List.set_cons_zero, List.countP_cons, List.countP_cons]
          omega
      | succ i =>
          have := ih h
          rw [List.set_cons_succ, List.countP_cons, List.countP_cons]
          omega

theorem of_snoc (h : (l ++ [a])[j]? = some b) : l[j]? = some b ∨ (j = l.length ∧ b = a) := by
  have hlt := (List.getElem?_eq_some_iff.mp h).1
  rw [List.length_append, List.length_singleton] at hlt
  by_cases hj : j < l.length
  · rw [List.getElem?_append_left hj] at h
    exact .inl h
  · obtain rfl : j = l.length := by omega
    rw [List.getElem?_concat_length, Option.some.injEq] at h
    exact .inr ⟨rfl, h.symm⟩

section Keys

variable [DecidableEq κ] {key : α → κ} {k k' : κ}

/-- The first record with the key `k`. -/
def find (key : α → κ) (k : κ) (l : List α) : Option α := l.find? fun a => key a = k

/-- What is found has the key. -/
theorem key_of_find (h : find key k l = some a) : key a = k := by
  have := List.find?_some h
  exact of_decide_eq_true this

theorem mem_of_find (h : find key k l = some a) : a ∈ l := List.mem_of_find?_eq_some h

/-- Where keys are distinct an element is found by its own. -/
theorem find_of_mem (hl : (l.map key).Nodup) (ha : a ∈ l) : find key (key a) l = some a := by
  cases hf : find key (key a) l with
  | none =>
      have := List.find?_eq_none.mp hf a ha
      simp at this
  | some b => rw [List.inj_on_of_nodup_map hl (mem_of_find hf) ha (key_of_find hf)]

theorem find_cons (a : α) (l : List α) :
    find key k (a :: l) = if key a = k then some a else find key k l := by
  unfold find
  by_cases h : key a = k
  · rw [if_pos h]
    exact List.find?_cons_of_pos (by simpa using h)
  · rw [if_neg h]
    exact List.find?_cons_of_neg (by simpa using h)

/-- Where keys are distinct, an edit changes what is found under one key, and nothing else. -/
theorem find_editFirst (hl : (l.map key).Nodup) (ha : l.find? p = some a)
    (hf : key (f a) = key a) :
    find key k (editFirst p f l) = if k = key a then some (f a) else find key k l := by
  induction l with
  | nil => cases ha
  | cons b l ih =>
      rw [List.map_cons, List.nodup_cons] at hl
      unfold editFirst
      by_cases hb : p b
      · -- the head is the record that is edited
        rw [List.find?_cons_of_pos hb, Option.some.injEq] at ha
        subst ha
        rw [if_pos hb, find_cons, find_cons, hf]
        split_ifs with h h' h'
        · rfl
        · exact absurd h.symm h'
        · exact absurd h'.symm h
        · rfl
      · rw [List.find?_cons_of_neg hb] at ha
        have hne : key b ≠ key a := fun h =>
          hl.1 (h ▸ List.mem_map_of_mem (List.mem_of_find?_eq_some ha))
        rw [if_neg hb, find_cons, find_cons, ih hl.2 ha]
        split_ifs with h h'
        · exact absurd (h.trans h') hne
        all_goals rfl

end Keys

end Keyed
