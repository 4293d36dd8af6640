import Mathlib.Data.List.Sort

/-! # Pages of an ordered list

A list in strict order is read in pages: what follows an entry in the order is what follows it
in the list, so a page may start after the last entry of the one before it.
-/

namespace Paging

variable {α : Type*} {r : α → α → Prop} [DecidableRel r] {front back : List α} {a : α}

/-- What the order puts after an entry is the rest of the list. -/
theorem filter_after (hasymm : ∀ x y, r x y → ¬ r y x) (h : (front ++ a :: back).Pairwise r) :
    (front ++ a :: back).filter (fun x => r a x) = back := by
  obtain ⟨-, hback, hcross⟩ := List.pairwise_append.mp h
  have hfront : ∀ x ∈ front, ¬ r a x := fun x hx => hasymm x a (hcross x hx a List.mem_cons_self)
  have hself : ¬ r a a := fun haa => hasymm a a haa haa
  rw [List.filter_append, List.filter_cons, if_neg (by simpa using hself),
    List.filter_eq_nil_iff.mpr (by simpa using hfront), List.nil_append]
  exact List.filter_eq_self.mpr fun x hx => decide_eq_true (List.rel_of_pairwise_cons hback hx)

/-- As many entries are put before an entry as stand before it. -/
theorem countP_before (hasymm : ∀ x y, r x y → ¬ r y x) (h : (front ++ a :: back).Pairwise r) :
    (front ++ a :: back).countP (fun x => r x a) = front.length := by
  obtain ⟨-, hback, hcross⟩ := List.pairwise_append.mp h
  have hrest : ∀ x ∈ a :: back, ¬ r x a := by
    intro x hx
    rcases List.mem_cons.mp hx with rfl | hx
    · exact fun hxx => hasymm x x hxx hxx
    · exact fun hxa => hasymm x a hxa (List.rel_of_pairwise_cons hback hx)
  rw [List.countP_append,
    List.countP_eq_length.mpr fun x hx => decide_eq_true (hcross x hx a List.mem_cons_self),
    List.countP_eq_zero.mpr (by simpa using hrest)]
  omega

/-- A window of at least eleven entries that starts at most ten above an entry holds the entry. -/
theorem mem_window {skip limit : ℕ} (hskip : skip ≤ front.length)
    (hlimit : front.length < skip + limit) :
    a ∈ ((front ++ a :: back).drop skip).take limit := by
  rw [List.drop_append_of_le_length hskip, List.take_append, List.mem_append]
  right
  have hlength : (front.drop skip).length < limit := by
    rw [List.length_drop]
    omega
  obtain ⟨n, hn⟩ : ∃ n, limit - (front.drop skip).length = n + 1 :=
    ⟨limit - (front.drop skip).length - 1, by omega⟩
  rw [hn, List.take_succ_cons]
  exact List.mem_cons_self

end Paging
