import Mathlib.Data.List.Basic

/-! # Fallible updates of list slots

An update of one slot fails where the slot is missing or its value does not fit. Updates of
different slots commute, also where a list is padded to the slot first; updates of one slot
compose.
-/

namespace Slots

variable {α β : Type} {l l' : List α} {i j n m : ℕ} {d x : α} {f g : α → Option α}

/-- Update the value at `i`. -/
def updateAt (i : ℕ) (f : α → Option α) (l : List α) : Option (List α) :=
  l[i]?.bind fun x => (f x).map fun y => l.set i y

/-- An update succeeds where the slot is there and can be changed. -/
theorem updateAt_eq_some : updateAt i f l = some l' ↔
    ∃ x y, l[i]? = some x ∧ f x = some y ∧ l' = l.set i y := by
  simp only [updateAt, Option.bind_eq_some_iff, Option.map_eq_some_iff]
  constructor
  · rintro ⟨x, hx, y, hy, rfl⟩
    exact ⟨x, y, hx, hy, rfl⟩
  · rintro ⟨x, y, hx, hy, rfl⟩
    exact ⟨x, hx, y, hy, rfl⟩

theorem length_updateAt (h : updateAt i f l = some l') : l'.length = l.length := by
  obtain ⟨x, y, -, -, rfl⟩ := updateAt_eq_some.mp h
  exact List.length_set

theorem getElem?_updateAt_ne (h : updateAt i f l = some l') (hne : i ≠ j) : l'[j]? = l[j]? := by
  obtain ⟨x, y, -, -, rfl⟩ := updateAt_eq_some.mp h
  exact List.getElem?_set_ne hne

theorem updateAt_of_none (h : l[i]? = none) : updateAt i f l = none := by
  rw [updateAt, h]
  rfl

theorem updateAt_of_some (h : l[i]? = some x) : updateAt i f l = (f x).map fun y => l.set i y := by
  rw [updateAt, h]
  rfl

/-- Two updates of one slot are one. -/
theorem updateAt_updateAt : (updateAt i f l).bind (updateAt i g) =
    updateAt i (fun x => (f x).bind g) l := by
  cases hx : l[i]? with
  | none => rw [updateAt_of_none hx, updateAt_of_none hx, Option.bind_none]
  | some x =>
      rw [updateAt_of_some hx, updateAt_of_some hx]
      cases f x with
      | none => rfl
      | some y =>
          have hi : i < l.length := (List.getElem?_eq_some_iff.mp hx).1
          have hy : (l.set i y)[i]? = some y := List.getElem?_set_self hi
          simp only [Option.map_some, Option.bind_some, updateAt_of_some hy, List.set_set]

/-- Updates of different slots commute. -/
theorem updateAt_comm (hne : i ≠ j) : (updateAt i f l).bind (updateAt j g) =
    (updateAt j g l).bind (updateAt i f) := by
  cases hx : l[i]? with
  | none =>
      rw [updateAt_of_none hx, Option.bind_none]
      cases h : updateAt j g l with
      | none => rfl
      | some l' =>
          have hx' := (getElem?_updateAt_ne h hne.symm).trans hx
          rw [Option.bind_some, updateAt_of_none hx']
  | some x =>
      rw [updateAt_of_some hx]
      cases hz : l[j]? with
      | none =>
          rw [updateAt_of_none hz, Option.bind_none]
          cases f x with
          | none => rfl
          | some y =>
              have hz' : (l.set i y)[j]? = none := (List.getElem?_set_ne hne).trans hz
              rw [Option.map_some, Option.bind_some, updateAt_of_none hz']
      | some z =>
          rw [updateAt_of_some hz]
          -- what is done to one slot leaves the other
          have hi : ∀ w, (l.set j w)[i]? = some x :=
            fun w => (List.getElem?_set_ne hne.symm).trans hx
          have hj : ∀ y, (l.set i y)[j]? = some z := fun y => (List.getElem?_set_ne hne).trans hz
          cases hf : f x with
          | none =>
              cases g z with
              | none => rfl
              | some w =>
                  rw [Option.map_none, Option.bind_none, Option.map_some, Option.bind_some,
                    updateAt_of_some (hi w), hf]
                  rfl
          | some y =>
              rw [Option.map_some, Option.bind_some, updateAt_of_some (hj y)]
              cases g z with
              | none => rfl
              | some w =>
                  rw [Option.map_some, Option.map_some, Option.bind_some, updateAt_of_some (hi w),
                    hf, Option.map_some, List.set_comm _ _ hne]

/-- What a view of the values determines of the update, it determines of the list. -/
theorem updateAt_congr {v : α → β} (hl : l.map v = l'.map v)
    (hf : ∀ x x', l[i]? = some x → l'[i]? = some x' → v x = v x' → (f x).map v = (g x').map v) :
    (updateAt i f l).map (List.map v) = (updateAt i g l').map (List.map v) := by
  have hget : l[i]?.map v = l'[i]?.map v := by
    rw [← List.getElem?_map, ← List.getElem?_map, hl]
  cases hx : l[i]? with
  | none =>
      rw [hx, Option.map_none] at hget
      rw [updateAt_of_none hx, updateAt_of_none (Option.map_eq_none_iff.mp hget.symm)]
  | some x =>
      rw [hx, Option.map_some] at hget
      obtain ⟨x', hx', hv⟩ := Option.map_eq_some_iff.mp hget.symm
      have hy := hf x x' hx hx' hv.symm
      rw [updateAt_of_some hx, updateAt_of_some hx', Option.map_map, Option.map_map]
      have hset : ∀ (k : List α) (o : Option α), o.map (List.map v ∘ fun y => k.set i y) =
          (o.map v).map fun y => (k.map v).set i y := by
        intro k o
        cases o with
        | none => rfl
        | some y => simp [List.map_set]
      rw [hset, hset, hl, hy]

/-! ## Padding -/

/-- Fill a list up to a length. -/
def pad (d : α) (n : ℕ) (l : List α) : List α := l ++ List.replicate (n - l.length) d

theorem length_pad : (pad d n l).length = max l.length n := by
  rw [pad, List.length_append, List.length_replicate]
  omega

theorem pad_of_le (h : n ≤ l.length) : pad d n l = l := by
  rw [pad, Nat.sub_eq_zero_of_le h, List.replicate_zero, List.append_nil]

/-- Padding twice is padding once. -/
theorem pad_pad : pad d m (pad d n l) = pad d (max n m) l := by
  have hlength : m - (l ++ List.replicate (n - l.length) d).length =
      max n m - l.length - (n - l.length) := by
    rw [List.length_append, List.length_replicate]
    omega
  rw [pad, pad, pad, hlength, List.append_assoc, List.replicate_append_replicate]
  congr 2
  omega

theorem pad_set (h : i < l.length) (y : α) : pad d n (l.set i y) = (pad d n l).set i y := by
  rw [pad, pad, List.length_set, List.set_append_left _ _ h]

/-- Padding after an update is padding before it. -/
theorem map_pad_updateAt (h : i < l.length) :
    (updateAt i f l).map (pad d n) = updateAt i f (pad d n l) := by
  have hx : l[i]? = some l[i] := List.getElem?_eq_getElem h
  have hpad : (pad d n l)[i]? = some l[i] := (List.getElem?_append_left h).trans hx
  rw [updateAt_of_some hx, updateAt_of_some hpad, Option.map_map]
  cases f l[i] with
  | none => rfl
  | some y => exact congrArg some (pad_set h y)

/-- Update the value at `i`, which is filled in if it is missing. -/
def updatePadded (d : α) (i : ℕ) (f : α → Option α) (l : List α) : Option (List α) :=
  updateAt i f (pad d (i + 1) l)

/-- After an update the slot is there. -/
theorem lt_length_of_updatePadded (h : updatePadded d i f l = some l') : i < l'.length := by
  have hlength := length_updateAt h
  rw [length_pad] at hlength
  omega

/-- Two updates of one slot are one. -/
theorem updatePadded_updatePadded : (updatePadded d i f l).bind (updatePadded d i g) =
    updatePadded d i (fun x => (f x).bind g) l := by
  have hsame : (updatePadded d i f l).bind (updatePadded d i g) =
      (updateAt i f (pad d (i + 1) l)).bind (updateAt i g) := by
    refine Option.bind_congr fun l' hl' => ?_
    rw [updatePadded, pad_of_le (lt_length_of_updatePadded hl')]
  rw [hsame, updateAt_updateAt]
  rfl

/-- Updates of two slots may be swapped. -/
theorem updatePadded_comm (hne : i ≠ j) : (updatePadded d i f l).bind (updatePadded d j g) =
    (updatePadded d j g l).bind (updatePadded d i f) := by
  have hboth : ∀ {i j : ℕ} {f g : α → Option α},
      (updatePadded d i f l).bind (updatePadded d j g) =
        (updateAt i f (pad d (max (i + 1) (j + 1)) l)).bind (updateAt j g) := by
    intro i j f g
    have hi : i < (pad d (i + 1) l).length := by
      rw [length_pad]
      omega
    have hpad : (updatePadded d i f l).map (pad d (j + 1)) =
        updateAt i f (pad d (max (i + 1) (j + 1)) l) := by
      rw [updatePadded, map_pad_updateAt hi, pad_pad]
    rw [← hpad, Option.bind_map]
    rfl
  rw [hboth, hboth, Nat.max_comm (j + 1), updateAt_comm hne]

end Slots
