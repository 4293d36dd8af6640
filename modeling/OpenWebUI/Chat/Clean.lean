import OpenWebUI.Chat.Table

/-! # Clean values

Everything a chat stores went through `_clean_null_bytes`. `Clean` says what that leaves:
no null character in any text, and dictionaries with distinct clean keys. Cleaning gives
clean values and leaves clean values alone.
-/

namespace OpenWebUI.Chat

open Py

/-- A text without null characters. -/
def NulFree (s : String) : Prop := '\x00' ∉ s.toList

instance (s : String) : Decidable (NulFree s) := inferInstanceAs (Decidable (_ ∉ _))

/-- The null character is the zero byte of UTF-8. -/
theorem nulFree_of_bytes {s : String} (h : (0 : UInt8) ∉ s.toByteArray.data.toList) :
    NulFree s := by
  intro hmem
  refine h ?_
  rw [← String.utf8Encode_toList, List.utf8Encode]
  simp only [List.data_toByteArray]
  refine List.mem_flatMap.mpr ⟨_, hmem, ?_⟩
  decide

inductive Clean : Json → Prop where
  | null : Clean .null
  | bool (b : Bool) : Clean (.bool b)
  | num (q : ℚ) : Clean (.num q)
  | str {s : String} (h : NulFree s) : Clean (.str s)
  | arr {xs : List Json} (h : ∀ x ∈ xs, Clean x) : Clean (.arr xs)
  | obj {o : Obj} (hkeys : (Assoc.keys o).Nodup) (hnul : ∀ k ∈ Assoc.keys o, NulFree k)
      (h : ∀ k v, o.lookup k = some v → Clean v) : Clean (.obj o)

/-- A sanitized text has no NUL. -/
theorem nulFree_sanitizeText (s : String) : NulFree (sanitizeText s) := by
  unfold NulFree sanitizeText
  split_ifs with h
  · rw [String.toList_ofList]
    intro hmem
    simpa using (List.mem_filter.mp hmem).2
  · exact h

/-- A text without NUL is left alone. -/
theorem sanitizeText_of_nulFree {s : String} (h : NulFree s) : sanitizeText s = s := if_neg h

/-! ## Building clean values -/

variable {o p : Obj} {k : String} {v : Json}

theorem Clean.nil : Clean (.obj []) :=
  .obj List.nodup_nil (fun _ hk => absurd hk List.not_mem_nil) fun _ _ hk => by cases hk

theorem Clean.lookup (h : Clean (.obj o)) (hk : o.lookup k = some v) : Clean v := by
  cases h with
  | obj _ _ h => exact h k v hk

theorem Clean.nodup (h : Clean (.obj o)) : (Assoc.keys o).Nodup := by
  cases h with
  | obj hkeys => exact hkeys

theorem Clean.nulFree (h : Clean (.obj o)) (hk : k ∈ Assoc.keys o) : NulFree k := by
  cases h with
  | obj _ hnul => exact hnul k hk

theorem Clean.get (h : Clean (.obj o)) (k : String) : Clean (Obj.get o k) := by
  unfold Obj.get
  cases hk : o.lookup k with
  | none => exact .null
  | some v => exact h.lookup hk

theorem Clean.mem_arr {xs : List Json} {x : Json} (h : Clean (.arr xs)) (hx : x ∈ xs) :
    Clean x := by
  cases h with
  | arr h => exact h x hx

theorem Clean.set (h : Clean (.obj o)) (hk : NulFree k) (hv : Clean v) :
    Clean (.obj (Assoc.set o k v)) := by
  refine .obj (Assoc.nodup_keys_set h.nodup k v) (fun l hl => ?_) fun l w hl => ?_
  · rw [Assoc.mem_keys_iff, Assoc.lookup_set] at hl
    split_ifs at hl with hlk
    · exact hlk ▸ hk
    · exact h.nulFree ((Assoc.mem_keys_iff _ _).mpr hl)
  · rw [Assoc.lookup_set] at hl
    split_ifs at hl with hlk
    · cases hl
      exact hv
    · exact h.lookup hl

/-- An object with the given keys. -/
theorem Clean.of_members (ks : List String) (hkeys : Assoc.keys o = ks)
    (hks : ks.Nodup ∧ ∀ k ∈ ks, NulFree k) (h : ∀ e ∈ o, Clean e.2) : Clean (.obj o) := by
  subst hkeys
  exact .obj hks.1 hks.2 fun k v hv => h (k, v) (Assoc.mem_of_lookup hv)

theorem Clean.update (h : Clean (.obj o)) (hp : Clean (.obj p)) :
    Clean (.obj (Assoc.update o p)) := by
  refine .obj (Assoc.nodup_keys_update h.nodup hp.nodup) (fun l hl => ?_) fun l w hl => ?_
  · rw [Assoc.mem_keys_iff, Assoc.lookup_update, Option.isSome_or, Bool.or_eq_true,
      ← Assoc.mem_keys_iff, ← Assoc.mem_keys_iff] at hl
    rcases hl with hl | hl
    · exact hp.nulFree hl
    · exact h.nulFree hl
  · rw [Assoc.lookup_update, Option.or_eq_some_iff] at hl
    rcases hl with hl | ⟨-, hl⟩
    · exact hp.lookup hl
    · exact h.lookup hl

theorem Clean.or {x y : Json} (hx : Clean x) (hy : Clean y) : Clean (x.or y) := by
  unfold Json.or
  split_ifs
  · exact hx
  · exact hy

/-! ## Cleaning -/

mutual

/-- A cleaned value is clean. -/
theorem clean_cleanNullBytes : ∀ x : Json, Clean (cleanNullBytes x)
  | .null => .null
  | .bool b => .bool b
  | .num q => .num q
  | .str s => .str (nulFree_sanitizeText s)
  | .arr xs => .arr (clean_cleanList xs)
  | .obj o => clean_cleanMembers o [] .nil

theorem clean_cleanList : ∀ xs : List Json, ∀ x ∈ cleanList xs, Clean x
  | [], x, hx => absurd hx List.not_mem_nil
  | y :: ys, x, hx => by
      rcases List.mem_cons.mp hx with rfl | hx
      · exact clean_cleanNullBytes y
      · exact clean_cleanList ys x hx

theorem clean_cleanMembers :
    ∀ o cleaned : Obj, Clean (.obj cleaned) → Clean (.obj (cleanMembers o cleaned))
  | [], _, h => h
  | (k, v) :: rest, _, h =>
      clean_cleanMembers rest _ (h.set (nulFree_sanitizeText k) (clean_cleanNullBytes v))

end

theorem clean_cleanMessage (m : Message) : Clean (.obj (cleanMessage m)) :=
  clean_cleanMembers m [] .nil

/-- A dictionary whose keys are distinct and clean. -/
structure Tidy (m : Message) : Prop where
  nodup : (Assoc.keys m).Nodup
  nulFree : ∀ k ∈ Assoc.keys m, NulFree k

theorem Clean.tidy (h : Clean (.obj o)) : Tidy o := ⟨h.nodup, fun _ hk => h.nulFree hk⟩

theorem Tidy.set {m : Message} (h : Tidy m) (hk : NulFree k) : Tidy (Assoc.set m k v) := by
  refine ⟨Assoc.nodup_keys_set h.nodup k v, fun l hl => ?_⟩
  rw [Assoc.mem_keys_iff, Assoc.lookup_set] at hl
  split_ifs at hl with hlk
  · exact hlk ▸ hk
  · exact h.nulFree l ((Assoc.mem_keys_iff _ _).mpr hl)

/-- A tidy object is cleaned member by member. -/
theorem cleanMembers_of_tidy : ∀ (o cleaned : Obj), (Assoc.keys (cleaned ++ o)).Nodup →
    (∀ k ∈ Assoc.keys o, NulFree k) →
    cleanMembers o cleaned = cleaned ++ o.map fun e => (e.1, cleanNullBytes e.2)
  | [], cleaned, _, _ => by rw [cleanMembers, List.map_nil, List.append_nil]
  | (k, v) :: rest, cleaned, hnodup, hnul => by
      have hk : NulFree k := hnul k List.mem_cons_self
      have hnew : k ∉ Assoc.keys cleaned := by
        intro hmem
        rw [Assoc.keys, List.map_append, List.nodup_append] at hnodup
        exact hnodup.2.2 k hmem k List.mem_cons_self rfl
      have hset : Assoc.set cleaned k (cleanNullBytes v) = cleaned ++ [(k, cleanNullBytes v)] := by
        rw [Assoc.set, if_neg]
        rwa [Assoc.has_iff]
      rw [cleanMembers, sanitizeText_of_nulFree hk, hset, cleanMembers_of_tidy rest]
      · simp
      · simpa [Assoc.keys] using hnodup
      · exact fun l hl => hnul l (List.mem_cons_of_mem _ hl)

/-- Cleaning a tidy message cleans its values one by one. -/
theorem cleanMessage_of_tidy {m : Message} (h : Tidy m) :
    cleanMessage m = m.map fun e => (e.1, cleanNullBytes e.2) :=
  cleanMembers_of_tidy m [] h.nodup h.nulFree

theorem lookup_cleanMessage {m : Message} (h : Tidy m) (k : String) :
    (cleanMessage m).lookup k = (m.lookup k).map cleanNullBytes := by
  rw [cleanMessage_of_tidy h, Assoc.lookup_map_val m (fun _ v => cleanNullBytes v)]

/-- A list of clean values is left alone. -/
theorem cleanList_of (xs : List Json) (h : ∀ x ∈ xs, cleanNullBytes x = x) : cleanList xs = xs := by
  induction xs with
  | nil => rfl
  | cons x xs ih =>
      rw [cleanList, h x List.mem_cons_self, ih fun y hy => h y (List.mem_cons_of_mem _ hy)]

/-- Cleaning leaves a clean value alone. -/
theorem Clean.cleanNullBytes_eq {x : Json} (h : Clean x) : cleanNullBytes x = x := by
  induction h with
  | null => rfl
  | bool => rfl
  | num => rfl
  | str h => rw [cleanNullBytes, sanitizeText_of_nulFree h]
  | arr _ ih => rw [cleanNullBytes, cleanList_of _ ih]
  | @obj o hkeys hnul _ ih =>
      rw [cleanNullBytes]
      have hmap : (o.map fun e => (e.1, cleanNullBytes e.2)) = o := by
        refine (List.map_congr_left fun e he => ?_).trans (List.map_id o)
        exact Prod.ext rfl (ih e.1 e.2 (Assoc.lookup_of_mem hkeys he))
      rw [show cleanMembers o [] = cleanMessage o from rfl,
        cleanMessage_of_tidy ⟨hkeys, hnul⟩, hmap]

theorem Clean.cleanMessage_eq {m : Message} (h : Clean (.obj m)) : cleanMessage m = m := by
  have := h.cleanNullBytes_eq
  rw [cleanNullBytes, Json.obj.injEq] at this
  exact this

end OpenWebUI.Chat
