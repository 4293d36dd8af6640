import Mathlib.Data.List.Sort
import Mathlib.Data.Rat.Floor
import Mathlib.Data.String.Basic
import OpenWebUI.Lib.Dict

/-! # JSON values as Python reads them

The values `json.loads` produces, with the Python operations a program applies
to them: truth value, `dict.get`, `or`, `==`, `int(·)` and `+`. Numbers are
exact rationals. An operation that raises is `none`.
-/

namespace Py

/-- A decoded JSON value. Members of an object keep their insertion order. -/
inductive Json where
  | null
  | bool (b : Bool)
  | num (q : ℚ)
  | str (s : String)
  | arr (xs : List Json)
  | obj (members : List (String × Json))

/-- The members of a `dict` decoded from JSON. -/
abbrev Obj := List (String × Json)

namespace Json

/-! ## Decidable equality -/

mutual

/-- Structural equality. -/
def beq : Json → Json → Bool
  | null, null => true
  | bool a, bool b => a == b
  | num a, num b => a == b
  | str a, str b => a == b
  | arr xs, arr ys => beqList xs ys
  | obj xs, obj ys => beqMembers xs ys
  | _, _ => false

def beqList : List Json → List Json → Bool
  | [], [] => true
  | x :: xs, y :: ys => beq x y && beqList xs ys
  | _, _ => false

def beqMembers : Obj → Obj → Bool
  | [], [] => true
  | (k, x) :: xs, (l, y) :: ys => k == l && beq x y && beqMembers xs ys
  | _, _ => false

end

mutual

/-- The structural comparison decides equality. -/
theorem beq_iff (x y : Json) : beq x y = true ↔ x = y := by
  cases x <;> cases y <;> simp only [beq, beq_iff_eq, reduceCtorEq, bool.injEq,
    num.injEq, str.injEq,
    arr.injEq, obj.injEq, Bool.false_eq_true]
  · exact beqList_iff _ _
  · exact beqMembers_iff _ _

/-- The structural comparison decides equality of lists. -/
theorem beqList_iff (xs ys : List Json) : beqList xs ys = true ↔ xs = ys := by
  cases xs <;> cases ys <;> simp only [beqList, reduceCtorEq, Bool.false_eq_true, Bool.and_eq_true,
    List.cons.injEq]
  rw [beq_iff, beqList_iff]

/-- The structural comparison decides equality of objects. -/
theorem beqMembers_iff (xs ys : Obj) : beqMembers xs ys = true ↔ xs = ys := by
  cases xs <;> cases ys <;> simp only [beqMembers, reduceCtorEq, Bool.false_eq_true,
    Bool.and_eq_true, List.cons.injEq, beq_iff_eq, Prod.ext_iff]
  rw [beq_iff, beqMembers_iff]

end

instance : DecidableEq Json := fun x y => decidable_of_iff _ (beq_iff x y)

/-! ## Truth value and access -/

/-- `bool(x)`. -/
def truthy : Json → Bool
  | null => false
  | bool b => b
  | num q => q ≠ 0
  | str s => s ≠ ""
  | arr xs => !xs.isEmpty
  | obj members => !members.isEmpty

/-- `x or y`. -/
def or (x y : Json) : Json := if x.truthy then x else y

/-- `isinstance(x, Number) and not isinstance(x, bool)`, with the number. -/
def asNum : Json → Option ℚ
  | num q => some q
  | _ => none

/-- The members of `x` when `isinstance(x, dict)`. -/
def asObj : Json → Option Obj
  | obj members => some members
  | _ => none

/-- The elements of `x` when `isinstance(x, list)`. -/
def asArr : Json → Option (List Json)
  | arr xs => some xs
  | _ => none

/-- The text of `x` when `isinstance(x, str)`. -/
def asStr : Json → Option String
  | str s => some s
  | _ => none

/-- The decimal digits of a Python integer literal, single underscores between digits. -/
def intDigits : List Char → Option ℕ → Option ℕ
  | [], acc => acc
  | '_' :: c :: cs, some n => if c.isDigit then intDigits (c :: cs) (some n) else none
  | c :: cs, acc =>
    if c.isDigit then intDigits cs (some (acc.getD 0 * 10 + (c.toNat - '0'.toNat))) else none

/-- `int(s)` of an ASCII string. -/
def intOfString (s : String) : Option ℤ :=
  match ((s.toList.dropWhile Char.isWhitespace).reverse.dropWhile Char.isWhitespace).reverse with
  | '-' :: cs => (intDigits cs none).map fun n => -(n : ℤ)
  | '+' :: cs => (intDigits cs none).map Int.ofNat
  | cs => (intDigits cs none).map Int.ofNat

/-- `int(x)`: numbers are truncated towards zero. -/
def toInt : Json → Option ℤ
  | bool b => some (if b then 1 else 0)
  | num q => some (if 0 ≤ q then ⌊q⌋ else ⌈q⌉)
  | str s => intOfString s
  | _ => none

/-- The value of `x` as an operand of `+`, where `True` counts as `1`. -/
def asOperand : Json → Option ℚ
  | bool b => some (if b then 1 else 0)
  | num q => some q
  | _ => none

/-- `x + y`. -/
def add : Json → Json → Option Json
  | str s, str t => some (str (s ++ t))
  | arr xs, arr ys => some (arr (xs ++ ys))
  | x, y => do return num ((← x.asOperand) + (← y.asOperand))

@[simp] theorem truthy_null : truthy null = false := rfl
@[simp] theorem truthy_str (s : String) : truthy (str s) = decide (s ≠ "") := by simp [truthy]
@[simp] theorem asStr_str (s : String) : asStr (str s) = some s := rfl
@[simp] theorem asStr_null : asStr null = none := rfl
@[simp] theorem asArr_arr (xs : List Json) : asArr (arr xs) = some xs := rfl
@[simp] theorem asObj_obj (m : Obj) : asObj (obj m) = some m := rfl
@[simp] theorem null_or (y : Json) : or null y = y := rfl

/-- An `or` is its first value where that is true. -/
theorem or_of_truthy {x : Json} (h : x.truthy = true) (y : Json) : or x y = x := by
  simp [or, h]

/-- An `or` is its second value where the first is false. -/
theorem or_of_falsy {x : Json} (h : x.truthy = false) (y : Json) : or x y = y := by
  simp [or, h]

end Json

namespace Obj

/-- `d.get(k)`: an absent key reads as `None`. -/
def get (o : Obj) (k : String) : Json := (o.lookup k).getD .null

/-- `d.get(k, default)`: the default only replaces an absent key. -/
def getD (o : Obj) (k : String) (default : Json) : Json := (o.lookup k).getD default

theorem get_of_lookup {o : Obj} {k : String} {v : Json} (h : o.lookup k = some v) :
    get o k = v := by
  simp [get, h]

theorem get_of_absent {o : Obj} {k : String} (h : o.lookup k = none) : get o k = .null := by
  simp [get, h]

theorem lookup_of_get {o : Obj} {k : String} {v : Json} (h : get o k = v) (hv : v ≠ .null) :
    o.lookup k = some v := by
  cases ho : o.lookup k with
  | none =>
      rw [get_of_absent ho] at h
      exact absurd h.symm hv
  | some w =>
      rw [get_of_lookup ho] at h
      rw [h]

theorem get_set (o : Obj) (k k' : String) (v : Json) :
    get (Assoc.set o k v) k' = if k' = k then v else get o k' := by
  unfold get
  rw [Assoc.lookup_set]
  by_cases h : k' = k <;> simp [h]

@[simp] theorem get_set_self (o : Obj) (k : String) (v : Json) : get (Assoc.set o k v) k = v := by
  simp [get_set]

theorem get_set_ne (o : Obj) {k k' : String} (v : Json) (h : k' ≠ k) :
    get (Assoc.set o k v) k' = get o k' := by
  simp [get_set, h]

/-- Reading a key the later dictionary does not carry. -/
theorem get_update_of_absent {b : Obj} {k : String} (h : b.lookup k = none) (a : Obj) :
    get (Assoc.update a b) k = get a k := by
  simp [get, Assoc.lookup_update, h]

/-- The second object wins. -/
theorem get_update_of_present {b : Obj} {k : String} {v : Json} (h : b.lookup k = some v)
    (a : Obj) :
    get (Assoc.update a b) k = v := by
  simp [get, Assoc.lookup_update, h]

end Obj

namespace Json

/-! ## Equality

Python compares dictionaries without regard to order and identifies `True` with
`1` and `False` with `0`. Both are folded into a canonical form, so `==` is
equality of canonical forms and hence an equivalence. -/

/-- The order in which a canonical object lists its members. -/
def keyLe (a b : String × Json) : Prop := a.1 ≤ b.1

instance : DecidableRel keyLe := fun a b => inferInstanceAs (Decidable (a.1 ≤ b.1))

mutual

/-- The canonical form under `==`. -/
def canon : Json → Json
  | null => null
  | bool b => num (if b then 1 else 0)
  | num q => num q
  | str s => str s
  | arr xs => arr (canonList xs)
  | obj members => obj ((canonMembers members).insertionSort keyLe)

def canonList : List Json → List Json
  | [] => []
  | x :: xs => canon x :: canonList xs

def canonMembers : Obj → Obj
  | [] => []
  | (k, x) :: xs => (k, canon x) :: canonMembers xs

end

/-- `x == y`. -/
def pyEq (x y : Json) : Bool := decide (canon x = canon y)

/-- Python's equality compares canonical forms. -/
theorem pyEq_iff (x y : Json) : pyEq x y = true ↔ canon x = canon y := by
  simp [pyEq]

/-- Python's equality is reflexive. -/
@[simp] theorem pyEq_refl (x : Json) : pyEq x x = true := by
  simp [pyEq]

/-- Python's equality is symmetric. -/
theorem pyEq_symm {x y : Json} (h : pyEq x y = true) : pyEq y x = true := by
  rw [pyEq_iff] at *
  exact h.symm

/-- Python's equality is transitive. -/
theorem pyEq_trans {x y z : Json} (h₁ : pyEq x y = true) (h₂ : pyEq y z = true) :
    pyEq x z = true := by
  rw [pyEq_iff] at *
  exact h₁.trans h₂

theorem lookup_canonMembers (o : Obj) (k : String) :
    (canonMembers o).lookup k = (o.lookup k).map canon := by
  induction o with
  | nil => simp [canonMembers]
  | cons p o ih =>
      obtain ⟨l, x⟩ := p
      rw [canonMembers, Assoc.lookup_cons, Assoc.lookup_cons, ih]
      by_cases h : k = l <;> simp [h]

/-- Insertion by key order goes in front of every member with the same key, so the
first member with a key stays the first one. -/
theorem lookup_orderedInsert (o : Obj) (p : String × Json) (k : String) :
    (o.orderedInsert keyLe p).lookup k = if k = p.1 then some p.2 else o.lookup k := by
  induction o with
  | nil => rw [List.orderedInsert, Assoc.lookup_cons]
  | cons q o ih =>
      rw [List.orderedInsert]
      by_cases hle : keyLe p q
      · rw [if_pos hle, Assoc.lookup_cons]
      · rw [if_neg hle, Assoc.lookup_cons, Assoc.lookup_cons, ih]
        by_cases hk : k = p.1
        · have hne : k ≠ q.1 := by
            rintro rfl
            exact hle (by simp [keyLe, hk])
          simp [hk, hk ▸ hne]
        · simp [hk]

theorem lookup_insertionSort (o : Obj) (k : String) :
    (o.insertionSort keyLe).lookup k = o.lookup k := by
  induction o with
  | nil => rfl
  | cons p o ih =>
      rw [List.insertionSort_cons, lookup_orderedInsert, Assoc.lookup_cons, ih]

/-- Equal dictionaries have equal canonical values under each key. -/
theorem lookup_of_pyEq {a b : Obj} (h : pyEq (obj a) (obj b) = true) (k : String) :
    (a.lookup k).map canon = (b.lookup k).map canon := by
  rw [pyEq_iff, canon, canon, obj.injEq] at h
  have hk := congrArg (List.lookup k) h
  rwa [lookup_insertionSort, lookup_insertionSort, lookup_canonMembers, lookup_canonMembers] at hk

/-- Equal dictionaries hold equal values under each key. -/
theorem pyEq_get {a b : Obj} (h : pyEq (obj a) (obj b) = true) (k : String) :
    pyEq (Obj.get a k) (Obj.get b k) = true := by
  have hk := lookup_of_pyEq h k
  rw [pyEq_iff]
  cases ha : a.lookup k <;> cases hb : b.lookup k <;> simp [ha, hb] at hk <;>
    simp [Obj.get, ha, hb, hk]

/-- Equal dictionaries have the same keys. -/
theorem has_of_pyEq {a b : Obj} (h : pyEq (obj a) (obj b) = true) (k : String) :
    Assoc.has a k = Assoc.has b k := by
  have hk := congrArg Option.isSome (lookup_of_pyEq h k)
  simpa [Assoc.has] using hk

/-- Only null has the form of null. -/
theorem canon_eq_null {x : Json} : canon x = null ↔ x = null := by
  cases x <;> simp [canon]

/-- Two equal values have the same truth value. -/
theorem truthy_of_pyEq {x y : Json} (h : pyEq x y = true) : x.truthy = y.truthy := by
  have hlen : ∀ o : Obj, (o.insertionSort keyLe = []) ↔ o = [] := by
    intro o
    rw [← List.length_eq_zero_iff, List.length_insertionSort, List.length_eq_zero_iff]
  have hm : ∀ o : Obj, canonMembers o = [] ↔ o = [] := by
    intro o
    cases o <;> simp [canonMembers]
  have hl : ∀ xs : List Json, canonList xs = [] ↔ xs = [] := by
    intro xs
    cases xs <;> simp [canonList]
  have key : ∀ z : Json, z.truthy = (canon z).truthy := by
    intro z
    cases z with
    | null => rfl
    | bool b => cases b <;> simp [canon, truthy]
    | num q => rfl
    | str s => rfl
    | arr xs =>
        have := hl xs
        cases xs <;> simp_all [canon, truthy, canonList]
    | obj m =>
        simp only [canon, truthy]
        rw [Bool.eq_iff_iff]
        simp only [Bool.not_eq_true', List.isEmpty_eq_false_iff, ne_eq]
        rw [hlen, hm]
  rw [key x, key y, (pyEq_iff x y).mp h]

theorem keys_canonMembers (o : Obj) : Assoc.keys (canonMembers o) = Assoc.keys o := by
  induction o with
  | nil => rfl
  | cons p o ih =>
      obtain ⟨l, x⟩ := p
      show l :: Assoc.keys (canonMembers o) = l :: Assoc.keys o
      rw [ih]

/-- Dictionaries with equal values under each key are equal. -/
theorem pyEq_of_lookup {a b : Obj} (ha : (Assoc.keys a).Nodup) (hb : (Assoc.keys b).Nodup)
    (h : ∀ k, (a.lookup k).map canon = (b.lookup k).map canon) : pyEq (obj a) (obj b) = true := by
  rw [← keys_canonMembers] at ha hb
  have hmem : ∀ {o : Obj}, (Assoc.keys (canonMembers o)).Nodup → ∀ e,
      e ∈ canonMembers o ↔ (o.lookup e.1).map canon = some e.2 := by
    intro o ho e
    rw [← lookup_canonMembers]
    exact ⟨Assoc.lookup_of_mem ho, Assoc.mem_of_lookup⟩
  have hperm : (canonMembers a).Perm (canonMembers b) := by
    refine (List.perm_ext_iff_of_nodup ha.of_map hb.of_map).mpr fun e => ?_
    rw [hmem ha, hmem hb, h]
  have htotal : Std.Total keyLe := ⟨fun x y => le_total x.1 y.1⟩
  have htrans : IsTrans (String × Json) keyLe := ⟨fun _ _ _ hxy hyz => le_trans hxy hyz⟩
  rw [pyEq_iff, canon, canon, obj.injEq]
  -- sorted by key with distinct keys, the members have one order
  refine List.Perm.eq_of_pairwise ?_ (List.pairwise_insertionSort keyLe _)
    (List.pairwise_insertionSort keyLe _) ?_
  · intro x y hx hy hxy hyx
    rw [List.mem_insertionSort, hmem ha] at hx
    rw [List.mem_insertionSort, hmem hb, ← h, ← le_antisymm hxy hyx, hx] at hy
    exact Prod.ext (le_antisymm hxy hyx) (Option.some.inj hy)
  · exact (List.perm_insertionSort keyLe _).trans
      (hperm.trans (List.perm_insertionSort keyLe _).symm)

end Json

end Py
