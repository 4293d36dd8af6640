import Mathlib.Data.List.Infix
import Mathlib.Data.String.Basic
import OpenWebUI.Lib.Text

/-! # Cutting a text apart

`isdigit`, `partition`, `rfind` and `split` on the characters of a text, and what they say about a
text that was joined with a separator.
-/

namespace Py

/-- The characters with a digit value in Unicode 14, as ranges of code points. -/
def digitRanges : List (ℕ × ℕ) := [
    (48, 57), (178, 179), (185, 185), (1632, 1641), (1776, 1785), (1984, 1993), (2406, 2415),
    (2534, 2543), (2662, 2671), (2790, 2799), (2918, 2927), (3046, 3055),
      (3174, 3183), (3302, 3311),
    (3430, 3439), (3558, 3567), (3664, 3673), (3792, 3801), (3872, 3881),
      (4160, 4169), (4240, 4249),
    (4969, 4977), (6112, 6121), (6160, 6169), (6470, 6479), (6608, 6618),
      (6784, 6793), (6800, 6809),
    (6992, 7001), (7088, 7097), (7232, 7241), (7248, 7257), (8304, 8304),
      (8308, 8313), (8320, 8329),
    (9312, 9320), (9332, 9340), (9352, 9360), (9450, 9450), (9461, 9469), (9471, 9471),
      (10102, 10110),
    (10112, 10120), (10122, 10130), (42528, 42537), (43216, 43225), (43264, 43273), (43472, 43481),
    (43504, 43513), (43600, 43609), (44016, 44025), (65296, 65305), (66720, 66729), (68160, 68163),
    (68912, 68921), (69216, 69224), (69714, 69722), (69734, 69743), (69872, 69881), (69942, 69951),
    (70096, 70105), (70384, 70393), (70736, 70745), (70864, 70873), (71248, 71257), (71360, 71369),
    (71472, 71481), (71904, 71913), (72016, 72025), (72784, 72793), (73040, 73049), (73120, 73129),
    (92768, 92777), (92864, 92873), (93008, 93017), (120782, 120831), (123200, 123209),
    (123632, 123641), (125264, 125273), (127232, 127242), (130032, 130041)]

/-- `s.isdigit()`. -/
def isDigit (s : List Char) : Bool :=
  !s.isEmpty && s.all fun c => digitRanges.any fun r => r.1 ≤ c.toNat && c.toNat ≤ r.2

/-- `s.partition(sep)` for one character: what is before it and what is after it. -/
def partitionAt (sep : Char) (s : List Char) : List Char × List Char :=
  (s.takeWhile (· ≠ sep), (s.dropWhile (· ≠ sep)).tail)

/-- `s.rfind(marker)`, `none` for `-1`. -/
def rfind (marker : List Char) : List Char → Option ℕ
  | [] => if marker = [] then some 0 else none
  | c :: s =>
    match rfind marker s with
    | some i => some (i + 1)
    | none => if marker.isPrefixOf (c :: s) then some 0 else none

/-- `s.split()`. -/
def fields (s : List Char) : List (List Char) := (s.splitOnP isSpace).filter (!·.isEmpty)

variable {sep : Char} {marker s pre rest f : List Char}

/-! ## `partition` -/

theorem partitionAt_append (h : sep ∉ pre) (rest : List Char) :
    partitionAt sep (pre ++ sep :: rest) = (pre, rest) := by
  induction pre with
  | nil => simp [partitionAt]
  | cons c pre ih =>
      have hc : c ≠ sep := fun heq => h (heq ▸ List.mem_cons_self)
      have ih := ih fun hmem => h (List.mem_cons_of_mem _ hmem)
      simp only [partitionAt, Prod.mk.injEq] at ih ⊢
      simpa [hc] using ih

/-- What is before the first separator does not depend on what follows another one. -/
theorem partitionAt_append_fst (pre rest : List Char) :
    (partitionAt sep (pre ++ sep :: rest)).1 = (partitionAt sep pre).1 := by
  induction pre with
  | nil => simp [partitionAt]
  | cons c pre ih =>
      simp only [partitionAt] at ih ⊢
      by_cases hc : c = sep
      · simp [hc]
      · simpa [hc] using ih

/-! ## `rfind` -/

/-- The marker is not found where it is not in the text. -/
theorem rfind_eq_none_iff (hne : marker ≠ []) : rfind marker s = none ↔ ¬ marker <:+: s := by
  induction s with
  | nil => simp [rfind, hne]
  | cons c s ih =>
      rw [rfind, List.infix_cons_iff]
      cases h : rfind marker s with
      | some i =>
          have hin : marker <:+: s := by
            by_contra hnot
            rw [ih.mpr hnot] at h
            cases h
          simp [hin]
      | none =>
          have hnot := ih.mp h
          by_cases hbegins : marker <+: c :: s
          · simp [hbegins]
          · simp [hbegins, hnot]

/-- The marker is found where nothing after it holds it. -/
theorem rfind_append (hne : marker ≠ []) {c : Char} (hbegins : marker <+: c :: rest)
    (hlast : ¬ marker <:+: rest) (pre : List Char) :
    rfind marker (pre ++ c :: rest) = some pre.length := by
  induction pre with
  | nil =>
      rw [List.nil_append, rfind, (rfind_eq_none_iff hne).mpr hlast]
      simpa using hbegins
  | cons d pre ih =>
      rw [List.cons_append, rfind, ih]
      rfl

/-- The last marker is before what has none. -/
theorem rfind_lt (hne : marker ≠ []) (hlast : ¬ marker <:+: rest) (pre : List Char) {i : ℕ}
    (h : rfind marker (pre ++ rest) = some i) : i < pre.length := by
  induction pre generalizing i with
  | nil =>
      rw [List.nil_append, (rfind_eq_none_iff hne).mpr hlast] at h
      cases h
  | cons d pre ih =>
      rw [List.cons_append, rfind] at h
      split at h
      · next j hj =>
          obtain rfl := Option.some.inj h
          have hlt := ih hj
          rw [List.length_cons]
          omega
      · next hnone =>
          split_ifs at h
          obtain rfl := Option.some.inj h
          exact Nat.succ_pos _

/-! ## Joined texts -/

/-- A text without the separator begins a joined text where it begins its first part. -/
theorem prefix_append_sep (hf : sep ∉ f) : f <+: pre ++ sep :: rest ↔ f <+: pre := by
  constructor
  · intro h
    rcases List.prefix_or_prefix_of_prefix h (List.prefix_append pre _) with hpre | ⟨z, rfl⟩
    · exact hpre
    · cases z with
      | nil => rw [List.append_nil]
      | cons c z =>
          obtain ⟨rfl, _⟩ := List.cons_prefix_cons.mp ((List.prefix_append_right_inj pre).mp h)
          exact absurd (List.mem_append_right _ List.mem_cons_self) hf
  · exact fun h => h.trans (List.prefix_append _ _)

theorem sep_infix_append (hpre : sep ∉ pre) :
    sep :: f <:+: pre ++ sep :: rest ↔ f <+: rest ∨ sep :: f <:+: rest := by
  induction pre with
  | nil => rw [List.nil_append, List.infix_cons_iff, List.cons_prefix_cons, eq_self, true_and]
  | cons c pre ih =>
      have hc : sep ≠ c := fun heq => hpre (heq ▸ List.mem_cons_self)
      rw [List.cons_append, List.infix_cons_iff, List.cons_prefix_cons,
        ih fun h => hpre (List.mem_cons_of_mem _ h)]
      simp [hc]

/-- The separator with a text after it is found where a part other than the first begins with the
text. -/
theorem sep_infix_intercalate (hf : sep ∉ f) (parts : List (List Char)) : ∀ {p : List Char},
    (∀ q ∈ p :: parts, sep ∉ q) →
      (sep :: f <:+: [sep].intercalate (p :: parts) ↔ ∃ q ∈ parts, f <+: q) := by
  induction parts with
  | nil =>
      intro p hp
      rw [List.intercalate_singleton]
      refine iff_of_false (fun h => ?_) (by simp)
      exact hp p List.mem_cons_self (h.subset List.mem_cons_self)
  | cons q parts ih =>
      intro p hp
      have hq := ih fun r hr => hp r (List.mem_cons_of_mem _ hr)
      have hbegin : f <+: [sep].intercalate (q :: parts) ↔ f <+: q := by
        cases parts with
        | nil => rw [List.intercalate_singleton]
        | cons r parts =>
            rw [List.intercalate_cons_cons, List.append_assoc, List.singleton_append]
            exact prefix_append_sep hf
      rw [List.intercalate_cons_cons, List.append_assoc, List.singleton_append,
        sep_infix_append (hp p List.mem_cons_self), hbegin, hq]
      simp

/-- The last separator cuts a text in one way. -/
theorem append_sep_inj {a b x y : List Char} (hx : sep ∉ x) (hy : sep ∉ y)
    (h : a ++ sep :: x = b ++ sep :: y) :
    a = b ∧ x = y := by
  rcases List.append_eq_append_iff.mp h with ⟨z, rfl, hz⟩ | ⟨z, rfl, hz⟩
  · cases z with
    | nil => simpa using hz
    | cons c z =>
        obtain ⟨rfl, hrest⟩ := List.cons.inj hz
        exact absurd (hrest ▸ List.mem_append_right z List.mem_cons_self) hx
  · cases z with
    | nil => simpa [eq_comm] using hz
    | cons c z =>
        obtain ⟨rfl, hrest⟩ := List.cons.inj hz
        exact absurd (hrest ▸ List.mem_append_right z List.mem_cons_self) hy

/-! ## Fields -/

/-- The fields hold what is not blank. -/
theorem flatten_fields (s : List Char) : (fields s).flatten = s.filter (!isSpace ·) := by
  have hpieces : ∀ l : List (List Char), (l.filter (!·.isEmpty)).flatten = l.flatten := by
    intro l
    induction l with
    | nil => rfl
    | cons x l ih => cases x <;> simp [ih]
  rw [fields, hpieces]
  induction s with
  | nil => rfl
  | cons c s ih =>
      rw [List.splitOnP_cons_eq_if_modifyHead]
      split_ifs with hc
      · rw [List.flatten_cons, List.nil_append, ih, List.filter_cons, hc]
        rfl
      · obtain ⟨x, xs, hx⟩ := List.exists_cons_of_ne_nil (List.splitOnP_ne_nil isSpace s)
        rw [hx] at ih ⊢
        rw [List.filter_cons, if_pos (by simp [hc]), ← ih]
        rfl

/-! ## Decimal numerals -/

theorem nat_repr_inj {m n : ℕ} (h : m.repr = n.repr) : m = n := by
  have hlist := congrArg (fun s => Nat.ofDigitChars 10 s.toList 0) h
  simpa only [Nat.toList_repr, Nat.ofDigitChars_ten_toDigits] using hlist

/-- The text of a number has digits only. -/
theorem isDigit_of_mem_nat_repr {n : ℕ} {c : Char} (h : c ∈ n.repr.toList) : c.isDigit := by
  rw [Nat.toList_repr] at h
  exact Nat.isDigit_of_mem_toDigits (by decide) (by decide) h

/-- A numeral is made of digits, with a sign before those of a negative number. -/
theorem mem_toString_int {n : ℤ} {c : Char} (h : c ∈ (toString n).toList) :
    c.isDigit ∨ c = '-' := by
  rw [Int.toString_eq_repr, Int.repr_eq_if] at h
  split_ifs at h
  · exact .inl (isDigit_of_mem_nat_repr h)
  · rw [String.toList_append, List.mem_append] at h
    rcases h with hsign | hdigit
    · exact .inr (List.mem_singleton.mp hsign)
    · exact .inl (isDigit_of_mem_nat_repr hdigit)

theorem toString_int_inj {m n : ℤ} (h : toString m = toString n) : m = n := by
  have hsign : ∀ k l : ℕ, "-" ++ k.repr ≠ l.repr := by
    intro k l heq
    have hmem : '-' ∈ l.repr.toList := by
      rw [← heq, String.toList_append]
      exact List.mem_append_left _ (List.mem_singleton_self _)
    exact absurd (isDigit_of_mem_nat_repr hmem) (by decide)
  rw [Int.toString_eq_repr, Int.toString_eq_repr, Int.repr_eq_if, Int.repr_eq_if] at h
  split_ifs at h with hm hn hn
  · have := nat_repr_inj h
    omega
  · exact absurd h.symm (hsign _ _)
  · exact absurd h (hsign _ _)
  · have hrepr : (-m).toNat.repr = (-n).toNat.repr := by
      rw [← String.toList_inj] at h ⊢
      simpa using h
    have := nat_repr_inj hrepr
    omega

end Py
