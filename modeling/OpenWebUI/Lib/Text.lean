import Mathlib.Data.List.TakeWhile

/-! # Python text

`str.isspace` and `str.strip` over Unicode, which know more blanks than
`Char.isWhitespace`.
-/

namespace Py

/-- The code points `str.isspace` accepts. -/
def isSpace (c : Char) : Bool :=
  let n := c.toNat
  (9 ≤ n && n ≤ 13) || (28 ≤ n && n ≤ 32) || n == 0x85 || n == 0xA0 || n == 0x1680 ||
    (0x2000 ≤ n && n ≤ 0x200A) || n == 0x2028 || n == 0x2029 || n == 0x202F || n == 0x205F ||
    n == 0x3000

theorem isSpace_alphanum {c : Char} (h : c.isAlphanum = true) : isSpace c = false := by
  delta Char.isAlphanum Char.isAlpha Char.isUpper Char.isLower Char.isDigit at h
  simp only [Bool.or_eq_true, Bool.and_eq_true, decide_eq_true_eq, UInt32.le_iff_toNat_le,
    ge_iff_le] at h
  have hcode : 48 ≤ c.toNat ∧ c.toNat ≤ 122 := by
    have : c.toNat = c.val.toNat := rfl
    have : 'Z'.val.toNat = 90 := rfl
    have : 'z'.val.toNat = 122 := rfl
    have : '9'.val.toNat = 57 := rfl
    have : '0'.val.toNat = 48 := rfl
    have : 'A'.val.toNat = 65 := rfl
    have : 'a'.val.toNat = 97 := rfl
    omega
  simp only [isSpace, Bool.or_eq_false_iff, Bool.and_eq_false_iff, decide_eq_false_iff_not,
    beq_eq_false_iff_ne]
  omega

/-- `not s or s.isspace()`. -/
def isBlank (s : String) : Bool := s.toList.all isSpace

theorem isBlank_append (s t : String) : isBlank (s ++ t) = (isBlank s && isBlank t) := by
  rw [isBlank, String.toList_append, List.all_append]
  rfl

/-- The parts of a blank text are blank. -/
theorem isBlank_of_intercalate {sep : String} {parts : List String}
    (h : isBlank (sep.intercalate parts) = true) : ∀ part ∈ parts, isBlank part = true := by
  induction parts with
  | nil => exact fun part hpart => by cases hpart
  | cons p parts ih =>
      by_cases hnil : parts = []
      · subst hnil
        rw [String.intercalate_singleton] at h
        intro part hpart
        rwa [List.mem_singleton.mp hpart]
      · rw [String.intercalate_cons_of_ne_nil hnil, isBlank_append, isBlank_append,
          Bool.and_eq_true, Bool.and_eq_true] at h
        intro part hpart
        rcases List.mem_cons.mp hpart with rfl | hpart
        · exact h.1.1
        · exact ih h.2 part hpart

/-- `s.lstrip()`. -/
def lstrip (s : String) : String := String.ofList (s.toList.dropWhile isSpace)

/-- `s.rstrip()`. -/
def rstrip (s : String) : String :=
  String.ofList (s.toList.reverse.dropWhile isSpace).reverse

/-- `s.strip()`. -/
def strip (s : String) : String := rstrip (lstrip s)

/-- Characters that neither begin nor end with a blank stay when they are stripped. -/
theorem strip_chars {cs : List Char} (hhead : ∀ c ∈ cs.head?, isSpace c = false)
    (hlast : ∀ c ∈ cs.getLast?, isSpace c = false) :
    ((cs.dropWhile isSpace).reverse.dropWhile isSpace).reverse = cs := by
  have hdrop : ∀ l : List Char, (∀ c ∈ l.head?, isSpace c = false) → l.dropWhile isSpace = l := by
    intro l hl
    cases l with
    | nil => rfl
    | cons c l => rw [List.dropWhile_cons, hl c rfl, if_neg (by decide)]
  rw [hdrop cs hhead, hdrop _ (by rwa [List.head?_reverse]), List.reverse_reverse]

/-- A blank text at the end is stripped. -/
theorem rstrip_append_of_blank {s t : String} (h : isBlank t = true) :
    rstrip (s ++ t) = rstrip s := by
  have hall : ∀ c ∈ t.toList.reverse, isSpace c = true := by
    intro c hc
    exact List.all_eq_true.mp h c (List.mem_reverse.mp hc)
  rw [rstrip, String.toList_append, List.reverse_append, List.dropWhile_append_of_pos hall, rstrip]

/-- A text at the end that is not blank is stripped itself. -/
theorem rstrip_append_of_not_blank {s t : String} (h : isBlank t = false) :
    rstrip (s ++ t) = s ++ rstrip t := by
  have hnot : ¬ (t.toList.reverse.dropWhile isSpace).isEmpty = true := by
    rw [List.isEmpty_iff, List.dropWhile_eq_nil_iff]
    intro hall
    have hblank : isBlank t = true :=
      List.all_eq_true.mpr fun c hc => hall c (List.mem_reverse.mpr hc)
    rw [h] at hblank
    cases hblank
  rw [rstrip, String.toList_append, List.reverse_append, List.dropWhile_append, if_neg hnot,
    List.reverse_append, List.reverse_reverse, String.ofList_append, String.ofList_toList, rstrip]

/-- A blank text is stripped away. -/
theorem rstrip_of_blank {s : String} (h : isBlank s = true) : rstrip s = "" := by
  have hempty := rstrip_append_of_blank (s := "") h
  rwa [String.empty_append] at hempty

/-- A text that is not blank is not stripped away. -/
theorem rstrip_ne_empty {s : String} (h : isBlank s = false) : rstrip s ≠ "" := by
  intro hempty
  have hall : s.toList.reverse.dropWhile isSpace = [] := by
    have hlist := congrArg String.toList hempty
    rw [rstrip, String.toList_ofList] at hlist
    exact List.reverse_eq_nil_iff.mp hlist
  rw [List.dropWhile_eq_nil_iff] at hall
  have hblank : isBlank s = true :=
    List.all_eq_true.mpr fun c hc => hall c (List.mem_reverse.mpr hc)
  rw [h] at hblank
  cases hblank

/-! ## `in` -/

/-- `s in t`. -/
def In (s t : String) : Prop := s.toList <:+: t.toList

instance (s t : String) : Decidable (In s t) := inferInstanceAs (Decidable (_ <:+: _))

theorem In.refl (s : String) : In s s := List.infix_rfl

theorem In.trans {s t u : String} (h₁ : In s t) (h₂ : In t u) : In s u := List.IsInfix.trans h₁ h₂

/-- A list without `c` is on one side of a `c`. -/
theorem infix_of_append_cons {α : Type*} {c : α} {token a b : List α} (hc : c ∉ token)
    (h : token <:+: a ++ c :: b) : token <:+: a ∨ token <:+: b := by
  obtain ⟨s, t, h⟩ := h
  rcases List.append_eq_append_iff.mp h with ⟨x, ha, -⟩ | ⟨x, hx, hb⟩
  · exact .inl ⟨s, x, ha.symm⟩
  · cases x with
    | nil => exact .inl ⟨s, [], by rw [List.append_nil, hx, List.append_nil]⟩
    | cons y x =>
        obtain ⟨rfl, rfl⟩ := List.cons.inj hb
        rw [← List.singleton_append, ← List.append_assoc] at hx
        rcases List.append_eq_append_iff.mp hx with ⟨z, hz, htoken⟩ | ⟨z, -, hxz⟩
        · -- the token starts at or before the `c`
          rcases List.eq_nil_or_concat z with rfl | ⟨z', d, rfl⟩
          · exact .inr ⟨[], t, by rw [htoken]; rfl⟩
          · rw [List.concat_eq_append, ← List.append_assoc] at hz
            have hd : d = c := (List.singleton_inj.mp (List.append_inj' hz rfl).2).symm
            refine absurd ?_ hc
            rw [htoken, hd]
            simp
        · exact .inr ⟨z, t, by rw [hxz, List.append_eq]⟩

/-- A token with none of the separator's elements is on one side of the separator. -/
theorem infix_of_append_sep {α : Type*} {sep token a b : List α} (hsep : ∀ c ∈ sep, c ∉ token)
    (hsep' : sep ≠ []) (hne : token ≠ []) (h : token <:+: a ++ (sep ++ b)) :
    token <:+: a ∨ token <:+: b := by
  have hskip : ∀ l : List α, (∀ c ∈ l, c ∉ token) → token <:+: l ++ b → token <:+: b := by
    intro l
    induction l with
    | nil => exact fun _ h => h
    | cons c l ih =>
        intro hl h
        rcases infix_of_append_cons (a := []) (hl c List.mem_cons_self) h with h | h
        · exact absurd (List.infix_nil.mp h) hne
        · exact ih (fun d hd => hl d (List.mem_cons_of_mem _ hd)) h
  cases sep with
  | nil => exact absurd rfl hsep'
  | cons c sep =>
      rcases infix_of_append_cons (hsep c List.mem_cons_self) h with h | h
      · exact .inl h
      · exact .inr (hskip sep (fun d hd => hsep d (List.mem_cons_of_mem _ hd)) h)

/-- A part lies in the joined text. -/
theorem in_intercalate {sep : String} {parts : List String} {part : String} (h : part ∈ parts) :
    In part (sep.intercalate parts) := by
  induction parts with
  | nil => cases h
  | cons p parts ih =>
      by_cases hnil : parts = []
      · subst hnil
        rw [String.intercalate_singleton, List.mem_singleton.mp h]
        exact .refl p
      · rw [String.intercalate_cons_of_ne_nil hnil, In, String.toList_append, String.toList_append]
        rcases List.mem_cons.mp h with rfl | h
        · exact ⟨[], sep.toList ++ (sep.intercalate parts).toList, by simp⟩
        · exact List.IsInfix.trans (ih h) (List.suffix_append _ _).isInfix

/-- A token in a joined text is in one of its parts, if it has none of the separator's
characters. -/
theorem in_of_in_intercalate {sep token : String} {parts : List String}
    (hsep : ∀ c ∈ sep.toList, c ∉ token.toList) (hsep' : sep.toList ≠ []) (hne : token.toList ≠ [])
    (h : In token (sep.intercalate parts)) : ∃ part ∈ parts, In token part := by
  induction parts with
  | nil =>
      rw [In, String.intercalate_nil] at h
      exact absurd (List.infix_nil.mp h) hne
  | cons p parts ih =>
      by_cases hnil : parts = []
      · subst hnil
        rw [String.intercalate_singleton] at h
        exact ⟨p, List.mem_singleton_self p, h⟩
      · rw [String.intercalate_cons_of_ne_nil hnil, In, String.toList_append, String.toList_append,
          List.append_assoc] at h
        rcases infix_of_append_sep hsep hsep' hne h with hp | hrest
        · exact ⟨p, List.mem_cons_self, hp⟩
        · obtain ⟨part, hpart, hin⟩ := ih hrest
          exact ⟨part, List.mem_cons_of_mem _ hpart, hin⟩

end Py
