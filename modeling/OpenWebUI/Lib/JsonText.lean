import Mathlib.Data.List.TakeWhile
import Mathlib.Data.List.Infix

/-! # Texts of JSON values

The grammar of the texts that a JSON decoder reads, and `json.JSONDecoder().raw_decode` as a
scanner of them. The scanner takes the longest text of a value there is at a position. It raises
`JSONDecodeError` where there is none, and another exception where an integer has too many digits
or brackets are nested too deeply.
-/

namespace Py

/-! ## Longest match of an automaton -/

section Automaton

variable {σ : Type} (step : σ → Char → Option σ) (accepts : σ → Bool)

/-- An accepting run over the whole text. -/
def Accepted (q : σ) (w : List Char) : Prop := ∃ q', w.foldlM step q = some q' ∧ accepts q' = true

/-- What is left after the longest accepted beginning. -/
def afterLongest : σ → List Char → Option (List Char)
  | q, [] => if accepts q then some [] else none
  | q, c :: s => ((step q c).bind fun q' => afterLongest q' s).or
      (if accepts q then some (c :: s) else none)

variable {step accepts} {q : σ} {s w rest : List Char}

theorem accepted_cons {c : Char} :
    Accepted step accepts q (c :: w) ↔ ∃ q', step q c = some q' ∧ Accepted step accepts q' w := by
  rw [Accepted, List.foldlM_cons]
  constructor
  · rintro ⟨q', hrun, hq'⟩
    obtain ⟨q₁, hstep, hrun⟩ := Option.bind_eq_some_iff.mp hrun
    exact ⟨q₁, hstep, q', hrun, hq'⟩
  · rintro ⟨q₁, hstep, q', hrun, hq'⟩
    exact ⟨q', Option.bind_eq_some_iff.mpr ⟨q₁, hstep, hrun⟩, hq'⟩

theorem accepted_nil : Accepted step accepts q [] ↔ accepts q = true :=
  ⟨fun ⟨_, hrun, hq⟩ => Option.some.inj hrun ▸ hq, fun h => ⟨q, rfl, h⟩⟩

/-- What is cut off is accepted. -/
theorem afterLongest_sound (h : afterLongest step accepts q s = some rest) :
    ∃ w, s = w ++ rest ∧ Accepted step accepts q w := by
  induction s generalizing q with
  | nil =>
      rw [afterLongest] at h
      split_ifs at h with hq
      cases h
      exact ⟨[], rfl, accepted_nil.mpr hq⟩
  | cons c s ih =>
      rw [afterLongest, Option.or_eq_some_iff] at h
      rcases h with h | ⟨-, h⟩
      · obtain ⟨q', hstep, h⟩ := Option.bind_eq_some_iff.mp h
        obtain ⟨w, rfl, hw⟩ := ih h
        exact ⟨c :: w, rfl, accepted_cons.mpr ⟨q', hstep, hw⟩⟩
      · split_ifs at h with hq
        cases h
        exact ⟨[], rfl, accepted_nil.mpr hq⟩

/-- No accepted prefix is longer than what is cut off. -/
theorem afterLongest_longest (hw : Accepted step accepts q w) (h : w <+: s) :
    ∃ rest, afterLongest step accepts q s = some rest ∧ w.length + rest.length ≤ s.length := by
  induction s generalizing q w with
  | nil =>
      obtain rfl := List.prefix_nil.mp h
      exact ⟨[], by rw [afterLongest, if_pos (accepted_nil.mp hw)], le_rfl⟩
  | cons c s ih =>
      rw [afterLongest]
      cases w with
      | nil =>
          rw [if_pos (accepted_nil.mp hw)]
          cases hnext : (step q c).bind fun q' => afterLongest step accepts q' s with
          | none => exact ⟨c :: s, rfl, by simp⟩
          | some rest =>
              obtain ⟨q', _, hrest⟩ := Option.bind_eq_some_iff.mp hnext
              obtain ⟨w, rfl, _⟩ := afterLongest_sound hrest
              exact ⟨rest, rfl, by simp; omega⟩
      | cons d w =>
          obtain ⟨hcd, hws⟩ := List.cons_prefix_cons.mp h
          subst hcd
          obtain ⟨q', hstep, hw⟩ := accepted_cons.mp hw
          obtain ⟨rest, hrest, hle⟩ := ih hw hws
          refine ⟨rest, ?_, by simp only [List.length_cons]; omega⟩
          rw [hstep, Option.bind_some, hrest, Option.some_or]

end Automaton

/-! ## Numbers -/

inductive NumberState where
  | start
  | minus
  | zero
  | int
  | dot
  | frac
  | e
  | sign
  | exp
deriving DecidableEq

/-- `.` or an exponent may follow an integer. -/
def afterInt (c : Char) : Option NumberState :=
  if c = '.' then some .dot else if c = 'e' ∨ c = 'E' then some .e else none

/-- `-?(0|[1-9]\d*)(\.\d+)?([eE][-+]?\d+)?`. -/
def numberStep : NumberState → Char → Option NumberState
  | .start, c => if c = '-' then some .minus else if c = '0' then some .zero else if c.isDigit then
    some .int else none
  | .minus, c => if c = '0' then some .zero else if c.isDigit then some .int else none
  | .zero, c => afterInt c
  | .int, c => if c.isDigit then some .int else afterInt c
  | .dot, c => if c.isDigit then some .frac else none
  | .frac, c => if c.isDigit then some .frac else if c = 'e' ∨ c = 'E' then some .e else none
  | .e, c => if c.isDigit then some .exp else if c = '+' ∨ c = '-' then some .sign else none
  | .sign, c => if c.isDigit then some .exp else none
  | .exp, c => if c.isDigit then some .exp else none

def numberAccepts : NumberState → Bool
  | .zero | .int | .frac | .exp => true
  | _ => false

def NumberText (w : List Char) : Prop := Accepted numberStep numberAccepts .start w

/-! ## The grammar -/

/-- White space inside a value. -/
def isWs (c : Char) : Bool := c = ' ' || c = '\t' || c = '\n' || c = '\r'

def Blank (s : List Char) : Prop := ∀ c ∈ s, isWs c = true

def isHex (c : Char) : Bool := c.isDigit || ('a' ≤ c && c ≤ 'f') || ('A' ≤ c && c ≤ 'F')

/-- What may stand after a backslash. -/
def isEscape (c : Char) : Bool := "\"\\/bfnrt".toList.contains c

/-- A string after its opening quote. -/
inductive StringText : List Char → Prop where
  | close : StringText ['"']
  | plain {c : Char} {b : List Char} (hquote : c ≠ '"') (hslash : c ≠ '\\')
      (hcontrol : 0x1f < c.toNat)
      (h : StringText b) : StringText (c :: b)
  | escape {c : Char} {b : List Char} (hc : isEscape c = true) (h : StringText b) :
      StringText ('\\' :: c :: b)
  | unicode {h₁ h₂ h₃ h₄ : Char} {b : List Char} (hhex : isHex h₁ = true ∧ isHex h₂ = true ∧
      isHex h₃ = true ∧ isHex h₄ = true)
      (h : StringText b) : StringText ('\\' :: 'u' :: h₁ :: h₂ :: h₃ :: h₄ :: b)

def literals : List (List Char) :=
  ["null".toList, "true".toList, "false".toList, "NaN".toList, "Infinity".toList,
    "-Infinity".toList]

/-- Values, what follows the opening bracket of an array that is not empty, and what follows that of
an object that is not empty. -/
inductive Kind where
  | value
  | items
  | members

inductive JsonText : Kind → List Char → Prop where
  | literal {l : List Char} (h : l ∈ literals) : JsonText .value l
  | number {w : List Char} (h : NumberText w) : JsonText .value w
  | string {b : List Char} (h : StringText b) : JsonText .value ('"' :: b)
  | emptyArray {ws : List Char} (hws : Blank ws) : JsonText .value ('[' :: (ws ++ [']']))
  | array {ws t : List Char} (hws : Blank ws) (h : JsonText .items t) :
      JsonText .value ('[' :: (ws ++ t))
  | emptyObject {ws : List Char} (hws : Blank ws) : JsonText .value ('\x7b' :: (ws ++ ['\x7d']))
  | object {ws t : List Char} (hws : Blank ws) (h : JsonText .members t) :
      JsonText .value ('\x7b' :: (ws ++ t))
  | lastItem {v ws : List Char} (h : JsonText .value v) (hws : Blank ws) :
      JsonText .items (v ++ (ws ++ [']']))
  | item {v ws ws' t : List Char} (h : JsonText .value v) (hws : Blank ws) (hws' : Blank ws')
      (ht : JsonText .items t) : JsonText .items (v ++ (ws ++ ',' :: (ws' ++ t)))
  | lastMember {b ws ws' v ws'' : List Char} (hb : StringText b) (hws : Blank ws) (hws' : Blank ws')
      (h : JsonText .value v) (hws'' : Blank ws'') :
      JsonText .members ('"' :: (b ++ (ws ++ ':' :: (ws' ++ (v ++ (ws'' ++ ['\x7d']))))))
  | member {b ws ws' v ws'' ws₃ t : List Char} (hb : StringText b) (hws : Blank ws)
      (hws' : Blank ws')
      (h : JsonText .value v) (hws'' : Blank ws'') (hws₃ : Blank ws₃) (ht : JsonText .members t) :
      JsonText .members ('"' :: (b ++ (ws ++ ':' :: (ws' ++ (v ++ (ws'' ++ ',' :: (ws₃ ++ t)))))))

/-! ## The scanner -/

/-- What is left after a value, `JSONDecodeError`, or another exception. -/
inductive Scan (α : Type) where
  | done (a : α)
  | malformed
  | raised
deriving DecidableEq

def Scan.bind {α β : Type} (x : Scan α) (f : α → Scan β) : Scan β :=
  match x with
  | .done a => f a
  | .malformed => .malformed
  | .raised => .raised

/-- `sys.get_int_max_str_digits()`. -/
def maxStrDigits : ℕ := 4300

def skipWs (s : List Char) : List Char := s.dropWhile isWs

/-- A string after its opening quote. -/
def scanString : List Char → Scan (List Char)
  | [] => .malformed
  | '"' :: s => .done s
  | '\\' :: 'u' :: h₁ :: h₂ :: h₃ :: h₄ :: s =>
    if isHex h₁ && isHex h₂ && isHex h₃ && isHex h₄ then scanString s else .malformed
  | '\\' :: c :: s => if isEscape c then scanString s else .malformed
  | c :: s => if c = '\\' || c.toNat ≤ 0x1f then .malformed else scanString s

/-- A text of digits and a sign is converted by `int`, which has a limit. -/
def isLongInt (w : List Char) : Bool :=
    w.all (fun c => c.isDigit || c = '-') && maxStrDigits < w.countP Char.isDigit

def scanNumber (s : List Char) : Scan (List Char) :=
  match afterLongest numberStep numberAccepts .start s with
  | none => .malformed
  | some rest => if isLongInt (s.take (s.length - rest.length)) then .raised else .done rest

def scanScalar (s : List Char) : Scan (List Char) :=
  match literals.find? fun l => l.isPrefixOf s with
  | some l => .done (s.drop l.length)
  | none => scanNumber s

/-- `scan_once`, with the number of brackets that may still be opened around a value. -/
def scan : ℕ → Kind → ℕ → List Char → Scan (List Char)
  | 0, _, _, _ => .raised
  | fuel + 1, .value, depth, s =>
    match s, depth with
    | '"' :: s, _ => scanString s
    | '[' :: _, 0 => .raised
    | '[' :: s, depth + 1 =>
      match skipWs s with
      | ']' :: rest => .done rest
      | s => scan fuel .items depth s
    | '\x7b' :: _, 0 => .raised
    | '\x7b' :: s, depth + 1 =>
      match skipWs s with
      | '\x7d' :: rest => .done rest
      | s => scan fuel .members depth s
    | s, _ => scanScalar s
  | fuel + 1, .items, depth, s =>
    (scan fuel .value depth s).bind fun rest =>
      match skipWs rest with
      | ']' :: rest => .done rest
      | ',' :: rest => scan fuel .items depth (skipWs rest)
      | _ => .malformed
  | fuel + 1, .members, depth, s =>
    match s with
    | '"' :: s =>
      (scanString s).bind fun rest =>
        match skipWs rest with
        | ':' :: rest =>
          (scan fuel .value depth (skipWs rest)).bind fun rest =>
            match skipWs rest with
            | '\x7d' :: rest => .done rest
            | ',' :: rest => scan fuel .members depth (skipWs rest)
            | _ => .malformed
        | _ => .malformed
    | _ => .malformed

/-- `raw_decode` from the beginning of a text. -/
def rawDecode (depth : ℕ) (s : List Char) : Scan (List Char) :=
    scan (2 * s.length + 1) .value depth s

example : rawDecode 9 "[1, \x7b\"a\": -2.5e3\x7d] x".toList = .done " x".toList := by decide +kernel

/-! ## Soundness -/

variable {s t v w b rest : List Char} {k : Kind} {depth fuel : ℕ}

/-- A chain of scans is done where both are. -/
theorem Scan.bind_done {α β : Type} {x : Scan α} {f : α → Scan β} {b : β} :
    x.bind f = .done b ↔ ∃ a, x = .done a ∧ f a = .done b := by
  cases x with
  | done a => exact ⟨fun h => ⟨a, rfl, h⟩, fun ⟨_, rfl, h⟩ => h⟩
  | malformed => exact ⟨(by cases ·), fun ⟨_, h, _⟩ => by cases h⟩
  | raised => exact ⟨(by cases ·), fun ⟨_, h, _⟩ => by cases h⟩

/-- What is skipped is blank. -/
theorem skipWs_split (s : List Char) : ∃ ws, Blank ws ∧ s = ws ++ skipWs s :=
  ⟨s.takeWhile isWs, fun _ hc => List.mem_takeWhile_imp hc, List.takeWhile_append_dropWhile.symm⟩

/-- What is scanned as a string is one. -/
theorem scanString_sound (h : scanString s = .done rest) : ∃ b, s = b ++ rest ∧ StringText b := by
  fun_induction scanString s with
  | case1 => cases h
  | case2 s =>
      cases h
      exact ⟨['"'], rfl, .close⟩
  | case3 h₁ h₂ h₃ h₄ s hhex ih =>
      obtain ⟨b, rfl, hb⟩ := ih h
      simp only [Bool.and_eq_true] at hhex
      exact ⟨_, rfl, .unicode ⟨hhex.1.1.1, hhex.1.1.2, hhex.1.2, hhex.2⟩ hb⟩
  | case4 => cases h
  | case5 c s _ hc ih =>
      obtain ⟨b, rfl, hb⟩ := ih h
      exact ⟨_, rfl, .escape hc hb⟩
  | case6 => cases h
  | case7 => cases h
  | case8 c s hquote _ _ hplain ih =>
      obtain ⟨b, rfl, hb⟩ := ih h
      simp only [Bool.or_eq_true, decide_eq_true_eq, not_or, not_le] at hplain
      exact ⟨_, rfl, .plain hquote hplain.1 hplain.2 hb⟩

/-- What is scanned as a number is one. -/
theorem scanNumber_sound (h : scanNumber s = .done rest) : ∃ w, s = w ++ rest ∧ NumberText w := by
  rw [scanNumber] at h
  cases hlongest : afterLongest numberStep numberAccepts .start s with
  | none =>
      rw [hlongest] at h
      cases h
  | some rest' =>
      rw [hlongest] at h
      dsimp only at h
      split_ifs at h
      cases h
      exact afterLongest_sound hlongest

/-- What is scanned as a scalar is a value. -/
theorem scanScalar_sound (h : scanScalar s = .done rest) :
    ∃ v, s = v ++ rest ∧ JsonText .value v := by
  rw [scanScalar] at h
  cases hfind : literals.find? fun l => l.isPrefixOf s with
  | none =>
      rw [hfind] at h
      obtain ⟨w, hw, hnumber⟩ := scanNumber_sound h
      exact ⟨w, hw, .number hnumber⟩
  | some l =>
      rw [hfind] at h
      cases h
      have hbegins : l <+: s := by simpa using List.find?_some hfind
      exact ⟨l, (List.prefix_iff_eq_append.mp hbegins).symm,
        .literal (List.mem_of_find?_eq_some hfind)⟩

/-- What the scanner takes is in the grammar. -/
theorem scan_sound :
    ∀ {rest}, scan fuel k depth s = .done rest → ∃ t, s = t ++ rest ∧ JsonText k t := by
  fun_induction scan fuel k depth s with
  | case1 => intro rest h; cases h
  | case2 fuel depth s =>
      intro rest h
      obtain ⟨b, rfl, hb⟩ := scanString_sound h
      exact ⟨_, rfl, .string hb⟩
  | case3 => intro rest h; cases h
  | case4 fuel s depth rest' hclose =>
      intro rest h
      cases h
      obtain ⟨ws, hws, hs⟩ := skipWs_split s
      exact ⟨'[' :: (ws ++ [']']), by rw [hs, hclose]; simp, .emptyArray hws⟩
  | case5 fuel s depth _ ih =>
      intro rest h
      obtain ⟨ws, hws, hs⟩ := skipWs_split s
      obtain ⟨t, ht, htext⟩ := ih h
      exact ⟨'[' :: (ws ++ t), by rw [hs, ht]; simp, .array hws htext⟩
  | case6 => intro rest h; cases h
  | case7 fuel s depth rest' hclose =>
      intro rest h
      cases h
      obtain ⟨ws, hws, hs⟩ := skipWs_split s
      exact ⟨'\x7b' :: (ws ++ ['\x7d']), by rw [hs, hclose]; simp, .emptyObject hws⟩
  | case8 fuel s depth _ ih =>
      intro rest h
      obtain ⟨ws, hws, hs⟩ := skipWs_split s
      obtain ⟨t, ht, htext⟩ := ih h
      exact ⟨'\x7b' :: (ws ++ t), by rw [hs, ht]; simp, .object hws htext⟩
  | case9 => intro rest h; exact scanScalar_sound h
  | case10 fuel depth s ihvalue ihitems =>
      intro rest h
      obtain ⟨rest₁, hvalue, h⟩ := Scan.bind_done.mp h
      obtain ⟨v, hv, hvtext⟩ := ihvalue hvalue
      obtain ⟨ws, hws, hsplit⟩ := skipWs_split rest₁
      -- the array closes, or another item follows
      split at h
      · next rest₂ hclose =>
          cases h
          exact ⟨v ++ (ws ++ [']']), by rw [hv, hsplit, hclose]; simp, .lastItem hvtext hws⟩
      · next rest₂ hcomma =>
          obtain ⟨ws', hws', hsplit'⟩ := skipWs_split rest₂
          obtain ⟨t, ht, htext⟩ := ihitems rest₂ h
          exact ⟨v ++ (ws ++ ',' :: (ws' ++ t)), by rw [hv, hsplit, hcomma, hsplit', ht]; simp,
            .item hvtext hws hws' htext⟩
      · cases h
  | case11 fuel depth s ihvalue ihmembers =>
      intro rest h
      obtain ⟨rest₁, hstring, h⟩ := Scan.bind_done.mp h
      obtain ⟨b, hb, hbtext⟩ := scanString_sound hstring
      obtain ⟨ws, hws, hsplit⟩ := skipWs_split rest₁
      split at h
      · next rest₂ hcolon =>
          obtain ⟨rest₃, hvalue, h⟩ := Scan.bind_done.mp h
          obtain ⟨ws', hws', hsplit'⟩ := skipWs_split rest₂
          obtain ⟨v, hv, hvtext⟩ := ihvalue rest₂ hvalue
          obtain ⟨ws'', hws'', hsplit''⟩ := skipWs_split rest₃
          -- the object closes, or another member follows
          split at h
          · next rest₄ hclose =>
              cases h
              refine ⟨'"' :: (b ++ (ws ++ ':' :: (ws' ++ (v ++ (ws'' ++ ['\x7d']))))), ?_,
                .lastMember hbtext hws hws' hvtext hws''⟩
              rw [hb, hsplit, hcolon, hsplit', hv, hsplit'', hclose]
              simp
          · next rest₄ hcomma =>
              obtain ⟨ws₃, hws₃, hsplit₃⟩ := skipWs_split rest₄
              obtain ⟨t, ht, htext⟩ := ihmembers rest₄ h
              refine ⟨'"' :: (b ++ (ws ++ ':' :: (ws' ++ (v ++ (ws'' ++ ',' :: (ws₃ ++ t)))))), ?_,
                .member hbtext hws hws' hvtext hws'' hws₃ htext⟩
              rw [hb, hsplit, hcolon, hsplit', hv, hsplit'', hcomma, hsplit₃, ht]
              simp
          · cases h
      · cases h
  | case12 => intro rest h; cases h

/-! ## Completeness -/

/-- What can be inside a number. -/
def isNumberChar (c : Char) : Bool :=
    c.isDigit || c = '-' || c = '+' || c = '.' || c = 'e' || c = 'E'

/-- The number automaton reads number characters only. -/
theorem isNumberChar_of_step {q q' : NumberState} {c : Char} (h : numberStep q c = some q') :
    isNumberChar c = true := by
  have hzero : ∀ c : Char, c = '0' → c.isDigit = true := by rintro _ rfl; decide
  rw [isNumberChar]
  cases q <;> simp only [numberStep, afterInt] at h <;> grind

/-- A number consists of number characters. -/
theorem isNumberChar_of_accepted {q : NumberState} (h : Accepted numberStep numberAccepts q w) :
    ∀ c ∈ w, isNumberChar c = true := by
  induction w generalizing q with
  | nil => exact fun c hc => absurd hc List.not_mem_nil
  | cons c w ih =>
      obtain ⟨q', hstep, hw⟩ := accepted_cons.mp h
      exact List.forall_mem_cons.mpr ⟨isNumberChar_of_step hstep, ih hw⟩

/-- A number begins with a digit, or with a sign and a digit. -/
theorem NumberText.head (h : NumberText w) : ∃ c t, w = c :: t ∧
    (c.isDigit = true ∨ c = '-' ∧ ∃ d t', t = d :: t' ∧ d.isDigit = true) := by
  have hzero : ∀ c : Char, c = '0' → c.isDigit = true := by rintro _ rfl; decide
  cases w with
  | nil => exact absurd (accepted_nil.mp h) (by decide)
  | cons c t =>
      refine ⟨c, t, rfl, ?_⟩
      obtain ⟨q, hstep, ht⟩ := accepted_cons.mp h
      by_cases hminus : c = '-'
      · subst hminus
        cases hstep
        cases t with
        | nil => exact absurd (accepted_nil.mp ht) (by decide)
        | cons d t' =>
            obtain ⟨q', hstep', -⟩ := accepted_cons.mp ht
            refine .inr ⟨rfl, d, t', rfl, ?_⟩
            simp only [numberStep] at hstep'
            grind
      · left
        simp only [numberStep] at hstep
        grind

/-- A literal begins with a letter, or with a sign and a letter. -/
theorem literal_head {l : List Char} (h : l ∈ literals) :
    ∃ c t, l = c :: t ∧ c ≠ '"' ∧ c ≠ '[' ∧ c ≠ '\x7b' ∧
    c.isDigit = false ∧ (c = '-' → ∃ d t', t = d :: t' ∧ d.isDigit = false) := by
  have hall : ∀ l ∈ literals, l ≠ [] ∧ l.head? ≠ some '"' ∧ l.head? ≠ some '[' ∧
    l.head? ≠ some '\x7b' ∧
      (l.head?.all fun c => !c.isDigit) = true ∧ (l.head? = some '-' → l.tail ≠ [] ∧
        (l.tail.head?.all fun c => !c.isDigit) = true) := by decide +kernel
  obtain ⟨hne, hquote, hbracket, hbrace, hdigit, hminus⟩ := hall l h
  cases l with
  | nil => exact absurd rfl hne
  | cons c t =>
      refine ⟨c, t, rfl, fun heq => hquote (heq ▸ rfl), fun heq => hbracket (heq ▸ rfl),
        fun heq => hbrace (heq ▸ rfl),
        by simpa using hdigit, fun heq => ?_⟩
      obtain ⟨hne', hdigit'⟩ := hminus (heq ▸ rfl)
      cases t with
      | nil => exact absurd rfl hne'
      | cons d t' => exact ⟨d, t', rfl, by simpa using hdigit'⟩

/-- No literal begins as a number does. -/
theorem find?_literals_number (h : NumberText w) (hbegins : w <+: s) :
    (literals.find? fun l => l.isPrefixOf s) = none := by
  obtain ⟨rest, rfl⟩ := hbegins
  obtain ⟨c, t, rfl, hc⟩ := h.head
  rw [List.find?_eq_none]
  intro l hl hliteral
  obtain ⟨x, t₁, rfl, -, -, -, hx, hminus⟩ := literal_head hl
  have hp : x :: t₁ <+: c :: (t ++ rest) := by simpa using hliteral
  obtain ⟨rfl, htail⟩ := List.cons_prefix_cons.mp hp
  rcases hc with hdigit | ⟨rfl, d, t', rfl, hdigit⟩
  · rw [hx] at hdigit
    cases hdigit
  · obtain ⟨y, t₂, rfl, hy⟩ := hminus rfl
    obtain ⟨rfl, -⟩ := List.cons_prefix_cons.mp htail
    rw [hy] at hdigit
    cases hdigit

/-- The literals begin differently. -/
theorem find?_literals {l : List Char} (h : l ∈ literals) (rest : List Char) :
    (literals.find? fun l' => l'.isPrefixOf (l ++ rest)) = some l := by
  have hdiffer : ∀ l ∈ literals, ∀ l' ∈ literals, l'.head? = l.head? → l' = l := by decide +kernel
  cases hfind : literals.find? fun l' => l'.isPrefixOf (l ++ rest) with
  | none => exact absurd (by simp) (List.find?_eq_none.mp hfind l h)
  | some l' =>
      have hmem := List.mem_of_find?_eq_some hfind
      have hp : l' <+: l ++ rest := by simpa using List.find?_some hfind
      obtain ⟨c, t, rfl, -⟩ := literal_head h
      obtain ⟨c', t', rfl, -⟩ := literal_head hmem
      obtain ⟨rfl, -⟩ := List.cons_prefix_cons.mp hp
      rw [hdiffer _ h _ hmem rfl]

/-- The rest of a text does not go on with a number. -/
def Stops (rest : List Char) : Prop := ∀ c ∈ rest.head?, isNumberChar c = false

/-- A number is scanned to its end, or is too long. -/
theorem scanNumber_complete (h : NumberText w) (hrest : Stops rest) :
    scanNumber (w ++ rest) = .done rest ∨ scanNumber (w ++ rest) = .raised := by
  obtain ⟨rest', hlongest, hle⟩ := afterLongest_longest h (List.prefix_append w rest)
  obtain ⟨w', hw', haccepted⟩ := afterLongest_sound hlongest
  -- a longer number would go on with the first character of the rest
  have hsame : rest' = rest := by
    rcases List.append_eq_append_iff.mp hw' with ⟨z, rfl, hz⟩ | ⟨z, rfl, rfl⟩
    · cases z with
      | nil => simpa using hz.symm
      | cons c z =>
          subst hz
          have hc := hrest c rfl
          rw [isNumberChar_of_accepted haccepted c (by simp)] at hc
          cases hc
    · simp only [List.length_append] at hle
      have hz : z = [] := List.eq_nil_of_length_eq_zero (by omega)
      rw [hz, List.nil_append]
  rw [scanNumber, hlongest, hsame]
  dsimp only
  split_ifs
  · exact .inr rfl
  · exact .inl rfl

/-- A string is scanned to its end. -/
theorem scanString_complete (h : StringText b) (rest : List Char) :
    scanString (b ++ rest) = .done rest := by
  induction h with
  | close => rfl
  | @plain c b hquote hslash hcontrol _ ih =>
      rw [List.cons_append, scanString, if_neg, ih]
      · simp only [Bool.or_eq_true, decide_eq_true_eq, not_or, not_le]
        exact ⟨hslash, hcontrol⟩
      · exact hquote
      all_goals intros; simp_all
  | @escape c b hc _ ih =>
      have hu : c ≠ 'u' := by
        rintro rfl
        exact absurd hc (by decide)
      rw [List.cons_append, List.cons_append, scanString, if_pos hc, ih]
      intros
      simp_all
  | unicode hhex _ ih =>
      rw [List.cons_append, List.cons_append, List.cons_append, List.cons_append, List.cons_append,
        List.cons_append, scanString, if_pos (by simp [hhex]), ih]

/-- What a value or a list of items or members begins with. -/
def isHead (c : Char) : Bool := c.isAlphanum || c = '-' || c = '"' || c = '[' || c = '\x7b'

/-- Every text has a first character of its kind. -/
theorem JsonText.head (h : JsonText k t) : ∃ c t', t = c :: t' ∧ isHead c = true := by
  induction h with
  | literal hl =>
      have hall : ∀ l ∈ literals, l.head?.all isHead = true := by decide +kernel
      obtain ⟨c, t', rfl, -⟩ := literal_head hl
      exact ⟨c, t', rfl, hall _ hl⟩
  | number hw =>
      obtain ⟨c, t', rfl, hc⟩ := hw.head
      refine ⟨c, t', rfl, ?_⟩
      rcases hc with hdigit | ⟨rfl, -⟩
      · simp [isHead, Char.isAlphanum, hdigit]
      · decide
  | lastItem _ _ ih =>
      obtain ⟨c, t', rfl, hc⟩ := ih
      exact ⟨c, _, rfl, hc⟩
  | item _ _ _ _ ih =>
      obtain ⟨c, t', rfl, hc⟩ := ih
      exact ⟨c, _, rfl, hc⟩
  | _ => exact ⟨_, _, rfl, by decide⟩

/-- What a value or a list of items or members ends with. -/
def isLast (c : Char) : Bool := c.isAlphanum || c = '"' || c = ']' || c = '\x7d'

/-- A string ends with its quote. -/
theorem StringText.last (h : StringText b) : ∃ b', b = b' ++ ['"'] := by
  induction h with
  | close => exact ⟨[], rfl⟩
  | plain _ _ _ _ ih =>
      obtain ⟨b', rfl⟩ := ih
      exact ⟨_ :: b', rfl⟩
  | escape _ _ ih =>
      obtain ⟨b', rfl⟩ := ih
      exact ⟨_ :: _ :: b', rfl⟩
  | unicode _ _ ih =>
      obtain ⟨b', rfl⟩ := ih
      exact ⟨_ :: _ :: _ :: _ :: _ :: _ :: b', rfl⟩

/-- The states that accept are reached with a digit. -/
theorem accepted_last {q : NumberState} (h : Accepted numberStep numberAccepts q w) (hne : w ≠ []) :
    ∃ w' c, w = w' ++ [c] ∧ c.isDigit = true := by
  have hzero : ∀ c : Char, c = '0' → c.isDigit = true := by rintro _ rfl; decide
  induction w generalizing q with
  | nil => exact absurd rfl hne
  | cons c w ih =>
      obtain ⟨q', hstep, hw⟩ := accepted_cons.mp h
      cases w with
      | nil =>
          have haccepts := accepted_nil.mp hw
          refine ⟨[], c, rfl, ?_⟩
          cases q <;> simp only [numberStep, afterInt] at hstep <;> grind [numberAccepts]
      | cons d w =>
          obtain ⟨w', x, heq, hx⟩ := ih hw (List.cons_ne_nil d w)
          exact ⟨c :: w', x, by rw [heq, List.cons_append], hx⟩

/-- Every text has a last character of its kind. -/
theorem JsonText.last (h : JsonText k t) : ∃ t' c, t = t' ++ [c] ∧ isLast c = true := by
  induction h with
  | literal hl =>
      have hall : ∀ l ∈ literals, l ≠ [] ∧ l.getLast?.all isLast = true := by decide +kernel
      obtain ⟨hne, hlast⟩ := hall _ hl
      rw [List.getLast?_eq_some_getLast hne] at hlast
      exact ⟨_, _, (List.dropLast_concat_getLast hne).symm, hlast⟩
  | number hw =>
      obtain ⟨c, t, rfl, -⟩ := hw.head
      obtain ⟨w', x, heq, hx⟩ := accepted_last hw (List.cons_ne_nil c t)
      exact ⟨w', x, heq, by simp [isLast, Char.isAlphanum, hx]⟩
  | string hb =>
      obtain ⟨b', rfl⟩ := hb.last
      exact ⟨'"' :: b', '"', rfl, by decide⟩
  | @emptyArray ws => exact ⟨'[' :: ws, ']', rfl, by decide⟩
  | @array ws _ _ _ ih =>
      obtain ⟨t', c, rfl, hc⟩ := ih
      exact ⟨'[' :: (ws ++ t'), c, by simp, hc⟩
  | @emptyObject ws => exact ⟨'\x7b' :: ws, '\x7d', rfl, by decide⟩
  | @object ws _ _ _ ih =>
      obtain ⟨t', c, rfl, hc⟩ := ih
      exact ⟨'\x7b' :: (ws ++ t'), c, by simp, hc⟩
  | @lastItem v ws => exact ⟨v ++ ws, ']', by simp, by decide⟩
  | @item v ws ws' _ _ _ _ _ _ ih =>
      obtain ⟨t', c, rfl, hc⟩ := ih
      exact ⟨v ++ (ws ++ ',' :: (ws' ++ t')), c, by simp, hc⟩
  | @lastMember b ws ws' v ws'' =>
      exact ⟨'"' :: (b ++ (ws ++ ':' :: (ws' ++ (v ++ ws'')))), '\x7d', by simp, by decide⟩
  | @member b ws ws' v ws'' ws₃ _ _ _ _ _ _ _ _ _ ih =>
      obtain ⟨t', c, rfl, hc⟩ := ih
      exact ⟨'"' :: (b ++ (ws ++ ':' :: (ws' ++ (v ++ (ws'' ++ ',' :: (ws₃ ++ t')))))),
        c, by simp, hc⟩

/-- A value does not start with space or a closing bracket. -/
theorem not_head {c : Char} (h : isWs c = true ∨ c = ']' ∨ c = '\x7d') : isHead c = false := by
  rw [isWs] at h
  simp only [Bool.or_eq_true, decide_eq_true_eq] at h
  rcases h with (((rfl | rfl) | rfl) | rfl) | rfl | rfl <;> decide

/-- A number stops before space, a comma or a closing bracket. -/
theorem stops_of_not_head {c : Char} (h : isWs c = true ∨ c = ',' ∨ c = ']' ∨ c = '\x7d')
    (s : List Char) :
    Stops (c :: s) := by
  intro d hd
  cases hd
  rw [isWs] at h
  simp only [Bool.or_eq_true, decide_eq_true_eq] at h
  rcases h with (((rfl | rfl) | rfl) | rfl) | rfl | rfl | rfl <;> decide

/-- A number stops before blank that is followed by a stop. -/
theorem stops_blank {ws : List Char} (hws : Blank ws) (hs : Stops s) : Stops (ws ++ s) := by
  cases ws with
  | nil => exact hs
  | cons c ws => exact stops_of_not_head (.inl (hws c List.mem_cons_self)) _

theorem skipWs_append {ws : List Char} (hws : Blank ws) (hs : ∀ c ∈ s.head?, isWs c = false) :
    skipWs (ws ++ s) = s := by
  rw [skipWs, List.dropWhile_append_of_pos hws]
  cases s with
  | nil => rfl
  | cons c s => rw [List.dropWhile_cons, hs c rfl, if_neg Bool.false_ne_true]

/-- Blank before a text is skipped, and no more. -/
theorem JsonText.skipWs (h : JsonText k t) {ws : List Char} (hws : Blank ws) (rest : List Char) :
    skipWs (ws ++ (t ++ rest)) = t ++ rest := by
  obtain ⟨c, t', rfl, hc⟩ := h.head
  refine skipWs_append hws fun d hd => ?_
  cases hd
  by_contra hspace
  rw [not_head (.inl (by simpa using hspace))] at hc
  cases hc

/-- What starts as no string, list or object is a scalar. -/
theorem scan_scalar {c : Char} (hquote : c ≠ '"') (hbracket : c ≠ '[') (hbrace : c ≠ '\x7b')
    (fuel depth : ℕ) (s : List Char) :
    scan (fuel + 1) .value depth (c :: s) = scanScalar (c :: s) := by
  rw [scan] <;> simp_all

/-- The rest of a text that is scanned to its end, where no limit is met. -/
def Taken (r : Scan (List Char)) (rest : List Char) : Prop := r = .done rest ∨ r = .raised

/-- A number needs a rest that does not go on with it. -/
def Takes (fuel : ℕ) (k : Kind) (t : List Char) : Prop :=
  ∀ depth rest, (k = .value → NumberText t → Stops rest) →
    Taken (scan fuel k depth (t ++ rest)) rest

/-- What is taken may be taken on from. -/
theorem Taken.bind {r : Scan (List Char)} {f : List Char → Scan (List Char)} (hr : Taken r s)
    (hf : Taken (f s) rest) : Taken (r.bind f) rest := by
  rcases hr with rfl | rfl
  · exact hf
  · exact .inr rfl

theorem takes_of_succ (h : ∀ fuel, Takes (fuel + 1) k t) (fuel : ℕ) : Takes fuel k t := by
  cases fuel with
  | zero => exact fun _ _ _ => .inr rfl
  | succ fuel => exact h fuel

/-- Blank before a mark is skipped. -/
theorem skipWs_mark {c : Char} (hc : c = ']' ∨ c = '\x7d' ∨ c = ',' ∨ c = ':') {ws : List Char}
    (hws : Blank ws) (s : List Char) : skipWs (ws ++ c :: s) = c :: s := by
  refine skipWs_append hws fun d hd => ?_
  cases hd
  rcases hc with rfl | rfl | rfl | rfl <;> decide

theorem takes_literal {l : List Char} (hl : l ∈ literals) (fuel : ℕ) :
    Takes (fuel + 1) .value l := by
  intro depth rest _
  obtain ⟨c, t', rfl, hquote, hbracket, hbrace, -⟩ := literal_head hl
  rw [List.cons_append, scan_scalar hquote hbracket hbrace, ← List.cons_append, scanScalar,
    find?_literals hl]
  exact .inl (by simp)

theorem takes_number (hw : NumberText w) (fuel : ℕ) : Takes (fuel + 1) .value w := by
  intro depth rest hstops
  have hfind := find?_literals_number hw (List.prefix_append _ rest)
  have hscan := scanNumber_complete hw (hstops rfl hw)
  obtain ⟨c, t', rfl, hc⟩ := hw.head
  have hplain : c ≠ '"' ∧ c ≠ '[' ∧ c ≠ '\x7b' := by
    rcases hc with hdigit | ⟨rfl, -⟩
    · refine ⟨?_, ?_, ?_⟩ <;> (rintro rfl; exact absurd hdigit (by decide))
    · decide
  rw [List.cons_append] at hfind hscan ⊢
  rw [scan_scalar hplain.1 hplain.2.1 hplain.2.2, scanScalar, hfind]
  exact hscan

theorem takes_emptyArray {ws : List Char} (hws : Blank ws) (fuel : ℕ) :
    Takes (fuel + 1) .value ('[' :: (ws ++ [']'])) := by
  intro depth rest _
  cases depth with
  | zero => exact .inr rfl
  | succ depth =>
      left
      rw [List.cons_append, List.append_assoc, scan]
      rw [List.singleton_append, skipWs_mark (.inl rfl) hws]
      rfl

theorem takes_array {ws : List Char} (hws : Blank ws) (ht : JsonText .items t)
    (h : Takes fuel .items t) :
    Takes (fuel + 1) .value ('[' :: (ws ++ t)) := by
  intro depth rest _
  cases depth with
  | zero => exact .inr rfl
  | succ depth =>
      have hnext := h depth rest (fun heq => by cases heq)
      rw [List.cons_append, List.append_assoc, scan, ht.skipWs hws]
      obtain ⟨c, t', rfl, hc⟩ := ht.head
      have hne : c ≠ ']' := by
        rintro rfl
        exact absurd hc (by decide)
      rw [List.cons_append] at hnext ⊢
      split
      · next heq => exact absurd (List.cons.inj heq).1 hne
      · exact hnext

theorem takes_emptyObject {ws : List Char} (hws : Blank ws) (fuel : ℕ) :
    Takes (fuel + 1) .value ('\x7b' :: (ws ++ ['\x7d'])) := by
  intro depth rest _
  cases depth with
  | zero => exact .inr rfl
  | succ depth =>
      left
      rw [List.cons_append, List.append_assoc, scan]
      rw [List.singleton_append, skipWs_mark (.inr (.inl rfl)) hws]
      rfl

theorem takes_object {ws : List Char} (hws : Blank ws) (ht : JsonText .members t)
    (h : Takes fuel .members t) :
    Takes (fuel + 1) .value ('\x7b' :: (ws ++ t)) := by
  intro depth rest _
  cases depth with
  | zero => exact .inr rfl
  | succ depth =>
      have hnext := h depth rest (fun heq => by cases heq)
      rw [List.cons_append, List.append_assoc, scan, ht.skipWs hws]
      obtain ⟨c, t', rfl, hc⟩ := ht.head
      have hne : c ≠ '\x7d' := by
        rintro rfl
        exact absurd hc (by decide)
      rw [List.cons_append] at hnext ⊢
      split
      · next heq => exact absurd (List.cons.inj heq).1 hne
      · exact hnext

theorem takes_lastItem {ws : List Char} (hv : Takes fuel .value v) (hws : Blank ws) :
    Takes (fuel + 1) .items (v ++ (ws ++ [']'])) := by
  intro depth rest _
  have hstops : Stops (ws ++ ']' :: rest) := stops_blank hws (stops_of_not_head (by simp) _)
  rw [List.append_assoc, List.append_assoc, List.singleton_append, scan]
  refine (hv depth _ fun _ _ => hstops).bind ?_
  rw [skipWs_mark (.inl rfl) hws]
  exact .inl rfl

theorem takes_item {ws ws' : List Char} (hv : Takes fuel .value v) (hws : Blank ws)
    (hws' : Blank ws') (ht : JsonText .items t) (h : Takes fuel .items t) :
    Takes (fuel + 1) .items (v ++ (ws ++ ',' :: (ws' ++ t))) := by
  intro depth rest _
  have hstops : Stops (ws ++ ',' :: (ws' ++ (t ++ rest))) :=
    stops_blank hws (stops_of_not_head (by simp) _)
  have hsplit :
    v ++ (ws ++ ',' :: (ws' ++ t)) ++ rest = v ++ (ws ++ ',' :: (ws' ++ (t ++ rest))) := by simp
  rw [hsplit, scan]
  refine (hv depth _ fun _ _ => hstops).bind ?_
  rw [skipWs_mark (by simp) hws]
  show Taken (scan fuel .items depth (Py.skipWs (ws' ++ (t ++ rest)))) rest
  rw [ht.skipWs hws']
  exact h depth rest (fun heq => by cases heq)

theorem takes_lastMember {ws ws' ws'' : List Char} (hb : StringText b) (hws : Blank ws)
    (hws' : Blank ws') (hv : JsonText .value v) (h : Takes fuel .value v) (hws'' : Blank ws'') :
    Takes (fuel + 1) .members
      ('"' :: (b ++ (ws ++ ':' :: (ws' ++ (v ++ (ws'' ++ ['\x7d'])))))) := by
  intro depth rest _
  have hstops : Stops (ws'' ++ '\x7d' :: rest) := stops_blank hws'' (stops_of_not_head (by simp) _)
  have hsplit : '"' :: (b ++ (ws ++ ':' :: (ws' ++ (v ++ (ws'' ++ ['\x7d']))))) ++ rest =
      '"' :: (b ++ (ws ++ ':' :: (ws' ++ (v ++ (ws'' ++ '\x7d' :: rest))))) := by simp
  rw [hsplit, scan]
  refine Taken.bind (.inl (scanString_complete hb _)) ?_
  rw [skipWs_mark (by simp) hws]
  show Taken ((scan fuel .value depth (Py.skipWs (ws' ++ (v ++ (ws'' ++ '\x7d' :: rest))))).bind _)
    rest
  rw [hv.skipWs hws']
  refine (h depth _ fun _ _ => hstops).bind ?_
  rw [skipWs_mark (by simp) hws'']
  exact .inl rfl

theorem takes_member {ws ws' ws'' ws₃ : List Char} (hb : StringText b) (hws : Blank ws)
    (hws' : Blank ws') (hv : JsonText .value v) (h : Takes fuel .value v) (hws'' : Blank ws'')
    (hws₃ : Blank ws₃) (ht : JsonText .members t) (hrest : Takes fuel .members t) :
    Takes (fuel + 1) .members
      ('"' :: (b ++ (ws ++ ':' :: (ws' ++ (v ++ (ws'' ++ ',' :: (ws₃ ++ t))))))) := by
  intro depth rest _
  have hstops : Stops (ws'' ++ ',' :: (ws₃ ++ (t ++ rest))) :=
    stops_blank hws'' (stops_of_not_head (by simp) _)
  have hsplit : '"' :: (b ++ (ws ++ ':' :: (ws' ++ (v ++ (ws'' ++ ',' :: (ws₃ ++ t)))))) ++ rest =
      '"' :: (b ++ (ws ++ ':' :: (ws' ++ (v ++ (ws'' ++ ',' :: (ws₃ ++ (t ++ rest))))))) := by simp
  rw [hsplit, scan]
  refine Taken.bind (.inl (scanString_complete hb _)) ?_
  rw [skipWs_mark (by simp) hws]
  show Taken ((scan fuel .value depth
    (Py.skipWs (ws' ++ (v ++ (ws'' ++ ',' :: (ws₃ ++ (t ++ rest))))))).bind _) rest
  rw [hv.skipWs hws']
  refine (h depth _ fun _ _ => hstops).bind ?_
  rw [skipWs_mark (by simp) hws'']
  show Taken (scan fuel .members depth (Py.skipWs (ws₃ ++ (t ++ rest)))) rest
  rw [ht.skipWs hws₃]
  exact hrest depth rest (fun heq => by cases heq)

/-- A text that is not refused is taken to its end. -/
theorem scan_complete (h : JsonText k t) : ∀ fuel, Takes fuel k t := by
  induction h with
  | literal hl => exact takes_of_succ (takes_literal hl)
  | number hw => exact takes_of_succ (takes_number hw)
  | string hb => exact takes_of_succ fun _ _ rest _ => .inl (scanString_complete hb rest)
  | emptyArray hws => exact takes_of_succ (takes_emptyArray hws)
  | array hws ht ih => exact takes_of_succ fun fuel => takes_array hws ht (ih fuel)
  | emptyObject hws => exact takes_of_succ (takes_emptyObject hws)
  | object hws ht ih => exact takes_of_succ fun fuel => takes_object hws ht (ih fuel)
  | lastItem _ hws ih => exact takes_of_succ fun fuel => takes_lastItem (ih fuel) hws
  | item _ hws hws' ht ih iht =>
      exact takes_of_succ fun fuel => takes_item (ih fuel) hws hws' ht (iht fuel)
  | lastMember hb hws hws' hv hws'' ih =>
      exact takes_of_succ fun fuel => takes_lastMember hb hws hws' hv (ih fuel) hws''
  | member hb hws hws' hv hws'' hws₃ ht ih iht =>
      exact takes_of_succ fun fuel => takes_member hb hws hws' hv (ih fuel) hws'' hws₃ ht (iht fuel)

/-! ## What is raised -/

def isOpen (c : Char) : Bool := c = '[' || c = '\x7b'

/-- A text whose brackets and digits stay within the limits. -/
structure Bounded (depth : ℕ) (s : List Char) : Prop where
  brackets : s.countP isOpen ≤ depth
  digits : ∀ t, t <:+: s → (∀ c ∈ t, c.isDigit = true) → t.length ≤ maxStrDigits

/-- What follows is nested no deeper. -/
theorem Bounded.suffix (h : Bounded depth s) (ht : t <:+ s) : Bounded depth t :=
  ⟨ht.sublist.countP_le.trans h.brackets, fun u hu => h.digits u (hu.trans ht.isInfix)⟩

/-- An opening bracket uses a level up. -/
theorem Bounded.open {c : Char} (h : Bounded depth (c :: s)) (hc : isOpen c = true) :
    ∃ depth', depth = depth' + 1 ∧ Bounded depth' s := by
  have hcount := h.brackets
  rw [List.countP_cons_of_pos hc] at hcount
  exact ⟨depth - 1, by omega, by omega, (h.suffix (List.suffix_cons c s)).digits⟩

theorem skipWs_suffix (s : List Char) : skipWs s <:+ s := List.dropWhile_suffix isWs

theorem scan_suffix (h : scan fuel k depth s = .done rest) :
    rest <:+ s ∧ rest.length < s.length := by
  obtain ⟨t, rfl, ht⟩ := scan_sound h
  obtain ⟨c, t', rfl, -⟩ := ht.head
  refine ⟨List.suffix_append _ _, ?_⟩
  rw [List.length_append, List.length_cons]
  omega

theorem scanString_suffix (h : scanString s = .done rest) : rest <:+ s := by
  obtain ⟨b, rfl, -⟩ := scanString_sound h
  exact List.suffix_append _ _

/-- A chain raises only where a part does. -/
theorem Scan.bind_ne_raised {α β : Type} {x : Scan α} {f : α → Scan β} (hx : x ≠ .raised)
    (hf : ∀ a, x = .done a → f a ≠ .raised) : x.bind f ≠ .raised := by
  cases x with
  | done a => exact hf a rfl
  | malformed => exact fun h => by cases h
  | raised => exact absurd rfl hx

/-- A string does not raise. -/
theorem scanString_ne_raised (s : List Char) : scanString s ≠ .raised := by
  fun_induction scanString s <;> simp_all

/-- After its sign, a number without fraction and exponent has digits only. -/
theorem digits_of_accepted {q : NumberState} (hq : q = .minus ∨ q = .zero ∨ q = .int)
    (h : Accepted numberStep numberAccepts q w) (hall : ∀ c ∈ w, c.isDigit = true ∨ c = '-') :
    ∀ c ∈ w, c.isDigit = true := by
  induction w generalizing q with
  | nil => exact fun c hc => absurd hc List.not_mem_nil
  | cons c w ih =>
      obtain ⟨hc, hall⟩ := List.forall_mem_cons.mp hall
      obtain ⟨q', hstep, hw⟩ := accepted_cons.mp h
      have hnext : c.isDigit = true ∧ (q' = .zero ∨ q' = .int) := by
        have hzero : ∀ c : Char, c = '0' → c.isDigit = true := by rintro _ rfl; decide
        have hother : ∀ c : Char, c = '.' ∨ c = 'e' ∨ c = 'E' → c.isDigit = false ∧ c ≠ '-' := by
          rintro _ (rfl | rfl | rfl) <;> decide
        rcases hq with rfl | rfl | rfl <;> simp only [numberStep, afterInt] at hstep <;> grind
      exact List.forall_mem_cons.mpr ⟨hnext.1, ih (.inr hnext.2) hw hall⟩

/-- Within the bounds no integer is too long. -/
theorem isLongInt_false (h : Bounded depth (w ++ rest)) (hw : NumberText w) :
    isLongInt w = false := by
  rw [isLongInt, Bool.and_eq_false_iff]
  by_cases hall : (w.all fun c => c.isDigit || c = '-') = true
  · right
    simp only [List.all_eq_true, Bool.or_eq_true, decide_eq_true_eq] at hall
    obtain ⟨c, t, rfl, hc⟩ := hw.head
    obtain ⟨q, hstep, ht⟩ := accepted_cons.mp hw
    have hq : q = .minus ∨ q = .zero ∨ q = .int := by
      simp only [numberStep] at hstep
      grind
    have hdigits := digits_of_accepted hq ht fun c hc => hall c (List.mem_cons_of_mem _ hc)
    rw [decide_eq_false_iff_not, not_lt]
    rcases hc with hdigit | ⟨rfl, -⟩
    · have hle := h.digits (c :: t) (List.prefix_append _ _).isInfix
        (List.forall_mem_cons.mpr ⟨hdigit, hdigits⟩)
      exact List.countP_le_length.trans hle
    · have hinfix : t <:+: '-' :: t ++ rest := ⟨['-'], rest, by simp⟩
      rw [List.countP_cons_of_neg (by decide)]
      exact List.countP_le_length.trans (h.digits t hinfix hdigits)
  · exact .inl ((Bool.not_eq_true _).mp hall)

/-- Within the bounds no scalar raises. -/
theorem scanScalar_ne_raised (h : Bounded depth s) : scanScalar s ≠ .raised := by
  rw [scanScalar]
  split
  · exact fun heq => by cases heq
  · rw [scanNumber]
    split
    · exact fun heq => by cases heq
    · next rest hlongest =>
        obtain ⟨w, rfl, hw⟩ := afterLongest_sound hlongest
        have htake : (w ++ rest).take ((w ++ rest).length - rest.length) = w := by simp
        rw [htake, if_neg (by simp [isLongInt_false h hw])]
        exact fun heq => by cases heq

/-- Steps that suffice for a text. -/
def fuelFor : Kind → List Char → ℕ
  | .value, s => 2 * s.length + 1
  | _, s => 2 * s.length + 2

/-- Within the bounds nothing raises. -/
theorem scan_ne_raised : fuelFor k s ≤ fuel → Bounded depth s → scan fuel k depth s ≠ .raised := by
  fun_induction scan fuel k depth s with
  | case1 k depth s =>
      intro hfuel
      cases k <;> simp [fuelFor] at hfuel
  | case2 => exact fun _ _ => scanString_ne_raised _
  | case3 =>
      intro _ hbound
      obtain ⟨_, h, -⟩ := hbound.open (by decide)
      cases h
  | case4 => exact fun _ _ h => by cases h
  | case5 fuel s depth _ ih =>
      intro hfuel hbound
      obtain ⟨depth', heq, hs⟩ := hbound.open (by decide)
      cases heq
      have hle := (skipWs_suffix s).length_le
      simp only [fuelFor, List.length_cons] at hfuel ih
      exact ih (by omega) (hs.suffix (skipWs_suffix s))
  | case6 =>
      intro _ hbound
      obtain ⟨_, h, -⟩ := hbound.open (by decide)
      cases h
  | case7 => exact fun _ _ h => by cases h
  | case8 fuel s depth _ ih =>
      intro hfuel hbound
      obtain ⟨depth', heq, hs⟩ := hbound.open (by decide)
      cases heq
      have hle := (skipWs_suffix s).length_le
      simp only [fuelFor, List.length_cons] at hfuel ih
      exact ih (by omega) (hs.suffix (skipWs_suffix s))
  | case9 => exact fun _ hbound => scanScalar_ne_raised hbound
  | case10 fuel depth s ihvalue ihitems =>
      intro hfuel hbound
      simp only [fuelFor] at hfuel ihvalue ihitems
      -- what is left after a value is shorter, so the fuel is enough for the rest
      refine Scan.bind_ne_raised (ihvalue (by omega) hbound) fun rest hrest => ?_
      obtain ⟨hsuffix, hlt⟩ := scan_suffix hrest
      split
      · exact fun h => by cases h
      · next rest₂ hcomma =>
          have hrest₂ : rest₂ <:+ rest :=
            (List.suffix_cons ',' rest₂).trans (hcomma ▸ skipWs_suffix rest)
          have hskip := (skipWs_suffix rest₂).trans hrest₂
          have := hskip.length_le
          exact ihitems rest₂ (by omega) (hbound.suffix (hskip.trans hsuffix))
      · exact fun h => by cases h
  | case11 fuel depth s ihvalue ihmembers =>
      intro hfuel hbound
      simp only [fuelFor, List.length_cons] at hfuel ihvalue ihmembers
      refine Scan.bind_ne_raised (scanString_ne_raised _) fun rest hrest => ?_
      have hsuffix := (scanString_suffix hrest).trans (List.suffix_cons '"' s)
      have hlen := (scanString_suffix hrest).length_le
      split
      · next rest₂ hcolon =>
          have hrest₂ := (skipWs_suffix rest₂).trans
            ((List.suffix_cons ':' rest₂).trans (hcolon ▸ skipWs_suffix rest))
          have := hrest₂.length_le
          refine Scan.bind_ne_raised
            (ihvalue rest₂ (by omega) (hbound.suffix (hrest₂.trans hsuffix))) fun rest₃ hrest₃ => ?_
          obtain ⟨hsuffix₃, hlt₃⟩ := scan_suffix hrest₃
          split
          · exact fun h => by cases h
          · next rest₄ hcomma =>
              have hrest₄ := (skipWs_suffix rest₄).trans
                ((List.suffix_cons ',' rest₄).trans (hcomma ▸ skipWs_suffix rest₃))
              have := hrest₄.length_le
              exact ihmembers rest₄ (by omega)
                (hbound.suffix ((hrest₄.trans hsuffix₃).trans (hrest₂.trans hsuffix)))
          · exact fun h => by cases h
      · exact fun h => by cases h
  | case12 => exact fun _ _ h => by cases h

/-! ## `raw_decode` -/

/-- The decoder does not raise within the bounds. -/
theorem rawDecode_ne_raised (h : Bounded depth s) :
    rawDecode depth s ≠ .raised := scan_ne_raised le_rfl h

/-- What is decoded is a value. -/
theorem rawDecode_sound (h : rawDecode depth s = .done rest) :
    ∃ v, s = v ++ rest ∧ JsonText .value v := scan_sound h

/-- Where a value begins, one at least as long is taken. -/
theorem rawDecode_longest (hw : JsonText .value w) (hbegins : w <+: s) :
    rawDecode depth s = .raised ∨ ∃ rest, rawDecode depth s = .done rest ∧
      w.length + rest.length ≤ s.length := by
  by_cases hnumber : NumberText w
  · obtain ⟨rest, hlongest, hle⟩ := afterLongest_longest hnumber hbegins
    have hscalar : rawDecode depth s = scanNumber s := by
      have hfind := find?_literals_number hnumber hbegins
      obtain ⟨c, t, rfl, hc⟩ := hnumber.head
      obtain ⟨s', rfl⟩ := hbegins
      have hplain : c ≠ '"' ∧ c ≠ '[' ∧ c ≠ '\x7b' := by
        rcases hc with hdigit | ⟨rfl, -⟩
        · refine ⟨?_, ?_, ?_⟩ <;> (rintro rfl; exact absurd hdigit (by decide))
        · decide
      rw [List.cons_append] at hfind ⊢
      rw [rawDecode, scan_scalar hplain.1 hplain.2.1 hplain.2.2, scanScalar, hfind]
    rw [hscalar, scanNumber, hlongest]
    dsimp only
    split_ifs
    · exact .inl rfl
    · exact .inr ⟨rest, rfl, hle⟩
  · obtain ⟨rest, rfl⟩ := hbegins
    rcases scan_complete hw (2 * (w ++ rest).length + 1) depth rest fun _ hn =>
      absurd hn hnumber with hdone | hraised
    · exact .inr ⟨rest, hdone, by simp⟩
    · exact .inl hraised

end Py
