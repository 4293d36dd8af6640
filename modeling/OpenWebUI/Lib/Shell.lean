import Mathlib
import OpenWebUI.Lib.Text

/-! # Shell words

The quoting rules of a POSIX shell and the words they make of a text, as `shlex.split` reads them,
and how a text falls into pieces at the pipes that are neither quoted nor escaped.
-/

namespace Shell

/-- What the characters read so far have opened. -/
inductive Quoting where
  | plain
  | escaped
  | single
  | double
  | escapedDouble
deriving DecidableEq, Repr

/-- The blanks of the shell. -/
def isShellSpace (c : Char) : Bool := c = ' ' || c = '\t' || c = '\r' || c = '\n'

/-- The quoting after a character. `escapes` says whether a backslash is a character of its own. -/
def Quoting.next (escapes : Bool) : Quoting → Char → Quoting
  | plain, c =>
      if c = '\'' then single else if c = '"' then double
      else if escapes ∧ c = '\\' then escaped else plain
  | escaped, _ => plain
  | single, c => if c = '\'' then plain else single
  | double, c => if c = '"' then plain else if escapes ∧ c = '\\' then escapedDouble else double
  | escapedDouble, _ => double

/-- What a character adds to the word it belongs to. -/
def Quoting.emit : Quoting → Char → List Char
  | plain, c => if c = '\'' ∨ c = '"' ∨ c = '\\' ∨ isShellSpace c then [] else [c]
  | escaped, c => [c]
  | single, c => if c = '\'' then [] else [c]
  | double, c => if c = '"' ∨ c = '\\' then [] else [c]
  -- between double quotes a backslash is kept where it escapes nothing
  | escapedDouble, c => if c = '"' ∨ c = '\\' then [c] else ['\\', c]

/-- The quoting after a text. -/
def Quoting.after (escapes : Bool) (q : Quoting) (s : List Char) : Quoting :=
    s.foldl (next escapes) q

/-- What a text adds to the words. -/
def Quoting.emits : Quoting → List Char → List Char
  | _, [] => []
  | q, c :: s => q.emit c ++ (q.next true c).emits s

/-- The words read so far and the one that is open. -/
structure Lexer where
  quoting : Quoting
  token : Option (List Char)
  tokens : List (List Char)
deriving DecidableEq, Repr

def Lexer.start : Lexer := { quoting := .plain, token := none, tokens := [] }

/-- The words, with the open one. -/
def Lexer.close (l : Lexer) : List (List Char) := l.tokens ++ l.token.toList

def Lexer.read (l : Lexer) (c : Char) : Lexer :=
  if l.quoting = .plain ∧ isShellSpace c then { l with token := none, tokens := l.close }
  else
    { quoting := l.quoting.next true c,
      token := some (l.token.getD [] ++ l.quoting.emit c),
      tokens := l.tokens }

/-- The words of a text that leaves nothing open. -/
def Lexer.finish (l : Lexer) : Option (List (List Char)) :=
  if l.quoting = .plain then some l.close else none

/-- `shlex.split(s)`, `none` where it raises. -/
def words (s : List Char) : Option (List (List Char)) := (s.foldl Lexer.read .start).finish

/-- The lists of words of a pipeline: one pass, that ends a list at every pipe outside quotes. -/
def Lexer.pipeline : Lexer → List Char → Option (List (List (List Char)))
  | l, [] => l.finish.map ([·])
  | l, c :: s =>
      if c = '|' ∧ l.quoting = .plain then (pipeline .start s).map (l.close :: ·)
      else (l.read c).pipeline s

/-- The pieces of a text between its pipes outside quotes. -/
def Quoting.pieces (escapes : Bool) : Quoting → List Char → List (List Char)
  | _, [] => [[]]
  | q, c :: s =>
      if c = '|' ∧ q = .plain then [] :: pieces escapes q s
      else (pieces escapes (q.next escapes c) s).modifyHead (c :: ·)

/-- Both ways of reading backslashes agree on which pipes are quoted. -/
def Quoting.SamePipes (q₁ q₂ : Quoting) : List Char → Prop
  | [] => True
  | c :: s =>
      (c = '|' → (q₁ = .plain ↔ q₂ = .plain)) ∧ SamePipes (q₁.next false c) (q₂.next true c) s

instance Quoting.decidableSamePipes :
    ∀ (q₁ q₂ : Quoting) (s : List Char), Decidable (SamePipes q₁ q₂ s)
  | _, _, [] => isTrue trivial
  | q₁, q₂, c :: s =>
      have := decidableSamePipes (q₁.next false c) (q₂.next true c) s
      inferInstanceAs (Decidable ((c = '|' → (q₁ = .plain ↔ q₂ = .plain)) ∧ _))

variable {e : Bool} {q q₁ q₂ : Quoting} {l : Lexer} {c : Char} {s t : List Char}

/-! ## Quoting -/

@[simp] theorem Quoting.after_nil : q.after e [] = q := rfl

@[simp] theorem Quoting.after_cons : q.after e (c :: s) = (q.next e c).after e s := rfl

theorem Quoting.after_append : q.after e (s ++ t) = (q.after e s).after e t := List.foldl_append

theorem Quoting.emits_append : q.emits (s ++ t) = q.emits s ++ (q.after true s).emits t := by
  induction s generalizing q with
  | nil => rfl
  | cons c s ih => rw [List.cons_append, emits, ih, ← List.append_assoc, after_cons, emits]

/-- No blank is a quote, a backslash or a pipe. -/
theorem ne_of_isSpace {d : Char} (hc : Py.isSpace c = true) (hd : Py.isSpace d = false) :
    c ≠ d := by
  rintro rfl
  rw [hc] at hd
  cases hd

theorem isSpace_of_isShellSpace (h : isShellSpace c = true) : Py.isSpace c = true := by
  simp only [isShellSpace, Bool.or_eq_true, decide_eq_true_eq] at h
  rcases h with ((rfl | rfl) | rfl) | rfl <;> decide

/-- Outside quotes a space changes nothing. -/
theorem Quoting.next_plain_of_isSpace (h : Py.isSpace c = true) : plain.next e c = plain := by
  rw [next, if_neg (ne_of_isSpace h (by decide)), if_neg (ne_of_isSpace h (by decide)),
    if_neg fun hc => ne_of_isSpace h (by decide) hc.2]

/-- Blanks change what is open only behind a backslash. -/
theorem Quoting.after_plain_of_isSpace (h : ∀ c ∈ s, Py.isSpace c = true) :
    plain.after e s = plain := by
  induction s with
  | nil => rfl
  | cons c s ih =>
      rw [after_cons, next_plain_of_isSpace (h c List.mem_cons_self)]
      exact ih fun d hd => h d (List.mem_cons_of_mem _ hd)

/-- Within quotes a space does not end them. -/
theorem Quoting.next_of_isSpace (h : Py.isSpace c = true) (hq : q ≠ escaped) (hq' : q ≠ plain) :
    q.next e c ≠ escaped ∧ q.next e c ≠ plain := by
  cases q with
  | plain => exact absurd rfl hq'
  | escaped => exact absurd rfl hq
  | single =>
      rw [next, if_neg (ne_of_isSpace h (by decide))]
      decide
  | double =>
      rw [next, if_neg (ne_of_isSpace h (by decide)),
        if_neg fun hc => ne_of_isSpace h (by decide) hc.2]
      decide
  | escapedDouble => exact ⟨Quoting.noConfusion, Quoting.noConfusion⟩

/-- A text that blanks complete was complete, or they begin with the escaped character. -/
theorem Quoting.plain_of_after_isSpace (h : ∀ c ∈ s, Py.isSpace c = true)
    (hafter : q.after e s = plain) :
    q = plain ∨ q = escaped ∧ s ≠ [] := by
  by_cases hq : q = plain
  · exact .inl hq
  · refine .inr ?_
    by_cases hesc : q = escaped
    · refine ⟨hesc, ?_⟩
      rintro rfl
      exact hq hafter
    · exfalso
      induction s generalizing q with
      | nil => exact hq hafter
      | cons c s ih =>
          obtain ⟨hesc', hq''⟩ := next_of_isSpace (e := e) (h c List.mem_cons_self) hesc hq
          exact ih (fun d hd => h d (List.mem_cons_of_mem _ hd)) hafter hq'' hesc'

/-- Outside quotes a text of blanks adds those that are not the shell's. -/
theorem Quoting.emits_plain_of_isSpace (h : ∀ c ∈ s, Py.isSpace c = true) :
    plain.emits s = s.filter (!isShellSpace ·) := by
  induction s with
  | nil => rfl
  | cons c s ih =>
      have hc := h c List.mem_cons_self
      rw [emits, next_plain_of_isSpace hc, ih fun d hd => h d (List.mem_cons_of_mem _ hd), emit,
        List.filter_cons]
      simp only [ne_of_isSpace hc (d := '\'') (by decide), ne_of_isSpace hc (d := '"') (by decide),
        ne_of_isSpace hc (d := '\\') (by decide), false_or]
      cases isShellSpace c <;> rfl

/-- Quoted or not, a pipe that does not cut is a character of a word. -/
theorem Quoting.count_emits : (q.emits s).count '|' = s.count '|' := by
  have hemit : ∀ (q : Quoting) (c : Char), (q.emit c).count '|' = [c].count '|' := by
    intro q c
    by_cases hc : c = '|'
    · subst hc
      cases q <;> rfl
    · rw [List.count_singleton, if_neg (by simpa using hc), List.count_eq_zero]
      cases q <;> grind [emit]
  induction s generalizing q with
  | nil => rfl
  | cons c s ih => rw [emits, List.count_append, ih, hemit, ← List.count_append]; rfl

/-! ## Words -/

/-- The lexer follows the quoting. -/
theorem Lexer.quoting_read : (l.read c).quoting = l.quoting.next true c := by
  rw [read]
  split_ifs with h
  · rw [h.1, Quoting.next_plain_of_isSpace (isSpace_of_isShellSpace h.2)]
  · rfl

/-- The lexer follows the quoting along a text. -/
theorem Lexer.quoting_foldl : (s.foldl read l).quoting = l.quoting.after true s := by
  induction s generalizing l with
  | nil => rfl
  | cons c s ih => rw [List.foldl_cons, ih, quoting_read, Quoting.after_cons]

/-- Reading a character adds what it emits. -/
theorem Lexer.flatten_close_read :
    (l.read c).close.flatten = l.close.flatten ++ l.quoting.emit c := by
  rw [read]
  split_ifs with h
  · have hemit : l.quoting.emit c = [] := by
      rw [h.1, Quoting.emit, if_pos (.inr (.inr (.inr h.2)))]
    simp [close, hemit]
  · cases htoken : l.token <;> simp [close, htoken]

/-- No character of the text is lost but quotes, backslashes and blanks outside them. -/
theorem Lexer.flatten_close_foldl :
    (s.foldl read l).close.flatten = l.close.flatten ++ l.quoting.emits s := by
  induction s generalizing l with
  | nil => exact (List.append_nil _).symm
  | cons c s ih => rw [List.foldl_cons, ih, flatten_close_read, quoting_read, Quoting.emits,
      List.append_assoc]

theorem Lexer.close_read_ne_nil (h : l.close ≠ []) : (l.read c).close ≠ [] := by
  rw [read]
  split_ifs
  · simpa [close] using h
  · simp [close]

theorem Lexer.close_foldl_ne_nil (h : l.close ≠ []) : (s.foldl read l).close ≠ [] := by
  induction s generalizing l with
  | nil => exact h
  | cons c s ih => exact ih (close_read_ne_nil h)

/-- There are words where the text ends outside quotes. -/
theorem words_eq_some {ws : List (List Char)} (h : words s = some ws) :
    Quoting.plain.after true s = .plain ∧ (s.foldl Lexer.read .start).close = ws := by
  rw [words, Lexer.finish] at h
  split_ifs at h with hplain
  refine ⟨?_, Option.some.inj h⟩
  rwa [Lexer.quoting_foldl] at hplain

/-- A text that ends outside quotes has the words of the lexer. -/
theorem words_of_plain (h : Quoting.plain.after true s = .plain) :
    words s = some (s.foldl Lexer.read .start).close := by
  rw [words, Lexer.finish, if_pos]
  rw [Lexer.quoting_foldl]
  exact h

/-- A text that ends within quotes has no words. -/
theorem words_eq_none (h : Quoting.plain.after true s ≠ .plain) : words s = none := by
  rw [words, Lexer.finish, if_neg]
  rw [Lexer.quoting_foldl]
  exact h

/-- The words hold what the text emits. -/
theorem flatten_words {ws : List (List Char)} (h : words s = some ws) :
    ws.flatten = Quoting.plain.emits s := by
  rw [← (words_eq_some h).2, Lexer.flatten_close_foldl]
  rfl

/-- A text of more than shell blanks has a word. -/
theorem words_ne_nil {ws : List (List Char)} (h : words s = some ws) (hc : c ∈ s)
    (hspace : isShellSpace c = false) : ws ≠ [] := by
  have hread : ∀ {l : Lexer}, (s.foldl Lexer.read l).close = [] → l.quoting = .plain →
      ∀ d ∈ s, isShellSpace d = true := by
    clear h hc
    induction s with
    | nil => exact fun _ _ d hd => by cases hd
    | cons d s ih =>
        intro l hclose hplain
        have hd : isShellSpace d = true := by
          by_contra hd
          refine Lexer.close_foldl_ne_nil (l := l.read d) (s := s) ?_ hclose
          rw [Lexer.read, if_neg fun hboth => hd hboth.2]
          simp [Lexer.close]
        rintro x (_ | ⟨_, hx⟩)
        · exact hd
        · refine ih hclose ?_ x hx
          rw [Lexer.quoting_read, hplain,
            Quoting.next_plain_of_isSpace (isSpace_of_isShellSpace hd)]
  rintro rfl
  have := hread (words_eq_some h).2 rfl c hc
  rw [hspace] at this
  cases this

/-- Shell blanks before a text change nothing. -/
theorem foldl_of_isShellSpace (h : ∀ c ∈ s, isShellSpace c = true) :
    s.foldl Lexer.read .start = .start := by
  induction s with
  | nil => rfl
  | cons c s ih =>
      have hc := h c List.mem_cons_self
      rw [List.foldl_cons, Lexer.read, if_pos ⟨rfl, hc⟩]
      exact ih fun d hd => h d (List.mem_cons_of_mem _ hd)

/-- Shell blanks after a complete text change no word. -/
theorem close_foldl_of_isShellSpace (h : ∀ c ∈ s, isShellSpace c = true)
    (hplain : l.quoting = .plain) :
    (s.foldl Lexer.read l).close = l.close := by
  induction s generalizing l with
  | nil => rfl
  | cons c s ih =>
      have hc := h c List.mem_cons_self
      have hread : (l.read c).close = l.close := by
        rw [Lexer.read, if_pos ⟨hplain, hc⟩]
        exact List.append_nil _
      rw [List.foldl_cons, ih (fun d hd => h d (List.mem_cons_of_mem _ hd)), hread]
      rw [Lexer.quoting_read, hplain, Quoting.next_plain_of_isSpace (isSpace_of_isShellSpace hc)]

/-- Shell blanks around a complete text change no word. -/
theorem words_surrounded {pre post : List Char} (hpre : ∀ c ∈ pre, isShellSpace c = true)
    (hpost : ∀ c ∈ post, isShellSpace c = true) (hplain : Quoting.plain.after true s = .plain) :
    words (pre ++ s ++ post) = words s := by
  have hspace : ∀ r : List Char, (∀ c ∈ r, isShellSpace c = true) →
    Quoting.plain.after true r = .plain := by
    intro r hr
    exact Quoting.after_plain_of_isSpace fun c hc => isSpace_of_isShellSpace (hr c hc)
  have hwhole : Quoting.plain.after true (pre ++ s ++ post) = .plain := by
    rw [Quoting.after_append, Quoting.after_append, hspace pre hpre, hplain, hspace post hpost]
  rw [words_of_plain hwhole, words_of_plain hplain, List.foldl_append, List.foldl_append,
    foldl_of_isShellSpace hpre, close_foldl_of_isShellSpace hpost]
  rw [Lexer.quoting_foldl]
  exact hplain

/-! ## Pieces -/

theorem Quoting.pieces_ne_nil : q.pieces e s ≠ [] := by
  induction s generalizing q with
  | nil => exact List.cons_ne_nil _ _
  | cons c s ih =>
      rw [pieces]
      split_ifs
      · exact List.cons_ne_nil _ _
      · rw [Ne, ← List.length_eq_zero_iff, List.length_modifyHead, List.length_eq_zero_iff]
        exact ih

/-- The first piece of a text that begins with a text without cuts. -/
theorem Quoting.pieces_append (h : q.pieces e s = [s]) :
    q.pieces e (s ++ t) = ((q.after e s).pieces e t).modifyHead (s ++ ·) := by
  induction s generalizing q with
  | nil =>
      cases hp : q.pieces e t with
      | nil => exact absurd hp pieces_ne_nil
      | cons x xs => simp [hp]
  | cons c s ih =>
      rw [pieces] at h
      split_ifs at h with hcut
      · simp at h
      · obtain ⟨x, xs, hx⟩ := List.exists_cons_of_ne_nil
          (pieces_ne_nil (e := e) (q := q.next e c) (s := s))
        have hs : (q.next e c).pieces e s = [s] := by
          rw [hx] at h ⊢
          simpa using h
        rw [List.cons_append, pieces, if_neg hcut, ih hs, after_cons, List.modifyHead_modifyHead]
        rfl

/-- A bar outside quotes cuts. -/
theorem Quoting.pieces_cut (h : q.pieces e s = [s]) (hplain : q.after e s = plain) :
    q.pieces e (s ++ '|' :: t) = s :: plain.pieces e t := by
  rw [pieces_append h, hplain, pieces, if_pos ⟨rfl, rfl⟩, List.modifyHead_cons, List.append_nil]

/-- A bar within quotes does not cut. -/
theorem Quoting.pieces_no_cut (h : q.pieces e s = [s]) (hplain : q.after e s ≠ plain) :
    ∃ x xs, q.pieces e (s ++ '|' :: t) = (s ++ '|' :: x) :: xs := by
  obtain ⟨x, xs, hx⟩ :=
    List.exists_cons_of_ne_nil (pieces_ne_nil (e := e) (q := (q.after e s).next e '|') (s := t))
  refine ⟨x, xs, ?_⟩
  rw [pieces_append h, pieces, if_neg fun hcut => hplain hcut.2, hx]
  rfl

/-- Two readings that agree on every pipe have the same pieces. -/
theorem Quoting.pieces_of_samePipes (h : SamePipes q₁ q₂ s) :
    q₁.pieces false s = q₂.pieces true s := by
  induction s generalizing q₁ q₂ with
  | nil => rfl
  | cons c s ih =>
      obtain ⟨hpipe, hrest⟩ := h
      have hs := ih hrest
      by_cases hcut : c = '|' ∧ q₁ = plain
      · have hcut₂ := (hpipe hcut.1).mp hcut.2
        rw [hcut.1, hcut.2, hcut₂] at hs
        rw [pieces, pieces, if_pos hcut, if_pos ⟨hcut.1, hcut₂⟩, hcut.2, hcut₂]
        exact congrArg _ hs
      · have hcut₂ : ¬ (c = '|' ∧ q₂ = plain) := fun h => hcut ⟨h.1, (hpipe h.1).mpr h.2⟩
        rw [pieces, pieces, if_neg hcut, if_neg hcut₂, hs]

/-- Two readings of a text go along together up to the first pipe that one of them cuts at. -/
theorem Quoting.first_cut (q₁ q₂ : Quoting) (s : List Char) :
    (q₁.pieces false s = [s] ∧ q₂.pieces true s = [s] ∧ SamePipes q₁ q₂ s) ∨
    ∃ a b, s = a ++ '|' :: b ∧ q₁.pieces false a = [a] ∧ q₂.pieces true a = [a] ∧
      (q₁.after false a = plain ∨ q₂.after true a = plain) ∧
      (SamePipes q₁ q₂ s ↔ (q₁.after false a = plain ↔ q₂.after true a = plain) ∧
        SamePipes ((q₁.after false a).next false '|') ((q₂.after true a).next true '|') b) := by
  induction s generalizing q₁ q₂ with
  | nil => exact .inl ⟨rfl, rfl, trivial⟩
  | cons c s ih =>
      by_cases hcut : c = '|' ∧ (q₁ = plain ∨ q₂ = plain)
      · obtain ⟨rfl, hplain⟩ := hcut
        exact .inr ⟨[], s, rfl, rfl, rfl, hplain, by simp [SamePipes]⟩
      · have h₁ : ¬ (c = '|' ∧ q₁ = plain) := fun h => hcut ⟨h.1, .inl h.2⟩
        have h₂ : ¬ (c = '|' ∧ q₂ = plain) := fun h => hcut ⟨h.1, .inr h.2⟩
        have hsame : c = '|' → (q₁ = plain ↔ q₂ = plain) := fun hc =>
          iff_of_false (fun h => h₁ ⟨hc, h⟩) fun h => h₂ ⟨hc, h⟩
        rcases ih (q₁.next false c) (q₂.next true c) with ⟨hs₁, hs₂, hpipes⟩ | ⟨a, b, rfl, ha₁, ha₂,
          hplain, hpipes⟩
        · refine .inl ⟨?_, ?_, hsame, hpipes⟩
          · rw [pieces, if_neg h₁, hs₁]
            rfl
          · rw [pieces, if_neg h₂, hs₂]
            rfl
        · refine .inr ⟨c :: a, b, rfl, ?_, ?_, hplain, ?_⟩
          · rw [pieces, if_neg h₁, ha₁]
            rfl
          · rw [pieces, if_neg h₂, ha₂]
            rfl
          · rw [SamePipes, hpipes, after_cons, after_cons]
            exact and_iff_right hsame

/-- The words of a piece that is complete. -/
def pieceWords (s : List Char) : List (List Char) := (s.foldl Lexer.read .start).close

/-- The single pass ends its lists where the pieces end. -/
theorem Lexer.pipeline_eq {p : List Char} {ps : List (List Char)}
    (hpieces : l.quoting.pieces true s = p :: ps) (hplain : l.quoting.after true s = .plain) :
    l.pipeline s = some ((p.foldl read l).close :: ps.map pieceWords) := by
  induction s generalizing l p ps with
  | nil =>
      obtain ⟨rfl, rfl⟩ := List.cons.inj hpieces
      rw [Quoting.after_nil] at hplain
      rw [pipeline, finish, if_pos hplain]
      rfl
  | cons c s ih =>
      rw [Quoting.pieces] at hpieces
      rw [Quoting.after_cons] at hplain
      split_ifs at hpieces with hcut
      · obtain ⟨rfl, rfl⟩ := List.cons.inj hpieces
        obtain ⟨x, xs, hx⟩ := List.exists_cons_of_ne_nil
          (Quoting.pieces_ne_nil (e := true) (q := .plain) (s := s))
        rw [hcut.1, hcut.2] at hplain
        rw [pipeline, if_pos hcut, hcut.2, ih (l := .start) hx hplain, hx]
        rfl
      · obtain ⟨x, xs, hx⟩ :=
          List.exists_cons_of_ne_nil
            (Quoting.pieces_ne_nil (e := true) (q := l.quoting.next true c) (s := s))
        rw [hx] at hpieces
        obtain ⟨rfl, rfl⟩ := List.cons.inj hpieces
        rw [← quoting_read] at hx hplain
        rw [pipeline, if_neg hcut, ih hx hplain]
        rfl

/-- The pipeline has the words of each piece. -/
theorem pipeline_eq_map (hplain : Quoting.plain.after true s = .plain) :
    Lexer.start.pipeline s = some ((Quoting.plain.pieces true s).map pieceWords) := by
  obtain ⟨x, xs, hx⟩ := List.exists_cons_of_ne_nil
    (Quoting.pieces_ne_nil (e := true) (q := .plain) (s := s))
  rw [Lexer.pipeline_eq (l := .start) hx hplain, hx]
  rfl

/-- A text that leaves something open is no pipeline. -/
theorem Lexer.plain_of_pipeline {lists : List (List (List Char))} (h : l.pipeline s = some lists) :
    l.quoting.after true s = .plain := by
  induction s generalizing l lists with
  | nil =>
      rw [pipeline, finish] at h
      split_ifs at h with hplain
      · exact hplain
      · cases h
  | cons c s ih =>
      rw [pipeline] at h
      rw [Quoting.after_cons]
      split_ifs at h with hcut
      · obtain ⟨rest, hrest, -⟩ := Option.map_eq_some_iff.mp h
        rw [hcut.1, hcut.2]
        exact ih hrest
      · rw [← quoting_read]
        exact ih h

/-! ## Quoted words -/

/-- The characters of ASCII that need no quotes. -/
def isSafe (c : Char) : Bool :=
  c.isAlphanum || c = '_' || c = '@' || c = '%' || c = '+' || c = '=' || c = ':' || c = ',' || c =
    '.' || c = '/' ||
    c = '-'

/-- What a character becomes between single quotes. -/
def quoteChar (c : Char) : List Char := if c = '\'' then ['\'', '"', '\'', '"', '\''] else [c]

/-- `shlex.quote(s)`. -/
def quote (s : List Char) : List Char :=
  if s = [] then ['\'', '\''] else if s.all isSafe then s
    else '\'' :: (s.flatMap quoteChar ++ ['\''])

/-- `' '.join(shlex.quote(word) for word in ws)`. -/
def joinWords (ws : List (List Char)) : List Char := [' '].intercalate (ws.map quote)

/-- `' | '.join(...)` of the joined lists. -/
def joinLists (lists : List (List (List Char))) : List Char :=
    [' ', '|', ' '].intercalate (lists.map joinWords)

/-- Every character of a text meets a condition together with the quoting it is read in. -/
def Quoting.Along (P : Quoting → Char → Prop) : Quoting → List Char → Prop
  | _, [] => True
  | q, c :: s => P q c ∧ Along P (q.next true c) s

variable {P : Quoting → Char → Prop} {w : List Char} {ws : List (List Char)}

theorem Quoting.along_append : q.Along P (s ++ t) ↔ q.Along P s ∧ (q.after true s).Along P t := by
  induction s generalizing q with
  | nil => exact (and_iff_right trivial).symm
  | cons c s ih => rw [List.cons_append, Along, ih, Along, after_cons, and_assoc]

/-- Without backslashes outside single quotes both ways of reading them are one. -/
theorem Quoting.samePipes_of_along (h : q.Along (fun q c => c = '\\' → q = single) s) :
    SamePipes q q s := by
  induction s generalizing q with
  | nil => trivial
  | cons c s ih =>
      have hnext : q.next false c = q.next true c := by
        by_cases hc : c = '\\'
        · rw [h.1 hc]
          rfl
        · cases q <;> simp [next, hc]
      refine ⟨fun _ => Iff.rfl, ?_⟩
      rw [hnext]
      exact ih h.2

/-- Without a bar outside quotes there is one piece. -/
theorem Quoting.pieces_of_along (h : q.Along (fun q c => c = '|' → q ≠ plain) s) :
    q.pieces true s = [s] := by
  induction s generalizing q with
  | nil => rfl
  | cons c s ih =>
      rw [pieces, if_neg fun hcut => h.1 hcut.1 hcut.2, ih h.2]
      rfl

/-- A safe character is not one that is unsafe. -/
theorem ne_of_isSafe {d : Char} (hc : isSafe c = true) (hd : isSafe d = false) : c ≠ d := by
  rintro rfl
  rw [hc] at hd
  cases hd

theorem isSpace_of_isSafe (h : isSafe c = true) : Py.isSpace c = false := by
  simp only [isSafe, Bool.or_eq_true, decide_eq_true_eq] at h
  rcases h with (((((((((h | rfl) | rfl) | rfl) | rfl) | rfl) | rfl) | rfl) | rfl) | rfl) | rfl
  · exact Py.isSpace_alphanum h
  all_goals decide

/-- Outside quotes a safe character is added to the word. -/
theorem read_of_isSafe (h : isSafe c = true) (hplain : l.quoting = .plain) :
    l.read c = { l with token := some (l.token.getD [] ++ [c]) } := by
  have hspace : isShellSpace c = false := by
    by_contra hspace
    have := isSpace_of_isShellSpace (c := c) (by simpa using hspace)
    rw [isSpace_of_isSafe h] at this
    cases this
  have hsingle := ne_of_isSafe h (d := '\'') (by decide)
  have hdouble := ne_of_isSafe h (d := '"') (by decide)
  have hescape := ne_of_isSafe h (d := '\\') (by decide)
  simp [Lexer.read, hplain, hspace, Quoting.next, Quoting.emit, hsingle, hdouble, hescape]

/-- Between single quotes a quoted character is read as itself. -/
theorem foldl_quoteChar (hsingle : l.quoting = .single) :
    (quoteChar c).foldl Lexer.read l = { l with token := some (l.token.getD [] ++ [c]) } := by
  rw [quoteChar]
  split_ifs with hc
  · subst hc
    simp [Lexer.read, hsingle, Quoting.next, Quoting.emit, isShellSpace]
  · simp [Lexer.read, hsingle, Quoting.next, Quoting.emit, hc]

/-- A quoted word is read as the word. -/
theorem foldl_quote (hplain : l.quoting = .plain) :
    (quote w).foldl Lexer.read l = { l with token := some (l.token.getD [] ++ w) } := by
  -- inside the quotes every character is taken as it is
  have hbody : ∀ (w : List Char) (l : Lexer), l.quoting = .single → l.token.isSome →
      (w.flatMap quoteChar).foldl Lexer.read l =
        { l with token := some (l.token.getD [] ++ w) } := by
    intro w
    induction w with
    | nil =>
        rintro ⟨q, _ | t, ts⟩ _ hsome
        · cases hsome
        · simp
    | cons c w ih =>
        intro l hsingle hsome
        have hrest := ih { l with token := some (l.token.getD [] ++ [c]) } hsingle rfl
        rw [List.flatMap_cons, List.foldl_append, foldl_quoteChar hsingle, hrest]
        simp
  -- a safe character is taken without quotes
  have hsafe : ∀ (w : List Char) (l : Lexer), w.all isSafe = true → l.quoting = .plain → w ≠ [] →
      w.foldl Lexer.read l = { l with token := some (l.token.getD [] ++ w) } := by
    intro w
    induction w with
    | nil => exact fun _ _ _ hne => absurd rfl hne
    | cons c w ih =>
        intro l hall hplain _
        obtain ⟨hc, hw⟩ := Bool.and_eq_true_iff.mp hall
        rw [List.foldl_cons, read_of_isSafe hc hplain]
        by_cases hnil : w = []
        · rw [hnil]
          rfl
        · have hrest := ih { l with token := some (l.token.getD [] ++ [c]) } hw hplain hnil
          rw [hrest]
          simp
  have hopen : l.read '\'' = { l with quoting := .single, token := some (l.token.getD []) } := by
    simp [Lexer.read, hplain, Quoting.next, Quoting.emit, isShellSpace]
  have hclose : ∀ l : Lexer, l.quoting = .single → l.token.isSome →
    l.read '\'' = { l with quoting := .plain } := by
    rintro ⟨q, _ | t, ts⟩ hsingle hsome
    · cases hsome
    · obtain rfl := hsingle
      simp [Lexer.read, Quoting.next, Quoting.emit]
  rw [quote]
  -- the empty word, a word of safe characters, and any other one
  split_ifs with hnil hall
  · rw [List.foldl_cons, hopen, List.foldl_cons, hclose _ rfl rfl, hnil, ← hplain]
    simp
  · exact hsafe w l hall hplain hnil
  · rw [List.foldl_cons, List.foldl_append, hopen, hbody w _ rfl rfl, List.foldl_cons,
      hclose _ rfl rfl, ← hplain]
    simp

theorem joinWords_cons_cons (w w' : List Char) (ws : List (List Char)) :
    joinWords (w :: w' :: ws) = quote w ++ ' ' :: joinWords (w' :: ws) := by
  rw [joinWords, List.map_cons, List.map_cons, List.intercalate_cons_cons, List.append_assoc,
    joinWords, List.map_cons, List.singleton_append]

/-- The words of a joined list are the list. -/
theorem foldl_joinWords (hplain : l.quoting = .plain) (htoken : l.token = none) :
    ((joinWords ws).foldl Lexer.read l).close = l.tokens ++ ws ∧
      ((joinWords ws).foldl Lexer.read l).quoting = .plain := by
  induction ws generalizing l with
  | nil => simp [joinWords, Lexer.close, hplain, htoken]
  | cons w ws ih =>
      cases ws with
      | nil =>
          rw [joinWords, List.map_singleton, List.intercalate_singleton, foldl_quote hplain]
          simp [Lexer.close, hplain, htoken]
      | cons w' ws =>
          have hspace : ({ l with token := some (l.token.getD [] ++ w) } : Lexer).read ' ' =
              { l with token := none, tokens := l.tokens ++ [w] } := by
            simp [Lexer.read, hplain, htoken, isShellSpace, Lexer.close]
          have hrest := ih (l := { l with token := none, tokens := l.tokens ++ [w] }) hplain rfl
          rw [joinWords_cons_cons, List.foldl_append, foldl_quote hplain, List.foldl_cons, hspace]
          simpa using hrest

/-- Joined words end outside quotes. -/
theorem after_joinWords : Quoting.plain.after true (joinWords ws) = .plain := by
  have h : ((joinWords ws).foldl Lexer.read .start).quoting = .plain := (foldl_joinWords rfl rfl).2
  rwa [Lexer.quoting_foldl] at h

/-- Reading undoes joining. -/
theorem pieceWords_joinWords : pieceWords (joinWords ws) = ws :=
  (foldl_joinWords (l := .start) rfl rfl).1

/-- A condition that quotes, safe characters and all between single quotes meet holds along a quoted
word. -/
theorem along_quote (hsafe : ∀ c, isSafe c = true → P .plain c) (hsingle : ∀ c, P .single c)
    (hquotes : P .plain '\'' ∧ P .plain '"' ∧ P .double '\'' ∧ P .double '"') :
    Quoting.plain.Along P (quote w) := by
  obtain ⟨hopen, hdouble, hinner, hclose⟩ := hquotes
  have hbody : Quoting.single.Along P (w.flatMap quoteChar ++ ['\'']) := by
    induction w with
    | nil => exact ⟨hsingle _, trivial⟩
    | cons c w ih =>
        rw [List.flatMap_cons, List.append_assoc, quoteChar]
        split_ifs with hc
        · exact ⟨hsingle _, hdouble, hinner, hclose, hopen, ih⟩
        · refine ⟨hsingle c, ?_⟩
          rw [Quoting.next, if_neg hc]
          exact ih
  have hplain : ∀ w : List Char, w.all isSafe = true → Quoting.plain.Along P w := by
    intro w
    induction w with
    | nil => exact fun _ => trivial
    | cons c w ih =>
        intro hall
        obtain ⟨hc, hw⟩ := Bool.and_eq_true_iff.mp hall
        refine ⟨hsafe c hc, ?_⟩
        rw [Quoting.next, if_neg (ne_of_isSafe hc (by decide)),
          if_neg (ne_of_isSafe hc (by decide)), if_neg fun h => ne_of_isSafe hc (by decide) h.2]
        exact ih hw
  rw [quote]
  split_ifs with hnil hall
  · exact ⟨hopen, hsingle _, trivial⟩
  · exact hplain w hall
  · exact ⟨hopen, hbody⟩

/-- What holds along joined words. -/
theorem along_joinWords (hsafe : ∀ c, isSafe c = true → P .plain c) (hsingle : ∀ c, P .single c)
    (hquotes : P .plain '\'' ∧ P .plain '"' ∧ P .double '\'' ∧ P .double '"')
    (hspace : P .plain ' ') :
    Quoting.plain.Along P (joinWords ws) := by
  have hafter : ∀ w, Quoting.plain.after true (quote w) = .plain := by
    intro w
    have h := foldl_quote (l := .start) (w := w) rfl
    have hquoting := Lexer.quoting_foldl (l := .start) (s := quote w)
    rw [h] at hquoting
    exact hquoting.symm
  induction ws with
  | nil => trivial
  | cons w ws ih =>
      have hw := along_quote (w := w) hsafe hsingle hquotes
      cases ws with
      | nil => rwa [joinWords, List.map_singleton, List.intercalate_singleton]
      | cons w' ws =>
          rw [joinWords_cons_cons, Quoting.along_append, hafter]
          exact ⟨hw, hspace, ih⟩

/-- A joined list is one piece. -/
theorem pieces_joinWords : Quoting.plain.pieces true (joinWords ws) = [joinWords ws] := by
  refine Quoting.pieces_of_along (along_joinWords ?_ ?_ ?_ ?_)
  · intro c hc hpipe
    exact absurd hpipe (ne_of_isSafe hc (by decide))
  · exact fun c _ => Quoting.noConfusion
  · exact ⟨fun h => absurd h (by decide), fun h => absurd h (by decide),
      fun h => absurd h (by decide),
      fun h => absurd h (by decide)⟩
  · exact fun h => absurd h (by decide)

/-- Joined lists have backslashes only between single quotes. -/
theorem along_joinLists (lists : List (List (List Char))) :
    Quoting.plain.Along (fun q c => c = '\\' → q = .single) (joinLists lists) := by
  have hlist : ∀ ws, Quoting.plain.Along (fun q c => c = '\\' → q = .single) (joinWords ws) := by
    intro ws
    refine along_joinWords ?_ ?_ ?_ ?_
    · intro c hc hescape
      exact absurd hescape (ne_of_isSafe hc (by decide))
    · exact fun c _ => rfl
    · exact ⟨fun h => absurd h (by decide), fun h => absurd h (by decide),
        fun h => absurd h (by decide),
        fun h => absurd h (by decide)⟩
    · exact fun h => absurd h (by decide)
  induction lists with
  | nil => trivial
  | cons ws lists ih =>
      rw [joinLists, List.map_cons]
      cases lists with
      | nil =>
          rw [List.map_nil, List.intercalate_singleton]
          exact hlist ws
      | cons ws' lists =>
          rw [List.map_cons, List.intercalate_cons_cons, List.append_assoc, Quoting.along_append,
            after_joinWords]
          exact ⟨hlist ws, fun h => absurd h (by decide), fun h => absurd h (by decide),
            fun h => absurd h (by decide), ih⟩

/-- A piece that is a joined list, with blanks of the shell around it. -/
def Surrounds (piece : List Char) (ws : List (List Char)) : Prop :=
  ∃ pre post, (∀ c ∈ pre, isShellSpace c = true) ∧ (∀ c ∈ post, isShellSpace c = true) ∧
    piece = pre ++ joinWords ws ++ post

/-- Joined words with space around them are one piece. -/
theorem pieces_surrounded {pre post : List Char} (hpre : ∀ c ∈ pre, isShellSpace c = true)
    (hpost : ∀ c ∈ post, isShellSpace c = true) :
    Quoting.plain.pieces true (pre ++ joinWords ws ++ post) = [pre ++ joinWords ws ++ post] ∧
      Quoting.plain.after true (pre ++ joinWords ws ++ post) = .plain := by
  have hafter : ∀ l : List Char, (∀ c ∈ l, isShellSpace c = true) →
    Quoting.plain.after true l = .plain := by
    intro l hl
    exact Quoting.after_plain_of_isSpace fun c hc => isSpace_of_isShellSpace (hl c hc)
  have hone : ∀ l : List Char, (∀ c ∈ l, isShellSpace c = true) →
    Quoting.plain.pieces true l = [l] := by
    intro l
    induction l with
    | nil => exact fun _ => rfl
    | cons c l ih =>
        intro hl
        have hc := isSpace_of_isShellSpace (hl c List.mem_cons_self)
        rw [Quoting.pieces, if_neg fun h => ne_of_isSpace hc (by decide) h.1,
          Quoting.next_plain_of_isSpace hc, ih fun d hd => hl d (List.mem_cons_of_mem _ hd)]
        rfl
  constructor
  · rw [List.append_assoc, Quoting.pieces_append (hone pre hpre), hafter pre hpre,
      Quoting.pieces_append pieces_joinWords, after_joinWords, hone post hpost]
    rfl
  · rw [Quoting.after_append, Quoting.after_append, hafter pre hpre, after_joinWords,
      hafter post hpost]

/-- The pieces of joined lists are the lists, joined. -/
theorem pieces_joinLists {pre : List Char} (hpre : ∀ c ∈ pre, isShellSpace c = true)
    (ws : List (List Char)) (lists : List (List (List Char))) :
    List.Forall₂ Surrounds (Quoting.plain.pieces true (pre ++ joinLists (ws :: lists)))
      (ws :: lists) ∧
      Quoting.plain.after true (pre ++ joinLists (ws :: lists)) = .plain := by
  have hblank : ∀ c ∈ [' '], isShellSpace c = true := by
    intro c hc
    rw [List.mem_singleton.mp hc]
    rfl
  induction lists generalizing pre ws with
  | nil =>
      obtain ⟨hone, hafter⟩ := pieces_surrounded hpre (List.forall_mem_nil _)
      rw [List.append_nil] at hone hafter
      rw [joinLists, List.map_singleton, List.intercalate_singleton, hone]
      exact ⟨.cons ⟨pre, [], hpre, List.forall_mem_nil _, (List.append_nil _).symm⟩ .nil, hafter⟩
  | cons ws' lists ih =>
      obtain ⟨hone, hafter⟩ := pieces_surrounded hpre hblank
      obtain ⟨hpieces, hrest⟩ := ih hblank ws'
      have hjoin : pre ++ joinLists (ws :: ws' :: lists) =
          pre ++ joinWords ws ++ [' '] ++ '|' :: ([' '] ++ joinLists (ws' :: lists)) := by
        simp [joinLists]
      rw [hjoin, Quoting.pieces_cut hone hafter, Quoting.after_append, hafter]
      exact ⟨.cons ⟨pre, [' '], hpre, hblank, rfl⟩ hpieces, hrest⟩

/-- The edges of a quoted word are no blanks. -/
theorem quote_edges (w : List Char) :
    (∀ c ∈ (quote w).head?, Py.isSpace c = false) ∧
      ∀ c ∈ (quote w).getLast?, Py.isSpace c = false := by
  rw [quote]
  split_ifs with hnil hall
  · exact ⟨fun c hc => by cases hc; decide, fun c hc => by cases hc; decide⟩
  · have hmem : ∀ c ∈ w, Py.isSpace c = false :=
      fun c hc => isSpace_of_isSafe (List.all_eq_true.mp hall c hc)
    exact ⟨fun c hc => hmem c (List.mem_of_mem_head? hc),
      fun c hc => hmem c (List.mem_of_mem_getLast? hc)⟩
  · constructor
    · intro c hc
      cases hc
      decide
    · intro c hc
      rw [List.getLast?_cons, List.getLast?_concat] at hc
      cases hc
      decide

theorem quote_ne_nil (w : List Char) : quote w ≠ [] := by
  rw [quote]
  split_ifs with hnil
  · exact List.cons_ne_nil _ _
  · exact hnil
  · exact List.cons_ne_nil _ _

theorem joinWords_ne_nil {w : List Char} {ws : List (List Char)} : joinWords (w :: ws) ≠ [] := by
  cases ws with
  | nil =>
      rw [joinWords, List.map_singleton, List.intercalate_singleton]
      exact quote_ne_nil w
  | cons w' ws =>
      rw [joinWords_cons_cons]
      exact List.append_ne_nil_of_left_ne_nil (quote_ne_nil w) _

/-- Joined words have no space at their ends. -/
theorem joinWords_edges (ws : List (List Char)) :
    (∀ c ∈ (joinWords ws).head?, Py.isSpace c = false) ∧
      ∀ c ∈ (joinWords ws).getLast?, Py.isSpace c = false := by
  induction ws with
  | nil =>
      constructor <;> intro c hc <;> cases hc
  | cons w ws ih =>
      cases ws with
      | nil =>
          rw [joinWords, List.map_singleton, List.intercalate_singleton]
          exact quote_edges w
      | cons w' ws =>
          rw [joinWords_cons_cons]
          constructor
          · rw [List.head?_append_of_ne_nil _ (quote_ne_nil w)]
            exact (quote_edges w).1
          · rw [List.getLast?_append_of_ne_nil _ (List.cons_ne_nil _ _),
              ← List.singleton_append, List.getLast?_append_of_ne_nil _ joinWords_ne_nil]
            exact ih.2

end Shell
