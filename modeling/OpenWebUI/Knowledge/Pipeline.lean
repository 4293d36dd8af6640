import Mathlib
import OpenWebUI.Lib.Shell
import OpenWebUI.Lib.Split

/-! # Pipelines of the knowledge shell

`_parse_pipeline` of `backend/open_webui/tools/knowledge_fs.py`. One scanner, which knows quotes
but no backslash, cuts a command at its pipes; `shlex.split`, which knows both, then reads each
stripped segment by itself. The main result compares them with one reading of the whole command.
-/

namespace OpenWebUI.Knowledge

open Py Shell

/-- `s.strip()` on the characters. -/
def strip (s : List Char) : List Char := (s.dropWhile isSpace).rdropWhile isSpace

/-! ## The parser -/

/-- The variables of the scanning loop. -/
structure Scan where
  segments : List (List Char)
  inSingle : Bool
  inDouble : Bool
  buf : List Char

def Scan.start : Scan := { segments := [], inSingle := false, inDouble := false, buf := [] }

/-- One turn of the scanning loop. -/
def Scan.see (s : Scan) (ch : Char) : Scan :=
  if ch = '\'' ∧ ¬ s.inDouble then { s with inSingle := !s.inSingle, buf := s.buf ++ [ch] }
  else if ch = '"' ∧ ¬ s.inSingle then { s with inDouble := !s.inDouble, buf := s.buf ++ [ch] }
  else if ch = '|' ∧ ¬ s.inSingle ∧ ¬ s.inDouble then
    { s with segments := s.segments ++ [strip s.buf], buf := [] }
  else { s with buf := s.buf ++ [ch] }

/-- The words of one segment. Without its quotes in order, `shlex.split` raises. -/
def tokens (seg : List Char) : List (List Char) := (words seg).getD (fields seg)

/-- `_parse_pipeline(command)`. -/
def parsePipeline (command : List Char) : List (List (List Char)) :=
  let scan := command.foldl Scan.see .start
  let remaining := strip scan.buf
  let segments := if remaining ≠ [] then scan.segments ++ [remaining] else scan.segments
  segments.filterMap fun seg =>
    if seg = [] then none else if tokens seg ≠ [] then some (tokens seg) else none

/-! ## The reading of the whole command -/

/-- The non-empty lists of words that the quoting rules give a command, `none` where they leave
something open. -/
def lexPipeline (command : List Char) : Option (List (List (List Char))) :=
  (Lexer.start.pipeline command).map (·.filter (· ≠ []))

/-- Stripping a segment takes only blanks of the shell away, none of them escaped. -/
def KeepsEdges (seg : List Char) : Prop :=
  (seg.takeWhile isSpace).all isShellSpace = true ∧
  ((seg.dropWhile isSpace).rtakeWhile isSpace).all isShellSpace = true ∧
  Quoting.plain.after true (strip seg) = .plain

instance (seg : List Char) : Decidable (KeepsEdges seg) := inferInstanceAs (Decidable (_ ∧ _ ∧ _))

/-- Taking backslashes for plain characters changes no cut, and no segment loses a character of a
word when it is stripped. -/
def Aligned (command : List Char) : Prop :=
  Quoting.SamePipes .plain .plain command ∧
    ∀ seg ∈ Quoting.plain.pieces true command, KeepsEdges seg

instance (command : List Char) : Decidable (Aligned command) := inferInstanceAs (Decidable (_ ∧ _))

variable {seg command a b : List Char} {c : Char}

/-! ## The scanner -/

/-- The flags as the quoting without escapes. -/
def Scan.quoting (s : Scan) : Quoting :=
  if s.inSingle then .single else if s.inDouble then .double else .plain

/-- One flag is set at most. -/
def Scan.Inv (s : Scan) : Prop := ¬ (s.inSingle = true ∧ s.inDouble = true)

/-- One character of the scanner. -/
theorem Scan.see_spec {s : Scan} (h : s.Inv) (ch : Char) :
    (s.see ch).Inv ∧ (s.see ch).quoting = s.quoting.next false ch ∧
      if ch = '|' ∧ s.quoting = .plain then
        (s.see ch).segments = s.segments ++ [strip s.buf] ∧ (s.see ch).buf = []
      else (s.see ch).segments = s.segments ∧ (s.see ch).buf = s.buf ++ [ch] := by
  obtain ⟨segments, inSingle, inDouble, buf⟩ := s
  by_cases hsingle : ch = '\''
  · subst hsingle
    cases inSingle <;> cases inDouble <;> simp_all [Scan.see, Scan.Inv, Scan.quoting, Quoting.next]
  by_cases hdouble : ch = '"'
  · subst hdouble
    cases inSingle <;> cases inDouble <;> simp_all [Scan.see, Scan.Inv, Scan.quoting, Quoting.next]
  by_cases hpipe : ch = '|'
  · subst hpipe
    cases inSingle <;> cases inDouble <;> simp_all [Scan.see, Scan.Inv, Scan.quoting, Quoting.next]
  cases inSingle <;> cases inDouble <;> simp_all [Scan.see, Scan.Inv, Scan.quoting, Quoting.next]

/-- The scanner cuts where the quoting without escapes cuts. -/
theorem Scan.foldl_see {s : Scan} (h : s.Inv) :
    (command.foldl see s).segments ++ [strip (command.foldl see s).buf] =
      s.segments ++ ((s.quoting.pieces false command).modifyHead (s.buf ++ ·)).map strip := by
  induction command generalizing s with
  | nil => simp [Quoting.pieces]
  | cons ch command ih =>
      obtain ⟨hinv, hquoting, hbuf⟩ := see_spec h ch
      rw [List.foldl_cons, ih hinv, Quoting.pieces, hquoting]
      split_ifs at hbuf ⊢ with hcut
      · have hplain : s.quoting.next false ch = .plain := by rw [hcut.1, hcut.2]; rfl
        rw [hbuf.1, hbuf.2, hplain, hcut.2]
        cases hp : Quoting.plain.pieces false command <;> simp
      · rw [hbuf.1, hbuf.2, List.modifyHead_modifyHead]
        simp [Function.comp_def]

/-- The lists that pieces have, but for the empty ones. -/
def listsOf (f : List Char → List (List Char)) (pieces : List (List Char)) :
    List (List (List Char)) :=
  (pieces.map f).filter (· ≠ [])

theorem tokens_nil : tokens [] = [] := rfl

/-- The parser cuts into pieces and reads the tokens of each. -/
theorem parsePipeline_eq (command : List Char) :
    parsePipeline command = listsOf (fun seg => tokens (strip seg))
      (Quoting.plain.pieces false command) := by
  have hstart : Scan.start.Inv := by simp [Scan.Inv, Scan.start]
  have hscan :
    (command.foldl Scan.see .start).segments ++ [strip (command.foldl Scan.see .start).buf] = _ :=
    Scan.foldl_see hstart
  have hpieces : ((Scan.start.quoting.pieces false command).modifyHead (Scan.start.buf ++ ·)) =
      Quoting.plain.pieces false command := by
    show (Quoting.plain.pieces false command).modifyHead ([] ++ ·) = _
    cases Quoting.plain.pieces false command <;> rfl
  rw [hpieces] at hscan
  have hlists : ∀ segments : List (List Char),
      (segments.filterMap fun seg =>
        if seg = [] then none else if tokens seg ≠ [] then some (tokens seg) else none) =
      (segments.map tokens).filter (· ≠ []) := by
    intro segments
    induction segments with
    | nil => rfl
    | cons seg segments ih =>
        rw [List.filterMap_cons, ih, List.map_cons, List.filter_cons]
        by_cases hseg : seg = []
        · subst hseg
          simp [tokens_nil]
        · by_cases htokens : tokens seg = [] <;> simp [hseg, htokens]
  have hwhole : parsePipeline command =
      (((command.foldl Scan.see .start).segments ++ [strip (command.foldl Scan.see .start).buf]).map
        tokens).filter
        (· ≠ []) := by
    rw [parsePipeline, hlists]
    by_cases hremaining : strip (command.foldl Scan.see .start).buf = []
    · simp [hremaining, tokens_nil]
    · simp [hremaining]
  rw [hwhole, hscan]
  simp [listsOf, Scan.start, Function.comp_def]

/-! ## Segments -/

/-- What stripping takes from a segment are blanks on both sides of it. -/
theorem append_strip (seg : List Char) :
    seg.takeWhile isSpace ++ strip seg ++ (seg.dropWhile isSpace).rtakeWhile isSpace = seg := by
  rw [List.append_assoc, strip, List.rdropWhile_append_rtakeWhile, List.takeWhile_append_dropWhile]

theorem isSpace_of_mem_lead (hc : c ∈ seg.takeWhile isSpace) :
    isSpace c = true := List.mem_takeWhile_imp hc

theorem isSpace_of_mem_trail (hc : c ∈ (seg.dropWhile isSpace).rtakeWhile isSpace) :
    isSpace c = true :=
  List.mem_rtakeWhile_imp hc

/-- What is left has a character that is no space. -/
theorem exists_mem_strip (h : strip seg ≠ []) : ∃ c ∈ strip seg, isSpace c = false :=
  ⟨_, List.getLast_mem h, Bool.eq_false_iff.mpr (List.rdropWhile_last_not isSpace _ h)⟩

/-- Stripping loses no bar. -/
theorem count_strip (seg : List Char) : (strip seg).count '|' = seg.count '|' := by
  have hspace : ∀ l : List Char, (∀ c ∈ l, isSpace c = true) → l.count '|' = 0 := by
    intro l hl
    rw [List.count_eq_zero]
    intro hpipe
    exact absurd (hl _ hpipe) (by decide)
  conv_rhs => rw [← append_strip seg]
  rw [List.count_append, List.count_append, hspace _ fun c hc => isSpace_of_mem_lead hc,
    hspace _ fun c hc => isSpace_of_mem_trail hc, Nat.zero_add, Nat.add_zero]

/-- Reading the tokens loses no bar. -/
theorem count_tokens (s : List Char) : (tokens s).flatten.count '|' = s.count '|' := by
  rw [tokens]
  cases hwords : words s with
  | some ws => rw [Option.getD_some, flatten_words hwords, Quoting.count_emits]
  | none =>
      rw [Option.getD_none, flatten_fields, List.count_filter]
      decide

/-- A piece that ends plain does so stripped, unless a space was escaped. -/
theorem after_strip (h : Quoting.plain.after true seg = .plain) :
    Quoting.plain.after true (strip seg) = .plain ∨
      Quoting.plain.after true (strip seg) = .escaped ∧
        (seg.dropWhile isSpace).rtakeWhile isSpace ≠ [] := by
  rw [← append_strip seg, List.append_assoc, Quoting.after_append,
    Quoting.after_plain_of_isSpace fun c hc => isSpace_of_mem_lead hc, Quoting.after_append] at h
  exact Quoting.plain_of_after_isSpace (fun c hc => isSpace_of_mem_trail hc) h

/-- A list of words that are made of blanks. -/
def Blank (ws : List (List Char)) : Prop := ∀ c ∈ ws.flatten, isSpace c = true

/-- A segment that keeps its edges is read as it stands in the command. -/
theorem tokens_of_keepsEdges (h : KeepsEdges seg) : tokens (strip seg) = pieceWords seg := by
  obtain ⟨hlead, htrail, hplain⟩ := h
  have hwords := words_surrounded (List.all_eq_true.mp hlead) (List.all_eq_true.mp htrail) hplain
  rw [append_strip] at hwords
  have hseg : Quoting.plain.after true seg = .plain := by
    by_contra hseg
    rw [words_eq_none hseg, words_of_plain hplain] at hwords
    cases hwords
  rw [tokens, ← hwords, words_of_plain hseg]
  rfl

/-- A segment that loses an edge has fewer blanks in its words, and its words are not made of blanks
unless they were. -/
theorem tokens_of_not_keepsEdges (hseg : Quoting.plain.after true seg = .plain)
    (h : ¬ KeepsEdges seg) :
    (tokens (strip seg)).flatten.countP isSpace < (pieceWords seg).flatten.countP isSpace ∧
      (Blank (tokens (strip seg)) → Blank (pieceWords seg)) := by
  have hlead := fun c (hc : c ∈ seg.takeWhile isSpace) => isSpace_of_mem_lead hc
  have htrail := fun c (hc : c ∈ (seg.dropWhile isSpace).rtakeWhile isSpace) =>
    isSpace_of_mem_trail hc
  -- the words hold what the segment emits: the blanks before, the stripped segment, the blanks
  -- behind
  have hflat : (pieceWords seg).flatten = (seg.takeWhile isSpace).filter (!isShellSpace ·) ++
      Quoting.plain.emits (strip seg) ++
      (Quoting.plain.after true (strip seg)).emits
        ((seg.dropWhile isSpace).rtakeWhile isSpace) := by
    have hwords := flatten_words (words_of_plain hseg)
    conv_rhs at hwords => rw [← append_strip seg]
    rw [Quoting.emits_append, Quoting.emits_append, Quoting.after_append,
      Quoting.after_plain_of_isSpace hlead, Quoting.emits_plain_of_isSpace hlead] at hwords
    exact hwords
  rcases after_strip hseg with hplain | ⟨hescaped, hne⟩
  · -- the stripped segment is complete, so a blank that is not the shell's was taken away
    have hlost : ∃ c ∈ (seg.takeWhile isSpace).filter (!isShellSpace ·) ++
        ((seg.dropWhile isSpace).rtakeWhile isSpace).filter (!isShellSpace ·),
          isSpace c = true := by
      by_contra hnone
      refine h ⟨List.all_eq_true.mpr fun c hc => ?_, List.all_eq_true.mpr fun c hc => ?_, hplain⟩
      · by_contra hshell
        refine hnone ⟨c, List.mem_append_left _ (List.mem_filter.mpr ⟨hc, ?_⟩), hlead c hc⟩
        simpa using hshell
      · by_contra hshell
        refine hnone ⟨c, List.mem_append_right _ (List.mem_filter.mpr ⟨hc, ?_⟩), htrail c hc⟩
        simpa using hshell
    have htokens : (tokens (strip seg)).flatten = Quoting.plain.emits (strip seg) := by
      rw [tokens, words_of_plain hplain, Option.getD_some, ← flatten_words (words_of_plain hplain)]
    rw [hplain, Quoting.emits_plain_of_isSpace htrail] at hflat
    rw [hflat, htokens]
    constructor
    · have hpos := List.countP_pos_iff.mpr hlost
      simp only [List.countP_append] at hpos ⊢
      omega
    · intro hblank c hc
      rw [hflat, List.mem_append, List.mem_append] at hc
      rcases hc with (hc | hc) | hc
      · exact hlead c (List.mem_filter.mp hc).1
      · exact hblank c (htokens ▸ hc)
      · exact htrail c (List.mem_filter.mp hc).1
  · -- the last blank was escaped; without it the words are the fields
    have hnone : words (strip seg) = none := by
      refine words_eq_none ?_
      rw [hescaped]
      exact Quoting.noConfusion
    have htokens : (tokens (strip seg)).flatten = (strip seg).filter (!isSpace ·) := by
      rw [tokens, hnone, Option.getD_none, flatten_fields]
    have hsome : strip seg ≠ [] := by
      intro hnil
      rw [hnil] at hescaped
      cases hescaped
    obtain ⟨c, hc, hspace⟩ := exists_mem_strip hsome
    obtain ⟨d, rest, hrest⟩ := List.exists_cons_of_ne_nil hne
    rw [hescaped, hrest] at hflat
    constructor
    · have hzero : ((strip seg).filter (!isSpace ·)).countP isSpace = 0 := by
        rw [List.countP_eq_zero]
        intro x hx
        simpa using (List.mem_filter.mp hx).2
      rw [htokens, hzero, List.countP_pos_iff]
      refine ⟨d, ?_, htrail d (hrest ▸ List.mem_cons_self)⟩
      rw [hflat]
      exact List.mem_append_right _ List.mem_cons_self
    · intro hblank
      have := hblank c (by rw [htokens]; exact List.mem_filter.mpr ⟨hc, by simp [hspace]⟩)
      rw [hspace] at this
      cases this

/-! ## Both readings -/

theorem listsOf_cons (f : List Char → List (List Char)) (piece : List Char)
    (pieces : List (List Char)) :
    listsOf f (piece :: pieces) = [f piece].filter (· ≠ []) ++ listsOf f pieces := by
  rw [listsOf, List.map_cons, ← List.singleton_append, List.filter_append]
  rfl

/-- The lists the parser still owes, all made of blanks, from one segment to the next. -/
theorem pending_step {pending shell code : List (List (List Char))}
    (hpending : ∀ ws ∈ pending, ws ≠ [] ∧ Blank ws) (hseg : Quoting.plain.after true seg = .plain)
    (h : pending ++ ([pieceWords seg].filter (· ≠ []) ++ shell) =
      [tokens (strip seg)].filter (· ≠ []) ++ code) :
    ∃ pending', (∀ ws ∈ pending', ws ≠ [] ∧ Blank ws) ∧ pending' ++ shell = code ∧
      (pending' = [] → pending = [] ∧ KeepsEdges seg) := by
  -- a list that is owed and not the last one
  have howe : ∀ rest : List (List (List Char)), (∀ ws ∈ rest, ws ≠ [] ∧ Blank ws) →
    pieceWords seg ≠ [] →
      Blank (pieceWords seg) → rest ++ pieceWords seg :: shell = code →
      ∃ pending', (∀ ws ∈ pending', ws ≠ [] ∧ Blank ws) ∧ pending' ++ shell = code ∧
        (pending' = [] → pending = [] ∧ KeepsEdges seg) := by
    intro rest hrest hne hblank hcode
    refine ⟨rest ++ [pieceWords seg], ?_, by simpa using hcode, by simp⟩
    intro ws hws
    rcases List.mem_append.mp hws with hws | hws
    · exact hrest ws hws
    · rw [List.mem_singleton.mp hws]
      exact ⟨hne, hblank⟩
  by_cases hkeeps : KeepsEdges seg
  · rw [tokens_of_keepsEdges hkeeps] at h
    by_cases hnil : pieceWords seg = []
    · exact ⟨pending, hpending, by simpa [hnil] using h, fun hp => ⟨hp, hkeeps⟩⟩
    · rw [List.filter_cons_of_pos (by simpa using hnil)] at h
      cases pending with
      | nil => exact ⟨[], hpending, by simpa using h, fun _ => ⟨rfl, hkeeps⟩⟩
      | cons ws rest =>
          obtain ⟨hws, hcode⟩ := List.cons.inj h
          have hrest := fun x hx => hpending x (List.mem_cons_of_mem _ hx)
          refine howe rest hrest hnil ?_ (by simpa using hcode)
          rw [← hws]
          exact (hpending ws List.mem_cons_self).2
  · obtain ⟨hcount, hblank⟩ := tokens_of_not_keepsEdges hseg hkeeps
    have hne : pieceWords seg ≠ [] := by
      intro hnil
      rw [hnil] at hcount
      exact Nat.not_lt_zero _ hcount
    rw [List.filter_cons_of_pos (by simpa using hne)] at h
    by_cases hnil : tokens (strip seg) = []
    · rw [hnil] at hblank h
      refine howe pending hpending hne (hblank fun c hc => by cases hc) (by simpa using h)
    · rw [List.filter_cons_of_pos (by simpa using hnil)] at h
      cases pending with
      | nil =>
          obtain ⟨hsame, -⟩ := List.cons.inj h
          rw [hsame] at hcount
          exact absurd hcount (lt_irrefl _)
      | cons ws rest =>
          obtain ⟨hws, hcode⟩ := List.cons.inj h
          refine howe rest (fun x hx => hpending x (List.mem_cons_of_mem _ hx)) hne (hblank ?_)
            (by simpa using hcode)
          rw [← show ws = tokens (strip seg) from hws]
          exact (hpending ws List.mem_cons_self).2

/-- The words of a piece keep its bars. -/
theorem count_pieceWords (s : List Char) : (pieceWords s).flatten.count '|' = s.count '|' := by
  rw [pieceWords, Lexer.flatten_close_foldl, List.count_append]
  exact (Nat.zero_add _).trans Quoting.count_emits

/-- A bar among the words is in a word. -/
theorem ne_nil_of_count {ws : List (List Char)} (h : 0 < ws.flatten.count '|') : ws ≠ [] := by
  rintro rfl
  exact Nat.not_lt_zero _ h

/-- Where both readings have a first list, it is one that is owed or the same for both. -/
theorem owed_or_same {pending shell code : List (List (List Char))} {r ws : List (List Char)}
    (hr : r ≠ []) (hws : ws ≠ [])
    (h : pending ++ ([r].filter (· ≠ []) ++ shell) = [ws].filter (· ≠ []) ++ code) :
    ws ∈ pending ∨ r = ws := by
  rw [List.filter_cons_of_pos (by simpa using hr),
    List.filter_cons_of_pos (by simpa using hws)] at h
  cases pending with
  | nil => exact .inr (List.cons.inj h).1
  | cons x rest => exact .inl ((List.cons.inj h).1 ▸ List.mem_cons_self)

/-- A segment that ends inside quotes is read by its fields, which are not made of blanks. -/
theorem tokens_not_blank (h : Quoting.plain.after true seg ≠ .plain) :
    ¬ Blank (tokens (strip seg)) := by
  have hstrip : Quoting.plain.after true (strip seg) ≠ .plain := by
    intro hplain
    refine h ?_
    rw [← append_strip seg, List.append_assoc, Quoting.after_append,
      Quoting.after_plain_of_isSpace fun c hc => isSpace_of_mem_lead hc, Quoting.after_append,
      hplain]
    exact Quoting.after_plain_of_isSpace fun c hc => isSpace_of_mem_trail hc
  have hne : strip seg ≠ [] := by
    intro hnil
    rw [hnil] at hstrip
    exact hstrip rfl
  obtain ⟨c, hc, hspace⟩ := exists_mem_strip hne
  intro hblank
  have hmem : c ∈ (tokens (strip seg)).flatten := by
    rw [tokens, words_eq_none hstrip, Option.getD_none, flatten_fields]
    exact List.mem_filter.mpr ⟨hc, by simp [hspace]⟩
  have := hblank c hmem
  rw [hspace] at this
  cases this

/-- A text without cuts is its only piece. -/
theorem keepsEdges_of_aligned (hone : Quoting.plain.pieces true seg = [seg]) :
    Aligned seg ↔ Quoting.SamePipes .plain .plain seg ∧ KeepsEdges seg := by
  rw [Aligned, hone]
  simp

/-- If the two readings give the same lists, they agree on every pipe and at every edge. -/
theorem aligned_of_eq {command : List Char} {pending : List (List (List Char))}
    (hpending : ∀ ws ∈ pending, ws ≠ [] ∧ Blank ws)
    (hplain : Quoting.plain.after true command = .plain)
    (h : pending ++ listsOf pieceWords (Quoting.plain.pieces true command) =
      listsOf (fun seg => tokens (strip seg)) (Quoting.plain.pieces false command)) :
    pending = [] ∧ Aligned command := by
  -- the first pipe that either scanner cuts at
  rcases Quoting.first_cut .plain .plain command with
    ⟨hcode, hshell, hpipes⟩ | ⟨a, b, hcommand, hcode, hshell, hcut, hpipes⟩
  -- no pipe is cut at
  · rw [hcode, hshell, listsOf_cons, listsOf_cons] at h
    obtain ⟨pending', -, hrest, hdone⟩ := pending_step hpending hplain h
    have hnil : pending' = [] := by simpa [listsOf] using hrest
    obtain ⟨hpending, hkeeps⟩ := hdone hnil
    exact ⟨hpending, (keepsEdges_of_aligned hshell).mpr ⟨hpipes, hkeeps⟩⟩
  -- what is behind the pipe is shorter
  · have hshorter : b.length < command.length := by
      rw [hcommand, List.length_append, List.length_cons]
      omega
    rw [hcommand] at h hplain hpipes ⊢
    by_cases hcodeCut : Quoting.plain.after false a = .plain <;>
      by_cases hshellCut : Quoting.plain.after true a = .plain
    · -- both cut
      rw [hcodeCut, hshellCut] at hpipes
      rw [Quoting.pieces_cut hcode hcodeCut, Quoting.pieces_cut hshell hshellCut, listsOf_cons,
        listsOf_cons] at h
      obtain ⟨pending', hpending', hrest, hdone⟩ := pending_step hpending hshellCut h
      have hb : Quoting.plain.after true b = .plain := by
        rw [Quoting.after_append, hshellCut] at hplain
        exact hplain
      obtain ⟨hnil, hsame, hedges⟩ := aligned_of_eq hpending' hb hrest
      obtain ⟨hpending, hkeeps⟩ := hdone hnil
      refine ⟨hpending, hpipes.mpr ⟨Iff.rfl, hsame⟩, ?_⟩
      rw [Quoting.pieces_cut hshell hshellCut]
      intro seg hseg
      rcases List.mem_cons.mp hseg with rfl | hseg
      · exact hkeeps
      · exact hedges seg hseg
    · -- the scanner cuts at a pipe that is quoted or escaped
      obtain ⟨x, xs, hx⟩ := Quoting.pieces_no_cut (t := b) hshell hshellCut
      rw [Quoting.pieces_cut hcode hcodeCut, hx, listsOf_cons, listsOf_cons] at h
      have hcount :
        (pieceWords (a ++ '|' :: x)).flatten.count '|' = a.count '|' + (x.count '|' + 1) := by
        rw [count_pieceWords, List.count_append, List.count_cons_self]
      have hcodeCount :
        (tokens (strip a)).flatten.count '|' = a.count '|' := by rw [count_tokens, count_strip]
      have hblank := tokens_not_blank hshellCut
      have hne : tokens (strip a) ≠ [] :=
        fun hnil => hblank (by rw [hnil]; exact fun c hc => by cases hc)
      rcases owed_or_same (ne_nil_of_count (by omega)) hne h with howed | hsame
      · exact absurd (hpending _ howed).2 hblank
      · rw [hsame] at hcount
        omega
    · -- the scanner takes a pipe for quoted that is not
      obtain ⟨x, xs, hx⟩ := Quoting.pieces_no_cut (t := b) hcode hcodeCut
      rw [Quoting.pieces_cut hshell hshellCut, hx, listsOf_cons, listsOf_cons] at h
      have hcount : (tokens (strip (a ++ '|' :: x))).flatten.count '|' = a.count '|' +
        (x.count '|' + 1) := by
        rw [count_tokens, count_strip, List.count_append, List.count_cons_self]
      have hshellCount : (pieceWords a).flatten.count '|' = a.count '|' := count_pieceWords a
      have hspace : ∃ c ∈ a, isSpace c = false := by
        by_contra hnone
        exact hcodeCut (Quoting.after_plain_of_isSpace fun c hc => by_contra fun hc' =>
          hnone ⟨c, hc, by simpa using hc'⟩)
      obtain ⟨c, hc, hspace⟩ := hspace
      have hne : pieceWords a ≠ [] := by
        refine words_ne_nil (words_of_plain hshellCut) hc ?_
        by_contra hshell
        rw [isSpace_of_isShellSpace (by simpa using hshell)] at hspace
        cases hspace
      rcases owed_or_same hne (ne_nil_of_count (by omega)) h with howed | hsame
      · have hpipe : '|' ∈ (tokens (strip (a ++ '|' :: x))).flatten :=
          List.count_pos_iff.mp (by omega)
        exact absurd ((hpending _ howed).2 _ hpipe) (by decide)
      · rw [hsame] at hshellCount
        omega
    · exact absurd hcut (by simp [hcodeCut, hshellCut])
termination_by command.length
decreasing_by exact hshorter

/-- Readings that agree on every pipe and at every edge give the same lists. -/
theorem eq_of_aligned (h : Aligned command) :
    listsOf (fun seg => tokens (strip seg)) (Quoting.plain.pieces false command) =
      listsOf pieceWords (Quoting.plain.pieces true command) := by
  rw [Quoting.pieces_of_samePipes h.1, listsOf, listsOf,
    List.map_congr_left fun seg hseg => tokens_of_keepsEdges (h.2 seg hseg)]

/-- The parser finds the lists of words of a complete command if and only if reading backslashes as
plain characters moves none of its cuts and stripping its segments takes nothing of a word away. -/
theorem parsePipeline_eq_iff (command : List Char) {lists : List (List (List Char))}
    (h : lexPipeline command = some lists) : parsePipeline command = lists ↔ Aligned command := by
  obtain ⟨pipeline, hpipeline, rfl⟩ := Option.map_eq_some_iff.mp h
  have hplain := Lexer.plain_of_pipeline hpipeline
  rw [pipeline_eq_map hplain] at hpipeline
  obtain rfl := Option.some.inj hpipeline
  rw [parsePipeline_eq]
  constructor
  · intro heq
    exact (aligned_of_eq (List.forall_mem_nil _) hplain heq.symm).2
  · exact eq_of_aligned

/-! ## Quoted lists -/

/-- A text that begins with no blank is met after all blanks. -/
theorem takeWhile_blanks {pre : List Char} (hpre : ∀ c ∈ pre, isSpace c = true) (hne : a ≠ [])
    (ha : ∀ c ∈ a.head?, isSpace c = false) :
    (pre ++ a).takeWhile isSpace = pre ∧ (pre ++ a).dropWhile isSpace = a := by
  obtain ⟨c, a, rfl⟩ := List.exists_cons_of_ne_nil hne
  have hc := ha c rfl
  rw [List.takeWhile_append_of_pos hpre, List.dropWhile_append_of_pos hpre, List.takeWhile_cons,
    List.dropWhile_cons, hc]
  simp

/-- A joined list keeps its edges. -/
theorem keepsEdges_of_surrounds {ws : List (List Char)} (hne : ws ≠ []) (h : Surrounds seg ws) :
    KeepsEdges seg := by
  obtain ⟨pre, post, hpre, hpost, rfl⟩ := h
  obtain ⟨w, rest, rfl⟩ := List.exists_cons_of_ne_nil hne
  obtain ⟨hhead, hlast⟩ := joinWords_edges (w :: rest)
  have hjoin : joinWords (w :: rest) ≠ [] := joinWords_ne_nil
  have hspace : ∀ l : List Char, (∀ c ∈ l, isShellSpace c = true) → ∀ c ∈ l, isSpace c = true :=
    fun l hl c hc => isSpace_of_isShellSpace (hl c hc)
  have hfront := takeWhile_blanks (a := joinWords (w :: rest) ++ post) (hspace pre hpre)
    (List.append_ne_nil_of_left_ne_nil hjoin _) (by rwa [List.head?_append_of_ne_nil _ hjoin])
  have hpostSpace : ∀ c ∈ post.reverse, isSpace c = true :=
    fun c hc => hspace post hpost c (List.mem_reverse.mp hc)
  have hback := takeWhile_blanks (a := (joinWords (w :: rest)).reverse) hpostSpace
    (by simpa using hjoin)
    (by rwa [List.head?_reverse])
  rw [← List.reverse_append] at hback
  rw [KeepsEdges, strip, List.append_assoc, hfront.1, hfront.2, List.rtakeWhile, List.rdropWhile,
    hback.1, hback.2, List.reverse_reverse, List.reverse_reverse]
  exact ⟨List.all_eq_true.mpr hpre, List.all_eq_true.mpr hpost, after_joinWords⟩

/-- A piece around quoted words has those words. -/
theorem pieceWords_of_surrounds {ws : List (List Char)} (h : Surrounds seg ws) :
    pieceWords seg = ws := by
  obtain ⟨pre, post, hpre, hpost, rfl⟩ := h
  have hjoin : Quoting.plain.after true (joinWords ws) = .plain := after_joinWords
  have hwords := words_surrounded hpre hpost hjoin
  rw [words_of_plain (pieces_surrounded hpre hpost).2, words_of_plain after_joinWords] at hwords
  exact (Option.some.inj hwords).trans pieceWords_joinWords

/-- Pieces around quoted words have those words. -/
theorem pieces_of_forall₂ {pieces : List (List Char)} {lists : List (List (List Char))}
    (hpieces : List.Forall₂ Surrounds pieces lists) (hne : ∀ ws ∈ lists, ws ≠ []) :
    pieces.map pieceWords = lists ∧ ∀ seg ∈ pieces, KeepsEdges seg := by
  induction hpieces with
  | nil => exact ⟨rfl, List.forall_mem_nil _⟩
  | @cons seg ws pieces lists hsurrounds _ ih =>
      obtain ⟨hmap, hkeeps⟩ := ih fun ws' hws' => hne ws' (List.mem_cons_of_mem _ hws')
      rw [List.map_cons, pieceWords_of_surrounds hsurrounds, hmap]
      refine ⟨rfl, fun seg' hseg' => ?_⟩
      rcases List.mem_cons.mp hseg' with rfl | hseg'
      · exact keepsEdges_of_surrounds (hne ws List.mem_cons_self) hsurrounds
      · exact hkeeps seg' hseg'

/-- The lists of words that were quoted and joined come back. -/
theorem parsePipeline_joinLists {lists : List (List (List Char))} (h : ∀ ws ∈ lists, ws ≠ []) :
    parsePipeline (joinLists lists) = lists := by
  cases lists with
  | nil => rfl
  | cons ws rest =>
      have hnil : ∀ c ∈ ([] : List Char), isShellSpace c = true := List.forall_mem_nil _
      obtain ⟨hpieces, hplain⟩ := pieces_joinLists hnil ws rest
      rw [List.nil_append] at hpieces hplain
      obtain ⟨hwords, hkeeps⟩ := pieces_of_forall₂ hpieces h
      have haligned : Aligned (joinLists (ws :: rest)) :=
        ⟨Quoting.samePipes_of_along (along_joinLists _), hkeeps⟩
      refine (parsePipeline_eq_iff _ ?_).mpr haligned
      rw [lexPipeline, pipeline_eq_map hplain, hwords, Option.map_some, List.filter_eq_self.mpr]
      intro ws' hmem
      simpa using h ws' hmem

/-! ## The defect -/

/-- For every complete command the parser returns the lists of words of the whole command just when
it is aligned. Quoted and joined lists always come back. -/
theorem parsePipeline_spec (command : List Char) (args : List (List (List Char))) :
    (∀ lists, lexPipeline command = some lists →
      (parsePipeline command = lists ↔ Aligned command)) ∧
      ((∀ ws ∈ args, ws ≠ []) → parsePipeline (joinLists args) = args) :=
  ⟨fun _ h => parsePipeline_eq_iff command h, parsePipeline_joinLists⟩

/-- A quoted bar does not cut. -/
theorem parsePipeline_spec_grep :
    parsePipeline "grep 'a|b' notes.md | head -3".toList =
        [["grep".toList, "a|b".toList, "notes.md".toList], ["head".toList, "-3".toList]] ∧
      parsePipeline (joinLists [["grep".toList, "it's a|b".toList], ["wc".toList, "-l".toList]]) =
        [["grep".toList, "it's a|b".toList], ["wc".toList, "-l".toList]] := by
  refine ⟨((parsePipeline_spec _ []).1 _ ?_).mpr ?_, (parsePipeline_spec [] _).2 ?_⟩ <;>
    decide +kernel

/-- The escaped quote opens a string for the scanner, so the pipe after it does not cut. -/
theorem parsePipeline_escaped_quote :
    lexPipeline "echo \\\" | cat".toList = some [["echo".toList, "\"".toList], ["cat".toList]] ∧
      parsePipeline "echo \\\" | cat".toList =
        [["echo".toList, "\"".toList, "|".toList, "cat".toList]] ∧
      parsePipeline "echo \\\" | cat".toList ≠ [["echo".toList, "\"".toList], ["cat".toList]] := by
  refine ⟨?_, ?_, ?_⟩ <;> decide +kernel

end OpenWebUI.Knowledge
