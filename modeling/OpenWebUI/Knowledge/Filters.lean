import Mathlib
import OpenWebUI.Knowledge.Confinement
import OpenWebUI.Lib.Lines

/-! # What a pipeline computes

A command that does not read its input makes all that stands before it irrelevant. A run of line
filters computes one function on lists of lines, though texts are what is passed on. The three modes
of a search across files are views of one list of matches.
-/

namespace OpenWebUI.Knowledge

open Py Shell

variable {py : Python} {limits : Limits} {s : Store} {user : Caller} {attached : List Attached}
  {segments rest : List (List Text)} {tokens : List Text} {piped : Option Text} {text : Text}

/-! ## Lines -/

/-- Joining undoes splitting. -/
theorem joinLines_splitLines (text : Text) :
    joinLines (splitLines text) = text := List.intercalate_splitOn '\n'

/-- Splitting undoes joining, where no line has a newline. -/
theorem splitLines_joinLines {lines : List Text} (hne : lines ≠ []) (h : ∀ l ∈ lines, '\n' ∉ l) :
    splitLines (joinLines lines) = lines := List.splitOn_intercalate '\n' h hne

theorem not_mem_of_mem_splitLines {l : Text} (h : l ∈ splitLines text) :
    '\n' ∉ l := Lines.not_mem_of_mem_splitOn h

/-! ## Pipelines -/

/-- The commands of all segments are known, none raises, and the last one answers with the text. -/
def Answers (py : Python) (limits : Limits) (s : Store) (user : Caller) (attached : List Attached) :
    List (List Text) → Option Text → Text → Prop
  | [], piped, text => piped = some text
  | tokens :: segments, piped, text => ∃ c answer, commandMap (segmentName py tokens) = some c ∧
      runSegment py limits s user attached c tokens.tail piped = .ok answer ∧
      Answers py limits s user attached segments (some answer) text

theorem executePipeline_cons {c : Command} {answer : Text}
    (hc : commandMap (segmentName py tokens) = some c)
    (hanswer : runSegment py limits s user attached c tokens.tail piped = .ok answer) :
    executePipeline py limits s user attached (tokens :: segments) piped =
      executePipeline py limits s user attached segments (some answer) := by
  rw [executePipeline]
  simp only [hc, hanswer]

theorem executePipeline_append (h : Answers py limits s user attached segments piped text) :
    executePipeline py limits s user attached (segments ++ rest) piped =
      executePipeline py limits s user attached rest (some text) := by
  induction segments generalizing piped with
  | nil => rw [List.nil_append, show piped = some text from h]
  | cons tokens segments ih =>
      obtain ⟨c, answer, hc, hanswer, hrest⟩ := h
      rw [List.cons_append, executePipeline_cons hc hanswer, ih hrest]

/-- What stands before a command that does not read its input has no influence, if it runs. -/
theorem executePipeline_cut {c : Command}
    (h : Answers py limits s user attached segments piped text)
    (hc : commandMap (segmentName py tokens) = some c) (hreads : c.reads = false) :
    executePipeline py limits s user attached (segments ++ tokens :: rest) piped =
      executePipeline py limits s user attached (tokens :: rest) none := by
  rw [executePipeline_append h, executePipeline, executePipeline]
  simp only [hc, runSegment, hreads]
  rfl

/-! ## Line filters -/

/-- The lines a segment lets through, when it is one of `head`, `tail` and `sed -n`. -/
def lineFilter (py : Python) (tokens : List Text) : Option (List Text → List Text) :=
  let args := (extractFlags tokens.tail).2
  match commandMap (segmentName py tokens), extractNumericFlag args with
  | some .head, .ok (n, _) => some (List.take (n.getD 10))
  | some .tail, .ok (n, _) => some (lastLines (n.getD 10))
  | some .sed, _ =>
    match (if 'n' ∈ (extractFlags tokens.tail).1 then args.head? else none).bind (range? false) with
    | some (a, b) =>
      match intOfDigits a, intOfDigits b with
      | .ok start, .ok stop => some fun lines =>
          lineRange start (if stop = 0 then lines.length else stop) lines
      | _, _ => none
    | none => some id
  | _, _ => none

theorem lastLines_infix (n : ℕ) (lines : List Text) : lastLines n lines <:+: lines := by
  rw [lastLines]
  split_ifs
  · exact List.infix_rfl
  · exact (List.drop_suffix _ _).isInfix

theorem lineRange_infix (start stop : ℕ) (lines : List Text) :
    lineRange start stop lines <:+: lines :=
  (List.drop_suffix _ _).isInfix.trans (List.take_prefix _ _).isInfix

/-- A line filter lets a run of lines through. -/
theorem lineFilter_sublines {f : List Text → List Text} (h : lineFilter py tokens = some f)
    (lines : List Text) :
    f lines <:+: lines := by
  simp only [lineFilter] at h
  split at h
  · obtain rfl := Option.some.inj h
    exact (List.take_prefix _ _).isInfix
  · obtain rfl := Option.some.inj h
    exact lastLines_infix _ _
  · split at h
    · split at h
      · obtain rfl := Option.some.inj h
        exact lineRange_infix _ _ _
      · cases h
    · obtain rfl := Option.some.inj h
      exact List.infix_rfl
  · cases h

/-- What a line filter answers to a text. -/
theorem executePipeline_lineFilter {f : List Text → List Text} (h : lineFilter py tokens = some f) :
    executePipeline py limits s user attached (tokens :: segments) (some text) =
      executePipeline py limits s user attached segments
        (some (joinLines (f (splitLines text)))) := by
  simp only [lineFilter] at h
  split at h
  · next n args hc hn =>
      obtain rfl := Option.some.inj h
      refine executePipeline_cons hc ?_
      simp only [runSegment, Command.run, kbHead, kbSome, hn, Command.reads]
      rfl
  · next n args hc hn =>
      obtain rfl := Option.some.inj h
      refine executePipeline_cons hc ?_
      simp only [runSegment, Command.run, kbTail, kbSome, hn, Command.reads]
      rfl
  · next hc =>
      refine executePipeline_cons hc ?_
      show sedPiped _ _ _ = _
      split at h
      · next a b hrange =>
          split at h
          · next start stop ha hb =>
              obtain rfl := Option.some.inj h
              simp only [sedPiped, hrange, ha, hb]
              rfl
          · cases h
      · next hrange =>
          obtain rfl := Option.some.inj h
          simp only [sedPiped, hrange]
          rfl
  · cases h

/-- The lines that are left after some filters. -/
def filtered (filters : List (List Text → List Text)) (lines : List Text) : List Text :=
  filters.foldl (fun lines f => f lines) lines

/-- Filters leave consecutive lines. -/
theorem filtered_sublines {filters : List (List Text → List Text)}
    (h : List.Forall₂ (fun tokens f => lineFilter py tokens = some f) segments filters)
    (lines : List Text) :
    filtered filters lines <:+: lines := by
  induction h generalizing lines with
  | nil => exact List.infix_rfl
  | cons hf _ ih => exact (ih _).trans (lineFilter_sublines hf lines)

/-- Joining what is left is the same for no line and for one empty line. -/
theorem joinLines_of_infix {lines : List Text} (h : lines <:+: [[]]) : joinLines lines = [] := by
  have hlength := h.length_le
  match lines with
  | [] => rfl
  | [line] =>
      have hmem : line ∈ [([] : Text)] := h.subset (List.mem_singleton_self line)
      rw [List.mem_singleton.mp hmem]
      rfl
  | _ :: _ :: _ => simp at hlength

/-- A run of line filters computes one function on lines: between two filters the lines are joined
and split again, which is seen only where no line is left, and there by no later filter. -/
theorem executePipeline_lineFilters {filters : List (List Text → List Text)}
    (h : List.Forall₂ (fun tokens f => lineFilter py tokens = some f) segments filters)
    (text : Text) :
    executePipeline py limits s user attached segments (some text) =
      .ok (joinLines (filtered filters (splitLines text))) := by
  induction h generalizing text with
  | nil => rw [filtered, List.foldl_nil, joinLines_splitLines, executePipeline, Option.getD_some]
  | @cons tokens f segments filters hf hfilters ih =>
      have hstep :
        filtered (f :: filters) (splitLines text) = filtered filters (f (splitLines text)) := rfl
      rw [executePipeline_lineFilter hf, ih, hstep]
      have hinner := lineFilter_sublines hf (splitLines text)
      by_cases hnil : f (splitLines text) = []
      · -- one empty line is all the next filter sees
        rw [hnil, joinLines_of_infix (filtered_sublines hfilters (splitLines (joinLines [])))]
        have hrest : filtered filters [] = [] := List.infix_nil.mp (filtered_sublines hfilters [])
        exact congrArg Except.ok (congrArg joinLines hrest).symm
      · have hlines : splitLines (joinLines (f (splitLines text))) = f (splitLines text) :=
          splitLines_joinLines hnil fun l hl => not_mem_of_mem_splitLines (hinner.subset hl)
        rw [hlines]

/-- A pipeline is what its last source answers, sent through the line filters after it: commands
before the source have no influence, and the filters compute one function on the lines, which lets a
run of them through. -/
theorem pipeline_spec {c : Command} {answer : Text} {filters : List (List Text → List Text)}
    (hsegments : Answers py limits s user attached segments none text)
    (hc : commandMap (segmentName py tokens) = some c) (hreads : c.reads = false)
    (hanswer : runSegment py limits s user attached c tokens.tail none = .ok answer)
    (hrest : List.Forall₂ (fun tokens f => lineFilter py tokens = some f) rest filters) :
    executePipeline py limits s user attached (segments ++ tokens :: rest) none =
        .ok (joinLines (filtered filters (splitLines answer))) ∧
      filtered filters (splitLines answer) <:+: splitLines answer := by
  refine ⟨?_, filtered_sublines hrest _⟩
  rw [executePipeline_cut hsegments hc hreads, executePipeline_cons hc hanswer,
    executePipeline_lineFilters hrest]

/-- `find "*.md" | cat f1 | head -3 | sed -n 2,9p` on the sample. -/
theorem pipeline_spec_cat :
    executePipeline samplePython ⟨30000, 200, 50⟩ (sampleStore []) ada []
        ([["find".toList, "*.md".toList]] ++ ["cat".toList, "f1".toList] ::
          [["head".toList, "-3".toList], ["sed".toList, "-n".toList, "2,9p".toList]]) none =
            .ok "two".toList := by
  have hfind :
    Answers samplePython ⟨30000, 200, 50⟩
    (sampleStore []) ada [] [["find".toList, "*.md".toList]] none
      (kbFind samplePython (sampleStore []) ada [] ["*.md".toList] []) :=
        ⟨.find, _, by decide, rfl, rfl⟩
  have hcat :
    runSegment samplePython ⟨30000, 200, 50⟩ (sampleStore []) ada [] .cat ["f1".toList] none =
      .ok "one\ntwo".toList := by decide +kernel
  have hhead : lineFilter samplePython ["head".toList, "-3".toList] = some (List.take 3) := rfl
  have hsed : lineFilter samplePython ["sed".toList, "-n".toList, "2,9p".toList] =
      some fun lines => lineRange 2 (if 9 = 0 then lines.length else 9) lines := rfl
  have hspec := pipeline_spec hfind
    (by decide : commandMap (segmentName samplePython ["cat".toList, "f1".toList]) = some .cat)
    rfl hcat (.cons hhead (.cons hsed .nil))
  exact hspec.1

/-! ## Searches across files -/

/-- The matches in one file. -/
def hits (s : Store) (search : Text → Bool) (f : FileInfo) : List (ℕ × Text) :=
  match grepContent s f.id with
  | some content => matchLines content search
  | none => []

/-- All matches of a search, in the order of the files and of their lines. -/
def allMatches (s : Store) (search : Text → Bool) (files : List FileInfo) :
    List (FileInfo × ℕ × Text) :=
  files.flatMap fun f => (hits s search f).map fun l => (f, l)

variable {search : Text → Bool} {files : List FileInfo} {found : List (FileInfo × List (ℕ × Text))}

/-- The files with a match. -/
theorem fileMatches_eq (files : List FileInfo) :
    fileMatches s search files =
      (files.filter fun f => hits s search f ≠ []).map fun f => (f, hits s search f) := by
  induction files with
  | nil => rfl
  | cons f files ih =>
      rw [fileMatches, List.filterMap_cons, ← fileMatches, ih]
      simp only [hits]
      cases hcontent : grepContent s f.id with
      | none => simp [hcontent]
      | some content =>
          by_cases hnil : matchLines content search = []
          · simp [hcontent, hnil]
          · simp [hcontent, hnil]

/-- Their matches are all the matches. -/
theorem flatten_fileMatches (files : List FileInfo) :
    (fileMatches s search files).flatMap (fun e => e.2.map fun l => (e.1, l)) =
      allMatches s search files := by
  rw [fileMatches_eq, List.flatMap_map, allMatches]
  induction files with
  | nil => rfl
  | cons f files ih =>
      rw [List.flatMap_cons, ← ih]
      by_cases hnil : hits s search f = []
      · simp [hnil]
      · simp [hnil]

/-- The total is their number. -/
theorem totalMatches_eq :
    totalMatches found = (found.flatMap fun e => e.2.map fun l => (e.1, l)).length := by
  rw [totalMatches, List.length_flatMap]
  simp

/-- A loop that adds while there is room adds what fits. -/
theorem foldl_room {α β : Type} (n : ℕ) (f : α → β) (l : List α) (acc : List β)
    (hacc : acc.length ≤ n) :
    l.foldl (fun results a => if results.length < n then results ++ [f a] else results) acc =
      (acc ++ l.map f).take n := by
  induction l generalizing acc with
  | nil => simp [List.take_of_length_le hacc]
  | cons a l ih =>
      rw [List.foldl_cons]
      split_ifs with hroom
      · rw [ih _ (by rw [List.length_append, List.length_singleton]; omega), List.map_cons,
          List.append_assoc]
        rfl
      · rw [ih _ hacc, List.take_append_of_le_length (by omega),
          List.take_append_of_le_length (by omega)]

/-- The results are the first of them. -/
theorem collectResults_eq (found : List (FileInfo × List (ℕ × Text))) :
    collectResults limits found =
      ((found.flatMap fun e => e.2.map fun l => (e.1, l)).map fun m => reported m.1 m.2).take
        limits.grepMaxMatches := by
  have hloop : ∀ (found : List (FileInfo × List (ℕ × Text))) (acc : List Text),
    acc.length ≤ limits.grepMaxMatches →
      found.foldl (fun results e => e.2.foldl (fun results l =>
          if results.length < limits.grepMaxMatches then results ++ [reported e.1 l]
            else results) results) acc =
        (acc ++ (found.flatMap fun e => e.2.map fun l => (e.1, l)).map fun m =>
          reported m.1 m.2).take
          limits.grepMaxMatches := by
    intro found
    induction found with
    | nil =>
        intro acc hacc
        simp [List.take_of_length_le hacc]
    | cons e found ih =>
        intro acc hacc
        rw [List.foldl_cons, foldl_room _ _ _ _ hacc, ih _ (List.length_take_le _ _)]
        rw [List.flatMap_cons, List.map_append, ← List.append_assoc, List.map_map]
        by_cases hfull : (acc ++ e.2.map (reported e.1)).length ≤ limits.grepMaxMatches
        · rw [List.take_of_length_le hfull]
          rfl
        · have hlength : limits.grepMaxMatches ≤ (acc ++ e.2.map (reported e.1)).length := by omega
          rw [List.take_append_of_le_length (by rw [List.length_take]; omega),
            List.take_take, Nat.min_self]
          exact (List.take_append_of_le_length hlength).symm
  exact (hloop found [] (Nat.zero_le _)).trans (by rw [List.nil_append])

/-- The three modes of a search across files are views of one list of matches: the first matches up
to the limit with a notice when there are more, the number in each file and in all of them, and the
files that have some. -/
theorem grepFiles_spec (limits : Limits) (s : Store) (pattern : Text) (flags : List Char)
    (search : Text → Bool) (files : List FileInfo) :
    let all := allMatches s search files
    let matched := files.filter fun f => hits s search f ≠ []
    grepFiles limits s pattern flags search files =
      if 'c' ∈ flags then
        if all = [] then noMatches pattern
        else joinLines (matched.map
          (fun f => named f.id f.filename ++ ": ".toList ++ natText (hits s search f).length) ++
          ["Total: ".toList ++ natText all.length ++ " matches in ".toList ++
            natText matched.length ++ " files".toList])
      else if 'l' ∈ flags then
        if all = [] then noMatches pattern
          else joinLines (matched.map fun f => named f.id f.filename)
      else if all.take limits.grepMaxMatches = [] then
        noMatches pattern ++ " across ".toList ++ natText files.length ++ " files".toList
      else
        joinLines ((all.take limits.grepMaxMatches).map fun m => reported m.1 m.2) ++
          if all.length > limits.grepMaxMatches then
            "\n[showing ".toList ++ natText limits.grepMaxMatches ++ " of ".toList ++
              natText all.length ++
              " matches]".toList
          else [] := by
  intro all matched
  -- the nested lists are one list of matches, taken file by file
  have hall : (fileMatches s search files).flatMap (fun e => e.2.map fun l => (e.1, l)) = all :=
    flatten_fileMatches files
  have hfound : fileMatches s search files = matched.map fun f => (f, hits s search f) :=
    fileMatches_eq files
  have htotal :
    totalMatches (fileMatches s search files) = all.length := by rw [totalMatches_eq, hall]
  have hresults : collectResults limits (fileMatches s search files) =
      (all.take limits.grepMaxMatches).map fun m => reported m.1 m.2 := by
    rw [collectResults_eq, hall, List.map_take]
  -- nothing is found where no file has a hit
  have hnil : fileMatches s search files = [] ↔ all = [] := by
    rw [← hall]
    constructor
    · intro hempty
      rw [hempty]
      rfl
    · intro hempty
      by_contra hne
      obtain ⟨e, he⟩ := List.exists_mem_of_ne_nil _ hne
      have hmap := List.flatMap_eq_nil_iff.mp hempty e he
      rw [hfound] at he
      obtain ⟨f, hf, rfl⟩ := List.mem_map.mp he
      have hhits := of_decide_eq_true (List.mem_filter.mp hf).2
      exact hhits (List.map_eq_nil_iff.mp hmap)
  simp only [grepFiles, htotal, hresults, hnil, List.map_eq_nil_iff]
  rw [hfound, List.map_map, List.map_map, List.length_map]
  rfl

end OpenWebUI.Knowledge
