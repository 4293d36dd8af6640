import OpenWebUI.Lib.Lines

/-! # Lines from raw chunks

`stream_chunks_handler` cuts a byte stream into lines as its chunks arrive and drops
the lines over a limit, also while such a line is still arriving.  However the stream
is cut, the lines are those of the whole stream.
-/

namespace OpenWebUI.Streaming

/-- `b'\n'`. -/
def newline : UInt8 := 10

/-- `len(line) > max_buffer_size`; unset or not positive, no line is too long. -/
def overLimit (maxBufferSize : Option Int) (n : Nat) : Bool :=
  match maxBufferSize with
  | none => false
  | some m => 0 < m && m < n

/-- The generator between two chunks: its two variables, and what it has yielded. -/
structure LineReader where
  buffer : List UInt8
  droppingLineTail : Bool
  yielded : List (List UInt8)

/-- `for line in lines`: the first line may be the tail of a dropped one. -/
def LineReader.yieldLines (limit : Option Int) (r : LineReader) (lines : List (List UInt8)) :
    LineReader :=
  lines.foldl (fun r line =>
    if r.droppingLineTail then { r with droppingLineTail := false }
    else if overLimit limit line.length then r
    else { r with yielded := r.yielded ++ [line ++ [newline]] }) r

/-- `if b'\n' in data`: the buffer is split once a line completed. -/
def LineReader.splitBuffer (limit : Option Int) (r : LineReader) (data : List UInt8) :
    LineReader :=
  if newline ∈ data then
    ({ r with buffer := Lines.rest newline r.buffer }).yieldLines limit
      (Lines.lines newline r.buffer)
  else r

/-- An oversized line still arriving is dropped instead of buffering the rest. -/
def LineReader.dropOversized (limit : Option Int) (r : LineReader) : LineReader :=
  if overLimit limit r.buffer.length then { r with droppingLineTail := true, buffer := [] } else r

/-- One round of `async for data, _ in stream.iter_chunks()`. -/
def LineReader.chunk (limit : Option Int) (r : LineReader) (data : List UInt8) : LineReader :=
  if data = [] then r
  else (({ r with buffer := r.buffer ++ data }).splitBuffer limit data).dropOversized limit

/-- `stream_chunks_handler`: all it yields for the given chunks. -/
def streamChunksHandler (limit : Option Int) (chunks : List (List UInt8)) : List (List UInt8) :=
  let r := chunks.foldl (LineReader.chunk limit) ⟨[], false, []⟩
  if r.buffer ≠ [] ∧ r.droppingLineTail = false then r.yielded ++ [r.buffer] else r.yielded

/-! ## The lines of a whole stream -/

/-- The closed lines within the limit, each with its newline. -/
def closedLines (limit : Option Int) (stream : List UInt8) : List (List UInt8) :=
  ((Lines.lines newline stream).filter fun line => !overLimit limit line.length).map
    (· ++ [newline])

/-- The closed lines within the limit, then the open rest if there is one within the limit. -/
def linesWithin (limit : Option Int) (stream : List UInt8) : List (List UInt8) :=
  let rest := Lines.rest newline stream
  closedLines limit stream ++
    if rest ≠ [] ∧ overLimit limit rest.length = false then [rest] else []

/-! ## What the reader holds -/

/-- After `stream` every closed line is settled.  A reader that keeps its line holds all of it
so far; one that drops it has seen it go over the limit. -/
structure Splits (limit : Option Int) (stream : List UInt8) (r : LineReader) : Prop where
  yielded : r.yielded = closedLines limit stream
  kept : r.droppingLineTail = false → r.buffer = Lines.rest newline stream
  dropped : r.droppingLineTail = true →
    overLimit limit (Lines.rest newline stream).length = true ∧ newline ∉ r.buffer

/-- Between two chunks, a line that is kept is within the limit. -/
structure Holds (limit : Option Int) (stream : List UInt8) (r : LineReader) : Prop
    extends Splits limit stream r where
  within : overLimit limit r.buffer.length = false

/-- What is over the limit stays so as it grows. -/
theorem overLimit_mono {limit : Option Int} {n m : Nat} (h : n ≤ m)
    (hn : overLimit limit n = true) : overLimit limit m = true := by
  cases limit with
  | none => exact hn
  | some k =>
      simp only [overLimit, Bool.and_eq_true, decide_eq_true_eq] at hn ⊢
      omega

theorem closedLines_append (limit : Option Int) (stream data : List UInt8) :
    closedLines limit (stream ++ data) =
      closedLines limit stream ++ closedLines limit (Lines.rest newline stream ++ data) := by
  rw [closedLines, (Lines.append stream data).1, List.filter_append, List.map_append]
  rfl

/-- The loop over the lines when no tail is being dropped: a filter. -/
theorem yieldLines_kept (limit : Option Int) (lines : List (List UInt8)) (buffer : List UInt8)
    (yielded : List (List UInt8)) :
    LineReader.yieldLines limit ⟨buffer, false, yielded⟩ lines =
      ⟨buffer, false, yielded ++
        (lines.filter fun line => !overLimit limit line.length).map (· ++ [newline])⟩ := by
  induction lines generalizing yielded with
  | nil => rw [List.filter_nil, List.map_nil, List.append_nil, LineReader.yieldLines,
      List.foldl_nil]
  | cons line lines ih =>
      by_cases hover : overLimit limit line.length = true
      · rw [List.filter_cons_of_neg (by simp [hover]), ← ih yielded]
        simp only [LineReader.yieldLines, List.foldl_cons, hover, Bool.false_eq_true, if_true,
          if_false]
      · rw [List.filter_cons_of_pos (by simpa using hover), List.map_cons, List.append_cons,
          ← ih (yielded ++ [line ++ [newline]])]
        simp only [LineReader.yieldLines, List.foldl_cons, hover, Bool.false_eq_true, if_false]

/-- A dropped tail ends with the first line. -/
theorem yieldLines_dropped (limit : Option Int) (line : List UInt8) (lines : List (List UInt8))
    (buffer : List UInt8) (yielded : List (List UInt8)) :
    LineReader.yieldLines limit ⟨buffer, true, yielded⟩ (line :: lines) =
      LineReader.yieldLines limit ⟨buffer, false, yielded⟩ lines := rfl

/-- The chunk goes into the buffer and the lines it completes come out. -/
theorem Splits.splitBuffer {limit : Option Int} {stream : List UInt8} {r : LineReader}
    (h : Splits limit stream r) (data : List UInt8) :
    Splits limit (stream ++ data)
      (({ r with buffer := r.buffer ++ data }).splitBuffer limit data) := by
  rcases r with ⟨buffer, dropping, yielded⟩
  have hopen : newline ∉ Lines.rest newline stream := Lines.not_mem_rest stream
  have hyielded : yielded = closedLines limit stream := h.yielded
  unfold LineReader.splitBuffer
  split
  · next hin =>
      obtain ⟨l, ls, hhead⟩ := Lines.head_append hin
      have hlines := hhead _ hopen
      cases dropping with
      | false =>
          -- the buffer is the open line: the lines it completes are the new ones
          have hbuffer : buffer = Lines.rest newline stream := h.kept rfl
          subst hbuffer
          rw [yieldLines_kept]
          refine ⟨?_, fun _ => (Lines.append stream data).2.symm,
            fun htrue => Bool.noConfusion htrue⟩
          rw [closedLines_append, hyielded]
          rfl
      | true =>
          -- the first line completes the dropped one, which is too long as a whole
          obtain ⟨hover, hbuffer⟩ := h.dropped rfl
          have hlong : overLimit limit (Lines.rest newline stream ++ l).length = true :=
            overLimit_mono (by rw [List.length_append]; omega) hover
          rw [(hhead buffer hbuffer).1, yieldLines_dropped, yieldLines_kept]
          refine ⟨?_, fun _ => ?_, fun htrue => Bool.noConfusion htrue⟩
          · rw [closedLines_append, hyielded, closedLines, closedLines, hlines.1,
              List.filter_cons_of_neg (by rw [hlong]; decide)]
          · rw [(Lines.append stream data).2, hlines.2]
            exact (hhead buffer hbuffer).2
  · next hnot =>
      -- nothing is completed: the open line grows by the chunk
      have hgrown : newline ∉ Lines.rest newline stream ++ data :=
        fun hmem => (List.mem_append.mp hmem).elim hopen hnot
      have hcut := @Lines.append _ _ newline stream data
      rw [(Lines.of_not_mem hgrown).1, (Lines.of_not_mem hgrown).2, List.append_nil] at hcut
      refine ⟨?_, fun hkept => ?_, fun hdropped => ?_⟩
      · rw [closedLines, hcut.1]
        exact hyielded
      · rw [hcut.2, ← h.kept hkept]
      · obtain ⟨hover, hbuffer⟩ := h.dropped hdropped
        refine ⟨?_, fun hmem => (List.mem_append.mp hmem).elim hbuffer hnot⟩
        rw [hcut.2]
        exact overLimit_mono (by rw [List.length_append]; omega) hover

/-- Looking at the open line settles whether it is kept. -/
theorem Splits.dropOversized {limit : Option Int} {stream : List UInt8} {r : LineReader}
    (h : Splits limit stream r) : Holds limit stream (r.dropOversized limit) := by
  unfold LineReader.dropOversized
  split
  · next hover =>
      have hlong : overLimit limit (Lines.rest newline stream).length = true := by
        cases hdropping : r.droppingLineTail with
        | false => rwa [← h.kept hdropping]
        | true => exact (h.dropped hdropping).1
      refine ⟨⟨h.yielded, fun hfalse => Bool.noConfusion hfalse, fun _ => ⟨hlong, ?_⟩⟩, ?_⟩
      · exact List.not_mem_nil
      · cases limit with
        | none => rfl
        | some m => simp only [overLimit, List.length_nil]; grind
  · next hwithin => exact ⟨h, by simpa using hwithin⟩

/-- What one chunk does to the reader. -/
theorem Holds.chunk {limit : Option Int} {stream : List UInt8} {r : LineReader}
    (h : Holds limit stream r) (data : List UInt8) :
    Holds limit (stream ++ data) (r.chunk limit data) := by
  unfold LineReader.chunk
  split
  · next hempty =>
      rw [hempty, List.append_nil]
      exact h
  · exact (h.toSplits.splitBuffer data).dropOversized

/-- What all the chunks do, by induction on their list. -/
theorem holds_chunks (limit : Option Int) (chunks : List (List UInt8)) :
    ∀ (stream : List UInt8) (r : LineReader), Holds limit stream r →
      Holds limit (stream ++ chunks.flatten) (chunks.foldl (LineReader.chunk limit) r) := by
  induction chunks with
  | nil =>
      intro stream r h
      rwa [List.flatten_nil, List.append_nil]
  | cons data chunks ih =>
      intro stream r h
      rw [List.flatten_cons, ← List.append_assoc, List.foldl_cons]
      exact ih _ _ (h.chunk data)

/-- At the start nothing is held. -/
theorem holds_start (limit : Option Int) : Holds limit [] ⟨[], false, []⟩ := by
  refine ⟨⟨rfl, fun _ => rfl, fun htrue => Bool.noConfusion htrue⟩, ?_⟩
  cases limit with
  | none => rfl
  | some m => simp only [overLimit, List.length_nil]; grind

/-- However the stream is cut into chunks, its lines within the limit come out, each once and
in order. -/
theorem stream_chunks_lines (limit : Option Int) (chunks : List (List UInt8)) :
    streamChunksHandler limit chunks = linesWithin limit chunks.flatten := by
  have h := holds_chunks limit chunks [] _ (holds_start limit)
  rw [List.nil_append] at h
  unfold streamChunksHandler linesWithin
  generalize chunks.foldl (LineReader.chunk limit) ⟨[], false, []⟩ = r at h ⊢
  rw [← h.yielded]
  by_cases hdropping : r.droppingLineTail = true
  · simp [hdropping, (h.dropped hdropping).1]
  · have hfalse : r.droppingLineTail = false := by simpa using hdropping
    have hwithin := h.within
    rw [h.kept hfalse] at hwithin
    simp only [h.kept hfalse, hwithin, hfalse, and_true]
    split <;> simp

/-- `ABC` is over the limit of two while it arrives, `D` is not. -/
example : streamChunksHandler (some 2) [[65, 66], [67], [], [10, 68], [10]] = [[68, 10]] := by
  decide

end OpenWebUI.Streaming
