import PgAdmin.StatusLogPlain

/-! A CSV log, cut into chunks and read in several calls. What a chunk leaves is put before the next
one, and what a call leaves is saved for the next call, so each complete record is shown once. The
code counts on a timestamp at the start of a chunk, and shows a blank line only when more than
blank lines follow it in the chunk. -/
namespace PgAdmin.frmStatus
open PgsObjects (Text)
open Tokenizer CSVLineTokenizer wxString

variable {format : LogFormat} {line chunk str : Text} {chunks : List Text}

def Synced (str : Text) : Prop :=
  str.length ≤ 4 ∨ startsWithTimestamp str = true ∨ Find str "\n20".toList = -1

def NoBlankLine (str : Text) : Prop := ∀ line ∈ (records (str.rdropWhile (· = '\n'))).1, line ≠ ['\n']

/- What is left of the text before and the chunk are such that the chunk's records are shown. -/
def Regular (format : LogFormat) (carried chunk : Text) : Prop :=
  (format.logHasTimestamp = true → Synced (carried ++ chunk)) ∧ NoBlankLine (carried ++ chunk)

theorem resyncSynced (synced : Synced str) : resync str = str := by
  unfold resync
  split
  · rename_i lost
    rcases synced with short | starts | none
    · omega
    · exact absurd lost.2 (by simp [starts])
    · rw [none]
      rfl
  · rfl

theorem recordsBlank (blank : HasMoreLines str = false) :
    complete str = [] ∧ (records str).2 = [] := by
  induction str with
  | nil => exact ⟨by rw [complete, recordsNone rfl]; rfl, by rw [recordsNone rfl]⟩
  | cons c str ih =>
    obtain ⟨newline, rest⟩ : c = '\n' ∧ HasMoreLines str = false := by
      simpa [HasMoreLines] using blank
    subst newline
    obtain ⟨none, left⟩ := ih rest
    have found : GetNextLine ('\n' :: str) = some (['\n'], str) := rfl
    rw [complete, recordsSome found]
    exact ⟨none, left⟩

theorem moreLines (str : Text) :
    HasMoreLines str = false ↔ str.rdropWhile (· = '\n') = [] := by
  simp [HasMoreLines, List.rdropWhile_eq_nil_iff]

theorem noBlankNext {next rest : Text} (more : HasMoreLines str = true)
    (regular : NoBlankLine str) (found : GetNextLine str = some (next, rest)) :
    next ≠ ['\n'] ∧ NoBlankLine rest := by
  obtain ⟨whole, some⟩ := scanLineSplit found
  have start : str.rdropWhile (· = '\n') ≠ [] := fun none => by
    rw [(moreLines str).mpr none] at more
    exact nomatch more
  by_cases last : rest.rdropWhile (· = '\n') = []
  · refine ⟨?_, ?_⟩
    · rintro rfl
      refine start ?_
      have blank := List.rdropWhile_eq_nil_iff.mp last
      refine List.rdropWhile_eq_nil_iff.mpr fun c member => ?_
      rw [whole] at member
      rcases List.mem_cons.mp member with rfl | inside
      · rfl
      · exact blank c inside
    · rw [NoBlankLine, last, recordsNone rfl]
      simp
  · have cut : str.rdropWhile (· = '\n') = next ++ rest.rdropWhile (· = '\n') := by
      have goesOn : (rest.reverse.dropWhile (· = '\n')).isEmpty = false := by
        rw [List.isEmpty_eq_false_iff]
        simpa [List.rdropWhile] using last
      rw [whole, List.rdropWhile, List.reverse_append, List.dropWhile_append, goesOn,
        if_neg (by simp), List.reverse_append, List.reverse_reverse, List.rdropWhile]
    have same : GetNextLine (str.rdropWhile (· = '\n')) =
        Option.some (next, rest.rdropWhile (· = '\n')) := by
      rw [cut]
      exact scanLineAny found _
    rw [NoBlankLine, recordsSome same] at regular
    exact ⟨regular next List.mem_cons_self, fun line member =>
      regular line (List.mem_cons_of_mem _ member)⟩

theorem addLinesNone (line : Text) (more : HasMoreLines str = true) (none : GetNextLine str = none) :
    addLines line str = ([], str) := by
  rw [addLines, if_pos more]
  split
  · rfl
  · rename_i found
    cases none.symm.trans found

theorem addLinesSome {next rest : Text} (line : Text) (more : HasMoreLines str = true)
    (found : GetNextLine str = some (next, rest)) :
    addLines line str = (Trim next :: (addLines [] rest).1, (addLines [] rest).2) := by
  rw [addLines, if_pos more]
  split
  · rename_i none
    cases none.symm.trans found
  · rename_i also
    cases also.symm.trans found
    rfl

theorem addLinesRecords (line : Text) (regular : NoBlankLine str) : addLines line str =
    ((complete str).map Trim, if HasMoreLines str then (records str).2 else line) := by
  induction length : str.length using Nat.strong_induction_on generalizing str line with
  | _ n ih =>
    subst length
    cases more : HasMoreLines str with
    | false =>
      rw [addLines, if_neg (by simp [more]), (recordsBlank more).1]
      simp
    | true =>
      rw [if_pos rfl]
      cases found : GetNextLine str with
      | none => rw [addLinesNone line more found, complete, recordsNone found]; rfl
      | some pair =>
        obtain ⟨next, rest⟩ := pair
        obtain ⟨whole, some⟩ := scanLineSplit found
        obtain ⟨filled, regularRest⟩ := noBlankNext more regular found
        have shorter : rest.length < str.length := by
          rw [whole, List.length_append]
          exact Nat.lt_add_of_pos_left (List.length_pos_iff.mpr some)
        have left : (if HasMoreLines rest then (records rest).2 else []) = (records rest).2 := by
          cases again : HasMoreLines rest with
          | false => rw [(recordsBlank again).2]; rfl
          | true => rfl
        have one : complete str = next :: complete rest := by
          rw [complete, recordsSome found]
          simp [complete, filled]
        rw [addLinesSome line more found, ih _ shorter [] regularRest rfl, left, one,
          recordsSome found, List.map_cons]

theorem addChunkCsv (csv : format.csv_log_format = true) (left : GetNextLine line = none)
    (regular : Regular format line chunk) (skipFirst : Bool) :
    addChunk format skipFirst line chunk =
      ((complete (line ++ chunk)).map Trim, (records (line ++ chunk)).2, skipFirst) := by
  have synced : (if format.logHasTimestamp then resync (line ++ chunk) else line ++ chunk) =
      line ++ chunk := by
    split
    · rename_i stamp
      exact resyncSynced (regular.1 stamp)
    · rfl
  -- without more lines the text is blank, and nothing was left before it
  have last : (if HasMoreLines (line ++ chunk) then (records (line ++ chunk)).2 else line) =
      (records (line ++ chunk)).2 := by
    cases more : HasMoreLines (line ++ chunk) with
    | true => rfl
    | false =>
      rw [(recordsBlank more).2]
      cases line with
      | nil => rfl
      | cons c line =>
        have all : c = '\n' ∧ (∀ d ∈ line, d = '\n') ∧ ∀ d ∈ chunk, d = '\n' := by
          simpa [HasMoreLines] using more
        obtain ⟨rfl, -⟩ := all
        exact nomatch left
  unfold addChunk
  simp only [csv, if_true, synced, addLinesRecords line regular.2, last]

theorem addChunksRegular (csv : format.csv_log_format = true) (filled : ∀ c ∈ chunks, c ≠ [])
    (left : GetNextLine line = none) (skipFirst : Bool)
    (regular : Along (fun text => (records text).2) (Regular format) line chunks) :
    addChunks format skipFirst line (chunks.map some) =
      ((complete (line ++ chunks.flatten)).map Trim, chunks.flatten.length,
        some (records (line ++ chunks.flatten)).2) := by
  induction chunks generalizing line with
  | nil => simp [addChunks, complete, recordsNone left]
  | cons chunk chunks ih =>
    obtain ⟨here, later⟩ := regular
    have some := filled chunk List.mem_cons_self
    have rest := ih (fun c member => filled c (List.mem_cons_of_mem _ member))
      (restPartial (line ++ chunk)) later
    rw [List.map_cons, addChunksNext some, addChunkCsv csv left here]
    simp only [rest]
    rw [List.flatten_cons, ← List.append_assoc, completeAppend (line ++ chunk),
      recordsAppend (line ++ chunk), List.map_append, List.length_append]

def resumed (s : LogState) : Text := if s.read = 0 then [] else s.savedPartialLine

theorem addLogFileRegular (skipFirst : Bool) (maxServerLogSize : ℤ) {s : LogState}
    (csv : format.csv_log_format = true) (filled : ∀ c ∈ chunks, c ≠ [])
    (left : GetNextLine (resumed s) = none)
    (regular : Along (fun text => (records text).2) (Regular format) (resumed s) chunks) :
    addLogFile format skipFirst maxServerLogSize (chunks.map some) s =
      ((complete (resumed s ++ chunks.flatten)).map Trim,
        { savedPartialLine := (records (resumed s ++ chunks.flatten)).2
          read := s.read + chunks.flatten.length }) := by
  have line : (if format.csv_log_format && decide (s.savedPartialLine ≠ []) then
      if (format.csv_log_format && decide (s.savedPartialLine ≠ [])) && decide (s.read = 0) then []
      else s.savedPartialLine else []) = resumed s := by
    unfold resumed
    rw [csv]
    by_cases zero : s.read = 0
    · simp [zero]
    · by_cases none : s.savedPartialLine = []
      · simp [none]
      · simp [zero, none]
  unfold addLogFile
  simp only [line, addChunksRegular csv filled left _ regular]
  simp [csv]

theorem alongAppend {P : Text → Text → Prop} {more : List Text} (left : GetNextLine line = none)
    (both : Along (fun text => (records text).2) P line (chunks ++ more)) :
    Along (fun text => (records text).2) P line chunks ∧
      Along (fun text => (records text).2) P (records (line ++ chunks.flatten)).2 more := by
  induction chunks generalizing line with
  | nil =>
    rw [List.flatten_nil, List.append_nil, recordsNone left]
    exact ⟨trivial, both⟩
  | cons chunk chunks ih =>
    obtain ⟨here, later⟩ := both
    obtain ⟨first, second⟩ := ih (restPartial (line ++ chunk)) later
    rw [List.flatten_cons, ← List.append_assoc, recordsAppend (line ++ chunk)]
    exact ⟨⟨here, first⟩, second⟩

theorem addLogFilesRegular (skipFirst : Bool) (maxServerLogSize : ℤ) {calls : List (List Text)}
    {s : LogState} (csv : format.csv_log_format = true) (filled : ∀ c ∈ calls.flatten, c ≠ [])
    (left : GetNextLine (resumed s) = none)
    (regular : Along (fun text => (records text).2) (Regular format) (resumed s) calls.flatten) :
    (addLogFiles format skipFirst maxServerLogSize (calls.map (·.map some)) s).1 =
        (complete (resumed s ++ calls.flatten.flatten)).map Trim ∧
      resumed (addLogFiles format skipFirst maxServerLogSize (calls.map (·.map some)) s).2 =
        (records (resumed s ++ calls.flatten.flatten)).2 := by
  induction calls generalizing s with
  | nil => simp [addLogFiles, complete, recordsNone left]
  | cons chunks calls ih =>
    rw [List.flatten_cons] at filled regular
    obtain ⟨here, later⟩ := alongAppend left regular
    have first := addLogFileRegular skipFirst maxServerLogSize csv
      (fun c member => filled c (List.mem_append_left _ member)) left here
    let next : LogState :=
      { savedPartialLine := (records (resumed s ++ chunks.flatten)).2
        read := s.read + chunks.flatten.length }
    have same : resumed next = (records (resumed s ++ chunks.flatten)).2 := by
      unfold resumed
      split
      · rename_i zero
        obtain ⟨start, none⟩ : s.read = 0 ∧ chunks.flatten.length = 0 := by
          simpa only [next, Nat.add_eq_zero_iff] using zero
        rw [if_pos start, List.eq_nil_of_length_eq_zero none]
        exact congrArg Prod.snd (recordsNone rfl).symm
      · rfl
    obtain ⟨shown, saved⟩ := ih (s := next) (fun c member => filled c
      (List.mem_append_right _ member)) (same ▸ restPartial _) (same ▸ later)
    rw [same] at shown saved
    simp only [List.map_cons, addLogFiles, first]
    rw [List.flatten_cons, List.flatten_append, ← List.append_assoc,
      completeAppend (resumed s ++ chunks.flatten), recordsAppend (resumed s ++ chunks.flatten),
      List.map_append]
    exact ⟨congrArg _ shown, saved⟩

/-- A plain log is shown line by line, however it is cut, when no chunk that ends in a newline
completes a line left unfinished before it; when it is, no such chunk completes more than white
space. A CSV log is shown record by record over any number of calls, when each chunk starts with a
timestamp (or has nothing to synchronize with) and has no blank line but at its end. -/
theorem logShownOnce (filename : Text) (logHasTimestamp skipFirst : Bool) (maxServerLogSize : ℤ)
    (s : LogState) :
    ((formatOf filename logHasTimestamp).csv_log_format = false →
      skips skipFirst maxServerLogSize s.read = false → ∀ chunks : List Text,
      (∀ chunk ∈ chunks, chunk ≠ []) →
      let shown := (addLogFile (formatOf filename logHasTimestamp) skipFirst maxServerLogSize
        (chunks.map some) s).1
      (Along (unfinished '\n') Fresh [] chunks → shown = (strtok '\n' chunks.flatten).map Trim) ∧
        (shown = (strtok '\n' chunks.flatten).map Trim →
          Along (unfinished '\n') BlankAtMost [] chunks)) ∧
    ((formatOf filename logHasTimestamp).csv_log_format = true → s.read = 0 →
      ∀ calls : List (List Text), (∀ chunk ∈ calls.flatten, chunk ≠ []) →
      Along (fun text => (records text).2) (Regular (formatOf filename logHasTimestamp)) []
        calls.flatten →
      (addLogFiles (formatOf filename logHasTimestamp) skipFirst maxServerLogSize
        (calls.map (·.map some)) s).1 = (complete calls.flatten.flatten).map Trim) := by
  constructor
  · intro plain steady chunks filled
    exact ⟨addLogFileFresh plain steady filled, addLogFileShown plain steady filled⟩
  · intro csv start calls filled regular
    have none : resumed s = [] := by rw [resumed, if_pos start]
    have whole := addLogFilesRegular skipFirst maxServerLogSize csv filled (none ▸ rfl) (none ▸ regular)
    rw [none, List.nil_append] at whole
    exact whole.1

theorem logShownOnceTwo :
    (addLogFile (formatOf "a.log".toList true) true 100000 [some "a\n".toList, some "b".toList]
      ⟨[], 0⟩).1 = ["a".toList, "b".toList] ∧
    (addLogFiles (formatOf "a.csv".toList true) true 100000 [[some "2019,".toList],
      [some "b\n".toList]] ⟨[], 0⟩).1 = ["2019,b".toList] := by
  constructor
  · have plain := (logShownOnce "a.log".toList true true 100000 ⟨[], 0⟩).1 (by decide) (by decide)
      ["a\n".toList, "b".toList] (by decide)
    exact plain.1 ⟨fun _ => rfl, fun ends => absurd ends (by decide), trivial⟩
  · have none : GetNextLine "2019,".toList = Option.none := rfl
    have one : GetNextLine "2019,b\n".toList = some ("2019,b\n".toList, []) := rfl
    have first : NoBlankLine "2019,".toList := by
      rw [NoBlankLine, show "2019,".toList.rdropWhile (· = '\n') = "2019,".toList from rfl,
        recordsNone none]
      simp
    have second : NoBlankLine "2019,b\n".toList := by
      rw [NoBlankLine, show "2019,b\n".toList.rdropWhile (· = '\n') = "2019,b".toList from rfl,
        recordsNone rfl]
      simp
    have next : Regular (formatOf "a.csv".toList true) (records ([] ++ "2019,".toList)).2
        "b\n".toList := by
      rw [List.nil_append, recordsNone none]
      exact ⟨fun _ => .inr (.inl rfl), second⟩
    have csv := (logShownOnce "a.csv".toList true true 100000 ⟨[], 0⟩).2 (by decide) rfl
      [["2019,".toList], ["b\n".toList]] (by decide)
      ⟨⟨fun _ => .inr (.inl rfl), first⟩, next, trivial⟩
    have shown : (complete "2019,b\n".toList).map Trim = ["2019,b".toList] := by
      rw [complete, recordsSome one, recordsNone rfl]
      rfl
    exact csv.trans shown

/- The line is completed by a newline that ends its chunk: it is shown twice. -/
theorem completedShownTwice : ¬ ∀ chunks : List Text, (∀ chunk ∈ chunks, chunk ≠ []) →
    (addLogFile (formatOf "a.log".toList true) true 100000 (chunks.map some) ⟨[], 0⟩).1 =
      (strtok '\n' chunks.flatten).map Trim := by
  intro once
  exact absurd (once [['a'], ['\n']] (by decide)) (by decide)

end PgAdmin.frmStatus
