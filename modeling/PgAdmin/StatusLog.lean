import PgAdmin.PgsObjects
import PgAdmin.Tokenizer
import PgAdmin.WxString

/-! CSVLineTokenizer: the lines of a CSV file end in a newline that is not between quotes. However
many letters are added to a text, the lines it already has stay the same, so a file that is read
piece by piece has the same lines when what is left of a piece is put before the next one. -/
namespace PgAdmin.CSVLineTokenizer
open PgsObjects (Text)

variable {inquote : Bool} {s t line rest : Text}

/- `if (m_string[pos] == wxT('\"')) inquote = !inquote;` -/
def quoteAt (c : Char) (inquote : Bool) : Bool := if c = '"' then !inquote else inquote

/- The loop of GetNextLine: the line with its newline, and the text after it. -/
def scanLine : Bool → Text → Option (Text × Text)
  | _, [] => none
  | inquote, c :: s =>
    if c = '\n' ∧ quoteAt c inquote = false then some ([c], s)
    else (scanLine (quoteAt c inquote) s).map fun (line, rest) => (c :: line, rest)

def GetNextLine (s : Text) : Option (Text × Text) := scanLine false s

def HasMoreLines (s : Text) : Bool := s.any (· ≠ '\n')

theorem scanLineSplit (found : scanLine inquote s = some (line, rest)) :
    s = line ++ rest ∧ line ≠ [] := by
  induction s generalizing inquote line with
  | nil => exact nomatch found
  | cons c s ih =>
    simp only [scanLine] at found
    split at found
    · cases found
      exact ⟨rfl, List.cons_ne_nil _ _⟩
    · obtain ⟨⟨front, after⟩, inner, same⟩ := Option.map_eq_some_iff.mp found
      cases same
      obtain ⟨whole, -⟩ := ih inner
      exact ⟨by rw [whole]; rfl, List.cons_ne_nil _ _⟩

theorem scanLineAny (found : scanLine inquote s = some (line, rest)) (other : Text) :
    scanLine inquote (line ++ other) = some (line, other) := by
  induction s generalizing inquote line with
  | nil => exact nomatch found
  | cons c s ih =>
    simp only [scanLine] at found
    split at found
    · rename_i ends
      cases found
      simp only [List.cons_append, List.nil_append, scanLine, if_pos ends]
    · rename_i goesOn
      obtain ⟨⟨front, after⟩, inner, same⟩ := Option.map_eq_some_iff.mp found
      cases same
      simp only [List.cons_append, scanLine, if_neg goesOn, ih inner, Option.map_some]

theorem scanLineAppend (found : scanLine inquote s = some (line, rest)) (t : Text) :
    scanLine inquote (s ++ t) = some (line, rest ++ t) := by
  obtain ⟨rfl, -⟩ := scanLineSplit found
  rw [List.append_assoc]
  exact scanLineAny found (rest ++ t)

def records (s : Text) : List Text × Text :=
  match _found : GetNextLine s with
  | none => ([], s)
  | some (line, rest) => (line :: (records rest).1, (records rest).2)
termination_by s.length
decreasing_by
  all_goals
    obtain ⟨rfl, some⟩ := scanLineSplit _found
    rw [List.length_append]
    exact Nat.lt_add_of_pos_left (List.length_pos_iff.mpr some)

def complete (s : Text) : List Text := (records s).1.filter (· ≠ ['\n'])

theorem recordsNone (none : GetNextLine s = none) : records s = ([], s) := by
  rw [records]
  split
  · rfl
  · rename_i found
    exact nomatch none.symm.trans found

theorem recordsSome (found : GetNextLine s = some (line, rest)) :
    records s = (line :: (records rest).1, (records rest).2) := by
  rw [records]
  split
  · rename_i none
    exact nomatch none.symm.trans found
  · rename_i also
    cases also.symm.trans found
    rfl

theorem recordsAppend (s t : Text) : records (s ++ t) =
    ((records s).1 ++ (records ((records s).2 ++ t)).1, (records ((records s).2 ++ t)).2) := by
  fun_induction records s with
  | case1 s none => rw [List.nil_append]
  | case2 s line rest found ih =>
    have more : GetNextLine (s ++ t) = some (line, rest ++ t) := scanLineAppend found t
    rw [recordsSome more, ih]
    rfl

theorem completeAppend (s t : Text) :
    complete (s ++ t) = complete s ++ complete ((records s).2 ++ t) := by
  rw [complete, recordsAppend, List.filter_append]
  rfl

theorem restPartial (s : Text) : GetNextLine (records s).2 = none := by
  fun_induction records s with
  | case1 s none => exact none
  | case2 s line rest found ih => exact ih

end PgAdmin.CSVLineTokenizer

/-! frmStatus::addLogFile: a log file is read in chunks, and the lines they complete are shown. What
is left of a chunk is put before the next one. -/
namespace PgAdmin.frmStatus
open PgsObjects (Text)
open Tokenizer CSVLineTokenizer wxString

/- In CSV logs, the first field must be a timestamp. -/
def startsWithTimestamp (str : Text) : Bool :=
  str.take 4 = "2009".toList || str.take 3 = "201".toList || str.take 3 = "202".toList

/- `str = str.Mid(str.Find(wxT("\n20")) + 1)` -/
def resync (str : Text) : Text :=
  if 4 < str.length ∧ startsWithTimestamp str = false then
    str.drop (Find str "\n20".toList + 1).toNat
  else str

/- The loop over the tokens of a chunk: the lines that are shown, and `line`. -/
def addTokens (hasCr : Bool) : Text → List Text → List Text × Text
  | line, [] => ([], line)
  | line, str :: tk =>
    if tk ≠ [] ∨ hasCr then
      let (shown, line) := addTokens hasCr line tk
      (Trim str :: shown, line)
    else addTokens hasCr str tk

def addLines (line str : Text) : List Text × Text :=
  if HasMoreLines str then
    match _found : GetNextLine str with
    | none => ([], str)
    | some (next, rest) =>
      let (shown, line) := addLines [] rest
      (Trim next :: shown, line)
  else ([], line)
termination_by str.length
decreasing_by
  obtain ⟨rfl, some⟩ := scanLineSplit _found
  rw [List.length_append]
  exact Nat.lt_add_of_pos_left (List.length_pos_iff.mpr some)

structure LogFormat where
  csv_log_format : Bool
  logHasTimestamp : Bool

/- What one chunk makes of `line` and skipFirst, and the lines it has shown. -/
def addChunk (format : LogFormat) (skipFirst : Bool) (line chunk : Text) :
    List Text × Text × Bool :=
  let str := line ++ chunk
  if format.csv_log_format then
    let str := if format.logHasTimestamp then resync str else str
    let (shown, line) := addLines line str
    (shown, line, skipFirst)
  else
    let hasCr : Bool := str.getLast? = some '\n'
    let tk := strtok '\n' str
    let (shown, line) := addTokens hasCr line (if skipFirst then tk.drop 1 else tk)
    (shown, line, skipFirst && tk.isEmpty)

/- The loop over the replies of pg_file_read, none being an error: the lines shown, how much was
read, and `line`, which is lost with an error. -/
def addChunks (format : LogFormat) : Bool → Text → List (Option Text) → List Text × ℕ × Option Text
  | _, line, [] => ([], 0, some line)
  | _, _, none :: _ => ([], 0, none)
  | skipFirst, line, some chunk :: replies =>
    if chunk = [] then ([], 0, some line)
    else
      let (shown, line, skipFirst) := addChunk format skipFirst line chunk
      let (more, read, line) := addChunks format skipFirst line replies
      (shown ++ more, chunk.length + read, line)

structure LogState where
  savedPartialLine : Text
  read : ℕ

def skips (skipFirst : Bool) (maxServerLogSize : ℤ) (read : ℕ) : Bool :=
  skipFirst && (read = 0 && maxServerLogSize ≠ 0 && (read : ℤ) > maxServerLogSize)

def formatOf (filename : Text) (logHasTimestamp : Bool) : LogFormat where
  csv_log_format := Right filename 4 = ".csv".toList
  logHasTimestamp := logHasTimestamp

/- The lines passed to addLogLine, and the state that is left. -/
def addLogFile (format : LogFormat) (skipFirst : Bool) (maxServerLogSize : ℤ)
    (replies : List (Option Text)) (s : LogState) : List Text × LogState :=
  let resumes := format.csv_log_format && s.savedPartialLine ≠ []
  let saved := if resumes && s.read = 0 then [] else s.savedPartialLine
  let (shown, read, last) := addChunks format (skips skipFirst maxServerLogSize s.read)
    (if resumes then saved else []) replies
  match last with
  | none => (shown, { savedPartialLine := saved, read := s.read + read })
  | some line =>
    let shown := if line ≠ [] ∧ format.csv_log_format = false then shown ++ [Trim line] else shown
    let saved := if format.csv_log_format then line else []
    (shown, { savedPartialLine := saved, read := s.read + read })

def addLogFiles (format : LogFormat) (skipFirst : Bool) (maxServerLogSize : ℤ) :
    List (List (Option Text)) → LogState → List Text × LogState
  | [], s => ([], s)
  | replies :: calls, s =>
    let (shown, s) := addLogFile format skipFirst maxServerLogSize replies s
    let (more, s) := addLogFiles format skipFirst maxServerLogSize calls s
    (shown ++ more, s)

end PgAdmin.frmStatus
