import PgAdmin.StatusLog

/-! A plain log, cut into chunks. A chunk that ends in a newline leaves `line` as it was, so a line
that was left unfinished and is completed by such a chunk is shown, put before the next chunk and
shown again. -/
namespace PgAdmin.frmStatus
open PgsObjects (Text)
open Tokenizer CSVLineTokenizer wxString

variable {format : LogFormat} {line chunk carried : Text} {chunks : List Text}

/- Each chunk is such as P says of it and of what the text before it has left. -/
def Along (left : Text → Text) (P : Text → Text → Prop) : Text → List Text → Prop
  | _, [] => True
  | carried, chunk :: chunks => P carried chunk ∧ Along left P (left (carried ++ chunk)) chunks

/- A chunk that ends in a newline does not complete a line: none was left unfinished. -/
def Fresh (carried chunk : Text) : Prop := chunk.getLast? = some '\n' → carried = []

def isBlank (line : Text) : Prop := ∀ c ∈ line, isSpace c

def BlankAtMost (carried chunk : Text) : Prop := chunk.getLast? = some '\n' → isBlank carried

theorem addTokensAll (line : Text) (tk : List Text) : addTokens true line tk = (tk.map Trim, line) := by
  induction tk with
  | nil => rfl
  | cons str tk ih => rw [addTokens, if_pos (.inr rfl), ih]; rfl

theorem addTokensLast (line : Text) (front : List Text) (last : Text) :
    addTokens false line (front ++ [last]) = (front.map Trim, last) := by
  induction front generalizing line with
  | nil => simp [addTokens]
  | cons str front ih => rw [List.cons_append, addTokens, if_pos (.inl (by simp)), ih]; rfl

theorem addChunkPlain (plain : format.csv_log_format = false) (filled : chunk ≠ []) :
    addChunk format false line chunk =
      if chunk.getLast? = some '\n' then ((strtok '\n' (line ++ chunk)).map Trim, line, false)
      else ((finished '\n' (line ++ chunk)).map Trim, unfinished '\n' (line ++ chunk), false) := by
  have last : (line ++ chunk).getLast? = chunk.getLast? := List.getLast?_append_of_ne_nil _ filled
  unfold addChunk
  simp only [plain, Bool.false_eq_true, if_false, last, Bool.false_and]
  by_cases ends : chunk.getLast? = some '\n'
  · simp only [ends, decide_true, addTokensAll, if_true]
  · have goesOn : unfinished '\n' (line ++ chunk) ≠ [] := by
      rw [Ne, unfinishedNone, last]
      simp [filled, ends]
    rw [strtokFinished, if_neg goesOn, if_neg ends]
    simp only [ends, decide_false, addTokensLast]

theorem addChunksNext {replies : List (Option Text)} {skipFirst : Bool} (filled : chunk ≠ []) :
    addChunks format skipFirst line (some chunk :: replies) =
      ((addChunk format skipFirst line chunk).1 ++ (addChunks format
        (addChunk format skipFirst line chunk).2.2 (addChunk format skipFirst line chunk).2.1
          replies).1,
        chunk.length + (addChunks format (addChunk format skipFirst line chunk).2.2
          (addChunk format skipFirst line chunk).2.1 replies).2.1,
        (addChunks format (addChunk format skipFirst line chunk).2.2
          (addChunk format skipFirst line chunk).2.1 replies).2.2) := by
  rw [addChunks, if_neg filled]

theorem addChunksFresh (plain : format.csv_log_format = false) (filled : ∀ c ∈ chunks, c ≠ [])
    (free : '\n' ∉ line) (fresh : Along (unfinished '\n') Fresh line chunks) :
    ∃ read, addChunks format false line (chunks.map some) =
      ((finished '\n' (line ++ chunks.flatten)).map Trim, read,
        some (unfinished '\n' (line ++ chunks.flatten))) := by
  induction chunks generalizing line with
  | nil =>
    refine ⟨0, ?_⟩
    simp [addChunks, unfinishedSelf free, finishedSelf free]
  | cons chunk chunks ih =>
    obtain ⟨here, later⟩ := fresh
    have some := filled chunk List.mem_cons_self
    obtain ⟨read, rest⟩ := ih (fun c member => filled c (List.mem_cons_of_mem _ member))
      (unfinishedFree '\n' (line ++ chunk)) later
    have next : addChunk format false line chunk =
        ((finished '\n' (line ++ chunk)).map Trim, unfinished '\n' (line ++ chunk), false) := by
      rw [addChunkPlain plain some]
      split
      · rename_i ends
        have none : unfinished '\n' chunk = [] := unfinishedNone.mpr (.inr ends)
        rw [here ends, List.nil_append, strtokFinished, none]
        simp
      · rfl
    refine ⟨chunk.length + read, ?_⟩
    rw [List.map_cons, addChunksNext some, next]
    simp only [rest]
    rw [List.flatten_cons, ← List.append_assoc, finishedAppend '\n' (line ++ chunk),
      unfinishedAppend '\n' (line ++ chunk), List.map_append]

section Ink

def ink (s : Text) : ℕ := s.countP (!isSpace ·)

theorem inkAppend (s t : Text) : ink (s ++ t) = ink s + ink t := List.countP_append

theorem inkNone {s : Text} : ink s = 0 ↔ isBlank s := by
  simp [ink, isBlank, List.countP_eq_zero]

theorem inkTrim (s : Text) : ink (Trim s) = ink s := by
  have whole := List.rdropWhile_append_rtakeWhile (p := isSpace) (l := s)
  have none : ink (s.rtakeWhile isSpace) = 0 := inkNone.mpr fun c => List.mem_rtakeWhile_imp
  have both := inkAppend (s.rdropWhile isSpace) (s.rtakeWhile isSpace)
  rw [whole, none] at both
  exact both.symm

theorem inkShown (shown : List Text) : ink (shown.map Trim).flatten = ink shown.flatten := by
  induction shown with
  | nil => rfl
  | cons s shown ih =>
    rw [List.map_cons, List.flatten_cons, List.flatten_cons, inkAppend, inkAppend, inkTrim, ih]

theorem inkPieces (s : Text) : ink (s.splitOn '\n').flatten = ink s := by
  induction s with
  | nil => rfl
  | cons c s ih =>
    rw [List.splitOn_cons_eq_if_modifyHead]
    obtain ⟨first, rest, whole⟩ := List.exists_cons_of_ne_nil (List.splitOn_ne_nil '\n' s)
    rw [whole] at ih ⊢
    by_cases newline : c = '\n'
    · subst newline
      rw [if_pos (by simp), List.flatten_cons, List.nil_append, ih]
      rfl
    · rw [if_neg (by simpa using newline), List.modifyHead_cons, List.flatten_cons,
        List.cons_append, ← List.flatten_cons]
      exact (inkAppend [c] _).trans ((congrArg _ ih).trans (inkAppend [c] s).symm)

theorem inkFinished (s : Text) :
    ink (finished '\n' s).flatten + ink (unfinished '\n' s) = ink s := by
  have whole := inkPieces s
  rw [unfinishedLast, List.flatten_append, inkAppend] at whole
  rw [finished, List.flatten_filter_not_isEmpty]
  simpa using whole

theorem inkStrtok (s : Text) : ink (strtok '\n' s).flatten = ink s := by
  rw [strtok, List.flatten_filter_not_isEmpty, inkPieces]

end Ink

theorem unfinishedSuffix {s t : Text} (free : '\n' ∉ t) (suffix : s <:+ t) (chunk : Text) :
    unfinished '\n' (s ++ chunk) <:+ unfinished '\n' (t ++ chunk) := by
  obtain ⟨front, rfl⟩ := suffix
  rcases lastDelimiter '\n' chunk with none | ⟨before, whole, -⟩
  · have one : '\n' ∉ s ++ chunk := by grind
    have both : '\n' ∉ front ++ s ++ chunk := by grind
    rw [unfinishedSelf one, unfinishedSelf both]
    exact ⟨front, (List.append_assoc ..).symm⟩
  · have same : ∀ t : Text, unfinished '\n' (t ++ chunk) = unfinished '\n' chunk := by
      intro t
      conv_lhs => rw [whole]
      rw [← List.append_assoc, unfinishedAfter (unfinishedFree '\n' chunk)]
    rw [same, same]

theorem addChunksInk (plain : format.csv_log_format = false) (filled : ∀ c ∈ chunks, c ≠ [])
    (free : '\n' ∉ line) (suffix : carried <:+ line) : ∃ shown read last,
      addChunks format false line (chunks.map some) = (shown, read, some last) ∧
      ink line + ink chunks.flatten ≤ ink shown.flatten + ink last ∧
      (ink line + ink chunks.flatten = ink shown.flatten + ink last →
        Along (unfinished '\n') BlankAtMost carried chunks) := by
  induction chunks generalizing line carried with
  | nil =>
    refine ⟨[], 0, line, rfl, ?_, fun _ => trivial⟩
    simp [ink]
  | cons chunk chunks ih =>
    have some := filled chunk List.mem_cons_self
    have filledRest : ∀ c ∈ chunks, c ≠ [] := fun c member => filled c (List.mem_cons_of_mem _ member)
    have next := @addChunkPlain format line chunk plain some
    by_cases ends : chunk.getLast? = Option.some '\n'
    · have none : unfinished '\n' (carried ++ chunk) = [] := by
        refine unfinishedNone.mpr (.inr ?_)
        rw [List.getLast?_append_of_ne_nil _ some, ends]
      obtain ⟨shown, read, last, rest, least, exact⟩ := ih filledRest free (List.nil_suffix)
      rw [if_pos ends] at next
      have here : ink ((strtok '\n' (line ++ chunk)).map Trim).flatten = ink line + ink chunk := by
        rw [inkShown, inkStrtok, inkAppend]
      refine ⟨(strtok '\n' (line ++ chunk)).map Trim ++ shown, chunk.length + read, last, ?_, ?_, ?_⟩
      · rw [List.map_cons, addChunksNext some, next]
        simp only [rest]
      · rw [List.flatten_cons, List.flatten_append, inkAppend, inkAppend, here]
        omega
      · intro same
        rw [List.flatten_cons, List.flatten_append, inkAppend, inkAppend, here] at same
        refine ⟨fun _ => ?_, none ▸ exact (by omega)⟩
        have blank : isBlank line := inkNone.mp (by omega)
        exact fun c member => blank c (suffix.subset member)
    · have suffixRest := unfinishedSuffix free suffix chunk
      obtain ⟨shown, read, last, rest, least, exact⟩ :=
        ih filledRest (unfinishedFree '\n' (line ++ chunk)) suffixRest
      rw [if_neg ends] at next
      have here : ink ((finished '\n' (line ++ chunk)).map Trim).flatten +
          ink (unfinished '\n' (line ++ chunk)) = ink line + ink chunk := by
        rw [inkShown, inkFinished, inkAppend]
      refine ⟨(finished '\n' (line ++ chunk)).map Trim ++ shown, chunk.length + read, last, ?_, ?_, ?_⟩
      · rw [List.map_cons, addChunksNext some, next]
        simp only [rest]
      · rw [List.flatten_cons, List.flatten_append, inkAppend, inkAppend]
        omega
      · intro same
        rw [List.flatten_cons, List.flatten_append, inkAppend, inkAppend] at same
        exact ⟨fun last => absurd last ends, exact (by omega)⟩

theorem addLogFileFresh {skipFirst : Bool} {maxServerLogSize : ℤ} {s : LogState}
    (plain : format.csv_log_format = false)
    (steady : skips skipFirst maxServerLogSize s.read = false) (filled : ∀ c ∈ chunks, c ≠ [])
    (fresh : Along (unfinished '\n') Fresh [] chunks) :
    (addLogFile format skipFirst maxServerLogSize (chunks.map some) s).1 =
      (strtok '\n' chunks.flatten).map Trim := by
  obtain ⟨read, all⟩ := addChunksFresh plain filled (List.not_mem_nil) fresh
  rw [List.nil_append] at all
  simp only [addLogFile, plain, Bool.false_and, Bool.false_eq_true, if_false, steady, all,
    and_true, strtokFinished]
  by_cases none : unfinished '\n' chunks.flatten = []
  · simp [none]
  · simp [none]

theorem addLogFileShown {skipFirst : Bool} {maxServerLogSize : ℤ} {s : LogState}
    (plain : format.csv_log_format = false)
    (steady : skips skipFirst maxServerLogSize s.read = false) (filled : ∀ c ∈ chunks, c ≠ [])
    (same : (addLogFile format skipFirst maxServerLogSize (chunks.map some) s).1 =
      (strtok '\n' chunks.flatten).map Trim) : Along (unfinished '\n') BlankAtMost [] chunks := by
  obtain ⟨shown, read, last, all, least, exact⟩ :=
    addChunksInk plain filled List.not_mem_nil (List.nil_suffix (l := []))
  simp only [addLogFile, plain, Bool.false_and, Bool.false_eq_true, if_false, steady, all,
    and_true] at same
  have total := congrArg (fun shown : List Text => ink shown.flatten) same
  simp only [inkShown, inkStrtok] at total
  refine exact ?_
  rw [show ink [] = 0 from rfl, Nat.zero_add, ← total]
  by_cases none : last = []
  · simp [none, ink]
  · rw [if_pos none, List.flatten_append, inkAppend]
    simp [inkTrim]

end PgAdmin.frmStatus
