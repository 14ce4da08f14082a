import PgAdmin.SqlLiteral
import PgAdmin.SqlTableEdits

/-! The cells of the data grid as a code of the values of a column. GetValue shows a null as the
empty text, the empty string as two quotes, and two quotes as `\'\'`; Quote takes that back. Since
`\'\'` itself is shown as it is, it is the one string that is not told apart. -/
namespace PgAdmin.frmEditGrid
open PgsObjects (Text)
open SqlLiteral (Server qtDbString readQtDbString)

variable {nCols : ℕ}

def twoQuotes : Text := "''".toList

def escapedQuotes : Text := "\\'\\'".toList

namespace sqlCellAttr

def Quote (c : sqlCellAttr) (server : Server) (value : Text) : Text :=
  let cast := "::".toList ++ c.displayTypeName
  if value.isEmpty then "NULL".toList ++ cast
  else if c.numeric then qtDbString server value ++ cast
  else if value = escapedQuotes then qtDbString server twoQuotes ++ cast
  else if value = twoQuotes then twoQuotes ++ cast
  else if c.isBool then value ++ cast
  else if c.isBit then "B'".toList ++ value ++ "'".toList
  else qtDbString server value ++ cast

/- The value of an expression of the column's type: NULL, or a string literal, with the cast. -/
def denoted (c : sqlCellAttr) (server : Server) (expression : Text) : Option (Option Text) :=
  let cast := "::".toList ++ c.displayTypeName
  if expression = "NULL".toList ++ cast then some none
  else match SqlLiteral.read server expression with
    | some (value, rest) => if rest = cast then some (some value) else none
    | none => none

/- A column whose values are the strings that the database sends for them. -/
structure IsText (c : sqlCellAttr) : Prop where
  numeric : c.numeric = false
  isBool : c.isBool = false
  isBit : c.isBit = false
  isBytea : c.isBytea = false

variable {c : sqlCellAttr} (server : Server)

theorem denotedNull (c : sqlCellAttr) : c.denoted server (c.Quote server []) = some none := by
  simp [denoted, Quote]

theorem denotedString (c : sqlCellAttr) (value : Text) :
    c.denoted server (qtDbString server value ++ ("::".toList ++ c.displayTypeName)) =
      some (some value) := by
  have notNull : qtDbString server value ++ ("::".toList ++ c.displayTypeName) ≠
      "NULL".toList ++ ("::".toList ++ c.displayTypeName) := by
    intro same
    simp only [qtDbString] at same
    split at same <;> simp at same
  have closes : ("::".toList ++ c.displayTypeName).head? ≠ some '\'' := by simp
  simp only [denoted, if_neg notNull, readQtDbString server value closes, if_true]

theorem denotedQuote (text : c.IsText) (shown : Text) : c.denoted server (c.Quote server shown) =
    some (if shown = [] then none
      else if shown = escapedQuotes then some twoQuotes
      else if shown = twoQuotes then some []
      else some shown) := by
  by_cases empty : shown = []
  · subst empty
    exact denotedNull server c
  have filled : shown.isEmpty = false := by simpa using empty
  simp only [Quote, filled, text.numeric, text.isBool, text.isBit, if_neg empty,
    Bool.false_eq_true, if_false]
  by_cases escaped : shown = escapedQuotes
  · simp only [if_pos escaped]
    exact denotedString server c twoQuotes
  by_cases quotes : shown = twoQuotes
  · simp only [if_neg escaped, if_pos quotes]
    have emptyString : twoQuotes = qtDbString server [] := by
      simp [qtDbString, twoQuotes]
    rw [emptyString]
    exact denotedString server c []
  · simp only [if_neg escaped, if_neg quotes]
    exact denotedString server c shown

/- What GetValue shows for a value of the result. -/
def encoded (value : Option Text) : Text :=
  match value with
  | none => []
  | some [] => twoQuotes
  | some value => if value = twoQuotes then escapedQuotes else value

theorem denotedEncoded (text : c.IsText) (value : Option Text) :
    c.denoted server (c.Quote server (encoded value)) = some value ↔
      value ≠ some escapedQuotes := by
  rw [denotedQuote server text, Option.some.injEq]
  match value with
  | none => simp [encoded]
  | some [] => simp [encoded, twoQuotes, escapedQuotes]
  | some (a :: value) =>
    by_cases quotes : a :: value = twoQuotes
    · simp [encoded, quotes, twoQuotes, escapedQuotes]
    · by_cases escaped : a :: value = escapedQuotes
      · simp [encoded, escaped, twoQuotes, escapedQuotes]
      · simp [encoded, quotes, escaped]

end sqlCellAttr

namespace Opened

variable {t : Opened nCols} {col : Fin nCols}

theorem fetchedText (text : (t.columns col).IsText) (line : ℕ) :
    t.display col (t.fetched line col) = sqlCellAttr.encoded (t.dataSet line col) := by
  simp only [display, fetched, readCell, text.isBool, text.isBytea, Bool.false_eq_true, false_and, if_false]
  rfl

end Opened

namespace sqlTable

variable {t : Opened nCols} {s : sqlTable nCols} {row : ℕ} {line : cacheLine nCols}

theorem getLineFound (present : s.line? t row = some line) :
    s.GetLine t row = some (line, s) := by
  rw [line?] at present
  rw [GetLine]
  split at present
  · rename_i fetched
    rw [if_pos fetched, cacheLinePool.getFound present]
    rfl
  · rename_i added
    rw [if_neg added, cacheLinePool.getFound present]
    rfl

theorem getValueOpened (inside : row < t.nRows) (col : Fin nCols) :
    ∃ next, (create t).GetValue t row col = some (t.display col (t.fetched row col), next) := by
  have fetched : row < (create t).fetchedRows t := inside
  have slot : (create t).dataPool.Get row =
      some (.blank, ⟨(create t).dataPool.ptr.set row (.line .blank)⟩) := by
    have null : (List.replicate t.nRows (Slot.null : Slot nCols))[row]? = some .null := by
      simp [inside]
    have within : row < (create t).dataPool.anzLines := by
      rwa [show (create t).dataPool.anzLines = t.nRows from cacheLinePool.createLength _]
    have empty : (create t).dataPool.ptr[row]? = some .null := null
    simp only [cacheLinePool.Get, cacheLinePool.grow, if_pos within, empty]
  let made : sqlTable nCols :=
    { create t with dataPool := ⟨(create t).dataPool.ptr.set row (.line .blank)⟩ }
  have got : (create t).GetLine t row = some (.blank, made) := by
    rw [GetLine, if_pos fetched]
    exact congrArg (Option.map _) slot
  have ready := getLineReady (createReady t) got
  have here := (getLineSpec (createReady t).mapped got).1
  obtain ⟨-, -, holds⟩ := loadReady ready here rfl fetched
  have again := getLineFound holds.1
  have none : (cacheLine.blank : cacheLine nCols).cols = none := rfl
  have fetchedMade : row < made.fetchedRows t := fetched
  have openThread : made.thread = true := rfl
  simp only [GetValue, got, Option.bind_eq_bind, Option.bind_some, none, if_pos fetchedMade,
    openThread, if_true, showCell, again]
  exact ⟨_, rfl⟩

/-- A text column's cell, stored back unmodified, denotes the value it was read from if and only if
that is not the text that stands for two quotes. -/
theorem cellStoredBack (server : Server) (t : Opened nCols) (row : ℕ) (inside : row < t.nRows)
    (col : Fin nCols) (text : (t.columns col).IsText) :
    ∃ shown next, (create t).GetValue t row col = some (shown, next) ∧
      ((t.columns col).denoted server ((t.columns col).Quote server shown) =
        some (t.dataSet row col) ↔ t.dataSet row col ≠ some escapedQuotes) := by
  obtain ⟨next, shows⟩ := getValueOpened inside col
  refine ⟨_, next, shows, ?_⟩
  rw [Opened.fetchedText text]
  exact sqlCellAttr.denotedEncoded server text _

def oneText (value : Text) : Opened 1 where
  hasOids := false
  columns _ := {
    name := "note".toList
    typeName := "text".toList
    displayTypeName := "text".toList
    isReadOnly := false
    numeric := false
    isBool := false
    isBit := false
    isBytea := false }
  primaryKey := []
  nRows := 1
  dataSet _ _ := some value

def server81 : Server := ⟨true, true, fun _ => rfl⟩

theorem cellStoredBackQuotes : ∃ shown next,
    (create (oneText twoQuotes)).GetValue (oneText twoQuotes) 0 0 = some (shown, next) ∧
      (((oneText twoQuotes).columns 0).denoted server81
          (((oneText twoQuotes).columns 0).Quote server81 shown) = some (some twoQuotes) ↔
        some twoQuotes ≠ some escapedQuotes) :=
  cellStoredBack server81 (oneText twoQuotes) 0 (by decide) 0 ⟨rfl, rfl, rfl, rfl⟩

/- The text that stands for two quotes comes back as two quotes. -/
theorem escapedQuotesChanged : ∃ shown next,
    (create (oneText escapedQuotes)).GetValue (oneText escapedQuotes) 0 0 = some (shown, next) ∧
      ((oneText escapedQuotes).columns 0).denoted server81
        (((oneText escapedQuotes).columns 0).Quote server81 shown) ≠ some (some escapedQuotes) :=
  ⟨_, _, rfl, by decide⟩

end sqlTable

end PgAdmin.frmEditGrid
