import PgAdmin.CsvDecoding
import PgAdmin.Substitution
import PgAdmin.WxString

/-! frmExport::Export, from a result set at its position or from the grid. A text is put between
quotes in the mode that quotes all, and in the mode that quotes strings unless its column is numeric
or boolean; a name is between quotes in both modes. The grid gives its texts one column on, for its
own first column is the number of the row, which it has not got when it shows a single result. -/
namespace PgAdmin.frmExport
open PgsObjects (Text)
open wxString Substitution

inductive pgTypClass where
  | PGTYPCLASS_NUMERIC
  | PGTYPCLASS_BOOL
  | PGTYPCLASS_STRING
  | PGTYPCLASS_DATE
  | PGTYPCLASS_OTHER
  deriving DecidableEq, Repr

structure Column where
  name : Text
  typClass : pgTypClass
  deriving DecidableEq, Repr

structure pgSet where
  columns : List Column
  rows : List (List Text)
  pos : ℕ
  widths : ∀ row ∈ rows, row.length = columns.length

namespace pgSet

def NumRows (set : pgSet) : ℕ := set.rows.length

def NumCols (set : pgSet) : ℕ := set.columns.length

def MoveNext (set : pgSet) : pgSet :=
  if set.pos ≤ set.NumRows then { set with pos := set.pos + 1 } else set

def MoveFirst (set : pgSet) : pgSet := { set with pos := if set.NumRows = 0 then 0 else 1 }

def Locate (set : pgSet) (l : ℕ) : pgSet := { set with pos := l }

def ColName (set : pgSet) (col : ℕ) : Text := (set.columns.map Column.name).getD col []

def ColTypClass (set : pgSet) (col : ℕ) : Option pgTypClass := set.columns[col]?.map Column.typClass

def GetVal (set : pgSet) (col : ℕ) : Text :=
  if set.pos = 0 then [] else (set.rows.getD (set.pos - 1) []).getD col []

end pgSet

structure ctlSQLResult where
  dataSet : pgSet
  rowcountSuppressed : Bool
  colTypClasses : List (Option pgTypClass)

namespace ctlSQLResult

def DisplayData (dataSet : pgSet) (single : Bool) : ctlSQLResult where
  dataSet := dataSet
  rowcountSuppressed := single
  colTypClasses := if single then [none] else dataSet.columns.map fun column => some column.typClass

def OnGetItemText (grid : ctlSQLResult) (item : Option ℕ) (col : ℕ) : Text :=
  let value := fun col => match item with
    | some item => (grid.dataSet.Locate (item + 1)).GetVal col
    | none => grid.dataSet.ColName col
  if grid.rowcountSuppressed then value col
  else match col, item with
    | 0, some item => (Nat.repr (item + 1)).toList
    | 0, none => ['0']
    | col + 1, _ => value col

end ctlSQLResult

inductive Source where
  | fromSet (set : pgSet)
  | fromGrid (grid : ctlSQLResult)

namespace Source

def dataSet : Source → pgSet
  | .fromSet set => set
  | .fromGrid grid => grid.dataSet

def colCount (source : Source) : ℕ := source.dataSet.NumCols

def rowCount (source : Source) : ℕ := source.dataSet.NumRows

def header : Source → ℕ → Text
  | .fromSet set, col => set.ColName col
  | .fromGrid grid, col => BeforeFirst (grid.OnGetItemText none (col + 1)) '\n'

def text : Source → ℕ → ℕ → Text
  | .fromSet set, _, col => set.GetVal col
  | .fromGrid grid, row, col => grid.OnGetItemText (some row) (col + 1)

def typOid : Source → ℕ → Option pgTypClass
  | .fromSet set, col => set.ColTypClass col
  | .fromGrid grid, col => grid.colTypClasses.getD col none

def MoveNext : Source → Source
  | .fromSet set => .fromSet set.MoveNext
  | .fromGrid grid => .fromGrid grid

end Source

inductive Quoting where
  | rbQuoteNone
  | rbQuoteStrings
  | rbQuoteAll
  deriving DecidableEq, Repr

structure Form where
  quoting : Quoting
  rbCRLF : Bool
  rbUnicode : Bool
  chkColnames : Bool
  cbColSeparator : Text
  cbQuoteChar : Text
  deriving DecidableEq, Repr

namespace Form

def rowSeparator (form : Form) : Text := if form.rbCRLF then ['\r', '\n'] else ['\n']

def needQuote (form : Form) (typOid : Option pgTypClass) : Bool :=
  match form.quoting with
  | .rbQuoteAll => true
  | .rbQuoteStrings =>
    match typOid with
    | some .PGTYPCLASS_NUMERIC => false
    | some .PGTYPCLASS_BOOL => false
    | _ => true
  | .rbQuoteNone => false

def quote (form : Form) (text : Text) : Text :=
  form.cbQuoteChar ++ replaceAll form.cbQuoteChar (form.cbQuoteChar ++ form.cbQuoteChar) text ++
    form.cbQuoteChar

def headerCell (form : Form) (source : Source) (col : ℕ) : Text :=
  if form.quoting = .rbQuoteNone then source.header col else form.quote (source.header col)

def rowCell (form : Form) (source : Source) (row col : ℕ) : Text :=
  if form.needQuote (source.typOid col) then form.quote (source.text row col)
  else source.text row col

def addCell (form : Form) (cell : ℕ → Text) (line : Text) (col : ℕ) : Text :=
  (if col = 0 then [] else line ++ form.cbColSeparator) ++ cell col

end Form

structure Output where
  file : Text
  line : Text
  skipped : ℕ

section Export
variable (mb_str : Text → Bool) (form : Form)

def Output.write (out : Output) (colCount : ℕ) (cell : ℕ → Text) : Output :=
  let line := (List.range colCount).foldl (form.addCell cell) out.line ++ form.rowSeparator
  if form.rbUnicode || mb_str line then ⟨out.file ++ line, line, out.skipped⟩
  else ⟨out.file, line, out.skipped + 1⟩

def exportRow (state : Source × Output) (row : ℕ) : Source × Output :=
  (state.1.MoveNext, state.2.write mb_str form state.1.colCount (form.rowCell state.1 row))

def Export (source : Source) : Output :=
  let out : Output := ⟨[], [], 0⟩
  let out := if form.chkColnames then out.write mb_str form source.colCount (form.headerCell source)
    else out
  ((List.range source.rowCount).foldl (exportRow mb_str form) (source, out)).2

end Export

/- A result set on its first row, or a grid that shows the result. -/
inductive Shows (result : pgSet) : Source → Prop where
  | set (first : result = result.MoveFirst) : Shows result (.fromSet result)
  | grid (single : Bool) : Shows result (.fromGrid (ctlSQLResult.DisplayData result single))

def table (form : Form) (result : pgSet) : List (List Text) :=
  (if form.chkColnames then [result.columns.map Column.name] else []) ++ result.rows

end PgAdmin.frmExport
