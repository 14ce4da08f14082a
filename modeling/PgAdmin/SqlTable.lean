import PgAdmin.CacheLinePool
import PgAdmin.PendingEdit

/-! sqlTable: the rows of the data grid. The first ones come from the result the table was opened
on, through lineIndex; the others were added in the grid. The row being edited is lastRow, and
savedLine has its cells from before the edit. What the database answers is an argument of the
operation that asks. -/
namespace PgAdmin.frmEditGrid
open PgsObjects (Text)
open PendingEdit (Event overwrite)

/- The flags for the values of `type` that some function asks for. -/
structure sqlCellAttr where
  name : Text
  typeName : Text
  displayTypeName : Text
  isReadOnly : Bool
  numeric : Bool
  isBool : Bool
  isBit : Bool
  isBytea : Bool

/- What the table was opened on: the result, with none for a null, and the description of its
columns. `primaryKey` has the columns primaryKeyColNumbers stands for. -/
structure Opened (nCols : ℕ) where
  hasOids : Bool
  columns : Fin nCols → sqlCellAttr
  primaryKey : List (Fin nCols)
  nRows : ℕ
  dataSet : ℕ → Fin nCols → Option Text

/- WHERE, as the columns and the texts they are compared with. -/
inductive Key (nCols : ℕ) where
  | columns (cells : List (Fin nCols × Text))
  | oid (value : Text)
  deriving DecidableEq, Repr

/- What ExecuteSet returns for the INSERT, what the new row then holds, and the row the SELECT after it reads. -/
structure InsertReply where
  insertedCount : ℕ
  insertedOid : Text
  holds : Text → Option Text
  row : Option (Text → Option Text)

/- The answers to an UPDATE, from its SET list and its key, and to an INSERT. -/
structure Connection (nCols : ℕ) where
  executeVoid : (Fin nCols → Option Text) → Option (Key nCols) → Bool
  executeSet : (Fin nCols → Option Text) → Option InsertReply

structure sqlTable (nCols : ℕ) where
  dataPool : cacheLinePool nCols
  addPool : cacheLinePool nCols
  savedLine : Fin nCols → Text
  lastRow : Option ℕ
  lineIndex : ℕ → ℕ
  rowsCached : ℕ
  rowsAdded : ℕ
  rowsStored : ℕ
  rowsDeleted : ℕ
  thread : Bool

variable {nCols : ℕ}

abbrev RowEvent (nCols : ℕ) := Event ℕ (Fin nCols) Text (Option Text)

def blankCells : Fin nCols → Text := fun _ => []

/- StrToBool -/
def strToBool (value : Text) : Bool :=
  value.head? = some 't' || value.head? = some 'T' || value.head? = some '1' ||
    value.head? = some 'Y' || value.head? = some 'y' || value = "on".toList

namespace Opened

/- `hasOids ? 1 : 0` -/
def firstColumn (t : Opened nCols) : ℕ := if t.hasOids then 1 else 0

/- The text of a cell for a value of the result: an empty string is two quotes, two quotes are escaped. -/
def readCell (t : Opened nCols) (col : Fin nCols) (value : Option Text) : Text :=
  if (t.columns col).isBytea then "<binary data>".toList
  else match value with
    | none => []
    | some [] => "''".toList
    | some val => if val = "''".toList then "\\'\\'".toList else val

def fetched (t : Opened nCols) (line : ℕ) (col : Fin nCols) : Text := t.readCell col (t.dataSet line col)

/- How GetValue shows a cell. -/
def display (t : Opened nCols) (col : Fin nCols) (text : Text) : Text :=
  if (t.columns col).isBool ∧ text ≠ [] then
    if strToBool text then "TRUE".toList else "FALSE".toList
  else text

def canInsert (t : Opened nCols) : Bool :=
  (List.finRange nCols).any fun col => t.firstColumn ≤ col && !(t.columns col).isReadOnly

def keyCell (t : Opened nCols) (cells : Fin nCols → Text) (col : Fin nCols) : Text :=
  if cells col = "''".toList ∧ (t.columns col).typeName = "text".toList then [] else cells col

/- No value for the empty string. -/
def MakeKey (t : Opened nCols) (cells : Fin nCols → Text) : Option (Key nCols) :=
  if t.primaryKey ≠ [] then
    if t.primaryKey.any fun col => cells col = [] then none
    else some (.columns (t.primaryKey.map fun col => (col, t.keyCell cells col)))
  else if t.hasOids then (List.finRange nCols).head?.map fun col => .oid (cells col)
  else none

/- The SET list of the UPDATE. -/
def updated (t : Opened nCols) (saved cells : Fin nCols → Text) : Fin nCols → Option Text :=
  fun col => if t.firstColumn ≤ col ∧ saved col ≠ cells col then some (cells col) else none

/- The columns and values of the INSERT. -/
def inserted (t : Opened nCols) (cells : Fin nCols → Text) : Fin nCols → Option Text :=
  fun col => if ¬ (t.columns col).isReadOnly ∧ cells col ≠ [] then some (cells col) else none

/- valList.IsEmpty() -/
def isEmpty (list : Fin nCols → Option Text) : Bool :=
  (List.finRange nCols).all fun col => (list col).isNone

/- `line->cols[0] = NumToStr((long)set->GetInsertedOid())` -/
def insertedOid (t : Opened nCols) (set : InsertReply) : Fin nCols → Option Text :=
  fun col => if t.hasOids ∧ col.val = 0 then some set.insertedOid else none

/- The SELECT after the INSERT, when there is a key to ask for. GetVal() gives the empty string for a null too. -/
def readBack (t : Opened nCols) (cells : Fin nCols → Text) (set : InsertReply) :
    Fin nCols → Option Text :=
  fun col => if t.MakeKey cells ≠ none ∧ t.firstColumn ≤ col then
    set.row.map fun row => (row (t.columns col).name).getD []
  else none

def holds (t : Opened nCols) (set : InsertReply) : Fin nCols → Option Text :=
  fun col => set.holds (t.columns col).name

def returned (t : Opened nCols) (cells : Fin nCols → Text) (set : InsertReply) :
    Fin nCols → Option Text :=
  let oid := t.insertedOid set
  fun col => (t.readBack (overwrite cells oid) set col).or (oid col)

end Opened

namespace sqlTable

def create (t : Opened nCols) : sqlTable nCols where
  dataPool := .create t.nRows
  addPool := .create 500
  savedLine := blankCells
  lastRow := none
  lineIndex := id
  rowsCached := 0
  rowsAdded := if t.canInsert then 1 else 0
  rowsStored := 0
  rowsDeleted := 0
  thread := true

variable (t : Opened nCols)

/- `nRows - rowsDeleted` -/
def fetchedRows (s : sqlTable nCols) : ℕ := t.nRows - s.rowsDeleted

def GetLine (s : sqlTable nCols) (row : ℕ) : Option (cacheLine nCols × sqlTable nCols) :=
  if row < s.fetchedRows t then
    (s.dataPool.Get (s.lineIndex row)).map fun (l, pool) => (l, { s with dataPool := pool })
  else
    (s.addPool.Get (row - s.fetchedRows t)).map fun (l, pool) => (l, { s with addPool := pool })

/- What a write through the pointer GetLine returned does. -/
def putLine (s : sqlTable nCols) (row : ℕ) (l : cacheLine nCols) : sqlTable nCols :=
  if row < s.fetchedRows t then { s with dataPool := s.dataPool.put (s.lineIndex row) l }
  else { s with addPool := s.addPool.put (row - s.fetchedRows t) l }

def AppendRows (s : sqlTable nCols) (rows : ℕ) : Option (sqlTable nCols) := do
  let s := { s with rowsAdded := s.rowsAdded + rows }
  if t.nRows + s.rowsAdded - s.rowsDeleted = 0 then none
  let (_, s) ← s.GetLine t (t.nRows + s.rowsAdded - s.rowsDeleted - 1)
  some s

def UndoLine (s : sqlTable nCols) (row : ℤ) :
    Option (List (RowEvent nCols) × sqlTable nCols) :=
  if s.lastRow ≠ none ∧ 0 ≤ row then do
    let (line, s) ← s.GetLine t row.toNat
    let _ ← line.cols
    let s := s.putLine t row.toNat { line with cols := some s.savedLine }
    some ([.undone row.toNat], { s with lastRow := none })
  else some ([], { s with lastRow := none })

def countStored (s : sqlTable nCols) : Option (sqlTable nCols) :=
  let s := { s with rowsStored := s.rowsStored + 1 }
  if s.rowsAdded = s.rowsStored then s.AppendRows t 1 else some s

/- The INSERT succeeded. The line is read-only from now on when its key is not known. -/
def StoreInserted (s : sqlTable nCols) (row : ℕ) (line : cacheLine nCols)
    (cells : Fin nCols → Text) (set : InsertReply) : Option (sqlTable nCols) := do
  let s ← s.countStored t
  let unknown := t.MakeKey (overwrite cells (t.insertedOid set)) = none
  let s := s.putLine t row {
    cols := some (overwrite cells (t.returned cells set))
    stored := true
    readOnly := line.readOnly || unknown }
  some { s with lastRow := none }

/- Returns `done`, and with it what became of the row. -/
def StoreLine (s : sqlTable nCols) (connection : Connection nCols) :
    Option (Bool × List (RowEvent nCols) × sqlTable nCols) :=
  match s.lastRow with
  | none => some (false, [], s)
  | some row => do
    let (line, s) ← s.GetLine t row
    let cells ← line.cols
    if line.stored then
      let values := t.updated s.savedLine cells
      if Opened.isEmpty values || connection.executeVoid values (t.MakeKey s.savedLine) then
        some (true, [.accepted row values none], { s with lastRow := none })
      else some (false, [], s)
    else
      let values := t.inserted cells
      if Opened.isEmpty values then some (false, [], s)
      else match connection.executeSet values with
        | none => some (false, [], s)
        | some set =>
          if 0 < set.insertedCount then do
            let s ← s.StoreInserted t row line cells set
            some (true, [.accepted row values (some (t.holds set))], s)
          else some (false, [], s)

/- For a row that is not the one being edited: `if (lastRow >= 0) StoreLine();`, and then it is,
whatever StoreLine returned. -/
def moveTo (s : sqlTable nCols) (row : ℕ) (connection : Connection nCols) :
    Option (List (RowEvent nCols) × sqlTable nCols) :=
  if s.lastRow = some row then some ([], s)
  else do
    let (_, events, s) ← s.StoreLine t connection
    let (line, s) ← s.GetLine t row
    let cells := line.cols.getD blankCells
    let s := s.putLine t row { line with cols := some cells }
    some (events, { s with savedLine := cells, lastRow := some row })

def SetValue (s : sqlTable nCols) (row : ℕ) (col : Fin nCols) (value : Text)
    (connection : Connection nCols) :
    Option (List (RowEvent nCols) × sqlTable nCols) := do
  let (_, s) ← s.GetLine t row
  let (events, s) ← s.moveTo t row connection
  let (line, s) ← s.GetLine t row
  let cells ← line.cols
  let s := s.putLine t row { line with cols := some (Function.update cells col value) }
  some (events ++ [.edited row col value], s)

def load (s : sqlTable nCols) (row : ℕ) (line : cacheLine nCols) :
    (Fin nCols → Text) × sqlTable nCols :=
  let cells := t.fetched (s.lineIndex row)
  let s := s.putLine t row { line with cols := some cells, stored := true }
  (cells, { s with
    rowsCached := s.rowsCached + 1
    thread := decide (s.rowsCached + 1 ≠ t.nRows) })

def showCell (s : sqlTable nCols) (row : ℕ) (col : Fin nCols) : Option (Text × sqlTable nCols) := do
  let (line, s) ← s.GetLine t row
  let cells ← line.cols
  let val := t.display col (cells col)
  some (val, s.putLine t row { line with cols := some (Function.update cells col val) })

def GetValue (s : sqlTable nCols) (row : ℕ) (col : Fin nCols) :
    Option (Text × sqlTable nCols) := do
  let (line, s) ← s.GetLine t row
  match line.cols with
  | some _ => s.showCell t row col
  | none =>
    if row < s.fetchedRows t then
      if s.thread then (s.load t row line).2.showCell t row col
      else some ([], s.putLine t row { line with cols := some blankCells })
    else (s.putLine t row { line with cols := some blankCells }).showCell t row col

inductive Op (nCols : ℕ) where
  | getValue (row : ℕ) (col : Fin nCols)
  | setValue (row : ℕ) (col : Fin nCols) (value : Text) (connection : Connection nCols)
  | storeLine (connection : Connection nCols)
  | undoLine (row : ℤ)
  | appendRows (rows : ℕ)

def step (s : sqlTable nCols) :
    Op nCols → Option (List (RowEvent nCols) × sqlTable nCols)
  | .getValue row col => (s.GetValue t row col).map fun (_, s) => ([], s)
  | .setValue row col value connection => s.SetValue t row col value connection
  | .storeLine connection => (s.StoreLine t connection).map fun (_, events, s) => (events, s)
  | .undoLine row => s.UndoLine t row
  | .appendRows rows => (s.AppendRows t rows).map fun s => ([], s)

end sqlTable

end PgAdmin.frmEditGrid
