import PgAdmin.RowMoves

/-! The column lists of the graphical query builder: the arrays of gqbModel as the grid tables see them,
and what the controller and the panels do to them. A pointer is a number, that of a query object new
with each table added. none stands for an access outside an array or to a table that is no more. -/
namespace PgAdmin.gqb
open RowMoves

structure gqbTable where
  columns : List ℕ
  once : columns.Nodup

structure gqbQueryObject where
  id : ℕ
  parent : gqbTable
  columns : List ℕ

namespace gqbQueryObject

def existsColumn (table : gqbQueryObject) (column : ℕ) : Bool := decide (column ∈ table.columns)

def addColumn (table : gqbQueryObject) (column : ℕ) : gqbQueryObject :=
  { table with columns := table.columns ++ [column] }

def removeColumn (table : gqbQueryObject) (column : ℕ) : gqbQueryObject :=
  { table with columns := table.columns.erase column }

end gqbQueryObject

structure gqbGridProjTable where
  colsParents : List ℕ
  colsPosition : List ℕ
  columnsAlias : List String

namespace gqbGridProjTable

def AppendItem (g : gqbGridProjTable) (col : ℕ) (item : ℕ) : gqbGridProjTable :=
  match col with
  | 0 => { g with colsParents := g.colsParents ++ [item] }
  | 1 => { g with colsPosition := g.colsPosition ++ [item] }
  | 2 => { g with columnsAlias := g.columnsAlias ++ [""] }
  | _ => g

def RemoveAt (g : gqbGridProjTable) (i : ℕ) : gqbGridProjTable where
  colsParents := g.colsParents.eraseIdx i
  colsPosition := g.colsPosition.eraseIdx i
  columnsAlias := g.columnsAlias.eraseIdx i

def removeRow (g : gqbGridProjTable) (itemTable itemColumn : ℕ) : gqbGridProjTable :=
  match (List.range g.colsPosition.length).find? fun i =>
    decide (g.colsParents[i]? = some itemTable ∧ g.colsPosition[i]? = some itemColumn) with
  | some i => g.RemoveAt i
  | none => g

def removeAllRows (g : gqbGridProjTable) (itemTable : ℕ) : gqbGridProjTable :=
  removeDown colsParents RemoveAt itemTable g

def changesPositions (g : gqbGridProjTable) (sPos dPos : ℤ) : gqbGridProjTable :=
  let size := g.colsPosition.length
  if (0 ≤ sPos ∧ sPos < size) ∧ 0 ≤ dPos ∧ dPos < size then
    { colsParents := swap g.colsParents sPos dPos
      colsPosition := swap g.colsPosition sPos dPos
      columnsAlias := swap g.columnsAlias sPos dPos }
  else g

def changesRangeOnePos (g : gqbGridProjTable) (topPos bottomPos newTop : ℤ) : gqbGridProjTable :=
  (rangeMoves g.colsPosition.length (topPos + 1) (bottomPos + 1) newTop).foldl
    (fun g move => g.changesPositions move.1 move.2) g

def emptyTableData (_ : gqbGridProjTable) : gqbGridProjTable := ⟨[], [], []⟩

end gqbGridProjTable

structure gqbGridOrderTable (numberColumns : ℕ) where
  columns : List ℕ
  colsParents : List ℕ
  kindOfOrder : List Char

namespace gqbGridOrderTable
variable {numberColumns : ℕ}

def AppendItem (g : gqbGridOrderTable numberColumns) (column parent : ℕ) (kindOrder : Char) :
    gqbGridOrderTable numberColumns where
  columns := g.columns ++ [column]
  colsParents := g.colsParents ++ [parent]
  kindOfOrder := if numberColumns = 2 then g.kindOfOrder ++ [kindOrder] else g.kindOfOrder

def removeRowAt (g : gqbGridOrderTable numberColumns) (i : ℕ) : gqbGridOrderTable numberColumns where
  columns := g.columns.eraseIdx i
  colsParents := g.colsParents.eraseIdx i
  kindOfOrder := if numberColumns = 2 then g.kindOfOrder.eraseIdx i else g.kindOfOrder

def emptyTableData (g : gqbGridOrderTable numberColumns) (object : ℕ) : gqbGridOrderTable numberColumns :=
  removeWhile colsParents removeRowAt object g.colsParents.length g

def changesPositions (g : gqbGridOrderTable numberColumns) (sPos dPos : ℤ) :
    gqbGridOrderTable numberColumns :=
  let size := g.columns.length
  if (0 ≤ sPos ∧ sPos < size) ∧ 0 ≤ dPos ∧ dPos < size then
    { columns := swap g.columns sPos dPos
      colsParents := swap g.colsParents sPos dPos
      kindOfOrder := swap g.kindOfOrder sPos dPos }
  else g

def changesRangeOnePos (g : gqbGridOrderTable numberColumns) (topPos bottomPos newTop : ℤ) :
    gqbGridOrderTable numberColumns :=
  (rangeMoves g.columns.length (topPos + 1) (bottomPos + 1) newTop).foldl
    (fun g move => g.changesPositions move.1 move.2) g

end gqbGridOrderTable

/- The tables of the query, the projection, and the columns that are available for the order and those
in it. -/
structure gqbModel where
  queryCollection : List gqbQueryObject
  projection : gqbGridProjTable
  available : gqbGridOrderTable 1
  ordered : gqbGridOrderTable 2
  next : ℕ

namespace gqbModel

def Init : gqbModel := ⟨[], ⟨[], [], []⟩, ⟨[], [], []⟩, ⟨[], [], []⟩, 0⟩

def table? (m : gqbModel) (table : ℕ) : Option gqbQueryObject :=
  m.queryCollection.find? (decide <| ·.id = table)

def addTable (m : gqbModel) (table : gqbTable) : gqbModel :=
  let tmp : gqbQueryObject := ⟨m.next, table, []⟩
  { m with
    queryCollection := m.queryCollection ++ [tmp]
    available := { m.available with
      columns := m.available.columns ++ table.columns
      colsParents := m.available.colsParents ++ table.columns.map fun _ => tmp.id }
    next := m.next + 1 }

def deleteTable (m : gqbModel) (table : ℕ) : gqbModel :=
  { m with queryCollection := m.queryCollection.eraseP (decide <| ·.id = table) }

def emptyAll (m : gqbModel) : gqbModel :=
  { m with
    projection := { m.projection with colsPosition := [], colsParents := [] }
    queryCollection := [] }

end gqbModel

namespace gqbController
open gqbModel

def removeTableFromModel (m : gqbModel) (mtable : ℕ) : Option gqbModel := do
  let _ ← m.table? mtable
  let m := m.deleteTable mtable
  pure { m with
    projection := m.projection.removeAllRows mtable
    available := m.available.emptyTableData mtable
    ordered := m.ordered.emptyTableData mtable }

def onTable (m : gqbModel) (table : ℕ) (change : gqbQueryObject → gqbQueryObject) : gqbModel :=
  { m with queryCollection := m.queryCollection.map fun q => if q.id = table then change q else q }

def processColumnInModel (m : gqbModel) (table column : ℕ) : Option gqbModel := do
  let q ← m.table? table
  if !q.existsColumn column then
    let m := onTable m table (·.addColumn column)
    pure { m with projection := ((m.projection.AppendItem 0 table).AppendItem 1 column).AppendItem 2 0 }
  else
    let m := onTable m table (·.removeColumn column)
    pure { m with projection := m.projection.removeRow table column }

def emptyModel (m : gqbModel) : gqbModel :=
  { m with projection := m.projection.emptyTableData }.emptyAll

end gqbController

namespace gqbOrderPanel

def moveRight (m : gqbModel) (i : ℕ) : Option gqbModel := do
  let col ← m.available.columns[i]?
  let colParent ← m.available.colsParents[i]?
  pure { m with ordered := m.ordered.AppendItem col colParent 'A', available := m.available.removeRowAt i }

def moveLeft (m : gqbModel) (i : ℕ) : Option gqbModel := do
  let col ← m.ordered.columns[i]?
  let colParent ← m.ordered.colsParents[i]?
  pure { m with available := m.available.AppendItem col colParent 'N', ordered := m.ordered.removeRowAt i }

def atRow (move : ℕ → Option gqbModel) (selected : ℤ) : Option gqbModel :=
  match selected with
  | .ofNat i => move i
  | .negSucc _ => none

def OnButtonAdd (m : gqbModel) (selLeft : ℤ) : Option gqbModel :=
  if 0 < m.available.columns.length ∧ selLeft ≠ -1 then atRow (moveRight m) selLeft else some m

def OnButtonAddAll (m : gqbModel) : Option gqbModel :=
  (List.range m.available.columns.length).reverse.foldlM moveRight m

def OnButtonRemove (m : gqbModel) (selRightTop : ℤ) : Option gqbModel :=
  if 0 < m.ordered.columns.length ∧ selRightTop ≠ -1 then atRow (moveLeft m) selRightTop else some m

def OnButtonRemoveAll (m : gqbModel) : Option gqbModel :=
  (List.range m.ordered.columns.length).reverse.foldlM moveLeft m

end gqbOrderPanel

inductive Op where
  | addTable (table : gqbTable)
  | removeTable (table : ℕ)
  | processColumn (table column : ℕ)
  | movePositions (sPos dPos : ℤ)
  | moveRange (topPos bottomPos newTop : ℤ)
  | moveOrderPositions (sPos dPos : ℤ)
  | moveOrderRange (topPos bottomPos newTop : ℤ)
  | addToOrder (selLeft : ℤ)
  | addAllToOrder
  | removeFromOrder (selRightTop : ℤ)
  | removeAllFromOrder
  | emptyModel

def step (m : gqbModel) : Op → Option gqbModel
  | .addTable table => some (m.addTable table)
  | .removeTable table => gqbController.removeTableFromModel m table
  | .processColumn table column => gqbController.processColumnInModel m table column
  | .movePositions sPos dPos => some { m with projection := m.projection.changesPositions sPos dPos }
  | .moveRange topPos bottomPos newTop =>
    some { m with projection := m.projection.changesRangeOnePos topPos bottomPos newTop }
  | .moveOrderPositions sPos dPos => some { m with ordered := m.ordered.changesPositions sPos dPos }
  | .moveOrderRange topPos bottomPos newTop =>
    some { m with ordered := m.ordered.changesRangeOnePos topPos bottomPos newTop }
  | .addToOrder selLeft => gqbOrderPanel.OnButtonAdd m selLeft
  | .addAllToOrder => gqbOrderPanel.OnButtonAddAll m
  | .removeFromOrder selRightTop => gqbOrderPanel.OnButtonRemove m selRightTop
  | .removeAllFromOrder => gqbOrderPanel.OnButtonRemoveAll m
  | .emptyModel => some (gqbController.emptyModel m)

def run (ops : List Op) : Option gqbModel := ops.foldlM step .Init

end PgAdmin.gqb
