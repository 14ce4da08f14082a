import PgAdmin.WxString

/-! A table of the database designer (ddTableFigure, ddColumnFigure, ddColumnKindIcon): its columns,
the unique constraints they are in by index, and the edits that add and remove columns and toggle
their keys. -/
namespace PgAdmin.ddDesign
open PgsObjects (Text)

/- The first field tells which object the column is; the last three whether it was made for a
relationship item, follows the name of its source, and was taken by an item as it was. -/
structure ddColumnFigure where
  id : ℕ
  columnName : Text
  dataType : Text
  notNull : Bool
  isPk : Bool
  ukIndex : ℤ
  fkSource : Bool
  generateFkName : Bool
  usedAsFkDestFor : Bool
  deriving DecidableEq, Repr

namespace ddColumnFigure

def isPrimaryKey (c : ddColumnFigure) : Bool := c.isPk
def isUniqueKey (c : ddColumnFigure) : Bool := 0 ≤ c.ukIndex
def setUniqueConstraintIndex (i : ℤ) (c : ddColumnFigure) : ddColumnFigure := { c with ukIndex := i }

end ddColumnFigure

structure ddTableFigure where
  tableName : Text
  pkName : Text
  columns : List ddColumnFigure
  ukNames : List Text
  deriving DecidableEq, Repr

def RemoveAt (names : List Text) (i : ℤ) : List Text :=
  if 0 ≤ i then names.eraseIdx i.toNat else names

def wxGetSingleChoiceIndex (answer : Option ℕ) (shown : ℕ) : Option ℕ :=
  answer.filter (· < shown)

namespace ddTableFigure

def column? (t : ddTableFigure) (id : ℕ) : Option ddColumnFigure :=
  t.columns.find? fun col => col.id = id

def change (t : ddTableFigure) (id : ℕ) (f : ddColumnFigure → ddColumnFigure) : ddTableFigure :=
  { t with columns := t.columns.map fun col => if col.id = id then f col else col }

def syncUkIndexes (t : ddTableFigure) (owner : ddColumnFigure) : ddTableFigure :=
  let lastUk := !t.columns.any fun col => col.id ≠ owner.id ∧ col.ukIndex = owner.ukIndex
  if lastUk then
    change
      { t with
        columns := t.columns.map fun col =>
          if owner.ukIndex < col.ukIndex then col.setUniqueConstraintIndex (col.ukIndex - 1) else col
        ukNames := RemoveAt t.ukNames owner.ukIndex }
      owner.id (ddColumnFigure.setUniqueConstraintIndex (-1))
  else t

def disableUniqueKey (t : ddTableFigure) (id : ℕ) : ddTableFigure :=
  (t.column? id).elim t fun owner =>
    (t.syncUkIndexes owner).change id (ddColumnFigure.setUniqueConstraintIndex (-1))

def disablePrimaryKey (t : ddTableFigure) (id : ℕ) : ddTableFigure :=
  t.change id fun col => { col with isPk := false }

def enablePrimaryKey (t : ddTableFigure) (id : ℕ) : ddTableFigure :=
  t.change id fun col => { col with isPk := true }

def setColumnKindToNone (t : ddTableFigure) (id : ℕ) : ddTableFigure :=
  (t.disablePrimaryKey id).disableUniqueKey id

def uniqueConstraintManager (t : ddTableFigure) (id : ℕ) (answer : Option ℕ) (name : Text) :
    ddTableFigure :=
  let add (i : ℕ) : ddTableFigure :=
    if name ≠ [] then
      { t with ukNames := t.ukNames ++ [name] }.change id (ddColumnFigure.setUniqueConstraintIndex i)
    else t.change id (ddColumnFigure.setUniqueConstraintIndex (-1))
  if t.ukNames = [] then add 0
  else
    match wxGetSingleChoiceIndex answer (t.ukNames.length + 1) with
    | some i =>
      if i = t.ukNames.length then add i
      else t.change id (ddColumnFigure.setUniqueConstraintIndex i)
    | none => t.change id (ddColumnFigure.setUniqueConstraintIndex (-1))

def togglePrimaryKey (t : ddTableFigure) (id : ℕ) : ddTableFigure :=
  (t.column? id).elim t fun column =>
    if column.isPrimaryKey then t.disablePrimaryKey id
    else (t.enablePrimaryKey id).change id fun col => { col with notNull := true }

def toggleUniqueKey (t : ddTableFigure) (id : ℕ) (answer : Option ℕ) (name : Text) :
    ddTableFigure :=
  (t.column? id).elim t fun column =>
    if column.isUniqueKey then t.disableUniqueKey id
    else t.uniqueConstraintManager id answer name

def newId (t : ddTableFigure) : ℕ := t.columns.foldr (fun col next => max (col.id + 1) next) 0

def addColumn (t : ddTableFigure) (columnName dataType : Text) (notNull isPk : Bool) :
    ddTableFigure :=
  { t with
    columns := t.columns ++
      [⟨t.newId, columnName, dataType, notNull, isPk, -1, false, false, false⟩] }

def removeColumn (t : ddTableFigure) (id : ℕ) : ddTableFigure :=
  (t.column? id).elim t fun column =>
    let t := if column.isPrimaryKey || column.isUniqueKey then t.setColumnKindToNone id else t
    { t with columns := t.columns.filter fun col => col.id ≠ id }

end ddTableFigure

/- The relationships of a table add and remove its columns by the same calls. Where a table is
related to itself they do so between the two halves of setColumnKindToNone and the removal, so the
halves are edits of their own. -/
inductive Edit where
  | addColumn (columnName dataType : Text) (notNull isPk : Bool)
  | removeColumn (id : ℕ)
  | togglePrimaryKey (id : ℕ)
  | toggleUniqueKey (id : ℕ) (answer : Option ℕ) (name : Text)
  | disablePrimaryKey (id : ℕ)
  | disableUniqueKey (id : ℕ)
  deriving DecidableEq, Repr

def ddTableFigure.edit (t : ddTableFigure) : Edit → ddTableFigure
  | .addColumn columnName dataType notNull isPk => t.addColumn columnName dataType notNull isPk
  | .removeColumn id => t.removeColumn id
  | .togglePrimaryKey id => t.togglePrimaryKey id
  | .toggleUniqueKey id answer name => t.toggleUniqueKey id answer name
  | .disablePrimaryKey id => t.disablePrimaryKey id
  | .disableUniqueKey id => t.disableUniqueKey id

def ddTableFigure.run (t : ddTableFigure) (edits : List Edit) : ddTableFigure :=
  edits.foldl ddTableFigure.edit t

end PgAdmin.ddDesign
