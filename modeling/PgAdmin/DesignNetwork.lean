import PgAdmin.DesignTable

/-! How a change of a key travels along the relationships of a design: ddTableFigure and
ddRelationshipFigure call each other for every relationship that starts at a table. The first
argument of the recursive functions bounds their depth. -/
namespace PgAdmin.ddNetwork
open PgsObjects (Text)
open ddDesign (ddColumnFigure ddTableFigure)

variable {n m : ℕ}

/- The tables and relationships are numbered; a table lists the relationships that observe it. -/
structure Network (n m : ℕ) where
  observers : Fin n → List (Fin m)
  startFigure : Fin m → Fin n
  endFigure : Fin m → Fin n
  fkFromPk : Fin m → Bool
  fkMandatory : Fin m → Bool
  fkIdentifying : Fin m → Bool
  ukIndex : Fin m → ℤ

/- The original is the column object, unless it was marked for deletion. The destination table is
the end of the relationship: the items go when the end is disconnected. -/
structure ddRelationshipItem where
  original : Option ℕ
  originalStartColName : Text
  fkColumn : ℕ
  fkIsAutoGenerated : Bool
  deriving DecidableEq, Repr

/- The items of a relationship are kept by the name of the source column; the last field lists the
relationships updateForeignKey was called for. -/
structure State (n m : ℕ) where
  tables : Fin n → ddTableFigure
  chm : Fin m → List (ddRelationshipItem)
  newId : ℕ
  updated : List (Fin m)

namespace State

def column? (s : State n m) (id : ℕ) : Option ddColumnFigure :=
  (List.finRange n).findSome? fun t => (s.tables t).column? id

def ownerTable? (s : State n m) (id : ℕ) : Option (Fin n) :=
  (List.finRange n).find? fun t => ((s.tables t).column? id).isSome

def onTable (s : State n m) (t : Fin n) (f : ddTableFigure → ddTableFigure) : State n m :=
  { s with tables := Function.update s.tables t (f (s.tables t)) }

def onItems (s : State n m) (r : Fin m)
    (f : List (ddRelationshipItem) → List (ddRelationshipItem)) : State n m :=
  { s with chm := Function.update s.chm r (f (s.chm r)) }

def forget (s : State n m) (r : Fin m) (column : ℕ) : State n m :=
  s.onItems r fun items => items.map fun item =>
    if item.original = some column then { item with original := none } else item

end State

def setItem (items : List (ddRelationshipItem)) (item : ddRelationshipItem) :
    List (ddRelationshipItem) :=
  if items.any fun other => other.originalStartColName = item.originalStartColName then
    items.map fun other =>
      if other.originalStartColName = item.originalStartColName then item else other
  else items ++ [item]

def eraseItem (items : List (ddRelationshipItem)) (name : Text) : List (ddRelationshipItem) :=
  items.filter fun item => item.originalStartColName ≠ name

def sameNoCase (a b : Text) : Bool := a.map Char.toLower = b.map Char.toLower

def fkName (table column : Text) : Text := table ++ '_' :: column

namespace Network
variable (net : Network n m)

section Names

def renamed? (s : State n m) (r : Fin m) : Option (ddRelationshipItem × ddColumnFigure) :=
  (s.chm r).findSome? fun item => item.original.bind fun id => (s.column? id).bind fun column =>
    if sameNoCase column.columnName item.originalStartColName then none else some (item, column)

def syncAutoFkName (s : State n m) (r : Fin m) (item : ddRelationshipItem)
    (column : ddColumnFigure) : State n m :=
  let table := ((s.ownerTable? column.id).map fun t => (s.tables t).tableName).getD []
  s.onTable (net.endFigure r) fun t => t.change item.fkColumn fun col =>
    if col.fkSource && col.generateFkName then
      { col with columnName := fkName table column.columnName }
    else col

/- Step 0 of updateForeignKey. -/
def syncNames (s : State n m) (r : Fin m) : State n m :=
  (renamed? s r).elim s fun (item, column) =>
    let s := s.onItems r fun items =>
      eraseItem (setItem items { item with originalStartColName := column.columnName })
        item.originalStartColName
    net.syncAutoFkName s r item column

end Names

section Items

def sourceKey (r : Fin m) (column : ddColumnFigure) : Bool :=
  if net.fkFromPk r then column.isPrimaryKey else column.ukIndex = net.ukIndex r

def stale (s : State n m) (r : Fin m) (item : ddRelationshipItem) : Bool :=
  match item.original with
  | none => true
  | some id =>
    !(((s.column? id).map (net.sourceKey r)).getD false) ||
      !((s.tables (net.startFigure r)).columns.any fun col => col.id = id)

def newItem (s : State n m) (r : Fin m) (column : ddColumnFigure) :
    ddColumnFigure × ddRelationshipItem :=
  let source := (s.tables (net.startFigure r)).tableName
  (⟨s.newId, fkName source column.columnName, [], net.fkMandatory r || net.fkIdentifying r,
    net.fkIdentifying r, -1, true, true, false⟩,
    ⟨some column.id, column.columnName, s.newId, true⟩)

def dropFigure (t : ddTableFigure) (id : ℕ) : ddTableFigure :=
  { t with columns := t.columns.filter fun col => col.id ≠ id }

def makePlain (t : ddTableFigure) (id : ℕ) : ddTableFigure :=
  t.change id fun col => { col with usedAsFkDestFor := false }

end Items

section Delete

mutual

def prepareForDeleteFkColumn : ℕ → State n m → Fin n → ℕ → Option (State n m)
  | 0, _, _, _ => none
  | depth + 1, s, t, column =>
    (net.observers t).foldlM (fun s r =>
      if net.startFigure r = t then prepareFkForDelete depth s r column else some s) s

def prepareFkForDelete : ℕ → State n m → Fin m → ℕ → Option (State n m)
  | 0, _, _, _ => none
  | depth + 1, s, r, column =>
    prepareForDeleteFkColumn depth (s.forget r column) (net.endFigure r) column

end

end Delete

section Update

mutual

def updateFkObservers : ℕ → State n m → Fin n → Option (State n m)
  | 0, _, _ => none
  | depth + 1, s, t =>
    (net.observers t).foldlM (fun s r =>
      if net.startFigure r = t then updateForeignKey depth s r else some s) s
termination_by structural x => x

def updateForeignKey : ℕ → State n m → Fin m → Option (State n m)
  | 0, _, _ => none
  | depth + 1, s, r =>
    let s := { s with updated := s.updated ++ [r] }
    (columnLoop depth (net.syncNames s r) r 0).bind fun s =>
      if net.fkIdentifying r then updateFkObservers depth s (net.endFigure r) else some s
termination_by structural x => x

def columnLoop : ℕ → State n m → Fin m → ℕ → Option (State n m)
  | 0, _, _, _ => none
  | depth + 1, s, r, place =>
    match (s.tables (net.startFigure r)).columns[place]? with
    | none => some s
    | some column =>
      (addItem depth s r column).bind fun s =>
        (dropLoop depth s r).bind fun s => columnLoop depth s r (place + 1)
termination_by structural x => x

def addItem : ℕ → State n m → Fin m → ddColumnFigure → Option (State n m)
  | 0, _, _, _ => none
  | depth + 1, s, r, column =>
    let known := (s.chm r).any fun item => item.originalStartColName = column.columnName
    if net.sourceKey r column && !known then
      let new := net.newItem s r column
      let s := { s with newId := s.newId + 1 }
      (if net.fkIdentifying r then updateFkObservers depth s (net.endFigure r) else some s).map
        fun s => (s.onItems r fun items => setItem items new.2).onTable (net.endFigure r) fun t =>
          { t with columns := t.columns ++ [new.1] }
    else some s
termination_by structural x => x

def dropLoop : ℕ → State n m → Fin m → Option (State n m)
  | 0, _, _ => none
  | depth + 1, s, r =>
    match (s.chm r).find? (net.stale s r) with
    | none => some s
    | some item =>
      (if item.fkIsAutoGenerated then removeColumn depth s (net.endFigure r) item.fkColumn
        else some (s.onTable (net.endFigure r) fun t => makePlain t item.fkColumn)).bind
        fun s => dropLoop depth
          (s.onItems r fun items => eraseItem items item.originalStartColName) r
termination_by structural x => x

def removeColumn : ℕ → State n m → Fin n → ℕ → Option (State n m)
  | 0, _, _, _ => none
  | depth + 1, s, t, id =>
    let key := (((s.tables t).column? id).map fun column =>
      column.isPrimaryKey || column.isUniqueKey).getD false
    (if key then
        (disablePrimaryKey depth s t id).bind fun s => disableUniqueKey depth s t id
      else some s).map fun s => s.onTable t fun t => dropFigure t id
termination_by structural x => x

def disablePrimaryKey : ℕ → State n m → Fin n → ℕ → Option (State n m)
  | 0, _, _, _ => none
  | depth + 1, s, t, id =>
    (net.prepareForDeleteFkColumn depth s t id).bind fun s =>
      updateFkObservers depth (s.onTable t fun t => t.disablePrimaryKey id) t
termination_by structural x => x

def disableUniqueKey : ℕ → State n m → Fin n → ℕ → Option (State n m)
  | 0, _, _, _ => none
  | depth + 1, s, t, id => updateFkObservers depth (s.onTable t fun t => t.disableUniqueKey id) t
termination_by structural x => x

end

def enablePrimaryKey (depth : ℕ) (s : State n m) (t : Fin n) (id : ℕ) : Option (State n m) :=
  net.updateFkObservers depth (s.onTable t fun t => t.enablePrimaryKey id) t

end Update

section Disconnect

def observedBy (observers : Fin n → List (Fin m)) : Network n m := { net with observers := observers }

def removeForeignKeys : ℕ → State n m → Fin m → Option (State n m)
  | 0, _, _ => none
  | depth + 1, s, r =>
    let table := net.endFigure r
    match (s.chm r).find? fun item => ((s.tables table).column? item.fkColumn).isSome with
    | none => some (s.onItems r fun _ => [])
    | some item =>
      (if item.fkIsAutoGenerated then net.removeColumn depth s table item.fkColumn
        else some (s.onTable table fun t => makePlain t item.fkColumn)).bind
        fun s => removeForeignKeys depth
          (s.onItems r fun items => eraseItem items item.originalStartColName) r

end Disconnect

section Identifying

def toggled (r : Fin m) : Network n m :=
  { net with
    fkMandatory := Function.update net.fkMandatory r true
    fkIdentifying := Function.update net.fkIdentifying r (!net.fkIdentifying r) }

def updatePkAtFkCols (depth : ℕ) (s : State n m) (r : Fin m) : Option (State n m) :=
  let items := (s.chm r).filter ddRelationshipItem.fkIsAutoGenerated
  (items.foldlM (fun s item =>
      if net.fkIdentifying r then net.enablePrimaryKey depth s (net.endFigure r) item.fkColumn
      else net.disablePrimaryKey depth s (net.endFigure r) item.fkColumn) s).bind fun s =>
    if items ≠ [] then net.updateFkObservers depth s (net.endFigure r) else some s

def toggleIdentifying (depth : ℕ) (s : State n m) (r : Fin m) : Option (State n m) :=
  (net.toggled r).updatePkAtFkCols depth s r

end Identifying
end Network
end PgAdmin.ddNetwork
