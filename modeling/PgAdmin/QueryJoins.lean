import Mathlib.Logic.Function.Basic
import PgAdmin.QueryColumns

/-! The joins of the graphical query builder: each is listed at the table it leaves, registered at the table
it goes to, and a row of the joins grid. Tables in the query and joins are numbered as they are made; what
has no value is deleted, or NULL. none stands for the use of such an object. -/
namespace PgAdmin.gqbJoins
open gqb (gqbTable)

inductive type_Join where
  | equally
  | lesser
  | greater
  | equlesser
  | equgreater
  deriving DecidableEq

structure gqbQueryJoin where
  owner : Option ℕ
  destination : Option ℕ
  sCol : Option ℕ
  dCol : Option ℕ
  kindofJoin : type_Join
  deriving DecidableEq

namespace gqbQueryJoin

def ends (join : gqbQueryJoin) : Option (ℕ × ℕ) :=
  match join.owner, join.destination with
  | some s, some d => some (s, d)
  | _, _ => none

def table? (join : gqbQueryJoin) (isSource : Bool) : Option ℕ :=
  if isSource then join.owner else join.destination

def column? (join : gqbQueryJoin) (isSource : Bool) : Option ℕ :=
  if isSource then join.sCol else join.dCol

def withEnd (join : gqbQueryJoin) (isSource : Bool) (table column : ℕ) : gqbQueryJoin :=
  if isSource then { join with owner := some table, sCol := some column }
  else { join with destination := some table, dCol := some column }

end gqbQueryJoin

/- The members of the tables in the query as functions of the table; joins are the rows of the grid. -/
structure Model where
  queryCollection : List ℕ
  parent : ℕ → Option gqbTable
  joinsCollection : ℕ → Option (List ℕ)
  registeredCollection : ℕ → Option (List ℕ)
  join : ℕ → Option gqbQueryJoin
  joins : List ℕ
  next : ℕ

def Init : Model := ⟨[], fun _ => none, fun _ => none, fun _ => none, fun _ => none, [], 0⟩

def kept (items : List ℕ) : Option (List ℕ) := if items.length ≤ 0 then none else some items

namespace gqbQueryObject

def registerJoin (m : Model) (object join : ℕ) : Model :=
  let items := (m.registeredCollection object).getD [] ++ [join]
  { m with registeredCollection := Function.update m.registeredCollection object (some items) }

def addJoin (m : Model) (owner observable : ℕ) (source destination : Option ℕ) (kind : type_Join) :
    Option (Model × ℕ) := do
  let _ ← m.parent owner
  let _ ← m.parent observable
  let items := (m.joinsCollection owner).getD [] ++ [m.next]
  let added := { m with
    join := Function.update m.join m.next (some ⟨some owner, some observable, source, destination, kind⟩)
    joinsCollection := Function.update m.joinsCollection owner (some items)
    next := m.next + 1 }
  pure (registerJoin added observable m.next, m.next)

/- The part of removeJoin after the notification: the join is deleted here by its owner. -/
def removeOwn (m : Model) (object join : ℕ) : Option Model := do
  let items ← m.joinsCollection object
  pure { m with
    join := Function.update m.join join none
    joinsCollection := Function.update m.joinsCollection object (kept (items.erase join)) }

def unregisterJoin (m : Model) (object join : ℕ) (removeIt : Bool) : Option Model := do
  let items ← m.registeredCollection object
  let m := { m with
    registeredCollection := Function.update m.registeredCollection object (some (items.erase join)) }
  let m ← if removeIt then do
      let source ← (← m.join join).owner
      removeOwn m source join
    else some m
  pure { m with
    registeredCollection := Function.update m.registeredCollection object (kept (items.erase join)) }

def removeJoin (m : Model) (object join : ℕ) (unRegister : Bool) : Option Model := do
  let m ← if unRegister then do
      let destination ← (← m.join join).destination
      unregisterJoin m destination join false
    else some m
  removeOwn m object join

/- One loop of the destructor. Its iterator reads the collection also after the last removal has deleted
it; emptied tells whether the memory still shows an empty collection there. -/
def removeEach (emptied : Bool) (collection : Model → Option (List ℕ)) (remove : Model → ℕ → Option Model) :
    ℕ → Model → Option Model
  | 0, _ => none
  | turns + 1, m =>
    match collection m with
    | none => if emptied then some m else none
    | some [] => some m
    | some (join :: _) => (remove m join).bind (removeEach emptied collection remove turns)

def removeAll (emptied : Bool) (collection : Model → Option (List ℕ)) (remove : Model → ℕ → Option Model)
    (m : Model) : Option Model :=
  match collection m with
  | none => some m
  | some items => removeEach emptied collection remove (items.length + 1) m

def delete (emptied : Bool) (m : Model) (object : ℕ) : Option Model := do
  let _ ← m.parent object
  let m ← removeAll emptied (·.registeredCollection object) (unregisterJoin · object · true) m
  let m ← removeAll emptied (·.joinsCollection object) (removeJoin · object · true) m
  pure { m with parent := Function.update m.parent object none }

end gqbQueryObject

namespace gqbModel

def addTable (m : Model) (table : gqbTable) : Model :=
  { m with
    queryCollection := m.queryCollection ++ [m.next]
    parent := Function.update m.parent m.next (some table)
    next := m.next + 1 }

def deleteTable (emptied : Bool) (m : Model) (modelTable : ℕ) : Option Model :=
  gqbQueryObject.delete emptied { m with queryCollection := m.queryCollection.erase modelTable } modelTable

end gqbModel

namespace gqbGridJoinTable

def AppendJoin (m : Model) (item : Option ℕ) : Model :=
  match item with
  | some item => { m with joins := m.joins ++ [item] }
  | none => { m with
      join := Function.update m.join m.next (some ⟨none, none, none, none, .equally⟩)
      joins := m.joins ++ [m.next]
      next := m.next + 1 }

def removeJoin (m : Model) (item : ℕ) : Model := { m with joins := m.joins.erase item }

def removeJoins (m : Model) (obj : ℕ) : Option Model := do
  let _ ← m.parent obj
  let m := ((m.joinsCollection obj).getD []).foldl removeJoin m
  pure (((m.registeredCollection obj).getD []).foldl removeJoin m)

def ReplaceJoin (m : Model) (orig newVal : ℕ) : Model := { m with joins := m.joins.replace orig newVal }

def DeleteRow (m : Model) (pos : ℕ) : Option Model :=
  if m.joins = [] then some m
  else do
    let item ← m.joins[pos]?
    let join ← m.join item
    let m := removeJoin m item
    match join.ends with
    | some (source, _) => gqbQueryObject.removeJoin m source item true
    | none => pure m

def SetValue (m : Model) (row : ℕ) (kind : type_Join) : Option Model := do
  let item ← m.joins[row]?
  let join ← m.join item
  pure { m with join := Function.update m.join item (some { join with kindofJoin := kind }) }

end gqbGridJoinTable

namespace gqbJoinsPopUp

def offers (m : Model) (join : gqbQueryJoin) (isSource : Bool) (table column : ℕ) : Bool :=
  decide (table ∈ m.queryCollection) && decide (join.table? (!isSource) ≠ some table) &&
    (m.parent table).any fun parent => decide (column ∈ parent.columns)

def newJoin (m : Model) (new : gqbQueryJoin) : Option (Model × ℕ) :=
  match new.ends with
  | some (srcTbl, destTbl) => gqbQueryObject.addJoin m srcTbl destTbl new.sCol new.dCol new.kindofJoin
  | none => some ({ m with join := Function.update m.join m.next (some new), next := m.next + 1 }, m.next)

def updateJoin (m : Model) (item : ℕ) (join : gqbQueryJoin) (isSource : Bool) (selectedTbl selectedCol : ℕ) :
    Option Model :=
  if join.column? isSource ≠ some selectedCol then do
    let (m, newJoin) ← newJoin m (join.withEnd isSource selectedTbl selectedCol)
    let m := gqbGridJoinTable.ReplaceJoin m item newJoin
    match join.ends with
    | some (srcObj, _) => gqbQueryObject.removeJoin m srcObj item true
    | none => pure { m with join := Function.update m.join item none }
  else some m

def choose (m : Model) (row : ℕ) (isSource : Bool) (selectedTbl selectedCol : ℕ) : Option Model := do
  let item ← m.joins[row]?
  let join ← m.join item
  if offers m join isSource selectedTbl selectedCol then
    updateJoin m item join isSource selectedTbl selectedCol
  else some m

end gqbJoinsPopUp

namespace gqbView

def drawJoin (m : Model) (joinSource : ℕ) (joinSCol : Option ℕ) (joinDest : ℕ) (joinDCol : Option ℕ) :
    Option Model :=
  if joinDest = joinSource then some m
  else
    match joinDCol with
    | none => some m
    | some joinDCol => do
      let (m, qj) ← gqbQueryObject.addJoin m joinSource joinDest joinSCol (some joinDCol) .equally
      pure (gqbGridJoinTable.AppendJoin m (some qj))

def deleteJoin (m : Model) (item : ℕ) : Option Model := do
  let m := gqbGridJoinTable.removeJoin m item
  let source ← (← m.join item).owner
  gqbQueryObject.removeJoin m source item true

def deleteTable (emptied : Bool) (m : Model) (table : ℕ) : Option Model := do
  let m ← gqbGridJoinTable.removeJoins m table
  gqbModel.deleteTable emptied m table

end gqbView

inductive Op where
  | addTable (table : gqbTable)
  | drawJoin (joinSource : ℕ) (joinSCol : Option ℕ) (joinDest : ℕ) (joinDCol : Option ℕ)
  | addRow
  | choose (row : ℕ) (isSource : Bool) (table column : ℕ)
  | setKind (row : ℕ) (kind : type_Join)
  | deleteJoin (item : ℕ)
  | deleteRow (pos : ℕ)
  | deleteTable (table : ℕ)

def step (emptied : Bool) (m : Model) : Op → Option Model
  | .addTable table => some (gqbModel.addTable m table)
  | .drawJoin joinSource joinSCol joinDest joinDCol =>
    gqbView.drawJoin m joinSource joinSCol joinDest joinDCol
  | .addRow => some (gqbGridJoinTable.AppendJoin m none)
  | .choose row isSource table column => gqbJoinsPopUp.choose m row isSource table column
  | .setKind row kind => gqbGridJoinTable.SetValue m row kind
  | .deleteJoin item => gqbView.deleteJoin m item
  | .deleteRow pos => gqbGridJoinTable.DeleteRow m pos
  | .deleteTable table => gqbView.deleteTable emptied m table

def run (emptied : Bool) (ops : List Op) : Option Model := ops.foldlM (step emptied) Init

end PgAdmin.gqbJoins
