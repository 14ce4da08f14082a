import PgAdmin.DesignTable

/-! The script of a whole design (ddDatabaseDesign::generateModel): the tables, then their primary
keys, their unique constraints and their foreign keys. A foreign key is found through the observers
of its destination table. -/
namespace PgAdmin.ddDesign
open PgsObjects (Text)

inductive actionKind where
  | FK_ACTION_NO
  | FK_RESTRICT
  | FK_CASCADE
  | FK_SETNULL
  | FK_SETDEFAULT
  deriving DecidableEq, Repr

structure ddRelationshipItem where
  original : ddColumnFigure
  fkColumn : ddColumnFigure
  deriving DecidableEq, Repr

structure ddRelationshipFigure where
  startFigure : ℕ
  endFigure : ℕ
  constraintName : Text
  matchSimple : Bool
  onDeleteAction : actionKind
  onUpdateAction : actionKind
  items : List ddRelationshipItem
  deriving DecidableEq, Repr

/- connectStart and connectEnd each add the relationship to the observers of their figure. -/
def ddRelationshipFigure.connections (r : ddRelationshipFigure) (figure : ℕ) :
    List ddRelationshipFigure :=
  (if r.startFigure = figure then [r] else []) ++ if r.endFigure = figure then [r] else []

structure Design where
  tables : List ddTableFigure
  relationships : List ddRelationshipFigure
  observers : ℕ → List ddRelationshipFigure
  connected : ∀ r ∈ relationships,
    r.startFigure < tables.length ∧ r.endFigure < tables.length
  observed : ∀ i, (observers i).Perm (relationships.flatMap fun r => r.connections i)

namespace Design

def table (d : Design) (i : ℕ) : Text := (d.tables[i]?.map ddTableFigure.tableName).getD []

end Design

inductive Token where
  | text (s : Text)
  | quoted (name : Text)
  deriving DecidableEq, Repr

abbrev Sql : Type := List Token

def text (s : Text) : Sql := [Token.text s]
def quoted (name : Text) : Sql := [Token.quoted name]

def createTableText : Text := "CREATE TABLE ".toList
def openColumns : Text := " (\n".toList
def notNullText : Text := " NOT NULL".toList
def nextColumn : Text := " , \n".toList
def closeColumns : Text := "\n ); ".toList
def alterTable : Text := "\nALTER TABLE ".toList
def addText : Text := " ADD ".toList
def constraintText : Text := "CONSTRAINT ".toList
def primaryKeyText : Text := "PRIMARY KEY ( ".toList
def uniqueText : Text := "UNIQUE ( ".toList
def foreignKeyText : Text := "FOREIGN KEY ( ".toList
def referencesText : Text := " REFERENCES ".toList
def openOriginals : Text := " ( ".toList
def nextKey : Text := " , ".toList
def nextUnique : Text := ", ".toList
def closeKey : Text := " ); ".toList
def closeItems : Text := " )".toList
def matchSimpleText : Text := " MATCH SIMPLE ".toList
def matchFullText : Text := " MATCH FULL ".toList
def onDeleteText : Text := " ON DELETE ".toList
def onUpdateText : Text := " ON UPDATE ".toList
def endStatement : Text := ";\n".toList

def actionText : actionKind → Text
  | .FK_ACTION_NO => " NO ACTION ".toList
  | .FK_RESTRICT => " RESTRICT ".toList
  | .FK_CASCADE => " CASCADE ".toList
  | .FK_SETNULL => " SET NULL ".toList
  | .FK_SETDEFAULT => " SET DEFAULT ".toList

def qualified (schemaName table : Text) : Sql :=
  if schemaName ≠ [] then quoted schemaName ++ text ['.'] ++ quoted table else quoted table

def constraint (name : Text) : Sql :=
  if name ≠ [] then text constraintText ++ quoted name ++ text [' '] else []

def ddColumnFigure.generateSQL (c : ddColumnFigure) : Sql :=
  quoted c.columnName ++ text [' '] ++ text c.dataType

namespace ddTableFigure

def createLoop : List ddColumnFigure → Sql
  | [] => []
  | column :: rest =>
    column.generateSQL ++ (if column.notNull then text notNullText else []) ++
      (if rest ≠ [] then text nextColumn else []) ++ createLoop rest

def generateSQLCreate (t : ddTableFigure) (schemaName : Text) : Sql :=
  text createTableText ++ qualified schemaName t.tableName ++ text openColumns ++
    createLoop t.columns ++ text closeColumns

def pkLoop : ℕ → List ddColumnFigure → Sql
  | _, [] => []
  | contPk, column :: rest =>
    if column.isPrimaryKey then
      let contPk := contPk - 1
      quoted column.columnName ++ text (if 0 < contPk then nextKey else closeKey) ++
        pkLoop contPk rest
    else pkLoop contPk rest

def generateSQLAlterPks (t : ddTableFigure) (schemaName : Text) : Sql :=
  let contPk := t.columns.countP ddColumnFigure.isPrimaryKey
  if 0 < contPk then
    text alterTable ++ qualified schemaName t.tableName ++ text addText ++
      constraint t.pkName ++ text primaryKeyText ++ pkLoop contPk t.columns
  else []

def maxUk (t : ddTableFigure) : ℤ :=
  t.columns.foldl (fun maxUk column =>
    if column.isUniqueKey ∧ maxUk < column.ukIndex then column.ukIndex else maxUk) (-1)

def ukLoop (i : ℕ) : ℕ → List ddColumnFigure → Sql
  | _, [] => []
  | countUk, column :: rest =>
    if column.isUniqueKey ∧ column.ukIndex = i then
      let countUk := countUk - 1
      quoted column.columnName ++ (if 0 < countUk then text nextUnique else []) ++
        ukLoop i countUk rest
    else ukLoop i countUk rest

def generateSQLAlterUks (t : ddTableFigure) (schemaName : Text) : Sql :=
  (List.range (t.maxUk + 1).toNat).flatMap fun i =>
    text alterTable ++ qualified schemaName t.tableName ++ text addText ++
      constraint (t.ukNames.getD i []) ++ text uniqueText ++
      ukLoop i (t.columns.countP fun column => column.ukIndex = (i : ℤ)) t.columns ++
      text closeKey

end ddTableFigure

def itemLoop : List Text → Sql
  | [] => []
  | name :: rest =>
    quoted name ++ text (if rest ≠ [] then nextKey else closeItems) ++ itemLoop rest

def ddRelationshipFigure.generateSQL (r : ddRelationshipFigure) (d : Design) (schemaName : Text) :
    Sql :=
  if 0 < r.items.length then
    text alterTable ++ qualified schemaName (d.table r.endFigure) ++ text addText ++
      constraint r.constraintName ++ text foreignKeyText ++
      itemLoop (r.items.map fun item => item.fkColumn.columnName) ++ text referencesText ++
      qualified schemaName (d.table r.startFigure) ++ text openOriginals ++
      itemLoop (r.items.map fun item => item.original.columnName) ++
      text (if r.matchSimple then matchSimpleText else matchFullText) ++ text onDeleteText ++
      text (actionText r.onDeleteAction) ++ text onUpdateText ++
      text (actionText r.onUpdateAction) ++ text endStatement
  else []

namespace Design

def generateSQLAlterFks (d : Design) (i : ℕ) (schemaName : Text) : Sql :=
  (d.observers i).flatMap fun rel =>
    if rel.startFigure ≠ i then rel.generateSQL d schemaName else []

def blank : Text := " \n".toList
def createNote : Text :=
  " \n--\n-- Generating Create sentence(s) for table(s)  \n--\n \n".toList
def pkNote : Text :=
  " \n \n \n--\n-- Generating Pk sentence for table(s)  \n--\n \n \n".toList
def ukNote : Text :=
  " \n \n \n--\n-- Generating Uk sentence(s) for table(s)  \n--\n \n \n".toList
def fkNote : Text :=
  " \n \n \n--\n-- Generating Fk sentence(s) for table(s)  \n--\n \n \n".toList

def generateModel (d : Design) (schemaName : Text) : Sql :=
  text createNote ++
    (d.tables.flatMap fun table =>
      text blank ++ table.generateSQLCreate schemaName ++ text blank) ++
    text pkNote ++ (d.tables.flatMap fun table => table.generateSQLAlterPks schemaName) ++
    text ukNote ++ (d.tables.flatMap fun table => table.generateSQLAlterUks schemaName) ++
    text fkNote ++
    (List.range d.tables.length).flatMap fun i => d.generateSQLAlterFks i schemaName

end Design
end PgAdmin.ddDesign
