import PgAdmin.DesignModel
import PgAdmin.UniqueNumbering

/-! The script of a design as statements, and what a complete script is. The generated text is the
statements written one after another. -/
namespace PgAdmin.ddDesign
open PgsObjects (Text)

inductive Statement where
  | note (s : Text)
  | createTable (table : Text) (columns : List (Text × Text × Bool))
  | addPrimaryKey (table name : Text) (columns : List Text)
  | addUnique (table name : Text) (columns : List Text)
  | addForeignKey (table name : Text) (pairs : List (Text × Text)) (referenced : Text)
      (matchSimple : Bool) (onDelete onUpdate : actionKind)
  deriving DecidableEq, Repr

inductive Kind where
  | note
  | create
  | primaryKey
  | unique
  | foreignKey
  deriving DecidableEq, Repr

namespace Statement

def kind : Statement → Kind
  | note _ => .note
  | createTable .. => .create
  | addPrimaryKey .. => .primaryKey
  | addUnique .. => .unique
  | addForeignKey .. => .foreignKey

def definition (column : Text × Text × Bool) : Sql :=
  quoted column.1 ++ text [' '] ++ text column.2.1 ++ if column.2.2 then text notNullText else []

def alter (schemaName table name : Text) : Sql :=
  text alterTable ++ qualified schemaName table ++ text addText ++ constraint name

def render (schemaName : Text) : Statement → Sql
  | note s => text s
  | createTable table columns =>
    text createTableText ++ qualified schemaName table ++ text openColumns ++
      (text nextColumn).intercalate (columns.map definition) ++ text closeColumns
  | addPrimaryKey table name columns =>
    alter schemaName table name ++ text primaryKeyText ++
      (text nextKey).intercalate (columns.map quoted) ++ text closeKey
  | addUnique table name columns =>
    alter schemaName table name ++ text uniqueText ++
      (text nextUnique).intercalate (columns.map quoted) ++ text closeKey
  | addForeignKey table name pairs referenced matchSimple onDelete onUpdate =>
    alter schemaName table name ++ text foreignKeyText ++
      (text nextKey).intercalate (pairs.map fun pair => quoted pair.1) ++ text closeItems ++
      text referencesText ++ qualified schemaName referenced ++ text openOriginals ++
      (text nextKey).intercalate (pairs.map fun pair => quoted pair.2) ++ text closeItems ++
      text (if matchSimple then matchSimpleText else matchFullText) ++ text onDeleteText ++
      text (actionText onDelete) ++ text onUpdateText ++ text (actionText onUpdate) ++
      text endStatement

def Made (before : List Statement) (table : Text) : Prop := ∃ columns, createTable table columns ∈ before

def MadeKey (before : List Statement) (table : Text) (columns : List Text) : Prop :=
  ∃ name key, key.Perm columns ∧ (addPrimaryKey table name key ∈ before ∨ addUnique table name key ∈ before)

def Ready (before : List Statement) : Statement → Prop
  | note _ => True
  | createTable .. => True
  | addPrimaryKey table _ _ => Made before table
  | addUnique table _ _ => Made before table
  | addForeignKey table _ pairs referenced _ _ _ =>
    Made before table ∧ Made before referenced ∧ MadeKey before referenced (pairs.map Prod.snd)

def Ordered (before : List Statement) : List Statement → Prop
  | [] => True
  | s :: rest => s.Ready before ∧ Ordered (before ++ [s]) rest

end Statement

open Statement

namespace ddTableFigure

def creation (t : ddTableFigure) : Statement :=
  .createTable t.tableName (t.columns.map fun c => (c.columnName, c.dataType, c.notNull))

def keyColumns (t : ddTableFigure) : List Text :=
  (t.columns.filter ddColumnFigure.isPrimaryKey).map ddColumnFigure.columnName

def primaryKey (t : ddTableFigure) : Statement :=
  .addPrimaryKey t.tableName t.pkName t.keyColumns

def constraintColumns (t : ddTableFigure) (i : ℕ) : List Text :=
  (t.columns.filter fun c => c.ukIndex = (i : ℤ)).map ddColumnFigure.columnName

def unique (t : ddTableFigure) (i : ℕ) : Statement :=
  .addUnique t.tableName (t.ukNames.getD i []) (t.constraintColumns i)

end ddTableFigure

def ddRelationshipFigure.foreignKey (r : ddRelationshipFigure) (d : Design) : Statement :=
  .addForeignKey (d.table r.endFigure) r.constraintName
    (r.items.map fun item => (item.fkColumn.columnName, item.original.columnName))
    (d.table r.startFigure) r.matchSimple r.onDeleteAction r.onUpdateAction

def ddTableFigure.HasKey (t : ddTableFigure) (columns : List Text) : Prop :=
  (t.keyColumns ≠ [] ∧ t.keyColumns.Perm columns) ∨
    ∃ i < t.ukNames.length, (t.constraintColumns i).Perm columns

/- The source columns of the items are a key of the table they come from. -/
def Design.References (d : Design) (r : ddRelationshipFigure) : Prop :=
  ∃ t ∈ d.tables, t.tableName = d.table r.startFigure ∧
    t.HasKey (r.items.map fun item => item.original.columnName)

/- What a complete script has: every table once, a primary key for each table with key columns, a
unique constraint for each constraint name, a foreign key for each relationship with items, and before
every statement what it refers to. -/
structure Complete (d : Design) (script : List Statement) : Prop where
  creates : script.filter (fun s => s.kind = .create) = d.tables.map ddTableFigure.creation
  primaryKeys : script.filter (fun s => s.kind = .primaryKey) =
    (d.tables.filter fun t => t.keyColumns ≠ []).map ddTableFigure.primaryKey
  uniques : script.filter (fun s => s.kind = .unique) =
    d.tables.flatMap fun t => (List.range t.ukNames.length).map t.unique
  foreignKeys : (script.filter fun s => s.kind = .foreignKey).Perm
    ((d.relationships.filter fun r => r.items ≠ []).map fun r => r.foreignKey d)
  ordered : Ordered [] script

namespace Design

def creations (d : Design) : List Statement :=
  .note createNote :: d.tables.flatMap fun t => [.note blank, t.creation, .note blank]

def primaryKeys (d : Design) : List Statement :=
  .note pkNote :: (d.tables.filter fun t => t.keyColumns ≠ []).map ddTableFigure.primaryKey

def uniques (d : Design) : List Statement :=
  .note ukNote :: d.tables.flatMap fun t => (List.range t.ukNames.length).map t.unique

def foreignKeys (d : Design) : List Statement :=
  .note fkNote :: (List.range d.tables.length).flatMap fun i => (d.observers i).flatMap fun rel =>
    if rel.startFigure ≠ i ∧ rel.items ≠ [] then [rel.foreignKey d] else []

def script (d : Design) : List Statement :=
  d.creations ++ (d.primaryKeys ++ (d.uniques ++ d.foreignKeys))

end Design

section Rendering
variable {schemaName : Text}

theorem createLoopJoined (columns : List ddColumnFigure) : ddTableFigure.createLoop columns =
    (text nextColumn).intercalate
      (columns.map fun c => definition (c.columnName, c.dataType, c.notNull)) := by
  induction columns with
  | nil => rfl
  | cons column rest ih =>
    unfold ddTableFigure.createLoop
    rw [ih]
    cases rest with
    | nil => simp [definition, ddColumnFigure.generateSQL]
    | cons next rest =>
      simp [definition, ddColumnFigure.generateSQL, List.intercalate_cons_cons]

theorem itemLoopJoined {names : List Text} (some' : names ≠ []) :
    itemLoop names = (text nextKey).intercalate (names.map quoted) ++ text closeItems := by
  induction names with
  | nil => exact absurd rfl some'
  | cons name rest ih =>
    unfold itemLoop
    cases rest with
    | nil => simp [itemLoop]
    | cons next rest =>
      rw [ih (List.cons_ne_nil _ _)]
      simp [List.intercalate_cons_cons]

theorem pkLoopJoined (columns : List ddColumnFigure) :
    ddTableFigure.pkLoop (columns.countP ddColumnFigure.isPrimaryKey) columns =
      if (columns.filter ddColumnFigure.isPrimaryKey) = [] then []
      else (text nextKey).intercalate ((columns.filter ddColumnFigure.isPrimaryKey).map
        fun c => quoted c.columnName) ++ text closeKey := by
  induction columns with
  | nil => rfl
  | cons column rest ih =>
    unfold ddTableFigure.pkLoop
    by_cases key : column.isPrimaryKey = true
    · rw [if_pos key, List.countP_cons_of_pos key, List.filter_cons_of_pos key]
      simp only [Nat.add_sub_cancel]
      rw [ih]
      cases left : rest.filter ddColumnFigure.isPrimaryKey with
      | nil =>
        have none : rest.countP ddColumnFigure.isPrimaryKey = 0 := by
          rw [List.countP_eq_length_filter, left, List.length_nil]
        simp [none]
      | cons next more =>
        have some' : 0 < rest.countP ddColumnFigure.isPrimaryKey := by
          rw [List.countP_eq_length_filter, left, List.length_cons]
          omega
        simp [some', List.intercalate_cons_cons]
    · rw [if_neg key, List.countP_cons_of_neg key, List.filter_cons_of_neg key]
      exact ih

theorem ukLoopJoined (i : ℕ) (columns : List ddColumnFigure) :
    ddTableFigure.ukLoop i (columns.countP fun c => c.ukIndex = (i : ℤ)) columns =
      (text nextUnique).intercalate ((columns.filter fun c => c.ukIndex = (i : ℤ)).map
        fun c => quoted c.columnName) := by
  induction columns with
  | nil => rfl
  | cons column rest ih =>
    unfold ddTableFigure.ukLoop
    by_cases here : column.ukIndex = (i : ℤ)
    · have unique : column.isUniqueKey = true := decide_eq_true (by omega)
      simp only [unique, here, and_self, List.countP_cons, List.filter_cons, decide_true, if_true,
        Nat.add_sub_cancel]
      rw [ih]
      cases left : rest.filter fun c => c.ukIndex = (i : ℤ) with
      | nil =>
        have none : rest.countP (fun c => c.ukIndex = (i : ℤ)) = 0 := by
          rw [List.countP_eq_length_filter, left, List.length_nil]
        simp [none]
      | cons next more =>
        have some' : 0 < rest.countP fun c => c.ukIndex = (i : ℤ) := by
          rw [List.countP_eq_length_filter, left, List.length_cons]
          omega
        simp [some', List.intercalate_cons_cons]
    · simp only [here, and_false, if_false, List.countP_cons, List.filter_cons, decide_false,
        Bool.false_eq_true, Nat.add_zero]
      exact ih

theorem maxUkNames {t : ddTableFigure} (numbered : t.Numbered) :
    (t.maxUk + 1).toNat = t.ukNames.length := by
  have above : ∀ (columns : List ddColumnFigure) (start : ℤ),
      let most := columns.foldl (fun maxUk column =>
        if column.isUniqueKey ∧ maxUk < column.ukIndex then column.ukIndex else maxUk) start
      start ≤ most ∧ (most = start ∨ ∃ c ∈ columns, c.ukIndex = most) ∧
        ∀ c ∈ columns, c.isUniqueKey = true → c.ukIndex ≤ most := by
    intro columns
    induction columns with
    | nil => exact fun start => ⟨le_rfl, .inl rfl, fun c member => absurd member List.not_mem_nil⟩
    | cons column rest ih =>
      intro start
      rw [List.foldl_cons]
      obtain ⟨more, from', all⟩ := ih
        (if column.isUniqueKey ∧ start < column.ukIndex then column.ukIndex else start)
      refine ⟨le_trans ?_ more, ?_, fun c member unique => ?_⟩
      · split
        · rename_i larger
          exact larger.2.le
        · exact le_rfl
      · rcases from' with same | ⟨c, member, index⟩
        · rw [same]
          split
          · exact .inr ⟨column, List.mem_cons_self, rfl⟩
          · exact .inl rfl
        · exact .inr ⟨c, List.mem_cons_of_mem _ member, index⟩
      · rcases List.mem_cons.mp member with rfl | member
        · refine le_trans ?_ more
          split
          · exact le_rfl
          · rename_i smaller
            exact not_lt.mp fun larger => smaller ⟨unique, larger⟩
        · exact all c member unique
  obtain ⟨start, from', all⟩ := above t.columns (-1)
  change (-1 : ℤ) ≤ t.maxUk at start
  have upper : t.maxUk < t.ukNames.length := by
    rcases from' with none | ⟨c, member, index⟩
    · change t.maxUk = -1 at none
      omega
    · change c.ukIndex = t.maxUk at index
      have range := numbered.bounded c member
      omega
  have lower : (t.ukNames.length : ℤ) - 1 ≤ t.maxUk := by
    by_contra less
    obtain ⟨c, member, index⟩ := numbered.used (t.ukNames.length - 1) (by omega)
    have bound := all c member (decide_eq_true (by omega))
    change c.ukIndex ≤ t.maxUk at bound
    omega
  omega

theorem noteRendered {s : Text} : render schemaName (.note s) = text s := rfl

theorem createRendered (t : ddTableFigure) :
    t.generateSQLCreate schemaName = t.creation.render schemaName := by
  rw [ddTableFigure.generateSQLCreate, ddTableFigure.creation, render, createLoopJoined,
    List.map_map]
  rfl

theorem pkRendered (t : ddTableFigure) : t.generateSQLAlterPks schemaName =
    if t.keyColumns ≠ [] then t.primaryKey.render schemaName else [] := by
  unfold ddTableFigure.generateSQLAlterPks
  simp only
  by_cases none : t.columns.filter ddColumnFigure.isPrimaryKey = []
  · have count : ¬ 0 < t.columns.countP ddColumnFigure.isPrimaryKey := by
      rw [List.countP_eq_length_filter, none]
      exact lt_irrefl 0
    rw [if_neg count, if_neg]
    simp [ddTableFigure.keyColumns, none]
  · have count : 0 < t.columns.countP ddColumnFigure.isPrimaryKey := by
      rw [List.countP_eq_length_filter]
      exact List.length_pos_of_ne_nil none
    rw [if_pos count, pkLoopJoined, if_neg none, if_pos]
    · rw [ddTableFigure.primaryKey, ddTableFigure.keyColumns, render, alter, List.map_map]
      simp only [List.append_assoc]
      rfl
    · simpa [ddTableFigure.keyColumns] using none

theorem uksRendered {t : ddTableFigure} (numbered : t.Numbered) :
    t.generateSQLAlterUks schemaName =
      ((List.range t.ukNames.length).map t.unique).flatMap (render schemaName) := by
  unfold ddTableFigure.generateSQLAlterUks
  rw [maxUkNames numbered, List.flatMap_map]
  refine List.flatMap_congr fun i _ => ?_
  rw [ddTableFigure.unique, ddTableFigure.constraintColumns, render, alter, ukLoopJoined,
    List.map_map]
  rfl

theorem fkRendered (r : ddRelationshipFigure) (d : Design) : r.generateSQL d schemaName =
    if r.items ≠ [] then (r.foreignKey d).render schemaName else [] := by
  unfold ddRelationshipFigure.generateSQL
  by_cases none : r.items = []
  · simp [none]
  · rw [if_pos (List.length_pos_of_ne_nil none), if_pos none]
    rw [itemLoopJoined (by simpa using none), itemLoopJoined (by simpa using none),
      ddRelationshipFigure.foreignKey, render, alter]
    simp only [List.map_map, List.append_assoc]
    rfl

theorem flatMapFilter {A B : Type} (xs : List A) (keep : A → Bool) (f : A → List B) :
    (xs.filter keep).flatMap f = xs.flatMap fun x => if keep x then f x else [] := by
  induction xs with
  | nil => rfl
  | cons x xs ih =>
    rw [List.filter_cons, List.flatMap_cons, ← ih]
    split <;> rfl

/-- The generated text is the script written out. -/
theorem scriptRendered (d : Design) (numbered : ∀ t ∈ d.tables, t.Numbered) :
    d.generateModel schemaName = d.script.flatMap (render schemaName) := by
  have creates : d.creations.flatMap (render schemaName) = text Design.createNote ++
      d.tables.flatMap fun t => text Design.blank ++ t.generateSQLCreate schemaName ++ text Design.blank := by
    simp only [Design.creations, List.flatMap_cons, List.flatMap_assoc, createRendered, noteRendered,
      List.flatMap_nil, List.append_nil, List.append_assoc]
  have pks : d.primaryKeys.flatMap (render schemaName) = text Design.pkNote ++
      d.tables.flatMap fun t => t.generateSQLAlterPks schemaName := by
    rw [Design.primaryKeys, List.flatMap_cons, noteRendered, List.flatMap_map, flatMapFilter]
    exact congrArg (text Design.pkNote ++ ·) (List.flatMap_congr fun t _ => by
      rw [pkRendered]
      by_cases none : t.keyColumns = [] <;> simp [none])
  have uks : d.uniques.flatMap (render schemaName) = text Design.ukNote ++
      d.tables.flatMap fun t => t.generateSQLAlterUks schemaName := by
    rw [Design.uniques, List.flatMap_cons, noteRendered, List.flatMap_assoc]
    exact congrArg (text Design.ukNote ++ ·) (List.flatMap_congr fun t member =>
      (uksRendered (numbered t member)).symm)
  have fks : d.foreignKeys.flatMap (render schemaName) = text Design.fkNote ++
      (List.range d.tables.length).flatMap fun i => d.generateSQLAlterFks i schemaName := by
    rw [Design.foreignKeys, List.flatMap_cons, noteRendered, List.flatMap_assoc]
    refine congrArg (text Design.fkNote ++ ·) (List.flatMap_congr fun i _ => ?_)
    rw [List.flatMap_assoc, Design.generateSQLAlterFks]
    refine List.flatMap_congr fun rel _ => ?_
    rw [fkRendered]
    by_cases other : rel.startFigure = i
    · simp [other]
    · by_cases none : rel.items = [] <;> simp [other, none]
  unfold Design.generateModel Design.script
  rw [List.flatMap_append, List.flatMap_append, List.flatMap_append, creates, pks, uks, fks]
  simp only [List.append_assoc]

end Rendering
end PgAdmin.ddDesign
