import PgAdmin.SourceChains
import PgAdmin.TypeModifiers

/-! The data types of the columns of a design (ddTextTableItemFigure). A column generated for a foreign key takes its
type, precision and scale from the original of its relationship item and keeps them; what writes the SQL reads the kept
type. -/
namespace PgAdmin.ddTypes
open PgsObjects (Text)
open SourceChains

inductive ddDataType where
  | dt_null | dt_serial | dt_boolean | dt_integer | dt_money | dt_varchar
  | dt_bigint | dt_bit | dt_bytea | dt_char | dt_cidr | dt_circle | dt_date | dt_doubleprec | dt_inet | dt_interval
  | dt_line | dt_Lseg | dt_macaddr | dt_numeric | dt_path | dt_point | dt_polygon | dt_real | dt_smallint | dt_text
  | dt_time | dt_timestamp | dt_varbit
  deriving DecidableEq, Repr

namespace ddDataType

/- dataTypes -/
def text : ddDataType → Text
  | dt_null => "ANY".toList
  | dt_serial => "serial".toList
  | dt_boolean => "boolean".toList
  | dt_integer => "integer".toList
  | dt_money => "money".toList
  | dt_varchar => "varchar(n)".toList
  | dt_bigint => "bigint".toList
  | dt_bit => "bit(n)".toList
  | dt_bytea => "bytea".toList
  | dt_char => "char(n)".toList
  | dt_cidr => "cidr".toList
  | dt_circle => "circle".toList
  | dt_date => "date".toList
  | dt_doubleprec => "double precision".toList
  | dt_inet => "inet".toList
  | dt_interval => "interval(n)".toList
  | dt_line => "line".toList
  | dt_Lseg => "lseg".toList
  | dt_macaddr => "macaddr".toList
  | dt_numeric => "numeric(p,s)".toList
  | dt_path => "path".toList
  | dt_point => "point".toList
  | dt_polygon => "polygon".toList
  | dt_real => "real".toList
  | dt_smallint => "smallint".toList
  | dt_text => "text".toList
  | dt_time => "time".toList
  | dt_timestamp => "timestamp".toList
  | dt_varbit => "varbit(n)".toList

def havePrecision (type : ddDataType) : Bool :=
  type = dt_numeric || type = dt_bit || type = dt_char || type = dt_interval || type = dt_varbit || type = dt_varchar

def sized (type : ddDataType) (precision scale : ℤ) : Text :=
  if type.havePrecision ∧ 0 ≤ precision then
    type.text.takeWhile (· ≠ '(') ++
      if scale = -1 then '(' :: pgDatatype.NumToStr precision ++ [')']
      else '(' :: pgDatatype.NumToStr precision ++ ',' :: pgDatatype.NumToStr scale ++ [')']
  else type.text

end ddDataType

structure ddRelationshipItem where
  ownerRel : ℕ
  original : ℕ
  deriving DecidableEq

/- The first field tells which object the column is; a column without fkSource was made by the user. -/
structure ddColumnFigure where
  id : ℕ
  ownerTable : ℕ
  fkSource : Option ddRelationshipItem
  columnType : ddDataType
  precision : ℤ
  scale : ℤ
  deriving DecidableEq

def ddColumnFigure.isGeneratedForeignKey (column : ddColumnFigure) : Bool := column.fkSource.isSome

def columnNames : Naming ddColumnFigure := ⟨ddColumnFigure.id, fun column => column.fkSource.map (·.original)⟩

section Columns
variable (columns : List ddColumnFigure)

def column? (id : ℕ) : Option ddColumnFigure := columns.find? fun column => column.id = id

def typeField : Field columnNames ddDataType where
  get := ddColumnFigure.columnType
  set column type := { column with columnType := type }
  setSame _ := rfl
  idSet _ _ := rfl
  sourceSet _ _ := rfl

def precisionField : Field columnNames ℤ where
  get := ddColumnFigure.precision
  set column value := { column with precision := value }
  setSame _ := rfl
  idSet _ _ := rfl
  sourceSet _ _ := rfl

def scaleField : Field columnNames ℤ where
  get := ddColumnFigure.scale
  set column value := { column with scale := value }
  setSame _ := rfl
  idSet _ _ := rfl
  sourceSet _ _ := rfl

def getDataType (id : ℕ) : Option (ddDataType × List ddColumnFigure) := read typeField columns id
def getPrecision (id : ℕ) : Option (ℤ × List ddColumnFigure) := read precisionField columns id
def getScale (id : ℕ) : Option (ℤ × List ddColumnFigure) := read scaleField columns id

def sizedType (id : ℕ) (columnType : ddDataType) : Option (Text × List ddColumnFigure) :=
  if columnType.havePrecision then
    (getPrecision columns id).bind fun (precision, columns) =>
      if 0 ≤ precision then
        (getScale columns id).map fun (scale, columns) =>
          (columnType.sized precision scale, columns)
      else some (columnType.text, columns)
  else some (columnType.text, columns)

def getText (id : ℕ) : Option (Text × List ddColumnFigure) :=
  (column? columns id).bind fun column =>
    (getDataType columns id).bind fun (columnType, columns) =>
      (sizedType columns id columnType).map fun (ddType, columns) =>
        (if columnType = .dt_serial ∧ column.isGeneratedForeignKey then ddDataType.dt_integer.text else ddType, columns)

def getType (id : ℕ) (raw : Bool) : Option (Text × List ddColumnFigure) :=
  (column? columns id).bind fun column =>
    if raw then some (column.columnType.text, columns)
    else (sizedType columns id column.columnType).map fun (ddType, columns) =>
      (if column.columnType = .dt_serial ∧ column.isGeneratedForeignKey then ddDataType.dt_integer.text else ddType,
        columns)

def displayBoxUpdate (id : ℕ) : List ddColumnFigure := (getText columns id).elim columns Prod.snd

def updateTableSize (table : ℕ) : List ddColumnFigure :=
  ((columns.reverse.filter fun column => column.ownerTable = table).map (·.id)).foldl displayBoxUpdate columns

end Columns

section Showing
variable {columns columns' columns'' : List ddColumnFigure} {id : ℕ} {o : ddColumnFigure}

structure ShownAs (columns : List ddColumnFigure) (reached : Prop) (column shown : ddColumnFigure) : Prop where
  id : shown.id = column.id
  ownerTable : shown.ownerTable = column.ownerTable
  fkSource : shown.fkSource = column.fkSource
  plain : column.fkSource = none → shown = column
  reads : reached → ∀ o, original? columnNames columns column.id = some o → shown.columnType = o.columnType
  keeps : ¬ reached → shown.columnType = column.columnType

def Shown (reached : ℕ → Prop) (columns columns' : List ddColumnFigure) : Prop :=
  ∃ g : ddColumnFigure → ddColumnFigure, columns' = columns.map g ∧
    ∀ column ∈ columns, ShownAs columns (reached column.id) column (g column)

def never (_ : ℕ) : Prop := False

namespace Shown
variable {reached reached' : ℕ → Prop}

theorem refl (columns : List ddColumnFigure) : Shown never columns columns :=
  ⟨fun column => column, (List.map_id columns).symm,
    fun _ _ => ⟨rfl, rfl, rfl, fun _ => rfl, fun reached => reached.elim, fun _ => rfl⟩⟩

theorem named {g : ddColumnFigure → ddColumnFigure}
    (each : ∀ column ∈ columns, ShownAs columns (reached column.id) column (g column)) :
    ∀ column ∈ columns, columnNames.id (g column) = columnNames.id column ∧
      columnNames.source (g column) = columnNames.source column := by
  intro column inside
  have shown := each column inside
  exact ⟨shown.id, congrArg (Option.map ddRelationshipItem.original) shown.fkSource⟩

theorem ordered (shown : Shown reached columns columns') (ordered : Ordered columnNames columns) :
    Ordered columnNames columns' := by
  obtain ⟨g, rfl, each⟩ := shown
  exact mapOrdered (named each) ordered

theorem chain (shown : Shown reached columns columns') (id : ℕ) :
    SourceChains.chain columnNames columns' id = SourceChains.chain columnNames columns id := by
  obtain ⟨g, rfl, each⟩ := shown
  exact mapChain (named each) id

theorem original (shown : Shown reached columns columns') (id : ℕ) :
    original? columnNames columns' id = original? columnNames columns id := by
  obtain ⟨g, rfl, each⟩ := shown
  rw [mapOriginal (named each)]
  cases found : original? columnNames columns id with
  | none => rfl
  | some o =>
    obtain ⟨inside, plain⟩ := originalPlain found
    exact congrArg some ((each o inside).plain (Option.map_eq_none_iff.mp plain))

theorem trans (shown : Shown reached columns columns') (next : Shown reached' columns' columns'') :
    Shown (fun id => reached id ∨ reached' id) columns columns'' := by
  have originals := shown.original
  obtain ⟨g, rfl, each⟩ := shown
  obtain ⟨g', rfl, each'⟩ := next
  refine ⟨fun column => g' (g column), by rw [List.map_map]; rfl, fun column inside => ?_⟩
  have first := each column inside
  have second := each' (g column) (List.mem_map_of_mem inside)
  rw [first.id] at second
  refine ⟨second.id.trans first.id, second.ownerTable.trans first.ownerTable, second.fkSource.trans first.fkSource,
    fun plain => ?_, fun here o found => ?_, fun nowhere => ?_⟩
  · exact (second.plain (first.fkSource.trans plain)).trans (first.plain plain)
  · by_cases later : reached' column.id
    · exact second.reads later o (by rw [first.id, originals, found])
    · rw [second.keeps later]
      exact first.reads (here.resolve_right later) o found
  · rw [not_or] at nowhere
    rw [second.keeps nowhere.2, first.keeps nowhere.1]

theorem congr (shown : Shown reached columns columns') (same : ∀ id, reached id ↔ reached' id) :
    Shown reached' columns columns' := by
  obtain rfl : reached = reached' := funext fun id => propext (same id)
  exact shown

end Shown

/- A column is reached by the tables whose size is updated when one of their columns takes its type from it. -/
def Reached (columns : List ddColumnFigure) (tables : List ℕ) (id : ℕ) : Prop :=
  ∃ column ∈ columns, column.ownerTable ∈ tables ∧ id ∈ chain columnNames columns column.id

theorem reachedMap {g : ddColumnFigure → ddColumnFigure} (keeps : ∀ column ∈ columns,
    columnNames.id (g column) = columnNames.id column ∧ columnNames.source (g column) = columnNames.source column)
    (owners : ∀ column ∈ columns, (g column).ownerTable = column.ownerTable) (tables : List ℕ) (i : ℕ) :
    Reached (columns.map g) tables i ↔ Reached columns tables i := by
  unfold Reached
  simp only [mapChain keeps]
  constructor
  · rintro ⟨column, member, owner, here⟩
    obtain ⟨before, inside, rfl⟩ := List.mem_map.mp member
    rw [owners before inside] at owner
    rw [show (g before).id = before.id from (keeps before inside).1] at here
    exact ⟨before, inside, owner, here⟩
  · rintro ⟨column, inside, owner, here⟩
    refine ⟨g column, List.mem_map_of_mem inside, ?_, ?_⟩
    · rwa [owners column inside]
    · rwa [show (g column).id = column.id from (keeps column inside).1]

theorem reachedKept {reached : ℕ → Prop} (shown : Shown reached columns columns') (tables : List ℕ) (i : ℕ) :
    Reached columns' tables i ↔ Reached columns tables i := by
  obtain ⟨g, rfl, each⟩ := shown
  exact reachedMap (Shown.named each) (fun column inside => (each column inside).ownerTable) tables i

theorem columnFound (found : original? columnNames columns id = some o) :
    ∃ column ∈ columns, column? columns id = some column ∧ column.id = id := by
  obtain ⟨column, inside, here⟩ := List.mem_map.mp (originalInside found)
  cases look : column? columns id with
  | none => exact absurd (List.find?_eq_none.mp look column inside) (by simpa using (show column.id = id from here))
  | some other => exact ⟨other, List.mem_of_find?_eq_some look, rfl, by simpa using List.find?_some look⟩

theorem columnMissing (outside : id ∉ columns.map columnNames.id) : column? columns id = none := by
  refine List.find?_eq_none.mpr fun column member => ?_
  have other : column.id ≠ id := fun here => outside (here ▸ List.mem_map_of_mem member)
  simpa using other

variable (ordered : Ordered columnNames columns)
include ordered

theorem readShown {β : Type} (field : Field columnNames β) {reached : ℕ → Prop}
    (found : original? columnNames columns id = some o)
    (sets : ∀ column ∈ columns, column.id ∈ chain columnNames columns id →
      ShownAs columns (reached column.id) column (field.set column (field.get o)))
    (others : ∀ i, i ∉ chain columnNames columns id → ¬ reached i) :
    ∃ columns', read field columns id = some (field.get o, columns') ∧ Shown reached columns columns' := by
  refine ⟨_, readChain field ordered found, _, rfl, fun column inside => ?_⟩
  split
  case isTrue here => exact sets column inside here
  case isFalse away =>
    exact ⟨rfl, rfl, rfl, fun _ => rfl, fun here => absurd here (others column.id away), fun _ => rfl⟩

theorem plainOriginal {column : ddColumnFigure} (found : original? columnNames columns id = some o)
    (inside : column ∈ columns) (here : column.id ∈ chain columnNames columns id) (plain : column.fkSource = none) :
    column = o := by
  have self := originalSelf ordered inside (congrArg (Option.map ddRelationshipItem.original) plain)
  exact Option.some.inj (self.symm.trans ((chainOriginal ordered here).trans found))

theorem typeShown (found : original? columnNames columns id = some o) :
    ∃ columns', getDataType columns id = some (o.columnType, columns') ∧
      Shown (· ∈ chain columnNames columns id) columns columns' := by
  refine readShown ordered typeField found (fun column inside here => ?_) fun _ away => away
  refine ⟨rfl, rfl, rfl, fun plain => ?_, fun _ o' found' => ?_, fun away => absurd here away⟩
  · obtain rfl := plainOriginal ordered found inside here plain
    rfl
  · rw [chainOriginal ordered here, found] at found'
    cases found'
    rfl

theorem sizeShown (field : Field columnNames ℤ)
    (leaves : ∀ column value, (field.set column value).ownerTable = column.ownerTable ∧
      (field.set column value).fkSource = column.fkSource ∧ (field.set column value).columnType = column.columnType)
    (found : original? columnNames columns id = some o) :
    ∃ columns', read field columns id = some (field.get o, columns') ∧ Shown never columns columns' := by
  refine readShown ordered field found (fun column inside here => ?_) fun _ _ reached => reached
  obtain ⟨table, source, type⟩ := leaves column (field.get o)
  refine ⟨field.idSet column _, table, source, fun plain => ?_, fun reached => reached.elim, fun _ => type⟩
  obtain rfl := plainOriginal ordered found inside here plain
  exact field.setSame column

theorem precisionShown (found : original? columnNames columns id = some o) :
    ∃ columns', getPrecision columns id = some (o.precision, columns') ∧ Shown never columns columns' :=
  sizeShown ordered precisionField (fun _ _ => ⟨rfl, rfl, rfl⟩) found

theorem scaleShown (found : original? columnNames columns id = some o) :
    ∃ columns', getScale columns id = some (o.scale, columns') ∧ Shown never columns columns' :=
  sizeShown ordered scaleField (fun _ _ => ⟨rfl, rfl, rfl⟩) found

theorem sizedShown (found : original? columnNames columns id = some o) (type : ddDataType) :
    ∃ columns', sizedType columns id type = some (type.sized o.precision o.scale, columns') ∧
      Shown never columns columns' := by
  by_cases sized : type.havePrecision
  · obtain ⟨columns', readPrecision, shown⟩ := precisionShown ordered found
    by_cases given : 0 ≤ o.precision
    · have found' := (shown.original id).trans found
      obtain ⟨columns'', readScale, shown'⟩ := scaleShown (shown.ordered ordered) found'
      refine ⟨columns'', ?_, (shown.trans shown').congr fun _ => or_self_iff⟩
      simp only [sizedType, if_pos sized, readPrecision, Option.bind_some, if_pos given, readScale, Option.map_some]
    · refine ⟨columns', ?_, shown⟩
      have plain : type.sized o.precision o.scale = type.text := if_neg fun both => given both.2
      simp only [sizedType, if_pos sized, readPrecision, Option.bind_some, if_neg given, plain]
  · refine ⟨columns, ?_, Shown.refl columns⟩
    have plain : type.sized o.precision o.scale = type.text := if_neg fun both => sized both.1
    simp only [sizedType, if_neg sized, plain]

theorem displayShown (id : ℕ) : Shown (· ∈ chain columnNames columns id) columns (displayBoxUpdate columns id) := by
  by_cases inside : id ∈ columns.map columnNames.id
  · obtain ⟨o, found⟩ := originalFound ordered inside
    obtain ⟨column, -, look, -⟩ := columnFound found
    obtain ⟨columns', readType, shown⟩ := typeShown ordered found
    have found' := (shown.original id).trans found
    obtain ⟨columns'', sized, shown'⟩ := sizedShown (shown.ordered ordered) found' o.columnType
    have text : displayBoxUpdate columns id = columns'' := by
      simp only [displayBoxUpdate, getText, look, readType, sized, Option.bind_some, Option.map_some, Option.elim_some]
    rw [text]
    exact (shown.trans shown').congr fun _ => or_iff_left fun none => none
  · have text : displayBoxUpdate columns id = columns := by
      simp only [displayBoxUpdate, getText, columnMissing inside, Option.bind_none, Option.elim_none]
    rw [text]
    exact (Shown.refl columns).congr fun _ => iff_of_false (fun none => none) fun here => inside (chainOwner here)

theorem displaysShown (ids : List ℕ) :
    Shown (fun i => ∃ id ∈ ids, i ∈ chain columnNames columns id) columns (ids.foldl displayBoxUpdate columns) := by
  induction ids generalizing columns with
  | nil => exact (Shown.refl columns).congr fun _ => by simp [never]
  | cons id ids ih =>
    have shown := displayShown ordered id
    have others := ih (shown.ordered ordered)
    refine (shown.trans others).congr fun i => ?_
    simp only [shown.chain, List.exists_mem_cons_iff]

theorem tableShown (table : ℕ) : Shown (Reached columns [table]) columns (updateTableSize columns table) := by
  refine (displaysShown ordered _).congr fun i => ?_
  unfold Reached
  constructor
  · rintro ⟨id, member, here⟩
    obtain ⟨column, chosen, rfl⟩ := List.mem_map.mp member
    obtain ⟨inside, owner⟩ := List.mem_filter.mp chosen
    exact ⟨column, List.mem_reverse.mp inside, by simpa using owner, here⟩
  · rintro ⟨column, inside, owner, here⟩
    refine ⟨column.id, List.mem_map_of_mem (List.mem_filter.mpr ⟨List.mem_reverse.mpr inside, ?_⟩), here⟩
    simpa using owner

theorem tablesShown (tables : List ℕ) :
    Shown (Reached columns tables) columns (tables.foldl updateTableSize columns) := by
  induction tables generalizing columns with
  | nil => exact (Shown.refl columns).congr fun _ => by simp [never, Reached]
  | cons table tables ih =>
    have shown := tableShown ordered table
    have others := ih (shown.ordered ordered)
    refine (shown.trans others).congr fun i => ?_
    rw [reachedKept shown]
    simp only [Reached, List.mem_cons, List.not_mem_nil, or_false, or_and_right, and_or_left, exists_or]

theorem typeWritten (found : original? columnNames columns id = some o) {column : ddColumnFigure}
    (look : column? columns id = some column) : ∃ columns', getType columns id false =
      some (if column.columnType = .dt_serial ∧ column.isGeneratedForeignKey then ddDataType.dt_integer.text
        else column.columnType.sized o.precision o.scale, columns') ∧ Shown never columns columns' := by
  obtain ⟨columns', sized, shown⟩ := sizedShown ordered found column.columnType
  refine ⟨columns', ?_, shown⟩
  simp only [getType, look, Option.bind_some, sized, Option.map_some]
  rfl

theorem writtenShown (id : ℕ) : Shown never columns ((getType columns id false).elim columns Prod.snd) := by
  by_cases inside : id ∈ columns.map columnNames.id
  · obtain ⟨o, found⟩ := originalFound ordered inside
    obtain ⟨column, -, look, -⟩ := columnFound found
    obtain ⟨columns', written, shown⟩ := typeWritten ordered found look
    rw [written]
    exact shown
  · rw [getType, columnMissing inside]
    exact Shown.refl columns

theorem writtensShown (ids : List ℕ) :
    Shown never columns (ids.foldl (fun columns id => (getType columns id false).elim columns Prod.snd) columns) := by
  induction ids generalizing columns with
  | nil => exact Shown.refl columns
  | cons id ids ih =>
    have shown := writtenShown ordered id
    exact (shown.trans (ih (shown.ordered ordered))).congr fun _ => or_self_iff

end Showing

end PgAdmin.ddTypes
