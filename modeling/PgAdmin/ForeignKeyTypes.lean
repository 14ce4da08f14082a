import PgAdmin.ColumnTypes

/-! Whether the columns generated for foreign keys have the types of their originals, over the edits of a design. A
change of a type updates the tables at the ends of the relationships of the column's table, and no others. -/
namespace PgAdmin.ddTypes
open PgsObjects (Text)
open SourceChains

structure ddRelationshipFigure where
  id : ℕ
  startFigure : ℕ
  endFigure : ℕ
  deriving DecidableEq

structure Design where
  columns : List ddColumnFigure
  relationships : List ddRelationshipFigure
  ordered : Ordered columnNames columns

namespace Design

def empty : Design := ⟨[], [], trivial⟩

variable (d : Design)

def updateTables (tables : List ℕ) : Design :=
  { d with
    columns := tables.foldl updateTableSize d.columns
    ordered := (tablesShown d.ordered tables).ordered d.ordered }

def observers (table : ℕ) : List ddRelationshipFigure :=
  d.relationships.filter fun r => r.startFigure = table ∨ r.endFigure = table

def updateSizeOfObservers (table : ℕ) : Design :=
  d.updateTables ((d.observers table).map (·.endFigure))

section Change
variable (change : ddColumnFigure → ddColumnFigure) {id : ℕ}

theorem changeNames (keeps : ∀ column, (change column).id = column.id ∧ (change column).fkSource = column.fkSource)
    (columns : List ddColumnFigure) :
    ∀ column ∈ columns, columnNames.id (if column.id = id then change column else column) = columnNames.id column ∧
      columnNames.source (if column.id = id then change column else column) = columnNames.source column := by
  intro column _
  split
  · exact ⟨(keeps column).1, congrArg (Option.map ddRelationshipItem.original) (keeps column).2⟩
  · exact ⟨rfl, rfl⟩

def onColumn (id : ℕ)
    (keeps : ∀ column, (change column).id = column.id ∧ (change column).fkSource = column.fkSource) : Design :=
  { d with
    columns := d.columns.map fun column => if column.id = id then change column else column
    ordered := mapOrdered (changeNames change keeps d.columns) d.ordered }

end Change

def setDataType (column : ddColumnFigure) (type : ddDataType) : Design :=
  (d.onColumn (fun column => { column with columnType := type }) column.id fun _ => ⟨rfl, rfl⟩).updateSizeOfObservers
    column.ownerTable

def setPrecision (column : ddColumnFigure) (value : ℤ) : Design :=
  if column.isGeneratedForeignKey then d
  else
    (d.onColumn (fun column => { column with precision := value }) column.id fun _ => ⟨rfl, rfl⟩).updateSizeOfObservers
      column.ownerTable

def setScale (column : ddColumnFigure) (value : ℤ) : Design :=
  if column.isGeneratedForeignKey then d
  else
    (d.onColumn (fun column => { column with scale := value }) column.id fun _ => ⟨rfl, rfl⟩).updateSizeOfObservers
      column.ownerTable

section Add

def newId : ℕ := d.columns.head?.elim 0 fun column => column.id + 1

def newRelationship : ℕ := d.relationships.head?.elim 0 fun r => r.id + 1

theorem newIdAbove {column : ddColumnFigure} (inside : column ∈ d.columns) : column.id < d.newId := by
  have ordered := d.ordered
  unfold newId
  cases columns : d.columns with
  | nil => simp [columns] at inside
  | cons first older =>
    rw [columns] at ordered inside
    rcases List.mem_cons.mp inside with rfl | inside
    · exact Nat.lt_succ_self column.id
    · exact Nat.lt_succ_of_lt (ordered.1 column inside)

def newColumn (table : ℕ) (fkSource : Option ddRelationshipItem) : ddColumnFigure :=
  ⟨d.newId, table, fkSource, .dt_null, -1, -1⟩

theorem addOrdered {table : ℕ} {fkSource : Option ddRelationshipItem}
    (known : ∀ item ∈ fkSource, item.original ∈ d.columns.map (·.id)) :
    Ordered columnNames (d.newColumn table fkSource :: d.columns) := by
  refine ⟨fun column inside => d.newIdAbove inside, fun source takes => ?_, d.ordered⟩
  obtain ⟨item, made, rfl⟩ := Option.map_eq_some_iff.mp takes
  exact known item made

def addColumn (table : ℕ) (fkSource : Option ddRelationshipItem)
    (known : ∀ item ∈ fkSource, item.original ∈ d.columns.map (·.id)) : Design :=
  updateTables
    { d with
      columns := d.newColumn table fkSource :: d.columns
      ordered := d.addOrdered known } [table]

theorem sourceKnown {r : ddRelationshipFigure} {id : ℕ}
    (source : ∃ column ∈ d.columns, column.id = id ∧ column.ownerTable = r.startFigure) :
    ∀ item ∈ some (⟨r.id, id⟩ : ddRelationshipItem), item.original ∈ d.columns.map (·.id) := by
  rintro item ⟨⟩
  obtain ⟨column, inside, rfl, -⟩ := source
  exact List.mem_map_of_mem inside

theorem noneKnown (columns : List ddColumnFigure) :
    ∀ item ∈ (none : Option ddRelationshipItem), item.original ∈ columns.map (·.id) := by
  rintro item ⟨⟩

/- updateForeignKey makes a column in the destination table for a column of the source table. -/
def addForeignKey (relationship id : ℕ) : Option Design :=
  (d.relationships.find? fun r => r.id = relationship).bind fun r =>
    if source : ∃ column ∈ d.columns, column.id = id ∧ column.ownerTable = r.startFigure then
      some (d.addColumn r.endFigure (some ⟨r.id, id⟩) (d.sourceKnown source))
    else none

end Add

def removeColumns (gone : ddColumnFigure → Bool) : Design :=
  { d with
    columns := drop columnNames gone d.columns
    ordered := dropOrdered d.ordered }

def draw (ids : List ℕ) : Design :=
  { d with
    columns := ids.foldl displayBoxUpdate d.columns
    ordered := (displaysShown d.ordered ids).ordered d.ordered }

def generateSQL (ids : List ℕ) : Design :=
  { d with
    columns := ids.foldl (fun columns id => (getType columns id false).elim columns Prod.snd) d.columns
    ordered := (writtensShown d.ordered ids).ordered d.ordered }

end Design

/- drawing stands for whatever asks for the texts of columns: the diagram, the browser, a rename or a saved model. -/
inductive Step where
  | addColumn (table : ℕ)
  | connect (startFigure endFigure : ℕ)
  | addForeignKey (relationship id : ℕ)
  | removeColumn (id : ℕ)
  | disconnect (relationship : ℕ)
  | setDataType (id : ℕ) (type : ddDataType)
  | setPrecision (id : ℕ) (value : ℤ)
  | setScale (id : ℕ) (value : ℤ)
  | draw (ids : List ℕ)
  | generateSQL (ids : List ℕ)

def Design.step (d : Design) : Step → Option Design
  | .addColumn table => some (d.addColumn table none (noneKnown d.columns))
  | .connect startFigure endFigure =>
    some { d with relationships := ⟨d.newRelationship, startFigure, endFigure⟩ :: d.relationships }
  | .addForeignKey relationship id => d.addForeignKey relationship id
  | .removeColumn id => some (d.removeColumns fun column => column.id = id)
  | .disconnect relationship => some
    { d.removeColumns fun column => column.fkSource.any fun item => item.ownerRel = relationship with
      relationships := d.relationships.filter fun r => r.id ≠ relationship }
  | .setDataType id type => (column? d.columns id).bind fun column =>
    if column.isGeneratedForeignKey then none else some ((d.setDataType column type).updateTables [column.ownerTable])
  | .setPrecision id value => (column? d.columns id).map fun column =>
    (d.setPrecision column value).updateTables [column.ownerTable]
  | .setScale id value => (column? d.columns id).map fun column =>
    (d.setScale column value).updateTables [column.ownerTable]
  | .draw ids => some (d.draw ids)
  | .generateSQL ids => some (d.generateSQL ids)

section Keys

def ddDataType.asKey : ddDataType → ddDataType
  | dt_serial => dt_integer
  | type => type

theorem keyText (type : ddDataType) (precision scale : ℤ) :
    (if type = .dt_serial then ddDataType.dt_integer.text else type.sized precision scale) =
      type.asKey.sized precision scale := by
  cases type <;> rfl

def ddDataType.name (type : ddDataType) : Text := type.text.takeWhile (· ≠ '(')

def ddDataType.all : List ddDataType :=
  [dt_null, dt_serial, dt_boolean, dt_integer, dt_money, dt_varchar, dt_bigint, dt_bit, dt_bytea, dt_char, dt_cidr,
    dt_circle, dt_date, dt_doubleprec, dt_inet, dt_interval, dt_line, dt_Lseg, dt_macaddr, dt_numeric, dt_path,
    dt_point, dt_polygon, dt_real, dt_smallint, dt_text, dt_time, dt_timestamp, dt_varbit]

theorem nameFound (type : ddDataType) : (ddDataType.all.find? fun other => other.name = type.name) = some type := by
  cases type <;> decide

theorem sizedName (type : ddDataType) (precision scale : ℤ) :
    (type.sized precision scale).takeWhile (· ≠ '(') = type.name := by
  unfold ddDataType.sized
  split
  case isTrue =>
    have letters : ∀ c ∈ type.text.takeWhile (· ≠ '('), (decide (c ≠ '(')) = true := fun c => List.mem_takeWhile_imp
    rw [List.takeWhile_append_of_pos letters]
    split <;> simp [ddDataType.name]
  case isFalse => rfl

theorem sizedInjective {type other : ddDataType} {precision scale : ℤ}
    (same : type.sized precision scale = other.sized precision scale) : type = other := by
  have names : type.name = other.name := by rw [← sizedName type precision scale, same, sizedName]
  have found := nameFound type
  rw [names, nameFound other] at found
  exact (Option.some.inj found).symm

end Keys

section Fresh
variable {columns columns' : List ddColumnFigure} {column o : ddColumnFigure}

def keyType (columns : List ddColumnFigure) (original : ddColumnFigure) : Option Text :=
  (getType columns original.id false).map fun (ddType, _) =>
    if original.columnType = .dt_serial then ddDataType.dt_integer.text else ddType

def TypesFollow (columns : List ddColumnFigure) : Prop :=
  ∀ column ∈ columns, column.isGeneratedForeignKey →
    (getType columns column.id false).map Prod.fst =
      (original? columnNames columns column.id).bind (keyType columns)

/- What the column keeps is the type of the original. -/
def Fresh (columns : List ddColumnFigure) (column : ddColumnFigure) : Prop :=
  ∀ o, original? columnNames columns column.id = some o → column.columnType.asKey = o.columnType.asKey

theorem columnSelf (ordered : Ordered columnNames columns) (inside : column ∈ columns) :
    column? columns column.id = some column := by
  induction columns with
  | nil => simp at inside
  | cons first older ih =>
    rcases List.mem_cons.mp inside with rfl | inside
    · simp [column?]
    · have other : ¬ first.id = column.id := Nat.ne_of_gt (ordered.1 column inside)
      have behind := ih ordered.2.2 inside
      rw [column?] at behind ⊢
      rwa [List.find?_cons_of_neg (by simpa using other)]

theorem plainSelf (ordered : Ordered columnNames columns) (inside : column ∈ columns)
    (plain : column.isGeneratedForeignKey = false) : original? columnNames columns column.id = some column :=
  originalSelf ordered inside (congrArg (Option.map ddRelationshipItem.original)
    (Option.not_isSome_iff_eq_none.mp (Bool.eq_false_iff.mp plain)))

theorem generatedText (ordered : Ordered columnNames columns) (inside : column ∈ columns)
    (generated : column.isGeneratedForeignKey) (found : original? columnNames columns column.id = some o) :
    (getType columns column.id false).map Prod.fst = some (column.columnType.asKey.sized o.precision o.scale) := by
  obtain ⟨columns', written, -⟩ := typeWritten ordered found (columnSelf ordered inside)
  simp only [written, Option.map_some, generated, and_true, keyText]

theorem originalText (ordered : Ordered columnNames columns) {id : ℕ}
    (found : original? columnNames columns id = some o) :
    keyType columns o = some (o.columnType.asKey.sized o.precision o.scale) := by
  obtain ⟨inside, plain⟩ := originalPlain found
  have user : o.isGeneratedForeignKey = false := by
    rw [ddColumnFigure.isGeneratedForeignKey, Option.map_eq_none_iff.mp plain]
    rfl
  obtain ⟨columns', written, -⟩ :=
    typeWritten ordered (plainSelf ordered inside user) (columnSelf ordered inside)
  simp only [keyType, written, Option.map_some, user, Bool.false_eq_true, and_false, if_false, keyText]

theorem typesFollowFresh (ordered : Ordered columnNames columns) :
    TypesFollow columns ↔ ∀ column ∈ columns, Fresh columns column := by
  refine forall₂_congr fun column inside => ?_
  cases generated : column.isGeneratedForeignKey with
  | false =>
    refine iff_of_true (fun impossible => by cases impossible) fun o found => ?_
    rw [plainSelf ordered inside generated] at found
    cases found
    rfl
  | true =>
    obtain ⟨o, found⟩ := originalFound ordered (List.mem_map_of_mem inside : columnNames.id column ∈ _)
    rw [generatedText ordered inside generated found, show original? columnNames columns column.id = some o from found,
      Option.bind_some, originalText ordered found]
    constructor
    · intro same other found'
      obtain rfl : other = o := Option.some.inj (found'.symm.trans found)
      exact sizedInjective (Option.some.inj (same rfl))
    · intro fresh _
      rw [fresh o found]

theorem shownFresh {reached : ℕ → Prop} (shown : Shown reached columns columns') :
    (∀ column ∈ columns', Fresh columns' column) ↔ ∀ column ∈ columns, reached column.id ∨ Fresh columns column := by
  have originals := shown.original
  obtain ⟨g, rfl, each⟩ := shown
  rw [List.forall_mem_map]
  refine forall₂_congr fun column inside => ?_
  have shownAs := each column inside
  unfold Fresh
  rw [shownAs.id, originals]
  by_cases here : reached column.id
  · refine iff_of_true (fun o found => ?_) (.inl here)
    rw [shownAs.reads here o found]
  · rw [shownAs.keeps here, or_iff_right here]

theorem freshShown {reached : ℕ → Prop} (shown : Shown reached columns columns')
    (fresh : ∀ column ∈ columns, Fresh columns column) : ∀ column ∈ columns', Fresh columns' column :=
  (shownFresh shown).mpr fun column inside => .inr (fresh column inside)

end Fresh

section Steps
variable {d d' : Design}

def Design.Fresh (d : Design) : Prop := ∀ column ∈ d.columns, ddTypes.Fresh d.columns column

theorem updateFresh (d : Design) (tables : List ℕ) :
    (d.updateTables tables).Fresh ↔
      ∀ column ∈ d.columns, Reached d.columns tables column.id ∨ ddTypes.Fresh d.columns column :=
  shownFresh (tablesShown d.ordered tables)

theorem updateKeeps (fresh : d.Fresh) (tables : List ℕ) : (d.updateTables tables).Fresh :=
  (updateFresh d tables).mpr fun column inside => .inr (fresh column inside)

theorem addFresh (fresh : d.Fresh) {table : ℕ} {fkSource : Option ddRelationshipItem}
    (known : ∀ item ∈ fkSource, item.original ∈ d.columns.map (·.id)) : (d.addColumn table fkSource known).Fresh := by
  refine (updateFresh _ [table]).mpr fun column member => ?_
  rcases List.mem_cons.mp member with rfl | inside
  · refine .inl ⟨_, member, List.mem_singleton.mpr rfl, ?_⟩
    exact chainSelf (List.mem_map_of_mem (f := columnNames.id) member)
  · refine .inr fun o found => fresh column inside o ?_
    exact (originalBehind (Nat.ne_of_gt (d.newIdAbove inside))).symm.trans found

theorem removeFresh (fresh : d.Fresh) (gone : ddColumnFigure → Bool) : (d.removeColumns gone).Fresh := by
  intro column inside o found
  have kept := @dropOriginal _ _ _ gone d.ordered _ (List.mem_map_of_mem (f := columnNames.id) inside)
  exact fresh column ((dropSublist gone d.columns).subset inside) o (kept.symm.trans found)

theorem changeOriginal (change : ddColumnFigure → ddColumnFigure) (id : ℕ)
    (keeps : ∀ column, (change column).id = column.id ∧ (change column).fkSource = column.fkSource) (i : ℕ) :
    original? columnNames (d.onColumn change id keeps).columns i =
      (original? columnNames d.columns i).map fun column => if column.id = id then change column else column :=
  mapOriginal (Design.changeNames change keeps d.columns) i

theorem sizeFresh (fresh : d.Fresh) (change : ddColumnFigure → ddColumnFigure) (id : ℕ)
    (keeps : ∀ column, (change column).id = column.id ∧ (change column).fkSource = column.fkSource)
    (types : ∀ column, (change column).columnType = column.columnType) : (d.onColumn change id keeps).Fresh := by
  have same (column : ddColumnFigure) :
      (if column.id = id then change column else column).id = column.id ∧
        (if column.id = id then change column else column).columnType = column.columnType := by
    split
    · exact ⟨(keeps column).1, types column⟩
    · exact ⟨rfl, rfl⟩
  refine List.forall_mem_map.mpr fun column inside o found => ?_
  rw [(same column).1] at found
  rw [changeOriginal] at found
  obtain ⟨before, found', rfl⟩ := Option.map_eq_some_iff.mp found
  rw [(same column).2, (same before).2]
  exact fresh column inside before found'

def Design.updated (d : Design) (table : ℕ) : List ℕ := (d.observers table).map (·.endFigure) ++ [table]

/- A change to another type reaches every column that has the changed one for its original. -/
def Design.Propagated (d : Design) : Step → Prop
  | .setDataType id type => ∀ column ∈ d.columns, column.isGeneratedForeignKey →
    ∀ o, original? columnNames d.columns column.id = some o → o.id = id →
      o.columnType.asKey = type.asKey ∨ Reached d.columns (d.updated o.ownerTable) column.id
  | _ => True

section Changed
variable {changed : ddColumnFigure} (inside : changed ∈ d.columns) (user : changed.isGeneratedForeignKey = false)
  (type : ddDataType)

def Design.retyped (d : Design) (changed : ddColumnFigure) (type : ddDataType) : Design :=
  d.onColumn (fun column => { column with columnType := type }) changed.id fun _ => ⟨rfl, rfl⟩

theorem retypedReached (tables : List ℕ) (i : ℕ) :
    Reached (d.retyped changed type).columns tables i ↔ Reached d.columns tables i := by
  have names := @Design.changeNames (fun column => { column with columnType := type }) changed.id
    (fun _ => ⟨rfl, rfl⟩) d.columns
  refine reachedMap names (fun column _ => ?_) tables i
  split <;> rfl

theorem retypedName (column : ddColumnFigure) :
    (if column.id = changed.id then { column with columnType := type } else column).id = column.id := by
  split <;> rfl

include inside in
theorem sameColumn {column : ddColumnFigure} (member : column ∈ d.columns) (same : column.id = changed.id) :
    column = changed := by
  have look := columnSelf d.ordered member
  rw [same, columnSelf d.ordered inside] at look
  exact (Option.some.inj look).symm

include inside user in
theorem retypedFresh (fresh : d.Fresh) {column : ddColumnFigure} (member : column ∈ d.columns) :
    ddTypes.Fresh (d.retyped changed type).columns
        (if column.id = changed.id then { column with columnType := type } else column) ↔
      (column.isGeneratedForeignKey → ∀ o, original? columnNames d.columns column.id = some o → o.id = changed.id →
        o.columnType.asKey = type.asKey) := by
  have originals := @changeOriginal d (fun column => { column with columnType := type }) changed.id
    (fun _ => ⟨rfl, rfl⟩) column.id
  unfold ddTypes.Fresh
  rw [retypedName, Design.retyped, originals]
  cases generated : column.isGeneratedForeignKey with
  | false =>
    refine iff_of_true (fun o found => ?_) fun impossible => by cases impossible
    rw [plainSelf d.ordered member generated] at found
    cases found
    rfl
  | true =>
    have other : ¬ column.id = changed.id := by
      intro same
      rw [sameColumn inside member same, user] at generated
      cases generated
    rw [if_neg other]
    constructor
    · intro now _ o found same
      have kept := fresh column member o found
      have after := now _ (congrArg (Option.map _) found)
      dsimp only at after
      rw [if_pos same] at after
      exact kept.symm.trans after
    · intro keeps o' found'
      obtain ⟨o, found, rfl⟩ := Option.map_eq_some_iff.mp found'
      have kept := fresh column member o found
      split
      case isTrue same => exact kept.trans (keeps rfl o found same)
      case isFalse => exact kept

include inside user in
theorem typeFresh (fresh : d.Fresh) :
    ((d.setDataType changed type).updateTables [changed.ownerTable]).Fresh ↔
      d.Propagated (.setDataType changed.id type) := by
  have observers := tablesShown (d.retyped changed type).ordered ((d.observers changed.ownerTable).map (·.endFigure))
  have own := tablesShown (d.setDataType changed type).ordered [changed.ownerTable]
  refine (shownFresh (observers.trans own)).trans ?_
  refine (List.forall_mem_map).trans (forall₂_congr fun column member => ?_)
  have reached : Reached (d.retyped changed type).columns ((d.observers changed.ownerTable).map (·.endFigure))
        column.id ∨
      Reached (d.setDataType changed type).columns [changed.ownerTable] column.id ↔
      Reached d.columns (d.updated changed.ownerTable) column.id := by
    have kept := reachedKept observers [changed.ownerTable] column.id
    rw [retypedReached] at kept ⊢
    refine (or_congr_right kept).trans ?_
    simp only [Reached, Design.updated, List.mem_append, or_and_right, and_or_left, exists_or]
  rw [retypedName, retypedFresh inside user type fresh member]
  refine (or_congr_left reached).trans ?_
  constructor
  · rintro (here | keeps) generated o found same
    · obtain rfl := sameColumn inside (originalPlain found).1 same
      exact .inr here
    · exact .inl (keeps generated o found same)
  · intro propagated
    by_cases here : Reached d.columns (d.updated changed.ownerTable) column.id
    · exact .inl here
    · refine .inr fun generated o found same => (propagated generated o found same).resolve_right ?_
      obtain rfl := sameColumn inside (originalPlain found).1 same
      exact here

end Changed

theorem stepFresh (fresh : d.Fresh) {step : Step} (moved : d.step step = some d') :
    d'.Fresh ↔ d.Propagated step := by
  cases step with
  | addColumn table =>
    cases moved
    exact iff_of_true (addFresh fresh _) trivial
  | connect startFigure endFigure =>
    cases moved
    exact iff_of_true fresh trivial
  | addForeignKey relationship id =>
    obtain ⟨r, -, made⟩ := Option.bind_eq_some_iff.mp moved
    split at made
    case isTrue =>
      cases made
      exact iff_of_true (addFresh fresh _) trivial
    case isFalse => cases made
  | removeColumn id =>
    cases moved
    exact iff_of_true (removeFresh fresh _) trivial
  | disconnect relationship =>
    cases moved
    exact iff_of_true (removeFresh fresh _) trivial
  | setDataType id type =>
    obtain ⟨changed, look, made⟩ := Option.bind_eq_some_iff.mp moved
    split at made
    case isTrue => cases made
    case isFalse user =>
      cases made
      obtain rfl : changed.id = id := by simpa using List.find?_some look
      exact typeFresh (List.mem_of_find?_eq_some look) (Bool.eq_false_iff.mpr user) type fresh
  | setPrecision id value =>
    obtain ⟨column, -, rfl⟩ := Option.map_eq_some_iff.mp moved
    refine iff_of_true (updateKeeps ?_ _) trivial
    unfold Design.setPrecision
    split
    · exact fresh
    · exact updateKeeps (sizeFresh fresh (fun column => { column with precision := value }) column.id
        (fun _ => ⟨rfl, rfl⟩) fun _ => rfl) _
  | setScale id value =>
    obtain ⟨column, -, rfl⟩ := Option.map_eq_some_iff.mp moved
    refine iff_of_true (updateKeeps ?_ _) trivial
    unfold Design.setScale
    split
    · exact fresh
    · exact updateKeeps (sizeFresh fresh (fun column => { column with scale := value }) column.id
        (fun _ => ⟨rfl, rfl⟩) fun _ => rfl) _
  | draw ids =>
    cases moved
    exact iff_of_true (freshShown (displaysShown d.ordered ids) fresh) trivial
  | generateSQL ids =>
    cases moved
    exact iff_of_true (freshShown (writtensShown d.ordered ids) fresh) trivial

end Steps

section Runs

/- A property of all designs that a run goes through. -/
def Along (P : Design → Prop) : Design → List Step → Prop
  | d, [] => P d
  | d, step :: steps => P d ∧ ∀ d', d.step step = some d' → Along P d' steps

/- A property of all steps that are made. -/
def EachStep (Q : Design → Step → Prop) : Design → List Step → Prop
  | _, [] => True
  | d, step :: steps => ∀ d', d.step step = some d' → Q d step ∧ EachStep Q d' steps

theorem runFresh (steps : List Step) (d : Design) (fresh : d.Fresh) :
    Along Design.Fresh d steps ↔ EachStep Design.Propagated d steps := by
  induction steps generalizing d with
  | nil => exact iff_of_true fresh trivial
  | cons step steps ih =>
    refine (and_iff_right fresh).trans (forall₂_congr fun d' moved => ?_)
    have after := stepFresh fresh moved
    constructor
    · intro along
      have fresh' : d'.Fresh := by
        cases steps with
        | nil => exact along
        | cons => exact along.1
      exact ⟨after.mp fresh', (ih d' fresh').mp along⟩
    · rintro ⟨propagated, others⟩
      exact (ih d' (after.mpr propagated)).mpr others

theorem typesFollowed (steps : List Step) :
    Along (fun d => TypesFollow d.columns) Design.empty steps ↔ EachStep Design.Propagated Design.empty steps := by
  have same : (fun d : Design => TypesFollow d.columns) = Design.Fresh :=
    funext fun d => propext (typesFollowFresh d.ordered)
  rw [same]
  exact runFresh steps Design.empty fun _ inside => absurd inside List.not_mem_nil

theorem alongLast {P : Design → Prop} (steps : List Step) {d : Design} (along : Along P d steps) :
    ∀ d' ∈ steps.foldlM Design.step d, P d' := by
  induction steps generalizing d with
  | nil =>
    rintro d' ⟨⟩
    exact along
  | cons step steps ih =>
    intro d' run
    obtain ⟨next, moved, run⟩ := Option.bind_eq_some_iff.mp run
    exact ih (along.2 next moved) d' run

instance (columns : List ddColumnFigure) : Decidable (TypesFollow columns) :=
  inferInstanceAs (Decidable (∀ column ∈ columns, _ → _))

/- Three tables in a row: the first column changes from integer to bigint, and the last one stays an integer. -/
theorem lastKept : ¬ ∀ steps : List Step, Along (fun d => TypesFollow d.columns) Design.empty steps := by
  intro follows
  have last := alongLast _ (follows [.addColumn 0, .setDataType 0 .dt_integer, .connect 0 1, .addForeignKey 0 0,
    .connect 1 2, .addForeignKey 1 1, .setDataType 0 .dt_bigint])
  exact absurd last (by decide)

end Runs
end PgAdmin.ddTypes
