import PgAdmin.PgsObjects
import PgAdmin.QueryJoins
import PgAdmin.SeparatedLists

/-! gqbController::generateSQL: the statement that the graphical query builder writes for its model. Each clause ends
in a separator that is cut off again. -/
namespace PgAdmin.gqbController
open PgsObjects (Text)
open gqbJoins (type_Join)
open SeparatedLists

/- A table in the query, by what the sentence needs of it. -/
structure Named where
  name : Text
  getAlias : Text

def Named.called (table : Named) : Text := if 0 < table.getAlias.length then table.getAlias else table.name

structure gqbQueryJoin where
  sourceTable : Named
  sourceCol : Text
  destTable : Named
  destCol : Text
  kindofJoin : type_Join

structure gqbQueryObject extends Named where
  schema : Text
  joins : List gqbQueryJoin

def gqbQueryObject.haveJoins (object : gqbQueryObject) : Bool := !object.joins.isEmpty

/- OnCellLeftClick changes one into the other; the cell is read-only. -/
inductive Connector where
  | AND
  | OR
  deriving DecidableEq

def Connector.text : Connector → Text
  | AND => "AND".toList
  | OR => "OR".toList

structure gqbQueryRestriction where
  leftPart : Text
  restriction : Text
  value_s : Text
  connector : Connector

structure Projected where
  parent : Named
  name : Text
  getAlias : Text

structure Ordered where
  parent : Named
  name : Text
  ascending : Bool

structure gqbModel where
  tables : List gqbQueryObject
  columns : List Projected
  restrictions : List gqbQueryRestriction
  ordered : List Ordered

def cutEnd (sentence : Text) (count : ℕ) : Text := sentence.take (sentence.length - count)

section Sentence
variable (qtIdent : Text → Text)

def columnText (c : Projected) : Text :=
  "  ".toList ++ qtIdent c.parent.called ++ ".".toList ++ qtIdent c.name ++
    if 0 < c.getAlias.length then " AS ".toList ++ qtIdent c.getAlias else []

def tableText (sel : gqbQueryObject) : Text :=
  "  ".toList ++ qtIdent sel.schema ++ ".".toList ++ qtIdent sel.name ++
    if 0 < sel.getAlias.length then " ".toList ++ qtIdent sel.getAlias else []

def operatorText : type_Join → Text
  | .equally => " = ".toList
  | .greater => " > ".toList
  | .lesser => " < ".toList
  | .equgreater => " >= ".toList
  | .equlesser => " <= ".toList

def joinText (join : gqbQueryJoin) : Text :=
  "  ".toList ++ qtIdent join.sourceTable.called ++ ".".toList ++ qtIdent join.sourceCol ++
    operatorText join.kindofJoin ++ qtIdent join.destTable.called ++ ".".toList ++ qtIdent join.destCol

def restrictionText (r : gqbQueryRestriction) : Text :=
  "  ".toList ++ r.leftPart ++ " ".toList ++ r.restriction ++ " ".toList ++ r.value_s

def orderText (c : Ordered) : Text :=
  "  ".toList ++ qtIdent c.parent.called ++ ".".toList ++ qtIdent c.name ++
    if c.ascending then " ASC".toList else " DESC".toList

/- SELECT and FROM -/
def projectionPart (m : gqbModel) (sentence : Text) : Text :=
  let sentence := m.columns.foldl (fun sentence c => sentence ++ columnText qtIdent c ++ ", \n".toList)
    (sentence ++ "SELECT \n".toList)
  if m.columns.length = 0 then sentence ++ "  * \n".toList else cutEnd sentence 3 ++ "\n".toList

def fromPart (m : gqbModel) (sentence : Text) : Text :=
  cutEnd (m.tables.foldl (fun sentence sel => sentence ++ tableText qtIdent sel ++ ", \n".toList)
    (sentence ++ "FROM \n".toList)) 3

structure Joining where
  sentence : Text
  first : Bool
  truncAnd : Bool

def addJoin (w : Joining) (join : gqbQueryJoin) : Joining :=
  let sentence := if w.first then w.sentence ++ "\nWHERE \n".toList else w.sentence
  { w with sentence := sentence ++ joinText qtIdent join ++ " AND\n".toList, first := false }

def addJoins (w : Joining) (sel : gqbQueryObject) : Joining :=
  if sel.haveJoins then sel.joins.foldl (addJoin qtIdent) { w with truncAnd := true } else w

def wherePart (m : gqbModel) (sentence : Text) : Text :=
  let w := m.tables.foldl (addJoins qtIdent) ⟨sentence, true, false⟩
  let sentence := if w.truncAnd && m.restrictions.isEmpty then cutEnd w.sentence 5 else w.sentence
  let sentence := if !w.truncAnd && !m.restrictions.isEmpty then sentence ++ "\nWHERE \n".toList else sentence
  let sentence := m.restrictions.foldl (fun sentence r =>
    sentence ++ restrictionText r ++ " ".toList ++ r.connector.text ++ " \n".toList) sentence
  match m.restrictions.getLast? with
  | none => sentence
  | some r => cutEnd sentence (if r.connector = .AND then 6 else 5)

def orderPart (m : gqbModel) (sentence : Text) : Text :=
  let sentence := if 0 < m.ordered.length then sentence ++ "\nORDER BY\n".toList else sentence
  let sentence := m.ordered.foldl (fun sentence c => sentence ++ orderText qtIdent c ++ ", \n".toList) sentence
  if 0 < m.ordered.length then cutEnd sentence 3 else sentence

def generateSQL (m : gqbModel) : Text :=
  if 0 < m.tables.length then
    orderPart qtIdent m (wherePart qtIdent m (fromPart qtIdent m (projectionPart qtIdent m []))) ++ ";".toList
  else []

end Sentence

/- What stands in the WHERE clause, each with what joins it to the next; a join has its AND without a blank. -/
inductive Condition where
  | join (join : gqbQueryJoin)
  | criterion (r : gqbQueryRestriction)

def gqbModel.joins (m : gqbModel) : List gqbQueryJoin := m.tables.flatMap gqbQueryObject.joins

def gqbModel.conditions (m : gqbModel) : List (Condition × Option Connector) :=
  m.joins.map (fun join => (.join join, none)) ++ m.restrictions.map fun r => (.criterion r, some r.connector)

def linkText : Option Connector → Text
  | none => " AND\n".toList
  | some connector => " ".toList ++ connector.text ++ " \n".toList

section Text
variable {qtIdent : Text → Text}

def conditionText (qtIdent : Text → Text) : Condition → Text
  | .join join => joinText qtIdent join
  | .criterion r => restrictionText r

theorem cutEndAppend (sentence ending : Text) : cutEnd (sentence ++ ending) ending.length = sentence := by
  simp [cutEnd]

theorem foldText {α : Type} (text : α → Text) (items : List α) (sentence : Text) :
    items.foldl (fun sentence a => sentence ++ text a) sentence = sentence ++ items.flatMap text := by
  induction items generalizing sentence with
  | nil => simp
  | cons a items ih => simp [ih, List.append_assoc]

theorem listText {α : Type} (text : α → Text) {items : List α} (nonempty : items ≠ []) (sentence : Text) :
    cutEnd (items.foldl (fun sentence a => sentence ++ text a ++ ", \n".toList) sentence) 3 =
      sentence ++ (", \n".toList).intercalate (items.map text) := by
  obtain ⟨front, last, rfl⟩ := (List.eq_nil_or_concat items).resolve_left nonempty
  simp only [List.append_assoc]
  rw [foldText (fun a => text a ++ ", \n".toList)]
  have printed := linkedFlatMap text (fun _ : Unit => ", \n".toList) (front.map fun a => (a, ())) last ()
  have pairs : front.map (fun a => (a, ())) ++ [(last, ())] = (front ++ [last]).map fun a => (a, ()) := by simp
  rw [pairs, linkedAlike, List.flatMap_map] at printed
  rw [List.concat_eq_append, printed, ← List.append_assoc]
  exact cutEndAppend _ _

theorem projectionText (m : gqbModel) (sentence : Text) : projectionPart qtIdent m sentence =
    sentence ++ "SELECT \n".toList ++ if m.columns = [] then "  * \n".toList
      else (", \n".toList).intercalate (m.columns.map (columnText qtIdent)) ++ "\n".toList := by
  unfold projectionPart
  by_cases empty : m.columns = []
  · simp [empty]
  · have filled : m.columns.length ≠ 0 := fun none_ => empty (List.length_eq_zero_iff.mp none_)
    simp only [filled, if_false, empty]
    rw [listText (columnText qtIdent) empty, List.append_assoc _ _ "\n".toList]

theorem fromText (m : gqbModel) (nonempty : m.tables ≠ []) (sentence : Text) : fromPart qtIdent m sentence =
    sentence ++ "FROM \n".toList ++ (", \n".toList).intercalate (m.tables.map (tableText qtIdent)) :=
  listText (tableText qtIdent) nonempty _

theorem orderPartText (m : gqbModel) (sentence : Text) : orderPart qtIdent m sentence =
    sentence ++ if m.ordered = [] then []
      else "\nORDER BY\n".toList ++ (", \n".toList).intercalate (m.ordered.map (orderText qtIdent)) := by
  unfold orderPart
  by_cases empty : m.ordered = []
  · simp [empty]
  · have filled : 0 < m.ordered.length := List.length_pos_iff.mpr empty
    simp only [filled, if_true, empty, if_false]
    rw [listText (orderText qtIdent) empty, List.append_assoc]

theorem addJoinLoop (joins : List gqbQueryJoin) (w : Joining) : joins.foldl (addJoin qtIdent) w = { w with
    sentence := w.sentence ++ (if w.first && !joins.isEmpty then "\nWHERE \n".toList else []) ++
      joins.flatMap fun join => joinText qtIdent join ++ " AND\n".toList
    first := w.first && joins.isEmpty } := by
  induction joins generalizing w with
  | nil => simp
  | cons join joins ih =>
    rw [List.foldl_cons, ih]
    rcases first : w.first <;> simp [addJoin, first, List.append_assoc]

theorem addJoinsLoop (tables : List gqbQueryObject) (w : Joining) : tables.foldl (addJoins qtIdent) w =
    (tables.flatMap gqbQueryObject.joins).foldl (addJoin qtIdent)
      { w with truncAnd := w.truncAnd || !(tables.flatMap gqbQueryObject.joins).isEmpty } := by
  induction tables generalizing w with
  | nil => cases w with | mk sentence first truncAnd => cases truncAnd <;> rfl
  | cons sel tables ih =>
    rw [List.foldl_cons, ih, List.flatMap_cons]
    generalize tables.flatMap gqbQueryObject.joins = more
    unfold addJoins gqbQueryObject.haveJoins
    cases sel.joins with
    | nil => rfl
    | cons join joins =>
      have kept : ((join :: joins).foldl (addJoin qtIdent) { w with truncAnd := true }).truncAnd = true := by
        rw [addJoinLoop]
      simp only [List.isEmpty_cons, Bool.not_false, if_true, List.cons_append, Bool.or_true, kept, Bool.true_or]
      rw [← List.cons_append, List.foldl_append]
      generalize (join :: joins).foldl (addJoin qtIdent) { w with truncAnd := true } = after at kept ⊢
      cases after
      simp only at kept
      rw [kept]

theorem conditionsText (qtIdent : Text → Text) (m : gqbModel) :
    m.conditions.flatMap (fun item => conditionText qtIdent item.1 ++ linkText item.2) =
      m.joins.flatMap (fun join => joinText qtIdent join ++ " AND\n".toList) ++
        m.restrictions.flatMap fun r => restrictionText r ++ (" ".toList ++ r.connector.text ++ " \n".toList) := by
  rw [gqbModel.conditions, List.flatMap_append, List.flatMap_map, List.flatMap_map]
  rfl

theorem cutConditions {m : gqbModel} {front : List (Condition × Option Connector)} {a : Condition}
    {b : Option Connector} (last : m.conditions = front ++ [(a, b)]) (sentence : Text) :
    cutEnd (sentence ++ m.conditions.flatMap fun item => conditionText qtIdent item.1 ++ linkText item.2)
      (linkText b).length = sentence ++ linked (conditionText qtIdent) linkText m.conditions := by
  rw [last, linkedFlatMap, ← List.append_assoc]
  exact cutEndAppend _ _

theorem whereText (m : gqbModel) (sentence : Text) : wherePart qtIdent m sentence =
    sentence ++ if m.conditions = [] then []
      else "\nWHERE \n".toList ++ linked (conditionText qtIdent) linkText m.conditions := by
  have before := conditionsText qtIdent m
  have joins : m.tables.flatMap gqbQueryObject.joins = m.joins := rfl
  unfold wherePart
  simp only [addJoinsLoop, addJoinLoop, joins, Bool.false_or, Bool.true_and]
  generalize "\nWHERE \n".toList = word
  rcases List.eq_nil_or_concat m.restrictions with none_ | ⟨front, last, some_⟩
  · rw [none_, List.flatMap_nil, List.append_nil] at before
    rcases List.eq_nil_or_concat m.joins with single | ⟨joins, join, many⟩
    · simp [none_, single, gqbModel.conditions]
    · have ends : m.conditions = joins.map (fun join => (.join join, none)) ++ [(.join join, none)] := by
        simp [gqbModel.conditions, none_, many]
      have filled : m.conditions ≠ [] := by simp [ends]
      have some_ : m.joins.isEmpty = false := by simp [many]
      simp only [none_, some_, List.isEmpty_nil, Bool.not_false, Bool.and_true, if_true, List.foldl_nil,
        List.getLast?_nil, Bool.not_true, Bool.and_false, Bool.false_eq_true, if_false, filled]
      rw [← before, ← List.append_assoc]
      exact cutConditions ends _
  · have ends : m.conditions = (m.joins.map (fun join => (.join join, none)) ++
        front.map fun r => (.criterion r, some r.connector)) ++ [(.criterion last, some last.connector)] := by
      simp [gqbModel.conditions, some_]
    have filled : m.conditions ≠ [] := by simp [ends]
    have more : m.restrictions.isEmpty = false := by simp [some_]
    have final : m.restrictions.getLast? = some last := by simp [some_]
    have count : (if last.connector = .AND then 6 else 5) = (linkText (some last.connector)).length := by
      cases last.connector <;> rfl
    have loop (sentence : Text) : m.restrictions.foldl (fun sentence r =>
        sentence ++ restrictionText r ++ " ".toList ++ r.connector.text ++ " \n".toList) sentence =
        sentence ++ m.restrictions.flatMap fun r =>
          restrictionText r ++ (" ".toList ++ r.connector.text ++ " \n".toList) := by
      rw [← foldText]
      simp only [List.append_assoc]
    simp only [final, loop, more, filled, count, Bool.and_false, Bool.not_false, Bool.and_true, Bool.false_eq_true,
      if_false, Bool.not_not]
    rw [← List.append_assoc, ← cutConditions ends, before]
    congr 1
    rcases empty : m.joins.isEmpty
    · simp [List.append_assoc]
    · simp [List.isEmpty_iff.mp empty]

end Text

end PgAdmin.gqbController
