import PgAdmin.CompositeRows
import PgAdmin.RecordEdits

/-! What GetSqlForTypes does turn by turn: old attributes are dropped until the one of the next member comes up,
and new members take the turns of the old attributes that are left. -/
namespace PgAdmin.dlgType
open PgsObjects (Text)
open wxString RecordEdits

abbrev Attribute (Ty : Type) := Field Text (Ty × Text)

/- display is how the program shows a type, shown the type that such a text stands for. type is the type with a name
and what stands in parentheses behind it, collation what an attribute of a type gets with COLLATE or without it. -/
structure Server (Ty : Type) where
  display : Ty → Text
  shown : Text → Option Ty
  type : Text → Text → Option Ty
  collation : Ty → Option Text → Option Text
  nameless : ∀ t, collation t (some []) = none

def Row.base (r : Row) : Text := AfterFirst r.typeInfo ':'

def Row.full (r : Row) : FullType := fullType r.base r.length r.precision r.collation

variable {Ty : Type}

inductive Turn (Ty : Type) where
  | drop (old : Attribute Ty)
  | keep (old : Attribute Ty) (r : Row)
  | replace (old : Attribute Ty) (r : Row)
  | append (r : Row)

def Turn.old? : Turn Ty → Option (Attribute Ty)
  | .drop old | .keep old _ | .replace old _ => some old
  | .append _ => none

def Turn.row? : Turn Ty → Option Row
  | .drop _ => none
  | .keep _ r | .replace _ r | .append r => some r

def turns : List (Attribute Ty) → List Row → List (Turn Ty)
  | [], rows => rows.map .append
  | old :: olds, [] => .drop old :: turns olds []
  | old :: olds, r :: rows =>
    if r.original = [] then .replace old r :: turns olds rows
    else if r.original = old.name then .keep old r :: turns olds rows
    else .drop old :: turns olds (r :: rows)

section Turns

theorem turnsOlds (olds : List (Attribute Ty)) (rows : List Row) : (turns olds rows).filterMap Turn.old? = olds := by
  induction olds generalizing rows with
  | nil =>
    rw [turns, List.filterMap_map]
    exact List.filterMap_eq_nil_iff.mpr fun _ _ => rfl
  | cons old olds ih =>
    cases rows with
    | nil => exact congrArg (old :: ·) (ih [])
    | cons r rows =>
      rw [turns]
      split_ifs
      · exact congrArg (old :: ·) (ih rows)
      · exact congrArg (old :: ·) (ih rows)
      · exact congrArg (old :: ·) (ih (r :: rows))

theorem turnsRows (olds : List (Attribute Ty)) (rows : List Row) : (turns olds rows).filterMap Turn.row? = rows := by
  induction olds generalizing rows with
  | nil =>
    rw [turns, List.filterMap_map]
    exact List.filterMap_some
  | cons old olds ih =>
    cases rows with
    | nil => exact ih []
    | cons r rows =>
      rw [turns]
      split_ifs
      · exact congrArg (r :: ·) (ih rows)
      · exact congrArg (r :: ·) (ih rows)
      · exact ih (r :: rows)

end Turns

section Statements
variable (server : Server Ty)

def Server.item (a : Attribute Ty) : MemberItem := ⟨a.name, server.display a.value.1, a.value.2⟩

def Altered (old : Attribute Ty) (r : Row) : Prop :=
  r.base ≠ server.display old.value.1 ∨ r.collation ≠ old.value.2

instance (old : Attribute Ty) (r : Row) : Decidable (Altered server old r) := inferInstanceAs (Decidable (_ ∨ _))

def Turn.statements : Turn Ty → List Statement
  | .drop old => [.drop old.name]
  | .keep old r =>
    (if r.name ≠ old.name then [.rename old.name r.name] else []) ++
      (if Altered server old r then [.setType r.name (dataType r.base r.collation old.value.2)] else [])
  | .replace old r => [.drop old.name, .add r.name r.full]
  | .append r => [.add r.name r.full]

variable {server} {old : Attribute Ty} {r : Row}

theorem turnKeep (named : old.name ≠ []) (same : r.original = old.name) :
    turn (server.item old) r.original r.name r.base r.full r.collation =
      ((Turn.keep old r).statements server, 0) := by
  rw [turn, Turn.statements, same]
  by_cases changed : r.name ≠ old.name ∨ r.base ≠ server.display old.value.1 ∨ r.collation ≠ old.value.2
  · rw [if_pos ⟨named, rfl, changed⟩]
    rfl
  · rw [if_neg fun all => changed all.2.2, if_neg fun other => other.2 rfl, if_neg named]
    obtain ⟨name, same⟩ := not_or.mp changed
    have unaltered : ¬ Altered server old r := same
    rw [if_neg name, if_neg unaltered]
    rfl

theorem turnReplace (named : old.name ≠ []) (new : r.original = []) :
    turn (server.item old) r.original r.name r.base r.full r.collation =
      ((Turn.replace old r).statements server, 0) := by
  have some_ : (server.item old).name ≠ [] := named
  rw [turn, new, if_neg fun all => all.1 rfl, if_neg fun all => all.1 rfl, if_pos rfl, if_pos some_]
  rfl

theorem turnDrop (member : r.original ≠ []) (other : r.original ≠ old.name) :
    turn (server.item old) r.original r.name r.base r.full r.collation =
      ((Turn.drop old).statements server, 1) := by
  rw [turn, if_neg fun all => other all.2.1, if_pos ⟨member, other⟩]
  rfl

theorem turnAppend (new : r.original = []) :
    turn ⟨[], [], []⟩ r.original r.name r.base r.full r.collation =
      ((Turn.append r).statements server, 0) := by
  rw [turn, new, if_neg fun all => all.1 rfl, if_neg fun all => all.1 rfl, if_pos rfl, if_neg fun no => no rfl]
  rfl

end Statements

section Elements

theorem elementsLength (items : List MemberItem) : (elementsOf items).length = items.length * 3 := by
  induction items with
  | nil => rfl
  | cons i items ih =>
    show (elementsOf items).length + 3 = _
    rw [ih, List.length_cons, Nat.succ_mul]

theorem elementsDrop (items : List MemberItem) (k : ℕ) :
    (elementsOf items).drop (k * 3) = elementsOf (items.drop k) := by
  induction k generalizing items with
  | zero => rfl
  | succ k ih =>
    cases items with
    | nil => rfl
    | cons i items =>
      rw [Nat.succ_mul, List.drop_succ_cons]
      exact ih items

theorem oldElementAt (items : List MemberItem) (k : ℕ) :
    oldElement (elementsOf items) k = (items.drop k).headD ⟨[], [], []⟩ := by
  rw [oldElement, elementsDrop]
  cases items.drop k with
  | nil => rfl
  | cons i items => rfl

theorem droppedRemaining (server : Server Ty) (olds : List (Attribute Ty)) :
    dropRemaining (elementsOf (olds.map server.item)) = (turns olds []).flatMap (Turn.statements server) := by
  induction olds with
  | nil => rfl
  | cons old olds ih => exact congrArg (Statement.drop old.name :: ·) ih

end Elements

section Kept
variable {name : Text} {names originals : List Text}

theorem Kept.new (kept : Kept names ([] :: originals)) (others : List Text) : Kept others originals := by
  have none : originals.filter (· ≠ []) = [] := List.filter_eq_nil_iff.mpr fun a member => by
    simpa using (List.pairwise_cons.mp kept.newLast).1 a member rfl
  exact ⟨none ▸ List.nil_sublist _, kept.newLast.tail⟩

theorem Kept.same (kept : Kept (name :: names) (name :: originals)) (named : name ≠ []) : Kept names originals := by
  have order := kept.order
  rw [List.filter_cons_of_pos (by simpa using named)] at order
  exact ⟨List.cons_sublist_cons.mp order, kept.newLast.tail⟩

theorem Kept.other {original : Text} (kept : Kept (name :: names) (original :: originals)) (member : original ≠ [])
    (other : original ≠ name) : Kept names (original :: originals) := by
  refine ⟨?_, kept.newLast⟩
  have order := kept.order
  rw [List.filter_cons_of_pos (by simpa using member)] at order ⊢
  cases order with
  | cons _ later => exact later
  | cons_cons => exact absurd rfl other

theorem Kept.member (kept : Kept names originals) {original : Text} (inside : original ∈ originals)
    (member : original ≠ []) : original ∈ names :=
  kept.order.subset (List.mem_filter.mpr ⟨inside, by simpa using member⟩)

end Kept

section Merge
variable {server : Server Ty}

theorem readRow {rows : List Row} {r : Row} {i : ℕ} (here : rows[i]? = some r) :
    (Members.of rows).lstMembers[i]? = some r.item ∧ (Members.of rows).memberOriginalNames[i]? = some r.original ∧
    (Members.of rows).memberTypes[i]? = some r.typeInfo ∧ GetFullTypeName (.of rows) i = some r.full ∧
    (Members.of rows).memberCollations[i]? = some r.collation := by
  have array : ∀ {α : Type} (f : Row → α), (rows.map f)[i]? = some (f r) := fun f => by
    rw [List.getElem?_map, here]
    rfl
  refine ⟨array _, array _, array _, ?_, array _⟩
  simp only [GetFullTypeName, Members.of, array]
  rfl

theorem mergeTurn (items : List MemberItem) {rows : List Row} {r : Row} (fuel : ℕ) {newindex : ℕ} (oldindex : ℕ)
    (here : rows[newindex]? = some r) {stmts : List Statement} {hold : ℕ}
    (made : turn ((items.drop oldindex).headD ⟨[], [], []⟩) r.original r.name r.base r.full r.collation =
      (stmts, hold)) :
    mergeMembers (elementsOf items) (.of rows) (fuel + 1) newindex oldindex =
      if newindex + 1 - hold = rows.length ∧ items.drop (oldindex + 1) ≠ [] then
        some (stmts ++ dropRemaining (elementsOf (items.drop (oldindex + 1))))
      else (mergeMembers (elementsOf items) (.of rows) fuel (newindex + 1 - hold) (oldindex + 1)).map
        (stmts ++ ·) := by
  obtain ⟨item, original, typeInfo, full, collation⟩ := readRow here
  have count : (Members.of rows).lstMembers.length = rows.length := List.length_map _
  have inside : newindex < (Members.of rows).lstMembers.length := by
    rw [count]
    exact (List.getElem?_eq_some_iff.mp here).1
  have left : (elementsOf items).length ≥ (oldindex + 1) * 3 + 3 ↔ items.drop (oldindex + 1) ≠ [] := by
    rw [elementsLength, Ne, List.drop_eq_nil_iff]
    omega
  have step : turn (oldElement (elementsOf items) oldindex) r.original r.item.name
      (AfterFirst r.typeInfo ':') r.full r.collation = (stmts, hold) := by
    rw [oldElementAt]
    exact made
  rw [mergeMembers, if_pos inside]
  simp only [item, original, typeInfo, full, collation, bind, Option.bind_some, step, count, left, elementsDrop,
    Option.map_eq_bind, Function.comp_def]

theorem mergeTurns (attrs : List (Attribute Ty)) (rows : List Row) (named : ∀ a ∈ attrs, a.name ≠ []) {fuel : ℕ}
    {newindex oldindex : ℕ} (kept : Kept (names (attrs.drop oldindex)) ((rows.drop newindex).map Row.original))
    (last : rows.drop newindex = [] → attrs.drop oldindex = [])
    (enough : (attrs.drop oldindex).length + (rows.drop newindex).length < fuel) :
    mergeMembers (elementsOf (attrs.map server.item)) (.of rows) fuel newindex oldindex =
      some ((turns (attrs.drop oldindex) (rows.drop newindex)).flatMap (Turn.statements server)) := by
  induction fuel generalizing newindex oldindex with
  | zero => exact absurd enough (Nat.not_lt_zero _)
  | succ fuel ih =>
    cases todo : rows.drop newindex with
    | nil =>
      rw [last todo, mergeMembers, if_neg]
      · rfl
      · rw [Members.of, List.length_map]
        exact Nat.not_lt.mpr (List.drop_eq_nil_iff.mp todo)
    | cons r rest =>
      have here : rows[newindex]? = some r := by
        rw [← List.head?_drop, todo]
        rfl
      have later : rows.drop (newindex + 1) = rest := by
        rw [← List.tail_drop, todo]
        rfl
      have inside : newindex < rows.length := (List.getElem?_eq_some_iff.mp here).1
      have ended : newindex + 1 = rows.length ↔ rest = [] := by
        rw [← later, List.drop_eq_nil_iff]
        omega
      rw [todo, List.map_cons] at kept
      rw [todo, List.length_cons] at enough
      have advance : ∀ (stmts : List Statement) (olds : List (Attribute Ty)), attrs.drop (oldindex + 1) = olds →
          Kept (names olds) (rest.map Row.original) → olds.length + rest.length < fuel →
          (if newindex + 1 - 0 = rows.length ∧ (attrs.map server.item).drop (oldindex + 1) ≠ [] then
            some (stmts ++ dropRemaining (elementsOf ((attrs.map server.item).drop (oldindex + 1))))
          else (mergeMembers (elementsOf (attrs.map server.item)) (.of rows) fuel (newindex + 1 - 0)
            (oldindex + 1)).map (stmts ++ ·)) =
          some (stmts ++ (turns olds rest).flatMap (Turn.statements server)) := by
        rintro stmts olds rfl kept enough
        rw [← List.map_drop, Nat.sub_zero]
        by_cases final : newindex + 1 = rows.length ∧ (attrs.drop (oldindex + 1)).map server.item ≠ []
        · rw [if_pos final, droppedRemaining, ended.mp final.1]
        · rw [if_neg final]
          have last : rows.drop (newindex + 1) = [] → attrs.drop (oldindex + 1) = [] := fun none => by
            by_contra some_
            exact final ⟨ended.mpr (later ▸ none), fun empty => some_ (List.map_eq_nil_iff.mp empty)⟩
          rw [ih (by rwa [later]) last (by rwa [later]), later, Option.map_some]
      cases drops : attrs.drop oldindex with
      | nil =>
        rw [drops] at kept enough
        have used : attrs.drop (oldindex + 1) = [] := by rw [← List.tail_drop, drops]; rfl
        have new : r.original = [] := by
          by_contra member
          exact absurd (kept.member List.mem_cons_self member) List.not_mem_nil
        rw [new] at kept
        have head : ((attrs.map server.item).drop oldindex).headD ⟨[], [], []⟩ = ⟨[], [], []⟩ := by
          rw [← List.map_drop, drops]
          rfl
        have made := @turnAppend Ty server r new
        rw [← head] at made
        rw [mergeTurn _ fuel oldindex here made, advance _ [] used (kept.new _) (by simpa using enough)]
        rfl
      | cons old olds =>
        rw [drops] at kept enough
        have after : attrs.drop (oldindex + 1) = olds := by rw [← List.tail_drop, drops]; rfl
        have name : old.name ≠ [] := named old (List.mem_of_mem_drop (drops ▸ List.mem_cons_self))
        have head : ((attrs.map server.item).drop oldindex).headD ⟨[], [], []⟩ = server.item old := by
          rw [← List.map_drop, drops]
          rfl
        rw [List.length_cons] at enough
        rw [turns]
        by_cases new : r.original = []
        · rw [new] at kept
          have made := @turnReplace Ty server old r name new
          rw [← head] at made
          rw [mergeTurn _ fuel oldindex here made, advance _ olds after (kept.new _) (by omega), if_pos new]
          rfl
        · rw [if_neg new]
          by_cases same : r.original = old.name
          · rw [same] at kept
            have made := @turnKeep Ty server old r name same
            rw [← head] at made
            rw [mergeTurn _ fuel oldindex here made, advance _ olds after (kept.same name) (by omega), if_pos same]
            rfl
          · have made := @turnDrop Ty server old r new same
            rw [← head] at made
            have again := @ih newindex (oldindex + 1) (by rw [after, todo]; exact kept.other new same)
              (fun none => by rw [todo] at none; cases none) (by rw [after, todo, List.length_cons]; omega)
            rw [if_neg same, mergeTurn _ fuel oldindex here made, Nat.add_sub_cancel,
              if_neg fun final => inside.ne final.1, again, after, todo]
            rfl

end Merge
end PgAdmin.dlgType
