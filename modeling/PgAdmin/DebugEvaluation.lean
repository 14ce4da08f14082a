import PgAdmin.DebugGrid
import Mathlib.Logic.Function.Basic

/-! The values of the arguments for a direct debugging session: one pass through the rows of the parameter grid puts
the SQL of each argument together and has the server evaluate it. -/
namespace PgAdmin.dlgDirectDbg
open PgsObjects (Text)
open misc (listed)

/- The parts of strValExpr, between commas. -/
inductive Item where
  | default (expression : Text)
  | null (type : Text)
  | expression (value type : Text)
  | literal (value type : Text)

inductive ArrayValue (V : Type) where
  | empty
  | filled (dimension : ℕ) (dimensions : List ℕ) (elements : List (Option V))

inductive Value (V : Type) where
  | scalar (v : V)
  | array (a : ArrayValue V)

/- What the server makes of one part: a value, NULL, or an error. -/
structure Server where
  V : Type
  scalar : Item → Option (Option V)
  arrayDefault : Text → Option (Option (ArrayValue V))
  qtDbString : Text → Text

namespace Server
variable (server : Server)

/- The first column of `SELECT item, …`. -/
def select (items : List Item) : Option (Option server.V) := (items.mapM server.scalar).bind List.head?

/- The one element of an array of arrays. NULL and the empty array are left out. -/
def nested : Option (ArrayValue server.V) → ArrayValue server.V
  | some (.filled dimension dimensions elements) => .filled 1 (dimension :: dimensions) elements
  | _ => .empty

def collected (elements : List (Option server.V)) : ArrayValue server.V :=
  if elements = [] then .empty else .filled elements.length [] elements

/- `ARRAY[item, …]`. An array and a value that is none do not match. -/
def arrayOf : List Item → Option (ArrayValue server.V)
  | [.default expression] => (server.arrayDefault expression).map server.nested
  | .default _ :: _ :: _ => none
  | items => (items.mapM server.scalar).map server.collected

def itemText : Item → Text
  | .default expression => expression
  | .null type => "NULL::".toList ++ type
  | .expression value type => "(".toList ++ value ++ ")::".toList ++ type
  | .literal value type => server.qtDbString value ++ "::".toList ++ type

def itemsText (items : List Item) : Text := listed ", ".toList (items.map server.itemText)

end Server

structure ArgState (V : Type) where
  useDefault : Bool
  null : Bool
  value : Option (Value V)

def ArgState.given {V : Type} (state : ArgState V) : Option (Value V) := if state.null then none else state.value

structure Evaluator (V : Type) where
  args : ℕ → ArgState V
  prev : Option Arg
  idx : ℕ
  strValExpr : List Item
  sent : List Text

/- wxGridCellBoolEditor::IsTrueValue() -/
def IsTrueValue (cell : Text) : Bool := cell = isTrue

def defaultItems (info : dbgTarget.dbgArgInfo) : List Item :=
  match info.m_defValue with
  | some (c :: expression) => [.default (c :: expression)]
  | _ => []

def cellItem (arg : Arg) (cells : Cells) : Item :=
  let type := if arg.IsArray then baseType arg.info.m_type else arg.info.m_type
  if IsTrueValue cells.null then .null type
  else if IsTrueValue cells.expr then .expression cells.value type
  else .literal cells.value type

def arrayError (name : Text) (idx : ℕ) : Text :=
  if name = [] then "The specified value for argument #".toList ++ Nat.toDigits 10 idx ++
    " is not valid.\nPlease re-enter the value for it.".toList
  else "Specified value for argument '".toList ++ name ++
    "' is not valid.\nPlease re-enter the value for it.".toList

def scalarError (name : Text) (idx : ℕ) : Text :=
  "Please re-enter the value for argument '".toList ++
    (if name = [] then "Param#".toList ++ Nat.toDigits 10 idx else name) ++ "'.".toList

section Entry
variable (server : Server)

def closeArray (st : Evaluator server.V) : Except Text (Evaluator server.V) :=
  match st.prev with
  | none => .ok st
  | some prev =>
    if (st.args prev.place).null then .ok st
    else
      let sql := "SELECT ARRAY[".toList ++ server.itemsText st.strValExpr ++ "]::".toList ++ prev.info.m_type
      match server.arrayOf st.strValExpr with
      | none => .error (arrayError prev.info.m_name st.idx)
      | some a => .ok { st with
          args := Function.update st.args prev.place { st.args prev.place with value := some (.array a) }
          prev := none
          sent := st.sent ++ [sql] }

def openArg (st : Evaluator server.V) (arg : Arg) (row : Row) : Evaluator server.V :=
  let useDefault := IsTrueValue row.useDef
  { st with
    args := Function.update st.args arg.place
      { st.args arg.place with useDefault := useDefault, null := IsTrueValue row.cells.null }
    prev := some arg
    idx := st.idx + 1
    strValExpr := if useDefault then defaultItems arg.info else [] }

def evaluate (st : Evaluator server.V) (arg : Arg) (cells : Cells) : Except Text (Evaluator server.V) :=
  let flags := st.args arg.place
  let st := if !flags.useDefault || !flags.null then
      { st with strValExpr := st.strValExpr ++ [cellItem arg cells] }
    else st
  if !arg.IsArray && !flags.null then
    match server.select st.strValExpr with
    | none => .error (scalarError arg.info.m_name st.idx)
    | some column => .ok { st with
        args := Function.update st.args arg.place (match column with
          | none => { flags with null := true }
          | some v => { flags with null := false, value := some (.scalar v) })
        sent := st.sent ++ ["SELECT ".toList ++ server.itemsText st.strValExpr] }
  else .ok st

def step (st : Evaluator server.V) (row : Row) : Except Text (Evaluator server.V) :=
  match row.arg with
  | none => closeArray server st
  | some arg =>
    if st.prev.map Arg.place ≠ some arg.place then
      let st := openArg server st arg row
      if arg.IsArray then .ok st else evaluate server st arg row.cells
    else evaluate server st arg row.cells

def dbgArgValueEvaluator (args : ℕ → ArgState server.V) (grid : List Row) :
    Except Text (ℕ → ArgState server.V) :=
  (grid.foldlM (step server) ⟨args, none, 0, [], []⟩).map Evaluator.args

def usedDefault (b : Block) : Option Text :=
  if IsTrueValue b.useDef then b.arg.info.m_defValue.filter fun expression => !expression.isEmpty else none

/- The value an argument is to have, NULL within, and none where the server cannot evaluate it. -/
def meaning (b : Block) : Option (Option (Value server.V)) :=
  if IsTrueValue b.header.null then some none
  else match usedDefault b with
    | some expression =>
      if b.arg.IsArray then (server.arrayDefault expression).map (Option.map .array)
      else (server.scalar (.default expression)).map (Option.map .scalar)
    | none =>
      if b.arg.IsArray then
        ((b.elements.map (cellItem b.arg)).mapM server.scalar).map fun elements =>
          some (.array (server.collected elements))
      else (server.scalar (cellItem b.arg b.header)).map (Option.map .scalar)

def defaults (b : Block) : List Item := if IsTrueValue b.useDef then defaultItems b.arg.info else []

def evaluated (b : Block) : Option (Option (Value server.V)) :=
  if IsTrueValue b.header.null then some none
  else if b.arg.IsArray then
    (server.arrayOf (defaults b ++ b.elements.map (cellItem b.arg))).map (some ∘ .array)
  else (server.select (defaults b ++ [cellItem b.arg b.header])).map (Option.map .scalar)

variable {server}

theorem evaluateArray {arg : Arg} (array : arg.IsArray = true) (st : Evaluator server.V) (cells : Cells) :
    ∃ items, evaluate server st arg cells = .ok { st with strValExpr := items } ∧
      ((st.args arg.place).null = false → items = st.strValExpr ++ [cellItem arg cells]) := by
  unfold evaluate
  simp only [array, Bool.not_true, Bool.false_and, Bool.false_eq_true, if_false]
  split
  case isTrue => exact ⟨_, rfl, fun _ => rfl⟩
  case isFalse null => exact ⟨_, rfl, fun off => absurd (by simp [off]) null⟩

theorem stepElement {arg : Arg} {st : Evaluator server.V} (here : st.prev = some arg) (cells : Cells) :
    step server st (elementRow arg cells) = evaluate server st arg cells := by
  have same : st.prev.map Arg.place = some arg.place := by rw [here]; rfl
  simp [step, elementRow, same]

theorem elementsRun {arg : Arg} (array : arg.IsArray = true) (elements : List Cells) {st : Evaluator server.V}
    (here : st.prev = some arg) : ∃ items,
    (elements.map (elementRow arg)).foldlM (step server) st = .ok { st with strValExpr := items } ∧
      ((st.args arg.place).null = false → items = st.strValExpr ++ elements.map (cellItem arg)) := by
  induction elements generalizing st with
  | nil => exact ⟨st.strValExpr, rfl, fun _ => (List.append_nil _).symm⟩
  | cons cells elements ih =>
    obtain ⟨items, first, appended⟩ := evaluateArray array st cells
    obtain ⟨all, rest, more⟩ := @ih { st with strValExpr := items } here
    refine ⟨all, ?_, fun off => ?_⟩
    · rw [List.map_cons, List.foldlM_cons, stepElement here, first]
      exact rest
    · rw [more off, appended off, List.map_cons, List.append_assoc]
      rfl

structure Given (b : Block) (st st' : Evaluator server.V) : Prop where
  others : ∀ place ≠ b.arg.place, st'.args place = st.args place
  prev : ∀ arg, st'.prev = some arg → arg = b.arg
  given : evaluated server b = some (st'.args b.arg.place).given

theorem closeRun {b : Block} (array : b.arg.IsArray = true) {st next : Evaluator server.V}
    (here : st.prev = some b.arg) (null : (st.args b.arg.place).null = IsTrueValue b.header.null)
    (items : (st.args b.arg.place).null = false →
      st.strValExpr = defaults b ++ b.elements.map (cellItem b.arg))
    (ok : closeArray server st = .ok next) : Given b st next := by
  unfold closeArray at ok
  rw [here] at ok
  dsimp only at ok
  split at ok
  case isTrue on =>
    cases ok
    refine ⟨fun _ _ => rfl, fun arg same => (Option.some.inj (here.symm.trans same)).symm, ?_⟩
    rw [evaluated, if_pos (null ▸ on), ArgState.given, if_pos on]
  case isFalse off =>
    rw [Bool.not_eq_true] at off
    split at ok
    case h_1 => cases ok
    case h_2 a value =>
      cases ok
      refine ⟨fun place other => Function.update_of_ne other .., fun arg none => (by cases none), ?_⟩
      rw [evaluated, if_neg (by rw [← null, off]; decide), if_pos array, ← items off, value]
      simp [ArgState.given, off]

theorem scalarRun {b : Block} (scalar : b.arg.IsArray = false) {st next : Evaluator server.V}
    (here : st.prev = some b.arg) (null : (st.args b.arg.place).null = IsTrueValue b.header.null)
    (items : st.strValExpr = defaults b)
    (ok : evaluate server st b.arg b.header = .ok next) : Given b st next := by
  unfold evaluate at ok
  have own (arg : Arg) (same : st.prev = some arg) : arg = b.arg := (Option.some.inj (here.symm.trans same)).symm
  cases box : (st.args b.arg.place).null with
  | true =>
    simp only [box, scalar, Bool.not_true, Bool.and_false, Bool.false_eq_true, if_false] at ok
    cases ok
    refine ⟨fun _ _ => by split <;> rfl, fun arg same => own arg (by split at same <;> exact same), ?_⟩
    rw [evaluated, if_pos (by rw [← null, box])]
    split <;> simp [ArgState.given, box]
  | false =>
    simp only [box, scalar, Bool.not_false, Bool.or_true, Bool.and_self, if_true] at ok
    split at ok
    case h_1 => cases ok
    case h_2 column value =>
      cases ok
      refine ⟨fun place other => Function.update_of_ne other .., own, ?_⟩
      rw [evaluated, if_neg (by rw [← null, box]; decide), if_neg (by rw [scalar]; decide), ← items, value]
      cases column <;> simp [ArgState.given]

theorem blockRun {b : Block} {st next : Evaluator server.V} (apart : st.prev.map Arg.place ≠ some b.arg.place)
    (ok : b.rows.foldlM (step server) st = .ok next) : Given b st next := by
  have opened : step server st (headerRow b) =
      let st := openArg server st b.arg (headerRow b)
      if b.arg.IsArray then .ok st else evaluate server st b.arg b.header := if_pos apart
  have others (place : ℕ) (other : place ≠ b.arg.place) :
      (openArg server st b.arg (headerRow b)).args place = st.args place := Function.update_of_ne other ..
  have null : ((openArg server st b.arg (headerRow b)).args b.arg.place).null = IsTrueValue b.header.null := by
    simp [openArg, headerRow]
  have through {next : Evaluator server.V} (run : Given b (openArg server st b.arg (headerRow b)) next) :
      Given b st next := ⟨fun place other => (run.others place other).trans (others place other), run.prev, run.given⟩
  change (headerRow b :: _).foldlM _ _ = _ at ok
  cases array : b.arg.IsArray with
  | false =>
    rw [if_neg (by rw [array]; decide), List.foldlM_cons, opened] at ok
    simp only [array, Bool.false_eq_true, if_false, List.foldlM_nil] at ok
    exact through (scalarRun array rfl null rfl (by simpa using ok))
  | true =>
    obtain ⟨items, run, appended⟩ := elementsRun array b.elements
      (show (openArg server st b.arg (headerRow b)).prev = some b.arg from rfl)
    rw [if_pos array, List.foldlM_cons, opened] at ok
    simp only [array, if_true] at ok
    change (b.elements.map (elementRow b.arg) ++ [plusRow b.arg]).foldlM (step server) _ = _ at ok
    rw [List.foldlM_append, run] at ok
    simp only [List.foldlM_cons, List.foldlM_nil, bind_pure] at ok
    have closed : closeArray server { openArg server st b.arg (headerRow b) with strValExpr := items } = .ok next := ok
    have run := @closeRun server b array { openArg server st b.arg (headerRow b) with strValExpr := items } next
      rfl null appended closed
    exact through ⟨run.others, run.prev, run.given⟩

theorem blocksRun {blocks : List Block} (distinct : (blocks.map fun b => b.arg.place).Nodup)
    {st last : Evaluator server.V}
    (apart : ∀ b ∈ blocks, st.prev.map Arg.place ≠ some b.arg.place)
    (ok : (gridRows blocks).foldlM (step server) st = .ok last) :
    (∀ place, (∀ b ∈ blocks, place ≠ b.arg.place) → last.args place = st.args place) ∧
      ∀ b ∈ blocks, evaluated server b = some (last.args b.arg.place).given := by
  induction blocks generalizing st with
  | nil =>
    cases ok
    exact ⟨fun _ _ => rfl, fun b none => absurd none List.not_mem_nil⟩
  | cons b blocks ih =>
    rw [gridRows, List.flatMap_cons, List.foldlM_append] at ok
    cases first : b.rows.foldlM (step server) st with
    | error message =>
      rw [first] at ok
      cases ok
    | ok next =>
      rw [first] at ok
      obtain ⟨new, distinct⟩ := List.nodup_cons.mp distinct
      have here := blockRun (apart b List.mem_cons_self) first
      have later : ∀ c ∈ blocks, b.arg.place ≠ c.arg.place := fun c member same =>
        new (List.mem_map.mpr ⟨c, member, same.symm⟩)
      obtain ⟨untouched, all⟩ := ih distinct (fun c member same => by
        obtain ⟨arg, isPrev, place⟩ := Option.map_eq_some_iff.mp same
        rw [here.prev arg isPrev] at place
        exact later c member place) ok
      refine ⟨fun place other => ?_, List.forall_mem_cons.mpr ⟨?_, all⟩⟩
      · rw [untouched place fun c member => other c (List.mem_cons_of_mem b member)]
        exact here.others place (other b List.mem_cons_self)
      · rw [untouched _ later]
        exact here.given

theorem defaultsUsed (b : Block) : defaults b = (usedDefault b).toList.map .default := by
  unfold defaults usedDefault defaultItems
  split
  case isTrue => rcases b.arg.info.m_defValue with _ | _ | _ <;> rfl
  case isFalse => rfl

theorem selectFirst {item : Item} {items : List Item} {column : Option server.V}
    (ok : server.select (item :: items) = some column) : server.scalar item = some column := by
  rw [Server.select, List.mapM_cons] at ok
  obtain ⟨columns, all, first⟩ := Option.bind_eq_some_iff.mp ok
  obtain ⟨v, here, rest⟩ := Option.bind_eq_some_iff.mp all
  obtain ⟨more, -, same⟩ := Option.bind_eq_some_iff.mp rest
  cases same
  rw [here]
  exact first

theorem arrayOfCells (arg : Arg) (elements : List Cells) :
    server.arrayOf (elements.map (cellItem arg)) =
      ((elements.map (cellItem arg)).mapM server.scalar).map server.collected := by
  cases elements with
  | nil => rfl
  | cons cells elements =>
    rw [List.map_cons]
    unfold cellItem
    dsimp only
    split_ifs <;> rfl

theorem nestedSame (a : Option (ArrayValue server.V)) : a = some (server.nested a) ↔ a = some .empty := by
  rcases a with _ | _ | ⟨dimension, dimensions, elements⟩
  · simp
  · simp [Server.nested]
  · refine ⟨fun same => ?_, fun empty => by cases empty⟩
    have inner := congrArg List.length (ArrayValue.filled.inj (Option.some.inj same)).2.1
    simp at inner

theorem evaluatedMeaning {b : Block} {v : Option (Value server.V)} (ok : evaluated server b = some v) :
    meaning server b = some v ↔ (b.arg.IsArray = true → IsTrueValue b.header.null = false →
      ∀ expression, usedDefault b = some expression → server.arrayDefault expression = some (some .empty)) := by
  unfold evaluated at ok
  unfold meaning
  rw [defaultsUsed] at ok
  cases null : IsTrueValue b.header.null with
  | true =>
    rw [if_pos null] at ok
    cases ok
    simp
  | false =>
    rw [if_neg (by rw [null]; decide)] at ok
    cases array : b.arg.IsArray with
    | false =>
      rw [if_neg (by rw [array]; decide)] at ok
      obtain ⟨column, selected, rfl⟩ := Option.map_eq_some_iff.mp ok
      simp only [Bool.false_eq_true, if_false, false_implies, iff_true]
      cases used : usedDefault b with
      | none =>
        rw [used] at selected
        exact congrArg (Option.map (Option.map Value.scalar)) (selectFirst selected)
      | some expression =>
        rw [used] at selected
        exact congrArg (Option.map (Option.map Value.scalar)) (selectFirst selected)
    | true =>
      rw [if_pos array] at ok
      obtain ⟨a, collected, rfl⟩ := Option.map_eq_some_iff.mp ok
      simp only [Bool.false_eq_true, if_false, if_true, true_implies]
      cases used : usedDefault b with
      | none =>
        rw [used, Option.toList, List.map_nil, List.nil_append, arrayOfCells] at collected
        obtain ⟨elements, each, rfl⟩ := Option.map_eq_some_iff.mp collected
        simp [each]
      | some expression =>
        rw [used] at collected
        simp only [Option.some.injEq, forall_eq']
        cases elements : b.elements.map (cellItem b.arg) with
        | cons item items =>
          rw [elements] at collected
          cases collected
        | nil =>
          rw [elements] at collected
          obtain ⟨default, whole, rfl⟩ := Option.map_eq_some_iff.mp collected
          rw [whole, Option.map_some, Option.some.injEq, Option.some.injEq, ← nestedSame]
          cases default <;> simp

/- When success is reported, the arguments have the values the grid gives them just where no default of an array is
used, or the default is the empty array. -/
theorem argumentsEvaluated (server : Server) (sig : Signature) (args final : ℕ → ArgState server.V)
    (blocks : List Block) (content : blocks.map Block.arg = shown sig)
    (success : dbgArgValueEvaluator server args (gridRows blocks) = .ok final) :
    (∀ b ∈ blocks, meaning server b = some (final b.arg.place).given) ↔
      ∀ b ∈ blocks, b.arg.IsArray = true → IsTrueValue b.header.null = false →
        ∀ expression, usedDefault b = some expression → server.arrayDefault expression = some (some .empty) := by
  have distinct : (blocks.map fun b => b.arg.place).Nodup := by
    have places := shownPlaces sig
    rwa [← content, List.map_map] at places
  obtain ⟨last, run, rfl⟩ : ∃ last, (gridRows blocks).foldlM (step server) ⟨args, none, 0, [], []⟩ = .ok last ∧
      last.args = final := by
    unfold dbgArgValueEvaluator at success
    cases run : (gridRows blocks).foldlM (step server) ⟨args, none, 0, [], []⟩ with
    | error message =>
      rw [run] at success
      cases success
    | ok last =>
      rw [run] at success
      exact ⟨last, rfl, Except.ok.inj success⟩
  obtain ⟨-, each⟩ := blocksRun distinct (fun b _ => by simp) run
  exact forall₂_congr fun b member => evaluatedMeaning (each b member)

end Entry

section Examples

/- A server with integers, where 5 and the default ARRAY[1,2] have values. -/
def integers : Server where
  V := ℤ
  scalar
    | .null _ => some none
    | .literal value _ => if value = "5".toList then some (some 5) else none
    | _ => none
  arrayDefault expression :=
    if expression = "ARRAY[1,2]".toList then some (some (.filled 2 [] [some 1, some 2])) else none
  qtDbString value := "'".toList ++ value ++ "'".toList

def notGiven : ℕ → ArgState integers.V := fun _ => ⟨false, false, none⟩

def codes : Arg := ⟨0, ⟨"codes".toList, "integer[]".toList, 1007, .in, some "ARRAY[1,2]".toList⟩⟩

/- `(codes integer[] DEFAULT ARRAY[1,2])` -/
def codesOnly : Signature where
  args := [codes.info]
  named := by simp [codes]
  variadicArray := by simp [codes]
  variadicLast := by simp

def codesBlock (useDef : Text) (elements : List Cells) : Block :=
  ⟨codes, noCells, useDef, elements, fun scalar => absurd scalar (by decide)⟩

theorem elementsEvaluated : ∃ final : ℕ → ArgState integers.V,
    dbgArgValueEvaluator integers notGiven
      (gridRows [codesBlock [] [⟨[], [], "5".toList⟩, ⟨isTrue, [], []⟩]]) = .ok final ∧
      ∀ b ∈ [codesBlock [] [⟨[], [], "5".toList⟩, ⟨isTrue, [], []⟩]],
        meaning integers b = some (final b.arg.place).given := by
  refine ⟨_, rfl, (argumentsEvaluated integers codesOnly notGiven _ _ rfl rfl).mpr ?_⟩
  intro b member _ _ expression used
  cases List.mem_singleton.mp member
  have unused : usedDefault (codesBlock [] [⟨[], [], "5".toList⟩, ⟨isTrue, [], []⟩]) = none := rfl
  rw [unused] at used
  cases used

/- As the dialog fills the grid, the default of the array becomes its only element. -/
theorem defaultNested :
    PopulateParamGrid codesOnly = gridRows [codesBlock isTrue []] ∧
      (dbgArgValueEvaluator integers notGiven (gridRows [codesBlock isTrue []])).map
        (fun final => (final codes.place).given) = .ok (some (.array (.filled 1 [2] [some (1 : ℤ), some (2 : ℤ)]))) ∧
      meaning integers (codesBlock isTrue []) = some (some (.array (.filled 2 [] [some (1 : ℤ), some (2 : ℤ)]))) :=
  ⟨rfl, rfl, rfl⟩

end Examples

end PgAdmin.dlgDirectDbg
