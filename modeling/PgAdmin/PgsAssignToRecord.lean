import PgAdmin.PgsRecord

/-! `SET @R[line][column] = var`. The record, the value, the line and the column are evaluated
first; then insert() runs on the narrowed indexes, and at last the same line and column
expressions are evaluated again to give the assignment its own value. -/
namespace PgAdmin.PgsObjects

/- What the program finds around it: the locale, the randomizers, and what the two local longs
hold before ToLong writes them. -/
structure Host (σ : Type) where
  ctype : Ctype
  draw : ℕ → StateM σ Text
  auxLine : ℤ
  auxColumn : ℤ

def Variable.value {σ : Type} (host : Host σ) : Variable → StateM σ Text
  | .scalar v => v.value host.draw
  | .record r => r.value host.draw

structure PgsIdentRecord (σ : Type) where
  name : Text
  line : PgsExpression σ
  column : Option (PgsExpression σ)

structure PgsAssignToRecord (σ : Type) where
  name : Text
  line : PgsExpression σ
  column : PgsExpression σ
  var : PgsExpression σ

variable {σ : Type}

namespace PgsIdentRecord

def read (host : Host σ) (e : PgsIdentRecord σ) (record : PgsRecord) (vars : PgsVarMap) (line : ℤ) :
    Eval σ Variable :=
  match e.column with
  | none => pure (.record (record.getLine (toUShort line)))
  | some columnExpression => do
    let column ← columnExpression.eval vars
    if column.isInteger then
      let text ← column.value host
      pure (.scalar (record.get (toUShort line) (toUShort (toLong host.auxColumn text))))
    else if column.isString then
      let text ← column.value host
      pure (.scalar (record.get (toUShort line) (record.getColumn host.ctype text)))
    else pure (.scalar (.pgsString []))

def eval (host : Host σ) (e : PgsIdentRecord σ) (vars : PgsVarMap) : Eval σ Variable :=
  match vars e.name with
  | some (.record record) => do
    let line ← e.line.eval vars
    if line.isInteger then
      let text ← line.value host
      e.read host record vars (toLong host.auxLine text)
    else pure (.scalar (.pgsString []))
  | _ => pure (.scalar (.pgsString []))

end PgsIdentRecord

namespace PgsAssignToRecord

def value (e : PgsAssignToRecord σ) : Text :=
  "SET ".toList ++ e.name ++ "[".toList ++ e.line.value ++ "]".toList ++ "[".toList ++
    e.column.value ++ "]".toList ++ " = ".toList ++ e.var.value

def affectationError (e : PgsAssignToRecord σ) : PgsException :=
  .pgsParameterException ("An error occurred in record affectation: ".toList ++ e.value ++
    "\nOne possible reason is a column index out of range".toList)

/- What insert() is called with; no column when the range check refuses it. -/
structure Target where
  record : PgsRecord
  var : Scalar
  line : Text
  column : Option ℤ

def columnIndex (host : Host σ) (record : PgsRecord) (column : Variable) : Eval σ (Option ℤ) := do
  let text ← column.value host
  if column.isInteger then
    let auxColumn := toLong host.auxColumn text
    pure (if auxColumn < record.countColumns.toNat then some auxColumn else none)
  else if column.isString then
    let auxColumn := record.getColumn host.ctype text
    pure (if auxColumn < record.countColumns then some auxColumn.toNat else none)
  else throw (.pgsParameterException (text ++ " is not a valid column number/name".toList))

def target (host : Host σ) (e : PgsAssignToRecord σ) (vars : PgsVarMap) : Eval σ Target :=
  match vars e.name with
  | some (.record record) => do
    match ← e.var.eval vars with
    | .scalar var =>
      let line ← e.line.eval vars
      let column ← e.column.eval vars
      let text ← line.value host
      if line.isInteger then
        let index ← columnIndex host record column
        pure ⟨record, var, text, index⟩
      else throw (.pgsParameterException (text ++ " is not a valid line number".toList))
    | .record _ => throw (.pgsParameterException
        "Cannot assign a record into a record: right member is a record".toList)
  | _ => throw (.pgsParameterException (e.name ++ " is not a record".toList))

def Target.index (host : Host σ) (t : Target) : USHORT := toUShort (toLong host.auxLine t.line)

def assign (host : Host σ) (fuel : ℕ) (e : PgsAssignToRecord σ) (vars : PgsVarMap) (s : σ) :
    Option (Except PgsException Unit × PgsVarMap × σ) :=
  match (e.target host vars).run s with
  | (.error x, s) => some (.error x, vars, s)
  | (.ok t, s) =>
    match t.column with
    | none => some (.error e.affectationError, vars, s)
    | some column =>
      (t.record.insert fuel (t.index host) (toUShort column) t.var).map fun out =>
        (if out.1 then .ok () else .error e.affectationError,
          vars.set e.name (.record out.2), s)

def ident (e : PgsAssignToRecord σ) : PgsIdentRecord σ := ⟨e.name, e.line, some e.column⟩

def eval (host : Host σ) (fuel : ℕ) (e : PgsAssignToRecord σ) (vars : PgsVarMap) (s : σ) :
    Option (Except PgsException Variable × PgsVarMap × σ) :=
  (e.assign host fuel vars s).map fun
    | (.error x, vars, s) => (.error x, vars, s)
    | (.ok (), vars, s) =>
      let out := (e.ident.eval host vars).run s
      (out.1, vars, out.2)

end PgsAssignToRecord
end PgAdmin.PgsObjects
