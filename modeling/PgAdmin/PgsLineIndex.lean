import PgAdmin.PgsAssignToRecord

/-! Lines of a record by number: `@R[n]`, `@R[n][c]` and `RMLINE(@R[n])`. The number is read into a long and
passed on as a USHORT; only the USHORT is compared with the number of lines. -/
namespace PgAdmin.PgsObjects

namespace PgsRecord

def removeLine (r : PgsRecord) (line : USHORT) : Bool × PgsRecord :=
  if line < r.countLines then
    (true, {
      columns := r.columns
      lines := r.lines.eraseIdx line.toNat
      square := fun cells member => r.square cells (List.mem_of_mem_eraseIdx member)
      columnsFit := r.columnsFit
      linesFit := Nat.lt_of_le_of_lt (List.length_eraseIdx_le ..) r.linesFit })
  else (false, r)

def lineAt (r : PgsRecord) (n : ℤ) : Option (List Scalar) := if 0 ≤ n then r.lines[n.toNat]? else none

end PgsRecord

structure PgsRemoveLine (σ : Type) where
  record : Text
  line : PgsExpression σ

variable {σ : Type}

namespace PgsRemoveLine

def value (e : PgsRemoveLine σ) : Text :=
  "RMLINE(".toList ++ e.record ++ "[".toList ++ e.line.value ++ "])".toList

def eval (host : Host σ) (e : PgsRemoveLine σ) (vars : PgsVarMap) (s : σ) :
    Except PgsException Variable × PgsVarMap × σ :=
  match vars e.record with
  | some (.record record) =>
    match (e.line.eval vars).run s with
    | (.error x, s) => (.error x, vars, s)
    | (.ok line, s) =>
      let (text, s) := line.value host s
      if line.isInteger then
        match record.removeLine (toUShort (toLong host.auxLine text)) with
        | (true, record) => (.ok (.record record), vars.set e.record (.record record), s)
        | (false, _) => (.error (.pgsParameterException
            ("an error ".toList ++ "occurred while executing ".toList ++ e.value)), vars, s)
      else (.error (.pgsParameterException (text ++ " is not a valid line number".toList)), vars, s)
  | _ => (.error (.pgsParameterException (e.record ++ " is not a record".toList)), vars, s)

end PgsRemoveLine

/- The line expression evaluates to an integer, shown as a text that denotes n. -/
structure LineIs (host : Host σ) (vars : PgsVarMap) (line : PgsExpression σ) (s : σ) (text : Text) (n : ℤ)
    (s' : σ) : Prop where
  evaluates : ∃ v middle, (line.eval vars).run s = (.ok v, middle) ∧ v.isInteger = true ∧
    v.value host middle = (text, s')
  denotes : textInt text = some n

def readCell (host : Host σ) (record : PgsRecord) (vars : PgsVarMap) (column : PgsExpression σ)
    (line : Option (List Scalar)) : Eval σ Variable := do
  let cell (j : USHORT) : Scalar := ((line.getD [])[j.toNat]?).getD (.pgsString [])
  let column ← column.eval vars
  if column.isInteger then
    let text ← column.value host
    pure (.scalar (cell (toUShort (toLong host.auxColumn text))))
  else if column.isString then
    let text ← column.value host
    pure (.scalar (cell (record.getColumn host.ctype text)))
  else pure (.scalar (.pgsString []))

/- Reading and removing act on line n, and on no line where there is no line n. -/
structure ActsOnLine (host : Host σ) (vars : PgsVarMap) (name : Text) (record : PgsRecord)
    (line : PgsExpression σ) (s : σ) (n : ℤ) (s' : σ) : Prop where
  whole : ∃ read, ((⟨name, line, none⟩ : PgsIdentRecord σ).eval host vars).run s =
      (.ok (.record read), s') ∧
    match record.lineAt n with
    | some cells => read.columns = record.columns ∧ read.lines = [cells]
    | none => read.columns = [] ∧ read.lines = []
  cell : ∀ column, ((⟨name, line, some column⟩ : PgsIdentRecord σ).eval host vars).run s =
    (readCell host record vars column (record.lineAt n)).run s'
  removed : match record.lineAt n with
    | some _ => ∃ left, (⟨name, line⟩ : PgsRemoveLine σ).eval host vars s =
        (.ok (.record left), vars.set name (.record left), s') ∧ left.columns = record.columns ∧
      left.lines = record.lines.eraseIdx n.toNat
    | none => ∃ message, (⟨name, line⟩ : PgsRemoveLine σ).eval host vars s =
        (.error (.pgsParameterException message), vars, s')

section Index
variable {host : Host σ} {vars : PgsVarMap} {name : Text} {record : PgsRecord} {line : PgsExpression σ}
  {s s' : σ} {text : Text} {n : ℤ}

theorem evalBindOk {α β : Type} {m : Eval σ α} {f : α → Eval σ β} {a : α} (ok : m.run s = (.ok a, s')) :
    (m >>= f).run s = (f a).run s' := by
  change (ExceptT.bindCont f (m.run s).1) (m.run s).2 = _
  rw [ok]
  rfl

theorem identRead (found : vars name = some (.record record)) (index : LineIs host vars line s text n s')
    (column : Option (PgsExpression σ)) :
    ((⟨name, line, column⟩ : PgsIdentRecord σ).eval host vars).run s =
      ((⟨name, line, column⟩ : PgsIdentRecord σ).read host record vars (toLong host.auxLine text)).run s' := by
  obtain ⟨v, middle, evaluated, integer, shown⟩ := index.evaluates
  rw [PgsIdentRecord.eval, found]
  dsimp only
  rw [evalBindOk evaluated, if_pos integer]
  exact evalBindOk (congrArg (fun out : Text × σ => (Except.ok out.1, out.2)) shown)

theorem lineRemoved (found : vars name = some (.record record)) (index : LineIs host vars line s text n s') :
    (⟨name, line⟩ : PgsRemoveLine σ).eval host vars s =
      match record.removeLine (toUShort (toLong host.auxLine text)) with
      | (true, record) => (.ok (.record record), vars.set name (.record record), s')
      | (false, _) => (.error (.pgsParameterException ("an error ".toList ++ "occurred while executing ".toList ++
          (⟨name, line⟩ : PgsRemoveLine σ).value)), vars, s') := by
  obtain ⟨v, middle, evaluated, integer, shown⟩ := index.evaluates
  rw [PgsRemoveLine.eval, found]
  dsimp only
  rw [evaluated]
  dsimp only
  rw [shown]
  dsimp only
  rw [if_pos integer]

theorem lineAtSome {cells : List Scalar} (there : record.lineAt n = some cells) :
    0 ≤ n ∧ n < record.lines.length := by
  rw [PgsRecord.lineAt] at there
  split at there
  case isTrue nonneg =>
    obtain ⟨inside, -⟩ := List.getElem?_eq_some_iff.mp there
    omega
  case isFalse => cases there

theorem indexKept (host : Host σ) (denotes : textInt text = some n) (nonneg : 0 ≤ n)
    (below : n < record.lines.length) : (toUShort (toLong host.auxLine text)).toNat = n.toNat := by
  have small := record.linesFit
  have exact : toLong host.auxLine text = n := by
    simp only [toLong, denotes]
    exact if_pos (by omega)
  have narrowed := toUShortNat n
  rw [exact]
  omega

theorem getCell (record : PgsRecord) (i j : USHORT) :
    record.get i j = ((record.lines[i.toNat]?.getD [])[j.toNat]?).getD (.pgsString []) := by
  rw [PgsRecord.get]
  split
  · rfl
  case isFalse outside =>
    rw [UInt16.lt_iff_toNat_lt, UInt16.lt_iff_toNat_lt, PgsRecord.countLinesNat,
      PgsRecord.countColumnsNat] at outside
    by_cases inside : i.toNat < record.lines.length
    · have width := record.square _ (List.getElem_mem inside)
      have beyond : record.lines[i.toNat].length ≤ j.toNat := by
        rw [width]
        exact Nat.le_of_not_lt fun below => outside ⟨inside, below⟩
      rw [List.getElem?_eq_getElem inside, Option.getD_some, List.getElem?_eq_none beyond]
      rfl
    · rw [List.getElem?_eq_none (Nat.le_of_not_lt inside)]
      rfl

theorem cellRead (found : vars name = some (.record record)) (index : LineIs host vars line s text n s')
    (column : PgsExpression σ) :
    ((⟨name, line, some column⟩ : PgsIdentRecord σ).eval host vars).run s =
      (readCell host record vars column
        record.lines[(toUShort (toLong host.auxLine text)).toNat]?).run s' := by
  rw [identRead found index]
  simp only [PgsIdentRecord.read, readCell, getCell]

theorem lineRead (found : vars name = some (.record record)) (index : LineIs host vars line s text n s') :
    ((⟨name, line, none⟩ : PgsIdentRecord σ).eval host vars).run s =
      (.ok (.record (record.getLine (toUShort (toLong host.auxLine text)))), s') :=
  identRead found index none

/-- The three act on line n, and on no line where there is no line n, exactly if n is the number of a line
or its low 16 bits are the number of none. -/
theorem lineAddressed (found : vars name = some (.record record)) (index : LineIs host vars line s text n s') :
    ActsOnLine host vars name record line s n s' ↔ (0 ≤ n ∧ n < record.lines.length) ∨
      record.lines.length ≤ (toUShort (toLong host.auxLine text)).toNat := by
  constructor
  · rintro ⟨⟨read, evaluated, exact⟩, -, -⟩
    rw [lineRead found index] at evaluated
    cases evaluated
    cases there : record.lineAt n with
    | some cells => exact .inl (lineAtSome there)
    | none =>
      refine .inr (Nat.le_of_not_lt fun inside => ?_)
      rw [there, PgsRecord.getLine, dif_pos inside] at exact
      exact List.cons_ne_nil _ _ exact.2
  · intro fits
    rcases Decidable.em (0 ≤ n ∧ n < record.lines.length) with ⟨nonneg, below⟩ | outside
    · have same := indexKept host index.denotes nonneg below
      have inside : n.toNat < record.lines.length := by omega
      have there : record.lineAt n = some record.lines[n.toNat] := by
        rw [PgsRecord.lineAt, if_pos nonneg, List.getElem?_eq_getElem inside]
      refine ⟨⟨_, lineRead found index, ?_⟩, fun column => ?_, ?_⟩
      · rw [there, PgsRecord.getLine, dif_pos (same ▸ inside)]
        simp only [same, and_self]
      · rw [cellRead found index, same, there, List.getElem?_eq_getElem inside]
      · rw [there, lineRemoved found index, PgsRecord.removeLine,
          if_pos (UInt16.lt_iff_toNat_lt.mpr (by rw [PgsRecord.countLinesNat]; omega))]
        exact ⟨_, rfl, rfl, congrArg record.lines.eraseIdx same⟩
    · have beyond := fits.resolve_left outside
      have there : record.lineAt n = none := by
        cases there : record.lineAt n with
        | none => rfl
        | some cells => exact absurd (lineAtSome there) outside
      refine ⟨⟨_, lineRead found index, ?_⟩, fun column => ?_, ?_⟩
      · rw [there, PgsRecord.getLine, dif_neg (Nat.not_lt_of_le beyond)]
        exact ⟨rfl, rfl⟩
      · rw [cellRead found index, there, List.getElem?_eq_none beyond]
      · rw [there, lineRemoved found index, PgsRecord.removeLine,
          if_neg fun below => Nat.not_lt_of_le beyond (by simpa using UInt16.lt_iff_toNat_lt.mp below)]
        exact ⟨_, rfl⟩

end Index

def oneLine : PgsRecord where
  columns := [[]]
  lines := [[.pgsNumber ['7'] false]]
  square := by simp
  columnsFit := by decide
  linesFit := by decide

def threeLines : PgsRecord where
  columns := [['a'], ['b']]
  lines := [[.pgsNumber ['1'] false, .pgsNumber ['2'] false], [.pgsNumber ['3'] false, .pgsNumber ['4'] false],
    [.pgsNumber ['5'] false, .pgsNumber ['6'] false]]
  square := by simp
  columnsFit := by decide
  linesFit := by decide

def varsOf (record : PgsRecord) : PgsVarMap := fun name => if name = ['@', 'R'] then some (.record record) else none

def lineNumber (text : Text) : PgsExpression Unit := .constant (.pgsNumber text false) text

def noHost : Host Unit := ⟨.plain, fun _ => pure [], 0, 0⟩

theorem lineNumberIs {record : PgsRecord} {digits : Text} {n : ℤ} (denotes : textInt digits = some n) :
    LineIs noHost (varsOf record) (lineNumber digits) () digits n () :=
  ⟨⟨.scalar (.pgsNumber digits false), (), rfl, rfl, rfl⟩, denotes⟩

theorem middleLineAddressed :
    ActsOnLine noHost (varsOf threeLines) ['@', 'R'] threeLines (lineNumber ['1']) () 1 () ∧
      ActsOnLine noHost (varsOf threeLines) ['@', 'R'] threeLines (lineNumber ['3']) () 3 () :=
  ⟨(lineAddressed rfl (lineNumberIs rfl)).mpr (.inl (by decide)),
    (lineAddressed rfl (lineNumberIs rfl)).mpr (.inr (by decide))⟩

/- Line 65536 is line 0. -/
theorem lineWraps : ¬ ∀ (σ : Type) (host : Host σ) (vars : PgsVarMap) (name : Text) (record : PgsRecord)
    (line : PgsExpression σ) (s : σ) (text : Text) (n : ℤ) (s' : σ), vars name = some (.record record) →
    LineIs host vars line s text n s' → ActsOnLine host vars name record line s n s' := by
  intro all
  have acts := all Unit noHost (varsOf oneLine) ['@', 'R'] oneLine (lineNumber "65536".toList) () _ 65536 () rfl
    (lineNumberIs rfl)
  obtain ⟨read, evaluated, -, lines⟩ := acts.whole
  cases evaluated
  cases lines

end PgAdmin.PgsObjects
