import PgAdmin.PgsObjects

/-! pgsRecord: reading, writing and printing. insert() appends empty lines with a 16-bit counter
before it looks at the column; its loop runs on fuel here, and one lemma says what it leaves. -/
namespace PgAdmin.PgsObjects
open Substitution

namespace PgsRecord

def countLines (r : PgsRecord) : USHORT := UInt16.ofNat r.lines.length
def countColumns (r : PgsRecord) : USHORT := UInt16.ofNat r.columns.length

@[simp] theorem countLinesNat (r : PgsRecord) : r.countLines.toNat = r.lines.length := by
  simp only [countLines, UInt16.toNat_ofNat']
  exact Nat.mod_eq_of_lt r.linesFit

@[simp] theorem countColumnsNat (r : PgsRecord) : r.countColumns.toNat = r.columns.length := by
  simp only [countColumns, UInt16.toNat_ofNat']
  exact Nat.mod_eq_of_lt r.columnsFit

/- pgsRecord(nb_columns): the columns have no name yet. -/
def create (nbColumns : USHORT) : PgsRecord where
  columns := List.replicate nbColumns.toNat []
  lines := []
  square := by simp
  columnsFit := by simpa using nbColumns.toNat_lt
  linesFit := by simp

/- The cells newline() adds. -/
def blankLine (width : ℕ) : List Scalar := List.replicate width (.pgsString [])

/- `for (USHORT i = count_lines(); i <= line; i++) newline();` -/
def growLines (width : ℕ) (line : USHORT) : ℕ → USHORT → List (List Scalar) →
    Option (List (List Scalar))
  | 0, _, _ => none
  | fuel + 1, i, lines =>
    if i ≤ line then growLines width line fuel (i + 1) (lines ++ [blankLine width]) else some lines

theorem growLinesDone {width fuel : ℕ} {line i : USHORT} {lines grown : List (List Scalar)}
    (ok : growLines width line fuel i lines = some grown) (fits : line.toNat < 65535) :
    grown = lines ++ List.replicate (line.toNat + 1 - i.toNat) (blankLine width) := by
  induction fuel generalizing i lines with
  | zero => simp [growLines] at ok
  | succ fuel ih =>
    rw [growLines] at ok
    split at ok
    · rename_i below
      have small : i.toNat ≤ line.toNat := UInt16.le_iff_toNat_le.mp below
      have next : (i + 1).toNat = i.toNat + 1 := by
        rw [UInt16.toNat_add]
        simp only [UInt16.toNat_one]
        omega
      rw [ih ok, next, List.append_assoc]
      congr 1
      rw [show line.toNat + 1 - i.toNat = (line.toNat + 1 - (i.toNat + 1)) + 1 by omega,
        List.replicate_succ]
      rfl
    · rename_i above
      have past : ¬ i.toNat ≤ line.toNat := fun h => above (UInt16.le_iff_toNat_le.mpr h)
      cases Option.some.inj ok
      rw [show line.toNat + 1 - i.toNat = 0 by omega, List.replicate_zero, List.append_nil]

theorem growLinesStuck (width fuel : ℕ) {line : USHORT} (i : USHORT) (lines : List (List Scalar))
    (top : line.toNat = 65535) : growLines width line fuel i lines = none := by
  induction fuel generalizing i lines with
  | zero => rfl
  | succ fuel ih =>
    have below : i ≤ line := by
      have := i.toNat_lt
      exact UInt16.le_iff_toNat_le.mpr (by omega)
    rw [growLines, if_pos below]
    exact ih _ _

theorem growLinesEnds (width : ℕ) {line : USHORT} (i : USHORT) (lines : List (List Scalar))
    (fits : line.toNat < 65535) {fuel : ℕ} (enough : line.toNat + 1 - i.toNat < fuel) :
    ∃ grown, growLines width line fuel i lines = some grown := by
  induction fuel generalizing i lines with
  | zero => omega
  | succ fuel ih =>
    rw [growLines]
    split
    · rename_i below
      have small : i.toNat ≤ line.toNat := UInt16.le_iff_toNat_le.mp below
      have next : (i + 1).toNat = i.toNat + 1 := by
        rw [UInt16.toNat_add]
        simp only [UInt16.toNat_one]
        omega
      exact ih _ _ (by omega)
    · exact ⟨lines, rfl⟩

theorem growLinesFits {width fuel : ℕ} {line : USHORT} {r : PgsRecord}
    {grown : List (List Scalar)}
    (ok : growLines width line fuel r.countLines r.lines = some grown) : line.toNat < 65535 := by
  by_contra top
  have bound := line.toNat_lt
  rw [growLinesStuck width fuel _ _ (by omega)] at ok
  contradiction

def grow (fuel : ℕ) (r : PgsRecord) (line : USHORT) : Option PgsRecord :=
  match ok : growLines r.columns.length line fuel r.countLines r.lines with
  | none => none
  | some grown => some {
      columns := r.columns
      lines := grown
      square := by
        have same := growLinesDone ok (growLinesFits ok)
        intro cells member
        rw [same, List.mem_append] at member
        rcases member with old | new
        · exact r.square cells old
        · rw [List.eq_of_mem_replicate new, blankLine, List.length_replicate]
      columnsFit := r.columnsFit
      linesFit := by
        have fits := growLinesFits ok
        have same := growLinesDone ok fits
        have old := r.linesFit
        rw [same, List.length_append, List.length_replicate, countLinesNat]
        omega }

def setCell (r : PgsRecord) (line column : ℕ) (v : Scalar) : PgsRecord where
  columns := r.columns
  lines := r.lines.modify line (·.set column v)
  square := by
    intro cells member
    obtain ⟨i, inside, rfl⟩ := List.mem_iff_getElem.mp member
    rw [List.length_modify] at inside
    rw [List.getElem_modify]
    split
    · rw [List.length_set]
      exact r.square _ (List.getElem_mem inside)
    · exact r.square _ (List.getElem_mem inside)
  columnsFit := r.columnsFit
  linesFit := by simpa using r.linesFit

@[simp] theorem setCellLines (r : PgsRecord) (line column : ℕ) (v : Scalar) :
    (r.setCell line column v).lines = r.lines.modify line (·.set column v) := rfl

@[simp] theorem setCellColumns (r : PgsRecord) (line column : ℕ) (v : Scalar) :
    (r.setCell line column v).columns = r.columns := rfl

def insert (fuel : ℕ) (r : PgsRecord) (line column : USHORT) (v : Scalar) :
    Option (Bool × PgsRecord) :=
  (r.grow fuel line).map fun grown =>
    if r.countColumns ≤ column then (false, grown)
    else (true, grown.setCell line.toNat column.toNat v)

def get (r : PgsRecord) (line column : USHORT) : Scalar :=
  if line < r.countLines ∧ column < r.countColumns then
    ((r.lines[line.toNat]?.getD [])[column.toNat]?).getD (.pgsString [])
  else .pgsString []

def getLine (r : PgsRecord) (line : USHORT) : PgsRecord :=
  if inside : line.toNat < r.lines.length then
    { columns := r.columns
      lines := [r.lines[line.toNat]]
      square := by
        intro cells member
        rw [List.mem_singleton.mp member]
        exact r.square _ (List.getElem_mem inside)
      columnsFit := r.columnsFit
      linesFit := by simp }
  else create 0

def setColumnName (ctype : Ctype) (r : PgsRecord) (column : USHORT) (name : Text) :
    Bool × PgsRecord :=
  let name := (ctype.strip name).map ctype.lower
  if r.countColumns ≤ column ∨ name ∈ r.columns ∨ name = [] then (false, r)
  else (true, {
    columns := r.columns.set column.toNat name
    lines := r.lines
    square := by simpa using r.square
    columnsFit := by simpa using r.columnsFit
    linesFit := r.linesFit })

/- count_columns() stands for no such column. -/
def getColumn (ctype : Ctype) (r : PgsRecord) (name : Text) : USHORT :=
  let name := (ctype.strip name).map ctype.lower
  if name = [] then r.countColumns else UInt16.ofNat (r.columns.idxOf name)

/- A cell of value(): numbers bare, the rest escaped and quoted. -/
def quote (data : Text) : Text :=
  ['"'] ++ replaceAll ['"'] ['\\', '"'] (replaceAll ['\\'] ['\\', '\\'] data) ++ ['"']

def cellText {σ : Type} (draw : ℕ → StateM σ Text) (v : Scalar) : StateM σ Text := do
  let data ← v.value draw
  pure (if v.isNumber then data else quote data)

def lineText {σ : Type} (draw : ℕ → StateM σ Text) (cells : List Scalar) : StateM σ Text := do
  let texts ← cells.mapM (cellText draw)
  pure (['('] ++ [','].intercalate texts ++ [')'])

def value {σ : Type} (draw : ℕ → StateM σ Text) (r : PgsRecord) : StateM σ Text := do
  let texts ← r.lines.mapM (lineText draw)
  pure (['\n'].intercalate texts)

/-! What insert() leaves. -/

theorem growLinesOf {fuel : ℕ} {r grown : PgsRecord} {line : USHORT}
    (ok : r.grow fuel line = some grown) :
    growLines r.columns.length line fuel r.countLines r.lines = some grown.lines ∧
      grown.columns = r.columns := by
  unfold grow at ok
  split at ok
  · contradiction
  · rename_i lines found
    cases Option.some.inj ok
    exact ⟨found, rfl⟩

theorem growShape {fuel : ℕ} {r grown : PgsRecord} {line : USHORT}
    (ok : r.grow fuel line = some grown) :
    line.toNat < 65535 ∧ grown.columns = r.columns ∧
      grown.lines = r.lines ++
        List.replicate (line.toNat + 1 - r.lines.length) (blankLine r.columns.length) := by
  obtain ⟨found, columns⟩ := growLinesOf ok
  have fits := growLinesFits found
  refine ⟨fits, columns, ?_⟩
  rw [growLinesDone found fits, countLinesNat]

theorem growEnds (r : PgsRecord) (line : USHORT) (fits : line.toNat < 65535) {fuel : ℕ}
    (enough : line.toNat + 1 - r.lines.length < fuel) : ∃ grown, r.grow fuel line = some grown := by
  obtain ⟨lines, found⟩ := growLinesEnds r.columns.length r.countLines r.lines fits
    (show line.toNat + 1 - r.countLines.toNat < fuel by rwa [countLinesNat])
  cases ended : r.grow fuel line with
  | some grown => exact ⟨grown, rfl⟩
  | none =>
    unfold grow at ended
    split at ended
    · rename_i stuck
      rw [found] at stuck
      contradiction
    · contradiction

theorem insertEnds (r : PgsRecord) {line : USHORT} (column : USHORT) (v : Scalar)
    (fits : line.toNat < 65535) : ∃ fuel out, r.insert fuel line column v = some out := by
  obtain ⟨grown, ok⟩ := growEnds r line fits (Nat.lt_succ_self _)
  exact ⟨_, _, by rw [insert, ok]; rfl⟩

theorem insertFits {fuel : ℕ} {r : PgsRecord} {line column : USHORT} {v : Scalar}
    {out : Bool × PgsRecord} (ok : r.insert fuel line column v = some out) :
    line.toNat < 65535 := by
  obtain ⟨grown, found, _⟩ := Option.map_eq_some_iff.mp ok
  exact (growShape found).1

def cellAt (r : PgsRecord) (i j : ℕ) : Option Scalar := r.lines[i]?.bind (·[j]?)

/- The record after a successful assignment to line n: as many lines as that takes, the value in
its cell, every other cell as it was, blank where the line is new. -/
structure Stores (r : PgsRecord) (n : ℤ) (column : ℕ) (v : Scalar) (after : PgsRecord) : Prop where
  nonneg : 0 ≤ n
  columns : after.columns = r.columns
  lines : (after.lines.length : ℤ) = max (r.lines.length : ℤ) (n + 1)
  cell : after.cellAt n.toNat column = some v
  others : ∀ i j, ¬ (i = n.toNat ∧ j = column) → i < after.lines.length → j < r.columns.length →
    after.cellAt i j = if i < r.lines.length then r.cellAt i j else some (.pgsString [])

theorem insertFails {fuel : ℕ} {r after : PgsRecord} {line column : USHORT} {v : Scalar}
    (ok : r.insert fuel line column v = some (false, after)) :
    r.columns.length ≤ column.toNat ∧ r.grow fuel line = some after := by
  obtain ⟨grown, found, same⟩ := Option.map_eq_some_iff.mp ok
  split at same
  · rename_i outside
    cases same
    exact ⟨by simpa using UInt16.le_iff_toNat_le.mp outside, found⟩
  · cases same

theorem insertStores {fuel : ℕ} {r after : PgsRecord} {line column : USHORT} {v : Scalar}
    (ok : r.insert fuel line column v = some (true, after)) :
    column.toNat < r.columns.length ∧ r.Stores line.toNat column.toNat v after := by
  obtain ⟨grown, found, same⟩ := Option.map_eq_some_iff.mp ok
  obtain ⟨_, columns, lines⟩ := growShape found
  split at same
  · cases same
  · rename_i inside
    cases same
    have inColumn : column.toNat < r.columns.length := by
      have := mt UInt16.le_iff_toNat_le.mpr inside
      simpa using this
    have length : grown.lines.length = max r.lines.length (line.toNat + 1) := by
      rw [lines, List.length_append, List.length_replicate]
      omega
    refine ⟨inColumn, ⟨by omega, columns, ?_, ?_, ?_⟩⟩
    · simp only [setCell, List.length_modify, length]
      omega
    · have here : line.toNat < grown.lines.length := by omega
      have wide : column.toNat < grown.lines[line.toNat].length := by
        rw [grown.square _ (List.getElem_mem here), columns]
        exact inColumn
      simp [cellAt, setCell, here, wide]
    · intro i j apart bound wide
      simp only [setCell, List.length_modify] at bound
      have before : grown.cellAt i j =
          if i < r.lines.length then r.cellAt i j else some (.pgsString []) := by
        simp only [cellAt, lines]
        split
        · rename_i old
          rw [List.getElem?_append_left old]
        · rename_i new
          rw [List.getElem?_append_right (by omega), List.getElem?_replicate, if_pos (by omega)]
          simp [blankLine, wide]
      rw [← before]
      simp only [cellAt, setCell, List.getElem?_modify]
      by_cases row : line.toNat = i
      · have other : column.toNat ≠ j := fun h => apart ⟨by omega, h.symm⟩
        cases grown.lines[i]? with
        | none => rfl
        | some cells => simp [row, List.getElem?_set_ne other]
      · cases grown.lines[i]? <;> simp [row]

end PgsRecord
end PgAdmin.PgsObjects
