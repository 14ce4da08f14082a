import PgAdmin.SqlTableEdits

/-! sqlTable::DeleteRows. A fetched row is taken out of lineIndex, an added one out of the pool, and
the rows after it move up; the row being edited is not told. The database is asked once for each
stored line, and the first refusal ends the loop. -/
namespace PgAdmin.frmEditGrid
open PgsObjects (Text)
open PendingEdit (Event)

variable {nCols : ℕ}

namespace cacheLinePool

def Delete (pool : cacheLinePool nCols) (lineNo : ℕ) : cacheLinePool nCols :=
  if lineNo < pool.anzLines then ⟨pool.ptr.eraseIdx lineNo ++ [.null]⟩ else pool

theorem deleteLine {pool : cacheLinePool nCols} {lineNo : ℕ} (inside : lineNo < pool.anzLines)
    (i : ℕ) : (pool.Delete lineNo).line? i = pool.line? (if i < lineNo then i else i + 1) := by
  have erased : (pool.ptr.eraseIdx lineNo).length = pool.ptr.length - 1 :=
    List.length_eraseIdx_of_lt inside
  rw [Delete, if_pos inside, line?, line?]
  have moved : (pool.ptr.eraseIdx lineNo)[i]? = pool.ptr[if i < lineNo then i else i + 1]? := by
    rw [List.getElem?_eraseIdx]
    split <;> rfl
  rcases lt_or_ge i (pool.ptr.eraseIdx lineNo).length with kept | last
  · rw [List.getElem?_append_left kept, moved]
  · have beyond : pool.ptr[if i < lineNo then i else i + 1]? = none := by
      rw [← moved]
      exact List.getElem?_eq_none last
    rw [beyond, List.getElem?_append_right last]
    rcases Nat.eq_zero_or_pos (i - (pool.ptr.eraseIdx lineNo).length) with here | past
    · rw [here]
      rfl
    · rw [List.getElem?_eq_none (show [Slot.null].length ≤ _ from past)]

end cacheLinePool

namespace sqlTable

variable (t : Opened nCols)

/- GetNumberRows() -/
def numberRows (s : sqlTable nCols) : ℕ := t.nRows + s.rowsAdded - s.rowsDeleted

def lineToDelete (s : sqlTable nCols) (pos : ℕ) : Option (cacheLine nCols × sqlTable nCols) := do
  let (line, s) ← s.GetLine t pos
  if line.cols.isSome then some (line, s)
  else do
    let col ← (List.finRange nCols).head?
    let (_, s) ← s.GetValue t pos col
    s.GetLine t pos

/- The DELETE succeeded. -/
def removeLine (s : sqlTable nCols) (pos : ℕ) : Option (sqlTable nCols) :=
  if pos < s.fetchedRows t then
    let s := { s with rowsDeleted := s.rowsDeleted + 1 }
    let left := s.fetchedRows t
    some (if pos < left then
      { s with lineIndex := fun i => s.lineIndex (if pos ≤ i ∧ i < left then i + 1 else i) }
    else s)
  else do
    let s := { s with rowsAdded := s.rowsAdded - 1 }
    let (line, s) ← s.GetLine t pos
    let s := if line.stored then { s with rowsStored := s.rowsStored - 1 } else s
    some { s with addPool := s.addPool.Delete (pos - s.fetchedRows t) }

/- The loop, with the rows still to be deleted and rowsDone. The n-th DELETE is answered by
`executeVoid n`. A line that is not stored is cleared, not deleted. -/
def deleteLoop (executeVoid : ℕ → Option (Key nCols) → Bool) (pos : ℕ) :
    ℕ → ℕ → sqlTable nCols → Option (ℕ × sqlTable nCols)
  | 0, rowsDone, s => some (rowsDone, s)
  | rows + 1, rowsDone, s => do
    let (line, s) ← s.lineToDelete t pos
    let cells ← line.cols
    if line.stored then
      if executeVoid rowsDone (t.MakeKey cells) then do
        let s ← s.removeLine t pos
        deleteLoop executeVoid pos rows (rowsDone + 1) s
      else some (rowsDone, s)
    else
      deleteLoop executeVoid pos rows rowsDone
        (s.putLine t pos { line with cols := some blankCells })

/- Returns rowsDone. -/
def DeleteRows (s : sqlTable nCols) (pos rows : ℕ)
    (executeVoid : ℕ → Option (Key nCols) → Bool) : Option (ℕ × sqlTable nCols) :=
  s.deleteLoop t executeVoid pos rows 0

end sqlTable

end PgAdmin.frmEditGrid
