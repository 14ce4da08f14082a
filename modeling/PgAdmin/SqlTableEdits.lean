import PgAdmin.SqlTableRows

/-! What holds of the lines of the data grid between two operations: a line of the result that has
its cells is stored, a line that is not stored is blank but for the edit on it, and the row being
edited has its cells. Asking for a line, writing one, appending and showing a cell keep this. -/
namespace PgAdmin.frmEditGrid
open PgsObjects (Text)

variable {nCols : ℕ} {t : Opened nCols}

namespace Opened

@[simp] theorem displayBlank (t : Opened nCols) (col : Fin nCols) : t.display col [] = [] := by
  simp [display]

@[simp] theorem displayTwice (t : Opened nCols) (col : Fin nCols) (text : Text) :
    t.display col (t.display col text) = t.display col text := by
  unfold display
  by_cases bool : (t.columns col).isBool ∧ text ≠ []
  · cases strToBool text
    · simp [bool, strToBool]
    · simp [bool, strToBool]
  · simp only [if_neg bool]

end Opened

namespace sqlTable

def Holds (t : Opened nCols) (s : sqlTable nCols) (row : ℕ) (line : cacheLine nCols)
    (cells : Fin nCols → Text) : Prop :=
  s.line? t row = some line ∧ line.cols = some cells

structure Ready (t : Opened nCols) (s : sqlTable nCols) : Prop where
  mapped : Mapped t s
  stored : ∀ row < s.fetchedRows t, ∀ line cells, Holds t s row line cells → line.stored = true
  fresh : ∀ row line cells, Holds t s row line cells → line.stored = false →
    (if s.lastRow = some row then s.savedLine else cells) = blankCells
  editing : ∀ row, s.lastRow = some row → ∃ line cells, Holds t s row line cells

variable {s next : sqlTable nCols}

theorem Holds.cells {row : ℕ} {line : cacheLine nCols} {cells : Fin nCols → Text}
    (holds : Holds t s row line cells) : s.cells t row = cells := by
  unfold sqlTable.cells
  rw [holds.1, Option.bind_some, holds.2, Option.getD_some]

theorem createReady (t : Opened nCols) : Ready t (create t) := by
  have none : ∀ row, (create t).line? t row = none := by
    intro row
    unfold line?
    split <;> exact cacheLinePool.createLine ..
  refine ⟨⟨?_, ?_, ?_, ?_, ?_⟩, ?_, ?_, ?_⟩
  · intro row fetched
    exact fetched
  · intro row _ other _ same
    exact same
  · exact cacheLinePool.createLength t.nRows
  · exact (cacheLinePool.createFilled t.nRows).symm
  · intro closed
    exact nomatch closed
  · intro row _ line cells holds
    exact nomatch (none row).symm.trans holds.1
  · intro row line cells holds
    exact nomatch (none row).symm.trans holds.1
  · intro row last
    exact nomatch last

section GetLine

variable {row : ℕ} {line : cacheLine nCols}

theorem getLineKeeps (mapped : Mapped t s) (ok : s.GetLine t row = some (line, next)) {i : ℕ}
    {l : cacheLine nCols} (present : s.line? t i = some l) : next.line? t i = some l := by
  obtain ⟨here, others, before⟩ := getLineSpec mapped ok
  by_cases same : i = row
  · subst same
    rcases before with was | ⟨absent, -⟩
    · exact here.trans (was.symm.trans present)
    · exact nomatch absent.symm.trans present
  · rw [others i same, present]

theorem getLineHolds (mapped : Mapped t s) (ok : s.GetLine t row = some (line, next)) {i : ℕ}
    {l : cacheLine nCols} {cells : Fin nCols → Text} :
    Holds t next i l cells ↔ Holds t s i l cells := by
  constructor
  · rintro ⟨present, filled⟩
    refine ⟨?_, filled⟩
    obtain ⟨here, others, before⟩ := getLineSpec mapped ok
    by_cases same : i = row
    · subst same
      rcases before with was | ⟨-, blank⟩
      · exact was.trans (here.symm.trans present)
      · cases Option.some.inj (here.symm.trans present)
        rw [blank] at filled
        exact nomatch filled
    · rw [← others i same, present]
  · rintro ⟨present, filled⟩
    exact ⟨getLineKeeps mapped ok present, filled⟩

theorem getLineReady (ready : Ready t s) (ok : s.GetLine t row = some (line, next)) :
    Ready t next where
  mapped := getLineMapped ready.mapped ok
  stored i fetched l cells holds := by
    rw [(getLineFramed ok).fetchedRows] at fetched
    exact ready.stored i fetched l cells ((getLineHolds ready.mapped ok).mp holds)
  fresh i l cells holds := by
    rw [(getLineFramed ok).lastRow, (getLineFramed ok).savedLine]
    exact ready.fresh i l cells ((getLineHolds ready.mapped ok).mp holds)
  editing i last := by
    rw [(getLineFramed ok).lastRow] at last
    obtain ⟨l, cells, holds⟩ := ready.editing i last
    exact ⟨l, cells, (getLineHolds ready.mapped ok).mpr holds⟩

theorem getLineSheet (mapped : Mapped t s) (ok : s.GetLine t row = some (line, next)) :
    next.sheet t = s.sheet t := by
  unfold sheet
  rw [getLineCells mapped ok, (getLineFramed ok).lastRow, (getLineFramed ok).savedLine]

end GetLine

section PutLine

variable {row : ℕ} {old line : cacheLine nCols} {cells : Fin nCols → Text}

theorem readyAfter (ready : Ready t s) (mapped : Mapped t next)
    (rows : next.fetchedRows t = s.fetchedRows t)
    (lines : ∀ i, next.line? t i = if i = row then some line else s.line? t i)
    (filled : line.cols = some cells) (stored : row < s.fetchedRows t → line.stored = true)
    (fresh : line.stored = false →
      (if next.lastRow = some row then next.savedLine else cells) = blankCells)
    (others : next.lastRow = s.lastRow ∧ next.savedLine = s.savedLine ∨
      ∀ i ≠ row, s.lastRow ≠ some i ∧ next.lastRow ≠ some i) : Ready t next := by
  have here : next.line? t row = some line := by rw [lines, if_pos rfl]
  have elsewhere : ∀ i ≠ row, ∀ l c, Holds t next i l c ↔ Holds t s i l c := by
    intro i differs l c
    unfold Holds
    rw [lines, if_neg differs]
  have same : ∀ l c, Holds t next row l c → l = line ∧ c = cells := by
    rintro l c ⟨present, has⟩
    cases Option.some.inj (present.symm.trans here)
    exact ⟨rfl, Option.some.inj (has.symm.trans filled)⟩
  refine ⟨mapped, ?_, ?_, ?_⟩
  · intro i fetched l c holds
    rw [rows] at fetched
    by_cases sameRow : i = row
    · subst sameRow
      exact (same l c holds).1 ▸ stored fetched
    · exact ready.stored i fetched l c ((elsewhere i sameRow l c).mp holds)
  · intro i l c holds unstored
    by_cases sameRow : i = row
    · subst sameRow
      obtain ⟨rfl, rfl⟩ := same l c holds
      exact fresh unstored
    · have before := ready.fresh i l c ((elsewhere i sameRow l c).mp holds) unstored
      rcases others with ⟨last, saved⟩ | neither
      · rwa [last, saved]
      · rw [if_neg (neither i sameRow).1] at before
        rw [if_neg (neither i sameRow).2, before]
  · intro i editing
    by_cases sameRow : i = row
    · subst sameRow
      exact ⟨line, cells, here, filled⟩
    · rcases others with ⟨last, -⟩ | neither
      · obtain ⟨l, c, holds⟩ := ready.editing i (last ▸ editing)
        exact ⟨l, c, (elsewhere i sameRow l c).mpr holds⟩
      · exact absurd editing (neither i sameRow).2

theorem putLineReady (ready : Ready t s) (present : s.line? t row = some old)
    (filled : line.cols = some cells) (mapped : Mapped t (s.putLine t row line))
    (stored : row < s.fetchedRows t → line.stored = true)
    (fresh : line.stored = false →
      (if s.lastRow = some row then s.savedLine else cells) = blankCells) :
    Ready t (s.putLine t row line) := by
  have framed := putLineFramed (t := t) s row line
  refine readyAfter ready mapped framed.fetchedRows (putLineLine ready.mapped present line) filled
    stored ?_ (.inl ⟨framed.lastRow, framed.savedLine⟩)
  rwa [framed.lastRow, framed.savedLine]

theorem putLineSheet (mapped : Mapped t s) (present : s.line? t row = some old)
    (line : cacheLine nCols) (filled : line.cols = some cells) :
    (s.putLine t row line).sheet t =
      { s.sheet t with shown := Function.update (s.cells t) row cells } := by
  have framed := putLineFramed (t := t) s row line
  unfold sheet
  rw [putLineCells mapped present line filled, framed.lastRow, framed.savedLine]

end PutLine

section AppendRows

theorem appendRowsFramed {rows : ℕ} (ok : s.AppendRows t rows = some next) : Framed s next := by
  simp only [AppendRows, bind, Option.bind] at ok
  split at ok
  · contradiction
  split at ok
  · contradiction
  · rename_i made
    cases Option.some.inj ok
    obtain ⟨a, b, c, d⟩ := getLineFramed made
    exact ⟨a, b, c, d⟩

theorem appendRowsReady {rows : ℕ} (ready : Ready t s) (ok : s.AppendRows t rows = some next) :
    Ready t next ∧ next.sheet t = s.sheet t ∧
      ∀ i l, s.line? t i = some l → next.line? t i = some l := by
  simp only [AppendRows, bind, Option.bind] at ok
  split at ok
  · contradiction
  split at ok
  · contradiction
  · rename_i made
    cases Option.some.inj ok
    have counted : Ready t { s with rowsAdded := s.rowsAdded + rows } :=
      ⟨⟨ready.mapped.inside, ready.mapped.distinct, ready.mapped.whole, ready.mapped.cached,
        ready.mapped.closed⟩, ready.stored, ready.fresh, ready.editing⟩
    have shown := getLineSheet counted.mapped made
    refine ⟨getLineReady counted made, shown, ?_⟩
    intro i l present
    exact getLineKeeps counted.mapped made present

end AppendRows

section GetValue

variable {row : ℕ} {line : cacheLine nCols} {cells : Fin nCols → Text} {col : Fin nCols}
  {text : Text}

structure Alike (t : Opened nCols) (s next : sqlTable nCols) : Prop where
  lastRow : next.lastRow = s.lastRow
  savedLine : next.savedLine = s.savedLine
  shown : ∀ row col, t.display col (next.cells t row col) = t.display col (s.cells t row col)

theorem showCellSpec (ready : Ready t s) (holds : Holds t s row line cells)
    (ok : s.showCell t row col = some (text, next)) :
    text = t.display col (cells col) ∧ Ready t next ∧ Alike t s next := by
  simp only [showCell, Option.bind_eq_bind, Option.bind_eq_some_iff, Prod.exists,
    Option.some.injEq, Prod.mk.injEq] at ok
  obtain ⟨l, got, asked, c, filled, rfl, rfl⟩ := ok
  have here := (getLineSpec ready.mapped asked).1
  have same := (getLineHolds ready.mapped asked).mp ⟨here, filled⟩
  cases Option.some.inj (same.1.symm.trans holds.1)
  cases Option.some.inj (filled.symm.trans holds.2)
  have gotReady := getLineReady ready asked
  have framed := getLineFramed asked
  have cellsHere : got.cells t row = cells := Holds.cells ⟨here, filled⟩
  have shown := putLineCells gotReady.mapped here
    { line with cols := some (Function.update cells col (t.display col (cells col))) } rfl
  have mapped := putLineMapped gotReady.mapped here
    { line with cols := some (Function.update cells col (t.display col (cells col))) }
    fun _ => filled ▸ rfl
  refine ⟨rfl, putLineReady gotReady here rfl mapped ?_ ?_, ?_⟩
  · intro fetched
    exact gotReady.stored row fetched line cells ⟨here, filled⟩
  · intro unstored
    have blank := gotReady.fresh row line cells ⟨here, filled⟩ unstored
    split
    · rename_i last
      rwa [if_pos last] at blank
    · rename_i last
      rw [if_neg last] at blank
      rw [blank]
      funext i
      by_cases sameCol : i = col
      · subst sameCol
        simp [blankCells]
      · simp [sameCol]
  · have framedPut := putLineFramed (t := t) got row
      { line with cols := some (Function.update cells col (t.display col (cells col))) }
    refine ⟨framedPut.lastRow.trans framed.lastRow, framedPut.savedLine.trans framed.savedLine, ?_⟩
    intro i c
    rw [shown, ← getLineCells ready.mapped asked]
    by_cases sameRow : i = row
    · subst sameRow
      by_cases sameCol : c = col
      · subst sameCol
        simp [cellsHere]
      · simp [sameCol, cellsHere]
    · simp [sameRow]

theorem putBlankReady (ready : Ready t s) (present : s.line? t row = some line)
    (empty : line.cols = none) (added : ¬ row < s.fetchedRows t) :
    Ready t (s.putLine t row { line with cols := some blankCells }) ∧
      (s.putLine t row { line with cols := some blankCells }).cells t = s.cells t := by
  have mapped := putLineMapped ready.mapped present { line with cols := some blankCells }
    fun fetched => absurd fetched added
  refine ⟨putLineReady ready present rfl mapped (fun fetched => absurd fetched added) ?_, ?_⟩
  · intro _
    split
    · rename_i last
      obtain ⟨l, c, holds⟩ := ready.editing row last
      cases Option.some.inj (present.symm.trans holds.1)
      exact nomatch empty.symm.trans holds.2
    · rfl
  · rw [putLineCells ready.mapped present _ rfl]
    have blank : s.cells t row = blankCells := by
      simp [sqlTable.cells, present, empty, original, added]
    rw [← blank, Function.update_eq_self]

theorem loadMapped (mapped : Mapped t s) (present : s.line? t row = some line)
    (empty : line.cols = none) (fetched : row < s.fetchedRows t) :
    Mapped t (s.load t row line).2 := by
  let full : cacheLine nCols := { line with cols := some (t.fetched (s.lineIndex row)), stored := true }
  have slot : s.dataPool.line? (s.lineIndex row) = some line := by
    rwa [line?, if_pos fetched] at present
  have put : s.putLine t row full = { s with dataPool := s.dataPool.put (s.lineIndex row) full } :=
    if_pos fetched
  have count : s.rowsCached + 1 = (s.dataPool.put (s.lineIndex row) full).filled := by
    have counted := cacheLinePool.putFilled slot full
    rw [empty] at counted
    simpa [full, mapped.cached] using counted.symm
  refine ⟨?_, ?_, ?_, ?_, ?_⟩
  · rw [load, put]
    exact mapped.inside
  · rw [load, put]
    exact mapped.distinct
  · rw [load, put]
    exact (cacheLinePool.putLength ..).trans mapped.whole
  · rw [load, put]
    exact count
  · rw [load, put]
    intro closed
    simpa using closed

theorem unloadedOpen (mapped : Mapped t s) (present : s.line? t row = some line)
    (empty : line.cols = none) (fetched : row < s.fetchedRows t) : s.thread = true := by
  by_contra closed
  have full : s.dataPool.filled = s.dataPool.anzLines := by
    rw [← mapped.cached, mapped.whole]
    exact mapped.closed (Bool.eq_false_iff.mpr closed)
  rw [line?, if_pos fetched] at present
  have filled := cacheLinePool.allFilled full present
  rw [empty] at filled
  exact nomatch filled

theorem loadReady (ready : Ready t s) (present : s.line? t row = some line)
    (empty : line.cols = none) (fetched : row < s.fetchedRows t) :
    Ready t (s.load t row line).2 ∧ (s.load t row line).2.cells t = s.cells t ∧
      Holds t (s.load t row line).2 row
        { line with cols := some (s.load t row line).1, stored := true } (s.load t row line).1 := by
  let full : cacheLine nCols := { line with cols := some (t.fetched (s.lineIndex row)), stored := true }
  have lines := putLineLine ready.mapped present full
  have framed := putLineFramed (t := t) s row full
  have mapped := loadMapped ready.mapped present empty fetched
  refine ⟨?_, ?_, ?_⟩
  · exact readyAfter ready mapped framed.fetchedRows lines rfl (fun _ => rfl)
      (fun unstored => nomatch unstored) (.inl ⟨framed.lastRow, framed.savedLine⟩)
  · have shown : (s.load t row line).2.cells t = _ := putLineCells ready.mapped present full rfl
    have was : s.cells t row = t.fetched (s.lineIndex row) := by
      simp [sqlTable.cells, present, empty, original, fetched]
    rw [shown, ← was, Function.update_eq_self]
  · exact ⟨(lines row).trans (if_pos rfl), rfl⟩

theorem Alike.of {got : sqlTable nCols} (framed : Framed s got) (cells : got.cells t = s.cells t)
    (alike : Alike t got next) : Alike t s next where
  lastRow := alike.lastRow.trans framed.lastRow
  savedLine := alike.savedLine.trans framed.savedLine
  shown i c := (alike.shown i c).trans (by rw [cells])

theorem getValueSpec (ready : Ready t s) (ok : s.GetValue t row col = some (text, next)) :
    text = t.display col (s.cells t row col) ∧ Ready t next ∧ Alike t s next := by
  simp only [GetValue, Option.bind_eq_bind, Option.bind_eq_some_iff, Prod.exists] at ok
  obtain ⟨l, got, asked, shown⟩ := ok
  have here := (getLineSpec ready.mapped asked).1
  have gotReady := getLineReady ready asked
  have framed := getLineFramed asked
  have cellsGot := getLineCells ready.mapped asked
  split at shown
  · rename_i c filled
    obtain ⟨is, after, alike⟩ := showCellSpec gotReady ⟨here, filled⟩ shown
    rw [← Holds.cells ⟨here, filled⟩, cellsGot] at is
    exact ⟨is, after, alike.of framed cellsGot⟩
  rename_i empty
  split at shown
  · rename_i fetched
    split at shown
    · obtain ⟨loaded, loadedCells, holds⟩ := loadReady gotReady here empty fetched
      obtain ⟨is, after, alike⟩ := showCellSpec loaded holds shown
      rw [← holds.cells, loadedCells, cellsGot] at is
      have put := putLineFramed (t := t) got row
        { l with cols := some (t.fetched (got.lineIndex row)), stored := true }
      have loadFramed : Framed got (got.load t row l).2 :=
        ⟨put.rowsDeleted, put.lineIndex, put.lastRow, put.savedLine⟩
      exact ⟨is, after, (alike.of loadFramed loadedCells).of framed cellsGot⟩
    · rename_i closed
      exact absurd (unloadedOpen gotReady.mapped here empty fetched) closed
  · rename_i added
    obtain ⟨put, putCells⟩ := putBlankReady gotReady here empty added
    have holds : Holds t (got.putLine t row { l with cols := some blankCells }) row
        { l with cols := some blankCells } blankCells :=
      ⟨(putLineLine gotReady.mapped here _ row).trans (if_pos rfl), rfl⟩
    obtain ⟨is, after, alike⟩ := showCellSpec put holds shown
    rw [← holds.cells, putCells, cellsGot] at is
    exact ⟨is, after, (alike.of (putLineFramed ..) putCells).of framed cellsGot⟩

end GetValue

end sqlTable

end PgAdmin.frmEditGrid
