import PgAdmin.CellCodec
import PgAdmin.SqlTableRoster

/-! The slots behind the rows of the data grid. A growth of the pool leaves most of the gained slots uncleared, and
a line may have no cells yet; where a step asks for neither, it comes to its end. -/
namespace PgAdmin.frmEditGrid
open PgsObjects (Text)
open PendingEdit (overwrite)

variable {nCols : ℕ}

namespace cacheLinePool

variable {pool next : cacheLinePool nCols} {lineNo lines : ℕ} {l : cacheLine nCols}

def Cleared (pool : cacheLinePool nCols) (i : ℕ) : Prop :=
  ∃ slot, pool.ptr[i]? = some slot ∧ slot ≠ .uncleared

def Roomy (pool : cacheLinePool nCols) (lines : ℕ) : Prop := ∀ i < lines, pool.Cleared i

/- They are once Get() was asked for the last of them. -/
def Clears (pool : cacheLinePool nCols) (lines : ℕ) : Prop := (pool.grow (lines - 1)).Roomy lines

theorem createRoomy (initialLines : ℕ) : (create initialLines : cacheLinePool nCols).Roomy initialLines :=
  fun i inside => ⟨.null, by simp [create, inside], fun same => nomatch same⟩

theorem Roomy.mono {fewer : ℕ} (roomy : pool.Roomy lines) (less : fewer ≤ lines) : pool.Roomy fewer :=
  fun i inside => roomy i (inside.trans_le less)

theorem setCleared {i : ℕ} (cleared : pool.Cleared i) : (pool.put lineNo l).Cleared i := by
  obtain ⟨slot, here, clean⟩ := cleared
  by_cases same : lineNo = i
  · subst same
    have inside := (List.getElem?_eq_some_iff.mp here).1
    exact ⟨.line l, by simp [put, inside], fun other => nomatch other⟩
  · exact ⟨slot, by rwa [put, List.getElem?_set_ne same], clean⟩

theorem putRoomy (roomy : pool.Roomy lines) : (pool.put lineNo l).Roomy lines :=
  fun i inside => setCleared (roomy i inside)

theorem growRoomy (roomy : pool.Roomy lines) (lineNo : ℕ) : (pool.grow lineNo).Roomy lines := by
  intro i inside
  obtain ⟨slot, here, clean⟩ := roomy i inside
  refine ⟨slot, ?_, clean⟩
  unfold grow
  split
  · exact here
  · rwa [List.getElem?_append_left (List.getElem?_eq_some_iff.mp here).1]

theorem getRoomy (roomy : (pool.grow lineNo).Roomy lines) (ok : pool.Get lineNo = some (l, next)) :
    next.Roomy lines := by
  unfold Get at ok
  simp only at ok
  split at ok
  · cases Option.some.inj ok
    exact roomy
  · cases Option.some.inj ok
    exact putRoomy roomy
  · contradiction

theorem getCleared (cleared : (pool.grow lineNo).Cleared lineNo) : ∃ l next, pool.Get lineNo = some (l, next) := by
  obtain ⟨slot, here, clean⟩ := cleared
  unfold Get
  simp only [here]
  cases slot with
  | null => exact ⟨_, _, rfl⟩
  | uncleared => exact absurd rfl clean
  | line l => exact ⟨_, _, rfl⟩

theorem growPut (inside : lineNo < pool.anzLines) (i : ℕ) :
    (pool.put lineNo l).grow i = (pool.grow i).put lineNo l := by
  have same : (pool.put lineNo l).anzLines = pool.anzLines := putLength ..
  unfold grow
  rw [same]
  split
  · rfl
  · rw [put, put, List.set_append_left _ _ inside]

theorem getClears (cleared : pool.Cleared lineNo) (ok : pool.Get lineNo = some (l, next))
    (clears : pool.Clears lines) : next.Clears lines := by
  obtain ⟨_, here, -⟩ := cleared
  have inside : lineNo < pool.anzLines := (List.getElem?_eq_some_iff.mp here).1
  unfold Get at ok
  simp only [grow, if_pos inside] at ok
  split at ok
  · cases Option.some.inj ok
    exact clears
  · cases Option.some.inj ok
    rw [Clears]
    show ((pool.put lineNo .blank).grow (lines - 1)).Roomy lines
    rw [growPut inside]
    exact putRoomy clears
  · contradiction

theorem deleteRoomy (roomy : pool.Roomy (lines + 1)) (inside : lineNo < lines + 1) :
    (pool.Delete lineNo).Roomy lines := by
  obtain ⟨_, here, _⟩ := roomy lineNo inside
  have within : lineNo < pool.anzLines := (List.getElem?_eq_some_iff.mp here).1
  intro i before
  have moved : ((pool.ptr.eraseIdx lineNo) ++ [Slot.null])[i]? = pool.ptr[if i < lineNo then i else i + 1]? := by
    obtain ⟨_, last, _⟩ := roomy lines (Nat.lt_succ_self lines)
    have long := (List.getElem?_eq_some_iff.mp last).1
    rw [List.getElem?_append_left (by rw [List.length_eraseIdx_of_lt within]; omega), List.getElem?_eraseIdx]
    split <;> rfl
  obtain ⟨slot, found, clean⟩ := roomy (if i < lineNo then i else i + 1) (by split <;> omega)
  refine ⟨slot, ?_, clean⟩
  rw [Delete, if_pos within, moved, found]

end cacheLinePool

variable {t : Opened nCols}

namespace Opened

def succeeds (t : Opened nCols) (saved : Fin nCols → Text) (line : cacheLine nCols)
    (cells : Fin nCols → Text) (connection : Connection nCols) : Bool :=
  if line.stored then
    isEmpty (t.updated saved cells) ||
      connection.executeVoid (t.updated saved cells) (t.MakeKey saved)
  else !isEmpty (t.inserted cells) &&
    (connection.executeSet (t.inserted cells)).any fun set => 0 < set.insertedCount

end Opened

namespace sqlTable

variable {s next : sqlTable nCols} {row pos rows : ℕ} {line : cacheLine nCols} {cells : Fin nCols → Text}

structure Room (t : Opened nCols) (s : sqlTable nCols) : Prop where
  data : s.dataPool.Roomy t.nRows
  added : s.addPool.Roomy s.rowsAdded
  inside : ∀ row < s.fetchedRows t, s.lineIndex row < t.nRows
  fits : s.rowsDeleted ≤ t.nRows

def Loaded (t : Opened nCols) (s : sqlTable nCols) (row : ℕ) : Prop :=
  ∃ line cells, Holds t s row line cells

/- The row being edited is new, and its INSERT is accepted. -/
def Inserts (t : Opened nCols) (s : sqlTable nCols) (connection : Connection nCols) : Prop :=
  ∃ row line cells, s.lastRow = some row ∧ Holds t s row line cells ∧ line.stored = false ∧
    t.succeeds s.savedLine line cells connection

/- The row being edited has its cells, and there is room for the empty row after the last new one. -/
structure StoreSafe (t : Opened nCols) (s : sqlTable nCols) (connection : Connection nCols) : Prop where
  loaded : ∀ row, s.lastRow = some row → Loaded t s row
  room : Inserts t s connection → s.rowsAdded = s.rowsStored + 1 → s.addPool.Clears (s.rowsAdded + 1)

/- The operation is on rows the grid has, and reads neither an uncleared slot nor a line without cells. -/
def Op.Safe (t : Opened nCols) (s : sqlTable nCols) : Op nCols → Prop
  | .getValue row _ => row < s.numberRows t
  | .setValue row _ _ connection => row < s.numberRows t ∧
    (s.lastRow = some row → Loaded t s row) ∧ (s.lastRow ≠ some row → StoreSafe t s connection)
  | .storeLine connection => StoreSafe t s connection
  | .undoLine row => s.lastRow ≠ none → 0 ≤ row → row < s.numberRows t ∧ Loaded t s row.toNat
  | .appendRows rows => 0 < s.numberRows t + rows ∧ s.addPool.Clears (s.rowsAdded + rows)

theorem createRoom (t : Opened nCols) : Room t (create t) where
  data := cacheLinePool.createRoomy t.nRows
  added := (cacheLinePool.createRoomy 500).mono (by
    show (if t.canInsert then 1 else 0) ≤ 500
    split <;> omega)
  inside := fun _ fetched => fetched
  fits := Nat.zero_le _

theorem Room.slot (room : Room t s) (inside : row < s.numberRows t) (added : ¬ row < s.fetchedRows t) :
    row - s.fetchedRows t < s.rowsAdded := by
  have fits := room.fits
  rw [numberRows] at inside
  rw [fetchedRows] at added ⊢
  omega

theorem getLineRoom (room : Room t s) (ok : s.GetLine t row = some (line, next)) : Room t next := by
  have still := getLineStill ok
  refine ⟨?_, ?_, by rw [still.fetchedRows, still.lineIndex]; exact room.inside,
    by rw [still.rowsDeleted]; exact room.fits⟩
  · unfold GetLine at ok
    split at ok
    · obtain ⟨⟨_, pool⟩, got, made⟩ := Option.map_eq_some_iff.mp ok
      cases made
      exact cacheLinePool.getRoomy (cacheLinePool.growRoomy room.data _) got
    · obtain ⟨⟨_, pool⟩, got, made⟩ := Option.map_eq_some_iff.mp ok
      cases made
      exact room.data
  · rw [still.rowsAdded]
    unfold GetLine at ok
    split at ok
    · obtain ⟨⟨_, pool⟩, got, made⟩ := Option.map_eq_some_iff.mp ok
      cases made
      exact room.added
    · obtain ⟨⟨_, pool⟩, got, made⟩ := Option.map_eq_some_iff.mp ok
      cases made
      exact cacheLinePool.getRoomy (cacheLinePool.growRoomy room.added _) got

theorem getLineDefined (room : Room t s) (inside : row < s.numberRows t) :
    ∃ line next, s.GetLine t row = some (line, next) := by
  unfold GetLine
  split
  · rename_i fetched
    have slot := cacheLinePool.growRoomy room.data (s.lineIndex row) _ (room.inside row fetched)
    obtain ⟨l, pool, got⟩ := cacheLinePool.getCleared slot
    exact ⟨l, _, by rw [got]; rfl⟩
  · rename_i added
    have slot := cacheLinePool.growRoomy room.added (row - s.fetchedRows t) _ (room.slot inside added)
    obtain ⟨l, pool, got⟩ := cacheLinePool.getCleared slot
    exact ⟨l, _, by rw [got]; rfl⟩

theorem putLineRoom (room : Room t s) (row : ℕ) (line : cacheLine nCols) : Room t (s.putLine t row line) := by
  unfold putLine
  split
  · exact ⟨cacheLinePool.putRoomy room.data, room.added, room.inside, room.fits⟩
  · exact ⟨room.data, cacheLinePool.putRoomy room.added, room.inside, room.fits⟩

theorem showCellSafe (room : Room t s) (holds : Holds t s row line cells) (col : Fin nCols) :
    ∃ text next, s.showCell t row col = some (text, next) ∧ Room t next ∧ Loaded t next row := by
  simp only [showCell, getLineFound holds.1, Option.bind_eq_bind, Option.bind_some, holds.2]
  exact ⟨_, _, rfl, putLineRoom room row _, _, _, putLineHere holds.1 _, rfl⟩

theorem getValueSafe (room : Room t s) (inside : row < s.numberRows t) (col : Fin nCols) :
    ∃ text next, s.GetValue t row col = some (text, next) ∧ Room t next ∧ Loaded t next row := by
  obtain ⟨l, got, asked⟩ := getLineDefined room inside
  have gotRoom := getLineRoom room asked
  have here := getLineHere asked
  simp only [GetValue, asked, Option.bind_eq_bind, Option.bind_some]
  cases filled : l.cols with
  | some c => exact showCellSafe gotRoom ⟨here, filled⟩ col
  | none =>
    simp only
    split
    · split
      · have put := putLineRoom gotRoom row { l with cols := some (t.fetched (got.lineIndex row)), stored := true }
        have loaded : Room t (got.load t row l).2 := ⟨put.data, put.added, put.inside, put.fits⟩
        exact showCellSafe loaded ⟨putLineHere here _, rfl⟩ col
      · exact ⟨_, _, rfl, putLineRoom gotRoom row _, _, _, putLineHere here _, rfl⟩
    · exact showCellSafe (putLineRoom gotRoom row _) ⟨putLineHere here _, rfl⟩ col

theorem appendRowsSafe (room : Room t s) (some_ : 0 < s.numberRows t + rows)
    (clears : s.addPool.Clears (s.rowsAdded + rows)) : ∃ next, s.AppendRows t rows = some next ∧ Room t next := by
  let widened : sqlTable nCols := { s with rowsAdded := s.rowsAdded + rows }
  have fits := room.fits
  have number : t.nRows + (s.rowsAdded + rows) - s.rowsDeleted = s.numberRows t + rows := by
    rw [numberRows]
    omega
  obtain ⟨l, got, asked, after⟩ : ∃ l got, widened.GetLine t (s.numberRows t + rows - 1) = some (l, got) ∧
      Room t got := by
    by_cases fetched : s.numberRows t + rows - 1 < s.fetchedRows t
    · have none : s.rowsAdded + rows = 0 := by
        rw [numberRows, fetchedRows] at fetched
        omega
      have same : widened = s := by
        have zero : rows = 0 := by omega
        simp only [widened, zero, Nat.add_zero]
      rw [same]
      obtain ⟨l, got, asked⟩ := getLineDefined room (show s.numberRows t + rows - 1 < s.numberRows t by omega)
      exact ⟨l, got, asked, getLineRoom room asked⟩
    · have last : s.numberRows t + rows - 1 - s.fetchedRows t = s.rowsAdded + rows - 1 := by
        rw [numberRows, fetchedRows] at fetched ⊢
        omega
      have more : 0 < s.rowsAdded + rows := by
        rw [numberRows, fetchedRows] at fetched
        omega
      obtain ⟨l, pool, got⟩ := cacheLinePool.getCleared (clears _ (Nat.sub_lt more Nat.one_pos))
      have asked : widened.GetLine t (s.numberRows t + rows - 1) = some (l, { widened with addPool := pool }) := by
        have outside : ¬ s.numberRows t + rows - 1 < widened.fetchedRows t := fetched
        rw [GetLine, if_neg outside]
        show ((s.addPool.Get (s.numberRows t + rows - 1 - s.fetchedRows t)).map _) = _
        rw [last, got]
        rfl
      exact ⟨l, _, asked, room.data, cacheLinePool.getRoomy clears got, room.inside, room.fits⟩
  refine ⟨got, ?_, after⟩
  rw [AppendRows]
  simp only [number]
  rw [if_neg (by omega)]
  show (widened.GetLine t (s.numberRows t + rows - 1)).bind _ = _
  rw [asked]
  rfl

theorem countStoredSafe (room : Room t s)
    (clears : s.rowsAdded = s.rowsStored + 1 → s.addPool.Clears (s.rowsAdded + 1)) :
    ∃ next, s.countStored t = some next ∧ Room t next := by
  let counted : sqlTable nCols := { s with rowsStored := s.rowsStored + 1 }
  have countedRoom : Room t counted := ⟨room.data, room.added, room.inside, room.fits⟩
  unfold countStored
  simp only
  split
  · rename_i last
    exact appendRowsSafe countedRoom (Nat.succ_pos _) (clears last)
  · exact ⟨_, rfl, countedRoom⟩

theorem storeLineSafe {connection : Connection nCols} (room : Room t s)
    (safe : StoreSafe t s connection) :
    ∃ done events next, s.StoreLine t connection = some (done, events, next) ∧ Room t next := by
  unfold StoreLine
  split
  · exact ⟨_, _, _, rfl, room⟩
  rename_i row last
  obtain ⟨line, cells, holds⟩ := safe.loaded row last
  simp only [getLineFound holds.1, Option.bind_eq_bind, Option.bind_some, holds.2]
  split
  · split
    · exact ⟨_, _, _, rfl, room.data, room.added, room.inside, room.fits⟩
    · exact ⟨_, _, _, rfl, room⟩
  rename_i unstored
  split
  · exact ⟨_, _, _, rfl, room⟩
  rename_i values
  split
  · exact ⟨_, _, _, rfl, room⟩
  rename_i set reply
  split
  · rename_i accepted
    have inserts : Inserts t s connection := by
      refine ⟨row, line, cells, last, holds, Bool.eq_false_iff.mpr unstored, ?_⟩
      simp [Opened.succeeds, unstored, values, reply, accepted]
    obtain ⟨counted, made, countedRoom⟩ := countStoredSafe room (safe.room inserts)
    have put := putLineRoom countedRoom row {
      cols := some (overwrite cells (t.returned cells set))
      stored := true
      readOnly := line.readOnly || t.MakeKey (overwrite cells (t.insertedOid set)) = none }
    simp only [StoreInserted, made, Option.bind_eq_bind, Option.bind_some]
    exact ⟨_, _, _, rfl, put.data, put.added, put.inside, put.fits⟩
  · exact ⟨_, _, _, rfl, room⟩

theorem getLineBefore (ok : s.GetLine t row = some (line, next)) :
    s.line? t row = some line ∨ s.line? t row = none ∧ line = .blank := by
  unfold GetLine at ok
  unfold line?
  split at ok
  · rename_i fetched
    obtain ⟨⟨_, pool⟩, got, made⟩ := Option.map_eq_some_iff.mp ok
    cases made
    simpa [fetched] using (cacheLinePool.getSpec got).2.2
  · rename_i added
    obtain ⟨⟨_, pool⟩, got, made⟩ := Option.map_eq_some_iff.mp ok
    cases made
    simpa [added] using (cacheLinePool.getSpec got).2.2

theorem getLineUnread {i : ℕ} {l : cacheLine nCols} (distinct : Distinct t s)
    (ok : s.GetLine t row = some (line, next)) (holds : Holds t next i l cells) : Holds t s i l cells := by
  refine ⟨?_, holds.2⟩
  by_cases same : i = row
  · subst same
    cases (getLineHere ok).symm.trans holds.1
    rcases getLineBefore ok with present | ⟨-, rfl⟩
    · exact present
    · exact nomatch holds.2
  · exact (getLineOthers distinct ok same).symm.trans holds.1

theorem getLinePresent {i : ℕ} {l : cacheLine nCols} (distinct : Distinct t s)
    (ok : s.GetLine t row = some (line, next)) (present : s.line? t i = some l) : next.line? t i = some l := by
  by_cases same : i = row
  · subst same
    rcases getLineBefore ok with before | ⟨absent, -⟩
    · exact (getLineHere ok).trans (before.symm.trans present)
    · exact nomatch absent.symm.trans present
  · rw [getLineOthers distinct ok same, present]

theorem Widened.numberRows (widened : Widened s next) : s.numberRows t ≤ next.numberRows t := by
  have more := widened.rowsAdded
  rw [sqlTable.numberRows, sqlTable.numberRows, widened.rowsDeleted]
  omega

theorem getLineStoreSafe {connection : Connection nCols} (room : Room t s) (distinct : Distinct t s)
    (inside : row < s.numberRows t) (ok : s.GetLine t row = some (line, next))
    (safe : StoreSafe t s connection) : StoreSafe t next connection := by
  have still := getLineStill ok
  refine ⟨fun last edited => ?_, ?_⟩
  · rw [still.lastRow] at edited
    obtain ⟨l, c, holds⟩ := safe.loaded last edited
    exact ⟨l, c, getLinePresent distinct ok holds.1, holds.2⟩
  · rintro ⟨last, l, c, edited, holds, unstored, succeeds⟩ full
    rw [still.lastRow] at edited
    rw [still.savedLine] at succeeds
    rw [still.rowsAdded, still.rowsStored] at full
    rw [still.rowsAdded]
    have clears := safe.room ⟨last, l, c, edited, getLineUnread distinct ok holds, unstored, succeeds⟩ full
    unfold GetLine at ok
    split at ok
    · obtain ⟨⟨_, pool⟩, got, made⟩ := Option.map_eq_some_iff.mp ok
      cases made
      exact clears
    · rename_i added
      obtain ⟨⟨_, pool⟩, got, made⟩ := Option.map_eq_some_iff.mp ok
      cases made
      exact cacheLinePool.getClears (room.added _ (room.slot inside added)) got clears

theorem moveToSafe {connection : Connection nCols} (room : Room t s)
    (inside : row < s.numberRows t)
    (loaded : s.lastRow = some row → Loaded t s row) (safe : s.lastRow ≠ some row → StoreSafe t s connection) :
    ∃ events next, s.moveTo t row connection = some (events, next) ∧ Room t next ∧ Loaded t next row ∧
      row < next.numberRows t := by
  unfold moveTo
  split
  · rename_i here
    exact ⟨_, _, rfl, room, loaded here, inside⟩
  rename_i elsewhere
  obtain ⟨done, events, mid, store, midRoom⟩ := storeLineSafe room (safe elsewhere)
  have midInside := inside.trans_le (storeLineWidened store).1.numberRows
  obtain ⟨l, got, asked⟩ := getLineDefined midRoom midInside
  have put := putLineRoom (getLineRoom midRoom asked) row { l with cols := some (l.cols.getD blankCells) }
  have still := (getLineStill asked).trans (putLineStill (t := t) got row
    { l with cols := some (l.cols.getD blankCells) })
  simp only [store, asked, Option.bind_eq_bind, Option.bind_some]
  refine ⟨_, _, rfl, ⟨put.data, put.added, put.inside, put.fits⟩, ⟨_, _, putLineHere (getLineHere asked) _, rfl⟩, ?_⟩
  exact still.numberRows.symm ▸ midInside

theorem stepSafe {op : Op nCols} (room : Room t s) (distinct : Distinct t s) (safe : op.Safe t s) :
    ∃ events next, s.step t op = some (events, next) ∧ Room t next := by
  cases op with
  | getValue row col =>
    obtain ⟨text, next, ok, after, -⟩ := getValueSafe room safe col
    exact ⟨_, next, by rw [step, ok]; rfl, after⟩
  | setValue row col value connection =>
    obtain ⟨inside, loaded, store⟩ := safe
    obtain ⟨l, got, asked⟩ := getLineDefined room inside
    have still := getLineStill asked
    obtain ⟨events, mid, moved, midRoom, ⟨line, cells, holds⟩, -⟩ := moveToSafe (getLineRoom room asked)
      (still.numberRows.symm ▸ inside)
      (fun here => by
        obtain ⟨l', c, holds⟩ := loaded (still.lastRow ▸ here)
        exact ⟨l', c, getLinePresent distinct asked holds.1, holds.2⟩)
      (fun elsewhere => getLineStoreSafe room distinct inside asked (store (still.lastRow ▸ elsewhere)))
    refine ⟨events ++ [.edited row col value], _, ?_,
      putLineRoom midRoom row { line with cols := some (Function.update cells col value) }⟩
    simp only [step, SetValue, asked, moved, getLineFound holds.1, holds.2, Option.bind_eq_bind, Option.bind_some]
  | storeLine connection =>
    obtain ⟨done, events, next, ok, after⟩ := storeLineSafe room safe
    exact ⟨events, next, by rw [step, ok]; rfl, after⟩
  | undoLine row =>
    show ∃ events next, s.UndoLine t row = some (events, next) ∧ _
    unfold UndoLine
    split
    · rename_i guard
      obtain ⟨-, line, cells, holds⟩ := safe guard.1 guard.2
      have put := putLineRoom room row.toNat { line with cols := some s.savedLine }
      simp only [getLineFound holds.1, Option.bind_eq_bind, Option.bind_some, holds.2]
      exact ⟨_, _, rfl, put.data, put.added, put.inside, put.fits⟩
    · exact ⟨_, _, rfl, room.data, room.added, room.inside, room.fits⟩
  | appendRows rows =>
    obtain ⟨next, ok, after⟩ := appendRowsSafe room safe.1 safe.2
    exact ⟨_, next, by rw [step, ok]; rfl, after⟩

theorem lineToDeleteSafe (room : Room t s) (inside : pos < s.numberRows t) (columns : 0 < nCols) :
    ∃ line next, s.lineToDelete t pos = some (line, next) ∧ Room t next ∧ line.cols.isSome := by
  obtain ⟨line, got, asked⟩ := getLineDefined room inside
  have gotRoom := getLineRoom room asked
  simp only [lineToDelete, asked, Option.bind_eq_bind, Option.bind_some]
  split
  · rename_i filled
    exact ⟨line, got, rfl, gotRoom, filled⟩
  · obtain ⟨col, first⟩ : ∃ col, (List.finRange nCols).head? = some col :=
      ⟨⟨0, columns⟩, by rw [List.head?_eq_getElem?]; simp [columns]⟩
    obtain ⟨text, next, shown, after, l, cells, holds⟩ :=
      getValueSafe gotRoom ((getLineStill asked).numberRows.symm ▸ inside) col
    simp only [first, shown, Option.bind_some, getLineFound holds.1]
    exact ⟨l, next, rfl, after, by rw [holds.2]; rfl⟩

theorem removeLineSafe (room : Room t s) (inside : pos < s.numberRows t) :
    ∃ next, s.removeLine t pos = some next ∧ Room t next := by
  unfold removeLine
  split
  · rename_i fetched
    have fits : s.rowsDeleted + 1 ≤ t.nRows := by
      rw [fetchedRows] at fetched
      omega
    have fewer : t.nRows - (s.rowsDeleted + 1) < s.fetchedRows t := by
      rw [fetchedRows] at fetched ⊢
      omega
    simp only
    split
    · refine ⟨_, rfl, room.data, room.added, fun i within => ?_, fits⟩
      exact room.inside _ (by split <;> simp only [fetchedRows] at * <;> omega)
    · exact ⟨_, rfl, room.data, room.added, fun i within => room.inside i (within.trans fewer), fits⟩
  · rename_i added
    have within := room.slot inside added
    obtain ⟨l, pool, got⟩ := cacheLinePool.getCleared
      (cacheLinePool.growRoomy room.added (pos - s.fetchedRows t) _ within)
    have after := cacheLinePool.getRoomy (cacheLinePool.growRoomy room.added _) got
    have asked : GetLine t { s with rowsAdded := s.rowsAdded - 1 } pos =
        some (l, { s with rowsAdded := s.rowsAdded - 1, addPool := pool }) := by
      have outside : ¬ pos < fetchedRows t { s with rowsAdded := s.rowsAdded - 1 } := added
      rw [GetLine, if_neg outside]
      show (s.addPool.Get (pos - s.fetchedRows t)).map _ = _
      rw [got]
      rfl
    have deleted : (pool.Delete (pos - s.fetchedRows t)).Roomy (s.rowsAdded - 1) :=
      cacheLinePool.deleteRoomy (by rwa [Nat.sub_add_cancel (Nat.zero_lt_of_lt within)])
        (by rwa [Nat.sub_add_cancel (Nat.zero_lt_of_lt within)])
    simp only [asked, Option.bind_eq_bind, Option.bind_some]
    split
    · exact ⟨_, rfl, room.data, deleted, room.inside, room.fits⟩
    · exact ⟨_, rfl, room.data, deleted, room.inside, room.fits⟩

theorem deleteLoopSafe {r : Roster} {rowsDone : ℕ} {executeVoid : ℕ → Option (Key nCols) → Bool}
    (tracks : Tracks t s r) (room : Room t s) (inside : pos + rows ≤ s.numberRows t) (columns : 0 < nCols) :
    ∃ done next, s.deleteLoop t executeVoid pos rows rowsDone = some (done, next) ∧ Room t next := by
  induction rows generalizing s r rowsDone with
  | zero => exact ⟨_, _, rfl, room⟩
  | succ rows ih =>
    obtain ⟨line, mid, found, midRoom, filled⟩ := lineToDeleteSafe room
      (show pos < s.numberRows t by omega) columns
    obtain ⟨cells, has⟩ := Option.isSome_iff_exists.mp filled
    have still := lineToDeleteStill found
    rw [← still.numberRows] at inside
    simp only [deleteLoop, found, Option.bind_eq_bind, Option.bind_some, has]
    split
    · split
      · obtain ⟨left, removed, leftRoom⟩ := removeLineSafe midRoom (show pos < mid.numberRows t by omega)
        obtain ⟨leftTracks, -, -, count⟩ := removeLineTracks (tracks.still still) (by omega) removed
        simp only [removed, Option.bind_some]
        exact ih leftTracks leftRoom (by omega)
      · exact ⟨_, _, rfl, midRoom⟩
    · let cleared : cacheLine nCols := { line with cols := some blankCells }
      have put := putLineStill (t := t) mid pos cleared
      rw [← put.numberRows] at inside
      have fewer : pos + rows ≤ (mid.putLine t pos cleared).numberRows t := by omega
      exact ih ((tracks.still still).still put) (putLineRoom midRoom pos cleared) fewer

end sqlTable
end PgAdmin.frmEditGrid
