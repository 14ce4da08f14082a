import PgAdmin.SqlTableEditedRow

/-! The counters of the data grid against its lines: rowsStored counts the added lines that are
stored, as long as no row of the result is inserted. One is when a value was set on it before it
was ever shown: its line has no cells from the result and is not stored. -/
namespace PgAdmin.frmEditGrid
open PgsObjects (Text)
open PendingEdit (Event overwrite)

variable {nCols : ℕ} {t : Opened nCols}

namespace sqlTable

variable {s mid next : sqlTable nCols} {line old : cacheLine nCols} {row pos rows rowsDone done n : ℕ}
  {executeVoid : ℕ → Option (Key nCols) → Bool} {r : Roster}

def storedAt (t : Opened nCols) (s : sqlTable nCols) (row : ℕ) : Bool :=
  (s.line? t row).any cacheLine.stored

def storedRows (t : Opened nCols) (s : sqlTable nCols) : ℕ :=
  (List.range s.rowsAdded).countP fun k => s.storedAt t (s.fetchedRows t + k)

structure Counts (t : Opened nCols) (s : sqlTable nCols) (n : ℕ) : Prop where
  distinct : Distinct t s
  counted : n = s.storedRows t
  beyond : ∀ row ≥ s.fetchedRows t + s.rowsAdded, ∀ line, s.line? t row = some line →
    line.cols = none ∧ line.stored = false

theorem createCounts (t : Opened nCols) : Counts t (create t) 0 := by
  have none : ∀ row, (create t).line? t row = none := by
    intro row
    unfold line?
    split <;> exact cacheLinePool.createLine ..
  refine ⟨(createReady t).mapped.distinct, ?_, ?_⟩
  · simp [storedRows, storedAt, none]
  · intro row past line present
    exact nomatch (none row).symm.trans present

theorem Counts.inside (counts : Counts t s n) (present : s.line? t row = some line)
    (filled : line.cols.isSome) : row < s.fetchedRows t + s.rowsAdded := by
  by_contra past
  rw [(counts.beyond row (Nat.le_of_not_lt past) line present).1] at filled
  exact nomatch filled

theorem countsAfter (counts : Counts t s n) (still : Still s next)
    (others : ∀ i ≠ row, next.line? t i = s.line? t i) (here : next.line? t row = some line)
    (stored : row < s.fetchedRows t ∨ line.stored = s.storedAt t row)
    (beyond : s.fetchedRows t + s.rowsAdded ≤ row → line.cols = none ∧ line.stored = false) :
    Counts t next n where
  distinct := counts.distinct.still still
  counted := by
    rw [counts.counted, storedRows, storedRows, still.rowsAdded, still.fetchedRows]
    refine List.countP_congr fun k _ => ?_
    by_cases same : s.fetchedRows t + k = row
    · have added : line.stored = s.storedAt t row := stored.resolve_left (by omega)
      rw [same, ← added, storedAt, here]
      rfl
    · rw [storedAt, storedAt, others _ same]
  beyond i past l present := by
    rw [still.fetchedRows, still.rowsAdded] at past
    by_cases same : i = row
    · subst same
      cases here.symm.trans present
      exact beyond past
    · exact counts.beyond i past l (others i same ▸ present)

theorem getLineCounts (counts : Counts t s n) (ok : s.GetLine t row = some (line, next)) :
    Counts t next n := by
  refine countsAfter counts (getLineStill ok)
    (fun i differs => getLineOthers counts.distinct ok differs) (getLineHere ok) ?_ ?_
  · right
    rcases getLineBefore ok with present | ⟨absent, rfl⟩
    · rw [storedAt, present]
      rfl
    · rw [storedAt, absent]
      rfl
  · intro past
    rcases getLineBefore ok with present | ⟨-, rfl⟩
    · exact counts.beyond row past line present
    · exact ⟨rfl, rfl⟩

theorem putLineCounts (counts : Counts t s n) (present : s.line? t row = some old)
    (line : cacheLine nCols) (inside : row < s.fetchedRows t + s.rowsAdded)
    (stored : row < s.fetchedRows t ∨ line.stored = old.stored) :
    Counts t (s.putLine t row line) n := by
  refine countsAfter counts (putLineStill ..)
    (fun i differs => putLineOthers counts.distinct _ differs) (putLineHere present _) ?_ ?_
  · rwa [storedAt, present]
  · intro past
    omega

theorem showCellCounts {col : Fin nCols} {text : Text} (counts : Counts t s n)
    (ok : s.showCell t row col = some (text, next)) : Counts t next n := by
  simp only [showCell, Option.bind_eq_bind, Option.bind_eq_some_iff, Prod.exists,
    Option.some.injEq, Prod.mk.injEq] at ok
  obtain ⟨l, got, asked, c, filled, rfl, rfl⟩ := ok
  have gotCounts := getLineCounts counts asked
  have here := getLineHere asked
  exact putLineCounts gotCounts here _ (gotCounts.inside here (by simp [filled])) (.inr rfl)

theorem getValueCounts {col : Fin nCols} {text : Text} (counts : Counts t s n)
    (inside : row < s.fetchedRows t + s.rowsAdded)
    (ok : s.GetValue t row col = some (text, next)) : Counts t next n := by
  simp only [GetValue, Option.bind_eq_bind, Option.bind_eq_some_iff, Prod.exists] at ok
  obtain ⟨l, got, asked, shown⟩ := ok
  have gotCounts := getLineCounts counts asked
  have here := getLineHere asked
  have still := getLineStill asked
  rw [← still.fetchedRows, ← still.rowsAdded] at inside
  split at shown
  · exact showCellCounts gotCounts shown
  split at shown
  · rename_i fetched
    split at shown
    · have put := putLineCounts gotCounts here
        { l with cols := some (t.fetched (got.lineIndex row)), stored := true } inside
        (.inl fetched)
      have loaded : Counts t (got.load t row l).2 n := ⟨put.distinct, put.counted, put.beyond⟩
      exact showCellCounts loaded shown
    · cases shown
      exact putLineCounts gotCounts here _ inside (.inr rfl)
  · let blank : cacheLine nCols := { l with cols := some blankCells }
    exact showCellCounts (putLineCounts gotCounts here blank inside (.inr rfl)) shown

theorem lineToDeleteCounts (counts : Counts t s n) (inside : pos < s.fetchedRows t + s.rowsAdded)
    (ok : s.lineToDelete t pos = some (line, next)) : Counts t next n := by
  simp only [lineToDelete, Option.bind_eq_bind, Option.bind_eq_some_iff, Prod.exists] at ok
  obtain ⟨l, got, asked, rest⟩ := ok
  have gotCounts := getLineCounts counts asked
  have still := getLineStill asked
  rw [← still.fetchedRows, ← still.rowsAdded] at inside
  split at rest
  · cases rest
    exact gotCounts
  · simp only [Option.bind_eq_some_iff, Prod.exists] at rest
    obtain ⟨col, -, text, shown, value, again⟩ := rest
    exact getLineCounts (getValueCounts gotCounts inside value) again

theorem widenCounts (counts : Counts t s n) (rows : ℕ) :
    Counts t { s with rowsAdded := s.rowsAdded + rows } n where
  distinct := counts.distinct
  counted := by
    have unstored : ∀ k, s.storedAt t (s.fetchedRows t + (s.rowsAdded + k)) = false := by
      intro k
      unfold storedAt
      cases present : s.line? t (s.fetchedRows t + (s.rowsAdded + k)) with
      | none => rfl
      | some line => exact (counts.beyond _ (by omega) line present).2
    have split : storedRows t { s with rowsAdded := s.rowsAdded + rows } = s.storedRows t +
        (List.range rows).countP fun k => s.storedAt t (s.fetchedRows t + (s.rowsAdded + k)) := by
      simp only [storedRows, List.range_add, List.countP_append, List.countP_map]
      rfl
    rw [split, counts.counted]
    simp [unstored]
  beyond row past line present :=
    counts.beyond row (Nat.le_trans (Nat.add_le_add_left (Nat.le_add_right ..) _) past) line present

theorem appendRowsCounts (counts : Counts t s n) (ok : s.AppendRows t rows = some next) :
    Counts t next n ∧ next.rowsStored = s.rowsStored := by
  simp only [AppendRows, bind, Option.bind] at ok
  split at ok
  · contradiction
  split at ok
  · contradiction
  · rename_i made
    cases Option.some.inj ok
    exact ⟨getLineCounts (widenCounts counts rows) made, (getLineStill made).rowsStored⟩

theorem appendRowsKeeps (distinct : Distinct t s) (ok : s.AppendRows t rows = some next)
    (present : s.line? t row = some line) : next.line? t row = some line := by
  simp only [AppendRows, bind, Option.bind] at ok
  split at ok
  · contradiction
  split at ok
  · contradiction
  · rename_i last made
    cases Option.some.inj ok
    by_cases same : row = t.nRows + (s.rowsAdded + rows) - s.rowsDeleted - 1
    · subst same
      rcases getLineBefore made with before | ⟨absent, -⟩
      · exact (getLineHere made).trans (before.symm.trans present)
      · cases absent.symm.trans present
    · exact (getLineOthers (s := { s with rowsAdded := s.rowsAdded + rows }) distinct made
        same).trans present

/- The row being edited is a fetched one, its line is not stored, and its INSERT is accepted. -/
def InsertsFetched (t : Opened nCols) (s : sqlTable nCols) (connection : Connection nCols) : Prop :=
  ∃ row line cells, s.lastRow = some row ∧ row < s.fetchedRows t ∧ Holds t s row line cells ∧
    line.stored = false ∧ t.succeeds s.savedLine line cells connection = true

theorem countOne {p q : ℕ → Bool} {list : List ℕ} {a : ℕ} (nodup : list.Nodup) (member : a ∈ list)
    (was : p a = false) (becomes : q a = true) (others : ∀ b ≠ a, q b = p b) :
    list.countP q = list.countP p + 1 := by
  have split := List.perm_cons_erase member
  have rest : (list.erase a).countP q = (list.erase a).countP p :=
    List.countP_congr fun b kept => by rw [others b (nodup.mem_erase_iff.mp kept).1]
  rw [split.countP_eq, split.countP_eq, List.countP_cons_of_pos becomes,
    List.countP_cons_of_neg (by simp [was]), rest]

theorem putStoredCounts (counts : Counts t s n) (present : s.line? t row = some old)
    (unstored : old.stored = false) (stored : line.stored = true)
    (added : ¬ row < s.fetchedRows t) (inside : row < s.fetchedRows t + s.rowsAdded) :
    Counts t (s.putLine t row line) (n + 1) := by
  have still := putLineStill (t := t) s row line
  have here := putLineHere present line
  have others : ∀ i ≠ row, (s.putLine t row line).line? t i = s.line? t i :=
    fun i differs => putLineOthers counts.distinct line differs
  have position : s.fetchedRows t + (row - s.fetchedRows t) = row :=
    Nat.add_sub_cancel' (Nat.le_of_not_lt added)
  refine ⟨counts.distinct.still still, ?_, ?_⟩
  · rw [counts.counted, storedRows, storedRows, still.rowsAdded, still.fetchedRows]
    refine (countOne (a := row - s.fetchedRows t) List.nodup_range ?_ ?_ ?_ ?_).symm
    · exact List.mem_range.mpr (by omega)
    · rw [position, storedAt, present]
      exact unstored
    · rw [position, storedAt, here]
      exact stored
    · intro k differs
      rw [storedAt, storedAt, others _ (by omega)]
  · intro i past l found
    rw [still.fetchedRows, still.rowsAdded] at past
    rw [others i (by omega)] at found
    exact counts.beyond i past l found

theorem storeInsertedCounts {cells : Fin nCols → Text} {set : InsertReply} (counts : Counts t s n)
    (present : s.line? t row = some line) (filled : line.cols = some cells)
    (unstored : line.stored = false) (added : ¬ row < s.fetchedRows t)
    (ok : s.StoreInserted t row line cells set = some next) :
    Counts t next (n + 1) ∧ next.rowsStored = s.rowsStored + 1 := by
  simp only [StoreInserted, Option.bind_eq_bind, Option.bind_eq_some_iff, Option.some.injEq] at ok
  obtain ⟨mid, grown, rfl⟩ := ok
  have within := counts.inside present (by simp [filled])
  obtain ⟨midCounts, count, here, widened⟩ : Counts t mid n ∧
      mid.rowsStored = s.rowsStored + 1 ∧ mid.line? t row = some line ∧ Widened s mid := by
    have counted : Counts t { s with rowsStored := s.rowsStored + 1 } n :=
      ⟨counts.distinct, counts.counted, counts.beyond⟩
    unfold countStored at grown
    simp only at grown
    split at grown
    · obtain ⟨after, same⟩ := appendRowsCounts counted grown
      obtain ⟨index, deleted, more⟩ := (appendRowsWidened grown).1
      exact ⟨after, same, appendRowsKeeps counted.distinct grown present, index, deleted, more⟩
    · cases Option.some.inj grown
      exact ⟨counted, rfl, present, rfl, rfl, le_rfl⟩
  have midRows : mid.fetchedRows t = s.fetchedRows t := by
    rw [fetchedRows, fetchedRows, widened.rowsDeleted]
  have more := widened.rowsAdded
  let new : cacheLine nCols := {
    cols := some (overwrite cells (t.returned cells set))
    stored := true
    readOnly := line.readOnly || t.MakeKey (overwrite cells (t.insertedOid set)) = none }
  have put : Counts t (mid.putLine t row new) (n + 1) :=
    putStoredCounts midCounts here unstored rfl (midRows.symm ▸ added) (by omega)
  exact ⟨⟨put.distinct, put.counted, put.beyond⟩,
    (putLineStill (t := t) mid row new).rowsStored.trans count⟩

theorem storeLineCounts {connection : Connection nCols} {stored : Bool}
    {events : List (RowEvent nCols)} (counts : Counts t s s.rowsStored)
    (fresh : ¬ InsertsFetched t s connection)
    (ok : s.StoreLine t connection = some (stored, events, next)) :
    Counts t next next.rowsStored := by
  unfold StoreLine at ok
  split at ok
  · cases ok
    exact counts
  rename_i row last
  simp only [Option.bind_eq_bind, Option.bind_eq_some_iff, Prod.exists] at ok
  obtain ⟨l, got, asked, cells, filled, rest⟩ := ok
  have still := getLineStill asked
  have here := getLineHere asked
  have gotCounts : Counts t got got.rowsStored := by
    rw [still.rowsStored]
    exact getLineCounts counts asked
  split at rest
  · split at rest
    · cases rest
      exact ⟨gotCounts.distinct, gotCounts.counted, gotCounts.beyond⟩
    · cases rest
      exact gotCounts
  rename_i unstored
  split at rest
  · cases rest
    exact gotCounts
  rename_i values
  split at rest
  · cases rest
    exact gotCounts
  rename_i set reply
  split at rest
  · rename_i accepted
    simp only [Option.bind_eq_some_iff, Option.some.injEq, Prod.mk.injEq] at rest
    obtain ⟨after, inserted, -, -, rfl⟩ := rest
    have added : ¬ row < got.fetchedRows t := by
      intro fetched
      have before : s.line? t row = some l := by
        rcases getLineBefore asked with present | ⟨-, rfl⟩
        · exact present
        · exact nomatch filled
      rw [still.fetchedRows] at fetched
      refine fresh ⟨row, l, cells, last, fetched, ⟨before, filled⟩,
        Bool.eq_false_iff.mpr unstored, ?_⟩
      simp [Opened.succeeds, unstored, values, reply, accepted]
    obtain ⟨afterCounts, count⟩ := storeInsertedCounts gotCounts here filled
      (Bool.eq_false_iff.mpr unstored) added inserted
    rw [count]
    exact afterCounts
  · cases rest
    exact gotCounts

theorem moveToCounts {connection : Connection nCols} {events : List (RowEvent nCols)}
    (counts : Counts t s s.rowsStored) (inside : row < s.fetchedRows t + s.rowsAdded)
    (fresh : s.lastRow = some row ∨ ¬ InsertsFetched t s connection)
    (ok : s.moveTo t row connection = some (events, next)) : Counts t next next.rowsStored := by
  unfold moveTo at ok
  split at ok
  · cases ok
    exact counts
  rename_i elsewhere
  simp only [Option.bind_eq_bind, Option.bind_eq_some_iff, Prod.exists, Option.some.injEq,
    Prod.mk.injEq] at ok
  obtain ⟨done, stored, left, store, l, got, asked, -, rfl⟩ := ok
  have leftCounts := storeLineCounts counts (fresh.resolve_left elsewhere) store
  have widened := (storeLineWidened store).1
  have still := getLineStill asked
  have within : row < got.fetchedRows t + got.rowsAdded := by
    have more := widened.rowsAdded
    rw [still.fetchedRows, still.rowsAdded, fetchedRows, widened.rowsDeleted]
    rw [fetchedRows] at inside
    omega
  let shown : cacheLine nCols := { l with cols := some (l.cols.getD blankCells) }
  have put : Counts t (got.putLine t row shown) left.rowsStored :=
    putLineCounts (getLineCounts leftCounts asked) (getLineHere asked) shown within (.inr rfl)
  have count : (got.putLine t row shown).rowsStored = left.rowsStored :=
    (putLineStill (t := t) got row shown).rowsStored.trans still.rowsStored
  change Counts t _ (got.putLine t row shown).rowsStored
  rw [count]
  exact ⟨put.distinct, put.counted, put.beyond⟩

theorem setValueCounts {connection : Connection nCols} {col : Fin nCols} {value : Text}
    {events : List (RowEvent nCols)} (counts : Counts t s s.rowsStored)
    (inside : row < s.fetchedRows t + s.rowsAdded)
    (fresh : s.lastRow = some row ∨ ¬ InsertsFetched t s connection)
    (ok : s.SetValue t row col value connection = some (events, next)) :
    Counts t next next.rowsStored := by
  simp only [SetValue, Option.bind_eq_bind, Option.bind_eq_some_iff, Prod.exists,
    Option.some.injEq, Prod.mk.injEq] at ok
  obtain ⟨l, got, asked, moved, mid, move, l', again, found, cells, filled, -, rfl⟩ := ok
  have still := getLineStill asked
  have gotCounts : Counts t got got.rowsStored := by
    rw [still.rowsStored]
    exact getLineCounts counts asked
  have gotFresh : got.lastRow = some row ∨ ¬ InsertsFetched t got connection := by
    refine fresh.imp still.lastRow.trans fun none => ?_
    rintro ⟨i, l, c, last, fetched, holds, unstored, accepted⟩
    rw [still.savedLine] at accepted
    exact none ⟨i, l, c, still.lastRow.symm.trans last, still.fetchedRows ▸ fetched,
      getLineUnread counts.distinct asked holds, unstored, accepted⟩
  rw [← still.fetchedRows, ← still.rowsAdded] at inside
  have midCounts := moveToCounts gotCounts inside gotFresh move
  have here := getLineHere found
  have againCounts := getLineCounts midCounts found
  let new : cacheLine nCols := { l' with cols := some (Function.update cells col value) }
  have count : (again.putLine t row new).rowsStored = mid.rowsStored :=
    (putLineStill (t := t) again row new).rowsStored.trans (getLineStill found).rowsStored
  rw [count]
  exact putLineCounts againCounts here new (againCounts.inside here (by simp [filled])) (.inr rfl)

theorem undoLineCounts {i : ℤ} {events : List (RowEvent nCols)}
    (counts : Counts t s s.rowsStored) (ok : s.UndoLine t i = some (events, next)) :
    Counts t next next.rowsStored := by
  unfold UndoLine at ok
  split at ok
  · simp only [Option.bind_eq_bind, Option.bind_eq_some_iff, Prod.exists, Option.some.injEq,
      Prod.mk.injEq] at ok
    obtain ⟨l, got, asked, cells, filled, -, rfl⟩ := ok
    have here := getLineHere asked
    have gotCounts := getLineCounts counts asked
    let saved : cacheLine nCols := { l with cols := some got.savedLine }
    have put := putLineCounts gotCounts here saved (gotCounts.inside here (by simp [filled]))
      (.inr rfl)
    have count : (got.putLine t i.toNat saved).rowsStored = s.rowsStored :=
      (putLineStill (t := t) got i.toNat saved).rowsStored.trans (getLineStill asked).rowsStored
    change Counts t _ (got.putLine t i.toNat saved).rowsStored
    rw [count]
    exact ⟨put.distinct, put.counted, put.beyond⟩
  · cases ok
    exact ⟨counts.distinct, counts.counted, counts.beyond⟩

/- No INSERT of a row of the result is accepted, whoever has it sent. -/
def Op.Fresh (t : Opened nCols) (s : sqlTable nCols) : Op nCols → Prop
  | .setValue row _ _ connection => s.lastRow = some row ∨ ¬ InsertsFetched t s connection
  | .storeLine connection => ¬ InsertsFetched t s connection
  | _ => True

def Fresh (t : Opened nCols) (s : sqlTable nCols) (op : GridOp nCols) : Prop :=
  op.Safe t s ∧
    match op with
    | .edit op => op.Fresh t s
    | .deleteRows .. => True

theorem stepCounts {op : Op nCols} {events : List (RowEvent nCols)}
    (counts : Counts t s s.rowsStored) (fits : s.rowsDeleted ≤ t.nRows) (inside : op.Inside t s)
    (fresh : op.Fresh t s) (ok : s.step t op = some (events, next)) :
    Counts t next next.rowsStored := by
  have within : ∀ row, row < s.numberRows t → row < s.fetchedRows t + s.rowsAdded := by
    intro row
    rw [numberRows, fetchedRows]
    omega
  cases op with
  | getValue row col =>
    obtain ⟨⟨text, after⟩, value, made⟩ := Option.map_eq_some_iff.mp ok
    cases made
    rw [(getValueStill value).rowsStored]
    exact getValueCounts counts (within row inside) value
  | setValue row col value connection =>
    exact setValueCounts counts (within row inside) fresh ok
  | storeLine connection =>
    obtain ⟨⟨done, stored, after⟩, store, made⟩ := Option.map_eq_some_iff.mp ok
    cases made
    exact storeLineCounts counts fresh store
  | undoLine i => exact undoLineCounts counts ok
  | appendRows rows =>
    obtain ⟨after, append, made⟩ := Option.map_eq_some_iff.mp ok
    cases made
    obtain ⟨appended, same⟩ := appendRowsCounts counts append
    rw [same]
    exact appended

theorem countErased (p : ℕ → Bool) {m j : ℕ} (inside : j < m + 1) :
    (List.range (m + 1)).countP p =
      ((List.range m).countP fun i => p (if i < j then i else i + 1)) + (p j).toNat := by
  have within : j < (List.range (m + 1)).length := by rwa [List.length_range]
  have erased := eraseShifted id inside
  rw [List.map_id] at erased
  rw [← (List.getElem_cons_eraseIdx_perm within).countP_eq, erased, List.countP_cons,
    List.countP_map, List.getElem_range]
  congr 1
  · refine List.countP_congr fun i member => ?_
    have before := List.mem_range.mp member
    by_cases first : i < j
    · simp [first, Nat.not_le.mpr first]
    · simp [first, Nat.not_lt.mp first, before]
  · cases p j <;> rfl

theorem removeFetchedCounts (tracks : Tracks t s r) (counts : Counts t s s.rowsStored)
    (fetched : pos < s.fetchedRows t) (ok : s.removeLine t pos = some next) :
    Counts t next next.rowsStored := by
  obtain ⟨after, deleted, added, -, -⟩ := removeFetchedTracks tracks fetched ok
  have lines := removeFetchedLines fetched ok
  have rows : s.fetchedRows t = next.fetchedRows t + 1 := by
    rw [fetchedRows] at fetched
    rw [fetchedRows, fetchedRows, deleted]
    omega
  have count : next.rowsStored = s.rowsStored := by
    rw [removeLine, if_pos fetched, Option.some.injEq] at ok
    simp only at ok
    split at ok <;> cases ok <;> rfl
  have moved : ∀ i ≥ next.fetchedRows t, next.line? t i = s.line? t (i + 1) := by
    intro i past
    rw [lines, if_neg (by omega)]
  refine ⟨after.distinct, ?_, ?_⟩
  · rw [count, counts.counted, storedRows, storedRows, added]
    refine List.countP_congr fun k _ => ?_
    rw [storedAt, storedAt, moved _ (Nat.le_add_right ..), rows]
    exact iff_of_eq (congrArg (fun i => (s.line? t i).any cacheLine.stored = true) (by omega))
  · intro i past l present
    rw [moved i (by omega)] at present
    exact counts.beyond (i + 1) (by omega) l present

theorem removeAddedCounts (tracks : Tracks t s r) (counts : Counts t s s.rowsStored)
    (added : ¬ pos < s.fetchedRows t) (inside : pos < s.numberRows t)
    (present : s.line? t pos = some line) (stored : line.stored = true)
    (ok : s.removeLine t pos = some next) : Counts t next next.rowsStored := by
  obtain ⟨after, deleted, fewer, -, -⟩ := removeAddedTracks tracks added inside ok
  have lines := removeAddedLines added ok counts.distinct
  have rows : next.fetchedRows t = s.fetchedRows t := by rw [fetchedRows, fetchedRows, deleted]
  have within : pos - s.fetchedRows t < next.rowsAdded + 1 := by
    have fits := tracks.deletedFits
    rw [numberRows] at inside
    rw [fetchedRows] at added ⊢
    omega
  have position : s.fetchedRows t + (pos - s.fetchedRows t) = pos :=
    Nat.add_sub_cancel' (Nat.le_of_not_lt added)
  have one : s.rowsStored = next.storedRows t + 1 := by
    rw [counts.counted, storedRows, storedRows, ← fewer, rows, countErased _ within, position]
    congr 1
    · refine List.countP_congr fun k _ => ?_
      rw [storedAt, storedAt, lines]
      refine iff_of_eq (congrArg (fun i => (s.line? t i).any cacheLine.stored = true) ?_)
      split <;> split <;> omega
    · rw [storedAt, present, Option.any_some, stored]
      rfl
  have count : next.rowsStored = s.rowsStored - 1 := by
    rw [removeLine, if_neg added] at ok
    simp only [Option.bind_eq_bind, Option.bind_eq_some_iff, Prod.exists, Option.some.injEq] at ok
    obtain ⟨found, got, asked, rfl⟩ := ok
    have same : found.stored = true := by
      rcases getLineBefore asked with before | ⟨absent, -⟩
      · cases before.symm.trans present
        exact stored
      · cases absent.symm.trans present
    rw [if_pos same]
    exact congrArg (· - 1) (getLineStill asked).rowsStored
  refine ⟨after.distinct, by omega, ?_⟩
  intro i past l found
  rw [lines, if_neg (by omega)] at found
  exact counts.beyond (i + 1) (by omega) l found

theorem deleteLoopCounts (tracks : Tracks t s r) (counts : Counts t s s.rowsStored)
    (inside : pos + rows ≤ s.numberRows t)
    (ok : s.deleteLoop t executeVoid pos rows rowsDone = some (done, next)) :
    Counts t next next.rowsStored := by
  induction rows generalizing s r rowsDone with
  | zero =>
    cases ok
    exact counts
  | succ rows ih =>
    simp only [deleteLoop, Option.bind_eq_bind, Option.bind_eq_some_iff, Prod.exists] at ok
    obtain ⟨line, mid, found, cells, filled, rest⟩ := ok
    have still := lineToDeleteStill found
    have midTracks := tracks.still still
    have here := lineToDeleteHere found
    have within : pos < s.fetchedRows t + s.rowsAdded := by
      have fits := tracks.deletedFits
      rw [numberRows] at inside
      rw [fetchedRows]
      omega
    have midCounts : Counts t mid mid.rowsStored := by
      rw [still.rowsStored]
      exact lineToDeleteCounts counts within found
    rw [← still.numberRows] at inside
    split at rest
    · rename_i stored
      split at rest
      · obtain ⟨left, removed, rest⟩ := Option.bind_eq_some_iff.mp rest
        obtain ⟨leftTracks, -, -, count⟩ := removeLineTracks midTracks (by omega) removed
        have leftCounts : Counts t left left.rowsStored := by
          by_cases fetched : pos < mid.fetchedRows t
          · exact removeFetchedCounts midTracks midCounts fetched removed
          · exact removeAddedCounts midTracks midCounts fetched (by omega) here stored removed
        exact ih leftTracks leftCounts (by omega) rest
      · cases rest
        exact midCounts
    · let cleared : cacheLine nCols := { line with cols := some blankCells }
      have put := putLineStill (t := t) mid pos cleared
      have cleanCounts : Counts t (mid.putLine t pos cleared) mid.rowsStored :=
        putLineCounts midCounts here cleared (midCounts.inside here (by simp [filled])) (.inr rfl)
      rw [← put.rowsStored] at cleanCounts
      rw [← put.numberRows] at inside
      exact ih (midTracks.still put) cleanCounts (by omega) rest

theorem gridRunCounts {g : Ghost} (run : GridRun t (Fresh t) s g) : Counts t s s.rowsStored := by
  induction run with
  | opened => exact createCounts t
  | @step s next g done before op inside allows ok ih =>
    have tracks := gridRunTracks before
    cases op with
    | edit op =>
      obtain ⟨⟨events, after⟩, made, same⟩ := Option.map_eq_some_iff.mp ok
      cases same
      exact stepCounts ih tracks.deletedFits inside allows.2 made
    | deleteRows pos rows executeVoid => exact deleteLoopCounts tracks ih inside ok

theorem deleteLoopKeeps (tracks : Tracks t s r) (inside : pos + rows ≤ s.numberRows t)
    (ok : s.deleteLoop t executeVoid pos rows rowsDone = some (done, next))
    (present : s.line? t (pos + (done - rowsDone)) = some old) (filled : old.cols.isSome)
    (stored : old.stored = true) : next.line? t pos = some old := by
  induction rows generalizing s r rowsDone with
  | zero =>
    cases ok
    rwa [Nat.sub_self] at present
  | succ rows ih =>
    simp only [deleteLoop, Option.bind_eq_bind, Option.bind_eq_some_iff, Prod.exists] at ok
    obtain ⟨line, mid, found, cells, -, rest⟩ := ok
    have midTracks := tracks.still (lineToDeleteStill found)
    rw [← (lineToDeleteStill found).numberRows] at inside
    -- the line is still the one at the position when nothing more is deleted
    have here (nothing : done = rowsDone) : line = old ∧ mid = s := by
      rw [nothing, Nat.sub_self, Nat.add_zero] at present
      have same : s.lineToDelete t pos = some (old, s) := by
        simp [lineToDelete, getLineFound present, filled]
      cases found.symm.trans same
      exact ⟨rfl, rfl⟩
    split at rest
    · split at rest
      · obtain ⟨left, removed, rest⟩ := Option.bind_eq_some_iff.mp rest
        obtain ⟨leftTracks, -, -, count⟩ := removeLineTracks midTracks (by omega) removed
        have more := deleteLoopMore rest
        refine ih leftTracks (by omega) rest ?_
        rw [removeLineLines midTracks.distinct removed, if_neg (by omega),
          lineToDeleteOthers tracks.distinct found (by omega), ← present]
        congr 1
        omega
      · cases rest
        obtain ⟨-, rfl⟩ := here rfl
        rwa [Nat.sub_self] at present
    · rename_i unstored
      let cleared : cacheLine nCols := { line with cols := some blankCells }
      have nothing := deleteLoopStuck (putLineHere (lineToDeleteHere found) cleared) rfl
        (Bool.eq_false_iff.mpr unstored) rest
      obtain ⟨rfl, -⟩ := here nothing
      exact absurd stored unstored

/- The rows of the grid are those of the roster: the fetched ones in the order of the result, then
the added ones in the order they were added. -/
structure RowMap (t : Opened nCols) (s : sqlTable nCols) (r : Roster) : Prop where
  deleted : s.rowsDeleted ≤ t.nRows
  stored : s.rowsStored ≤ s.rowsAdded
  counted : s.rowsStored = s.storedRows t
  fetched : (List.range (t.nRows - s.rowsDeleted)).map s.lineIndex = r.fetched
  increasing : r.fetched.Pairwise (· < ·)
  exact : (r.fetched ++ r.deleted).Perm (List.range t.nRows)
  inserted : r.added.Pairwise (· < ·)
  numbered : r.ids.length = s.numberRows t
  distinct : r.ids.Nodup
  lines : ∀ row < s.numberRows t, ∃ line next, s.GetLine t row = some (line, next) ∧
    match r.ids[row]? with
    | some (.fetched index) => next.dataPool.line? index = some line
    | some (.added serial) => next.addPool.line? (r.added.idxOf serial) = some line
    | none => False

theorem Tracks.lines (tracks : Tracks t s r) (inside : row < s.numberRows t)
    (ok : s.GetLine t row = some (line, next)) :
    match r.ids[row]? with
    | some (.fetched index) => next.dataPool.line? index = some line
    | some (.added serial) => next.addPool.line? (r.added.idxOf serial) = some line
    | none => False := by
  have here := getLineHere ok
  have still := getLineStill ok
  have length := tracks.fetchedLength
  rw [line?, still.fetchedRows, still.lineIndex] at here
  by_cases fetched : row < s.fetchedRows t
  · have id : r.ids[row]? = some (.fetched (s.lineIndex row)) := by
      rw [Roster.ids, List.getElem?_append_left (by simpa [length] using fetched), tracks.fetched]
      simp [fetched]
    rw [id]
    rwa [if_pos fetched] at here
  · have within : row - s.fetchedRows t < r.added.length := by
      have whole := tracks.idsLength
      rw [Roster.idsLength, length] at whole
      omega
    have id : r.ids[row]? = some (.added r.added[row - s.fetchedRows t]) := by
      rw [Roster.ids, List.getElem?_append_right (by simpa [length] using fetched)]
      simp [length, within]
    have nodup : r.added.Nodup := tracks.sound.serials.imp (ne_of_lt ·)
    rw [id]
    rw [if_neg fetched] at here
    simpa only [nodup.idxOf_getElem _ within] using here

/-- In every run in which no row of the result is inserted and the slots of the rows are cleared, the counters and
the row map are those of the lines, and the next step of this kind comes to its end. However far one more DeleteRows
gets, the lines move up with their identities, and the one where it stopped is as it was when it was stored and had
its cells. -/
theorem rowMap {g : Ghost} (run : GridRun t (Fresh t) s g) :
    RowMap t s g.roster ∧
      (∀ op, op.Inside t s → op.Safe t s → ∃ done next, s.gridStep t op = some (done, next)) ∧
      ∀ pos rows executeVoid done next, pos + rows ≤ s.numberRows t →
      s.DeleteRows t pos rows executeVoid = some (done, next) →
      (∀ i, (g.after s next done (.deleteRows pos rows executeVoid)).roster.ids[i]? =
        g.roster.ids[if i < pos then i else i + done]?) ∧
      (∀ i ≠ pos, next.line? t i = s.line? t (if i < pos then i else i + done)) ∧
      ∀ line, s.line? t (pos + done) = some line → line.cols.isSome → line.stored = true →
        next.line? t pos = some line := by
  have tracks := gridRunTracks run
  have counts := gridRunCounts run
  have room := gridRunRoom (fun _ _ fresh => fresh.1) run
  refine ⟨?_, fun op inside safe => ?_, fun pos rows executeVoid done next inside ok => ⟨?_, ?_, ?_⟩⟩
  · refine ⟨tracks.deletedFits, ?_, counts.counted, tracks.fetched.symm, tracks.sound.order,
      tracks.sound.exact, tracks.sound.serials, tracks.idsLength, Roster.idsNodup tracks.sound, ?_⟩
    · rw [counts.counted, storedRows]
      exact List.countP_le_length.trans_eq List.length_range
    · intro row inside
      obtain ⟨line, next, ok⟩ := getLineDefined room inside
      exact ⟨line, next, ok, tracks.lines inside ok⟩
  · obtain ⟨done, next, ok, -⟩ := gridStepSafe tracks room inside safe
    exact ⟨done, next, ok⟩
  · exact fun i => g.roster.removeManyIds pos done i
  · exact fun i differs => deleteLoopLines tracks inside ok differs
  · exact fun line present filled stored => deleteLoopKeeps tracks inside ok present filled stored

theorem rowMapDeleted : ∃ s g, g.roster.ids = [.fetched 1, .added 0] ∧
    GridRun twoRows (Fresh twoRows) s g ∧ RowMap twoRows s g.roster := by
  have start : GridRun twoRows (Fresh twoRows) (create twoRows) (.opened twoRows) := .opened
  have shown := start.step (.edit (.getValue 1 0)) (Nat.le_of_ble_eq_true rfl)
    ⟨Nat.le_of_ble_eq_true rfl, trivial⟩ rfl
  have deleted := shown.step (.deleteRows 0 2 fun n _ => n == 0) (Nat.le_of_ble_eq_true rfl)
    ⟨Nat.zero_lt_one, trivial⟩ rfl
  exact ⟨_, _, rfl, deleted, (rowMap deleted).1⟩

def accepting : Connection 1 where
  executeVoid _ _ := true
  executeSet _ := some ⟨1, [], fun _ => none, none⟩

set_option maxRecDepth 4000 in
/- A value is set on a row that was never shown, and storing it inserts the row again. -/
theorem fetchedRowInserted : ¬ ∀ s g, GridRun twoRows (fun _ _ => True) s g →
    RowMap twoRows s g.roster := by
  intro maps
  have start : GridRun twoRows (fun _ _ => True) (create twoRows) (.opened twoRows) := .opened
  have edited := start.step (.edit (.setValue 0 0 "a".toList refusing))
    (Nat.le_of_ble_eq_true rfl) trivial rfl
  have stored := edited.step (.edit (.storeLine accepting)) trivial trivial rfl
  exact absurd (maps _ _ stored).counted (by decide)

end sqlTable

end PgAdmin.frmEditGrid
