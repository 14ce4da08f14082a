import PgAdmin.Roster
import PgAdmin.SqlTableDelete

/-! The data grid with the identities of its rows kept beside it. Whatever is asked of the grid, its
positions are those of the roster; only DeleteRows moves them. -/
namespace PgAdmin.frmEditGrid
open PgsObjects (Text)
open PendingEdit (Event)

variable {nCols : ℕ} {t : Opened nCols}

namespace sqlTable

variable {s mid next : sqlTable nCols} {line : cacheLine nCols} {row pos : ℕ} {r : Roster}

structure Still (s next : sqlTable nCols) : Prop where
  lineIndex : next.lineIndex = s.lineIndex
  rowsDeleted : next.rowsDeleted = s.rowsDeleted
  rowsAdded : next.rowsAdded = s.rowsAdded
  rowsStored : next.rowsStored = s.rowsStored
  lastRow : next.lastRow = s.lastRow
  savedLine : next.savedLine = s.savedLine

structure Widened (s next : sqlTable nCols) : Prop where
  lineIndex : next.lineIndex = s.lineIndex
  rowsDeleted : next.rowsDeleted = s.rowsDeleted
  rowsAdded : s.rowsAdded ≤ next.rowsAdded

theorem Still.trans (first : Still s mid) (second : Still mid next) : Still s next where
  lineIndex := second.lineIndex.trans first.lineIndex
  rowsDeleted := second.rowsDeleted.trans first.rowsDeleted
  rowsAdded := second.rowsAdded.trans first.rowsAdded
  rowsStored := second.rowsStored.trans first.rowsStored
  lastRow := second.lastRow.trans first.lastRow
  savedLine := second.savedLine.trans first.savedLine

theorem Still.widened (still : Still s next) : Widened s next where
  lineIndex := still.lineIndex
  rowsDeleted := still.rowsDeleted
  rowsAdded := still.rowsAdded.ge

theorem Still.fetchedRows (still : Still s next) : next.fetchedRows t = s.fetchedRows t := by
  rw [sqlTable.fetchedRows, sqlTable.fetchedRows, still.rowsDeleted]

theorem Still.numberRows (still : Still s next) : next.numberRows t = s.numberRows t := by
  rw [sqlTable.numberRows, sqlTable.numberRows, still.rowsDeleted, still.rowsAdded]

theorem Widened.trans (first : Widened s mid) (second : Widened mid next) : Widened s next where
  lineIndex := second.lineIndex.trans first.lineIndex
  rowsDeleted := second.rowsDeleted.trans first.rowsDeleted
  rowsAdded := first.rowsAdded.trans second.rowsAdded

theorem getLineStill (ok : s.GetLine t row = some (line, next)) : Still s next := by
  unfold GetLine at ok
  split at ok
  · obtain ⟨⟨_, pool⟩, _, made⟩ := Option.map_eq_some_iff.mp ok
    cases made
    constructor <;> rfl
  · obtain ⟨⟨_, pool⟩, _, made⟩ := Option.map_eq_some_iff.mp ok
    cases made
    constructor <;> rfl

theorem putLineStill (s : sqlTable nCols) (row : ℕ) (line : cacheLine nCols) :
    Still s (s.putLine t row line) := by
  unfold putLine
  split <;> constructor <;> rfl

theorem loadStill (s : sqlTable nCols) (row : ℕ) (line : cacheLine nCols) :
    Still s (s.load t row line).2 := by
  obtain ⟨a, b, c, d, e, f⟩ := putLineStill (t := t) s row
    { line with cols := some (t.fetched (s.lineIndex row)), stored := true }
  exact ⟨a, b, c, d, e, f⟩

theorem showCellStill {col : Fin nCols} {text : Text}
    (ok : s.showCell t row col = some (text, next)) : Still s next := by
  simp only [showCell, Option.bind_eq_bind, Option.bind_eq_some_iff, Prod.exists,
    Option.some.injEq, Prod.mk.injEq] at ok
  obtain ⟨l, got, asked, c, filled, rfl, rfl⟩ := ok
  exact (getLineStill asked).trans (putLineStill ..)

theorem getValueStill {col : Fin nCols} {text : Text}
    (ok : s.GetValue t row col = some (text, next)) : Still s next := by
  simp only [GetValue, Option.bind_eq_bind, Option.bind_eq_some_iff, Prod.exists] at ok
  obtain ⟨l, got, asked, shown⟩ := ok
  refine (getLineStill asked).trans ?_
  split at shown
  · exact showCellStill shown
  split at shown
  · split at shown
    · exact (loadStill got row l).trans (showCellStill shown)
    · cases shown
      exact putLineStill ..
  · exact (putLineStill ..).trans (showCellStill shown)

theorem lineToDeleteStill (ok : s.lineToDelete t pos = some (line, next)) : Still s next := by
  simp only [lineToDelete, Option.bind_eq_bind, Option.bind_eq_some_iff, Prod.exists] at ok
  obtain ⟨l, got, asked, rest⟩ := ok
  split at rest
  · cases rest
    exact getLineStill asked
  · simp only [Option.bind_eq_some_iff, Prod.exists] at rest
    obtain ⟨col, -, text, shown, value, again⟩ := rest
    exact ((getLineStill asked).trans (getValueStill value)).trans (getLineStill again)

theorem appendRowsWidened {rows : ℕ} (ok : s.AppendRows t rows = some next) :
    Widened s next ∧ next.lastRow = s.lastRow := by
  simp only [AppendRows, bind, Option.bind] at ok
  split at ok
  · contradiction
  split at ok
  · contradiction
  · rename_i made
    cases Option.some.inj ok
    have still := getLineStill made
    refine ⟨⟨still.lineIndex, still.rowsDeleted, ?_⟩, still.lastRow⟩
    rw [still.rowsAdded]
    exact Nat.le_add_right _ _

theorem storeInsertedWidened {cells : Fin nCols → Text} {set : InsertReply}
    (ok : s.StoreInserted t row line cells set = some next) :
    Widened s next ∧ next.lastRow = none := by
  simp only [StoreInserted, Option.bind_eq_bind, Option.bind_eq_some_iff,
    Option.some.injEq] at ok
  obtain ⟨counted, made, rfl⟩ := ok
  refine ⟨?_, rfl⟩
  have first : Widened s counted := by
    unfold countStored at made
    simp only at made
    split at made
    · obtain ⟨a, b, c⟩ := (appendRowsWidened made).1
      exact ⟨a, b, c⟩
    · cases made
      exact ⟨rfl, rfl, le_rfl⟩
  obtain ⟨a, b, c⟩ := first.trans (putLineStill (t := t) counted row _).widened
  exact ⟨a, b, c⟩

theorem storeLineWidened {connection : Connection nCols} {done : Bool}
    {events : List (RowEvent nCols)}
    (ok : s.StoreLine t connection = some (done, events, next)) :
    Widened s next ∧ (next.lastRow = none ∨ next.lastRow = s.lastRow) := by
  unfold StoreLine at ok
  split at ok
  · cases ok
    exact ⟨⟨rfl, rfl, le_rfl⟩, .inr rfl⟩
  simp only [Option.bind_eq_bind, Option.bind_eq_some_iff, Prod.exists] at ok
  obtain ⟨l, got, asked, cells, filled, rest⟩ := ok
  have still := getLineStill asked
  split at rest
  · split at rest
    · cases rest
      exact ⟨⟨still.lineIndex, still.rowsDeleted, still.rowsAdded.ge⟩, .inl rfl⟩
    · cases rest
      exact ⟨still.widened, .inr still.lastRow⟩
  split at rest
  · cases rest
    exact ⟨still.widened, .inr still.lastRow⟩
  split at rest
  · cases rest
    exact ⟨still.widened, .inr still.lastRow⟩
  split at rest
  · simp only [Option.bind_eq_some_iff, Option.some.injEq, Prod.mk.injEq] at rest
    obtain ⟨stored, inserted, -, -, rfl⟩ := rest
    obtain ⟨widened, closed⟩ := storeInsertedWidened inserted
    exact ⟨still.widened.trans widened, .inl closed⟩
  · cases rest
    exact ⟨still.widened, .inr still.lastRow⟩

theorem moveToWidened {connection : Connection nCols} {events : List (RowEvent nCols)}
    (ok : s.moveTo t row connection = some (events, next)) :
    Widened s next ∧ next.lastRow = some row := by
  unfold moveTo at ok
  split at ok
  · rename_i here
    cases ok
    exact ⟨⟨rfl, rfl, le_rfl⟩, here⟩
  simp only [Option.bind_eq_bind, Option.bind_eq_some_iff, Prod.exists, Option.some.injEq,
    Prod.mk.injEq] at ok
  obtain ⟨done, stored, left, store, l, got, asked, -, rfl⟩ := ok
  have first := (storeLineWidened store).1
  have put := putLineStill (t := t) got row { l with cols := some (l.cols.getD blankCells) }
  obtain ⟨a, b, c⟩ := (first.trans (getLineStill asked).widened).trans put.widened
  exact ⟨⟨a, b, c⟩, rfl⟩

theorem setValueWidened {connection : Connection nCols} {col : Fin nCols} {value : Text}
    {events : List (RowEvent nCols)}
    (ok : s.SetValue t row col value connection = some (events, next)) :
    Widened s next ∧ next.lastRow = some row := by
  simp only [SetValue, Option.bind_eq_bind, Option.bind_eq_some_iff, Prod.exists,
    Option.some.injEq, Prod.mk.injEq] at ok
  obtain ⟨l, got, asked, moved, mid, move, l', again, found, cells, filled, -, rfl⟩ := ok
  obtain ⟨widened, here⟩ := moveToWidened move
  have last := (getLineStill found).trans (putLineStill (t := t) again row
    { l' with cols := some (Function.update cells col value) })
  exact ⟨((getLineStill asked).widened.trans widened).trans last.widened,
    last.lastRow.trans here⟩

theorem undoLineWidened {i : ℤ} {events : List (RowEvent nCols)}
    (ok : s.UndoLine t i = some (events, next)) : Widened s next ∧ next.lastRow = none := by
  unfold UndoLine at ok
  split at ok
  · simp only [Option.bind_eq_bind, Option.bind_eq_some_iff, Prod.exists, Option.some.injEq,
      Prod.mk.injEq] at ok
    obtain ⟨l, got, asked, cells, filled, -, rfl⟩ := ok
    obtain ⟨a, b, c⟩ := ((getLineStill asked).trans (putLineStill (t := t) got i.toNat
      { l with cols := some got.savedLine })).widened
    exact ⟨⟨a, b, c⟩, rfl⟩
  · cases ok
    exact ⟨⟨rfl, rfl, le_rfl⟩, rfl⟩

theorem stepWidened {op : Op nCols} {events : List (RowEvent nCols)}
    (ok : s.step t op = some (events, next)) : Widened s next ∧
      match op with
      | .setValue row .. => next.lastRow = some row
      | _ => next.lastRow = none ∨ next.lastRow = s.lastRow := by
  cases op with
  | getValue row col =>
    obtain ⟨⟨text, after⟩, value, made⟩ := Option.map_eq_some_iff.mp ok
    cases made
    have still := getValueStill value
    exact ⟨still.widened, .inr still.lastRow⟩
  | setValue row col value connection => exact setValueWidened ok
  | storeLine connection =>
    obtain ⟨⟨done, stored, after⟩, store, made⟩ := Option.map_eq_some_iff.mp ok
    cases made
    exact storeLineWidened store
  | undoLine i =>
    obtain ⟨widened, closed⟩ := undoLineWidened ok
    exact ⟨widened, .inl closed⟩
  | appendRows rows =>
    obtain ⟨after, append, made⟩ := Option.map_eq_some_iff.mp ok
    cases made
    obtain ⟨widened, same⟩ := appendRowsWidened append
    exact ⟨widened, .inr same⟩

structure Tracks (t : Opened nCols) (s : sqlTable nCols) (r : Roster) : Prop where
  sound : r.Sound t.nRows
  fetched : r.fetched = (List.range (s.fetchedRows t)).map s.lineIndex
  deleted : s.rowsDeleted = r.deleted.length
  added : s.rowsAdded = r.added.length

theorem Tracks.fetchedLength (tracks : Tracks t s r) : r.fetched.length = s.fetchedRows t := by
  rw [tracks.fetched, List.length_map, List.length_range]

theorem Tracks.deletedFits (tracks : Tracks t s r) : s.rowsDeleted ≤ t.nRows := by
  have whole := tracks.sound.exact.length_eq
  rw [List.length_append, List.length_range] at whole
  rw [tracks.deleted]
  omega

theorem Tracks.idsLength (tracks : Tracks t s r) : r.ids.length = s.numberRows t := by
  have fits := tracks.deletedFits
  rw [r.idsLength, tracks.fetchedLength, ← tracks.added, numberRows, fetchedRows]
  omega

theorem createTracks (t : Opened nCols) :
    Tracks t (create t) (.opened t.nRows (create t).rowsAdded) where
  sound := Roster.openedSound ..
  fetched := (List.map_id _).symm
  deleted := rfl
  added := List.length_range.symm

theorem Tracks.widened (tracks : Tracks t s r) (widened : Widened s next) :
    Tracks t next (r.append (next.rowsAdded - s.rowsAdded)) where
  sound := Roster.appendSound tracks.sound _
  fetched := by
    rw [fetchedRows, widened.rowsDeleted, widened.lineIndex]
    exact tracks.fetched
  deleted := widened.rowsDeleted.trans tracks.deleted
  added := by
    have grown := widened.rowsAdded
    rw [Roster.append, List.length_append, List.length_range', ← tracks.added]
    omega

theorem Tracks.still (tracks : Tracks t s r) (still : Still s next) : Tracks t next r where
  sound := tracks.sound
  fetched := by
    rw [still.fetchedRows, still.lineIndex]
    exact tracks.fetched
  deleted := still.rowsDeleted.trans tracks.deleted
  added := still.rowsAdded.trans tracks.added

theorem eraseShifted {α : Type} (f : ℕ → α) {n pos : ℕ} (inside : pos < n + 1) :
    ((List.range (n + 1)).map f).eraseIdx pos =
      (List.range n).map fun i => f (if pos ≤ i ∧ i < n then i + 1 else i) := by
  apply List.ext_getElem?
  intro i
  rw [List.getElem?_eraseIdx]
  simp only [List.getElem?_map]
  by_cases within : i < n
  · by_cases before : i < pos
    · rw [if_pos before, List.getElem?_range (by omega), List.getElem?_range within]
      simp [Nat.not_le.mpr before]
    · rw [if_neg before, List.getElem?_range (by omega), List.getElem?_range within]
      simp [Nat.not_lt.mp before, within]
  · rw [List.getElem?_eq_none (show (List.range n).length ≤ i by simpa using within)]
    split
    · omega
    · rw [List.getElem?_eq_none (by simpa using within)]
      rfl

theorem removeFetchedTracks (tracks : Tracks t s r) (fetched : pos < s.fetchedRows t)
    (ok : s.removeLine t pos = some next) :
    Tracks t next (r.remove pos) ∧ next.rowsDeleted = s.rowsDeleted + 1 ∧
      next.rowsAdded = s.rowsAdded ∧ next.lastRow = s.lastRow ∧ next.savedLine = s.savedLine := by
  obtain ⟨left, rows⟩ : ∃ left, s.fetchedRows t = left + 1 := ⟨s.fetchedRows t - 1, by omega⟩
  have leftRows : t.nRows - (s.rowsDeleted + 1) = left := by
    rw [fetchedRows] at rows
    omega
  have inside : pos < r.fetched.length := tracks.fetchedLength.symm ▸ fetched
  have erased : (r.remove pos).fetched = (List.range left).map fun i =>
      s.lineIndex (if pos ≤ i ∧ i < left then i + 1 else i) := by
    rw [Roster.remove, dif_pos inside]
    change r.fetched.eraseIdx pos = _
    rw [tracks.fetched, rows]
    exact eraseShifted s.lineIndex (rows ▸ fetched)
  have counted : s.rowsDeleted + 1 = (r.remove pos).deleted.length := by
    rw [Roster.remove, dif_pos inside, List.length_cons, tracks.deleted]
  have kept : s.rowsAdded = (r.remove pos).added.length := by
    rw [Roster.remove, dif_pos inside]
    exact tracks.added
  rw [removeLine, if_pos fetched, Option.some.injEq] at ok
  simp only [fetchedRows, leftRows] at ok
  split at ok
  · cases ok
    refine ⟨⟨Roster.removeSound tracks.sound pos, ?_, counted, kept⟩, rfl, rfl, rfl, rfl⟩
    rw [erased, fetchedRows, leftRows]
  · rename_i last
    cases ok
    refine ⟨⟨Roster.removeSound tracks.sound pos, ?_, counted, kept⟩, rfl, rfl, rfl, rfl⟩
    rw [erased, fetchedRows, leftRows]
    refine List.map_congr_left fun i member => ?_
    have before := List.mem_range.mp member
    rw [if_neg (by omega)]

theorem removeAddedTracks (tracks : Tracks t s r) (added : ¬ pos < s.fetchedRows t)
    (inside : pos < s.numberRows t) (ok : s.removeLine t pos = some next) :
    Tracks t next (r.remove pos) ∧ next.rowsDeleted = s.rowsDeleted ∧
      next.rowsAdded + 1 = s.rowsAdded ∧ next.lastRow = s.lastRow ∧
      next.savedLine = s.savedLine := by
  have fits := tracks.deletedFits
  have within : pos - s.fetchedRows t < s.rowsAdded := by
    rw [numberRows] at inside
    rw [fetchedRows] at added ⊢
    omega
  have outside : ¬ pos < r.fetched.length := tracks.fetchedLength.symm ▸ added
  rw [removeLine, if_neg added] at ok
  simp only [Option.bind_eq_bind, Option.bind_eq_some_iff, Prod.exists, Option.some.injEq] at ok
  obtain ⟨line, got, asked, rfl⟩ := ok
  have still := getLineStill asked
  have removed : (r.remove pos).added.length + 1 = s.rowsAdded := by
    rw [Roster.remove, dif_neg outside, tracks.fetchedLength,
      List.length_eraseIdx_of_lt (tracks.added ▸ within), ← tracks.added]
    omega
  have after : ∀ last : sqlTable nCols, last.lineIndex = got.lineIndex →
      last.rowsDeleted = got.rowsDeleted → last.rowsAdded = got.rowsAdded →
      Tracks t last (r.remove pos) := by
    intro last index deleted count
    refine ⟨Roster.removeSound tracks.sound pos, ?_, ?_, ?_⟩
    · rw [Roster.remove, dif_neg outside, fetchedRows, deleted, index, still.rowsDeleted,
        still.lineIndex]
      exact tracks.fetched
    · rw [Roster.remove, dif_neg outside, deleted, still.rowsDeleted]
      exact tracks.deleted
    · rw [count, still.rowsAdded]
      simp only
      omega
  have counted : got.rowsAdded + 1 = s.rowsAdded := by
    rw [still.rowsAdded]
    simp only
    omega
  split
  · exact ⟨after _ rfl rfl rfl, still.rowsDeleted, counted, still.lastRow, still.savedLine⟩
  · exact ⟨after _ rfl rfl rfl, still.rowsDeleted, counted, still.lastRow, still.savedLine⟩

theorem removeLineTracks (tracks : Tracks t s r) (inside : pos < s.numberRows t)
    (ok : s.removeLine t pos = some next) :
    Tracks t next (r.remove pos) ∧ next.lastRow = s.lastRow ∧ next.savedLine = s.savedLine ∧
      next.numberRows t + 1 = s.numberRows t := by
  have fits := tracks.deletedFits
  by_cases fetched : pos < s.fetchedRows t
  · obtain ⟨after, deleted, added, last, saved⟩ := removeFetchedTracks tracks fetched ok
    refine ⟨after, last, saved, ?_⟩
    rw [fetchedRows] at fetched
    rw [numberRows, numberRows, deleted, added]
    omega
  · obtain ⟨after, deleted, added, last, saved⟩ := removeAddedTracks tracks fetched inside ok
    refine ⟨after, last, saved, ?_⟩
    rw [numberRows, numberRows, deleted]
    omega

section Lines

variable {old : cacheLine nCols} {i : ℕ}

theorem getLineHere (ok : s.GetLine t pos = some (line, next)) : next.line? t pos = some line := by
  have rows := (getLineStill ok).fetchedRows (t := t)
  have index := (getLineStill ok).lineIndex
  unfold GetLine at ok
  rw [line?, rows]
  split at ok
  · rename_i fetched
    obtain ⟨⟨_, pool⟩, got, made⟩ := Option.map_eq_some_iff.mp ok
    cases made
    rw [if_pos fetched]
    exact (cacheLinePool.getSpec got).1
  · rename_i added
    obtain ⟨⟨_, pool⟩, got, made⟩ := Option.map_eq_some_iff.mp ok
    cases made
    rw [if_neg added]
    exact (cacheLinePool.getSpec got).1

theorem putLineHere (present : s.line? t pos = some old) (line : cacheLine nCols) :
    (s.putLine t pos line).line? t pos = some line := by
  rw [line?, (putLineStill s pos line).fetchedRows]
  rw [line?] at present
  unfold putLine
  split
  · rename_i fetched
    rw [if_pos fetched] at present
    simp [cacheLinePool.putLine present]
  · rename_i added
    rw [if_neg added] at present
    simp [cacheLinePool.putLine present]

/- No two fetched rows share a slot. -/
def Distinct (t : Opened nCols) (s : sqlTable nCols) : Prop :=
  ∀ row < s.fetchedRows t, ∀ other < s.fetchedRows t,
    s.lineIndex row = s.lineIndex other → row = other

theorem Tracks.distinct (tracks : Tracks t s r) : Distinct t s := by
  have sorted := tracks.sound.order
  rw [tracks.fetched, List.pairwise_map] at sorted
  have increasing : ∀ row < s.fetchedRows t, ∀ other < row, s.lineIndex other < s.lineIndex row := by
    intro row inside other before
    have pair := List.pairwise_iff_getElem.mp sorted other row (by simp; omega) (by simpa) before
    simpa using pair
  intro row inside other insideToo same
  rcases lt_trichotomy row other with before | equal | after
  · exact absurd same (increasing other insideToo row before).ne
  · exact equal
  · exact absurd same.symm (increasing row inside other after).ne

theorem Distinct.still (distinct : Distinct t s) (still : Still s next) : Distinct t next := by
  unfold Distinct
  rw [still.fetchedRows, still.lineIndex]
  exact distinct

theorem getLineOthers (distinct : Distinct t s) (ok : s.GetLine t pos = some (line, next))
    (differs : i ≠ pos) : next.line? t i = s.line? t i := by
  have rows := (getLineStill ok).fetchedRows (t := t)
  unfold GetLine at ok
  rw [line?, line?, rows]
  split at ok
  · rename_i fetched
    obtain ⟨⟨_, pool⟩, got, made⟩ := Option.map_eq_some_iff.mp ok
    cases made
    split
    · rename_i fetchedToo
      exact (cacheLinePool.getSpec got).2.1 _ fun same =>
        differs (distinct i fetchedToo pos fetched same)
    · rfl
  · obtain ⟨⟨_, pool⟩, got, made⟩ := Option.map_eq_some_iff.mp ok
    cases made
    split
    · rfl
    · exact (cacheLinePool.getSpec got).2.1 _ (by omega)

theorem putLineOthers (distinct : Distinct t s) (line : cacheLine nCols) (differs : i ≠ pos) :
    (s.putLine t pos line).line? t i = s.line? t i := by
  rw [line?, line?, (putLineStill s pos line).fetchedRows]
  unfold putLine
  split
  · rename_i fetched
    split
    · rename_i fetchedToo
      exact cacheLinePool.putOther _ _ fun same =>
        differs (distinct i fetched pos fetchedToo same)
    · rfl
  · rename_i added
    split
    · rfl
    · exact cacheLinePool.putOther _ _ (by omega)

theorem showCellOthers {col : Fin nCols} {text : Text} (distinct : Distinct t s)
    (ok : s.showCell t pos col = some (text, next)) (differs : i ≠ pos) :
    next.line? t i = s.line? t i := by
  simp only [showCell, Option.bind_eq_bind, Option.bind_eq_some_iff, Prod.exists,
    Option.some.injEq, Prod.mk.injEq] at ok
  obtain ⟨l, got, asked, c, filled, rfl, rfl⟩ := ok
  exact (putLineOthers (distinct.still (getLineStill asked)) _ differs).trans
    (getLineOthers distinct asked differs)

theorem getValueOthers {col : Fin nCols} {text : Text} (distinct : Distinct t s)
    (ok : s.GetValue t pos col = some (text, next)) (differs : i ≠ pos) :
    next.line? t i = s.line? t i := by
  simp only [GetValue, Option.bind_eq_bind, Option.bind_eq_some_iff, Prod.exists] at ok
  obtain ⟨l, got, asked, shown⟩ := ok
  have gotDistinct := distinct.still (getLineStill asked)
  refine Eq.trans ?_ (getLineOthers distinct asked differs)
  split at shown
  · exact showCellOthers gotDistinct shown differs
  split at shown
  · split at shown
    · have loaded : (got.load t pos l).2.line? t i = got.line? t i :=
        putLineOthers gotDistinct _ differs
      exact (showCellOthers (gotDistinct.still (loadStill ..)) shown differs).trans loaded
    · cases shown
      exact putLineOthers gotDistinct _ differs
  · exact (showCellOthers (gotDistinct.still (putLineStill ..)) shown differs).trans
      (putLineOthers gotDistinct _ differs)

theorem lineToDeleteOthers (distinct : Distinct t s)
    (ok : s.lineToDelete t pos = some (line, next)) (differs : i ≠ pos) :
    next.line? t i = s.line? t i := by
  simp only [lineToDelete, Option.bind_eq_bind, Option.bind_eq_some_iff, Prod.exists] at ok
  obtain ⟨l, got, asked, rest⟩ := ok
  have gotDistinct := distinct.still (getLineStill asked)
  refine Eq.trans ?_ (getLineOthers distinct asked differs)
  split at rest
  · cases rest
    rfl
  · simp only [Option.bind_eq_some_iff, Prod.exists] at rest
    obtain ⟨col, -, text, shown, value, again⟩ := rest
    exact (getLineOthers (gotDistinct.still (getValueStill value)) again differs).trans
      (getValueOthers gotDistinct value differs)

/- The rows are fetched ones up to `left`, both before and after. -/
theorem removeFetchedIndex (fetched : pos < s.fetchedRows t) (ok : s.removeLine t pos = some next) :
    ∃ left, s.fetchedRows t = left + 1 ∧ next.fetchedRows t = left ∧ next.dataPool = s.dataPool ∧
      next.addPool = s.addPool ∧
      ∀ i < left, next.lineIndex i = s.lineIndex (if i < pos then i else i + 1) := by
  obtain ⟨left, rows⟩ : ∃ left, s.fetchedRows t = left + 1 := ⟨s.fetchedRows t - 1, by omega⟩
  have leftRows : t.nRows - (s.rowsDeleted + 1) = left := by
    rw [fetchedRows] at rows
    omega
  rw [removeLine, if_pos fetched, Option.some.injEq] at ok
  simp only [fetchedRows, leftRows] at ok
  split at ok
  · cases ok
    refine ⟨left, rows, leftRows, rfl, rfl, fun i within => ?_⟩
    by_cases before : i < pos
    · simp [before, Nat.not_le.mpr before]
    · simp [before, Nat.not_lt.mp before, within]
  · cases ok
    refine ⟨left, rows, leftRows, rfl, rfl, fun i within => ?_⟩
    rw [if_pos (show i < pos by omega)]

theorem removeFetchedLines (fetched : pos < s.fetchedRows t)
    (ok : s.removeLine t pos = some next) (i : ℕ) :
    next.line? t i = s.line? t (if i < pos then i else i + 1) := by
  obtain ⟨left, rows, leftRows, data, added, index⟩ := removeFetchedIndex fetched ok
  rw [line?, line?, rows, leftRows]
  by_cases within : i < left
  · have fetchedBefore : (if i < pos then i else i + 1) < left + 1 := by
      split <;> omega
    rw [if_pos within, data, index i within, if_pos fetchedBefore]
  · rw [if_neg within, added, if_neg (show ¬ i < pos by omega),
      if_neg (show ¬ i + 1 < left + 1 by omega), Nat.add_sub_add_right]

theorem removeAddedLines (added : ¬ pos < s.fetchedRows t) (ok : s.removeLine t pos = some next)
    (distinct : Distinct t s) (i : ℕ) :
    next.line? t i = s.line? t (if i < pos then i else i + 1) := by
  rw [removeLine, if_neg added] at ok
  simp only [Option.bind_eq_bind, Option.bind_eq_some_iff, Prod.exists, Option.some.injEq] at ok
  obtain ⟨line, got, asked, made⟩ := ok
  have rows : got.fetchedRows t = s.fetchedRows t := (getLineStill asked).fetchedRows
  have here := getLineHere asked
  rw [line?, rows, if_neg added] at here
  have inside := cacheLinePool.lineInside here
  have pools : next.dataPool = got.dataPool ∧ next.lineIndex = got.lineIndex ∧
      next.fetchedRows t = s.fetchedRows t ∧
      next.addPool = got.addPool.Delete (pos - s.fetchedRows t) := by
    split at made
    · cases made
      exact ⟨rfl, rfl, rows, congrArg (fun n => got.addPool.Delete (pos - n)) rows⟩
    · cases made
      exact ⟨rfl, rfl, rows, congrArg (fun n => got.addPool.Delete (pos - n)) rows⟩
  have moved : next.line? t i = got.line? t (if i < pos then i else i + 1) := by
    rw [line?, line?, rows, pools.2.2.1]
    by_cases fetched : i < s.fetchedRows t
    · rw [if_pos fetched, if_pos (show i < pos by omega), if_pos fetched, pools.1, pools.2.1]
    · rw [if_neg fetched, pools.2.2.2, cacheLinePool.deleteLine inside]
      by_cases before : i < pos
      · rw [if_pos before, if_neg fetched, if_pos (by omega)]
      · rw [if_neg before, if_neg (by omega), if_neg (by omega)]
        congr 1
        omega
  let counted : sqlTable nCols := { s with rowsAdded := s.rowsAdded - 1 }
  have apart : (if i < pos then i else i + 1) ≠ pos := by
    split <;> omega
  have others := getLineOthers (s := counted) distinct asked apart
  rw [moved, others]
  rfl

theorem removeLineLines (distinct : Distinct t s) (ok : s.removeLine t pos = some next) (i : ℕ) :
    next.line? t i = s.line? t (if i < pos then i else i + 1) := by
  by_cases fetched : pos < s.fetchedRows t
  · exact removeFetchedLines fetched ok i
  · exact removeAddedLines fetched ok distinct i

end Lines

end sqlTable

end PgAdmin.frmEditGrid
