import PgAdmin.SqlTableRuns

/-! The row being edited is a position, lastRow, and DeleteRows does not adjust it. So a pending
edit stays with its row in every run in which nothing is deleted at or before it; where something
is, the edit is pending on another row, or on none. The key of its UPDATE is made from savedLine. -/
namespace PgAdmin.frmEditGrid
open PgsObjects (Text)
open PendingEdit (Event overwrite)

variable {nCols : ℕ} {t : Opened nCols}

namespace sqlTable

variable {s mid next : sqlTable nCols} {line old : cacheLine nCols} {pos rows rowsDone done : ℕ}
  {executeVoid : ℕ → Option (Key nCols) → Bool} {r : Roster}

theorem lineToDeleteHere (ok : s.lineToDelete t pos = some (line, next)) :
    next.line? t pos = some line := by
  simp only [lineToDelete, Option.bind_eq_bind, Option.bind_eq_some_iff, Prod.exists] at ok
  obtain ⟨l, got, asked, rest⟩ := ok
  split at rest
  · cases rest
    exact getLineHere asked
  · simp only [Option.bind_eq_some_iff, Prod.exists] at rest
    obtain ⟨col, -, text, shown, -, again⟩ := rest
    exact getLineHere again

theorem deleteLoopMore
    (ok : s.deleteLoop t executeVoid pos rows rowsDone = some (done, next)) : rowsDone ≤ done := by
  induction rows generalizing s rowsDone with
  | zero =>
    cases ok
    exact le_rfl
  | succ rows ih =>
    simp only [deleteLoop, Option.bind_eq_bind, Option.bind_eq_some_iff, Prod.exists] at ok
    obtain ⟨line, mid, -, cells, -, rest⟩ := ok
    split at rest
    · split at rest
      · obtain ⟨left, -, rest⟩ := Option.bind_eq_some_iff.mp rest
        exact Nat.le_of_succ_le (ih rest)
      · cases rest
        exact le_rfl
    · exact ih rest

theorem deleteLoopStuck (present : s.line? t pos = some line) (filled : line.cols.isSome)
    (unstored : line.stored = false)
    (ok : s.deleteLoop t executeVoid pos rows rowsDone = some (done, next)) : done = rowsDone := by
  induction rows generalizing s line with
  | zero =>
    cases ok
    rfl
  | succ rows ih =>
    have found : s.lineToDelete t pos = some (line, s) := by
      simp [lineToDelete, getLineFound present, filled]
    simp only [deleteLoop, found, Option.bind_eq_bind, Option.bind_some, unstored,
      Bool.false_eq_true, if_false, Option.bind_eq_some_iff] at ok
    obtain ⟨cells, -, rest⟩ := ok
    let cleared : cacheLine nCols := { line with cols := some blankCells, stored := false }
    exact ih (putLineHere present cleared) rfl rfl rest

/- The first DELETE is sent and succeeds. -/
def DeletesFirst (t : Opened nCols) (s : sqlTable nCols) (pos rows : ℕ)
    (executeVoid : ℕ → Option (Key nCols) → Bool) : Prop :=
  0 < rows ∧ ∃ line mid cells, s.lineToDelete t pos = some (line, mid) ∧
    line.cols = some cells ∧ line.stored = true ∧ executeVoid 0 (t.MakeKey cells) = true

theorem deletesIff (ok : s.DeleteRows t pos rows executeVoid = some (done, next)) :
    0 < done ↔ DeletesFirst t s pos rows executeVoid := by
  cases rows with
  | zero =>
    cases ok
    simp [DeletesFirst]
  | succ rows =>
    simp only [DeleteRows, deleteLoop, Option.bind_eq_bind, Option.bind_eq_some_iff,
      Prod.exists] at ok
    obtain ⟨line, mid, found, cells, filled, rest⟩ := ok
    have first : DeletesFirst t s pos (rows + 1) executeVoid ↔
        line.stored = true ∧ executeVoid 0 (t.MakeKey cells) = true := by
      constructor
      · rintro ⟨-, l, m, c, same, has, stored, sent⟩
        cases found.symm.trans same
        cases filled.symm.trans has
        exact ⟨stored, sent⟩
      · rintro ⟨stored, sent⟩
        exact ⟨Nat.succ_pos rows, line, mid, cells, found, filled, stored, sent⟩
    rw [first]
    split at rest
    · rename_i stored
      split at rest
      · rename_i sent
        obtain ⟨left, -, rest⟩ := Option.bind_eq_some_iff.mp rest
        exact iff_of_true (deleteLoopMore rest) ⟨stored, sent⟩
      · rename_i refused
        cases rest
        exact iff_of_false (lt_irrefl 0) fun both => refused both.2
    · rename_i unstored
      let cleared : cacheLine nCols := { line with cols := some blankCells }
      have none := deleteLoopStuck (putLineHere (lineToDeleteHere found) cleared) rfl
        (Bool.eq_false_iff.mpr unstored) rest
      exact iff_of_false (by omega) fun both => unstored both.1

theorem deleteLoopTracks (tracks : Tracks t s r) (inside : pos + rows ≤ s.numberRows t)
    (ok : s.deleteLoop t executeVoid pos rows rowsDone = some (done, next)) :
    Tracks t next (r.removeMany pos (done - rowsDone)) ∧ next.lastRow = s.lastRow ∧
      next.savedLine = s.savedLine := by
  induction rows generalizing s r rowsDone with
  | zero =>
    cases ok
    rw [Nat.sub_self]
    exact ⟨tracks, rfl, rfl⟩
  | succ rows ih =>
    simp only [deleteLoop, Option.bind_eq_bind, Option.bind_eq_some_iff, Prod.exists] at ok
    obtain ⟨line, mid, found, cells, -, rest⟩ := ok
    have still := lineToDeleteStill found
    have midTracks := tracks.still still
    rw [← still.numberRows] at inside
    split at rest
    · split at rest
      · obtain ⟨left, removed, rest⟩ := Option.bind_eq_some_iff.mp rest
        obtain ⟨leftTracks, last, saved, count⟩ :=
          removeLineTracks midTracks (by omega) removed
        obtain ⟨after, lastAfter, savedAfter⟩ := ih leftTracks (by omega) rest
        have more := deleteLoopMore rest
        have steps : done - rowsDone = done - (rowsDone + 1) + 1 := by omega
        rw [steps]
        exact ⟨after, (lastAfter.trans last).trans still.lastRow,
          (savedAfter.trans saved).trans still.savedLine⟩
      · cases rest
        rw [Nat.sub_self]
        exact ⟨midTracks, still.lastRow, still.savedLine⟩
    · have put := putLineStill (t := t) mid pos { line with cols := some blankCells }
      rw [← put.numberRows] at inside
      obtain ⟨after, last, saved⟩ := ih (midTracks.still put) (by omega) rest
      have whole := still.trans put
      exact ⟨after, last.trans whole.lastRow, saved.trans whole.savedLine⟩

theorem deleteLoopLines (tracks : Tracks t s r) (inside : pos + rows ≤ s.numberRows t)
    (ok : s.deleteLoop t executeVoid pos rows rowsDone = some (done, next)) {i : ℕ}
    (differs : i ≠ pos) :
    next.line? t i = s.line? t (if i < pos then i else i + (done - rowsDone)) := by
  induction rows generalizing s r rowsDone with
  | zero =>
    cases ok
    rw [Nat.sub_self, Nat.add_zero, ite_self]
  | succ rows ih =>
    simp only [deleteLoop, Option.bind_eq_bind, Option.bind_eq_some_iff, Prod.exists] at ok
    obtain ⟨line, mid, found, cells, -, rest⟩ := ok
    have still := lineToDeleteStill found
    have midTracks := tracks.still still
    rw [← still.numberRows] at inside
    split at rest
    · split at rest
      · obtain ⟨left, removed, rest⟩ := Option.bind_eq_some_iff.mp rest
        obtain ⟨leftTracks, -, -, count⟩ := removeLineTracks midTracks (by omega) removed
        have more := deleteLoopMore rest
        have apart : (if i < pos then i else i + (done - rowsDone)) ≠ pos := by
          split <;> omega
        rw [ih leftTracks (by omega) rest, removeLineLines midTracks.distinct removed,
          ← lineToDeleteOthers tracks.distinct found apart]
        congr 1
        by_cases before : i < pos
        · simp only [if_pos before]
        · simp only [if_neg before]
          rw [if_neg (by omega)]
          omega
      · cases rest
        rw [Nat.sub_self, Nat.add_zero, ite_self]
        exact lineToDeleteOthers tracks.distinct found differs
    · let cleared : cacheLine nCols := { line with cols := some blankCells }
      have put := putLineStill (t := t) mid pos cleared
      rw [← put.numberRows] at inside
      have apart : (if i < pos then i else i + (done - rowsDone)) ≠ pos := by
        split <;> omega
      rw [ih (midTracks.still put) (by omega) rest, putLineOthers midTracks.distinct cleared apart,
        lineToDeleteOthers tracks.distinct found apart]

inductive GridOp (nCols : ℕ) where
  | edit (op : Op nCols)
  | deleteRows (pos rows : ℕ) (executeVoid : ℕ → Option (Key nCols) → Bool)

def Op.Inside (t : Opened nCols) (s : sqlTable nCols) : Op nCols → Prop
  | .getValue row _ => row < s.numberRows t
  | .setValue row _ _ _ => row < s.numberRows t
  | .undoLine row => row < s.numberRows t
  | _ => True

def GridOp.Inside (t : Opened nCols) (s : sqlTable nCols) : GridOp nCols → Prop
  | .edit op => op.Inside t s
  | .deleteRows pos rows _ => pos + rows ≤ s.numberRows t

def gridStep (t : Opened nCols) (s : sqlTable nCols) : GridOp nCols → Option (ℕ × sqlTable nCols)
  | .edit op => (s.step t op).map fun (_, s) => (0, s)
  | .deleteRows pos rows executeVoid => s.DeleteRows t pos rows executeVoid

/- The identities of the rows, and that of the row with the pending edit. -/
structure Ghost where
  roster : Roster
  editing : Option RowId

/- Rows are added at the end and removed where they were deleted. A row is edited from the first
value that is set on it until its line is stored or undone, or the row itself is deleted. -/
def Ghost.after (g : Ghost) (s next : sqlTable nCols) (rowsDone : ℕ) : GridOp nCols → Ghost
  | .edit op =>
    { roster := g.roster.append (next.rowsAdded - s.rowsAdded)
      editing := match op with
        | .setValue row _ _ _ => if s.lastRow = some row then g.editing else g.roster.ids[row]?
        | _ => if next.lastRow = none then none else g.editing }
  | .deleteRows pos _ _ =>
    let roster := g.roster.removeMany pos rowsDone
    { roster, editing := g.editing.filter (· ∈ roster.ids) }

def Ghost.opened (t : Opened nCols) : Ghost where
  roster := .opened t.nRows (create t).rowsAdded
  editing := none

inductive GridRun (t : Opened nCols) (allowed : sqlTable nCols → GridOp nCols → Prop) :
    sqlTable nCols → Ghost → Prop where
  | opened : GridRun t allowed (create t) (.opened t)
  | step {s next : sqlTable nCols} {g : Ghost} {rowsDone : ℕ} (before : GridRun t allowed s g)
      (op : GridOp nCols) (inside : op.Inside t s) (allows : allowed s op)
      (ok : s.gridStep t op = some (rowsDone, next)) :
      GridRun t allowed next (g.after s next rowsDone op)

/- The edit is pending on the position of its row. -/
def Follows (s : sqlTable nCols) (g : Ghost) : Prop :=
  match g.editing with
  | none => s.lastRow = none
  | some id => ∃ row, s.lastRow = some row ∧ g.roster.ids[row]? = some id

/- Nothing is deleted at or before the row being edited. -/
def Apart (t : Opened nCols) (s : sqlTable nCols) : GridOp nCols → Prop
  | .edit _ => True
  | .deleteRows pos rows executeVoid =>
    ∀ last, s.lastRow = some last → last < pos ∨ ¬ DeletesFirst t s pos rows executeVoid

theorem gridStepTracks {g : Ghost} {op : GridOp nCols} (tracks : Tracks t s g.roster)
    (inside : op.Inside t s) (ok : s.gridStep t op = some (done, next)) :
    Tracks t next (g.after s next done op).roster := by
  cases op with
  | edit op =>
    obtain ⟨⟨events, after⟩, made, same⟩ := Option.map_eq_some_iff.mp ok
    cases same
    exact tracks.widened (stepWidened made).1
  | deleteRows pos rows executeVoid =>
    exact (deleteLoopTracks tracks inside ok).1

theorem gridRunTracks {allowed : sqlTable nCols → GridOp nCols → Prop} {g : Ghost}
    (run : GridRun t allowed s g) : Tracks t s g.roster := by
  induction run with
  | opened => exact createTracks t
  | step before op inside allows ok ih => exact gridStepTracks ih inside ok

theorem Follows.last {g : Ghost} (follows : Follows s g) {row : ℕ} (last : s.lastRow = some row) :
    ∃ id, g.editing = some id ∧ g.roster.ids[row]? = some id := by
  unfold Follows at follows
  split at follows
  · exact nomatch last.symm.trans follows
  · rename_i id editing
    obtain ⟨i, here, found⟩ := follows
    cases here.symm.trans last
    exact ⟨id, editing, found⟩

theorem appendFound {id : RowId} {row : ℕ} (found : r.ids[row]? = some id) (count : ℕ) :
    (r.append count).ids[row]? = some id := by
  have inside := (List.getElem?_eq_some_iff.mp found).1
  rw [Roster.appendIds, List.getElem?_append_left inside, found]

theorem editFollows {g : Ghost} {op : Op nCols} {events : List (RowEvent nCols)}
    (tracks : Tracks t s g.roster) (follows : Follows s g) (inside : op.Inside t s)
    (ok : s.step t op = some (events, next)) : Follows next (g.after s next 0 (.edit op)) := by
  obtain ⟨-, last⟩ := stepWidened ok
  -- an operation that sets no value keeps the edit or ends it
  have kept (ends : next.lastRow = none ∨ next.lastRow = s.lastRow) : Follows next
      { roster := g.roster.append (next.rowsAdded - s.rowsAdded)
        editing := if next.lastRow = none then none else g.editing } := by
    cases here : next.lastRow with
    | none => exact here
    | some row =>
      have before : s.lastRow = some row := by
        rcases ends with none | same
        · exact nomatch none.symm.trans here
        · exact same.symm.trans here
      obtain ⟨id, editing, found⟩ := follows.last before
      rw [if_neg (by simp), editing]
      exact ⟨row, here, appendFound found _⟩
  cases op with
  | setValue row col value connection =>
    obtain ⟨id, found⟩ : ∃ id, g.roster.ids[row]? = some id := by
      have within : row < g.roster.ids.length := tracks.idsLength.symm ▸ inside
      exact ⟨_, List.getElem?_eq_getElem within⟩
    have editing : (if s.lastRow = some row then g.editing else g.roster.ids[row]?) = some id := by
      split
      · rename_i same
        obtain ⟨other, editing, also⟩ := follows.last same
        rw [editing, ← also, found]
      · exact found
    simp only [Ghost.after, editing]
    exact ⟨row, last, appendFound found _⟩
  | getValue row col => exact kept last
  | storeLine connection => exact kept last
  | undoLine row => exact kept last
  | appendRows rows => exact kept last

theorem deleteFollows {g : Ghost} (tracks : Tracks t s g.roster) (follows : Follows s g)
    (inside : pos + rows ≤ s.numberRows t)
    (ok : s.DeleteRows t pos rows executeVoid = some (done, next)) :
    Follows next (g.after s next done (.deleteRows pos rows executeVoid)) ↔
      Apart t s (.deleteRows pos rows executeVoid) := by
  have last := (deleteLoopTracks tracks inside ok).2.1
  have nodup := Roster.idsNodup tracks.sound
  cases here : s.lastRow with
  | none =>
    have none : g.editing = none := by
      unfold Follows at follows
      split at follows
      · assumption
      · obtain ⟨row, other, -⟩ := follows
        exact nomatch here.symm.trans other
    refine iff_of_true ?_ fun row other => nomatch here.symm.trans other
    simp only [Ghost.after, none, Option.filter_none]
    exact last.trans here
  | some row =>
    obtain ⟨id, editing, found⟩ := follows.last here
    have apart : Apart t s (.deleteRows pos rows executeVoid) ↔ row < pos ∨ done = 0 := by
      simp only [Apart, here, Option.some.injEq, forall_eq', ← deletesIff ok, Nat.not_lt,
        Nat.le_zero]
    have moved := g.roster.removeManyIds pos done row
    rw [apart]
    constructor
    · intro after
      obtain ⟨other, kept, foundAfter⟩ := after.last (last.trans here)
      have same : id = other := by
        simp only [Ghost.after, editing, Option.filter_eq_some_iff] at kept
        exact Option.some.inj kept.1
      subst same
      have equal := (List.getElem?_inj (List.getElem?_eq_some_iff.mp found).1 nodup).mp
        (found.trans (foundAfter.symm.trans moved))
      split at equal
      · rename_i before
        exact .inl before
      · exact .inr (by omega)
    · intro kept
      have stays : (g.roster.removeMany pos done).ids[row]? = some id := by
        rw [moved, ← found]
        congr 1
        rcases kept with before | none
        · exact if_pos before
        · simp [none]
      have member := List.mem_of_getElem? stays
      have filtered : (some id).filter (· ∈ (g.roster.removeMany pos done).ids) = some id := by
        simp [Option.filter, member]
      simp only [Ghost.after, editing, filtered]
      exact ⟨row, last.trans here, stays⟩

theorem gridRunFollows {g : Ghost} (run : GridRun t (Apart t) s g) : Follows s g := by
  induction run with
  | opened => rfl
  | @step s next g done before op inside allows ok ih =>
    have tracks := gridRunTracks before
    cases op with
    | edit op =>
      obtain ⟨⟨events, after⟩, made, same⟩ := Option.map_eq_some_iff.mp ok
      cases same
      exact editFollows tracks ih inside made
    | deleteRows pos rows executeVoid => exact (deleteFollows tracks ih inside ok).mpr allows

def GridOp.Safe (t : Opened nCols) (s : sqlTable nCols) : GridOp nCols → Prop
  | .edit op => op.Safe t s
  | .deleteRows .. => 0 < nCols

theorem gridStepSafe {g : Ghost} {op : GridOp nCols} (tracks : Tracks t s g.roster) (room : Room t s)
    (inside : op.Inside t s) (safe : op.Safe t s) :
    ∃ done next, s.gridStep t op = some (done, next) ∧ Room t next := by
  cases op with
  | edit op =>
    obtain ⟨events, next, ok, after⟩ := stepSafe room tracks.distinct safe
    exact ⟨0, next, by rw [gridStep, ok]; rfl, after⟩
  | deleteRows pos rows executeVoid => exact deleteLoopSafe tracks room inside safe

theorem gridRunRoom {allowed : sqlTable nCols → GridOp nCols → Prop} {g : Ghost}
    (safe : ∀ s op, allowed s op → op.Safe t s) (run : GridRun t allowed s g) : Room t s := by
  induction run with
  | opened => exact createRoom t
  | step before op inside allows ok ih =>
    obtain ⟨done, after, made, room⟩ := gridStepSafe (gridRunTracks before) ih inside (safe _ _ allows)
    cases made.symm.trans ok
    exact room

section LineAt

variable {i : ℕ}

/- The line that GetLine gives for the row. -/
def lineAt (t : Opened nCols) (s : sqlTable nCols) (row : ℕ) : cacheLine nCols :=
  (s.line? t row).getD .blank

theorem getLineAt (distinct : Distinct t s) (ok : s.GetLine t pos = some (line, next)) :
    line = s.lineAt t pos ∧ next.lineAt t = s.lineAt t := by
  have here : line = s.lineAt t pos := by
    rcases getLineBefore ok with present | ⟨absent, rfl⟩
    · rw [lineAt, present, Option.getD_some]
    · rw [lineAt, absent, Option.getD_none]
  refine ⟨here, funext fun i => ?_⟩
  by_cases same : i = pos
  · subst same
    rw [← here, lineAt, getLineHere ok, Option.getD_some]
  · rw [lineAt, getLineOthers distinct ok same, lineAt]

theorem putLineAt (distinct : Distinct t s) (present : s.line? t pos = some old) (line : cacheLine nCols) :
    (s.putLine t pos line).lineAt t = Function.update (s.lineAt t) pos line := by
  funext i
  by_cases same : i = pos
  · subst same
    rw [lineAt, putLineHere present, Function.update_self, Option.getD_some]
  · rw [lineAt, putLineOthers distinct line same, Function.update_of_ne same, lineAt]

theorem appendRowsAt (distinct : Distinct t s) (ok : s.AppendRows t rows = some next) :
    next.lineAt t = s.lineAt t := by
  simp only [AppendRows, bind, Option.bind] at ok
  split at ok
  · contradiction
  split at ok
  · contradiction
  · rename_i made
    cases Option.some.inj ok
    exact (getLineAt (s := { s with rowsAdded := s.rowsAdded + rows }) distinct made).2

theorem countStoredAt (distinct : Distinct t s) (ok : s.countStored t = some next) :
    next.lineAt t = s.lineAt t ∧ Distinct t next := by
  unfold countStored at ok
  simp only at ok
  split at ok
  · refine ⟨appendRowsAt (s := { s with rowsStored := s.rowsStored + 1 }) distinct ok, ?_⟩
    have widened := (appendRowsWidened ok).1
    intro row fetched other also same
    rw [fetchedRows, widened.rowsDeleted] at fetched also
    rw [widened.lineIndex] at same
    exact distinct row fetched other also same
  · cases Option.some.inj ok
    exact ⟨rfl, distinct⟩

def Stays (t : Opened nCols) (s next : sqlTable nCols) : Prop :=
  ∀ i, (s.lineAt t i).cols.isSome →
    (next.lineAt t i).cols.isSome ∧ (next.lineAt t i).stored = (s.lineAt t i).stored

theorem Stays.trans (first : Stays t s mid) (second : Stays t mid next) : Stays t s next := by
  intro i filled
  obtain ⟨has, stored⟩ := first i filled
  obtain ⟨last, same⟩ := second i has
  exact ⟨last, same.trans stored⟩

theorem staysSame (same : next.lineAt t = s.lineAt t) : Stays t s next := by
  intro i filled
  rw [same]
  exact ⟨filled, rfl⟩

theorem putLineStays (distinct : Distinct t s) (present : s.line? t pos = some old) (line : cacheLine nCols)
    (filled : line.cols.isSome) (stored : old.cols.isSome → line.stored = old.stored) :
    Stays t s (s.putLine t pos line) := by
  intro i has
  rw [putLineAt distinct present]
  by_cases same : i = pos
  · subst same
    rw [lineAt, present, Option.getD_some] at has ⊢
    rw [Function.update_self]
    exact ⟨filled, stored has⟩
  · rw [Function.update_of_ne same]
    exact ⟨has, rfl⟩

theorem showCellStays {col : Fin nCols} {text : Text} (distinct : Distinct t s)
    (ok : s.showCell t pos col = some (text, next)) : Stays t s next := by
  simp only [showCell, Option.bind_eq_bind, Option.bind_eq_some_iff, Prod.exists,
    Option.some.injEq, Prod.mk.injEq] at ok
  obtain ⟨l, got, asked, c, filled, rfl, rfl⟩ := ok
  exact (staysSame (getLineAt distinct asked).2).trans
    (putLineStays (distinct.still (getLineStill asked)) (getLineHere asked) _ rfl fun _ => rfl)

theorem getValueStays {col : Fin nCols} {text : Text} (distinct : Distinct t s)
    (ok : s.GetValue t pos col = some (text, next)) : Stays t s next := by
  simp only [GetValue, Option.bind_eq_bind, Option.bind_eq_some_iff, Prod.exists] at ok
  obtain ⟨l, got, asked, shown⟩ := ok
  have gotDistinct := distinct.still (getLineStill asked)
  have here := getLineHere asked
  refine (staysSame (getLineAt distinct asked).2).trans ?_
  split at shown
  · exact showCellStays gotDistinct shown
  rename_i empty
  split at shown
  · split at shown
    · have put := putLineStays gotDistinct here
        { l with cols := some (t.fetched (got.lineIndex pos)), stored := true } rfl
        (fun filled => by simp [empty] at filled)
      have loaded : Stays t got (got.load t pos l).2 := put
      have loadedDistinct : Distinct t (got.load t pos l).2 := gotDistinct.still (loadStill ..)
      exact loaded.trans (showCellStays loadedDistinct shown)
    · cases shown
      exact putLineStays gotDistinct here _ rfl fun _ => rfl
  · exact (putLineStays gotDistinct here { l with cols := some blankCells } rfl fun _ => rfl).trans
      (showCellStays (gotDistinct.still (putLineStill ..)) shown)

theorem lineToDeleteStays (distinct : Distinct t s) (ok : s.lineToDelete t pos = some (line, next)) :
    Stays t s next := by
  simp only [lineToDelete, Option.bind_eq_bind, Option.bind_eq_some_iff, Prod.exists] at ok
  obtain ⟨l, got, asked, rest⟩ := ok
  have gotDistinct := distinct.still (getLineStill asked)
  refine (staysSame (getLineAt distinct asked).2).trans ?_
  split at rest
  · cases rest
    exact staysSame rfl
  · simp only [Option.bind_eq_some_iff, Prod.exists] at rest
    obtain ⟨col, -, text, shown, value, again⟩ := rest
    exact (getValueStays gotDistinct value).trans
      (staysSame (getLineAt (gotDistinct.still (getValueStill value)) again).2)

theorem deleteLoopStays (distinct : Distinct t s)
    (ok : s.deleteLoop t executeVoid pos rows rowsDone = some (rowsDone, next)) : Stays t s next := by
  induction rows generalizing s with
  | zero =>
    cases ok
    exact staysSame rfl
  | succ rows ih =>
    simp only [deleteLoop, Option.bind_eq_bind, Option.bind_eq_some_iff, Prod.exists] at ok
    obtain ⟨line, mid, found, cells, filled, rest⟩ := ok
    have midDistinct := distinct.still (lineToDeleteStill found)
    refine (lineToDeleteStays distinct found).trans ?_
    split at rest
    · split at rest
      · obtain ⟨left, -, rest⟩ := Option.bind_eq_some_iff.mp rest
        have more := deleteLoopMore rest
        omega
      · cases rest
        exact staysSame rfl
    · exact (putLineStays midDistinct (lineToDeleteHere found) { line with cols := some blankCells } rfl
        fun _ => rfl).trans (ih (midDistinct.still (putLineStill ..)) rest)

end LineAt

section Database

/- The rows of the database by their positions in the grid; a row that was not inserted is none of them. -/
abbrev Rows (nCols : ℕ) := ℕ → Option (Fin nCols → Option Text)

variable {db : Database t} {held : Rows nCols} {connection : Connection nCols} {events : List (RowEvent nCols)}

def openedRows (t : Opened nCols) : Rows nCols := fun row => if row < t.nRows then some (t.dataSet row) else none

def recordRow (db : Database t) (held : Rows nCols) : RowEvent nCols → Rows nCols
  | .accepted row written returned =>
    Function.update held row (some (db.view.held ((held row).getD fun _ => none) written returned))
  | _ => held

theorem storeInsertedAt {row : ℕ} {line : cacheLine nCols} {cells : Fin nCols → Text} {set : InsertReply}
    (distinct : Distinct t s) (filled : (s.lineAt t row).cols = some cells)
    (ok : s.StoreInserted t row line cells set = some next) :
    Distinct t next ∧ (∀ other ≠ row, next.lineAt t other = s.lineAt t other) ∧ next.lastRow = none := by
  simp only [StoreInserted, Option.bind_eq_bind, Option.bind_eq_some_iff, Option.some.injEq] at ok
  obtain ⟨counted, made, rfl⟩ := ok
  obtain ⟨countedAt, countedDistinct⟩ := countStoredAt distinct made
  rw [← congrFun countedAt row] at filled
  let new : cacheLine nCols := {
    cols := some (overwrite cells (t.returned cells set))
    stored := true
    readOnly := line.readOnly || t.MakeKey (overwrite cells (t.insertedOid set)) = none }
  obtain ⟨old, present⟩ : ∃ old, counted.line? t row = some old := by
    cases here : counted.line? t row with
    | none => simp [lineAt, here, cacheLine.blank] at filled
    | some old => exact ⟨old, rfl⟩
  have put := putLineAt countedDistinct present new
  have putDistinct : Distinct t (counted.putLine t row new) := countedDistinct.still (putLineStill ..)
  exact ⟨putDistinct, fun other differs => (congrFun put other).trans
    ((Function.update_of_ne differs ..).trans (congrFun countedAt other)), rfl⟩

theorem storeLineAt {result : Bool} (db : Database t) (held : Rows nCols) (distinct : Distinct t s)
    (ok : s.StoreLine t connection = some (result, events, next)) :
    Distinct t next ∧ (∀ row, s.lastRow ≠ some row →
      next.lineAt t row = s.lineAt t row ∧ events.foldl (recordRow db) held row = held row) ∧
    (next.lastRow = none ∨ events = [] ∧ next.lineAt t = s.lineAt t ∧ next.lastRow = s.lastRow ∧
      next.savedLine = s.savedLine) := by
  unfold StoreLine at ok
  split at ok
  · cases Option.some.inj ok
    exact ⟨distinct, fun _ _ => ⟨rfl, rfl⟩, .inr ⟨rfl, rfl, rfl, rfl⟩⟩
  rename_i last edited
  simp only [Option.bind_eq_bind, Option.bind_eq_some_iff, Prod.exists] at ok
  obtain ⟨line, got, asked, cells, filled, ok⟩ := ok
  have still := getLineStill asked
  have gotDistinct := distinct.still still
  have same := (getLineAt distinct asked).2
  have refused : Distinct t got ∧ (∀ row, s.lastRow ≠ some row →
      got.lineAt t row = s.lineAt t row ∧ [].foldl (recordRow db) held row = held row) ∧
      (got.lastRow = none ∨ ([] : List (RowEvent nCols)) = [] ∧ got.lineAt t = s.lineAt t ∧
        got.lastRow = s.lastRow ∧ got.savedLine = s.savedLine) :=
    ⟨gotDistinct, fun _ _ => ⟨congrFun same _, rfl⟩, .inr ⟨rfl, same, still.lastRow, still.savedLine⟩⟩
  have recorded (row : ℕ) (differs : s.lastRow ≠ some row) (written : Fin nCols → Option Text)
      (returned : Option (Fin nCols → Option Text)) :
      [Event.accepted last written returned].foldl (recordRow db) held row = held row := by
    have other : row ≠ last := fun equal => differs (equal ▸ edited)
    simp [recordRow, Function.update_of_ne other]
  split at ok
  · split at ok
    · simp only [Option.some.injEq, Prod.mk.injEq] at ok
      obtain ⟨-, rfl, rfl⟩ := ok
      exact ⟨gotDistinct, fun row differs => ⟨congrFun same row, recorded row differs _ _⟩, .inl rfl⟩
    · simp only [Option.some.injEq, Prod.mk.injEq] at ok
      obtain ⟨-, rfl, rfl⟩ := ok
      exact refused
  split at ok
  · simp only [Option.some.injEq, Prod.mk.injEq] at ok
    obtain ⟨-, rfl, rfl⟩ := ok
    exact refused
  split at ok
  · simp only [Option.some.injEq, Prod.mk.injEq] at ok
    obtain ⟨-, rfl, rfl⟩ := ok
    exact refused
  rename_i set answer
  split at ok
  · simp only [Option.bind_eq_some_iff, Option.some.injEq, Prod.mk.injEq] at ok
    obtain ⟨after, made, -, rfl, rfl⟩ := ok
    have gotFilled : (got.lineAt t last).cols = some cells := by
      rw [← filled, lineAt, getLineHere asked, Option.getD_some]
    obtain ⟨afterDistinct, others, idle⟩ := storeInsertedAt gotDistinct gotFilled made
    refine ⟨afterDistinct, fun row differs => ⟨?_, recorded row differs _ _⟩, .inl idle⟩
    have other : row ≠ last := fun equal => differs (equal ▸ edited)
    exact (others row other).trans (congrFun same row)
  · simp only [Option.some.injEq, Prod.mk.injEq] at ok
    obtain ⟨-, rfl, rfl⟩ := ok
    exact refused

theorem moveToAt {row : ℕ} (db : Database t) (held : Rows nCols) (distinct : Distinct t s)
    (elsewhere : s.lastRow ≠ some row)
    (ok : s.moveTo t row connection = some (events, next)) :
    Distinct t next ∧ next.savedLine = (s.lineAt t row).cols.getD blankCells ∧
      next.lineAt t row = { s.lineAt t row with cols := some ((s.lineAt t row).cols.getD blankCells) } ∧
      events.foldl (recordRow db) held row = held row := by
  simp only [moveTo, if_neg elsewhere, Option.bind_eq_bind, Option.bind_eq_some_iff, Prod.exists,
    Option.some.injEq, Prod.mk.injEq] at ok
  obtain ⟨done, stored, mid, left, line, got, asked, rfl, rfl⟩ := ok
  obtain ⟨midDistinct, others, -⟩ := storeLineAt db held distinct left
  obtain ⟨same, gotAt⟩ := getLineAt midDistinct asked
  rw [(others row elsewhere).1] at same
  subst same
  have gotDistinct := midDistinct.still (getLineStill asked)
  let new : cacheLine nCols := { s.lineAt t row with cols := some ((s.lineAt t row).cols.getD blankCells) }
  have put := putLineAt gotDistinct (getLineHere asked) new
  have putDistinct : Distinct t (got.putLine t row new) := gotDistinct.still (putLineStill ..)
  exact ⟨putDistinct, rfl, (congrFun put row).trans (Function.update_self ..),
    (others row elsewhere).2⟩

/- The WHERE clause made of the cells selects the row; which rows a clause selects is for the database to say. -/
def Aims (t : Opened nCols) (selects : Key nCols → (Fin nCols → Option Text) → Prop) (held : Rows nCols) (row : ℕ)
    (cells : Fin nCols → Text) : Prop :=
  ∃ key values, t.MakeKey cells = some key ∧ held row = some values ∧ selects key values

variable {selects : Key nCols → (Fin nCols → Option Text) → Prop}

/- The row being edited has its line, stored if it is one of the result, and the clause of an UPDATE selects it. -/
def Own (t : Opened nCols) (selects : Key nCols → (Fin nCols → Option Text) → Prop) (s : sqlTable nCols)
    (held : Rows nCols) : Prop :=
  ∀ row, s.lastRow = some row → (s.lineAt t row).cols.isSome ∧
    (row < s.fetchedRows t → (s.lineAt t row).stored = true) ∧
    ((s.lineAt t row).stored = true → Aims t selects held row s.savedLine)

/- A row of the result was read, and the clause made of the cells of a stored line selects it. -/
def Begins (t : Opened nCols) (selects : Key nCols → (Fin nCols → Option Text) → Prop) (s : sqlTable nCols)
    (held : Rows nCols) (row : ℕ) : Prop :=
  (row < s.fetchedRows t → (s.lineAt t row).stored = true) ∧
    ((s.lineAt t row).stored = true → Aims t selects held row ((s.lineAt t row).cols.getD blankCells))

theorem Own.stays {other : Rows nCols} (own : Own t selects s held) (stays : Stays t s next)
    (rows : next.fetchedRows t ≤ s.fetchedRows t) (last : next.lastRow = s.lastRow)
    (saved : next.savedLine = s.savedLine) (same : ∀ row, s.lastRow = some row → other row = held row) :
    Own t selects next other := by
  intro row edited
  rw [last] at edited
  obtain ⟨filled, fetched, aims⟩ := own row edited
  obtain ⟨has, stored⟩ := stays row filled
  refine ⟨has, fun within => stored.trans (fetched (within.trans_le rows)), fun is => ?_⟩
  obtain ⟨key, values, made, here, selected⟩ := aims (stored.symm.trans is)
  exact ⟨key, values, saved ▸ made, (same row edited).trans here, selected⟩

theorem setValueOwn {row : ℕ} {col : Fin nCols} {value : Text} (distinct : Distinct t s)
    (elsewhere : s.lastRow ≠ some row) (ok : s.SetValue t row col value connection = some (events, next)) :
    Own t selects next (events.foldl (recordRow db) held) ↔ Begins t selects s held row := by
  have last : next.lastRow = some row := (setValueWidened ok).2
  have rows : next.fetchedRows t = s.fetchedRows t := by
    rw [fetchedRows, fetchedRows, (setValueWidened ok).1.rowsDeleted]
  simp only [SetValue, Option.bind_eq_bind, Option.bind_eq_some_iff, Prod.exists,
    Option.some.injEq, Prod.mk.injEq] at ok
  obtain ⟨_, first, asked, stored, mid, moved, line, got, again, cells, filled, rfl, rfl⟩ := ok
  have firstDistinct := distinct.still (getLineStill asked)
  have firstAt := (getLineAt distinct asked).2
  obtain ⟨midDistinct, saved, here, heldHere⟩ := moveToAt db held firstDistinct
    ((getLineStill asked).lastRow ▸ elsewhere) moved
  obtain ⟨same, gotAt⟩ := getLineAt midDistinct again
  have gotDistinct := midDistinct.still (getLineStill again)
  have put := congrFun (putLineAt gotDistinct (getLineHere again)
    { line with cols := some (Function.update cells col value) }) row
  rw [Function.update_self] at put
  rw [firstAt] at saved here
  have lineStored : line.stored = (s.lineAt t row).stored := by rw [same, here]
  have savedLine : (got.putLine t row { line with cols := some (Function.update cells col value) }).savedLine =
      (s.lineAt t row).cols.getD blankCells :=
    ((putLineStill ..).savedLine.trans (getLineStill again).savedLine).trans saved
  have heldRow : (stored ++ [Event.edited row col value]).foldl (recordRow db) held row = held row := by
    rw [List.foldl_append]
    exact heldHere
  have aims : ∀ cells, Aims t selects ((stored ++ [Event.edited row col value]).foldl (recordRow db) held) row
      cells ↔ Aims t selects held row cells := fun cells => by
    unfold Aims
    rw [heldRow]
  constructor
  · intro own
    obtain ⟨-, fetched, aim⟩ := own row last
    rw [rows] at fetched
    rw [put, savedLine, aims] at aim
    rw [put] at fetched
    exact ⟨fun within => lineStored ▸ fetched within, fun is => aim (lineStored.trans is)⟩
  · rintro ⟨fetched, aim⟩ other edited
    cases Option.some.inj (last.symm.trans edited)
    rw [put, savedLine, rows, aims]
    exact ⟨rfl, fun within => lineStored.trans (fetched within), fun is => aim (lineStored.symm.trans is)⟩

/- The edits and the deletions, with the rows of the database. -/
inductive EditRun (db : Database t) (allowed : sqlTable nCols → Rows nCols → GridOp nCols → Prop) :
    sqlTable nCols → Ghost → Rows nCols → Prop where
  | opened : EditRun db allowed (create t) (.opened t) (openedRows t)
  | edit {s next : sqlTable nCols} {g : Ghost} {held : Rows nCols} {events : List (RowEvent nCols)}
      (before : EditRun db allowed s g held) (op : Op nCols) (inside : op.Inside t s)
      (allows : allowed s held (.edit op)) (ok : s.step t op = some (events, next)) :
      EditRun db allowed next (g.after s next 0 (.edit op)) (events.foldl (recordRow db) held)
  | deleteRows {s next : sqlTable nCols} {g : Ghost} {held : Rows nCols} {rowsDone : ℕ}
      (before : EditRun db allowed s g held) (pos rows : ℕ) (executeVoid : ℕ → Option (Key nCols) → Bool)
      (inside : pos + rows ≤ s.numberRows t) (allows : allowed s held (.deleteRows pos rows executeVoid))
      (ok : s.DeleteRows t pos rows executeVoid = some (rowsDone, next)) :
      EditRun db allowed next (g.after s next rowsDone (.deleteRows pos rows executeVoid))
        fun i => held (if i < pos then i else i + rowsDone)

theorem EditRun.grid {allowed : sqlTable nCols → Rows nCols → GridOp nCols → Prop}
    {allows : sqlTable nCols → GridOp nCols → Prop} {g : Ghost}
    (implies : ∀ s held op, allowed s held op → allows s op) (run : EditRun db allowed s g held) :
    GridRun t allows s g := by
  induction run with
  | opened => exact .opened
  | edit before op inside allowed ok ih =>
    exact ih.step (.edit op) inside (implies _ _ _ allowed) (by rw [gridStep, ok]; rfl)
  | deleteRows before pos rows executeVoid inside allowed ok ih =>
    exact ih.step (.deleteRows pos rows executeVoid) inside (implies _ _ _ allowed) ok

def Op.Begins (t : Opened nCols) (selects : Key nCols → (Fin nCols → Option Text) → Prop) (s : sqlTable nCols)
    (held : Rows nCols) : Op nCols → Prop
  | .setValue row _ _ _ => s.lastRow ≠ some row → sqlTable.Begins t selects s held row
  | _ => True

/- A row that SetValue begins to edit is one that its line names, and nothing is deleted at or before it. -/
def Attends (t : Opened nCols) (selects : Key nCols → (Fin nCols → Option Text) → Prop) (s : sqlTable nCols)
    (held : Rows nCols) (op : GridOp nCols) : Prop :=
  op.Safe t s ∧ Apart t s op ∧
    match op with
    | .edit op => op.Begins t selects s held
    | .deleteRows .. => True

theorem storeLineOwn {result : Bool} (distinct : Distinct t s) (own : Own t selects s held)
    (ok : s.StoreLine t connection = some (result, events, next)) :
    Own t selects next (events.foldl (recordRow db) held) := by
  rcases (storeLineAt db held distinct ok).2.2 with none | ⟨rfl, same, last, saved⟩
  · exact fun row edited => nomatch none.symm.trans edited
  · refine own.stays (staysSame same) ?_ last saved fun _ _ => rfl
    rw [fetchedRows, fetchedRows, (storeLineWidened ok).1.rowsDeleted]

theorem stepOwn {op : Op nCols} (distinct : Distinct t s) (own : Own t selects s held)
    (begins : op.Begins t selects s held)
    (ok : s.step t op = some (events, next)) : Own t selects next (events.foldl (recordRow db) held) := by
  have rows : next.fetchedRows t ≤ s.fetchedRows t := by
    rw [fetchedRows, fetchedRows, (stepWidened ok).1.rowsDeleted]
  cases op with
  | getValue row col =>
    obtain ⟨⟨text, after⟩, value, made⟩ := Option.map_eq_some_iff.mp ok
    cases made
    have still := getValueStill value
    exact own.stays (getValueStays distinct value) rows still.lastRow still.savedLine fun _ _ => rfl
  | setValue row col value connection =>
    by_cases elsewhere : s.lastRow = some row
    · simp only [step, SetValue, Option.bind_eq_bind, Option.bind_eq_some_iff, Prod.exists,
        Option.some.injEq, Prod.mk.injEq] at ok
      obtain ⟨_, first, asked, stored, mid, moved, line, got, again, cells, filled, rfl, rfl⟩ := ok
      have firstStill := getLineStill asked
      rw [moveTo, if_pos (firstStill.lastRow.trans elsewhere)] at moved
      cases moved
      have firstDistinct := distinct.still firstStill
      have gotStill := getLineStill again
      have gotDistinct := firstDistinct.still gotStill
      have put := putLineStays gotDistinct (getLineHere again)
        { line with cols := some (Function.update cells col value) } rfl fun _ => rfl
      have still := firstStill.trans (gotStill.trans
        (putLineStill (t := t) got row { line with cols := some (Function.update cells col value) }))
      exact own.stays ((staysSame (getLineAt distinct asked).2).trans
        ((staysSame (getLineAt firstDistinct again).2).trans put)) rows still.lastRow still.savedLine fun _ _ => rfl
    · exact (setValueOwn distinct elsewhere ok).mpr (begins elsewhere)
  | storeLine connection =>
    obtain ⟨⟨result, stored, after⟩, store, made⟩ := Option.map_eq_some_iff.mp ok
    cases made
    exact storeLineOwn distinct own store
  | undoLine i =>
    intro row edited
    exact absurd (edited.symm.trans (undoLineWidened ok).2) (Option.some_ne_none row)
  | appendRows rows =>
    obtain ⟨after, append, made⟩ := Option.map_eq_some_iff.mp ok
    cases made
    have last := (appendRowsWidened append).2
    exact own.stays (staysSame (appendRowsAt distinct append)) ‹_› last (appendRowsFramed append).savedLine
      fun _ _ => rfl

theorem deleteLoopFewer (ok : s.deleteLoop t executeVoid pos rows rowsDone = some (done, next))
    (tracks : Tracks t s r) (inside : pos + rows ≤ s.numberRows t) : next.fetchedRows t ≤ s.fetchedRows t := by
  have after := (deleteLoopTracks tracks inside ok).1
  have fewer := r.removeManyFetched pos (done - rowsDone)
  rwa [after.fetchedLength, tracks.fetchedLength] at fewer

theorem deleteOwn (tracks : Tracks t s r) (own : Own t selects s held) (inside : pos + rows ≤ s.numberRows t)
    (apart : Apart t s (.deleteRows pos rows executeVoid))
    (ok : s.DeleteRows t pos rows executeVoid = some (done, next)) :
    Own t selects next fun i => held (if i < pos then i else i + done) := by
  obtain ⟨-, last, saved⟩ := deleteLoopTracks tracks inside ok
  have fewer := deleteLoopFewer ok tracks inside
  by_cases none : done = 0
  · subst none
    refine own.stays (deleteLoopStays tracks.distinct ok) fewer last saved fun row _ => ?_
    rw [Nat.add_zero, ite_self]
  · intro row edited
    rw [last] at edited
    have before : row < pos := (apart row edited).resolve_right fun refused =>
      none (Nat.eq_zero_of_not_pos fun some => refused ((deletesIff ok).mp some))
    have same : next.lineAt t row = s.lineAt t row := by
      rw [lineAt, deleteLoopLines tracks inside ok (Nat.ne_of_lt before), if_pos before, lineAt]
    obtain ⟨filled, fetched, aims⟩ := own row edited
    rw [same, saved]
    refine ⟨filled, fun within => fetched (within.trans_le fewer), fun stored => ?_⟩
    obtain ⟨key, values, made, here, selected⟩ := aims stored
    exact ⟨key, values, made, (congrArg held (if_pos before)).trans here, selected⟩

theorem editRunOwn {g : Ghost} (run : EditRun db (Attends t selects) s g held) : Own t selects s held := by
  induction run with
  | opened => exact fun row edited => nomatch edited
  | edit before op inside allows ok ih =>
    exact stepOwn (gridRunTracks (before.grid fun _ _ _ attends => attends.1)).distinct ih allows.2.2 ok
  | deleteRows before pos rows executeVoid inside allows ok ih =>
    exact deleteOwn (gridRunTracks (before.grid fun _ _ _ attends => attends.1)) ih inside allows.2.1 ok

theorem storeLineSent {result : Bool} {row : ℕ} {cells : Fin nCols → Text} (edited : s.lastRow = some row)
    (holds : Holds t s row line cells) (stored : line.stored = true)
    (ok : s.StoreLine t connection = some (result, events, next)) :
    result = (Opened.isEmpty (t.updated s.savedLine cells) ||
      connection.executeVoid (t.updated s.savedLine cells) (t.MakeKey s.savedLine)) := by
  simp only [StoreLine, edited, getLineFound holds.1, Option.bind_eq_bind, Option.bind_some, holds.2, stored,
    if_true] at ok
  split at ok
  · rename_i accepted
    cases ok
    exact accepted.symm
  · rename_i refused
    cases ok
    exact (Bool.eq_false_iff.mpr refused).symm

def OneRow (selects : Key nCols → (Fin nCols → Option Text) → Prop) (held : Rows nCols) (key : Key nCols) : Prop :=
  ∀ i j values others, held i = some values → held j = some others → selects key values → selects key others → i = j

/- What StoreLine sends for a stored line is made of this line alone, and changes its row and no other one, since
no clause selects two rows. -/
structure StoresOwn (t : Opened nCols) (selects : Key nCols → (Fin nCols → Option Text) → Prop) (s : sqlTable nCols)
    (held : Rows nCols) (row : ℕ) (line : cacheLine nCols) (cells : Fin nCols → Text) : Prop where
  holds : Holds t s row line cells
  fetched : row < s.fetchedRows t → line.stored = true
  aims : line.stored = true → Aims t selects held row s.savedLine
  alone : line.stored = true → ∀ key, t.MakeKey s.savedLine = some key → OneRow selects held key →
    ∀ i values, held i = some values → selects key values → i = row
  sent : line.stored = true → ∀ connection result events next,
    s.StoreLine t connection = some (result, events, next) →
    result = (Opened.isEmpty (t.updated s.savedLine cells) ||
      connection.executeVoid (t.updated s.savedLine cells) (t.MakeKey s.savedLine))

theorem Own.stores (own : Own t selects s held) {row : ℕ} (edited : s.lastRow = some row) :
    ∃ line cells, StoresOwn t selects s held row line cells := by
  obtain ⟨filled, fetched, aims⟩ := own row edited
  obtain ⟨cells, has⟩ := Option.isSome_iff_exists.mp filled
  have present : s.line? t row = some (s.lineAt t row) := by
    cases here : s.line? t row with
    | none => simp [lineAt, here, cacheLine.blank] at has
    | some line => rw [lineAt, here, Option.getD_some]
  refine ⟨s.lineAt t row, cells, ⟨present, has⟩, fetched, aims, ?_, ?_⟩
  · intro stored key made one i values here selected
    obtain ⟨key', others, made', there, selected'⟩ := aims stored
    cases made.symm.trans made'
    exact one i row values others here there selected selected'
  · exact fun stored connection result events next ok => storeLineSent edited ⟨present, has⟩ stored ok

def comparing : Key 1 → (Fin 1 → Option Text) → Prop
  | .columns compared, values => ∀ c ∈ compared, values c.1 = some c.2
  | .oid _, _ => False

end Database

end sqlTable

end PgAdmin.frmEditGrid
