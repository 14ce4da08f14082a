import PgAdmin.SqlTableSlots

/-! No edit is lost in the data grid. Each operation is a step of the sheet its rows show; a run
keeps every edit as long as no row is left behind with its store refused, no row is undone but the
one being edited, no row of the result is written before it was read, the statement has a place for
every changed cell, and what is read back after an INSERT shows what the new row holds. -/
namespace PgAdmin.frmEditGrid
open PgsObjects (Text)
open PendingEdit (Edits Kept Sheet Status View overwrite)
open SqlLiteral (Server)

abbrev RowEdits (nCols : ℕ) := Edits ℕ (Fin nCols) Text (Option Text)

variable {nCols : ℕ} {t : Opened nCols}

namespace Opened

/- What StoreLine puts into its statement. -/
def values (t : Opened nCols) (saved : Fin nCols → Text) (line : cacheLine nCols)
    (cells : Fin nCols → Text) : Fin nCols → Option Text :=
  if line.stored then t.updated saved cells else t.inserted cells

/- Every changed cell is in a column that an UPDATE or an INSERT of the line writes. -/
def carries (t : Opened nCols) (saved : Fin nCols → Text) (line : cacheLine nCols)
    (cells : Fin nCols → Text) : Prop :=
  ∀ col, cells col ≠ saved col →
    if line.stored then t.firstColumn ≤ col else ¬ (t.columns col).isReadOnly

end Opened

/- What the database makes of the text of a cell that a statement sets. For a column of text it is the value of the
literal in the statement. -/
structure Database (t : Opened nCols) where
  server : Server
  means : Fin nCols → Text → Option Text
  blank : ∀ col, means col [] = none
  text : ∀ col, (t.columns col).IsText → ∀ text,
    (t.columns col).denoted server ((t.columns col).Quote server text) = some (means col text)

def textMeaning (text : Text) : Option Text :=
  if text = [] then none else if text = escapedQuotes then some twoQuotes
  else if text = twoQuotes then some [] else some text

theorem textBlank : textMeaning [] = none := rfl

def Database.view {t : Opened nCols} (db : Database t) : View (Fin nCols) Text (Option Text) where
  norm := t.display
  means := db.means
  read := t.readCell

namespace sqlTable

variable {s next : sqlTable nCols} {db : Database t}

structure Covers (t : Opened nCols) (s next : sqlTable nCols) : Prop where
  rows : next.fetchedRows t = s.fetchedRows t
  loaded : ∀ row, Loaded t s row → Loaded t next row

theorem getLineCovers {row : ℕ} {line : cacheLine nCols} (mapped : Mapped t s)
    (ok : s.GetLine t row = some (line, next)) : Covers t s next where
  rows := (getLineFramed ok).fetchedRows
  loaded := fun _ ⟨l, c, holds⟩ => ⟨l, c, (getLineHolds mapped ok).mpr holds⟩

theorem putLineCovers {row : ℕ} {old line : cacheLine nCols} {cells : Fin nCols → Text}
    (mapped : Mapped t s) (present : s.line? t row = some old) (filled : line.cols = some cells) :
    Covers t s (s.putLine t row line) where
  rows := (putLineFramed ..).fetchedRows
  loaded := by
    rintro i ⟨l, c, holds⟩
    by_cases same : i = row
    · exact ⟨line, cells, (putLineLine mapped present line i).trans (if_pos same), filled⟩
    · exact ⟨l, c, ((putLineLine mapped present line i).trans (if_neg same)).trans holds.1, holds.2⟩

theorem Covers.trans {last : sqlTable nCols} (first : Covers t s next)
    (second : Covers t next last) : Covers t s last where
  rows := second.rows.trans first.rows
  loaded row here := second.loaded row (first.loaded row here)

section StoreLine

variable {row : ℕ} {line : cacheLine nCols} {cells : Fin nCols → Text}

theorem leaveReady (ready : Ready t s) (holds : Holds t s row line cells)
    (stored : line.stored = true) (last : s.lastRow = some row) {saved : Fin nCols → Text} :
    Ready t { s with savedLine := saved, lastRow := none } := by
  have lines : ∀ i, s.line? t i = if i = row then some line else s.line? t i := by
    intro i
    split
    · rename_i same
      exact same ▸ holds.1
    · rfl
  refine readyAfter ready ⟨ready.mapped.inside, ready.mapped.distinct, ready.mapped.whole,
    ready.mapped.cached, ready.mapped.closed⟩ rfl lines holds.2 (fun _ => stored)
    (fun unstored => nomatch stored.symm.trans unstored)
    (.inr fun i differs => ⟨?_, (fun edited => nomatch edited)⟩)
  exact fun edited => differs (Option.some.inj (edited.symm.trans last))

theorem storeInsertedSpec {set : InsertReply} (ready : Ready t s) (holds : Holds t s row line cells)
    (last : s.lastRow = some row) (ok : s.StoreInserted t row line cells set = some next) :
    Ready t next ∧ Covers t s next ∧ next.sheet t =
      { shown := Function.update (s.cells t) row (overwrite cells (t.returned cells set))
        last := none
        saved := s.savedLine } := by
  let new : cacheLine nCols := {
    cols := some (overwrite cells (t.returned cells set))
    stored := true
    readOnly := line.readOnly || t.MakeKey (overwrite cells (t.insertedOid set)) = none }
  simp only [StoreInserted, Option.bind_eq_bind, Option.bind_eq_some_iff, Option.some.injEq] at ok
  obtain ⟨mid, grown, rfl⟩ := ok
  have appended : Ready t mid ∧ mid.sheet t = s.sheet t ∧
      (∀ i l, s.line? t i = some l → mid.line? t i = some l) ∧
      mid.fetchedRows t = s.fetchedRows t := by
    have counted : Ready t { s with rowsStored := s.rowsStored + 1 } :=
      ⟨⟨ready.mapped.inside, ready.mapped.distinct, ready.mapped.whole, ready.mapped.cached,
        ready.mapped.closed⟩, ready.stored, ready.fresh, ready.editing⟩
    unfold countStored at grown
    simp only at grown
    split at grown
    · obtain ⟨after, sheet, keeps⟩ := appendRowsReady counted grown
      exact ⟨after, sheet, keeps, (appendRowsFramed grown).fetchedRows⟩
    · cases Option.some.inj grown
      exact ⟨counted, rfl, fun _ _ present => present, rfl⟩
  obtain ⟨midReady, midSheet, keeps, midRows⟩ := appended
  have present := keeps row line holds.1
  have midLast : mid.lastRow = some row := (congrArg Sheet.last midSheet).trans last
  have framed := putLineFramed (t := t) mid row new
  have lines := putLineLine midReady.mapped present new
  have mapped := putLineMapped midReady.mapped present new fun _ => holds.2 ▸ rfl
  refine ⟨readyAfter midReady ⟨mapped.inside, mapped.distinct, mapped.whole, mapped.cached,
    mapped.closed⟩ framed.fetchedRows lines rfl (fun _ => rfl) (fun unstored => absurd unstored.symm Bool.false_ne_true)
    (.inr fun i differs => ⟨?_, fun edited => absurd edited.symm (Option.some_ne_none i)⟩), ?_, ?_⟩
  · exact fun edited => differs (Option.some.inj (edited.symm.trans midLast))
  · have put := putLineCovers midReady.mapped present (show new.cols = some _ from rfl)
    refine ⟨put.rows.trans midRows, fun i there => ?_⟩
    obtain ⟨l, c, holds⟩ := there
    exact put.loaded i ⟨l, c, keeps i l holds.1, holds.2⟩
  · have shown := putLineCells midReady.mapped present new rfl
    have saved : (mid.putLine t row new).savedLine = s.savedLine :=
      framed.savedLine.trans (congrArg Sheet.saved midSheet)
    have before : mid.cells t = s.cells t := congrArg Sheet.shown midSheet
    rw [before] at shown
    exact congr (congrArg₂ Sheet.mk shown rfl) saved

/- What the new row holds, and what is put into its cells; an UPDATE puts nothing into them. -/
def Answered (t : Opened nCols) (connection : Connection nCols) (line : cacheLine nCols)
    (cells : Fin nCols → Text) (held : Option (Fin nCols → Option Text)) (returned : Fin nCols → Option Text) :
    Prop :=
  line.stored = true ∧ held = none ∧ returned = (fun _ => none) ∨
  line.stored = false ∧ ∃ set, connection.executeSet (t.inserted cells) = some set ∧
    held = some (t.holds set) ∧ returned = t.returned cells set

theorem storeLineSpec {connection : Connection nCols} {done : Bool}
    {events : List (RowEvent nCols)} (ready : Ready t s)
    (ok : s.StoreLine t connection = some (done, events, next)) :
    Covers t s next ∧
    ((events = [] ∧ Ready t next ∧ next.sheet t = s.sheet t ∧
      ∀ row, s.lastRow = some row → ∃ line cells, Holds t s row line cells ∧
        t.succeeds s.savedLine line cells connection = false) ∨
    ∃ row line cells held returned, s.lastRow = some row ∧ Holds t s row line cells ∧
      t.succeeds s.savedLine line cells connection ∧ Answered t connection line cells held returned ∧
      events = [.accepted row (t.values s.savedLine line cells) held] ∧ Ready t next ∧
      next.sheet t =
        { shown := Function.update (s.cells t) row (overwrite cells returned)
          last := none
          saved := s.savedLine }) := by
  unfold StoreLine at ok
  split at ok
  · rename_i idle
    cases Option.some.inj ok
    exact ⟨⟨rfl, fun _ here => here⟩, .inl ⟨rfl, ready, rfl, fun row last => nomatch idle.symm.trans last⟩⟩
  rename_i row last
  simp only [Option.bind_eq_bind, Option.bind_eq_some_iff, Prod.exists] at ok
  obtain ⟨line, got, asked, cells, filled, ok⟩ := ok
  have gotReady := getLineReady ready asked
  have gotSheet := getLineSheet ready.mapped asked
  have framed := getLineFramed asked
  have covers := getLineCovers ready.mapped asked
  have gotHolds : Holds t got row line cells := ⟨(getLineSpec ready.mapped asked).1, filled⟩
  have holds := (getLineHolds ready.mapped asked).mp gotHolds
  have gotLast : got.lastRow = some row := framed.lastRow.trans last
  have refused : t.succeeds s.savedLine line cells connection = false →
      ∀ r, s.lastRow = some r → ∃ line cells, Holds t s r line cells ∧
        t.succeeds s.savedLine line cells connection = false := by
    intro fails r same
    cases Option.some.inj (last.symm.trans same)
    exact ⟨line, cells, holds, fails⟩
  rw [framed.savedLine] at ok
  split at ok
  · rename_i stored
    split at ok
    · rename_i accepted
      simp only [Option.some.injEq, Prod.mk.injEq] at ok
      obtain ⟨-, rfl, rfl⟩ := ok
      refine ⟨⟨covers.rows, covers.loaded⟩, .inr ⟨row, line, cells, none, fun _ => none, last, holds, ?_,
        .inl ⟨stored, rfl, rfl⟩, ?_, ?_, ?_⟩⟩
      · simpa [Opened.succeeds, stored] using accepted
      · simp only [Opened.values, stored, if_true]
      · exact leaveReady gotReady gotHolds stored gotLast
      · have shown : got.cells t = s.cells t := congrArg Sheet.shown gotSheet
        have same : Function.update (s.cells t) row (overwrite cells fun _ => none) = got.cells t := by
          rw [shown]
          conv_rhs => rw [← Function.update_eq_self row (s.cells t), holds.cells]
          rfl
        rw [same, ← framed.savedLine]
        rfl
    · rename_i fails
      simp only [Option.some.injEq, Prod.mk.injEq] at ok
      obtain ⟨-, rfl, rfl⟩ := ok
      exact ⟨covers, .inl ⟨rfl, gotReady, gotSheet,
        refused (by simpa [Opened.succeeds, stored] using fails)⟩⟩
  · rename_i unstored
    split at ok
    · rename_i nothing
      simp only [Option.some.injEq, Prod.mk.injEq] at ok
      obtain ⟨-, rfl, rfl⟩ := ok
      exact ⟨covers, .inl ⟨rfl, gotReady, gotSheet,
        refused (by simp [Opened.succeeds, unstored, nothing])⟩⟩
    rename_i something
    split at ok
    · rename_i answer
      simp only [Option.some.injEq, Prod.mk.injEq] at ok
      obtain ⟨-, rfl, rfl⟩ := ok
      exact ⟨covers, .inl ⟨rfl, gotReady, gotSheet,
        refused (by simp [Opened.succeeds, unstored, answer])⟩⟩
    · rename_i set answer
      split at ok
      · rename_i inserted
        simp only [Option.bind_eq_some_iff, Option.some.injEq, Prod.mk.injEq] at ok
        obtain ⟨after, made, -, rfl, rfl⟩ := ok
        obtain ⟨nextReady, after, nextSheet⟩ := storeInsertedSpec gotReady gotHolds gotLast made
        refine ⟨covers.trans after,
          .inr ⟨row, line, cells, some (t.holds set), t.returned cells set, last, holds, ?_,
            .inr ⟨Bool.eq_false_iff.mpr unstored, set, answer, rfl, rfl⟩, ?_, nextReady, ?_⟩⟩
        · simp [Opened.succeeds, unstored, answer, something, inserted]
        · simp [Opened.values, unstored]
        · rw [nextSheet, getLineCells ready.mapped asked, framed.savedLine]
      · rename_i nothing
        simp only [Option.some.injEq, Prod.mk.injEq] at ok
        obtain ⟨-, rfl, rfl⟩ := ok
        exact ⟨covers, .inl ⟨rfl, gotReady, gotSheet,
          refused (by simp [Opened.succeeds, unstored, answer, nothing])⟩⟩

end StoreLine

section Operations

variable {events : List (RowEvent nCols)} {e : RowEdits nCols}

def Pending (t : Opened nCols) (s : sqlTable nCols)
    (holds : ℕ → cacheLine nCols → (Fin nCols → Text) → Prop) : Prop :=
  ∀ row line cells, s.lastRow = some row → Holds t s row line cells → holds row line cells

/- A cell that is read back is not the empty string or two quotes, and has the value in a column that the grid does
not show. One that is not read back stands for what the new row holds. -/
structure Returned (db : Database t) (cells : Fin nCols → Text) (set : InsertReply) : Prop where
  read : ∀ col text, t.returned cells set col = some text → text = (t.holds set col).getD [] ∧
    t.holds set col ≠ some [] ∧ t.holds set col ≠ some twoQuotes ∧
    ((t.columns col).isBytea → db.means col (t.display col text) = t.holds set col)
  unread : ∀ col, t.returned cells set col = none → db.means col (cells col) = t.holds set col

/- Nothing gets lost when the statement succeeds: it writes every changed cell, and each for what it is shown as. An
edit that it leaves out, since the cell is as it was, is what the database holds. -/
structure Settles (db : Database t) (s : sqlTable nCols) (e : RowEdits nCols)
    (connection : Connection nCols) (row : ℕ) (line : cacheLine nCols) (cells : Fin nCols → Text) : Prop where
  carries : t.carries s.savedLine line cells
  plain : ∀ col text, t.values s.savedLine line cells col = some text →
    db.means col (t.display col text) = db.means col text
  left : ∀ col value, t.values s.savedLine line cells col = none → e.status row col = some (.pending value) →
    if line.stored then db.means col (t.display col (cells col)) = e.contents row col
    else ∀ set, connection.executeSet (t.inserted cells) = some set → t.holds set col = none
  returned : line.stored = false → ∀ set, connection.executeSet (t.inserted cells) = some set →
    Returned db cells set

/- No edit is lost by an operation that meets this. -/
def Keeps (db : Database t) (s : sqlTable nCols) (e : RowEdits nCols) :
    Op nCols → Prop
  | .getValue _ _ => True
  | .setValue row _ _ connection =>
    (row < s.fetchedRows t → Loaded t s row) ∧
    (s.lastRow ≠ some row → Pending t s fun last line cells =>
      t.succeeds s.savedLine line cells connection ∧ Settles db s e connection last line cells)
  | .storeLine connection => Pending t s fun last line cells =>
      t.succeeds s.savedLine line cells connection → Settles db s e connection last line cells
  | .undoLine row => ∀ last, s.lastRow = some last → row = last
  | .appendRows _ => True

theorem carried {row : ℕ} {line : cacheLine nCols} {cells : Fin nCols → Text} (ready : Ready t s)
    (last : s.lastRow = some row) (holds : Holds t s row line cells)
    (carries : t.carries s.savedLine line cells) (col : Fin nCols) :
    t.values s.savedLine line cells col = some (cells col) ∨
      t.values s.savedLine line cells col = none ∧ cells col = s.savedLine col := by
  have writes := carries col
  unfold Opened.values
  cases stored : line.stored with
  | true =>
    simp only [stored, if_true, Opened.updated] at writes ⊢
    grind
  | false =>
    have blank := ready.fresh row line cells holds stored
    rw [if_pos last] at blank
    have saved : s.savedLine col = [] := congrFun blank col
    simp only [stored, Bool.false_eq_true, if_false, Opened.inserted] at writes ⊢
    grind

theorem told {row : ℕ} {line : cacheLine nCols} {cells : Fin nCols → Text} {connection : Connection nCols}
    {held : Option (Fin nCols → Option Text)} {returned : Fin nCols → Option Text} (ready : Ready t s)
    (kept : Kept db.view (s.sheet t) e) (last : s.lastRow = some row) (holds : Holds t s row line cells)
    (settles : Settles db s e connection row line cells) (answered : Answered t connection line cells held returned)
    (col : Fin nCols) : db.view.Shows col (overwrite cells returned col)
      (db.view.held (e.contents row) (t.values s.savedLine line cells) held col) := by
  have put := carried ready last holds settles.carries col
  rcases answered with ⟨-, rfl, rfl⟩ | ⟨unstored, set, answer, rfl, rfl⟩
  · rcases put with written | ⟨left, same⟩
    · refine .inr ?_
      simpa [View.held, written, overwrite, Database.view] using settles.plain col _ written
    · have shows : db.view.Shows col (s.savedLine col) (e.contents row col) := kept.saved row last col
      simpa [View.held, left, overwrite, same] using shows
  · have back := settles.returned unstored set answer
    show db.view.Shows col (overwrite cells (t.returned cells set) col) (t.holds set col)
    cases read : t.returned cells set col with
    | none =>
      refine .inr ?_
      have means := back.unread col read
      rcases put with written | ⟨left, same⟩
      · simpa [overwrite, read, Database.view] using (settles.plain col _ written).trans means
      · have blank := ready.fresh row line cells holds unstored
        rw [if_pos last] at blank
        have empty : cells col = [] := same.trans (congrFun blank col)
        rw [empty] at means
        simpa [overwrite, read, empty, Database.view] using means
    | some text =>
      obtain ⟨rfl, filled, quotes, bytes⟩ := back.read col text read
      simp only [overwrite, read, Option.getD_some]
      cases value : t.holds set col with
      | none => exact .inr (by simpa [Database.view] using db.blank col)
      | some value' =>
        rw [value] at filled quotes bytes
        by_cases bytea : (t.columns col).isBytea
        · exact .inr (bytes bytea)
        · refine .inl (congrArg (t.display col) ?_)
          cases value' with
          | nil => exact absurd rfl filled
          | cons letter rest =>
            have other : letter :: rest ≠ "''".toList := fun same => quotes (congrArg some same)
            simp only [Option.getD_some, Database.view, Opened.readCell, if_neg bytea, if_neg other]

theorem settled {row : ℕ} {line : cacheLine nCols} {cells : Fin nCols → Text} {connection : Connection nCols}
    {held : Option (Fin nCols → Option Text)} {returned : Fin nCols → Option Text} (ready : Ready t s)
    (kept : Kept db.view (s.sheet t) e) (last : s.lastRow = some row) (holds : Holds t s row line cells)
    (settles : Settles db s e connection row line cells) (answered : Answered t connection line cells held returned)
    {col : Fin nCols} {value : Text} (is : e.status row col = some (.pending value)) :
    db.means col (t.display col value) =
      db.view.settled (e.contents row) (t.values s.savedLine line cells) held col := by
  have shown : t.display col (cells col) = t.display col value := by
    have shows := (kept.pending row col value is).2
    rwa [show (s.sheet t).shown row = cells from holds.cells] at shows
  rw [← shown]
  rcases carried ready last holds settles.carries col with written | ⟨left, same⟩
  · simpa [View.settled, written, Database.view] using settles.plain col _ written
  · have held_ := settles.left col value left is
    rcases answered with ⟨stored, rfl, rfl⟩ | ⟨unstored, set, answer, rfl, rfl⟩
    · rw [if_pos stored] at held_
      simpa [View.settled, View.held, left] using held_
    · have blank := ready.fresh row line cells holds unstored
      rw [if_pos last] at blank
      have empty : cells col = [] := same.trans (congrFun blank col)
      rw [unstored, if_neg Bool.false_ne_true] at held_
      simpa [View.settled, View.held, left, empty, held_ set answer] using db.blank col

theorem storeLineKept {connection : Connection nCols} {done : Bool} (ready : Ready t s)
    (kept : Kept db.view (s.sheet t) e)
    (settles : Pending t s fun last line cells =>
      t.succeeds s.savedLine line cells connection → Settles db s e connection last line cells)
    (ok : s.StoreLine t connection = some (done, events, next)) :
    Ready t next ∧ Kept db.view (next.sheet t) (e.replay db.view events) := by
  rcases (storeLineSpec ready ok).2 with ⟨rfl, after, same, -⟩ |
    ⟨row, line, cells, held, returned, last, holds, succeeds, answered, rfl, after, shown⟩
  · exact ⟨after, same ▸ kept⟩
  · have settles := settles row line cells last holds succeeds
    have step := kept.accept last (told ready kept last holds settles answered)
      fun col value is => settled ready kept last holds settles answered is
    refine ⟨after, ?_⟩
    rw [shown]
    exact step

theorem undoLineKept {row : ℤ} (ready : Ready t s) (kept : Kept db.view (s.sheet t) e)
    (own : ∀ last, s.lastRow = some last → row = last)
    (ok : s.UndoLine t row = some (events, next)) :
    Ready t next ∧ Kept db.view (next.sheet t) (e.replay db.view events) := by
  unfold UndoLine at ok
  split at ok
  · rename_i guard
    obtain ⟨last, edited⟩ := Option.ne_none_iff_exists'.mp guard.1
    cases own last edited
    rw [Int.toNat_natCast] at ok
    simp only [Option.bind_eq_bind, Option.bind_eq_some_iff, Prod.exists, Option.some.injEq,
      Prod.mk.injEq] at ok
    obtain ⟨line, got, asked, cells, filled, rfl, rfl⟩ := ok
    have gotReady := getLineReady ready asked
    have framed := getLineFramed asked
    have present := (getLineSpec ready.mapped asked).1
    have gotLast := framed.lastRow.trans edited
    let undone : cacheLine nCols := { line with cols := some got.savedLine }
    have mapped := putLineMapped gotReady.mapped present undone fun _ => filled ▸ rfl
    refine ⟨readyAfter gotReady ⟨mapped.inside, mapped.distinct, mapped.whole, mapped.cached,
      mapped.closed⟩ (putLineFramed ..).fetchedRows (putLineLine gotReady.mapped present undone) rfl
      (fun fetched => gotReady.stored last fetched line cells ⟨present, filled⟩) ?_
      (.inr fun i differs => ⟨?_, (fun edited => nomatch edited)⟩), ?_⟩
    · intro unstored
      have blank := gotReady.fresh last line cells ⟨present, filled⟩ unstored
      rwa [if_pos gotLast] at blank
    · exact fun edited => differs (Option.some.inj (edited.symm.trans gotLast))
    · have shown := putLineCells gotReady.mapped present undone rfl
      rw [getLineCells ready.mapped asked] at shown
      have saved : got.savedLine = s.savedLine := framed.savedLine
      have step := kept.undo edited
      rw [saved] at shown
      have sheet : sheet t { got.putLine t last undone with lastRow := none } =
          { shown := Function.update (s.cells t) last s.savedLine
            last := none
            saved := s.savedLine } :=
        congr (congrArg₂ Sheet.mk shown rfl) ((putLineFramed ..).savedLine.trans saved)
      rw [sheet]
      exact step
  · rename_i guard
    have idle : s.lastRow = none := by
      by_contra edited
      obtain ⟨last, here⟩ := Option.ne_none_iff_exists'.mp edited
      exact guard ⟨edited, own last here ▸ Int.natCast_nonneg last⟩
    simp only [Option.some.injEq, Prod.mk.injEq] at ok
    obtain ⟨rfl, rfl⟩ := ok
    rw [← idle]
    exact ⟨ready, kept⟩

theorem storeLineIdle {connection : Connection nCols} {done : Bool} (ready : Ready t s)
    (succeeds : Pending t s fun _ line cells => t.succeeds s.savedLine line cells connection)
    (ok : s.StoreLine t connection = some (done, events, next)) : next.lastRow = none := by
  obtain ⟨-, ⟨-, -, same, refused⟩ | ⟨_, _, _, _, _, -, -, -, -, -, -, shown⟩⟩ := storeLineSpec ready ok
  · have was : next.lastRow = s.lastRow := congrArg Sheet.last same
    rw [was, Option.eq_none_iff_forall_not_mem]
    intro last edited
    obtain ⟨l, c, holds, fails⟩ := refused last edited
    exact nomatch fails.symm.trans (succeeds last l c edited holds)
  · exact congrArg Sheet.last shown

theorem filledCells {row : ℕ} {line : cacheLine nCols} (present : s.line? t row = some line)
    (filled : row < s.fetchedRows t → ∃ cells, line.cols = some cells) :
    s.cells t row = line.cols.getD blankCells := by
  unfold sqlTable.cells
  rw [present, Option.bind_some]
  cases has : line.cols with
  | some cells => rfl
  | none =>
    have added : ¬ row < s.fetchedRows t := fun fetched =>
      nomatch has.symm.trans (filled fetched).choose_spec
    exact if_neg added

theorem moveToKept {row : ℕ} {connection : Connection nCols} (ready : Ready t s)
    (kept : Kept db.view (s.sheet t) e) (loaded : row < s.fetchedRows t → Loaded t s row)
    (succeeds : s.lastRow ≠ some row → Pending t s fun last line cells =>
      t.succeeds s.savedLine line cells connection ∧ Settles db s e connection last line cells)
    (ok : s.moveTo t row connection = some (events, next)) :
    Ready t next ∧ Kept db.view (next.sheet t) (e.replay db.view events) ∧
      next.lastRow = some row := by
  unfold moveTo at ok
  split at ok
  · rename_i here
    simp only [Option.some.injEq, Prod.mk.injEq] at ok
    obtain ⟨rfl, rfl⟩ := ok
    exact ⟨ready, kept, here⟩
  rename_i elsewhere
  simp only [Option.bind_eq_bind, Option.bind_eq_some_iff, Prod.exists, Option.some.injEq,
    Prod.mk.injEq] at ok
  obtain ⟨done, stored, mid, left, line, got, asked, rfl, rfl⟩ := ok
  have pending := succeeds elsewhere
  obtain ⟨midReady, midKept⟩ := storeLineKept ready kept
    (fun r l c last holds _ => (pending r l c last holds).2) left
  obtain ⟨covers, -⟩ := storeLineSpec ready left
  have idle := storeLineIdle ready (fun r l c last holds => (pending r l c last holds).1) left
  have gotReady := getLineReady midReady asked
  have framed := getLineFramed asked
  have present := (getLineSpec midReady.mapped asked).1
  have gotCovers := covers.trans (getLineCovers midReady.mapped asked)
  have gotIdle := framed.lastRow.trans idle
  -- a line of the result has its cells, so only an added row starts blank
  have filled : row < got.fetchedRows t → ∃ cells, line.cols = some cells := by
    intro fetched
    obtain ⟨l, c, holds⟩ := gotCovers.loaded row (loaded (gotCovers.rows ▸ fetched))
    cases Option.some.inj (present.symm.trans holds.1)
    exact ⟨c, holds.2⟩
  have cells := filledCells (getLineSpec midReady.mapped asked).1 filled
  let new : cacheLine nCols := { line with cols := some (line.cols.getD blankCells) }
  have mapped := putLineMapped gotReady.mapped present new fun fetched => by
    rw [(filled fetched).choose_spec]
    rfl
  refine ⟨readyAfter gotReady ⟨mapped.inside, mapped.distinct, mapped.whole, mapped.cached,
    mapped.closed⟩ (putLineFramed ..).fetchedRows (putLineLine gotReady.mapped present new) rfl ?_ ?_
    (.inr fun i differs => ⟨?_, ?_⟩), ?_, rfl⟩
  · intro fetched
    exact gotReady.stored row fetched line _ ⟨present, (filled fetched).choose_spec⟩
  · intro unstored
    rw [if_pos rfl]
    cases has : line.cols with
    | none => rfl
    | some cells =>
      have blank := gotReady.fresh row line cells ⟨present, has⟩ unstored
      rw [gotIdle] at blank
      exact blank
  · rw [gotIdle]
    exact fun edited => nomatch edited
  · exact fun edited => differs (Option.some.inj edited).symm
  · have shown := putLineCells gotReady.mapped present new rfl
    rw [← cells, Function.update_eq_self, getLineCells midReady.mapped asked] at shown
    have saved : got.cells t row = mid.cells t row :=
      congrFun (getLineCells midReady.mapped asked) row
    rw [cells] at saved
    have step := midKept.move idle row
    have sheet : sheet t { got.putLine t row new with
          savedLine := line.cols.getD blankCells, lastRow := some row } =
        { shown := mid.cells t, last := some row, saved := mid.cells t row } :=
      congr (congrArg₂ Sheet.mk shown rfl) saved
    rw [sheet]
    exact step

theorem setValueKept {row : ℕ} {col : Fin nCols} {value : Text} {connection : Connection nCols}
    (ready : Ready t s) (kept : Kept db.view (s.sheet t) e)
    (keeps : Keeps db s e (.setValue row col value connection))
    (ok : s.SetValue t row col value connection = some (events, next)) :
    Ready t next ∧ Kept db.view (next.sheet t) (e.replay db.view events) := by
  simp only [SetValue, Option.bind_eq_bind, Option.bind_eq_some_iff, Prod.exists,
    Option.some.injEq, Prod.mk.injEq] at ok
  obtain ⟨_, first, asked, stored, mid, moved, line, got, again, cells, filled, rfl, rfl⟩ := ok
  have firstReady := getLineReady ready asked
  have firstKept := getLineSheet ready.mapped asked ▸ kept
  have framed := getLineFramed asked
  have covers := getLineCovers ready.mapped asked
  obtain ⟨midReady, midKept, here⟩ := moveToKept firstReady firstKept
    (fun fetched => covers.loaded row (keeps.1 (covers.rows ▸ fetched)))
    (fun elsewhere r l c last holds => by
      rw [framed.lastRow] at elsewhere last
      obtain ⟨succeeds, settles⟩ := keeps.2 elsewhere r l c last ((getLineHolds ready.mapped asked).mp holds)
      rw [framed.savedLine]
      exact ⟨succeeds, by rw [framed.savedLine]; exact settles.carries, by rw [framed.savedLine]; exact settles.plain,
        by rw [framed.savedLine]; exact settles.left, settles.returned⟩) moved
  have gotReady := getLineReady midReady again
  have present := (getLineSpec midReady.mapped again).1
  have gotLast := (getLineFramed again).lastRow.trans here
  let new : cacheLine nCols := { line with cols := some (Function.update cells col value) }
  have mapped := putLineMapped gotReady.mapped present new fun _ => filled ▸ rfl
  refine ⟨putLineReady gotReady present rfl mapped ?_ ?_, ?_⟩
  · exact fun fetched => gotReady.stored row fetched line cells ⟨present, filled⟩
  · intro unstored
    have blank := gotReady.fresh row line cells ⟨present, filled⟩ unstored
    rw [if_pos gotLast] at blank ⊢
    exact blank
  · have gotKept := (getLineSheet midReady.mapped again).symm ▸ midKept
    have step := gotKept.edit gotLast col value
    have cellsHere : (got.sheet t).shown row = cells := Holds.cells ⟨present, filled⟩
    rw [cellsHere] at step
    rw [putLineSheet gotReady.mapped present new rfl, Edits.replay, List.foldl_append]
    exact step

theorem stepKept {op : Op nCols} (ready : Ready t s) (kept : Kept db.view (s.sheet t) e)
    (keeps : Keeps db s e op) (ok : s.step t op = some (events, next)) :
    Ready t next ∧ Kept db.view (next.sheet t) (e.replay db.view events) := by
  cases op with
  | getValue row col =>
    obtain ⟨⟨text, after⟩, shown, made⟩ := Option.map_eq_some_iff.mp ok
    cases made
    obtain ⟨-, ready, alike⟩ := getValueSpec ready shown
    exact ⟨ready, kept.alike alike.lastRow alike.savedLine alike.shown⟩
  | setValue row col value connection => exact setValueKept ready kept keeps ok
  | storeLine connection =>
    obtain ⟨⟨done, stored, after⟩, made, same⟩ := Option.map_eq_some_iff.mp ok
    cases same
    exact storeLineKept ready kept keeps made
  | undoLine row => exact undoLineKept ready kept keeps ok
  | appendRows rows =>
    obtain ⟨after, appended, same⟩ := Option.map_eq_some_iff.mp ok
    cases same
    obtain ⟨ready, sheet, -⟩ := appendRowsReady ready appended
    exact ⟨ready, sheet ▸ kept⟩

end Operations

def opened (t : Opened nCols) : RowEdits nCols where
  contents row := if row < t.nRows then t.dataSet row else fun _ => none
  status _ _ := none

/- The tables and histories that operations with a property lead to. -/
inductive Run (db : Database t)
    (allowed : sqlTable nCols → RowEdits nCols → Op nCols → Prop) :
    sqlTable nCols → RowEdits nCols → Prop where
  | opened : Run db allowed (create t) (opened t)
  | step {s next : sqlTable nCols} {e : RowEdits nCols} {op : Op nCols}
      {events : List (RowEvent nCols)} (before : Run db allowed s e)
      (allows : allowed s e op) (ok : s.step t op = some (events, next)) :
      Run db allowed next (e.replay db.view events)

theorem Run.take {allowed : sqlTable nCols → RowEdits nCols → Op nCols → Prop}
    {e : RowEdits nCols} {events : List (RowEvent nCols)} (before : Run db allowed s e)
    (op : Op nCols) (allows : allowed s e op) (ok : s.step t op = some (events, next)) :
    Run db allowed next (e.replay db.view events) :=
  .step before allows ok

/- A value that was set is accepted, discarded, or pending on lastRow, where it is shown and
savedLine shows what the database holds; so do the other rows. -/
structure NoLostEdit (db : Database t) (s : sqlTable nCols) (e : RowEdits nCols) :
    Prop where
  pending : ∀ row col value, e.status row col = some (.pending value) → s.lastRow = some row ∧
    ∀ text next, s.GetValue t row col = some (text, next) → text = t.display col value
  saved : ∀ row, s.lastRow = some row → ∀ col, db.view.Shows col (s.savedLine col) (e.contents row col)
  shown : ∀ row, s.lastRow ≠ some row → ∀ col text next, s.GetValue t row col = some (text, next) →
    db.view.Shows col text (e.contents row col)

theorem openedKept (db : Database t) : Kept db.view ((create t).sheet t) (opened t) where
  pending _ _ _ is := nomatch is
  saved _ last := nomatch last
  shown row _ col := by
    have absent : (create t).line? t row = none := by
      unfold line?
      split <;> exact cacheLinePool.createLine ..
    have same : (create t).cells t row = (create t).original t row := by
      unfold cells
      rw [absent]
      rfl
    show db.view.Shows col ((create t).cells t row col) _
    have rows : (create t).fetchedRows t = t.nRows := rfl
    have contents : (opened t).contents row = if row < t.nRows then t.dataSet row else fun _ => none := rfl
    rw [same, original, rows, contents]
    split
    · exact .inl rfl
    · exact .inr (by simpa [Database.view, blankCells] using db.blank col)

/- What the condition on a run asks of each operation. -/
def Careful (db : Database t) (s : sqlTable nCols) (e : RowEdits nCols) (op : Op nCols) :
    Prop :=
  op.Safe t s ∧ Keeps db s e op

theorem runKept {e : RowEdits nCols} (run : Run db (Careful db) s e) :
    Ready t s ∧ Room t s ∧ Kept db.view (s.sheet t) e := by
  induction run with
  | opened => exact ⟨createReady t, createRoom t, openedKept db⟩
  | step _ careful ok ih =>
    obtain ⟨ready, room, kept⟩ := ih
    obtain ⟨events, after, made, afterRoom⟩ := stepSafe room ready.mapped.distinct careful.1
    cases made.symm.trans ok
    obtain ⟨ready, kept⟩ := stepKept ready kept careful.2 ok
    exact ⟨ready, afterRoom, kept⟩

def textDatabase (t : Opened nCols) (server : Server) : Database t where
  server := server
  means := fun _ text => textMeaning text
  blank := fun _ => textBlank
  text := fun _ text => sqlCellAttr.denotedQuote server text

def twoRows : Opened 1 where
  hasOids := false
  columns _ := {
    name := "name".toList
    typeName := "text".toList
    displayTypeName := "text".toList
    isReadOnly := false
    numeric := false
    isBool := false
    isBit := false
    isBytea := false }
  primaryKey := [0]
  nRows := 2
  dataSet line _ := some (if line = 0 then "x".toList else "y".toList)

def refusing : Connection 1 where
  executeVoid _ _ := false
  executeSet _ := none

abbrev twoText : Database twoRows := textDatabase twoRows server81

end sqlTable

end PgAdmin.frmEditGrid
