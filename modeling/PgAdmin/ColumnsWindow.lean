import Mathlib.Data.Int.Notation
import PgAdmin.RowWindow

/-! The columns of a table figure that are drawn: the counters of ddTableFigure and the operations
that change them. -/
namespace PgAdmin.ddColumnsWindow

inductive Figure where
  | rectangleFigure
  | tableTitle
  | column (id : ℕ)
  deriving DecidableEq, Repr

structure ddTableFigure where
  figureFigures : List Figure
  maxColIndex : ℤ
  minIdxIndex : ℤ
  maxIdxIndex : ℤ
  colsRowsSize : ℤ
  colsWindow : ℤ
  beginDrawCols : ℤ
  -- whether the handle is one of the figure's
  scrollbar : Bool
  deriving Repr

namespace ddTableFigure

def Init : ddTableFigure where
  figureFigures := [.rectangleFigure, .tableTitle]
  maxColIndex := 2
  minIdxIndex := 2
  maxIdxIndex := 2
  colsRowsSize := 0
  colsWindow := 0
  beginDrawCols := 2
  scrollbar := false

def InitTableValues (t : ddTableFigure) (bdc maxcolsi minidxsi maxidxsi colsrs colsw : ℤ) : ddTableFigure :=
  { t with beginDrawCols := bdc, maxColIndex := maxcolsi, minIdxIndex := minidxsi, maxIdxIndex := maxidxsi,
           colsRowsSize := colsrs, colsWindow := colsw }

def addColumnFromStorage (t : ddTableFigure) (column : ℕ) : ddTableFigure :=
  { t with figureFigures := t.figureFigures ++ [.column column] }

def addColumn (t : ddTableFigure) (column : ℕ) : ddTableFigure :=
  -- the counters of the indexes follow while there are none
  let noIndexes := t.maxColIndex = t.minIdxIndex
  { t with
    figureFigures := t.figureFigures ++ [.column column]
    minIdxIndex := if noIndexes then t.minIdxIndex + 1 else t.minIdxIndex
    maxIdxIndex := if noIndexes then t.maxIdxIndex + 1 else t.maxIdxIndex
    maxColIndex := t.maxColIndex + 1
    colsWindow := t.colsWindow + 1
    colsRowsSize := t.colsRowsSize + 1 }

def removeColumn (t : ddTableFigure) (column : ℕ) : ddTableFigure :=
  let noIndexes := t.maxColIndex = t.minIdxIndex
  let colsWindow := if t.colsRowsSize = t.colsWindow then t.colsWindow - 1 else t.colsWindow
  let colsRowsSize := t.colsRowsSize - 1
  { figureFigures := t.figureFigures.erase (.column column)
    minIdxIndex := if noIndexes then t.minIdxIndex - 1 else t.minIdxIndex
    maxIdxIndex := if noIndexes then t.maxIdxIndex - 1 else t.maxIdxIndex
    maxColIndex := t.maxColIndex - 1
    colsWindow := colsWindow
    colsRowsSize := colsRowsSize
    beginDrawCols := if 2 < t.beginDrawCols then t.beginDrawCols - 1 else t.beginDrawCols
    scrollbar := if colsWindow = colsRowsSize then false else t.scrollbar }

/- Without maximize: the window takes the value where it is, or, if it ends at the last column, with
its start moved back. Both tests are made one after the other. -/
def windowInPlace (t : ddTableFigure) (value : ℤ) : ddTableFigure :=
  if 0 < value ∧ value ≤ t.colsRowsSize ∧ t.maxColIndex ≥ t.beginDrawCols + value then
    { t with colsWindow := value }
  else t

def windowMoved (t : ddTableFigure) (value : ℤ) : ddTableFigure :=
  if 0 < value ∧ value ≤ t.colsRowsSize ∧ t.maxColIndex < t.beginDrawCols + value then
    if t.beginDrawCols + t.colsWindow = t.maxColIndex then
      let diff := value - t.colsWindow
      if 0 < diff ∧ 0 ≤ t.beginDrawCols - diff then
        { t with beginDrawCols := t.beginDrawCols - diff, colsWindow := value }
      else t
    else t
  else t

def setColumnsWindow (t : ddTableFigure) (value : ℤ) (maximize : Bool) : ddTableFigure :=
  let t := if maximize then { t with beginDrawCols := 2, colsWindow := value }
    else (t.windowInPlace value).windowMoved value
  { t with scrollbar := if t.colsWindow = t.colsRowsSize then false else true }

def columnsWindowUp (t : ddTableFigure) : ddTableFigure :=
  if 2 < t.beginDrawCols then { t with beginDrawCols := t.beginDrawCols - 1 } else t

def columnsWindowDown (t : ddTableFigure) : ddTableFigure :=
  if t.beginDrawCols + t.colsWindow < t.maxColIndex then
    { t with beginDrawCols := t.beginDrawCols + 1 }
  else t

def getItemAt (t : ddTableFigure) (index : ℤ) : Option Figure :=
  match index with
  | .ofNat i => t.figureFigures[i]?
  | .negSucc _ => none

/- The figures basicDraw takes from the array: the rectangle, the title and those of the loop from
beginDrawCols while less than colsWindow + beginDrawCols. -/
def basicDraw (t : ddTableFigure) : List (Option Figure) :=
  [t.getItemAt 0, t.getItemAt 1] ++
    (List.range t.colsWindow.toNat).map fun i : ℕ => t.getItemAt (t.beginDrawCols + i)

def columns (t : ddTableFigure) : List ℕ :=
  t.figureFigures.filterMap fun f => match f with
    | .column c => some c
    | _ => none

def restored (t : ddTableFigure) : ddTableFigure :=
  t.columns.foldl addColumnFromStorage
  (Init.InitTableValues t.beginDrawCols t.maxColIndex t.minIdxIndex t.maxIdxIndex t.colsRowsSize t.colsWindow)

/- Any sequence of the operations on a table that is new or read from a saved model. A column that is
removed is one of the table's. -/
inductive Reached : ddTableFigure → Prop where
  | Init : Reached Init
  | restored {t} (saved : Reached t) : Reached t.restored
  | addColumn {t} (before : Reached t) (column : ℕ) : Reached (t.addColumn column)
  | removeColumn {t} (before : Reached t) {column : ℕ} (owned : .column column ∈ t.figureFigures) :
      Reached (t.removeColumn column)
  | setColumnsWindow {t} (before : Reached t) (value : ℤ) : Reached (t.setColumnsWindow value false)
  | maximize {t} (before : Reached t) : Reached (t.setColumnsWindow t.colsRowsSize true)
  | columnsWindowUp {t} (before : Reached t) : Reached t.columnsWindowUp
  | columnsWindowDown {t} (before : Reached t) : Reached t.columnsWindowDown

structure ColumnsWindow (t : ddTableFigure) : Prop where
  colsRowsSize : t.colsRowsSize = t.columns.length
  maxColIndex : t.maxColIndex = 2 + t.colsRowsSize
  figures : t.maxColIndex = t.figureFigures.length
  begins : 2 ≤ t.beginDrawCols
  window : t.colsWindow ≤ t.colsRowsSize
  ends : t.beginDrawCols + t.colsWindow ≤ t.maxColIndex
  draws : t.basicDraw = some .rectangleFigure :: some .tableTitle ::
    ((t.columns.drop (t.beginDrawCols - 2).toNat).take t.colsWindow.toNat).map fun c => some (.column c)

/- The counters stand for a window on the columns, and the figures are the rectangle, the title and
the columns. -/
structure Shows (t : ddTableFigure) (columns : List ℕ) (w : RowWindow) : Prop where
  figures : t.figureFigures = .rectangleFigure :: .tableTitle :: columns.map .column
  total : columns.length = w.total
  maxColIndex : t.maxColIndex = 2 + w.total
  minIdxIndex : t.minIdxIndex = t.maxColIndex
  maxIdxIndex : t.maxIdxIndex = t.maxColIndex
  colsRowsSize : t.colsRowsSize = w.total
  colsWindow : t.colsWindow = w.shown
  beginDrawCols : t.beginDrawCols = 2 + w.first
  scrollbar : t.scrollbar = true → w.shown < w.total

section Steps
variable {t : ddTableFigure} {columns : List ℕ} {w : RowWindow}

theorem initShows : Shows Init [] .empty := by
  constructor <;> simp [Init, RowWindow.empty]

theorem addColumnShows (shows : Shows t columns w) (column : ℕ) :
    Shows (t.addColumn column) (columns ++ [column]) w.grow := by
  have first := shows.maxColIndex
  have second := shows.minIdxIndex
  have third := shows.maxIdxIndex
  constructor
  · simp [addColumn, shows.figures]
  · simp [RowWindow.grow, shows.total]
  · simp only [addColumn, RowWindow.grow]
    omega
  · simp only [addColumn]
    split <;> omega
  · simp only [addColumn]
    split <;> omega
  · simp [addColumn, RowWindow.grow, shows.colsRowsSize]
  · simp [addColumn, RowWindow.grow, shows.colsWindow]
  · simp [addColumn, RowWindow.grow, shows.beginDrawCols]
  · intro shown
    exact Nat.succ_lt_succ (shows.scrollbar shown)

theorem removeColumnShows (shows : Shows t columns w) {column : ℕ}
    (owned : .column column ∈ t.figureFigures) (some : 0 < w.total) :
    Shows (t.removeColumn column) (columns.erase column) (w.shrink some) := by
  have member : column ∈ columns := by simpa [shows.figures] using owned
  have first := shows.maxColIndex
  have second := shows.minIdxIndex
  have third := shows.maxIdxIndex
  have size := shows.colsRowsSize
  have window := shows.colsWindow
  have begins := shows.beginDrawCols
  have fits := w.fits
  constructor
  · have injective : Function.Injective Figure.column := fun _ _ same => Figure.column.inj same
    simp [removeColumn, shows.figures, List.map_erase injective]
  · rw [List.length_erase_of_mem member, shows.total]
    rfl
  · simp only [removeColumn, RowWindow.shrink]
    omega
  · simp only [removeColumn]
    split <;> omega
  · simp only [removeColumn]
    split <;> omega
  · simp only [removeColumn, RowWindow.shrink]
    omega
  · simp only [removeColumn, RowWindow.shrink]
    split <;> split <;> omega
  · simp only [removeColumn, RowWindow.shrink]
    split <;> omega
  · have still := shows.scrollbar
    simp only [removeColumn, RowWindow.shrink]
    split <;> split <;> split <;> intro shown <;> first
      | cases shown
      | (have less := still shown; omega)

theorem windowCounters (shows : Shows t columns w) (value : ℤ) :
    (t.windowInPlace value).windowMoved value = { t with
      colsWindow := (w.resizeTo value).shown
      beginDrawCols := 2 + (w.resizeTo value).first } := by
  have total := shows.maxColIndex
  have size := shows.colsRowsSize
  have window := shows.colsWindow
  have begins := shows.beginDrawCols
  have fits := w.fits
  by_cases within : 0 < value ∧ value.toNat ≤ w.total
  · have small : value ≤ t.colsRowsSize := by omega
    rw [RowWindow.resizeTo, dif_pos within, RowWindow.resize]
    by_cases room : w.first + value.toNat ≤ w.total
    · have inPlace : t.windowInPlace value = { t with colsWindow := value } :=
        if_pos ⟨within.1, small, by omega⟩
      have stays : ¬ t.maxColIndex < t.beginDrawCols + value := by omega
      rw [inPlace, windowMoved, if_neg fun all => stays all.2.2, dif_pos room, ← begins]
      simp only [Int.toNat_of_nonneg (Int.le_of_lt within.1)]
    · have beyond : t.maxColIndex < t.beginDrawCols + value := by omega
      have inPlace : t.windowInPlace value = t := if_neg fun all => Int.not_le.mpr beyond all.2.2
      rw [inPlace, windowMoved, if_pos ⟨within.1, small, beyond⟩, dif_neg room]
      by_cases atEnd : w.first + w.shown = w.total
      · have back : t.beginDrawCols - (value - t.colsWindow) = 2 + ((w.total - value.toNat : ℕ) : ℤ) := by
          omega
        have moves : 0 < value - t.colsWindow ∧ 0 ≤ t.beginDrawCols - (value - t.colsWindow) := by
          omega
        rw [if_pos (by omega), if_pos moves, if_pos atEnd, back]
        simp only [Int.toNat_of_nonneg (Int.le_of_lt within.1)]
      · rw [if_neg (by omega), if_neg atEnd, ← begins, ← window]
  · have outside : ∀ P : Prop, ¬ (0 < value ∧ value ≤ t.colsRowsSize ∧ P) := by
      intro P all
      exact within ⟨all.1, by omega⟩
    rw [windowInPlace, if_neg (outside _), windowMoved, if_neg (outside _), RowWindow.resizeTo,
      dif_neg within, ← begins, ← window]

theorem setColumnsWindowShows (shows : Shows t columns w) (value : ℤ) :
    Shows (t.setColumnsWindow value false) columns (w.resizeTo value) := by
  have same := w.resizeToTotal value
  have size := shows.colsRowsSize
  have fits := (w.resizeTo value).fits
  rw [setColumnsWindow, if_neg Bool.false_ne_true, windowCounters shows]
  refine { shows with total := ?_, maxColIndex := ?_, colsRowsSize := ?_, colsWindow := rfl,
                      beginDrawCols := rfl, scrollbar := ?_ }
  · rw [same, shows.total]
  · rw [same]
    exact shows.maxColIndex
  · rw [same]
    exact size
  · dsimp only
    split
    · intro shown
      cases shown
    · intro
      omega

theorem maximizeShows (shows : Shows t columns w) :
    Shows (t.setColumnsWindow t.colsRowsSize true) columns w.whole := by
  refine { shows with
    colsWindow := shows.colsRowsSize, beginDrawCols := rfl, scrollbar := ?_ }
  simp [setColumnsWindow]

theorem columnsWindowUpShows (shows : Shows t columns w) : Shows t.columnsWindowUp columns w.up := by
  have begins := shows.beginDrawCols
  unfold columnsWindowUp
  split
  · refine { shows with beginDrawCols := ?_ }
    simp only [RowWindow.up]
    omega
  · refine { shows with beginDrawCols := ?_ }
    simp only [RowWindow.up]
    omega

theorem columnsWindowDownShows (shows : Shows t columns w) :
    Shows t.columnsWindowDown columns w.down := by
  have total := shows.maxColIndex
  have window := shows.colsWindow
  have begins := shows.beginDrawCols
  unfold columnsWindowDown RowWindow.down
  by_cases room : w.first + w.shown < w.total
  · rw [if_pos (by omega), dif_pos room]
    refine { shows with beginDrawCols := ?_ }
    dsimp only
    omega
  · rw [if_neg (by omega), dif_neg room]
    exact shows

theorem columnsShown (shows : Shows t columns w) : t.columns = columns := by
  rw [ddTableFigure.columns, shows.figures]
  induction columns <;> simp

theorem storageColumns (columns : List ℕ) (t : ddTableFigure) :
    columns.foldl addColumnFromStorage t =
      { t with figureFigures := t.figureFigures ++ columns.map .column } := by
  induction columns generalizing t with
  | nil => simp
  | cons column columns ih =>
    rw [List.foldl_cons, ih]
    simp [addColumnFromStorage]

theorem restoredShows (shows : Shows t columns w) : Shows t.restored columns w := by
  rw [restored, columnsShown shows, storageColumns]
  exact { shows with figures := rfl, scrollbar := fun shown => absurd shown Bool.false_ne_true }

theorem drawsWindow (shows : Shows t columns w) :
    t.basicDraw = some .rectangleFigure :: some .tableTitle ::
      (w.rows columns).map fun c => some (.column c) := by
  have read : ∀ i : ℕ, t.getItemAt (t.beginDrawCols + i) = (columns.map Figure.column)[w.first + i]? := by
    intro i
    have index : t.beginDrawCols + i = ((w.first + i + 2 : ℕ) : ℤ) := by
      have begins := shows.beginDrawCols
      omega
    rw [index]
    show t.figureFigures[w.first + i + 2]? = _
    rw [shows.figures, List.getElem?_cons_succ, List.getElem?_cons_succ]
  have length : (columns.map Figure.column).length = w.total := by rw [List.length_map, shows.total]
  have loop := w.rowsRead length
  have first : t.getItemAt 0 = some .rectangleFigure := by
    show t.figureFigures[0]? = _
    rw [shows.figures]
    rfl
  have second : t.getItemAt 1 = some .tableTitle := by
    show t.figureFigures[1]? = _
    rw [shows.figures]
    rfl
  rw [basicDraw, shows.colsWindow, Int.toNat_natCast]
  simp only [read, loop, first, second]
  simp [RowWindow.rows, Function.comp_def]

theorem windowShown (shows : Shows t columns w) : ColumnsWindow t := by
  have total := shows.total
  have max := shows.maxColIndex
  have size := shows.colsRowsSize
  have window := shows.colsWindow
  have begins := shows.beginDrawCols
  have fits := w.fits
  have owned := columnsShown shows
  constructor
  · rw [owned, size, total]
  · rw [max, size]
  · rw [shows.figures]
    simp only [List.length_cons, List.length_map]
    omega
  · omega
  · omega
  · omega
  · have first : (t.beginDrawCols - 2).toNat = w.first := by omega
    rw [drawsWindow shows, owned, first, window]
    rfl

end Steps

theorem reachedShows {t : ddTableFigure} (reached : Reached t) : ∃ columns w, Shows t columns w := by
  induction reached with
  | Init => exact ⟨_, _, initShows⟩
  | restored saved ih =>
    obtain ⟨columns, w, shows⟩ := ih
    exact ⟨_, _, restoredShows shows⟩
  | addColumn before column ih =>
    obtain ⟨columns, w, shows⟩ := ih
    exact ⟨_, _, addColumnShows shows column⟩
  | @removeColumn t before column owned ih =>
    obtain ⟨columns, w, shows⟩ := ih
    have member : column ∈ columns := by simpa [shows.figures] using owned
    exact ⟨_, _, removeColumnShows shows owned (shows.total ▸ List.length_pos_of_mem member)⟩
  | setColumnsWindow before value ih =>
    obtain ⟨columns, w, shows⟩ := ih
    exact ⟨_, _, setColumnsWindowShows shows value⟩
  | maximize before ih =>
    obtain ⟨columns, w, shows⟩ := ih
    exact ⟨_, _, maximizeShows shows⟩
  | columnsWindowUp before ih =>
    obtain ⟨columns, w, shows⟩ := ih
    exact ⟨_, _, columnsWindowUpShows shows⟩
  | columnsWindowDown before ih =>
    obtain ⟨columns, w, shows⟩ := ih
    exact ⟨_, _, columnsWindowDownShows shows⟩

/- In every table the operations reach, the counters agree with the columns and the window stays
among them. -/
theorem columnsWindowKept {t : ddTableFigure} (reached : Reached t) : ColumnsWindow t := by
  obtain ⟨columns, w, shows⟩ := reachedShows reached
  exact windowShown shows

theorem columnsWindowRemoved :
    ColumnsWindow (((((Init.addColumn 0).addColumn 1).addColumn 2).setColumnsWindow 1 false
      ).columnsWindowDown.removeColumn 1) :=
  columnsWindowKept (.removeColumn (.columnsWindowDown (.setColumnsWindow
    (.addColumn (.addColumn (.addColumn .Init 0) 1) 2) 1)) (by decide))

end ddTableFigure

end PgAdmin.ddColumnsWindow
