import PgAdmin.ColumnsWindow

/-! Where the columns of a table figure stand in a diagram: the positions recalculateColsPos gives them, the columns
that basicDraw draws there, and the one that findFigure finds at a position of the mouse. -/
namespace PgAdmin.ddColumnsWindow
open ddTableFigure (ColumnsWindow)

structure Rect where
  x : ℤ
  y : ℤ
  width : ℤ
  height : ℤ

namespace Rect

def Contains (rect : Rect) (cx cy : ℤ) : Prop :=
  rect.x ≤ cx ∧ rect.y ≤ cy ∧ cy - rect.y < rect.height ∧ cx - rect.x < rect.width

instance (rect : Rect) (cx cy : ℤ) : Decidable (rect.Contains cx cy) :=
  inferInstanceAs (Decidable (_ ∧ _ ∧ _ ∧ _))

end Rect

structure Size where
  width : ℤ
  height : ℤ

structure ColumnSize (line : ℤ) where
  kindImage : Size
  optionImage : Size
  columnText : Size
  kindFits : kindImage.height ≤ line
  optionFits : optionImage.height ≤ line
  textFits : columnText.height ≤ line
  kindWidth : 0 ≤ kindImage.width
  optionWidth : 0 ≤ optionImage.width
  textSome : 0 < columnText.width ∧ 0 < columnText.height

/- The positions of a column. -/
structure ColumnPlace where
  basicDisplayBox : ℤ × ℤ
  kindImage : ℤ × ℤ
  optionImage : ℤ × ℤ
  columnText : ℤ × ℤ
  deriving DecidableEq

/- A table in one diagram; the columns by their index. A table that has been taken out of a diagram stands at
(-1, -1). The height of a text is at least 10, with a padding of 2. -/
structure Layout where
  rectangleFigure : Rect
  tableTitle : Rect
  colsTitleHeight : ℤ
  column : ℕ → ColumnSize tableTitle.height
  left : -1 ≤ rectangleFigure.x
  top : -1 ≤ rectangleFigure.y
  line : 12 ≤ tableTitle.height
  screen : tableTitle.height ≤ 65000
  colsTitle : 0 ≤ colsTitleHeight

def internalPadding : ℤ := 2

namespace Layout
variable (l : Layout)

def getColDefaultHeight : ℤ := l.tableTitle.height

/- The top of the area of the columns, as calcInternalSubAreas leaves it. -/
def colsRectTop : ℤ := l.rectangleFigure.y + l.getColDefaultHeight + l.colsTitleHeight

/- ddColumnFigure::moveTo -/
def moveTo (i : ℕ) (x y : ℤ) : ColumnPlace :=
  let size := l.column i
  { basicDisplayBox := (x, y)
    kindImage := (x, y)
    optionImage := (x + (size.kindImage.width + 3), y)
    columnText := (x + (size.kindImage.width + 3) + (size.optionImage.width + 3), y) }

def offCanvas : ℤ := -65000

def placed (t : ddTableFigure) (i : ℕ) : ColumnPlace :=
  let horizontalPos := l.rectangleFigure.x + 2
  if t.beginDrawCols ≤ i ∧ (i : ℤ) ≤ t.colsWindow + t.beginDrawCols then
    l.moveTo i horizontalPos
      (l.colsRectTop + (l.getColDefaultHeight * (i - t.beginDrawCols) + (i - t.beginDrawCols) * internalPadding))
  else l.moveTo i offCanvas offCanvas

/- The loop from 2 while less than maxColIndex. -/
def recalculateColsPos (t : ddTableFigure) (places : ℕ → ColumnPlace) : ℕ → ColumnPlace :=
  ((List.range t.maxColIndex.toNat).drop 2).foldl (fun places i => Function.update places i (l.placed t i)) places

def part (place : ℤ × ℤ) (size : Size) : Rect := ⟨place.1, place.2, size.width, size.height⟩

/- ddColumnFigure::containsPoint -/
def columnContains (places : ℕ → ColumnPlace) (i : ℕ) (x y : ℤ) : Prop :=
  (part (places i).columnText (l.column i).columnText).Contains x y ∨
    (part (places i).kindImage (l.column i).kindImage).Contains x y ∨
    (part (places i).optionImage (l.column i).optionImage).Contains x y

instance (places : ℕ → ColumnPlace) (i : ℕ) (x y : ℤ) : Decidable (l.columnContains places i x y) :=
  inferInstanceAs (Decidable (_ ∨ _ ∨ _))

def containsPoint (places : ℕ → ColumnPlace) (i : ℕ) (x y : ℤ) : Bool :=
  match i with
  | 0 => l.rectangleFigure.Contains x y
  | 1 => l.tableTitle.Contains x y
  | i => l.columnContains places i x y

def findFigure (t : ddTableFigure) (places : ℕ → ColumnPlace) (x y : ℤ) : Option ℕ :=
  (List.range t.figureFigures.length).reverse.find? fun i => l.containsPoint places i x y

end Layout

/- The columns basicDraw draws, by their index. -/
def drawnColumns (t : ddTableFigure) (places : ℕ → ColumnPlace) : List ℕ :=
  ((List.range t.colsWindow.toNat).map fun i => t.beginDrawCols.toNat + i).filter fun i =>
    0 < (places i).basicDisplayBox.1 ∧ 0 < (places i).basicDisplayBox.2

def InWindow (t : ddTableFigure) (i : ℕ) : Prop :=
  t.beginDrawCols ≤ i ∧ (i : ℤ) < t.beginDrawCols + t.colsWindow

structure LaidOut (t : ddTableFigure) (l : Layout) (places : ℕ → ColumnPlace) : Prop where
  onCanvas : ∀ i : ℕ, 2 ≤ i → (i : ℤ) < t.maxColIndex →
    ((places i).basicDisplayBox ≠ (Layout.offCanvas, Layout.offCanvas) ↔ InWindow t i)
  top : ∀ i, InWindow t i → i = t.beginDrawCols → (places i).basicDisplayBox.2 = l.colsRectTop
  below : ∀ i j, InWindow t i → InWindow t j → i < j →
    (places i).basicDisplayBox.2 + l.getColDefaultHeight ≤ (places j).basicDisplayBox.2
  apart : ∀ i j, InWindow t i → InWindow t j → i ≠ j → ∀ x y,
    ¬ (l.columnContains places i x y ∧ l.columnContains places j x y)
  hit : ∀ i : ℕ, 2 ≤ i → (i : ℤ) < t.maxColIndex →
    ((∃ x y, 0 ≤ x ∧ 0 ≤ y ∧ l.findFigure t places x y = some i) ↔ i ∈ drawnColumns t places)

namespace Layout
variable {l : Layout} {t : ddTableFigure} {places : ℕ → ColumnPlace} {i j : ℕ} {x y : ℤ}

theorem updateEach {β : Type} (value : ℕ → β) (indexes : List ℕ) (old : ℕ → β) (i : ℕ) :
    indexes.foldl (fun values i => Function.update values i (value i)) old i =
      if i ∈ indexes then value i else old i := by
  induction indexes generalizing old with
  | nil => rfl
  | cons index indexes ih =>
    rw [List.foldl_cons, ih]
    by_cases later : i ∈ indexes
    · rw [if_pos later, if_pos (List.mem_cons_of_mem index later)]
    · rw [if_neg later, Function.update_apply]
      by_cases same : i = index
      · simp [same]
      · simp [same, later]

theorem recalculated (first : 2 ≤ i) (last : (i : ℤ) < t.maxColIndex) :
    l.recalculateColsPos t places i = l.placed t i := by
  have member : i ∈ (List.range t.maxColIndex.toNat).drop 2 := by
    rw [List.mem_drop_iff_getElem]
    refine ⟨i - 2, ?_, ?_⟩
    · rw [List.length_range]
      omega
    · rw [List.getElem_range]
      omega
  rw [recalculateColsPos, updateEach, if_pos member]

def lineTop (l : Layout) (t : ddTableFigure) (i : ℕ) : ℤ :=
  l.colsRectTop + (l.getColDefaultHeight + internalPadding) * (i - t.beginDrawCols)

theorem placedShown (begins : t.beginDrawCols ≤ i) (ends : (i : ℤ) ≤ t.colsWindow + t.beginDrawCols) :
    l.placed t i = l.moveTo i (l.rectangleFigure.x + 2) (l.lineTop t i) := by
  rw [placed, if_pos ⟨begins, ends⟩, lineTop, Int.add_mul, Int.mul_comm internalPadding]

theorem topPositive (l : Layout) : 0 < l.colsRectTop := by
  have top := l.top
  have line := l.line
  have title := l.colsTitle
  unfold colsRectTop getColDefaultHeight
  omega

theorem linePositive (begins : t.beginDrawCols ≤ i) : 0 < l.lineTop t i := by
  have top := l.topPositive
  have line := l.line
  have rest : 0 ≤ (l.getColDefaultHeight + internalPadding) * (i - t.beginDrawCols) :=
    Int.mul_nonneg (by unfold getColDefaultHeight internalPadding; omega) (by omega)
  unfold lineTop
  omega

theorem lineBelow (less : i < j) :
    l.lineTop t i + l.getColDefaultHeight + internalPadding ≤ l.lineTop t j := by
  have line := l.line
  have step : (l.getColDefaultHeight + internalPadding) * 1 ≤
      (l.getColDefaultHeight + internalPadding) * ((j : ℤ) - i) :=
    Int.mul_le_mul_of_nonneg_left (by omega) (by unfold getColDefaultHeight internalPadding; omega)
  have sum : (l.getColDefaultHeight + internalPadding) * ((j : ℤ) - t.beginDrawCols) =
      (l.getColDefaultHeight + internalPadding) * (i - t.beginDrawCols) +
        (l.getColDefaultHeight + internalPadding) * ((j : ℤ) - i) := by
    rw [← Int.mul_add]
    congr 1
    omega
  unfold lineTop
  omega

theorem containsLine {x' y' : ℤ} (placed : places i = l.moveTo i x' y') (inside : l.columnContains places i x y) :
    y' ≤ y ∧ y < y' + l.getColDefaultHeight := by
  have kind := (l.column i).kindFits
  have option := (l.column i).optionFits
  have text := (l.column i).textFits
  rw [columnContains, placed] at inside
  unfold getColDefaultHeight
  rcases inside with ⟨_, low, high, _⟩ | ⟨_, low, high, _⟩ | ⟨_, low, high, _⟩ <;>
    simp only [part, moveTo] at low high <;> omega

theorem offUntouched (placed : places i = l.moveTo i offCanvas offCanvas) (mouse : 0 ≤ y) :
    ¬ l.columnContains places i x y := by
  intro inside
  have line := (containsLine placed inside).2
  have screen := l.screen
  unfold getColDefaultHeight offCanvas at line
  omega

theorem textContained {x' y' : ℤ} (placed : places i = l.moveTo i x' y') :
    l.columnContains places i (x' + ((l.column i).kindImage.width + 3) + ((l.column i).optionImage.width + 3)) y' := by
  obtain ⟨wide, high⟩ := (l.column i).textSome
  rw [columnContains, placed]
  refine .inl ⟨Int.le_refl _, Int.le_refl _, ?_, ?_⟩
  · simpa [part, moveTo] using high
  · simpa [part, moveTo] using wide

theorem findLast {p : ℕ → Bool} {n : ℕ} (here : p i = true) (inside : i < n)
    (later : ∀ j, i < j → j < n → p j = false) : (List.range n).reverse.find? p = some i := by
  induction n with
  | zero => exact absurd inside (Nat.not_lt_zero i)
  | succ n ih =>
    rw [List.range_succ, List.reverse_append, List.reverse_singleton, List.singleton_append]
    rcases Nat.lt_succ_iff_lt_or_eq.mp inside with less | rfl
    · rw [List.find?_cons_of_neg (by simp [later n less (Nat.lt_succ_self n)])]
      exact ih less fun j after before => later j after (Nat.lt_succ_of_lt before)
    · exact List.find?_cons_of_pos here

theorem containsColumn (column : 2 ≤ i) : l.containsPoint places i x y = true ↔ l.columnContains places i x y := by
  obtain ⟨k, rfl⟩ : ∃ k, i = k + 2 := ⟨i - 2, by omega⟩
  exact decide_eq_true_iff

end Layout

section Window
variable {t : ddTableFigure} {i : ℕ}

/- The column behind the window counts as visible. -/
def Ends (t : ddTableFigure) : Prop := t.beginDrawCols + t.colsWindow = t.maxColIndex ∨ t.colsWindow < 0

theorem windowOwned (invariant : ColumnsWindow t) (window : InWindow t i) : 2 ≤ i ∧ (i : ℤ) < t.maxColIndex := by
  have begins := invariant.begins
  have ends := invariant.ends
  obtain ⟨first, last⟩ := window
  omega

theorem visibleWindow (ends : Ends t) (owned : (i : ℤ) < t.maxColIndex) :
    t.beginDrawCols ≤ i ∧ (i : ℤ) ≤ t.colsWindow + t.beginDrawCols ↔ InWindow t i := by
  unfold InWindow
  rcases ends with ends | none <;> omega

end Window

namespace Layout
variable {l : Layout} {t : ddTableFigure} {places : ℕ → ColumnPlace} {i j : ℕ} {x y : ℤ}

theorem windowPlaced (invariant : ColumnsWindow t) (window : InWindow t i) :
    l.recalculateColsPos t places i = l.moveTo i (l.rectangleFigure.x + 2) (l.lineTop t i) := by
  obtain ⟨first, last⟩ := windowOwned invariant window
  have before := window.2
  rw [recalculated first last, placedShown window.1 (by omega)]

theorem restPlaced (ends : Ends t) (first : 2 ≤ i) (owned : (i : ℤ) < t.maxColIndex) (outside : ¬ InWindow t i) :
    l.recalculateColsPos t places i = l.moveTo i offCanvas offCanvas := by
  rw [recalculated first owned, placed, if_neg fun visible => outside ((visibleWindow ends owned).mp visible)]

theorem memDrawn (invariant : ColumnsWindow t) :
    i ∈ drawnColumns t (l.recalculateColsPos t places) ↔ InWindow t i := by
  have begins := invariant.begins
  have listed : i ∈ (List.range t.colsWindow.toNat).map (fun i => t.beginDrawCols.toNat + i) ↔ InWindow t i := by
    rw [List.mem_map]
    constructor
    · rintro ⟨k, member, rfl⟩
      have less := List.mem_range.mp member
      constructor <;> omega
    · rintro ⟨first, last⟩
      exact ⟨i - t.beginDrawCols.toNat, List.mem_range.mpr (by omega), by omega⟩
  rw [drawnColumns, List.mem_filter, listed]
  refine and_iff_left_of_imp fun window => ?_
  rw [windowPlaced invariant window]
  have left := l.left
  have top := l.linePositive window.1
  have column : 0 < l.rectangleFigure.x + 2 := by omega
  exact decide_eq_true ⟨column, top⟩

theorem windowApart (invariant : ColumnsWindow t) (first : InWindow t i) (second : InWindow t j) (less : i < j) :
    ¬ (l.columnContains (l.recalculateColsPos t places) i x y ∧
      l.columnContains (l.recalculateColsPos t places) j x y) := by
  rintro ⟨here, there⟩
  have upper := (containsLine (windowPlaced invariant first) here).2
  have lower := (containsLine (windowPlaced invariant second) there).1
  have below := @lineBelow l t i j less
  unfold internalPadding at below
  omega

theorem windowHit (invariant : ColumnsWindow t) (ends : Ends t) (first : 2 ≤ i) (owned : (i : ℤ) < t.maxColIndex) :
    (∃ x y, 0 ≤ x ∧ 0 ≤ y ∧ l.findFigure t (l.recalculateColsPos t places) x y = some i) ↔ InWindow t i := by
  have count := invariant.figures
  constructor
  · rintro ⟨x, y, -, mouse, found⟩
    by_contra outside
    have point : l.containsPoint (l.recalculateColsPos t places) i x y = true := by
      unfold findFigure at found
      exact (List.find?_eq_some_iff_append.mp found).1
    have here := (containsColumn first).mp point
    exact offUntouched (restPlaced ends first owned outside) mouse here
  · intro window
    have placed := @windowPlaced l t places i invariant window
    have kind := (l.column i).kindWidth
    have option := (l.column i).optionWidth
    have left := l.left
    have top := @linePositive l t i window.1
    refine ⟨_, _, ?_, Int.le_of_lt top, findLast ((containsColumn first).mpr (textContained placed)) (by omega) ?_⟩
    · omega
    · intro j after before
      rw [Bool.eq_false_iff]
      intro later
      have there := (containsColumn (by omega)).mp later
      by_cases inside : InWindow t j
      · exact windowApart invariant window inside after ⟨textContained placed, there⟩
      · exact offUntouched (restPlaced ends (by omega) (by omega) inside) (Int.le_of_lt top) there

/-- The columns of the window are laid out, drawn and hit, and no others, just when the window ends at the last
column; otherwise the one behind it is placed and hit as well. -/
theorem columnsLaidOut (invariant : ColumnsWindow t) (l : Layout) (places : ℕ → ColumnPlace) :
    LaidOut t l (l.recalculateColsPos t places) ↔
      t.beginDrawCols + t.colsWindow = t.maxColIndex ∨ t.colsWindow < 0 := by
  have begins := invariant.begins
  have fits := invariant.ends
  constructor
  · intro laid
    by_contra short
    push Not at short
    obtain ⟨behind, some⟩ := short
    obtain ⟨i, place⟩ : ∃ i : ℕ, (i : ℤ) = t.beginDrawCols + t.colsWindow :=
      ⟨(t.beginDrawCols + t.colsWindow).toNat, by omega⟩
    have owned : (i : ℤ) < t.maxColIndex := by omega
    have shown : l.recalculateColsPos t places i = l.moveTo i (l.rectangleFigure.x + 2) (l.lineTop t i) := by
      rw [recalculated (by omega) owned, placedShown (by omega) (by omega)]
    have positive := @linePositive l t i (by omega)
    have window := (laid.onCanvas i (by omega) owned).mp (by
      rw [shown]
      intro off
      have same : l.lineTop t i = offCanvas := congrArg Prod.snd off
      rw [same] at positive
      exact absurd positive (by decide))
    have inside := window.2
    omega
  · intro ends
    have same (i : ℕ) (window : InWindow t i) := @windowPlaced l t places i invariant window
    refine ⟨fun i first owned => ?_, fun i window first => ?_, fun i j here there less => ?_,
      fun i j here there other x y => ?_, fun i first owned => ?_⟩
    · constructor
      · intro placed
        by_contra outside
        rw [restPlaced ends first owned outside] at placed
        exact placed rfl
      · intro window off
        have positive := @linePositive l t i window.1
        rw [same i window] at off
        have low : l.lineTop t i = offCanvas := congrArg Prod.snd off
        rw [low] at positive
        exact absurd positive (by decide)
    · rw [same i window]
      show l.lineTop t i = _
      rw [lineTop, first, Int.sub_self, Int.mul_zero, Int.add_zero]
    · rw [same i here, same j there]
      have below := @lineBelow l t i j less
      have padding : 0 ≤ internalPadding := by decide
      show l.lineTop t i + _ ≤ l.lineTop t j
      omega
    · rcases Nat.lt_or_gt_of_ne other with less | less
      · exact windowApart invariant here there less
      · exact fun both => windowApart invariant there here less both.symm
    · rw [windowHit invariant ends first owned, memDrawn invariant]

def sample : Layout where
  rectangleFigure := ⟨1, 1, 100, 100⟩
  tableTitle := ⟨5, 2, 80, 12⟩
  colsTitleHeight := 8
  column _ :=
    { kindImage := ⟨8, 10⟩
      optionImage := ⟨8, 10⟩
      columnText := ⟨12, 12⟩
      kindFits := by decide
      optionFits := by decide
      textFits := by decide
      kindWidth := by decide
      optionWidth := by decide
      textSome := by decide }
  left := by decide
  top := by decide
  line := by decide
  screen := by decide
  colsTitle := by decide

def nowhere : ℕ → ColumnPlace := fun _ => ⟨(0, 0), (0, 0), (0, 0), (0, 0)⟩

def scrolled : ddTableFigure := ((ddTableFigure.Init.addColumn 0).addColumn 1).setColumnsWindow 1 false

theorem scrolledInvariant : ColumnsWindow scrolled where
  colsRowsSize := by decide
  maxColIndex := by decide
  figures := by decide
  begins := by decide
  window := by decide
  ends := by decide
  draws := by decide

theorem scrolledLaidOut : LaidOut scrolled sample (sample.recalculateColsPos scrolled nowhere) ↔
    scrolled.beginDrawCols + scrolled.colsWindow = scrolled.maxColIndex ∨ scrolled.colsWindow < 0 :=
  columnsLaidOut scrolledInvariant sample nowhere

/- The second column is hit and not drawn. -/
theorem behindWindow : ¬ ∀ (t : ddTableFigure) (l : Layout) (places : ℕ → ColumnPlace),
    ColumnsWindow t → LaidOut t l (l.recalculateColsPos t places) := by
  intro laid
  have hit := (laid scrolled sample nowhere scrolledInvariant).hit 3 (by decide) (by decide)
  have drawn := hit.mp ⟨30, 40, by decide, by decide, by decide⟩
  exact absurd drawn (by decide)

end Layout
end PgAdmin.ddColumnsWindow
