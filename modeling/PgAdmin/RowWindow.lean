import Mathlib.Data.Int.Notation
import Mathlib.Data.List.Basic

/-! A window on a list of rows: how many rows there are, the first row shown and how many are. It
never reaches behind the last row. -/

structure RowWindow where
  total : ℕ
  first : ℕ
  shown : ℕ
  fits : first + shown ≤ total

namespace RowWindow

def empty : RowWindow := ⟨0, 0, 0, Nat.le_refl 0⟩

def grow (w : RowWindow) : RowWindow where
  total := w.total + 1
  first := w.first
  shown := w.shown + 1
  fits := Nat.succ_le_succ w.fits

def shrink (w : RowWindow) (some : 0 < w.total) : RowWindow where
  total := w.total - 1
  first := w.first - 1
  shown := if w.shown = w.total then w.shown - 1 else w.shown
  fits := by
    have fits := w.fits
    split <;> omega

/- Another number of rows is shown from the first one on, or, where the last row is shown, up to it. -/
def resize (w : RowWindow) (rows : ℕ) (within : rows ≤ w.total) : RowWindow :=
  if h : w.first + rows ≤ w.total then
    { w with shown := rows, fits := h }
  else if w.first + w.shown = w.total then
    { total := w.total, first := w.total - rows, shown := rows, fits := by omega }
  else w

def resizeTo (w : RowWindow) (value : ℤ) : RowWindow :=
  if h : 0 < value ∧ value.toNat ≤ w.total then w.resize value.toNat h.2 else w

def whole (w : RowWindow) : RowWindow where
  total := w.total
  first := 0
  shown := w.total
  fits := by simp

def up (w : RowWindow) : RowWindow where
  total := w.total
  first := w.first - 1
  shown := w.shown
  fits := by
    have fits := w.fits
    omega

def down (w : RowWindow) : RowWindow :=
  if h : w.first + w.shown < w.total then
    { w with first := w.first + 1, fits := by omega }
  else w

variable {α : Type} (w : RowWindow)

def rows (xs : List α) : List α :=
  (xs.drop w.first).take w.shown

theorem resizeToTotal (value : ℤ) : (w.resizeTo value).total = w.total := by
  unfold resizeTo resize
  split
  · split
    · rfl
    · split <;> rfl
  · rfl

theorem rowsRead {xs : List α} (length : xs.length = w.total) :
    (List.range w.shown).map (fun i => xs[w.first + i]?) = (w.rows xs).map some := by
  have fits := w.fits
  refine List.ext_getElem ?_ fun i left right => ?_
  · rw [List.length_map, List.length_map, List.length_range, rows, List.length_take, List.length_drop]
    omega
  · have inside : w.first + i < xs.length := by
      simp only [List.length_map, List.length_range] at left
      omega
    simp [rows, List.getElem?_eq_getElem inside]

end RowWindow
