import Mathlib.Logic.Function.Iterate
import PgAdmin.RowMoves
import PgAdmin.QueryColumnLists

/-! The buttons of the query builder that move the selected rows of a grid: up, down, to the top and to the bottom.
The panel of the columns and that of the order have the same handlers, each on a table of its own. -/
namespace PgAdmin.gqb
open RowMoves

structure GridTable (G : Type) where
  GetNumberRows : G → ℤ
  changesPositions : G → ℤ → ℤ → G
  changesRangeOnePos : G → ℤ → ℤ → ℤ → G

/- Without a selection both are -1; with one row selBottom is -1 or the row itself. -/
structure Selection where
  selTop : ℤ
  selBottom : ℤ
  deriving DecidableEq

def Selection.single (sel : Selection) : Prop := 0 ≤ sel.selTop ∧ sel.selBottom = -1 ∨ sel.selTop = sel.selBottom

instance (sel : Selection) : Decidable sel.single := inferInstanceAs (Decidable (_ ∨ _))

section Handlers
variable {G : Type} (table : GridTable G)

def rangeUp (state : G × Selection) : G × Selection :=
  let (g, sel) := state
  let g := table.changesRangeOnePos g sel.selTop sel.selBottom (sel.selTop - 1)
  (g, if 0 < sel.selTop then ⟨sel.selTop - 1, sel.selBottom - 1⟩ else sel)

def rangeDown (state : G × Selection) : G × Selection :=
  let (g, sel) := state
  let g := table.changesRangeOnePos g sel.selTop sel.selBottom (sel.selTop + 1)
  (g, if sel.selBottom < table.GetNumberRows g - 1 then ⟨sel.selTop + 1, sel.selBottom + 1⟩ else sel)

def OnButtonUp (g : G) (sel : Selection) : G × Selection :=
  if sel.single then
    let selTop := sel.selTop - 1
    (table.changesPositions g selTop (selTop + 1), ⟨if selTop < 0 then 0 else selTop, -1⟩)
  else if 0 ≤ sel.selTop ∧ 0 ≤ sel.selBottom then rangeUp table (g, sel)
  else (g, sel)

def OnButtonUpTop (g : G) (sel : Selection) : G × Selection :=
  if sel.single then (table.changesRangeOnePos g 0 (sel.selTop - 1) 1, ⟨0, -1⟩)
  else if 0 ≤ sel.selTop ∧ 0 ≤ sel.selBottom then (rangeUp table)^[sel.selTop.toNat] (g, sel)
  else (g, sel)

def OnButtonDown (g : G) (sel : Selection) : G × Selection :=
  if sel.single then
    let selTop := sel.selTop + 1
    let g := table.changesPositions g selTop (selTop - 1)
    (g, ⟨if selTop = table.GetNumberRows g then selTop - 1 else selTop, -1⟩)
  else if 0 ≤ sel.selTop ∧ 0 ≤ sel.selBottom then rangeDown table (g, sel)
  else (g, sel)

def OnButtonDownBottom (g : G) (sel : Selection) : G × Selection :=
  if sel.single then
    let newBottom := table.GetNumberRows g - 1
    let selTop := sel.selTop + 1
    (table.changesRangeOnePos g selTop newBottom (selTop - 1), ⟨newBottom, -1⟩)
  else if 0 ≤ sel.selTop ∧ 0 ≤ sel.selBottom then
    (rangeDown table)^[(table.GetNumberRows g - sel.selBottom).toNat] (g, sel)
  else (g, sel)

inductive Button where
  | Up | UpTop | Down | DownBottom
  deriving DecidableEq

def press (button : Button) : G → Selection → G × Selection :=
  match button with
  | .Up => OnButtonUp table
  | .UpTop => OnButtonUpTop table
  | .Down => OnButtonDown table
  | .DownBottom => OnButtonDownBottom table

end Handlers

/- gModel -/
def gqbGridPanel.table : GridTable gqbGridProjTable where
  GetNumberRows g := g.colsPosition.length
  changesPositions := gqbGridProjTable.changesPositions
  changesRangeOnePos := gqbGridProjTable.changesRangeOnePos

/- tableRight -/
def gqbOrderPanel.table : GridTable (gqbGridOrderTable 2) where
  GetNumberRows g := g.columns.length
  changesPositions := gqbGridOrderTable.changesPositions
  changesRangeOnePos := gqbGridOrderTable.changesRangeOnePos

/- The rows of a grid, with the selected ones in their middle when there are any. -/
inductive Marked (R : Type) where
  | none (rows : List R)
  | block (front : List R) (first : R) (rest back : List R)

namespace Marked
variable {R : Type}

def rows : Marked R → List R
  | none rows => rows
  | block front first rest back => front ++ first :: (rest ++ back)

def Remembers (m : Marked R) (sel : Selection) : Prop :=
  match m with
  | none _ => sel = ⟨-1, -1⟩
  | block front _ rest _ => sel.selTop = front.length ∧
      (sel.selBottom = front.length + rest.length ∨ rest = [] ∧ sel.selBottom = -1)

def place (button : Button) (before behind : ℕ) : ℕ :=
  match button with
  | .Up => before - 1
  | .UpTop => 0
  | .Down => if behind = 0 then before else before + 1
  | .DownBottom => before + behind

def moved (button : Button) : Marked R → Marked R
  | none rows => none rows
  | block front first rest back =>
    let others := front ++ back
    let place := place button front.length back.length
    block (others.take place) first rest (others.drop place)

end Marked

def rowTable (R : Type) : GridTable (List R) where
  GetNumberRows rows := rows.length
  changesPositions := swap
  changesRangeOnePos rows topPos bottomPos newTop :=
    swapAll (rangeMoves rows.length (topPos + 1) (bottomPos + 1) newTop) rows

structure StandsFor {G R : Type} (table : GridTable G) (ofRows : List R → G) : Prop where
  GetNumberRows : ∀ rows, table.GetNumberRows (ofRows rows) = rows.length
  changesPositions : ∀ rows sPos dPos,
    table.changesPositions (ofRows rows) sPos dPos = ofRows ((rowTable R).changesPositions rows sPos dPos)
  changesRangeOnePos : ∀ rows topPos bottomPos newTop, table.changesRangeOnePos (ofRows rows) topPos bottomPos newTop =
    ofRows ((rowTable R).changesRangeOnePos rows topPos bottomPos newTop)

section Standing
variable {G R : Type} {table : GridTable G} {ofRows : List R → G}

def lift (ofRows : List R → G) (state : List R × Selection) : G × Selection := (ofRows state.1, state.2)

theorem StandsFor.rangeUp (stands : StandsFor table ofRows) (state : List R × Selection) :
    rangeUp table (lift ofRows state) = lift ofRows (rangeUp (rowTable R) state) := by
  simp only [gqb.rangeUp, lift, stands.changesRangeOnePos]
  rfl

theorem StandsFor.rangeDown (stands : StandsFor table ofRows) (state : List R × Selection) :
    rangeDown table (lift ofRows state) = lift ofRows (rangeDown (rowTable R) state) := by
  simp only [gqb.rangeDown, lift, stands.changesRangeOnePos, stands.GetNumberRows]
  rfl

theorem StandsFor.iterate {step : G × Selection → G × Selection} {rowStep : List R × Selection → List R × Selection}
    (each : ∀ state, step (lift ofRows state) = lift ofRows (rowStep state)) (turns : ℕ)
    (state : List R × Selection) :
    step^[turns] (lift ofRows state) = lift ofRows (rowStep^[turns] state) := by
  induction turns generalizing state with
  | zero => rfl
  | succ turns ih => rw [Function.iterate_succ_apply, Function.iterate_succ_apply, each, ih]

theorem StandsFor.press (stands : StandsFor table ofRows) (button : Button) (rows : List R) (sel : Selection) :
    press table button (ofRows rows) sel = lift ofRows (press (rowTable R) button rows sel) := by
  have up := StandsFor.iterate stands.rangeUp
  have down := StandsFor.iterate stands.rangeDown
  cases button with
  | Up =>
    simp only [gqb.press, OnButtonUp, stands.changesPositions]
    split
    · rfl
    · split
      · exact stands.rangeUp (rows, sel)
      · rfl
  | UpTop =>
    simp only [gqb.press, OnButtonUpTop, stands.changesRangeOnePos]
    split
    · rfl
    · split
      · exact up _ (rows, sel)
      · rfl
  | Down =>
    simp only [gqb.press, OnButtonDown, stands.changesPositions, stands.GetNumberRows]
    split
    · rfl
    · split
      · exact stands.rangeDown (rows, sel)
      · rfl
  | DownBottom =>
    simp only [gqb.press, OnButtonDownBottom, stands.changesRangeOnePos, stands.GetNumberRows]
    split
    · rfl
    · split
      · exact down _ (rows, sel)
      · rfl

theorem projectionStands : StandsFor gqbGridPanel.table gqbGridProjTable.ofRows := by
  have count (rows : List ProjRow) : (gqbGridProjTable.ofRows rows).colsPosition.length = rows.length := by
    simp [gqbGridProjTable.ofRows]
  have positions (rows : List ProjRow) (sPos dPos : ℤ) :
      (gqbGridProjTable.ofRows rows).changesPositions sPos dPos = gqbGridProjTable.ofRows (swap rows sPos dPos) := by
    simp only [gqbGridProjTable.changesPositions, count]
    split
    case isTrue => simp [gqbGridProjTable.ofRows, swapMap]
    case isFalse outside => rw [swapOutside (by omega)]
  refine ⟨fun rows => by rw [← count rows]; rfl, positions, fun rows topPos bottomPos newTop => ?_⟩
  show (gqbGridProjTable.ofRows rows).changesRangeOnePos topPos bottomPos newTop = gqbGridProjTable.ofRows (swapAll _ _)
  rw [gqbGridProjTable.changesRangeOnePos, count]
  generalize rangeMoves _ _ _ _ = moves
  induction moves generalizing rows with
  | nil => rfl
  | cons move moves ih =>
    rw [List.foldl_cons, positions, ih]
    rfl

theorem orderStands : StandsFor gqbOrderPanel.table (gqbGridOrderTable.ofRows (n := 2)) := by
  have count (rows : List OrderRow) :
      (gqbGridOrderTable.ofRows rows : gqbGridOrderTable 2).columns.length = rows.length := by
    simp [gqbGridOrderTable.ofRows]
  have positions (rows : List OrderRow) (sPos dPos : ℤ) :
      (gqbGridOrderTable.ofRows rows : gqbGridOrderTable 2).changesPositions sPos dPos =
        gqbGridOrderTable.ofRows (swap rows sPos dPos) := by
    simp only [gqbGridOrderTable.changesPositions, count]
    split
    case isTrue => simp [gqbGridOrderTable.ofRows, swapMap]
    case isFalse outside => rw [swapOutside (by omega)]
  refine ⟨fun rows => by rw [← count rows]; rfl, positions, fun rows topPos bottomPos newTop => ?_⟩
  show (gqbGridOrderTable.ofRows rows : gqbGridOrderTable 2).changesRangeOnePos topPos bottomPos newTop =
    gqbGridOrderTable.ofRows (swapAll _ _)
  rw [gqbGridOrderTable.changesRangeOnePos, count]
  generalize rangeMoves _ _ _ _ = moves
  induction moves generalizing rows with
  | nil => rfl
  | cons move moves ih =>
    rw [List.foldl_cons, positions, ih]
    rfl

end Standing

section Ranges
variable {R : Type} {front block back : List R} {a : R}

theorem rangeUpMoves (some : block ≠ []) :
    rangeUp (rowTable R) (front ++ a :: (block ++ back), ⟨front.length + 1, front.length + block.length⟩) =
      (front ++ (block ++ a :: back), ⟨front.length, front.length + block.length - 1⟩) := by
  have positive := List.length_pos_iff.mpr some
  have moved : (rowTable R).changesRangeOnePos (front ++ a :: (block ++ back)) (front.length + 1)
      (front.length + block.length) (front.length + 1 - 1) = front ++ block ++ a :: back :=
    rangeForward (by omega) (by omega) (by omega) (by omega) (by
      simp only [List.length_append, List.length_cons]
      omega)
  have above : (0 : ℤ) < front.length + 1 := by omega
  simp only [rangeUp, moved, if_pos above, List.append_assoc]
  congr 2
  omega

theorem rangeDownMoves (some : block ≠ []) :
    rangeDown (rowTable R) (front ++ (block ++ a :: back), ⟨front.length, front.length + block.length - 1⟩) =
      (front ++ a :: (block ++ back), ⟨front.length + 1, front.length + block.length⟩) := by
  have positive := List.length_pos_iff.mpr some
  have moved : (rowTable R).changesRangeOnePos (front ++ (block ++ a :: back)) front.length
      (front.length + block.length - 1) (front.length + 1) = front ++ a :: (block ++ back) := by
    rw [← List.append_assoc]
    exact rangeBackward (by omega) (by omega) (by simp only [List.length_append, List.length_cons]; omega)
      (by omega) (by simp only [List.length_append, List.length_cons]; omega)
  have below : (front.length + block.length - 1 : ℤ) <
      (rowTable R).GetNumberRows (front ++ a :: (block ++ back)) - 1 := by
    show _ < ((front ++ a :: (block ++ back)).length : ℤ) - 1
    simp only [List.length_append, List.length_cons]
    omega
  simp only [rangeDown, moved, if_pos below]
  congr 2
  omega

theorem rangeUpFirst (rows : List R) (bottom : ℤ) : rangeUp (rowTable R) (rows, ⟨0, bottom⟩) = (rows, ⟨0, bottom⟩) := by
  have none : rangeMoves rows.length (0 + 1) (bottom + 1) (0 - 1) = [] :=
    rangeNone (.inr (.inl ⟨by omega, by omega⟩))
  have same : (rowTable R).changesRangeOnePos rows 0 bottom (0 - 1) = rows := by
    show swapAll _ rows = rows
    rw [none]
    rfl
  simp only [rangeUp, same]
  rfl

theorem rangeDownLast (front block : List R) :
    rangeDown (rowTable R) (front ++ block, ⟨front.length, front.length + block.length - 1⟩) =
      (front ++ block, ⟨front.length, front.length + block.length - 1⟩) := by
  have none : rangeMoves (front ++ block).length (front.length + 1) (front.length + block.length - 1 + 1)
      (front.length + 1) = [] := by
    refine rangeNone (.inr (.inr ⟨by omega, ?_⟩))
    rw [List.length_append]
    omega
  have same : (rowTable R).changesRangeOnePos (front ++ block) front.length (front.length + block.length - 1)
      (front.length + 1) = front ++ block := by
    show swapAll _ (front ++ block) = _
    rw [none]
    rfl
  have last : ¬ (front.length + block.length - 1 : ℤ) < (rowTable R).GetNumberRows (front ++ block) - 1 := by
    show ¬ _ < ((front ++ block).length : ℤ) - 1
    rw [List.length_append]
    omega
  simp only [rangeDown, same, if_neg last]

theorem rangeUpTop (some : block ≠ []) :
    (rangeUp (rowTable R))^[front.length] (front ++ (block ++ back), ⟨front.length, front.length + block.length - 1⟩) =
      (block ++ (front ++ back), ⟨0, block.length - 1⟩) := by
  induction front using List.reverseRecOn generalizing back with
  | nil => simp
  | append_singleton front a ih =>
    have step := @rangeUpMoves R front block back a some
    have next := @ih (a :: back)
    have text : front ++ [a] ++ (block ++ back) = front ++ a :: (block ++ back) := by simp
    have length : ((front ++ [a]).length : ℤ) = front.length + 1 := by simp
    have bottom : (front.length + 1 + block.length - 1 : ℤ) = front.length + block.length := by omega
    rw [length, bottom, text, List.length_append, List.length_singleton, Function.iterate_succ_apply, step, next]
    simp

theorem rangeDownBottom (some : block ≠ []) :
    (rangeDown (rowTable R))^[back.length + 1]
        (front ++ (block ++ back), ⟨front.length, front.length + block.length - 1⟩) =
      (front ++ (back ++ block), ⟨front.length + back.length, front.length + back.length + block.length - 1⟩) := by
  induction back generalizing front with
  | nil =>
    have last := rangeDownLast front block
    simpa using last
  | cons a back ih =>
    have step := @rangeDownMoves R front block back a some
    have next := @ih (front ++ [a])
    have length : ((front ++ [a]).length : ℤ) = front.length + 1 := by simp
    have bottom : (front.length + 1 + block.length - 1 : ℤ) = front.length + block.length := by omega
    have text : front ++ [a] ++ (block ++ back) = front ++ a :: (block ++ back) := by simp
    rw [length, bottom, text] at next
    rw [List.length_cons, Function.iterate_succ_apply, step, next]
    have total : (front.length + 1 + back.length : ℤ) = front.length + ((back.length + 1 : ℕ) : ℤ) := by omega
    rw [total]
    simp

end Ranges

section Pressing
variable {R : Type} {front rest back : List R} {first : R} {sel : Selection}

theorem singleRest (remembers : (Marked.block front first rest back).Remembers sel) : sel.single ↔ rest = [] := by
  obtain ⟨top, bottom⟩ := remembers
  unfold Selection.single
  constructor
  · intro single
    refine List.eq_nil_of_length_eq_zero ?_
    rcases bottom with bottom | ⟨none, -⟩
    · omega
    · rw [none]
      rfl
  · rintro rfl
    rw [List.length_nil] at bottom
    omega

theorem rowUp (single : sel.single) (top : sel.selTop = front.length) :
    OnButtonUp (rowTable R) (front ++ first :: back) sel =
      match front.getLast? with
      | none => (front ++ first :: back, ⟨0, -1⟩)
      | some a => (front.dropLast ++ first :: a :: back, ⟨front.length - 1, -1⟩) := by
  simp only [OnButtonUp, if_pos single, top]
  rcases List.eq_nil_or_concat front with rfl | ⟨front, a, rfl⟩
  · have same : swap (first :: back) (0 - 1) (0 - 1 + 1) = first :: back := swapOutside (.inl (by decide))
    exact Prod.ext same rfl
  · have next := swapNext front back a first
    have length : ((front.concat a).length : ℤ) - 1 = front.length := by simp
    have inside : ¬ (front.length : ℤ) < 0 := by omega
    have text : front.concat a ++ first :: back = front ++ a :: first :: back := by simp
    rw [length, text, if_neg inside]
    simpa [rowTable] using next

theorem rowUpTop (single : sel.single) (top : sel.selTop = front.length) :
    OnButtonUpTop (rowTable R) (front ++ first :: back) sel = (first :: (front ++ back), ⟨0, -1⟩) := by
  have moved : (rowTable R).changesRangeOnePos (front ++ first :: back) 0 (front.length - 1) 1 =
      first :: (front ++ back) :=
    @rangeBackward R [] front back first _ _ _ _ rfl (by decide)
      (by simp only [List.length_append, List.length_cons]; omega)
      (by omega) (by simp only [List.length_append, List.length_cons]; omega)
  simp only [OnButtonUpTop, if_pos single, top, moved]

theorem rowDown (single : sel.single) (top : sel.selTop = front.length) :
    OnButtonDown (rowTable R) (front ++ first :: back) sel =
      match back with
      | [] => (front ++ [first], ⟨front.length, -1⟩)
      | a :: back => (front ++ a :: first :: back, ⟨front.length + 1, -1⟩) := by
  simp only [OnButtonDown, if_pos single, top, Int.add_sub_cancel]
  cases back with
  | nil =>
    have outside : ((front ++ [first]).length : ℤ) ≤ front.length + 1 := by simp
    have same : (rowTable R).changesPositions (front ++ [first]) (front.length + 1) front.length = front ++ [first] :=
      @swapOutside R (front ++ [first]) (front.length + 1) front.length (.inr (.inr (.inl outside)))
    have last : (front.length + 1 : ℤ) = (rowTable R).GetNumberRows (front ++ [first]) := by simp [rowTable]
    rw [same, if_pos last]
  | cons a back =>
    have next : (rowTable R).changesPositions (front ++ first :: a :: back) (front.length + 1) front.length =
        front ++ a :: first :: back := swapPrevious front back first a
    have inside : ¬ (front.length + 1 : ℤ) = (rowTable R).GetNumberRows (front ++ a :: first :: back) := by
      show ¬ _ = ((front ++ a :: first :: back).length : ℤ)
      simp only [List.length_append, List.length_cons]
      omega
    rw [next, if_neg inside]

theorem rowDownBottom (single : sel.single) (top : sel.selTop = front.length) :
    OnButtonDownBottom (rowTable R) (front ++ first :: back) sel =
      (front ++ back ++ [first], ⟨front.length + back.length, -1⟩) := by
  have last : (rowTable R).GetNumberRows (front ++ first :: back) - 1 = front.length + back.length := by
    show ((front ++ first :: back).length : ℤ) - 1 = _
    simp only [List.length_append, List.length_cons]
    omega
  have moved : (rowTable R).changesRangeOnePos (front ++ first :: back) (front.length + 1)
      (front.length + back.length) front.length = front ++ back ++ [first] := by
    have forward := @rangeForward R front back [] first (front ++ first :: back).length (front.length + 1 + 1)
      (front.length + back.length + 1) front.length (by omega) rfl (by omega) (by omega)
      (by simp only [List.length_append, List.length_cons]; omega)
    rwa [List.append_nil] at forward
  simp only [OnButtonDownBottom, if_pos single, top, last, Int.add_sub_cancel, moved]

theorem rowMoved (button : Button) (remembers : (Marked.block front first [] back).Remembers sel) :
    let m := Marked.block front first [] back
    (press (rowTable R) button m.rows sel).1 = (m.moved button).rows ∧
      (m.moved button).Remembers (press (rowTable R) button m.rows sel).2 := by
  have single := (singleRest remembers).mpr rfl
  have top := remembers.1
  intro m
  cases button with
  | Up =>
    rw [press, show OnButtonUp (rowTable R) m.rows sel = _ from rowUp single top]
    rcases List.eq_nil_or_concat front with rfl | ⟨front, a, rfl⟩
    · exact ⟨rfl, rfl, .inr ⟨rfl, rfl⟩⟩
    · simp [m, Marked.moved, Marked.place, Marked.rows, Marked.Remembers]
  | UpTop =>
    rw [press, show OnButtonUpTop (rowTable R) m.rows sel = _ from rowUpTop single top]
    exact ⟨rfl, rfl, .inr ⟨rfl, rfl⟩⟩
  | Down =>
    rw [press, show OnButtonDown (rowTable R) m.rows sel = _ from rowDown single top]
    cases back with
    | nil => simp [m, Marked.moved, Marked.place, Marked.rows, Marked.Remembers]
    | cons a back =>
      have before : List.take (front.length + 1) front = front := List.take_of_length_le (Nat.le_succ _)
      have behind : List.drop (front.length + 1) front = [] := List.drop_eq_nil_of_le (Nat.le_succ _)
      simp [m, Marked.moved, Marked.place, Marked.rows, Marked.Remembers, List.take_append, List.drop_append, before,
        behind]
  | DownBottom =>
    have before : List.take (front.length + back.length) front = front := List.take_of_length_le (Nat.le_add_right _ _)
    have behind : List.drop (front.length + back.length) front = [] := List.drop_eq_nil_of_le (Nat.le_add_right _ _)
    rw [press, show OnButtonDownBottom (rowTable R) m.rows sel = _ from rowDownBottom single top]
    simp [m, Marked.moved, Marked.place, Marked.rows, Marked.Remembers, List.take_append, List.drop_append, before,
      behind]

theorem rangeMoved (button : Button) (some : rest ≠ [])
    (remembers : (Marked.block front first rest back).Remembers sel) :
    let m := Marked.block front first rest back
    (press (rowTable R) button m.rows sel).1 = (m.moved button).rows ∧
      (m.moved button).Remembers (press (rowTable R) button m.rows sel).2 := by
  have range : ¬ sel.single := fun single => some ((singleRest remembers).mp single)
  obtain ⟨top, bottom | ⟨none, -⟩⟩ := remembers
  case inr => exact absurd none some
  have inside : 0 ≤ sel.selTop ∧ 0 ≤ sel.selBottom := by omega
  have block : first :: rest ≠ [] := List.cons_ne_nil first rest
  have length : ((first :: rest).length : ℤ) = rest.length + 1 := by simp
  obtain ⟨selTop, selBottom⟩ := sel
  dsimp only at top bottom inside
  subst top bottom
  intro m
  have rows : m.rows = front ++ ((first :: rest) ++ back) := rfl
  cases button with
  | Up =>
    simp only [press, OnButtonUp, if_neg range, if_pos inside, rows]
    rcases List.eq_nil_or_concat front with rfl | ⟨front, a, rfl⟩
    · rw [show ((([] : List R).length : ℕ) : ℤ) = 0 from rfl, rangeUpFirst]
      simp [m, Marked.moved, Marked.place, Marked.rows, Marked.Remembers]
    · have moved := @rangeUpMoves R front (first :: rest) back a block
      have length' : ((front.concat a).length : ℤ) = front.length + 1 := by simp
      have bottom : (front.length + 1 + rest.length : ℤ) = front.length + (first :: rest).length := by omega
      have text : front.concat a ++ ((first :: rest) ++ back) = front ++ a :: ((first :: rest) ++ back) := by simp
      rw [length', bottom, text, moved]
      simp [m, Marked.moved, Marked.place, Marked.rows, Marked.Remembers]
      omega
  | UpTop =>
    have moved := @rangeUpTop R front (first :: rest) back block
    have bottom : (front.length + rest.length : ℤ) = front.length + (first :: rest).length - 1 := by omega
    simp only [press, OnButtonUpTop, if_neg range, if_pos inside, rows, Int.toNat_natCast]
    rw [bottom, moved]
    simp [m, Marked.moved, Marked.place, Marked.rows, Marked.Remembers]
  | Down =>
    have bottom : (front.length + rest.length : ℤ) = front.length + (first :: rest).length - 1 := by omega
    simp only [press, OnButtonDown, if_neg range, if_pos inside, rows]
    rw [bottom]
    cases back with
    | nil =>
      rw [List.append_nil, rangeDownLast]
      simp [m, Marked.moved, Marked.place, Marked.rows, Marked.Remembers]
      omega
    | cons a back =>
      have before : List.take (front.length + 1) front = front := List.take_of_length_le (Nat.le_succ _)
      have behind : List.drop (front.length + 1) front = [] := List.drop_eq_nil_of_le (Nat.le_succ _)
      rw [@rangeDownMoves R front (first :: rest) back a block]
      simp [m, Marked.moved, Marked.place, Marked.rows, Marked.Remembers, List.take_append, List.drop_append, before,
        behind]
      omega
  | DownBottom =>
    have bottom : (front.length + rest.length : ℤ) = front.length + (first :: rest).length - 1 := by omega
    have turns : ((rowTable R).GetNumberRows (front ++ ((first :: rest) ++ back)) -
        (front.length + (first :: rest).length - 1)).toNat = back.length + 1 := by
      show (((front ++ ((first :: rest) ++ back)).length : ℤ) - _).toNat = _
      simp only [List.length_append]
      omega
    have before : List.take (front.length + back.length) front = front := List.take_of_length_le (Nat.le_add_right _ _)
    have behind : List.drop (front.length + back.length) front = [] := List.drop_eq_nil_of_le (Nat.le_add_right _ _)
    simp only [press, OnButtonDownBottom, if_neg range, if_pos inside, rows]
    rw [bottom, turns, rangeDownBottom block]
    simp [m, Marked.moved, Marked.place, Marked.rows, Marked.Remembers, List.take_append, List.drop_append, before,
      behind]
    omega

theorem noneStays (button : Button) (rows : List R) : (press (rowTable R) button rows ⟨-1, -1⟩).1 = rows := by
  have single : (⟨-1, -1⟩ : Selection).single := .inr rfl
  have outside {sPos dPos : ℤ} (negative : sPos < 0 ∨ dPos < 0) : (rowTable R).changesPositions rows sPos dPos = rows :=
    swapOutside (negative.elim .inl fun negative => .inr (.inl negative))
  cases button with
  | Up =>
    simp only [press, OnButtonUp, if_pos single]
    exact outside (.inl (by decide))
  | UpTop =>
    simp only [press, OnButtonUpTop, if_pos single]
    show swapAll (rangeMoves rows.length _ _ _) rows = rows
    rw [rangeNone (.inl (by decide))]
    rfl
  | Down =>
    simp only [press, OnButtonDown, if_pos single]
    exact outside (.inr (by decide))
  | DownBottom =>
    simp only [press, OnButtonDownBottom, if_pos single]
    show swapAll (rangeMoves rows.length _ _ _) rows = rows
    rw [rangeNone (.inr (.inl ⟨by decide, by decide⟩))]
    rfl

theorem noneMoved (button : Button) (rows : List R) :
    (press (rowTable R) button rows ⟨-1, -1⟩).2 = ⟨-1, -1⟩ ↔
      rows = [] ∧ (button = .Down ∨ button = .DownBottom) := by
  have single : (⟨-1, -1⟩ : Selection).single := .inr rfl
  have stays := noneStays button rows
  cases button with
  | Up => simp [press, OnButtonUp, if_pos single]
  | UpTop => simp [press, OnButtonUpTop, if_pos single]
  | Down =>
    simp only [press, OnButtonDown, if_pos single] at stays ⊢
    rw [stays]
    show (⟨if (-1 + 1 : ℤ) = rows.length then -1 + 1 - 1 else -1 + 1, -1⟩ : Selection) = _ ↔ _
    cases rows with
    | nil => simp
    | cons => simp; omega
  | DownBottom =>
    simp only [press, OnButtonDownBottom, if_pos single]
    show (⟨(rows.length : ℤ) - 1, -1⟩ : Selection) = _ ↔ _
    cases rows with
    | nil => simp
    | cons => simp

end Pressing

/- The block is at its new place in all arrays of the table, and the selection remembers it there. -/
def Moved {G R : Type} (table : GridTable G) (ofRows : List R → G) (button : Button) (m : Marked R)
    (sel : Selection) : Prop :=
  (press table button (ofRows m.rows) sel).1 = ofRows (m.moved button).rows ∧
    (m.moved button).Remembers (press table button (ofRows m.rows) sel).2

/- Something is selected, or there is no row that could become the selection. -/
def Marked.Followed {R : Type} (m : Marked R) (button : Button) : Prop :=
  match m with
  | none rows => rows = [] ∧ (button = .Down ∨ button = .DownBottom)
  | block .. => True

theorem standingMoved {G R : Type} {table : GridTable G} {ofRows : List R → G} (stands : StandsFor table ofRows)
    (button : Button) {m : Marked R} {sel : Selection} (remembers : m.Remembers sel) :
    Moved table ofRows button m sel ↔ m.Followed button := by
  unfold Moved
  rw [stands.press]
  cases m with
  | none rows =>
    obtain rfl : sel = ⟨-1, -1⟩ := remembers
    have stays : (lift ofRows (press (rowTable R) button rows ⟨-1, -1⟩)).1 = ofRows rows :=
      congrArg ofRows (noneStays button rows)
    exact (and_iff_right stays).trans (noneMoved button rows)
  | block front first rest back =>
    refine iff_of_true ?_ trivial
    by_cases alone : rest = []
    · subst alone
      have moved := rowMoved button remembers
      exact ⟨congrArg ofRows moved.1, moved.2⟩
    · have moved := rangeMoved button alone remembers
      exact ⟨congrArg ofRows moved.1, moved.2⟩

theorem selectionMoved (button : Button) (sel : Selection) :
    (∀ m : Marked ProjRow, m.Remembers sel →
      (Moved gqbGridPanel.table gqbGridProjTable.ofRows button m sel ↔ m.Followed button)) ∧
    (∀ m : Marked OrderRow, m.Remembers sel →
      (Moved gqbOrderPanel.table gqbGridOrderTable.ofRows button m sel ↔ m.Followed button)) :=
  ⟨fun _ remembers => standingMoved projectionStands button remembers,
    fun _ remembers => standingMoved orderStands button remembers⟩

theorem middleMoved : Moved gqbGridPanel.table gqbGridProjTable.ofRows .Up
    (.block [⟨0, 0, ""⟩] ⟨0, 1, ""⟩ [] [⟨0, 2, ""⟩]) ⟨1, -1⟩ :=
  ((selectionMoved .Up ⟨1, -1⟩).1 (.block [⟨0, 0, ""⟩] ⟨0, 1, ""⟩ [] [⟨0, 2, ""⟩]) ⟨rfl, .inr ⟨rfl, rfl⟩⟩).mpr trivial

/- Up without a selection selects the only row. -/
theorem unselectedMoved : ¬ ∀ (button : Button) (sel : Selection) (m : Marked ProjRow), m.Remembers sel →
    Moved gqbGridPanel.table gqbGridProjTable.ofRows button m sel := by
  intro moved
  have after := (moved .Up ⟨-1, -1⟩ (.none [⟨0, 0, ""⟩]) rfl).2
  exact absurd after (by decide : ¬ (⟨0, -1⟩ : Selection) = ⟨-1, -1⟩)

end PgAdmin.gqb
