import Mathlib.Data.Int.Notation
import Mathlib.Data.List.InsertIdx
import Mathlib.Order.Bounds.Basic

/-! A line between two figures, with a list of points for each diagram and one list of handles for all of them. -/
namespace PgAdmin.hdLineConnection

structure hdPoint where
  x : ℤ
  y : ℤ

inductive Handle where
  | start
  | finish
  | flexible (indx : ℕ)
  deriving DecidableEq

structure Line where
  points : List (List hdPoint)
  handles : List Handle

def insertAtIndex {α : Type} (item : α) (index : ℤ) (items : List α) : Option (List α) :=
  if 0 ≤ index ∧ index ≤ items.length then some (items.insertIdx index.toNat item) else none

def removeItemAt {α : Type} (index : ℕ) (items : List α) : Option (List α) :=
  if index < items.length then some (items.eraseIdx index) else none

def getMaximunIndex : List (List hdPoint) → Option ℕ
  | [] => none
  | first :: rest => some (rest.foldl (fun max row => if row.length > max then row.length else max) first.length)

def setIndex (handles : List Handle) (i : ℕ) : Option (List Handle) :=
  match handles[i]? with
  | some (.flexible _) => some (handles.set i (.flexible i))
  | _ => none

def updateHandlesIndexes (points : List (List hdPoint)) (handles : List Handle) : Option (List Handle) := do
  let maxPosition ← getMaximunIndex points
  (List.range' 1 (maxPosition - 2)).foldlM setIndex handles

/- The handles when a point has been added, with the number of points of its diagram and the largest one. -/
def handlesAdded (count max : ℕ) (handles : List Handle) : Option (List Handle) :=
  if count = 1 then some (if handles.length = 0 then handles ++ [.start] else handles)
  else if count = 2 then some (if handles.length = 1 then handles ++ [.finish] else handles)
  else if max > handles.length then insertAtIndex (.flexible 0) (handles.length - 1) handles
  else some handles

def addPoint (posIdx : ℕ) (p : hdPoint) (l : Line) : Option Line := do
  let row ← l.points[posIdx]?
  let row := row ++ [p]
  let points := l.points.set posIdx row
  let max ← getMaximunIndex points
  let handles ← handlesAdded row.length max l.handles
  return ⟨points, ← updateHandlesIndexes points handles⟩

def handlesInserted (index count max : ℕ) (handles : List Handle) : Option (List Handle) :=
  if index = 0 ∧ handles.length = 0 then insertAtIndex (.flexible index) 1 handles
  else if index = count - 1 ∧ handles.length < max then insertAtIndex (.flexible index) (count - 1) handles
  else if handles.length < max then insertAtIndex (.flexible index) index handles
  else some handles

def insertPointAt (posIdx index : ℕ) (p : hdPoint) (l : Line) : Option Line := do
  let row ← l.points[posIdx]?
  let row ← insertAtIndex p index row
  let points := l.points.set posIdx row
  let max ← getMaximunIndex points
  let handles ← handlesInserted index row.length max l.handles
  return ⟨points, ← updateHandlesIndexes points handles⟩

/- hdPolyLineFigure::removePointAt -/
def removePointAt (posIdx index : ℕ) (l : Line) : Option Line := do
  let row ← l.points[posIdx]?
  let row ← removeItemAt index row
  let points := l.points.set posIdx row
  let max ← getMaximunIndex points
  if l.handles.length > max then
    let handles ← removeItemAt index l.handles
    return ⟨points, ← updateHandlesIndexes points handles⟩
  else return ⟨points, l.handles⟩

def AddPosForNewDiagram (l : Line) : Line := { l with points := l.points ++ [[]] }

def RemovePosOfDiagram (posIdx : ℕ) (l : Line) : Option Line := do
  return { l with points := ← removeItemAt posIdx l.points }

/- A new line has lists for so many diagrams; where it is connected, a point is set for each end. -/
def connected (diagrams posIdx : ℕ) (p q : hdPoint) : Option Line := do
  addPoint posIdx q (← addPoint posIdx p ⟨List.replicate diagrams [], []⟩)

section Longest

def counts (points : List (List hdPoint)) : Set ℕ := {n | ∃ row ∈ points, row.length = n}

theorem foldlLongest (rest : List (List hdPoint)) (max : ℕ) :
    IsGreatest (insert max (counts rest))
      (rest.foldl (fun max row => if row.length > max then row.length else max) max) := by
  induction rest generalizing max with
  | nil => simp [counts]
  | cons row rest ih =>
    obtain ⟨member, upper⟩ := ih (if row.length > max then row.length else max)
    have split (n : ℕ) : n ∈ counts (row :: rest) ↔ n = row.length ∨ n ∈ counts rest := by
      simp [counts, eq_comm]
    have first := upper (Set.mem_insert _ _)
    rw [List.foldl_cons]
    refine ⟨?_, fun n inside => ?_⟩
    · rw [Set.mem_insert_iff, split]
      rcases member with here | behind
      · rw [here]
        split
        · exact .inr (.inl rfl)
        · exact .inl rfl
      · exact .inr (.inr behind)
    · rw [Set.mem_insert_iff, split] at inside
      rcases inside with rfl | rfl | behind
      · exact le_trans (by split <;> omega) first
      · exact le_trans (by split <;> omega) first
      · exact upper (.inr behind)

theorem maximumIff {points : List (List hdPoint)} {n : ℕ} :
    getMaximunIndex points = some n ↔ IsGreatest (counts points) n := by
  cases points with
  | nil => simp [getMaximunIndex, counts, IsGreatest]
  | cons first rest =>
    have all : counts (first :: rest) = insert first.length (counts rest) := by
      ext n
      simp [counts, eq_comm]
    rw [getMaximunIndex, Option.some_inj, all]
    constructor
    · rintro rfl
      exact foldlLongest rest first.length
    · exact (foldlLongest rest first.length).unique

theorem countsMiddle (before after : List (List hdPoint)) (row : List hdPoint) :
    counts (before ++ row :: after) = insert row.length (counts (before ++ after)) := by
  ext n
  simp only [counts, List.mem_append, List.mem_cons, Set.mem_ofPred_eq, Set.mem_insert_iff]
  grind

theorem counted {points : List (List hdPoint)} {posIdx : ℕ} {row : List hdPoint} (found : points[posIdx]? = some row) :
    counts points = insert row.length (counts (points.eraseIdx posIdx)) ∧
      ∀ other, counts (points.set posIdx other) = insert other.length (counts (points.eraseIdx posIdx)) := by
  obtain ⟨within, rfl⟩ := List.getElem?_eq_some_iff.mp found
  rw [List.eraseIdx_eq_take_drop_succ]
  refine ⟨?_, fun other => ?_⟩
  · rw [← countsMiddle, List.getElem_cons_drop, List.take_append_drop]
  · rw [← countsMiddle, List.set_eq_take_append_cons_drop, if_pos within]

theorem longestGrown {s : Set ℕ} {r m : ℕ} (longest : IsGreatest (insert r s) m) :
    IsGreatest (insert (r + 1) s) (max m (r + 1)) := by
  obtain ⟨member, upper⟩ := longest
  refine ⟨?_, fun n inside => ?_⟩
  · rcases Set.mem_insert_iff.mp member with rfl | inside
    · exact Set.mem_insert_iff.mpr (.inl (max_eq_right (Nat.le_succ _)))
    · rcases le_total m (r + 1) with small | large
      · exact Set.mem_insert_iff.mpr (.inl (max_eq_right small))
      · exact .inr (by rwa [max_eq_left large])
  · rcases Set.mem_insert_iff.mp inside with rfl | inside
    · exact le_max_right _ _
    · exact (upper (.inr inside)).trans (le_max_left _ _)

theorem longestShrunk {s : Set ℕ} {r m : ℕ} (longest : IsGreatest (insert (r + 1) s) m) :
    IsGreatest (insert r s) m ∨ m = r + 1 ∧ IsGreatest (insert r s) r := by
  obtain ⟨member, upper⟩ := longest
  by_cases inside : m ∈ s
  · refine .inl ⟨.inr inside, fun n other => ?_⟩
    rcases Set.mem_insert_iff.mp other with rfl | other
    · exact (Nat.le_succ _).trans (upper (Set.mem_insert _ _))
    · exact upper (.inr other)
  · have here : m = r + 1 := (Set.mem_insert_iff.mp member).resolve_right inside
    refine .inr ⟨here, Set.mem_insert _ _, fun n other => ?_⟩
    rcases Set.mem_insert_iff.mp other with rfl | other
    · exact le_rfl
    · have apart : n ≠ m := fun same => inside (same ▸ other)
      have bound := upper (.inr other)
      omega

end Longest

section Order

def ordered (n : ℕ) : List Handle := .start :: (List.range' 1 n).map .flexible ++ [.finish]

@[simp] theorem orderedLength (n : ℕ) : (ordered n).length = n + 2 := by simp [ordered]

def Flexible (middle : List Handle) : Prop := ∀ h ∈ middle, ∃ i, h = .flexible i

theorem flexibleOrdered (n : ℕ) : Flexible ((List.range' 1 n).map .flexible) := by
  intro h member
  obtain ⟨i, -, rfl⟩ := List.mem_map.mp member
  exact ⟨i, rfl⟩

theorem renumbered {middle : List Handle} (between : Flexible middle) (before after : List Handle) :
    (List.range' before.length middle.length).foldlM setIndex (before ++ middle ++ after) =
      some (before ++ (List.range' before.length middle.length).map .flexible ++ after) := by
  induction middle generalizing before with
  | nil => simp
  | cons h middle ih =>
    obtain ⟨i, rfl⟩ := between h List.mem_cons_self
    have here : setIndex (before ++ .flexible i :: middle ++ after) before.length =
        some ((before ++ [.flexible before.length]) ++ middle ++ after) := by
      simp [setIndex]
    have rest := ih (fun other member => between other (List.mem_cons_of_mem _ member))
      (before ++ [.flexible before.length])
    rw [List.length_append, List.length_singleton] at rest
    rw [List.length_cons, List.range'_succ, List.foldlM_cons, here]
    exact rest.trans (by simp)

theorem updated {points : List (List hdPoint)} {middle : List Handle}
    (longest : IsGreatest (counts points) (middle.length + 2)) (between : Flexible middle) :
    updateHandlesIndexes points (.start :: middle ++ [.finish]) = some (ordered middle.length) := by
  have all := renumbered between [.start] [.finish]
  rw [updateHandlesIndexes, maximumIff.mpr longest]
  exact all

theorem updatedOrdered {points : List (List hdPoint)} {n : ℕ} (longest : IsGreatest (counts points) (n + 2)) :
    updateHandlesIndexes points (ordered n) = some (ordered n) := by
  have all := updated (by simpa using longest) (flexibleOrdered n)
  rwa [List.length_map, List.length_range'] at all

end Order

end PgAdmin.hdLineConnection
