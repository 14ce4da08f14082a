import Mathlib.Data.Int.Notation
import Mathlib.Data.List.Induction
import Mathlib.Data.List.Nodup
import Mathlib.Data.List.Perm.Basic

/-! Tables stored as arrays side by side, and the ways in which grids change them: rows exchanged, a
range of rows moved by one place, and all rows of a kind taken out one after the other. Each is defined
on one array; done on every array, it is done on the rows. -/
namespace RowMoves
variable {α β : Type}

def swap (xs : List α) (sPos dPos : ℤ) : List α :=
  if 0 ≤ sPos ∧ 0 ≤ dPos then
    match xs[sPos.toNat]?, xs[dPos.toNat]? with
    | some a, some b => (xs.set sPos.toNat b).set dPos.toNat a
    | _, _ => xs
  else xs

/- The exchanges that move a range of rows by one place, up or down, where there is room; the first and
last row of the range count from one. -/
def rangeMoves (size topPos bottomPos newTop : ℤ) : List (ℤ × ℤ) :=
  let sizeRange := bottomPos - (topPos - 1)
  if newTop < topPos then
    if 1 < topPos ∧ newTop + sizeRange < size then
      (List.range sizeRange.toNat).map fun i : ℕ => (newTop + i, newTop + i + 1)
    else []
  else if bottomPos < size ∧ newTop + sizeRange ≤ size then
    (List.range sizeRange.toNat).map fun i : ℕ => (newTop + sizeRange - 1 - i - 1, newTop + sizeRange - 1 - i)
  else []

def swapAll (moves : List (ℤ × ℤ)) (xs : List α) : List α :=
  moves.foldl (fun xs move => swap xs move.1 move.2) xs

section Loops
variable {S T : Type} [DecidableEq T] (parents : S → List T) (removeAt : S → ℕ → S)

def removeDown (t : T) (s : S) : S :=
  (List.range (parents s).length).reverse.foldl
    (fun s i => if (parents s)[i]? = some t then removeAt s i else s) s

def removeFirst (t : T) (s : S) : S × Bool :=
  match (parents s).findIdx? (decide <| · = t) with
  | some i => (removeAt s i, true)
  | none => (s, false)

def removeWhile (t : T) : ℕ → S → S
  | 0, s => s
  | turns + 1, s =>
    match removeFirst parents removeAt t s with
    | (s, true) => removeWhile t turns s
    | (s, false) => s

end Loops

theorem swapMap (f : α → β) (xs : List α) (sPos dPos : ℤ) :
    swap (xs.map f) sPos dPos = (swap xs sPos dPos).map f := by
  unfold swap
  split
  · rw [List.getElem?_map, List.getElem?_map]
    cases xs[sPos.toNat]? with
    | none => rfl
    | some a =>
      cases xs[dPos.toNat]? with
      | none => rfl
      | some b => simp [List.map_set]
  · rfl

theorem swapPerm (xs : List α) (sPos dPos : ℤ) : (swap xs sPos dPos).Perm xs := by
  unfold swap
  split
  · split
    case h_1 a b first second =>
      obtain ⟨inside, rfl⟩ := List.getElem?_eq_some_iff.mp first
      obtain ⟨inside', rfl⟩ := List.getElem?_eq_some_iff.mp second
      exact List.set_set_perm inside inside'
    case h_2 => exact .refl xs
  · exact .refl xs

theorem firstErased (p : α → Bool) {xs : List α} {i : ℕ} (found : xs.findIdx? p = some i) :
    (xs.eraseIdx i).filter (!p ·) = xs.filter (!p ·) ∧ (xs.eraseIdx i).length + 1 = xs.length := by
  induction xs generalizing i with
  | nil => cases found
  | cons x xs ih =>
    rw [List.findIdx?_cons] at found
    cases asked : p x with
    | true =>
      rw [asked, if_pos rfl] at found
      cases Option.some.inj found
      simp [asked]
    | false =>
      rw [asked, if_neg Bool.false_ne_true] at found
      obtain ⟨j, later, rfl⟩ := Option.map_eq_some_iff.mp found
      obtain ⟨rest, length⟩ := ih later
      simp [asked, rest, length]

section Loops
variable {S T Row : Type} [DecidableEq T] {parents : S → List T} {removeAt : S → ℕ → S}
  (shows : S → List Row → Prop) (parent : Row → T)

theorem removeDownShows (reads : ∀ s rows, shows s rows → parents s = rows.map parent)
    (removes : ∀ s rows i, shows s rows → shows (removeAt s i) (rows.eraseIdx i)) (t : T) {s : S}
    {rows : List Row} (before : shows s rows) :
    shows (removeDown parents removeAt t s) (rows.filter fun row => decide (parent row ≠ t)) := by
  -- what is behind the place has been looked through
  have loop : ∀ (front behind : List Row) (s : S), shows s (front ++ behind) →
      shows ((List.range front.length).reverse.foldl
        (fun s i => if (parents s)[i]? = some t then removeAt s i else s) s)
        (front.filter (fun row => decide (parent row ≠ t)) ++ behind) := by
    intro front
    induction front using List.reverseRecOn with
    | nil => exact fun behind s before => before
    | append_singleton front row ih =>
      intro behind s before
      have here : (parents s)[front.length]? = some (parent row) := by
        rw [reads s _ before]
        simp
      rw [List.length_append, List.length_singleton, List.range_succ, List.reverse_append,
        List.reverse_singleton, List.singleton_append, List.foldl_cons, here, List.filter_append]
      by_cases own : parent row = t
      · rw [if_pos (congrArg some own), List.filter_singleton, decide_eq_false (not_not_intro own)]
        have removed := removes s _ front.length before
        rw [List.append_assoc, List.eraseIdx_append_of_length_le (Nat.le_refl _), Nat.sub_self] at removed
        simpa using ih behind _ removed
      · rw [if_neg fun same => own (Option.some.inj same), List.filter_singleton, decide_eq_true own]
        have next := ih (row :: behind) s (by simpa using before)
        simpa using next
  have all := loop rows [] s (by simpa using before)
  rw [List.append_nil] at all
  rwa [removeDown, reads s rows before, List.length_map]

theorem removeWhileShows (reads : ∀ s rows, shows s rows → parents s = rows.map parent)
    (removes : ∀ s rows i, shows s rows → shows (removeAt s i) (rows.eraseIdx i)) (t : T) {s : S}
    {rows : List Row} (before : shows s rows) {turns : ℕ} (enough : rows.length ≤ turns) :
    shows (removeWhile parents removeAt t turns s) (rows.filter fun row => decide (parent row ≠ t)) := by
  induction turns generalizing s rows with
  | zero =>
    have none := List.eq_nil_of_length_eq_zero (Nat.le_zero.mp enough)
    subst none
    exact before
  | succ turns ih =>
    have places : (parents s).findIdx? (decide <| · = t) = rows.findIdx? fun row => decide (parent row = t) := by
      rw [reads s rows before, List.findIdx?_map]
      rfl
    rw [removeWhile, removeFirst, places]
    cases found : rows.findIdx? fun row => decide (parent row = t) with
    | some i =>
      obtain ⟨same, length⟩ := firstErased _ found
      have rest := ih (removes s rows i before) (by omega)
      simp only [decide_not] at rest ⊢
      rwa [same] at rest
    | none =>
      have whole : rows.filter (fun row => decide (parent row ≠ t)) = rows := by
        refine List.filter_eq_self.mpr fun row member => ?_
        simpa using List.findIdx?_eq_none_iff.mp found row member
      dsimp only
      rwa [whole]

end Loops

section Chains
variable {α : Type}

theorem swapNext (front back : List α) (a b : α) :
    swap (front ++ a :: b :: back) front.length (front.length + 1) = front ++ b :: a :: back := by
  have within : (0 : ℤ) ≤ front.length ∧ (0 : ℤ) ≤ front.length + 1 := by omega
  have second : ((front.length : ℤ) + 1).toNat = front.length + 1 := by omega
  simp [swap, within, second]

theorem swapPrevious (front back : List α) (a b : α) :
    swap (front ++ a :: b :: back) (front.length + 1) front.length = front ++ b :: a :: back := by
  have within : (0 : ℤ) ≤ front.length + 1 ∧ (0 : ℤ) ≤ front.length := by omega
  have second : ((front.length : ℤ) + 1).toNat = front.length + 1 := by omega
  simp [swap, within, second]

theorem swapOutside {xs : List α} {sPos dPos : ℤ}
    (outside : sPos < 0 ∨ dPos < 0 ∨ xs.length ≤ sPos ∨ xs.length ≤ dPos) :
    swap xs sPos dPos = xs := by
  unfold swap
  split
  case isTrue within =>
    split
    case h_1 a b first second =>
      obtain ⟨inside, -⟩ := List.getElem?_eq_some_iff.mp first
      obtain ⟨inside', -⟩ := List.getElem?_eq_some_iff.mp second
      omega
    case h_2 => rfl
  case isFalse => rfl

theorem swapsDown (front block back : List α) (a : α) :
    swapAll ((List.range block.length).map fun i : ℕ => ((front.length : ℤ) + i, (front.length : ℤ) + i + 1))
      (front ++ a :: (block ++ back)) = front ++ block ++ a :: back := by
  induction block generalizing front with
  | nil => simp [swapAll]
  | cons b block ih =>
    have next := ih (front ++ [b])
    have shift : ((List.range block.length).map fun i : ℕ =>
        (((front ++ [b]).length : ℤ) + i, ((front ++ [b]).length : ℤ) + i + 1)) =
        (List.range block.length).map fun i : ℕ =>
          ((front.length : ℤ) + ((i + 1 : ℕ) : ℤ), (front.length : ℤ) + ((i + 1 : ℕ) : ℤ) + 1) := by
      refine List.map_congr_left fun i _ => ?_
      rw [List.length_append, List.length_singleton]
      ext <;> dsimp only <;> omega
    have first : swap (front ++ a :: (b :: block ++ back)) ((front.length : ℤ) + ((0 : ℕ) : ℤ))
        ((front.length : ℤ) + ((0 : ℕ) : ℤ) + 1) = front ++ [b] ++ a :: (block ++ back) := by
      rw [Int.ofNat_zero, Int.add_zero, List.cons_append, swapNext, List.append_cons]
    rw [shift] at next
    rw [List.length_cons, List.range_succ_eq_map, List.map_cons, List.map_map, swapAll, List.foldl_cons, first]
    refine Eq.trans next ?_
    simp

theorem swapsUp (front block back : List α) (a : α) {stop : ℤ} (here : stop = front.length + block.length) :
    swapAll ((List.range block.length).map fun i : ℕ => (stop - i - 1, stop - i))
      (front ++ block ++ a :: back) = front ++ a :: (block ++ back) := by
  induction block using List.reverseRecOn generalizing back stop with
  | nil => simp [swapAll]
  | append_singleton block b ih =>
    have next := @ih (b :: back) (stop - 1) (by rw [here, List.length_append, List.length_singleton]; omega)
    have shift : ((List.range block.length).map fun i : ℕ => (stop - 1 - (i : ℤ) - 1, stop - 1 - (i : ℤ))) =
        (List.range block.length).map fun i : ℕ => (stop - ((i + 1 : ℕ) : ℤ) - 1, stop - ((i + 1 : ℕ) : ℤ)) := by
      refine List.map_congr_left fun i _ => ?_
      ext <;> dsimp only <;> omega
    have first : swap (front ++ (block ++ [b]) ++ a :: back) (stop - ((0 : ℕ) : ℤ) - 1) (stop - ((0 : ℕ) : ℤ)) =
        front ++ block ++ a :: (b :: back) := by
      have place : stop - ((0 : ℕ) : ℤ) - 1 = ((front ++ block).length : ℤ) ∧
          stop - ((0 : ℕ) : ℤ) = ((front ++ block).length : ℤ) + 1 := by
        rw [here, List.length_append, List.length_append, List.length_singleton]
        omega
      have text : front ++ (block ++ [b]) ++ a :: back = (front ++ block) ++ b :: a :: back := by simp
      rw [place.1, place.2, text, swapNext]
    rw [shift] at next
    rw [List.length_append, List.length_singleton, List.range_succ_eq_map, List.map_cons, List.map_map, swapAll,
      List.foldl_cons, first]
    refine Eq.trans next ?_
    simp

section Ranges
variable {front block back : List α} {a : α} {size topPos bottomPos newTop : ℤ}

theorem rangeForward (top : 1 < topPos) (place : newTop = front.length) (above : newTop < topPos)
    (count : bottomPos - (topPos - 1) = block.length) (room : newTop + block.length < size) :
    swapAll (rangeMoves size topPos bottomPos newTop) (front ++ a :: (block ++ back)) =
      front ++ block ++ a :: back := by
  have moves : rangeMoves size topPos bottomPos newTop =
      (List.range block.length).map fun i : ℕ => ((front.length : ℤ) + i, (front.length : ℤ) + i + 1) := by
    simp only [rangeMoves, count, if_pos above, if_pos (⟨top, room⟩ : _ ∧ _), Int.toNat_natCast]
    rw [place]
  rw [moves, swapsDown]

theorem rangeBackward (place : newTop = front.length + 1) (below : ¬ newTop < topPos) (bottom : bottomPos < size)
    (count : bottomPos - (topPos - 1) = block.length) (room : newTop + block.length ≤ size) :
    swapAll (rangeMoves size topPos bottomPos newTop) (front ++ block ++ a :: back) =
      front ++ a :: (block ++ back) := by
  have moves : rangeMoves size topPos bottomPos newTop = (List.range block.length).map fun i : ℕ =>
      (newTop + block.length - 1 - i - 1, newTop + block.length - 1 - (i : ℤ)) := by
    simp only [rangeMoves, count, if_neg below, if_pos (⟨bottom, room⟩ : _ ∧ _), Int.toNat_natCast]
  rw [moves, swapsUp front block back a (by omega)]

theorem rangeNone (none : bottomPos ≤ topPos - 1 ∨ newTop < topPos ∧ topPos ≤ 1 ∨
    topPos ≤ newTop ∧ size ≤ bottomPos) : rangeMoves size topPos bottomPos newTop = [] := by
  by_cases empty : (bottomPos - (topPos - 1)).toNat = 0
  · simp [rangeMoves, empty]
  · rcases none with none | ⟨above, top⟩ | ⟨below, bottom⟩
    · omega
    · have stays : ¬ (1 < topPos ∧ newTop + (bottomPos - (topPos - 1)) < size) := by omega
      simp only [rangeMoves, if_pos above, if_neg stays]
    · have notAbove : ¬ newTop < topPos := by omega
      have stays : ¬ (bottomPos < size ∧ newTop + (bottomPos - (topPos - 1)) ≤ size) := by omega
      simp only [rangeMoves, if_neg notAbove, if_neg stays]

end Ranges

end Chains

end RowMoves
