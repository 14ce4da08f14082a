import Mathlib.Data.List.Basic
import PgAdmin.LineHandles

/-! What each change of a line's points makes of its handles. Only a diagram that is taken away can leave one without a
point. -/
namespace PgAdmin.hdLineConnection

/- A handle for each point of the longest list, the ends first and last, and every other with its place as its index. -/
structure Right (l : Line) : Prop where
  count : IsGreatest (counts l.points) l.handles.length
  start : l.handles.head? = some .start
  finish : l.handles.getLast? = some .finish
  between : ∀ i, 0 < i → i + 1 < l.handles.length → l.handles[i]? = some (.flexible i)

theorem rightOrdered {points : List (List hdPoint)} {n : ℕ} (longest : IsGreatest (counts points) (n + 2)) :
    Right ⟨points, ordered n⟩ := by
  refine ⟨by simpa using longest, rfl, List.getLast?_concat, fun i positive within => ?_⟩
  obtain ⟨i, rfl⟩ := Nat.exists_eq_succ_of_ne_zero positive.ne'
  have inside : i < n := by simpa using within
  have place : ((List.range' 1 n).map Handle.flexible)[i]? = some (.flexible (i + 1)) := by
    simp [inside, Nat.add_comm]
  have before : i < ((List.range' 1 n).map Handle.flexible).length := by simpa using inside
  exact (List.getElem?_append_left before).trans place

theorem orderedOfRight {l : Line} (right : Right l) : ∃ n, l = ⟨l.points, ordered n⟩ := by
  obtain ⟨points, handles⟩ := l
  obtain ⟨count, start, finish, between⟩ := right
  obtain ⟨rest, same⟩ := List.head?_eq_some_iff.mp start
  change handles = .start :: rest at same
  subst same
  rcases List.eq_nil_or_concat' rest with rfl | ⟨middle, last, rfl⟩
  · cases finish
  have ends : (Handle.start :: middle ++ [last]).getLast? = some .finish := finish
  rw [List.getLast?_concat, Option.some_inj] at ends
  subst ends
  have all : middle = (List.range' 1 middle.length).map .flexible := by
    refine List.ext_getElem (by simp) fun i here _ => ?_
    have place : (middle ++ [Handle.finish])[i]? = some (.flexible (i + 1)) :=
      between (i + 1) i.succ_pos (by simpa using here)
    rw [List.getElem?_append_left here, List.getElem?_eq_getElem here, Option.some_inj] at place
    simpa [Nat.add_comm] using place
  exact ⟨middle.length, congrArg (fun m => Line.mk points (.start :: m ++ [.finish])) all⟩

theorem longestOfRight {points : List (List hdPoint)} {n : ℕ} (right : Right ⟨points, ordered n⟩) :
    IsGreatest (counts points) (n + 2) := by simpa using right.count

theorem insertInside {α : Type} (item last : α) (middle : List α) {index : ℕ} (within : index ≤ middle.length) :
    (middle ++ [last]).insertIdx index item = middle.insertIdx index item ++ [last] := by
  induction middle generalizing index with
  | nil =>
    obtain rfl := Nat.le_zero.mp within
    rfl
  | cons first middle ih =>
    cases index with
    | zero => rfl
    | succ index => exact congrArg (first :: ·) (ih (Nat.le_of_succ_le_succ within))

theorem insertBetween {n index : ℕ} (positive : 0 < index) (within : index ≤ n + 1) (i : ℕ) :
    ∃ middle, insertAtIndex (.flexible i) index (ordered n) = some (.start :: middle ++ [.finish]) ∧
      middle.length = n + 1 ∧ Flexible middle := by
  obtain ⟨index, rfl⟩ := Nat.exists_eq_succ_of_ne_zero positive.ne'
  have inside : index ≤ ((List.range' 1 n).map Handle.flexible).length := by simpa using within
  refine ⟨((List.range' 1 n).map .flexible).insertIdx index (.flexible i), ?_, ?_, fun h member => ?_⟩
  · rw [insertAtIndex, if_pos (by rw [orderedLength]; omega), Int.toNat_natCast]
    exact congrArg (fun rest => some (.start :: rest)) (insertInside _ _ _ inside)
  · rw [List.length_insertIdx_of_le_length inside]
    simp
  · rcases List.eq_or_mem_of_mem_insertIdx member with rfl | old
    · exact ⟨i, rfl⟩
    · exact flexibleOrdered n h old

theorem removeBetween {n index : ℕ} (positive : 0 < index) (within : index ≤ n) :
    ∃ middle, removeItemAt index (ordered n) = some (.start :: middle ++ [.finish]) ∧
      middle.length + 1 = n ∧ Flexible middle := by
  obtain ⟨index, rfl⟩ := Nat.exists_eq_succ_of_ne_zero positive.ne'
  have inside : index < ((List.range' 1 n).map Handle.flexible).length := by
    rw [List.length_map, List.length_range']
    exact within
  refine ⟨((List.range' 1 n).map .flexible).eraseIdx index, ?_, ?_, fun h member => ?_⟩
  · rw [removeItemAt, if_pos (by rw [orderedLength]; omega)]
    exact congrArg (fun rest => some (.start :: rest)) (List.eraseIdx_append_of_lt_length inside _)
  · rw [List.length_eraseIdx_of_lt inside, List.length_map, List.length_range']
    omega
  · exact flexibleOrdered n h (List.mem_of_mem_eraseIdx member)

variable {points : List (List hdPoint)} {n : ℕ}

theorem addPointRight (longest : IsGreatest (counts points) (n + 2)) {posIdx : ℕ} (within : posIdx < points.length)
    (p : hdPoint) : ∃ l, addPoint posIdx p ⟨points, ordered n⟩ = some l ∧ Right l := by
  have found := List.getElem?_eq_getElem within
  generalize points[posIdx] = row at found
  obtain ⟨before, after⟩ := counted found
  have grown : IsGreatest (counts (points.set posIdx (row ++ [p]))) (max (n + 2) (row.length + 1)) := by
    rw [after, List.length_append, List.length_singleton]
    exact longestGrown (before ▸ longest)
  rw [addPoint, found]
  simp only [Option.bind_eq_bind, Option.bind_some, maximumIff.mpr grown]
  rw [List.length_append, List.length_singleton, handlesAdded, orderedLength]
  by_cases longer : n + 2 < row.length + 1
  · -- the only diagram with so many points
    have bound : row.length ≤ n + 2 := longest.2 (before ▸ Set.mem_insert _ _)
    have length : max (n + 2) (row.length + 1) = n + 1 + 2 := by omega
    rw [length] at grown ⊢
    obtain ⟨middle, inserted, size, between⟩ := @insertBetween n (n + 1) n.succ_pos le_rfl 0
    have place : ((n + 2 : ℕ) : ℤ) - 1 = ((n + 1 : ℕ) : ℤ) := by omega
    rw [if_neg (by omega), if_neg (by omega), if_pos (by omega), place, inserted, Option.bind_some]
    rw [← size] at grown
    rw [updated grown between]
    exact ⟨_, rfl, rightOrdered grown⟩
  · have length : max (n + 2) (row.length + 1) = n + 2 := by omega
    rw [length] at grown ⊢
    rw [if_neg (by omega : ¬n + 2 = 0), if_neg (by omega : ¬n + 2 = 1), if_neg (lt_irrefl (n + 2)), ite_self, ite_self,
      Option.bind_some, updatedOrdered grown]
    exact ⟨_, rfl, rightOrdered grown⟩

theorem insertPointAtRight (longest : IsGreatest (counts points) (n + 2)) {posIdx index : ℕ} {row : List hdPoint}
    (found : points[posIdx]? = some row) (positive : 0 < index) (within : index < row.length) (p : hdPoint) :
    ∃ l, insertPointAt posIdx index p ⟨points, ordered n⟩ = some l ∧ Right l := by
  obtain ⟨before, after⟩ := counted found
  have new : insertAtIndex p index row = some (row.insertIdx index p) := by
    rw [insertAtIndex, if_pos (by omega), Int.toNat_natCast]
  have size : (row.insertIdx index p).length = row.length + 1 := List.length_insertIdx_of_le_length within.le _
  have grown : IsGreatest (counts (points.set posIdx (row.insertIdx index p))) (max (n + 2) (row.length + 1)) := by
    rw [after, size]
    exact longestGrown (before ▸ longest)
  rw [insertPointAt, found]
  simp only [Option.bind_eq_bind, Option.bind_some, new, size, maximumIff.mpr grown]
  rw [handlesInserted, orderedLength, if_neg (by omega), if_neg (by omega)]
  by_cases longer : n + 2 < row.length + 1
  · have bound : row.length ≤ n + 2 := longest.2 (before ▸ Set.mem_insert _ _)
    have length : max (n + 2) (row.length + 1) = n + 1 + 2 := by omega
    rw [length] at grown ⊢
    obtain ⟨middle, inserted, size, between⟩ := @insertBetween n index positive (by omega) index
    rw [if_pos (by omega), inserted, Option.bind_some]
    rw [← size] at grown
    rw [updated grown between]
    exact ⟨_, rfl, rightOrdered grown⟩
  · have length : max (n + 2) (row.length + 1) = n + 2 := by omega
    rw [length] at grown ⊢
    rw [if_neg (lt_irrefl _), Option.bind_some, updatedOrdered grown]
    exact ⟨_, rfl, rightOrdered grown⟩

theorem removePointAtRight (longest : IsGreatest (counts points) (n + 2)) {posIdx index : ℕ} {row : List hdPoint}
    (found : points[posIdx]? = some row) (positive : 0 < index) (within : index + 1 < row.length) :
    ∃ l, removePointAt posIdx index ⟨points, ordered n⟩ = some l ∧ Right l := by
  obtain ⟨before, after⟩ := counted found
  have new : removeItemAt index row = some (row.eraseIdx index) := if_pos (by omega)
  have size : row.length = (row.eraseIdx index).length + 1 := by
    rw [List.length_eraseIdx_of_lt (by omega)]
    omega
  rw [before, size] at longest
  simp only [removePointAt, found, Option.bind_eq_bind, Option.bind_some, new, orderedLength]
  rcases longestShrunk longest with same | ⟨here, only⟩
  · rw [← after] at same
    rw [maximumIff.mpr same, Option.bind_some, if_neg (lt_irrefl _)]
    exact ⟨_, rfl, rightOrdered same⟩
  · obtain ⟨middle, removed, length, between⟩ := @removeBetween n index positive (by omega)
    rw [← after] at only
    have shorter : (row.eraseIdx index).length = middle.length + 2 := by omega
    rw [shorter] at only
    rw [maximumIff.mpr only, Option.bind_some, if_pos (by omega), removed, Option.bind_some, updated only between]
    exact ⟨_, rfl, rightOrdered only⟩

theorem addPosRight (longest : IsGreatest (counts points) (n + 2)) :
    Right (AddPosForNewDiagram ⟨points, ordered n⟩) := by
  have grown : counts (points ++ [[]]) = insert 0 (counts points) := by
    rw [countsMiddle, List.append_nil]
    rfl
  refine rightOrdered ?_
  rw [grown]
  refine ⟨.inr longest.1, fun m inside => ?_⟩
  rcases inside with rfl | inside
  · exact Nat.zero_le _
  · exact longest.2 inside

def Surpassed (points : List (List hdPoint)) (posIdx : ℕ) : Prop :=
  ∃ i ≠ posIdx, ∃ row, points[i]? = some row ∧ ∀ other ∈ points, other.length ≤ row.length

theorem removePosRight (longest : IsGreatest (counts points) (n + 2)) {posIdx : ℕ} (within : posIdx < points.length) :
    ∃ l, RemovePosOfDiagram posIdx ⟨points, ordered n⟩ = some l ∧ (Right l ↔ Surpassed points posIdx) := by
  have removed : RemovePosOfDiagram posIdx ⟨points, ordered n⟩ = some ⟨points.eraseIdx posIdx, ordered n⟩ := by
    simp [RemovePosOfDiagram, removeItemAt, within]
  refine ⟨_, removed, fun right => ?_, fun ⟨i, apart, row, found, most⟩ => ?_⟩
  · obtain ⟨⟨row, member, length⟩, -⟩ := right.count
    obtain ⟨i, apart, found⟩ := List.mem_eraseIdx_iff_getElem?.mp member
    refine ⟨i, apart, row, found, fun other inside => ?_⟩
    rw [length, orderedLength]
    exact longest.2 ⟨other, inside, rfl⟩
  · refine rightOrdered ⟨⟨row, List.mem_eraseIdx_iff_getElem?.mpr ⟨i, apart, found⟩, ?_⟩, ?_⟩
    · obtain ⟨other, member, length⟩ := longest.1
      exact le_antisymm (longest.2 ⟨row, List.mem_of_getElem? found, rfl⟩) (length ▸ most other member)
    · rintro m ⟨other, member, rfl⟩
      exact longest.2 ⟨other, List.mem_of_mem_eraseIdx member, rfl⟩

section Runs

inductive Op where
  | addPoint (posIdx : ℕ) (p : hdPoint)
  | insertPointAt (posIdx index : ℕ) (p : hdPoint)
  | removePointAt (posIdx index : ℕ)
  | AddPosForNewDiagram
  | RemovePosOfDiagram (posIdx : ℕ)

def Op.apply (l : Line) : Op → Option Line
  | .addPoint posIdx p => hdLineConnection.addPoint posIdx p l
  | .insertPointAt posIdx index p => hdLineConnection.insertPointAt posIdx index p l
  | .removePointAt posIdx index => hdLineConnection.removePointAt posIdx index l
  | .AddPosForNewDiagram => some (hdLineConnection.AddPosForNewDiagram l)
  | .RemovePosOfDiagram posIdx => hdLineConnection.RemovePosOfDiagram posIdx l

/- There is such a diagram; a point is inserted inside a segment, and removed between the ends. -/
def Op.Allowed (l : Line) : Op → Prop
  | .addPoint posIdx _ => posIdx < l.points.length
  | .insertPointAt posIdx index _ => ∃ row ∈ l.points[posIdx]?, 0 < index ∧ index < row.length
  | .removePointAt posIdx index => ∃ row ∈ l.points[posIdx]?, 0 < index ∧ index + 1 < row.length
  | .AddPosForNewDiagram => True
  | .RemovePosOfDiagram posIdx => posIdx < l.points.length

/- A diagram that is taken away is not the only one with the most points. -/
def Op.Spares (l : Line) : Op → Prop
  | .RemovePosOfDiagram posIdx => Surpassed l.points posIdx
  | _ => True

/- Each operation is so in the state it meets. -/
def EachOp (P : Line → Op → Prop) : Line → List Op → Prop
  | _, [] => True
  | l, op :: ops => P l op ∧ ∀ l', op.apply l = some l' → EachOp P l' ops

/- No operation fails, and every state is so. -/
def EachState (P : Line → Prop) : Line → List Op → Prop
  | l, [] => P l
  | l, op :: ops => P l ∧ ∃ l', op.apply l = some l' ∧ EachState P l' ops

theorem eachOpCons {P : Line → Op → Prop} {l l' : Line} {op : Op} {ops : List Op} (same : op.apply l = some l') :
    EachOp P l (op :: ops) ↔ P l op ∧ EachOp P l' ops := by
  rw [EachOp, same]
  exact and_congr_right fun _ => ⟨fun rest => rest l' rfl, fun rest _ other => Option.some.inj other ▸ rest⟩

theorem stepRight {l : Line} (right : Right l) {op : Op} (allowed : op.Allowed l) :
    ∃ l', op.apply l = some l' ∧ (Right l' ↔ op.Spares l) := by
  obtain ⟨n, ordered⟩ := orderedOfRight right
  rw [ordered] at right
  have longest := longestOfRight right
  cases op with
  | addPoint posIdx p =>
    obtain ⟨l', same, kept⟩ := addPointRight longest allowed p
    exact ⟨l', ordered ▸ same, iff_of_true kept trivial⟩
  | insertPointAt posIdx index p =>
    obtain ⟨row, found, positive, within⟩ := allowed
    obtain ⟨l', same, kept⟩ := insertPointAtRight longest found positive within p
    exact ⟨l', ordered ▸ same, iff_of_true kept trivial⟩
  | removePointAt posIdx index =>
    obtain ⟨row, found, positive, within⟩ := allowed
    obtain ⟨l', same, kept⟩ := removePointAtRight longest found positive within
    exact ⟨l', ordered ▸ same, iff_of_true kept trivial⟩
  | AddPosForNewDiagram => exact ⟨_, rfl, iff_of_true (ordered ▸ addPosRight longest) trivial⟩
  | RemovePosOfDiagram posIdx =>
    obtain ⟨l', same, kept⟩ := removePosRight longest allowed
    exact ⟨l', ordered ▸ same, kept⟩

theorem runRight {l : Line} (right : Right l) {ops : List Op} (allowed : EachOp (fun l op => op.Allowed l) l ops) :
    EachState Right l ops ↔ EachOp (fun l op => op.Spares l) l ops := by
  induction ops generalizing l with
  | nil => exact iff_of_true right trivial
  | cons op ops ih =>
    obtain ⟨l', same, kept⟩ := stepRight right allowed.1
    rw [eachOpCons same] at allowed ⊢
    constructor
    · rintro ⟨-, l'', other, rest⟩
      obtain rfl := Option.some.inj (same.symm.trans other)
      have right' : Right l' := by
        cases ops with
        | nil => exact rest
        | cons _ _ => exact rest.1
      exact ⟨kept.mp right', (ih right' allowed.2).mp rest⟩
    · rintro ⟨spares, rest⟩
      have right' := kept.mpr spares
      exact ⟨right, l', same, (ih right' allowed.2).mpr rest⟩

theorem connectedRight {diagrams posIdx : ℕ} {p q : hdPoint} {l : Line}
    (made : connected diagrams posIdx p q = some l) :
    Right l := by
  by_cases within : posIdx < diagrams
  · have found : (List.replicate diagrams ([] : List hdPoint))[posIdx]? = some [] := by simp [within]
    obtain ⟨-, after⟩ := counted found
    have empty : ∀ n ∈ counts ((List.replicate diagrams ([] : List hdPoint)).eraseIdx posIdx), n = 0 := by
      rintro n ⟨row, member, rfl⟩
      rw [List.eq_of_mem_replicate (List.mem_of_mem_eraseIdx member)]
      rfl
    have longest (row : List hdPoint) :
        IsGreatest (counts ((List.replicate diagrams []).set posIdx row)) row.length := by
      rw [after row]
      refine ⟨Set.mem_insert _ _, fun n inside => ?_⟩
      rcases inside with rfl | inside
      · exact le_rfl
      · exact empty n inside ▸ Nat.zero_le _
    have second : ((List.replicate diagrams []).set posIdx [p])[posIdx]? = some [p] := by simp [within]
    have started : addPoint posIdx p ⟨List.replicate diagrams [], []⟩ =
        some ⟨(List.replicate diagrams []).set posIdx [p], [.start]⟩ := by
      rw [addPoint, found]
      simp only [Option.bind_eq_bind, Option.bind_some, List.nil_append, updateHandlesIndexes,
        maximumIff.mpr (longest [p])]
      rfl
    have finished : addPoint posIdx q ⟨(List.replicate diagrams []).set posIdx [p], [.start]⟩ =
        some ⟨(List.replicate diagrams []).set posIdx [p, q], ordered 0⟩ := by
      rw [addPoint, second]
      simp only [Option.bind_eq_bind, Option.bind_some, List.cons_append, List.nil_append, List.set_set,
        updateHandlesIndexes, maximumIff.mpr (longest [p, q])]
      rfl
    rw [connected, started, Option.bind_eq_bind, Option.bind_some, finished] at made
    cases made
    exact rightOrdered (longest [p, q])
  · simp [connected, addPoint, within] at made

/- From where a line is connected, its handles are right in every state just where each diagram that is taken away
leaves another with as many points as any. -/
theorem handlesRight {diagrams posIdx : ℕ} {p q : hdPoint} {l : Line} (made : connected diagrams posIdx p q = some l)
    (ops : List Op) (allowed : EachOp (fun l op => op.Allowed l) l ops) :
    EachState Right l ops ↔ EachOp (fun l op => op.Spares l) l ops :=
  runRight (connectedRight made) allowed

def corner : hdPoint := ⟨0, 0⟩

theorem bentRight : EachState Right ⟨[[corner, corner], []], ordered 0⟩
    [.addPoint 1 corner, .addPoint 1 corner, .insertPointAt 1 1 corner, .insertPointAt 0 1 corner,
      .RemovePosOfDiagram 1] := by
  refine (@handlesRight 2 0 corner corner _ rfl _ ?_).mpr ?_
  · refine (eachOpCons rfl).mpr ⟨(by decide : 1 < 2), ?_⟩
    refine (eachOpCons rfl).mpr ⟨(by decide : 1 < 2), ?_⟩
    refine (eachOpCons rfl).mpr ⟨⟨_, rfl, by decide, by decide⟩, ?_⟩
    refine (eachOpCons rfl).mpr ⟨⟨_, rfl, by decide, by decide⟩, ?_⟩
    exact (eachOpCons rfl).mpr ⟨(by decide : 1 < 2), trivial⟩
  · refine (eachOpCons rfl).mpr ⟨trivial, (eachOpCons rfl).mpr ⟨trivial, ?_⟩⟩
    refine (eachOpCons rfl).mpr ⟨trivial, (eachOpCons rfl).mpr ⟨trivial, ?_⟩⟩
    exact (eachOpCons rfl).mpr ⟨⟨0, by decide, _, rfl, by decide⟩, trivial⟩

/- A line that bends on the second diagram alone keeps the handle of the bend. -/
theorem handleLeft : ∃ l ops, connected 2 0 corner corner = some l ∧ EachOp (fun l op => op.Allowed l) l ops ∧
    ¬EachState Right l ops := by
  refine ⟨_, [.addPoint 1 corner, .addPoint 1 corner, .insertPointAt 1 1 corner, .RemovePosOfDiagram 1], rfl, ?_, ?_⟩
  · refine (eachOpCons rfl).mpr ⟨(by decide : 1 < 2), ?_⟩
    refine (eachOpCons rfl).mpr ⟨(by decide : 1 < 2), ?_⟩
    refine (eachOpCons rfl).mpr ⟨⟨_, rfl, by decide, by decide⟩, ?_⟩
    exact (eachOpCons rfl).mpr ⟨(by decide : 1 < 2), trivial⟩
  · rintro ⟨-, _, first, -, _, second, -, _, third, -, l, fourth, right⟩
    cases first
    cases second
    cases third
    cases fourth
    obtain ⟨row, member, length⟩ := right.count.1
    rw [List.mem_singleton.mp member] at length
    exact absurd length (by decide)

end Runs

end PgAdmin.hdLineConnection
