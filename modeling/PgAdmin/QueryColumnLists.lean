import Mathlib.Data.List.Zip
import PgAdmin.QueryColumns

/-! What the column lists agree on: the projection lists the selected columns, the available columns and
those of the order together list all columns. -/
namespace PgAdmin.gqb
open RowMoves

structure ProjRow where
  parent : ℕ
  column : ℕ
  columnAlias : String

structure OrderRow where
  parent : ℕ
  column : ℕ
  kind : Char

def ProjRow.key (row : ProjRow) : ℕ × ℕ := (row.parent, row.column)

def OrderRow.key (row : OrderRow) : ℕ × ℕ := (row.parent, row.column)

namespace gqbGridProjTable
variable (rows : List ProjRow)

def ofRows (rows : List ProjRow) : gqbGridProjTable :=
  ⟨rows.map (·.parent), rows.map (·.column), rows.map (·.columnAlias)⟩

theorem rowsAppend (t c : ℕ) : (((ofRows rows).AppendItem 0 t).AppendItem 1 c).AppendItem 2 0 =
    ofRows (rows ++ [⟨t, c, ""⟩]) := by
  simp [ofRows, AppendItem]

theorem rowsRemoveAt (i : ℕ) : (ofRows rows).RemoveAt i = ofRows (rows.eraseIdx i) := by
  simp [ofRows, RemoveAt, List.eraseIdx_map]

theorem rowsRemoveAll (t : ℕ) : (ofRows rows).removeAllRows t =
    ofRows (rows.filter fun row => decide (row.parent ≠ t)) := by
  refine removeDownShows (fun g rows => g = ofRows rows) (·.parent) ?_ ?_ t rfl
  · rintro _ rows rfl
    rfl
  · rintro _ rows i rfl
    exact rowsRemoveAt rows i

theorem rowsRemoveRow (once : (rows.map (·.key)).Nodup) (t c : ℕ) : ∃ rows' : List ProjRow,
    rows'.map (·.key) = (rows.map (·.key)).erase (t, c) ∧ (ofRows rows).removeRow t c = ofRows rows' := by
  have asked : ∀ i : ℕ, ((ofRows rows).colsParents[i]? = some t ∧ (ofRows rows).colsPosition[i]? = some c) ↔
      (rows.map (·.key))[i]? = some (t, c) := by
    intro i
    simp only [ofRows, List.getElem?_map]
    cases rows[i]? with
    | none => simp
    | some row => simp [ProjRow.key]
  rw [removeRow]
  simp only [asked]
  split
  case h_1 i found =>
    have here : (rows.map (·.key))[i]? = some (t, c) := by simpa using List.find?_some found
    obtain ⟨inside, same⟩ := List.getElem?_eq_some_iff.mp here
    refine ⟨rows.eraseIdx i, ?_, rowsRemoveAt rows i⟩
    rw [← List.eraseIdx_map, ← same, once.erase_getElem]
  case h_2 none =>
    refine ⟨rows, (List.erase_of_not_mem fun member => ?_).symm, rfl⟩
    obtain ⟨i, inside, same⟩ := List.getElem_of_mem member
    have outside := List.find?_eq_none.mp none i (by simpa [ofRows] using inside)
    rw [decide_eq_true_eq, List.getElem?_eq_getElem inside] at outside
    exact outside (congrArg some same)

theorem rowsSwap (sPos dPos : ℤ) : ∃ rows' : List ProjRow, rows'.Perm rows ∧
    (ofRows rows).changesPositions sPos dPos = ofRows rows' := by
  rw [changesPositions]
  split
  · refine ⟨swap rows sPos dPos, swapPerm rows sPos dPos, ?_⟩
    simp [ofRows, swapMap]
  · exact ⟨rows, .refl rows, rfl⟩

theorem rowsRange (topPos bottomPos newTop : ℤ) : ∃ rows' : List ProjRow, rows'.Perm rows ∧
    (ofRows rows).changesRangeOnePos topPos bottomPos newTop = ofRows rows' := by
  rw [changesRangeOnePos]
  generalize rangeMoves _ _ _ _ = moves
  induction moves generalizing rows with
  | nil => exact ⟨rows, .refl rows, rfl⟩
  | cons move moves ih =>
    obtain ⟨rows₁, perm₁, same₁⟩ := rowsSwap rows move.1 move.2
    obtain ⟨rows₂, perm₂, same₂⟩ := ih rows₁
    exact ⟨rows₂, perm₂.trans perm₁, by rw [List.foldl_cons, same₁, same₂]⟩

end gqbGridProjTable

namespace gqbGridOrderTable
variable {n : ℕ} (rows : List OrderRow)

def ofRows (rows : List OrderRow) : gqbGridOrderTable n :=
  ⟨rows.map (·.column), rows.map (·.parent), if n = 2 then rows.map (·.kind) else []⟩

theorem rowsAppend (c t : ℕ) (kind : Char) : (ofRows rows : gqbGridOrderTable n).AppendItem c t kind =
    ofRows (rows ++ [⟨t, c, kind⟩]) := by
  simp only [ofRows, AppendItem, List.map_append, List.map_cons, List.map_nil]
  split <;> rfl

theorem rowsRemoveAt (i : ℕ) : (ofRows rows : gqbGridOrderTable n).removeRowAt i =
    ofRows (rows.eraseIdx i) := by
  simp only [ofRows, removeRowAt, List.eraseIdx_map]
  split
  · rw [List.eraseIdx_map]
  · rfl

theorem rowsEmpty (t : ℕ) : (ofRows rows : gqbGridOrderTable n).emptyTableData t =
    ofRows (rows.filter fun row => decide (row.parent ≠ t)) := by
  refine removeWhileShows (fun g rows => g = ofRows rows) (·.parent) ?_ ?_ t rfl ?_
  · rintro _ rows rfl
    rfl
  · rintro _ rows i rfl
    exact rowsRemoveAt rows i
  · simp [ofRows]

theorem rowsSwap (sPos dPos : ℤ) : ∃ rows' : List OrderRow, rows'.Perm rows ∧
    (ofRows rows : gqbGridOrderTable n).changesPositions sPos dPos = ofRows rows' := by
  rw [changesPositions]
  split
  · refine ⟨swap rows sPos dPos, swapPerm rows sPos dPos, ?_⟩
    simp only [ofRows, swapMap]
    split
    · rw [swapMap]
    · simp [swap]
  · exact ⟨rows, .refl rows, rfl⟩

theorem rowsRange (topPos bottomPos newTop : ℤ) : ∃ rows' : List OrderRow, rows'.Perm rows ∧
    (ofRows rows : gqbGridOrderTable n).changesRangeOnePos topPos bottomPos newTop =
      ofRows rows' := by
  rw [changesRangeOnePos]
  generalize rangeMoves _ _ _ _ = moves
  induction moves generalizing rows with
  | nil => exact ⟨rows, .refl rows, rfl⟩
  | cons move moves ih =>
    obtain ⟨rows₁, perm₁, same₁⟩ := rowsSwap (n := n) rows move.1 move.2
    obtain ⟨rows₂, perm₂, same₂⟩ := ih rows₁
    exact ⟨rows₂, perm₂.trans perm₁, by rw [List.foldl_cons, same₁, same₂]⟩

end gqbGridOrderTable

def Lists (keys : List (ℕ × ℕ)) (P : ℕ → ℕ → Prop) : Prop :=
  keys.Nodup ∧ ∀ t c, (t, c) ∈ keys ↔ P t c

section Lists
variable {keys keys' : List (ℕ × ℕ)} {P Q : ℕ → ℕ → Prop}

theorem Lists.perm (lists : Lists keys P) (perm : keys'.Perm keys) : Lists keys' P :=
  ⟨perm.nodup_iff.mpr lists.1, fun t c => perm.mem_iff.trans (lists.2 t c)⟩

theorem Lists.congr (lists : Lists keys P) (same : ∀ t c, P t c ↔ Q t c) : Lists keys Q :=
  ⟨lists.1, fun t c => (lists.2 t c).trans (same t c)⟩

theorem Lists.without (lists : Lists keys P) (t : ℕ) :
    Lists (keys.filter fun key => decide (key.1 ≠ t)) fun t' c => P t' c ∧ t' ≠ t := by
  refine ⟨lists.1.filter _, fun t' c => ?_⟩
  rw [List.mem_filter, lists.2, decide_eq_true_eq]

theorem Lists.append {more : List (ℕ × ℕ)} (lists : Lists keys P) (others : Lists more Q)
    (apart : ∀ t c, P t c → ¬ Q t c) : Lists (keys ++ more) fun t c => P t c ∨ Q t c := by
  refine ⟨List.nodup_append'.mpr ⟨lists.1, others.1, ?_⟩, fun t c => ?_⟩
  · rintro ⟨t, c⟩ inKeys inMore
    exact apart t c ((lists.2 t c).mp inKeys) ((others.2 t c).mp inMore)
  · rw [List.mem_append, lists.2, others.2]

theorem Lists.erased (lists : Lists keys P) (key : ℕ × ℕ) :
    Lists (keys.erase key) fun t c => P t c ∧ (t, c) ≠ key := by
  refine ⟨lists.1.erase key, fun t c => ?_⟩
  rw [lists.1.mem_erase_iff, lists.2, and_comm]

end Lists

namespace gqbModel

def selects (m : gqbModel) (t c : ℕ) : Prop := ∃ q ∈ m.queryCollection, q.id = t ∧ c ∈ q.columns

def has (m : gqbModel) (t c : ℕ) : Prop := ∃ q ∈ m.queryCollection, q.id = t ∧ c ∈ q.parent.columns

structure Rows (m : gqbModel) (proj : List ProjRow) (avail ord : List OrderRow) : Prop where
  projection : m.projection = .ofRows proj
  available : m.available = .ofRows avail
  ordered : m.ordered = .ofRows ord
  ids : (m.queryCollection.map (·.id)).Nodup
  fresh : ∀ q ∈ m.queryCollection, q.id < m.next
  once : ∀ q ∈ m.queryCollection, q.columns.Nodup
  selected : Lists (proj.map (·.key)) m.selects
  listed : Lists ((avail ++ ord).map (·.key)) m.has

def Kept (m : gqbModel) : Prop := ∃ proj avail ord, m.Rows proj avail ord

section Steps
variable {m : gqbModel} {proj proj' : List ProjRow} {avail avail' ord ord' : List OrderRow}

theorem initKept : Kept Init := by
  refine ⟨[], [], [], rfl, rfl, rfl, List.nodup_nil, ?_, ?_, ⟨List.nodup_nil, ?_⟩, ⟨List.nodup_nil, ?_⟩⟩ <;>
    simp [Init, selects, has]

theorem Rows.moved (rows : m.Rows proj avail ord) (perm : proj'.Perm proj) {projection : gqbGridProjTable}
    (same : projection = .ofRows proj') : Rows { m with projection := projection } proj' avail ord :=
  { rows with projection := same, selected := rows.selected.perm (perm.map _) }

theorem Rows.reordered (rows : m.Rows proj avail ord)
    (perm : ((avail' ++ ord').map (·.key)).Perm ((avail ++ ord).map (·.key))) {available : gqbGridOrderTable 1}
    {ordered : gqbGridOrderTable 2} (same : available = .ofRows avail')
    (same' : ordered = .ofRows ord') :
    Rows { m with available := available, ordered := ordered } proj avail' ord' :=
  { rows with available := same, ordered := same', listed := rows.listed.perm perm }

theorem addKept (rows : m.Rows proj avail ord) (table : gqbTable) : Kept (m.addTable table) := by
  have members : ∀ q, q ∈ (m.addTable table).queryCollection ↔
      q ∈ m.queryCollection ∨ q = ⟨m.next, table, []⟩ := by
    simp [addTable]
  have unused : ∀ q ∈ m.queryCollection, q.id ≠ m.next := fun q member => Nat.ne_of_lt (rows.fresh q member)
  have added : Lists ((table.columns.map fun c => (⟨m.next, c, 'N'⟩ : OrderRow)).map (·.key))
      fun t c => t = m.next ∧ c ∈ table.columns := by
    refine ⟨?_, fun t c => ?_⟩
    · rw [List.map_map]
      exact table.once.map fun c c' same => (Prod.mk.inj same).2
    · simp [OrderRow.key, eq_comm, and_comm]
  refine ⟨proj, avail ++ table.columns.map fun c => ⟨m.next, c, 'N'⟩, ord, rows.projection, ?_, rows.ordered,
    ?_, fun q member => ?_, fun q member => ?_, rows.selected.congr fun t c => ?_, ?_⟩
  · simp [addTable, rows.available, gqbGridOrderTable.ofRows, Function.comp_def]
  · rw [addTable, List.map_append, List.nodup_append']
    refine ⟨rows.ids, List.nodup_singleton _, fun id old new => ?_⟩
    obtain ⟨q, member, rfl⟩ := List.mem_map.mp old
    exact unused q member (List.mem_singleton.mp new)
  · rcases (members q).mp member with old | rfl
    · exact Nat.lt_succ_of_lt (rows.fresh q old)
    · exact Nat.lt_succ_self _
  · rcases (members q).mp member with old | rfl
    · exact rows.once q old
    · exact List.nodup_nil
  · simp only [selects, members, or_and_right, exists_or, exists_eq_left, List.not_mem_nil, and_false,
      or_false]
  · have both := rows.listed.append added fun t c inModel new => by
      obtain ⟨q, member, rfl, -⟩ := inModel
      exact unused q member new.1
    refine (both.perm ?_).congr fun t c => ?_
    · rw [← List.map_append]
      refine List.Perm.map _ ?_
      rw [List.append_assoc, List.append_assoc]
      exact List.perm_append_comm.append_left avail
    · simp only [has, members, or_and_right, exists_or, exists_eq_left, eq_comm]

theorem erasedTables {qs : List gqbQueryObject} (ids : (qs.map (·.id)).Nodup) (t : ℕ) :
    qs.eraseP (decide <| ·.id = t) = qs.filter fun q => decide (q.id ≠ t) := by
  induction qs with
  | nil => rfl
  | cons q qs ih =>
    obtain ⟨new, ids⟩ := List.nodup_cons.mp ids
    by_cases own : q.id = t
    · have others : qs.filter (fun q => decide (q.id ≠ t)) = qs := by
        refine List.filter_eq_self.mpr fun q' member => decide_eq_true fun same => new ?_
        exact List.mem_map.mpr ⟨q', member, same.trans own.symm⟩
      rw [List.eraseP_cons_of_pos (by simpa using own), List.filter_cons_of_neg (by simpa using own), others]
    · rw [List.eraseP_cons_of_neg (by simpa using own), List.filter_cons_of_pos (by simpa using own), ih ids]

theorem removeKept (rows : m.Rows proj avail ord) {t : ℕ} {q : gqbQueryObject}
    (found : m.table? t = some q) :
    ∃ m', gqbController.removeTableFromModel m t = some m' ∧ Kept m' := by
  have deleted : (m.deleteTable t).queryCollection =
      m.queryCollection.filter fun q => decide (q.id ≠ t) := erasedTables rows.ids t
  have members : ∀ q, q ∈ (m.deleteTable t).queryCollection ↔ q ∈ m.queryCollection ∧ q.id ≠ t := by
    intro q
    rw [deleted, List.mem_filter, decide_eq_true_eq]
  rw [gqbController.removeTableFromModel, found]
  refine ⟨_, rfl, proj.filter fun row => decide (row.parent ≠ t),
    avail.filter fun row => decide (row.parent ≠ t), ord.filter fun row => decide (row.parent ≠ t),
    ?_, ?_, ?_, ?_, fun q member => rows.fresh q ((members q).mp member).1,
    fun q member => rows.once q ((members q).mp member).1, ?_, ?_⟩
  · exact rows.projection ▸ gqbGridProjTable.rowsRemoveAll proj t
  · exact rows.available ▸ gqbGridOrderTable.rowsEmpty avail t
  · exact rows.ordered ▸ gqbGridOrderTable.rowsEmpty ord t
  · dsimp only
    rw [deleted]
    exact rows.ids.sublist (List.filter_sublist.map _)
  · have keys : (proj.filter fun row => decide (row.parent ≠ t)).map (·.key) =
        (proj.map (·.key)).filter fun key => decide (key.1 ≠ t) := by
      rw [List.filter_map]
      rfl
    rw [keys]
    refine (rows.selected.without t).congr fun t' c => ?_
    simp only [selects, members]
    constructor
    · rintro ⟨⟨q, member, rfl, selected⟩, other⟩
      exact ⟨q, ⟨member, other⟩, rfl, selected⟩
    · rintro ⟨q, ⟨member, other⟩, rfl, selected⟩
      exact ⟨⟨q, member, rfl, selected⟩, other⟩
  · have keys : (avail.filter (fun row => decide (row.parent ≠ t)) ++
        ord.filter fun row => decide (row.parent ≠ t)).map (·.key) =
        ((avail ++ ord).map (·.key)).filter fun key => decide (key.1 ≠ t) := by
      rw [← List.filter_append, List.filter_map]
      rfl
    rw [keys]
    refine (rows.listed.without t).congr fun t' c => ?_
    simp only [has, members]
    constructor
    · rintro ⟨⟨q, member, rfl, column⟩, other⟩
      exact ⟨q, ⟨member, other⟩, rfl, column⟩
    · rintro ⟨q, ⟨member, other⟩, rfl, column⟩
      exact ⟨⟨q, member, rfl, column⟩, other⟩

theorem changedMembers {change : gqbQueryObject → gqbQueryObject} {t : ℕ} {q : gqbQueryObject} :
    q ∈ (gqbController.onTable m t change).queryCollection ↔
      (q ∈ m.queryCollection ∧ q.id ≠ t) ∨ ∃ q' ∈ m.queryCollection, q'.id = t ∧ change q' = q := by
  rw [gqbController.onTable, List.mem_map]
  constructor
  · rintro ⟨q', member, same⟩
    split at same
    case isTrue own => exact .inr ⟨q', member, own, same⟩
    case isFalse other => exact .inl ⟨same ▸ member, same ▸ other⟩
  · rintro (⟨member, other⟩ | ⟨q', member, own, same⟩)
    · exact ⟨q, member, if_neg other⟩
    · exact ⟨q', member, by rw [if_pos own, same]⟩

theorem changedKept (rows : m.Rows proj avail ord) (change : gqbQueryObject → gqbQueryObject) (t : ℕ)
    (id : ∀ q, (change q).id = q.id) (parent : ∀ q, (change q).parent = q.parent)
    (once : ∀ q ∈ m.queryCollection, q.id = t → (change q).columns.Nodup) {projection : gqbGridProjTable}
    (same : projection = .ofRows proj')
    (selected : Lists (proj'.map (·.key)) (gqbController.onTable m t change).selects) :
    Kept { gqbController.onTable m t change with projection := projection } := by
  refine ⟨proj', avail, ord, same, rows.available, rows.ordered, ?_, fun q member => ?_, fun q member => ?_,
    selected, rows.listed.congr fun t' c => ?_⟩
  · have ids : (gqbController.onTable m t change).queryCollection.map (·.id) =
        m.queryCollection.map (·.id) := by
      rw [gqbController.onTable, List.map_map]
      refine List.map_congr_left fun q _ => ?_
      simp only [Function.comp_apply]
      split
      · exact id q
      · rfl
    exact ids ▸ rows.ids
  · rcases changedMembers.mp member with ⟨before, -⟩ | ⟨q', before, -, rfl⟩
    · exact rows.fresh q before
    · exact id q' ▸ rows.fresh q' before
  · rcases changedMembers.mp member with ⟨before, -⟩ | ⟨q', before, own, rfl⟩
    · exact rows.once q before
    · exact once q' before own
  · simp only [has, changedMembers]
    constructor
    · rintro ⟨q, member, rfl, column⟩
      by_cases own : q.id = t
      · exact ⟨change q, .inr ⟨q, member, own, rfl⟩, id q, parent q ▸ column⟩
      · exact ⟨q, .inl ⟨member, own⟩, rfl, column⟩
    · rintro ⟨q, ⟨member, -⟩ | ⟨q', member, -, rfl⟩, rfl, column⟩
      · exact ⟨q, member, rfl, column⟩
      · exact ⟨q', member, (id q').symm, parent q' ▸ column⟩

theorem processKept (rows : m.Rows proj avail ord) {t : ℕ} (c : ℕ) {q : gqbQueryObject}
    (found : m.table? t = some q) :
    ∃ m', gqbController.processColumnInModel m t c = some m' ∧ Kept m' := by
  have member : q ∈ m.queryCollection := List.mem_of_find?_eq_some found
  have own : q.id = t := by simpa using List.find?_some found
  have only : ∀ q' ∈ m.queryCollection, q'.id = t → q' = q := fun q' member' own' =>
    List.inj_on_of_nodup_map rows.ids member' member (own'.trans own.symm)
  rw [gqbController.processColumnInModel, found]
  by_cases selected : c ∈ q.columns
  · obtain ⟨proj', keys, same⟩ := gqbGridProjTable.rowsRemoveRow proj rows.selected.1 t c
    have exist : q.existsColumn c = true := decide_eq_true selected
    refine ⟨{ gqbController.onTable m t (·.removeColumn c) with projection := m.projection.removeRow t c },
      by rw [Option.bind_eq_bind, Option.bind_some, exist]; rfl,
      changedKept rows (·.removeColumn c) t (fun _ => rfl) (fun _ => rfl)
        (fun q' member' _ => (rows.once q' member').erase c) (rows.projection ▸ same) ?_⟩
    rw [keys]
    refine (rows.selected.erased (t, c)).congr fun t' c' => ?_
    simp only [selects, changedMembers]
    constructor
    · rintro ⟨⟨q', member', rfl, column⟩, other⟩
      by_cases own' : q'.id = t
      · refine ⟨_, .inr ⟨q', member', own', rfl⟩, rfl, ?_⟩
        refine (List.mem_erase_of_ne fun same => other ?_).mpr column
        rw [own', same]
      · exact ⟨q', .inl ⟨member', own'⟩, rfl, column⟩
    · rintro ⟨q', ⟨member', own'⟩ | ⟨q₀, member', own', rfl⟩, rfl, column⟩
      · exact ⟨⟨q', member', rfl, column⟩, fun same => own' (Prod.mk.inj same).1⟩
      · obtain ⟨different, column⟩ := ((rows.once q₀ member').mem_erase_iff).mp column
        exact ⟨⟨q₀, member', rfl, column⟩, fun same => different (Prod.mk.inj same).2⟩
  · have same : ((m.projection.AppendItem 0 t).AppendItem 1 c).AppendItem 2 0 =
        .ofRows (proj ++ [⟨t, c, ""⟩]) := by
      rw [rows.projection, gqbGridProjTable.rowsAppend]
    have exist : q.existsColumn c = false := decide_eq_false selected
    refine ⟨{ gqbController.onTable m t (·.addColumn c) with
        projection := ((m.projection.AppendItem 0 t).AppendItem 1 c).AppendItem 2 0 },
      by rw [Option.bind_eq_bind, Option.bind_some, exist]; rfl,
      changedKept rows (·.addColumn c) t (fun _ => rfl) (fun _ => rfl) (fun q' member' own' => ?_) same ?_⟩
    · have new : c ∉ q'.columns := only q' member' own' ▸ selected
      have appended := (rows.once q' member').concat new
      rwa [List.concat_eq_append] at appended
    · have added : Lists [(t, c)] fun t' c' => t' = t ∧ c' = c :=
        ⟨List.nodup_singleton _, fun t' c' => by simp⟩
      rw [List.map_append]
      refine (rows.selected.append added ?_).congr fun t' c' => ?_
      · rintro t' c' ⟨q', member', rfl, column⟩ ⟨own', rfl⟩
        exact selected (only q' member' own' ▸ column)
      · simp only [selects, changedMembers]
        constructor
        · rintro (⟨q', member', rfl, column⟩ | ⟨rfl, rfl⟩)
          · by_cases own' : q'.id = t
            · exact ⟨_, .inr ⟨q', member', own', rfl⟩, rfl, List.mem_append_left _ column⟩
            · exact ⟨q', .inl ⟨member', own'⟩, rfl, column⟩
          · exact ⟨_, .inr ⟨q, member, own, rfl⟩, own,
              List.mem_append_right _ (List.mem_singleton_self c')⟩
        · rintro ⟨q', ⟨member', -⟩ | ⟨q₀, member', own', rfl⟩, rfl, column⟩
          · exact .inl ⟨q', member', rfl, column⟩
          · rcases List.mem_append.mp column with column | new
            · exact .inl ⟨q₀, member', rfl, column⟩
            · exact .inr ⟨own', List.mem_singleton.mp new⟩

theorem keysMoved {source target : List OrderRow} {i : ℕ} (inside : i < source.length) (kind : Char) :
    ((source.eraseIdx i ++ (target ++ [(⟨source[i].parent, source[i].column, kind⟩ : OrderRow)])).map OrderRow.key).Perm
      ((source ++ target).map OrderRow.key) := by
  have erased := (List.getElem_cons_eraseIdx_perm inside).map OrderRow.key
  simp only [List.map_append, List.map_cons, List.map_nil] at erased ⊢
  rw [← List.append_assoc]
  exact (List.perm_append_singleton _ _).trans (erased.append_right _)

theorem rightMoved (rows : m.Rows proj avail ord) {i : ℕ} (inside : i < avail.length) :
    ∃ m' row, gqbOrderPanel.moveRight m i = some m' ∧
      m'.Rows proj (avail.eraseIdx i) (ord ++ [row]) := by
  have here := List.getElem?_eq_getElem inside
  have moved := rows.reordered (keysMoved inside 'A') rfl rfl
  refine ⟨_, _, ?_, moved⟩
  simp only [gqbOrderPanel.moveRight, rows.available, rows.ordered, gqbGridOrderTable.rowsAppend,
    gqbGridOrderTable.rowsRemoveAt]
  simp [gqbGridOrderTable.ofRows, here]

theorem leftMoved (rows : m.Rows proj avail ord) {i : ℕ} (inside : i < ord.length) :
    ∃ m' row, gqbOrderPanel.moveLeft m i = some m' ∧
      m'.Rows proj (avail ++ [row]) (ord.eraseIdx i) := by
  have here := List.getElem?_eq_getElem inside
  have swapped : ∀ xs ys : List OrderRow, ((xs ++ ys).map (·.key)).Perm ((ys ++ xs).map (·.key)) :=
    fun xs ys => List.perm_append_comm.map _
  have moved := rows.reordered
    ((swapped _ _).trans ((keysMoved inside 'N').trans (swapped ord avail))) rfl rfl
  refine ⟨_, _, ?_, moved⟩
  simp only [gqbOrderPanel.moveLeft, rows.available, rows.ordered, gqbGridOrderTable.rowsAppend,
    gqbGridOrderTable.rowsRemoveAt]
  simp [gqbGridOrderTable.ofRows, here]

theorem allMoved (lists : gqbModel → List OrderRow → List OrderRow → Prop)
    (move : gqbModel → ℕ → Option gqbModel)
    (moves : ∀ m source target i, lists m source target → i < source.length → ∃ m' row, move m i = some m' ∧
      lists m' (source.eraseIdx i) (target ++ [row])) {source target : List OrderRow} (before : lists m source target) :
    ∃ m' target', (List.range source.length).reverse.foldlM move m = some m' ∧ lists m' [] target' := by
  generalize count : source.length = n
  induction n generalizing m source target with
  | zero =>
    rw [List.length_eq_zero_iff] at count
    subst count
    exact ⟨m, target, rfl, before⟩
  | succ n ih =>
    obtain ⟨m₁, row, moved, next⟩ := moves m source target n before (by omega)
    obtain ⟨m', target', rest, last⟩ := ih next (by rw [List.length_eraseIdx_of_lt] <;> omega)
    refine ⟨m', target', ?_, last⟩
    rw [List.range_succ, List.reverse_append, List.reverse_singleton, List.singleton_append, List.foldlM_cons,
      moved]
    exact rest

end Steps

/- The three projection arrays list what is selected; every column of a table of the query is once in
the available columns or the order; no list has another table. -/
structure ColumnLists (m : gqbModel) : Prop where
  positions : m.projection.colsPosition.length = m.projection.colsParents.length
  aliases : m.projection.columnsAlias.length = m.projection.colsParents.length
  projectionOnce : (m.projection.colsParents.zip m.projection.colsPosition).Nodup
  projected : ∀ t c, (t, c) ∈ m.projection.colsParents.zip m.projection.colsPosition ↔ m.selects t c
  available : m.available.columns.length = m.available.colsParents.length
  ordered : m.ordered.columns.length = m.ordered.colsParents.length
  kinds : m.ordered.kindOfOrder.length = m.ordered.colsParents.length
  once : ∀ t c, m.has t c → (m.available.colsParents.zip m.available.columns).count (t, c) +
    (m.ordered.colsParents.zip m.ordered.columns).count (t, c) = 1
  tables : ∀ t, t ∈ m.projection.colsParents ∨ t ∈ m.available.colsParents ∨ t ∈ m.ordered.colsParents →
    ∃ q ∈ m.queryCollection, q.id = t

theorem keptLists {m : gqbModel} (kept : Kept m) : ColumnLists m := by
  obtain ⟨proj, avail, ord, rows⟩ := kept
  have projKeys : m.projection.colsParents.zip m.projection.colsPosition = proj.map (·.key) := by
    rw [rows.projection]
    exact List.zip_map'
  have availKeys : m.available.colsParents.zip m.available.columns = avail.map (·.key) := by
    rw [rows.available]
    exact List.zip_map'
  have ordKeys : m.ordered.colsParents.zip m.ordered.columns = ord.map (·.key) := by
    rw [rows.ordered]
    exact List.zip_map'
  have listed := rows.listed
  rw [List.map_append] at listed
  refine ⟨?_, ?_, projKeys ▸ rows.selected.1, projKeys ▸ rows.selected.2, ?_, ?_, ?_, fun t c column => ?_,
    fun t member => ?_⟩
  · simp [rows.projection, gqbGridProjTable.ofRows]
  · simp [rows.projection, gqbGridProjTable.ofRows]
  · simp [rows.available, gqbGridOrderTable.ofRows]
  · simp [rows.ordered, gqbGridOrderTable.ofRows]
  · simp [rows.ordered, gqbGridOrderTable.ofRows]
  · rw [availKeys, ordKeys, ← List.count_append]
    exact List.count_eq_one_of_mem listed.1 ((listed.2 t c).mpr column)
  · rw [rows.projection, rows.available, rows.ordered] at member
    rcases member with member | member | member
    · obtain ⟨row, inRows, rfl⟩ := List.mem_map.mp member
      obtain ⟨q, inModel, own, -⟩ := (rows.selected.2 row.parent row.column).mp (List.mem_map_of_mem inRows)
      exact ⟨q, inModel, own⟩
    · obtain ⟨row, inRows, rfl⟩ := List.mem_map.mp member
      obtain ⟨q, inModel, own, -⟩ := (listed.2 row.parent row.column).mp
        (List.mem_append_left _ (List.mem_map_of_mem inRows))
      exact ⟨q, inModel, own⟩
    · obtain ⟨row, inRows, rfl⟩ := List.mem_map.mp member
      obtain ⟨q, inModel, own, -⟩ := (listed.2 row.parent row.column).mp
        (List.mem_append_right _ (List.mem_map_of_mem inRows))
      exact ⟨q, inModel, own⟩

end gqbModel

/- What a step needs: a table of the query, a row of the list if one is selected, and no columns in the
query when it is emptied. -/
def Keeps (m : gqbModel) : Op → Prop
  | .removeTable table | .processColumn table _ => ∃ q ∈ m.queryCollection, q.id = table
  | .addToOrder selLeft => m.available.columns.length = 0 ∨ selLeft = -1 ∨
    0 ≤ selLeft ∧ selLeft < m.available.columns.length
  | .removeFromOrder selRightTop => m.ordered.columns.length = 0 ∨ selRightTop = -1 ∨
    0 ≤ selRightTop ∧ selRightTop < m.ordered.columns.length
  | .emptyModel => ∀ q ∈ m.queryCollection, q.parent.columns = []
  | .addTable _ | .movePositions _ _ | .moveRange _ _ _ | .moveOrderPositions _ _ | .moveOrderRange _ _ _
  | .addAllToOrder | .removeAllFromOrder => True

section Runs
variable {m : gqbModel} {proj : List ProjRow} {avail ord : List OrderRow}
open gqbModel

theorem tableFound {t : ℕ} (here : ∃ q ∈ m.queryCollection, q.id = t) : ∃ q, m.table? t = some q := by
  obtain ⟨q, member, own⟩ := here
  exact Option.isSome_iff_exists.mp (List.find?_isSome.mpr ⟨q, member, by simpa using own⟩)

theorem tableMissing {t : ℕ} (missing : ¬ ∃ q ∈ m.queryCollection, q.id = t) : m.table? t = none :=
  List.find?_eq_none.mpr fun q member => by simpa using fun own => missing ⟨q, member, own⟩

theorem emptyKept (rows : m.Rows proj avail ord) (none : ∀ q ∈ m.queryCollection, q.parent.columns = []) :
    Kept (gqbController.emptyModel m) := by
  have all : avail ++ ord = [] := by
    refine List.eq_nil_iff_forall_not_mem.mpr fun row member => ?_
    obtain ⟨q, inModel, -, column⟩ :=
      (rows.listed.2 row.parent row.column).mp (List.mem_map_of_mem member)
    rw [none q inModel] at column
    exact List.not_mem_nil column
  obtain ⟨rfl, rfl⟩ := List.append_eq_nil_iff.mp all
  exact ⟨[], [], [], rfl, rows.available, rows.ordered, List.nodup_nil, fun q member => absurd member
    List.not_mem_nil, fun q member => absurd member List.not_mem_nil, ⟨List.nodup_nil, fun t c =>
    by simp [selects, gqbController.emptyModel, emptyAll]⟩, ⟨List.nodup_nil, fun t c =>
    by simp [has, gqbController.emptyModel, emptyAll]⟩⟩

theorem emptyLoses (rows : m.Rows proj avail ord) (lists : ColumnLists (gqbController.emptyModel m)) :
    ∀ q ∈ m.queryCollection, q.parent.columns = [] := by
  intro q member
  refine List.eq_nil_iff_forall_not_mem.mpr fun c column => ?_
  have listed := (rows.listed.2 q.id c).mpr ⟨q, member, rfl, column⟩
  obtain ⟨row, inRows, key⟩ := List.mem_map.mp listed
  have parents : row.parent ∈ m.available.colsParents ∨ row.parent ∈ m.ordered.colsParents := by
    rw [rows.available, rows.ordered]
    exact (List.mem_append.mp inRows).imp (List.mem_map_of_mem ·) (List.mem_map_of_mem ·)
  obtain ⟨q', inModel, -⟩ := lists.tables row.parent (.inr parents)
  exact List.not_mem_nil inModel

theorem selectedKept (kept : Kept m) {move : ℕ → Option gqbModel} {length : ℕ}
    (inside : ∀ i < length, ∃ m', move i = some m' ∧ Kept m') (outside : ∀ i, length ≤ i → move i = none)
    (selected : ℤ) :
    let pressed := if 0 < length ∧ selected ≠ -1 then gqbOrderPanel.atRow move selected else some m
    let there := length = 0 ∨ selected = -1 ∨ 0 ≤ selected ∧ selected < length
    (there → ∃ m', pressed = some m' ∧ Kept m') ∧ (¬ there → pressed = none) := by
  by_cases asked : 0 < length ∧ selected ≠ -1
  · rw [if_pos asked]
    cases selected with
    | negSucc i =>
      refine ⟨?_, fun _ => rfl⟩
      rintro (none | none | within)
      · exact absurd none (Nat.ne_of_gt asked.1)
      · exact absurd none asked.2
      · exact absurd within.1 (by simp)
    | ofNat i =>
      refine ⟨?_, fun beyond => outside i (Nat.le_of_not_lt fun within => beyond ?_)⟩
      · rintro (none | none | below)
        · exact absurd none (Nat.ne_of_gt asked.1)
        · exact absurd none asked.2
        · exact inside i (Int.ofNat_lt.mp below.2)
      · exact .inr (.inr ⟨Int.natCast_nonneg i, Int.ofNat_lt.mpr within⟩)
  · rw [if_neg asked]
    refine ⟨fun _ => ⟨m, rfl, kept⟩, fun none => absurd ?_ asked⟩
    exact ⟨by omega, fun same => none (.inr (.inl same))⟩

theorem addToOrderKept (rows : m.Rows proj avail ord) (selLeft : ℤ) :
    (Keeps m (.addToOrder selLeft) → ∃ m', step m (.addToOrder selLeft) = some m' ∧ Kept m') ∧
      (¬ Keeps m (.addToOrder selLeft) → step m (.addToOrder selLeft) = none) := by
  have length : m.available.columns.length = avail.length := by
    rw [rows.available]
    exact List.length_map _
  refine selectedKept ⟨_, _, _, rows⟩ (fun i inside => ?_) (fun i outside => ?_) selLeft
  · obtain ⟨m', row, moved, rows'⟩ := rightMoved rows (length ▸ inside)
    exact ⟨m', moved, _, _, _, rows'⟩
  · simp [gqbOrderPanel.moveRight, List.getElem?_eq_none outside]

theorem removeFromOrderKept (rows : m.Rows proj avail ord) (selRightTop : ℤ) :
    (Keeps m (.removeFromOrder selRightTop) →
      ∃ m', step m (.removeFromOrder selRightTop) = some m' ∧ Kept m') ∧
      (¬ Keeps m (.removeFromOrder selRightTop) → step m (.removeFromOrder selRightTop) = none) := by
  have length : m.ordered.columns.length = ord.length := by
    rw [rows.ordered]
    exact List.length_map _
  refine selectedKept ⟨_, _, _, rows⟩ (fun i inside => ?_) (fun i outside => ?_) selRightTop
  · obtain ⟨m', row, moved, rows'⟩ := leftMoved rows (length ▸ inside)
    exact ⟨m', moved, _, _, _, rows'⟩
  · simp [gqbOrderPanel.moveLeft, List.getElem?_eq_none outside]

theorem stepKept (kept : Kept m) (op : Op) (keeps : Keeps m op) :
    ∃ m', step m op = some m' ∧ Kept m' := by
  obtain ⟨proj, avail, ord, rows⟩ := kept
  cases op with
  | addTable table => exact ⟨_, rfl, addKept rows table⟩
  | removeTable t =>
    obtain ⟨q, found⟩ := tableFound keeps
    exact removeKept rows found
  | processColumn t c =>
    obtain ⟨q, found⟩ := tableFound keeps
    exact processKept rows c found
  | movePositions sPos dPos =>
    obtain ⟨proj', perm, same⟩ := gqbGridProjTable.rowsSwap proj sPos dPos
    exact ⟨_, rfl, _, _, _, rows.moved perm (rows.projection ▸ same)⟩
  | moveRange topPos bottomPos newTop =>
    obtain ⟨proj', perm, same⟩ := gqbGridProjTable.rowsRange proj topPos bottomPos newTop
    exact ⟨_, rfl, _, _, _, rows.moved perm (rows.projection ▸ same)⟩
  | moveOrderPositions sPos dPos =>
    obtain ⟨ord', perm, same⟩ := gqbGridOrderTable.rowsSwap (n := 2) ord sPos dPos
    exact ⟨_, rfl, _, _, _, rows.reordered ((perm.append_left avail).map _) rows.available
      (rows.ordered ▸ same)⟩
  | moveOrderRange topPos bottomPos newTop =>
    obtain ⟨ord', perm, same⟩ := gqbGridOrderTable.rowsRange (n := 2) ord topPos bottomPos newTop
    exact ⟨_, rfl, _, _, _, rows.reordered ((perm.append_left avail).map _) rows.available
      (rows.ordered ▸ same)⟩
  | addToOrder selLeft => exact (addToOrderKept rows selLeft).1 keeps
  | addAllToOrder =>
    have all := allMoved (fun m avail ord => m.Rows proj avail ord) gqbOrderPanel.moveRight
      (fun m avail ord i before inside => rightMoved before inside) rows
    obtain ⟨m', ord', moved, rows'⟩ := all
    refine ⟨m', ?_, _, _, _, rows'⟩
    have length : m.available.columns.length = avail.length := by
      rw [rows.available]
      exact List.length_map _
    rw [step, gqbOrderPanel.OnButtonAddAll, length, moved]
  | removeFromOrder selRightTop => exact (removeFromOrderKept rows selRightTop).1 keeps
  | removeAllFromOrder =>
    have all := allMoved (fun m ord avail => m.Rows proj avail ord) gqbOrderPanel.moveLeft
      (fun m ord avail i before inside => leftMoved before inside) rows
    obtain ⟨m', avail', moved, rows'⟩ := all
    refine ⟨m', ?_, _, _, _, rows'⟩
    have length : m.ordered.columns.length = ord.length := by
      rw [rows.ordered]
      exact List.length_map _
    rw [step, gqbOrderPanel.OnButtonRemoveAll, length, moved]
  | emptyModel => exact ⟨_, rfl, emptyKept rows keeps⟩

theorem stepKeeps (kept : Kept m) (op : Op) {m' : gqbModel} (done : step m op = some m')
    (lists : ColumnLists m') : Keeps m op := by
  obtain ⟨proj, avail, ord, rows⟩ := kept
  cases op with
  | removeTable t =>
    by_contra missing
    rw [step, gqbController.removeTableFromModel, tableMissing missing] at done
    cases done
  | processColumn t c =>
    by_contra missing
    rw [step, gqbController.processColumnInModel, tableMissing missing] at done
    cases done
  | addToOrder selLeft =>
    by_contra fails
    rw [(addToOrderKept rows selLeft).2 fails] at done
    cases done
  | removeFromOrder selRightTop =>
    by_contra fails
    rw [(removeFromOrderKept rows selRightTop).2 fails] at done
    cases done
  | emptyModel =>
    cases done
    exact emptyLoses rows lists
  | _ => trivial

/- Each step meets its condition in the state that the steps before it lead to. -/
def EachKeeps (ops : List Op) : Prop :=
  ∀ before op after, ops = before ++ op :: after → ∃ m, run before = some m ∧ Keeps m op

theorem runSnoc (ops : List Op) (op : Op) : run (ops ++ [op]) = (run ops).bind (step · op) := by
  rw [run, List.foldlM_append]
  simp [run]

/-- A run keeps the column lists right in all its states exactly if each of its steps meets its
condition. -/
theorem columnListsKept (ops : List Op) : (∀ before after, ops = before ++ after →
    ∃ m, run before = some m ∧ ColumnLists m) ↔ EachKeeps ops := by
  constructor
  · intro lists
    -- what the lists agree on does not say that numbers are fresh, so the invariant goes along
    have kept : ∀ before after, ops = before ++ after → ∃ m, run before = some m ∧ Kept m := by
      intro before
      induction before using List.reverseRecOn with
      | nil => exact fun after split => ⟨Init, rfl, initKept⟩
      | append_singleton before op ih =>
        intro after split
        obtain ⟨m', after', lists'⟩ := lists (before ++ [op]) after split
        rw [List.append_assoc] at split
        obtain ⟨m, before', now⟩ := ih (op :: after) split
        rw [runSnoc, before'] at after'
        obtain ⟨m'', done, next⟩ := stepKept now op (stepKeeps now op after' lists')
        exact ⟨m'', by rw [runSnoc, before']; exact done, next⟩
    intro before op after split
    obtain ⟨m, before', now⟩ := kept before (op :: after) split
    obtain ⟨m', after', lists'⟩ := lists (before ++ [op]) after (by rw [split, List.append_assoc]; rfl)
    rw [runSnoc, before'] at after'
    exact ⟨m, before', stepKeeps now op after' lists'⟩
  · intro keeps before
    have kept : ∀ after, ops = before ++ after → ∃ m, run before = some m ∧ Kept m := by
      induction before using List.reverseRecOn with
      | nil => exact fun after split => ⟨Init, rfl, initKept⟩
      | append_singleton before op ih =>
        intro after split
        rw [List.append_assoc] at split
        obtain ⟨m, before', now⟩ := ih (op :: after) split
        obtain ⟨m₁, before₁, meets⟩ := keeps before op after split
        cases before'.symm.trans before₁
        obtain ⟨m', done, next⟩ := stepKept now op meets
        exact ⟨m', by rw [runSnoc, before']; exact done, next⟩
    intro after split
    obtain ⟨m, before', now⟩ := kept after split
    exact ⟨m, before', keptLists now⟩

def oneEmptied : List Op := [.addTable ⟨[0], List.nodup_singleton 0⟩, .emptyModel]

theorem columnLeft : ¬ ∀ ops before after, ops = before ++ after →
    ∃ m, run before = some m ∧ ColumnLists m := by
  intro all
  obtain ⟨m, emptied, lists⟩ := all oneEmptied oneEmptied [] rfl
  cases emptied
  obtain ⟨q, inModel, -⟩ := lists.tables 0 (.inr (.inl (List.mem_singleton.mpr rfl)))
  exact List.not_mem_nil inModel

end Runs

end PgAdmin.gqb
