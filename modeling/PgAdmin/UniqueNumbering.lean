import PgAdmin.DesignTable

/-! The unique constraints of a designed table are numbered without gaps, and a column that stays in
a constraint keeps its name, as long as no column outside every constraint is made plain while all
the others are in one. -/
namespace PgAdmin.ddDesign
open PgsObjects (Text)

namespace ddTableFigure
variable {t : ddTableFigure} {c d col : ddColumnFigure} {id : ℕ}

structure Numbered (t : ddTableFigure) : Prop where
  bounded : ∀ c ∈ t.columns, c.ukIndex = -1 ∨ 0 ≤ c.ukIndex ∧ c.ukIndex < t.ukNames.length
  used : ∀ k < t.ukNames.length, ∃ c ∈ t.columns, c.ukIndex = k

/- The list holds every column object once. -/
def Distinct (t : ddTableFigure) : Prop := (t.columns.map ddColumnFigure.id).Nodup

def constraintName (t : ddTableFigure) (c : ddColumnFigure) : Option Text :=
  if 0 ≤ c.ukIndex then t.ukNames[c.ukIndex.toNat]? else none

/- A column that is in a constraint before and after keeps its name. -/
def NamesKept (t next : ddTableFigure) : Prop :=
  ∀ c ∈ t.columns, ∀ d ∈ next.columns, d.id = c.id → 0 ≤ c.ukIndex → 0 ≤ d.ukIndex →
    next.constraintName d = t.constraintName c

def Shared (t : ddTableFigure) (c : ddColumnFigure) : Prop :=
  ∃ d ∈ t.columns, d.id ≠ c.id ∧ d.ukIndex = c.ukIndex

section Columns

@[simp] theorem setUnique_ukIndex {i : ℤ} : (c.setUniqueConstraintIndex i).ukIndex = i := rfl
@[simp] theorem setUnique_id {i : ℤ} : (c.setUniqueConstraintIndex i).id = c.id := rfl

theorem found (here : t.column? id = some c) : c ∈ t.columns ∧ c.id = id :=
  ⟨List.mem_of_find?_eq_some here, by simpa using List.find?_some here⟩

theorem distinctSame (distinct : Distinct t) (one : c ∈ t.columns) (other : d ∈ t.columns)
    (same : c.id = d.id) : c = d :=
  List.inj_on_of_nodup_map distinct one other same

@[simp] theorem change_ukNames {f : ddColumnFigure → ddColumnFigure} :
    (t.change id f).ukNames = t.ukNames := rfl

theorem mem_change {f : ddColumnFigure → ddColumnFigure} :
    d ∈ (t.change id f).columns ↔ ∃ c ∈ t.columns, (if c.id = id then f c else c) = d := by
  simp [change]

theorem change_distinct {f : ddColumnFigure → ddColumnFigure} (kept : ∀ col, (f col).id = col.id)
    (distinct : Distinct t) : Distinct (t.change id f) := by
  unfold Distinct change
  rw [List.map_map]
  refine (List.map_congr_left fun col _ => ?_).symm ▸ distinct
  simp only [Function.comp_apply]
  split
  · exact kept col
  · rfl

theorem newIdLarger (member : c ∈ t.columns) : c.id < t.newId := by
  have above : ∀ columns : List ddColumnFigure, c ∈ columns →
      c.id < columns.foldr (fun col next => max (col.id + 1) next) 0 := by
    intro columns
    induction columns with
    | nil => exact fun member => absurd member List.not_mem_nil
    | cons first rest ih =>
      intro member
      rw [List.foldr_cons]
      rcases List.mem_cons.mp member with rfl | member
      · exact lt_max_of_lt_left (Nat.lt_succ_self _)
      · exact lt_max_of_lt_right (ih member)
  exact above _ member

end Columns

/- What disableUniqueKey does to each column. -/
def renumbered (t : ddTableFigure) (c col : ddColumnFigure) : ddColumnFigure :=
  if col.id = c.id then col.setUniqueConstraintIndex (-1)
  else if c.ukIndex < col.ukIndex ∧ ¬ t.columns.any (fun d => d.id ≠ c.id ∧ d.ukIndex = c.ukIndex)
    then col.setUniqueConstraintIndex (col.ukIndex - 1)
  else col

theorem shared_iff : (t.columns.any fun d => d.id ≠ c.id ∧ d.ukIndex = c.ukIndex) = true ↔
    Shared t c := by
  simp [Shared]

theorem renumbered_own (same : col.id = c.id) :
    renumbered t c col = col.setUniqueConstraintIndex (-1) := if_pos same

theorem renumbered_shared (shared : Shared t c) (other : col.id ≠ c.id) :
    renumbered t c col = col := by
  unfold renumbered
  rw [if_neg other, if_neg fun both => both.2 (shared_iff.mpr shared)]

theorem renumbered_later (last : ¬ Shared t c) (other : col.id ≠ c.id)
    (later : c.ukIndex < col.ukIndex) :
    renumbered t c col = col.setUniqueConstraintIndex (col.ukIndex - 1) := by
  unfold renumbered
  rw [if_neg other, if_pos ⟨later, fun any => last (shared_iff.mp any)⟩]

theorem renumbered_earlier (other : col.id ≠ c.id) (earlier : ¬ c.ukIndex < col.ukIndex) :
    renumbered t c col = col := by
  unfold renumbered
  rw [if_neg other, if_neg fun both => earlier both.1]

@[simp] theorem renumbered_id : (renumbered t c col).id = col.id := by
  unfold renumbered
  split
  · rfl
  · split <;> rfl

theorem disabled (here : t.column? id = some c) : t.disableUniqueKey id =
    { t with
      columns := t.columns.map (renumbered t c)
      ukNames := if t.columns.any (fun d => d.id ≠ c.id ∧ d.ukIndex = c.ukIndex) then t.ukNames
        else RemoveAt t.ukNames c.ukIndex } := by
  obtain ⟨member, own⟩ := found here
  unfold disableUniqueKey
  rw [here, Option.elim_some]
  unfold syncUkIndexes
  cases shared : t.columns.any fun d => d.id ≠ c.id ∧ d.ukIndex = c.ukIndex with
  | true =>
    simp only [Bool.not_true, Bool.false_eq_true, if_false, if_true, change]
    congr 1
    refine List.map_congr_left fun col _ => ?_
    by_cases same : col.id = c.id
    · rw [renumbered_own same, if_pos (same.trans own)]
    · rw [renumbered_shared (shared_iff.mp shared) same, if_neg fun eq => same (eq.trans own.symm)]
  | false =>
    have last : ¬ Shared t c := fun some' =>
      absurd (shared_iff.mpr some') (shared ▸ Bool.false_ne_true)
    simp only [Bool.not_false, Bool.false_eq_true, if_false, if_true, change, List.map_map]
    congr 1
    refine List.map_congr_left fun col _ => ?_
    simp only [Function.comp_apply]
    by_cases same : col.id = c.id
    · rw [renumbered_own same]
      simp only [ddColumnFigure.setUniqueConstraintIndex]
      split <;> simp [same, own]
    · have notOwn : col.id ≠ id := fun eq => same (eq.trans own.symm)
      by_cases later : c.ukIndex < col.ukIndex
      · rw [renumbered_later last same later]
        simp [later, same, notOwn, ddColumnFigure.setUniqueConstraintIndex]
      · rw [renumbered_earlier same later]
        simp [later, same, notOwn]

theorem disabledShared (here : t.column? id = some c) (shared : Shared t c) :
    (t.disableUniqueKey id).columns = t.columns.map (renumbered t c) ∧
      (t.disableUniqueKey id).ukNames = t.ukNames := by
  rw [disabled here]
  exact ⟨rfl, if_pos (shared_iff.mpr shared)⟩

theorem disabledLast (here : t.column? id = some c) (last : ¬ Shared t c) :
    (t.disableUniqueKey id).columns = t.columns.map (renumbered t c) ∧
      (t.disableUniqueKey id).ukNames = RemoveAt t.ukNames c.ukIndex := by
  rw [disabled here]
  exact ⟨rfl, if_neg fun any => last (shared_iff.mp any)⟩

section Disable
variable (numbered : Numbered t) (distinct : Distinct t) (here : t.column? id = some c)
include numbered distinct here

theorem sharedNumbered (shared : Shared t c) :
    Numbered (t.disableUniqueKey id) ∧ NamesKept t (t.disableUniqueKey id) := by
  obtain ⟨columns, names⟩ := disabledShared here shared
  refine ⟨⟨fun d inNext => ?_, fun k inside => ?_⟩, fun e old d inNext same joined stays => ?_⟩
  · rw [columns] at inNext
    obtain ⟨col, member, rfl⟩ := List.mem_map.mp inNext
    rw [names]
    by_cases own : col.id = c.id
    · exact .inl (by rw [renumbered_own own]; rfl)
    · rw [renumbered_shared shared own]
      exact numbered.bounded col member
  · rw [names] at inside
    obtain ⟨e, member, index⟩ := numbered.used k inside
    by_cases own : e.id = c.id
    · obtain ⟨d, other, apart, same⟩ := shared
      have mine := distinctSame distinct member (found here).1 own
      refine ⟨d, ?_, by rw [same, ← mine, index]⟩
      rw [columns]
      exact List.mem_map.mpr ⟨d, other, renumbered_shared ⟨d, other, apart, same⟩ apart⟩
    · refine ⟨e, ?_, index⟩
      rw [columns]
      exact List.mem_map.mpr ⟨e, member, renumbered_shared shared own⟩
  · rw [columns] at inNext
    obtain ⟨col, member, rfl⟩ := List.mem_map.mp inNext
    rw [renumbered_id] at same
    obtain rfl := distinctSame distinct member old same
    have other : col.id ≠ c.id := fun own => by
      rw [renumbered_own own] at stays
      exact absurd stays (by decide : ¬ (0 : ℤ) ≤ -1)
    rw [renumbered_shared shared other]
    unfold constraintName
    rw [names]

theorem lastNumbered (last : ¬ Shared t c) (inside : 0 ≤ c.ukIndex) :
    Numbered (t.disableUniqueKey id) ∧ NamesKept t (t.disableUniqueKey id) := by
  obtain ⟨columns, names⟩ := disabledLast here last
  obtain ⟨member, -⟩ := found here
  have bound : c.ukIndex < t.ukNames.length := by
    rcases numbered.bounded c member with none | ⟨-, bound⟩
    · omega
    · exact bound
  have place : c.ukIndex.toNat < t.ukNames.length := by omega
  rw [RemoveAt, if_pos inside] at names
  have length : (t.disableUniqueKey id).ukNames.length = t.ukNames.length - 1 := by
    rw [names, List.length_eraseIdx_of_lt place]
  have apart : ∀ col ∈ t.columns, col.id ≠ c.id → col.ukIndex ≠ c.ukIndex :=
    fun col member other same => last ⟨col, member, other, same⟩
  refine ⟨⟨fun d inNext => ?_, fun k inNext => ?_⟩, fun e old d inNext same joined stays => ?_⟩
  · rw [columns] at inNext
    obtain ⟨col, inTable, rfl⟩ := List.mem_map.mp inNext
    rw [length]
    by_cases own : col.id = c.id
    · exact .inl (by rw [renumbered_own own]; rfl)
    · have different := apart col inTable own
      have range := numbered.bounded col inTable
      by_cases later : c.ukIndex < col.ukIndex
      · rw [renumbered_later last own later]
        rw [setUnique_ukIndex]
        omega
      · rw [renumbered_earlier own later]
        omega
  · rw [length] at inNext
    by_cases before : (k : ℤ) < c.ukIndex
    · obtain ⟨e, inTable, index⟩ := numbered.used k (by omega)
      have other : e.id ≠ c.id := fun own => by
        have mine := distinctSame distinct inTable member own
        rw [mine] at index
        omega
      refine ⟨e, ?_, index⟩
      rw [columns]
      exact List.mem_map.mpr ⟨e, inTable, renumbered_earlier other (by omega)⟩
    · obtain ⟨e, inTable, index⟩ := numbered.used (k + 1) (by omega)
      have other : e.id ≠ c.id := fun own => by
        have mine := distinctSame distinct inTable member own
        rw [mine] at index
        omega
      refine ⟨e.setUniqueConstraintIndex (e.ukIndex - 1), ?_, ?_⟩
      · rw [columns]
        exact List.mem_map.mpr ⟨e, inTable, renumbered_later last other (by omega)⟩
      · simp only [ddColumnFigure.setUniqueConstraintIndex]
        omega
  · rw [columns] at inNext
    obtain ⟨col, inTable, rfl⟩ := List.mem_map.mp inNext
    rw [renumbered_id] at same
    obtain rfl := distinctSame distinct inTable old same
    have other : col.id ≠ c.id := fun own => by
      rw [renumbered_own own] at stays
      exact absurd stays (by decide : ¬ (0 : ℤ) ≤ -1)
    have different := apart col inTable other
    unfold constraintName
    rw [if_pos stays, if_pos joined, names, List.getElem?_eraseIdx]
    by_cases later : c.ukIndex < col.ukIndex
    · rw [renumbered_later last other later, setUnique_ukIndex, if_neg (by omega)]
      congr 1
      omega
    · rw [renumbered_earlier other later, if_pos (by omega)]

omit distinct in
theorem lastNameUnused (plain : c.ukIndex = -1) (some' : t.ukNames ≠ []) (last : ¬ Shared t c) :
    (t.disableUniqueKey id).ukNames = t.ukNames ∧
      ∀ d ∈ (t.disableUniqueKey id).columns, d.ukIndex ≠ (t.ukNames.length - 1 : ℕ) := by
  obtain ⟨columns, names⟩ := disabledLast here last
  rw [plain, RemoveAt, if_neg (by decide)] at names
  have count : 0 < t.ukNames.length := List.length_pos_of_ne_nil some'
  refine ⟨names, fun d inNext index => ?_⟩
  rw [columns] at inNext
  obtain ⟨col, inTable, rfl⟩ := List.mem_map.mp inNext
  by_cases own : col.id = c.id
  · rw [renumbered_own own, setUnique_ukIndex] at index
    omega
  · have range := numbered.bounded col inTable
    by_cases later : c.ukIndex < col.ukIndex
    · rw [renumbered_later last own later, setUnique_ukIndex] at index
      omega
    · rw [renumbered_earlier own later] at index
      omega

omit distinct in
theorem plainNumbered (plain : c.ukIndex = -1) (empty : t.ukNames = []) (last : ¬ Shared t c) :
    Numbered (t.disableUniqueKey id) ∧ NamesKept t (t.disableUniqueKey id) := by
  obtain ⟨columns, names⟩ := disabledLast here last
  rw [plain, RemoveAt, if_neg (by decide)] at names
  have none : ∀ col ∈ t.columns, col.ukIndex = -1 := fun col inTable => by
    rcases numbered.bounded col inTable with none | ⟨_, bound⟩
    · exact none
    · rw [empty, List.length_nil] at bound
      omega
  refine ⟨⟨fun d inNext => .inl ?_, fun k inNext => ?_⟩, fun e old d inNext same joined stays => ?_⟩
  · rw [columns] at inNext
    obtain ⟨col, inTable, rfl⟩ := List.mem_map.mp inNext
    by_cases own : col.id = c.id
    · rw [renumbered_own own, setUnique_ukIndex]
    · rw [renumbered_earlier own (by rw [none col inTable, plain]; exact lt_irrefl _)]
      exact none col inTable
  · simp [names, empty] at inNext
  · rw [none e old] at joined
    exact absurd joined (by decide)

end Disable

def LastPlain (t : ddTableFigure) (c : ddColumnFigure) : Prop :=
  c.ukIndex = -1 ∧ t.ukNames ≠ [] ∧ ∀ d ∈ t.columns, d.id ≠ c.id → d.ukIndex ≠ -1

theorem disableNumbered (numbered : Numbered t) (distinct : Distinct t)
    (here : t.column? id = some c) (spared : ¬ LastPlain t c) :
    Numbered (t.disableUniqueKey id) ∧ NamesKept t (t.disableUniqueKey id) := by
  by_cases shared : Shared t c
  · exact sharedNumbered numbered distinct here shared
  · rcases numbered.bounded c (found here).1 with plain | ⟨inside, -⟩
    · refine plainNumbered numbered here plain ?_ shared
      by_contra some'
      exact spared ⟨plain, some', fun d member other same =>
        shared ⟨d, member, other, same.trans plain.symm⟩⟩
    · exact lastNumbered numbered distinct here shared inside

theorem disableBroken (numbered : Numbered t) (here : t.column? id = some c)
    (last : LastPlain t c) : (t.disableUniqueKey id).ukNames = t.ukNames ∧
      ∀ d ∈ (t.disableUniqueKey id).columns, d.ukIndex ≠ (t.ukNames.length - 1 : ℕ) :=
  lastNameUnused numbered here last.1 last.2.1 fun ⟨d, member, other, same⟩ =>
    last.2.2 d member other (same.trans last.1)

def NoneJoins (t next : ddTableFigure) : Prop :=
  ∀ d ∈ next.columns, 0 ≤ d.ukIndex → ∃ c ∈ t.columns, d.id = c.id ∧ 0 ≤ c.ukIndex

theorem NamesKept.trans {u v : ddTableFigure} (first : NamesKept t u) (second : NamesKept u v)
    (noneJoins : NoneJoins u v) : NamesKept t v := by
  intro c old d new same joined stays
  obtain ⟨e, between, own, inner⟩ := noneJoins d new stays
  rw [second e between d new own inner stays]
  exact first c old e between (own.symm.trans same) joined inner

theorem disableNoneJoins (here : t.column? id = some c) : NoneJoins t (t.disableUniqueKey id) := by
  intro d inNext stays
  have columns : (t.disableUniqueKey id).columns = t.columns.map (renumbered t c) := by
    rw [disabled here]
  rw [columns] at inNext
  obtain ⟨col, inTable, rfl⟩ := List.mem_map.mp inNext
  refine ⟨col, inTable, renumbered_id, ?_⟩
  unfold renumbered at stays
  split at stays
  · exact absurd stays (by decide : ¬ (0 : ℤ) ≤ -1)
  · split at stays
    · rw [setUnique_ukIndex] at stays
      omega
    · exact stays

section Kept

theorem changeNumbered {f : ddColumnFigure → ddColumnFigure} (numbered : Numbered t)
    (distinct : Distinct t)
    (kept : ∀ col ∈ t.columns, col.id = id → (f col).id = col.id ∧ (f col).ukIndex = col.ukIndex) :
    Numbered (t.change id f) ∧ NamesKept t (t.change id f) := by
  have same : ∀ col ∈ t.columns, (if col.id = id then f col else col).id = col.id ∧
      (if col.id = id then f col else col).ukIndex = col.ukIndex := fun col member => by
    split
    · rename_i own
      exact kept col member own
    · exact ⟨rfl, rfl⟩
  refine ⟨⟨fun d inNext => ?_, fun k inside => ?_⟩, fun e old d inNext own joined stays => ?_⟩
  · obtain ⟨col, member, rfl⟩ := mem_change.mp inNext
    rw [(same col member).2]
    exact numbered.bounded col member
  · obtain ⟨e, member, index⟩ := numbered.used k inside
    exact ⟨_, mem_change.mpr ⟨e, member, rfl⟩, (same e member).2.trans index⟩
  · obtain ⟨col, member, rfl⟩ := mem_change.mp inNext
    rw [(same col member).1] at own
    obtain rfl := distinctSame distinct member old own
    unfold constraintName
    rw [(same col member).2, change_ukNames]

theorem joinNumbered {i : ℕ} (more : List Text) (numbered : Numbered t) (distinct : Distinct t)
    (here : t.column? id = some c) (plain : c.ukIndex < 0)
    (inside : i < t.ukNames.length + more.length)
    (covered : ∀ k, t.ukNames.length ≤ k → k < t.ukNames.length + more.length → k = i)
    {next : ddTableFigure} (names : next.ukNames = t.ukNames ++ more)
    (columns : next.columns =
      (t.change id (ddColumnFigure.setUniqueConstraintIndex i)).columns) :
    Numbered next ∧ NamesKept t next := by
  obtain ⟨member, own⟩ := found here
  have mine : ∀ col ∈ t.columns, col.id = id → col = c := fun col inTable same =>
    distinctSame distinct inTable member (same.trans own.symm)
  refine ⟨⟨fun d inNext => ?_, fun k within => ?_⟩, fun e old d inNext same joined stays => ?_⟩
  · rw [columns] at inNext
    obtain ⟨col, inTable, rfl⟩ := mem_change.mp inNext
    rw [names, List.length_append]
    split
    · rw [setUnique_ukIndex]
      omega
    · have range := numbered.bounded col inTable
      omega
  · rw [names, List.length_append] at within
    rw [columns]
    by_cases old : k < t.ukNames.length
    · obtain ⟨e, inTable, index⟩ := numbered.used k old
      have other : e.id ≠ id := fun same => by
        rw [mine e inTable same] at index
        omega
      exact ⟨e, mem_change.mpr ⟨e, inTable, if_neg other⟩, index⟩
    · obtain rfl := covered k (not_lt.mp old) within
      exact ⟨_, mem_change.mpr ⟨c, member, if_pos own⟩, rfl⟩
  · rw [columns] at inNext
    obtain ⟨col, inTable, rfl⟩ := mem_change.mp inNext
    have ids : col.id = e.id := by
      rw [← same]
      split <;> rfl
    obtain rfl := distinctSame distinct inTable old ids
    have other : col.id ≠ id := fun same => by
      rw [mine col inTable same] at joined
      omega
    rw [if_neg other] at stays ⊢
    have range := numbered.bounded col inTable
    unfold constraintName
    rw [if_pos joined, if_pos joined, names, List.getElem?_append_left (by omega)]

theorem addNumbered (numbered : Numbered t) (distinct : Distinct t)
    {columnName dataType : Text} {notNull isPk : Bool} :
    Numbered (t.addColumn columnName dataType notNull isPk) ∧
      NamesKept t (t.addColumn columnName dataType notNull isPk) := by
  refine ⟨⟨fun d inNext => ?_, fun k inside => ?_⟩, fun e old d inNext own joined stays => ?_⟩
  · rcases List.mem_append.mp inNext with member | new
    · exact numbered.bounded d member
    · exact .inl (by rw [List.mem_singleton.mp new])
  · obtain ⟨e, member, index⟩ := numbered.used k inside
    exact ⟨e, List.mem_append_left _ member, index⟩
  · rcases List.mem_append.mp inNext with member | new
    · rw [distinctSame distinct member old own]
      rfl
    · rw [List.mem_singleton.mp new] at stays
      exact absurd stays (by decide : ¬ (0 : ℤ) ≤ -1)

theorem dropNumbered {next : ddTableFigure} (numbered : Numbered t) (distinct : Distinct t)
    (names : next.ukNames = t.ukNames)
    (columns : next.columns = t.columns.filter fun col => col.id ≠ id)
    (plain : ∀ col ∈ t.columns, col.id = id → col.ukIndex = -1) :
    Numbered next ∧ NamesKept t next := by
  refine ⟨⟨fun d inNext => ?_, fun k inside => ?_⟩, fun e old d inNext own joined stays => ?_⟩
  · rw [columns] at inNext
    rw [names]
    exact numbered.bounded d (List.mem_filter.mp inNext).1
  · rw [names] at inside
    obtain ⟨e, member, index⟩ := numbered.used k inside
    refine ⟨e, ?_, index⟩
    rw [columns]
    refine List.mem_filter.mpr ⟨member, decide_eq_true fun same => ?_⟩
    rw [plain e member same] at index
    omega
  · rw [columns] at inNext
    rw [distinctSame distinct (List.mem_filter.mp inNext).1 old own]
    unfold constraintName
    rw [names]

end Kept

section Removal

theorem foundChange {f : ddColumnFigure → ddColumnFigure} (kept : ∀ col, (f col).id = col.id)
    (here : t.column? id = some c) : (t.change id f).column? id = some (f c) := by
  obtain ⟨-, own⟩ := found here
  have same : ((fun col => decide (col.id = id)) ∘ fun col => if col.id = id then f col else col) =
      fun col => decide (col.id = id) := by
    funext col
    simp only [Function.comp_apply]
    split
    · rw [kept col]
    · rfl
  unfold column? change at *
  rw [List.find?_map, same, here, Option.map_some, if_pos own]

theorem lastPlainChange {f : ddColumnFigure → ddColumnFigure}
    (kept : ∀ col, (f col).id = col.id ∧ (f col).ukIndex = col.ukIndex) :
    LastPlain (t.change id f) (f c) ↔ LastPlain t c := by
  have same : ∀ col, (if col.id = id then f col else col).id = col.id ∧
      (if col.id = id then f col else col).ukIndex = col.ukIndex := fun col => by
    split
    · exact kept col
    · exact ⟨rfl, rfl⟩
  unfold LastPlain
  rw [(kept c).1, (kept c).2, change_ukNames]
  refine and_congr_right fun _ => and_congr_right fun _ => ?_
  constructor
  · intro all d member other
    rw [← (same d).2]
    exact all _ (mem_change.mpr ⟨d, member, rfl⟩) fun own => other ((same d).1.symm.trans own)
  · intro all d inNext other
    obtain ⟨col, member, rfl⟩ := mem_change.mp inNext
    rw [(same col).2]
    exact all col member fun own => other ((same col).1.trans own)

theorem disableOwn (here : t.column? id = some c) {d : ddColumnFigure}
    (member : d ∈ (t.disableUniqueKey id).columns) (own : d.id = id) : d.ukIndex = -1 := by
  rw [disabled here] at member
  obtain ⟨col, -, rfl⟩ := List.mem_map.mp member
  rw [renumbered_id] at own
  rw [renumbered_own (own.trans (found here).2.symm), setUnique_ukIndex]

theorem disableDistinct (distinct : Distinct t) : Distinct (t.disableUniqueKey id) := by
  cases here : t.column? id with
  | none =>
    rw [disableUniqueKey, here]
    exact distinct
  | some c =>
    rw [disabled here]
    unfold Distinct
    rw [List.map_map]
    exact (List.map_congr_left fun col _ => renumbered_id).symm ▸ distinct

theorem removedKey (here : t.column? id = some c)
    (key : (c.isPrimaryKey || c.isUniqueKey) = true) :
    (t.removeColumn id).ukNames = ((t.disablePrimaryKey id).disableUniqueKey id).ukNames ∧
      (t.removeColumn id).columns =
        ((t.disablePrimaryKey id).disableUniqueKey id).columns.filter fun col => col.id ≠ id := by
  unfold removeColumn
  rw [here, Option.elim_some, if_pos key]
  exact ⟨rfl, rfl⟩

theorem removedPlain (here : t.column? id = some c)
    (plain : ¬ (c.isPrimaryKey || c.isUniqueKey) = true) :
    (t.removeColumn id).ukNames = t.ukNames ∧
      (t.removeColumn id).columns = t.columns.filter fun col => col.id ≠ id := by
  unfold removeColumn
  rw [here, Option.elim_some, if_neg plain]
  exact ⟨rfl, rfl⟩

theorem removeNumbered (numbered : Numbered t) (distinct : Distinct t)
    (here : t.column? id = some c) (spared : c.isPk = true → ¬ LastPlain t c) :
    Numbered (t.removeColumn id) ∧ NamesKept t (t.removeColumn id) := by
  obtain ⟨member, own⟩ := found here
  by_cases key : (c.isPrimaryKey || c.isUniqueKey) = true
  · obtain ⟨names, columns⟩ := removedKey here key
    have kept : ∀ col : ddColumnFigure, ({ col with isPk := false } : ddColumnFigure).id = col.id ∧
        ({ col with isPk := false } : ddColumnFigure).ukIndex = col.ukIndex :=
      fun col => ⟨rfl, rfl⟩
    have first : Numbered (t.disablePrimaryKey id) ∧ NamesKept t (t.disablePrimaryKey id) :=
      changeNumbered numbered distinct fun col _ _ => kept col
    have between := foundChange (fun col => (kept col).1) here
    have spared' : ¬ LastPlain (t.disablePrimaryKey id) { c with isPk := false } := fun last => by
      rcases Bool.or_eq_true_iff.mp key with pk | unique
      · exact spared pk ((lastPlainChange kept).mp last)
      · have plain := last.1
        unfold ddColumnFigure.isUniqueKey at unique
        simp only at plain
        rw [plain] at unique
        exact absurd unique (by decide)
    have second := disableNumbered first.1 (change_distinct (fun col => (kept col).1) distinct)
      between spared'
    have distinct' : Distinct ((t.disablePrimaryKey id).disableUniqueKey id) :=
      disableDistinct (change_distinct (fun col => (kept col).1) distinct)
    have third := dropNumbered second.1 distinct' names columns fun col inTable same =>
      disableOwn between inTable same
    refine ⟨third.1, (first.2.trans second.2 (disableNoneJoins between)).trans third.2 ?_⟩
    intro d inNext stays
    rw [columns] at inNext
    exact ⟨d, (List.mem_filter.mp inNext).1, rfl, stays⟩
  · obtain ⟨names, columns⟩ := removedPlain here key
    refine dropNumbered numbered distinct names columns fun col inTable same => ?_
    obtain rfl := distinctSame distinct inTable member (same.trans own.symm)
    rcases numbered.bounded col inTable with plain | ⟨inside, -⟩
    · exact plain
    · exact absurd (Bool.or_eq_true_iff.mpr (.inr (decide_eq_true inside))) key

theorem removeBroken (numbered : Numbered t) (here : t.column? id = some c)
    (pk : c.isPk = true) (distinct : Distinct t) (last : LastPlain t c) :
    ¬ Numbered (t.removeColumn id) := by
  obtain ⟨names, columns⟩ := removedKey here (Bool.or_eq_true_iff.mpr (.inl pk))
  have kept : ∀ col : ddColumnFigure, ({ col with isPk := false } : ddColumnFigure).id = col.id ∧
      ({ col with isPk := false } : ddColumnFigure).ukIndex = col.ukIndex :=
    fun col => ⟨rfl, rfl⟩
  obtain ⟨same, unused⟩ := disableBroken
    (changeNumbered numbered distinct fun col _ _ => kept col).1
    (foundChange (fun col => (kept col).1) here) ((lastPlainChange kept).mpr last)
  intro after
  have count : 0 < t.ukNames.length := List.length_pos_of_ne_nil last.2.1
  have length : (t.removeColumn id).ukNames.length = t.ukNames.length := by
    rw [names]
    exact congrArg List.length same
  obtain ⟨d, inNext, index⟩ := after.used (t.ukNames.length - 1) (by omega)
  rw [columns] at inNext
  exact unused d (List.mem_filter.mp inNext).1 index

end Removal
end ddTableFigure
end PgAdmin.ddDesign
