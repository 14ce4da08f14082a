import PgAdmin.NetworkTermination

/-! The columns of a design are told apart by their numbers, and stay so whatever a change does: no
number is given twice. -/
namespace PgAdmin.ddNetwork
open PgsObjects (Text)
open ddDesign (ddColumnFigure ddTableFigure)
open Fuelled (Ends)

variable {n m : ℕ}

def mark (c : ddColumnFigure) : ℕ × Bool × ℤ := (c.id, c.isPk, c.ukIndex)

def State.marks (s : State n m) (t : Fin n) : List (ℕ × Bool × ℤ) := (s.tables t).columns.map mark

/- No two columns are one object, and the next one is another. -/
structure Numbered (s : State n m) : Prop where
  once : ∀ t u, ∀ x ∈ s.marks t, ∀ y ∈ s.marks u, x.1 = y.1 → t = u ∧ x = y
  below : ∀ t, ∀ x ∈ s.marks t, x.1 < s.newId
  items : ∀ r, ∀ item ∈ s.chm r, item.fkColumn < s.newId

/- Numbers are kept or new. -/
structure Aged (s next : State n m) : Prop where
  newId : s.newId ≤ next.newId
  marks : ∀ t, ∀ x ∈ next.marks t, (∃ y ∈ s.marks t, y.1 = x.1) ∨ s.newId ≤ x.1
  numbered : Numbered s → Numbered next

section Marks
variable {s next last : State n m} {t u : Fin n} {r : Fin m}

theorem marksUpdated {f : ddTableFigure → ddTableFigure} (t : Fin n) :
    (s.onTable u f).marks t = if t = u then (f (s.tables u)).columns.map mark else s.marks t := by
  by_cases same : t = u
  · subst same
    rw [if_pos rfl, State.marks, State.onTable]
    exact congrArg (·.columns.map mark) (Function.update_self t _ s.tables)
  · rw [if_neg same, State.marks, onTable_other same]
    rfl

theorem marksKept {f : ddTableFigure → ddTableFigure}
    (keeps : (f (s.tables u)).columns.map mark = (s.tables u).columns.map mark) (t : Fin n) :
    (s.onTable u f).marks t = s.marks t := by
  rw [marksUpdated]
  split
  case isTrue same => rw [keeps, same, State.marks]
  case isFalse => rfl

theorem changeKeeps (table : ddTableFigure) (id : ℕ) {f : ddColumnFigure → ddColumnFigure}
    (keeps : ∀ c, mark (f c) = mark c) : (table.change id f).columns.map mark = table.columns.map mark := by
  rw [ddTableFigure.change, List.map_map]
  refine List.map_congr_left fun c _ => ?_
  simp only [Function.comp_apply]
  split
  · exact keeps c
  · rfl

theorem columnFound (numbered : Numbered s) {x : ℕ × Bool × ℤ} (member : x ∈ s.marks t) :
    ∃ c, s.column? x.1 = some c ∧ mark c = x := by
  obtain ⟨c, inTable, rfl⟩ := List.mem_map.mp member
  have some : (s.column? (mark c).1).isSome := by
    rw [State.column?, List.findSome?_isSome_iff]
    refine ⟨t, List.mem_finRange t, ?_⟩
    rw [ddTableFigure.column?, List.find?_isSome]
    exact ⟨c, inTable, by simp [mark]⟩
  obtain ⟨c', found⟩ := Option.isSome_iff_exists.mp some
  refine ⟨c', found, ?_⟩
  obtain ⟨u, -, inOther⟩ := List.exists_of_findSome?_eq_some found
  have same : c'.id = (mark c).1 := by simpa using List.find?_some inOther
  exact (numbered.once u t _ (List.mem_map_of_mem (List.mem_of_find?_eq_some inOther)) _ member same).2

end Marks

section Aging
variable {s next last : State n m} {t u : Fin n} {r : Fin m}

theorem Aged.refl : Aged s s where
  newId := le_rfl
  marks _ x member := .inl ⟨x, member, rfl⟩
  numbered := id

theorem Aged.trans (first : Aged s next) (second : Aged next last) : Aged s last where
  newId := first.newId.trans second.newId
  marks t x member := by
    rcases second.marks t x member with ⟨y, inNext, same⟩ | new
    · exact same ▸ first.marks t y inNext
    · exact .inr (first.newId.trans new)
  numbered numbered := second.numbered (first.numbered numbered)

/- Columns go or change in the same way wherever they are the same. -/
theorem Aged.of (g : Fin n → ℕ × Bool × ℤ → ℕ × Bool × ℤ) (name : ∀ t x, (g t x).1 = x.1)
    (newId : s.newId ≤ next.newId) (marks : ∀ t, ∀ x ∈ next.marks t, ∃ y ∈ s.marks t, x = g t y)
    (items : ∀ r, ∀ item ∈ next.chm r, ∃ old ∈ s.chm r, item.fkColumn = old.fkColumn) : Aged s next where
  newId := newId
  marks t x member := by
    obtain ⟨y, inTable, rfl⟩ := marks t x member
    exact .inl ⟨y, inTable, (name t y).symm⟩
  numbered numbered := by
    refine ⟨fun t u x member y member' same => ?_, fun t x member => ?_, fun r item member => ?_⟩
    · obtain ⟨x', inTable, rfl⟩ := marks t x member
      obtain ⟨y', inTable', rfl⟩ := marks u y member'
      rw [name, name] at same
      obtain ⟨rfl, rfl⟩ := numbered.once t u x' inTable y' inTable' same
      exact ⟨rfl, rfl⟩
    · obtain ⟨y, inTable, rfl⟩ := marks t x member
      rw [name]
      exact (numbered.below t y inTable).trans_le newId
    · obtain ⟨old, inItems, same⟩ := items r item member
      exact same ▸ (numbered.items r old inItems).trans_le newId

theorem Aged.counted (newId : s.newId ≤ next.newId) (tables : next.tables = s.tables) (items : next.chm = s.chm) :
    Aged s next :=
  .of (fun _ x => x) (fun _ _ => rfl) newId
    (fun t x member => ⟨x, by rwa [State.marks, tables] at member, rfl⟩)
    fun _ item member => ⟨item, items ▸ member, rfl⟩

theorem Aged.onItems {f : List ddRelationshipItem → List ddRelationshipItem}
    (items : ∀ item ∈ f (s.chm r), ∃ old ∈ s.chm r, item.fkColumn = old.fkColumn) :
    Aged s (s.onItems r f) := by
  refine .of (fun _ x => x) (fun _ _ => rfl) le_rfl (fun t x member => ⟨x, member, rfl⟩)
    fun r' item member => ?_
  by_cases same : r' = r
  · subst same
    rw [onItems_own] at member
    exact items item member
  · rw [onItems_other same] at member
    exact ⟨item, member, rfl⟩

theorem Aged.onTable {f : ddTableFigure → ddTableFigure} (g : ℕ × Bool × ℤ → ℕ × Bool × ℤ)
    (name : ∀ x, (g x).1 = x.1) (marks : ∀ c ∈ (f (s.tables u)).columns, ∃ c' ∈ (s.tables u).columns,
      mark c = g (mark c')) : Aged s (s.onTable u f) := by
  refine .of (fun t x => if t = u then g x else x) (fun t x => ?_) le_rfl (fun t x member => ?_)
    fun _ item member => ⟨item, member, rfl⟩
  · split
    · exact name x
    · rfl
  · rw [marksUpdated] at member
    split at member
    case isTrue same =>
      obtain ⟨c, inTable, rfl⟩ := List.mem_map.mp member
      obtain ⟨c', inTable', made⟩ := marks c inTable
      exact ⟨mark c', same ▸ List.mem_map_of_mem inTable', by rw [if_pos same, made]⟩
    case isFalse other => exact ⟨x, member, (if_neg other).symm⟩

theorem Aged.change (table : Fin n) (id : ℕ) {f : ddColumnFigure → ddColumnFigure}
    (g : ℕ × Bool × ℤ → ℕ × Bool × ℤ) (name : ∀ x, (g x).1 = x.1) (marks : ∀ c, mark (f c) = g (mark c)) :
    Aged s (s.onTable table fun t => t.change id f) := by
  refine .onTable (fun x => if x.1 = id then g x else x) (fun x => ?_) fun c member => ?_
  · split
    · exact name x
    · rfl
  · obtain ⟨c', inTable, rfl⟩ := List.mem_map.mp member
    refine ⟨c', inTable, ?_⟩
    by_cases same : c'.id = id
    · simp only [if_pos same, marks]
      exact (if_pos same).symm
    · simp only [if_neg same]
      exact (if_neg same).symm

def unUnique (id : ℕ) (x : ℕ × Bool × ℤ) : ℕ × Bool × ℤ := if x.1 = id then (x.1, x.2.1, -1) else x

def lowered (index : ℤ) (x : ℕ × Bool × ℤ) : ℕ × Bool × ℤ :=
  if index < x.2.2 then (x.1, x.2.1, x.2.2 - 1) else x

theorem unUniqueName (id : ℕ) (x : ℕ × Bool × ℤ) : (unUnique id x).1 = x.1 := by
  rw [unUnique]
  split <;> rfl

theorem loweredName (index : ℤ) (x : ℕ × Bool × ℤ) : (lowered index x).1 = x.1 := by
  rw [lowered]
  split <;> rfl

theorem unUniqueMark (id : ℕ) (c : ddColumnFigure) :
    mark (if c.id = id then c.setUniqueConstraintIndex (-1) else c) = unUnique id (mark c) := by
  by_cases same : c.id = id
  · rw [if_pos same]
    exact (if_pos same).symm
  · rw [if_neg same]
    exact (if_neg same).symm

theorem loweredMark (index : ℤ) (c : ddColumnFigure) :
    mark (if index < c.ukIndex then c.setUniqueConstraintIndex (c.ukIndex - 1) else c) =
      lowered index (mark c) := by
  by_cases above : index < c.ukIndex
  · rw [if_pos above]
    exact (if_pos above).symm
  · rw [if_neg above]
    exact (if_neg above).symm

theorem disableMarks (table : ddTableFigure) (id : ℕ) : ∃ g : ℕ × Bool × ℤ → ℕ × Bool × ℤ,
    (∀ x, (g x).1 = x.1) ∧ ∀ c ∈ (table.disableUniqueKey id).columns, ∃ c' ∈ table.columns, mark c = g (mark c') := by
  rw [ddTableFigure.disableUniqueKey]
  cases table.column? id with
  | none => exact ⟨fun x => x, fun _ => rfl, fun c member => ⟨c, member, rfl⟩⟩
  | some owner =>
    simp only [Option.elim_some, ddTableFigure.syncUkIndexes]
    split
    · refine ⟨unUnique id ∘ unUnique owner.id ∘ lowered owner.ukIndex, fun x => ?_, fun c member => ?_⟩
      · simp only [Function.comp_apply, unUniqueName, loweredName]
      · simp only [ddTableFigure.change, List.map_map, List.mem_map, Function.comp_apply] at member
        obtain ⟨c', inTable, rfl⟩ := member
        exact ⟨c', inTable, by simp only [unUniqueMark, loweredMark, Function.comp_apply]⟩
    · refine ⟨unUnique id, unUniqueName id, fun c member => ?_⟩
      obtain ⟨c', inTable, rfl⟩ := List.mem_map.mp member
      exact ⟨c', inTable, unUniqueMark id c'⟩

theorem Aged.disableUnique (table : Fin n) (id : ℕ) :
    Aged s (s.onTable table fun t => t.disableUniqueKey id) := by
  obtain ⟨g, name, marks⟩ := disableMarks (s.tables table) id
  exact .onTable g name marks

theorem Aged.dropped (table : Fin n) (id : ℕ) :
    Aged s (s.onTable table fun t => Network.dropFigure t id) :=
  .onTable (fun x => x) (fun _ => rfl) fun c member => ⟨c, List.mem_of_mem_filter member, rfl⟩

end Aging

namespace Network
variable {net : Network n m} {s next : State n m} {t : Fin n} {r : Fin m} {depth : ℕ}

theorem setItemMember {items : List ddRelationshipItem} {item new : ddRelationshipItem}
    (member : item ∈ setItem items new) : item ∈ items ∨ item = new := by
  rw [setItem] at member
  split at member
  · obtain ⟨old, inItems, rfl⟩ := List.mem_map.mp member
    split
    · exact .inr rfl
    · exact .inl inItems
  · simpa using member

theorem renamedMember {item : ddRelationshipItem} {column : ddColumnFigure}
    (found : renamed? s r = some (item, column)) : item ∈ s.chm r := by
  obtain ⟨item', member, answer⟩ := List.exists_of_findSome?_eq_some found
  simp only [Option.bind_eq_some_iff] at answer
  obtain ⟨id, -, column', -, chosen⟩ := answer
  split at chosen
  · cases chosen
  · simp only [Option.some.injEq, Prod.mk.injEq] at chosen
    exact chosen.1 ▸ member

theorem eraseAged (name : Text) : Aged s (s.onItems r fun items => eraseItem items name) :=
  .onItems fun item member => ⟨item, List.mem_of_mem_filter member, rfl⟩

theorem forgetAged (column : ℕ) : Aged s (s.forget r column) := by
  refine .onItems fun item member => ?_
  obtain ⟨old, inItems, rfl⟩ := List.mem_map.mp member
  refine ⟨old, inItems, ?_⟩
  split <;> rfl

theorem plainAged (id : ℕ) : Aged s (s.onTable t fun t => makePlain t id) :=
  .change t id (fun x => x) (fun _ => rfl) fun _ => rfl

theorem disablePrimaryAged (id : ℕ) : Aged s (s.onTable t fun t => t.disablePrimaryKey id) :=
  .change t id (fun x => (x.1, false, x.2.2)) (fun _ => rfl) fun _ => rfl

theorem enablePrimaryAged (id : ℕ) : Aged s (s.onTable t fun t => t.enablePrimaryKey id) :=
  .change t id (fun x => (x.1, true, x.2.2)) (fun _ => rfl) fun _ => rfl

theorem syncNamesAged (net : Network n m) (s : State n m) (r : Fin m) : Aged s (net.syncNames s r) := by
  unfold syncNames
  cases found : renamed? s r with
  | none => exact .refl
  | some pair =>
    obtain ⟨item, column⟩ := pair
    have inItems := renamedMember found
    simp only [Option.elim_some, syncAutoFkName]
    refine (Aged.onItems fun item' member => ?_).trans (.change _ _ (fun x => x) (fun _ => rfl) fun c => ?_)
    · rw [eraseItem, List.mem_filter] at member
      rcases setItemMember member.1 with old | rfl
      · exact ⟨item', old, rfl⟩
      · exact ⟨item, inItems, rfl⟩
    · split <;> rfl

def itemMade (net : Network n m) (a s : State n m) (r : Fin m) (column : ddColumnFigure) : State n m :=
  (a.onItems r fun items => setItem items (net.newItem s r column).2).onTable
    (net.endFigure r) fun t => { t with columns := t.columns ++ [(net.newItem s r column).1] }

theorem itemMadeMarks (a s : State n m) (column : ddColumnFigure) (w : Fin n) :
    (net.itemMade a s r column).marks w = if w = net.endFigure r then
      a.marks w ++ [(s.newId, net.fkIdentifying r, -1)] else a.marks w := by
  refine (marksUpdated w).trans ?_
  split
  case isTrue same =>
    rw [List.map_append, same]
    rfl
  case isFalse => rfl

theorem itemMadeMark {a : State n m} {column : ddColumnFigure} {w : Fin n} {x : ℕ × Bool × ℤ}
    (member : x ∈ (net.itemMade a s r column).marks w) :
    x ∈ a.marks w ∨ w = net.endFigure r ∧ x = (s.newId, net.fkIdentifying r, -1) := by
  rw [itemMadeMarks] at member
  split at member
  case isTrue same => exact (List.mem_append.mp member).imp_right fun new => ⟨same, List.mem_singleton.mp new⟩
  case isFalse => exact .inl member

theorem itemMadeItem {a : State n m} {column : ddColumnFigure} {r' : Fin m} {item : ddRelationshipItem}
    (member : item ∈ (net.itemMade a s r column).chm r') :
    item ∈ a.chm r' ∨ r' = r ∧ item = (net.newItem s r column).2 := by
  by_cases own : r' = r
  · subst own
    exact (setItemMember (by simpa [itemMade, onItems_own] using member)).imp_right fun new => ⟨rfl, new⟩
  · exact .inl (by simpa [itemMade, onItems_other own] using member)

theorem itemMadeAged {a : State n m} (aged : Aged { s with newId := s.newId + 1 } a) (column : ddColumnFigure) :
    Aged s (net.itemMade a s r column) where
  newId := (Nat.le_succ _).trans aged.newId
  marks w x member := by
    rcases itemMadeMark member with old | ⟨-, rfl⟩
    · exact (aged.marks w x old).imp_right (Nat.le_succ _).trans
    · exact .inr le_rfl
  numbered numbered := by
    have counted : Numbered { s with newId := s.newId + 1 } :=
      ⟨numbered.once, fun t x member => Nat.lt_succ_of_lt (numbered.below t x member),
        fun r item member => Nat.lt_succ_of_lt (numbered.items r item member)⟩
    have after := aged.numbered counted
    have older {w : Fin n} {x : ℕ × Bool × ℤ} (member : x ∈ a.marks w) : x.1 ≠ s.newId := by
      rcases aged.marks w x member with ⟨y, inTable, same⟩ | new
      · exact same ▸ (numbered.below w y inTable).ne
      · exact (Nat.lt_of_succ_le new).ne'
    refine ⟨fun w w' x member y member' same => ?_, fun w x member => ?_, fun r' item member => ?_⟩
    · rcases itemMadeMark member with old | ⟨rfl, rfl⟩ <;> rcases itemMadeMark member' with old' | ⟨rfl, rfl⟩
      · exact after.once w w' x old y old' same
      · exact absurd same (older old)
      · exact absurd same.symm (older old')
      · exact ⟨rfl, rfl⟩
    · rcases itemMadeMark member with old | ⟨-, rfl⟩
      · exact after.below w x old
      · exact aged.newId
    · rcases itemMadeItem member with old | ⟨-, rfl⟩
      · exact after.items r' item old
      · exact aged.newId

theorem prepareAged (column : ℕ) (ran : net.prepareForDeleteFkColumn depth s t column = some next) :
    Aged s next := by
  induction depth using Nat.strong_induction_on generalizing s t next with
  | _ depth ih =>
    cases depth with
    | zero => cases ran
    | succ depth =>
      refine Fuelled.keptFoldlM (fun _ => Aged.refl) (fun _ _ _ => Aged.trans) (fun r _ a b step => ?_) ran
      split at step
      · cases depth with
        | zero => cases step
        | succ depth =>
          rw [prepareFkForDelete] at step
          exact (forgetAged column).trans (ih depth (by omega) step)
      · exact Option.some.inj step ▸ .refl

/- Every run of so many steps keeps the numbers. -/
structure Ages (net : Network n m) (depth : ℕ) : Prop where
  observers : ∀ {s t next}, net.updateFkObservers depth s t = some next → Aged s next
  foreignKey : ∀ {s r next}, net.updateForeignKey depth s r = some next → Aged s next
  columns : ∀ {s r place next}, net.columnLoop depth s r place = some next → Aged s next
  add : ∀ {s r column next}, net.addItem depth s r column = some next → Aged s next
  drop : ∀ {s r next}, net.dropLoop depth s r = some next → Aged s next
  remove : ∀ {s t id next}, net.removeColumn depth s t id = some next → Aged s next
  primary : ∀ {s t id next}, net.disablePrimaryKey depth s t id = some next → Aged s next
  unique : ∀ {s t id next}, net.disableUniqueKey depth s t id = some next → Aged s next

section Runs
variable (ages : Ages net depth)
include ages

theorem observersAge (ran : net.updateFkObservers (depth + 1) s t = some next) : Aged s next := by
  rw [updateFkObservers] at ran
  refine Fuelled.keptFoldlM (fun _ => Aged.refl) (fun _ _ _ => Aged.trans) (fun r _ a b step => ?_) ran
  split at step
  · exact ages.foreignKey step
  · exact Option.some.inj step ▸ .refl

theorem foreignKeyAge (ran : net.updateForeignKey (depth + 1) s r = some next) : Aged s next := by
  rw [updateForeignKey] at ran
  obtain ⟨a, loop, rest⟩ := Option.bind_eq_some_iff.mp ran
  have listed : Aged s { s with updated := s.updated ++ [r] } := .counted le_rfl rfl rfl
  have front := (listed.trans (syncNamesAged net _ r)).trans (ages.columns loop)
  split at rest
  · exact front.trans (ages.observers rest)
  · exact Option.some.inj rest ▸ front

theorem columnsAge {place : ℕ} (ran : net.columnLoop (depth + 1) s r place = some next) : Aged s next := by
  rw [columnLoop] at ran
  split at ran
  · exact Option.some.inj ran ▸ .refl
  · obtain ⟨a, added, ran⟩ := Option.bind_eq_some_iff.mp ran
    obtain ⟨b, dropped, ran⟩ := Option.bind_eq_some_iff.mp ran
    exact ((ages.add added).trans (ages.drop dropped)).trans (ages.columns ran)

theorem addAges {column : ddColumnFigure} (ran : net.addItem (depth + 1) s r column = some next) :
    Aged s next := by
  rw [addItem] at ran
  dsimp only at ran
  split at ran
  · obtain ⟨a, updated, made⟩ := Option.map_eq_some_iff.mp ran
    have aged : Aged { s with newId := s.newId + 1 } a := by
      split at updated
      · exact ages.observers updated
      · exact Option.some.inj updated ▸ .refl
    exact made ▸ itemMadeAged aged column
  · exact Option.some.inj ran ▸ .refl

theorem dropAges (ran : net.dropLoop (depth + 1) s r = some next) : Aged s next := by
  rw [dropLoop] at ran
  split at ran
  · exact Option.some.inj ran ▸ .refl
  · obtain ⟨a, removed, ran⟩ := Option.bind_eq_some_iff.mp ran
    have aged : Aged s a := by
      split at removed
      · exact ages.remove removed
      · exact Option.some.inj removed ▸ plainAged _
    exact (aged.trans (eraseAged _)).trans (ages.drop ran)

theorem removeAges {id : ℕ} (ran : net.removeColumn (depth + 1) s t id = some next) : Aged s next := by
  rw [removeColumn] at ran
  obtain ⟨a, disabled, rfl⟩ := Option.map_eq_some_iff.mp ran
  refine Aged.trans ?_ (.dropped t id)
  split at disabled
  · obtain ⟨b, primary, unique⟩ := Option.bind_eq_some_iff.mp disabled
    exact (ages.primary primary).trans (ages.unique unique)
  · exact Option.some.inj disabled ▸ .refl

theorem primaryAges {id : ℕ} (ran : net.disablePrimaryKey (depth + 1) s t id = some next) : Aged s next := by
  rw [disablePrimaryKey] at ran
  obtain ⟨a, prepared, updated⟩ := Option.bind_eq_some_iff.mp ran
  exact ((prepareAged id prepared).trans (disablePrimaryAged id)).trans (ages.observers updated)

theorem uniqueAges {id : ℕ} (ran : net.disableUniqueKey (depth + 1) s t id = some next) : Aged s next := by
  rw [disableUniqueKey] at ran
  exact (Aged.disableUnique t id).trans (ages.observers ran)

end Runs

theorem runsAge (net : Network n m) (depth : ℕ) : Ages net depth := by
  induction depth with
  | zero =>
    constructor <;> intros <;> rename_i ran
    · rw [updateFkObservers] at ran; cases ran
    · rw [updateForeignKey] at ran; cases ran
    · rw [columnLoop] at ran; cases ran
    · rw [addItem] at ran; cases ran
    · rw [dropLoop] at ran; cases ran
    · rw [removeColumn] at ran; cases ran
    · rw [disablePrimaryKey] at ran; cases ran
    · rw [disableUniqueKey] at ran; cases ran
  | succ depth ages =>
    exact ⟨observersAge ages, foreignKeyAge ages, columnsAge ages, addAges ages, dropAges ages,
      removeAges ages, primaryAges ages, uniqueAges ages⟩

end Network
end PgAdmin.ddNetwork
