import PgAdmin.DesignScript

/-! The script of a design is complete just when no relationship with items joins a table to itself, as the
observers of the table are asked only for relationships that start elsewhere, and each refers to a key. -/
namespace PgAdmin.ddDesign
open PgsObjects (Text)

section Kinds

def OfKind (k : Kind) (part : List Statement) : Prop := ∀ s ∈ part, s.kind = .note ∨ s.kind = k

theorem otherKind {k other : Kind} {part : List Statement} (ofKind : OfKind k part)
    (drawn : other ≠ .note) (apart : other ≠ k) :
    part.filter (fun s => s.kind = other) = [] := by
  refine List.filter_eq_nil_iff.mpr fun s member here => ?_
  have kind : s.kind = other := by simpa using here
  rcases ofKind s member with note | own
  · exact drawn (kind.symm.trans note)
  · exact apart (kind.symm.trans own)

end Kinds

namespace Design
variable (d : Design)

section Parts

theorem creationsKind : OfKind .create d.creations := by
  intro s member
  simp only [creations, List.mem_cons, List.mem_flatMap, List.not_mem_nil, or_false] at member
  rcases member with rfl | ⟨t, -, rfl | rfl | rfl⟩
  · exact .inl rfl
  · exact .inl rfl
  · exact .inr rfl
  · exact .inl rfl

theorem primaryKeysKind : OfKind .primaryKey d.primaryKeys := by
  intro s member
  rcases List.mem_cons.mp member with rfl | member
  · exact .inl rfl
  · obtain ⟨t, -, rfl⟩ := List.mem_map.mp member
    exact .inr rfl

theorem uniquesKind : OfKind .unique d.uniques := by
  intro s member
  rcases List.mem_cons.mp member with rfl | member
  · exact .inl rfl
  · obtain ⟨t, -, member⟩ := List.mem_flatMap.mp member
    obtain ⟨i, -, rfl⟩ := List.mem_map.mp member
    exact .inr rfl

theorem foreignKeysKind : OfKind .foreignKey d.foreignKeys := by
  intro s member
  rcases List.mem_cons.mp member with rfl | member
  · exact .inl rfl
  · obtain ⟨i, -, member⟩ := List.mem_flatMap.mp member
    obtain ⟨rel, -, member⟩ := List.mem_flatMap.mp member
    split at member
    · rw [List.mem_singleton.mp member]
      exact .inr rfl
    · exact absurd member List.not_mem_nil

theorem creationsCreate : d.creations.filter (fun s => s.kind = .create) =
    d.tables.map ddTableFigure.creation := by
  rw [creations, List.filter_cons_of_neg (by decide), List.filter_flatMap, List.map_eq_flatMap]
  exact List.flatMap_congr fun t _ => by
    simp [Statement.kind, ddTableFigure.creation]

theorem noteKept (note : Text) (part : List Statement) {k : Kind} (drawn : k ≠ .note)
    (all : ∀ s ∈ part, s.kind = k) :
    (Statement.note note :: part).filter (fun s => s.kind = k) = part := by
  have front : decide ((Statement.note note).kind = k) = false :=
    decide_eq_false fun same => drawn same.symm
  rw [List.filter_cons, if_neg (by simp [front])]
  exact List.filter_eq_self.mpr fun s member => decide_eq_true (all s member)

theorem scriptKind (k : Kind) : d.script.filter (fun s => s.kind = k) =
    d.creations.filter (fun s => s.kind = k) ++ (d.primaryKeys.filter (fun s => s.kind = k) ++
      (d.uniques.filter (fun s => s.kind = k) ++ d.foreignKeys.filter fun s => s.kind = k)) := by
  simp [script]

theorem scriptCreates : d.script.filter (fun s => s.kind = .create) =
    d.tables.map ddTableFigure.creation := by
  rw [scriptKind, otherKind d.primaryKeysKind (by decide) (by decide),
    otherKind d.uniquesKind (by decide) (by decide),
    otherKind d.foreignKeysKind (by decide) (by decide), creationsCreate]
  simp

theorem scriptPrimaryKeys : d.script.filter (fun s => s.kind = .primaryKey) =
    (d.tables.filter fun t => t.keyColumns ≠ []).map ddTableFigure.primaryKey := by
  have own := noteKept pkNote
    ((d.tables.filter fun t => t.keyColumns ≠ []).map ddTableFigure.primaryKey) (k := .primaryKey)
    (by decide)
    fun s member => by
      obtain ⟨t, -, rfl⟩ := List.mem_map.mp member
      rfl
  rw [scriptKind, otherKind d.creationsKind (by decide) (by decide),
    otherKind d.uniquesKind (by decide) (by decide),
    otherKind d.foreignKeysKind (by decide) (by decide), primaryKeys, own]
  simp

theorem scriptUniques : d.script.filter (fun s => s.kind = .unique) =
    d.tables.flatMap fun t => (List.range t.ukNames.length).map t.unique := by
  have own := noteKept ukNote
    (d.tables.flatMap fun t => (List.range t.ukNames.length).map t.unique) (k := .unique) (by decide)
    fun s member => by
      obtain ⟨t, -, member⟩ := List.mem_flatMap.mp member
      obtain ⟨i, -, rfl⟩ := List.mem_map.mp member
      rfl
  rw [scriptKind, otherKind d.creationsKind (by decide) (by decide),
    otherKind d.primaryKeysKind (by decide) (by decide),
    otherKind d.foreignKeysKind (by decide) (by decide), uniques, own]
  simp

theorem scriptForeignKeys : d.script.filter (fun s => s.kind = .foreignKey) =
    (List.range d.tables.length).flatMap fun i => (d.observers i).flatMap fun rel =>
      if rel.startFigure ≠ i ∧ rel.items ≠ [] then [rel.foreignKey d] else [] := by
  have own := noteKept fkNote
    ((List.range d.tables.length).flatMap fun i => (d.observers i).flatMap fun rel =>
      if rel.startFigure ≠ i ∧ rel.items ≠ [] then [rel.foreignKey d] else [])
    (k := .foreignKey) (by decide)
    fun s member => by
      obtain ⟨i, -, member⟩ := List.mem_flatMap.mp member
      obtain ⟨rel, -, member⟩ := List.mem_flatMap.mp member
      split at member
      · rw [List.mem_singleton.mp member]
        rfl
      · exact absurd member List.not_mem_nil
  rw [scriptKind, otherKind d.creationsKind (by decide) (by decide),
    otherKind d.primaryKeysKind (by decide) (by decide),
    otherKind d.uniquesKind (by decide) (by decide), foreignKeys, own]
  simp

end Parts

section ForeignKeys

def written (r : ddRelationshipFigure) : List Statement :=
  if r.startFigure ≠ r.endFigure ∧ r.items ≠ [] then [r.foreignKey d] else []

theorem connectionsWritten (r : ddRelationshipFigure) (i : ℕ) :
    ((r.connections i).flatMap fun rel =>
      if rel.startFigure ≠ i ∧ rel.items ≠ [] then [rel.foreignKey d] else []) =
      if r.endFigure = i then d.written r else [] := by
  unfold ddRelationshipFigure.connections written
  by_cases starts : r.startFigure = i
  · by_cases ends : r.endFigure = i
    · simp [starts, ends]
    · simp [starts, ends]
  · by_cases ends : r.endFigure = i
    · subst ends
      simp [starts]
    · simp [starts, ends]

theorem onceWritten {n e : ℕ} (inside : e < n) (part : List Statement) :
    ((List.range n).flatMap fun i => if e = i then part else []) = part := by
  induction n with
  | zero => exact absurd inside (Nat.not_lt_zero e)
  | succ n ih =>
    rw [List.range_succ, List.flatMap_append, List.flatMap_singleton]
    rcases Nat.lt_succ_iff_lt_or_eq.mp inside with less | rfl
    · rw [ih less, if_neg less.ne, List.append_nil]
    · have none : ((List.range e).flatMap fun i => if e = i then part else []) = [] :=
        List.flatMap_eq_nil_iff.mpr fun i member => if_neg (List.mem_range.mp member).ne'
      rw [none, if_pos rfl, List.nil_append]

theorem flatMapSwap {A B C : Type} (xs : List A) (ys : List B) (f : A → B → List C) :
    (xs.flatMap fun x => ys.flatMap fun y => f x y).Perm
      (ys.flatMap fun y => xs.flatMap fun x => f x y) := by
  have swap := Multiset.bind_bind (xs : Multiset A) (ys : Multiset B)
    (f := fun x y => (f x y : Multiset C))
  simp only [Multiset.coe_bind] at swap
  exact Multiset.coe_eq_coe.mp swap

theorem foreignKeysWritten : (d.script.filter fun s => s.kind = .foreignKey).Perm
    (d.relationships.flatMap d.written) := by
  rw [scriptForeignKeys]
  have each : ∀ i ∈ List.range d.tables.length, ((d.observers i).flatMap fun rel =>
      if rel.startFigure ≠ i ∧ rel.items ≠ [] then [rel.foreignKey d] else []).Perm
      (d.relationships.flatMap fun r => if r.endFigure = i then d.written r else []) := by
    intro i _
    refine ((d.observed i).flatMap_right _).trans ?_
    rw [List.flatMap_assoc]
    exact List.Perm.of_eq (List.flatMap_congr fun r _ => d.connectionsWritten r i)
  refine (List.Perm.flatMap_left _ each).trans ((flatMapSwap _ _ _).trans ?_)
  refine List.Perm.of_eq (List.flatMap_congr fun r member => ?_)
  exact onceWritten (d.connected r member).2 (d.written r)

theorem shorterSum {A : Type} {f g : A → ℕ} {xs : List A} (less : ∀ x ∈ xs, f x ≤ g x)
    (same : (xs.map f).sum = (xs.map g).sum) : ∀ x ∈ xs, f x = g x := by
  induction xs with
  | nil => exact fun x member => absurd member List.not_mem_nil
  | cons first rest ih =>
    simp only [List.map_cons, List.sum_cons] at same
    have front := less first List.mem_cons_self
    have back : (rest.map f).sum ≤ (rest.map g).sum :=
      List.sum_le_sum fun x member => less x (List.mem_cons_of_mem _ member)
    intro x member
    rcases List.mem_cons.mp member with rfl | member
    · omega
    · exact ih (fun x member => less x (List.mem_cons_of_mem _ member)) (by omega) x member

theorem foreignKeysComplete : (d.script.filter fun s => s.kind = .foreignKey).Perm
      ((d.relationships.filter fun r => r.items ≠ []).map fun r => r.foreignKey d) ↔
    ∀ r ∈ d.relationships, r.startFigure = r.endFigure → r.items = [] := by
  have wanted : ((d.relationships.filter fun r => r.items ≠ []).map fun r => r.foreignKey d) =
      d.relationships.flatMap fun r => if r.items ≠ [] then [r.foreignKey d] else [] := by
    rw [List.map_eq_flatMap, flatMapFilter]
    exact List.flatMap_congr fun r _ => by simp
  rw [wanted]
  constructor
  · intro all r member self
    have lengths := (d.foreignKeysWritten.symm.trans all).length_eq
    rw [List.length_flatMap, List.length_flatMap] at lengths
    have each := shorterSum (fun r _ => ?_) lengths r member
    · by_contra some'
      simp [written, self, some'] at each
    · unfold written
      by_cases other : r.startFigure = r.endFigure
      · simp [other]
      · simp [other]
  · intro none
    refine d.foreignKeysWritten.trans (List.Perm.of_eq (List.flatMap_congr fun r member => ?_))
    unfold written
    by_cases self : r.startFigure = r.endFigure
    · simp [none r member self]
    · simp [self]

end ForeignKeys

section Order
variable {d : Design}

theorem readyMore {before more : List Statement} (within : before ⊆ more) {s : Statement}
    (ready : s.Ready before) : s.Ready more := by
  have made : ∀ table, Statement.Made before table → Statement.Made more table :=
    fun table ⟨columns, member⟩ => ⟨columns, within member⟩
  cases s with
  | note _ => trivial
  | createTable _ _ => trivial
  | addPrimaryKey table _ _ => exact made table ready
  | addUnique table _ _ => exact made table ready
  | addForeignKey table _ _ referenced _ _ _ =>
    obtain ⟨own, other, name, key, same, there⟩ := ready
    exact ⟨made table own, made referenced other, name, key, same, there.imp (within ·) (within ·)⟩

theorem orderedAppend {before first rest : List Statement} : Statement.Ordered before (first ++ rest) ↔
    Statement.Ordered before first ∧ Statement.Ordered (before ++ first) rest := by
  induction first generalizing before with
  | nil => simp [Statement.Ordered]
  | cons s first ih =>
    rw [List.cons_append, Statement.Ordered, Statement.Ordered, ih, and_assoc, List.append_assoc,
      List.singleton_append]

theorem orderedPart {before part : List Statement} (each : ∀ s ∈ part, s.Ready before) :
    Statement.Ordered before part := by
  induction part generalizing before with
  | nil => trivial
  | cons s part ih =>
    refine ⟨each s List.mem_cons_self, ih fun other member => ?_⟩
    exact readyMore (List.subset_append_left _ _) (each other (List.mem_cons_of_mem _ member))

theorem orderedReady {before part : List Statement} (ordered : Statement.Ordered before part) :
    ∀ s ∈ part, s.Ready (before ++ part) := by
  induction part generalizing before with
  | nil => exact fun s member => absurd member List.not_mem_nil
  | cons first part ih =>
    intro s member
    rcases List.mem_cons.mp member with rfl | member
    · exact readyMore (List.subset_append_left _ _) ordered.1
    · have later := ih ordered.2 s member
      rwa [List.append_assoc, List.singleton_append] at later

theorem creationMade {t : ddTableFigure} (member : t ∈ d.tables) (more : List Statement) :
    Statement.Made (d.creations ++ more) t.tableName := by
  have inPart : t.creation ∈ [Statement.note blank, t.creation, .note blank] :=
    List.mem_cons_of_mem _ List.mem_cons_self
  exact ⟨_, List.mem_append_left _ (List.mem_cons_of_mem _ (List.mem_flatMap.mpr ⟨t, member, inPart⟩))⟩

theorem foreignKeyFrom {s : Statement} (member : s ∈ d.foreignKeys) :
    s.kind = .note ∨ ∃ r ∈ d.relationships, r.startFigure ≠ r.endFigure ∧ r.items ≠ [] ∧ s = r.foreignKey d := by
  rcases List.mem_cons.mp member with rfl | member
  · exact .inl rfl
  · obtain ⟨i, -, member⟩ := List.mem_flatMap.mp member
    obtain ⟨rel, observes, member⟩ := List.mem_flatMap.mp member
    split at member
    case isTrue both =>
      have joined := (d.observed i).mem_iff.mp observes
      obtain ⟨r, inModel, connects⟩ := List.mem_flatMap.mp joined
      rw [ddRelationshipFigure.connections] at connects
      have own : rel = r ∧ (r.startFigure = i ∨ r.endFigure = i) := by
        rcases List.mem_append.mp connects with start | finish
        · split at start
          case isTrue here => exact ⟨List.mem_singleton.mp start, .inl here⟩
          case isFalse => cases start
        · split at finish
          case isTrue here => exact ⟨List.mem_singleton.mp finish, .inr here⟩
          case isFalse => cases finish
      obtain ⟨rfl, atEnd⟩ := own
      have finish := atEnd.resolve_left both.1
      exact .inr ⟨rel, inModel, finish ▸ both.1, both.2, List.mem_singleton.mp member⟩
    case isFalse => cases member

theorem tableOf {i : ℕ} (inside : i < d.tables.length) :
    ∃ t ∈ d.tables, t.tableName = d.table i := by
  refine ⟨d.tables[i], List.getElem_mem inside, ?_⟩
  rw [table, List.getElem?_eq_getElem inside]
  rfl

theorem keyMade {r : ddRelationshipFigure} (references : d.References r) :
    Statement.MadeKey (d.creations ++ d.primaryKeys ++ d.uniques) (d.table r.startFigure)
      (r.items.map fun item => item.original.columnName) := by
  obtain ⟨t, member, named, key | ⟨i, inside, same⟩⟩ := references
  · refine ⟨t.pkName, t.keyColumns, key.2, .inl (List.mem_append_left _ (List.mem_append_right _ ?_))⟩
    rw [← named]
    exact List.mem_cons_of_mem _ (List.mem_map_of_mem (List.mem_filter.mpr ⟨member, by simpa using key.1⟩))
  · refine ⟨t.ukNames.getD i [], t.constraintColumns i, same, .inr (List.mem_append_right _ ?_)⟩
    rw [← named]
    exact List.mem_cons_of_mem _ (List.mem_flatMap.mpr
      ⟨t, member, List.mem_map_of_mem (List.mem_range.mpr inside)⟩)

theorem scriptOrdered (references : ∀ r ∈ d.relationships, r.items ≠ [] → d.References r) :
    Statement.Ordered [] d.script := by
  have noted : ∀ {s : Statement} {before}, s.kind = .note → s.Ready before := by
    intro s before note
    cases s <;> trivial
  refine orderedAppend.mpr ⟨orderedPart fun s member => ?_, orderedAppend.mpr ⟨orderedPart fun s member => ?_,
    orderedAppend.mpr ⟨orderedPart fun s member => ?_, orderedPart fun s member => ?_⟩⟩⟩
  · cases s with
    | note _ => trivial
    | createTable _ _ => trivial
    | addPrimaryKey _ _ _ => exact absurd (d.creationsKind _ member) (by simp [Statement.kind])
    | addUnique _ _ _ => exact absurd (d.creationsKind _ member) (by simp [Statement.kind])
    | addForeignKey _ _ _ _ _ _ _ => exact absurd (d.creationsKind _ member) (by simp [Statement.kind])
  · rcases List.mem_cons.mp member with rfl | member
    · trivial
    · obtain ⟨t, inModel, rfl⟩ := List.mem_map.mp member
      have made := creationMade (List.mem_filter.mp inModel).1 []
      rwa [List.append_nil] at made
  · rcases List.mem_cons.mp member with rfl | member
    · trivial
    · obtain ⟨t, inModel, member⟩ := List.mem_flatMap.mp member
      obtain ⟨i, -, rfl⟩ := List.mem_map.mp member
      exact creationMade inModel _
  · rcases foreignKeyFrom member with note | ⟨r, inModel, -, some', rfl⟩
    · exact noted note
    · obtain ⟨start, finish⟩ := d.connected r inModel
      obtain ⟨source, isTable, named⟩ := tableOf start
      obtain ⟨target, isTable', named'⟩ := tableOf finish
      have key := keyMade (references r inModel some')
      refine ⟨?_, ?_, ?_⟩
      · rw [← named', List.nil_append, List.append_assoc]
        exact creationMade isTable' _
      · rw [← named, List.nil_append, List.append_assoc]
        exact creationMade isTable _
      · simpa [List.map_map, Function.comp_def] using key

theorem keyReferences {r : ddRelationshipFigure}
    (made : Statement.MadeKey d.script (d.table r.startFigure) (r.items.map fun item => item.original.columnName)) :
    d.References r := by
  obtain ⟨name, key, same, member | member⟩ := made
  · have listed : Statement.addPrimaryKey (d.table r.startFigure) name key ∈
        d.script.filter fun s => s.kind = .primaryKey := List.mem_filter.mpr ⟨member, rfl⟩
    rw [d.scriptPrimaryKeys] at listed
    obtain ⟨t, inModel, here⟩ := List.mem_map.mp listed
    obtain ⟨isTable, some'⟩ := List.mem_filter.mp inModel
    obtain ⟨named, -, columns⟩ := Statement.addPrimaryKey.inj here
    exact ⟨t, isTable, named, .inl ⟨by simpa using some', columns ▸ same⟩⟩
  · have listed : Statement.addUnique (d.table r.startFigure) name key ∈
        d.script.filter fun s => s.kind = .unique := List.mem_filter.mpr ⟨member, rfl⟩
    rw [d.scriptUniques] at listed
    obtain ⟨t, isTable, inRange⟩ := List.mem_flatMap.mp listed
    obtain ⟨i, inside, here⟩ := List.mem_map.mp inRange
    obtain ⟨named, -, columns⟩ := Statement.addUnique.inj here
    exact ⟨t, isTable, named, .inr ⟨i, List.mem_range.mp inside, columns ▸ same⟩⟩

theorem writtenReferences {r : ddRelationshipFigure} (ordered : Statement.Ordered [] d.script)
    (written : r.foreignKey d ∈ d.script) : d.References r := by
  have ready := orderedReady ordered _ written
  rw [List.nil_append] at ready
  obtain ⟨-, -, key⟩ := ready
  rw [List.map_map] at key
  exact keyReferences key

end Order

/-- The generated text is a script, and it is complete if and only if each relationship with items joins
two tables and refers to a key. -/
theorem modelGenerated (schemaName : Text) (numbered : ∀ t ∈ d.tables, t.Numbered) :
    d.generateModel schemaName = d.script.flatMap (Statement.render schemaName) ∧
      (Complete d d.script ↔
        ∀ r ∈ d.relationships, r.items ≠ [] → r.startFigure ≠ r.endFigure ∧ d.References r) := by
  refine ⟨scriptRendered d numbered, fun complete r member some' => ?_, fun each => ?_⟩
  · have apart := d.foreignKeysComplete.mp complete.foreignKeys r member
    have written : r.foreignKey d ∈ d.script.filter fun s => s.kind = .foreignKey :=
      complete.foreignKeys.mem_iff.mpr
        (List.mem_map_of_mem (List.mem_filter.mpr ⟨member, by simpa using some'⟩))
    exact ⟨fun self => some' (apart self), writtenReferences complete.ordered (List.mem_filter.mp written).1⟩
  · exact
      { creates := d.scriptCreates
        primaryKeys := d.scriptPrimaryKeys
        uniques := d.scriptUniques
        foreignKeys := d.foreignKeysComplete.mpr fun r member self =>
          by_contra fun some' => (each r member some').1 self
        ordered := scriptOrdered fun r member some' => (each r member some').2 }

section SelfRelated

def personId : ddColumnFigure := ⟨0, ['i'], ['t'], true, true, -1, false, false, false⟩
def personManager : ddColumnFigure := ⟨1, ['m'], ['t'], false, false, -1, false, false, true⟩

def person : ddTableFigure where
  tableName := ['p']
  pkName := []
  columns := [personId, personManager]
  ukNames := []

def manager : ddRelationshipFigure where
  startFigure := 0
  endFigure := 0
  constraintName := []
  matchSimple := false
  onDeleteAction := .FK_ACTION_NO
  onUpdateAction := .FK_ACTION_NO
  items := [⟨personId, personManager⟩]

def managed : Design where
  tables := [person]
  relationships := [manager]
  observers i := if i = 0 then [manager, manager] else []
  connected := by decide
  observed i := by
    by_cases first : i = 0
    · subst first
      exact List.Perm.of_eq rfl
    · simp [first, ddRelationshipFigure.connections, manager, Ne.symm first]

theorem managedNumbered : ∀ t ∈ managed.tables, t.Numbered := by
  intro t member
  obtain rfl := List.mem_singleton.mp member
  refine ⟨by decide, fun k inside => ?_⟩
  exact absurd inside (Nat.not_lt_zero k)

theorem modelGeneratedManaged :
    managed.generateModel [] = managed.script.flatMap (Statement.render []) ∧
      (Complete managed managed.script ↔
        ∀ r ∈ managed.relationships, r.items ≠ [] → r.startFigure ≠ r.endFigure ∧ managed.References r) :=
  managed.modelGenerated [] managedNumbered

/-- The script of the table related to itself has no foreign key. -/
theorem foreignKeyMissing : (∀ t ∈ managed.tables, t.Numbered) ∧
    managed.script.filter (fun s => s.kind = .foreignKey) = [] ∧
    ¬ Complete managed managed.script := by
  have none : managed.script.filter (fun s => s.kind = .foreignKey) = [] := by decide
  refine ⟨managedNumbered, none, fun complete => ?_⟩
  have lengths := complete.foreignKeys.length_eq
  rw [none] at lengths
  exact absurd lengths (by decide)

end SelfRelated
end Design
end PgAdmin.ddDesign
