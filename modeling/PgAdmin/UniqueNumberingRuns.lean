import PgAdmin.UniqueNumbering

/-! Whole runs of edits of a designed table: the numbering of its unique constraints holds in every
state just when no edit makes the last plain column plain again. -/
namespace PgAdmin.ddDesign
open PgsObjects (Text)

namespace ddTableFigure
variable {t : ddTableFigure} {id : ℕ}

theorem keptAlone (distinct : Distinct t) : NamesKept t t := by
  intro c old d member same _ _
  rw [distinctSame distinct member old same]

theorem managerCases (t : ddTableFigure) (id : ℕ) (answer : Option ℕ) (name : Text) :
    t.uniqueConstraintManager id answer name =
        t.change id (ddColumnFigure.setUniqueConstraintIndex (-1)) ∨
      (∃ i < t.ukNames.length, t.uniqueConstraintManager id answer name =
        t.change id (ddColumnFigure.setUniqueConstraintIndex i)) ∨
      t.uniqueConstraintManager id answer name =
        { t with ukNames := t.ukNames ++ [name] }.change id
          (ddColumnFigure.setUniqueConstraintIndex t.ukNames.length) := by
  unfold uniqueConstraintManager
  simp only
  by_cases empty : t.ukNames = []
  · rw [if_pos empty]
    by_cases given : name ≠ []
    · exact .inr (.inr (by rw [if_pos given, empty]; rfl))
    · exact .inl (if_neg given)
  · rw [if_neg empty]
    cases choice : wxGetSingleChoiceIndex answer (t.ukNames.length + 1) with
    | none => exact .inl rfl
    | some i =>
      have shown : i < t.ukNames.length + 1 := by
        have := Option.filter_eq_some_iff.mp choice
        simpa using this.2
      by_cases last : i = t.ukNames.length
      · subst last
        by_cases given : name ≠ []
        · exact .inr (.inr (by simp only [if_pos given, if_true]))
        · exact .inl (by simp only [if_neg given, if_true])
      · exact .inr (.inl ⟨i, by omega, by simp only [if_neg last]⟩)

theorem toggleUniqueNumbered (numbered : Numbered t) (distinct : Distinct t) (answer : Option ℕ)
    (name : Text) : Numbered (t.toggleUniqueKey id answer name) ∧
      NamesKept t (t.toggleUniqueKey id answer name) := by
  unfold toggleUniqueKey
  cases here : t.column? id with
  | none => exact ⟨numbered, keptAlone distinct⟩
  | some c =>
    obtain ⟨member, own⟩ := found here
    rw [Option.elim_some]
    by_cases unique : c.isUniqueKey = true
    · rw [if_pos unique]
      refine disableNumbered numbered distinct here fun last => ?_
      rw [ddColumnFigure.isUniqueKey, last.1] at unique
      exact absurd unique (by decide)
    · rw [if_neg unique]
      have plain : c.ukIndex = -1 := by
        rcases numbered.bounded c member with plain | ⟨inside, -⟩
        · exact plain
        · exact absurd (decide_eq_true inside) unique
      rcases managerCases t id answer name with
        cancelled | ⟨i, inside, joined⟩ | added
      · rw [cancelled]
        refine changeNumbered numbered distinct fun col inTable same => ⟨rfl, ?_⟩
        rw [distinctSame distinct inTable member (same.trans own.symm), plain, setUnique_ukIndex]
      · rw [joined]
        exact joinNumbered [] numbered distinct here (by omega) (by simpa using inside)
          (fun k from' within => absurd within (by simpa using from'))
          (List.append_nil _).symm rfl
      · rw [added]
        exact joinNumbered [name] numbered distinct here (by omega) (by simp)
          (fun k from' within => by simp at within; omega) rfl rfl

theorem togglePrimaryNumbered (numbered : Numbered t) (distinct : Distinct t) :
    Numbered (t.togglePrimaryKey id) ∧ NamesKept t (t.togglePrimaryKey id) := by
  unfold togglePrimaryKey
  cases t.column? id with
  | none => exact ⟨numbered, keptAlone distinct⟩
  | some c =>
    rw [Option.elim_some]
    split
    · exact changeNumbered numbered distinct fun col _ _ => ⟨rfl, rfl⟩
    · let keyed := t.change id fun col => { col with isPk := true }
      have first : Numbered keyed ∧ NamesKept t keyed :=
        changeNumbered numbered distinct fun col _ _ => ⟨rfl, rfl⟩
      have distinct' : Distinct keyed := change_distinct (fun _ => rfl) distinct
      let filled := keyed.change id fun col => { col with notNull := true }
      have second : Numbered filled ∧ NamesKept keyed filled :=
        changeNumbered first.1 distinct' fun col _ _ => ⟨rfl, rfl⟩
      refine ⟨second.1, first.2.trans second.2 fun d inNext stays => ?_⟩
      obtain ⟨col, inTable, rfl⟩ := mem_change.mp inNext
      refine ⟨col, inTable, ?_, ?_⟩
      · split <;> rfl
      · split at stays
        · exact stays
        · exact stays

/- The edits that call disableUniqueKey with a column in no constraint: removing a column of the
primary key, and the second half of setColumnKindToNone by itself. -/
def Spared (t : ddTableFigure) : Edit → Prop
  | .removeColumn id => ∀ c, t.column? id = some c → c.isPk = true → ¬ LastPlain t c
  | .disableUniqueKey id => ∀ c, t.column? id = some c → ¬ LastPlain t c
  | _ => True

theorem editDistinct (distinct : Distinct t) (e : Edit) : Distinct (t.edit e) := by
  cases e with
  | addColumn columnName dataType notNull isPk =>
    rw [edit, addColumn, Distinct, List.map_append]
    refine List.nodup_append.mpr ⟨distinct, List.nodup_singleton _, fun a member b new => ?_⟩
    obtain ⟨c, inTable, rfl⟩ := List.mem_map.mp member
    rw [List.map_singleton, List.mem_singleton] at new
    rw [new]
    exact (newIdLarger inTable).ne
  | removeColumn id =>
    rw [edit]
    cases here : t.column? id with
    | none =>
      rw [removeColumn, here]
      exact distinct
    | some c =>
      have drop : ∀ u : ddTableFigure, Distinct u →
          ((u.columns.filter fun col => col.id ≠ id).map ddColumnFigure.id).Nodup := fun u once =>
        once.sublist (List.filter_sublist.map _)
      unfold Distinct
      by_cases key : (c.isPrimaryKey || c.isUniqueKey) = true
      · rw [(removedKey here key).2]
        exact drop _ (disableDistinct (change_distinct (fun _ => rfl) distinct))
      · rw [(removedPlain here key).2]
        exact drop _ distinct
  | togglePrimaryKey id =>
    rw [edit, togglePrimaryKey]
    cases t.column? id with
    | none => exact distinct
    | some c =>
      rw [Option.elim_some]
      split
      · exact change_distinct (fun _ => rfl) distinct
      · exact change_distinct (fun _ => rfl) (change_distinct (fun _ => rfl) distinct)
  | toggleUniqueKey id answer name =>
    rw [edit, toggleUniqueKey]
    cases t.column? id with
    | none => exact distinct
    | some c =>
      rw [Option.elim_some]
      split
      · exact disableDistinct distinct
      · rcases managerCases t id answer name with cancelled | ⟨i, -, joined⟩ | added
        · rw [cancelled]
          exact change_distinct (fun _ => rfl) distinct
        · rw [joined]
          exact change_distinct (fun _ => rfl) distinct
        · rw [added]
          exact change_distinct (t := { t with ukNames := t.ukNames ++ [name] }) (fun _ => rfl)
            distinct
  | disablePrimaryKey id => exact change_distinct (fun _ => rfl) distinct
  | disableUniqueKey id => exact disableDistinct distinct

theorem editNumbered (numbered : Numbered t) (distinct : Distinct t) (e : Edit) :
    (Numbered (t.edit e) ∧ NamesKept t (t.edit e)) ↔ Spared t e := by
  cases e with
  | addColumn columnName dataType notNull isPk =>
    exact iff_of_true (addNumbered numbered distinct) trivial
  | removeColumn id =>
    cases here : t.column? id with
    | none =>
      refine iff_of_true ?_ fun c found => absurd (here.symm.trans found) (Option.some_ne_none c).symm
      rw [edit, removeColumn, here]
      exact ⟨numbered, keptAlone distinct⟩
    | some c =>
      constructor
      · intro both d found pk last
        obtain rfl := Option.some.inj (here.symm.trans found)
        exact removeBroken numbered here pk distinct last both.1
      · exact fun spared => removeNumbered numbered distinct here (spared c here)
  | togglePrimaryKey id => exact iff_of_true (togglePrimaryNumbered numbered distinct) trivial
  | toggleUniqueKey id answer name =>
    exact iff_of_true (toggleUniqueNumbered numbered distinct answer name) trivial
  | disablePrimaryKey id =>
    exact iff_of_true (changeNumbered numbered distinct fun col _ _ => ⟨rfl, rfl⟩) trivial
  | disableUniqueKey id =>
    cases here : t.column? id with
    | none =>
      refine iff_of_true ?_ fun c found => absurd (here.symm.trans found) (Option.some_ne_none c).symm
      rw [edit, disableUniqueKey, here]
      exact ⟨numbered, keptAlone distinct⟩
    | some c =>
      constructor
      · intro both d found last
        obtain rfl := Option.some.inj (here.symm.trans found)
        obtain ⟨names, unused⟩ := disableBroken numbered here last
        have count : 0 < t.ukNames.length := List.length_pos_of_ne_nil last.2.1
        obtain ⟨d, inNext, index⟩ := both.1.used (t.ukNames.length - 1) (by
          rw [edit, names]
          omega)
        exact unused d inNext index
      · exact fun spared => disableNumbered numbered distinct here (spared c here)

theorem runSnoc (t : ddTableFigure) (edits : List Edit) (e : Edit) :
    t.run (edits ++ [e]) = (t.run edits).edit e := by
  simp [run]

theorem runDistinct (distinct : Distinct t) (edits : List Edit) : Distinct (t.run edits) := by
  induction edits using List.reverseRecOn with
  | nil => exact distinct
  | append_singleton edits e ih =>
    rw [runSnoc]
    exact editDistinct ih e

/-- Along a run the numbering holds after every edit and every edit keeps the names, if and only if
every edit is spared. -/
theorem uniqueNumbering (numbered : Numbered t) (distinct : Distinct t) (edits : List Edit) :
    (∀ earlier e later, edits = earlier ++ e :: later →
      Numbered (t.run (earlier ++ [e])) ∧ NamesKept (t.run earlier) (t.run (earlier ++ [e]))) ↔
    ∀ earlier e later, edits = earlier ++ e :: later → Spared (t.run earlier) e := by
  have before : ∀ earlier, (∀ front e back, earlier = front ++ e :: back →
      Numbered (t.run (front ++ [e]))) → Numbered (t.run earlier) := fun earlier all => by
    rcases List.eq_nil_or_concat earlier with rfl | ⟨front, e, rfl⟩
    · exact numbered
    · rw [List.concat_eq_append] at all ⊢
      exact all front e [] rfl
  constructor
  · intro all earlier e later split
    have here : Numbered (t.run earlier) := before earlier fun front e' back inner =>
      (all front e' (back ++ e :: later) (by rw [split, inner]; simp)).1
    rw [← editNumbered here (runDistinct distinct earlier), ← runSnoc]
    exact all earlier e later split
  · intro spared earlier
    induction earlier using List.reverseRecOn with
    | nil =>
      intro e later split
      rw [runSnoc]
      exact (editNumbered numbered distinct e).mpr (spared [] e later split)
    | append_singleton front e' ih =>
      intro e later split
      have here := (ih e' (e :: later) (by rw [split]; simp)).1
      rw [runSnoc _ (front ++ [e'])]
      exact (editNumbered here (runDistinct distinct _) e).mpr (spared _ e later split)

def plainTable : ddTableFigure where
  tableName := ['t']
  pkName := []
  columns := []
  ukNames := []

/- Two columns, the first the primary key, the second in a new unique constraint; then the first
is deleted. -/
def keyDeleted : List Edit :=
  [.addColumn ['a'] [] true false, .togglePrimaryKey 0, .addColumn ['b'] [] true false,
    .toggleUniqueKey 1 none ['u'], .removeColumn 0]

theorem plainNumberedAlone : Numbered plainTable ∧ Distinct plainTable := by
  refine ⟨⟨fun c member => absurd member List.not_mem_nil, fun k inside => ?_⟩, List.nodup_nil⟩
  exact absurd inside (Nat.not_lt_zero k)

theorem uniqueNumberingPlain :
    (∀ earlier e later, keyDeleted.take 4 = earlier ++ e :: later →
      Numbered (plainTable.run (earlier ++ [e])) ∧
        NamesKept (plainTable.run earlier) (plainTable.run (earlier ++ [e]))) ↔
    ∀ earlier e later, keyDeleted.take 4 = earlier ++ e :: later →
      Spared (plainTable.run earlier) e :=
  uniqueNumbering plainNumberedAlone.1 plainNumberedAlone.2 _

/-- The constraint of the remaining column is lost and its name stays. -/
theorem constraintLost : Numbered plainTable ∧
    (plainTable.run keyDeleted).columns.map ddColumnFigure.ukIndex = [-1] ∧
    (plainTable.run keyDeleted).ukNames = [['u']] ∧ ¬ Numbered (plainTable.run keyDeleted) := by
  refine ⟨plainNumberedAlone.1, by decide, by decide, fun numbered => ?_⟩
  obtain ⟨c, member, index⟩ := numbered.used 0 (by decide)
  have plain : ∀ c ∈ (plainTable.run keyDeleted).columns, c.ukIndex ≠ 0 := by decide
  exact plain c member index

end ddTableFigure
end PgAdmin.ddDesign
