import PgAdmin.PositionIterator

/-! ddDrawingEditor::checkRelationshipsConsistency. The first pass takes the relationships without
both tables out of the diagram it walks through, so it passes over one that stands behind another;
the second pass adds every relationship of the model that has both tables and is not shown. -/
namespace PgAdmin.ddDrawingEditor
open PositionIterator

inductive Figure where
  | table (id : ℕ)
  | relationship (id : ℕ)
  deriving DecidableEq, Repr

namespace Figure

def isTable : Figure → Bool
  | table _ => true
  | relationship _ => false

end Figure

/- The tables at the ends of the relationships. -/
structure Ends where
  getStartTable : ℕ → Option ℕ
  getEndTable : ℕ → Option ℕ

def existsTable (figures : List Figure) : Option ℕ → Bool
  | none => false
  | some t => decide (.table t ∈ figures)

variable (ends : Ends)

def orphan (figures : List Figure) : Figure → Bool
  | .table _ => false
  | .relationship r =>
    !existsTable figures (ends.getStartTable r) || !existsTable figures (ends.getEndTable r)

def addRelation (figures : List Figure) (tmp : Figure) : List Figure :=
  match tmp with
  | .table _ => figures
  | .relationship r =>
    if orphan ends figures (.relationship r) = false ∧ .relationship r ∉ figures then
      figures ++ [.relationship r]
    else figures

def checkRelationshipsConsistency (model figures : List Figure) : List Figure :=
  model.foldl (addRelation ends) (walkAll (orphan ends) figures).1

/- What a diagram shows are figures of the model. -/
structure Diagram (model : List Figure) where
  figures : List Figure
  within : ∀ f ∈ figures, f ∈ model

/- Each relationship of the model is shown once when both its tables are shown, and else not, and
the tables are as before; doing it again changes nothing. -/
structure Follows (model figures : List Figure) : Prop where
  shown : ∀ r, .relationship r ∈ model →
    (checkRelationshipsConsistency ends model figures).count (.relationship r) =
      if orphan ends figures (.relationship r) then 0 else 1
  tables : (checkRelationshipsConsistency ends model figures).filter Figure.isTable =
    figures.filter Figure.isTable
  idempotent : checkRelationshipsConsistency ends model
    (checkRelationshipsConsistency ends model figures) = checkRelationshipsConsistency ends model figures

/- No two relationships that are to be taken out stand together, and none that stays is there twice. -/
def Apart (model figures : List Figure) : Prop :=
  figures.IsChain (fun f g => ¬ (orphan ends figures f = true ∧ orphan ends figures g = true)) ∧
    ∀ r, .relationship r ∈ model → orphan ends figures (.relationship r) = false →
      figures.count (.relationship r) ≤ 1

section Passes
variable {ends} {model figures others : List Figure} {f : Figure}

theorem orphanTables (same : others.filter Figure.isTable = figures.filter Figure.isTable) (f : Figure) :
    orphan ends others f = orphan ends figures f := by
  have member : ∀ t, .table t ∈ others ↔ .table t ∈ figures := by
    intro t
    have both : .table t ∈ others.filter Figure.isTable ↔ .table t ∈ figures.filter Figure.isTable := by
      rw [same]
    simpa [Figure.isTable] using both
  have exist : ∀ t, existsTable others t = existsTable figures t := by
    intro t
    cases t with
    | none => rfl
    | some t => exact decide_eq_decide.mpr (member t)
  cases f with
  | table t => rfl
  | relationship r => rw [orphan, orphan, exist, exist]

theorem tablesKept (same : others.filter (!orphan ends figures ·) = figures.filter (!orphan ends figures ·)) :
    others.filter Figure.isTable = figures.filter Figure.isTable := by
  have both : ∀ fs : List Figure, (fs.filter (!orphan ends figures ·)).filter Figure.isTable =
      fs.filter Figure.isTable := by
    intro fs
    rw [List.filter_filter]
    refine List.filter_congr fun f _ => ?_
    cases f <;> simp [orphan, Figure.isTable]
  rw [← both others, same, both]

theorem firstPass (figures : List Figure) :
    (walkAll (orphan ends) figures).1.filter (!orphan ends figures ·) =
      figures.filter (!orphan ends figures ·) ∧
    (walkAll (orphan ends) figures).1.countP (orphan ends figures) =
      (skips (orphan ends figures) figures).countP (orphan ends figures) := by
  have spec := walkAllSpec (p := orphan ends figures) (orphan ends) figures fun ys same f =>
    orphanTables (tablesKept same) f
  exact ⟨spec.1, spec.2.1⟩

theorem addedTables (figures : List Figure) (tmp : Figure) :
    (addRelation ends figures tmp).filter Figure.isTable = figures.filter Figure.isTable := by
  unfold addRelation
  split
  · rfl
  · split
    · simp [Figure.isTable]
    · rfl

theorem addedCount (figures : List Figure) (tmp f : Figure) :
    (addRelation ends figures tmp).count f =
      if f = tmp ∧ f ∉ figures ∧ f.isTable = false ∧ orphan ends figures f = false then 1
      else figures.count f := by
  unfold addRelation
  split
  case h_1 t => rw [if_neg (by rintro ⟨rfl, -, isTable, -⟩; cases isTable)]
  case h_2 r =>
    by_cases same : f = .relationship r
    · subst same
      by_cases fresh : Figure.relationship r ∈ figures
      · simp [fresh]
      · by_cases stays : orphan ends figures (.relationship r) = false
        · simp [fresh, stays, Figure.isTable, List.count_append, List.count_eq_zero.mpr fresh]
        · simp [stays]
    · have right : (if f = .relationship r ∧ f ∉ figures ∧ f.isTable = false ∧
          orphan ends figures f = false then 1 else figures.count f) = figures.count f :=
        if_neg fun added => same added.1
      rw [right]
      split
      · rw [List.count_append, List.count_singleton, if_neg (by simpa using Ne.symm same), Nat.add_zero]
      · rfl

theorem secondPass (model figures : List Figure) :
    (model.foldl (addRelation ends) figures).filter Figure.isTable = figures.filter Figure.isTable ∧
    ∀ f, (model.foldl (addRelation ends) figures).count f =
      if f ∉ figures ∧ f ∈ model ∧ f.isTable = false ∧ orphan ends figures f = false then 1
      else figures.count f := by
  induction model generalizing figures with
  | nil => simp
  | cons tmp model ih =>
    obtain ⟨tables, counts⟩ := ih (addRelation ends figures tmp)
    have kept := @addedTables ends figures tmp
    refine ⟨tables.trans kept, fun f => ?_⟩
    have added := @addedCount ends figures tmp f
    have member : f ∈ addRelation ends figures tmp ↔ (addRelation ends figures tmp).count f ≠ 0 :=
      List.count_pos_iff.symm.trans Nat.pos_iff_ne_zero
    rw [List.foldl_cons, counts, orphanTables kept]
    simp only [member, added, List.mem_cons]
    by_cases relation : f.isTable = false ∧ orphan ends figures f = false
    · by_cases absent : f ∈ figures
      · simp [absent, List.count_eq_zero]
      · by_cases first : f = tmp
        · simp [relation, absent, ← first]
        · simp [relation, absent, first, List.count_eq_zero]
    · have never : ∀ P Q : Prop, ¬ (P ∧ Q ∧ f.isTable = false ∧ orphan ends figures f = false) :=
        fun P Q all => relation all.2.2
      simp only [never, if_false]

theorem settled (whole : ∀ f ∈ figures, orphan ends figures f = false)
    (present : ∀ f ∈ model, orphan ends figures f = false → f.isTable = false → f ∈ figures) :
    checkRelationshipsConsistency ends model figures = figures := by
  have same : (walkAll (orphan ends) figures).1 = figures := by
    have all : ∀ fs : List Figure, fs ⊆ figures → fs.filter (!orphan ends figures ·) = fs := by
      intro fs subset
      exact List.filter_eq_self.mpr fun f member => by rw [whole f (subset member)]; rfl
    have walked : (walkAll (orphan ends) figures).1.Sublist figures :=
      walkSublist (orphan ends) 0 figures
    have stays := (@firstPass ends figures).1
    rwa [all _ walked.subset, all _ (List.Subset.refl _)] at stays
  rw [checkRelationshipsConsistency, same]
  induction model with
  | nil => rfl
  | cons tmp model ih =>
    have unchanged : addRelation ends figures tmp = figures := by
      unfold addRelation
      split
      · rfl
      case h_2 r =>
        refine if_neg fun added => added.2 ?_
        exact present _ List.mem_cons_self added.1 rfl
    rw [List.foldl_cons, unchanged]
    exact ih fun f member => present f (List.mem_cons_of_mem _ member)

theorem stayCount (stays : orphan ends figures f = false) :
    (walkAll (orphan ends) figures).1.count f = figures.count f := by
  have filtered := congrArg (List.count f) (@firstPass ends figures).1
  rwa [List.count_filter (by simpa using stays), List.count_filter (by simpa using stays)] at filtered

theorem checkedCount (model figures : List Figure) (f : Figure) :
    (checkRelationshipsConsistency ends model figures).count f =
      if orphan ends figures f then (walkAll (orphan ends) figures).1.count f
      else if f ∉ figures ∧ f ∈ model ∧ f.isTable = false then 1 else figures.count f := by
  have counts := (@secondPass ends model (walkAll (orphan ends) figures).1).2 f
  rw [checkRelationshipsConsistency, counts, orphanTables (tablesKept (firstPass figures).1)]
  cases stays : orphan ends figures f with
  | true => simp
  | false =>
    have member : f ∈ (walkAll (orphan ends) figures).1 ↔ f ∈ figures := by
      rw [← List.count_pos_iff, stayCount stays, List.count_pos_iff]
    simp [member, stayCount stays]

end Passes

/- The relationships are shown where the tables are, and doing it again changes nothing, just when no
two to be taken out stand together and none to stay is there twice. -/
theorem relationshipsFollow {model : List Figure} (diagram : Diagram model) :
    Follows ends model diagram.figures ↔ Apart ends model diagram.figures := by
  obtain ⟨figures, within⟩ := diagram
  dsimp only
  have leaves := (@firstPass ends figures).2
  have kept : (checkRelationshipsConsistency ends model figures).filter Figure.isTable =
      figures.filter Figure.isTable :=
    (secondPass model _).1.trans (tablesKept (firstPass figures).1)
  constructor
  · intro follows
    refine ⟨skipsNone.mp ?_, fun r member stays => ?_⟩
    · rw [← leaves, List.countP_eq_zero]
      intro f left leave
      have member := within f ((walkSublist _ 0 figures).subset left)
      cases f with
      | table t => cases leave
      | relationship r =>
        have none := follows.shown r member
        rw [checkedCount, if_pos leave, if_pos leave, List.count_eq_zero] at none
        exact none left
    · have once := follows.shown r member
      rw [checkedCount, stays] at once
      by_cases absent : .relationship r ∈ figures
      · simp only [absent] at once
        exact Nat.le_of_eq once
      · rw [List.count_eq_zero.mpr absent]
        exact Nat.zero_le 1
  · rintro ⟨apart, single⟩
    rw [← skipsNone, ← leaves, List.countP_eq_zero] at apart
    have shown : ∀ r, .relationship r ∈ model →
        (checkRelationshipsConsistency ends model figures).count (.relationship r) =
          if orphan ends figures (.relationship r) then 0 else 1 := by
      intro r member
      rw [checkedCount]
      cases stays : orphan ends figures (.relationship r) with
      | true => exact List.count_eq_zero.mpr fun left => apart _ left stays
      | false =>
        by_cases present : .relationship r ∈ figures
        · have once := single r member stays
          have some := List.count_pos_iff.mpr present
          simp only [present]
          exact Nat.le_antisymm once some
        · simp [present, member, Figure.isTable]
    refine ⟨shown, kept, settled (fun f member => ?_) fun f member stays relation => ?_⟩
    · rw [orphanTables kept]
      cases stays : orphan ends figures f with
      | false => rfl
      | true =>
        rw [← List.count_pos_iff, checkedCount, if_pos stays, List.count_pos_iff] at member
        exact absurd stays (apart f member)
    · rw [orphanTables kept] at stays
      cases f with
      | table t => cases relation
      | relationship r =>
        rw [← List.count_pos_iff, shown r member, stays]
        exact Nat.one_pos

/- Two relationships next to each other lose their tables. -/
theorem orphanPassed : ¬ ∀ (ends : Ends) (model : List Figure) (diagram : Diagram model),
    Follows ends model diagram.figures := by
  intro always
  have follows := always ⟨fun _ => some 0, fun _ => some 1⟩
    [.table 0, .table 1, .relationship 0, .relationship 1]
    ⟨[.table 0, .relationship 0, .relationship 1], by decide⟩
  exact absurd (follows.shown 1 (by decide)) (by decide)

end PgAdmin.ddDrawingEditor
