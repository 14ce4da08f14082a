import PgAdmin.ExplainCanvas
import PgAdmin.ForestLayout

/-! The shapes of any explained plan are a forest under the root: an upper shape comes earlier and
has a smaller level. The two passes over the shapes lay this forest out. -/
namespace PgAdmin.ExplainCanvas
open PgsObjects (Text)
open ForestLayout (Forest Layout kids)

namespace Canvas
variable {c : Canvas} {i u n ℓ : ℕ} {line : Text}

theorem levelModify (shapes : List Shape) (f : Shape → Shape)
    (kept : ∀ s, (f s).level = s.level) :
    (shapes.modify n f)[i]?.map Shape.level = shapes[i]?.map Shape.level := by
  rw [List.getElem?_modify]
  cases shapes[i]? with
  | none => rfl
  | some s =>
    by_cases here : n = i
    · simp [here, kept]
    · simp [here]

theorem upperModify (shapes : List Shape) (f : Shape → Shape)
    (kept : ∀ s, (f s).upperShape = s.upperShape) :
    (shapes.modify n f)[i]?.bind Shape.upperShape = shapes[i]?.bind Shape.upperShape := by
  rw [List.getElem?_modify]
  cases shapes[i]? with
  | none => rfl
  | some s =>
    by_cases here : n = i
    · simp [here, kept]
    · simp [here]

section AddLine

@[simp] theorem condition_level : (c.addLine (.condition line)).level i = c.level i :=
  congrArg (Option.getD · 0) (levelModify _ _ fun _ => rfl)

@[simp] theorem condition_upper : (c.addLine (.condition line)).upper i = c.upper i :=
  upperModify _ _ fun _ => rfl

@[simp] theorem condition_length :
    (c.addLine (.condition line)).shapes.length = c.shapes.length :=
  List.length_modify ..

@[simp] theorem condition_last : (c.addLine (.condition line)).last = c.last := rfl

@[simp] theorem shape_length : (c.addLine (.shape ℓ line)).shapes.length = c.shapes.length + 1 := by
  simp [addLine]

theorem shape_level_old (inside : i < c.shapes.length) :
    (c.addLine (.shape ℓ line)).level i = c.level i := by
  unfold level addLine
  rw [List.getElem?_append_left (by simpa using inside)]
  exact congrArg (Option.getD · 0) (levelModify _ _ fun _ => rfl)

theorem shape_upper_old (inside : i < c.shapes.length) :
    (c.addLine (.shape ℓ line)).upper i = c.upper i := by
  unfold upper addLine
  rw [List.getElem?_append_left (by simpa using inside)]
  exact upperModify _ _ fun _ => rfl

@[simp] theorem shape_level_new : (c.addLine (.shape ℓ line)).level c.shapes.length = ℓ := by
  simp [level, addLine]

@[simp] theorem shape_upper_new :
    (c.addLine (.shape ℓ line)).upper c.shapes.length = some (c.climb ℓ) := by
  simp [upper, addLine]

end AddLine

theorem level_outside (outside : c.shapes.length ≤ i) : c.level i = 0 := by
  simp [level, List.getElem?_eq_none outside]

theorem upper_inside (child : c.upper i = some u) : i < c.shapes.length := by
  by_contra outside
  simp [upper, List.getElem?_eq_none (not_lt.mp outside)] at child

/- What holds of the canvas after any lines. -/
structure Sound (c : Canvas) : Prop where
  within : c.last < c.shapes.length
  rootLevel : c.level 0 = 0
  drawn : ∀ i, 0 < i → i < c.shapes.length → 0 < c.level i
  forest : Forest c.shapes.length c.upper
  deeper : ∀ i u, c.upper i = some u → c.level u < c.level i

theorem Sound.root : Sound root where
  within := Nat.one_pos
  rootLevel := rfl
  drawn i some' inside := absurd (Nat.lt_one_iff.mp inside) some'.ne'
  forest :=
    { root := rfl
      earlier := fun i u child => by
        cases i with
        | zero => exact absurd child (by simp [upper, Canvas.root])
        | succ i => exact absurd child (by simp [upper, Canvas.root])
      rooted := fun i some' inside => absurd (Nat.lt_one_iff.mp inside) some'.ne' }
  deeper i u child := by
    cases i with
    | zero => exact absurd child (by simp [upper, Canvas.root])
    | succ i => exact absurd child (by simp [upper, Canvas.root])

theorem climbFromEnds (sound : Sound c) (positive : 0 < ℓ) {steps last : ℕ}
    (enough : last ≤ steps) (inside : last < c.shapes.length) :
    c.climbFrom ℓ steps last ≤ last ∧ c.level (c.climbFrom ℓ steps last) < ℓ ∧
      c.level (c.climbFrom ℓ steps last) ≤ c.level last := by
  induction steps generalizing last with
  | zero =>
    have first : last = 0 := Nat.le_zero.mp enough
    subst first
    exact ⟨le_rfl, sound.rootLevel.symm ▸ positive, le_rfl⟩
  | succ steps ih =>
    unfold climbFrom
    split
    · rename_i up
      obtain ⟨u, child⟩ := sound.forest.rooted last (Nat.pos_of_ne_zero up.1) inside
      have before := sound.forest.earlier last u child
      obtain ⟨place, below, less⟩ := @ih u (by omega) (before.trans inside)
      rw [child, Option.getD_some]
      exact ⟨place.trans before.le, below, less.trans (sound.deeper last u child).le⟩
    · rename_i stays
      refine ⟨le_rfl, ?_, le_rfl⟩
      by_cases first : last = 0
      · rw [first, sound.rootLevel]
        exact positive
      · exact not_le.mp fun more => stays ⟨first, more⟩

theorem climbEnds (sound : Sound c) (positive : 0 < ℓ) :
    c.climb ℓ ≤ c.last ∧ c.level (c.climb ℓ) < ℓ ∧ c.level (c.climb ℓ) ≤ c.level c.last :=
  climbFromEnds sound positive le_rfl sound.within

theorem Sound.addLine (sound : Sound c) {p : PlanLine}
    (positive : ∀ ℓ, (p = .absent ℓ ∨ ∃ line, p = .shape ℓ line) → 0 < ℓ) :
    Sound (c.addLine p) := by
  cases p with
  | condition line =>
    have same : (c.addLine (.condition line)).upper = c.upper := funext fun _ => condition_upper
    exact
      { within := by simpa [Canvas.addLine] using sound.within
        rootLevel := by simpa using sound.rootLevel
        drawn := by simpa using sound.drawn
        forest := by rw [same, condition_length]; exact sound.forest
        deeper := by simpa using sound.deeper }
  | absent ℓ =>
    exact
      { within := (climbEnds sound (positive ℓ (.inl rfl))).1.trans_lt sound.within
        rootLevel := sound.rootLevel
        drawn := sound.drawn
        forest := sound.forest
        deeper := sound.deeper }
  | shape ℓ line =>
    have wanted : 0 < ℓ := positive ℓ (.inr ⟨line, rfl⟩)
    obtain ⟨place, below, -⟩ := climbEnds sound wanted
    have nonempty : 0 < c.shapes.length := Nat.zero_lt_of_lt sound.within
    have child : ∀ i u, (c.addLine (.shape ℓ line)).upper i = some u →
        (i < c.shapes.length ∧ c.upper i = some u) ∨ (i = c.shapes.length ∧ u = c.climb ℓ) := by
      intro i u child
      have inside := upper_inside child
      rw [shape_length] at inside
      rcases Nat.lt_succ_iff_lt_or_eq.mp inside with old | rfl
      · exact .inl ⟨old, shape_upper_old old ▸ child⟩
      · exact .inr ⟨rfl, Option.some.inj (child.symm.trans shape_upper_new)⟩
    exact
      { within := by simp [Canvas.addLine]
        rootLevel := by rw [shape_level_old nonempty]; exact sound.rootLevel
        drawn := fun i some' inside => by
          rw [shape_length] at inside
          rcases Nat.lt_succ_iff_lt_or_eq.mp inside with old | rfl
          · rw [shape_level_old old]; exact sound.drawn i some' old
          · rw [shape_level_new]; exact wanted
        forest :=
          { root := by rw [shape_upper_old nonempty]; exact sound.forest.root
            earlier := fun i u here => by
              rcases child i u here with ⟨-, old⟩ | ⟨rfl, rfl⟩
              · exact sound.forest.earlier i u old
              · exact place.trans_lt sound.within
            rooted := fun i some' inside => by
              rw [shape_length] at inside
              rcases Nat.lt_succ_iff_lt_or_eq.mp inside with old | rfl
              · rw [shape_upper_old old]; exact sound.forest.rooted i some' old
              · exact ⟨_, shape_upper_new⟩ }
        deeper := fun i u here => by
          rcases child i u here with ⟨inside, old⟩ | ⟨rfl, rfl⟩
          · rw [shape_level_old inside,
              shape_level_old ((sound.forest.earlier i u old).trans inside)]
            exact sound.deeper i u old
          · rw [shape_level_new, shape_level_old (place.trans_lt sound.within)]
            exact below }

end Canvas
end PgAdmin.ExplainCanvas
