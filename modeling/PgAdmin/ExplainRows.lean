import PgAdmin.ExplainForest

/-! The two passes over the shapes lay the forest out: the first counts the rows a shape needs, the
second gives each shape its first row. -/
namespace PgAdmin.ExplainCanvas
open ForestLayout (Forest Layout kids mem_kids)

namespace Canvas
variable {c : Canvas} {i j u : ℕ}

/- What the counting pass has reached when the shapes from the given one on are done: the others
have what their done children gave. -/
structure Counted (c : Canvas) (j : ℕ) (total : ℕ → ℕ) : Prop where
  positive : ∀ i, j ≤ i → i < c.shapes.length → 0 < total i
  finished : ∀ i, j ≤ i → i < c.shapes.length → total i =
    if kids c.shapes.length c.upper i = ∅ then 1
    else ∑ k ∈ kids c.shapes.length c.upper i, total k
  given : ∀ i < j, total i =
    ∑ k ∈ (kids c.shapes.length c.upper i).filter (j ≤ ·), total k

theorem allKidsDone (sound : Sound c) :
    (kids c.shapes.length c.upper i).filter (i + 1 ≤ ·) = kids c.shapes.length c.upper i :=
  Finset.filter_true_of_mem fun k member => sound.forest.earlier k i (mem_kids.mp member).2

theorem kidsFrom (inside : j < c.shapes.length) :
    (kids c.shapes.length c.upper i).filter (j ≤ ·) =
      if c.upper j = some i then
        insert j ((kids c.shapes.length c.upper i).filter (j + 1 ≤ ·))
      else (kids c.shapes.length c.upper i).filter (j + 1 ≤ ·) := by
  ext k
  split <;> simp only [Finset.mem_filter, Finset.mem_insert, mem_kids] <;> grind

theorem Counted.turn (sound : Sound c) {total : ℕ → ℕ} (inside : j < c.shapes.length)
    (counted : Counted c (j + 1) total) {next : ℕ → ℕ}
    (here : next j = if total j = 0 then 1 else total j)
    (up : ∀ i, c.upper j = some i → next i = total i + next j)
    (same : ∀ i, i ≠ j → c.upper j ≠ some i → next i = total i) : Counted c j next := by
  have later : ∀ i, j + 1 ≤ i → next i = total i := fun i less => by
    refine same i (by omega) fun child => ?_
    have := sound.forest.earlier j i child
    omega
  have laterKids : ∀ i, ∀ k ∈ (kids c.shapes.length c.upper i).filter (j + 1 ≤ ·),
      next k = total k := fun i k member => later k (Finset.mem_filter.mp member).2
  have own : total j = ∑ k ∈ kids c.shapes.length c.upper j, next k := by
    rw [counted.given j (Nat.lt_succ_self j), ← Finset.sum_congr rfl (laterKids j),
      allKidsDone sound]
  constructor
  · intro i from' within
    rcases from'.eq_or_lt with rfl | less
    · rw [here]
      split <;> omega
    · rw [later i less]
      exact counted.positive i less within
  · intro i from' within
    rcases from'.eq_or_lt with rfl | less
    · rw [here, own]
      by_cases none : kids c.shapes.length c.upper j = ∅
      · simp [none]
      · have some' : 0 < ∑ k ∈ kids c.shapes.length c.upper j, next k := by
          refine Finset.sum_pos (fun k member => ?_) (Finset.nonempty_iff_ne_empty.mpr none)
          obtain ⟨inner, child⟩ := mem_kids.mp member
          have after := sound.forest.earlier k j child
          rw [later k after]
          exact counted.positive k after inner
        rw [if_neg some'.ne', if_neg none]
    · rw [later i less, counted.finished i less within]
      congr 1
      refine Finset.sum_congr rfl fun k member => (later k ?_).symm
      have := sound.forest.earlier k i (mem_kids.mp member).2
      omega
  · intro i before
    rw [kidsFrom inside]
    split
    · rename_i child
      rw [Finset.sum_insert (by simp), up i child, counted.given i (by omega),
        Finset.sum_congr rfl (laterKids i), add_comm]
    · rename_i child
      rw [same i (by omega) child, counted.given i (by omega),
        Finset.sum_congr rfl (laterKids i)]

theorem countFromCounted (sound : Sound c) {total : ℕ → ℕ} (within : j ≤ c.shapes.length)
    (counted : Counted c j total) : Counted c 0 (c.countFrom j total) := by
  induction j generalizing total with
  | zero => exact counted
  | succ j ih =>
    unfold countFrom
    refine ih (Nat.le_of_succ_le within) (counted.turn sound within ?_ ?_ ?_)
    · cases child : c.upper j with
      | none => simp
      | some u =>
        have before := sound.forest.earlier j u child
        simp [Function.update_of_ne before.ne']
    · intro i child
      have before := sound.forest.earlier j i child
      simp [child, Function.update_of_ne before.ne, Function.update_of_ne before.ne']
    · intro i other notUpper
      cases child : c.upper j with
      | none => simp [other]
      | some u =>
        have apart : i ≠ u := fun same => notUpper (same ▸ child)
        simp [other, apart]

theorem totalsCounted (sound : Sound c) : Counted c 0 c.totalShapes := by
  refine countFromCounted sound le_rfl ⟨?_, ?_, ?_⟩
  · intro i from' within
    omega
  · intro i from' within
    omega
  · intro i before
    refine (Finset.sum_eq_zero fun k _ => rfl).symm

theorem kidsUpTo : kids (i + 1) c.upper u =
    if c.upper i = some u then insert i (kids i c.upper u) else kids i c.upper u := by
  ext k
  split <;> simp only [Finset.mem_insert, mem_kids] <;> grind

theorem placeUpToRows (sound : Sound c) :
    (∀ k < i, ∀ u, c.upper k = some u →
      (c.placeUpTo i).1 k = (c.placeUpTo i).1 u + ∑ s ∈ kids k c.upper u, c.totalShapes s) ∧
    ∀ u, (c.placeUpTo i).2 u = ∑ s ∈ kids i c.upper u, c.totalShapes s := by
  induction i with
  | zero => simp [placeUpTo, kids]
  | succ i ih =>
    obtain ⟨rows, used⟩ := ih
    have old : ∀ k < i, (c.placeUpTo (i + 1)).1 k = (c.placeUpTo i).1 k := by
      intro k before
      simp only [placeUpTo]
      cases c.upper i with
      | none => simp [before.ne]
      | some u => simp [before.ne]
    constructor
    · intro k inside u child
      have before := sound.forest.earlier k u child
      rcases Nat.lt_succ_iff_lt_or_eq.mp inside with less | rfl
      · rw [old k less, old u (before.trans less)]
        exact rows k less u child
      · rw [old u before, ← used u]
        simp [placeUpTo, child]
    · intro u
      rw [kidsUpTo]
      simp only [placeUpTo]
      cases child : c.upper i with
      | none => simpa using used u
      | some parent =>
        by_cases same : parent = u
        · subst same
          have notIn : i ∉ kids i c.upper parent :=
            fun member => lt_irrefl i (mem_kids.mp member).1
          simp [Finset.sum_insert notIn, used, add_comm]
        · simp [same, Ne.symm same, used]

theorem laidOut (sound : Sound c) : Layout c.shapes.length c.upper c.totalShapes c.row where
  totals i inside := (totalsCounted sound).finished i (Nat.zero_le i) inside
  rows i inside u child := (placeUpToRows sound).1 i inside u child

end Canvas
end PgAdmin.ExplainCanvas
