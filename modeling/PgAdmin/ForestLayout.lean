import Mathlib

/-! Laying out a forest whose nodes are numbered, parents first. A node takes as many rows as there
are leaves under it; its children share its rows in their order. Two nodes are in one row only when
one is above the other. -/
namespace PgAdmin.ForestLayout

section Layout
variable {n : ℕ} {upper : ℕ → Option ℕ} {total row level : ℕ → ℕ} {i j u : ℕ}

structure Forest (n : ℕ) (upper : ℕ → Option ℕ) : Prop where
  root : upper 0 = none
  earlier : ∀ i u, upper i = some u → u < i
  rooted : ∀ i, 0 < i → i < n → ∃ u, upper i = some u

def kids (n : ℕ) (upper : ℕ → Option ℕ) (i : ℕ) : Finset ℕ :=
  (Finset.range n).filter fun c => upper c = some i

structure Layout (n : ℕ) (upper : ℕ → Option ℕ) (total row : ℕ → ℕ) : Prop where
  totals : ∀ i < n, total i = if kids n upper i = ∅ then 1 else ∑ c ∈ kids n upper i, total c
  rows : ∀ i < n, ∀ u, upper i = some u → row i = row u + ∑ c ∈ kids i upper u, total c

def leaves (n : ℕ) (upper : ℕ → Option ℕ) : Finset ℕ :=
  (Finset.range n).filter fun i => kids n upper i = ∅

inductive Above (upper : ℕ → Option ℕ) : ℕ → ℕ → Prop where
  | child {i j : ℕ} (here : upper j = some i) : Above upper i j
  | step {i c j : ℕ} (here : upper c = some i) (below : Above upper c j) : Above upper i j

theorem Above.trans {i u j : ℕ} (above : Above upper i u) (next : Above upper u j) :
    Above upper i j := by
  induction above with
  | child here => exact .step here next
  | step here _ ih => exact .step here (ih next)

theorem Above.later (forest : Forest n upper) (above : Above upper i j) : i < j := by
  induction above with
  | child here => exact forest.earlier _ _ here
  | step here _ ih => exact (forest.earlier _ _ here).trans ih

theorem mem_kids {c : ℕ} : c ∈ kids n upper i ↔ c < n ∧ upper c = some i := by
  simp [kids]

theorem totalPositive (forest : Forest n upper) (layout : Layout n upper total row)
    (inside : i < n) : 0 < total i := by
  induction left : n - i using Nat.strong_induction_on generalizing i with
  | _ left' ih =>
    rw [layout.totals i inside]
    split
    · exact Nat.one_pos
    · rename_i some'
      refine Finset.sum_pos (fun c member => ?_) (Finset.nonempty_iff_ne_empty.mpr some')
      obtain ⟨within, child⟩ := mem_kids.mp member
      have later := forest.earlier c i child
      exact ih (n - c) (by omega) within rfl

theorem childWithin (layout : Layout n upper total row) (inside : j < n) (child : upper j = some u)
    (before : u < n) : row u ≤ row j ∧ row j + total j ≤ row u + total u := by
  have start := layout.rows j inside u child
  have notIn : j ∉ kids j upper u := fun member => absurd (mem_kids.mp member).1 (lt_irrefl j)
  have all : total j + ∑ c ∈ kids j upper u, total c ≤ total u := by
    have some' : kids n upper u ≠ ∅ :=
      Finset.ne_empty_of_mem (mem_kids.mpr ⟨inside, child⟩)
    rw [layout.totals u before, if_neg some', ← Finset.sum_insert notIn]
    refine Finset.sum_le_sum_of_subset fun c member => ?_
    rcases Finset.mem_insert.mp member with rfl | member
    · exact mem_kids.mpr ⟨inside, child⟩
    · obtain ⟨earlier, other⟩ := mem_kids.mp member
      exact mem_kids.mpr ⟨earlier.trans inside, other⟩
  omega

theorem siblingsApart (layout : Layout n upper total row) (inside : j < n)
    (one : upper i = some u) (other : upper j = some u) (order : i < j) :
    row i + total i ≤ row j := by
  rw [layout.rows i (order.trans inside) u one, layout.rows j inside u other, add_assoc]
  refine Nat.add_le_add_left ?_ _
  have notIn : i ∉ kids i upper u := fun member => absurd (mem_kids.mp member).1 (lt_irrefl i)
  rw [add_comm, ← Finset.sum_insert notIn]
  refine Finset.sum_le_sum_of_subset fun c member => ?_
  rcases Finset.mem_insert.mp member with rfl | member
  · exact mem_kids.mpr ⟨order, one⟩
  · obtain ⟨before, child⟩ := mem_kids.mp member
    exact mem_kids.mpr ⟨before.trans order, child⟩

theorem aboveWithin (forest : Forest n upper) (layout : Layout n upper total row)
    (above : Above upper i j) (inside : j < n) :
    row i ≤ row j ∧ row j + total j ≤ row i + total i := by
  induction above with
  | child here => exact childWithin layout inside here ((forest.earlier _ _ here).trans inside)
  | step here below ih =>
    have lower := ih inside
    have next := (below.later forest).trans inside
    have upper' := childWithin layout next here ((forest.earlier _ _ here).trans next)
    omega

/-- Of two nodes one is above the other, or their rows are apart. -/
theorem apartOrAbove (forest : Forest n upper) (layout : Layout n upper total row)
    (order : i < j) (inside : j < n) :
    Above upper i j ∨ row i + total i ≤ row j ∨ row j + total j ≤ row i := by
  induction j using Nat.strong_induction_on generalizing i with
  | _ j ih =>
    obtain ⟨u, child⟩ := forest.rooted j (Nat.zero_lt_of_lt order) inside
    have before := forest.earlier j u child
    have within := childWithin layout inside child (before.trans inside)
    rcases lt_trichotomy i u with less | rfl | more
    · rcases ih u before less (before.trans inside) with above | apart
      · exact .inl (above.trans (.child child))
      · exact .inr (by omega)
    · exact .inl (.child child)
    · rcases ih i order more (order.trans inside) with above | apart
      · cases above with
        | child here => exact .inr (.inl (siblingsApart layout inside here child order))
        | step here below =>
          have first := siblingsApart layout inside here child ((below.later forest).trans order)
          have inner := aboveWithin forest layout below (order.trans inside)
          exact .inr (.inl (by omega))
      · exact .inr (by omega)

/-- With levels that grow downwards, no two nodes have one place. -/
theorem placesApart (forest : Forest n upper) (layout : Layout n upper total row)
    (deeper : ∀ i < n, ∀ u, upper i = some u → level u < level i) (order : i < j)
    (inside : j < n) : (level i, row i) ≠ (level j, row j) := by
  intro same
  obtain ⟨levels, rows⟩ := Prod.mk.inj same
  rcases apartOrAbove forest layout order inside with above | apart
  · have grows : level i < level j := by
      clear same levels rows order
      induction above with
      | child here => exact deeper _ inside _ here
      | step here below ih =>
        exact (deeper _ ((below.later forest).trans inside) _ here).trans (ih inside)
    omega
  · have first := totalPositive forest layout (order.trans inside)
    have second := totalPositive forest layout inside
    omega

/-- The first node of a tree has as many rows as there are leaves. -/
theorem rootLeaves (forest : Forest n upper) (layout : Layout n upper total row) (nonempty : 0 < n) :
    total 0 = (leaves n upper).card := by
  have each : ∀ i ∈ Finset.range n, total i =
      (if kids n upper i = ∅ then 1 else 0) + ∑ c ∈ kids n upper i, total c := by
    intro i member
    rw [layout.totals i (Finset.mem_range.mp member)]
    split
    · rename_i none
      rw [none, Finset.sum_empty, add_zero]
    · rw [zero_add]
  have split := Finset.sum_congr rfl each
  have ones : ∑ i ∈ Finset.range n, (if kids n upper i = ∅ then 1 else 0) =
      (leaves n upper).card := by
    rw [leaves, Finset.card_filter]
  have children : ∑ i ∈ Finset.range n, ∑ c ∈ kids n upper i, total c =
      ∑ c ∈ (Finset.range n).erase 0, total c := by
    have whole : (Finset.range n).biUnion (kids n upper) = (Finset.range n).erase 0 := by
      ext c
      simp only [Finset.mem_biUnion, Finset.mem_range, mem_kids, Finset.mem_erase]
      constructor
      · rintro ⟨i, -, within, child⟩
        exact ⟨fun zero => by simp [zero, forest.root] at child, within⟩
      · rintro ⟨some', within⟩
        obtain ⟨u, child⟩ := forest.rooted c (Nat.pos_of_ne_zero some') within
        exact ⟨u, (forest.earlier c u child).trans within, within, child⟩
    rw [← whole, Finset.sum_biUnion]
    intro i _ j _ other
    refine Finset.disjoint_left.mpr fun c one two => other ?_
    exact Option.some.inj ((mem_kids.mp one).2.symm.trans (mem_kids.mp two).2)
  have root : ∑ i ∈ Finset.range n, total i = total 0 + ∑ c ∈ (Finset.range n).erase 0, total c :=
    (Finset.add_sum_erase _ _ (Finset.mem_range.mpr nonempty)).symm
  rw [Finset.sum_add_distrib, ones, children, root] at split
  omega

end Layout
end PgAdmin.ForestLayout
