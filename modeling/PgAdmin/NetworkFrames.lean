import PgAdmin.DesignNetwork
import PgAdmin.Fuelled

/-! What a change that travels along the relationships leaves as it was: the tables and items that
are not reached. Marking the items of a deleted column ends just when no cycle is reached. -/
namespace PgAdmin.ddNetwork
open PgsObjects (Text)
open ddDesign (ddColumnFigure ddTableFigure)
open Fuelled (Ends Never)
open Relation (ReflTransGen TransGen)

variable {n m : ℕ}

section States
variable {s : State n m} {t u : Fin n} {r : Fin m}

@[simp] theorem onTable_chm {f : ddTableFigure → ddTableFigure} : (s.onTable t f).chm = s.chm := rfl

theorem onTable_other {f : ddTableFigure → ddTableFigure} (other : u ≠ t) :
    (s.onTable t f).tables u = s.tables u := Function.update_of_ne other _ _

theorem onItems_other {f : List ddRelationshipItem → List ddRelationshipItem} {r' : Fin m}
    (other : r' ≠ r) : (s.onItems r f).chm r' = s.chm r' := Function.update_of_ne other _ _

@[simp] theorem onItems_own {f : List ddRelationshipItem → List ddRelationshipItem} :
    (s.onItems r f).chm r = f (s.chm r) := Function.update_self ..

end States

namespace Network
variable (net : Network n m)

def Related (t u : Fin n) : Prop := ∃ r ∈ net.observers t, net.startFigure r = t ∧ net.endFigure r = u

/- The relationships that start at the table or below. -/
def Reached (t : Fin n) (r : Fin m) : Prop :=
  r ∈ net.observers (net.startFigure r) ∧ ReflTransGen net.Related t (net.startFigure r)

def CycleFree (t : Fin n) : Prop :=
  ∀ u, ReflTransGen net.Related t u → ¬ TransGen net.Related u u

variable {net} in
theorem related {r : Fin m} (observed : r ∈ net.observers (net.startFigure r)) :
    net.Related (net.startFigure r) (net.endFigure r) := ⟨r, observed, rfl, rfl⟩

structure Below (t : Fin n) (s next : State n m) : Prop where
  tables : ∀ u, ¬ TransGen net.Related t u → next.tables u = s.tables u
  items : ∀ r, ¬ net.Reached t r → next.chm r = s.chm r
  updated : ∀ r ∈ s.updated, r ∈ next.updated

structure From (t : Fin n) (s next : State n m) : Prop where
  tables : ∀ u, ¬ ReflTransGen net.Related t u → next.tables u = s.tables u
  items : ∀ r, ¬ net.Reached t r → next.chm r = s.chm r
  updated : ∀ r ∈ s.updated, r ∈ next.updated

section Frames
variable {net} {t u : Fin n} {s next last : State n m}

theorem Below.refl : net.Below t s s := ⟨fun _ _ => rfl, fun _ _ => rfl, fun _ member => member⟩

theorem Below.trans (first : net.Below t s next) (second : net.Below t next last) :
    net.Below t s last where
  tables u away := (second.tables u away).trans (first.tables u away)
  items r away := (second.items r away).trans (first.items r away)
  updated r member := second.updated r (first.updated r member)

theorem From.refl : net.From t s s := ⟨fun _ _ => rfl, fun _ _ => rfl, fun _ member => member⟩

theorem From.trans (first : net.From t s next) (second : net.From t next last) :
    net.From t s last where
  tables u away := (second.tables u away).trans (first.tables u away)
  items r away := (second.items r away).trans (first.items r away)
  updated r member := second.updated r (first.updated r member)

theorem Below.from (below : net.Below t s next) : net.From t s next where
  tables _ away := below.tables _ fun there => away there.to_reflTransGen
  items := below.items
  updated := below.updated

theorem From.below (here : net.From u s next) (edge : net.Related t u) : net.Below t s next where
  tables _ away := here.tables _ fun there => away (TransGen.head' edge there)
  items r away := here.items r fun there => away ⟨there.1, there.2.head edge⟩
  updated := here.updated

theorem From.onTable (f : ddTableFigure → ddTableFigure) : net.From t s (s.onTable t f) where
  tables _ away := onTable_other fun same => away (same ▸ .refl)
  items _ _ := rfl
  updated _ member := member

theorem Below.onItems {r : Fin m} (observed : r ∈ net.observers t) (starts : net.startFigure r = t)
    (f : List ddRelationshipItem → List ddRelationshipItem) : net.Below t s (s.onItems r f) where
  tables _ _ := rfl
  items r' away := onItems_other fun same => away (by rw [same, Reached, starts]; exact ⟨observed, .refl⟩)
  updated _ member := member

theorem Below.onTable (edge : net.Related t u) (f : ddTableFigure → ddTableFigure) :
    net.Below t s (s.onTable u f) := (From.onTable f).below edge

end Frames

section Deleting
variable {net} {t : Fin n} {s : State n m} {column : ℕ}

/- No item below the table comes from the column any more. -/
def Forgotten (net : Network n m) (t : Fin n) (column : ℕ) (s : State n m) : Prop :=
  ∀ r, net.Reached t r → ∀ item ∈ s.chm r, item.original ≠ some column

/- Marking never makes an item come from the column. -/
def Marked (column : ℕ) (s next : State n m) : Prop :=
  ∀ r, (∀ item ∈ s.chm r, item.original ≠ some column) →
    ∀ item ∈ next.chm r, item.original ≠ some column

theorem forgetItems (r : Fin m) : ∀ item ∈ (s.forget r column).chm r,
    item.original ≠ some column := by
  intro item member
  rw [State.forget, onItems_own] at member
  obtain ⟨old, -, rfl⟩ := List.mem_map.mp member
  split
  · exact (Option.some_ne_none column).symm
  · assumption

theorem forgetMarked (r : Fin m) : Marked column s (s.forget r column) := by
  intro r' none item member
  by_cases same : r' = r
  · subst same
    exact forgetItems r' item member
  · rw [State.forget, onItems_other same] at member
    exact none item member

theorem prepareEnds (acc : Acc (fun u v => net.Related v u) t) (s : State n m) (column : ℕ) :
    Ends (fun depth => net.prepareForDeleteFkColumn depth s t column) fun next =>
      next.tables = s.tables ∧ net.Below t s next ∧ Marked column s next ∧
        net.Forgotten t column next := by
  induction acc generalizing s with
  | intro t _ ih =>
    let after (front : List (Fin m)) (next : State n m) : Prop :=
      next.tables = s.tables ∧ net.Below t s next ∧ Marked column s next ∧
        ∀ r ∈ front, net.startFigure r = t → (∀ item ∈ next.chm r, item.original ≠ some column) ∧
          net.Forgotten (net.endFigure r) column next
    have loop : Ends (fun depth => (net.observers t).foldlM (fun s r =>
        if net.startFigure r = t then net.prepareFkForDelete depth s r column else some s) s)
        (after (net.observers t)) := by
      refine Ends.foldlM _ ⟨rfl, .refl, fun _ none => none,
        fun r member => absurd member List.not_mem_nil⟩ ?_
      rintro front r back split a ⟨tables, below, marked, done⟩
      have observed : r ∈ net.observers t := split ▸ List.mem_append_right _ List.mem_cons_self
      by_cases starts : net.startFigure r = t
      · simp only [if_pos starts]
        have edge : net.Related t (net.endFigure r) := ⟨r, observed, starts, rfl⟩
        refine ((ih (net.endFigure r) edge (a.forget r column)).level fun _ => rfl).mono ?_
        rintro b ⟨tables', below', marked', forgotten⟩
        have onward : Marked column a b := fun r' none =>
          marked' r' (forgetMarked r r' none)
        refine ⟨tables'.trans tables,
          (below.trans (Below.onItems observed starts _)).trans (below'.from.below edge),
          fun r' none => onward r' (marked r' none), fun r' member starts' => ?_⟩
        rcases List.mem_append.mp member with old | new
        · obtain ⟨own, rest⟩ := done r' old starts'
          exact ⟨onward r' own, fun r'' reached => onward r'' (rest r'' reached)⟩
        · obtain rfl := List.mem_singleton.mp new
          exact ⟨marked' r' (forgetItems r'), forgotten⟩
      · simp only [if_neg starts]
        refine .pure ⟨tables, below, marked, fun r' member starts' => ?_⟩
        rcases List.mem_append.mp member with old | new
        · exact done r' old starts'
        · exact absurd (List.mem_singleton.mp new ▸ starts') starts
    refine (loop.level fun _ => rfl).mono ?_
    rintro next ⟨tables, below, marked, done⟩
    refine ⟨tables, below, marked, fun r ⟨observed, reached⟩ => ?_⟩
    rcases ReflTransGen.cases_head reached with here | ⟨u, ⟨r', observed', starts, ends⟩, rest⟩
    · exact (done r (here ▸ observed) here.symm).1
    · exact (done r' observed' starts).2 r ⟨observed, ends ▸ rest⟩

theorem prepareNever (cyclic : ¬ Acc (fun u v => net.Related v u) t) (depth : ℕ) (s : State n m)
    (column : ℕ) : net.prepareForDeleteFkColumn depth s t column = none := by
  induction depth using Nat.strong_induction_on generalizing t s with
  | _ depth ih =>
    cases depth with
    | zero => rfl
    | succ depth =>
      obtain ⟨u, ⟨r, observed, starts, ends⟩, cyclic'⟩ : ∃ u, net.Related t u ∧
          ¬ Acc (fun u v => net.Related v u) u := by
        by_contra none
        exact cyclic ⟨t, fun u edge => by_contra fun endless => none ⟨u, edge, endless⟩⟩
      refine Fuelled.neverFoldlM observed (fun a => ?_) s
      rw [if_pos starts]
      cases depth with
      | zero => rfl
      | succ depth =>
        rw [prepareFkForDelete, ends]
        exact ih depth (by omega) cyclic' _

end Deleting
end Network
end PgAdmin.ddNetwork
