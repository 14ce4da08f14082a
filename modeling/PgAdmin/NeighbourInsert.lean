import Mathlib.Data.List.Nodup
import Mathlib.Data.List.Basic

/-! Growing an order without repetitions, one value at a time: a new value is put directly before or directly
after one that is already there, and nothing that is there moves. -/
namespace PgAdmin.NeighbourInsert

inductive Direction where
  | before
  | after
  deriving DecidableEq, Repr

structure Placement (α : Type) where
  value : α
  direction : Direction
  neighbour : α
  deriving DecidableEq, Repr

variable {α : Type} [DecidableEq α]

namespace Placement

def place (p : Placement α) : List α → Option (List α)
  | [] => none
  | x :: rest =>
    if x = p.neighbour then
      match p.direction with
      | .before => some (p.value :: x :: rest)
      | .after => some (x :: p.value :: rest)
    else (p.place rest).map (x :: ·)

def execute (p : Placement α) (order : List α) : Option (List α) :=
  if p.value ∈ order then none else p.place order

end Placement

def run (ps : List (Placement α)) (order : List α) : Option (List α) :=
  ps.foldlM (fun order p => p.execute order) order

theorem runCons (p : Placement α) (ps : List (Placement α)) (order : List α) :
    run (p :: ps) order = (p.execute order).bind (run ps) := rfl

theorem placeAt {before : List α} {x : α} (free : x ∉ before) (p : Placement α) (here : p.neighbour = x)
    (rest : List α) : p.place (before ++ x :: rest) =
      some (before ++ match p.direction with
        | .before => p.value :: x :: rest
        | .after => x :: p.value :: rest) := by
  subst here
  induction before with
  | nil => cases h : p.direction <;> simp [Placement.place, h]
  | cons y before ih =>
    simp only [List.mem_cons, not_or] at free
    have other : y ≠ p.neighbour := fun same => free.1 same.symm
    simp only [List.cons_append, Placement.place, if_neg other, ih free.2, Option.map_some]

theorem placeGrows {p : Placement α} {order grown : List α} (placed : p.place order = some grown) :
    order.Sublist grown := by
  induction order generalizing grown with
  | nil => cases placed
  | cons x rest ih =>
    rw [Placement.place] at placed
    split at placed
    · split at placed
      all_goals cases placed
      · exact List.sublist_cons_self _ _
      · exact (List.sublist_cons_self _ _).cons_cons _
    · obtain ⟨tail, inside, rfl⟩ := Option.map_eq_some_iff.mp placed
      exact (ih inside).cons_cons x

theorem executed {p : Placement α} {order grown : List α} (done : p.execute order = some grown) :
    p.value ∉ order ∧ p.place order = some grown := by
  rw [Placement.execute] at done
  split at done
  · cases done
  case isFalse fresh => exact ⟨fresh, done⟩

theorem runGrows {ps : List (Placement α)} {order grown : List α} (done : run ps order = some grown) :
    order.Sublist grown := by
  induction ps generalizing order with
  | nil => cases done; exact .refl _
  | cons p ps ih =>
    rw [runCons] at done
    obtain ⟨next, placed, rest⟩ := Option.bind_eq_some_iff.mp done
    exact (placeGrows (executed placed).2).trans (ih rest)

theorem afterComesFirst {p : Placement α} {order grown : List α} {w : α} (distinct : order.Nodup)
    (after : p.direction = .after) (follows : [p.neighbour, w].Sublist order)
    (placed : p.place order = some grown) : [p.value, w].Sublist grown := by
  induction order generalizing grown with
  | nil => cases placed
  | cons x rest ih =>
    rw [Placement.place] at placed
    split at placed
    case isTrue here =>
      subst here
      rw [after] at placed
      cases placed
      have behind := List.singleton_sublist.mp (List.cons_sublist_cons.mp follows)
      exact ((List.singleton_sublist.mpr behind).cons_cons _).cons _
    case isFalse other =>
      obtain ⟨tail, inside, rfl⟩ := Option.map_eq_some_iff.mp placed
      have follows : [p.neighbour, w].Sublist rest := by
        cases follows with
        | cons _ inside => exact inside
        | cons_cons => exact absurd rfl other
      exact (ih (List.nodup_cons.mp distinct).2 follows inside).cons x

theorem afterFollows {p : Placement α} {order grown : List α} (after : p.direction = .after)
    (placed : p.place order = some grown) : [p.neighbour, p.value].Sublist grown := by
  induction order generalizing grown with
  | nil => cases placed
  | cons x rest ih =>
    rw [Placement.place] at placed
    split at placed
    case isTrue here =>
      subst here
      rw [after] at placed
      cases placed
      exact ((List.nil_sublist _).cons_cons _).cons_cons _
    case isFalse other =>
      obtain ⟨tail, inside, rfl⟩ := Option.map_eq_some_iff.mp placed
      exact (ih inside).cons x

omit [DecidableEq α] in
theorem notBothWays {order : List α} {a b : α} (distinct : order.Nodup) (ab : [a, b].Sublist order)
    (ba : [b, a].Sublist order) : False := by
  induction order with
  | nil => cases ab
  | cons x rest ih =>
    obtain ⟨fresh, distinct⟩ := List.nodup_cons.mp distinct
    cases ab with
    | cons _ ab =>
      cases ba with
      | cons _ ba => exact ih distinct ab ba
      | cons_cons => exact fresh (ab.subset (by simp))
    | cons_cons _ ab =>
      cases ba with
      | cons _ ba => exact fresh (ba.subset (by simp))
      | cons_cons => exact fresh (ab.subset (by simp))

end PgAdmin.NeighbourInsert
