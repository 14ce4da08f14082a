import PgAdmin.NetworkFrames

/-! The recursion of updateFkObservers and updateForeignKey ends at a table from which no cycle of
relationships is reached, and gets to every relationship it leads to. -/
namespace PgAdmin.ddNetwork
open PgsObjects (Text)
open ddDesign (ddColumnFigure ddTableFigure)
open Fuelled (Ends Never)
open Relation (ReflTransGen TransGen)

variable {n m : ℕ}

namespace Network
variable (net : Network n m)

/- The relationships an update of the observers of a table leads to: those that start there, and
below an identifying one those of its destination. -/
inductive Affected : Fin n → Fin m → Prop where
  | here {r : Fin m} (observed : r ∈ net.observers (net.startFigure r)) :
      Affected (net.startFigure r) r
  | onward {r r' : Fin m} (observed : r ∈ net.observers (net.startFigure r))
      (identifying : net.fkIdentifying r = true) (next : Affected (net.endFigure r) r') :
      Affected (net.startFigure r) r'

def Updates (t : Fin n) : Prop :=
  ∀ s : State n m, Ends (fun depth => net.updateFkObservers depth s t) fun next =>
    net.Below t s next ∧ ∀ r, net.Affected t r → r ∈ next.updated

section Removal
variable {net} {u : Fin n} {id : ℕ}

theorem disablePrimaryEnds (acc : Acc (fun u v => net.Related v u) u) (updates : net.Updates u)
    (s : State n m) (id : ℕ) : Ends (fun depth => net.disablePrimaryKey depth s u id) fun next =>
      net.From u s next ∧ ∀ r, net.Affected u r → r ∈ next.updated := by
  have both : Ends (fun depth => (net.prepareForDeleteFkColumn depth s u id).bind fun a =>
      net.updateFkObservers depth (a.onTable u fun t => t.disablePrimaryKey id) u) fun next =>
      net.From u s next ∧ ∀ r, net.Affected u r → r ∈ next.updated := by
    refine (prepareEnds acc s id).bind ?_
    rintro a ⟨-, below, -, -⟩
    refine (updates (a.onTable u fun t => t.disablePrimaryKey id)).mono ?_
    rintro b ⟨below', all⟩
    exact ⟨(below.from.trans (.onTable _)).trans below'.from, all⟩
  exact both.level fun depth => by rw [disablePrimaryKey]

theorem disableUniqueEnds (updates : net.Updates u) (s : State n m) (id : ℕ) :
    Ends (fun depth => net.disableUniqueKey depth s u id) fun next =>
      net.From u s next ∧ ∀ r, net.Affected u r → r ∈ next.updated := by
  refine ((updates (s.onTable u fun t => t.disableUniqueKey id)).level fun depth => by
    rw [disableUniqueKey]).mono ?_
  rintro b ⟨below, all⟩
  exact ⟨(From.onTable _).trans below.from, all⟩

def keyColumn (s : State n m) (u : Fin n) (id : ℕ) : Bool :=
  (((s.tables u).column? id).map fun column =>
    column.isPrimaryKey || column.isUniqueKey).getD false

theorem removeEnds (acc : Acc (fun u v => net.Related v u) u) (updates : net.Updates u)
    (s : State n m) (id : ℕ) : Ends (fun depth => net.removeColumn depth s u id) fun next =>
      net.From u s next ∧ (keyColumn s u id = true → ∀ r, net.Affected u r → r ∈ next.updated) := by
  have drop : ∀ a : State n m, net.From u s a →
      (keyColumn s u id = true → ∀ r, net.Affected u r → r ∈ a.updated) →
      Ends (fun _ => some (a.onTable u fun t => dropFigure t id)) fun next => net.From u s next ∧
        (keyColumn s u id = true → ∀ r, net.Affected u r → r ∈ next.updated) :=
    fun a reached all => .pure ⟨reached.trans (.onTable _), all⟩
  by_cases key : keyColumn s u id = true
  · have both := (disablePrimaryEnds acc updates s id).bind fun a first =>
      (disableUniqueEnds updates a id).bind fun b second =>
        drop b (first.1.trans second.1) fun _ => second.2
    refine both.level fun depth => ?_
    rw [removeColumn]
    unfold keyColumn at key
    simp only [key, if_true]
    rw [Option.map_eq_bind, Option.bind_assoc]
    rfl
  · refine (drop s .refl fun yes => absurd yes key).level fun depth => ?_
    rw [removeColumn]
    unfold keyColumn at key
    simp only [key, Bool.false_eq_true, if_false, Option.map_some]

end Removal

section Update
variable {net} {t : Fin n} {r : Fin m}

structure Ready (net : Network n m) (r : Fin m) : Prop where
  observed : r ∈ net.observers (net.startFigure r)
  acc : Acc (fun u v => net.Related v u) (net.startFigure r)
  updates : net.Updates (net.endFigure r)

theorem Ready.destination (ready : Ready net r) :
    Acc (fun u v => net.Related v u) (net.endFigure r) := ready.acc.inv (related ready.observed)

theorem Ready.apart (ready : Ready net r) :
    ¬ ReflTransGen net.Related (net.endFigure r) (net.startFigure r) := fun back =>
  Fuelled.cycleFree ready.acc _ .refl (TransGen.head' (related ready.observed) back)

theorem Ready.own (ready : Ready net r) :
    ¬ TransGen net.Related (net.startFigure r) (net.startFigure r) :=
  Fuelled.cycleFree ready.acc _ .refl

theorem dropLoopEnds (ready : Ready net r) (s : State n m) :
    Ends (fun depth => net.dropLoop depth s r) (net.Below (net.startFigure r) s) := by
  induction count : (s.chm r).length using Nat.strong_induction_on generalizing s with
  | _ count' ih =>
    cases found : (s.chm r).find? (net.stale s r) with
    | none =>
      refine (Ends.pure (a := s) .refl).level fun depth => ?_
      rw [dropLoop, found]
    | some item =>
      have member : item ∈ s.chm r := List.mem_of_find?_eq_some found
      have again : ∀ a : State n m, net.From (net.endFigure r) s a →
          Ends (fun depth => net.dropLoop depth
            (a.onItems r fun items => eraseItem items item.originalStartColName) r)
            (net.Below (net.startFigure r) s) := by
        intro a reached
        have same : a.chm r = s.chm r := reached.items r fun back => ready.apart back.2
        have shorter : ((a.onItems r fun items =>
            eraseItem items item.originalStartColName).chm r).length < count' := by
          rw [onItems_own, same, ← count, eraseItem]
          refine List.length_filter_lt_length_iff_exists.mpr ⟨item, member, ?_⟩
          simp
        refine (ih _ shorter _ rfl).mono fun next below => ?_
        exact ((reached.below (related ready.observed)).trans (.onItems ready.observed rfl _)).trans below
      by_cases auto : item.fkIsAutoGenerated = true
      · refine ((removeEnds ready.destination ready.updates s item.fkColumn).bind
          fun a first => again a first.1).level fun depth => ?_
        rw [dropLoop, found]
        simp only [auto, if_true]
      · have plain : Ends (fun _ : ℕ => some (s.onTable (net.endFigure r) fun t =>
            makePlain t item.fkColumn)) (net.From (net.endFigure r) s) :=
          .pure (From.onTable (fun t => makePlain t item.fkColumn))
        refine (plain.bind again).level fun depth => ?_
        rw [dropLoop, found]
        simp only [auto, Bool.false_eq_true, if_false]

theorem addItemEnds (ready : Ready net r) (s : State n m) (column : ddColumnFigure) :
    Ends (fun depth => net.addItem depth s r column) (net.Below (net.startFigure r) s) := by
  let known := (s.chm r).any fun item => item.originalStartColName = column.columnName
  let counted : State n m := { s with newId := s.newId + 1 }
  have same : net.Below (net.startFigure r) s counted :=
    ⟨fun _ _ => rfl, fun _ _ => rfl, fun _ member => member⟩
  have insert : ∀ a : State n m, net.Below (net.startFigure r) s a →
      Ends (fun _ => some ((a.onItems r fun items => setItem items (net.newItem s r column).2).onTable
        (net.endFigure r) fun t =>
          { t with columns := t.columns ++ [(net.newItem s r column).1] }))
        (net.Below (net.startFigure r) s) := fun a below =>
    .pure ((below.trans (.onItems ready.observed rfl _)).trans (.onTable (related ready.observed) _))
  by_cases new : (net.sourceKey r column && !known) = true
  · by_cases identifying : net.fkIdentifying r = true
    · refine ((ready.updates counted).bind fun a first =>
        insert a (same.trans (first.1.from.below (related ready.observed)))).level fun depth => ?_
      rw [addItem]
      simp only [known] at new
      simp only [new, identifying, if_true, Option.map_eq_bind]
      rfl
    · refine (insert counted same).level fun depth => ?_
      rw [addItem]
      simp only [known] at new
      simp only [new, identifying, Bool.false_eq_true, if_true, if_false, Option.map_some]
      rfl
  · refine (Ends.pure (a := s) .refl).level fun depth => ?_
    rw [addItem]
    simp only [known] at new
    simp only [new, Bool.false_eq_true, if_false]

theorem columnLoopEnds (ready : Ready net r) (s : State n m) (place : ℕ) :
    Ends (fun depth => net.columnLoop depth s r place) (net.Below (net.startFigure r) s) := by
  induction left : (s.tables (net.startFigure r)).columns.length - place
    using Nat.strong_induction_on generalizing s place with
  | _ left' ih =>
    cases here : (s.tables (net.startFigure r)).columns[place]? with
    | none =>
      refine (Ends.pure (a := s) .refl).level fun depth => ?_
      rw [columnLoop, here]
    | some column =>
      have inside : place < (s.tables (net.startFigure r)).columns.length :=
        (List.getElem?_eq_some_iff.mp here).1
      have turn : Ends (fun depth => (net.addItem depth s r column).bind fun a =>
          (net.dropLoop depth a r).bind fun b => net.columnLoop depth b r (place + 1))
          (net.Below (net.startFigure r) s) := by
        refine (addItemEnds ready s column).bind fun a first =>
          (dropLoopEnds ready a).bind fun b second => ?_
        have both := first.trans second
        have same := both.tables _ ready.own
        refine (ih (left' - 1) (by omega) b (place + 1) (by rw [same]; omega)).mono ?_
        exact fun next below => both.trans below
      exact turn.level fun depth => by rw [columnLoop, here]

theorem syncNamesBelow (observed : r ∈ net.observers (net.startFigure r)) (s : State n m) :
    net.Below (net.startFigure r) s (net.syncNames s r) := by
  unfold syncNames
  cases renamed? s r with
  | none => exact .refl
  | some found =>
    obtain ⟨item, column⟩ := found
    simp only [Option.elim_some, syncAutoFkName]
    exact (Below.onItems observed rfl _).trans (.onTable (related observed) _)

theorem updateForeignKeyEnds (ready : Ready net r) (s : State n m) :
    Ends (fun depth => net.updateForeignKey depth s r) fun next =>
      net.Below (net.startFigure r) s next ∧ r ∈ next.updated ∧
        (net.fkIdentifying r = true → ∀ r', net.Affected (net.endFigure r) r' →
          r' ∈ next.updated) := by
  let logged : State n m := { s with updated := s.updated ++ [r] }
  have front : net.Below (net.startFigure r) s logged :=
    ⟨fun _ _ => rfl, fun _ _ => rfl, fun _ member => List.mem_append_left _ member⟩
  have own : r ∈ logged.updated := List.mem_append_right _ (List.mem_singleton_self r)
  have loop := columnLoopEnds ready (net.syncNames logged r) 0
  have names : net.Below (net.startFigure r) logged (net.syncNames logged r) :=
    syncNamesBelow ready.observed logged
  by_cases identifying : net.fkIdentifying r = true
  · refine (loop.bind fun a first => (ready.updates a).mono fun next second => ?_).level
      fun depth => ?_
    · have step := names.trans first
      exact ⟨(front.trans step).trans (second.1.from.below (related ready.observed)),
        second.1.updated r (step.updated r own), fun _ => second.2⟩
    · rw [updateForeignKey]
      simp only [identifying, if_true]
      rfl
  · refine (loop.mono fun next first => ?_).level fun depth => ?_
    · have step := names.trans first
      exact ⟨front.trans step, step.updated r own, fun yes => absurd yes identifying⟩
    · rw [updateForeignKey]
      simp only [identifying, Bool.false_eq_true, if_false]
      exact Option.bind_fun_some _

/-- The update of the observers ends and gets to every relationship it leads to. -/
theorem updatesEnd (acc : Acc (fun u v => net.Related v u) t) : net.Updates t := by
  induction acc with
  | intro t down ih =>
    intro s
    let after (front : List (Fin m)) (next : State n m) : Prop :=
      net.Below t s next ∧ ∀ r ∈ front, net.startFigure r = t → r ∈ next.updated ∧
        (net.fkIdentifying r = true → ∀ r', net.Affected (net.endFigure r) r' →
          r' ∈ next.updated)
    have loop : Ends (fun depth => (net.observers t).foldlM (fun s r =>
        if net.startFigure r = t then net.updateForeignKey depth s r else some s) s)
        (after (net.observers t)) := by
      refine Ends.foldlM _ ⟨.refl, fun r member => absurd member List.not_mem_nil⟩ ?_
      rintro front r back split a ⟨below, done⟩
      have observed : r ∈ net.observers t := split ▸ List.mem_append_right _ List.mem_cons_self
      by_cases starts : net.startFigure r = t
      · simp only [if_pos starts]
        have ready : Ready net r := ⟨starts ▸ observed, starts ▸ ⟨t, down⟩, ih _ ⟨r, observed, starts, rfl⟩⟩
        refine (updateForeignKeyEnds ready a).mono ?_
        rintro b ⟨below', own, rest⟩
        rw [starts] at below'
        refine ⟨below.trans below', fun r' member starts' => ?_⟩
        rcases List.mem_append.mp member with old | new
        · obtain ⟨own', rest'⟩ := done r' old starts'
          exact ⟨below'.updated r' own', fun yes r'' reached =>
            below'.updated r'' (rest' yes r'' reached)⟩
        · obtain rfl := List.mem_singleton.mp new
          exact ⟨own, rest⟩
      · simp only [if_neg starts]
        refine .pure ⟨below, fun r' member starts' => ?_⟩
        rcases List.mem_append.mp member with old | new
        · exact done r' old starts'
        · exact absurd (List.mem_singleton.mp new ▸ starts') starts
    refine (loop.level fun depth => by rw [updateFkObservers]).mono ?_
    rintro next ⟨below, done⟩
    refine ⟨below, fun r reached => ?_⟩
    cases reached with
    | here observed => exact (done r observed rfl).1
    | onward observed identifying rest => exact (done _ observed rfl).2 identifying r rest

end Update
end Network
end PgAdmin.ddNetwork
