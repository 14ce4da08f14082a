import PgAdmin.NetworkSettled

/-! The changes of a design that travel along its relationships: a column leaves the primary key, a
key column is deleted, a relationship becomes identifying or stops to be. Those that mark items end just
when no cycle of relationships is reached from the table they start at. One that makes a relationship
identifying marks none where what is out of date does no harm: there only a cycle of identifying
relationships keeps it going. -/
namespace PgAdmin.ddNetwork
open PgsObjects (Text)
open ddDesign (ddColumnFigure ddTableFigure)
open Fuelled (Ends Never)
open Relation (ReflTransGen TransGen)

variable {n m : ℕ}

inductive Change (n m : ℕ) where
  | removePrimaryKey (t : Fin n) (id : ℕ)
  | deleteColumn (t : Fin n) (id : ℕ)
  | toggleIdentifying (r : Fin m)
  deriving DecidableEq, Repr

namespace Network
variable (net : Network n m)

def change (depth : ℕ) (s : State n m) : Change n m → Option (State n m)
  | .removePrimaryKey t id => net.disablePrimaryKey depth s t id
  | .deleteColumn t id => net.removeColumn depth s t id
  | .toggleIdentifying r => net.toggleIdentifying depth s r

def changedTable : Change n m → Fin n
  | .removePrimaryKey t _ => t
  | .deleteColumn t _ => t
  | .toggleIdentifying r => net.endFigure r

def changed : Change n m → Network n m
  | .toggleIdentifying r => net.toggled r
  | _ => net

/- There is a key column to delete, or an item whose column is to change. -/
def Concerns (s : State n m) : Change n m → Prop
  | .removePrimaryKey _ _ => True
  | .deleteColumn t id => keyColumn s t id = true
  | .toggleIdentifying r => ∃ item ∈ s.chm r, item.fkIsAutoGenerated = true

/- The change takes a column out of the primary key. -/
def Disables : Change n m → Prop
  | .toggleIdentifying r => net.fkIdentifying r = true
  | _ => True

section Identifying
variable {net} {r : Fin m}

theorem enableEnds {u : Fin n} (updates : net.Updates u) (s : State n m) (id : ℕ) :
    Ends (fun depth => net.enablePrimaryKey depth s u id) (net.From u s) := by
  refine (updates (s.onTable u fun t => t.enablePrimaryKey id)).mono ?_
  rintro next ⟨below, -⟩
  exact (From.onTable _).trans below.from

theorem disablePrimaryNever {u : Fin n} (cyclic : ¬ Acc (fun u v => net.Related v u) u)
    (s : State n m) (id : ℕ) : Never fun depth => net.disablePrimaryKey depth s u id := by
  intro depth
  cases depth with
  | zero => rfl
  | succ depth => simp only [disablePrimaryKey, prepareNever cyclic, Option.bind_none]

theorem removeNever {u : Fin n} (cyclic : ¬ Acc (fun u v => net.Related v u) u) (s : State n m)
    (id : ℕ) (key : keyColumn s u id = true) : Never fun depth => net.removeColumn depth s u id := by
  intro depth
  cases depth with
  | zero => rfl
  | succ depth =>
    unfold keyColumn at key
    have never : net.disablePrimaryKey depth s u id = none := disablePrimaryNever cyclic s id depth
    simp only [removeColumn, key, if_true, never, Option.bind_none, Option.map_none]

theorem updatePkEnds (acc : Acc (fun u v => net.Related v u) (net.endFigure r)) (s : State n m) :
    Ends (fun depth => net.updatePkAtFkCols depth s r) fun next =>
      (∃ item ∈ s.chm r, item.fkIsAutoGenerated = true) →
        ∀ r', net.Affected (net.endFigure r) r' → r' ∈ next.updated := by
  have updates := updatesEnd acc
  let items := (s.chm r).filter ddRelationshipItem.fkIsAutoGenerated
  have loop : Ends (fun depth => items.foldlM (fun s item =>
      if net.fkIdentifying r then net.enablePrimaryKey depth s (net.endFigure r) item.fkColumn
      else net.disablePrimaryKey depth s (net.endFigure r) item.fkColumn) s)
      (net.From (net.endFigure r) s) := by
    refine Ends.foldlM (fun _ => net.From (net.endFigure r) s) .refl ?_
    rintro front item back - a reached
    by_cases identifying : net.fkIdentifying r = true
    · simp only [if_pos identifying]
      exact (enableEnds updates a item.fkColumn).mono fun _ next => reached.trans next
    · simp only [if_neg identifying]
      exact (disablePrimaryEnds acc updates a item.fkColumn).mono fun _ next =>
        reached.trans next.1
  by_cases auto : items ≠ []
  · have both : Ends (fun depth => (items.foldlM (fun s item =>
        if net.fkIdentifying r then net.enablePrimaryKey depth s (net.endFigure r) item.fkColumn
        else net.disablePrimaryKey depth s (net.endFigure r) item.fkColumn) s).bind fun s =>
          net.updateFkObservers depth s (net.endFigure r)) fun next =>
        ∀ r', net.Affected (net.endFigure r) r' → r' ∈ next.updated :=
      loop.bind fun a _ => (updates a).mono fun _ next => next.2
    refine (both.mono fun next all _ => all).congr fun depth => ?_
    rw [updatePkAtFkCols]
    simp only [items] at auto
    simp only [if_pos auto]
    rfl
  · refine (loop.mono fun next _ some' => ?_).congr fun depth => ?_
    · obtain ⟨item, member, made⟩ := some'
      exact absurd (List.ne_nil_of_mem (List.mem_filter.mpr ⟨member, made⟩)) auto
    · rw [updatePkAtFkCols]
      simp only [items] at auto
      simp only [if_neg auto]
      exact Option.bind_fun_some _

theorem updatePkNever (s : State n m) (auto : ∃ item ∈ s.chm r, item.fkIsAutoGenerated = true)
    (never : ∀ depth a id, (if net.fkIdentifying r then net.enablePrimaryKey depth a (net.endFigure r) id
      else net.disablePrimaryKey depth a (net.endFigure r) id) = none) :
    Never fun depth => net.updatePkAtFkCols depth s r := by
  intro depth
  obtain ⟨item, member, made⟩ := auto
  have loop : ((s.chm r).filter ddRelationshipItem.fkIsAutoGenerated).foldlM (fun s item =>
      if net.fkIdentifying r then net.enablePrimaryKey depth s (net.endFigure r) item.fkColumn
      else net.disablePrimaryKey depth s (net.endFigure r) item.fkColumn) s = none :=
    Fuelled.neverFoldlM (List.mem_filter.mpr ⟨member, made⟩) (fun a => never depth a item.fkColumn) s
  simp only [updatePkAtFkCols, loop, Option.bind_none]

theorem clearNever (cyclic : ¬ Acc (fun u v => net.Related v u) (net.endFigure r))
    (s : State n m) (cleared : net.fkIdentifying r = false)
    (auto : ∃ item ∈ s.chm r, item.fkIsAutoGenerated = true) :
    Never fun depth => net.updatePkAtFkCols depth s r := by
  refine updatePkNever s auto fun depth a id => ?_
  simp only [cleared, Bool.false_eq_true, if_false]
  exact disablePrimaryNever cyclic a id depth

theorem setNever (cyclic : ¬ Acc (fun u v => net.Identifies v u) (net.endFigure r))
    (s : State n m) (set : net.fkIdentifying r = true)
    (auto : ∃ item ∈ s.chm r, item.fkIsAutoGenerated = true) :
    Never fun depth => net.updatePkAtFkCols depth s r := by
  refine updatePkNever s auto fun depth a id => ?_
  simp only [set, if_true, enablePrimaryKey]
  exact updateNever cyclic depth _

theorem enableSettled {soon : Fin n → ℕ → Prop} {t u : Fin n} {s : State n m} {id : ℕ}
    (settled : net.Settled soon s t) (due : soon u id) :
    net.Settled soon (s.onTable u fun t => t.enablePrimaryKey id) t := by
  let set (w : Fin n) (x : ℕ × Bool × ℤ) : ℕ × Bool × ℤ :=
    if w = u ∧ x.1 = id then (x.1, true, x.2.2) else x
  have marks : ∀ w, (s.onTable u fun t => t.enablePrimaryKey id).marks w = (s.marks w).map (set w) := by
    intro w
    rw [marksUpdated]
    split
    case isTrue same =>
      rw [State.marks, same, ddTableFigure.enablePrimaryKey, ddTableFigure.change, List.map_map, List.map_map]
      refine List.map_congr_left fun c _ => ?_
      by_cases here : c.id = id <;> simp [set, mark, here]
    case isFalse other =>
      refine ((List.map_congr_left fun x _ => ?_).trans (List.map_id _)).symm
      exact if_neg fun both => other both.1
  have name : ∀ w x, (set w x).1 = x.1 := by
    intro w x
    dsimp only [set]
    split <;> rfl
  have numbered := (enablePrimaryAged (t := u) id).numbered settled.numbered
  refine ⟨settled.keyed, numbered, fun r' affected item member stale made key => ?_⟩
  refine settled.harmless r' affected item member (Bool.eq_true_of_not_eq_false fun fresh => ?_) made
    (key.elim (fun key => ?_) .inr)
  · -- what was in the key stays in it
    obtain ⟨x, inTable, original, key⟩ := (syncedIff settled.numbered).mp fresh
    have inKey : net.InKey (s.onTable u fun t => t.enablePrimaryKey id) r' item := by
      refine ⟨set (net.startFigure r') x, marks _ ▸ List.mem_map_of_mem inTable, by rw [original, name], ?_⟩
      by_cases chosen : net.startFigure r' = u ∧ x.1 = id
      · rw [keyMark] at key ⊢
        simp only [set, if_pos chosen]
        split
        · rfl
        case isFalse fromUk => rwa [if_neg fromUk] at key
      · simp only [set, if_neg chosen]
        exact key
    exact Bool.false_ne_true (((syncedIff numbered).mpr inKey).symm.trans stale)
  · obtain ⟨x, inTable, same, inKey⟩ := keyMarked key
    rw [marks] at inTable
    obtain ⟨x, before, rfl⟩ := List.mem_map.mp inTable
    rw [name] at same
    by_cases chosen : net.endFigure r' = u ∧ x.1 = id
    · exact .inr (chosen.1 ▸ same ▸ chosen.2 ▸ due)
    · simp only [set, if_neg chosen] at inKey
      exact .inl (same ▸ markedKey settled.numbered before inKey)

/- The columns that the relationship made, which become keys when it becomes identifying. -/
def made (net : Network n m) (s : State n m) (r : Fin m) (t : Fin n) (id : ℕ) : Prop :=
  t = net.endFigure r ∧ ∃ item ∈ s.chm r, item.fkIsAutoGenerated = true ∧ item.fkColumn = id

theorem updatePkSettled (acc : Acc (fun u v => net.Identifies v u) (net.endFigure r)) {s : State n m}
    (settled : net.Settled (net.made s r) s (net.endFigure r)) (set : net.fkIdentifying r = true) :
    Ends (fun depth => net.updatePkAtFkCols depth s r) fun next =>
      (∃ item ∈ s.chm r, item.fkIsAutoGenerated = true) →
        ∀ r', net.Affected (net.endFigure r) r' → r' ∈ next.updated := by
  have updates : net.Grows (net.made s r) (net.endFigure r) := settledEnds acc
  let items := (s.chm r).filter ddRelationshipItem.fkIsAutoGenerated
  have loop : Ends (fun depth => items.foldlM (fun s item =>
      if net.fkIdentifying r then net.enablePrimaryKey depth s (net.endFigure r) item.fkColumn
      else net.disablePrimaryKey depth s (net.endFigure r) item.fkColumn) s)
      (net.Settled (net.made s r) · (net.endFigure r)) := by
    refine Ends.foldlM (fun _ next => net.Settled (net.made s r) next (net.endFigure r)) settled ?_
    rintro front item back split a ready
    simp only [if_pos set]
    have member : item ∈ items := split ▸ List.mem_append_right _ List.mem_cons_self
    have due : net.made s r (net.endFigure r) item.fkColumn :=
      ⟨rfl, item, List.mem_of_mem_filter member, (List.mem_filter.mp member).2, rfl⟩
    have enabled := enableSettled ready due
    exact (updates _ enabled).mono fun next after => enabled.grown after.1
  by_cases auto : items ≠ []
  · have both : Ends (fun depth => (items.foldlM (fun s item =>
        if net.fkIdentifying r then net.enablePrimaryKey depth s (net.endFigure r) item.fkColumn
        else net.disablePrimaryKey depth s (net.endFigure r) item.fkColumn) s).bind fun s =>
          net.updateFkObservers depth s (net.endFigure r)) fun next =>
        ∀ r', net.Affected (net.endFigure r) r' → r' ∈ next.updated :=
      loop.bind fun a ready => (updates a ready).mono fun _ next => next.2
    refine (both.mono fun next all _ => all).congr fun depth => ?_
    rw [updatePkAtFkCols]
    simp only [items] at auto
    simp only [if_pos auto]
    rfl
  · refine (loop.mono fun next _ some' => ?_).congr fun depth => ?_
    · obtain ⟨item, member, made⟩ := some'
      exact absurd (List.ne_nil_of_mem (List.mem_filter.mpr ⟨member, made⟩)) auto
    · rw [updatePkAtFkCols]
      simp only [items] at auto
      simp only [if_neg auto]
      exact Option.bind_fun_some _

end Identifying

/- The columns that the change puts into the primary key. -/
def enabled (s : State n m) : Change n m → Fin n → ℕ → Prop
  | .toggleIdentifying r => net.made s r
  | _ => fun _ _ => False

/- No cycle of relationships is reached; or there is nothing to change; or a relationship becomes
identifying, no cycle of identifying ones is reached, and what is out of date there does no harm. -/
def Safe (s : State n m) (c : Change n m) : Prop :=
  net.CycleFree (net.changedTable c) ∨ ¬ Concerns s c ∨
    (¬ net.Disables c ∧ (net.changed c).IdentifyingFree (net.changedTable c) ∧
      (net.changed c).Settled (net.enabled s c) s (net.changedTable c))

section Ending
variable {net} {s : State n m} {c : Change n m}

theorem acyclicEnds (free : net.CycleFree (net.changedTable c)) :
    Ends (fun depth => net.change depth s c) fun next => Concerns s c →
      ∀ r, (net.changed c).Affected (net.changedTable c) r → r ∈ next.updated := by
  have acc : Acc (fun u v => net.Related v u) (net.changedTable c) := Fuelled.accessible free
  cases c with
  | removePrimaryKey t id =>
    exact (disablePrimaryEnds acc (updatesEnd acc) s id).mono fun _ next _ => next.2
  | deleteColumn t id =>
    exact (removeEnds acc (updatesEnd acc) s id).mono fun _ next => next.2
  | toggleIdentifying r => exact @updatePkEnds n m (net.toggled r) r acc s

theorem unconcernedEnds (other : ¬ Concerns s c) :
    Ends (fun depth => net.change depth s c) fun next => Concerns s c →
      ∀ r, (net.changed c).Affected (net.changedTable c) r → r ∈ next.updated := by
  cases c with
  | removePrimaryKey t id => exact absurd trivial other
  | deleteColumn t id =>
    have key : keyColumn s t id = false := Bool.eq_false_iff.mpr other
    have drop : Ends (fun _ : ℕ => some (s.onTable t fun t => dropFigure t id)) fun next =>
        Concerns s (.deleteColumn t id) → ∀ r, net.Affected t r → r ∈ next.updated :=
      .pure fun yes => absurd yes other
    refine drop.level fun depth => ?_
    unfold keyColumn at key
    rw [change, removeColumn]
    simp only [key, Bool.false_eq_true, if_false, Option.map_some]
  | toggleIdentifying r =>
    have none : (s.chm r).filter ddRelationshipItem.fkIsAutoGenerated = [] :=
      List.filter_eq_nil_iff.mpr fun item member made => other ⟨item, member, made⟩
    have same : Ends (fun _ : ℕ => some s) fun next => Concerns s (.toggleIdentifying r) →
        ∀ r', (net.toggled r).Affected (net.endFigure r) r' → r' ∈ next.updated :=
      .pure fun yes => absurd yes other
    refine same.congr fun depth => ?_
    rw [change, toggleIdentifying, updatePkAtFkCols, none]
    rfl

theorem safeEnds (safe : net.Safe s c) :
    Ends (fun depth => net.change depth s c) fun next => Concerns s c →
      ∀ r, (net.changed c).Affected (net.changedTable c) r → r ∈ next.updated := by
  rcases safe with free | other | ⟨sets, free, settled⟩
  · exact acyclicEnds free
  · exact unconcernedEnds other
  · cases c with
    | removePrimaryKey t id => exact absurd trivial sets
    | deleteColumn t id => exact absurd trivial sets
    | toggleIdentifying r =>
      have cleared : ¬ net.fkIdentifying r = true := sets
      exact @updatePkSettled n m (net.toggled r) r (Fuelled.accessible free) s settled
        (by simp [toggled, cleared])

theorem cyclicNever (cyclic : ¬ net.CycleFree (net.changedTable c)) (disables : net.Disables c)
    (concerns : Concerns s c) : Never fun depth => net.change depth s c := by
  have endless : ¬ Acc (fun u v => net.Related v u) (net.changedTable c) :=
    fun acc => cyclic (Fuelled.cycleFree acc)
  cases c with
  | removePrimaryKey t id => exact disablePrimaryNever endless s id
  | deleteColumn t id => exact removeNever endless s id concerns
  | toggleIdentifying r =>
    have set : net.fkIdentifying r = true := disables
    exact @clearNever n m (net.toggled r) r endless s (by simp [toggled, set]) concerns

theorem identifyingNever (cyclic : ¬ (net.changed c).IdentifyingFree (net.changedTable c))
    (sets : ¬ net.Disables c) (concerns : Concerns s c) : Never fun depth => net.change depth s c := by
  cases c with
  | removePrimaryKey t id => exact absurd trivial sets
  | deleteColumn t id => exact absurd trivial sets
  | toggleIdentifying r =>
    have cleared : ¬ net.fkIdentifying r = true := sets
    exact @setNever n m (net.toggled r) r (fun acc => cyclic (Fuelled.cycleFree acc)) s
      (by simp [toggled, cleared]) concerns

end Ending

section Joined

def firstIndex : Fin 2 := ⟨0, Nat.two_pos⟩

def secondIndex : Fin 2 := ⟨1, Nat.one_lt_two⟩

/- The first relationship joins the first table to the second, where it has made a column; the second
relationship joins the second table to itself. -/
def joinedNetwork : Network 2 2 where
  observers t := if t.val = 0 then [firstIndex] else [firstIndex, secondIndex, secondIndex]
  startFigure r := r
  endFigure _ := secondIndex
  fkFromPk _ := true
  fkMandatory _ := true
  fkIdentifying _ := false
  ukIndex _ := -1

def joinedState : State 2 2 where
  tables t := if t.val = 0 then ⟨['s'], [], [⟨0, ['i'], [], true, true, -1, false, false, false⟩], []⟩
    else ⟨['t'], [], [⟨1, ['s', '_', 'i'], [], true, false, -1, true, true, false⟩], []⟩
  chm r := if r.val = 0 then [⟨some 0, ['i'], 1, true⟩] else []
  newId := 2
  updated := []

theorem joinedSettled : (joinedNetwork.toggled firstIndex).Settled (joinedNetwork.made joinedState firstIndex)
    joinedState secondIndex where
  keyed r fromUk := absurd fromUk Bool.true_eq_false.mp
  numbered := ⟨by decide, by decide, by decide⟩
  harmless r _ item member stale := by
    have fresh : ∀ r, ∀ item ∈ joinedState.chm r,
        (joinedNetwork.toggled firstIndex).stale joinedState r item = false := by decide
    exact absurd ((fresh r item member).symm.trans stale) Bool.false_ne_true

theorem joinedFree : (joinedNetwork.toggled firstIndex).IdentifyingFree secondIndex := by
  refine Fuelled.cycleFree ⟨secondIndex, fun u edge => ?_⟩
  obtain ⟨r, -, identifying, starts, -⟩ := edge
  have none : ∀ r, (joinedNetwork.toggled firstIndex).fkIdentifying r = true →
      (joinedNetwork.toggled firstIndex).startFigure r ≠ secondIndex := by decide
  exact absurd starts (none r identifying)

end Joined

section SelfRelated

def selfNetwork : Network 1 1 where
  observers _ := [⟨0, Nat.one_pos⟩, ⟨0, Nat.one_pos⟩]
  startFigure _ := ⟨0, Nat.one_pos⟩
  endFigure _ := ⟨0, Nat.one_pos⟩
  fkFromPk _ := true
  fkMandatory _ := true
  fkIdentifying _ := false
  ukIndex _ := -1

def selfState : State 1 1 where
  tables _ := ⟨['t'], [], [⟨0, ['i'], [], true, true, -1, false, false, false⟩], []⟩
  chm _ := []
  newId := 1
  updated := []

theorem selfCyclic : ¬ selfNetwork.CycleFree 0 := fun free =>
  free 0 .refl (.single ⟨0, List.mem_cons_self, rfl, rfl⟩)

end SelfRelated
end Network
end PgAdmin.ddNetwork
