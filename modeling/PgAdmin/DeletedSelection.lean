import PgAdmin.DeleteFigures
import PgAdmin.RemovedForeignKeys
import PgAdmin.SelectionFlags

/-! What deleting the selected figures leaves of the model and the diagrams. -/
namespace PgAdmin.hdDrawingEditor.State
variable {F : Type} [DecidableEq F] (s : State F) (i : ℕ) (f : F)

theorem unselectedModel : (s.removeFromSelection i f).model = s.model := by
  rw [removeFromSelection]
  split <;> rfl

theorem unselectedDiagrams : (s.removeFromSelection i f).diagrams =
    s.diagrams.modify i fun d => { d with selection := d.selection.erase f } := by
  rw [removeFromSelection]
  split
  case h_1 none => rw [List.modify_eq_self (List.getElem?_eq_none_iff.mp none)]
  case h_2 => rfl

omit [DecidableEq F] in
theorem modifiedFigures (diagrams : List (hdDrawing F)) (change : hdDrawing F → hdDrawing F)
    (same : ∀ d, (change d).figures = d.figures) :
    (diagrams.modify i change).map (·.figures) = diagrams.map (·.figures) := by
  refine List.ext_getElem? fun j => ?_
  rw [List.getElem?_map, List.getElem?_map, List.getElem?_modify]
  split
  · cases diagrams[j]? <;> simp [same]
  · simp

theorem unselectedFigures : (s.removeFromSelection i f).diagrams.map (·.figures) =
    s.diagrams.map (·.figures) := by
  rw [unselectedDiagrams]
  exact modifiedFigures i s.diagrams (fun d => { d with selection := d.selection.erase f }) fun _ => rfl

theorem clearedModel : (s.clearSelection i).model = s.model := by
  rw [clearSelection]
  split
  · rfl
  case h_2 d here =>
    have loop : ∀ (figures : List F) (t : State F),
        (figures.foldl (fun s f => s.setSelected f d.idx false) t).model = t.model := by
      intro figures
      induction figures with
      | nil => exact fun _ => rfl
      | cons g figures ih => exact fun t => ih _
    exact loop _ _

theorem clearedDiagrams : (s.clearSelection i).diagrams =
    s.diagrams.modify i fun d => { d with selection := [] } := by
  rw [clearSelection]
  split
  case h_1 none => rw [List.modify_eq_self (List.getElem?_eq_none_iff.mp none)]
  case h_2 d here =>
    have loop : ∀ (figures : List F) (t : State F),
        (figures.foldl (fun s f => s.setSelected f d.idx false) t).diagrams = t.diagrams := by
      intro figures
      induction figures with
      | nil => exact fun _ => rfl
      | cons g figures ih => exact fun t => ih _
    exact congrArg (List.modify · i _) (loop _ _)

theorem clearedFigures : (s.clearSelection i).diagrams.map (·.figures) = s.diagrams.map (·.figures) := by
  rw [clearedDiagrams]
  exact modifiedFigures i s.diagrams (fun d => { d with selection := [] }) fun _ => rfl

theorem unselectedAllModel : (s.removeFromAllSelections f).model = s.model := by
  have loop : ∀ (is : List ℕ) (t : State F), (is.foldl (fun s i =>
      if (s.diagrams[i]?.any fun d => decide (f ∈ d.selection)) = true then s.removeFromSelection i f
      else s) t).model = t.model := by
    intro is
    induction is with
    | nil => exact fun _ => rfl
    | cons i is ih =>
      intro t
      rw [List.foldl_cons, ih]
      split
      · exact unselectedModel t i f
      · rfl
  exact loop _ s

theorem unselectedAllDiagrams : (s.removeFromAllSelections f).diagrams =
    s.diagrams.map fun d => { d with selection := d.selection.erase f } := by
  have loop : ∀ (is : List ℕ) (t t' : State F), t.diagrams = t'.diagrams → (is.foldl (fun s i =>
      if (s.diagrams[i]?.any fun d => decide (f ∈ d.selection)) = true then s.removeFromSelection i f
      else s) t).diagrams = (is.foldl (fun s i =>
      if (s.diagrams[i]?.any fun d => decide (f ∈ d.selection)) = true then
        s.onDiagram i fun d => { d with selection := d.selection.erase f } else s) t').diagrams := by
    intro is
    induction is with
    | nil => exact fun _ _ same => same
    | cons i is ih =>
      intro t t' same
      refine ih _ _ ?_
      dsimp only
      rw [same]
      split
      · rw [unselectedDiagrams, same]
        rfl
      · exact same
  rw [removeFromAllSelections, loop _ s s rfl,
    visitedDiagrams (fun d => decide (f ∈ d.selection)) fun d => { d with selection := d.selection.erase f }]
  refine List.map_congr_left fun d _ => ?_
  by_cases selected : f ∈ d.selection
  · simp [selected]
  · simp [selected, List.erase_of_not_mem selected]

variable (new : F → ℕ)

theorem deletedDiagrams : (s.deleteModelFigure new f).diagrams =
    s.diagrams.map fun d => { d with figures := d.figures.erase f } := by
  have visited := visitedDiagrams (fun d : hdDrawing F => decide (f ∈ d.figures))
    (fun d => { d with figures := d.figures.erase f }) s
  show (List.foldl _ s _).diagrams = _
  refine (congrArg State.diagrams visited).trans (List.map_congr_left fun d _ => ?_)
  by_cases shown : f ∈ d.figures
  · simp [shown]
  · simp [shown, List.erase_of_not_mem shown]

theorem deletedModel : (s.deleteModelFigure new f).model = s.model.erase f := by
  have visited := visitedDiagrams (fun d : hdDrawing F => decide (f ∈ d.figures))
    (fun d => { d with figures := d.figures.erase f }) s
  have removed := congrArg (fun t : State F => t.model.erase f) visited
  exact removed

end PgAdmin.hdDrawingEditor.State

namespace PgAdmin.ddDrawingEditor
open hdDrawingEditor hdDrawingEditor.State PositionIterator
open ddNetwork (Network)
open ddNetwork.Network (removals observedBy)
namespace Editor
variable {n m : ℕ}

/- A figure is listed once, what is selected is shown and what is shown is in the model; relationships
of the model connect tables of the model, which they observe at each end. -/
structure Consistent (net : Network n m) (s : Editor) : Prop where
  model : s.drawing.model.Nodup
  figures : ∀ d ∈ s.drawing.diagrams, d.figures.Nodup
  selection : ∀ d ∈ s.drawing.diagrams, d.selection.Nodup
  shown : ∀ d ∈ s.drawing.diagrams, ∀ f ∈ d.figures, f ∈ s.drawing.model
  selected : ∀ d ∈ s.drawing.diagrams, ∀ f ∈ d.selection, f ∈ d.figures
  connected : ∀ r, .relationship r ∈ s.drawing.model → ∃ inside : r < m,
    s.startConnector r = some (net.startFigure ⟨r, inside⟩).val ∧
    s.endConnector r = some (net.endFigure ⟨r, inside⟩).val ∧
    .table (net.startFigure ⟨r, inside⟩) ∈ s.drawing.model ∧ .table (net.endFigure ⟨r, inside⟩) ∈ s.drawing.model
  loose : ∀ r, .relationship r ∉ s.drawing.model → s.startConnector r = none ∧ s.endConnector r = none
  observed : ∀ t r, (s.observers t).count r =
    (if s.startConnector r = some t then 1 else 0) + (if s.endConnector r = some t then 1 else 0)
  alive : ∀ f ∈ s.drawing.model, f ∉ s.deleted

def without (gone : Figure → Bool) (d : hdDrawing Figure) : hdDrawing Figure :=
  { d with figures := d.figures.filter (!gone ·), selection := d.selection.filter (!gone ·) }

structure Dropped (gone : Figure → Bool) (s s' : Editor) : Prop where
  model : s'.drawing.model = s.drawing.model.filter (!gone ·)
  diagrams : s'.drawing.diagrams = s.drawing.diagrams.map (without gone)
  startConnector : ∀ r, .relationship r ∈ s'.drawing.model → s'.startConnector r = s.startConnector r
  endConnector : ∀ r, .relationship r ∈ s'.drawing.model → s'.endConnector r = s.endConnector r

structure Left (gone : Figure → Bool) (s s' : Editor) : Prop where
  model : s'.drawing.model = s.drawing.model.filter (!gone ·)
  figures : s'.drawing.diagrams.map (·.figures) =
    (s.drawing.diagrams.map (·.figures)).map (List.filter (!gone ·))
  startConnector : ∀ r, .relationship r ∈ s'.drawing.model → s'.startConnector r = s.startConnector r
  endConnector : ∀ r, .relationship r ∈ s'.drawing.model → s'.endConnector r = s.endConnector r

section Steps
variable {net : Network n m} {s s' s'' : Editor} {gone gone' both : Figure → Bool} {d : hdDrawing Figure}
  {f : Figure} {r t i : ℕ}

theorem Consistent.selectedModel (c : Consistent net s) (member : d ∈ s.drawing.diagrams)
    (selected : f ∈ d.selection) : f ∈ s.drawing.model :=
  c.shown d member f (c.selected d member f selected)

theorem Dropped.nothing (c : Consistent net s) (stays : ∀ f ∈ s.drawing.model, gone f = false) :
    Dropped gone s s := by
  have filters : ∀ fs : List Figure, fs ⊆ s.drawing.model → fs.filter (!gone ·) = fs := by
    intro fs within
    exact List.filter_eq_self.mpr fun f member => by rw [stays f (within member)]; rfl
  refine ⟨(filters _ (List.Subset.refl _)).symm, ?_, fun _ _ => rfl, fun _ _ => rfl⟩
  refine ((List.map_congr_left fun d member => ?_).trans (List.map_id _)).symm
  simp only [without, id_eq]
  rw [filters _ (c.shown d member), filters _ fun f selected => c.selectedModel member selected]

theorem filterBoth (either : ∀ f ∈ s.drawing.model, both f = (gone f || gone' f)) {fs : List Figure}
    (within : fs ⊆ s.drawing.model) : (fs.filter (!gone ·)).filter (!gone' ·) = fs.filter (!both ·) := by
  rw [List.filter_filter]
  refine List.filter_congr fun f member => ?_
  rw [either f (within member)]
  cases gone f <;> cases gone' f <;> rfl

theorem Dropped.left (dropped : Dropped gone s s') : Left gone s s' := by
  refine ⟨dropped.model, ?_, dropped.startConnector, dropped.endConnector⟩
  rw [dropped.diagrams, List.map_map, List.map_map]
  rfl

theorem Left.trans (c : Consistent net s) (first : Left gone s s') (second : Left gone' s' s'')
    (either : ∀ f ∈ s.drawing.model, both f = (gone f || gone' f)) : Left both s s'' := by
  have before : ∀ r, .relationship r ∈ s''.drawing.model → .relationship r ∈ s'.drawing.model := by
    intro r member
    rw [second.model] at member
    exact (List.mem_filter.mp member).1
  refine ⟨?_, ?_, fun r member => ?_, fun r member => ?_⟩
  · rw [second.model, first.model, filterBoth either (List.Subset.refl _)]
  · rw [second.figures, first.figures, List.map_map, List.map_map, List.map_map]
    exact List.map_congr_left fun d member => filterBoth either (c.shown d member)
  · rw [second.startConnector r member, first.startConnector r (before r member)]
  · rw [second.endConnector r member, first.endConnector r (before r member)]

theorem Dropped.trans (c : Consistent net s) (first : Dropped gone s s') (second : Dropped gone' s' s'')
    (either : ∀ f ∈ s.drawing.model, both f = (gone f || gone' f)) : Dropped both s s'' := by
  have left := first.left.trans c second.left either
  refine ⟨left.model, ?_, left.startConnector, left.endConnector⟩
  rw [second.diagrams, first.diagrams, List.map_map]
  refine List.map_congr_left fun d member => ?_
  simp only [Function.comp_apply, without]
  rw [filterBoth either (c.shown d member),
    filterBoth either fun f selected => c.selectedModel member selected]

theorem Dropped.consistent (c : Consistent net s) (dropped : Dropped gone s s')
    (closed : ∀ r t, gone (.relationship r) = false →
      s.startConnector r = some t ∨ s.endConnector r = some t → gone (.table t) = false)
    (loose : ∀ r, .relationship r ∉ s'.drawing.model →
      s'.startConnector r = none ∧ s'.endConnector r = none)
    (observed : ∀ t r, (s'.observers t).count r =
      (if s'.startConnector r = some t then 1 else 0) + (if s'.endConnector r = some t then 1 else 0))
    (alive : ∀ f ∈ s'.drawing.model, f ∉ s'.deleted) : Consistent net s' := by
  have kept : ∀ {f}, f ∈ s'.drawing.model ↔ f ∈ s.drawing.model ∧ gone f = false := by
    intro f
    rw [dropped.model, List.mem_filter, Bool.not_eq_true']
  have each : ∀ d' ∈ s'.drawing.diagrams, ∃ d ∈ s.drawing.diagrams, without gone d = d' := by
    intro d' member
    rw [dropped.diagrams] at member
    exact List.mem_map.mp member
  refine ⟨?_, ?_, ?_, ?_, ?_, ?_, loose, observed, alive⟩
  · rw [dropped.model]
    exact c.model.filter _
  · intro d' member
    obtain ⟨d, before, rfl⟩ := each d' member
    exact (c.figures d before).filter _
  · intro d' member
    obtain ⟨d, before, rfl⟩ := each d' member
    exact (c.selection d before).filter _
  · intro d' member f shown
    obtain ⟨d, before, rfl⟩ := each d' member
    obtain ⟨shown, stays⟩ := List.mem_filter.mp shown
    exact kept.mpr ⟨c.shown d before f shown, by simpa using stays⟩
  · intro d' member f selected
    obtain ⟨d, before, rfl⟩ := each d' member
    obtain ⟨selected, stays⟩ := List.mem_filter.mp selected
    exact List.mem_filter.mpr ⟨c.selected d before f selected, stays⟩
  · intro r member
    obtain ⟨before, stays⟩ := kept.mp member
    obtain ⟨inside, start, finish, startMember, endMember⟩ := c.connected r before
    refine ⟨inside, ?_, ?_, kept.mpr ⟨startMember, closed r _ stays (.inl start)⟩,
      kept.mpr ⟨endMember, closed r _ stays (.inr finish)⟩⟩
    · rw [dropped.startConnector r member, start]
    · rw [dropped.endConnector r member, finish]

theorem observersErased (observers : ℕ → List ℕ) (a b : ℕ)
    (observed : ∀ t, (observers t).count r = (if a = t then 1 else 0) + (if b = t then 1 else 0)) :
    let first := Function.update observers a ((observers a).erase r)
    Function.update first b ((first b).erase r) = fun t => (observers t).filter (!· == r) := by
  have once : ∀ xs : List ℕ, (xs.erase r).filter (!· == r) = xs.filter (!· == r) := fun xs =>
    eraseKept (beq_self_eq_true r)
  have rest : ∀ t ys, ys.filter (!· == r) = (observers t).filter (!· == r) → ys.count r = 0 →
      ys = (observers t).filter (!· == r) := by
    intro t ys same absent
    rw [← same]
    refine (List.filter_eq_self.mpr fun x member => ?_).symm
    have other : x ≠ r := fun h => List.count_eq_zero.mp absent (h ▸ member)
    simpa using other
  funext t
  have count := observed t
  by_cases atEnd : t = b
  · subst atEnd
    rw [Function.update_self]
    by_cases atStart : t = a
    · subst atStart
      rw [Function.update_self]
      refine rest t _ ((once _).trans (once _)) ?_
      rw [List.count_erase_self, List.count_erase_self, count]
      simp
    · rw [Function.update_of_ne atStart]
      refine rest t _ (once _) ?_
      rw [List.count_erase_self, count]
      simp [Ne.symm atStart]
  · rw [Function.update_of_ne atEnd]
    by_cases atStart : t = a
    · subst atStart
      rw [Function.update_self]
      refine rest t _ (once _) ?_
      rw [List.count_erase_self, count]
      simp [Ne.symm atEnd]
    · rw [Function.update_of_ne atStart]
      refine rest t _ rfl ?_
      rw [count]
      simp [Ne.symm atStart, Ne.symm atEnd]

variable (depth : ℕ) (new : Figure → ℕ)

def dropRelationship (s : Editor) (r : ℕ) : Editor where
  drawing := (s.drawing.removeFromAllSelections (.relationship r)).deleteModelFigure new (.relationship r)
  startConnector := Function.update s.startConnector r none
  endConnector := Function.update s.endConnector r none
  observers := fun t => (s.observers t).filter (!· == r)
  deleted := .relationship r :: s.deleted

def observersWithout (s : Editor) (gone : List ℕ) (t : Fin n) : List (Fin m) :=
  ((s.observers t).filter (· ∉ gone)).filterMap fun r => if inside : r < m then some ⟨r, inside⟩ else none

def replay (net : Network n m) (depth : ℕ) (entries : List ((Fin n → List (Fin m)) × Fin m)) :
    Edits n m Unit := fun design =>
  (net.removals depth design entries).map ((), ·)

theorem replayNil : replay net depth [] = pure () := rfl

theorem replayAppend (entries entries' : List ((Fin n → List (Fin m)) × Fin m)) :
    replay net depth (entries ++ entries') = (do replay net depth entries; replay net depth entries') := by
  funext design
  show _ = ((net.removals depth design entries).map ((), ·)).bind
    fun out : Unit × _ => (net.removals depth out.2 entries').map ((), ·)
  rw [replay, removals, List.foldlM_append, Option.bind_map]
  cases result : net.removals depth design entries with
  | none =>
    rw [removals] at result
    rw [result]
    rfl
  | some next =>
    rw [removals] at result
    rw [result]
    rfl

theorem replayCons (entry : (Fin n → List (Fin m)) × Fin m) (entries : List ((Fin n → List (Fin m)) × Fin m)) :
    replay net depth (entry :: entries) = (do replay net depth [entry]; replay net depth entries) :=
  replayAppend depth [entry] entries

theorem useAlive (alive : f ∉ s.deleted) : (s.use f : Edits n m Unit) = pure () := if_neg alive

theorem unselectAlive (alive : f ∉ s.deleted) : (s.removeFromAllSelections f : Edits n m Editor) =
    pure { s with drawing := s.drawing.removeFromAllSelections f } := by
  rw [Editor.removeFromAllSelections]
  split <;> simp [useAlive alive]

variable (net) in
theorem removeReplay (inside : r < m) (t : ℕ) : s.removeForeignKeys net depth (some t) r =
    replay net depth [(s.observed, ⟨r, inside⟩)] := by
  funext design
  rw [removeForeignKeys, dif_pos inside, replay, removals, List.foldlM_cons]
  congr 1
  exact (bind_pure _).symm

theorem replayTwice (first : (Fin n → List (Fin m)) × Fin m) (observers : Fin n → List (Fin m))
    {β : Type} (next : Edits n m β) :
    (do replay net depth [first]; replay net depth [(observers, first.2)]; next) =
      (do replay net depth [first]; next) := by
  have single : ∀ entry design, net.removals depth design [entry] =
      (net.observedBy entry.1).removeForeignKeys depth design entry.2 := by
    intro entry design
    rw [removals, List.foldlM_cons]
    exact bind_pure _
  funext design
  show ((net.removals depth design [first]).map ((), ·)).bind (fun out : Unit × _ =>
    ((net.removals depth out.2 [(observers, first.2)]).map ((), ·)).bind fun out : Unit × _ => next out.2) =
      ((net.removals depth design [first]).map ((), ·)).bind fun out : Unit × _ => next out.2
  rw [single]
  cases result : (net.observedBy first.1).removeForeignKeys depth design first.2 with
  | none => rfl
  | some removed =>
    have again := ddNetwork.Network.removedTwice result (net.observedBy observers)
    simp only [Option.map_some, Option.bind_some, single, again]

variable (net) in
theorem startDisconnected {a : ℕ} (own : .relationship r ∉ s.deleted) (start : s.startConnector r = some a)
    (startAlive : .table a ∉ s.deleted) (endAlive : ∀ b, s.endConnector r = some b → .table b ∉ s.deleted) :
    s.disconnectStart net depth r = (do
      s.removeForeignKeys net depth (s.endConnector r) r
      pure { s with
        observers := Function.update s.observers a ((s.observers a).erase r)
        startConnector := Function.update s.startConnector r none }) := by
  have atEnd : s.useOwner (s.endConnector r) = (pure () : Edits n m Unit) := by
    cases finish : s.endConnector r with
    | none => rfl
    | some b => exact useAlive (endAlive b finish)
  have atStart : s.useOwner (some a) = (pure () : Edits n m Unit) := useAlive startAlive
  simp only [disconnectStart, useAlive own, atEnd, start, atStart, removeObserver, pure_bind]

variable (net) in
theorem endDisconnected {b : ℕ} (own : .relationship r ∉ s.deleted) (finish : s.endConnector r = some b)
    (endAlive : .table b ∉ s.deleted) :
    let disconnected := { s with
      observers := Function.update s.observers b ((s.observers b).erase r)
      endConnector := Function.update s.endConnector r none }
    s.disconnectEnd net depth r = (do
      disconnected.removeForeignKeys net depth (some b) r
      pure disconnected) := by
  have atEnd : s.useOwner (some b) = (pure () : Edits n m Unit) := useAlive endAlive
  simp only [disconnectEnd, useAlive own, finish, atEnd, removeObserver, pure_bind]

theorem modelObserved (c : Consistent net s) (observed : r ∈ s.observers t) :
    .relationship r ∈ s.drawing.model := by
  by_contra absent
  obtain ⟨start, finish⟩ := c.loose r absent
  have none := c.observed t r
  rw [start, finish] at none
  exact List.count_eq_zero.mp (none.trans (by simp)) observed

variable (net) in
theorem startAlone {a : ℕ} (own : .relationship r ∉ s.deleted) (start : s.startConnector r = some a)
    (startAlive : .table a ∉ s.deleted) (alone : s.endConnector r = none) :
    s.disconnectStart net depth r = pure { s with
      observers := Function.update s.observers a ((s.observers a).erase r)
      startConnector := Function.update s.startConnector r none } := by
  rw [startDisconnected net depth own start startAlive fun b here => by simp [alone] at here, alone]
  rfl

theorem allObserved (c : Consistent net s) : (s.observed : Fin n → List (Fin m)) = s.observersWithout [] := by
  funext t
  rw [observed, observersWithout]
  have all : (s.observers t).filter (· ∉ ([] : List ℕ)) = s.observers t :=
    List.filter_eq_self.mpr fun r _ => by simp
  rw [all]
  refine List.filterMap_congr fun r member => ?_
  obtain ⟨inside, start, finish, -⟩ := c.connected r (modelObserved c member)
  simp [connected?, inside, start, finish]

theorem othersObserved (c : Consistent net s) (b : ℕ) (drawing : State Figure) :
    let disconnected := { s with
      drawing := drawing
      observers := Function.update s.observers b ((s.observers b).erase r)
      endConnector := Function.update s.endConnector r none }
    (disconnected.observed : Fin n → List (Fin m)) = s.observersWithout [r] := by
  intro disconnected
  have own : (disconnected.connected? r : Option (Fin m)) = none := by
    simp [connected?, disconnected]
  have erased : ∀ rs : List ℕ, (rs.erase r).filterMap disconnected.connected? =
      rs.filterMap (disconnected.connected? : ℕ → Option (Fin m)) := by
    intro rs
    induction rs with
    | nil => rfl
    | cons first rs ih =>
      by_cases same : first = r
      · subst same
        rw [List.erase_cons_head, List.filterMap_cons_none own]
      · rw [List.erase_cons_tail (by simpa using same), List.filterMap_cons, List.filterMap_cons, ih]
  funext t
  have whole : disconnected.observed t = (s.observers t).filterMap
      (disconnected.connected? : ℕ → Option (Fin m)) := by
    rw [observed]
    by_cases here : (t : ℕ) = b
    · rw [here, show disconnected.observers b = (s.observers b).erase r from Function.update_self ..]
      exact erased _
    · rw [show disconnected.observers t = s.observers t from Function.update_of_ne here _ _]
  rw [whole, observersWithout, List.filterMap_filter]
  refine List.filterMap_congr fun r' member => ?_
  by_cases same : r' = r
  · subst same
    simp [own]
  · obtain ⟨inside, start, finish, -⟩ := c.connected r' (modelObserved c member)
    simp [connected?, disconnected, inside, start, finish, same]

theorem alertStep (c : Consistent net s) (member : .relationship r ∈ s.drawing.model) (inside : r < m)
    {β : Type} (next : Editor → Edits n m β) :
    (do
      let s ← s.disconnectStart net depth r
      let s ← s.disconnectEnd net depth r
      let s ← s.removeFromAllSelections (.relationship r)
      let s ← s.deleteModelFigure new (.relationship r)
      next s) =
    (do
      replay net depth [(s.observersWithout [], ⟨r, inside⟩)]
      next (s.dropRelationship new r)) := by
  obtain ⟨_, start, finish, startMember, endMember⟩ := c.connected r member
  have own := c.alive _ member
  have observed := observersErased (r := r) s.observers (net.startFigure ⟨r, inside⟩)
    (net.endFigure ⟨r, inside⟩) fun t => by
      rw [c.observed, start, finish]
      simp
  have first := startDisconnected net depth own start (c.alive _ startMember) fun b' finish' => by
    rw [finish] at finish'
    exact Option.some.inj finish' ▸ c.alive _ endMember
  have second := endDisconnected net depth (r := r) (s := { s with
    observers := Function.update s.observers (net.startFigure ⟨r, inside⟩)
      ((s.observers (net.startFigure ⟨r, inside⟩)).erase r)
    startConnector := Function.update s.startConnector r none }) own finish (c.alive _ endMember)
  rw [first, finish, removeReplay net depth inside, allObserved c]
  simp only [bind_assoc, pure_bind]
  rw [second, removeReplay net depth inside]
  simp only [bind_assoc, pure_bind]
  rw [replayTwice, unselectAlive (by exact own)]
  simp only [pure_bind, deleteModelFigure]
  rw [useAlive (by exact own), pure_bind]
  dsimp only at observed ⊢
  rw [observed]
  rfl

theorem selectedStep (c : Consistent net s) (member : .relationship r ∈ s.drawing.model) (inside : r < m)
    {β : Type} (next : Editor → Edits n m β) :
    (do
      let s ← s.removeFromAllSelections (.relationship r)
      let s ← s.disconnectEnd net depth r
      let s ← s.disconnectStart net depth r
      let s ← s.deleteModelFigure new (.relationship r)
      next s) =
    (do
      replay net depth [(s.observersWithout [r], ⟨r, inside⟩)]
      next (s.dropRelationship new r)) := by
  obtain ⟨_, start, finish, startMember, endMember⟩ := c.connected r member
  have own := c.alive _ member
  have observed := observersErased (r := r) s.observers (net.endFigure ⟨r, inside⟩)
    (net.startFigure ⟨r, inside⟩) fun t => by
      rw [c.observed, start, finish, Nat.add_comm]
      simp
  have second := endDisconnected net depth (r := r)
    (s := { s with drawing := s.drawing.removeFromAllSelections (.relationship r) }) own finish
    (c.alive _ endMember)
  have third := startAlone net depth (r := r) (s := { s with
    drawing := s.drawing.removeFromAllSelections (.relationship r)
    observers := Function.update s.observers (net.endFigure ⟨r, inside⟩)
      ((s.observers (net.endFigure ⟨r, inside⟩)).erase r)
    endConnector := Function.update s.endConnector r none }) own start (c.alive _ startMember)
    (Function.update_self ..)
  have others := othersObserved (r := r) c (net.endFigure ⟨r, inside⟩)
    (s.drawing.removeFromAllSelections (.relationship r))
  rw [unselectAlive own, pure_bind, second, removeReplay net depth inside]
  simp only [bind_assoc, pure_bind]
  rw [third]
  simp only [pure_bind, deleteModelFigure]
  rw [useAlive (by exact own), pure_bind]
  dsimp only at observed others ⊢
  rw [observed, others]
  rfl

def deletions (gone : List ℕ) : List ℕ → List (List ℕ × ℕ)
  | [] => []
  | r :: rest => if r ∈ gone then deletions gone rest else (gone, r) :: deletions (r :: gone) rest

def entryOf (s : Editor) (e : List ℕ × ℕ) : Option ((Fin n → List (Fin m)) × Fin m) :=
  if inside : e.2 < m then some (s.observersWithout e.1, ⟨e.2, inside⟩) else none

theorem withoutCongr {gone gone' : List ℕ} (same : ∀ r, r ∈ gone ↔ r ∈ gone') :
    (s.observersWithout gone : Fin n → List (Fin m)) = s.observersWithout gone' := by
  funext t
  rw [observersWithout, observersWithout]
  congr 1
  exact List.filter_congr fun r _ => by rw [decide_eq_decide, same]

theorem entryCongr {gone gone' : List ℕ} (same : ∀ r, r ∈ gone ↔ r ∈ gone') (r : ℕ) :
    (s.entryOf (gone, r) : Option ((Fin n → List (Fin m)) × Fin m)) = s.entryOf (gone', r) := by
  rw [entryOf, entryOf, withoutCongr same]

theorem deletionsCongr {gone gone' : List ℕ} (same : ∀ r, r ∈ gone ↔ r ∈ gone') (rs : List ℕ) :
    ((deletions gone rs).filterMap s.entryOf : List ((Fin n → List (Fin m)) × Fin m)) =
      (deletions gone' rs).filterMap s.entryOf := by
  induction rs generalizing gone gone' with
  | nil => rfl
  | cons r rs ih =>
    have next : ∀ x, x ∈ r :: gone ↔ x ∈ r :: gone' := fun x => by simp [same]
    simp only [deletions, same r]
    split
    · exact ih same
    · rw [List.filterMap_cons, List.filterMap_cons, entryCongr same, ih next]

theorem deletionsAppend (gone first rest : List ℕ) :
    ((deletions gone (first ++ rest)).filterMap s.entryOf : List ((Fin n → List (Fin m)) × Fin m)) =
      (deletions gone first).filterMap s.entryOf ++ (deletions (first ++ gone) rest).filterMap s.entryOf := by
  induction first generalizing gone with
  | nil => rfl
  | cons r first ih =>
    rw [List.cons_append, deletions, deletions]
    split
    case isTrue known =>
      rw [ih]
      congr 1
      refine deletionsCongr (fun x => ?_) rest
      simp only [List.mem_append, List.cons_append, List.mem_cons]
      constructor
      · exact .inr
      · rintro (rfl | there)
        · exact .inr known
        · exact there
    case isFalse =>
      have moved : ((deletions (first ++ r :: gone) rest).filterMap s.entryOf :
          List ((Fin n → List (Fin m)) × Fin m)) = (deletions (r :: first ++ gone) rest).filterMap s.entryOf :=
        deletionsCongr (fun x => by simp; tauto) rest
      rw [List.filterMap_cons, List.filterMap_cons, ih, moved]
      cases (s.entryOf (gone, r) : Option ((Fin n → List (Fin m)) × Fin m)) <;> rfl

theorem withoutMore {gone : List ℕ} (fewer : ∀ u, s'.observers u = (s.observers u).filter (· ∉ gone))
    (more : List ℕ) :
    (s'.observersWithout more : Fin n → List (Fin m)) = s.observersWithout (more ++ gone) := by
  funext t
  rw [observersWithout, observersWithout, fewer, List.filter_filter]
  congr 1
  exact List.filter_congr fun r _ => by simp

theorem deletionsMore {gone : List ℕ} (fewer : ∀ u, s'.observers u = (s.observers u).filter (· ∉ gone))
    (more rs : List ℕ) :
    ((deletions more (rs.filter (· ∉ gone))).filterMap s'.entryOf : List ((Fin n → List (Fin m)) × Fin m)) =
      (deletions (more ++ gone) rs).filterMap s.entryOf := by
  induction rs generalizing more with
  | nil => rfl
  | cons r rs ih =>
    by_cases known : r ∈ gone
    · rw [List.filter_cons_of_neg (by simpa using known), deletions, if_pos (by simp [known]), ih]
    · rw [List.filter_cons_of_pos (by simpa using known), deletions, deletions]
      by_cases seen : r ∈ more
      · rw [if_pos seen, if_pos (by simp [seen]), ih]
      · rw [if_neg seen, if_neg (by simp [seen, known]), List.filterMap_cons, List.filterMap_cons, ih,
          entryOf, entryOf, withoutMore fewer]
        rfl

theorem figureDropped (c : Consistent net s) (f : Figure) :
    let drawing := (s.drawing.removeFromAllSelections f).deleteModelFigure new f
    drawing.model = s.drawing.model.filter (!· == f) ∧
      drawing.diagrams = s.drawing.diagrams.map (without (· == f)) := by
  refine ⟨?_, ?_⟩
  · rw [deletedModel, unselectedAllModel, c.model.erase_eq_filter]
    rfl
  · rw [deletedDiagrams, unselectedAllDiagrams, List.map_map]
    refine List.map_congr_left fun d member => ?_
    simp only [Function.comp_apply, without]
    rw [(c.figures d member).erase_eq_filter, (c.selection d member).erase_eq_filter]
    rfl

theorem relationshipDropped (c : Consistent net s) (r : ℕ) :
    Dropped (· == .relationship r) s (s.dropRelationship new r) := by
  obtain ⟨model, diagrams⟩ := figureDropped new c (.relationship r)
  have other : ∀ r', .relationship r' ∈ (s.dropRelationship new r).drawing.model → r' ≠ r := by
    intro r' member same
    subst same
    rw [dropRelationship, model] at member
    simp at member
  refine ⟨model, diagrams, fun r' member => ?_, fun r' member => ?_⟩
  · exact Function.update_of_ne (other r' member) _ _
  · exact Function.update_of_ne (other r' member) _ _

theorem relationshipConsistent (c : Consistent net s) (r : ℕ) : Consistent net (s.dropRelationship new r) := by
  have dropped := relationshipDropped new c r
  refine dropped.consistent c (fun _ _ _ _ => by simp) (fun r' absent => ?_) (fun t r' => ?_) ?_
  · by_cases same : r' = r
    · subst same
      exact ⟨Function.update_self r' _ _, Function.update_self r' _ _⟩
    · simp only [dropRelationship, Function.update_of_ne same]
      refine c.loose r' fun member => absent ?_
      rw [dropped.model]
      exact List.mem_filter.mpr ⟨member, by simpa using same⟩
  · by_cases same : r' = r
    · subst same
      have absent : r' ∉ (s.observers t).filter (!· == r') := by simp
      simp [dropRelationship, List.count_eq_zero.mpr absent]
    · simp only [dropRelationship, Function.update_of_ne same]
      rw [List.count_filter (by simpa using same), c.observed]
  · intro f member gone
    rw [dropped.model, List.mem_filter] at member
    cases gone with
    | head => simp at member
    | tail _ gone => exact c.alive f member.1 gone

def touches (s : Editor) (t : ℕ) : Figure → Bool
  | .table _ => false
  | .relationship r => s.startConnector r == some t || s.endConnector r == some t

theorem touchesObserved (c : Consistent net s) :
    s.touches t (.relationship r) = true ↔ r ∈ s.observers t := by
  rw [← List.count_pos_iff, c.observed, touches, Bool.or_eq_true, beq_iff_eq, beq_iff_eq]
  split <;> split <;> simp [*]

theorem touchesMember (c : Consistent net s) (touched : s.touches t (.relationship r) = true) :
    .relationship r ∈ s.drawing.model := by
  by_contra absent
  obtain ⟨start, finish⟩ := c.loose r absent
  simp [touches, start, finish] at touched

theorem keepsAll {gone : List ℕ} (none : gone = []) (u : ℕ) :
    s.observers u = (s.observers u).filter (· ∉ gone) := by
  subst none
  exact (List.filter_eq_self.mpr fun r _ => by simp).symm

theorem alertNone (c : Consistent net s) (turns : ℕ) (none : s.observers t = []) :
    ∃ s', (∀ depth, alertTurns net depth new t turns s = (do
        replay net depth ((deletions [] (s.observers t)).filterMap s.entryOf)
        pure s')) ∧
      Consistent net s' ∧ Dropped (s.touches t) s s' ∧
      ∀ u, s'.observers u = (s.observers u).filter (· ∉ s.observers t) := by
  refine ⟨s, fun depth => ?_, c, .nothing c fun f _ => ?_, keepsAll none⟩
  · unfold alertTurns
    simp only [none, deletions, List.filterMap_nil, replayNil, pure_bind]
  · cases f with
    | table t' => rfl
    | relationship r =>
      have unobserved := mt (touchesObserved c (t := t) (r := r)).mp (by simp [none])
      simpa using unobserved

theorem alertDrops (c : Consistent net s) (turns : ℕ) (enough : (s.observers t).length ≤ turns) :
    ∃ s', (∀ depth, alertTurns net depth new t turns s = (do
        replay net depth ((deletions [] (s.observers t)).filterMap s.entryOf)
        pure s')) ∧
      Consistent net s' ∧ Dropped (s.touches t) s s' ∧
      ∀ u, s'.observers u = (s.observers u).filter (· ∉ s.observers t) := by
  induction turns generalizing s with
  | zero => exact alertNone new c 0 (List.eq_nil_of_length_eq_zero (Nat.le_zero.mp enough))
  | succ turns ih =>
    cases observers : s.observers t with
    | nil => simpa only [observers] using alertNone new c (turns + 1) observers
    | cons r rest =>
      have touched := (touchesObserved c).mpr (observers ▸ List.mem_cons_self : r ∈ s.observers t)
      have member := touchesMember c touched
      obtain ⟨inside, -⟩ := c.connected r member
      have fewer : ∀ u, (s.dropRelationship new r).observers u = (s.observers u).filter (· ∉ [r]) := fun u =>
        List.filter_congr fun x _ => by by_cases same : x = r <;> simp [same]
      have own : (s.dropRelationship new r).observers t = rest.filter (· ∉ [r]) := by
        rw [fewer, observers, List.filter_cons_of_neg (by simp)]
      have shorter : ((s.dropRelationship new r).observers t).length ≤ turns := by
        rw [observers, List.length_cons] at enough
        rw [own]
        have shrunk := List.length_filter_le (· ∉ [r]) rest
        omega
      obtain ⟨s', rest', consistent, dropped, left⟩ := ih (relationshipConsistent new c r) shorter
      refine ⟨s', fun depth => ?_, consistent, (relationshipDropped new c r).trans c dropped fun f member => ?_,
        fun u => ?_⟩
      · have entry : (s.entryOf ([], r) : Option ((Fin n → List (Fin m)) × Fin m)) =
            some (s.observersWithout [], ⟨r, inside⟩) := dif_pos inside
        have later := deletionsMore (n := n) (m := m) fewer [] rest
        rw [List.nil_append] at later
        unfold alertTurns
        simp only [observers]
        rw [alertStep depth new c member inside, rest', own, later, deletions, if_neg List.not_mem_nil,
          List.filterMap_cons_some entry, replayCons depth _ ((deletions [r] rest).filterMap s.entryOf),
          bind_assoc]
      · cases f with
        | table t' => simp [touches]
        | relationship r' =>
          by_cases same : r' = r
          · subst same
            simp [touched]
          · simp [touches, dropRelationship, same]
      · rw [left, own, fewer, List.filter_filter]
        refine List.filter_congr fun x _ => ?_
        by_cases same : x = r <;> simp [same]

theorem Consistent.narrowed (c : Consistent net s) {drawing : State Figure}
    (model : drawing.model = s.drawing.model)
    (each : ∀ d' ∈ drawing.diagrams, ∃ d ∈ s.drawing.diagrams,
      d'.figures = d.figures ∧ d'.selection.Sublist d.selection) :
    Consistent net { s with drawing := drawing } := by
  constructor <;> dsimp only <;> try rw [model]
  · exact c.model
  · intro d' member
    obtain ⟨d, before, figures, -⟩ := each d' member
    exact figures ▸ c.figures d before
  · intro d' member
    obtain ⟨d, before, -, selection⟩ := each d' member
    exact (c.selection d before).sublist selection
  · intro d' member
    obtain ⟨d, before, figures, -⟩ := each d' member
    exact figures ▸ c.shown d before
  · intro d' member f selected
    obtain ⟨d, before, figures, selection⟩ := each d' member
    exact figures ▸ c.selected d before f (selection.subset selected)
  · exact c.connected
  · exact c.loose
  · exact c.observed
  · exact c.alive

theorem unselectConsistent (c : Consistent net s) (f : Figure) :
    Consistent net { s with drawing := s.drawing.removeFromAllSelections f } := by
  refine c.narrowed (unselectedAllModel s.drawing f) fun d' member => ?_
  rw [unselectedAllDiagrams] at member
  obtain ⟨d, before, rfl⟩ := List.mem_map.mp member
  exact ⟨d, before, rfl, List.erase_sublist⟩

theorem unselectOneConsistent (c : Consistent net s) (i : ℕ) (f : Figure) :
    Consistent net { s with drawing := s.drawing.removeFromSelection i f } := by
  refine c.narrowed (unselectedModel s.drawing i f) fun d' member => ?_
  obtain ⟨j, here⟩ := List.mem_iff_getElem?.mp member
  rw [unselectedDiagrams] at here
  by_cases same : i = j
  · subst same
    rw [List.getElem?_modify_eq] at here
    obtain ⟨d, before, rfl⟩ := Option.map_eq_some_iff.mp here
    exact ⟨d, List.mem_of_getElem? before, rfl, List.erase_sublist⟩
  · rw [List.getElem?_modify_ne _ _ same] at here
    exact ⟨d', List.mem_of_getElem? here, rfl, .refl _⟩

theorem Dropped.thenTable (c : Consistent net s) (c' : Consistent net s')
    (dropped : Dropped (touches { s with drawing := s.drawing.removeFromAllSelections (.table t) } t)
      { s with drawing := s.drawing.removeFromAllSelections (.table t) } s') :
    Dropped (fun f => f == .table t || s.touches t f) s
      { s' with
        drawing := s'.drawing.deleteModelFigure new (.table t)
        deleted := .table t :: s'.deleted } := by
  have touches : (touches { s with drawing := s.drawing.removeFromAllSelections (.table t) } t) =
      s.touches t := by
    funext f
    cases f <;> rfl
  rw [touches] at dropped
  have filters : ∀ fs : List Figure, (fs.filter (!s.touches t ·)).filter (!· == .table t) =
      fs.filter (fun f => !(f == .table t || s.touches t f)) := by
    intro fs
    rw [List.filter_filter]
    refine List.filter_congr fun f _ => ?_
    rw [Bool.not_or]
  refine ⟨?_, ?_, fun r member => ?_, fun r member => ?_⟩
  · dsimp only
    rw [deletedModel, c'.model.erase_eq_filter, dropped.model]
    dsimp only
    rw [unselectedAllModel]
    exact filters _
  · dsimp only
    rw [deletedDiagrams, dropped.diagrams]
    dsimp only
    rw [unselectedAllDiagrams, List.map_map, List.map_map]
    refine List.map_congr_left fun d member => ?_
    simp only [Function.comp_apply, without]
    rw [((c.figures d member).filter _).erase_eq_filter, (c.selection d member).erase_eq_filter, ← filters,
      ← filters, List.filter_comm _ _ d.selection]
    rfl
  · refine dropped.startConnector r ?_
    dsimp only at member
    rw [deletedModel] at member
    exact List.mem_of_mem_erase member
  · refine dropped.endConnector r ?_
    dsimp only at member
    rw [deletedModel] at member
    exact List.mem_of_mem_erase member

theorem tableDropped (c : Consistent net s) (member : .table t ∈ s.drawing.model) :
    ∃ s', (∀ (depth : ℕ) {β : Type} (next : Editor → Edits n m β), (do
        let s ← s.removeFromAllSelections (.table t)
        let s ← s.processDeleteAlert net depth new t
        let s ← s.deleteModelFigure new (.table t)
        next s) = (do
        replay net depth ((deletions [] (s.observers t)).filterMap s.entryOf)
        next s')) ∧
      Consistent net s' ∧ Dropped (fun f => f == .table t || s.touches t f) s s' ∧
      ∀ u, s'.observers u = (s.observers u).filter (· ∉ s.observers t) := by
  have own := c.alive _ member
  have unselected := unselectConsistent c (.table t)
  obtain ⟨s₂, alerted, consistent, dropped, left⟩ :=
    alertDrops new unselected (t := t) _ (Nat.le_refl _)
  have stays : .table t ∈ s₂.drawing.model := by
    rw [dropped.model]
    refine List.mem_filter.mpr ⟨?_, rfl⟩
    dsimp only
    rwa [unselectedAllModel]
  have after := Dropped.thenTable new c consistent dropped
  refine ⟨_, fun depth β next => ?_, ?_, after, left⟩
  · rw [unselectAlive own, pure_bind, processDeleteAlert, alerted]
    simp only [bind_assoc, pure_bind, deleteModelFigure]
    rw [useAlive (consistent.alive _ stays), pure_bind]
    rfl
  · refine after.consistent c (fun r t' stays atEnd => ?_) (fun r absent => ?_) consistent.observed ?_
    · have other : t' ≠ t := by
        rintro rfl
        rcases atEnd with atEnd | atEnd <;> simp [touches, atEnd] at stays
      simp [touches, other]
    · refine consistent.loose r fun present => absent ?_
      dsimp only
      rw [deletedModel]
      exact (List.mem_erase_of_ne (by simp)).mpr present
    · intro f member gone
      dsimp only at member gone
      rw [deletedModel, consistent.model.mem_erase_iff] at member
      cases gone with
      | head => exact member.1 rfl
      | tail _ gone => exact consistent.alive f member.2 gone

def doomed (s : Editor) (selection : List Figure) : Figure → Bool
  | .table t => decide (.table t ∈ selection)
  | .relationship r => (s.startConnector r).any (decide <| .table · ∈ selection) ||
      (s.endConnector r).any (decide <| .table · ∈ selection)

theorem doomedNone {selection : List Figure} (none : selection.countP (·.isTable) = 0) (f : Figure) :
    s.doomed selection f = false := by
  have absent : ∀ t, .table t ∉ selection := by
    intro t member
    exact absurd (List.countP_eq_zero.mp none _ member) (by simp [Figure.isTable])
  cases f with
  | table t => simpa [doomed] using absent t
  | relationship r => simp [doomed, absent]

theorem doomedStep (c : Consistent net s) {rest rest' : List Figure}
    (others : ∀ t', .table t' ∈ rest' ↔ .table t' ∈ rest)
    (dropped : Dropped (fun f => f == .table t || s.touches t f) s s') (member : f ∈ s.drawing.model) :
    s.doomed (.table t :: rest) f = ((f == .table t || s.touches t f) || s'.doomed rest' f) := by
  cases f with
  | table t' =>
    have own : (Figure.table t' == Figure.table t) = decide (t' = t) := by
      rw [beq_eq_decide]
      simp
    simp [doomed, others, touches, own]
  | relationship r =>
    have table : (Figure.relationship r == Figure.table t) = false := rfl
    cases touched : s.touches t (.relationship r) with
    | true =>
      have doomed : s.doomed (.table t :: rest) (.relationship r) = true := by
        rw [touches, Bool.or_eq_true, beq_iff_eq, beq_iff_eq] at touched
        rcases touched with atStart | atEnd
        · simp [doomed, atStart]
        · simp [doomed, atEnd]
      simp [doomed]
    | false =>
      have stays : .relationship r ∈ s'.drawing.model := by
        rw [dropped.model]
        exact List.mem_filter.mpr ⟨member, by rw [touched, table]; rfl⟩
      obtain ⟨inside, start, finish, -, -⟩ := c.connected r member
      rw [touches, start, finish] at touched
      simp only [Bool.or_eq_false_iff, beq_eq_false_iff_ne, ne_eq, Option.some.injEq] at touched
      simp [doomed, dropped.startConnector r stays, dropped.endConnector r stays, start, finish, others,
        touched, table]

theorem selectionAt (here : s.drawing.diagrams[i]? = some d) : s.selectionOf i = d.selection := by
  rw [selectionOf, here]
  rfl

def atTables (s : Editor) (selection : List Figure) : List ℕ :=
  selection.flatMap fun
    | .table t => s.observers t
    | .relationship _ => []

theorem atTablesMore {gone : List ℕ} (fewer : ∀ u, s'.observers u = (s.observers u).filter (· ∉ gone))
    (keep : Figure → Bool) (selection : List Figure) (tables : ∀ t, .table t ∈ selection → keep (.table t) = true) :
    s'.atTables (selection.filter keep) = (s.atTables selection).filter (· ∉ gone) := by
  induction selection with
  | nil => rfl
  | cons f rest ih =>
    have ih' := ih fun t member => tables t (List.mem_cons_of_mem _ member)
    cases f with
    | table t =>
      rw [List.filter_cons_of_pos (tables t List.mem_cons_self), atTables, List.flatMap_cons, atTables,
        List.flatMap_cons, List.filter_append, ← fewer]
      exact congrArg _ ih'
    | relationship r =>
      have head : ∀ e : Editor, e.atTables (.relationship r :: rest) = e.atTables rest := fun e => rfl
      rw [head, ← ih', List.filter_cons]
      split <;> rfl

theorem keptTables {keep : Figure → Bool} {selection : List Figure}
    (tables : ∀ t, .table t ∈ selection → keep (.table t) = true) (t : ℕ) :
    .table t ∈ selection.filter keep ↔ .table t ∈ selection := by
  rw [List.mem_filter]
  exact and_iff_left_of_imp (tables t)

theorem keptCount {keep : Figure → Bool} {selection : List Figure}
    (tables : ∀ t, .table t ∈ selection → keep (.table t) = true) :
    (selection.filter keep).countP (·.isTable) = selection.countP (·.isTable) := by
  rw [List.countP_filter]
  refine List.countP_congr fun f inList => ?_
  cases f with
  | table t => simp [Figure.isTable, tables t inList]
  | relationship r => simp [Figure.isTable]

theorem atNone {selection : List Figure} (none : selection.countP (·.isTable) = 0) :
    s.atTables selection = [] := by
  refine List.flatMap_eq_nil_iff.mpr fun f member => ?_
  cases f with
  | table t => exact absurd (List.countP_eq_zero.mp none _ member) (by simp [Figure.isTable])
  | relationship r => rfl

theorem tablesNone (c : Consistent net s) {selection : List Figure} (turns : ℕ)
    (none : selection.countP (·.isTable) = 0) :
    ∃ s', (∀ depth, tableTurns net depth new i .delete turns 0 s = (do
        replay net depth ((deletions [] (s.atTables selection)).filterMap s.entryOf)
        pure s')) ∧
      Consistent net s' ∧ Left (s.doomed selection) s s' ∧
      ∀ u, s'.observers u = (s.observers u).filter (· ∉ s.atTables selection) := by
  refine ⟨s, fun depth => ?_, c, (Dropped.nothing c fun f _ => doomedNone none f).left, keepsAll (atNone none)⟩
  rw [atNone none, deletions, List.filterMap_nil, replayNil, pure_bind, tableTurns]

theorem Left.unselected {rest : List Figure}
    (left : Left (doomed { s with drawing := s.drawing.removeFromSelection i (.relationship r) } rest)
      { s with drawing := s.drawing.removeFromSelection i (.relationship r) } s') :
    Left (s.doomed (.relationship r :: rest)) s s' := by
  have same : s.doomed (.relationship r :: rest) = doomed
      { s with drawing := s.drawing.removeFromSelection i (.relationship r) } rest := by
    funext f
    cases f <;> simp [doomed]
  rw [same]
  refine ⟨left.model.trans ?_, left.figures.trans ?_, left.startConnector, left.endConnector⟩
  · dsimp only
    rw [unselectedModel]
  · dsimp only
    rw [unselectedFigures]

theorem tablesDeleted (c : Consistent net s) (here : s.drawing.diagrams[i]? = some d) (turns : ℕ)
    (enough : d.selection.length ≤ turns) :
    ∃ s', (∀ depth, tableTurns net depth new i .delete turns (d.selection.countP (·.isTable)) s = (do
        replay net depth ((deletions [] (s.atTables d.selection)).filterMap s.entryOf)
        pure s')) ∧
      Consistent net s' ∧ Left (s.doomed d.selection) s s' ∧
      ∀ u, s'.observers u = (s.observers u).filter (· ∉ s.atTables d.selection) := by
  induction turns generalizing s d with
  | zero =>
    have none : d.selection.countP (·.isTable) = 0 := by
      rw [List.eq_nil_of_length_eq_zero (Nat.le_zero.mp enough), List.countP_nil]
    rw [none]
    exact tablesNone new c 0 none
  | succ turns ih =>
    have member := List.mem_of_getElem? here
    cases number : d.selection.countP (·.isTable) with
    | zero => exact tablesNone new c _ number
    | succ numbTables =>
      cases selection : d.selection with
      | nil => simp [selection] at number
      | cons f rest =>
        have inModel : f ∈ s.drawing.model :=
          c.selectedModel member (selection ▸ List.mem_cons_self)
        have once : f ∉ rest := (List.nodup_cons.mp (selection ▸ c.selection d member)).1
        have head : (s.selectionOf i).head? = some f := by rw [selectionAt here, selection]; rfl
        rw [selection, List.length_cons] at enough
        cases f with
        | table t =>
          obtain ⟨s₃, turn, consistent, dropped, fewer⟩ := tableDropped new (t := t) c inModel
          let keep : Figure → Bool := fun f => !(f == .table t || s.touches t f)
          have next : s₃.drawing.diagrams[i]? =
              some (without (fun f => f == .table t || s.touches t f) d) := by
            rw [dropped.diagrams, List.getElem?_map, here]
            rfl
          have left : (without (fun f => f == .table t || s.touches t f) d).selection = rest.filter keep := by
            rw [without, selection, List.filter_cons_of_neg (by simp)]
          have tables : ∀ t', .table t' ∈ rest → keep (.table t') = true := by
            intro t' inRest
            have other : t' ≠ t := fun same => once (same ▸ inRest)
            simp [keep, touches, other]
          have count : (rest.filter keep).countP (·.isTable) = numbTables := by
            rw [selection, List.countP_cons_of_pos rfl] at number
            exact (keptCount tables).trans (Nat.succ.inj number)
          have shorter := Nat.le_trans (List.length_filter_le keep rest) (Nat.le_of_succ_le_succ enough)
          obtain ⟨s', result, consistent', rest', fewer'⟩ := ih consistent next (left ▸ shorter)
          have later := atTablesMore fewer keep rest tables
          have joined : s.atTables (.table t :: rest) = s.observers t ++ s.atTables rest := rfl
          rw [left] at result rest' fewer'
          rw [count] at result
          rw [later] at result fewer'
          refine ⟨s', fun depth => ?_, consistent', dropped.left.trans c rest' fun f inModel =>
            doomedStep c (keptTables tables) dropped inModel, fun u => ?_⟩
          · have more := deletionsMore (n := n) (m := m) fewer [] (s.atTables rest)
            rw [List.nil_append] at more
            have split := deletionsAppend (s := s) (n := n) (m := m) [] (s.observers t) (s.atTables rest)
            rw [List.append_nil] at split
            rw [tableTurns, head]
            simp only [useAlive (c.alive _ inModel), pure_bind]
            rw [turn, result, joined, split, more, replayAppend, bind_assoc]
          · rw [fewer', fewer, joined, List.filter_filter]
            refine List.filter_congr fun x _ => ?_
            by_cases atTable : x ∈ s.observers t <;> simp [atTable]
        | relationship r =>
          have next : (s.drawing.removeFromSelection i (.relationship r)).diagrams[i]? =
              some { d with selection := rest } := by
            rw [unselectedDiagrams, List.getElem?_modify_eq, here]
            simp [selection]
          have count : rest.countP (·.isTable) = numbTables + 1 := by
            rw [← number, selection]
            rfl
          obtain ⟨s', result, consistent', rest', fewer⟩ :=
            ih (unselectOneConsistent c i (.relationship r)) next (Nat.le_of_succ_le_succ enough)
          dsimp only at result
          rw [count] at result
          refine ⟨s', fun depth => ?_, consistent', rest'.unselected, fewer⟩
          rw [tableTurns, head]
          simp only [useAlive (c.alive _ inModel), pure_bind, Editor.removeFromSelection]
          exact result depth

def relationships (selection : List Figure) : List Figure := selection.filter (!·.isTable)

/- The one relationship that the last loop deletes: the first that stays, if the walk through the list
passes over none. -/
def deletedToo (s : Editor) (selection : List Figure) : Option Figure :=
  if skips (s.doomed selection) (relationships selection) = [] then
    ((relationships selection).filter (!s.doomed selection ·)).head?
  else none

def tooEntry (gone : List ℕ) : Option Figure → List (List ℕ × ℕ)
  | some (.relationship r) => [(r :: gone, r)]
  | _ => []

theorem relationshipsDeleted (c : Consistent net s) {left : List Figure} (number : ℕ)
    (within : left.length = number → ∀ f ∈ left, f ∈ s.drawing.model ∧ f.isTable = false) :
    ∃ s', (∀ depth, relationshipTurns net depth new i .delete left number s = (do
        replay net depth ((tooEntry [] (if left.length = number then left.head? else none)).filterMap s.entryOf)
        pure s')) ∧
      Consistent net s' ∧ Left (fun f => decide (left.length = number ∧ left.head? = some f)) s s' := by
  cases number with
  | zero =>
    have none : (if left.length = 0 then left.head? else none) = none := by
      cases left <;> rfl
    refine ⟨s, fun depth => ?_, c, (Dropped.nothing c fun f _ => ?_).left⟩
    · rw [none, relationshipTurns]
      rfl
    · cases left <;> simp
  | succ number =>
    by_cases all : left.length = number + 1
    · cases left with
      | nil => simp at all
      | cons f left =>
        obtain ⟨member, relationship⟩ := within all f List.mem_cons_self
        cases f with
        | table t => cases relationship
        | relationship r =>
          obtain ⟨inside, -⟩ := c.connected r member
          refine ⟨s.dropRelationship new r, fun depth => ?_, relationshipConsistent new c r, ?_⟩
          · have last : relationshipTurns net depth new i .delete (.relationship r :: left) number
                (s.dropRelationship new r) = pure (s.dropRelationship new r) := by
              cases number with
              | zero => rfl
              | succ number =>
                rw [relationshipTurns, if_neg (by simp at all ⊢; omega)]
            have entry : (s.entryOf ([r], r) : Option ((Fin n → List (Fin m)) × Fin m)) =
                some (s.observersWithout [r], ⟨r, inside⟩) := dif_pos inside
            rw [relationshipTurns, if_pos all, if_pos all, List.head?_cons]
            simp only [useAlive (c.alive _ member), pure_bind, tooEntry, List.filterMap_cons_some entry,
              List.filterMap_nil]
            rw [selectedStep depth new c member inside, last]
          · have own : (fun f => decide ((Figure.relationship r :: left).length = number + 1 ∧
                (Figure.relationship r :: left).head? = some f)) = (· == Figure.relationship r) := by
              funext f
              rw [beq_eq_decide]
              simp [all, eq_comm]
            rw [own]
            exact (relationshipDropped new c r).left
    · refine ⟨s, fun depth => ?_, c, (Dropped.nothing c fun f _ => ?_).left⟩
      · rw [relationshipTurns, if_neg all, if_neg all]
        rfl
      · simp [all]

theorem useAllAlive {figures : List Figure} (alive : ∀ f ∈ figures, f ∉ s.deleted) :
    (s.useAll figures : Edits n m Unit) = pure () := by
  rw [useAll, if_neg]
  simpa using alive

theorem Left.figuresAt {gone : Figure → Bool} (left : Left gone s s') (here : s.drawing.diagrams[i]? = some d) :
    s'.figuresOf i = d.figures.filter (!gone ·) := by
  have figures := congrArg (·[i]?) left.figures
  simp only [List.getElem?_map, here, Option.map_some] at figures
  rw [figuresOf]
  cases there : s'.drawing.diagrams[i]? with
  | none => simp [there] at figures
  | some d' => simpa [there] using figures

theorem tooLater {gone : List ℕ} (fewer : ∀ u, s'.observers u = (s.observers u).filter (· ∉ gone))
    (too : Option Figure) :
    (tooEntry [] too).filterMap s'.entryOf =
      ((tooEntry gone too).filterMap s.entryOf : List ((Fin n → List (Fin m)) × Fin m)) := by
  rcases too with _ | _ | r
  · rfl
  · rfl
  · simp only [tooEntry, List.filterMap_cons, entryOf, withoutMore fewer]
    rfl

theorem relationshipsWalked (c : Consistent net s) (here : s.drawing.diagrams[i]? = some d)
    (c' : Consistent net s') (tables : Left (s.doomed d.selection) s s')
    (fewer : ∀ u, s'.observers u = (s.observers u).filter (· ∉ s.atTables d.selection)) :
    ∃ s'', (∀ depth, remOrDelRelationships net depth new i .delete (relationships d.selection) s' = (do
        replay net depth ((tooEntry (s.atTables d.selection) (s.deletedToo d.selection)).filterMap s.entryOf)
        pure s'')) ∧
      Consistent net s'' ∧ Left (fun f => decide (s.deletedToo d.selection = some f)) s' s'' := by
  have member := List.mem_of_getElem? here
  have relation : ∀ f ∈ relationships d.selection, f ∈ d.selection ∧ f.isTable = false := by
    intro f inList
    simpa [relationships] using inList
  have shownThere := tables.figuresAt here
  have included : ∀ f ∈ relationships d.selection,
      (!decide (f ∈ s'.figuresOf i)) = s.doomed d.selection f := by
    intro f inList
    have shown := c.selected d member f (relation f inList).1
    rw [shownThere]
    cases h : s.doomed d.selection f <;> simp [h, shown]
  have inModel : ∀ f ∈ s'.figuresOf i, f ∈ s'.drawing.model := by
    intro f inFigures
    rw [shownThere, List.mem_filter] at inFigures
    rw [tables.model]
    exact List.mem_filter.mpr ⟨c.shown d member f inFigures.1, inFigures.2⟩
  have constant : ∀ ys : List Figure, ys.filter (fun f => !!decide (f ∈ s'.figuresOf i)) =
      (relationships d.selection).filter (fun f => !!decide (f ∈ s'.figuresOf i)) →
      ∀ f, (!decide (f ∈ s'.figuresOf i)) = !decide (f ∈ s'.figuresOf i) := fun _ _ _ => rfl
  have agree := countsAgree (fun _ f => !decide (f ∈ s'.figuresOf i)) _ constant
  have whole := nonePassed (fun _ f => !decide (f ∈ s'.figuresOf i)) _ constant
  have seen := fun f => visitedMember (x := f) (fun _ f => !decide (f ∈ s'.figuresOf i)) _ constant
  rw [(skipsCongr included).2] at agree whole
  obtain ⟨⟨left, visited⟩, walked⟩ : ∃ w, walkAll (fun _ f => !decide (f ∈ s'.figuresOf i))
    (relationships d.selection) = w := ⟨_, rfl⟩
  rw [walked] at agree whole seen
  simp only [Bool.not_not] at agree whole seen
  have number : (visited.filter fun f => decide (f ∈ s'.figuresOf i)).countP (!·.isTable) =
      visited.countP fun f => decide (f ∈ s'.figuresOf i) := by
    rw [List.countP_filter]
    refine List.countP_congr fun f inVisited => ?_
    simp [(relation f (seen f inVisited)).2]
  have stay : (relationships d.selection).filter (fun f => decide (f ∈ s'.figuresOf i)) =
      (relationships d.selection).filter (!s.doomed d.selection ·) := by
    refine List.filter_congr fun f inList => ?_
    rw [← included f inList, Bool.not_not]
  have listed : left.length = (visited.countP fun f => decide (f ∈ s'.figuresOf i)) →
      ∀ f ∈ left, f ∈ s'.drawing.model ∧ f.isTable = false := by
    intro all f inLeft
    rw [whole (agree.mp all), List.mem_filter, decide_eq_true_eq] at inLeft
    exact ⟨inModel f inLeft.2, (relation f inLeft.1).2⟩
  have too : s.deletedToo d.selection = if left.length = (visited.countP fun f => decide (f ∈ s'.figuresOf i))
      then left.head? else none := by
    rw [deletedToo]
    by_cases none : skips (s.doomed d.selection) (relationships d.selection) = []
    · rw [if_pos none, if_pos (agree.mpr none), whole none, stay]
    · rw [if_neg none, if_neg (mt agree.mp none)]
  obtain ⟨s'', result, consistent, dropped⟩ := relationshipsDeleted new (i := i) c' _ listed
  rw [← too] at result
  refine ⟨s'', fun depth => ?_, consistent, ?_⟩
  · have alive : (s'.useAll (visited.filter fun f => decide (f ∈ s'.figuresOf i)) : Edits n m Unit) = pure () := by
      refine useAllAlive fun f inVisited => c'.alive f (inModel f ?_)
      simpa using (List.mem_filter.mp inVisited).2
    simp only [remOrDelRelationships, walked, number, alive, pure_bind]
    rw [result, tooLater fewer]
  · have own : (fun f => decide (s.deletedToo d.selection = some f)) = fun f =>
        decide ((left.length = visited.countP fun f => decide (f ∈ s'.figuresOf i)) ∧
          left.head? = some f) := by
      funext f
      refine decide_eq_decide.mpr ?_
      rw [too]
      split
      case isTrue all => rw [and_iff_right all]
      case isFalse some => simp [some]
    rw [own]
    exact dropped

def deletionOrder (s : Editor) (selection : List Figure) : List (List ℕ × ℕ) :=
  deletions [] (s.atTables selection) ++ tooEntry (s.atTables selection) (s.deletedToo selection)

theorem relationsRun (c : Consistent net s) (here : s.drawing.diagrams[i]? = some d)
    (c' : Consistent net s') (tables : Left (s.doomed d.selection) s s')
    (fewer : ∀ u, s'.observers u = (s.observers u).filter (· ∉ s.atTables d.selection)) :
    ∃ s'', (∀ depth, (if 0 < (relationships d.selection).length then
      remOrDelRelationships net depth new i .delete (relationships d.selection) s' else pure s') = (do
        replay net depth ((tooEntry (s.atTables d.selection) (s.deletedToo d.selection)).filterMap s.entryOf)
        pure s'')) ∧
      Consistent net s'' ∧ Left (fun f => decide (s.deletedToo d.selection = some f)) s' s'' := by
  split
  case isTrue some => exact relationshipsWalked new c here c' tables fewer
  case isFalse none =>
    have empty : relationships d.selection = [] := by simpa using none
    have noToo : s.deletedToo d.selection = Option.none := by simp [deletedToo, empty]
    refine ⟨s', fun depth => ?_, c', (Dropped.nothing c' fun f _ => ?_).left⟩
    · rw [noToo]
      rfl
    · simp [noToo]

theorem Consistent.useSelection (c : Consistent net s) (i : ℕ) :
    (s.useAll (s.selectionOf i) : Edits n m Unit) = pure () := by
  refine useAllAlive fun f selected => ?_
  rw [selectionOf] at selected
  cases there : s.drawing.diagrams[i]? with
  | none => simp [there] at selected
  | some d =>
    rw [there] at selected
    exact c.alive f (c.selectedModel (List.mem_of_getElem? there) selected)

theorem Left.cleared {gone : Figure → Bool} (left : Left gone s s') (i : ℕ) :
    Left gone s { s' with drawing := s'.drawing.clearSelection i } := by
  refine ⟨?_, ?_, ?_, ?_⟩ <;> dsimp only
  · rw [clearedModel]
    exact left.model
  · rw [clearedFigures]
    exact left.figures
  · rw [clearedModel]
    exact left.startConnector
  · rw [clearedModel]
    exact left.endConnector

theorem selectionRun (c : Consistent net s) (here : s.drawing.diagrams[i]? = some d) :
    ∃ s', (∀ depth, remOrDelSelFigures net depth new i .delete s = (do
        replay net depth ((s.deletionOrder d.selection).filterMap s.entryOf)
        pure s')) ∧ s'.selectionOf i = [] ∧
      Left (fun f => s.doomed d.selection f || decide (s.deletedToo d.selection = some f)) s s' := by
  have member := List.mem_of_getElem? here
  have alive : (s.useAll d.selection : Edits n m Unit) = pure () :=
    useAllAlive fun f selected => c.alive f (c.selectedModel member selected)
  obtain ⟨s₁, tables, c₁, left₁, fewer⟩ := tablesDeleted new c here _ (Nat.le_refl _)
  obtain ⟨s₂, result, c₂, left₂⟩ := relationsRun new c here c₁ left₁ fewer
  refine ⟨{ s₂ with drawing := s₂.drawing.clearSelection i }, fun depth => ?_, ?_,
    (left₁.trans c left₂ fun _ _ => rfl).cleared i⟩
  · have clear : (Editor.clearSelection i s₂ : Edits n m Editor) =
        pure { s₂ with drawing := s₂.drawing.clearSelection i } := by
      rw [Editor.clearSelection, c₂.useSelection i, pure_bind]
    have next := result depth
    rw [relationships] at next
    rw [remOrDelSelFigures, selectionAt here]
    simp only [alive, tables, pure_bind, bind_assoc]
    rw [deletionOrder, List.filterMap_append, replayAppend, bind_assoc]
    congr 1
    funext _
    by_cases some : 0 < (d.selection.filter (!·.isTable)).length
    · rw [if_pos some] at next
      simp only [if_pos some, next, bind_assoc, pure_bind, clear]
    · rw [if_neg some] at next
      have last := congrArg (· >>= clearSelection i) next
      simpa only [if_neg some, bind_assoc, pure_bind, clear] using last
  · rw [selectionOf, clearedDiagrams, List.getElem?_modify_eq]
    cases s₂.drawing.diagrams[i]? <;> rfl

end Steps

def target (s : Editor) (selection : List Figure) (f : Figure) : Bool :=
  s.doomed selection f || decide (f ∈ selection)

structure Deleted (i : ℕ) (s s' : Editor) : Prop where
  gone : ∀ f, s.target (s.selectionOf i) f = true →
    f ∉ s'.drawing.model ∧ ∀ d ∈ s'.drawing.diagrams, f ∉ d.figures
  kept : ∀ f ∈ s.drawing.model, s.target (s.selectionOf i) f = false → f ∈ s'.drawing.model
  cleared : s'.selectionOf i = []

/- It ends, uses no figure that has been deleted and deletes what is selected. -/
def Deletes (net : Network n m) (new : Figure → ℕ) (i : ℕ) (s : Editor) (design : ddNetwork.State n m) : Prop :=
  Fuelled.Ends (fun depth => remOrDelSelFigures net depth new i .delete s design) fun out => Deleted i s out.1

/- When the turn of a relationship comes, no column it made is in a key of its end table with a cycle of
the relationships that are left reached from there. -/
def Unblocked (net : Network n m) (s : Editor) (design : ddNetwork.State n m) (selection : List Figure) : Prop :=
  ∀ e ∈ s.deletionOrder selection, ∀ inside : e.2 < m,
    ¬ (net.observedBy (s.observersWithout e.1)).Blocked design ⟨e.2, inside⟩

/- No selected relationship outlives the tables, or only the first one does and at most one that does
not follows it. -/
def AtMostFirst (s : Editor) (selection : List Figure) : Prop :=
  (∀ f ∈ relationships selection, s.doomed selection f = true) ∨
    ∃ f rest, relationships selection = f :: rest ∧ rest.length ≤ 1 ∧
      s.doomed selection f = false ∧ ∀ g ∈ rest, s.doomed selection g = true

section Selection
variable {s s' : Editor} {d : hdDrawing Figure} {i : ℕ} {selection : List Figure} {f : Figure}

theorem relationshipsMember : f ∈ relationships selection ↔ f ∈ selection ∧ f.isTable = false := by
  simp [relationships]

theorem deletedTooMember (found : s.deletedToo selection = some f) :
    f ∈ relationships selection ∧ s.doomed selection f = false := by
  rw [deletedToo] at found
  split at found
  · simpa using List.mem_of_head? found
  · cases found

theorem deletedIff (c : Consistent net s) (here : s.drawing.diagrams[i]? = some d)
    (left : Left (fun f => s.doomed d.selection f || decide (s.deletedToo d.selection = some f)) s s')
    (cleared : s'.selectionOf i = []) :
    Deleted i s s' ↔ ∀ f ∈ relationships d.selection,
      s.doomed d.selection f = true ∨ s.deletedToo d.selection = some f := by
  have member := List.mem_of_getElem? here
  constructor
  · intro deleted f relation
    have selected := (relationshipsMember.mp relation).1
    have absent := (deleted.gone f (by simp [target, selectionAt here, selected])).1
    rw [left.model, List.mem_filter, and_iff_right (c.selectedModel member selected)] at absent
    simpa only [Bool.not_eq_true', Bool.not_eq_false, Bool.or_eq_true, decide_eq_true_eq] using absent
  · intro every
    have goes : ∀ f, s.target d.selection f = true →
        (s.doomed d.selection f || decide (s.deletedToo d.selection = some f)) = true := by
      intro f target
      rw [Editor.target, Bool.or_eq_true, decide_eq_true_eq] at target
      rcases target with doomed | selected
      · rw [doomed, Bool.true_or]
      · cases f with
        | table t => simp [doomed, selected]
        | relationship r =>
          simpa using every (.relationship r) (relationshipsMember.mpr ⟨selected, rfl⟩)
    refine ⟨fun f target => ?_, fun f inModel stays => ?_, cleared⟩
    · have gone := goes f (selectionAt here ▸ target)
      refine ⟨fun inModel => ?_, fun d' inDiagrams shown => ?_⟩
      · rw [left.model, List.mem_filter, gone] at inModel
        exact absurd inModel.2 Bool.false_ne_true
      · have filtered := List.mem_map_of_mem (f := (·.figures)) inDiagrams
        rw [left.figures, List.mem_map] at filtered
        obtain ⟨figures, -, same⟩ := filtered
        rw [← same, List.mem_filter, gone] at shown
        exact absurd shown.2 Bool.false_ne_true
    · rw [selectionAt here, target, Bool.or_eq_false_iff, decide_eq_false_iff_not] at stays
      have notToo : s.deletedToo d.selection ≠ some f := fun found =>
        stays.2 (relationshipsMember.mp (deletedTooMember found).1).1
      rw [left.model, List.mem_filter, stays.1, Bool.false_or, decide_eq_false notToo]
      exact ⟨inModel, rfl⟩

theorem everyIff (once : (relationships selection).Nodup) :
    (∀ f ∈ relationships selection, s.doomed selection f = true ∨ s.deletedToo selection = some f) ↔
      AtMostFirst s selection := by
  constructor
  · intro every
    by_cases all : ∀ f ∈ relationships selection, s.doomed selection f = true
    · exact .inl all
    · right
      simp only [not_forall, Bool.not_eq_true] at all
      obtain ⟨f, member, stays⟩ := all
      have found : s.deletedToo selection = some f := by
        simpa [stays] using every f member
      have only : ∀ g ∈ (relationships selection).filter (!s.doomed selection ·), g = f := by
        intro g staysToo
        obtain ⟨inList, stays⟩ := List.mem_filter.mp staysToo
        have foundToo := (every g inList).resolve_left (by simpa using stays)
        exact Option.some.inj (foundToo.symm.trans found)
      have alone : (relationships selection).filter (!s.doomed selection ·) = [f] := by
        have inList : f ∈ (relationships selection).filter (!s.doomed selection ·) :=
          List.mem_filter.mpr ⟨member, by rw [stays]; rfl⟩
        have count := List.count_eq_one_of_mem (once.filter _) inList
        rw [List.count_eq_length.mpr fun g inList => (only g inList).symm] at count
        obtain ⟨g, alone⟩ := List.length_eq_one_iff.mp count
        rw [alone, only g (alone ▸ List.mem_singleton_self g)]
      have none : skips (s.doomed selection) (relationships selection) = [] := by
        rw [deletedToo] at found
        split at found
        · assumption
        · cases found
      obtain ⟨rest, list, short⟩ := (staysFirst alone).mp none
      refine ⟨f, rest, list, short, stays, ?_⟩
      rw [list, List.filter_cons_of_pos (by rw [stays]; rfl)] at alone
      simpa using (List.cons.inj alone).2
  · rintro (all | ⟨f, rest, list, short, stays, doomed⟩) g member
    · exact .inl (all g member)
    · have alone : (relationships selection).filter (!s.doomed selection ·) = [f] := by
        rw [list, List.filter_cons_of_pos (by rw [stays]; rfl)]
        simpa using doomed
      rw [deletedToo, if_pos ((staysFirst alone).mpr ⟨rest, list, short⟩), alone]
      rw [list] at member
      cases member with
      | head => exact .inr rfl
      | tail _ inRest => exact .inl (doomed g inRest)

end Selection

section Order
variable {net : Network n m} {s s' : Editor} {design : ddNetwork.State n m} {selection : List Figure}

theorem deletionsMember {gone rs : List ℕ} {e : List ℕ × ℕ} (member : e ∈ deletions gone rs) :
    e.2 ∈ rs ∧ e.2 ∉ gone ∧ gone ⊆ e.1 ∧ e.1 ⊆ rs ++ gone := by
  induction rs generalizing gone with
  | nil => cases member
  | cons r rs ih =>
    rw [deletions] at member
    split at member
    case isTrue =>
      obtain ⟨listed, fresh, above, below⟩ := ih member
      exact ⟨List.mem_cons_of_mem _ listed, fresh, above, fun x there => List.mem_cons_of_mem _ (below there)⟩
    case isFalse new =>
      rcases List.mem_cons.mp member with rfl | member
      · exact ⟨List.mem_cons_self, new, List.Subset.refl _, List.subset_append_right _ _⟩
      · obtain ⟨listed, fresh, above, below⟩ := ih member
        refine ⟨List.mem_cons_of_mem _ listed, fun there => fresh (List.mem_cons_of_mem _ there),
          fun x there => above (List.mem_cons_of_mem _ there), fun x there => ?_⟩
        have cases := below there
        simp only [List.mem_append, List.mem_cons, List.cons_append] at cases ⊢
        tauto

theorem deletionsPairwise (gone rs : List ℕ) :
    (deletions gone rs).Pairwise fun e e' => e.2 ≠ e'.2 ∧ e.1 ⊆ e'.1 := by
  induction rs generalizing gone with
  | nil => exact .nil
  | cons r rs ih =>
    rw [deletions]
    split
    · exact ih gone
    · refine List.pairwise_cons.mpr ⟨fun e member => ?_, ih _⟩
      obtain ⟨-, fresh, above, -⟩ := deletionsMember member
      exact ⟨fun same => fresh (same ▸ List.mem_cons_self), fun x there => above (List.mem_cons_of_mem _ there)⟩

theorem atTablesDoomed (c : Consistent net s) {r : ℕ} (listed : r ∈ s.atTables selection) :
    s.doomed selection (.relationship r) = true := by
  obtain ⟨f, selected, here⟩ := List.mem_flatMap.mp listed
  cases f with
  | relationship r' => cases here
  | table t =>
    have touched := (touchesObserved c).mpr here
    rw [touches, Bool.or_eq_true, beq_iff_eq, beq_iff_eq] at touched
    rcases touched with atStart | atEnd
    · simp [doomed, atStart, selected]
    · simp [doomed, atEnd, selected]

theorem orderPairwise (c : Consistent net s) :
    (s.deletionOrder selection).Pairwise fun e e' => e.2 ≠ e'.2 ∧ e.1 ⊆ e'.1 := by
  refine List.pairwise_append.mpr ⟨deletionsPairwise [] _, ?_, fun e member e' too => ?_⟩
  · rcases s.deletedToo selection with _ | _ | r
    · exact .nil
    · exact .nil
    · exact List.pairwise_singleton _ _
  · cases found : s.deletedToo selection with
    | none => simp [found, tooEntry] at too
    | some f =>
      cases f with
      | table t => simp [found, tooEntry] at too
      | relationship r =>
        simp only [found, tooEntry, List.mem_singleton] at too
        subst too
        obtain ⟨listed, -, -, below⟩ := deletionsMember member
        refine ⟨fun same => ?_, fun x there => List.mem_cons_of_mem _ (by simpa using below there)⟩
        have doomed := atTablesDoomed c listed
        have stays := (deletedTooMember found).2
        rw [same, stays] at doomed
        cases doomed

theorem entriesPairwise (c : Consistent net s) :
    ((s.deletionOrder selection).filterMap s.entryOf : List ((Fin n → List (Fin m)) × Fin m)).Pairwise
      fun e e' => e.2 ≠ e'.2 ∧ ∀ t, e'.1 t ⊆ e.1 t := by
  refine (orderPairwise c).filterMap _ fun a a' ⟨differ, more⟩ e here e' there => ?_
  rw [entryOf] at here there
  split at here
  case isFalse => cases here
  split at there
  case isFalse => cases there
  obtain rfl := Option.some.inj here
  obtain rfl := Option.some.inj there
  refine ⟨fun same => differ (congrArg Fin.val same), fun t r member => ?_⟩
  simp only [observersWithout, List.mem_filterMap, List.mem_filter, decide_eq_true_eq] at member ⊢
  obtain ⟨x, ⟨observed, kept⟩, found⟩ := member
  exact ⟨x, ⟨observed, fun gone => kept (more gone)⟩, found⟩

theorem unblockedEntries : Unblocked net s design selection ↔
    ∀ e ∈ (s.deletionOrder selection).filterMap s.entryOf, ¬ (net.observedBy e.1).Blocked design e.2 := by
  constructor
  · intro unblocked e member
    obtain ⟨a, listed, found⟩ := List.mem_filterMap.mp member
    rw [entryOf] at found
    split at found
    case isTrue inside => exact Option.some.inj found ▸ unblocked a listed inside
    case isFalse => cases found
  · intro unblocked a listed inside
    exact unblocked _ (List.mem_filterMap.mpr ⟨a, listed, dif_pos inside⟩)

theorem replayRun (design : ddNetwork.State n m) (depth : ℕ)
    (entries : List ((Fin n → List (Fin m)) × Fin m)) (s' : Editor) :
    (do replay net depth entries; pure s' : Edits n m Editor) design =
      (net.removals depth design entries).map (s', ·) := by
  show ((net.removals depth design entries).map ((), ·)).bind (fun out : Unit × _ => some (s', out.2)) = _
  cases net.removals depth design entries <;> rfl

end Order

def loopNetwork : Network 1 2 where
  observers _ := []
  startFigure _ := ⟨0, Nat.one_pos⟩
  endFigure _ := ⟨0, Nat.one_pos⟩
  fkFromPk _ := true
  fkMandatory _ := true
  fkIdentifying _ := false
  ukIndex _ := -1

def loopDesign : ddNetwork.State 1 2 where
  tables _ := ⟨['t'], [], [], []⟩
  chm _ := []
  newId := 0
  updated := []

theorem loopNamed (r : Fin 2) : ddNetwork.Network.Named loopDesign r := List.nodup_nil

def twoLoops (selection : List Figure) : Editor where
  drawing := ⟨[.table 0, .relationship 0, .relationship 1],
    [⟨0, [.table 0, .relationship 0, .relationship 1], selection⟩], fun _ => [true], fun _ => 1, false⟩
  startConnector r := if r < 2 then some 0 else none
  endConnector r := if r < 2 then some 0 else none
  observers t := if t = 0 then [0, 0, 1, 1] else []
  deleted := []

theorem twoLoopsConsistent {selection : List Figure} (once : selection.Nodup)
    (shown : selection ⊆ [.table 0, .relationship 0, .relationship 1]) :
    Consistent loopNetwork (twoLoops selection) := by
  have only : ∀ d ∈ (twoLoops selection).drawing.diagrams,
      d = ⟨0, [.table 0, .relationship 0, .relationship 1], selection⟩ := by
    intro d member
    exact List.mem_singleton.mp member
  have figures : [Figure.table 0, .relationship 0, .relationship 1].Nodup := by
    decide
  refine ⟨figures, ?_, ?_, ?_, ?_, ?_, ?_, ?_, fun _ _ => List.not_mem_nil⟩
  · rintro d member
    rw [only d member]
    exact figures
  · rintro d member
    rw [only d member]
    exact once
  · rintro d member f inFigures
    rwa [only d member] at inFigures
  · rintro d member f selected
    rw [only d member] at selected ⊢
    exact shown selected
  · intro r member
    have below : r < 2 := by
      simp only [twoLoops, List.mem_cons, Figure.relationship.injEq, reduceCtorEq, List.not_mem_nil,
        or_false, false_or] at member
      omega
    exact ⟨below, if_pos below, if_pos below, List.mem_cons_self, List.mem_cons_self⟩
  · intro r absent
    have above : ¬ r < 2 := by
      intro below
      have low : r = 0 ∨ r = 1 := by omega
      rcases low with rfl | rfl <;> exact absent (by simp [twoLoops])
    exact ⟨if_neg above, if_neg above⟩
  · intro t r
    dsimp only [twoLoops]
    by_cases own : t = 0
    · subst own
      match r with
      | 0 | 1 => rfl
      | r + 2 => simp
    · rw [if_neg own, List.count_nil]
      split <;> simp [Ne.symm own]

end Editor

end PgAdmin.ddDrawingEditor
