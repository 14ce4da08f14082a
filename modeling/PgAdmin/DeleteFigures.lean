import PgAdmin.DesignNetwork
import PgAdmin.DrawingEditor
import PgAdmin.PositionIterator
import PgAdmin.RelationshipsShown

/-! ddDrawingEditor::remOrDelSelFigures with what it calls. Every use of a figure asks whether it has been
deleted; a failure stands for that, for a missing figure and for a loop that does not end within the depth
that bounds the recursions of the design. -/
namespace PgAdmin.ddDrawingEditor
open hdDrawingEditor PositionIterator
open ddNetwork (Network)

inductive Answer where
  | remove
  | delete
  deriving DecidableEq, Repr

/- The diagrams and the model, the tables a relationship is connected to, the relationships that
observe a table, and the figures that are no more. -/
structure Editor where
  drawing : State Figure
  startConnector : ℕ → Option ℕ
  endConnector : ℕ → Option ℕ
  observers : ℕ → List ℕ
  deleted : List Figure

abbrev Edits (n m : ℕ) := StateT (ddNetwork.State n m) Option

namespace Editor
variable {n m : ℕ}

def use (s : Editor) (f : Figure) : Edits n m Unit := if f ∈ s.deleted then failure else pure ()

def useAll (s : Editor) (figures : List Figure) : Edits n m Unit :=
  if figures.any (decide <| · ∈ s.deleted) then failure else pure ()

def useOwner (s : Editor) : Option ℕ → Edits n m Unit
  | none => pure ()
  | some t => s.use (.table t)

def removeObserver (s : Editor) (t : Option ℕ) (r : ℕ) : Editor :=
  match t with
  | none => s
  | some t => { s with observers := Function.update s.observers t ((s.observers t).erase r) }

def connected? (s : Editor) (r : ℕ) : Option (Fin m) :=
  if inside : r < m then
    if (s.startConnector r).isSome && (s.endConnector r).isSome then some ⟨r, inside⟩ else none
  else none

def observed (s : Editor) (t : Fin n) : List (Fin m) := (s.observers t).filterMap s.connected?

section Disconnect
variable (net : Network n m) (depth : ℕ)

def removeForeignKeys (s : Editor) (disconnectedEndTable : Option ℕ) (r : ℕ) : Edits n m Unit := fun design =>
  match disconnectedEndTable with
  | none => some ((), design)
  | some _ =>
    if inside : r < m then
      ((net.observedBy s.observed).removeForeignKeys depth design ⟨r, inside⟩).map ((), ·)
    else none

def disconnectStart (s : Editor) (r : ℕ) : Edits n m Editor := do
  s.use (.relationship r)
  s.useOwner (s.endConnector r)
  s.removeForeignKeys net depth (s.endConnector r) r
  s.useOwner (s.startConnector r)
  pure { s.removeObserver (s.startConnector r) r with
    startConnector := Function.update s.startConnector r none }

def disconnectEnd (s : Editor) (r : ℕ) : Edits n m Editor := do
  s.use (.relationship r)
  s.useOwner (s.endConnector r)
  let disconnected := { s.removeObserver (s.endConnector r) r with
    endConnector := Function.update s.endConnector r none }
  disconnected.removeForeignKeys net depth (s.endConnector r) r
  pure disconnected

end Disconnect

def removeFromSelection (s : Editor) (i : ℕ) (f : Figure) : Edits n m Editor := do
  s.use f
  pure { s with drawing := s.drawing.removeFromSelection i f }

def remove (s : Editor) (i : ℕ) (f : Figure) : Edits n m Editor := do
  s.use f
  pure { s with drawing := s.drawing.remove i f }

def removeFromAllSelections (s : Editor) (f : Figure) : Edits n m Editor := do
  if s.drawing.diagrams.any fun d => decide (f ∈ d.selection) then s.use f
  pure { s with drawing := s.drawing.removeFromAllSelections f }

def selectionOf (s : Editor) (i : ℕ) : List Figure := (s.drawing.diagrams[i]?.elim [] (·.selection))

def figuresOf (s : Editor) (i : ℕ) : List Figure := (s.drawing.diagrams[i]?.elim [] (·.figures))

section Delete
variable (net : Network n m) (depth : ℕ) (new : Figure → ℕ)

def deleteModelFigure (s : Editor) (f : Figure) : Edits n m Editor := do
  s.use f
  pure { s with drawing := s.drawing.deleteModelFigure new f, deleted := f :: s.deleted }

/- Each turn takes the first observer; a relationship that is deleted observes nothing more, so there
are no more turns than observers. -/
def alertTurns (t : ℕ) : ℕ → Editor → Edits n m Editor
  | turns, s =>
    match s.observers t, turns with
    | [], _ => pure s
    | _ :: _, 0 => failure
    | r :: _, turns + 1 => do
      let s ← s.disconnectStart net depth r
      let s ← s.disconnectEnd net depth r
      let s ← s.removeFromAllSelections (.relationship r)
      let s ← s.deleteModelFigure new (.relationship r)
      alertTurns t turns s

def processDeleteAlert (s : Editor) (t : ℕ) : Edits n m Editor :=
  alertTurns net depth new t (s.observers t).length s

/- While there are tables to do, the first selected figure is taken out of the selection, and a table
is deleted with its relationships, or only taken out of the diagram. -/
def tableTurns (i : ℕ) (answer : Answer) : ℕ → ℕ → Editor → Edits n m Editor
  | _, 0, s => pure s
  | 0, _ + 1, _ => failure
  | turns + 1, numbTables + 1, s =>
    match (s.selectionOf i).head? with
    | none => failure
    | some tmp => do
      s.use tmp
      match tmp, answer with
      | .table _, .remove => do
        let s ← s.removeFromSelection i tmp
        let s ← s.remove i tmp
        tableTurns i answer turns numbTables s
      | .table t, .delete => do
        let s ← s.removeFromAllSelections tmp
        let s ← s.processDeleteAlert net depth new t
        let s ← s.deleteModelFigure new tmp
        tableTurns i answer turns numbTables s
      | .relationship _, _ => do
        let s ← s.removeFromSelection i tmp
        tableTurns i answer turns (numbTables + 1) s

def relationshipTurns (i : ℕ) (answer : Answer) (tmpSelection : List Figure) :
    ℕ → Editor → Edits n m Editor
  | 0, s => pure s
  | numbRelationships + 1, s =>
    if tmpSelection.length = numbRelationships + 1 then
      match tmpSelection.head? with
      | none => failure
      | some tmp => do
        s.use tmp
        match tmp, answer with
        -- the message box comes again and again
        | .table _, _ => failure
        | .relationship _, .remove => do
          let s ← s.removeFromSelection i tmp
          let s ← s.remove i tmp
          relationshipTurns i answer tmpSelection numbRelationships s
        | .relationship r, .delete => do
          let s ← s.removeFromAllSelections tmp
          let s ← s.disconnectEnd net depth r
          let s ← s.disconnectStart net depth r
          let s ← s.deleteModelFigure new tmp
          relationshipTurns i answer tmpSelection numbRelationships s
    else pure s

/- The relationships that are still in the diagram are counted, the others taken out of the list that
is walked. -/
def remOrDelRelationships (i : ℕ) (answer : Answer) (tmpSelection : List Figure) (s : Editor) :
    Edits n m Editor := do
  let included := fun f => decide (f ∈ s.figuresOf i)
  let (left, visited) := walkAll (fun _ f => !included f) tmpSelection
  s.useAll (visited.filter included)
  let numbRelationships := (visited.filter included).countP (!·.isTable)
  s.relationshipTurns net depth new i answer left numbRelationships

def clearSelection (i : ℕ) (s : Editor) : Edits n m Editor := do
  s.useAll (s.selectionOf i)
  pure { s with drawing := s.drawing.clearSelection i }

def remOrDelSelFigures (i : ℕ) (answer : Answer) (s : Editor) : Edits n m Editor := do
  let selection := s.selectionOf i
  s.useAll selection
  let tmpSelection := selection.filter (!·.isTable)
  let s ← tableTurns net depth new i answer selection.length (selection.countP (·.isTable)) s
  let s ← if 0 < tmpSelection.length then remOrDelRelationships net depth new i answer tmpSelection s
    else pure s
  s.clearSelection i

end Delete
end Editor

end PgAdmin.ddDrawingEditor
