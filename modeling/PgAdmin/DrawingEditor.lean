import Mathlib.Data.List.Induction
import Mathlib.Data.List.Nodup

/-! The model's figures and the diagrams that show them. What is selected is stored twice: in the
selection of the diagram, and at the figure, which has a flag for each diagram. The flags are counted
as the diagrams are, but a diagram that is deleted leaves its flag with every figure. -/
namespace PgAdmin.hdDrawingEditor

variable {F : Type} [DecidableEq F]

structure hdDrawing (F : Type) where
  idx : ℕ
  figures : List F
  selection : List F
  deriving DecidableEq, Repr

/- The figures of the model, the diagrams, and of each figure the flags and how many positions its
display box has; outside tells whether a flag was written behind those a figure has. -/
structure State (F : Type) where
  model : List F
  diagrams : List (hdDrawing F)
  selected : F → List Bool
  countPositions : F → ℕ
  outside : Bool

namespace State

def isSelected (s : State F) (f : F) (posIdx : ℕ) : Bool := (s.selected f).getD posIdx false

def setSelected (s : State F) (f : F) (posIdx : ℕ) (value : Bool) : State F :=
  { s with
    selected := Function.update s.selected f ((s.selected f).set posIdx value)
    outside := s.outside || decide ((s.selected f).length ≤ posIdx) }

def AddPosForNewDiagram (s : State F) (f : F) : State F :=
  { s with
    selected := Function.update s.selected f (s.selected f ++ [false])
    countPositions := Function.update s.countPositions f (s.countPositions f + 1) }

def RemovePosOfDiagram (posIdx : ℕ) (s : State F) (f : F) : State F :=
  { s with
    countPositions := Function.update s.countPositions f
      (if posIdx < s.countPositions f then s.countPositions f - 1 else s.countPositions f) }

def onDiagram (s : State F) (i : ℕ) (change : hdDrawing F → hdDrawing F) : State F :=
  { s with diagrams := s.diagrams.modify i change }

def createDiagram (s : State F) (fromXml : Bool) : State F :=
  let created := if fromXml then s else s.model.foldl AddPosForNewDiagram s
  { created with diagrams := s.diagrams ++ [⟨s.diagrams.length, [], []⟩] }

def deleteDiagram (s : State F) (diagramIndex : ℕ) : State F :=
  let diagrams := (s.diagrams.eraseIdx diagramIndex).mapIdx fun i d =>
    if diagramIndex ≤ i then { d with idx := i } else d
  s.model.foldl (RemovePosOfDiagram diagramIndex) { s with diagrams := diagrams }

def addModelFigure (s : State F) (f : F) : State F := { s with model := s.model ++ [f] }

def add (s : State F) (i : ℕ) (f : F) : State F :=
  s.onDiagram i fun d => { d with figures := d.figures ++ [f] }

def remove (s : State F) (i : ℕ) (f : F) : State F :=
  s.onDiagram i fun d => { d with figures := d.figures.erase f }

def addDiagramFigure (s : State F) (diagramIndex : ℕ) (f : F) : State F :=
  let added := if f ∈ s.model then s
    else (List.range (s.diagrams.length - s.countPositions f)).foldl
      (fun s _ => s.AddPosForNewDiagram f) (s.addModelFigure f)
  added.add diagramIndex f

def addToSelection (s : State F) (i : ℕ) (f : F) : State F :=
  match s.diagrams[i]? with
  | none => s
  | some d => (s.setSelected f d.idx true).onDiagram i fun d =>
      { d with selection := d.selection ++ [f] }

def removeFromSelection (s : State F) (i : ℕ) (f : F) : State F :=
  match s.diagrams[i]? with
  | none => s
  | some d => (s.setSelected f d.idx false).onDiagram i fun d =>
      { d with selection := d.selection.erase f }

def toggleSelection (s : State F) (i : ℕ) (f : F) : State F :=
  match s.diagrams[i]? with
  | none => s
  | some d =>
    let listed := if s.isSelected f d.idx = true ∧ f ∈ d.selection then
        s.onDiagram i fun d => { d with selection := d.selection.erase f }
      else if s.isSelected f d.idx = false ∧ f ∈ d.figures then
        s.onDiagram i fun d => { d with selection := d.selection ++ [f] }
      else s
    listed.setSelected f d.idx (!s.isSelected f d.idx)

def clearSelection (s : State F) (i : ℕ) : State F :=
  match s.diagrams[i]? with
  | none => s
  | some d => (d.selection.foldl (fun s f => s.setSelected f d.idx false) s).onDiagram i fun d =>
      { d with selection := [] }

def removeAllFigures (s : State F) (i : ℕ) : State F :=
  s.onDiagram i fun d => { d with figures := [], selection := [] }

def removeAllDiagramsFigures (s : State F) : State F :=
  (List.range s.diagrams.length).foldl removeAllFigures s

def removeFromAllSelections (s : State F) (f : F) : State F :=
  (List.range s.diagrams.length).foldl (fun s i =>
    if (s.diagrams[i]?.any fun d => decide (f ∈ d.selection)) = true then s.removeFromSelection i f
    else s) s

def made (new : F → ℕ) (s : State F) (f : F) : State F :=
  { s with
    selected := Function.update s.selected f (List.replicate (new f) false)
    countPositions := Function.update s.countPositions f (new f) }

def deleteModelFigure (new : F → ℕ) (s : State F) (f : F) : State F :=
  let removed := (List.range s.diagrams.length).foldl (fun s i =>
    if (s.diagrams[i]?.any fun d => decide (f ∈ d.figures)) = true then s.remove i f else s) s
  { removed with model := removed.model.erase f }.made new f

def deleteAllModelFigures (new : F → ℕ) (s : State F) : State F :=
  let removed := s.removeAllDiagramsFigures
  { removed.model.foldl (made new) removed with model := [] }

end State

inductive Op (F : Type) where
  | createDiagram (fromXml : Bool)
  | deleteDiagram (diagramIndex : ℕ)
  | addModelFigure (f : F)
  | addDiagramFigure (diagramIndex : ℕ) (f : F)
  | removeDiagramFigure (diagramIndex : ℕ) (f : F)
  | deleteModelFigure (f : F)
  | addToSelection (diagramIndex : ℕ) (f : F)
  | removeFromSelection (diagramIndex : ℕ) (f : F)
  | toggleSelection (diagramIndex : ℕ) (f : F)
  | clearSelection (diagramIndex : ℕ)
  | removeFromAllSelections (f : F)
  | removeAllFigures (diagramIndex : ℕ)
  | removeAllDiagramsFigures
  | deleteAllModelFigures

def State.step (new : F → ℕ) (s : State F) : Op F → State F
  | .createDiagram fromXml => s.createDiagram fromXml
  | .deleteDiagram diagramIndex => s.deleteDiagram diagramIndex
  | .addModelFigure f => s.addModelFigure f
  | .addDiagramFigure diagramIndex f => s.addDiagramFigure diagramIndex f
  | .removeDiagramFigure diagramIndex f => s.remove diagramIndex f
  | .deleteModelFigure f => s.deleteModelFigure new f
  | .addToSelection diagramIndex f => s.addToSelection diagramIndex f
  | .removeFromSelection diagramIndex f => s.removeFromSelection diagramIndex f
  | .toggleSelection diagramIndex f => s.toggleSelection diagramIndex f
  | .clearSelection diagramIndex => s.clearSelection diagramIndex
  | .removeFromAllSelections f => s.removeFromAllSelections f
  | .removeAllFigures diagramIndex => s.removeAllFigures diagramIndex
  | .removeAllDiagramsFigures => s.removeAllDiagramsFigures
  | .deleteAllModelFigures => s.deleteAllModelFigures new

def start (new : F → ℕ) : State F := ⟨[], [], fun f => List.replicate (new f) false, new, false⟩

def run (new : F → ℕ) (ops : List (Op F)) : State F := ops.foldl (State.step new) (start new)

end PgAdmin.hdDrawingEditor
