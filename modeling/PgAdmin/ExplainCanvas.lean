import PgAdmin.WxString
import PgAdmin.Tokenizer

/-! ExplainCanvas::SetExplainString: the shapes of an explained plan. A line is a node, a condition
of the last node or nothing that is drawn; the level of a node comes from its indentation, and its
upper shape is found by climbing from the last one. -/
namespace PgAdmin.ExplainCanvas
open PgsObjects (Text)
open wxString

def StripBoth (str : Text) : Text := Trim (str.dropWhile isSpace)

def braceCount (line : Text) : ℤ := line.count '(' - line.count ')'

def joinLines (line : Text) : List Text → Text × List Text
  | [] => if 0 < braceCount line then (line ++ [' '], []) else (line, [])
  | next :: lines =>
    if 0 < braceCount line then
      let line := line ++ ' ' :: StripBoth next
      if lines = [] then (line, []) else joinLines line lines
    else (line, next :: lines)

theorem joinShorter (line : Text) (lines : List Text) :
    (joinLines line lines).2.length ≤ lines.length := by
  induction lines generalizing line with
  | nil =>
    unfold joinLines
    split <;> simp
  | cons next lines ih =>
    unfold joinLines
    split
    · simp only
      split
      · simp
      · exact (ih _).trans (Nat.le_succ _)
    · exact le_rfl

inductive PlanLine where
  | condition (line : Text)
  | absent (level : ℕ)
  | shape (level : ℕ) (line : Text)
  deriving DecidableEq, Repr

def lineLevel (tmp line : Text) : ℕ :=
  (((tmp.length : ℤ) - line.length + 4) % 2 ^ 64).toNat / 6 + 1

def arrow : Text := ['-', '>', ' ', ' ']
def total : Text := "Total".toList
def trigger : Text := "Trigger".toList
def settings : Text := "Settings:".toList
def slice : Text := "Slice".toList
def slicePrefix : Text := "(slice".toList

/- The lines for which ExplainShape::Create gives no shape. -/
def shapeless (line : Text) : Bool :=
  let token := (Tokenizer.strtok ' ' line).headD []
  token = total || token = trigger || token = settings || token = slice ||
    token.take 6 = slicePrefix

def classify (tmp line : Text) : PlanLine :=
  let level := lineLevel tmp line
  if level ≠ 1 ∧ line.take 4 ≠ arrow then .condition line
  else
    let line := if level ≠ 1 then line.drop 4 else line
    if shapeless line then .absent level else .shape level line

def planLines : List Text → List PlanLine
  | [] => []
  | tmp :: lines =>
    let joined := joinLines (StripBoth tmp) lines
    classify tmp joined.1 :: planLines joined.2
termination_by lines => lines.length
decreasing_by exact Nat.lt_succ_of_le (joinShorter (StripBoth tmp) lines)

structure Shape where
  level : ℕ
  upperShape : Option ℕ
  kidNo : ℕ
  kidCount : ℕ
  line : Text
  condition : Text
  deriving DecidableEq, Repr

structure Canvas where
  shapes : List Shape
  last : ℕ
  maxLevel : ℕ
  deriving DecidableEq, Repr

namespace Canvas

def root : Canvas where
  shapes := [⟨0, none, 0, 0, [], []⟩]
  last := 0
  maxLevel := 0

def level (c : Canvas) (i : ℕ) : ℕ := (c.shapes[i]?.map Shape.level).getD 0
def upper (c : Canvas) (i : ℕ) : Option ℕ := c.shapes[i]?.bind Shape.upperShape

def climbFrom (c : Canvas) (level : ℕ) : ℕ → ℕ → ℕ
  | 0, last => last
  | steps + 1, last =>
    if last ≠ 0 ∧ level ≤ c.level last then climbFrom c level steps ((c.upper last).getD 0)
    else last

def climb (c : Canvas) (level : ℕ) : ℕ := climbFrom c level c.last c.last

def addLine (c : Canvas) : PlanLine → Canvas
  | .condition line =>
    { c with shapes := c.shapes.modify c.last fun s => { s with condition := line } }
  | .absent level => { c with last := c.climb level }
  | .shape level line =>
    let upper := c.climb level
    { shapes := (c.shapes.modify upper fun s => { s with kidCount := s.kidCount + 1 }) ++
        [⟨level, some upper, (c.shapes[upper]?.map Shape.kidCount).getD 0, 0, line, []⟩]
      last := c.shapes.length
      maxLevel := max c.maxLevel level }

def countFrom (c : Canvas) : ℕ → (ℕ → ℕ) → ℕ → ℕ
  | 0, total => total
  | i + 1, total =>
    let here := if total i = 0 then 1 else total i
    let total := Function.update total i here
    countFrom c i ((c.upper i).elim total fun upper =>
      Function.update total upper (total upper + here))

def totalShapes (c : Canvas) : ℕ → ℕ := countFrom c c.shapes.length fun _ => 0

def placeUpTo (c : Canvas) : ℕ → (ℕ → ℕ) × (ℕ → ℕ)
  | 0 => (fun _ => 0, fun _ => 0)
  | i + 1 =>
    let (row, usedShapes) := placeUpTo c i
    (c.upper i).elim (Function.update row i 0, usedShapes) fun upper =>
      (Function.update row i (row upper + usedShapes upper),
        Function.update usedShapes upper (usedShapes upper + c.totalShapes i))

def row (c : Canvas) : ℕ → ℕ := (placeUpTo c c.shapes.length).1

end Canvas

/- The tokenizer leaves empty lines out. -/
def SetExplainString (str : Text) : Canvas :=
  (planLines (Tokenizer.strtok '\n' str)).foldl Canvas.addLine Canvas.root

end PgAdmin.ExplainCanvas
