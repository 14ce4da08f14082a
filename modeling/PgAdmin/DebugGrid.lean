import PgAdmin.DebugTarget

/-! The parameter grid of the dialog that starts a direct debugging session: a row for each argument that is not OUT,
and under an array or VARIADIC argument a row for each element and one to add elements. -/
namespace PgAdmin.dlgDirectDbg
open PgsObjects (Text)
open pgFunction (Mode)
open dbgTarget (dbgArgInfo)

/- m_baseType -/
def baseType (type : Text) : Text := if ['[', ']'] <:+ type then type.take (type.length - 2) else []

def IsArray (info : dbgArgInfo) : Bool := baseType info.m_type ≠ []

/- An object of the list of arguments; two of them are the same when they stand in the same place. -/
structure Arg where
  place : ℕ
  info : dbgArgInfo

def Arg.IsArray (arg : Arg) : Bool := dlgDirectDbg.IsArray arg.info

/- COL_NULL, COL_EXPR and COL_VALUE -/
structure Cells where
  null : Text
  expr : Text
  value : Text

/- The argument is that of the editor in COL_NULL. -/
structure Row where
  arg : Option Arg
  name : Text
  cells : Cells
  useDef : Text

def noCells : Cells := ⟨[], [], []⟩

def plusRow (arg : Arg) : Row where
  arg := none
  name :=
    if arg.info.m_mode = .variadic then "Click '+/-' to add/remove value to variadic".toList
    else "Click '+/-' to add/remove value to the array".toList
  cells := noCells
  useDef := []

def isTrue : Text := ['1']

/- The arguments of a target. Each has a name, given or generated. A VARIADIC argument is an array, and only OUT
arguments come after it. -/
structure Signature where
  args : List dbgArgInfo
  named : ∀ info ∈ args, info.m_name ≠ []
  variadicArray : ∀ info ∈ args, info.m_mode = .variadic → IsArray info
  variadicLast : args.Pairwise fun info later => info.m_mode = .variadic → later.m_mode = .out

def freshUseDef (info : dbgArgInfo) : Text := if info.m_defValue.isSome then isTrue else []

def populateArg (arg : Arg) : List Row :=
  if arg.info.m_mode ≠ .out then
    ⟨some arg, arg.info.m_name, noCells, freshUseDef arg.info⟩ ::
      if arg.info.m_mode = .variadic ∨ arg.IsArray then [plusRow arg] else []
  else []

def arguments (sig : Signature) : List Arg := sig.args.zipIdx.map fun (info, place) => ⟨place, info⟩

def PopulateParamGrid (sig : Signature) : List Row := (arguments sig).flatMap populateArg

/- The rows of one argument. Only an array has elements. -/
structure Block where
  arg : Arg
  header : Cells
  useDef : Text
  elements : List Cells
  scalar : arg.IsArray = false → elements = []

def elementRow (arg : Arg) (cells : Cells) : Row := ⟨some arg, [], cells, []⟩

def headerRow (b : Block) : Row := ⟨some b.arg, b.arg.info.m_name, b.header, b.useDef⟩

def Block.rows (b : Block) : List Row :=
  ⟨some b.arg, b.arg.info.m_name, b.header, b.useDef⟩ ::
    if b.arg.IsArray then b.elements.map (elementRow b.arg) ++ [plusRow b.arg] else []

def gridRows (blocks : List Block) : List Row := blocks.flatMap Block.rows

def fresh (arg : Arg) : Block where
  arg := arg
  header := noCells
  useDef := freshUseDef arg.info
  elements := []
  scalar := fun _ => rfl

def shown (sig : Signature) : List Arg := (arguments sig).filter fun arg => arg.info.m_mode ≠ .out

theorem argumentsPlaces (sig : Signature) : ((arguments sig).map Arg.place).Nodup := by
  have places : (arguments sig).map Arg.place = List.range' 0 sig.args.length := by
    rw [arguments, List.map_map]
    exact List.zipIdx_map_snd 0 sig.args
  rw [places]
  exact List.nodup_range'

theorem shownPlaces (sig : Signature) : ((shown sig).map Arg.place).Nodup :=
  (argumentsPlaces sig).sublist (List.filter_sublist.map _)

theorem argumentsInfo {sig : Signature} {arg : Arg} (member : arg ∈ arguments sig) : arg.info ∈ sig.args := by
  obtain ⟨⟨info, place⟩, inside, rfl⟩ := List.mem_map.mp member
  exact List.fst_mem_of_mem_zipIdx inside

theorem populated (sig : Signature) : PopulateParamGrid sig = gridRows ((shown sig).map fresh) := by
  have each : ∀ arg ∈ arguments sig, populateArg arg =
      if arg.info.m_mode ≠ .out then (fresh arg).rows else [] := by
    intro arg member
    unfold populateArg
    split
    case isTrue =>
      have array : (arg.info.m_mode = .variadic ∨ arg.IsArray = true) ↔ arg.IsArray = true :=
        ⟨fun either => either.elim (fun variadic => sig.variadicArray _ (argumentsInfo member) variadic) id, .inr⟩
      simp only [array]
      rfl
    case isFalse => rfl
  rw [PopulateParamGrid, gridRows, shown, List.flatMap_map]
  generalize arguments sig = args at each
  induction args with
  | nil => rfl
  | cons arg args ih =>
    obtain ⟨here, rest⟩ := List.forall_mem_cons.mp each
    rw [List.flatMap_cons, here, ih rest, List.filter_cons]
    by_cases input : arg.info.m_mode ≠ .out
    · simp [input]
    · simp [input]

end PgAdmin.dlgDirectDbg
