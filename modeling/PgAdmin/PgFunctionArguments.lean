import PgAdmin.CommaSeparatedList
import PgAdmin.Identifier
import PgAdmin.Tokenizer

/-! The arguments of a function, from the columns of pg_proc to the list shown in its definition, on a server of
PostgreSQL 8.4 or later that is not EnterpriseDB. The four arrays of pgFunction grow together and are one list. -/
namespace PgAdmin.pgFunction
open PgsObjects (Text)
open Identifier Substitution wxString misc

structure Proc where
  proargtypes : Text
  proallargtypes : Text
  proargnames : Text
  proargmodes : Text
  proargdefaultvals : Text

/- An element of argNamesArray, argTypesArray, argModesArray and argDefsArray. -/
structure Argument where
  name : Text
  type : Text
  mode : Text
  default : Text
  deriving DecidableEq, Repr

def IN : Text := "IN".toList
def OUT : Text := "OUT".toList
def INOUT : Text := "INOUT".toList
def VARIADIC : Text := "VARIADIC".toList
def TABLE : Text := "TABLE".toList

section Append
variable (typeCache : Text → Text)

def inner (tmp : Text) : Text := Mid tmp 1 (tmp.length - 2)

def argName (name : Text) : Text :=
  if name = [] then []
  else replaceAll ['\\', '"'] ['"'] (if name.head? = some '"' then Mid name 1 (name.length - 2) else name)

def argMode (mode : Text) : Text :=
  if mode = [] then []
  else if mode = ['o'] ∨ mode = ['2'] then OUT
  else if mode = ['b'] ∨ mode = ['3'] then INOUT
  else if mode = ['v'] then VARIADIC
  else if mode = ['t'] then TABLE
  else IN

def arguments : List Text → List Text → List Text → List Argument
  | [], _, _ => []
  | type :: types, names, modes =>
    ⟨argName (names.headD []), typeCache type, argMode (modes.headD []), []⟩ ::
      arguments types names.tail modes.tail

def isInput (mode : Text) : Bool := mode = [] || mode = IN || mode = INOUT || mode = VARIADIC

/- `-` stands for no default. -/
def argDef (value : Text) : Text := if value ≠ [] ∧ value ≠ ['-'] then value else []

/- The loop over the modes; nothing when an index past argDefValArray is used. -/
def addDefaults (argDefValArray : List Text) (nArgsIN currINindex : ℕ) : List Argument → Option (List Argument)
  | [] => some []
  | a :: rest =>
    if isInput a.mode then
      if argDefValArray ≠ [] ∧ nArgsIN ≤ argDefValArray.length then do
        let value ← argDefValArray[currINindex]?
        let rest ← addDefaults argDefValArray (nArgsIN - 1) (currINindex + 1) rest
        some ({ a with default := argDef value } :: rest)
      else do
        let rest ← addDefaults argDefValArray (nArgsIN - 1) currINindex rest
        some (a :: rest)
    else do
      let rest ← addDefaults argDefValArray nArgsIN currINindex rest
      some (a :: rest)

def AppendFunctions (row : Proc) : Option (List Argument) :=
  let argNamesArray := if row.proargnames = [] then [] else getArrayFromCommaSeparatedList (inner row.proargnames)
  let argTypes :=
    if row.proallargtypes = [] then Tokenizer.strtok ' ' row.proargtypes
    else Tokenizer.retEmpty ',' (inner row.proallargtypes)
  let argModes := if row.proargmodes = [] then [] else Tokenizer.retEmpty ',' (inner row.proargmodes)
  let args := arguments typeCache argTypes argNamesArray argModes
  addDefaults (getArrayFromCommaSeparatedList row.proargdefaultvals) (args.countP fun a => isInput a.mode) 0 args

end Append

section Show
variable (keyword : Text → Bool)

def argText (a : Argument) : Text :=
  let arg := a.mode
  let arg :=
    if a.name = [] then arg
    else if arg = [] then qtIdent keyword a.name
    else arg ++ ' ' :: qtIdent keyword a.name
  let arg := if arg ≠ [] then arg ++ ' ' :: a.type else a.type
  if isInput a.mode ∧ a.default ≠ [] then arg ++ " DEFAULT ".toList ++ a.default else arg

def separator (multiline : Bool) : Text := if multiline then ",\n    ".toList else ", ".toList

def argList (multiline : Bool) (args : Text) : List Argument → Text
  | [] => args
  | a :: rest =>
    if a.mode = TABLE then args
    else argList multiline ((if args ≠ [] then args ++ separator multiline else args) ++ argText keyword a) rest

def GetArgListWithNames (multiline : Bool) (arguments : List Argument) : Text :=
  let args := argList keyword multiline [] arguments
  let nArgs := (arguments.takeWhile fun a => a.mode ≠ TABLE).length
  if multiline ∧ nArgs > 1 then "\n    ".toList ++ args else args

end Show

/-! What the server stores for a function. -/

inductive Mode where
  | in
  | inout
  | out
  | variadic
  deriving DecidableEq, Repr

namespace Mode

def letter : Mode → Text
  | .in => ['i']
  | .inout => ['b']
  | .out => ['o']
  | .variadic => ['v']

def word : Mode → Text
  | .in => IN
  | .inout => INOUT
  | .out => OUT
  | .variadic => VARIADIC

end Mode

/- An expression as pg_get_expr prints it: quotes and round brackets are closed in it. -/
structure Expr where
  text : Text
  nonempty : text ≠ []
  trimmed : trimBoth text = text
  noDash : text ≠ ['-']
  balanced : Balanced text

structure Oid where
  digits : Text
  nonempty : digits ≠ []
  decimal : ∀ c ∈ digits, c.isDigit = true

structure Param where
  mode : Mode
  name : Text
  type : Oid
  default : Option Expr

structure Column where
  name : Text
  type : Oid

/- The parameters and the columns of the table it returns. Only inputs have defaults, and after an input that has one
all inputs have. -/
structure Function (typeCache : Text → Text) where
  params : List Param
  columns : List Column
  outputs : ∀ p ∈ params, p.mode = .out → p.default = none
  trailing : params.Pairwise fun p q => p.default.isSome → q.mode ≠ .out → q.default.isSome
  typed : ∀ p ∈ params, typeCache p.type.digits ≠ []

/- array_out writes an element in quotes when it is empty, is NULL or has a letter that the array needs. -/
def arrayElement (name : Text) : Text :=
  if name = [] ∨ name.map Char.toLower = "null".toList ∨
      name.any (fun c => c = '"' || c = '\\' || c = '{' || c = '}' || c = ',' || isSpace c) then
    '"' :: (name.flatMap fun c => if c = '"' ∨ c = '\\' then ['\\', c] else [c]) ++ ['"']
  else name

def braced (elements : List Text) : Text := '{' :: (listed [','] elements ++ ['}'])

namespace Function
variable {typeCache : Text → Text} (f : Function typeCache)

def allIn : Bool := f.params.all (fun p => p.mode = .in) && f.columns.isEmpty

def inputs : List Param := f.params.filter fun p => p.mode ≠ .out

def names : List Text := f.params.map Param.name ++ f.columns.map Column.name

def types : List Text := f.params.map (fun p => p.type.digits) ++ f.columns.map fun c => c.type.digits

def modes : List Text := f.params.map (fun p => p.mode.letter) ++ f.columns.map fun _ => ['t']

def defaults : List Text := f.params.filterMap fun p => p.default.map Expr.text

def proc : Proc where
  proargtypes := listed [' '] (f.inputs.map fun p => p.type.digits)
  proallargtypes := if f.allIn then [] else braced f.types
  proargnames := if f.names.all List.isEmpty then [] else braced (f.names.map arrayElement)
  proargmodes := if f.allIn then [] else braced f.modes
  proargdefaultvals := listed ", ".toList f.defaults

end Function

structure Same (typeCache : Text → Text) (p : Param) (a : Argument) : Prop where
  name : a.name = p.name
  type : a.type = typeCache p.type.digits
  mode : a.mode = p.mode.word ∨ (a.mode = [] ∧ p.mode = .in)
  default : a.default = (p.default.map Expr.text).getD []

/- A text is the parameter in the syntax of CREATE FUNCTION: mode, name, type and default, of which all but the type
may be missing. -/
def Writes (keyword : Text → Bool) (typeCache : Text → Text) (p : Param) (text : Text) : Prop :=
  ∃ mode name default, text = mode ++ name ++ typeCache p.type.digits ++ default ∧
    (mode = p.mode.word ++ [' '] ∨ (mode = [] ∧ p.mode = .in)) ∧
    ((name = [] ∧ p.name = []) ∨ ∃ ident, name = ident ++ [' '] ∧ read keyword ident = some p.name) ∧
    default = (p.default.map fun e => " DEFAULT ".toList ++ e.text).getD []

/- The list shown is that of the parameters of the function, whatever else it returns. -/
structure Faithful (keyword : Text → Bool) {typeCache : Text → Text} (f : Function typeCache) (multiline : Bool)
    (arguments : List Argument) : Prop where
  arrays : List.Forall₂ (Same typeCache) f.params (arguments.takeWhile fun a => a.mode ≠ TABLE)
  text : ∃ texts, List.Forall₂ (Writes keyword typeCache) f.params texts ∧
    GetArgListWithNames keyword multiline arguments =
      (if multiline ∧ texts.length > 1 then "\n    ".toList else []) ++ listed (separator multiline) texts

end PgAdmin.pgFunction
