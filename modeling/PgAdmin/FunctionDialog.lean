import PgAdmin.DollarLiteral
import PgAdmin.ForeignServer
import PgAdmin.RoleDialog
import PgAdmin.TypeModifiers

/-! The dialog for a function that there is: what is edited in it, and the statements for what was edited. Each of them
names the function it is for. -/
namespace PgAdmin.dlgFunction
open PgsObjects (Text)
open wxString (BeforeFirst AfterFirst)
open misc (trimBoth)
open ddNetwork (sameNoCase)
open pgDatatype (NumToStr)
open dlgRole (enteredValue assigned valueOf)

inductive Volatility where
  | VOLATILE
  | STABLE
  | IMMUTABLE
  deriving DecidableEq

def Volatility.text : Volatility → Text
  | .VOLATILE => "VOLATILE".toList
  | .STABLE => "STABLE".toList
  | .IMMUTABLE => "IMMUTABLE".toList

structure Argument where
  type : Text
  mode : Text
  name : Text
  defaultValue : Text

/- What CREATE FUNCTION says of a function. The arguments are the list with names that is shown for it; for a function
in C, the source is the symbol in the object file. -/
structure Definition where
  arguments : Text
  returns : Text
  language : Text
  volatility : Volatility
  window : Bool
  leakProof : Bool
  strict : Bool
  secureDefiner : Bool
  source : Text
  bin : Text
  cost : ℕ
  rows : ℕ

def isC (language : Text) : Bool := sameNoCase language "C".toList

def lower (name : Text) : Text := name.map Char.toLower

/- The server that reads the statements; what it knows of roles and settings is as in the dialog for a role. -/
structure Server extends dlgRole.Server where
  version : ℕ × ℕ
  edbMinimum90 : Bool
  defaultSchema : Text
  -- where functions are looked for, and where they are created, when no schema is written
  path : List Text
  creation : Option Text
  schemaExists : Text → Bool
  -- schemas and names of the other functions with the types of the one edited
  taken : Text → Text → Bool
  -- the types a list of arguments stands for, and the list as it is shown afterwards
  types : Text → Option (List Text)
  arguments : Text → Option Text
  result : Text → Option Text
  number : Text → Option ℕ
  defaultCost : Text → ℕ
  defaultRows : Bool → ℕ
  -- whether a function can be replaced by another one
  replaceable : Definition → Definition → Bool
  -- names of settings are the same in upper and lower case
  cased : ∀ name key, setting name = some key → key = lower name

def BackendMinimumVersion (server : Server) (major minor : ℕ) : Bool :=
  major < server.version.1 ∨ major = server.version.1 ∧ minor ≤ server.version.2

def configItem (row : Text × Text) : Text := row.1 ++ '=' :: row.2

/- A function, as the server has it and as it has been loaded, with a whole number for its cost. The dialog is opened
for a node of a schema, of a trigger, whose table may be in another schema, or of an event trigger, which has no
schema. -/
structure Stored (server : Server) where
  name : Text
  schema : Text
  owner : Text
  definition : Definition
  types : List Text
  setof : Bool
  argumentRows : List Argument
  config : List (Text × Text)
  nodeSchema : Option Text
  named : name ≠ []
  keys : (config.map fun row => lower row.1).Nodup
  settings : ∀ row ∈ config, '=' ∉ row.1
  plain : isC definition.language = false → definition.bin = []
  linked : isC definition.language = true → definition.source ≠ []
  sealed : BackendMinimumVersion server 9 2 = false → definition.leakProof = false
  cost : if BackendMinimumVersion server 8 3 then server.number (NumToStr definition.cost) = some definition.cost
    else definition.cost = server.defaultCost definition.language
  rows : if BackendMinimumVersion server 8 3 ∧ setof = true then
      server.number (NumToStr definition.rows) = some definition.rows
    else definition.rows = server.defaultRows setof

structure Dialog where
  txtName : Text
  cbSchema : Text
  cbOwner : Text
  cbLanguage : Text
  cbVolatility : Volatility
  chkLeakProof : Bool
  chkStrict : Bool
  chkSecureDefiner : Bool
  lstArguments : List Argument
  txtObjectFile : Text
  txtLinkSymbol : Text
  txtSqlBox : Text
  txtCost : Text
  txtRows : Text
  lstVariables : List (Text × Text)

section Editing
variable {server : Server} (stored : Stored server)

def configList : List Text := stored.config.map configItem

def loadedVariables : List (Text × Text) :=
  (configList stored).map fun item => (BeforeFirst item '=', AfterFirst item '=')

/- dlgFunction::Go, in edit mode -/
def opened : Dialog where
  txtName := stored.name
  cbSchema := stored.schema
  cbOwner := stored.owner
  cbLanguage := stored.definition.language
  cbVolatility := stored.definition.volatility
  chkLeakProof := stored.definition.leakProof
  chkStrict := stored.definition.strict
  chkSecureDefiner := stored.definition.secureDefiner
  lstArguments := stored.argumentRows
  txtObjectFile := if isC stored.definition.language then stored.definition.bin else []
  txtLinkSymbol := if isC stored.definition.language then stored.definition.source else []
  txtSqlBox := if isC stored.definition.language then [] else stored.definition.source
  txtCost := if BackendMinimumVersion server 8 3 then NumToStr stored.definition.cost else []
  txtRows := if BackendMinimumVersion server 8 3 ∧ stored.setof = true then NumToStr stored.definition.rows else []
  lstVariables := loadedVariables stored

def GetSelectedDirection (mode : Text) : Text := if mode = [] then "IN".toList else mode

def OnChangeArg (server : Server) (row : ℕ) (txtArgName txtArgDefVal : Text) (d : Dialog) : Dialog :=
  match d.lstArguments[row]? with
  | none => d
  | some argument =>
    if argument.mode = "VARIADIC".toList ∧ ¬"[]".toList <:+ argument.type then d
    else { d with lstArguments := d.lstArguments.set row { argument with
      mode := GetSelectedDirection argument.mode
      name := if BackendMinimumVersion server 8 0 then txtArgName else argument.name
      defaultValue :=
        if BackendMinimumVersion server 8 4 ∧ (argument.mode = "IN".toList ∨ argument.mode = []) then txtArgDefVal
        else argument.defaultValue } }

def OnVarAdd (cbVarname : Text) (chkValue : Option Bool) (txtValue : Text) (d : Dialog) : Dialog :=
  if cbVarname = [] then d
  else { d with
    lstVariables := dlgForeignServer.setFirst cbVarname (enteredValue chkValue txtValue) d.lstVariables }

inductive Edit where
  | name (txtName : Text)
  | schema (cbSchema : Text)
  | owner (cbOwner : Text)
  | language (cbLanguage : Text)
  | volatility (cbVolatility : Volatility)
  | leakProof (chkLeakProof : Bool)
  | strict (chkStrict : Bool)
  | secureDefiner (chkSecureDefiner : Bool)
  | argument (row : ℕ) (txtArgName txtArgDefVal : Text)
  | objectFile (txtObjectFile : Text)
  | linkSymbol (txtLinkSymbol : Text)
  | sqlBox (txtSqlBox : Text)
  | cost (txtCost : Text)
  | rows (txtRows : Text)
  | varAdd (cbVarname : Text) (chkValue : Option Bool) (txtValue : Text)
  | varRemove (pos : ℕ)

def Edit.apply (d : Dialog) : Edit → Dialog
  | .name txtName => if BackendMinimumVersion server 7 4 then { d with txtName := txtName } else d
  | .schema cbSchema => if BackendMinimumVersion server 8 1 then { d with cbSchema := cbSchema } else d
  | .owner cbOwner => if BackendMinimumVersion server 8 0 then { d with cbOwner := cbOwner } else d
  | .language cbLanguage => { d with cbLanguage := cbLanguage }
  | .volatility cbVolatility => { d with cbVolatility := cbVolatility }
  | .leakProof chkLeakProof => if BackendMinimumVersion server 9 2 then { d with chkLeakProof := chkLeakProof } else d
  | .strict chkStrict => { d with chkStrict := chkStrict }
  | .secureDefiner chkSecureDefiner => { d with chkSecureDefiner := chkSecureDefiner }
  | .argument row txtArgName txtArgDefVal => OnChangeArg server row txtArgName txtArgDefVal d
  | .objectFile txtObjectFile => { d with txtObjectFile := txtObjectFile }
  | .linkSymbol txtLinkSymbol => { d with txtLinkSymbol := txtLinkSymbol }
  | .sqlBox txtSqlBox => { d with txtSqlBox := txtSqlBox }
  | .cost txtCost => if BackendMinimumVersion server 8 3 then { d with txtCost := txtCost } else d
  | .rows txtRows =>
    if BackendMinimumVersion server 8 3 ∧ stored.setof = true then { d with txtRows := txtRows } else d
  | .varAdd cbVarname chkValue txtValue =>
    if BackendMinimumVersion server 8 3 then OnVarAdd cbVarname chkValue txtValue d else d
  | .varRemove pos =>
    if BackendMinimumVersion server 8 3 then { d with lstVariables := d.lstVariables.eraseIdx pos } else d

def session (edits : List Edit) : Dialog := edits.foldl (fun d edit => edit.apply stored d) (opened stored)

def GetName (d : Dialog) : Text := if stored.name = d.txtName then d.txtName else trimBoth d.txtName

end Editing

section Statements
variable (server : Server)

def qtIdent : Text → Text := Identifier.qtIdent server.keyword

def OUT : Text := "OUT".toList

def argumentText (edbspl withNames inOnly : Bool) (argument : Argument) : Text :=
  (if (!inOnly || !edbspl || argument.mode ≠ OUT || server.edbMinimum90) ∧ BackendMinimumVersion server 8 1 ∧
    argument.mode ≠ [] then argument.mode ++ [' '] else []) ++
  (if BackendMinimumVersion server 8 0 ∧ withNames = true ∧ argument.name ≠ [] then
    qtIdent server argument.name ++ [' '] else []) ++
  argument.type ++
  (if withNames = true ∧ BackendMinimumVersion server 8 4 ∧ argument.defaultValue ≠ [] then
    " DEFAULT ".toList ++ argument.defaultValue else [])

def edbspl (d : Dialog) : Bool := d.cbLanguage = "edbspl".toList

def GetArgs (withNames inOnly : Bool) (d : Dialog) : Text :=
  d.lstArguments.foldl (fun args argument =>
    if !edbspl d ∧ inOnly ∧ argument.mode = OUT then args
    else (if args ≠ [] ∧ ¬", ".toList <:+ args then args ++ ", ".toList else args) ++
      argumentText server (edbspl d) withNames inOnly argument) []

/- pgFunction::GetArgSigList -/
def GetArgSigList (language : Text) (arguments : List Argument) : Text :=
  arguments.foldl (fun args argument =>
    if argument.mode ≠ OUT ∨ language = "edbspl".toList ∧ server.edbMinimum90 = false then
      (if args ≠ [] then args ++ ", ".toList else args) ++ argument.type
    else args) []

/- pgDatabase::GetQuotedSchemaPrefix: the schema that is written before a name, if there is one. -/
def GetQuotedPrefix (schema : Text) : Option Text :=
  if schema = [] ∨ schema = "pg_catalog".toList ∨ schema = server.defaultSchema then none
  else some (qtIdent server schema)

structure Address where
  schema : Option Text
  name : Text
  arguments : Text

def Address.text (a : Address) : Text :=
  a.schema.elim [] (· ++ ['.']) ++ a.name ++ '(' :: a.arguments ++ [')']

structure Clauses where
  returns : Text
  literals : List Text
  language : Text
  window : Bool
  volatility : Volatility
  leakProof : Option Bool
  strict : Bool
  secureDefiner : Bool
  cost : Option Text
  rows : Option Text

def Clauses.text (c : Clauses) : Text :=
  " RETURNS ".toList ++ c.returns ++ " AS\n".toList ++ List.intercalate ", ".toList c.literals ++
    "\nLANGUAGE ".toList ++ c.language ++ (if c.window then " WINDOW ".toList else [' ']) ++ c.volatility.text ++
    c.leakProof.elim [] (fun leakProof => (if leakProof then [] else " NOT".toList) ++ " LEAKPROOF".toList) ++
    (if c.strict then " STRICT".toList else []) ++
    (if c.secureDefiner then " SECURITY DEFINER".toList else []) ++
    c.cost.elim [] ("\nCOST ".toList ++ ·) ++ c.rows.elim [] ("\nROWS ".toList ++ ·) ++ ";\n".toList

inductive Statement where
  | rename (function : Address) (newName : Text)
  | replace (function : Address) (clauses : Clauses)
  | owner (function : Address) (newOwner : Text)
  | schema (function : Address) (newSchema : Text)
  | set (function : Address) (setting value : Text)
  | reset (function : Address) (setting : Text)

def Statement.text : Statement → Text
  | .rename function newName =>
    "ALTER FUNCTION ".toList ++ function.text ++ "\n  RENAME TO ".toList ++ newName ++ ";\n".toList
  | .replace function clauses => "CREATE OR REPLACE FUNCTION ".toList ++ function.text ++ clauses.text
  | .owner function newOwner =>
    "ALTER FUNCTION ".toList ++ function.text ++ "\n  OWNER TO ".toList ++ newOwner ++ ";\n".toList
  | .schema function newSchema =>
    "ALTER FUNCTION ".toList ++ function.text ++ "\n  SET SCHEMA ".toList ++ newSchema ++ ";\n".toList
  | .set function name value =>
    "ALTER FUNCTION ".toList ++ function.text ++ "\n  SET ".toList ++ name ++ '=' :: value ++ ";\n".toList
  | .reset function name =>
    "ALTER FUNCTION ".toList ++ function.text ++ "\n  RESET ".toList ++ name ++ ";\n".toList

section Sql
variable {server : Server} (stored : Stored server) (d : Dialog)

def didChange : Bool :=
  d.cbLanguage ≠ stored.definition.language ∨ d.cbVolatility ≠ stored.definition.volatility ∨
    d.chkSecureDefiner ≠ stored.definition.secureDefiner ∨ d.chkStrict ≠ stored.definition.strict ∨
    GetArgs server true false d ≠ stored.definition.arguments ∨ d.chkLeakProof ≠ stored.definition.leakProof ∨
    isC d.cbLanguage = true ∧
      (d.txtObjectFile ≠ stored.definition.bin ∨ d.txtLinkSymbol ≠ stored.definition.source) ∨
    isC d.cbLanguage = false ∧ d.txtSqlBox ≠ stored.definition.source ∨
    BackendMinimumVersion server 8 3 ∧
      (d.txtCost ≠ NumToStr stored.definition.cost ∨
        stored.setof = true ∧ d.txtRows ≠ NumToStr stored.definition.rows)

def bodyLiteral (server : Server) (value : Text) : Text :=
  if BackendMinimumVersion server 7 5 then (DollarLiteral.qtDbStringDollar (value.length + 1) value).getD []
  else SqlLiteral.qtDbString server.literals value

def costText (server : Server) (d : Dialog) : Option Text :=
  if BackendMinimumVersion server 8 3 ∧ d.txtCost ≠ [] then some d.txtCost else none

def rowsText : Option Text :=
  if BackendMinimumVersion server 8 3 ∧ stored.setof = true ∧ d.txtRows ≠ [] then some d.txtRows else none

def clauses : Clauses where
  returns := stored.definition.returns
  literals :=
    if isC d.cbLanguage then
      SqlLiteral.qtDbString server.literals d.txtObjectFile ::
        (if d.txtLinkSymbol ≠ [] then [SqlLiteral.qtDbString server.literals d.txtLinkSymbol] else [])
    else [bodyLiteral server d.txtSqlBox]
  language := d.cbLanguage
  window := stored.definition.window
  volatility := d.cbVolatility
  leakProof := if BackendMinimumVersion server 9 2 then some d.chkLeakProof else none
  strict := d.chkStrict
  secureDefiner := d.chkSecureDefiner
  cost := costText server d
  rows := rowsText stored d

def writtenSchema : Text := stored.nodeSchema.getD stored.schema

def nameChange : List Statement :=
  if GetName stored d ≠ stored.name then
    [.rename ⟨GetQuotedPrefix server stored.schema, qtIdent server stored.name,
      GetArgSigList server stored.definition.language stored.argumentRows⟩ (qtIdent server (GetName stored d))]
  else []

def definitionChange : List Statement :=
  if didChange stored d then
    [.replace ⟨GetQuotedPrefix server (writtenSchema stored), qtIdent server (GetName stored d),
      GetArgs server true false d⟩ (clauses stored d)]
  else []

def function : Address :=
  ⟨GetQuotedPrefix server (writtenSchema stored), qtIdent server (GetName stored d), GetArgs server false true d⟩

/- dlgProperty::AppendOwnerChange -/
def ownerChange : List Statement :=
  if stored.owner ≠ d.cbOwner then [.owner (function stored d) (qtIdent server d.cbOwner)] else []

/- dlgProperty::AppendSchemaChange -/
def schemaChange : List Statement :=
  if stored.schema ≠ d.cbSchema then [.schema (function stored d) (qtIdent server d.cbSchema)] else []

def isOf (name item : Text) : Bool := sameNoCase (BeforeFirst item '=') name

def oldValue (name : Text) (vars : List Text) : Text :=
  ((vars.find? (isOf name)).map fun item => item.drop (name.length + 1)).getD []

def variableTurn (row : Text × Text) (vars : List Text) : List Statement × List Text :=
  (if oldValue row.1 vars ≠ row.2 ∨ didChange stored d then
    [.set (function stored d) row.1 (assigned row.1 row.2)] else [],
    vars.eraseP (isOf row.1))

def variableLoop : List (Text × Text) → List Text → List Statement × List Text
  | [], vars => ([], vars)
  | row :: rows, vars =>
    let (here, vars) := variableTurn stored d row vars
    let (behind, vars) := variableLoop rows vars
    (here ++ behind, vars)

def variableChange : List Statement :=
  let (changes, vars) := variableLoop stored d d.lstVariables (configList stored)
  changes ++ vars.map fun item => .reset (function stored d) (BeforeFirst item '=')

/- dlgFunction::GetSql in edit mode, before the privileges -/
def statements : List Statement :=
  nameChange stored d ++ (definitionChange stored d ++
    (ownerChange stored d ++ (schemaChange stored d ++ variableChange stored d)))

def GetSql : Text := (statements stored d).flatMap Statement.text

end Sql

end Statements

section Execution
variable (server : Server)

structure Database where
  name : Text
  schema : Text
  owner : Text
  types : List Text
  definition : Definition
  settings : Text → Option Text

def schemaOf (db : Database) (a : Address) : Option Text :=
  match a.schema with
  | some schema => Identifier.read server.keyword schema
  | none => server.path.find? fun schema => schema = db.schema ∨ server.taken schema db.name

def named (db : Database) (a : Address) : Bool :=
  Identifier.read server.keyword a.name = some db.name ∧ server.types a.arguments = some db.types

def addressed (db : Database) (a : Address) : Bool := named server db a ∧ schemaOf server db a = some db.schema

def creationOf (a : Address) : Option Text :=
  match a.schema with
  | some schema => Identifier.read server.keyword schema
  | none => server.creation

def literalOf (text : Text) : Option Text :=
  match text with
  | '$' :: s =>
    if BackendMinimumVersion server 7 5 then
      ((DollarLiteral.read ('$' :: s)).filter fun found => found.2 = []).map Prod.fst
    else none
  | s => ((SqlLiteral.read server.literals s).filter fun found => found.2 = []).map Prod.fst

def codeOf (name language : Text) (literals : List Text) : Option (Text × Text) := do
  match ← literals.mapM (literalOf server) with
  | [text] => return if isC language then (name, text) else (text, [])
  | [object, symbol] => if isC language then some (symbol, object) else none
  | _ => none

def estimate (text : Option Text) (default : ℕ) : Option ℕ := text.elim (some default) server.number

def definitionOf (name arguments : Text) (setof : Bool) (c : Clauses) : Option Definition := do
  let arguments ← server.arguments arguments
  let returns ← server.result c.returns
  let language ← Identifier.read server.keyword c.language
  let code ← codeOf server name language c.literals
  let cost ← estimate server c.cost (server.defaultCost language)
  let rows ← estimate server c.rows (server.defaultRows setof)
  return ⟨arguments, returns, language, c.volatility, c.window, c.leakProof.getD false, c.strict, c.secureDefiner,
    code.1, code.2, cost, rows⟩

/- A function that is replaced has no settings. A statement for another function, or for none, fails here. -/
def Statement.execute (setof : Bool) (db : Database) : Statement → Option Database
  | .rename function newName =>
    if addressed server db function then do
      let newName ← Identifier.read server.keyword newName
      if server.taken db.schema newName then none else some { db with name := newName }
    else none
  | .replace function clauses =>
    if named server db function ∧ creationOf server function = some db.schema then do
      let definition ← definitionOf server db.name function.arguments setof clauses
      if server.replaceable db.definition definition then
        some { db with definition := definition, settings := fun _ => none }
      else none
    else none
  | .owner function newOwner =>
    if addressed server db function then do
      return { db with owner := ← dlgRole.roleOf server.toServer newOwner }
    else none
  | .schema function newSchema =>
    if addressed server db function then do
      let newSchema ← (Identifier.read server.keyword newSchema).filter (server.schemaExists ·)
      if server.taken newSchema db.name then none else some { db with schema := newSchema }
    else none
  | .set function setting value =>
    if addressed server db function then do
      let key ← server.setting setting
      return { db with settings := Function.update db.settings key (some (← valueOf server.toServer key value)) }
    else none
  | .reset function setting =>
    if addressed server db function then do
      return { db with settings := Function.update db.settings (← server.setting setting) none }
    else none

end Execution

section Purpose
variable {server : Server} (stored : Stored server) (d : Dialog)

def keyed (rows : List (Text × Text)) : List (Text × Text) := rows.map fun row => (lower row.1, row.2)

def Stored.database : Database where
  name := stored.name
  schema := stored.schema
  owner := stored.owner
  types := stored.types
  definition := stored.definition
  settings key := KeyedTable.find key (keyed stored.config)

def executed (statements : List Statement) (db : Database) : Option Database :=
  statements.foldlM (fun db statement => statement.execute server stored.setof db) db

/- The definition in the dialog. An empty cost or number of rows is that of a new function, and an empty symbol is the
name. -/
def definition : Option Definition := do
  let cost ← estimate server (costText server d) (server.defaultCost d.cbLanguage)
  let rows ← estimate server (rowsText stored d) (server.defaultRows stored.setof)
  return {
    arguments := GetArgs server true false d
    returns := stored.definition.returns
    language := d.cbLanguage
    volatility := d.cbVolatility
    window := stored.definition.window
    leakProof := d.chkLeakProof
    strict := d.chkStrict
    secureDefiner := d.chkSecureDefiner
    source :=
      if isC d.cbLanguage then if d.txtLinkSymbol = [] then GetName stored d else d.txtLinkSymbol else d.txtSqlBox
    bin := if isC d.cbLanguage then d.txtObjectFile else []
    cost := cost
    rows := rows }

/- Executed, the statements leave what is in the dialog. -/
def Saved : Prop :=
  ∃ after, executed stored (statements stored d) stored.database = some after ∧ after.name = GetName stored d ∧
    after.schema = d.cbSchema ∧ after.owner = d.cbOwner ∧ definition stored d = some after.definition ∧
    ∀ key value, after.settings key = some value ↔ (key, value) ∈ keyed d.lstVariables

end Purpose

end PgAdmin.dlgFunction
