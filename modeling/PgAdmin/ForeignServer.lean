import PgAdmin.CommaSeparatedList
import PgAdmin.DesignNetwork
import PgAdmin.Identifier
import PgAdmin.KeyedUpdates
import PgAdmin.PlainLiteral
import PgAdmin.Tokenizer

/-! The dialog for a foreign server: the options as one text, the rows it is split into, and the statements for what was
edited. -/
namespace PgAdmin.dlgForeignServer
open PgsObjects (Text)
open wxString (BeforeFirst AfterFirst)
open misc (trimBoth)
open KeyedTable (find)

/- What the server holds of a foreign server. -/
structure Server where
  keyword : Text → Bool
  literals : SqlLiteral.Server
  minimum92 : Bool
  -- names of other foreign servers
  taken : Text → Bool
  -- what the wrapper takes as an option
  accepts : Text → Text → Bool

structure Stored where
  name : Text
  version : Text
  options : List (Text × Text)
  named : name ≠ []
  keys : (options.map Prod.fst).Nodup
  given : ∀ option ∈ options, option.1 ≠ []

structure Dialog where
  txtName : Text
  txtVersion : Text
  lstOptions : List (Text × Text)

section Options

/- array_to_string(srvoptions, ',') -/
def joined (options : List (Text × Text)) : Text :=
  List.intercalate [','] (options.map fun option => option.1 ++ '=' :: option.2)

def optionTexts : ℕ → Text → List Text
  | 0, _ => []
  | fuel + 1, options =>
    if options = [] then [] else BeforeFirst options ',' :: optionTexts fuel (AfterFirst options ',')

def optionRow (option : Text) : Text × Text := (trimBoth (BeforeFirst option '='), trimBoth (AfterFirst option '='))

def optionRows (options : Text) : List (Text × Text) := (optionTexts options.length options).map optionRow

/- pgForeignServer::GetCreateOptions: the tokens of each token, the first one and the second one. -/
def createOption (token : Text) : Text × Text :=
  let tokens := Tokenizer.retEmpty '=' token
  (tokens.headD [], SqlLiteral.between (tokens.tail.headD []))

def createOptions (options : Text) : List (Text × Text) := (Tokenizer.retEmpty ',' options).map createOption

def GetCreateOptions (options : Text) : Text :=
  List.intercalate [','] ((createOptions options).map fun option => option.1 ++ ' ' :: option.2)

end Options

section Editing

def opened (stored : Stored) : Dialog := ⟨stored.name, stored.version, optionRows (joined stored.options)⟩

def setFirst (option value : Text) : List (Text × Text) → List (Text × Text)
  | [] => [(option, value)]
  | row :: rows =>
    if ddNetwork.sameNoCase row.1 option then (row.1, value) :: rows else row :: setFirst option value rows

inductive Edit where
  | name (txtName : Text)
  | version (txtVersion : Text)
  | addOption (txtOption txtValue : Text)
  | removeOption (sel : ℕ)

def Edit.apply (server : Server) (d : Dialog) : Edit → Dialog
  | .name txtName => if server.minimum92 then { d with txtName := txtName } else d
  | .version txtVersion => { d with txtVersion := txtVersion }
  | .addOption txtOption txtValue =>
    if txtOption = [] then d else { d with lstOptions := setFirst txtOption txtValue d.lstOptions }
  | .removeOption sel => { d with lstOptions := d.lstOptions.eraseIdx sel }

def session (server : Server) (stored : Stored) (edits : List Edit) : Dialog :=
  edits.foldl (fun d edit => edit.apply server d) (opened stored)

def GetName (stored : Stored) (d : Dialog) : Text := if stored.name = d.txtName then d.txtName else trimBoth d.txtName

end Editing

section Statements
variable (server : Server) (stored : Stored) (d : Dialog)

inductive OptionChange where
  | set (option value : Text)
  | drop (option : Text)
  | add (option value : Text)

def OptionChange.text : OptionChange → Text
  | .set option value => "SET ".toList ++ option ++ ' ' :: value
  | .drop option => "DROP ".toList ++ option
  | .add option value => "ADD ".toList ++ option ++ ' ' :: value

def optionChanges (options : Text) (rows : List (Text × Text)) : List OptionChange :=
  ((optionRows options).flatMap fun option =>
    match rows.find? fun row => row.1 = option.1 with
    | some row => if row.2 ≠ option.2 then [.set option.1 (SqlLiteral.between row.2)] else []
    | none => [.drop option.1]) ++
  rows.flatMap fun row =>
    if (optionRows options).any fun option => row.1 = option.1 then []
    else [.add row.1 (SqlLiteral.between row.2)]

def GetOptionsSql : Text :=
  List.intercalate ", ".toList ((optionChanges (joined stored.options) d.lstOptions).map OptionChange.text)

inductive Statement where
  | rename (name newName : Text)
  | version (name newVersion : Text)
  | options (name : Text) (changes : List OptionChange)

def Statement.text : Statement → Text
  | .rename name newName => "ALTER SERVER ".toList ++ name ++ "\n  RENAME TO ".toList ++ newName ++ ";\n".toList
  | .version name newVersion =>
    "ALTER SERVER ".toList ++ name ++ "\n  VERSION ".toList ++ newVersion ++ ";\n".toList
  | .options name changes =>
    "ALTER SERVER ".toList ++ name ++ "\n  OPTIONS (".toList ++
      List.intercalate ", ".toList (changes.map OptionChange.text) ++ ");\n".toList

def qtIdent : Text → Text := Identifier.qtIdent server.keyword

/- dlgProperty::AppendNameChange -/
def nameChange : List Statement :=
  if stored.name ≠ GetName stored d then [.rename (qtIdent server stored.name) (qtIdent server (GetName stored d))]
  else []

/- dlgForeignServer::GetSql without the owner: the statement for the version takes the place of what was there. -/
def statements : List Statement :=
  let sql := nameChange server stored d
  let sql := if d.txtVersion ≠ stored.version then
      [.version (qtIdent server d.txtName) (SqlLiteral.qtDbString server.literals d.txtVersion)]
    else sql
  let changes := optionChanges (joined stored.options) d.lstOptions
  if changes ≠ [] then sql ++ [.options d.txtName changes] else sql

end Statements

section Execution
variable (server : Server)

structure Database where
  name : Text
  version : Text
  options : Text → Option Text

def label (option : Text) : Option Text := Identifier.read (fun _ => false) option

def literal (value : Text) : Option Text :=
  match SqlLiteral.read server.literals value with
  | some (text, []) => some text
  | _ => none

def assign (options : Text → Option Text) (option value : Text) : Option (Text → Option Text) :=
  if server.accepts option value then some (Function.update options option (some value)) else none

def OptionChange.execute (options : Text → Option Text) : OptionChange → Option (Text → Option Text)
  | .set option value => do
    let option ← label option
    let value ← literal server value
    if (options option).isSome then assign server options option value else none
  | .drop option => do
    let option ← label option
    if (options option).isSome then some (Function.update options option none) else none
  | .add option value => do
    let option ← label option
    let value ← literal server value
    if (options option).isSome then none else assign server options option value

def Statement.execute (db : Database) : Statement → Option Database
  | .rename name newName =>
    if Identifier.read server.keyword name = some db.name then do
      let newName ← Identifier.read server.keyword newName
      if server.taken newName then none else some { db with name := newName }
    else none
  | .version name newVersion =>
    if Identifier.read server.keyword name = some db.name then do
      return { db with version := ← literal server newVersion }
    else none
  | .options name changes =>
    -- the name stands without quotes, so blanks around it are not part of it
    if Identifier.read server.keyword (trimBoth name) = some db.name then do
      return { db with options := ← changes.foldlM (fun options change => change.execute server options) db.options }
    else none

def Stored.database (stored : Stored) : Database :=
  ⟨stored.name, stored.version, fun option => find option stored.options⟩

/- Executed, the statements leave what is in the dialog. -/
def Saved (stored : Stored) (d : Dialog) : Prop :=
  ∃ after, (statements server stored d).foldlM (fun db statement => statement.execute server db) stored.database =
      some after ∧
    after.name = GetName stored d ∧ after.version = d.txtVersion ∧
    ∀ option value, after.options option = some value ↔ (option, value) ∈ d.lstOptions

/- The options of CREATE SERVER are read as the options there are. -/
def Created (stored : Stored) : Prop :=
  (createOptions (joined stored.options)).mapM (fun option => do
    return (← label option.1, ← literal server option.2)) = some stored.options

end Execution

end PgAdmin.dlgForeignServer
