import PgAdmin.CommaSeparatedList
import PgAdmin.Identifier
import PgAdmin.KeyedUpdates
import PgAdmin.SqlLiteral

/-! The dialog for a role: its memberships and settings as they are listed and edited, and the statements for what was
edited. -/
namespace PgAdmin.dlgRole
open PgsObjects (Text)
open misc (trimBoth)
open Substitution (replaceAll)

/- PGROLE_ADMINOPTION -/
def mark : Text := "(*)".toList

def shown (membership : Text × Bool) : Text := if membership.2 then membership.1 ++ mark else membership.1

/- roleName.Right(PGROLE_ADMINOPTION_LEN) == PGROLE_ADMINOPTION -/
def marked (roleName : Text) : Bool := decide (roleName.drop (roleName.length - mark.length) = mark)

def unmarked (roleName : Text) : Text := roleName.take (roleName.length - mark.length)

/- The server that reads the statements, and the roles and databases it knows. Circular roles are members of the one
edited: they cannot be granted to it. -/
structure Server where
  keyword : Text → Bool
  literals : SqlLiteral.Server
  roleExists : Text → Bool
  circular : Text → Bool
  databaseExists : Text → Bool
  -- the setting a name stands for
  setting : Text → Option Text
  -- what is stored for a literal, and for a list that is no literal
  literalValue : Text → Text → Option Text
  listValue : Text → Text → Option Text

abbrev Setting := Text × Text

/- A role, the other roles the dialog offers, and what is set for the role in each database. -/
structure Stored (server : Server) where
  name : Text
  rolesIn : List (Text × Bool)
  rolesNotIn : List Text
  Variables : List (Setting × Text)
  named : name ≠ []
  distinct : (rolesIn.map Prod.fst ++ rolesNotIn).Nodup
  known : ∀ role ∈ rolesIn.map Prod.fst ++ rolesNotIn, role ≠ [] ∧ server.roleExists role = true
  acyclic : ∀ role ∈ rolesIn.map Prod.fst, server.circular role = false
  keys : (Variables.map Prod.fst).Nodup

structure Dialog where
  readOnly : Bool
  lbRolesIn : List Text
  lbRolesNotIn : List Text
  lstVariables : List (Setting × Text)

section Editing
variable (sorted : Text → Text → Bool)

def Append {α : Type} (text : α → Text) (item : α) (items : List α) : List α :=
  items.takeWhile (fun other => sorted (text other) (text item)) ++
    item :: items.dropWhile (fun other => sorted (text other) (text item))

/- replace(config, split_part(config, '=', 1) || '=', ''), for the configuration text of a setting -/
def loadedValue (row : Setting × Text) : Text :=
  replaceAll (row.1.2 ++ ['=']) [] (row.1.2 ++ ['='] ++ row.2)

/- pgRole::ShowTreeDetail -/
def loadedVariables (rows : List (Setting × Text)) : List (Setting × Text) :=
  rows.map fun row => (row.1, loadedValue row)

def opened {server : Server} (readOnly : Bool) (stored : Stored server) : Dialog where
  readOnly := readOnly
  lbRolesIn := (stored.rolesIn.map shown).foldl (fun items item => Append sorted id item items) []
  lbRolesNotIn := stored.rolesNotIn.foldl (fun items item => Append sorted id item items) []
  lstVariables := loadedVariables stored.Variables

def OnRoleAdd (pos : ℕ) (chkAdminOption : Bool) (d : Dialog) : Dialog :=
  if d.readOnly then d
  else match d.lbRolesNotIn[pos]? with
    | some roleName =>
      let roleName := if chkAdminOption then roleName ++ mark else roleName
      { d with lbRolesIn := Append sorted id roleName d.lbRolesIn, lbRolesNotIn := d.lbRolesNotIn.eraseIdx pos }
    | none => d

def OnRoleRemove (pos : ℕ) (d : Dialog) : Dialog :=
  if d.readOnly then d
  else match d.lbRolesIn[pos]? with
    | some role =>
      let role := if marked role then unmarked role else role
      { d with lbRolesNotIn := Append sorted id role d.lbRolesNotIn, lbRolesIn := d.lbRolesIn.eraseIdx pos }
    | none => d

def enteredValue (chkValue : Option Bool) (txtValue : Text) : Text :=
  let value := match chkValue with
    | some true => "on".toList
    | some false => "off".toList
    | none => trimBoth txtValue
  if value = [] then "DEFAULT".toList else value

def prevpos (key : Setting) (rows : List (Setting × Text)) : Option ℕ :=
  (rows.zipIdx.filter fun row => row.1.1.2 = key.2 ∧ row.1.1.1 ≠ key.1).getLast?.map Prod.snd

def variableAdded (key : Setting) (value : Text) (rows : List (Setting × Text)) : List (Setting × Text) :=
  if rows.any fun row => row.1 = key then KeyedTable.set key value rows
  else match prevpos key rows with
    | some pos => rows.insertIdx pos (key, value)
    | none => rows ++ [(key, value)]

def OnVarAdd (cbVarDbname cbVarname : Text) (chkValue : Option Bool) (txtValue : Text) (d : Dialog) : Dialog :=
  if cbVarname = [] then d
  else { d with
    lstVariables := variableAdded (cbVarDbname, cbVarname) (enteredValue chkValue txtValue) d.lstVariables }

def OnVarRemove (pos : ℕ) (d : Dialog) : Dialog := { d with lstVariables := d.lstVariables.eraseIdx pos }

inductive Edit where
  | roleAdd (pos : ℕ) (chkAdminOption : Bool)
  | roleRemove (pos : ℕ)
  | varAdd (cbVarDbname cbVarname : Text) (chkValue : Option Bool) (txtValue : Text)
  | varRemove (pos : ℕ)

def Edit.apply : Edit → Dialog → Dialog
  | .roleAdd pos chkAdminOption => OnRoleAdd sorted pos chkAdminOption
  | .roleRemove pos => OnRoleRemove sorted pos
  | .varAdd cbVarDbname cbVarname chkValue txtValue => OnVarAdd cbVarDbname cbVarname chkValue txtValue
  | .varRemove pos => OnVarRemove pos

end Editing

section Statements
variable (server : Server)

inductive Action where
  | grant (role : Text) (admin : Bool)
  | revokeAdmin (role : Text)
  | revoke (role : Text)
  | set (database parameter value : Text)
  | reset (database parameter : Text)

def inDatabase (database : Text) : Text := if database = [] then [] else " IN DATABASE ".toList ++ database

def Action.text (name : Text) : Action → Text
  | .grant role admin =>
    "GRANT ".toList ++ role ++ " TO ".toList ++ name ++ (if admin then " WITH ADMIN OPTION".toList else []) ++
      ";\n".toList
  | .revokeAdmin role => "REVOKE ADMIN OPTION FOR ".toList ++ role ++ " FROM ".toList ++ name ++ ";\n".toList
  | .revoke role => "REVOKE ".toList ++ role ++ " FROM ".toList ++ name ++ ";\n".toList
  | .set database parameter value =>
    "ALTER ROLE ".toList ++ name ++ inDatabase database ++ "\n  SET ".toList ++ parameter ++ " = ".toList ++ value ++
      ";\n".toList
  | .reset database parameter =>
    "ALTER ROLE ".toList ++ name ++ inDatabase database ++ " RESET ".toList ++ parameter ++ ";\n".toList

def qtIdent : Text → Text := Identifier.qtIdent server.keyword

def membershipTurn (roleName : Text) (tmpRoles : List Text) : List Action × List Text :=
  if tmpRoles.any fun role => role = roleName then ([], tmpRoles.eraseP fun role => role = roleName)
  else if marked roleName then
    ([.grant (qtIdent server (unmarked roleName)) true], tmpRoles.eraseP fun role => role = unmarked roleName)
  else if tmpRoles.any fun role => role = roleName ++ mark then
    ([.revokeAdmin (qtIdent server roleName)], tmpRoles.eraseP fun role => role = roleName ++ mark)
  else ([.grant (qtIdent server roleName) false], tmpRoles.eraseP fun role => role = roleName)

def membershipLoop : List Text → List Text → List Action × List Text
  | [], tmpRoles => ([], tmpRoles)
  | roleName :: lbRolesIn, tmpRoles =>
    let (here, tmpRoles) := membershipTurn server roleName tmpRoles
    let (behind, tmpRoles) := membershipLoop lbRolesIn tmpRoles
    (here ++ behind, tmpRoles)

def membershipActions (lbRolesIn tmpRoles : List Text) : List Action :=
  let (actions, tmpRoles) := membershipLoop server lbRolesIn tmpRoles
  actions ++ tmpRoles.map fun role => .revoke (qtIdent server role)

def isList (parameter : Text) : Bool := parameter = "search_path".toList ∨ parameter = "temp_tablespaces".toList

def assigned (parameter value : Text) : Text := if isList parameter then value else '\'' :: value ++ ['\'']

def variableTurn (row : Setting × Text) (vars : List (Setting × Text)) : List Action × List (Setting × Text) :=
  let oldVal := (KeyedTable.find row.1 vars).getD []
  (if oldVal ≠ row.2 then [.set row.1.1 row.1.2 (assigned row.1.2 row.2)] else [],
    vars.eraseP fun old => old.1 = row.1)

def variableLoop : List (Setting × Text) → List (Setting × Text) → List Action × List (Setting × Text)
  | [], vars => ([], vars)
  | row :: rows, vars =>
    let (here, vars) := variableTurn row vars
    let (behind, vars) := variableLoop rows vars
    (here ++ behind, vars)

def variableActions (rows vars : List (Setting × Text)) : List Action :=
  let (actions, vars) := variableLoop rows vars
  actions ++ vars.map fun old => .reset old.1.1 old.1.2

variable {server}

/- dlgRole::GetSql, the memberships and the variables -/
def actions (stored : Stored server) (d : Dialog) : List Action :=
  membershipActions server d.lbRolesIn (stored.rolesIn.map shown) ++
    variableActions d.lstVariables (loadedVariables stored.Variables)

def GetSql (stored : Stored server) (d : Dialog) : Text :=
  (actions stored d).flatMap (Action.text (qtIdent server stored.name))

end Statements

section Execution

structure Database where
  memberships : Text → Option Bool
  settings : Setting → Option Text

variable (server : Server)

def roleOf (role : Text) : Option Text := (Identifier.read server.keyword role).filter (server.roleExists ·)

def databaseOf (database : Text) : Option Text :=
  if database = [] then some [] else (Identifier.read server.keyword database).filter (server.databaseExists ·)

def settingOf (database parameter : Text) : Option Setting := do
  return (← databaseOf server database, ← server.setting parameter)

def valueOf (parameter value : Text) : Option Text :=
  match SqlLiteral.read server.literals value with
  | some (text, []) => server.literalValue parameter text
  | _ => server.listValue parameter value

def Action.execute (db : Database) : Action → Option Database
  | .grant role admin => do
    let role ← roleOf server role
    if server.circular role then none
    else some { db with
      memberships := Function.update db.memberships role (some (admin || db.memberships role = some true)) }
  | .revokeAdmin role => do
    let role ← roleOf server role
    return { db with memberships := Function.update db.memberships role ((db.memberships role).map fun _ => false) }
  | .revoke role => do
    let role ← roleOf server role
    return { db with memberships := Function.update db.memberships role none }
  | .set database parameter value => do
    let key ← settingOf server database parameter
    let value ← valueOf server key.2 value
    return { db with settings := Function.update db.settings key (some value) }
  | .reset database parameter => do
    let key ← settingOf server database parameter
    return { db with settings := Function.update db.settings key none }

def executed (actions : List Action) (db : Database) : Option Database :=
  actions.foldlM (fun db action => action.execute server db) db

end Execution

section Sessions
variable (sorted : Text → Text → Bool) {server : Server}

/- What the dialog lists: the memberships, with the admin option each is to have, and the roles that are left. -/
structure Listed where
  rolesIn : List (Text × Bool)
  rolesNotIn : List Text

def Listed.add (pos : ℕ) (admin : Bool) (l : Listed) : Listed :=
  match l.rolesNotIn[pos]? with
  | some role => ⟨Append sorted shown (role, admin) l.rolesIn, l.rolesNotIn.eraseIdx pos⟩
  | none => l

def Listed.remove (pos : ℕ) (l : Listed) : Listed :=
  match l.rolesIn[pos]? with
  | some membership => ⟨l.rolesIn.eraseIdx pos, Append sorted id membership.1 l.rolesNotIn⟩
  | none => l

def Edit.list (readOnly : Bool) (l : Listed) : Edit → Listed
  | .roleAdd pos admin => if readOnly then l else l.add sorted pos admin
  | .roleRemove pos => if readOnly then l else l.remove sorted pos
  | _ => l

def session (readOnly : Bool) (stored : Stored server) (edits : List Edit) : Dialog × Listed :=
  edits.foldl (fun run edit => (edit.apply sorted run.1, edit.list sorted readOnly run.2))
    (opened sorted readOnly stored,
      ⟨stored.rolesIn.foldl (fun items item => Append sorted shown item items) [],
        stored.rolesNotIn.foldl (fun items item => Append sorted id item items) []⟩)

def Edit.picked (l : Listed) : Edit → Option Text
  | .roleAdd pos _ => l.rolesNotIn[pos]?
  | .roleRemove pos => (l.rolesIn[pos]?).map Prod.fst
  | _ => none

def Stored.database (stored : Stored server) : Database where
  memberships role := KeyedTable.find role stored.rolesIn
  settings key := KeyedTable.find key stored.Variables

/- The identifier of a role in a statement about a membership, the one whose membership is revoked, and the database
and setting of a statement about a setting. -/
def Action.role : Action → Option Text
  | .grant role _ => some role
  | .revokeAdmin role => some role
  | .revoke role => some role
  | _ => none

def Action.revoked : Action → Option Text
  | .revokeAdmin role => some role
  | .revoke role => some role
  | _ => none

def Action.setting : Action → Option Setting
  | .set database parameter _ => some (database, parameter)
  | .reset database parameter => some (database, parameter)
  | _ => none

/- The statements are for the role and make it what is listed, what they revoke is a role's, and nothing is written for
what stays as it was. -/
structure Saved (stored : Stored server) (d : Dialog) (l : Listed) : Prop where
  member : Identifier.read server.keyword (qtIdent server stored.name) = some stored.name
  executed : ∃ after, executed server (actions stored d) stored.database = some after ∧
    (∀ role admin, after.memberships role = some admin ↔ (role, admin) ∈ l.rolesIn) ∧
    ∀ key value, after.settings key = some value ↔ (key, value) ∈ d.lstVariables
  revokes : ∀ action ∈ actions stored d, ∀ role ∈ action.revoked, ∃ name, roleOf server role = some name
  membershipsKept : ∀ membership ∈ stored.rolesIn, membership ∈ l.rolesIn → ∀ action ∈ actions stored d,
    action.role ≠ some (qtIdent server membership.1)
  settingsKept : ∀ row ∈ stored.Variables, row ∈ d.lstVariables → ∀ action ∈ actions stored d,
    action.setting ≠ some row.1

end Sessions

end PgAdmin.dlgRole
