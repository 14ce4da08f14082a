import PgAdmin.AclText
import PgAdmin.Identifier
import PgAdmin.Privileges

/-! pgObject::GetGrant: the statements that restore the privileges of an object from the text of
its access control list, and what a server makes of them. -/
namespace PgAdmin.pgObject
open PgsObjects (Text)
open AclText Privileges wxString

inductive MetaType where
  | EDB_PACKAGE | EDB_PACKAGEFUNCTION | EDB_PACKAGEVARIABLE | EDB_SYNONYM
  | PGM_CATALOG | PGM_CATALOGOBJECT | PGM_CHECK | PGM_COLUMN | PGM_CONSTRAINT | PGM_DATABASE
  | PGM_DOMAIN | PGM_EXCLUDE | PGM_FOREIGNKEY | PGM_FOREIGNSERVER | PGM_FOREIGNTABLE
  | PGM_USERMAPPING | PGM_FUNCTION | PGM_INDEX | PGM_OPCLASS | PGM_OPFAMILY | PGM_PRIMARYKEY
  | PGM_ROLE | PGM_RULE | PGM_SCHEMA | PGM_SERVER | PGM_SEQUENCE | PGM_TABLE | PGM_TABLESPACE
  | PGM_TRIGGER | PGM_UNKNOWN | PGM_UNIQUE | PGM_VIEW
  | GP_EXTTABLE | GP_RESOURCE_QUEUE | GP_PARTITION
  | PGM_JOB | PGM_SCHEDULE | PGM_STEP
  | SLM_LISTEN | SLM_NODE | SLM_PATH | SLM_SEQUENCE | SLM_SET | SLM_SUBSCRIPTION | SLM_TABLE
  | PGM_LANGUAGE | PGM_EVENTTRIGGER
  deriving DecidableEq, Repr

structure Object where
  acl : Text
  owner : Text
  ownerNamed : Named owner
  metaType : MetaType
  typeName : Text
  quotedFullIdentifier : Text

/- No rights is REVOKE ALL. The object and the column are the same in all statements. -/
structure Statement where
  rights : List Text
  grantOnObject : Text
  user : Text
  column : Text
  withGrantOption : Bool
  deriving DecidableEq, Repr

def Statement.sql (s : Statement) : Text :=
  let column := if s.column = [] then [] else '(' :: s.column ++ [')']
  (if s.rights = [] then "REVOKE ALL".toList ++ column
    else "GRANT ".toList ++ ", ".toList.intercalate (s.rights.map (· ++ column))) ++
  " ON ".toList ++ s.grantOnObject ++
  (if s.rights = [] then " FROM ".toList else " TO ".toList) ++ s.user ++
  (if s.withGrantOption then " WITH GRANT OPTION;\n".toList else ";\n".toList)

def AppendRight (acl : Text) (rights : List Text) (right : Char × Text) : List Text :=
  if 0 ≤ Find acl [right.1] then rights ++ [right.2] else rights

def rightNames : List (Char × Text) :=
  [('r', "SELECT".toList), ('w', "UPDATE".toList), ('a', "INSERT".toList),
    ('D', "TRUNCATE".toList), ('c', "CONNECT".toList), ('d', "DELETE".toList),
    ('R', "RULE".toList), ('x', "REFERENCES".toList), ('t', "TRIGGER".toList),
    ('X', "EXECUTE".toList), ('U', "USAGE".toList), ('C', "CREATE".toList),
    ('T', "TEMPORARY".toList)]

def GetPrivilegeGrant (allPattern acl grantOnObject user column : Text) (withGrantOption : Bool) :
    Statement where
  rights :=
    if 1 < allPattern.length ∧ acl = allPattern then ["ALL".toList]
    else rightNames.foldl (AppendRight acl) []
  grantOnObject := grantOnObject
  user := user
  column := column
  withGrantOption := withGrantOption

/- aclWithGrant and aclWithoutGrant -/
def splitRights (allPattern : Text) : Text → Text × Text
  | [] => ([], [])
  | c :: '*' :: s =>
    let rest := splitRights allPattern s
    if 0 ≤ Find allPattern [c] then (c :: rest.1, rest.2) else rest
  | c :: s =>
    let rest := splitRights allPattern s
    if 0 ≤ Find allPattern [c] then (rest.1, c :: rest.2) else rest

def GetPrivileges (allPattern str grantOnObject user column : Text) : List Statement :=
  let acl := splitRights allPattern str
  (if acl.2 ≠ [] ∨ acl.1 = [] then
    [GetPrivilegeGrant allPattern acl.2 grantOnObject user column false] else []) ++
  (if acl.1 ≠ [] then [GetPrivilegeGrant allPattern acl.1 grantOnObject user column true] else [])

def groupKeyword : Text := "GROUP ".toList

variable (keyword : Text → Bool)

def unquoted (user : Text) : Text :=
  if ['\\', '"'].isPrefixOf user ∧ ['\\', '"'].isSuffixOf user then Mid user 2 (user.length - 4)
  else user

/- What the loop takes from a token: the name for the statement, the privileges, and the name that
is compared with the owner's, which the public has not. -/
structure Entry where
  user : Text
  str : Text
  tmpUser : Option Text

def entry (token : Text) : Entry :=
  let str := if token.take 1 = ['"'] then Mid token 1 (token.length - 2) else token
  let user := BeforeFirst str '='
  let str := BeforeFirst (AfterFirst str '=') '/'
  if user = [] then ⟨publicName, str, none⟩
  else if user.take 6 = groupLabel then
    ⟨groupKeyword ++ Identifier.qtIdent keyword (unquoted (user.drop 6)), str, user.drop 6⟩
  else ⟨Identifier.qtIdent keyword (unquoted user), str, user⟩

structure Granting where
  grant : List Statement
  grantedToPublic : Bool
  grantedToOwner : Bool

def grantToken (obj : Object) (allPattern grantFor column : Text) (g : Granting) (token : Text) :
    Granting :=
  let e := entry keyword token
  { grant := g.grant ++ GetPrivileges allPattern e.str grantFor e.user column
    grantedToPublic := g.grantedToPublic || e.tmpUser.isNone
    grantedToOwner := g.grantedToOwner ||
      e.tmpUser.any fun tmpUser => decide (0 ≤ Find tmpUser obj.owner) }

def GetGrant (obj : Object) (allPattern grantFor' column' : Text) : List Statement :=
  let grantFor :=
    if grantFor' = [] then obj.typeName.map Char.toUpper ++ ' ' :: obj.quotedFullIdentifier
    else grantFor'
  let column := Identifier.qtIdent keyword column'
  let owner := Identifier.qtIdent keyword obj.owner
  if obj.acl = [] then []
  else if obj.acl = ['{', '}'] then
    GetPrivileges allPattern [] grantFor publicName column ++
      GetPrivileges allPattern [] grantFor owner column
  else
    let acls := queryTokenizer.tokens ',' (Mid obj.acl 1 (obj.acl.length - 2))
    let g := acls.foldl (grantToken keyword obj allPattern grantFor column) ⟨[], false, false⟩
    g.grant ++
      (if g.grantedToPublic = false ∧ (obj.metaType = .PGM_LANGUAGE ∨ obj.metaType = .PGM_FUNCTION ∨
          obj.metaType = .PGM_DATABASE) then
        GetPrivileges allPattern [] grantFor publicName column else []) ++
      (if g.grantedToOwner = false then GetPrivileges allPattern [] grantFor owner column else [])

def privilegeLetters : List (Text × Char) :=
  [("INSERT".toList, 'a'), ("SELECT".toList, 'r'), ("UPDATE".toList, 'w'), ("DELETE".toList, 'd'),
    ("TRUNCATE".toList, 'D'), ("RULE".toList, 'R'), ("REFERENCES".toList, 'x'),
    ("TRIGGER".toList, 't'), ("EXECUTE".toList, 'X'), ("USAGE".toList, 'U'),
    ("CREATE".toList, 'C'), ("TEMPORARY".toList, 'T'), ("CONNECT".toList, 'c')]

def grantedLetters (pattern : Pattern) (names : List Text) : Text :=
  if names = ["ALL".toList] then pattern.letters else names.filterMap (privilegeLetters.lookup ·)

def readGrantee (user : Text) : Option Grantee :=
  if user = publicName then some .world
  else if groupKeyword.isPrefixOf user then
    (Identifier.read keyword (user.drop 6)).map .group
  else (Identifier.read keyword user).map fun name =>
    if name = publicName then .world else .role name

def Statement.command (pattern : Pattern) (s : Statement) : Option (Command Grantee Char) :=
  (readGrantee keyword s.user).map fun who =>
    if s.rights = [] then .revoke who
    else .grant who ((grantedLetters pattern s.rights).map (·, s.withGrantOption))

def replay (pattern : Pattern) (held : Holdings Grantee Char) (statements : List Statement) :
    Holdings Grantee Char :=
  run held (statements.filterMap (Statement.command keyword pattern))

end PgAdmin.pgObject
