import PgAdmin.EnumLabels

/-! The members of a composite type in the type dialog: how the list and the arrays beside it are filled and
edited, and the statements that are written for them. -/
namespace PgAdmin.dlgType
open PgsObjects (Text)
open wxString

structure Datatype where
  oid : ℕ
  quotedName : Text

def vartyp (oid : ℕ) : Text :=
  if oid ∈ [1560, 1561, 1562, 1563, 1042, 1014, 1043, 1015] then "L".toList
  else if oid ∈ [1083, 1183, 1266, 1270, 1114, 1115, 1184, 1185, 1186, 1187] then "D".toList
  else if oid ∈ [1700, 1231] then "P".toList
  else " ".toList

def AddType (d : Datatype) : Text := vartyp d.oid ++ Nat.toDigits 10 d.oid ++ ":".toList ++ d.quotedName

/- A server has types. -/
structure Datatypes where
  all : List Datatype
  some_ : all ≠ []

def Datatypes.cbDatatype (cb : Datatypes) : List Text := cb.all.map Datatype.quotedName

def Datatypes.types (cb : Datatypes) : List Text := cb.all.map AddType

def GetTypeInfo (cb : Datatypes) (sel : ℤ) : Text := (Item cb.types sel).getD []

structure MemberItem where
  name : Text
  type : Text
  collation : Text
  deriving DecidableEq

structure Members where
  lstMembers : List MemberItem
  memberTypes : List Text
  memberLengths : List Text
  memberPrecisions : List Text
  memberCollations : List Text
  memberOriginalNames : List Text
  deriving DecidableEq

def splitType (fullType : Text) : Text × Text × Text :=
  if 0 < Find fullType "(".toList then
    if 0 < Find fullType ",".toList then
      (BeforeFirst fullType '(', BeforeFirst (AfterFirst fullType '(') ',',
        BeforeFirst (AfterFirst fullType ',') ')')
    else (BeforeFirst fullType '(', BeforeFirst (AfterFirst fullType '(') ')', [])
  else (fullType, [], [])

/- pos runs to GetCount() - 1 and leaves the last row out. Nothing is added when no row is found. -/
def foundTypes (cb : Datatypes) (typeName : Text) : List Text :=
  match cb.cbDatatype.dropLast.findIdx? (· == typeName) with
  | some pos => [GetTypeInfo cb pos]
  | none => []

def readMembers (cb : Datatypes) : List Text → Members → Members
  | name :: fullType :: collation :: elements, m =>
    readMembers cb elements {
      lstMembers := m.lstMembers ++ [⟨name, fullType, collation⟩]
      memberTypes := m.memberTypes ++ foundTypes cb (splitType fullType).1
      memberLengths := m.memberLengths ++ [(splitType fullType).2.1]
      memberPrecisions := m.memberPrecisions ++ [(splitType fullType).2.2]
      memberCollations := m.memberCollations ++ [collation]
      memberOriginalNames := m.memberOriginalNames ++ [name] }
  | _, m => m

def Go (cb : Datatypes) (elements : List Text) : Members := readMembers cb elements ⟨[], [], [], [], [], []⟩

structure Control where
  value : Text
  enabled : Bool

def Control.read (c : Control) : Text := if c.value ≠ [] ∧ c.enabled then c.value else []

/- What the controls hold when a button is pressed. selection is that of GetGuessedSelection. -/
structure MemberFields where
  txtMembername : Text
  cbDatatype : Text
  selection : ℤ
  txtLength : Control
  txtPrecision : Control
  cbCollation : Control

def limits (length precision : Text) : Text :=
  if length = [] then []
  else "(".toList ++ length ++ (if precision = [] then [] else ",".toList ++ precision) ++ ")".toList

def MemberFields.type (f : MemberFields) : Text := f.cbDatatype ++ limits f.txtLength.read f.txtPrecision.read

def OnMemberAdd (cb : Datatypes) (f : MemberFields) (m : Members) : Members :=
  let name := stripped f.txtMembername
  if name = [] then m
  else {
    lstMembers := m.lstMembers ++ [⟨name, f.type, f.cbCollation.read⟩]
    memberTypes := m.memberTypes ++ [GetTypeInfo cb f.selection]
    memberLengths := m.memberLengths ++ [f.txtLength.read]
    memberPrecisions := m.memberPrecisions ++ [f.txtPrecision.read]
    memberCollations := m.memberCollations ++ [f.cbCollation.read]
    memberOriginalNames := m.memberOriginalNames ++ [[]] }

def GetFirstSelected (clicked : ℕ) (m : Members) : Option ℕ :=
  if clicked < m.lstMembers.length then some clicked else none

/- Insert(str, pos) and RemoveAt(pos + 1). -/
def replaceAt (array : List Text) (str : Text) (pos : ℕ) : List Text :=
  (array.insertIdx pos str).eraseIdx (pos + 1)

def OnMemberChange (cb : Datatypes) (f : MemberFields) (clicked : ℕ) (m : Members) : Members :=
  let name := stripped f.txtMembername
  if name = [] then m
  else match GetFirstSelected clicked m with
    | none => m
    | some pos => { m with
      lstMembers := m.lstMembers.set pos ⟨name, f.type, f.cbCollation.read⟩
      memberTypes := replaceAt m.memberTypes (GetTypeInfo cb f.selection) pos
      memberLengths := replaceAt m.memberLengths f.txtLength.read pos
      memberPrecisions := replaceAt m.memberPrecisions f.txtPrecision.read pos
      memberCollations := replaceAt m.memberCollations f.cbCollation.read pos }

def OnMemberRemove (clicked : ℕ) (m : Members) : Members :=
  match GetFirstSelected clicked m with
  | none => m
  | some pos => {
    lstMembers := m.lstMembers.eraseIdx pos
    memberTypes := m.memberTypes.eraseIdx pos
    memberLengths := m.memberLengths.eraseIdx pos
    memberPrecisions := m.memberPrecisions.eraseIdx pos
    memberCollations := m.memberCollations.eraseIdx pos
    memberOriginalNames := m.memberOriginalNames.eraseIdx pos }

inductive MemberEvent where
  | add (f : MemberFields)
  | change (f : MemberFields) (clicked : ℕ)
  | remove (clicked : ℕ)

def handle (cb : Datatypes) (m : Members) : MemberEvent → Members
  | .add f => OnMemberAdd cb f m
  | .change f clicked => OnMemberChange cb f clicked m
  | .remove clicked => OnMemberRemove clicked m

def edited (cb : Datatypes) (elements : List Text) (events : List MemberEvent) : Members :=
  events.foldl (handle cb) (Go cb elements)

/- A type as a statement gives it: its name, what stands in parentheses behind the name, and what stands behind
COLLATE. -/
structure FullType where
  typname : Text
  limits : Text
  collation : Option Text
  deriving DecidableEq

def FullType.text (t : FullType) : Text :=
  t.typname ++ t.limits ++ match t.collation with
    | some collation => " COLLATE ".toList ++ collation
    | none => []

def defaultCollation : Text := "pg_catalog.\"default\"".toList

def fullType (typname length precision collation : Text) : FullType where
  typname := typname
  limits := limits length precision
  collation := if collation ≠ [] ∧ collation ≠ defaultCollation then some collation else none

def GetFullTypeName (m : Members) (type : ℕ) : Option FullType := do
  let typname ← m.memberTypes[type]?
  let length ← m.memberLengths[type]?
  let precision ← m.memberPrecisions[type]?
  let collation ← m.memberCollations[type]?
  some (fullType (AfterFirst typname ':') length precision collation)

inductive Statement where
  | rename (name new : Text)
  | setType (name : Text) (type : FullType)
  | drop (name : Text)
  | add (name : Text) (type : FullType)
  deriving DecidableEq

def Statement.sql (objname : Text) (qtIdent : Text → Text) (s : Statement) : Text :=
  "ALTER TYPE ".toList ++ objname ++ (match s with
    | .rename name new =>
      "\n  RENAME ATTRIBUTE ".toList ++ qtIdent name ++ " TO ".toList ++ qtIdent new
    | .setType name type =>
      "\n  ALTER ATTRIBUTE ".toList ++ qtIdent name ++ " SET DATA TYPE ".toList ++ type.text
    | .drop name => "\n  DROP ATTRIBUTE ".toList ++ qtIdent name
    | .add name type => "\n  ADD ATTRIBUTE ".toList ++ qtIdent name ++ " ".toList ++ type.text) ++ ";\n".toList

def oldElement (elements : List Text) (oldindex : ℕ) : MemberItem :=
  match elements.drop (oldindex * 3) with
  | name :: type :: collation :: _ => ⟨name, type, collation⟩
  | _ => ⟨[], [], []⟩

def dataType (type collation old_collation : Text) : FullType where
  typname := type
  limits := []
  collation := if collation ≠ old_collation then some collation else none

def turn (old : MemberItem) (original_name new_name new_type : Text) (new_full_type : FullType)
    (new_collation : Text) : List Statement × ℕ :=
  if original_name ≠ [] ∧ original_name = old.name ∧
      (new_name ≠ old.name ∨ new_type ≠ old.type ∨ new_collation ≠ old.collation) then
    ((if new_name ≠ old.name then [.rename original_name new_name] else []) ++
      (if new_type ≠ old.type ∨ new_collation ≠ old.collation then
        [.setType new_name (dataType new_type new_collation old.collation)] else []), 0)
  else if original_name ≠ [] ∧ original_name ≠ old.name then ([.drop old.name], 1)
  else if original_name = [] then
    ((if old.name ≠ [] then [.drop old.name] else []) ++ [.add new_name new_full_type], 0)
  else ([], 0)

def dropRemaining : List Text → List Statement
  | name :: _ :: _ :: elements => .drop name :: dropRemaining elements
  | _ => []

/- The loop of GetSqlForTypes. It gives nothing when it does not end or an index is out of range. -/
def mergeMembers (elements : List Text) (m : Members) : ℕ → ℕ → ℕ → Option (List Statement)
  | 0, _, _ => none
  | fuel + 1, newindex, oldindex =>
    if newindex < m.lstMembers.length then do
      let item ← m.lstMembers[newindex]?
      let original_name ← m.memberOriginalNames[newindex]?
      let new_type ← m.memberTypes[newindex]?
      let new_full_type ← GetFullTypeName m newindex
      let new_collation ← m.memberCollations[newindex]?
      let (stmts, hold) := turn (oldElement elements oldindex) original_name item.name
        (AfterFirst new_type ':') new_full_type new_collation
      if newindex + 1 - hold = m.lstMembers.length ∧ elements.length ≥ (oldindex + 1) * 3 + 3 then
        some (stmts ++ dropRemaining (elements.drop ((oldindex + 1) * 3)))
      else do
        let rest ← mergeMembers elements m fuel (newindex + 1 - hold) (oldindex + 1)
        some (stmts ++ rest)
    else some []

def memberStatements (elements : List Text) (m : Members) : Option (List Statement) :=
  mergeMembers elements m (elements.length + m.lstMembers.length + 1) 0 0

def GetSqlForTypes (objname : Text) (qtIdent : Text → Text) (elements : List Text) (m : Members) : Option Text :=
  (memberStatements elements m).map (·.flatMap (Statement.sql objname qtIdent))

end PgAdmin.dlgType
