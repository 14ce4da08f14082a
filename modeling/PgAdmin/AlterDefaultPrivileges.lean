import PgAdmin.GetGrant

/-! pgObject::GetDefaultPrivileges: the statements that turn the default privileges of a role into others. -/
namespace PgAdmin.AlterDefaultPrivileges
open PgsObjects (Text)
open AclText pgObject

def GetPrivilegeName (privilege : Char) : Text :=
  match privilege with
  | 'a' => "INSERT".toList
  | 'r' => "SELECT".toList
  | 'w' => "UPDATE".toList
  | 'd' => "DELETE".toList
  | 'D' => "TRUNCATE".toList
  | 'x' => "REFERENCES".toList
  | 't' => "TRIGGER".toList
  | 'U' => "USAGE".toList
  | 'X' => "EXECUTE".toList
  | _ => "UNKNOWN".toList

def findPrivilege (strDefPrivs : Text) (privChar : Char) : Bool × Bool :=
  match strDefPrivs.idxOf? privChar with
  | none => (false, false)
  | some privAt =>
    (true, decide (privAt < strDefPrivs.length - 1 ∧ strDefPrivs[privAt + 1]? = some '*'))

structure Lists where
  strGrant : Text
  strRevoke : Text
  strGrantOption : Text
  strRevokeGrantOption : Text

def addPrivilege (strOrigDefPrivs strNewDefPrivs : Text) (lists : Lists) (privChar : Char) : Lists :=
  let (inOrigPriv, grantOptInOrigPriv) := findPrivilege strOrigDefPrivs privChar
  let (inNewPriv, grantOptInNewPriv) := findPrivilege strNewDefPrivs privChar
  if inOrigPriv || inNewPriv || grantOptInOrigPriv || grantOptInNewPriv then
    let strPrivilege := GetPrivilegeName privChar
    if !inOrigPriv && inNewPriv then
      if !grantOptInNewPriv then { lists with strGrant := lists.strGrant ++ (strPrivilege ++ [',', ' ']) }
      else { lists with strGrantOption := lists.strGrantOption ++ (strPrivilege ++ [',', ' ']) }
    else if inOrigPriv && !inNewPriv then
      { lists with strRevoke := lists.strRevoke ++ (strPrivilege ++ [',', ' ']) }
    else if inOrigPriv && inNewPriv then
      if grantOptInOrigPriv && !grantOptInNewPriv then
        { lists with strRevokeGrantOption := lists.strRevokeGrantOption ++ (strPrivilege ++ [',', ' ']) }
      else if !grantOptInOrigPriv && grantOptInNewPriv then
        { lists with strGrantOption := lists.strGrantOption ++ (strPrivilege ++ [',', ' ']) }
      else lists
    else lists
  else lists

def clause (strAltDefPriv action strType receiver strRole ending list : Text) : Text :=
  if list.isEmpty then []
  else strAltDefPriv ++ "\n    ".toList ++ action ++ [' '] ++ list.take (list.length - 2) ++ " ON ".toList ++
    strType ++ "\n    ".toList ++ receiver ++ [' '] ++ strRole ++ ending ++ ";\n".toList

def strAltDefPriv (strSchema : Text) : Text :=
  if !strSchema.isEmpty then "ALTER DEFAULT PRIVILEGES IN SCHEMA ".toList ++ strSchema
  else "ALTER DEFAULT PRIVILEGES ".toList

def GetDefaultPrivileges (strType strSupportedPrivs strSchema strOrigDefPrivs strNewDefPrivs strRole : Text) : Text :=
  let lists := strSupportedPrivs.foldl (addPrivilege strOrigDefPrivs strNewDefPrivs) ⟨[], [], [], []⟩
  let alter := strAltDefPriv strSchema
  let strDefPrivs :=
    clause alter "REVOKE".toList strType "FROM".toList strRole [] lists.strRevoke ++
    clause alter "REVOKE GRANT OPTION FOR".toList strType "FROM".toList strRole [] lists.strRevokeGrantOption ++
    clause alter "GRANT".toList strType "TO".toList strRole [] lists.strGrant ++
    clause alter "GRANT".toList strType "TO".toList strRole " WITH GRANT OPTION".toList lists.strGrantOption
  let isModified := !lists.strRevoke.isEmpty || !lists.strRevokeGrantOption.isEmpty || !lists.strGrant.isEmpty ||
    !lists.strGrantOption.isEmpty
  if isModified then strDefPrivs ++ ['\n'] else []

abbrev Held := Option Bool

inductive Kind where
  | revoke | revokeGrantOption | grant | grantOption
  deriving DecidableEq

namespace Kind

def all : List Kind := [revoke, revokeGrantOption, grant, grantOption]

def effect : Kind → Held → Held
  | revoke, _ => none
  | revokeGrantOption, held => held.map fun _ => false
  | grant, held => some (held.getD false)
  | grantOption, _ => some true

def between : Held → Held → Option Kind
  | none, some option => some (if option then grantOption else grant)
  | some _, none => some revoke
  | some true, some false => some revokeGrantOption
  | some false, some true => some grantOption
  | _, _ => none

def action : Kind → Text
  | revoke => "REVOKE".toList
  | revokeGrantOption => "REVOKE GRANT OPTION FOR".toList
  | grant | grantOption => "GRANT".toList

def receiver : Kind → Text
  | revoke | revokeGrantOption => "FROM".toList
  | grant | grantOption => "TO".toList

def ending : Kind → Text
  | grantOption => " WITH GRANT OPTION".toList
  | _ => []

end Kind

structure Statement where
  kind : Kind
  privileges : List Text

namespace Statement

def sql (strType strSchema strRole : Text) (s : Statement) : Text :=
  strAltDefPriv strSchema ++ "\n    ".toList ++ s.kind.action ++ [' '] ++ [',', ' '].intercalate s.privileges ++
    " ON ".toList ++ strType ++ "\n    ".toList ++ s.kind.receiver ++ [' '] ++ strRole ++ s.kind.ending ++ ";\n".toList

def apply (held : Char → Held) (s : Statement) : Char → Held := fun c =>
  if c ∈ s.privileges.filterMap (privilegeLetters.lookup ·) then s.kind.effect (held c) else held c

end Statement

def script (strType strSchema strRole : Text) (statements : List Statement) : Text :=
  if statements.isEmpty then [] else statements.flatMap (Statement.sql strType strSchema strRole) ++ ['\n']

structure Supported where
  letters : Text
  nodup : letters.Nodup
  known : ∀ c ∈ letters, GetPrivilegeName c ≠ "UNKNOWN".toList

structure Privileges where
  entries : List (Char × Bool)
  letters : ∀ entry ∈ entries, entry.1 ≠ '*'

def Privileges.held (privileges : Privileges) (c : Char) : Held := privileges.entries.lookup c

variable {supported : Supported} {orig new : Privileges} {c : Char} {kind : Kind}

theorem nameRead (known : GetPrivilegeName c ≠ "UNKNOWN".toList) :
    privilegeLetters.lookup (GetPrivilegeName c) = some c := by
  revert known
  unfold GetPrivilegeName
  split
  all_goals first | exact fun _ => rfl | exact fun known => absurd rfl known

theorem findHere (s : Text) (c : Char) : findPrivilege (c :: s) c = (true, decide (s.head? = some '*')) := by
  cases s <;> simp [findPrivilege, List.idxOf?_cons]

theorem findSkip {d : Char} (other : d ≠ c) (s : Text) : findPrivilege (d :: s) c = findPrivilege s c := by
  have apart : (d == c) = false := beq_eq_false_iff_ne.mpr other
  cases at' : s.idxOf? c with
  | none => simp [findPrivilege, List.idxOf?_cons, apart, at']
  | some privAt =>
    have shift : privAt + 1 < (d :: s).length - 1 ↔ privAt < s.length - 1 := by
      rw [List.length_cons]
      omega
    simp only [findPrivilege, List.idxOf?_cons, apart, at', Bool.false_eq_true, if_false, Option.map_some, shift,
      List.getElem?_cons_succ]

theorem findHeld {entries : List (Char × Bool)} (letters : ∀ entry ∈ entries, entry.1 ≠ '*') (other : c ≠ '*') :
    findPrivilege (privilegeText entries) c =
      ((entries.lookup c).isSome, decide (entries.lookup c = some true)) := by
  induction entries with
  | nil => rfl
  | cons entry entries ih =>
    obtain ⟨l, option⟩ := entry
    have rest := ih fun later member => letters later (List.mem_cons_of_mem _ member)
    by_cases here : c = l
    · subst here
      cases option with
      | true =>
        have text : privilegeText ((c, true) :: entries) = c :: '*' :: privilegeText entries := rfl
        rw [text, findHere]
        simp
      | false =>
        have text : privilegeText ((c, false) :: entries) = c :: privilegeText entries := rfl
        have next : (privilegeText entries).head? ≠ some '*' := by
          cases entries with
          | nil => exact fun none => nomatch none
          | cons later entries =>
            have letter := letters later (List.mem_cons_of_mem _ List.mem_cons_self)
            obtain ⟨d, option⟩ := later
            cases option <;> simpa [privilegeText] using letter
        rw [text, findHere]
        simp [next]
    · have skipped : findPrivilege (privilegeText ((l, option) :: entries)) c =
          findPrivilege (privilegeText entries) c := by
        cases option with
        | true => exact (findSkip (Ne.symm here) _).trans (findSkip (Ne.symm other) _)
        | false => exact findSkip (Ne.symm here) _
      rw [skipped, rest, List.lookup_cons, beq_eq_false_iff_ne.mpr here]

namespace Lists

def list (lists : Lists) : Kind → Text
  | .revoke => lists.strRevoke
  | .revokeGrantOption => lists.strRevokeGrantOption
  | .grant => lists.strGrant
  | .grantOption => lists.strGrantOption

end Lists

theorem addStep (known : GetPrivilegeName c ≠ "UNKNOWN".toList) (lists : Lists) (kind : Kind) :
    (addPrivilege (privilegeText orig.entries) (privilegeText new.entries) lists c).list kind =
      lists.list kind ++ if Kind.between (orig.held c) (new.held c) = some kind then
        GetPrivilegeName c ++ [',', ' '] else [] := by
  have other : c ≠ '*' := by
    rintro rfl
    exact known rfl
  rw [addPrivilege, findHeld orig.letters other, findHeld new.letters other]
  unfold Privileges.held
  rcases orig.entries.lookup c with _ | _ | _ <;> rcases new.entries.lookup c with _ | _ | _ <;>
    cases kind <;> simp [Kind.between, Lists.list]

def needed (orig new : Privileges) (letters : Text) (kind : Kind) : List Text :=
  (letters.filter fun c => decide (Kind.between (orig.held c) (new.held c) = some kind)).map GetPrivilegeName

theorem addRun {letters : Text} (known : ∀ c ∈ letters, GetPrivilegeName c ≠ "UNKNOWN".toList) (lists : Lists)
    (kind : Kind) :
    (letters.foldl (addPrivilege (privilegeText orig.entries) (privilegeText new.entries)) lists).list kind =
      lists.list kind ++ (needed orig new letters kind).flatMap (· ++ [',', ' ']) := by
  induction letters generalizing lists with
  | nil => simp [needed]
  | cons c letters ih =>
    have rest := ih fun later member => known later (List.mem_cons_of_mem c member)
    rw [List.foldl_cons, rest, addStep (known c List.mem_cons_self)]
    by_cases here : Kind.between (orig.held c) (new.held c) = some kind <;> simp [needed, here]

theorem listJoined (separator : Text) {names : List Text} (some : names ≠ []) :
    names.flatMap (· ++ separator) = separator.intercalate names ++ separator := by
  induction names with
  | nil => exact absurd rfl some
  | cons name names ih =>
    cases names with
    | nil => simp
    | cons next names =>
      rw [List.flatMap_cons, ih (List.cons_ne_nil _ _), List.intercalate_cons_cons]
      simp only [List.append_assoc]

theorem listEmpty (names : List Text) : (names.flatMap (· ++ [',', ' '])).isEmpty = names.isEmpty := by
  cases names with
  | nil => rfl
  | cons name names => cases name <;> rfl

def statement (kind : Kind) (privileges : List Text) : List Statement :=
  if privileges.isEmpty then [] else [⟨kind, privileges⟩]

theorem clauseSql (strType strSchema strRole : Text) (kind : Kind) (names : List Text) :
    clause (strAltDefPriv strSchema) kind.action strType kind.receiver strRole kind.ending
        (names.flatMap (· ++ [',', ' '])) =
      (statement kind names).flatMap (Statement.sql strType strSchema strRole) := by
  rw [clause, statement, listEmpty]
  cases names with
  | nil => rfl
  | cons name names =>
    have joined := listJoined [',', ' '] (List.cons_ne_nil name names)
    have short : ([',', ' '].intercalate (name :: names) ++ [',', ' ']).length - 2 =
        ([',', ' '].intercalate (name :: names)).length := by
      rw [List.length_append]
      exact Nat.add_sub_cancel _ 2
    rw [joined, short, List.take_left]
    simp [Statement.sql]

def statements (supported : Supported) (orig new : Privileges) : List Statement :=
  Kind.all.flatMap fun kind => statement kind (needed orig new supported.letters kind)

theorem statementsEmpty : (statements supported orig new).isEmpty =
    Kind.all.all fun kind => (needed orig new supported.letters kind).isEmpty := by
  have each (kind : Kind) (names : List Text) : (statement kind names).isEmpty = names.isEmpty := by
    cases names <;> rfl
  have both (first last : List Statement) : (first ++ last).isEmpty = (first.isEmpty && last.isEmpty) := by
    cases first <;> rfl
  simp [statements, Kind.all, both, each]

theorem privilegesScript (strType strSchema strRole : Text) :
    GetDefaultPrivileges strType supported.letters strSchema (privilegeText orig.entries)
        (privilegeText new.entries) strRole =
      script strType strSchema strRole (statements supported orig new) := by
  have lists := @addRun orig new _ supported.known ⟨[], [], [], []⟩
  have revoke := lists .revoke
  have revokeGrantOption := lists .revokeGrantOption
  have grant := lists .grant
  have grantOption := lists .grantOption
  simp only [Lists.list, List.nil_append] at revoke revokeGrantOption grant grantOption
  have sql : (statements supported orig new).flatMap (Statement.sql strType strSchema strRole) =
      Kind.all.flatMap fun kind => clause (strAltDefPriv strSchema) kind.action strType kind.receiver strRole
        kind.ending ((needed orig new supported.letters kind).flatMap (· ++ [',', ' '])) := by
    rw [statements, List.flatMap_assoc]
    exact List.flatMap_congr fun kind _ => (clauseSql strType strSchema strRole kind _).symm
  rw [GetDefaultPrivileges, script, statementsEmpty, sql]
  simp only [revoke, revokeGrantOption, grant, grantOption, listEmpty, Kind.all, List.all_cons, List.all_nil,
    List.flatMap_cons, List.flatMap_nil, List.append_nil, Bool.and_true, List.append_assoc]
  cases (needed orig new supported.letters .revoke).isEmpty <;>
    cases (needed orig new supported.letters .revokeGrantOption).isEmpty <;>
    cases (needed orig new supported.letters .grant).isEmpty <;>
    cases (needed orig new supported.letters .grantOption).isEmpty <;> rfl

theorem applyNeeded (held : Char → Held) (kind : Kind) (c : Char) :
    (statement kind (needed orig new supported.letters kind)).foldl Statement.apply held c =
      if c ∈ supported.letters ∧ Kind.between (orig.held c) (new.held c) = some kind then
        kind.effect (held c) else held c := by
  have read : ∀ letters : Text, (∀ c ∈ letters, GetPrivilegeName c ≠ "UNKNOWN".toList) →
      (letters.map GetPrivilegeName).filterMap (privilegeLetters.lookup ·) = letters := by
    intro letters known
    induction letters with
    | nil => rfl
    | cons c letters ih =>
      have rest := ih fun later member => known later (List.mem_cons_of_mem c member)
      rw [List.map_cons, List.filterMap_cons, nameRead (known c List.mem_cons_self), rest]
  have named : c ∈ (needed orig new supported.letters kind).filterMap (privilegeLetters.lookup ·) ↔
      c ∈ supported.letters ∧ Kind.between (orig.held c) (new.held c) = some kind := by
    rw [needed, read _ fun letter member => supported.known letter (List.mem_filter.mp member).1, List.mem_filter,
      decide_eq_true_eq]
  rw [← if_congr named rfl rfl, statement]
  cases needed orig new supported.letters kind with
  | nil => rfl
  | cons name names => rfl

theorem applyAll (c : Char) : (statements supported orig new).foldl Statement.apply orig.held c =
    if c ∈ supported.letters then new.held c else orig.held c := by
  have step := @applyNeeded supported orig new
  simp only [statements, List.foldl_flatMap, Kind.all, List.foldl_cons, List.foldl_nil, step]
  by_cases member : c ∈ supported.letters
  · rcases orig.held c with _ | _ | _ <;> rcases new.held c with _ | _ | _ <;>
      simp [member, Kind.between, Kind.effect]
  · simp [member]

theorem kindsInOrder (supported : Supported) (orig new : Privileges) :
    ((statements supported orig new).map Statement.kind).Sublist Kind.all := by
  have filtered (kinds : List Kind) :
      (kinds.flatMap fun kind => statement kind (needed orig new supported.letters kind)).map Statement.kind =
        kinds.filter fun kind => !(needed orig new supported.letters kind).isEmpty := by
    induction kinds with
    | nil => rfl
    | cons kind kinds ih =>
      rw [List.flatMap_cons, List.map_append, ih, statement]
      cases none : (needed orig new supported.letters kind).isEmpty <;> simp [none]
  rw [statements, filtered]
  exact List.filter_sublist

theorem namesOnce (supported : Supported) (orig new : Privileges) :
    ((statements supported orig new).flatMap Statement.privileges).Nodup := by
  have names (kind : Kind) (privileges : List Text) :
      (statement kind privileges).flatMap Statement.privileges = privileges := by
    cases privileges <;> simp [statement]
  have whole : (statements supported orig new).flatMap Statement.privileges =
      (Kind.all.flatMap fun kind => supported.letters.filter fun c =>
        decide (Kind.between (orig.held c) (new.held c) = some kind)).map GetPrivilegeName := by
    rw [statements, List.flatMap_assoc, List.map_flatMap]
    exact List.flatMap_congr fun kind _ => names kind _
  have apart : ∀ first last : Kind, first ≠ last →
      List.Disjoint (supported.letters.filter fun c =>
        decide (Kind.between (orig.held c) (new.held c) = some first))
      (supported.letters.filter fun c => decide (Kind.between (orig.held c) (new.held c) = some last)) := by
    intro first last other c here there
    have one := of_decide_eq_true (List.mem_filter.mp here).2
    have two := of_decide_eq_true (List.mem_filter.mp there).2
    exact other (Option.some.inj (one.symm.trans two))
  rw [whole]
  refine List.Nodup.map_on ?_ (List.nodup_flatMap.mpr ⟨fun kind _ => supported.nodup.filter _, ?_⟩)
  · intro c here d there same
    obtain ⟨_, _, here⟩ := List.mem_flatMap.mp here
    obtain ⟨_, _, there⟩ := List.mem_flatMap.mp there
    have first := nameRead (supported.known c (List.mem_filter.mp here).1)
    have second := nameRead (supported.known d (List.mem_filter.mp there).1)
    rw [same] at first
    exact Option.some.inj (first.symm.trans second)
  · have distinct : Kind.all.Nodup := by decide
    exact distinct.imp fun other => apart _ _ other

theorem agreeEmpty (supported : Supported) (orig new : Privileges) :
    (statements supported orig new).isEmpty = true ↔ ∀ c ∈ supported.letters, orig.held c = new.held c := by
  have none : ∀ kind, (needed orig new supported.letters kind).isEmpty = true ↔
      ∀ c ∈ supported.letters, Kind.between (orig.held c) (new.held c) ≠ some kind := by
    intro kind
    simp [needed]
  have every (kind : Kind) : kind ∈ Kind.all := by cases kind <;> decide
  have same : ∀ first last : Held, (∀ kind, Kind.between first last ≠ some kind) ↔ first = last := by
    intro first last
    rcases first with _ | _ | _ <;> rcases last with _ | _ | _ <;> simp [Kind.between]
  rw [statementsEmpty, List.all_eq_true]
  constructor
  · intro empty c member
    exact (same _ _).mp fun kind => (none kind).mp (empty kind (every kind)) c member
  · intro agree kind _
    exact (none kind).mpr fun c member => (same _ _).mpr (agree c member) kind

/-- The statements make the old privileges of the role the new ones as far as they are supported, none names a
privilege that another one does, and there are none when nothing has changed. -/
theorem privilegesAltered (supported : Supported) (orig new : Privileges) (strType strSchema strRole : Text) :
    ∃ statements : List Statement,
      GetDefaultPrivileges strType supported.letters strSchema (privilegeText orig.entries)
          (privilegeText new.entries) strRole = script strType strSchema strRole statements ∧
        (statements.map Statement.kind).Sublist Kind.all ∧
        (∀ c, statements.foldl Statement.apply orig.held c =
          if c ∈ supported.letters then new.held c else orig.held c) ∧
        (statements.flatMap Statement.privileges).Nodup ∧
        (GetDefaultPrivileges strType supported.letters strSchema (privilegeText orig.entries)
          (privilegeText new.entries) strRole = [] ↔ ∀ c ∈ supported.letters, orig.held c = new.held c) := by
  refine ⟨statements supported orig new, privilegesScript strType strSchema strRole, kindsInOrder supported orig new,
    applyAll, namesOnce supported orig new, ?_⟩
  rw [privilegesScript, ← agreeEmpty, script]
  cases (statements supported orig new).isEmpty <;> simp

end PgAdmin.AlterDefaultPrivileges
