import PgAdmin.PlainLiteral
import PgAdmin.RoleMemberships

/-! What the statements of the dialog for a role do to the role. -/
namespace PgAdmin.dlgRole
open PgsObjects (Text)
open KeyedTable (find unlisted)

variable {server : Server} {stored : Stored server}

def Stored.roles (stored : Stored server) : List Text := stored.rolesIn.map Prod.fst ++ stored.rolesNotIn

theorem memberKnown {membership : Text × Bool} (inside : membership ∈ stored.rolesIn) : membership.1 ∈ stored.roles :=
  List.mem_append_left _ (List.mem_map_of_mem inside)

theorem memberNames (stored : Stored server) : (stored.rolesIn.map Prod.fst).Nodup :=
  (List.nodup_append.mp stored.distinct).1

theorem readRole {role : Text} (known : role ∈ stored.roles) :
    Identifier.read server.keyword (qtIdent server role) = some role :=
  Identifier.readQtIdent server.keyword (stored.known role known).1

theorem roleKnown {role : Text} (known : role ∈ stored.roles) : roleOf server (qtIdent server role) = some role := by
  rw [roleOf, readRole known, Option.filter_some, if_pos (stored.known role known).2]

theorem identifierInj {one other : Text} (left : one ∈ stored.roles) (right : other ∈ stored.roles)
    (same : qtIdent server one = qtIdent server other) : one = other :=
  Option.some.inj ((readRole left).symm.trans (same ▸ readRole right))

section Memberships

/- Memberships of roles that are shown, each role once, and the new ones of roles whose names have no mark. -/
structure Follows (stored : Stored server) (list : List (Text × Bool)) : Prop where
  distinct : (list.map Prod.fst).Nodup
  known : ∀ membership ∈ list, membership.1 ∈ stored.roles
  fresh : ∀ membership ∈ list, membership ∈ stored.rolesIn ∨ marked membership.1 = false

variable {list : List (Text × Bool)}

/- No role it was a member of is named as a role in one of the two lists is shown with admin option. -/
def NamesApart (stored : Stored server) (list : List (Text × Bool)) : Prop :=
  Apart ((stored.rolesIn ++ list).map Prod.fst) (stored.rolesIn.map Prod.fst)

def changed (stored : Stored server) (list : List (Text × Bool)) : List (Text × Bool) :=
  list.filter fun membership => find membership.1 stored.rolesIn ≠ some membership.2

theorem membershipActionsAre (apart : NamesApart stored list) (follows : Follows stored list) :
    membershipActions server (list.map shown) (stored.rolesIn.map shown) =
      (changed stored list).map (membershipAction server stored.rolesIn) ++
        (unlisted stored.rolesIn list).map fun membership => .revoke (qtIdent server (shown membership)) := by
  have plain : Plain ((stored.rolesIn ++ list).map Prod.fst) stored.rolesIn :=
    ⟨apart, fun _ inside => List.mem_map_of_mem (List.mem_append_left _ inside), memberNames stored⟩
  have named : ∀ membership ∈ list, membership.1 ∈ (stored.rolesIn ++ list).map Prod.fst :=
    fun _ inside => List.mem_map_of_mem (List.mem_append_right _ inside)
  have fresh : ∀ membership ∈ list,
      find membership.1 stored.rolesIn = some membership.2 ∨ marked membership.1 = false :=
    fun membership inside => (follows.fresh membership inside).imp_left (KeyedTable.findIff (memberNames stored)).mpr
  rw [membershipActions, membershipLoopIs server plain follows.distinct named fresh]
  exact congrArg _ (List.map_map ..)

theorem changedIff {membership : Text × Bool} : membership ∈ changed stored list ↔
    membership ∈ list ∧ find membership.1 stored.rolesIn ≠ some membership.2 := by
  rw [changed, List.mem_filter, decide_eq_true_iff]

theorem membershipAssigned {membership : Text × Bool} (known : membership.1 ∈ stored.roles)
    (linear : server.circular membership.1 = false) (other : find membership.1 stored.rolesIn ≠ some membership.2)
    {values : Text → Option Bool} (here : values membership.1 = find membership.1 stored.rolesIn)
    (settings : Setting → Option Text) :
    (membershipAction server stored.rolesIn membership).execute server ⟨values, settings⟩ =
      some ⟨Function.update values membership.1 (some membership.2), settings⟩ := by
  obtain ⟨role, admin⟩ := membership
  have known := roleKnown known
  dsimp only at here other known linear ⊢
  by_cases lowered : admin = false ∧ find role stored.rolesIn = some true
  · rw [membershipAction, if_pos lowered]
    simp [Action.execute, known, here, lowered.1, lowered.2]
  · rw [membershipAction, if_neg lowered]
    have kept : (admin || decide (values role = some true)) = admin := by
      rw [here]
      cases admin <;> simp_all
    simp [Action.execute, known, linear, kept]

theorem membershipsRun (apart : NamesApart stored list) (follows : Follows stored list)
    (granted : ∀ m ∈ list, m.1 ∉ stored.rolesIn.map Prod.fst → server.circular m.1 = false)
    (kept : ∀ m ∈ stored.rolesIn, m.2 = true → m.1 ∈ list.map Prod.fst) (settings : Setting → Option Text) :
    executed server (membershipActions server (list.map shown) (stored.rolesIn.map shown))
      ⟨stored.database.memberships, settings⟩ = some ⟨fun role => find role list, settings⟩ := by
  rw [membershipActionsAre apart follows]
  refine @KeyedTable.runDifference Text Bool _ Action Database (fun action db => action.execute server db)
    (fun values => ⟨values, settings⟩) stored.rolesIn list (memberNames stored) follows.distinct _ _ _
    (fun m _ same => ?_) (fun m inside other values here => ?_) fun m inside values => ?_
  · exact (KeyedTable.findIff (memberNames stored)).mp (by simpa using same)
  · refine membershipAssigned (follows.known m inside) ?_ (of_decide_eq_true other) here settings
    by_cases old : m.1 ∈ stored.rolesIn.map Prod.fst
    · exact stored.acyclic m.1 old
    · exact granted m inside old
  · obtain ⟨member, absent⟩ := KeyedTable.memUnlisted.mp inside
    have bare : shown m = m.1 := if_neg fun admin => absent (kept m member admin)
    simp [Action.execute, bare, roleKnown (memberKnown member)]

end Memberships

section Settings
variable {rows vars : List (Setting × Text)}

def setAction (row : Setting × Text) : Action := .set row.1.1 row.1.2 (assigned row.1.2 row.2)

def resetAction (row : Setting × Text) : Action := .reset row.1.1 row.1.2

def altered (vars : List (Setting × Text)) (row : Setting × Text) : Bool := (find row.1 vars).getD [] ≠ row.2

theorem variableLoopIs (old : (vars.map Prod.fst).Nodup) (new : (rows.map Prod.fst).Nodup) :
    variableLoop rows vars = ((rows.filter (altered vars)).map setAction, unlisted vars rows) := by
  induction rows generalizing vars with
  | nil =>
    rw [KeyedTable.unlistedNil]
    rfl
  | cons row rows ih =>
    rw [List.map_cons, List.nodup_cons] at new
    have rest := ih (old.sublist (List.filter_sublist.map _) : ((KeyedTable.drop row.1 vars).map Prod.fst).Nodup) new.2
    have others : rows.filter (altered (KeyedTable.drop row.1 vars)) = rows.filter (altered vars) := by
      refine List.filter_congr fun other member => ?_
      have apart : other.1 ≠ row.1 := fun same => new.1 (List.mem_map.mpr ⟨other, member, same⟩)
      rw [altered, altered, KeyedTable.findDrop apart]
    rw [others, KeyedTable.unlistedDrop] at rest
    rw [variableLoop, variableTurn, KeyedTable.eraseFirst old]
    simp only [rest, List.filter_cons]
    by_cases same : (find row.1 vars).getD [] = row.2 <;> simp [altered, same, setAction]

theorem loadedKeys (vars : List (Setting × Text)) : (loadedVariables vars).map Prod.fst = vars.map Prod.fst :=
  List.map_map ..

theorem variableActionsAre (new : (rows.map Prod.fst).Nodup) :
    variableActions rows (loadedVariables stored.Variables) =
      (rows.filter (altered (loadedVariables stored.Variables))).map setAction ++
        (unlisted stored.Variables rows).map resetAction := by
  have old : ((loadedVariables stored.Variables).map Prod.fst).Nodup := (loadedKeys _).symm ▸ stored.keys
  have left : unlisted (loadedVariables stored.Variables) rows = loadedVariables (unlisted stored.Variables rows) :=
    List.filter_map ..
  rw [variableActions, variableLoopIs old new, left]
  exact congrArg _ (List.map_map ..)

def Denotes (server : Server) (key : Setting) : Prop :=
  (key.1 = [] ∨ Identifier.read server.keyword key.1 = some key.1 ∧ server.databaseExists key.1 = true) ∧
    server.setting key.2 = some key.2

/- The value stands for itself: in a list without quotes, or between quotes with no letter escaped. -/
def Literal (server : Server) (parameter value : Text) : Prop :=
  if isList parameter = true then valueOf server parameter value = some value
  else '\'' ∉ value ∧ (server.literals.conforming = true ∨ '\\' ∉ value) ∧
    server.literalValue parameter value = some value

/- What is listed as it is stored is shown so, and what is stated of the others is read as it is listed. -/
structure Readable (stored : Stored server) (rows : List (Setting × Text)) : Prop where
  loaded : ∀ old ∈ stored.Variables, (old.1, loadedValue old) ∈ rows ∨ old ∈ rows → loadedValue old = old.2
  set : ∀ row ∈ rows, row ∉ loadedVariables stored.Variables → Denotes server row.1 ∧ Literal server row.1.2 row.2
  reset : ∀ old ∈ stored.Variables, old.1 ∉ rows.map Prod.fst → Denotes server old.1

structure Rows (stored : Stored server) (rows : List (Setting × Text)) : Prop where
  keys : (rows.map Prod.fst).Nodup
  entered : ∀ row ∈ rows, row ∈ loadedVariables stored.Variables ∨ row.2 ≠ []

theorem settingKnown {key : Setting} (denotes : Denotes server key) : settingOf server key.1 key.2 = some key := by
  obtain ⟨database, parameter⟩ := key
  have here : databaseOf server database = some database := by
    rcases denotes.1 with rfl | ⟨read, known⟩
    · rfl
    · have nonempty : database ≠ [] := by
        rintro rfl
        cases read
      rw [databaseOf, if_neg nonempty, read, Option.filter_some, if_pos known]
  rw [settingOf, here, denotes.2]
  rfl

theorem valueKnown {parameter value : Text} (literal : Literal server parameter value) :
    valueOf server parameter (assigned parameter value) = some value := by
  rw [Literal] at literal
  rw [assigned]
  split at literal
  · rename_i list
    rwa [if_pos list]
  · rename_i list
    have read : SqlLiteral.read server.literals ('\'' :: value ++ ['\'']) = some (value, []) :=
      SqlLiteral.readBetween.mpr ⟨literal.1, literal.2.1⟩
    rw [if_neg list, valueOf, read]
    exact literal.2.2

theorem alteredIff {vars : List (Setting × Text)} (keys : (vars.map Prod.fst).Nodup) {row : Setting × Text}
    (entered : row ∈ vars ∨ row.2 ≠ []) : altered vars row = true ↔ row ∉ vars := by
  rw [altered, decide_eq_true_iff, ← not_iff_not, not_not, not_not, ← KeyedTable.findIff keys]
  cases here : find row.1 vars with
  | none =>
    have absent : row ∉ vars := fun inside => nomatch here.symm.trans ((KeyedTable.findIff keys).mpr inside)
    simp [Ne.symm (entered.resolve_left absent)]
  | some value => simp

theorem settingsRun (listed : Rows stored rows) (readable : Readable stored rows) (memberships : Text → Option Bool) :
    executed server (variableActions rows (loadedVariables stored.Variables))
      ⟨memberships, stored.database.settings⟩ = some ⟨memberships, fun key => find key rows⟩ := by
  have old : ((loadedVariables stored.Variables).map Prod.fst).Nodup := (loadedKeys _).symm ▸ stored.keys
  rw [variableActionsAre listed.keys]
  refine @KeyedTable.runDifference Setting Text _ Action Database (fun action db => action.execute server db)
    (fun values => ⟨memberships, values⟩) stored.Variables rows stored.keys listed.keys _ _ _
    (fun row inside same => ?_) (fun row inside other values _ => ?_) fun row inside values => ?_
  · have unaltered : row ∈ loadedVariables stored.Variables := by
      by_contra absent
      exact Bool.false_ne_true (same.symm.trans ((alteredIff old (listed.entered row inside)).mpr absent))
    obtain ⟨before, member, rfl⟩ := List.mem_map.mp unaltered
    rw [readable.loaded before member (.inl inside)]
    exact member
  · obtain ⟨denotes, literal⟩ := readable.set row inside ((alteredIff old (listed.entered row inside)).mp other)
    simp [setAction, Action.execute, settingKnown denotes, valueKnown literal]
  · obtain ⟨member, absent⟩ := KeyedTable.memUnlisted.mp inside
    simp [resetAction, Action.execute, settingKnown (readable.reset row member absent)]

end Settings

end PgAdmin.dlgRole
