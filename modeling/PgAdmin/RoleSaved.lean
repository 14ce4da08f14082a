import Mathlib.Data.List.Induction
import Mathlib.Data.List.Perm.Basic
import PgAdmin.RoleStatements

/-! What the dialog for a role lists after any edits, and when its statements make the role so. -/
namespace PgAdmin.dlgRole
open PgsObjects (Text)
open KeyedTable (find)

section Editing
variable {sorted : Text → Text → Bool}

theorem appendPerm {α : Type} (text : α → Text) (item : α) (items : List α) :
    (Append sorted text item items).Perm (item :: items) := by
  rw [Append]
  refine List.perm_middle.trans ?_
  rw [List.takeWhile_append_dropWhile]

theorem mapAppend {α : Type} (text : α → Text) (item : α) (items : List α) :
    (Append sorted text item items).map text = Append sorted id (text item) (items.map text) := by
  rw [Append, Append, List.map_append, List.map_cons, List.takeWhile_map, List.dropWhile_map]
  rfl

theorem appendedPerm {α : Type} (text : α → Text) (items : List α) (start : List α) :
    (items.foldl (fun items item => Append sorted text item items) start).Perm (start ++ items) := by
  induction items generalizing start with
  | nil => rw [List.append_nil, List.foldl_nil]
  | cons item items ih =>
    refine (ih _).trans (((appendPerm text item start).append_right items).trans ?_)
    exact List.perm_middle.symm

theorem mapAppended {α : Type} (text : α → Text) (items : List α) (start : List α) :
    (items.foldl (fun items item => Append sorted text item items) start).map text =
      (items.map text).foldl (fun items item => Append sorted id item items) (start.map text) := by
  induction items generalizing start with
  | nil => rfl
  | cons item items ih => rw [List.foldl_cons, ih, mapAppend, List.map_cons, List.foldl_cons]

theorem eraseMember {α : Type} {items : List α} {pos : ℕ} {item : α} (found : items[pos]? = some item) :
    (item :: items.eraseIdx pos).Perm items := by
  obtain ⟨within, rfl⟩ := List.getElem?_eq_some_iff.mp found
  exact List.getElem_cons_eraseIdx_perm within

end Editing

section Sessions
variable {sorted : Text → Text → Bool} {server : Server} {stored : Stored server} {readOnly : Bool}

/- The dialog shows what is listed. -/
structure Shows (stored : Stored server) (readOnly : Bool) (d : Dialog) (l : Listed) : Prop where
  readOnly : d.readOnly = readOnly
  rolesIn : d.lbRolesIn = l.rolesIn.map shown
  rolesNotIn : d.lbRolesNotIn = l.rolesNotIn
  roles : (l.rolesIn.map Prod.fst ++ l.rolesNotIn).Perm stored.roles
  fresh : ∀ membership ∈ l.rolesIn, membership ∈ stored.rolesIn ∨ marked membership.1 = false
  rows : Rows stored d.lstVariables

variable {d : Dialog} {l : Listed}

theorem Shows.follows (shows : Shows stored readOnly d l) : Follows stored l.rolesIn where
  distinct := (List.nodup_append.mp (shows.roles.nodup_iff.mpr stored.distinct)).1
  known _ inside := shows.roles.mem_iff.mp (List.mem_append_left _ (List.mem_map_of_mem inside))
  fresh := shows.fresh

theorem addShows (shows : Shows stored false d l) {pos : ℕ} (admin : Bool)
    (plain : ∀ role ∈ l.rolesNotIn[pos]?, marked role = false) :
    Shows stored false (OnRoleAdd sorted pos admin d) (l.add sorted pos admin) := by
  rw [OnRoleAdd, shows.readOnly, if_neg Bool.false_ne_true, Listed.add, shows.rolesNotIn]
  cases found : l.rolesNotIn[pos]? with
  | none => exact shows
  | some role =>
    have perm := @appendPerm sorted _ shown (role, admin) l.rolesIn
    refine ⟨rfl, ?_, rfl, ?_, fun membership inside => ?_, shows.rows⟩
    · exact (congrArg (Append sorted id _) shows.rolesIn).trans (mapAppend shown (role, admin) l.rolesIn).symm
    · refine ((perm.map Prod.fst).append_right _).trans (List.perm_middle.symm.trans ?_)
      exact ((eraseMember found).append_left _).trans shows.roles
    · rcases List.mem_cons.mp (perm.mem_iff.mp inside) with rfl | old
      · exact .inr (plain role found)
      · exact shows.fresh membership old

theorem unmarkedShown {membership : Text × Bool} (plain : marked membership.1 = false) :
    (if marked (shown membership) then unmarked (shown membership) else shown membership) = membership.1 := by
  obtain ⟨role, admin⟩ := membership
  cases admin with
  | false => exact if_neg (by simpa [shown] using plain)
  | true =>
    change (if marked (role ++ mark) then unmarked (role ++ mark) else role ++ mark) = role
    rw [markedAppend, unmarkedAppend]
    rfl

theorem removeShows (shows : Shows stored false d l) {pos : ℕ}
    (plain : ∀ membership ∈ l.rolesIn[pos]?, marked membership.1 = false) :
    Shows stored false (OnRoleRemove sorted pos d) (l.remove sorted pos) := by
  rw [OnRoleRemove, shows.readOnly, if_neg Bool.false_ne_true, Listed.remove, shows.rolesIn, List.getElem?_map]
  cases found : l.rolesIn[pos]? with
  | none => exact shows
  | some membership =>
    refine ⟨rfl, List.eraseIdx_map .., ?_, ?_, fun other inside => ?_, shows.rows⟩
    · change Append sorted id (if marked (shown membership) then unmarked (shown membership) else shown membership)
        d.lbRolesNotIn = Append sorted id membership.1 l.rolesNotIn
      rw [unmarkedShown (plain membership found), shows.rolesNotIn]
    · have perm := @appendPerm sorted _ id membership.1 l.rolesNotIn
      refine (perm.append_left _).trans (List.perm_middle.trans ?_)
      exact (((eraseMember found).map Prod.fst).append_right _).trans shows.roles
    · exact shows.fresh other (List.mem_of_mem_eraseIdx inside)

theorem enteredSome (chkValue : Option Bool) (txtValue : Text) : enteredValue chkValue txtValue ≠ [] := by
  have all (value : Text) : (if value = [] then "DEFAULT".toList else value) ≠ [] := by
    split
    · exact List.cons_ne_nil _ _
    · assumption
  exact all _

theorem prevposWithin {key : Setting} {rows : List (Setting × Text)} {pos : ℕ} (found : prevpos key rows = some pos) :
    pos < rows.length := by
  obtain ⟨row, last, rfl⟩ := Option.map_eq_some_iff.mp found
  have inside := List.mem_of_mem_filter (List.mem_of_getLast? last)
  exact (List.mem_zipIdx' inside).1

theorem addedRows {rows : List (Setting × Text)} (listed : Rows stored rows) (key : Setting) {value : Text}
    (entered : value ≠ []) : Rows stored (variableAdded key value rows) := by
  rw [variableAdded]
  by_cases there : (rows.any fun row => row.1 = key) = true
  · rw [if_pos there]
    have keys : (KeyedTable.set key value rows).map Prod.fst = rows.map Prod.fst := by
      rw [KeyedTable.set, List.map_map]
      refine List.map_congr_left fun row _ => ?_
      by_cases here : row.1 = key <;> simp [here]
    refine ⟨keys ▸ listed.keys, fun row inside => ?_⟩
    obtain ⟨old, member, rfl⟩ := List.mem_map.mp inside
    by_cases here : old.1 = key
    · rw [if_pos here]
      exact .inr entered
    · rw [if_neg here]
      exact listed.entered old member
  · rw [if_neg there]
    have absent : key ∉ rows.map Prod.fst := by
      rintro member
      obtain ⟨row, inside, rfl⟩ := List.mem_map.mp member
      exact there (List.any_eq_true.mpr ⟨row, inside, decide_eq_true rfl⟩)
    have more (new : List (Setting × Text)) (perm : new.Perm ((key, value) :: rows)) : Rows stored new := by
      refine ⟨(perm.map Prod.fst).nodup_iff.mpr (List.nodup_cons.mpr ⟨absent, listed.keys⟩), fun row inside => ?_⟩
      rcases List.mem_cons.mp (perm.mem_iff.mp inside) with rfl | old
      · exact .inr entered
      · exact listed.entered row old
    cases found : prevpos key rows with
    | none => exact more _ (List.perm_append_singleton _ _)
    | some pos => exact more _ (List.perm_insertIdx _ _ (prevposWithin found).le)

theorem openedShows (stored : Stored server) (readOnly : Bool) :
    Shows stored readOnly (session sorted readOnly stored []).1 (session sorted readOnly stored []).2 := by
  refine ⟨rfl, (mapAppended shown stored.rolesIn []).symm, rfl, ?_, fun membership inside => ?_, ?_⟩
  · exact ((appendedPerm shown stored.rolesIn []).map Prod.fst).append (appendedPerm id stored.rolesNotIn [])
  · exact .inl ((appendedPerm shown stored.rolesIn []).mem_iff.mp inside)
  · exact ⟨loadedKeys stored.Variables ▸ stored.keys, fun row inside => .inl inside⟩

/- No role that an edit picks has a name that ends in the mark. -/
def PicksPlain (sorted : Text → Text → Bool) (readOnly : Bool) (stored : Stored server) (edits : List Edit) : Prop :=
  ∀ before edit after, edits = before ++ edit :: after →
    ∀ role ∈ edit.picked (session sorted readOnly stored before).2, marked role = false

theorem sessionShows {edits : List Edit} (plain : PicksPlain sorted readOnly stored edits) :
    Shows stored readOnly (session sorted readOnly stored edits).1 (session sorted readOnly stored edits).2 := by
  induction edits using List.reverseRecOn with
  | nil => exact openedShows stored readOnly
  | append_singleton edits edit ih =>
    have shows := ih fun before picked after split => plain before picked (after ++ [edit]) (by simp [split])
    have picked := plain edits edit [] rfl
    rw [session, List.foldl_concat]
    change Shows stored readOnly (edit.apply sorted (session sorted readOnly stored edits).1)
      (edit.list sorted readOnly (session sorted readOnly stored edits).2)
    generalize session sorted readOnly stored edits = run at shows picked ⊢
    cases edit with
    | roleAdd pos admin =>
      cases readOnly with
      | true =>
        have same : OnRoleAdd sorted pos admin run.1 = run.1 := if_pos shows.readOnly
        change Shows stored true (OnRoleAdd sorted pos admin run.1) run.2
        rwa [same]
      | false => exact addShows shows admin picked
    | roleRemove pos =>
      cases readOnly with
      | true =>
        have same : OnRoleRemove sorted pos run.1 = run.1 := if_pos shows.readOnly
        change Shows stored true (OnRoleRemove sorted pos run.1) run.2
        rwa [same]
      | false =>
        exact removeShows shows fun membership found => picked membership.1 (Option.mem_map_of_mem Prod.fst found)
    | varAdd database name checked text =>
      change Shows stored readOnly (OnVarAdd database name checked text run.1) run.2
      rw [OnVarAdd]
      split
      · exact shows
      · exact ⟨shows.1, shows.2, shows.3, shows.4, shows.5, addedRows shows.rows _ (enteredSome checked text)⟩
    | varRemove pos =>
      refine ⟨shows.1, shows.2, shows.3, shows.4, shows.5, ?_, fun row inside => ?_⟩
      · exact shows.rows.keys.sublist ((List.eraseIdx_sublist ..).map _)
      · exact shows.rows.entered row (List.mem_of_mem_eraseIdx inside)

theorem untouched {role : Text} {statements : List Action} {db after : Database}
    (run : executed server statements db = some after)
    (others : ∀ action ∈ statements, ∀ name ∈ action.role, Identifier.read server.keyword name ≠ some role) :
    after.memberships role = db.memberships role := by
  induction statements generalizing db with
  | nil =>
    cases run
    rfl
  | cons action statements ih =>
    rw [executed, List.foldlM_cons] at run
    obtain ⟨next, first, rest⟩ := Option.bind_eq_some_iff.mp run
    rw [ih rest fun action member => others action (List.mem_cons_of_mem _ member)]
    have other := others action List.mem_cons_self
    have apart {name found : Text} (here : name ∈ action.role) (read : roleOf server name = some found) :
        role ≠ found := by
      rintro rfl
      exact other name here (Option.filter_eq_some_iff.mp read).1
    cases action with
    | grant name admin =>
      obtain ⟨found, read, first⟩ := Option.bind_eq_some_iff.mp first
      split at first
      · cases first
      · cases first
        exact Function.update_of_ne (apart rfl read) _ _
    | revokeAdmin name =>
      obtain ⟨found, read, first⟩ := Option.bind_eq_some_iff.mp first
      cases first
      exact Function.update_of_ne (apart rfl read) _ _
    | revoke name =>
      obtain ⟨found, read, first⟩ := Option.bind_eq_some_iff.mp first
      cases first
      exact Function.update_of_ne (apart rfl read) _ _
    | set database parameter value =>
      obtain ⟨key, -, first⟩ := Option.bind_eq_some_iff.mp first
      obtain ⟨value, -, first⟩ := Option.bind_eq_some_iff.mp first
      cases first
      rfl
    | reset database parameter =>
      obtain ⟨key, -, first⟩ := Option.bind_eq_some_iff.mp first
      cases first
      rfl

theorem actionRole (old : List (Text × Bool)) (membership : Text × Bool) :
    (membershipAction server old membership).role = some (qtIdent server membership.1) := by
  rw [membershipAction]
  split <;> rfl

theorem actionRevoked {old : List (Text × Bool)} {membership : Text × Bool} {name : Text}
    (revoked : name ∈ (membershipAction server old membership).revoked) : name = qtIdent server membership.1 := by
  rw [membershipAction] at revoked
  split at revoked
  · exact (Option.some.inj revoked).symm
  · cases revoked

theorem memActions (apart : NamesApart stored l.rolesIn) (shows : Shows stored readOnly d l) {action : Action}
    (inside : action ∈ actions stored d) :
    (∃ m ∈ changed stored l.rolesIn, action = membershipAction server stored.rolesIn m) ∨
      (∃ m ∈ KeyedTable.unlisted stored.rolesIn l.rolesIn, action = .revoke (qtIdent server (shown m))) ∨
      (∃ row ∈ d.lstVariables, altered (loadedVariables stored.Variables) row = true ∧ action = setAction row) ∨
      ∃ row ∈ KeyedTable.unlisted stored.Variables d.lstVariables, action = resetAction row := by
  rw [actions, shows.rolesIn, membershipActionsAre apart shows.follows, variableActionsAre shows.rows.keys] at inside
  rcases List.mem_append.mp inside with membership | setting
  · rcases List.mem_append.mp membership with listed | left
    · obtain ⟨m, member, rfl⟩ := List.mem_map.mp listed
      exact .inl ⟨m, member, rfl⟩
    · obtain ⟨m, member, rfl⟩ := List.mem_map.mp left
      exact .inr (.inl ⟨m, member, rfl⟩)
  · rcases List.mem_append.mp setting with listed | left
    · obtain ⟨row, member, rfl⟩ := List.mem_map.mp listed
      exact .inr (.inr (.inl ⟨row, (List.mem_filter.mp member).1, (List.mem_filter.mp member).2, rfl⟩))
    · obtain ⟨row, member, rfl⟩ := List.mem_map.mp left
      exact .inr (.inr (.inr ⟨row, member, rfl⟩))

theorem memberOnce {m m' : Text × Bool} (left : m ∈ stored.rolesIn) (right : m' ∈ stored.rolesIn) (same : m.1 = m'.1) :
    m = m' := List.inj_on_of_nodup_map (memberNames stored) left right same

theorem savedOf (apart : NamesApart stored l.rolesIn) (shows : Shows stored readOnly d l)
    (granted : ∀ m ∈ l.rolesIn, m.1 ∉ stored.rolesIn.map Prod.fst → server.circular m.1 = false)
    (readable : Readable stored d.lstVariables)
    (kept : ∀ m ∈ stored.rolesIn, m.2 = true → m.1 ∈ l.rolesIn.map Prod.fst) : Saved stored d l := by
  have follows := shows.follows
  have bare {m : Text × Bool} (inside : m ∈ KeyedTable.unlisted stored.rolesIn l.rolesIn) : shown m = m.1 := by
    obtain ⟨member, absent⟩ := KeyedTable.memUnlisted.mp inside
    exact if_neg fun admin => absent (kept m member admin)
  refine ⟨Identifier.readQtIdent server.keyword stored.named, ?_, ?_, ?_, ?_⟩
  · refine ⟨⟨fun role => find role l.rolesIn, fun key => find key d.lstVariables⟩, ?_,
      fun role admin => KeyedTable.findIff follows.distinct, fun key value => KeyedTable.findIff shows.rows.keys⟩
    rw [actions, shows.rolesIn, executed, List.foldlM_append]
    have first := membershipsRun apart follows granted kept stored.database.settings
    have second := settingsRun shows.rows readable fun role => find role l.rolesIn
    rw [executed] at first second
    rw [Option.bind_eq_bind, (first : List.foldlM _ stored.database _ = _), Option.bind_some, second]
  · intro action inside role revoked
    rcases memActions apart shows inside with ⟨m, member, rfl⟩ | ⟨m, member, rfl⟩ | ⟨row, -, -, rfl⟩ | ⟨row, -, rfl⟩
    · rw [actionRevoked revoked]
      exact ⟨m.1, roleKnown (follows.known m (changedIff.mp member).1)⟩
    · cases revoked
      rw [bare member]
      exact ⟨m.1, roleKnown (memberKnown (KeyedTable.memUnlisted.mp member).1)⟩
    · cases revoked
    · cases revoked
  · intro m old listed action inside same
    rcases memActions apart shows inside with ⟨m', member, rfl⟩ | ⟨m', member, rfl⟩ | ⟨row, -, -, rfl⟩ | ⟨row, -, rfl⟩
    · obtain ⟨listed', other⟩ := changedIff.mp member
      rw [actionRole] at same
      have name := identifierInj (follows.known m' listed') (memberKnown old) (Option.some.inj same)
      have equal := List.inj_on_of_nodup_map follows.distinct listed' listed name
      exact other ((KeyedTable.findIff (memberNames stored)).mpr (equal ▸ old))
    · obtain ⟨old', absent⟩ := KeyedTable.memUnlisted.mp member
      have same : qtIdent server (shown m') = qtIdent server m.1 := Option.some.inj same
      rw [bare member] at same
      have name := identifierInj (memberKnown old') (memberKnown old) same
      exact absent (name ▸ List.mem_map_of_mem listed)
    · cases same
    · cases same
  · intro row old listed action inside same
    rcases memActions apart shows inside with
      ⟨m, -, rfl⟩ | ⟨m, -, rfl⟩ | ⟨row', listed', other, rfl⟩ | ⟨row', left, rfl⟩
    · rw [membershipAction] at same
      split at same <;> cases same
    · cases same
    · have key : row'.1 = row.1 := Option.some.inj same
      have equal := List.inj_on_of_nodup_map shows.rows.keys listed' listed key
      subst equal
      have loaded : row' ∈ loadedVariables stored.Variables :=
        List.mem_map.mpr ⟨row', old, Prod.ext rfl (readable.loaded row' old (.inr listed))⟩
      have keys : ((loadedVariables stored.Variables).map Prod.fst).Nodup := (loadedKeys _).symm ▸ stored.keys
      exact (alteredIff keys (.inl loaded)).mp other loaded
    · have key : row'.1 = row.1 := Option.some.inj same
      exact (KeyedTable.memUnlisted.mp left).2 (key ▸ List.mem_map_of_mem listed)

theorem lostStays (apart : NamesApart stored l.rolesIn) (shows : Shows stored readOnly d l) {m : Text × Bool}
    (old : m ∈ stored.rolesIn) (admin : m.2 = true) (absent : m.1 ∉ l.rolesIn.map Prod.fst) : ¬Saved stored d l := by
  rintro ⟨-, ⟨after, run, memberships, -⟩, -, -, -⟩
  have stays : after.memberships m.1 = stored.database.memberships m.1 := by
    refine untouched run fun action inside name named => ?_
    rcases memActions apart shows inside with ⟨m', member, rfl⟩ | ⟨m', member, rfl⟩ | ⟨row, -, -, rfl⟩ | ⟨row, -, rfl⟩
    · have listed := (changedIff.mp member).1
      rw [actionRole, Option.mem_some_iff] at named
      rw [← named, readRole (shows.follows.known m' listed)]
      exact fun same => absent (Option.some.inj same ▸ List.mem_map_of_mem listed)
    · have member' := (KeyedTable.memUnlisted.mp member).1
      cases named
      obtain ⟨role, admin'⟩ := m'
      have nonempty := (stored.known role (memberKnown member')).1
      cases admin' with
      | false =>
        change Identifier.read server.keyword (qtIdent server role) ≠ _
        rw [readRole (memberKnown member')]
        intro same
        have equal := memberOnce member' old (Option.some.inj same)
        exact Bool.false_ne_true ((congrArg Prod.snd equal).trans admin)
      | true =>
        change Identifier.read server.keyword (qtIdent server (role ++ mark)) ≠ _
        have read : Identifier.read server.keyword (qtIdent server (role ++ mark)) = some (role ++ mark) :=
          Identifier.readQtIdent server.keyword (List.append_ne_nil_of_left_ne_nil nonempty _)
        rw [read]
        intro same
        have named : role ∈ (stored.rolesIn ++ l.rolesIn).map Prod.fst :=
          List.mem_map_of_mem (List.mem_append_left _ member')
        exact apart role named (Option.some.inj same ▸ List.mem_map_of_mem old)
    · cases named
    · cases named
  have here : stored.database.memberships m.1 = some m.2 := (KeyedTable.findIff (memberNames stored)).mpr old
  have listed := (memberships m.1 m.2).mp (stays.trans here)
  exact absent (List.mem_map_of_mem listed)

/- Where no name that is shown or picked is taken for another one with the mark, and what stands without quotes is read
as it is listed, the role is saved just where every role it had with admin option is listed still. -/
theorem roleSaved (sorted : Text → Text → Bool) (readOnly : Bool) {server : Server} (stored : Stored server)
    (edits : List Edit) (apart : NamesApart stored (session sorted readOnly stored edits).2.rolesIn)
    (plain : PicksPlain sorted readOnly stored edits)
    (granted : ∀ m ∈ (session sorted readOnly stored edits).2.rolesIn, m.1 ∉ stored.rolesIn.map Prod.fst →
      server.circular m.1 = false)
    (readable : Readable stored (session sorted readOnly stored edits).1.lstVariables) :
    Saved stored (session sorted readOnly stored edits).1 (session sorted readOnly stored edits).2 ↔
      ∀ m ∈ stored.rolesIn, m.2 = true → m.1 ∈ (session sorted readOnly stored edits).2.rolesIn.map Prod.fst := by
  have shows := sessionShows plain
  refine ⟨fun saved m old admin => ?_, savedOf apart shows granted readable⟩
  by_contra absent
  exact lostStays apart shows old admin absent saved

end Sessions

section Examples

theorem bothOn : true = true → true = true := id

def lettered : Server where
  keyword _ := false
  literals := ⟨true, true, bothOn⟩
  roleExists role := role.length == 1
  circular _ := false
  databaseExists _ := false
  setting := some
  literalValue _ value := some value
  listValue _ value := some value

def workMem : Setting := ([], "work_mem".toList)

def member : Stored lettered where
  name := "m".toList
  rolesIn := [("a".toList, true), ("b".toList, false)]
  rolesNotIn := ["c".toList]
  Variables := [(workMem, "1MB".toList)]
  named := by decide
  distinct := by decide
  known := by decide
  acyclic := by decide
  keys := by decide

def anyOrder : Text → Text → Bool := fun _ _ => true

def regrouped : List Edit :=
  [.roleRemove 1, .roleAdd 0 true, .varAdd [] "work_mem".toList none "2MB".toList]

theorem regroupedSaved :
    Saved member (session anyOrder false member regrouped).1 (session anyOrder false member regrouped).2 := by
  have rows : (session anyOrder false member regrouped).1.lstVariables = [(workMem, "2MB".toList)] := rfl
  have apart : NamesApart member (session anyOrder false member regrouped).2.rolesIn := by
    rw [NamesApart, Apart]
    decide
  refine (roleSaved anyOrder false member regrouped apart ?_ (fun _ _ _ => rfl) ?_).mpr ?_
  · intro before edit after split role picked
    rcases before with _ | ⟨first, _ | ⟨second, _ | ⟨third, before⟩⟩⟩
    · cases split
      cases picked
      rfl
    · cases split
      cases picked
      rfl
    · cases split
      cases picked
    · exact absurd split (by simp [regrouped])
  · rw [rows]
    refine ⟨fun old inside _ => ?_, fun row inside _ => ?_, fun old inside absent => ?_⟩
    · cases List.mem_singleton.mp inside
      rfl
    · cases List.mem_singleton.mp inside
      exact ⟨⟨.inl rfl, rfl⟩, by decide, .inl rfl, rfl⟩
    · cases List.mem_singleton.mp inside
      exact absurd List.mem_cons_self absent
  · intro m inside admin
    rcases List.mem_cons.mp inside with rfl | other
    · exact List.mem_cons_self
    · cases List.mem_singleton.mp other
      cases admin

/- A membership with admin option is removed. -/
theorem adminRemoved : ¬Saved member (session anyOrder false member [.roleRemove 0]).1
    (session anyOrder false member [.roleRemove 0]).2 := by
  intro saved
  have inside : Action.revoke "\"a(*)\"".toList ∈ actions member (session anyOrder false member [.roleRemove 0]).1 :=
    List.mem_cons_self
  obtain ⟨name, read⟩ := saved.revokes _ inside _ rfl
  cases read

end Examples

end PgAdmin.dlgRole
