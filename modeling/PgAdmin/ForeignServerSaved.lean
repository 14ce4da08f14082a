import PgAdmin.ForeignServerOptions

/-! When the statements of the dialog for a foreign server leave what is in the dialog. -/
namespace PgAdmin.dlgForeignServer
open PgsObjects (Text)
open misc (trimBoth)
open KeyedTable (find unlisted)

section Changes
variable {server : Server} {options rows : List (Text × Text)}

def oldChange (rows : List (Text × Text)) (option : Text × Text) : OptionChange :=
  match find option.1 rows with
  | some value => .set option.1 (SqlLiteral.between value)
  | none => .drop option.1

def newChange (row : Text × Text) : OptionChange := .add row.1 (SqlLiteral.between row.2)

def differs (rows : List (Text × Text)) (option : Text × Text) : Bool := find option.1 rows ≠ some option.2

theorem flatMapWhen {A B : Type*} {g : A → List B} {p : A → Bool} {f : A → B}
    (each : ∀ a, g a = if p a = true then [f a] else []) (l : List A) : l.flatMap g = (l.filter p).map f := by
  induction l with
  | nil => rfl
  | cons a l ih =>
    rw [List.flatMap_cons, ih, each, List.filter_cons]
    split <;> rfl

theorem changesJoined (plain : ∀ option ∈ options, Plain option) : optionChanges (joined options) rows =
    (options.filter (differs rows)).map (oldChange rows) ++ (unlisted rows options).map newChange := by
  rw [optionChanges, rowsJoined plain]
  refine congrArg₂ _ (flatMapWhen (fun option => ?_) options) (flatMapWhen (fun row => ?_) rows)
  · cases here : rows.find? fun row => row.1 = option.1 with
    | none => simp [differs, oldChange, find, here]
    | some row => by_cases same : row.2 = option.2 <;> simp [differs, oldChange, find, here, same]
  · by_cases there : find row.1 options = none
    · have absent : ¬(options.any fun option => row.1 = option.1) = true := by
        intro found
        obtain ⟨option, inside, same⟩ := List.any_eq_true.mp found
        exact KeyedTable.findNone.mp there (of_decide_eq_true same ▸ List.mem_map_of_mem inside)
      rw [if_neg absent, there]
      rfl
    · obtain ⟨value, some⟩ := Option.ne_none_iff_exists'.mp there
      have found : (options.any fun option => row.1 = option.1) = true := by
        by_contra absent
        refine there (KeyedTable.findNone.mpr fun member => absent ?_)
        obtain ⟨option, inside, same⟩ := List.mem_map.mp member
        exact List.any_eq_true.mpr ⟨option, inside, decide_eq_true same.symm⟩
      rw [if_pos found, some]
      rfl

def Writable (server : Server) (options rows : List (Text × Text)) : Prop :=
  ∀ row ∈ rows, row ∉ options → Readable server row ∧ server.accepts row.1 row.2 = true

/- The changes with the key each is about and what the key has after it. -/
def updates (options rows : List (Text × Text)) : List (OptionChange × Text × Option Text) :=
  (options.filter (differs rows)).map (fun option => (oldChange rows option, option.1, find option.1 rows)) ++
    (unlisted rows options).map fun row => (newChange row, row.1, some row.2)

theorem updatesActions (plain : ∀ option ∈ options, Plain option) :
    (updates options rows).map Prod.fst = optionChanges (joined options) rows := by
  rw [changesJoined plain]
  simp [updates, List.map_map, Function.comp_def]

theorem updatesKeys : (updates options rows).map (fun update => update.2.1) =
    (options.filter (differs rows)).map Prod.fst ++ (unlisted rows options).map Prod.fst := by
  simp [updates, List.map_map, Function.comp_def]

theorem updatesOnce (old : (options.map Prod.fst).Nodup) (new : (rows.map Prod.fst).Nodup) :
    ((updates options rows).map fun update => update.2.1).Nodup := by
  rw [updatesKeys]
  refine List.nodup_append.mpr ⟨old.sublist (List.filter_sublist.map _), new.sublist (List.filter_sublist.map _), ?_⟩
  rintro key left other right rfl
  obtain ⟨option, inside, rfl⟩ := List.mem_map.mp left
  obtain ⟨row, inside', same⟩ := List.mem_map.mp right
  exact (KeyedTable.memUnlisted.mp inside').2 (same ▸ List.mem_map_of_mem (List.mem_of_mem_filter inside))

theorem updatesFound (new : (rows.map Prod.fst).Nodup) {update : Text × Option Text}
    (member : update ∈ (updates options rows).map Prod.snd) : update.2 = find update.1 rows := by
  obtain ⟨whole, found, rfl⟩ := List.mem_map.mp member
  rcases List.mem_append.mp found with listed | added
  · obtain ⟨option, inside, rfl⟩ := List.mem_map.mp listed
    rfl
  · obtain ⟨row, inside, rfl⟩ := List.mem_map.mp added
    exact ((KeyedTable.findIff new).mpr (KeyedTable.memUnlisted.mp inside).1).symm

theorem updatesRest (old : (options.map Prod.fst).Nodup) (new : (rows.map Prod.fst).Nodup) {key : Text}
    (absent : key ∉ (updates options rows).map fun update => update.2.1) : find key options = find key rows := by
  rw [updatesKeys, List.mem_append, not_or] at absent
  cases there : find key options with
  | some value =>
    by_contra other
    refine absent.1 (List.mem_map.mpr ⟨(key, value), List.mem_filter.mpr ⟨?_, ?_⟩, rfl⟩)
    · exact (KeyedTable.findIff old).mp there
    · exact decide_eq_true (Ne.symm other)
  | none =>
    by_contra other
    obtain ⟨value, listed⟩ := Option.ne_none_iff_exists'.mp (Ne.symm other)
    refine absent.2 (List.mem_map.mpr ⟨(key, value), KeyedTable.memUnlisted.mpr ⟨?_, ?_⟩, rfl⟩)
    · exact (KeyedTable.findIff new).mp listed
    · exact KeyedTable.findNone.mp there

theorem updateRuns (old : (options.map Prod.fst).Nodup) (new : (rows.map Prod.fst).Nodup)
    (readable : ∀ option ∈ options, Readable server option) (writable : Writable server options rows)
    {update : OptionChange × Text × Option Text} (member : update ∈ updates options rows)
    {values : Text → Option Text} (here : values update.2.1 = find update.2.1 options) :
    update.1.execute server values = some (Function.update values update.2.1 update.2.2) := by
  rcases List.mem_append.mp member with listed | added
  · obtain ⟨option, inside, rfl⟩ := List.mem_map.mp listed
    obtain ⟨inside, other⟩ := List.mem_filter.mp inside
    have there : values option.1 = some option.2 := here.trans ((KeyedTable.findIff old).mpr inside)
    have name := (readable option inside).name
    rw [differs, decide_eq_true_iff] at other
    cases found : find option.1 rows with
    | none => simp [oldChange, found, OptionChange.execute, name, there]
    | some value =>
      have row := (KeyedTable.findIff new).mp found
      have changed : (option.1, value) ∉ options := fun same =>
        other (found.trans (((KeyedTable.findIff old).mpr same).symm.trans ((KeyedTable.findIff old).mpr inside)))
      obtain ⟨written, accepted⟩ := writable _ row changed
      simp [oldChange, found, OptionChange.execute, name, literalBetween written.value, there, assign, accepted]
  · obtain ⟨row, inside, rfl⟩ := List.mem_map.mp added
    obtain ⟨inside, absent⟩ := KeyedTable.memUnlisted.mp inside
    have none : values row.1 = none := here.trans (KeyedTable.findNone.mpr absent)
    obtain ⟨written, accepted⟩ := writable row inside fun member => absent (List.mem_map_of_mem member)
    simp [newChange, OptionChange.execute, written.name, literalBetween written.value, none, assign, accepted]

theorem changesRun (old : (options.map Prod.fst).Nodup) (new : (rows.map Prod.fst).Nodup)
    (plain : ∀ option ∈ options, Plain option) (readable : ∀ option ∈ options, Readable server option)
    (writable : Writable server options rows) :
    (optionChanges (joined options) rows).foldlM (fun options change => change.execute server options)
      (fun option => find option options) = some fun option => find option rows := by
  have once := updatesOnce old new
  have keys : ((updates options rows).map Prod.snd).map Prod.fst = (updates options rows).map fun update =>
      update.2.1 := List.map_map ..
  have run := @KeyedTable.runUpdates Text Text _ OptionChange (Text → Option Text)
    (fun change options => change.execute server options) id (fun option => find option options)
    (updates options rows) once (fun _ member _ here => updateRuns old new readable writable member here)
    (fun option => find option options) fun _ _ => rfl
  rw [← updatesActions plain]
  exact run.trans (congrArg some (KeyedTable.updatedTo (by rwa [keys]) (fun _ member => updatesFound new member)
    fun key absent => updatesRest old new (keys ▸ absent)))

theorem changesNone (new : (rows.map Prod.fst).Nodup) (plain : ∀ option ∈ options, Plain option) :
    optionChanges (joined options) rows = [] ↔ ∀ option, option ∈ options ↔ option ∈ rows := by
  rw [changesJoined plain, List.append_eq_nil_iff, List.map_eq_nil_iff, List.map_eq_nil_iff, List.filter_eq_nil_iff]
  constructor
  · rintro ⟨kept, none⟩ option
    have listed (inside : option ∈ options) : option ∈ rows := by
      have same := kept option inside
      rw [differs, decide_eq_true_iff, not_not] at same
      exact (KeyedTable.findIff new).mp same
    refine ⟨listed, fun inside => ?_⟩
    have key : option.1 ∈ options.map Prod.fst := by
      by_contra absent
      have member : option ∈ unlisted rows options := KeyedTable.memUnlisted.mpr ⟨inside, absent⟩
      exact List.not_mem_nil (none ▸ member)
    obtain ⟨other, member, same⟩ := List.mem_map.mp key
    have row : other ∈ rows := by
      have same := kept other member
      rw [differs, decide_eq_true_iff, not_not] at same
      exact (KeyedTable.findIff new).mp same
    exact List.inj_on_of_nodup_map new row inside same ▸ member
  · intro same
    refine ⟨fun option inside => ?_, List.eq_nil_iff_forall_not_mem.mpr fun row inside => ?_⟩
    · rw [differs, decide_eq_true_iff, not_not]
      exact (KeyedTable.findIff new).mpr ((same option).mp inside)
    · obtain ⟨member, absent⟩ := KeyedTable.memUnlisted.mp inside
      exact absent (List.mem_map_of_mem ((same row).mpr member))

end Changes

section Sessions
variable {server : Server} {stored : Stored} {d : Dialog}

theorem setFirstKeys (option value : Text) (rows : List (Text × Text)) :
    (setFirst option value rows).map Prod.fst = rows.map Prod.fst ∨
      option ∉ rows.map Prod.fst ∧ (setFirst option value rows).map Prod.fst = rows.map Prod.fst ++ [option] := by
  induction rows with
  | nil => exact .inr ⟨List.not_mem_nil, rfl⟩
  | cons row rows ih =>
    rw [setFirst]
    by_cases same : ddNetwork.sameNoCase row.1 option = true
    · rw [if_pos same]
      exact .inl rfl
    · rw [if_neg same]
      have apart : option ≠ row.1 := by
        rintro rfl
        exact same (decide_eq_true rfl)
      rcases ih with kept | ⟨absent, added⟩
      · exact .inl (congrArg (row.1 :: ·) kept)
      · refine .inr ⟨?_, congrArg (row.1 :: ·) added⟩
        rw [List.map_cons, List.mem_cons, not_or]
        exact ⟨apart, absent⟩

theorem openedRows (plain : ∀ option ∈ stored.options, Plain option) : (opened stored).lstOptions = stored.options :=
  rowsJoined plain

theorem sessionKeys (plain : ∀ option ∈ stored.options, Plain option) (edits : List Edit) :
    ((session server stored edits).lstOptions.map Prod.fst).Nodup := by
  have start : ((opened stored).lstOptions.map Prod.fst).Nodup := (openedRows plain).symm ▸ stored.keys
  rw [session]
  generalize opened stored = d at start
  induction edits generalizing d with
  | nil => exact start
  | cons edit edits ih =>
    refine ih _ ?_
    cases edit with
    | name txtName =>
      simp only [Edit.apply]
      split
      · exact start
      · exact start
    | version txtVersion => exact start
    | addOption txtOption txtValue =>
      simp only [Edit.apply]
      split
      · exact start
      · rcases setFirstKeys txtOption txtValue d.lstOptions with kept | ⟨absent, added⟩
        · exact kept.symm ▸ start
        · change ((setFirst txtOption txtValue d.lstOptions).map Prod.fst).Nodup
          rw [added]
          exact List.nodup_append.mpr ⟨start, List.nodup_singleton _, fun key member other last => by
            rw [List.mem_singleton.mp last]
            exact fun same => absent (same ▸ member)⟩
    | removeOption sel => exact start.sublist ((List.eraseIdx_sublist ..).map _)

/- A new name is free, and what is listed and new can be written. -/
structure Edited (server : Server) (stored : Stored) (d : Dialog) : Prop where
  free : GetName stored d ≠ stored.name → GetName stored d ≠ [] ∧ server.taken (GetName stored d) = false
  rows : Writable server stored.options d.lstOptions

/- The name in the statement for the options reads as the name the server has by then. -/
def Addressed (server : Server) (stored : Stored) (d : Dialog) : Prop :=
  ¬(∀ option, option ∈ stored.options ↔ option ∈ d.lstOptions) →
    Identifier.read server.keyword (trimBoth d.txtName) = some (GetName stored d)

theorem readName {name : Text} (given : name ≠ []) : Identifier.read server.keyword (qtIdent server name) = some name :=
  Identifier.readQtIdent server.keyword given

theorem versionRead (value : Text) :
    literal server (SqlLiteral.qtDbString server.literals value) = some value := by
  rw [literal, SqlLiteral.readWhole]

theorem firstRun (edited : Edited server stored d) (one : d.txtName = stored.name ∨ d.txtVersion = stored.version)
    (options : Text → Option Text) :
    (if d.txtVersion ≠ stored.version then
      [Statement.version (qtIdent server d.txtName) (SqlLiteral.qtDbString server.literals d.txtVersion)]
      else nameChange server stored d).foldlM (fun db statement => statement.execute server db)
        (Database.mk stored.name stored.version options) = some ⟨GetName stored d, d.txtVersion, options⟩ := by
  by_cases version : d.txtVersion = stored.version
  · rw [if_neg (not_not.mpr version), nameChange]
    by_cases name : stored.name = GetName stored d
    · rw [if_neg (not_not.mpr name), ← name, version]
      rfl
    · obtain ⟨given, free⟩ := edited.free (Ne.symm name)
      rw [if_pos name, List.foldlM_cons, Statement.execute, if_pos (readName stored.named), readName given]
      simp [free, version]
  · have name := one.resolve_right version
    have same : GetName stored d = stored.name := (if_pos name.symm).trans name
    have here : Identifier.read server.keyword (qtIdent server d.txtName) = some stored.name := by
      rw [name]
      exact readName stored.named
    rw [if_pos version, List.foldlM_cons, Statement.execute, if_pos here, versionRead]
    simp [same]

theorem statementsRun (plain : ∀ option ∈ stored.options, Plain option)
    (readable : ∀ option ∈ stored.options, Readable server option) (keys : (d.lstOptions.map Prod.fst).Nodup)
    (edited : Edited server stored d) (one : d.txtName = stored.name ∨ d.txtVersion = stored.version) :
    (statements server stored d).foldlM (fun db statement => statement.execute server db) stored.database =
      if optionChanges (joined stored.options) d.lstOptions = [] ∨
          Identifier.read server.keyword (trimBoth d.txtName) = some (GetName stored d) then
        some ⟨GetName stored d, d.txtVersion, fun option => find option d.lstOptions⟩
      else none := by
  have first := firstRun edited one fun option => find option stored.options
  have changes := changesRun stored.keys keys plain readable edited.rows
  rw [statements]
  by_cases none : optionChanges (joined stored.options) d.lstOptions = []
  · have here : optionChanges (joined stored.options) d.lstOptions = [] ∨
        Identifier.read server.keyword (trimBoth d.txtName) = some (GetName stored d) := .inl none
    rw [if_neg (not_not.mpr none), if_pos here]
    rw [none] at changes
    exact Option.some.inj changes ▸ first
  · rw [if_pos none, List.foldlM_append]
    refine (congrArg (Option.bind · _) first).trans ?_
    rw [Option.bind_some, List.foldlM_cons, Statement.execute, changes]
    by_cases addressed : Identifier.read server.keyword (trimBoth d.txtName) = some (GetName stored d)
    · rw [if_pos addressed, if_pos (.inr addressed)]
      rfl
    · rw [if_neg addressed, if_neg (not_or.mpr ⟨none, addressed⟩)]
      rfl

theorem savedIff (plain : ∀ option ∈ stored.options, Plain option)
    (readable : ∀ option ∈ stored.options, Readable server option) (keys : (d.lstOptions.map Prod.fst).Nodup)
    (edited : Edited server stored d) (one : d.txtName = stored.name ∨ d.txtVersion = stored.version) :
    Saved server stored d ↔ Addressed server stored d := by
  have run := statementsRun plain readable keys edited one
  have addressed : Addressed server stored d ↔ optionChanges (joined stored.options) d.lstOptions = [] ∨
      Identifier.read server.keyword (trimBoth d.txtName) = some (GetName stored d) := by
    rw [Addressed, changesNone keys plain, or_iff_not_imp_left]
  rw [addressed]
  constructor
  · rintro ⟨after, ran, -⟩
    by_contra not_
    rw [run, if_neg not_] at ran
    cases ran
  · intro holds
    rw [if_pos holds] at run
    exact ⟨_, run, rfl, rfl, fun option value => KeyedTable.findIff keys⟩

theorem renameLost (name : d.txtName ≠ stored.name) (version : d.txtVersion ≠ stored.version) :
    ¬Saved server stored d := by
  rintro ⟨after, run, -⟩
  have other : ¬Identifier.read server.keyword (qtIdent server d.txtName) = some stored.database.name := by
    by_cases given : d.txtName = []
    · rw [given]
      exact fun same => nomatch same
    · rw [readName given]
      exact fun same => name (Option.some.inj same)
  have failed (rest : List Statement) :
      (Statement.version (qtIdent server d.txtName) (SqlLiteral.qtDbString server.literals d.txtVersion) ::
        rest).foldlM (fun db statement => statement.execute server db) stored.database = none := by
    rw [List.foldlM_cons, Statement.execute, if_neg other]
    rfl
  rw [statements, if_pos version] at run
  split at run
  · exact nomatch (failed _).symm.trans run
  · exact nomatch (failed _).symm.trans run

theorem openedNone (server : Server) (plain : ∀ option ∈ stored.options, Plain option) :
    statements server stored (opened stored) = [] := by
  have none : optionChanges (joined stored.options) (opened stored).lstOptions = [] := by
    have keys : ((opened stored).lstOptions.map Prod.fst).Nodup := (openedRows plain).symm ▸ stored.keys
    refine (changesNone keys plain).mpr fun option => ?_
    rw [openedRows plain]
  have name : GetName stored (opened stored) = stored.name := if_pos rfl
  rw [statements, none, nameChange, name]
  simp [opened]

/- What is edited is saved, what is not edited is not stated, and CREATE SERVER has the options there are. -/
def Meets (server : Server) (stored : Stored) (d : Dialog) : Prop :=
  Saved server stored d ∧ statements server stored (opened stored) = [] ∧ Created server stored

/- Where the text of the options can be split and what is edited can be written, all is well just where the name or the
version is as it was, the statement for the options names the server, and the options of the server are read as they
are without quotes and escapes. -/
theorem serverSaved (server : Server) (stored : Stored) (edits : List Edit)
    (plain : ∀ option ∈ stored.options, Plain option) (edited : Edited server stored (session server stored edits)) :
    Meets server stored (session server stored edits) ↔
      ((session server stored edits).txtName = stored.name ∨
        (session server stored edits).txtVersion = stored.version) ∧
      Addressed server stored (session server stored edits) ∧
      ∀ option ∈ stored.options, '=' ∉ option.2 ∧ Readable server option := by
  have keys := @sessionKeys server stored plain edits
  generalize session server stored edits = d at edited keys
  constructor
  · rintro ⟨saved, -, created⟩
    have readable := (createdIff plain).mp created
    have one : d.txtName = stored.name ∨ d.txtVersion = stored.version := by
      by_contra both
      rw [not_or] at both
      exact renameLost both.1 both.2 saved
    exact ⟨one, (savedIff plain (fun option inside => (readable option inside).2) keys edited one).mp saved, readable⟩
  · rintro ⟨one, addressed, readable⟩
    exact ⟨(savedIff plain (fun option inside => (readable option inside).2) keys edited one).mpr addressed,
      openedNone server plain, (createdIff plain).mpr readable⟩

end Sessions

section Examples

def recent : Server := ⟨fun _ => false, ⟨true, true, id⟩, true, fun _ => false, fun _ _ => true⟩

def remote : Stored where
  name := "s".toList
  version := "1".toList
  options := [("host".toList, "a".toList), ("port".toList, "1".toList)]
  named := by decide
  keys := by decide
  given := by decide

def moved : List Edit :=
  [.name "t".toList, .addOption "host".toList "b".toList, .removeOption 1, .addOption "user".toList "u".toList]

theorem movedSaved : Meets recent remote (session recent remote moved) := by
  have plain : ∀ option ∈ remote.options, Plain option := by
    intro option inside
    rcases List.mem_cons.mp inside with rfl | last
    · exact ⟨by decide, ⟨by decide, by decide⟩, by decide, ⟨by decide, by decide⟩⟩
    · cases List.mem_singleton.mp last
      exact ⟨by decide, ⟨by decide, by decide⟩, by decide, ⟨by decide, by decide⟩⟩
  have dialog : session recent remote moved =
      ⟨"t".toList, "1".toList, [("host".toList, "b".toList), ("user".toList, "u".toList)]⟩ := rfl
  have addressed : Addressed recent remote (session recent remote moved) := fun _ => by
    rw [dialog]
    decide
  refine (serverSaved recent remote moved plain ?_).mpr ⟨.inr rfl, addressed, fun option inside => ?_⟩
  · rw [dialog]
    refine ⟨fun _ => ⟨by decide, rfl⟩, fun row inside _ => ?_⟩
    rcases List.mem_cons.mp inside with rfl | last
    · exact ⟨⟨by decide, by decide, .inl rfl⟩, rfl⟩
    · cases List.mem_singleton.mp last
      exact ⟨⟨by decide, by decide, .inl rfl⟩, rfl⟩
  · rcases List.mem_cons.mp inside with rfl | last
    · exact ⟨by decide, by decide, by decide, .inl rfl⟩
    · cases List.mem_singleton.mp last
      exact ⟨by decide, by decide, by decide, .inl rfl⟩

/- With a new version, the new name is not stated. -/
theorem nameLost : ¬Meets recent remote (session recent remote [.name "t".toList, .version "2".toList]) := by
  rintro ⟨⟨after, run, -⟩, -⟩
  cases run

end Examples

end PgAdmin.dlgForeignServer
