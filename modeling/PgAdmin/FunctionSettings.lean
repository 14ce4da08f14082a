import PgAdmin.FunctionDialog

/-! The settings of a function: what the dialog states of them, and when that leaves what is listed. -/
namespace PgAdmin.dlgFunction
open PgsObjects (Text)
open wxString (BeforeFirst AfterFirst)
open ddNetwork (sameNoCase)
open dlgRole (assigned valueOf)
open KeyedTable (find)

section Loop
variable {server : Server} {stored : Stored server} {d : Dialog} {config rows : List (Text × Text)}

def plain (config : List (Text × Text)) : Prop := ∀ old ∈ config, '=' ∉ old.1

def distinct (rows : List (Text × Text)) : Prop := (rows.map fun row => lower row.1).Nodup

theorem keyedKeys (rows : List (Text × Text)) : (keyed rows).map Prod.fst = rows.map fun row => lower row.1 :=
  List.map_map ..

theorem keyedNodup (once : distinct rows) : ((keyed rows).map Prod.fst).Nodup := (keyedKeys rows).symm ▸ once

theorem isOfItem {old : Text × Text} (free : '=' ∉ old.1) (name : Text) :
    isOf name (configItem old) = decide (lower old.1 = lower name) := by
  rw [isOf, configItem, wxString.beforeFirstStop free]
  rfl

theorem loadedVariablesAre (stored : Stored server) : loadedVariables stored = stored.config := by
  rw [loadedVariables, configList, List.map_map]
  refine (List.map_congr_left fun row inside => ?_).trans (List.map_id _)
  have free := stored.settings row inside
  rw [Function.comp_apply, configItem, wxString.beforeFirstStop free, wxString.afterFirstStop free]
  rfl

theorem oldValueIs (free : plain config) (name : Text) :
    oldValue name (config.map configItem) = (find (lower name) (keyed config)).getD [] := by
  induction config with
  | nil => rfl
  | cons old config ih =>
    have rest := ih fun other inside => free other (List.mem_cons_of_mem _ inside)
    have here := isOfItem (free old List.mem_cons_self) name
    have cons : keyed (old :: config) = (lower old.1, old.2) :: keyed config := rfl
    rw [oldValue, List.map_cons, List.find?_cons, here, cons, KeyedTable.findCons]
    by_cases same : lower old.1 = lower name
    · have letters : name.length = old.1.length := by
        simpa [lower] using (congrArg List.length same).symm
      rw [if_pos same, letters]
      simp [same, configItem]
    · rw [if_neg same, ← rest, oldValue]
      simp [same]

theorem eraseOld (free : plain config) (once : distinct config) (name : Text) :
    (config.map configItem).eraseP (isOf name) =
      (config.filter fun old => lower old.1 ≠ lower name).map configItem := by
  induction config with
  | nil => rfl
  | cons old config ih =>
    rw [distinct, List.map_cons, List.nodup_cons] at once
    have rest := ih (fun other inside => free other (List.mem_cons_of_mem _ inside)) once.2
    have here := isOfItem (free old List.mem_cons_self) name
    by_cases same : lower old.1 = lower name
    · have others : config.filter (fun old => lower old.1 ≠ lower name) = config := by
        refine List.filter_eq_self.mpr fun other inside => decide_eq_true fun equal => once.1 ?_
        exact List.mem_map.mpr ⟨other, inside, equal.trans same.symm⟩
      rw [List.map_cons, List.eraseP_cons_of_pos (by rw [here]; exact decide_eq_true same),
        List.filter_cons_of_neg (by simpa using same), others]
    · rw [List.map_cons, List.eraseP_cons_of_neg (by simpa [here] using same), rest,
        List.filter_cons_of_pos (by simpa using same), List.map_cons]

def stated (stored : Stored server) (d : Dialog) (config : List (Text × Text)) (row : Text × Text) : Bool :=
  (find (lower row.1) (keyed config)).getD [] ≠ row.2 ∨ didChange stored d

def left (rows config : List (Text × Text)) : List (Text × Text) :=
  config.filter fun old => (find (lower old.1) (keyed rows)).isNone

theorem memLeft {old : Text × Text} :
    old ∈ left rows config ↔ old ∈ config ∧ lower old.1 ∉ rows.map fun row => lower row.1 := by
  rw [left, List.mem_filter, Option.isNone_iff_eq_none, KeyedTable.findNone, keyedKeys]

abbrev Change := Text × Option Text

def setChange (row : Text × Text) : Change := (row.1, some (assigned row.1 row.2))

def resetChange (old : Text × Text) : Change := (old.1, none)

def Change.statement (a : Address) (change : Change) : Statement :=
  change.2.elim (.reset a change.1) (.set a change.1)

theorem variableLoopIs (free : plain config) (once : distinct config) (new : distinct rows) :
    variableLoop stored d rows (config.map configItem) =
      ((rows.filter (stated stored d config)).map fun row => (setChange row).statement (function stored d),
        (left rows config).map configItem) := by
  induction rows generalizing config with
  | nil =>
    have all : left [] config = config := List.filter_eq_self.mpr fun _ _ => rfl
    rw [all]
    rfl
  | cons row rows ih =>
    rw [distinct, List.map_cons, List.nodup_cons] at new
    let others := config.filter fun old => lower old.1 ≠ lower row.1
    have part : others.Sublist config := List.filter_sublist
    have rest := ih (fun other inside => free other (part.mem inside)) (once.sublist (part.map _)) new.2
    have same : rows.filter (stated stored d others) = rows.filter (stated stored d config) := by
      refine List.filter_congr fun other member => ?_
      have apart : lower other.1 ≠ lower row.1 := fun equal =>
        new.1 (List.mem_map.mpr ⟨other, member, equal⟩)
      have table : keyed others = KeyedTable.drop (lower row.1) (keyed config) := by
        rw [keyed, KeyedTable.drop, keyed, List.filter_map]
        rfl
      rw [stated, stated, table, KeyedTable.findDrop apart]
    have kept : left rows others = left (row :: rows) config := by
      rw [left, List.filter_filter]
      refine List.filter_congr fun old _ => ?_
      have cons : keyed (row :: rows) = (lower row.1, row.2) :: keyed rows := rfl
      rw [cons, KeyedTable.findCons]
      by_cases here : lower row.1 = lower old.1
      · simp [here]
      · simp [here, Ne.symm here]
    rw [same, kept] at rest
    rw [variableLoop, variableTurn, eraseOld free once, oldValueIs free]
    simp only [others, rest, List.filter_cons]
    by_cases turn : stated stored d config row = true
    · rw [if_pos turn, if_pos (by simpa [stated] using turn)]
      rfl
    · rw [if_neg turn, if_neg (by simpa [stated] using turn)]
      rfl

def changes (stored : Stored server) (d : Dialog) : List Change :=
  (d.lstVariables.filter (stated stored d stored.config)).map setChange ++
    (left d.lstVariables stored.config).map resetChange

theorem variableChangeIs (new : distinct d.lstVariables) :
    variableChange stored d = (changes stored d).map (Change.statement (function stored d)) := by
  have named : (left d.lstVariables stored.config).map (fun old => BeforeFirst (configItem old) '=') =
      (left d.lstVariables stored.config).map Prod.fst := by
    refine List.map_congr_left fun old inside => ?_
    exact wxString.beforeFirstStop (stored.settings old (memLeft.mp inside).1) _
  have resets : ((left d.lstVariables stored.config).map configItem).map (fun item =>
      Statement.reset (function stored d) (BeforeFirst item '=')) =
      (left d.lstVariables stored.config).map fun old => (resetChange old).statement (function stored d) := by
    have outer := congrArg (List.map (Statement.reset (function stored d))) named
    rw [List.map_map, List.map_map] at outer
    rw [List.map_map]
    exact outer
  rw [variableChange, configList, variableLoopIs stored.settings stored.keys new, changes, List.map_append,
    List.map_map, List.map_map]
  exact congrArg _ resets

end Loop

section Effects
variable {server : Server} {stored : Stored server} {d : Dialog}

def Known (server : Server) (name : Text) : Prop := server.setting name = some (lower name)

/- What is written of the value is read as the value: in a list without quotes, else between quotes as it is. -/
def Literal (server : Server) (row : Text × Text) : Prop :=
  valueOf server.toServer (lower row.1) (assigned row.1 row.2) = some row.2

def effect (server : Server) (change : Change) : Option (Text × Option Text) := do
  let key ← server.setting change.1
  match change.2 with
  | some value => return (key, some (← valueOf server.toServer key value))
  | none => return (key, none)

theorem effectOwn {change : Change} {put : Text × Option Text} (found : put ∈ effect server change) :
    put.1 = lower change.1 := by
  obtain ⟨key, here, found⟩ := Option.bind_eq_some_iff.mp found
  obtain ⟨name, _ | value⟩ := change
  · cases found
    exact server.cased name key here
  · obtain ⟨value, -, found⟩ := Option.bind_eq_some_iff.mp found
    cases found
    exact server.cased name key here

theorem effectSet {row : Text × Text} :
    effect server (setChange row) = some (lower row.1, some row.2) ↔ Known server row.1 ∧ Literal server row := by
  constructor
  · intro put
    obtain ⟨key, here, rest⟩ := Option.bind_eq_some_iff.mp put
    obtain ⟨value, read, same⟩ := Option.bind_eq_some_iff.mp rest
    cases same
    exact ⟨here, read⟩
  · rintro ⟨known, literal⟩
    rw [Known] at known
    rw [Literal] at literal
    simp [effect, setChange, known, literal]

theorem effectReset {old : Text × Text} :
    effect server (resetChange old) = some (lower old.1, none) ↔ Known server old.1 := by
  constructor
  · intro put
    obtain ⟨key, here, same⟩ := Option.bind_eq_some_iff.mp put
    cases same
    exact here
  · intro known
    rw [Known] at known
    simp [effect, resetChange, known]

theorem changesKeys (new : distinct d.lstVariables) :
    ((changes stored d).map fun change => lower change.1).Nodup := by
  have keys : (changes stored d).map (fun change => lower change.1) =
      (d.lstVariables.filter (stated stored d stored.config)).map (fun row => lower row.1) ++
        (left d.lstVariables stored.config).map fun row => lower row.1 := by
    rw [changes, List.map_append, List.map_map, List.map_map]
    rfl
  rw [keys]
  refine List.nodup_append.mpr ⟨new.sublist (List.filter_sublist.map _),
    List.Nodup.sublist (List.filter_sublist.map _) stored.keys, ?_⟩
  rintro key here other there rfl
  obtain ⟨row, inside, rfl⟩ := List.mem_map.mp here
  obtain ⟨old, member, same⟩ := List.mem_map.mp there
  exact (memLeft.mp member).2 (same ▸ List.mem_map.mpr ⟨row, List.mem_of_mem_filter inside, rfl⟩)

structure Rows (stored : Stored server) (rows : List (Text × Text)) : Prop where
  names : distinct rows
  entered : ∀ row ∈ rows, row ∈ stored.config ∨ row.2 ≠ []

theorem statedIff (rows : Rows stored d.lstVariables) {row : Text × Text} (inside : row ∈ d.lstVariables) :
    stated stored d stored.config row = true ↔
      didChange stored d = true ∨ (lower row.1, row.2) ∉ keyed stored.config := by
  have table := keyedNodup stored.keys
  rw [stated, decide_eq_true_iff, or_comm, ← KeyedTable.findIff table]
  refine or_congr_right (not_congr ?_)
  cases here : find (lower row.1) (keyed stored.config) with
  | some value => simp
  | none =>
    have absent : row ∉ stored.config := fun member =>
      nomatch here.symm.trans ((KeyedTable.findIff table).mpr (List.mem_map.mpr ⟨row, member, rfl⟩))
    simp [Ne.symm ((rows.entered row inside).resolve_left absent)]

def settingsBefore (stored : Stored server) (d : Dialog) : Text → Option Text :=
  if didChange stored d then fun _ => none else fun key => find key (keyed stored.config)

/- What is stated is known and stands for what is listed. -/
structure Settled (stored : Stored server) (d : Dialog) : Prop where
  set : ∀ row ∈ d.lstVariables, didChange stored d = true ∨ (lower row.1, row.2) ∉ keyed stored.config →
    Known server row.1 ∧ Literal server row
  reset : ∀ old ∈ stored.config, lower old.1 ∉ d.lstVariables.map (fun row => lower row.1) → Known server old.1

theorem othersKept (rows : Rows stored d.lstVariables) {key : Text}
    (absent : key ∉ (changes stored d).map fun change => lower change.1) :
    settingsBefore stored d key = find key (keyed d.lstVariables) := by
  have table := keyedNodup stored.keys
  have listed := keyedNodup rows.names
  have unset {row : Text × Text} (inside : row ∈ d.lstVariables) (same : lower row.1 = key) :
      stated stored d stored.config row ≠ true := fun turn =>
    absent (List.mem_map.mpr ⟨setChange row, List.mem_append_left _
      (List.mem_map_of_mem (List.mem_filter.mpr ⟨inside, turn⟩)), same⟩)
  cases found : find key (keyed d.lstVariables) with
  | some value =>
    obtain ⟨row, inside, same⟩ := List.mem_map.mp ((KeyedTable.findIff listed).mp found)
    cases same
    have turn := mt (statedIff rows inside).mpr (unset inside rfl)
    rw [not_or, not_not] at turn
    rw [settingsBefore, if_neg turn.1]
    exact (KeyedTable.findIff table).mpr turn.2
  | none =>
    rw [settingsBefore]
    split
    · rfl
    · refine KeyedTable.findNone.mpr fun member => ?_
      rw [keyedKeys] at member
      obtain ⟨old, inside, rfl⟩ := List.mem_map.mp member
      have missing : lower old.1 ∉ d.lstVariables.map fun row => lower row.1 := by
        rw [← keyedKeys]
        exact KeyedTable.findNone.mp found
      exact absent (List.mem_map.mpr ⟨resetChange old, List.mem_append_right _
        (List.mem_map_of_mem (memLeft.mpr ⟨inside, missing⟩)), rfl⟩)

theorem changesRight (rows : Rows stored d.lstVariables) :
    (∀ change ∈ changes stored d, effect server change =
      some (lower change.1, find (lower change.1) (keyed d.lstVariables))) ↔ Settled stored d := by
  have listed := keyedNodup rows.names
  have value {row : Text × Text} (inside : row ∈ d.lstVariables) :
      find (lower row.1) (keyed d.lstVariables) = some row.2 :=
    (KeyedTable.findIff listed).mpr (List.mem_map.mpr ⟨row, inside, rfl⟩)
  have gone {old : Text × Text} (missing : lower old.1 ∉ d.lstVariables.map fun row => lower row.1) :
      find (lower old.1) (keyed d.lstVariables) = none :=
    KeyedTable.findNone.mpr ((keyedKeys d.lstVariables).symm ▸ missing)
  constructor
  · intro right
    refine ⟨fun row inside turn => ?_, fun old inside missing => ?_⟩
    · have member : setChange row ∈ changes stored d := List.mem_append_left _
        (List.mem_map_of_mem (List.mem_filter.mpr ⟨inside, (statedIff rows inside).mpr turn⟩))
      have put := right _ member
      exact effectSet.mp (put.trans (congrArg (fun value => some (lower row.1, value)) (value inside)))
    · have member : resetChange old ∈ changes stored d := List.mem_append_right _
        (List.mem_map_of_mem (memLeft.mpr ⟨inside, missing⟩))
      have put := right _ member
      exact effectReset.mp (put.trans (congrArg (fun value => some (lower old.1, value)) (gone missing)))
  · rintro settled change member
    rcases List.mem_append.mp member with set | reset
    · obtain ⟨row, inside, rfl⟩ := List.mem_map.mp set
      obtain ⟨inside, turn⟩ := List.mem_filter.mp inside
      rw [effectSet.mpr (settled.set row inside ((statedIff rows inside).mp turn))]
      exact congrArg (fun value => some (lower row.1, value)) (value inside).symm
    · obtain ⟨old, inside, rfl⟩ := List.mem_map.mp reset
      obtain ⟨inside, missing⟩ := memLeft.mp inside
      rw [effectReset.mpr (settled.reset old inside missing)]
      exact congrArg (fun value => some (lower old.1, value)) (gone missing).symm

def Touched (stored : Stored server) (d : Dialog) : Prop :=
  (∃ row ∈ d.lstVariables, didChange stored d = true ∨ (lower row.1, row.2) ∉ keyed stored.config) ∨
    ∃ old ∈ stored.config, lower old.1 ∉ d.lstVariables.map fun row => lower row.1

theorem changesSome (rows : Rows stored d.lstVariables) : changes stored d ≠ [] ↔ Touched stored d := by
  have members {A : Type} (l : List A) : ¬l = [] ↔ ∃ a, a ∈ l :=
    ⟨List.exists_mem_of_ne_nil l, fun ⟨_, inside⟩ => List.ne_nil_of_mem inside⟩
  rw [changes, ne_eq, List.append_eq_nil_iff, List.map_eq_nil_iff, List.map_eq_nil_iff, not_and_or, members, members,
    Touched]
  refine or_congr (exists_congr fun row => ?_) (exists_congr fun old => memLeft)
  rw [List.mem_filter]
  exact and_congr_right fun inside => statedIff rows inside

theorem executeChange (db : Database) (a : Address) (change : Change) :
    (change.statement a).execute server stored.setof db =
      if addressed server db a then
        (effect server change).map fun put => { db with settings := Function.update db.settings put.1 put.2 }
      else none := by
  obtain ⟨name, _ | value⟩ := change
  · rw [Change.statement, Option.elim_none, Statement.execute, effect]
    cases server.setting name <;> rfl
  · rw [Change.statement, Option.elim_some, Statement.execute, effect]
    cases server.setting name with
    | none => rfl
    | some key =>
      cases here : valueOf server.toServer key value <;> simp [here]

theorem foundRun (rows : Rows stored d.lstVariables) {db after : Database}
    (before : db.settings = settingsBefore stored d) (found : addressed server db (function stored d) = true) :
    (executed stored (variableChange stored d) db = some after ∧
      ∀ key value, after.settings key = some value ↔ (key, value) ∈ keyed d.lstVariables) ↔
      Settled stored d ∧ after = { db with settings := fun key => find key (keyed d.lstVariables) } := by
  let put (values : Text → Option Text) : Database := { db with settings := values }
  let execute (change : Change) (db : Database) : Option Database :=
    (change.statement (function stored d)).execute server stored.setof db
  have each : ∀ change values, execute change (put values) =
      (effect server change).map fun c => put (Function.update values c.1 c.2) := by
    intro change values
    have here : addressed server (put values) (function stored d) = true := found
    exact (executeChange (put values) (function stored d) change).trans (if_pos here)
  have own : ∀ change, ∀ c ∈ effect server change, c.1 = lower change.1 := fun _ _ => effectOwn
  have inj : Function.Injective put := fun one other same => congrArg Database.settings same
  have run (after : Database) : executed stored (variableChange stored d) db = some after ↔
      (changes stored d).foldlM (fun state change => execute change state) (put (settingsBefore stored d)) =
        some after := by
    rw [executed, variableChangeIs rows.names, List.foldlM_map, ← before]
  have exactly := @KeyedTable.runExactly Text Text _ Change Database execute put (effect server)
    (fun change => lower change.1) inj each own (changes stored d) (changesKeys rows.names) (settingsBefore stored d)
    (fun key => find key (keyed d.lstVariables)) fun key absent => othersKept rows absent
  rw [changesRight rows] at exactly
  have listed := keyedNodup rows.names
  rw [run]
  constructor
  · rintro ⟨ran, same⟩
    obtain ⟨values, rfl, -⟩ := KeyedTable.runKeeps each own ran
    have whole : values = fun key => find key (keyed d.lstVariables) := by
      funext key
      ext value
      rw [KeyedTable.findIff listed]
      exact same key value
    subst whole
    exact ⟨exactly.mp ran, rfl⟩
  · rintro ⟨settled, rfl⟩
    exact ⟨exactly.mpr settled, fun key value => KeyedTable.findIff listed⟩

theorem settingsRun (rows : Rows stored d.lstVariables) {db after : Database}
    (before : db.settings = settingsBefore stored d) :
    (executed stored (variableChange stored d) db = some after ∧
      ∀ key value, after.settings key = some value ↔ (key, value) ∈ keyed d.lstVariables) ↔
      (Touched stored d → addressed server db (function stored d) = true) ∧ Settled stored d ∧
        after = { db with settings := fun key => find key (keyed d.lstVariables) } := by
  by_cases found : addressed server db (function stored d) = true
  · rw [foundRun rows before found]
    simp [found]
  · rw [← changesSome rows, executed, variableChangeIs rows.names]
    cases here : changes stored d with
    | nil =>
      have settled : Settled stored d := (changesRight rows).mp (by simp [here])
      have kept : db.settings = fun key => find key (keyed d.lstVariables) := by
        funext key
        rw [before]
        exact othersKept rows (by simp [here])
      have same : { db with settings := fun key => find key (keyed d.lstVariables) } = db := by rw [← kept]
      rw [same]
      simp only [List.map_nil, List.foldlM_nil, ne_eq, not_true_eq_false, false_implies, true_and]
      constructor
      · rintro ⟨ran, -⟩
        exact ⟨settled, (Option.some.inj ran).symm⟩
      · rintro ⟨-, rfl⟩
        refine ⟨rfl, fun key value => ?_⟩
        rw [kept]
        exact KeyedTable.findIff (keyedNodup rows.names)
    | cons change more =>
      rw [List.map_cons, List.foldlM_cons, executeChange, if_neg found]
      simp [found]

end Effects

end PgAdmin.dlgFunction
