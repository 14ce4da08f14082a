import PgAdmin.FunctionStatements
import PgAdmin.RoleSaved

/-! When the statements of the dialog for a function leave what is in the dialog, after any edits. -/
namespace PgAdmin.dlgFunction
open PgsObjects (Text)
open KeyedTable (find)

section Sessions
variable {server : Server} {stored : Stored server} {d : Dialog}

structure Kept (stored : Stored server) (d : Dialog) : Prop where
  rows : Rows stored d.lstVariables
  sealed : BackendMinimumVersion server 9 2 = false → d.chkLeakProof = false

theorem setFirstNames (name value : Text) (rows : List (Text × Text)) :
    ((dlgForeignServer.setFirst name value rows).map fun row => lower row.1) = rows.map (fun row => lower row.1) ∨
      lower name ∉ rows.map (fun row => lower row.1) ∧
        ((dlgForeignServer.setFirst name value rows).map fun row => lower row.1) =
          rows.map (fun row => lower row.1) ++ [lower name] := by
  induction rows with
  | nil => exact .inr ⟨List.not_mem_nil, rfl⟩
  | cons row rows ih =>
    rw [dlgForeignServer.setFirst]
    by_cases same : ddNetwork.sameNoCase row.1 name = true
    · rw [if_pos same]
      exact .inl rfl
    · rw [if_neg same]
      have apart : lower name ≠ lower row.1 := fun equal => same (decide_eq_true equal.symm)
      rcases ih with kept | ⟨absent, added⟩
      · exact .inl (congrArg (lower row.1 :: ·) kept)
      · refine .inr ⟨?_, congrArg (lower row.1 :: ·) added⟩
        rw [List.map_cons, List.mem_cons, not_or]
        exact ⟨apart, absent⟩

theorem setFirstRows {name value : Text} {rows : List (Text × Text)} {row : Text × Text}
    (inside : row ∈ dlgForeignServer.setFirst name value rows) : row ∈ rows ∨ row.2 = value := by
  induction rows with
  | nil =>
    cases List.mem_singleton.mp inside
    exact .inr rfl
  | cons other rows ih =>
    rw [dlgForeignServer.setFirst] at inside
    split at inside
    · rcases List.mem_cons.mp inside with rfl | behind
      · exact .inr rfl
      · exact .inl (List.mem_cons_of_mem _ behind)
    · rcases List.mem_cons.mp inside with rfl | behind
      · exact .inl List.mem_cons_self
      · exact (ih behind).imp_left (List.mem_cons_of_mem _)

theorem addedRows {rows : List (Text × Text)} (listed : Rows stored rows) (name : Text) {value : Text}
    (some_ : value ≠ []) : Rows stored (dlgForeignServer.setFirst name value rows) := by
  refine ⟨?_, fun row inside => ?_⟩
  · rcases setFirstNames name value rows with kept | ⟨absent, added⟩
    · rw [distinct, kept]
      exact listed.names
    · rw [distinct, added]
      exact List.nodup_append.mpr ⟨listed.names, List.nodup_singleton _, fun key member other last => by
        rw [List.mem_singleton.mp last]
        exact fun same => absent (same ▸ member)⟩
  · rcases setFirstRows inside with old | here
    · exact listed.entered row old
    · exact .inr (here ▸ some_)

theorem openedKept (stored : Stored server) : Kept stored (opened stored) := by
  refine ⟨⟨?_, fun row inside => .inl ?_⟩, stored.sealed⟩
  · rw [opened, loadedVariablesAre]
    exact stored.keys
  · rwa [opened, loadedVariablesAre] at inside

theorem editKept (kept : Kept stored d) (edit : Edit) : Kept stored (edit.apply stored d) := by
  obtain ⟨rows, sealed⟩ := kept
  cases edit with
  | argument row txtArgName txtArgDefVal =>
    simp only [Edit.apply, OnChangeArg]
    split
    · exact ⟨rows, sealed⟩
    · split <;> exact ⟨rows, sealed⟩
  | leakProof chkLeakProof =>
    simp only [Edit.apply]
    split
    · rename_i minimum
      exact ⟨rows, fun old => nomatch minimum.symm.trans old⟩
    · exact ⟨rows, sealed⟩
  | varAdd cbVarname chkValue txtValue =>
    simp only [Edit.apply, OnVarAdd]
    split
    · split
      · exact ⟨rows, sealed⟩
      · exact ⟨addedRows rows cbVarname (dlgRole.enteredSome chkValue txtValue), sealed⟩
    · exact ⟨rows, sealed⟩
  | varRemove pos =>
    simp only [Edit.apply]
    split
    · exact ⟨⟨rows.names.sublist ((List.eraseIdx_sublist ..).map _),
        fun row inside => rows.entered row (List.mem_of_mem_eraseIdx inside)⟩, sealed⟩
    · exact ⟨rows, sealed⟩
  | _ =>
    simp only [Edit.apply]
    first
      | exact ⟨rows, sealed⟩
      | split <;> exact ⟨rows, sealed⟩

theorem sessionKept (stored : Stored server) (edits : List Edit) : Kept stored (session stored edits) := by
  have start := openedKept stored
  rw [session]
  generalize opened stored = d at start
  induction edits generalizing d with
  | nil => exact start
  | cons edit edits ih => exact ih _ (editKept start edit)

/- Each statement can be executed where it stands: the settings when the function is in its new schema already. -/
structure Doable (stored : Stored server) (d : Dialog) : Prop where
  renamed : GetName stored d ≠ stored.name → Renamed stored d
  replaced : didChange stored d = true → Replaced stored d
  owned : stored.owner ≠ d.cbOwner → Owned stored d
  moved : stored.schema ≠ d.cbSchema → Moved stored d
  settled : Settled stored d
  reached : Touched stored d → Reached stored d d.cbSchema

theorem executedAppend {first second : List Statement} {db after : Database} :
    executed stored (first ++ second) db = some after ↔
      ∃ between, executed stored first db = some between ∧ executed stored second between = some after := by
  rw [executed, List.foldlM_append]
  exact Option.bind_eq_some_iff

theorem definitionRan {after : Database}
    (run : executed stored (definitionChange stored d) (renamedTo stored d) = some after) :
    ∃ definition, after = replacedBy stored d definition := by
  rw [definitionChange, executedOne] at run
  by_cases change : didChange stored d = true
  · rw [if_pos change, Statement.execute] at run
    obtain ⟨-, run⟩ := (Option.ite_none_right_eq_some ..).mp run
    obtain ⟨wanted, -, run⟩ := Option.bind_eq_some_iff.mp run
    obtain ⟨-, run⟩ := (Option.ite_none_right_eq_some ..).mp run
    cases run
    exact ⟨wanted, by rw [replacedBy, settingsBefore, if_pos change]⟩
  · rw [if_neg change] at run
    cases run
    refine ⟨stored.definition, ?_⟩
    rw [replacedBy, settingsBefore, if_neg change]
    rfl

theorem Doable.given (doable : Doable stored d) : GetName stored d ≠ [] := by
  by_cases same : GetName stored d = stored.name
  · rw [same]
    exact stored.named
  · exact (doable.renamed same).given

theorem savedOf (kept : Kept stored d) (doable : Doable stored d) : Saved stored d := by
  have given := doable.given
  obtain ⟨wanted, wants⟩ : ∃ wanted, definition stored d = some wanted := by
    cases change : didChange stored d with
    | true =>
      obtain ⟨wanted, wants, -⟩ := (doable.replaced change).accepted
      exact ⟨wanted, wants⟩
    | false => exact ⟨_, definitionKept change⟩
  have reached : Touched stored d → addressed server (movedTo stored d wanted) (function stored d) = true :=
    fun touched => (reachedIff given rfl rfl).mpr (doable.reached touched)
  have before : (movedTo stored d wanted).settings = settingsBefore stored d := rfl
  have settings := (settingsRun kept.rows before).mpr ⟨reached, doable.settled, rfl⟩
  have replaced := (definitionRun given kept.sealed).mpr ⟨doable.replaced, wanted, wants, rfl⟩
  refine ⟨_, ?_, rfl, rfl, rfl, wants, settings.2⟩
  rw [statements]
  refine executedAppend.mpr ⟨_, nameRun.mpr ⟨doable.renamed, rfl⟩, executedAppend.mpr ⟨_, replaced.1, ?_⟩⟩
  refine executedAppend.mpr ⟨_, (ownerRun given).mpr ⟨doable.owned, rfl⟩, executedAppend.mpr ⟨_, ?_, settings.1⟩⟩
  exact (schemaRun given).mpr ⟨doable.moved, rfl⟩

theorem doableOf (kept : Kept stored d) (saved : Saved stored d) : Doable stored d := by
  obtain ⟨after, run, -, -, -, wants, listed⟩ := saved
  obtain ⟨named, first, run⟩ := executedAppend.mp run
  obtain ⟨replaced, second, run⟩ := executedAppend.mp run
  obtain ⟨owned, third, run⟩ := executedAppend.mp run
  obtain ⟨moved, fourth, last⟩ := executedAppend.mp run
  obtain ⟨rename, rfl⟩ := nameRun.mp first
  have given : GetName stored d ≠ [] := by
    by_cases same : GetName stored d = stored.name
    · rw [same]
      exact stored.named
    · exact (rename same).given
  obtain ⟨wanted, rfl⟩ := definitionRan second
  obtain ⟨owner, rfl⟩ := (ownerRun given).mp third
  obtain ⟨schema, rfl⟩ := (schemaRun given).mp fourth
  obtain ⟨touched, settled, rfl⟩ := (settingsRun kept.rows rfl).mp ⟨last, listed⟩
  have replace := ((definitionRun given kept.sealed).mp ⟨second, wants⟩).1
  exact ⟨rename, replace, owner, schema, settled, fun here => (reachedIff given rfl rfl).mp (touched here)⟩

/- All is saved just where every statement can be executed at its place. Once the function has been moved, its settings
are stated for it only when no schema is written before its name and it is found first in the new one. -/
theorem functionSaved {server : Server} (stored : Stored server) (edits : List Edit) :
    Saved stored (session stored edits) ↔ Doable stored (session stored edits) :=
  ⟨doableOf (sessionKept stored edits), savedOf (sessionKept stored edits)⟩

end Sessions

section Examples

/- Roles have names of one letter; any schema and any setting is there, and any function can be replaced. -/
def permissive : Server where
  toServer := { dlgRole.lettered with setting := fun name => some (lower name) }
  version := (9, 2)
  edbMinimum90 := false
  defaultSchema := "public".toList
  path := ["pg_catalog".toList, "public".toList]
  creation := some "public".toList
  schemaExists _ := true
  taken _ _ := false
  types _ := some []
  arguments := some
  result := some
  number text := some (Nat.ofDigitChars 10 text 0)
  defaultCost _ := 100
  defaultRows _ := 0
  replaceable _ _ := true
  cased _ _ same := (Option.some.inj same).symm

def answer : Stored permissive where
  name := "f".toList
  schema := "s".toList
  owner := "o".toList
  definition :=
    ⟨[], "integer".toList, "sql".toList, .VOLATILE, false, false, false, false, "SELECT 42".toList, [], 100, 0⟩
  types := []
  setof := false
  argumentRows := []
  config := [("work_mem".toList, "1MB".toList)]
  nodeSchema := some "s".toList
  named := by decide
  keys := by decide
  settings := by decide
  plain _ := rfl
  linked := by decide
  sealed _ := rfl
  cost := by decide
  rows := by decide

/- In another schema, the function gets another value of its setting. -/
theorem movedLost :
    ¬Saved answer (session answer [.schema "t".toList, .varAdd "work_mem".toList none "2MB".toList]) := by
  intro saved
  have doable := doableOf (sessionKept answer _) saved
  have touched : Touched answer
      (session answer [.schema "t".toList, .varAdd "work_mem".toList none "2MB".toList]) :=
    .inl ⟨("work_mem".toList, "2MB".toList), by decide, .inr (by decide)⟩
  have written : "s".toList = "t".toList := (doable.reached touched).found
  exact absurd written (by decide)

end Examples

end PgAdmin.dlgFunction
