import PgAdmin.FunctionSettings

/-! What each statement of the dialog for a function needs, and what it does. -/
namespace PgAdmin.dlgFunction
open PgsObjects (Text)
open pgDatatype (NumToStr)
open KeyedTable (find)

section Literals
variable {server : Server}

/- What is written for the body is read as the body: on one line it has no backslash, where that is no escape; else it
does not end with a dollar and the tag. -/
def Sound (server : Server) (value : Text) : Prop :=
  BackendMinimumVersion server 7 5 = true →
    if '\'' ∉ value ∧ '\n' ∉ value ∧ '\r' ∉ value then server.literals.conforming = true → '\\' ∉ value
    else ∀ k, DollarLiteral.FirstFree value k → ¬('$' :: DollarLiteral.tagAt k) <:+ value

theorem wholeIff {found : Option (Text × Text)} {value : Text} :
    (found.filter fun found => found.2 = []).map Prod.fst = some value ↔ found = some (value, []) := by
  obtain _ | ⟨text, rest⟩ := found
  · simp
  · by_cases none : rest = [] <;> simp [Option.filter, none]

theorem literalWritten (value : Text) :
    literalOf server (SqlLiteral.qtDbString server.literals value) = some value := by
  have whole := wholeIff.mpr (SqlLiteral.readWhole server.literals value)
  rw [← whole, SqlLiteral.qtDbString]
  split <;> rfl

theorem shortRead {value : Text} (free : '\'' ∉ value) :
    literalOf server ('\'' :: (value.flatMap SqlLiteral.doubled ++ ['\''])) = some value ↔
      (server.literals.conforming = true → '\\' ∉ value) := by
  rw [literalOf, wholeIff, SqlLiteral.read]
  · cases conforming : server.literals.conforming with
    | true => simpa [DollarLiteral.read] using DollarLiteral.shortRead free
    | false => simpa using SqlLiteral.readDoubled (by simp) fun _ => rfl
  · rintro s equal
    cases equal

theorem dollarRead {value : Text} (long : ¬('\'' ∉ value ∧ '\n' ∉ value ∧ '\r' ∉ value)) :
    ∃ k, DollarLiteral.FirstFree value k ∧
      DollarLiteral.qtDbStringDollar (value.length + 1) value = some (DollarLiteral.delimiter (DollarLiteral.tagAt k) ++
        value ++ DollarLiteral.delimiter (DollarLiteral.tagAt k)) ∧
      (DollarLiteral.read (DollarLiteral.delimiter (DollarLiteral.tagAt k) ++ value ++
        DollarLiteral.delimiter (DollarLiteral.tagAt k)) = some (value, []) ↔
          ¬('$' :: DollarLiteral.tagAt k) <:+ value) := by
  obtain ⟨k, bound, first⟩ := DollarLiteral.firstFree value
  have chosen := DollarLiteral.chooseFirst first k 0 (Nat.zero_add k) (Nat.lt_succ_of_le bound)
  refine ⟨k, first, ?_, ?_⟩
  · rw [DollarLiteral.qtDbStringDollar, if_neg (by simpa only [DollarLiteral.findNone] using long)]
    exact congrArg (Option.map _) chosen
  · rw [List.append_assoc, DollarLiteral.readDollar (DollarLiteral.tagPlain k) (DollarLiteral.tagIsTag k),
      DollarLiteral.readToValue (DollarLiteral.tagPlain k) first.1]

theorem bodyIff (value : Text) :
    literalOf server (bodyLiteral server value) = some value ↔ Sound server value := by
  rw [bodyLiteral, Sound]
  cases dollars : BackendMinimumVersion server 7 5 with
  | false =>
    rw [if_neg Bool.false_ne_true]
    simp [literalWritten]
  | true =>
    rw [if_pos rfl]
    by_cases short : '\'' ∉ value ∧ '\n' ∉ value ∧ '\r' ∉ value
    · have written : DollarLiteral.qtDbStringDollar (value.length + 1) value =
          some ('\'' :: (value.flatMap SqlLiteral.doubled ++ ['\''])) := by
        rw [DollarLiteral.qtDbStringDollar, if_pos (by simpa only [DollarLiteral.findNone] using short)]
        exact congrArg (fun text => some ('\'' :: (text ++ ['\'']))) (SqlLiteral.replacedTwice value)
      rw [written, Option.getD_some, shortRead short.1, if_pos short]
      simp
    · obtain ⟨k, first, written, read⟩ := dollarRead short
      have text : DollarLiteral.delimiter (DollarLiteral.tagAt k) ++ value ++
          DollarLiteral.delimiter (DollarLiteral.tagAt k) =
          '$' :: (DollarLiteral.tagAt k ++ ['$'] ++ value ++ DollarLiteral.delimiter (DollarLiteral.tagAt k)) := rfl
      rw [written, Option.getD_some, text, literalOf, if_pos dollars, wholeIff, ← text, read, if_neg short]
      constructor
      · intro ends _ j other
        rcases Nat.lt_trichotomy j k with less | rfl | more
        · exact absurd (first.2 j less) other.1
        · exact ends
        · exact absurd (other.2 k more) first.1
      · exact fun all => all rfl k first

end Literals

section Addresses
variable {server : Server} {db : Database}

def bare (server : Server) (schema : Text) : Bool :=
  schema = [] ∨ schema = "pg_catalog".toList ∨ schema = server.defaultSchema

/- The function in the schema is found when the written schema is that one, or when none is written and no other
function comes first. -/
def Found (server : Server) (written schema name : Text) : Prop :=
  if bare server written = true then
    server.path.find? (fun other => other = schema ∨ server.taken other name) = some schema
  else written = schema

def Created (server : Server) (written schema : Text) : Prop :=
  if bare server written = true then server.creation = some schema else written = schema

theorem prefixIs (server : Server) (written : Text) :
    GetQuotedPrefix server written = if bare server written = true then none else some (qtIdent server written) := by
  simp only [GetQuotedPrefix, bare, decide_eq_true_iff]

theorem readIdentifier {name : Text} (given : name ≠ []) :
    Identifier.read server.keyword (qtIdent server name) = some name :=
  Identifier.readQtIdent server.keyword given

theorem writtenRead {written : Text} (qualified : bare server written ≠ true) :
    Identifier.read server.keyword (qtIdent server written) = some written := by
  refine readIdentifier ?_
  rintro rfl
  exact qualified (decide_eq_true (.inl rfl))

theorem foundIff {written name arguments : Text} :
    schemaOf server db ⟨GetQuotedPrefix server written, name, arguments⟩ = some db.schema ↔
      Found server written db.schema db.name := by
  rw [schemaOf, Found, prefixIs]
  by_cases here : bare server written = true
  · rw [if_pos here, if_pos here]
  · rw [if_neg here, if_neg here]
    exact (Iff.of_eq (congrArg (· = some db.schema) (writtenRead here))).trans Option.some_inj

theorem createdIff {written name arguments : Text} :
    creationOf server ⟨GetQuotedPrefix server written, name, arguments⟩ = some db.schema ↔
      Created server written db.schema := by
  rw [creationOf, Created, prefixIs]
  by_cases here : bare server written = true
  · rw [if_pos here, if_pos here]
  · rw [if_neg here, if_neg here]
    exact (Iff.of_eq (congrArg (· = some db.schema) (writtenRead here))).trans Option.some_inj

theorem namedIff {name arguments : Text} {schema : Option Text} (given : name ≠ []) :
    named server db ⟨schema, qtIdent server name, arguments⟩ = true ↔
      name = db.name ∧ server.types arguments = some db.types := by
  rw [named, decide_eq_true_iff, readIdentifier given, Option.some.injEq]

theorem addressedIff {name arguments written : Text} (given : name ≠ []) :
    addressed server db ⟨GetQuotedPrefix server written, qtIdent server name, arguments⟩ = true ↔
      (name = db.name ∧ server.types arguments = some db.types) ∧ Found server written db.schema db.name := by
  rw [addressed, decide_eq_true_iff, namedIff given, foundIff]

end Addresses

section Changes
variable {server : Server} {stored : Stored server} {d : Dialog} {db after : Database}

theorem executedOne {c : Prop} [Decidable c] (statement : Statement) :
    executed stored (if c then [statement] else []) db =
      if c then statement.execute server stored.setof db else some db := by
  by_cases here : c
  · rw [if_pos here, if_pos here, executed, List.foldlM_cons]
    exact Option.bind_fun_some _
  · rw [if_neg here, if_neg here]
    rfl

structure Renamed (stored : Stored server) (d : Dialog) : Prop where
  found : Found server stored.schema stored.schema stored.name
  types : server.types (GetArgSigList server stored.definition.language stored.argumentRows) = some stored.types
  given : GetName stored d ≠ []
  free : server.taken stored.schema (GetName stored d) = false

def renamedTo (stored : Stored server) (d : Dialog) : Database := { stored.database with name := GetName stored d }

theorem nameRun : executed stored (nameChange stored d) stored.database = some after ↔
    (GetName stored d ≠ stored.name → Renamed stored d) ∧ after = renamedTo stored d := by
  rw [nameChange, executedOne]
  by_cases same : GetName stored d = stored.name
  · have kept : renamedTo stored d = stored.database := by
      rw [renamedTo, same]
      rfl
    rw [if_neg (not_not.mpr same), kept, Option.some.injEq, eq_comm]
    simp [same]
  · rw [if_pos same, Statement.execute]
    constructor
    · intro run
      obtain ⟨here, run⟩ := (Option.ite_none_right_eq_some ..).mp run
      obtain ⟨⟨-, types⟩, found⟩ := (addressedIff stored.named).mp here
      obtain ⟨name, read, run⟩ := Option.bind_eq_some_iff.mp run
      have given : GetName stored d ≠ [] := fun none => by
        rw [none] at read
        cases read
      cases (readIdentifier given).symm.trans read
      obtain ⟨free, run⟩ := (Option.ite_none_left_eq_some ..).mp run
      cases run
      exact ⟨fun _ => ⟨found, types, given, Bool.eq_false_of_not_eq_true free⟩, rfl⟩
    · rintro ⟨renamed, rfl⟩
      have renamed := renamed same
      rw [if_pos ((addressedIff stored.named).mpr ⟨⟨rfl, renamed.types⟩, renamed.found⟩), readIdentifier renamed.given]
      exact if_neg (Bool.not_eq_true _ ▸ renamed.free)

def code (stored : Stored server) (d : Dialog) : Text × Text :=
  (if isC d.cbLanguage then if d.txtLinkSymbol = [] then GetName stored d else d.txtLinkSymbol else d.txtSqlBox,
    if isC d.cbLanguage then d.txtObjectFile else [])

theorem codeIff : codeOf server (GetName stored d) d.cbLanguage (clauses stored d).literals = some (code stored d) ↔
    (isC d.cbLanguage = false → Sound server d.txtSqlBox) := by
  cases compiled : isC d.cbLanguage with
  | true =>
    simp only [codeOf, clauses, code, compiled, if_true]
    by_cases named : d.txtLinkSymbol = []
    · simp [named, literalWritten]
    · simp [named, literalWritten]
  | false =>
    simp only [codeOf, clauses, code, compiled, ← bodyIff, Bool.false_eq_true, if_false, List.mapM_cons, List.mapM_nil]
    cases literalOf server (bodyLiteral server d.txtSqlBox) <;> simp

/- What is written of the definition is read as it is entered. -/
structure Readable (stored : Stored server) (d : Dialog) : Prop where
  arguments : server.arguments (GetArgs server true false d) = some (GetArgs server true false d)
  returns : server.result stored.definition.returns = some stored.definition.returns
  language : Identifier.read server.keyword d.cbLanguage = some d.cbLanguage
  body : isC d.cbLanguage = false → Sound server d.txtSqlBox

theorem definitionRead {wanted : Definition} (wants : definition stored d = some wanted)
    (sealed : BackendMinimumVersion server 9 2 = false → d.chkLeakProof = false) :
    definitionOf server (GetName stored d) (GetArgs server true false d) stored.setof (clauses stored d) = some wanted ↔
      Readable stored d := by
  obtain ⟨cost, costHere, wants⟩ := Option.bind_eq_some_iff.mp wants
  obtain ⟨rows, rowsHere, wants⟩ := Option.bind_eq_some_iff.mp wants
  cases wants
  constructor
  · intro read
    obtain ⟨arguments, here, read⟩ := Option.bind_eq_some_iff.mp read
    obtain ⟨returns, result, read⟩ := Option.bind_eq_some_iff.mp read
    obtain ⟨language, spoken, read⟩ := Option.bind_eq_some_iff.mp read
    obtain ⟨text, literals, read⟩ := Option.bind_eq_some_iff.mp read
    obtain ⟨_, -, read⟩ := Option.bind_eq_some_iff.mp read
    obtain ⟨_, -, read⟩ := Option.bind_eq_some_iff.mp read
    have same := Definition.mk.inj (Option.some.inj read)
    obtain ⟨rfl, rfl, rfl, -, -, -, -, -, source, bin, -, -⟩ := same
    have whole : text = code stored d := Prod.ext source bin
    exact ⟨here, result, spoken, codeIff.mp (whole ▸ literals)⟩
  · intro readable
    have literals : codeOf server (GetName stored d) d.cbLanguage (clauses stored d).literals = some (code stored d) :=
      codeIff.mpr readable.body
    have leakProof : (clauses stored d).leakProof.getD false = d.chkLeakProof := by
      rw [clauses]
      cases here : BackendMinimumVersion server 9 2 with
      | true => rfl
      | false => exact (sealed here).symm
    have language : Identifier.read server.keyword (clauses stored d).language = some d.cbLanguage := readable.language
    have returns : server.result (clauses stored d).returns = some stored.definition.returns := readable.returns
    have costRead : estimate server (clauses stored d).cost (server.defaultCost d.cbLanguage) = some cost := costHere
    have rowsRead : estimate server (clauses stored d).rows (server.defaultRows stored.setof) = some rows := rowsHere
    simp only [definitionOf, readable.arguments, returns, language, literals, costRead, rowsRead, leakProof,
      Option.bind_eq_bind, Option.bind_some]
    rfl

theorem numberSome (n : ℕ) : NumToStr n ≠ [] := Nat.toDigits_ne_nil

theorem definitionKept (same : didChange stored d = false) : definition stored d = some stored.definition := by
  rw [didChange, decide_eq_false_iff_not] at same
  push Not at same
  obtain ⟨language, volatility, secureDefiner, strict, arguments, leakProof, compiled, text, numbers⟩ := same
  have cost : estimate server (costText server d) (server.defaultCost d.cbLanguage) =
      some stored.definition.cost := by
    have known := stored.cost
    rw [costText]
    by_cases minimum : BackendMinimumVersion server 8 3 = true
    · rw [if_pos minimum] at known
      have here := (numbers minimum).1
      rw [here, if_pos ⟨minimum, numberSome _⟩]
      exact known
    · rw [if_neg minimum] at known
      rw [if_neg (not_and_of_not_left _ minimum), language]
      exact congrArg some known.symm
  have rows : estimate server (rowsText stored d) (server.defaultRows stored.setof) = some stored.definition.rows := by
    have known := stored.rows
    rw [rowsText]
    by_cases minimum : BackendMinimumVersion server 8 3 = true ∧ stored.setof = true
    · rw [if_pos minimum] at known
      have here := (numbers minimum.1).2 minimum.2
      rw [here, if_pos ⟨minimum.1, minimum.2, numberSome _⟩]
      exact known
    · rw [if_neg minimum] at known
      rw [if_neg fun all => minimum ⟨all.1, all.2.1⟩]
      exact congrArg some known.symm
  have source : (if isC d.cbLanguage = true then
      if d.txtLinkSymbol = [] then GetName stored d else d.txtLinkSymbol else d.txtSqlBox) =
      stored.definition.source := by
    by_cases here : isC d.cbLanguage = true
    · rw [if_pos here, (compiled here).2, if_neg (stored.linked (language ▸ here))]
    · rw [if_neg here, text (Bool.eq_false_of_not_eq_true here)]
  have bin : (if isC d.cbLanguage = true then d.txtObjectFile else []) = stored.definition.bin := by
    by_cases here : isC d.cbLanguage = true
    · rw [if_pos here, (compiled here).1]
    · rw [if_neg here, stored.plain (language ▸ Bool.eq_false_of_not_eq_true here)]
  rw [definition, cost, rows, source, bin, language, volatility, secureDefiner, strict, arguments, leakProof]
  rfl

structure Replaced (stored : Stored server) (d : Dialog) : Prop where
  created : Created server (writtenSchema stored) stored.schema
  types : server.types (GetArgs server true false d) = some stored.types
  readable : Readable stored d
  accepted : ∃ wanted ∈ definition stored d, server.replaceable stored.definition wanted = true

def replacedBy (stored : Stored server) (d : Dialog) (wanted : Definition) : Database :=
  { renamedTo stored d with definition := wanted, settings := settingsBefore stored d }

theorem definitionRun (given : GetName stored d ≠ [])
    (sealed : BackendMinimumVersion server 9 2 = false → d.chkLeakProof = false) :
    (executed stored (definitionChange stored d) (renamedTo stored d) = some after ∧
      definition stored d = some after.definition) ↔
      (didChange stored d = true → Replaced stored d) ∧
        ∃ wanted, definition stored d = some wanted ∧ after = replacedBy stored d wanted := by
  rw [definitionChange, executedOne]
  by_cases change : didChange stored d = true
  · rw [if_pos change, Statement.execute]
    have cleared (wanted : Definition) : replacedBy stored d wanted =
        { renamedTo stored d with definition := wanted, settings := fun _ => none } := by
      rw [replacedBy, settingsBefore, if_pos change]
    constructor
    · rintro ⟨run, wants⟩
      obtain ⟨⟨here, place⟩, run⟩ := (Option.ite_none_right_eq_some ..).mp run
      obtain ⟨wanted, read, run⟩ := Option.bind_eq_some_iff.mp run
      obtain ⟨accepted, run⟩ := (Option.ite_none_right_eq_some ..).mp run
      cases run
      have readable := (definitionRead wants sealed).mp read
      exact ⟨fun _ => ⟨createdIff.mp place, ((namedIff given).mp here).2, readable, wanted, wants, accepted⟩,
        wanted, wants, (cleared wanted).symm⟩
    · rintro ⟨replaced, wanted, wants, rfl⟩
      obtain ⟨place, types, readable, other, same, accepted⟩ := replaced change
      cases wants.symm.trans same
      have here : named server (renamedTo stored d)
          ⟨GetQuotedPrefix server (writtenSchema stored), qtIdent server (GetName stored d),
            GetArgs server true false d⟩ = true := (namedIff given).mpr ⟨rfl, types⟩
      have read : definitionOf server (renamedTo stored d).name (GetArgs server true false d) stored.setof
          (clauses stored d) = some wanted := (definitionRead wants sealed).mpr readable
      rw [if_pos ⟨here, createdIff.mpr place⟩, read, cleared]
      exact ⟨if_pos accepted, wants⟩
  · have kept := definitionKept (Bool.eq_false_of_not_eq_true change)
    have still : replacedBy stored d stored.definition = renamedTo stored d := by
      rw [replacedBy, settingsBefore, if_neg change]
      rfl
    rw [if_neg change]
    constructor
    · rintro ⟨run, -⟩
      cases run
      exact ⟨fun changed => absurd changed change, _, kept, still.symm⟩
    · rintro ⟨-, wanted, wants, rfl⟩
      cases kept.symm.trans wants
      exact ⟨congrArg some still.symm, kept⟩

/- The function is found under the name that the other statements have for it. -/
structure Reached (stored : Stored server) (d : Dialog) (schema : Text) : Prop where
  types : server.types (GetArgs server false true d) = some stored.types
  found : Found server (writtenSchema stored) schema (GetName stored d)

theorem reachedIff (given : GetName stored d ≠ []) (name : db.name = GetName stored d)
    (types : db.types = stored.types) :
    addressed server db (function stored d) = true ↔ Reached stored d db.schema := by
  rw [function, addressedIff given, name, types]
  exact ⟨fun here => ⟨here.1.2, here.2⟩, fun here => ⟨⟨rfl, here.types⟩, here.found⟩⟩

structure Owned (stored : Stored server) (d : Dialog) : Prop where
  reached : Reached stored d stored.schema
  given : d.cbOwner ≠ []
  exists_ : server.roleExists d.cbOwner = true

theorem ownerRun (given : GetName stored d ≠ []) {wanted : Definition} :
    executed stored (ownerChange stored d) (replacedBy stored d wanted) = some after ↔
      (stored.owner ≠ d.cbOwner → Owned stored d) ∧
        after = { replacedBy stored d wanted with owner := d.cbOwner } := by
  rw [ownerChange, executedOne]
  by_cases same : stored.owner = d.cbOwner
  · have kept : { replacedBy stored d wanted with owner := d.cbOwner } = replacedBy stored d wanted := by
      rw [← same]
      rfl
    rw [if_neg (not_not.mpr same), kept, Option.some.injEq, eq_comm]
    simp [same]
  · have reached := @reachedIff server stored d (replacedBy stored d wanted) given rfl rfl
    rw [if_pos same, Statement.execute]
    constructor
    · intro run
      obtain ⟨here, run⟩ := (Option.ite_none_right_eq_some ..).mp run
      obtain ⟨role, read, run⟩ := Option.bind_eq_some_iff.mp run
      obtain ⟨read, known⟩ := Option.filter_eq_some_iff.mp read
      have some_ : d.cbOwner ≠ [] := fun none => by
        rw [none] at read
        cases read
      cases (readIdentifier some_).symm.trans read
      cases run
      exact ⟨fun _ => ⟨reached.mp here, some_, known⟩, rfl⟩
    · rintro ⟨owned, rfl⟩
      obtain ⟨here, some_, known⟩ := owned same
      have read : dlgRole.roleOf server.toServer (qtIdent server d.cbOwner) = some d.cbOwner := by
        have name : Identifier.read server.keyword (qtIdent server d.cbOwner) = some d.cbOwner := readIdentifier some_
        rw [dlgRole.roleOf, name, Option.filter_some, if_pos known]
      rw [if_pos (reached.mpr here), read]
      rfl

structure Moved (stored : Stored server) (d : Dialog) : Prop where
  reached : Reached stored d stored.schema
  given : d.cbSchema ≠ []
  exists_ : server.schemaExists d.cbSchema = true
  free : server.taken d.cbSchema (GetName stored d) = false

def movedTo (stored : Stored server) (d : Dialog) (wanted : Definition) : Database :=
  { replacedBy stored d wanted with owner := d.cbOwner, schema := d.cbSchema }

theorem schemaRun (given : GetName stored d ≠ []) {wanted : Definition} :
    executed stored (schemaChange stored d) { replacedBy stored d wanted with owner := d.cbOwner } = some after ↔
      (stored.schema ≠ d.cbSchema → Moved stored d) ∧ after = movedTo stored d wanted := by
  rw [schemaChange, executedOne]
  by_cases same : stored.schema = d.cbSchema
  · have kept : movedTo stored d wanted = { replacedBy stored d wanted with owner := d.cbOwner } := by
      rw [movedTo, ← same]
      rfl
    rw [if_neg (not_not.mpr same), kept, Option.some.injEq, eq_comm]
    simp [same]
  · have reached := @reachedIff server stored d { replacedBy stored d wanted with owner := d.cbOwner } given rfl rfl
    rw [if_pos same, Statement.execute]
    constructor
    · intro run
      obtain ⟨here, run⟩ := (Option.ite_none_right_eq_some ..).mp run
      obtain ⟨schema, read, run⟩ := Option.bind_eq_some_iff.mp run
      obtain ⟨read, known⟩ := Option.filter_eq_some_iff.mp read
      have some_ : d.cbSchema ≠ [] := fun none => by
        rw [none] at read
        cases read
      cases (readIdentifier some_).symm.trans read
      obtain ⟨free, run⟩ := (Option.ite_none_left_eq_some ..).mp run
      cases run
      exact ⟨fun _ => ⟨reached.mp here, some_, known, Bool.eq_false_of_not_eq_true free⟩, rfl⟩
    · rintro ⟨moved, rfl⟩
      obtain ⟨here, some_, known, free⟩ := moved same
      rw [if_pos (reached.mpr here), readIdentifier some_, Option.filter_some, if_pos known]
      exact if_neg (Bool.not_eq_true _ ▸ free)

end Changes

end PgAdmin.dlgFunction
