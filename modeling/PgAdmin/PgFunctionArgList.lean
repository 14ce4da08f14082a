import PgAdmin.PgFunctionDefaults

/-! The list of arguments shown for a function is that of the function when every name and every default comes
back from the text it was printed in. -/
namespace PgAdmin.pgFunction
open PgsObjects (Text)
open misc wxString Identifier

section Tokens

theorem splitOnListed (d : Char) {w : Text} {ws : List Text} (free : ∀ v ∈ w :: ws, d ∉ v) :
    (listed [d] (w :: ws)).splitOn d = w :: ws := by
  induction ws generalizing w with
  | nil =>
    rw [listed, List.flatMap_nil, List.append_nil]
    exact List.splitOn_eq_singleton (free w List.mem_cons_self)
  | cons v vs ih =>
    have text : listed [d] (w :: v :: vs) = w ++ d :: listed [d] (v :: vs) := rfl
    rw [text, List.splitOn_append_cons_self, List.splitOn_eq_singleton (free w List.mem_cons_self),
      ih fun u member => free u (List.mem_cons_of_mem w member)]
    rfl

theorem strtokListed {ws : List Text} (d : Char) (free : ∀ v ∈ ws, d ∉ v) (nonempty : ∀ v ∈ ws, v ≠ []) :
    Tokenizer.strtok d (listed [d] ws) = ws := by
  cases ws with
  | nil => rfl
  | cons w ws =>
    rw [Tokenizer.strtok, splitOnListed d free, List.filter_eq_self]
    intro v member
    simpa using nonempty v member

theorem retEmptyListed {ws : List Text} (d : Char) (some_ : ws ≠ []) (free : ∀ v ∈ ws, d ∉ v)
    (nonempty : ∀ v ∈ ws, v ≠ []) : Tokenizer.retEmpty d (listed [d] ws) = ws := by
  obtain ⟨w, ws, rfl⟩ := List.exists_cons_of_ne_nil some_
  have kept : (w :: ws).rdropWhile List.isEmpty = w :: ws := by
    rw [List.rdropWhile_eq_self_iff]
    intro cons_
    simpa using nonempty _ (List.getLast_mem cons_)
  rw [Tokenizer.retEmpty, splitOnListed d free, kept]
  exact if_neg fun both => absurd both.1 some_

theorem innerBraced (elements : List Text) : inner (braced elements) = listed [','] elements := by
  simp [inner, braced, Mid]

theorem bracedSome (elements : List Text) : braced elements ≠ [] := List.cons_ne_nil _ _

theorem oidFree (oid : Oid) (d : Char) (other : d.isDigit = false) : d ∉ oid.digits := fun member => by
  rw [oid.decimal d member] at other
  cases other

end Tokens

section Arrays
variable {typeCache : Text → Text} (f : Function typeCache)

theorem typesFree (d : Char) (other : d.isDigit = false) : ∀ v ∈ f.types, d ∉ v := by
  intro v member
  rcases List.mem_append.mp member with inside | inside
  · obtain ⟨p, -, rfl⟩ := List.mem_map.mp inside
    exact oidFree p.type d other
  · obtain ⟨c, -, rfl⟩ := List.mem_map.mp inside
    exact oidFree c.type d other

theorem typesNonempty : ∀ v ∈ f.types, v ≠ [] := by
  intro v member
  rcases List.mem_append.mp member with inside | inside
  · obtain ⟨p, -, rfl⟩ := List.mem_map.mp inside
    exact p.type.nonempty
  · obtain ⟨c, -, rfl⟩ := List.mem_map.mp inside
    exact c.type.nonempty

theorem modesPlain : ∀ v ∈ f.modes, ',' ∉ v ∧ v ≠ [] := by
  intro v member
  rcases List.mem_append.mp member with inside | inside
  · obtain ⟨p, -, rfl⟩ := List.mem_map.mp inside
    cases p.mode
    all_goals exact ⟨by decide, by decide⟩
  · obtain ⟨c, -, rfl⟩ := List.mem_map.mp inside
    exact ⟨by decide, by decide⟩

theorem allInOnly (only : f.allIn = true) : (∀ p ∈ f.params, p.mode = .in) ∧ f.columns = [] := by
  rw [Function.allIn, Bool.and_eq_true, List.all_eq_true, List.isEmpty_iff] at only
  exact ⟨fun p member => of_decide_eq_true (only.1 p member), only.2⟩

theorem notAllIn (other : f.allIn = false) : f.types ≠ [] ∧ f.modes ≠ [] := by
  have some_ : f.params ≠ [] ∨ f.columns ≠ [] := by
    by_contra none
    rw [not_or, not_not, not_not] at none
    rw [Function.allIn, none.1, none.2] at other
    cases other
  rcases some_ with some_ | some_
  · exact ⟨by simp [Function.types, some_], by simp [Function.modes, some_]⟩
  · exact ⟨by simp [Function.types, some_], by simp [Function.modes, some_]⟩

theorem typesRead : (if f.proc.proallargtypes = [] then Tokenizer.strtok ' ' f.proc.proargtypes
    else Tokenizer.retEmpty ',' (inner f.proc.proallargtypes)) = f.types := by
  cases only : f.allIn with
  | true =>
    obtain ⟨modes, columns⟩ := allInOnly f only
    have inputs : f.inputs = f.params := List.filter_eq_self.mpr fun p member => by simp [modes p member]
    have types : f.types = f.params.map fun p => p.type.digits := by simp [Function.types, columns]
    have none : f.proc.proallargtypes = [] := if_pos only
    rw [if_pos none, types]
    change Tokenizer.strtok ' ' (listed [' '] (f.inputs.map fun p => p.type.digits)) = _
    rw [inputs, ← types]
    exact strtokListed ' ' (typesFree f ' ' (by decide)) (typesNonempty f)
  | false =>
    have here : f.proc.proallargtypes = braced f.types := if_neg (by simp [only])
    rw [here, if_neg (bracedSome _), innerBraced]
    exact retEmptyListed ',' (notAllIn f only).1 (typesFree f ',' (by decide)) (typesNonempty f)

theorem modesRead : (if f.proc.proargmodes = [] then [] else Tokenizer.retEmpty ',' (inner f.proc.proargmodes)) =
    if f.allIn then [] else f.modes := by
  cases only : f.allIn with
  | true =>
    have none : f.proc.proargmodes = [] := if_pos only
    rw [if_pos none]
    rfl
  | false =>
    have here : f.proc.proargmodes = braced f.modes := if_neg (by simp [only])
    rw [here, if_neg (bracedSome _), innerBraced]
    exact retEmptyListed ',' (notAllIn f only).2 (fun v member => (modesPlain f v member).1)
      fun v member => (modesPlain f v member).2

def readNames : List Text :=
  if f.proc.proargnames = [] then [] else getArrayFromCommaSeparatedList (inner f.proc.proargnames)

theorem namesFine : firstNames f.params.length (readNames f) = f.params.map Param.name ↔
    ∀ p ∈ f.params, NameFine p.name := by
  cases unnamed : f.names.all List.isEmpty with
  | true =>
    have none : f.proc.proargnames = [] := if_pos unnamed
    have empty : ∀ p ∈ f.params, p.name = [] := fun p member =>
      List.isEmpty_iff.mp (List.all_eq_true.mp unnamed _ (List.mem_append_left _ (List.mem_map_of_mem member)))
    have read : firstNames f.params.length (readNames f) = f.params.map fun _ => [] := by
      rw [readNames, if_pos none]
      induction f.params with
      | nil => rfl
      | cons p rest ih => rw [List.length_cons, firstNames, List.map_cons]; exact congrArg _ ih
    rw [read]
    exact ⟨fun _ p member => by rw [empty p member]; decide,
      fun _ => List.map_congr_left fun p member => (empty p member).symm⟩
  | false =>
    have here : f.proc.proargnames = braced (f.names.map arrayElement) := if_neg (by simp [unnamed])
    obtain ⟨head, tail, all⟩ := List.exists_cons_of_ne_nil (l := f.names) fun none => by
      rw [none] at unnamed
      cases unnamed
    have text : listed [','] (f.names.map arrayElement) ≠ [] := fun none => by
      rw [all] at none
      obtain ⟨c, rest, starts, -⟩ := elementEnds head
      rw [List.map_cons, listed, starts] at none
      cases none
    have read : readNames f = (cut Quoting.out [] (arrayElement head ++
        (tail.map arrayElement).flatMap (',' :: ·))).2 := by
      rw [readNames, here, if_neg (bracedSome _), innerBraced, getArrayFromCommaSeparatedList, if_neg text,
        all]
      rfl
    rw [read]
    have names := namesRead (f.params.map Param.name) (f.columns.map Column.name) head tail all
    rw [List.length_map, List.forall_mem_map] at names
    exact names

def paramArgs (typeCache : Text → Text) (allIn : Bool) : List Param → List Text → List Argument
  | [], _ => []
  | p :: rest, names =>
    ⟨argName (names.headD []), typeCache p.type.digits, if allIn then [] else p.mode.word, []⟩ ::
      paramArgs typeCache allIn rest names.tail

theorem argumentsSplit (allIn : Bool) (params : List Param) (types names modes : List Text) :
    arguments typeCache (params.map (fun p => p.type.digits) ++ types) names
        (if allIn then [] else params.map (fun p => p.mode.letter) ++ modes) =
      paramArgs typeCache allIn params names ++
        arguments typeCache types (names.drop params.length) (if allIn then [] else modes) := by
  induction params generalizing names with
  | nil => simp [paramArgs]
  | cons p rest ih =>
    have next := ih names.tail
    rw [List.drop_tail] at next
    cases allIn with
    | true => exact congrArg _ next
    | false =>
      have mode : argMode p.mode.letter = p.mode.word := by cases p.mode <;> rfl
      have here : arguments typeCache ((p :: rest).map (fun p => p.type.digits) ++ types) names
          ((p :: rest).map (fun p => p.mode.letter) ++ modes) =
          ⟨argName (names.headD []), typeCache p.type.digits, argMode p.mode.letter, []⟩ ::
            arguments typeCache (rest.map (fun p => p.type.digits) ++ types) names.tail
              (rest.map (fun p => p.mode.letter) ++ modes) := rfl
      rw [mode] at here
      exact here.trans (congrArg _ next)

theorem columnArgs (columns : List Column) (names : List Text) :
    ∀ a ∈ arguments typeCache (columns.map fun c => c.type.digits) names (columns.map fun _ => ['t']),
      a.mode = TABLE ∧ a.default = [] := by
  induction columns generalizing names with
  | nil => exact fun a member => absurd member List.not_mem_nil
  | cons c rest ih =>
    intro a member
    rcases List.mem_cons.mp member with rfl | member
    · exact ⟨rfl, rfl⟩
    · exact ih names.tail a member

theorem argumentsRead : ∃ columns, arguments typeCache f.types (readNames f) (if f.allIn then [] else f.modes) =
    paramArgs typeCache f.allIn f.params (readNames f) ++ columns ∧
    ∀ a ∈ columns, a.mode = TABLE ∧ a.default = [] := by
  refine ⟨_, argumentsSplit f.allIn f.params _ (readNames f) _, ?_⟩
  cases only : f.allIn with
  | true =>
    rw [(allInOnly f only).2]
    exact fun a member => absurd member List.not_mem_nil
  | false => exact columnArgs f.columns _

section Params
variable {allIn : Bool} {params : List Param} {names : List Text}

theorem paramModes (only : allIn = true → ∀ p ∈ params, p.mode = .in) :
    inputCount (paramArgs typeCache allIn params names) = params.countP isIn := by
  induction params generalizing names with
  | nil => rfl
  | cons p rest ih =>
    have next := @ih names.tail fun all q member => only all q (List.mem_cons_of_mem p member)
    have same : isInput (if allIn then [] else p.mode.word) = isIn p := by
      cases all : allIn with
      | true => rw [if_pos rfl, isIn, only all p List.mem_cons_self]; rfl
      | false => rw [isIn]; cases p.mode <;> rfl
    rw [inputCount, paramArgs, List.countP_cons, List.countP_cons, same]
    exact congrArg (· + _) next

theorem countAppend (args : List Argument) {columns : List Argument}
    (tables : ∀ a ∈ columns, a.mode = TABLE ∧ a.default = []) : inputCount (args ++ columns) = inputCount args := by
  have none : inputCount columns = 0 := by
    rw [inputCount, List.countP_eq_zero]
    intro a member
    rw [(tables a member).1]
    decide
  rw [inputCount, List.countP_append]
  exact congrArg (_ + ·) none

theorem placedColumns (g : ℕ → Text) {columns : List Argument}
    (tables : ∀ a ∈ columns, a.mode = TABLE ∧ a.default = []) : placed g columns = columns := by
  induction columns with
  | nil => rfl
  | cons a rest ih =>
    obtain ⟨mode, default⟩ := tables a List.mem_cons_self
    rw [placed, ih fun b member => tables b (List.mem_cons_of_mem a member), mode]
    obtain ⟨name, type, m, d⟩ := a
    cases mode
    cases default
    rfl

theorem placedAppend (g : ℕ → Text) (args : List Argument) {columns : List Argument}
    (tables : ∀ a ∈ columns, a.mode = TABLE ∧ a.default = []) :
    placed g (args ++ columns) = placed g args ++ columns := by
  induction args with
  | nil => exact placedColumns g tables
  | cons a rest ih =>
    have count := countAppend (a :: rest) tables
    rw [List.cons_append] at count ⊢
    rw [placed, placed, ih, count]
    rfl

theorem paramFresh (allIn : Bool) (params : List Param) (names : List Text) :
    ∀ a ∈ paramArgs typeCache allIn params names, a.default = [] ∧ a.mode ≠ TABLE := by
  induction params generalizing names with
  | nil => exact fun a member => absurd member List.not_mem_nil
  | cons p rest ih =>
    intro a member
    rcases List.mem_cons.mp member with rfl | member
    · refine ⟨rfl, ?_⟩
      have word (m : Mode) : m.word ≠ TABLE := by cases m <;> decide
      cases allIn with
      | true => exact (by decide : ([] : Text) ≠ TABLE)
      | false => exact word p.mode
    · exact ih names.tail a member

theorem placedModes (g : ℕ → Text) {args : List Argument} (params : ∀ a ∈ args, a.mode ≠ TABLE) :
    ∀ a ∈ placed g args, a.mode ≠ TABLE := by
  induction args with
  | nil => exact fun a member => absurd member List.not_mem_nil
  | cons a rest ih =>
    intro b member
    rcases List.mem_cons.mp member with rfl | member
    · exact params a List.mem_cons_self
    · exact ih (fun c inside => params c (List.mem_cons_of_mem a inside)) b member

theorem sameParams (only : allIn = true → ∀ p ∈ params, p.mode = .in) (g : ℕ → Text) :
    List.Forall₂ (Same typeCache) params (placed g (paramArgs typeCache allIn params names)) ↔
      firstNames params.length names = params.map Param.name ∧ placedDefaults g params = params.map defaultText := by
  induction params generalizing names with
  | nil => exact ⟨fun _ => ⟨rfl, rfl⟩, fun _ => .nil⟩
  | cons p rest ih =>
    have later : allIn = true → ∀ q ∈ rest, q.mode = .in := fun all q member =>
      only all q (List.mem_cons_of_mem p member)
    have count := @paramModes typeCache _ _ names only
    have input : isInput (if allIn then [] else p.mode.word) = isIn p := by
      cases all : allIn with
      | true => rw [if_pos rfl, isIn, only all p List.mem_cons_self]; rfl
      | false => rw [isIn]; cases p.mode <;> rfl
    rw [paramArgs] at count
    rw [paramArgs, placed, List.forall₂_cons, ih later, List.length_cons, firstNames, List.map_cons, List.cons_eq_cons,
      placedDefaults, List.map_cons, List.cons_eq_cons, count]
    dsimp only
    rw [input]
    constructor
    · rintro ⟨same, names, defaults⟩
      exact ⟨⟨same.name, names⟩, same.default, defaults⟩
    · rintro ⟨⟨name, names⟩, default, defaults⟩
      refine ⟨⟨name, rfl, ?_, default⟩, names, defaults⟩
      cases all : allIn with
      | true => exact .inr ⟨rfl, only all p List.mem_cons_self⟩
      | false => exact .inl rfl

end Params

end Arrays

section Shown
variable (keyword : Text → Bool) {typeCache : Text → Text}

theorem argListMore (multiline : Bool) {args : Text} (begun : args ≠ []) {shown columns : List Argument}
    (params : ∀ a ∈ shown, a.mode ≠ TABLE) (tables : ∀ a ∈ columns, a.mode = TABLE) :
    argList keyword multiline args (shown ++ columns) =
      args ++ (shown.map (argText keyword)).flatMap (separator multiline ++ ·) := by
  induction shown generalizing args with
  | nil =>
    cases columns with
    | nil => simp [argList]
    | cons a rest => simp [argList, tables a List.mem_cons_self]
  | cons a rest ih =>
    have more : args ++ separator multiline ++ argText keyword a ≠ [] := by simp [begun]
    rw [List.cons_append, argList, if_neg (params a List.mem_cons_self), if_pos begun,
      ih more fun b member => params b (List.mem_cons_of_mem a member)]
    simp

theorem argListShown (multiline : Bool) {shown columns : List Argument} (params : ∀ a ∈ shown, a.mode ≠ TABLE)
    (tables : ∀ a ∈ columns, a.mode = TABLE) (some_ : ∀ a ∈ shown, argText keyword a ≠ []) :
    argList keyword multiline [] (shown ++ columns) =
      listed (separator multiline) (shown.map (argText keyword)) := by
  cases shown with
  | nil =>
    cases columns with
    | nil => rfl
    | cons a rest => simp [argList, tables a List.mem_cons_self, listed]
  | cons a rest =>
    rw [List.cons_append, argList, if_neg (params a List.mem_cons_self), if_neg (by simp), List.nil_append,
      argListMore keyword multiline (some_ a List.mem_cons_self)
        (fun b member => params b (List.mem_cons_of_mem a member)) tables]
    rfl

theorem argTextWrites {p : Param} {a : Argument} (same : Same typeCache p a)
    (output : p.mode = .out → p.default = none) : Writes keyword typeCache p (argText keyword a) := by
  obtain ⟨name, type, mode, default⟩ := a
  obtain ⟨rfl, rfl, spelled, rfl⟩ := same
  have tail (front : Text) : (if isInput mode ∧ (p.default.map Expr.text).getD [] ≠ []
      then front ++ " DEFAULT ".toList ++ (p.default.map Expr.text).getD [] else front) =
      front ++ (p.default.map fun e => " DEFAULT ".toList ++ e.text).getD [] := by
    cases given : p.default with
    | none => simp
    | some e =>
      have input : isInput mode = true := by
        rcases spelled with word | ⟨none, -⟩
        · cases kind : p.mode with
          | out => rw [output kind] at given; cases given
          | «in» | inout | variadic => rw [show mode = p.mode.word from word, kind]; rfl
        · rw [show mode = [] from none]
          rfl
      rw [if_pos ⟨input, e.nonempty⟩]
      simp
  refine ⟨if mode = [] then [] else mode ++ [' '], if p.name = [] then [] else qtIdent keyword p.name ++ [' '], _,
    ?_, ?_, ?_, rfl⟩
  · rw [argText, tail]
    congr 1
    by_cases unnamed : p.name = []
    · by_cases none : mode = []
      · simp [unnamed, none]
      · simp [unnamed, none]
    · by_cases none : mode = []
      · have some_ : qtIdent keyword p.name ≠ [] := fun empty => by
          have read := readQtIdent keyword unnamed
          rw [empty] at read
          cases read
        simp [unnamed, none, some_]
      · simp [unnamed, none]
  · rcases spelled with word | ⟨none, only⟩
    · refine .inl ?_
      rw [show mode = p.mode.word from word, if_neg (by cases p.mode <;> decide)]
    · exact .inr ⟨if_pos none, only⟩
  · by_cases unnamed : p.name = []
    · exact .inl ⟨if_pos unnamed, unnamed⟩
    · exact .inr ⟨_, if_neg unnamed, readQtIdent keyword unnamed⟩

theorem argTextSome {p : Param} {a : Argument} (same : Same typeCache p a) (typed : typeCache p.type.digits ≠ []) :
    argText keyword a ≠ [] := by
  have some_ : a.type ≠ [] := same.type ▸ typed
  simp only [argText]
  split_ifs
  all_goals simp [some_]

end Shown

section Pairs
variable {α β : Type} {R S : α → β → Prop} {l : List α} {m : List β}

theorem forallMem (all : List.Forall₂ R l m) (each : ∀ a ∈ l, ∀ b, R a b → S a b) : List.Forall₂ S l m := by
  induction all with
  | nil => exact .nil
  | cons here later ih =>
    exact .cons (each _ List.mem_cons_self _ here) (ih fun a member => each a (List.mem_cons_of_mem _ member))

theorem forallRight (all : List.Forall₂ R l m) : ∀ b ∈ m, ∃ a ∈ l, R a b := by
  induction all with
  | nil => exact fun b member => absurd member List.not_mem_nil
  | cons here later ih =>
    intro b member
    rcases List.mem_cons.mp member with rfl | member
    · exact ⟨_, List.mem_cons_self, here⟩
    · obtain ⟨a, inside, related⟩ := ih b member
      exact ⟨a, List.mem_cons_of_mem _ inside, related⟩

end Pairs

section Whole
variable (keyword : Text → Bool) {typeCache : Text → Text} (f : Function typeCache) (multiline : Bool)

theorem textsMap : f.params.filterMap (fun p => p.default.map Expr.text) =
    (f.params.filterMap Param.default).map Expr.text := by
  rw [List.map_filterMap]

def paramsRead : List Argument :=
  placed (handed (cutDefaults (f.params.filterMap Param.default)) (f.params.countP isIn))
    (paramArgs typeCache f.allIn f.params (readNames f))

theorem appended : ∃ columns, AppendFunctions typeCache f.proc = some (paramsRead f ++ columns) ∧
    ∀ a ∈ columns, a.mode = TABLE ∧ a.default = [] := by
  obtain ⟨columns, split, tables⟩ := argumentsRead f
  refine ⟨columns, ?_, tables⟩
  have count := @paramModes typeCache _ _ (readNames f) fun all => (allInOnly f all).1
  have fresh : ∀ a ∈ paramArgs typeCache f.allIn f.params (readNames f) ++ columns, a.default = [] := by
    intro a member
    rcases List.mem_append.mp member with inside | inside
    · exact (paramFresh _ _ _ a inside).1
    · exact (tables a inside).2
  have added := @addDefaultsPlaced (cutDefaults (f.params.filterMap Param.default)) _ fresh (f.params.countP isIn)
    (by rw [countAppend _ tables, count])
  have start : min (cutDefaults (f.params.filterMap Param.default)).length (f.params.countP isIn) -
      f.params.countP isIn = 0 := by omega
  rw [countAppend _ tables, count, placedAppend _ _ tables, start] at added
  have inputs : (paramArgs typeCache f.allIn f.params (readNames f) ++ columns).countP (fun a => isInput a.mode) =
      f.params.countP isIn := (countAppend _ tables).trans count
  have defs : getArrayFromCommaSeparatedList f.proc.proargdefaultvals =
      cutDefaults (f.params.filterMap Param.default) := by
    rw [cutDefaults, ← textsMap]
    rfl
  have names : (if f.proc.proargnames = [] then []
      else getArrayFromCommaSeparatedList (inner f.proc.proargnames)) = readNames f := rfl
  rw [AppendFunctions, typesRead, modesRead, names, split, inputs, defs]
  exact added

/- The list is faithful exactly when every name and every default comes back. -/
theorem argumentsFaithful : (∃ arguments, AppendFunctions typeCache f.proc = some arguments ∧
      Faithful keyword f multiline arguments) ↔
    (∀ p ∈ f.params, NameFine p.name) ∧ ∀ p ∈ f.params, ∀ e ∈ p.default, Clean e.text := by
  obtain ⟨columns, made, tables⟩ := appended f
  have params : ∀ a ∈ paramsRead f, a.mode ≠ TABLE := placedModes _ fun a member => (paramFresh _ _ _ a member).2
  have shown : (paramsRead f ++ columns).takeWhile (fun a => a.mode ≠ TABLE) = paramsRead f := by
    rw [List.takeWhile_append_of_pos fun a member => by simpa using params a member]
    cases columns with
    | nil => simp
    | cons a rest => rw [List.takeWhile_cons_of_neg (by simp [tables a List.mem_cons_self]), List.append_nil]
  have le := (textsLength f.outputs).1
  rw [texts, textsMap, List.length_map] at le
  have arrays : List.Forall₂ (Same typeCache) f.params (paramsRead f) ↔
      (∀ p ∈ f.params, NameFine p.name) ∧ ∀ p ∈ f.params, ∀ e ∈ p.default, Clean e.text := by
    have expectation := defaultsExpected [] f.outputs f.trailing fun some_ => absurd rfl some_
    rw [List.nil_append, texts, textsMap] at expectation
    rw [paramsRead, sameParams (fun all => (allInOnly f all).1), namesFine, expectation, placedDefaultsSame,
      handedExpected le]
    simp only [List.mem_filterMap, forall_exists_index, and_imp]
    refine and_congr_right fun _ => ⟨fun all p member e given => all e p member given,
      fun all e p member given => all p member e given⟩
  constructor
  · rintro ⟨arguments, appended, faithful⟩
    cases made.symm.trans appended
    rw [← arrays, ← shown]
    exact faithful.arrays
  · intro fine
    have same := arrays.mpr fine
    refine ⟨_, made, by rw [shown]; exact same, (paramsRead f).map (argText keyword), ?_, ?_⟩
    · rw [List.forall₂_map_right_iff]
      exact forallMem same fun p inside a same => argTextWrites keyword same (f.outputs p inside)
    · rw [GetArgListWithNames, shown, argListShown keyword multiline params (fun a member => (tables a member).1)]
      · rw [List.length_map]
        split <;> simp
      · intro a member
        obtain ⟨p, inside, same⟩ := forallRight same a member
        exact argTextSome keyword same (f.typed p inside)

end Whole

def arrayDefault : Expr := ⟨"ARRAY[1, 2]".toList, by decide, by decide, by decide, by decide⟩

theorem arrayWritten : "1007".toList ≠ [] := by decide

theorem arrayDigits : ∀ c ∈ "1007".toList, c.isDigit = true :=
  List.all_eq_true.mp (by decide)

def arrayOid : Oid := ⟨"1007".toList, arrayWritten, arrayDigits⟩

def arrayParam : Param := ⟨.in, "a".toList, arrayOid, some arrayDefault⟩

theorem arrayGoesIn : ∀ p ∈ [arrayParam], p.mode = .out → p.default = none := by
  intro p member out
  rw [List.mem_singleton.mp member] at out
  cases out

def arrayFunction : Function (fun _ => "integer[]".toList) :=
  ⟨[arrayParam], [], arrayGoesIn, List.pairwise_singleton _ _, fun _ _ => List.cons_ne_nil _ _⟩

/- The comma inside the array is taken for one between two defaults. -/
theorem arrayDefaultCut : ¬ ∀ keyword typeCache (f : Function typeCache) multiline,
    ∃ arguments, AppendFunctions typeCache f.proc = some arguments ∧ Faithful keyword f multiline arguments := by
  intro all
  obtain ⟨arguments, made, faithful⟩ := all (fun _ => false) _ arrayFunction false
  have read : AppendFunctions (fun _ => "integer[]".toList) arrayFunction.proc =
      some [⟨"a".toList, "integer[]".toList, [], "ARRAY[1".toList⟩] := by rfl
  cases read.symm.trans made
  have same := (List.forall₂_cons.mp faithful.arrays).1.default
  revert same
  decide

end PgAdmin.pgFunction
