import PgAdmin.PgFunctionDefaults

/-! The arguments of a debugger target, from the row the server answers with, on a server of PostgreSQL 8.4 or later
that is not EnterpriseDB. -/
namespace PgAdmin.dbgTarget
open PgsObjects (Text)
open misc misc.Quoting
open pgFunction (Mode Oid Expr Param Column texts)

structure dbgArgInfo where
  m_name : Text
  m_type : Text
  m_typeOid : ℕ
  m_mode : Mode
  m_defValue : Option Text

/- The columns of the row, without value where they are NULL. -/
structure Row where
  proargmodes : Option Text
  proargnames : Option Text
  proargtypenames : Option Text
  proargtypes : Option Text
  pronargdefaults : ℕ
  proargdefaults : Option Text

def fetched (val : Option Text) : List Text :=
  match val with
  | none => []
  | some tmp => getArrayFromCommaSeparatedList tmp

def strtoul (digits : Text) : ℕ := Nat.ofDigitChars 10 (digits.takeWhile Char.isDigit) 0

def generated (idx : ℕ) : Text := "dbgParam".toList ++ Nat.toDigits 10 (idx + 1)

def argName (idx : ℕ) (name : Option Text) : Text :=
  let argName := name.getD []
  if argName = [] then generated idx else argName

def argMode (mode : Option Text) : Option Mode :=
  match mode with
  | none => some .in
  | some tmp => match tmp.head? with
    | some 'i' => some .in
    | some 'b' => some .inout
    | some 'o' => some .out
    | some 'v' => some .variadic
    | some 't' => none
    | _ => some .in

/- The loop over the types, with what the other arrays hold from idx on. No value where an index is out of range. -/
def collect : ℕ → List Text → List Text → List Text → List Text → Option (List dbgArgInfo)
  | _, [], _, _, _ => some []
  | idx, type :: types, oids, names, modes => do
    let oid ← oids.head?
    let later ← collect (idx + 1) types oids.tail names.tail modes.tail
    match argMode modes.head? with
    | none => some later
    | some mode => some (⟨argName idx names.head?, type, strtoul oid, mode, none⟩ :: later)

/- The loop from the last argument back, with nArgDefs after it. It ends at 0. -/
def setDefaults (argDefVals : List Text) (nArgDefs : ℕ) : List dbgArgInfo → Option (ℕ × List dbgArgInfo)
  | [] => some (nArgDefs, [])
  | arg :: args => do
    let (left, later) ← setDefaults argDefVals nArgDefs args
    if left ≠ 0 ∧ (arg.m_mode = .inout ∨ arg.m_mode = .in) then
      let val ← argDefVals[left - 1]?
      some (left - 1, (if val ≠ ['-'] then { arg with m_defValue := some val } else arg) :: later)
    else some (left, arg :: later)

/- m_args, where NULL is the empty list. -/
def dbgTargetInfo (row : Row) : Option (List dbgArgInfo) := do
  let m_args ← collect 0 (fetched row.proargtypenames) (fetched row.proargtypes) (fetched row.proargnames)
    (fetched row.proargmodes)
  if m_args.isEmpty ∨ row.pronargdefaults = 0 then some m_args
  else
    let set ← setDefaults (fetched row.proargdefaults) row.pronargdefaults m_args
    some set.2

/-! What the server stores for the target. -/

/- The name of a type as format_type prints it: what is not a plain name is in double quotes. -/
structure TypeName where
  text : Text
  nonempty : text ≠ []
  trimmed : trimBoth text = text
  clean : Clean text

/- The arguments and the columns of the table it returns. A VARIADIC argument is the last input. Only inputs have
defaults, and after an input that has one all inputs have. -/
structure Target where
  params : List Param
  columns : List Column
  outputs : ∀ p ∈ params, p.mode = .out → p.default = none
  trailing : params.Pairwise fun p q => p.default.isSome → q.mode ≠ .out → q.default.isSome
  variadicLast : params.Pairwise fun p q => p.mode = .variadic → q.mode = .out

namespace Target
variable (f : Target)

def allIn : Bool := f.params.all (fun p => p.mode = .in) && f.columns.isEmpty

def names : List Text := f.params.map Param.name ++ f.columns.map Column.name

def types : List Oid := f.params.map Param.type ++ f.columns.map Column.type

def modes : List Text := f.params.map (fun p => p.mode.letter) ++ f.columns.map fun _ => ['t']

variable (formatType : Oid → TypeName)

def row : Row where
  proargmodes := if f.allIn then none else some (listed [','] f.modes)
  proargnames := if f.names.all List.isEmpty then none else some (listed [','] f.names)
  proargtypenames := some (listed [','] (f.types.map fun type => (formatType type).text))
  proargtypes := some (listed [','] (f.types.map Oid.digits))
  pronargdefaults := (texts f.params).length
  proargdefaults := if texts f.params = [] then none else some (listed ", ".toList (texts f.params))

end Target

def argument (formatType : Oid → TypeName) (idx : ℕ) (p : Param) : dbgArgInfo where
  m_name := if p.name = [] then generated idx else p.name
  m_type := (formatType p.type).text
  m_typeOid := Nat.ofDigitChars 10 p.type.digits 0
  m_mode := p.mode
  m_defValue := p.default.map Expr.text

def arguments (formatType : Oid → TypeName) : ℕ → List Param → List dbgArgInfo
  | _, [] => []
  | idx, p :: later => argument formatType idx p :: arguments formatType (idx + 1) later

section Lists

theorem plainClean {t : Text} (plain : ∀ c ∈ t, c ≠ ',' ∧ c ≠ '\'' ∧ c ≠ '"' ∧ c ≠ '(' ∧ c ≠ ')') : Clean t := by
  unfold Clean
  induction t with
  | nil => rfl
  | cons c t ih =>
    obtain ⟨⟨comma, single, double, opening, closing⟩, rest⟩ := List.forall_mem_cons.mp plain
    have stays : out.turn c = out := by simp [turn, out, single, double, opening, closing]
    rw [scan, if_neg fun both => comma both.2, stays]
    exact ih rest

theorem inkTrim {t : Text} (ink : ∀ c ∈ t, wxString.isSpace c = false) : trimBoth t = t := by
  have kept : wxString.Trim t = t := by
    rw [wxString.Trim, List.rdropWhile_eq_self_iff]
    intro some_
    rw [ink _ (List.getLast_mem some_)]
    decide
  rw [trimBoth, kept]
  cases t with
  | nil => rfl
  | cons c t => rw [List.dropWhile_cons_of_neg (by rw [ink c List.mem_cons_self]; decide)]

theorem listedRead {es : List Text} (clean : ∀ e ∈ es, Clean e) (trimmed : ∀ e ∈ es, trimBoth e = e)
    (some_ : es ≠ [[]]) : getArrayFromCommaSeparatedList (listed [','] es) = es := by
  cases es with
  | nil => rfl
  | cons w ws =>
    have text : listed [','] (w :: ws) ≠ [] := by
      intro none
      obtain ⟨rfl, later⟩ := List.append_eq_nil_iff.mp none
      cases ws with
      | nil => exact some_ rfl
      | cons v vs => cases later
    have cuts := cutAll clean
    have same : (w :: ws).map trimBoth = w :: ws := (List.map_congr_left trimmed).trans (List.map_id _)
    rw [getArrayFromCommaSeparatedList, if_neg text]
    exact (congrArg Prod.snd cuts).trans same

theorem letterPlain {c : Char} (letter : c.isAlphanum = true) :
    (c ≠ ',' ∧ c ≠ '\'' ∧ c ≠ '"' ∧ c ≠ '(' ∧ c ≠ ')') ∧ wxString.isSpace c = false := by
  have apart : ∀ d : Char, d.isAlphanum = false → c ≠ d := by
    rintro d other rfl
    rw [letter] at other
    cases other
  refine ⟨⟨apart _ (by decide), apart _ (by decide), apart _ (by decide), apart _ (by decide),
    apart _ (by decide)⟩, ?_⟩
  simp [wxString.isSpace, apart ' ' (by decide), apart '\t' (by decide), apart '\n' (by decide),
    apart '\x0b' (by decide), apart '\x0c' (by decide), apart '\r' (by decide)]

theorem generatedPlain (idx : ℕ) : ∀ c ∈ generated idx,
    (c ≠ ',' ∧ c ≠ '\'' ∧ c ≠ '"' ∧ c ≠ '(' ∧ c ≠ ')') ∧ wxString.isSpace c = false := by
  intro c member
  refine letterPlain ?_
  rcases List.mem_append.mp member with word | digits
  · have all : "dbgParam".toList.all Char.isAlphanum = true := by decide
    exact List.all_eq_true.mp all c word
  · rw [Char.isAlphanum, Nat.isDigit_of_mem_toDigits (by decide) le_rfl digits, Bool.or_true]

theorem generatedClean (idx : ℕ) : Clean (generated idx) ∧ trimBoth (generated idx) = generated idx :=
  ⟨plainClean fun c member => (generatedPlain idx c member).1, inkTrim fun c member => (generatedPlain idx c member).2⟩

theorem generatedCommas (idx : ℕ) : (generated idx).count ',' = 0 :=
  List.count_eq_zero.mpr fun member => (generatedPlain idx _ member).1.1 rfl

end Lists

section Names

/- A name comes back when the loop leaves it as it entered it and there is no white space around it. -/
def NameFine (name : Text) : Prop := Clean name ∧ trimBoth name = name

theorem emptyFine : NameFine [] := ⟨rfl, rfl⟩

theorem argNameCommas (idx : ℕ) (piece : Text) : (argName idx (some piece)).count ',' = piece.count ',' := by
  unfold argName
  dsimp only [Option.getD_some]
  split
  case isTrue empty => rw [empty, generatedCommas]; rfl
  case isFalse => rfl

theorem notGenerated {name : Text} (bad : ¬NameFine name) (idx : ℕ) : generated idx ≠ name := by
  rintro rfl
  exact bad (generatedClean idx)

theorem badName {name : Text} (bad : ¬NameFine name) (later : List Text) (idx : ℕ) :
    argName idx (cut out [] (name ++ later.flatMap (',' :: ·))).2.head? ≠ name := by
  intro same
  cases through : scan out name with
  | none =>
    obtain ⟨before, after, rfl, until_⟩ := scanCut through
    rw [List.append_assoc, List.cons_append, cutScan until_, cutComma, List.head?_cons] at same
    have commas := argNameCommas idx (trimBoth ([] ++ before))
    rw [same, trimCount, List.nil_append, List.count_append, List.count_cons_self] at commas
    omega
  | some q =>
    by_cases closed : q = out
    case pos =>
      have clean : Clean name := by rw [Clean, through, closed]
      have head : (cut out [] (name ++ later.flatMap (',' :: ·))).2.head? = some (trimBoth name) := by
        rw [cutClean clean]
        cases later <;> rfl
      rw [head, argName, Option.getD_some] at same
      split at same
      · exact notGenerated bad idx same
      · exact bad ⟨clean, same⟩
    case neg =>
      rw [cutScan through] at same
      cases later with
      | nil =>
        rw [List.flatMap_nil, cut, if_neg closed] at same
        exact notGenerated bad idx same
      | cons v later =>
        rw [List.flatMap_cons, List.cons_append, cut, if_neg fun both => closed both.1] at same
        rcases cutHead (q.turn ',') ([] ++ name ++ [',']) (v ++ later.flatMap (',' :: ·)) with none | ⟨s, -, head⟩
        · rw [none] at same
          exact notGenerated bad idx same
        · rw [head] at same
          have commas := argNameCommas idx (trimBoth ([] ++ name ++ [','] ++ s))
          rw [same, trimCount, List.nil_append, List.count_append, List.count_append] at commas
          have one : [','].count ',' = 1 := rfl
          omega

end Names

section Reading
variable (f : Target) (formatType : Oid → TypeName)

/- Every argument gets the name that is to be its own. -/
def Named : ℕ → List Param → List Text → Prop
  | _, [], _ => True
  | idx, p :: later, names =>
    argName idx names.head? = (if p.name = [] then generated idx else p.name) ∧ Named (idx + 1) later names.tail

theorem namedCut (params : List Param) (columns : List Text) (idx : ℕ) (head : Text) (tail : List Text)
    (all : params.map Param.name ++ columns = head :: tail) :
    Named idx params (cut out [] (head ++ tail.flatMap (',' :: ·))).2 ↔ ∀ p ∈ params, NameFine p.name := by
  induction params generalizing idx head tail with
  | nil => simp [Named]
  | cons p params ih =>
    obtain ⟨rfl, following⟩ : p.name = head ∧ params.map Param.name ++ columns = tail := List.cons.inj all
    rw [Named, List.forall_mem_cons]
    by_cases fine : NameFine p.name
    case pos =>
      have own : argName idx (some (trimBoth p.name)) = if p.name = [] then generated idx else p.name := by
        rw [fine.2]
        rfl
      rw [cutClean fine.1]
      cases tail with
      | nil =>
        obtain ⟨none, -⟩ := List.append_eq_nil_iff.mp following
        rw [List.map_eq_nil_iff.mp none]
        simp [own, fine, Named]
      | cons v vs =>
        have rest := ih (idx + 1) v vs following
        simpa [own, fine] using rest
    case neg =>
      have some_ : p.name ≠ [] := fun empty => fine (by rw [empty]; exact emptyFine)
      rw [if_neg some_]
      constructor
      · intro both
        exact absurd both.1 (badName fine _ idx)
      · intro both
        exact absurd both.1 fine

theorem namedRead : Named 0 f.params (fetched (f.row formatType).proargnames) ↔
    ∀ p ∈ f.params, NameFine p.name := by
  cases unnamed : f.names.all List.isEmpty with
  | true =>
    have none : (f.row formatType).proargnames = none := if_pos unnamed
    have empty : ∀ p ∈ f.params, p.name = [] := fun p member =>
      List.isEmpty_iff.mp (List.all_eq_true.mp unnamed _ (List.mem_append_left _ (List.mem_map_of_mem member)))
    have named : ∀ (params : List Param) (idx : ℕ), (∀ p ∈ params, p.name = []) → Named idx params [] := by
      intro params
      induction params with
      | nil => exact fun _ _ => trivial
      | cons p params ih =>
        intro idx empty
        obtain ⟨here, rest⟩ := List.forall_mem_cons.mp empty
        refine ⟨?_, ih (idx + 1) rest⟩
        rw [if_pos here]
        rfl
    rw [none]
    exact ⟨fun _ p member => by rw [empty p member]; exact emptyFine, fun _ => named f.params 0 empty⟩
  | false =>
    have here : (f.row formatType).proargnames = some (listed [','] f.names) := if_neg (by simp [unnamed])
    obtain ⟨head, tail, all⟩ := List.exists_cons_of_ne_nil (l := f.names) fun none => by
      rw [none] at unnamed
      cases unnamed
    have text : listed [','] f.names ≠ [] := by
      intro none
      rw [all] at none unnamed
      obtain ⟨rfl, later⟩ := List.append_eq_nil_iff.mp none
      cases tail with
      | nil => cases unnamed
      | cons v vs => cases later
    rw [here, fetched, getArrayFromCommaSeparatedList, if_neg text, all]
    exact namedCut f.params (f.columns.map Column.name) 0 head tail all

def paramArgs : ℕ → List Param → List Text → List dbgArgInfo
  | _, [], _ => []
  | idx, p :: later, names =>
    ⟨argName idx names.head?, (formatType p.type).text, Nat.ofDigitChars 10 p.type.digits 0, p.mode, none⟩ ::
      paramArgs (idx + 1) later names.tail

theorem oidRead (oid : Oid) : strtoul oid.digits = Nat.ofDigitChars 10 oid.digits 0 := by
  have all : oid.digits.takeWhile Char.isDigit = oid.digits := List.takeWhile_eq_self_iff.mpr oid.decimal
  rw [strtoul, all]

theorem collectCons (idx : ℕ) (type oid : Text) {types oids : List Text} (names modes : List Text)
    {later : List dbgArgInfo} (rest : collect (idx + 1) types oids names.tail modes.tail = some later) :
    collect idx (type :: types) (oid :: oids) names modes = some (match argMode modes.head? with
      | none => later
      | some mode => ⟨argName idx names.head?, type, strtoul oid, mode, none⟩ :: later) := by
  simp only [collect, List.head?_cons, List.tail_cons, rest, bind, Option.bind_some]
  split <;> rfl

theorem collectColumns (columns : List Column) (idx : ℕ) (names : List Text) :
    collect idx (columns.map fun c => (formatType c.type).text) (columns.map fun c => c.type.digits) names
      (columns.map fun _ => ['t']) = some [] := by
  induction columns generalizing idx names with
  | nil => rfl
  | cons c columns ih => exact collectCons idx _ _ names _ (ih (idx + 1) names.tail)

theorem collectParams {allIn : Bool} (params : List Param) (columns : List Column)
    (only : allIn = true → (∀ p ∈ params, p.mode = .in) ∧ columns = []) (idx : ℕ) (names : List Text) :
    collect idx ((params.map Param.type ++ columns.map Column.type).map fun type => (formatType type).text)
      ((params.map Param.type ++ columns.map Column.type).map Oid.digits) names
      (if allIn then [] else params.map (fun p => p.mode.letter) ++ columns.map fun _ => ['t']) =
      some (paramArgs formatType idx params names) := by
  induction params generalizing idx names with
  | nil =>
    cases all : allIn with
    | true => simp [(only all).2, collect, paramArgs]
    | false =>
      have none := collectColumns formatType columns idx names
      simpa [paramArgs, Function.comp_def] using none
  | cons p params ih =>
    have rest := ih (fun all => ⟨fun q member => (only all).1 q (List.mem_cons_of_mem p member), (only all).2⟩)
      (idx + 1) names.tail
    cases all : allIn with
    | true =>
      have mode := (only all).1 p List.mem_cons_self
      rw [all] at rest
      refine (collectCons idx _ _ names [] rest).trans ?_
      rw [oidRead, paramArgs, mode]
      rfl
    | false =>
      have mode : argMode (some p.mode.letter) = some p.mode := by cases p.mode <;> rfl
      rw [all] at rest
      refine (collectCons idx _ _ names (p.mode.letter :: _) rest).trans ?_
      rw [oidRead, paramArgs, List.head?_cons, mode]

theorem modesRead : fetched (f.row formatType).proargmodes = if f.allIn then [] else f.modes := by
  cases all : f.allIn with
  | true =>
    have none : (f.row formatType).proargmodes = none := if_pos all
    rw [none]
    rfl
  | false =>
    have here : (f.row formatType).proargmodes = some (listed [','] f.modes) := if_neg (by simp [all])
    have letters : ∀ mode ∈ f.modes, ∃ c, mode = [c] ∧ c.isAlphanum = true := by
      intro mode member
      rcases List.mem_append.mp member with inside | inside
      · obtain ⟨p, -, rfl⟩ := List.mem_map.mp inside
        cases p.mode
        all_goals exact ⟨_, rfl, rfl⟩
      · obtain ⟨c, -, rfl⟩ := List.mem_map.mp inside
        exact ⟨_, rfl, rfl⟩
    rw [here]
    refine listedRead (fun mode member => ?_) (fun mode member => ?_) fun empty => ?_
    · obtain ⟨c, rfl, letter⟩ := letters mode member
      exact plainClean (by simpa using (letterPlain letter).1)
    · obtain ⟨c, rfl, letter⟩ := letters mode member
      exact inkTrim (by simpa using (letterPlain letter).2)
    · obtain ⟨c, same, -⟩ := letters [] (by rw [empty]; exact List.mem_cons_self)
      cases same

theorem typesRead : fetched (f.row formatType).proargtypenames =
    f.types.map fun type => (formatType type).text := by
  refine listedRead ?_ ?_ fun empty => ?_
  · rw [List.forall_mem_map]
    exact fun type _ => (formatType type).clean
  · rw [List.forall_mem_map]
    exact fun type _ => (formatType type).trimmed
  · obtain ⟨type, -, none⟩ := List.map_eq_singleton_iff.mp empty
    exact (formatType type).nonempty none

theorem oidsRead : fetched (f.row formatType).proargtypes = f.types.map Oid.digits := by
  refine listedRead ?_ ?_ fun empty => ?_
  · rw [List.forall_mem_map]
    exact fun type _ => plainClean fun c member => (letterPlain (by simp [Char.isAlphanum, type.decimal c member])).1
  · rw [List.forall_mem_map]
    exact fun type _ => inkTrim fun c member => (letterPlain (by simp [Char.isAlphanum, type.decimal c member])).2
  · obtain ⟨type, -, none⟩ := List.map_eq_singleton_iff.mp empty
    exact type.nonempty none

theorem argsRead : collect 0 (fetched (f.row formatType).proargtypenames) (fetched (f.row formatType).proargtypes)
    (fetched (f.row formatType).proargnames) (fetched (f.row formatType).proargmodes) =
    some (paramArgs formatType 0 f.params (fetched (f.row formatType).proargnames)) := by
  rw [typesRead, oidsRead, modesRead]
  refine collectParams formatType f.params f.columns (fun all => ?_) 0 _
  rw [Target.allIn, Bool.and_eq_true, List.all_eq_true, List.isEmpty_iff] at all
  exact ⟨fun p member => of_decide_eq_true (all.1 p member), all.2⟩

end Reading

end PgAdmin.dbgTarget
