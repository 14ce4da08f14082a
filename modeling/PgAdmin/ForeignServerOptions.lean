import PgAdmin.ForeignServer

/-! The text of the options, split as the dialog splits it and as CREATE SERVER has it. -/
namespace PgAdmin.dlgForeignServer
open PgsObjects (Text)
open wxString (BeforeFirst AfterFirst)
open misc (trimBoth)

/- An option that is not split, and has no blanks around it. -/
structure Plain (option : Text × Text) : Prop where
  given : option.1 ≠ []
  comma : ',' ∉ option.1 ∧ ',' ∉ option.2
  equals : '=' ∉ option.1
  trimmed : trimBoth option.1 = option.1 ∧ trimBoth option.2 = option.2

def optionText (option : Text × Text) : Text := option.1 ++ '=' :: option.2

theorem textSome (option : Text × Text) : optionText option ≠ [] :=
  List.append_ne_nil_of_right_ne_nil _ (List.cons_ne_nil _ _)

theorem textFree {option : Text × Text} (plain : Plain option) : ',' ∉ optionText option := by
  simp [optionText, plain.comma.1, plain.comma.2]

theorem beforeFirstAll {s : Text} {c : Char} (free : c ∉ s) : BeforeFirst s c = s :=
  List.takeWhile_eq_self_iff.mpr fun _ member => decide_eq_true fun same => free (same ▸ member)

theorem afterFirstAll {s : Text} {c : Char} (free : c ∉ s) : AfterFirst s c = [] := by
  have none : s.dropWhile (· ≠ c) = [] :=
    List.dropWhile_eq_nil_iff.mpr fun l member => decide_eq_true fun same => free (same ▸ member)
  rw [AfterFirst, none]
  rfl

theorem textsJoined {pieces : List Text} (plain : ∀ piece ∈ pieces, piece ≠ [] ∧ ',' ∉ piece) {fuel : ℕ}
    (enough : (List.intercalate [','] pieces).length ≤ fuel) :
    optionTexts fuel (List.intercalate [','] pieces) = pieces := by
  induction pieces generalizing fuel with
  | nil => cases fuel <;> rfl
  | cons piece pieces ih =>
    obtain ⟨some, free⟩ := plain piece List.mem_cons_self
    have positive : 0 < piece.length := List.length_pos_iff.mpr some
    cases pieces with
    | nil =>
      rw [List.intercalate_singleton] at enough ⊢
      obtain ⟨fuel, rfl⟩ := Nat.exists_eq_succ_of_ne_zero (positive.trans_le enough).ne'
      rw [optionTexts, if_neg some, beforeFirstAll free, afterFirstAll free]
      cases fuel <;> rfl
    | cons next pieces =>
      have split : List.intercalate [','] (piece :: next :: pieces) =
          piece ++ ',' :: List.intercalate [','] (next :: pieces) := by
        rw [List.intercalate_cons_cons, List.append_assoc]
        rfl
      rw [split] at enough ⊢
      rw [List.length_append, List.length_cons] at enough
      obtain ⟨fuel, rfl⟩ := Nat.exists_eq_succ_of_ne_zero (show fuel ≠ 0 by omega)
      rw [optionTexts, if_neg (List.append_ne_nil_of_left_ne_nil some _), wxString.beforeFirstStop free,
        wxString.afterFirstStop free, ih (fun other member => plain other (List.mem_cons_of_mem _ member)) (by omega)]

theorem rowText {option : Text × Text} (plain : Plain option) : optionRow (optionText option) = option := by
  rw [optionRow, optionText, wxString.beforeFirstStop plain.equals, wxString.afterFirstStop plain.equals,
    plain.trimmed.1, plain.trimmed.2]

theorem rowsJoined {options : List (Text × Text)} (plain : ∀ option ∈ options, Plain option) :
    optionRows (joined options) = options := by
  have pieces : ∀ piece ∈ options.map optionText, piece ≠ [] ∧ ',' ∉ piece := by
    intro piece member
    obtain ⟨option, inside, rfl⟩ := List.mem_map.mp member
    exact ⟨textSome option, textFree (plain option inside)⟩
  have texts : optionTexts (joined options).length (joined options) = options.map optionText :=
    textsJoined pieces le_rfl
  rw [optionRows, texts, List.map_map]
  exact (List.map_congr_left fun option inside => rowText (plain option inside)).trans (List.map_id _)

section Creating
variable (server : Server)

theorem dropEnds {first : Text} (some : first ≠ []) (rest : List Text) :
    (first :: rest).rdropWhile List.isEmpty = first :: rest.rdropWhile List.isEmpty := by
  induction rest using List.reverseRecOn with
  | nil => exact List.rdropWhile_concat_neg _ [] first (by simpa using some)
  | append_singleton rest last ih =>
    rw [← List.cons_append]
    by_cases empty : last.isEmpty = true
    · rw [List.rdropWhile_concat_pos _ _ _ empty, List.rdropWhile_concat_pos _ _ _ empty, ih]
    · rw [List.rdropWhile_concat_neg _ _ _ empty, List.rdropWhile_concat_neg _ _ _ empty, List.cons_append]

theorem headDropEnds (pieces : List Text) : (pieces.rdropWhile List.isEmpty).headD [] = pieces.headD [] := by
  cases pieces with
  | nil => rfl
  | cons first rest =>
    by_cases empty : first = []
    · subst empty
      cases none : ([] :: rest).rdropWhile List.isEmpty with
      | nil => rfl
      | cons kept more =>
        obtain ⟨behind, same⟩ := List.rdropWhile_prefix List.isEmpty (l := [] :: rest)
        rw [none] at same
        exact (List.cons.inj same).1
    · rw [dropEnds empty]
      rfl

theorem headSplit (s : Text) (c : Char) : (s.splitOn c).headD [] = BeforeFirst s c := by
  by_cases inside : c ∈ s
  · obtain ⟨before, after, rfl, free⟩ := List.eq_append_cons_of_mem inside
    rw [List.splitOn_append_cons_self, List.splitOn_eq_singleton free, wxString.beforeFirstStop free]
    rfl
  · rw [List.splitOn_eq_singleton inside, beforeFirstAll inside]
    rfl

theorem createText {option : Text × Text} (plain : Plain option) :
    createOption (optionText option) = (option.1, SqlLiteral.between (BeforeFirst option.2 '=')) := by
  have tokens : Tokenizer.retEmpty '=' (optionText option) =
      option.1 :: (option.2.splitOn '=').rdropWhile List.isEmpty := by
    rw [Tokenizer.retEmpty, optionText, List.splitOn_append_cons_self, List.splitOn_eq_singleton plain.equals,
      List.singleton_append, dropEnds plain.given]
    exact if_neg fun none => nomatch none.1
  rw [createOption, tokens, List.tail_cons, headDropEnds, headSplit]
  rfl

theorem createJoined {options : List (Text × Text)} (plain : ∀ option ∈ options, Plain option) :
    createOptions (joined options) =
      options.map fun option => (option.1, SqlLiteral.between (BeforeFirst option.2 '=')) := by
  have tokens : Tokenizer.retEmpty ',' (joined options) = options.map optionText := by
    cases options with
    | nil => rfl
    | cons first rest =>
      have pieces : (joined (first :: rest)).splitOn ',' = (first :: rest).map optionText := by
        refine List.splitOn_intercalate ',' (fun piece member => ?_) (List.cons_ne_nil _ _)
        obtain ⟨option, inside, rfl⟩ := List.mem_map.mp member
        exact textFree (plain option inside)
      have kept : ((first :: rest).map optionText).rdropWhile List.isEmpty = (first :: rest).map optionText := by
        refine List.rdropWhile_eq_self_iff.mpr fun some => ?_
        obtain ⟨option, -, same⟩ := List.mem_map.mp (List.getLast_mem some)
        rw [← same]
        simpa using textSome option
      rw [Tokenizer.retEmpty, pieces, kept]
      exact if_neg fun none => nomatch none.1
  rw [createOptions, tokens, List.map_map]
  exact List.map_congr_left fun option inside => createText (plain option inside)

/- What is written of an option without quotes or escapes is read as the option. -/
structure Readable (option : Text × Text) : Prop where
  name : label option.1 = some option.1
  value : SqlLiteral.Unescaped server.literals option.2

variable {server}

theorem literalBetween {value : Text} (plain : SqlLiteral.Unescaped server.literals value) :
    literal server (SqlLiteral.between value) = some value := by
  rw [literal, SqlLiteral.readBetween.mpr plain]

theorem literalWhole {value : Text} (read : literal server (SqlLiteral.between (BeforeFirst value '=')) = some value) :
    '=' ∉ value ∧ SqlLiteral.Unescaped server.literals value := by
  rw [literal] at read
  split at read
  · rename_i text here
    cases read
    have body :
        SqlLiteral.readBody (!server.literals.conforming) (BeforeFirst value '=' ++ ['\'']) = some (value, []) := here
    have shorter := (SqlLiteral.readShorter body).1
    have start : BeforeFirst value '=' <+: value := List.takeWhile_prefix _
    have whole : BeforeFirst value '=' = value := start.eq_of_length_le (by simpa using shorter)
    have free : '=' ∉ value := fun member => by
      have none := List.takeWhile_eq_self_iff.mp whole '=' member
      simp at none
    rw [whole] at here
    exact ⟨free, SqlLiteral.readBetween.mp here⟩
  · cases read

theorem optionRead {option : Text × Text} :
    (do return (← label option.1, ← literal server (SqlLiteral.between (BeforeFirst option.2 '='))) : Option _) =
      some option ↔ '=' ∉ option.2 ∧ Readable server option := by
  obtain ⟨name, value⟩ := option
  constructor
  · intro read
    obtain ⟨first, here, read⟩ := Option.bind_eq_some_iff.mp read
    obtain ⟨second, there, read⟩ := Option.bind_eq_some_iff.mp read
    cases read
    obtain ⟨free, plain⟩ := literalWhole there
    exact ⟨free, here, plain⟩
  · rintro ⟨free, readable⟩
    dsimp only at free ⊢
    rw [readable.name, beforeFirstAll free, literalBetween readable.value]
    rfl

theorem createdIff {stored : Stored} (plain : ∀ option ∈ stored.options, Plain option) :
    Created server stored ↔ ∀ option ∈ stored.options, '=' ∉ option.2 ∧ Readable server option := by
  rw [Created, createJoined plain]
  generalize stored.options = options
  induction options with
  | nil => simp
  | cons option options ih =>
    rw [List.forall_mem_cons, ← ih, ← optionRead, List.map_cons, List.mapM_cons]
    constructor
    · intro read
      obtain ⟨first, here, read⟩ := Option.bind_eq_some_iff.mp read
      obtain ⟨rest, there, read⟩ := Option.bind_eq_some_iff.mp read
      cases read
      exact ⟨here, there⟩
    · rintro ⟨here, there⟩
      rw [here, there]
      rfl

end Creating

end PgAdmin.dlgForeignServer
