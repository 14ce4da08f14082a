import PgAdmin.ArrayText
import PgAdmin.Identifier

/-! The option for an object name on a command line: commandLineCleanOption takes the quotes of qtIdent off the name
and escapes it for an argument in quotes. Four replacements run over the whole text, one after the other. -/
namespace PgAdmin.misc
open PgsObjects (Text)
open Substitution wxString Identifier
open arrayText (escaped)

def commandLineCleanOption (option : Text) (schemaObject : Bool) : Text :=
  if schemaObject then replaceAll ['"'] ['\\', '"'] option
  else
    let tmp := if ['"'].isPrefixOf option && ['"'].isSuffixOf option then
      BeforeLast (AfterFirst option '"') '"' else option
    let tmp := replaceAll ['\\'] ['\\', '\\'] tmp
    let tmp := replaceAll ['"'] ['\\', '"'] tmp
    let tmp := replaceAll ['\\', '"', '\\', '"'] ['\\', '"'] tmp
    '"' :: tmp ++ ['"']

def argumentRest : Text → Option (Text × Text)
  | [] => none
  | '"' :: s => some ([], s)
  | '\\' :: '"' :: s => (argumentRest s).map fun (argument, rest) => ('"' :: argument, rest)
  | '\\' :: '\\' :: s => (argumentRest s).map fun (argument, rest) => ('\\' :: argument, rest)
  | c :: s => (argumentRest s).map fun (argument, rest) => (c :: argument, rest)

def readArgument : Text → Option (Text × Text)
  | '"' :: s => argumentRest s
  | _ => none

/- What the second and the third replacement make of a letter of the name, whose quotes qtIdent doubled. -/
def escapedTwice (c : Char) : Text :=
  if c = '"' then ['\\', '"', '\\', '"'] else if c = '\\' then ['\\', '\\'] else [c]

theorem replacedTwice (n : Text) :
    replaceAll ['"'] ['\\', '"'] (replaceAll ['\\'] ['\\', '\\'] (n.flatMap doubled)) =
      n.flatMap escapedTwice := by
  rw [replaceLetter, replaceLetter, List.flatMap_assoc, List.flatMap_assoc]
  refine List.flatMap_congr fun c _ => ?_
  by_cases quote : c = '"'
  · subst quote
    rfl
  · by_cases backslash : c = '\\'
    · subst backslash
      rfl
    · simp [doubled, escapedTwice, quote, backslash]

theorem escapedTwiceHead (n : Text) : (n.flatMap escapedTwice).head? ≠ some '"' := by
  cases n with
  | nil => simp
  | cons c n =>
    rw [List.flatMap_cons, escapedTwice]
    split
    · simp
    · split
      · simp
      · simpa using ‹¬ c = '"'›

theorem replacedPairs (n : Text) :
    replaceAll ['\\', '"', '\\', '"'] ['\\', '"'] (n.flatMap escapedTwice) = n.flatMap escaped := by
  induction n with
  | nil => rfl
  | cons c n ih =>
    rw [List.flatMap_cons, List.flatMap_cons, ← ih]
    by_cases quote : c = '"'
    · subst quote
      exact replaceAllHit (List.cons_ne_nil _ _) _ _
    · by_cases backslash : c = '\\'
      · subst backslash
        have next : ¬ ['\\', '"', '\\', '"'] <+: '\\' :: n.flatMap escapedTwice := by
          rintro ⟨s, same⟩
          have head := congrArg List.head? (List.cons.inj same).2
          exact escapedTwiceHead n head.symm
        show replaceAll _ _ ('\\' :: '\\' :: n.flatMap escapedTwice) = _
        rw [replaceAllMiss (by simp), replaceAllMiss next]
        rfl
      · have single : escapedTwice c = [c] := by simp [escapedTwice, quote, backslash]
        have kept : escaped c = [c] := if_neg (by simp [quote, backslash])
        rw [single, kept]
        exact replaceAllMiss fun start => backslash (List.cons_prefix_cons.mp start).1.symm

theorem cleanBare {n : Text} (quotes : '"' ∉ n) (backslashes : '\\' ∉ n) :
    commandLineCleanOption n false = '"' :: n.flatMap escaped ++ ['"'] := by
  have start : ['"'].isPrefixOf n = false := by
    cases n with
    | nil => rfl
    | cons c n =>
      have other : '"' ≠ c := fun same => quotes (same ▸ List.mem_cons_self)
      simp [List.isPrefixOf, other]
  have same : n.flatMap doubled = n := by
    refine (List.flatMap_congr fun c member => ?_).trans (List.flatMap_singleton' n)
    exact if_neg fun quote : c = '"' => quotes (quote ▸ member)
  have twice := replacedTwice n
  rw [same] at twice
  simp only [commandLineCleanOption, start, Bool.false_and, if_false, Bool.false_eq_true]
  rw [twice, replacedPairs]

theorem cleanQuoted (n : Text) :
    commandLineCleanOption ('"' :: n.flatMap doubled ++ ['"']) false =
      '"' :: n.flatMap escaped ++ ['"'] := by
  have start : ['"'].isPrefixOf ('"' :: n.flatMap doubled ++ ['"']) = true := by simp
  have ends : ['"'].isSuffixOf ('"' :: n.flatMap doubled ++ ['"']) = true :=
    List.isSuffixOf_iff_suffix.mpr ⟨'"' :: n.flatMap doubled, rfl⟩
  have inner : BeforeLast (AfterFirst ('"' :: n.flatMap doubled ++ ['"']) '"') '"' = n.flatMap doubled := by
    have after : AfterFirst ('"' :: n.flatMap doubled ++ ['"']) '"' = n.flatMap doubled ++ ['"'] :=
      afterFirstStop (List.not_mem_nil (a := '"')) _
    rw [after]
    exact beforeLastStop _ List.not_mem_nil
  simp only [commandLineCleanOption, start, ends, Bool.and_self, if_true, if_false, Bool.false_eq_true, inner]
  rw [replacedTwice, replacedPairs]

theorem argumentEscaped (n rest : Text) :
    argumentRest (n.flatMap escaped ++ '"' :: rest) = some (n, rest) := by
  induction n with
  | nil => rfl
  | cons c n ih =>
    rw [List.flatMap_cons, List.append_assoc]
    by_cases quote : c = '"'
    · subst quote
      simp [escaped, argumentRest, ih]
    · by_cases backslash : c = '\\'
      · subst backslash
        simp [escaped, argumentRest, ih]
      · have single : escaped c = [c] := if_neg (by simp [quote, backslash])
        rw [single, List.singleton_append, argumentRest, ih]
        · rfl
        · exact quote
        · exact fun s same => absurd same backslash
        · exact fun s same => absurd same backslash

variable (keyword : Text → Bool)

/-- On the command line the option for a name is one argument, the name itself, wherever the line goes on. -/
theorem cleanOptionRead (n rest : Text) :
    readArgument (commandLineCleanOption (qtIdent keyword n) false ++ rest) = some (n, rest) := by
  have clean : commandLineCleanOption (qtIdent keyword n) false = '"' :: n.flatMap escaped ++ ['"'] := by
    rw [qtIdent]
    split
    · rename_i none
      rw [List.eq_nil_of_length_eq_zero none]
      rfl
    · split
      · rw [replaceLetter]
        exact cleanQuoted n
      · rename_i bare
        have letters := (unquotedLetters keyword (by simpa using bare)).1
        refine cleanBare (fun member => ?_) fun member => ?_
        · exact absurd (letters _ member) (by decide)
        · exact absurd (letters _ member) (by decide)
  rw [clean]
  show argumentRest (n.flatMap escaped ++ ['"'] ++ rest) = _
  rw [List.append_assoc]
  exact argumentEscaped n rest

example : commandLineCleanOption (qtIdent (fun _ => false) ['a', '\\', '"']) false =
    ['"', 'a', '\\', '\\', '\\', '"', '"'] := by decide

end PgAdmin.misc
