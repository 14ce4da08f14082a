import PgAdmin.PgsObjects
import PgAdmin.Substitution

/-! String literals of SQL: how a server reads one, and the one qtDbString writes for a text.
Whatever the version of the server and its setting, what is written denotes the text. -/
namespace PgAdmin.SqlLiteral
open PgsObjects (Text)
open Substitution

/- What decides how a literal is read. Before 8.1 there are no E'' strings, and a backslash is an
escape everywhere; standard_conforming_strings came later. -/
structure Server where
  minimum81 : Bool
  conforming : Bool
  later : conforming → minimum81

def escaped : Char → Option Char
  | 'b' => some '\x08'
  | 'f' => some '\x0c'
  | 'n' => some '\n'
  | 'r' => some '\r'
  | 't' => some '\t'
  | c => if c.isDigit || c = 'x' || c = 'u' || c = 'U' then none else some c

def readBody (escapes : Bool) : Text → Option (Text × Text)
  | [] => none
  | '\'' :: '\'' :: s => (readBody escapes s).map fun (v, rest) => ('\'' :: v, rest)
  | '\'' :: s => some ([], s)
  | '\\' :: c :: s =>
    if escapes then
      (escaped c).bind fun d => (readBody escapes s).map fun (v, rest) => (d :: v, rest)
    else (readBody escapes (c :: s)).map fun (v, rest) => ('\\' :: v, rest)
  | c :: s => (readBody escapes s).map fun (v, rest) => (c :: v, rest)

def read (server : Server) : Text → Option (Text × Text)
  | '\'' :: s => readBody (!server.conforming) s
  | 'E' :: '\'' :: s => if server.minimum81 then readBody true s else none
  | _ => none

/- pgConn::qtDbString -/
def qtDbString (server : Server) (value : Text) : Text :=
  let result := replaceAll ['\\'] "\\\\".toList value
  let result := replaceAll ['\''] "''".toList result
  let result := result ++ ['\'']
  if server.minimum81 ∧ '\\' ∈ result then "E'".toList ++ result else '\'' :: result

def doubled (c : Char) : Text := if c = '\\' ∨ c = '\'' then [c, c] else [c]

theorem replacedTwice (value : Text) :
    replaceAll ['\''] "''".toList (replaceAll ['\\'] "\\\\".toList value) =
      value.flatMap doubled := by
  rw [replaceLetter, replaceLetter, List.flatMap_assoc]
  congr 1
  funext c
  by_cases backslash : c = '\\'
  · subst backslash
    rfl
  · rw [if_neg backslash]
    by_cases quote : c = '\''
    · subst quote
      rfl
    · simp [doubled, backslash, quote]

theorem backslashDoubled (value : Text) : '\\' ∈ value.flatMap doubled ↔ '\\' ∈ value := by
  rw [List.mem_flatMap]
  constructor
  · rintro ⟨c, member, inside⟩
    have same : '\\' = c := by
      unfold doubled at inside
      split at inside <;> simpa using inside
    exact same ▸ member
  · exact fun member => ⟨'\\', member, by simp [doubled]⟩

theorem readDoubled {escapes : Bool} {value rest : Text} (closes : rest.head? ≠ some '\'')
    (escaping : '\\' ∈ value → escapes = true) :
    readBody escapes (value.flatMap doubled ++ '\'' :: rest) = some (value, rest) := by
  induction value with
  | nil =>
    cases rest with
    | nil => rfl
    | cons c rest =>
      have other : c ≠ '\'' := by simpa using closes
      simp [readBody, other]
  | cons c value ih =>
    have next := ih fun member => escaping (List.mem_cons_of_mem _ member)
    rw [List.flatMap_cons, List.append_assoc]
    by_cases backslash : c = '\\'
    · subst backslash
      have on := escaping List.mem_cons_self
      subst on
      simp [doubled, readBody, escaped, next]
    · by_cases quote : c = '\''
      · subst quote
        simp [doubled, readBody, next]
      · have single : doubled c = [c] := by simp [doubled, backslash, quote]
        simp [single, readBody, next, quote, backslash]

/-- The literal written for a text is read as the text. -/
theorem readQtDbString (server : Server) (value : Text) {rest : Text}
    (closes : rest.head? ≠ some '\'') :
    read server (qtDbString server value ++ rest) = some (value, rest) := by
  have body : '\\' ∈ value.flatMap doubled ++ ['\''] ↔ '\\' ∈ value := by
    rw [List.mem_append, backslashDoubled]
    simp
  simp only [qtDbString, replacedTwice, body]
  by_cases prefixed : server.minimum81 ∧ '\\' ∈ value
  · simp only [if_pos prefixed]
    simp [read, prefixed.1, readDoubled closes]
  · simp only [if_neg prefixed]
    have escaping : '\\' ∈ value → (!server.conforming) = true := by
      intro member
      have old : server.minimum81 = false := by simpa [member] using prefixed
      cases conforming : server.conforming with
      | false => rfl
      | true => exact nomatch old.symm.trans (server.later conforming)
    simp [read, readDoubled closes escaping]

/-- The literal ends at its last letter, and whatever stands behind it is no part of it. -/
theorem literalExact (server : Server) (value : Text) :
    read server (qtDbString server value) = some (value, []) ∧
      ∀ rest : Text, rest.head? ≠ some '\'' →
        read server (qtDbString server value ++ rest) = some (value, rest) := by
  constructor
  · have whole := @readQtDbString server value [] (by simp)
    rwa [List.append_nil] at whole
  · intro rest closes
    exact readQtDbString server value closes

theorem literalEscaped : read ⟨true, true, id⟩
    (qtDbString ⟨true, true, id⟩ "\\'; DROP TABLE t; --".toList ++ ";".toList) =
      some ("\\'; DROP TABLE t; --".toList, ";".toList) :=
  (literalExact ⟨true, true, id⟩ "\\'; DROP TABLE t; --".toList).2 ";".toList (by decide)

end PgAdmin.SqlLiteral
