import PgAdmin.PgsObjects
import PgAdmin.Substitution
import PgAdmin.Tokenizer

/-! The format of a .pgpass file as libpq reads it: fields between colons, in which a backslash
stands before a letter that is meant as it is. A line that starts with # is a comment. -/
namespace PgAdmin.PgpassFormat
open PgsObjects (Text)

structure Letter where
  escaped : Bool
  char : Char
  deriving DecidableEq, Repr

def split : Text → List (List Letter)
  | [] => [[]]
  | '\\' :: c :: s => (split s).modifyHead (⟨true, c⟩ :: ·)
  | ':' :: s => [] :: split s
  | c :: s => (split s).modifyHead (⟨false, c⟩ :: ·)

def meant (field : List Letter) : Text := field.map Letter.char

def entry (s : Text) : List Text := ((split s).map meant).takeD 5 []

inductive Line where
  | empty
  | comment
  | entry (values : List Text)
  deriving DecidableEq, Repr

def line (s : Text) : Line :=
  if s = [] then .empty else if s.head? = some '#' then .comment else .entry (entry s)

def mustEscape (c : Char) : Bool := c = '\\' || c = ':'

def escape (value : Text) : Text := value.flatMap fun c => if mustEscape c then ['\\', c] else [c]

def letters (value : Text) : List Letter := value.map fun c => ⟨mustEscape c, c⟩

@[simp] theorem meantLetters (value : Text) : meant (letters value) = value := by
  simp [meant, letters, Function.comp_def]

theorem splitNonempty (s : Text) : split s ≠ [] := by
  fun_induction split s with
  | case1 => simp
  | case2 c s ih => simpa using ih
  | case3 s ih => simp
  | case4 c s _ _ ih => simpa using ih

theorem splitPlain {c : Char} (plain : mustEscape c = false) (s : Text) :
    split (c :: s) = (split s).modifyHead (⟨false, c⟩ :: ·) := by
  obtain ⟨backslash, colon⟩ : c ≠ '\\' ∧ c ≠ ':' := by simpa [mustEscape] using plain
  rw [split]
  · exact fun _ _ same => absurd same backslash
  · exact colon

theorem splitEscape (value : Text) (s : Text) :
    split (escape value ++ s) = (split s).modifyHead (letters value ++ ·) := by
  induction value with
  | nil =>
    change split s = _
    cases split s <;> rfl
  | cons c value ih =>
    have whole : escape (c :: value) ++ s =
        (if mustEscape c then ['\\', c] else [c]) ++ (escape value ++ s) := by
      rw [escape, List.flatMap_cons, List.append_assoc]
      rfl
    rw [whole]
    cases must : mustEscape c with
    | true =>
      change split ('\\' :: c :: (escape value ++ s)) = _
      rw [split, ih, List.modifyHead_modifyHead]
      simp [letters, must, Function.comp_def]
    | false =>
      change split (c :: (escape value ++ s)) = _
      rw [splitPlain must, ih, List.modifyHead_modifyHead]
      simp [letters, must, Function.comp_def]

theorem splitFields (values : List Text) (nonempty : values ≠ []) :
    split ([':'].intercalate (values.map escape)) = values.map letters := by
  induction values with
  | nil => contradiction
  | cons value values ih =>
    cases values with
    | nil =>
      have alone := splitEscape value []
      simpa [split] using alone
    | cons next values =>
      have rest := ih (List.cons_ne_nil next values)
      rw [List.map_cons, List.map_cons, List.intercalate_cons_cons, List.append_assoc,
        splitEscape, List.singleton_append, split, ← List.map_cons, rest]
      simp

end PgAdmin.PgpassFormat

/-! pgPassConfigLine: a line of a .pgpass file, read into its five fields and written from them.
The reader takes one backslash off every pair of the whole line before it looks for the colons, and
skips empty tokens. -/
namespace PgAdmin
open PgsObjects (Text)
open Substitution Tokenizer

/- isComment is not initialised for an empty line. -/
structure pgPassConfigLine where
  text : Text := []
  hostname : Text := []
  port : Text := []
  database : Text := []
  username : Text := []
  password : Text := []
  isComment : Option Bool := none
  deriving DecidableEq, Repr

namespace pgPassConfigLine

/- `while(val.Last() == wxT('\\'))`. After the last token GetNextToken() returns an empty one, val
ends in a colon and the loop ends. -/
def joinTokens : Text → List Text → Text × List Text
  | val, [] => (if val.getLast? = some '\\' then val.dropLast ++ [':'] else val, [])
  | val, token :: tok =>
    if val.getLast? = some '\\' then joinTokens (val.dropLast ++ ':' :: token) tok
    else (val, token :: tok)

/- The same loop for a number of tests at most. -/
def joinWithin : ℕ → Text → List Text → Option (Text × List Text)
  | 0, _, _ => none
  | n + 1, val, tok =>
    if val.getLast? = some '\\' then joinWithin n (val.dropLast ++ ':' :: tok.headD []) tok.tail
    else some (val, tok)

theorem joinTokensEnds (val : Text) (tok : List Text) :
    joinWithin (tok.length + 2) val tok = some (joinTokens val tok) := by
  induction tok generalizing val with
  | nil =>
    rw [joinWithin, joinTokens]
    split
    · have colon : (val.dropLast ++ [':']).getLast? ≠ some '\\' := by simp
      rw [List.headD_nil, List.tail_nil, List.length_nil, joinWithin, if_neg colon]
    · rfl
  | cons token tok ih =>
    rw [joinWithin, joinTokens]
    split
    · exact ih _
    · rfl

theorem joinTokensLength (val : Text) (tok : List Text) :
    (joinTokens val tok).2.length ≤ tok.length := by
  induction tok generalizing val with
  | nil => exact le_rfl
  | cons token tok ih =>
    rw [joinTokens]
    split
    · exact Nat.le_succ_of_le (ih _)
    · exact le_rfl

/- The values iVarCount counts. -/
def values : List Text → List Text
  | [] => []
  | val :: tok =>
    if val = [] then values tok
    else (joinTokens val tok).1 :: values (joinTokens val tok).2
termination_by tok => tok.length
decreasing_by
  · exact Nat.lt_succ_self _
  · exact Nat.lt_succ_of_le (joinTokensLength val tok)

def setValue (self : pgPassConfigLine) (iVarCount : ℕ) (val : Text) : pgPassConfigLine :=
  match iVarCount with
  | 1 => { self with hostname := val }
  | 2 => { self with port := val }
  | 3 => { self with database := val }
  | 4 => { self with username := val }
  | 5 => { self with password := val }
  | _ => self

def setValues (self : pgPassConfigLine) (iVarCount : ℕ) : List Text → pgPassConfigLine
  | [] => self
  | val :: vals => (self.setValue (iVarCount + 1) val).setValues (iVarCount + 1) vals

def Init (self : pgPassConfigLine) (line : Text) : pgPassConfigLine :=
  if line = [] then { self with text := line }
  else
    let isComment : Bool := line.head? = some '#'
    let tmpLine := replaceAll ['\\', '\\'] ['\\'] line
    let tok := retEmpty ':' (if isComment then tmpLine.drop 1 else tmpLine)
    setValues { self with text := line, isComment := some isComment } 0 (values tok)

/- pgPassConfigLine::pgPassConfigLine -/
def create (line : Text) : pgPassConfigLine := Init {} line

def fields (self : pgPassConfigLine) : List Text :=
  [self.hostname, self.port, self.database, self.username, self.password]

/- The two Replace() of a field. -/
def escaped (value : Text) : Text :=
  replaceAll [':'] ['\\', ':'] (replaceAll ['\\'] ['\\', '\\'] value)

/- The line frmPgpassConfig::WriteFile writes, without its newline. -/
def written (line : pgPassConfigLine) : Text :=
  escaped line.hostname ++ ':' :: escaped line.port ++ ':' :: escaped line.database ++
    ':' :: escaped line.username ++ ':' :: escaped line.password

@[simp] theorem valuesNil : values [] = [] := by rw [values]

theorem valuesSkip (tok : List Text) : values ([] :: tok) = values tok := by
  rw [values, if_pos rfl]

theorem valuesTake {val : Text} (nonempty : val ≠ []) (tok : List Text) :
    values (val :: tok) = (joinTokens val tok).1 :: values (joinTokens val tok).2 := by
  rw [values, if_neg nonempty]

theorem setValuesMore (self : pgPassConfigLine) {iVarCount : ℕ} (five : 5 ≤ iVarCount)
    (vals : List Text) : self.setValues iVarCount vals = self := by
  induction vals generalizing iVarCount with
  | nil => rfl
  | cons val vals ih =>
    have none : self.setValue (iVarCount + 1) val = self := by
      obtain ⟨more, rfl⟩ := Nat.exists_eq_add_of_le' five
      rfl
    rw [setValues, none, ih (Nat.le_succ_of_le five)]

theorem setValuesFields (self : pgPassConfigLine) (fresh : self.fields = List.replicate 5 [])
    (vals : List Text) : (self.setValues 0 vals).fields = vals.takeD 5 [] := by
  obtain ⟨text, hostname, port, database, username, password, isComment⟩ := self
  obtain ⟨rfl, rfl, rfl, rfl, rfl⟩ : hostname = [] ∧ port = [] ∧ database = [] ∧ username = [] ∧
      password = [] := by simpa [fields] using fresh
  match vals with
  | [] => rfl
  | [_] => rfl
  | [_, _] => rfl
  | [_, _, _] => rfl
  | [_, _, _, _] => rfl
  | _ :: _ :: _ :: _ :: _ :: vals =>
    simp only [setValues]
    rw [setValuesMore _ (Nat.le_of_ble_eq_true rfl)]
    rfl

theorem createFields (line : Text) : (create line).fields =
    if line = [] then List.replicate 5 []
    else (values (retEmpty ':' (if line.head? = some '#'
      then (replaceAll ['\\', '\\'] ['\\'] line).drop 1
      else replaceAll ['\\', '\\'] ['\\'] line))).takeD 5 [] := by
  unfold create Init
  split
  · rfl
  · simp only [decide_eq_true_eq]
    exact setValuesFields _ rfl _

end pgPassConfigLine
end PgAdmin
