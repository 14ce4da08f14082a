import PgAdmin.PgsRecord
import PgAdmin.Regular

/-! pgsString::record: reading a record from a text. A line is found with one regular expression,
its elements with another, and each match is deleted from the text it was found in. The first line
is gone through twice, since the first pass only counts the columns. -/
namespace PgAdmin.PgsObjects
open Substitution

namespace PgsNumber
open Regular

def sign : Regular Char := opt (test fun c => c = '+' || c = '-')
def digit : Regular Char := test Char.isDigit
def exponent : Regular Char := cat (test fun c => c = 'E' || c = 'e') (cat sign (plus digit))

/- PGS_INTEGER_FORM_1, PGS_REAL_FORM_1 to PGS_REAL_FORM_3 -/
def integerForm1 : Regular Char := cat sign (plus digit)
def realForm1 : Regular Char := cat sign (cat (plus digit) exponent)
def realForm2 : Regular Char :=
  cat sign (cat (star digit) (cat (letter '.') (cat (plus digit) (opt exponent))))
def realForm3 : Regular Char :=
  cat sign (cat (plus digit) (cat (letter '.') (cat (star digit) (opt exponent))))

def numType (num : Text) : ScalarType :=
  if integerForm1.accepts num then .pgsTInt
  else if realForm1.accepts num || realForm2.accepts num || realForm3.accepts num then .pgsTReal
  else .pgsTString

/- is_valid(), which the constructor asserts. -/
def isValid (data : Text) (isReal : Bool) : Bool :=
  numType data = .pgsTInt || (numType data = .pgsTReal && isReal)

end PgsNumber

namespace PgsString
open Regular

def wordLetter (c : Char) : Bool := c = '-' || (c.isAlphanum || c = '\\' || c = '+' || c = '.')

def unit : Regular Char :=
  alt (test fun c => c ≠ '"' && c ≠ '\\') (cat (letter '\\') (test fun _ => true))

/- `("([^"\\]|\\.)*")|((-|[a-zA-Z0-9\+\.])+)` -/
def element : Regular Char :=
  alt (cat (letter '"') (cat (star unit) (letter '"'))) (plus (test wordLetter))

def spaces (ctype : Ctype) : Regular Char := star (test ctype.isSpace)

/- `[,][[:space:]]*(element)[[:space:]]*` -/
def nextElement (ctype : Ctype) : Regular Char :=
  cat (letter ',') (cat (spaces ctype) (cat element (spaces ctype)))

/- `^[[:space:]]*\([[:space:]]*(element)[[:space:]]*([,][[:space:]]*(element)[[:space:]]*)*\)`:
the letters of the elements are in the bracket in both cases already. -/
def lineForm (ctype : Ctype) : Regular Char :=
  cat (spaces ctype) (cat (letter '(') (cat (spaces ctype) (cat element (cat (spaces ctype)
    (cat (star (nextElement ctype)) (letter ')'))))))

def unescape (value : Text) : Text :=
  replaceAll ['\\', '\\'] ['\\'] (replaceAll ['\\', '"'] ['"'] value)

def cell (ctype : Ctype) (value : Text) : Scalar :=
  if value.head? = some '"' ∧ value.getLast? = some '"' then
    .pgsString (unescape ((value.drop 1).take (value.length - 2)))
  else match PgsNumber.numType value with
    | .pgsTInt => .pgsNumber (ctype.strip value) false
    | .pgsTReal => .pgsNumber (ctype.strip value) true
    | .pgsTString => .pgsString value

/- `while (regex2.Matches(line))`, first to count the columns. -/
def countElements : ℕ → Text → ℕ → Option ℕ
  | 0, _, _ => none
  | fuel + 1, line, columns =>
    match element.search line with
    | none => some columns
    | some (before, _, after) => countElements fuel (before ++ after) (columns + 1)

def insertElements (ctype : Ctype) (columns lineNb : ℕ) :
    ℕ → Text → ℕ → PgsRecord → Option PgsRecord
  | 0, _, _, _ => none
  | fuel + 1, line, columnNb, r =>
    match element.search line with
    | none => some r
    | some (before, value, after) =>
      let inserted :=
        if columnNb < columns then
          (r.insert fuel (UInt16.ofNat lineNb) (UInt16.ofNat columnNb) (cell ctype value)).map
            Prod.snd
        else some r
      inserted.bind fun r =>
        insertElements ctype columns lineNb fuel (before ++ after) (columnNb + 1) r

/- `while (regex1.Matches(data))`; there is no record until the columns are counted. -/
def recordLines (ctype : Ctype) : ℕ → Text → ℕ → ℕ → Option PgsRecord → Option (Option PgsRecord)
  | 0, _, _, _, _ => none
  | fuel + 1, data, columns, lineNb, r =>
    match (lineForm ctype).longest data with
    | none => some r
    | some length =>
      match r with
      | none => (countElements fuel (data.take length) columns).bind fun columns =>
        recordLines ctype fuel data columns lineNb (some (.create (UInt16.ofNat columns)))
      | some r => (insertElements ctype columns lineNb fuel (data.take length) 0 r).bind fun r =>
        recordLines ctype fuel (data.drop length) columns (lineNb + 1) (some r)

def record (ctype : Ctype) (fuel : ℕ) (data : Text) : Option PgsRecord :=
  (recordLines ctype fuel data 0 0 none).bind fun
    | some r => some r
    | none => ((PgsRecord.create 1).insert fuel 0 0 (.pgsString data)).map Prod.snd

end PgsString
end PgAdmin.PgsObjects
