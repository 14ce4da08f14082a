import PgAdmin.Substitution

/-! The values of pgScript. Numbers, strings and generators are scalars; a record holds lines of
scalars, all as long as the list of its columns, and never more of either than the 16-bit
counters can count. -/
namespace PgAdmin.PgsObjects
open Substitution

abbrev Text := List Char
abbrev USHORT := UInt16

/- towlower and iswspace, which depend on the locale. In none is a letter, a digit or a
punctuation mark white space, and the end of a line is. -/
structure Ctype where
  isSpace : Char → Bool
  lower : Char → Char
  newline : isSpace '\n' = true
  graphic : ∀ c : Char, '!' ≤ c → c ≤ '~' → isSpace c = false

namespace Ctype

def strip (ctype : Ctype) (text : Text) : Text :=
  ((text.dropWhile ctype.isSpace).reverse.dropWhile ctype.isSpace).reverse

def plain : Ctype where
  isSpace := Char.isWhitespace
  lower := Char.toLower
  newline := rfl
  graphic := by
    intro c low _
    have apart : ∀ blank : Char, blank < '!' → c ≠ blank := fun blank below same =>
      absurd (same ▸ low) (Char.not_le.mpr below)
    simp [Char.isWhitespace, apart ' ' (by decide), apart '\t' (by decide),
      apart '\r' (by decide), apart '\n' (by decide)]

end Ctype

inductive ScalarType where
  | pgsTReal
  | pgsTInt
  | pgsTString
  deriving DecidableEq, Repr

inductive Scalar where
  | pgsNumber (data : Text) (isReal : Bool)
  | pgsString (data : Text)
  | pgsGenerator (type : ScalarType) (randomizer : ℕ)
  deriving DecidableEq, Repr

namespace Scalar

def type : Scalar → ScalarType
  | pgsNumber _ isReal => if isReal then .pgsTReal else .pgsTInt
  | pgsString _ => .pgsTString
  | pgsGenerator type _ => type

def isInteger (v : Scalar) : Bool := v.type = .pgsTInt
def isReal (v : Scalar) : Bool := v.type = .pgsTReal
def isString (v : Scalar) : Bool := v.type = .pgsTString
def isNumber (v : Scalar) : Bool := v.isInteger || v.isReal

/- value(): a constant shows its data, a generator draws. -/
def value {σ : Type} (draw : ℕ → StateM σ Text) : Scalar → StateM σ Text
  | pgsNumber data _ => pure data
  | pgsString data => pure data
  | pgsGenerator _ randomizer => draw randomizer

end Scalar

structure PgsRecord where
  columns : List Text
  lines : List (List Scalar)
  square : ∀ line ∈ lines, line.length = columns.length
  columnsFit : columns.length < 65536
  linesFit : lines.length < 65536
  deriving DecidableEq

inductive Variable where
  | scalar (v : Scalar)
  | record (r : PgsRecord)
  deriving DecidableEq

namespace Variable

def isInteger : Variable → Bool
  | scalar v => v.isInteger
  | record _ => false

def isString : Variable → Bool
  | scalar v => v.isString
  | record _ => false

end Variable

abbrev PgsVarMap := Text → Option Variable

def PgsVarMap.set (vars : PgsVarMap) (name : Text) (v : Variable) : PgsVarMap :=
  fun other => if other = name then some v else vars other

@[simp] theorem PgsVarMap.setSame (vars : PgsVarMap) (name : Text) (v : Variable) :
    vars.set name v name = some v := if_pos rfl

theorem PgsVarMap.setSelf {vars : PgsVarMap} {name : Text} {v : Variable}
    (found : vars name = some v) : vars.set name v = vars := by
  funext other
  unfold PgsVarMap.set
  split
  · rename_i same
    rw [same, found]
  · rfl

theorem PgsVarMap.setInjective {vars : PgsVarMap} {name : Text} {v w : Variable}
    (found : vars name = some v) (same : vars.set name w = vars) : w = v := by
  have at_name := congrFun same name
  rw [PgsVarMap.setSame, found] at at_name
  exact Option.some.inj at_name

inductive PgsException where
  | pgsParameterException (message : Text)
  | pgsArithmeticException (left right : Text)
  | pgsCastException (value type : Text)
  | pgsAssertException (message : Text)
  | pgsInterruptException
  | pgsBreakException
  | pgsContinueException
  deriving DecidableEq, Repr

abbrev Eval (σ : Type) := ExceptT PgsException (StateM σ)

theorem evalBind {σ α β : Type} {m : Eval σ α} {f : α → Eval σ β} {s s' : σ} {b : β}
    (ok : (m >>= f).run s = (.ok b, s')) :
    ∃ a middle, m.run s = (.ok a, middle) ∧ (f a).run middle = (.ok b, s') := by
  change (ExceptT.bindCont f (m.run s).1) (m.run s).2 = (.ok b, s') at ok
  cases ran : m.run s with
  | mk result middle =>
    rw [ran] at ok
    cases result with
    | error x => cases ok
    | ok a => exact ⟨a, middle, rfl, ok⟩

/- No expression inside an assignment assigns. -/
structure PgsExpression (σ : Type) where
  value : Text
  eval : PgsVarMap → Eval σ Variable

def PgsExpression.constant {σ : Type} (v : Scalar) (data : Text) : PgsExpression σ :=
  ⟨data, fun _ => pure (.scalar v)⟩

/-! Text and machine integers. -/

def digitsValue (digits : Text) : Option ℤ :=
  if digits ≠ [] ∧ digits.all Char.isDigit then
    some (digits.foldl (fun n c => 10 * n + (c.toNat - '0'.toNat : ℕ)) 0)
  else none

def textInt : Text → Option ℤ
  | '-' :: digits => (digitsValue digits).map (- ·)
  | '+' :: digits => digitsValue digits
  | digits => digitsValue digits

/- wxString::ToLong leaves the variable as it was when the text is no long. -/
def toLong (uninitialised : ℤ) (text : Text) : ℤ :=
  match textInt text with
  | some n => if -2 ^ 63 ≤ n ∧ n < 2 ^ 63 then n else uninitialised
  | none => uninitialised

/- A long passed as a USHORT. -/
def toUShort (n : ℤ) : USHORT := UInt16.ofNat (n % 65536).toNat

theorem toUShortNat (n : ℤ) : ((toUShort n).toNat : ℤ) = n % 65536 := by
  have range := Int.emod_nonneg n (by decide : (65536 : ℤ) ≠ 0)
  have bound := Int.emod_lt_of_pos n (by decide : (0 : ℤ) < 65536)
  simp only [toUShort, UInt16.toNat_ofNat']
  omega

end PgAdmin.PgsObjects
