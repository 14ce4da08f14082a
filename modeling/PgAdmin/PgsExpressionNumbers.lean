import PgAdmin.PgsConstantOperators

/-! pgScript expressions over numbers, strings and casts: each number that is made while such an expression is
parsed and evaluated is valid. -/
namespace PgAdmin.PgsObjects
open PgsScanner

structure NumberToken where
  source : Text
  length : ℕ
  isReal : Bool
  scanned : Flex.next initialRules source = some (if isReal then valReal else valInt, length)

def NumberToken.text (token : NumberToken) : Text := token.source.take token.length

inductive CastType where
  | integer | real | record | string
  deriving DecidableEq

inductive Operation where
  | pgsTimes | pgsOver | pgsModulo | pgsPlus | pgsMinus
  | pgsLower | pgsGreater | pgsLowerEqual | pgsGreaterEqual | pgsEqual | pgsAlmostEqual | pgsDifferent
  deriving DecidableEq

def Operation.arithmetic : List Operation := [.pgsTimes, .pgsOver, .pgsModulo, .pgsPlus, .pgsMinus]

inductive Expression where
  | number (token : NumberToken)
  | string (data : Text)
  | parenthesis (e : Expression)
  | trim (e : Expression)
  | negate (e : Expression)
  | not (e : Expression)
  | cast (type : CastType) (e : Expression)
  | operation (op : Operation) (left right : Expression)
  | and (left right : Expression)
  | or (left right : Expression)

namespace Expression
variable (ctype : Ctype) (div : Decimal → Decimal → Decimal) (fuel : ℕ)

def parse : Expression → Made Unit
  | number token => do let _ ← PgsNumber.make ctype token.text token.isReal
  | string _ => pure ()
  | parenthesis e | trim e | negate e | not e | cast _ e => parse e
  | operation _ left right | and left right | or left right => do
    parse left
    parse right

/- The operator that pgsTimes::eval and the like apply. -/
def operate : Operation → Constant → Constant → Made Constant
  | .pgsTimes => Constant.pgsTimes ctype
  | .pgsOver => Constant.pgsOver ctype div
  | .pgsModulo => Constant.pgsModulo ctype
  | .pgsPlus => Constant.pgsPlus ctype
  | .pgsMinus => Constant.pgsMinus ctype
  | .pgsLower => Constant.pgsLower ctype
  | .pgsGreater => Constant.pgsGreater ctype
  | .pgsLowerEqual => Constant.pgsLowerEqual ctype
  | .pgsGreaterEqual => Constant.pgsGreaterEqual ctype
  | .pgsEqual => Constant.pgsEqual ctype
  | .pgsAlmostEqual => Constant.pgsAlmostEqual ctype
  | .pgsDifferent => Constant.pgsDifferent ctype

/- pgsCast::eval -/
def castTo : CastType → Constant → Made Constant
  | .integer, c => do
    let n ← c.toNumber ctype
    let num := pgsMapm.pgsMapmRound n.num
    .number <$> PgsNumber.make ctype (pgsMapm.pgsMapmStr num true) false
  | .real, c => do
    let n ← c.toNumber ctype
    .number <$> PgsNumber.make ctype n.data true
  | .record, c => c.toRecord ctype fuel
  | .string, c => pure c.toString

def eval : Expression → Made Constant
  | number token => pure (.number ⟨ctype.strip token.text, token.isReal⟩)
  | string data => pure (.string data)
  | parenthesis e => eval e
  | trim e => do pure (.string (ctype.strip (← eval e).value))
  | negate e => do
    let left ← PgsNumber.make ctype ['0'] false
    Constant.pgsMinus ctype (.number left) (← eval e)
  | not e => do Constant.pgsNot ctype (← eval e)
  | cast type e => do castTo ctype fuel type (← eval e)
  | operation op left right => do
    let l ← eval left
    let r ← eval right
    operate ctype div op l r
  | and left right => do
    let l ← eval left
    if l.pgsIsTrue ctype then do
      let r ← eval right
      Constant.truth ctype (r.pgsIsTrue ctype)
    else Constant.truth ctype false
  | or left right => do
    let l ← eval left
    if l.pgsIsTrue ctype then Constant.truth ctype true
    else do
      let r ← eval right
      Constant.truth ctype (r.pgsIsTrue ctype)

def run (e : Expression) : Made Constant := do
  parse ctype e
  eval ctype div fuel e

/-! Parsing and evaluating make valid numbers. -/

variable {ctype div fuel}
open Constant PgsNumber

theorem tokenValid (token : NumberToken) : isValid token.text token.isReal := by
  obtain ⟨source, length, isReal, scanned⟩ := token
  cases isReal with
  | false => exact validOf (.inl (intToken scanned))
  | true => exact validOf (.inr ⟨realToken scanned, rfl⟩)

theorem parseAsks (e : Expression) : Asks (parse ctype e) := by
  induction e with
  | number token => exact (makeHolds ctype (tokenValid token)).bind fun _ _ => .pure trivial
  | string data => exact .pure trivial
  | parenthesis e ih => exact ih
  | trim e ih => exact ih
  | negate e ih => exact ih
  | not e ih => exact ih
  | cast type e ih => exact ih
  | operation op left right ihl ihr => exact ihl.bind fun _ _ => ihr
  | and left right ihl ihr => exact ihl.bind fun _ _ => ihr
  | or left right ihl ihr => exact ihl.bind fun _ _ => ihr

theorem operateSafe (op : Operation) {l r : Constant} (left : l.Sound) (right : r.Sound) :
    Safe (operate ctype div op l r) := by
  cases op with
  | pgsTimes => exact pgsTimesSafe left right
  | pgsOver => exact pgsOverSafe left right
  | pgsModulo => exact pgsModuloSafe left right
  | pgsPlus => exact pgsPlusSafe left right
  | pgsMinus => exact pgsMinusSafe left right
  | pgsLower =>
    rw [operate, pgsLower]
    exact comparisonSafe lowerRecordsAsks
  | pgsGreater =>
    rw [operate, pgsGreater]
    exact comparisonSafe fun r s => lowerRecordsAsks s r
  | pgsLowerEqual =>
    rw [operate, pgsLowerEqual]
    exact comparisonSafe lowerEqualRecordsAsks
  | pgsGreaterEqual =>
    rw [operate, pgsGreaterEqual]
    exact comparisonSafe fun r s => lowerEqualRecordsAsks s r
  | pgsEqual =>
    rw [operate, pgsEqual]
    exact comparisonSafe equalRecordsAsks
  | pgsAlmostEqual =>
    rw [operate, pgsAlmostEqual]
    exact comparisonSafe equalRecordsAsks
  | pgsDifferent =>
    rw [operate, pgsDifferent]
    exact comparisonSafe fun r s => (equalRecordsAsks r s).bind fun _ _ => .pure trivial

theorem castToSafe (type : CastType) {c : Constant} (sound : c.Sound) : Safe (castTo ctype fuel type c) := by
  cases type with
  | integer =>
    refine (toNumberHolds sound).bind fun n _ => numberSafe (makeValid (validOf (.inl ?_)))
    exact pgsMapm.mapmStrInteger (.inr rfl)
  | real =>
    refine (toNumberHolds sound).bind fun n valid => numberSafe (makeValid (validOf ?_))
    have form := valid
    rw [PgsNumber.valid, isValid, Bool.or_eq_true, Bool.and_eq_true, decide_eq_true_eq, decide_eq_true_eq] at form
    exact form.imp id fun real => ⟨real.1, rfl⟩
  | record => exact toRecordSafe sound
  | string => exact .pure trivial

theorem evalSafe (e : Expression) : Safe (eval ctype div fuel e) := by
  induction e with
  | number token =>
    have valid := tokenValid token
    have kept : ctype.strip token.text = token.text := PgsString.stripWord ctype (validWord valid).2.1
    rw [eval, kept]
    exact .pure valid
  | string data => exact .pure trivial
  | parenthesis e ih => exact ih
  | trim e ih => exact ih.bind fun _ _ => .pure trivial
  | negate e ih =>
    refine (makeValid (validOf (.inl (by decide)))).bind fun zero valid => ?_
    exact ih.bind fun _ sound => @pgsMinusSafe ctype (.number zero) _ valid sound
  | not e ih => exact ih.bind fun c _ => pgsNotSafe c
  | cast type e ih => exact ih.bind fun _ sound => castToSafe type sound
  | operation op left right ihl ihr =>
    exact ihl.bind fun l left => ihr.bind fun r right => operateSafe op left right
  | and left right ihl ihr =>
    refine ihl.bind fun l _ => ?_
    split
    · exact ihr.bind fun r _ => truthSafe _
    · exact truthSafe _
  | or left right ihl ihr =>
    refine ihl.bind fun l _ => ?_
    split
    · exact truthSafe _
    · exact ihr.bind fun r _ => truthSafe _

/-! The types of results. -/

theorem operateInteger {op : Operation} (arithmetic : op ∈ Operation.arithmetic) {l r v : Constant}
    (given : (operate ctype div op l r).result = .ok v) : v.isInteger ↔ l.isInteger ∧ r.isInteger := by
  have refused : ∀ l r : Constant, (throwArithmetic l r).result ≠ .ok v := by
    intro l r same
    cases same
  simp only [Operation.arithmetic, List.mem_cons, List.not_mem_nil, or_false] at arithmetic
  rcases arithmetic with rfl | rfl | rfl | rfl | rfl
  · rw [operate, pgsTimes.eq_def] at given
    split at given
    · exact arithmeticInteger given
    · exact absurd given (refused _ _)
  · rw [operate, pgsOver.eq_def] at given
    split at given
    · split at given
      · split at given
        · exact arithmeticInteger given
        · exact arithmeticInteger given
      · exact absurd given (refused _ _)
    · exact absurd given (refused _ _)
  · rw [operate, pgsModulo.eq_def] at given
    split at given
    · split at given
      · exact arithmeticInteger given
      · exact absurd given (refused _ _)
    · exact absurd given (refused _ _)
  · rw [operate, pgsPlus.eq_def] at given
    split at given
    · exact arithmeticInteger given
    · cases given
      simp [isInteger]
    · exact absurd given (refused _ _)
  · rw [operate, pgsMinus.eq_def] at given
    split at given
    · exact arithmeticInteger given
    · exact absurd given (refused _ _)

theorem castInteger {c v : Constant} (given : (castTo ctype fuel .integer c).result = .ok v) : v.isInteger := by
  have integer : (castTo ctype fuel .integer c).Holds (fun _ => True) fun v => v.isInteger := by
    refine Recorded.Holds.bind (p := fun _ => True) ⟨fun _ _ => trivial, fun _ _ => trivial⟩ fun n _ => ?_
    refine ⟨fun _ _ => trivial, fun w same => ?_⟩
    cases same
    rfl
  exact integer.result v given

/-- Every number made while an expression is parsed and evaluated is valid, as are those in the result. The
scanner's tokens for numbers are of the forms of their types, the result of arithmetic is an integer exactly if
both operands are, and a cast to INTEGER gives an integer. -/
theorem numbersValid (ctype : Ctype) (div : Decimal → Decimal → Decimal) (fuel : ℕ) :
    (∀ e : Expression, (∀ n ∈ (run ctype div fuel e).entries, n.valid) ∧
      ∀ v, (run ctype div fuel e).result = .ok v → v.Sound) ∧
    (∀ s n, (Flex.next initialRules s = some (valInt, n) → numType (s.take n) = .pgsTInt) ∧
      (Flex.next initialRules s = some (valReal, n) → numType (s.take n) = .pgsTReal)) ∧
    (∀ op ∈ Operation.arithmetic, ∀ l r v, (operate ctype div op l r).result = .ok v →
      (v.isInteger ↔ l.isInteger ∧ r.isInteger)) ∧
    ∀ c v, (castTo ctype fuel .integer c).result = .ok v → v.isInteger := by
  refine ⟨fun e => ?_, fun s n => ⟨intToken, realToken⟩, fun op listed l r v => operateInteger listed,
    fun c v => castInteger⟩
  have safe : Safe (run ctype div fuel e) := (parseAsks e).bind fun _ _ => evalSafe e
  exact ⟨safe.entries, safe.result⟩

end Expression
end PgAdmin.PgsObjects
