import PgAdmin.PgsConstants

/-! The operators of pgScript on constants. `div` is the quotient to a number of digits that m_apm_divide
computes. -/
namespace PgAdmin.PgsObjects
open pgsMapm

/- pgsNumber(data, isReal) -/
def PgsNumber.make (ctype : Ctype) (data : Text) (isReal : Bool) : Made PgsNumber := do
  let n : PgsNumber := ⟨ctype.strip data, isReal⟩
  .record n
  pure n

namespace Constant
variable (ctype : Ctype) (div : Decimal → Decimal → Decimal) (fuel : ℕ)

def isInteger : Constant → Bool
  | number n => !n.isReal
  | _ => false

def recordText (r : PgsRecord) : Text := ((r.value fun _ => (pure [] : StateM Unit Text)).run ()).1

def value : Constant → Text
  | number n => n.data
  | string data => data
  | record r _ => recordText r

def throwArithmetic (lhs rhs : Constant) : Made Constant :=
  .stop (.thrown (.pgsArithmeticException lhs.value rhs.value))

/- wxT("1") or wxT("0") -/
def truth (holds : Bool) : Made Constant :=
  number <$> PgsNumber.make ctype (if holds then ['1'] else ['0']) false

/-! number(), string(), record(). -/

def textNumber (data : Text) : Made PgsNumber :=
  match PgsNumber.numType data with
  | .pgsTInt => PgsNumber.make ctype data false
  | .pgsTReal => PgsNumber.make ctype data true
  | .pgsTString => .stop (.thrown (.pgsCastException data ['n', 'u', 'm', 'b', 'e', 'r']))

def toNumber : Constant → Made PgsNumber
  | number n => pure n
  | string data => textNumber ctype (ctype.strip data)
  | record r _ =>
    let data := ctype.strip (recordText r)
    let data := if data.head? = some '(' then data.drop 1 else data
    textNumber ctype (if data.getLast? = some ')' then data.dropLast else data)

def toString (c : Constant) : Constant := string c.value

theorem fixedAll {r : PgsRecord} (plain : r.All Scalar.Plain) : r.Fixed := by
  intro line member cell inside
  have plain := plain line member cell inside
  cases cell with
  | pgsNumber data isReal => trivial
  | pgsString data => trivial
  | pgsGenerator type randomizer => exact plain

theorem readFixed {data : Text} {r : PgsRecord} (read : PgsString.record ctype fuel data = some r) : r.Fixed :=
  fixedAll (PgsString.recordAll trivial (PgsString.cellPlain ctype) trivial read)

theorem oneCellFixed {n : PgsNumber} {out : Bool × PgsRecord}
    (stored : (PgsRecord.create 1).insert fuel 0 0 (.pgsNumber n.data n.isReal) = some out) : out.2.Fixed :=
  PgsRecord.insertAll (p := Scalar.Fixed) (v := .pgsNumber n.data n.isReal) trivial trivial
    (PgsRecord.createAll _ 1) stored

def toRecord : Constant → Made Constant
  | number n =>
    match stored : (PgsRecord.create 1).insert fuel 0 0 (.pgsNumber n.data n.isReal) with
    | some out => pure (record out.2 (oneCellFixed fuel stored))
    | none => .stop .unfinished
  | string data =>
    ⟨PgsString.recordNumbers ctype fuel data,
      match read : PgsString.record ctype fuel data with
      | some r => .ok (record r (readFixed ctype fuel read))
      | none => .error .unfinished⟩
  | record r fixed => pure (record r fixed)

/-! Arithmetic. -/

def arithmetic (op : Decimal → Decimal → Decimal) (m n : PgsNumber) : Made Constant :=
  number <$> PgsNumber.make ctype (pgsMapmStr (op m.num n.num) false) (m.isReal || n.isReal)

def pgsPlus : Constant → Constant → Made Constant
  | number m, number n => arithmetic ctype .add m n
  | string data, string more => pure (string (data ++ more))
  | lhs, rhs => throwArithmetic lhs rhs

def pgsMinus : Constant → Constant → Made Constant
  | number m, number n => arithmetic ctype .sub m n
  | lhs, rhs => throwArithmetic lhs rhs

def pgsTimes : Constant → Constant → Made Constant
  | number m, number n => arithmetic ctype .mul m n
  | lhs, rhs => throwArithmetic lhs rhs

def pgsOver : Constant → Constant → Made Constant
  | number m, number n =>
    if n.num ≠ 0 then
      if m.isReal || n.isReal then arithmetic ctype div m n else arithmetic ctype .quotient m n
    else throwArithmetic (number m) (number n)
  | lhs, rhs => throwArithmetic lhs rhs

def pgsModulo : Constant → Constant → Made Constant
  | number m, number n =>
    if n.num ≠ 0 then arithmetic ctype .remainder m n else throwArithmetic (number m) (number n)
  | lhs, rhs => throwArithmetic lhs rhs

/-! Comparisons. Cells are compared as strings, each time with a number for the answer. -/

def cellsTest (caseSensitive : Bool) : List (Scalar × Scalar) → Made Bool
  | [] => pure true
  | (lhs, rhs) :: cells => do
    let test ← PgsNumber.make ctype
      (if PgsRecord.textsEqual ctype caseSensitive lhs.text rhs.text then ['1'] else ['0']) false
    if test.data = ['1'] then cellsTest caseSensitive cells else pure false

def linesTest (caseSensitive : Bool) (lhs rhs : List Scalar) : Made Bool :=
  if lhs.length ≠ rhs.length then pure false else cellsTest ctype caseSensitive (lhs.zip rhs)

def unseenTest (caseSensitive : Bool) (seen : List ℕ) (line : List Scalar) :
    ℕ → List (List Scalar) → Made (Option ℕ)
  | _, [] => pure none
  | j, other :: rest => do
    if j ∈ seen then unseenTest caseSensitive seen line (j + 1) rest
    else if ← linesTest ctype caseSensitive line other then pure (some j)
    else unseenTest caseSensitive seen line (j + 1) rest

def matchedTest (caseSensitive : Bool) (rhs : List (List Scalar)) (seen : List ℕ) :
    List (List Scalar) → Made Bool
  | [] => pure true
  | line :: lines => do
    match ← unseenTest ctype caseSensitive seen line 0 rhs with
    | some j => matchedTest caseSensitive rhs (seen ++ [j]) lines
    | none => pure false

def recordsTest (caseSensitive : Bool) (lhs rhs : PgsRecord) : Made Bool :=
  if lhs.countColumns ≠ rhs.countColumns then pure false
  else matchedTest ctype caseSensitive rhs.lines [] lhs.lines

def equalRecords (caseSensitive : Bool) (lhs rhs : PgsRecord) : Made Bool :=
  if lhs.countLines ≠ rhs.countLines then pure false else recordsTest ctype caseSensitive lhs rhs

def lowerRecords (lhs rhs : PgsRecord) : Made Bool :=
  if rhs.countLines ≤ lhs.countLines then pure false else recordsTest ctype true lhs rhs

def lowerEqualRecords (lhs rhs : PgsRecord) : Made Bool :=
  if rhs.countLines < lhs.countLines then pure false else recordsTest ctype true lhs rhs

def comparison (numbers : Ordering → Bool) (strings : Text → Text → Bool)
    (records : PgsRecord → PgsRecord → Made Bool) : Constant → Constant → Made Constant
  | number m, number n => truth ctype (numbers (m.num.compare n.num))
  | string data, string other => truth ctype (strings data other)
  | record r _, record s _ => do truth ctype (← records r s)
  | lhs, rhs => throwArithmetic lhs rhs

def pgsEqual : Constant → Constant → Made Constant :=
  comparison ctype (· = .eq) (fun data other => data = other) (equalRecords ctype true)

def pgsDifferent : Constant → Constant → Made Constant :=
  comparison ctype (· ≠ .eq) (fun data other => data ≠ other) fun r s => do
    pure !(← equalRecords ctype true r s)

def pgsGreater : Constant → Constant → Made Constant :=
  comparison ctype (· = .gt) (fun data other => other < data) fun r s => lowerRecords ctype s r

def pgsLower : Constant → Constant → Made Constant :=
  comparison ctype (· = .lt) (fun data other => data < other) (lowerRecords ctype)

def pgsLowerEqual : Constant → Constant → Made Constant :=
  comparison ctype (· ≠ .gt) (fun data other => data ≤ other) (lowerEqualRecords ctype)

def pgsGreaterEqual : Constant → Constant → Made Constant :=
  comparison ctype (· ≠ .lt) (fun data other => other ≤ data) fun r s => lowerEqualRecords ctype s r

def pgsAlmostEqual : Constant → Constant → Made Constant :=
  comparison ctype (· = .eq) (PgsRecord.textsEqual ctype false) (equalRecords ctype false)

/-! Truth values. -/

/- newline() of a record with no line. -/
def firstLine (r : PgsRecord) : PgsRecord where
  columns := r.columns
  lines := [PgsRecord.blankLine r.columns.length]
  square := by
    intro line member
    rw [List.mem_singleton.mp member, PgsRecord.blankLine, List.length_replicate]
  columnsFit := r.columnsFit
  linesFit := by simp

theorem firstLineFixed (r : PgsRecord) : (firstLine r).Fixed := by
  intro line member cell inside
  rw [List.mem_singleton.mp member] at inside
  rw [List.eq_of_mem_replicate inside]
  trivial

def pgsIsTrue : Constant → Bool
  | number n => n.num ≠ 0
  | string data => ctype.strip data ≠ []
  | record r _ => 0 < r.countLines

def pgsNot : Constant → Made Constant
  | number n => truth ctype (n.num = 0)
  | string data => pure (string (if ctype.strip data = [] then ['1'] else []))
  | record r fixed =>
    if pgsIsTrue ctype (record r fixed) then
      pure (record (.create r.countColumns) (PgsRecord.createAll Scalar.Fixed _))
    else pure (record (firstLine r) (firstLineFixed r))

/-! The numbers that the operators make are valid. -/

/- The numbers a constant holds are valid. -/
def Sound : Constant → Prop
  | number n => n.valid
  | string _ => True
  | record r _ => r.All Scalar.Plain

def Safe (m : Made Constant) : Prop := m.Holds (fun n => n.valid) Sound

end Constant

namespace PgsNumber

theorem makeHolds (ctype : Ctype) {data : Text} {isReal : Bool} (valid : isValid data isReal) :
    (make ctype data isReal).Holds (fun n => n.valid) (fun n => n = ⟨data, isReal⟩) := by
  have kept : ctype.strip data = data := PgsString.stripWord ctype (validWord valid).2.1
  have recorded : (Recorded.record ⟨data, isReal⟩ : Made Unit).Holds (fun n => n.valid) fun _ => True :=
    .record valid
  rw [make, kept]
  exact recorded.bind fun _ _ => .pure rfl

theorem validInteger {n : PgsNumber} (valid : n.valid) (integer : n.isReal = false) :
    numType n.data = .pgsTInt := by
  rw [PgsNumber.valid, isValid, integer, Bool.and_false, Bool.or_false] at valid
  exact of_decide_eq_true valid

theorem validOf {data : Text} {isReal : Bool}
    (form : numType data = .pgsTInt ∨ numType data = .pgsTReal ∧ isReal = true) : isValid data isReal := by
  rcases form with integer | ⟨real, flag⟩
  · rw [isValid, integer]
    rfl
  · rw [isValid, real, flag]
    rfl

end PgsNumber

namespace Constant
open PgsNumber
variable {ctype : Ctype} {div : Decimal → Decimal → Decimal} {fuel : ℕ} {c lhs rhs : Constant}

theorem numberSafe {m : Made PgsNumber} (holds : m.Holds (fun n => n.valid) (fun n => n.valid)) :
    Safe (number <$> m) := holds.bind fun _ valid => .pure valid

theorem makeValid {data : Text} {isReal : Bool} (valid : isValid data isReal) :
    (make ctype data isReal).Holds (fun n => n.valid) (fun n => n.valid) :=
  (makeHolds ctype valid).weaken fun _ same => same ▸ valid

theorem truthSafe (holds : Bool) : Safe (truth ctype holds) := by
  refine numberSafe (makeValid (validOf (.inl ?_)))
  cases holds <;> decide

theorem textNumberHolds (data : Text) :
    (textNumber ctype data).Holds (fun n => n.valid) (fun n => n.valid) := by
  rw [textNumber]
  split
  case h_1 integer => exact makeValid (validOf (.inl integer))
  case h_2 real => exact makeValid (validOf (.inr ⟨real, rfl⟩))
  case h_3 => exact .stop _

theorem toNumberHolds (sound : c.Sound) :
    (c.toNumber ctype).Holds (fun n => n.valid) (fun n => n.valid) := by
  cases c with
  | number n => exact .pure sound
  | string data => exact textNumberHolds _
  | record r fixed => exact textNumberHolds _

theorem toRecordSafe (sound : c.Sound) : Safe (c.toRecord ctype fuel) := by
  cases c with
  | number n =>
    rw [toRecord]
    split
    case h_1 stored =>
      exact .pure (PgsRecord.insertAll (p := Scalar.Plain) (v := .pgsNumber n.data n.isReal) trivial sound
        (PgsRecord.createAll _ 1) stored)
    case h_2 => exact .stop _
  | string data =>
    refine ⟨fun n member => PgsString.recordNumbersValid member, fun v same => ?_⟩
    rw [toRecord] at same
    dsimp only at same
    split at same
    case h_1 read =>
      cases same
      exact PgsString.recordAll trivial (PgsString.cellPlain ctype) trivial read
    case h_2 => cases same
  | record r fixed => exact .pure sound

theorem arithmeticSafe {op : Decimal → Decimal → Decimal} {m n : PgsNumber} (left : m.valid) (right : n.valid)
    (whole : m.isReal = false → n.isReal = false → m.num.isInteger → n.num.isInteger →
      (op m.num n.num).isInteger) : Safe (arithmetic ctype op m n) := by
  refine numberSafe (makeValid (validOf ?_))
  by_cases integers : m.isReal = false ∧ n.isReal = false
  · refine .inl (mapmStrInteger (.inl ?_))
    exact whole integers.1 integers.2 (setStringInteger (validInteger left integers.1))
      (setStringInteger (validInteger right integers.2))
  · have real : (m.isReal || n.isReal) = true := by
      cases one : m.isReal <;> cases other : n.isReal <;> simp_all
    exact (mapmStrNumber _ _).imp id fun form => ⟨form, real⟩

theorem throwSafe (lhs rhs : Constant) : Safe (throwArithmetic lhs rhs) := .stop _

theorem pgsPlusSafe (left : lhs.Sound) (right : rhs.Sound) : Safe (pgsPlus ctype lhs rhs) := by
  rw [pgsPlus.eq_def]
  split
  case h_1 => exact arithmeticSafe left right fun _ _ => Decimal.addInteger
  case h_2 => exact .pure trivial
  case h_3 => exact throwSafe _ _

theorem pgsMinusSafe (left : lhs.Sound) (right : rhs.Sound) : Safe (pgsMinus ctype lhs rhs) := by
  rw [pgsMinus.eq_def]
  split
  case h_1 => exact arithmeticSafe left right fun _ _ => Decimal.subInteger
  case h_2 => exact throwSafe _ _

theorem pgsTimesSafe (left : lhs.Sound) (right : rhs.Sound) : Safe (pgsTimes ctype lhs rhs) := by
  rw [pgsTimes.eq_def]
  split
  case h_1 => exact arithmeticSafe left right fun _ _ => Decimal.mulInteger
  case h_2 => exact throwSafe _ _

theorem pgsOverSafe (left : lhs.Sound) (right : rhs.Sound) : Safe (pgsOver ctype div lhs rhs) := by
  rw [pgsOver.eq_def]
  split
  case h_1 m n =>
    split
    · split
      case isTrue real =>
        refine arithmeticSafe left right fun one other => ?_
        rw [one, other] at real
        cases real
      case isFalse => exact arithmeticSafe left right fun _ _ _ _ => Decimal.quotientInteger _ _
    · exact throwSafe _ _
  case h_2 => exact throwSafe _ _

theorem pgsModuloSafe (left : lhs.Sound) (right : rhs.Sound) : Safe (pgsModulo ctype lhs rhs) := by
  rw [pgsModulo.eq_def]
  split
  case h_1 =>
    split
    · exact arithmeticSafe left right fun _ _ => Decimal.remainderInteger
    · exact throwSafe _ _
  case h_2 => exact throwSafe _ _

def Asks {A : Type} (m : Made A) : Prop := m.Holds (fun n => n.valid) fun _ => True

section Comparison
variable {caseSensitive : Bool}

theorem cellsTestAsks (cells : List (Scalar × Scalar)) : Asks (cellsTest ctype caseSensitive cells) := by
  induction cells with
  | nil => exact .pure trivial
  | cons pair cells ih =>
    obtain ⟨l, r⟩ := pair
    have digit : isValid (if PgsRecord.textsEqual ctype caseSensitive l.text r.text then ['1'] else ['0']) false :=
      validOf (.inl (by split <;> decide))
    refine (makeHolds ctype digit).bind fun test _ => ?_
    split
    · exact ih
    · exact .pure trivial

theorem linesTestAsks (line other : List Scalar) : Asks (linesTest ctype caseSensitive line other) := by
  rw [linesTest]
  split
  · exact .pure trivial
  · exact cellsTestAsks _

theorem unseenTestAsks (seen : List ℕ) (line : List Scalar) (j : ℕ) (rest : List (List Scalar)) :
    Asks (unseenTest ctype caseSensitive seen line j rest) := by
  induction rest generalizing j with
  | nil => exact .pure trivial
  | cons other rest ih =>
    rw [unseenTest]
    split
    · exact ih _
    · refine (linesTestAsks line other).bind fun same _ => ?_
      split
      · exact .pure trivial
      · exact ih _

theorem matchedTestAsks (rhs : List (List Scalar)) (seen : List ℕ) (lines : List (List Scalar)) :
    Asks (matchedTest ctype caseSensitive rhs seen lines) := by
  induction lines generalizing seen with
  | nil => exact .pure trivial
  | cons line lines ih =>
    refine (unseenTestAsks seen line 0 rhs).bind fun found _ => ?_
    split
    · exact ih _
    · exact .pure trivial

theorem recordsTestAsks (r s : PgsRecord) : Asks (recordsTest ctype caseSensitive r s) := by
  rw [recordsTest]
  split
  · exact .pure trivial
  · exact matchedTestAsks _ _ _

theorem equalRecordsAsks (r s : PgsRecord) : Asks (equalRecords ctype caseSensitive r s) := by
  rw [equalRecords]
  split
  · exact .pure trivial
  · exact recordsTestAsks r s

theorem lowerRecordsAsks (r s : PgsRecord) : Asks (lowerRecords ctype r s) := by
  rw [lowerRecords]
  split
  · exact .pure trivial
  · exact recordsTestAsks r s

theorem lowerEqualRecordsAsks (r s : PgsRecord) : Asks (lowerEqualRecords ctype r s) := by
  rw [lowerEqualRecords]
  split
  · exact .pure trivial
  · exact recordsTestAsks r s

theorem comparisonSafe {numbers : Ordering → Bool} {strings : Text → Text → Bool}
    {records : PgsRecord → PgsRecord → Made Bool} (asks : ∀ r s, Asks (records r s)) :
    Safe (comparison ctype numbers strings records lhs rhs) := by
  rw [comparison.eq_def]
  split
  · exact truthSafe _
  · exact truthSafe _
  · exact (asks _ _).bind fun holds _ => truthSafe holds
  · exact throwSafe _ _

end Comparison

theorem pgsNotSafe (c : Constant) : Safe (pgsNot ctype c) := by
  cases c with
  | number n => exact truthSafe _
  | string data => exact .pure trivial
  | record r fixed =>
    rw [pgsNot]
    split
    · exact .pure (PgsRecord.createAll _ _)
    · refine .pure fun line member cell inside => ?_
      rw [List.mem_singleton.mp member] at inside
      rw [List.eq_of_mem_replicate inside]
      trivial

/-! The type of the result of an arithmetic operator. -/

theorem arithmeticInteger {op : Decimal → Decimal → Decimal} {m n : PgsNumber} {v : Constant}
    (given : (arithmetic ctype op m n).result = .ok v) :
    v.isInteger ↔ (number m).isInteger ∧ (number n).isInteger := by
  cases given
  simp [isInteger]

end Constant
end PgAdmin.PgsObjects
