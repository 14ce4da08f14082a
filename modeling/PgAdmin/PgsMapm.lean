import PgAdmin.Decimal
import PgAdmin.PgsNumberForms

/-! pgsMapm: between texts and MAPM numbers. An M_APM with the sign s, the digits d and the exponent e is
s * 0.d * 10^e; neither its first nor its last digit is zero. -/
namespace PgAdmin.PgsObjects.pgsMapm
open PgsNumber

/- m_apm_data, as many digits as m_apm_datalength says. -/
def digits (m : Decimal) : Text := Nat.toDigits 10 m.mantissa.natAbs

/- m_apm_exponent of a number other than zero. -/
def mapmExponent (m : Decimal) : ℤ := (digits m).length + m.power

/- m_apm_is_integer -/
def isInteger (m : Decimal) : Bool := m.mantissa = 0 || (digits m).length ≤ mapmExponent m

def minus (negative : Bool) : Text := if negative then ['-'] else []

def readSign : Text → ℤ × Text
  | '+' :: p => (1, p)
  | '-' :: p => (-1, p)
  | p => (1, p)

/- What m_apm_set_string reads behind the sign. atoi is given the digits of an exponent and nothing else; of a
text with a letter that is no digit the number is zero. -/
def readMagnitude (sign : ℤ) (p : Text) : Decimal :=
  let p := p.map Char.toLower
  let exponent := (textInt ((p.dropWhile (· ≠ 'e')).drop 1)).getD 0
  let p := p.takeWhile (· ≠ 'e')
  let fraction := (p.dropWhile (· ≠ '.')).drop 1
  match digitsValue (p.takeWhile (· ≠ '.') ++ fraction) with
  | some n => .scaled (sign * n) (exponent - fraction.length)
  | none => 0

def setString (s : Text) : Decimal :=
  let (sign, p) := readSign (s.dropWhile fun c => c = ' ' || c = '\t')
  readMagnitude sign p

/- m_apm_to_fixpt_string with all the places, of the absolute value. -/
def fixptString (m : Decimal) : Text :=
  if m.mantissa = 0 then ['0', '.', '0']
  else
    let xp := mapmExponent m
    let places := max 1 ((digits m).length - xp)
    if 0 < xp then
      let cpw := digits m ++ List.replicate (xp + places).toNat '0'
      cpw.take xp.toNat ++ '.' :: (cpw.drop xp.toNat).take places.toNat
    else ['0', '.'] ++ List.replicate (-xp).toNat '0' ++ digits m

/- m_apm_to_fixpt_stringexp(-1, m, '.', ' ', INT_MAX): no number has so many digits that one is separated. -/
def pgsMapmStrFixed (m : Decimal) : Text :=
  let cps := fixptString m
  minus (decide (m.mantissa < 0) && cps.any fun c => c.isDigit && c ≠ '0') ++ cps

def exponentText (i : ℤ) : Text := 'E' :: (if 0 ≤ i then '+' else '-') :: Nat.toDigits 10 i.natAbs

/- m_apm_to_string with all the places. -/
def pgsMapmStrFloat (m : Decimal) : Text :=
  if m.mantissa = 0 then ['0', '.', '0', 'E', '+', '0']
  else
    minus (m.mantissa < 0) ++ (digits m).take 1 ++
      (if (digits m).length = 1 then [] else '.' :: (digits m).drop 1) ++ exponentText (mapmExponent m - 1)

/- str.substr(0, str.find_last_of('.')) -/
def beforeLastPoint (str : Text) : Text :=
  if '.' ∈ str then ((str.reverse.dropWhile (· ≠ '.')).drop 1).reverse else str

def pgsMapmStr (m : Decimal) (asInt : Bool) : Text :=
  if isInteger m || asInt then beforeLastPoint (pgsMapmStrFixed m) else pgsMapmStrFloat m

def pgsStrMapm (s : Text) : Decimal := setString s

def pgsMapmRound (m : Decimal) : Decimal := setString (pgsMapmStr m true)

example : pgsMapmStr (setString ['-', '.', '5', '0', 'e', '3']) false = ['-', '5', '0', '0'] := by decide
example : pgsMapmStr (setString ['1', '.', '2', '5']) false = ['1', '.', '2', '5', 'E', '+', '0'] := by decide
example : pgsMapmStr (setString ['-', '0', '.', '7']) true = ['-', '0'] := by decide

/-! The forms of the texts. -/

theorem digitsSome (m : Decimal) : digits m ≠ [] := Nat.toDigits_ne_nil

theorem digitsAll {n : ℕ} {c : Char} (member : c ∈ Nat.toDigits 10 n) : c.isDigit :=
  Nat.isDigit_of_mem_toDigits (by decide) le_rfl member

theorem digitNotPoint {c : Char} (digit : c.isDigit) : c ≠ '.' := by
  rintro rfl
  exact absurd digit (by decide)

theorem isIntegerIff (m : Decimal) : isInteger m = m.isInteger := by
  have normal := m.normal
  rw [isInteger, mapmExponent, Decimal.isInteger]
  by_cases zero : m.mantissa = 0
  · rw [if_pos zero] at normal
    simp [zero, normal]
  · simp [zero]

theorem fixptParts (m : Decimal) : ∃ whole fraction, whole ≠ [] ∧ (∀ c ∈ whole, c.isDigit) ∧
    (∀ c ∈ fraction, c.isDigit) ∧ fixptString m = whole ++ '.' :: fraction := by
  have zeros : ∀ n, ∀ c ∈ List.replicate n '0', c.isDigit = true := by
    intro n c member
    rw [List.eq_of_mem_replicate member]
    rfl
  rw [fixptString]
  split
  · exact ⟨['0'], ['0'], List.cons_ne_nil _ _, zeros 1, zeros 1, rfl⟩
  · dsimp only
    split
    case isTrue positive =>
      have all : ∀ n, ∀ c ∈ digits m ++ List.replicate n '0', c.isDigit = true := by
        intro n c member
        rcases List.mem_append.mp member with own | added
        · exact digitsAll own
        · exact zeros n c added
      refine ⟨_, _, ?_, fun c member => all _ c (List.mem_of_mem_take member),
        fun c member => all _ c (List.mem_of_mem_drop (List.mem_of_mem_take member)), rfl⟩
      rw [Ne, List.take_eq_nil_iff]
      rintro (none | none)
      · omega
      · exact digitsSome m (List.append_eq_nil_iff.mp none).1
    case isFalse =>
      refine ⟨['0'], List.replicate _ '0' ++ digits m, List.cons_ne_nil _ _, zeros 1, fun c member => ?_, rfl⟩
      rcases List.mem_append.mp member with added | own
      · exact zeros _ c added
      · exact digitsAll own

theorem beforePoint {whole fraction : Text} (digits : ∀ c ∈ fraction, c.isDigit) :
    beforeLastPoint (whole ++ '.' :: fraction) = whole := by
  have skipped : ((whole ++ '.' :: fraction).reverse.dropWhile (· ≠ '.')) = '.' :: whole.reverse := by
    rw [List.reverse_append, List.reverse_cons, List.append_assoc, List.dropWhile_append_of_pos]
    · simp
    · intro c member
      exact decide_eq_true (digitNotPoint (digits c (List.mem_reverse.mp member)))
  rw [beforeLastPoint, if_pos (by simp), skipped]
  simp

theorem minusSigned (negative : Bool) :
    minus negative = [] ∨ minus negative = ['+'] ∨ minus negative = ['-'] := by
  cases negative
  · exact .inl rfl
  · exact .inr (.inr rfl)

theorem fixedInteger (m : Decimal) : numType (beforeLastPoint (pgsMapmStrFixed m)) = .pgsTInt := by
  obtain ⟨whole, fraction, some, all, digits, same⟩ := fixptParts m
  rw [pgsMapmStrFixed, same, ← List.append_assoc, beforePoint digits]
  exact integerOf (minusSigned _) some all

theorem exponentMember (i : ℤ) : exponentText i ∈ exponent.language := by
  refine Language.mem_mul.mpr ⟨['E'], ⟨'E', rfl, rfl⟩, _, ?_, rfl⟩
  refine Language.mem_mul.mpr ⟨[if 0 ≤ i then '+' else '-'], (signIff _).mpr ?_, Nat.toDigits 10 i.natAbs, ?_, rfl⟩
  · split
    · exact .inr (.inl rfl)
    · exact .inr (.inr rfl)
  · exact (Regular.testPlus _ _).mpr ⟨Nat.toDigits_ne_nil, fun c member => digitsAll member⟩

theorem floatReal (m : Decimal) : numType (pgsMapmStrFloat m) = .pgsTReal := by
  rw [pgsMapmStrFloat]
  split
  · decide
  case isFalse =>
    have power := exponentMember (mapmExponent m - 1)
    generalize exponentText (mapmExponent m - 1) = tail at power ⊢
    obtain ⟨d, rest, first⟩ := List.exists_cons_of_ne_nil (digitsSome m)
    have all : ∀ c ∈ d :: rest, c.isDigit = true := fun c member => digitsAll (first ▸ member)
    have signed := (signIff _).mpr (minusSigned (decide (m.mantissa < 0)))
    have one : [d] ∈ (Regular.plus digit).language :=
      (Regular.testPlus _ _).mpr ⟨List.cons_ne_nil d [], fun c member => all c (by simp_all)⟩
    rw [first]
    cases rest with
    | nil =>
      refine realOf (.inl (Language.mem_mul.mpr ⟨_, signed, [d] ++ tail, ?_, by simp⟩))
      exact Language.append_mem_mul one power
    | cons e rest =>
      refine realOf (.inr (.inr (Language.mem_mul.mpr
        ⟨_, signed, [d] ++ (['.'] ++ ((e :: rest) ++ tail)), ?_, by simp⟩)))
      refine Language.append_mem_mul one (Language.append_mem_mul ⟨'.', rfl, rfl⟩ ?_)
      exact Language.append_mem_mul
        ((Regular.testStar _ _).mpr fun c member => all c (List.mem_cons_of_mem d member)) (.inl power)

theorem mapmStrInteger {m : Decimal} {asInt : Bool} (whole : m.isInteger ∨ asInt) :
    numType (pgsMapmStr m asInt) = .pgsTInt := by
  rw [pgsMapmStr, isIntegerIff, if_pos (by simpa using whole)]
  exact fixedInteger m

theorem mapmStrNumber (m : Decimal) (asInt : Bool) :
    numType (pgsMapmStr m asInt) = .pgsTInt ∨ numType (pgsMapmStr m asInt) = .pgsTReal := by
  rw [pgsMapmStr]
  split
  · exact .inl (fixedInteger m)
  · exact .inr (floatReal m)

/-! A text of the integer form is read as an integer. -/

theorem digitNot {c d : Char} (digit : c.isDigit) (other : d.isDigit = false) : c ≠ d := by
  rintro rfl
  rw [digit] at other
  cases other

theorem digitLower {c : Char} (digit : c.isDigit) : c.toLower = c := by
  apply Char.toLower_eq_of_not_isUpper
  simp only [Char.isDigit, Char.isUpper, Bool.and_eq_true, decide_eq_true_eq, ge_iff_le,
    UInt32.le_iff_toNat_le] at digit ⊢
  rintro ⟨above, _⟩
  exact absurd (above.trans digit.2) (by decide)

theorem skipNone {p : Char → Bool} {s : Text} (keep : ∀ c ∈ s, p c = true) :
    s.takeWhile p = s ∧ s.dropWhile p = [] :=
  ⟨List.takeWhile_eq_self_iff.mpr keep, List.dropWhile_eq_nil_iff.mpr keep⟩

theorem magnitudeInteger (sign : ℤ) {digits : Text} (all : ∀ c ∈ digits, c.isDigit) :
    (readMagnitude sign digits).isInteger := by
  have lower : digits.map Char.toLower = digits := by
    rw [List.map_congr_left fun c member => digitLower (all c member), List.map_id']
  have noExponent := @skipNone (· ≠ 'e') digits fun c member => decide_eq_true (digitNot (all c member) rfl)
  have noPoint := @skipNone (· ≠ '.') digits fun c member => decide_eq_true (digitNot (all c member) rfl)
  simp only [readMagnitude, lower, noExponent.1, noExponent.2, noPoint.1, noPoint.2]
  split
  · exact Decimal.scaledInteger _ (by decide)
  · rfl

theorem setStringInteger {s : Text} (integer : numType s = .pgsTInt) : (setString s).isInteger := by
  obtain ⟨front, digits, signed, some, all, rfl⟩ := integerParts integer
  obtain ⟨d, rest, rfl⟩ := List.exists_cons_of_ne_nil some
  have first := all d List.mem_cons_self
  rcases signed with rfl | rfl | rfl
  · have blank : (d :: rest).dropWhile (fun c => c = ' ' || c = '\t') = d :: rest := by
      rw [List.dropWhile_cons_of_neg]
      simp [digitNot first (show ' '.isDigit = false from rfl), digitNot first (show '\t'.isDigit = false from rfl)]
    have noSign : readSign (d :: rest) = (1, d :: rest) := by
      unfold readSign
      split
      case h_1 same =>
        cases same
        exact absurd first (by decide)
      case h_2 same =>
        cases same
        exact absurd first (by decide)
      case h_3 => rfl
    rw [List.nil_append, setString, blank, noSign]
    exact magnitudeInteger 1 all
  · exact magnitudeInteger 1 all
  · exact magnitudeInteger (-1) all

end PgAdmin.PgsObjects.pgsMapm
