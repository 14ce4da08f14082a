import Mathlib.Algebra.Order.Ring.Int

/-! Decimal numbers of any size: a mantissa and a power of ten. Only the mantissa of zero ends in a zero, so
that a number has one form. Sums, products and comparisons are exact. -/
namespace PgAdmin

structure Decimal where
  mantissa : ℤ
  power : ℤ
  normal : if mantissa = 0 then power = 0 else mantissa % 10 ≠ 0
  deriving DecidableEq

namespace Decimal

def shorten : ℕ → ℤ → ℤ → ℤ × ℤ
  | 0, m, p => (m, p)
  | n + 1, m, p => if m % 10 = 0 then shorten n (m / 10) (p + 1) else (m, p)

theorem shortenEnds {n : ℕ} {m : ℤ} (p : ℤ) (some : m ≠ 0) (enough : m.natAbs ≤ n) :
    (shorten n m p).1 ≠ 0 ∧ (shorten n m p).1 % 10 ≠ 0 := by
  induction n generalizing m p with
  | zero => omega
  | succ n ih =>
    rw [shorten]
    split
    case isTrue zero => exact ih (p + 1) (by omega) (by omega)
    case isFalse digit => exact ⟨some, digit⟩

theorem shortenPower (n : ℕ) (m p : ℤ) : p ≤ (shorten n m p).2 := by
  induction n generalizing m p with
  | zero => exact le_rfl
  | succ n ih =>
    rw [shorten]
    split
    · exact (Int.le_add_one le_rfl).trans (ih _ _)
    · exact le_rfl

def scaled (m p : ℤ) : Decimal :=
  if zero : m = 0 then ⟨0, 0, rfl⟩
  else
    { mantissa := (shorten m.natAbs m p).1
      power := (shorten m.natAbs m p).2
      normal := by
        obtain ⟨some, digit⟩ := shortenEnds p zero le_rfl
        rwa [if_neg some] }

def isInteger (a : Decimal) : Bool := 0 ≤ a.power

def mantissaAt (a : Decimal) (p : ℤ) : ℤ := a.mantissa * 10 ^ (a.power - p).toNat

def commonPower (a b : Decimal) : ℤ := min a.power b.power

instance : Zero Decimal := ⟨⟨0, 0, rfl⟩⟩

def add (a b : Decimal) : Decimal :=
  scaled (a.mantissaAt (commonPower a b) + b.mantissaAt (commonPower a b)) (commonPower a b)

def sub (a b : Decimal) : Decimal :=
  scaled (a.mantissaAt (commonPower a b) - b.mantissaAt (commonPower a b)) (commonPower a b)

def mul (a b : Decimal) : Decimal := scaled (a.mantissa * b.mantissa) (a.power + b.power)

def quotient (a b : Decimal) : Decimal :=
  scaled ((a.mantissaAt (commonPower a b)).tdiv (b.mantissaAt (commonPower a b))) 0

def remainder (a b : Decimal) : Decimal := a.sub ((a.quotient b).mul b)

def compare (a b : Decimal) : Ordering :=
  cmp (a.mantissaAt (commonPower a b)) (b.mantissaAt (commonPower a b))

/-! Integers. -/

theorem scaledInteger (m : ℤ) {p : ℤ} (whole : 0 ≤ p) : (scaled m p).isInteger := by
  rw [scaled]
  split
  · rfl
  · exact decide_eq_true (whole.trans (shortenPower _ m p))

section Integer
variable {a b : Decimal}

theorem addInteger (left : a.isInteger) (right : b.isInteger) : (a.add b).isInteger :=
  scaledInteger _ (le_min (of_decide_eq_true left) (of_decide_eq_true right))

theorem subInteger (left : a.isInteger) (right : b.isInteger) : (a.sub b).isInteger :=
  scaledInteger _ (le_min (of_decide_eq_true left) (of_decide_eq_true right))

theorem mulInteger (left : a.isInteger) (right : b.isInteger) : (a.mul b).isInteger :=
  scaledInteger _ (Int.add_nonneg (of_decide_eq_true left) (of_decide_eq_true right))

theorem quotientInteger (a b : Decimal) : (a.quotient b).isInteger := scaledInteger _ le_rfl

theorem remainderInteger (left : a.isInteger) (right : b.isInteger) : (a.remainder b).isInteger :=
  subInteger left (mulInteger (quotientInteger a b) right)

end Integer
end Decimal
end PgAdmin
