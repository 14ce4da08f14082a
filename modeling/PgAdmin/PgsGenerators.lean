import PgAdmin.Congruential

/-! pgsIntegerGen and pgsRealGen with their two randomizers. MAPM numbers are exact; `%` and
`div` truncate toward zero (m_apm_integer_div_rem), and dividing by a power of ten only moves
the decimal point. The rejection loop of the sequential randomizer carries a bound on its turns. -/
namespace PgAdmin.PgsGenerators
open Congruential

def bufferSize : ℕ := 1000

/- pgsRandInt, on a 64-bit long. -/
def randInt (state : ℤ) : ℤ := (Int.bmod (1103515245 * state + 12345) (2 ^ 64)).tmod 2147483647

/- `rand() % (count - i)`: the long is converted to size_t first. -/
def shuffleOffset (state : ℤ) (left : ℕ) : ℕ := (state % 2 ^ 64).toNat % left

def shuffleFrom : ℕ → ℕ → ℤ → Array ℤ → Array ℤ
  | 0, _, _, buffer => buffer
  | todo + 1, i, state, buffer =>
    let next := randInt state
    shuffleFrom todo (i + 1) next
      (buffer.swapIfInBounds i (i + shuffleOffset next (buffer.size - i)))

def shuffle (buffer : Array ℤ) : Array ℤ := shuffleFrom buffer.size 0 bufferSize buffer

structure PgsSequentialIntGen where
  range : ℤ
  state : ℤ
  m : ℤ
  remainder : ℤ
  buffer : Array ℤ
  deriving DecidableEq, Repr

structure PgsNormalIntGen where
  range : ℤ
  state : ℤ
  top : ℤ
  deriving DecidableEq, Repr

namespace PgsSequentialIntGen

def argA : ℤ := 5
def argC : ℤ := 1

/- `while (m_m < m_range) m_m = m_m * 2`, at most `range` turns. -/
def doubleUpTo (range : ℤ) : ℕ → ℤ → ℤ
  | 0, m => m
  | turns + 1, m => if m < range then doubleUpTo range turns (m * 2) else m

def modulus (range : ℤ) : ℤ := doubleUpTo range range.toNat 2

def create (range seed : ℤ) : PgsSequentialIntGen := ⟨range, seed, modulus range, range, #[]⟩

def next (g : PgsSequentialIntGen) (state : ℤ) : ℤ := (state * argA + argC).tmod g.m
def accepted (g : PgsSequentialIntGen) (state : ℤ) : Bool := decide (¬ g.range ≤ state)

def refill (fuel : ℕ) (g : PgsSequentialIntGen) : Option PgsSequentialIntGen := do
  let count := (min g.remainder bufferSize).toNat
  let made ← picks g.next g.accepted fuel count g.state
  some {g with state := made.2, remainder := g.remainder - count, buffer := shuffle made.1.toArray}

def restart (g : PgsSequentialIntGen) : PgsSequentialIntGen :=
  if g.remainder = 0 then {g with remainder := g.range} else g

def random (fuel : ℕ) (g : PgsSequentialIntGen) : Option (ℤ × PgsSequentialIntGen) := do
  let g ← if g.buffer.size = 0 then refill fuel g else some g
  let g := restart g
  let data ← g.buffer.back?
  some (data, {g with buffer := g.buffer.pop})

end PgsSequentialIntGen

namespace PgsNormalIntGen

def argA : ℤ := 16807
def argC : ℤ := 0
def argM : ℤ := 2147483647

def next (state : ℤ) : ℤ := (state * argA + argC).tmod argM
def value (g : PgsNormalIntGen) : ℤ := (g.state * g.range).tdiv g.top

def random (g : PgsNormalIntGen) : ℤ × PgsNormalIntGen :=
  let g := {g with state := next g.state}
  (g.value, g)

def create (range seed : ℤ) : PgsNormalIntGen :=
  (fun g : PgsNormalIntGen => g.random.2)^[10] ⟨range, seed, argM - 1⟩

end PgsNormalIntGen

inductive PgsNumberGen where
  | sequential (g : PgsSequentialIntGen)
  | normal (g : PgsNormalIntGen)
  deriving DecidableEq, Repr

namespace PgsNumberGen

def create (sequence : Bool) (range seed : ℤ) : PgsNumberGen :=
  if sequence then .sequential (.create range seed) else .normal (.create range seed)

def random (fuel : ℕ) : PgsNumberGen → Option (ℤ × PgsNumberGen)
  | .sequential g => (g.random fuel).map fun out => (out.1, .sequential out.2)
  | .normal g => some (g.random.1, .normal g.random.2)

end PgsNumberGen

/- pgsObjectGen replaces the seed 0. -/
def objectSeed (seed : ℤ) : ℤ := if seed = 0 then 1 else seed

structure PgsIntegerGen where
  min : ℤ
  max : ℤ
  range : ℤ
  sequence : Bool
  randomizer : PgsNumberGen
  deriving DecidableEq, Repr

namespace PgsIntegerGen

def create (min max : ℤ) (sequence : Bool) (seed : ℤ) : PgsIntegerGen :=
  let lo := Min.min min max
  let hi := Max.max min max
  ⟨lo, hi, hi - lo + 1, sequence, .create sequence (hi - lo + 1) (objectSeed seed)⟩

def random (fuel : ℕ) (g : PgsIntegerGen) : Option (ℤ × PgsIntegerGen) :=
  (g.randomizer.random fuel).map fun out => (out.1 + g.min, {g with randomizer := out.2})

end PgsIntegerGen

/- pgs_mapm_round prints the number in full and cuts it at the point. -/
def mapmRound (m : ℚ) : ℤ := m.num.tdiv m.den

structure PgsRealGen where
  min : ℚ
  max : ℚ
  range : ℚ
  sequence : Bool
  pow : ℚ
  intMax : ℤ
  randomizer : PgsNumberGen
  deriving DecidableEq, Repr

namespace PgsRealGen

def create (min max : ℚ) (precision : UInt8) (sequence : Bool) (seed : ℤ) : PgsRealGen :=
  let lo := Min.min min max
  let hi := Max.max min max
  let pow : ℚ := 10 ^ precision.toNat
  let intMax := mapmRound ((hi - lo) * pow) + 1
  ⟨lo, hi, hi - lo, sequence, pow, intMax, .create sequence intMax (objectSeed seed)⟩

def random (fuel : ℕ) (g : PgsRealGen) : Option (ℚ × PgsRealGen) :=
  (g.randomizer.random fuel).map fun out => (out.1 / g.pow + g.min, {g with randomizer := out.2})

end PgsRealGen

/-! The shuffle permutes the buffer, whatever the offsets are. -/

theorem swapPerm (buffer : Array ℤ) (i r : ℕ) :
    (buffer.swapIfInBounds i r).toList.Perm buffer.toList := by
  rw [Array.swapIfInBounds_def]
  split
  · split
    · exact (Array.swap_perm _ _).toList
    · exact .refl _
  · exact .refl _

theorem shuffleFromPerm (todo i : ℕ) (state : ℤ) (buffer : Array ℤ) :
    (shuffleFrom todo i state buffer).toList.Perm buffer.toList := by
  induction todo generalizing i state buffer with
  | zero => exact .refl _
  | succ todo ih => exact (ih _ _ _).trans (swapPerm _ _ _)

theorem shufflePerm (buffer : Array ℤ) : (shuffle buffer).toList.Perm buffer.toList :=
  shuffleFromPerm _ _ _ _

namespace PgsSequentialIntGen

theorem doubleUpToReaches (range : ℤ) (turns k : ℕ) (enough : range ≤ 2 ^ (k + turns)) :
    ∃ j, doubleUpTo range turns (2 ^ k) = 2 ^ (k + j) ∧ range ≤ 2 ^ (k + j) := by
  induction turns generalizing k with
  | zero => exact ⟨0, rfl, enough⟩
  | succ turns ih =>
    rw [doubleUpTo]
    split
    · obtain ⟨j, same, reached⟩ := ih (k + 1) (by rwa [Nat.add_right_comm])
      refine ⟨j + 1, ?_, ?_⟩
      · rw [← pow_succ, same, Nat.add_right_comm, Nat.add_assoc]
      · rwa [← Nat.add_assoc, ← Nat.add_right_comm]
    · exact ⟨0, rfl, by simpa using (not_lt.mp ‹_›)⟩

theorem modulusReaches (range : ℤ) : ∃ k : ℕ, modulus range = 2 ^ (k + 1) ∧ range ≤ 2 ^ (k + 1) := by
  have enough : range ≤ 2 ^ (1 + range.toNat) := by
    have small : range.toNat < 2 ^ range.toNat := Nat.lt_two_pow_self
    have bigger : (2 : ℤ) ^ range.toNat ≤ 2 ^ (1 + range.toNat) :=
      pow_le_pow_right₀ (by norm_num) (by omega)
    have : (range.toNat : ℤ) < 2 ^ range.toNat := by exact_mod_cast small
    omega
  obtain ⟨j, same, reached⟩ := doubleUpToReaches range range.toNat 1 enough
  refine ⟨j, ?_, by rwa [Nat.add_comm]⟩
  rw [Nat.add_comm j 1, ← same]
  rfl

end PgsSequentialIntGen
end PgAdmin.PgsGenerators
