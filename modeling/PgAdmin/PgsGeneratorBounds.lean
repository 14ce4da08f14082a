import PgAdmin.PgsGeneratorRange

/-! INTEGER and REAL generators inherit the bounds of their randomizer: an integer is the draw
moved up by min, a real the draw scaled down by 10^precision. -/
namespace PgAdmin.PgsGenerators
open Congruential

def seedFits (sequence : Bool) (range seed : ℤ) : Prop :=
  if sequence then 0 ≤ seed ∨ PgsSequentialIntGen.modulus range ∣ seed * 5 + 1
  else PgsNormalIntGen.argM ∣ seed

instance (sequence : Bool) (range seed : ℤ) : Decidable (seedFits sequence range seed) := by
  unfold seedFits
  infer_instance

namespace PgsNumberGen

theorem sequentialLifts : Lifts PgsSequentialIntGen.random random .sequential id :=
  fun _ _ => rfl

theorem normalLifts : Lifts (fun _ g => some (PgsNormalIntGen.random g)) random .normal id :=
  fun _ _ => rfl

theorem ends {range : ℤ} (positive : 1 ≤ range) (sequence : Bool) (seed : ℤ) :
    Ends random (create sequence range seed) := by
  cases sequence with
  | true =>
    have lifted := endsLift sequentialLifts (PgsSequentialIntGen.ends positive seed)
    exact lifted
  | false =>
    have normal : Ends (fun _ g => some (PgsNormalIntGen.random g)) (.create range seed) :=
      fun count => ⟨0, _, PgsNormalIntGen.drawsOrbit count _⟩
    have lifted := endsLift normalLifts normal
    exact lifted

theorem keepsWithin {range : ℤ} (positive : 1 ≤ range) (sequence : Bool) (seed : ℤ) :
    KeepsWithin random (create sequence range seed) 0 (range - 1) ↔
      seedFits sequence range seed := by
  cases sequence with
  | true =>
    rw [seedFits, if_pos rfl, ← PgsSequentialIntGen.keepsWithin positive]
    have lifted := keepsWithinLift (g := .create range seed) sequentialLifts
      fun v => (Iff.rfl : 0 ≤ v ∧ v ≤ range - 1 ↔ _)
    exact lifted
  | false =>
    rw [seedFits, if_neg Bool.false_ne_true, ← PgsNormalIntGen.keepsWithin positive]
    have lifted := keepsWithinLift (g := .create range seed) normalLifts
      fun v => (Iff.rfl : 0 ≤ v ∧ v ≤ range - 1 ↔ _)
    exact lifted

end PgsNumberGen

namespace PgsIntegerGen

def withRandomizer (g : PgsIntegerGen) (r : PgsNumberGen) : PgsIntegerGen := {g with randomizer := r}

theorem lifts (g : PgsIntegerGen) :
    Lifts PgsNumberGen.random random g.withRandomizer (· + g.min) :=
  fun _ _ => rfl

theorem rangePositive (min max : ℤ) (sequence : Bool) (seed : ℤ) :
    1 ≤ (create min max sequence seed).range := by
  simp only [create]
  omega

theorem ends (min max : ℤ) (sequence : Bool) (seed : ℤ) :
    Ends random (create min max sequence seed) := by
  have inner := PgsNumberGen.ends (rangePositive min max sequence seed) sequence (objectSeed seed)
  have lifted := endsLift (lifts (create min max sequence seed)) inner
  exact lifted

theorem keepsWithin (min max : ℤ) (sequence : Bool) (seed : ℤ) :
    KeepsWithin random (create min max sequence seed) (Min.min min max) (Max.max min max) ↔
      seedFits sequence (create min max sequence seed).range (objectSeed seed) := by
  rw [← PgsNumberGen.keepsWithin (rangePositive min max sequence seed)]
  have bounds : ∀ v, (Min.min min max ≤ v + Min.min min max ∧ v + Min.min min max ≤ Max.max min max) ↔
      0 ≤ v ∧ v ≤ (create min max sequence seed).range - 1 := by
    intro v
    simp only [create]
    omega
  have lifted := keepsWithinLift (g := .create sequence (create min max sequence seed).range
    (objectSeed seed)) (lifts (create min max sequence seed)) bounds
  exact lifted

end PgsIntegerGen

theorem mapmRoundFloor {m : ℚ} (nonneg : 0 ≤ m) : mapmRound m = ⌊m⌋ := by
  rw [mapmRound, Rat.floor_def', Int.tdiv_eq_ediv_of_nonneg (Rat.num_nonneg.mpr nonneg)]

namespace PgsRealGen

def withRandomizer (g : PgsRealGen) (r : PgsNumberGen) : PgsRealGen := {g with randomizer := r}

theorem lifts (g : PgsRealGen) :
    Lifts PgsNumberGen.random random g.withRandomizer fun r : ℤ => (r : ℚ) / g.pow + g.min :=
  fun _ _ => rfl

theorem spread (min max : ℚ) (precision : UInt8) :
    0 ≤ (Max.max min max - Min.min min max) * (10 : ℚ) ^ precision.toNat :=
  mul_nonneg (sub_nonneg.mpr min_le_max) (by positivity)

theorem rangePositive (min max : ℚ) (precision : UInt8) (sequence : Bool) (seed : ℤ) :
    1 ≤ (create min max precision sequence seed).intMax := by
  have := Int.floor_nonneg.mpr (spread min max precision)
  simp only [create, mapmRoundFloor (spread min max precision)]
  omega

theorem ends (min max : ℚ) (precision : UInt8) (sequence : Bool) (seed : ℤ) :
    Ends random (create min max precision sequence seed) := by
  have inner :=
    PgsNumberGen.ends (rangePositive min max precision sequence seed) sequence (objectSeed seed)
  have lifted := endsLift (lifts (create min max precision sequence seed)) inner
  exact lifted

theorem keepsWithin (min max : ℚ) (precision : UInt8) (sequence : Bool) (seed : ℤ) :
    KeepsWithin random (create min max precision sequence seed) (Min.min min max)
        (Max.max min max) ↔
      seedFits sequence (create min max precision sequence seed).intMax (objectSeed seed) := by
  rw [← PgsNumberGen.keepsWithin (rangePositive min max precision sequence seed)]
  have pow : (0 : ℚ) < 10 ^ precision.toNat := by positivity
  have bounds : ∀ v : ℤ, (Min.min min max ≤ (v : ℚ) / 10 ^ precision.toNat + Min.min min max ∧
      (v : ℚ) / 10 ^ precision.toNat + Min.min min max ≤ Max.max min max) ↔
      0 ≤ v ∧ v ≤ (create min max precision sequence seed).intMax - 1 := by
    intro v
    have top : (create min max precision sequence seed).intMax - 1 =
        ⌊(Max.max min max - Min.min min max) * (10 : ℚ) ^ precision.toNat⌋ := by
      simp only [create, mapmRoundFloor (spread min max precision), add_sub_cancel_right]
    rw [top, Int.le_floor, ← div_le_iff₀ pow, le_add_iff_nonneg_left, ← le_sub_iff_add_le,
      le_div_iff₀ pow, zero_mul, Int.cast_nonneg_iff]
  have lifted := keepsWithinLift (g := .create sequence
    (create min max precision sequence seed).intMax (objectSeed seed))
    (lifts (create min max precision sequence seed)) bounds
  exact lifted

end PgsRealGen

/-- Every generator ends all its draws, and its values keep between its bounds exactly when the
seed fits: without sequence a multiple of 2147483647, with sequence a nonnegative one or one
whose first state is 0. -/
theorem generatorBounds (sequence : Bool) (seed : ℤ) :
    (∀ min max : ℤ,
      let g := PgsIntegerGen.create min max sequence seed
      Ends PgsIntegerGen.random g ∧
        (KeepsWithin PgsIntegerGen.random g (Min.min min max) (Max.max min max) ↔
          seedFits sequence g.range (objectSeed seed))) ∧
    (∀ (min max : ℚ) (precision : UInt8),
      let g := PgsRealGen.create min max precision sequence seed
      Ends PgsRealGen.random g ∧
        (KeepsWithin PgsRealGen.random g (Min.min min max) (Max.max min max) ↔
          seedFits sequence g.intMax (objectSeed seed))) := by
  constructor
  · intro min max
    exact ⟨PgsIntegerGen.ends _ _ _ _, PgsIntegerGen.keepsWithin min max sequence seed⟩
  · intro min max precision
    exact ⟨PgsRealGen.ends _ _ _ _ _, PgsRealGen.keepsWithin min max precision sequence seed⟩

/- INTEGER(0, 9, 0, 1190715800): the eleventh state is m_top, so the first value is 10. -/
theorem integerAboveMax :
    (PgsIntegerGen.random 0 (PgsIntegerGen.create 0 9 false 1190715800)).map Prod.fst = some 10 ∧
      ¬ KeepsWithin PgsIntegerGen.random (PgsIntegerGen.create 0 9 false 1190715800) 0 9 := by
  have first : (PgsIntegerGen.random 0 (PgsIntegerGen.create 0 9 false 1190715800)).map Prod.fst =
      some 10 := by decide
  refine ⟨first, fun keeps => ?_⟩
  obtain ⟨fuel, out, drawn, within⟩ := keeps 1
  obtain ⟨one, rest, found, _, rfl⟩ := drawsCons.mp drawn
  have same : PgsIntegerGen.random fuel (PgsIntegerGen.create 0 9 false 1190715800) =
      PgsIntegerGen.random 0 (PgsIntegerGen.create 0 9 false 1190715800) := rfl
  rw [← same, found] at first
  have := within one.1 (by simp)
  simp only [Option.map_some, Option.some.injEq] at first
  omega

end PgAdmin.PgsGenerators
