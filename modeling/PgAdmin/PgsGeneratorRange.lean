import PgAdmin.PgsSequentialBlocks

/-! When a generator keeps to its bounds. The normal randomizer leaves them at the one state
equal to m_top, and 16807 generates every nonzero residue, so every seed but the multiples of
the modulus meets it; the sequential one leaves them with a negative first state. -/
namespace PgAdmin.PgsGenerators
open Congruential

/- Any number of draws ends, and every value drawn lies between the bounds. -/
def KeepsWithin {σ α : Type} [LE α] (random : ℕ → σ → Option (α × σ)) (g : σ) (lo hi : α) : Prop :=
  ∀ count, ∃ fuel out, draws (random fuel) count g = some out ∧ ∀ v ∈ out.1, lo ≤ v ∧ v ≤ hi

/- Any number of draws ends. -/
def Ends {σ α : Type} (random : ℕ → σ → Option (α × σ)) (g : σ) : Prop :=
  ∀ count, ∃ fuel out, draws (random fuel) count g = some out

def Lifts {σ τ α β : Type} (inner : ℕ → σ → Option (α × σ)) (outer : ℕ → τ → Option (β × τ))
    (wrap : σ → τ) (f : α → β) : Prop :=
  ∀ fuel s, outer fuel (wrap s) = (inner fuel s).map fun o => (f o.1, wrap o.2)

section Lift
variable {σ τ α β : Type} {inner : ℕ → σ → Option (α × σ)} {outer : ℕ → τ → Option (β × τ)}
  {wrap : σ → τ} {f : α → β} {g : σ}

theorem endsLift (lift : Lifts inner outer wrap f) (ends : Ends inner g) : Ends outer (wrap g) := by
  intro count
  obtain ⟨fuel, out, drawn⟩ := ends count
  exact ⟨fuel, _, by rw [drawsLift (lift fuel), drawn]; rfl⟩

theorem keepsWithinLift [LE α] [LE β] {lo hi : α} {lo' hi' : β} (lift : Lifts inner outer wrap f)
    (bounds : ∀ v, (lo' ≤ f v ∧ f v ≤ hi') ↔ (lo ≤ v ∧ v ≤ hi)) :
    KeepsWithin outer (wrap g) lo' hi' ↔ KeepsWithin inner g lo hi := by
  refine forall_congr' fun count => exists_congr fun fuel => ?_
  rw [drawsLift (lift fuel)]
  constructor
  · rintro ⟨out, drawn, within⟩
    obtain ⟨o, ho, rfl⟩ := Option.map_eq_some_iff.mp drawn
    exact ⟨o, ho, fun v hv => (bounds v).mp (within _ (List.mem_map_of_mem hv))⟩
  · rintro ⟨o, ho, within⟩
    refine ⟨_, Option.map_eq_some_iff.mpr ⟨o, ho, rfl⟩, ?_⟩
    intro v hv
    obtain ⟨w, hw, rfl⟩ := List.mem_map.mp hv
    exact (bounds w).mpr (within w hw)

end Lift

/-! 16807 is a primitive root modulo the prime 2147483647. -/

theorem argMPrimeFactor {q : ℕ} (prime : q.Prime) (divides : q ∣ 2147483646) :
    q = 2 ∨ q = 3 ∨ q = 7 ∨ q = 11 ∨ q = 31 ∨ q = 151 ∨ q = 331 := by
  rw [show 2147483646 = 2 * 3 ^ 2 * 7 * 11 * 31 * 151 * 331 by norm_num] at divides
  simp only [prime.dvd_mul] at divides
  have same : ∀ r : ℕ, r.Prime → q ∣ r → q = r := fun r hr hd =>
    (Nat.prime_dvd_prime_iff_eq prime hr).mp hd
  rcases divides with (((((h | h) | h) | h) | h) | h) | h
  · exact .inl (same 2 (by norm_num) h)
  · exact .inr (.inl (same 3 (by norm_num) (prime.dvd_of_dvd_pow h)))
  · have := same 7 (by norm_num) h; omega
  · have := same 11 (by norm_num) h; omega
  · have := same 31 (by norm_num) h; omega
  · have := same 151 (by norm_num) h; omega
  · have := same 331 (by norm_num) h; omega

theorem argAFermat : (16807 : ZMod 2147483647) ^ 2147483646 = 1 := by reduce_mod_char

theorem argAPrimitive (q : ℕ) (prime : q.Prime) (divides : q ∣ 2147483646) :
    (16807 : ZMod 2147483647) ^ (2147483646 / q) ≠ 1 := by
  rcases argMPrimeFactor prime divides with rfl | rfl | rfl | rfl | rfl | rfl | rfl
  all_goals norm_num only
  all_goals reduce_mod_char
  all_goals decide

theorem argMPrime : Nat.Prime 2147483647 := lucas_primality _ _ argAFermat argAPrimitive

instance argMFact : Fact (Nat.Prime 2147483647) := ⟨argMPrime⟩

theorem argAOrder : orderOf (16807 : ZMod 2147483647) = 2147483647 - 1 :=
  orderOf_eq_of_pow_and_pow_div_prime (by norm_num) argAFermat argAPrimitive

namespace PgsNormalIntGen

theorem nextCast (state : ℤ) : (next state : ZMod 2147483647) = state * 16807 := by
  have split := Int.tmod_add_tdiv_mul (state * argA + argC) argM
  have cast := congrArg (Int.cast : ℤ → ZMod 2147483647) split
  have zero : ((argM : ℤ) : ZMod 2147483647) = 0 := by decide
  push_cast [zero] at cast
  simpa [next, argA, argC] using cast

theorem iterateCast (state : ℤ) (i : ℕ) :
    ((next^[i] state : ℤ) : ZMod 2147483647) = state * 16807 ^ i := by
  induction i with
  | zero => simp
  | succ i ih => rw [Function.iterate_succ_apply', nextCast, ih, pow_succ, mul_assoc]

theorem nextNonneg {state : ℤ} (h : 0 ≤ state) : 0 ≤ next state ∧ next state < argM := by
  have product : 0 ≤ state * argA + argC := by simp only [argA, argC]; omega
  exact ⟨Int.tmod_nonneg _ product, Int.tmod_lt_of_pos _ (by decide)⟩

theorem nextNeg (state : ℤ) : next (-state) = -next state := by
  simp only [next, argC, add_zero, neg_mul, Int.neg_tmod]

theorem iterateNonneg {state : ℤ} (h : 0 ≤ state) (i : ℕ) :
    0 ≤ next^[i + 1] state ∧ next^[i + 1] state < argM := by
  induction i with
  | zero => exact nextNonneg h
  | succ i ih =>
    rw [Function.iterate_succ_apply']
    exact nextNonneg ih.1

theorem iterateNeg (state : ℤ) (i : ℕ) : next^[i] (-state) = -next^[i] state := by
  induction i with
  | zero => rfl
  | succ i ih => rw [Function.iterate_succ_apply', Function.iterate_succ_apply', ih, nextNeg]

theorem reachesTop {state : ℤ} (positive : 0 < state) (free : ¬ argM ∣ state) (least : ℕ) :
    ∃ i, least ≤ i ∧ next^[i + 1] state = argM - 1 := by
  have nonzero : (state : ZMod 2147483647) ≠ 0 := by
    rw [Ne, ZMod.intCast_zmod_eq_zero_iff_dvd]
    exact free
  obtain ⟨i, late, power⟩ :=
    primitiveReturns argAOrder nonzero (t := -1) (by decide) (least + 1)
  obtain ⟨i, rfl⟩ : ∃ n, i = n + 1 := ⟨i - 1, by omega⟩
  have bounds := iterateNonneg positive.le i
  rw [← iterateCast, ← sub_eq_zero] at power
  have cast : ((next^[i + 1] state - (argM - 1) : ℤ) : ZMod 2147483647) = 0 := by
    have zero : ((argM : ℤ) : ZMod 2147483647) = 0 := by decide
    push_cast [zero]
    simpa using power
  rw [ZMod.intCast_zmod_eq_zero_iff_dvd] at cast
  refine ⟨i, by omega, ?_⟩
  simp only [argM] at bounds cast ⊢
  omega

theorem drawsOrbit (count : ℕ) (g : PgsNormalIntGen) :
    draws (fun g : PgsNormalIntGen => some g.random) count g =
      some ((orbit next count g.state).map fun s => (s * g.range).tdiv g.top,
        {g with state := next^[count] g.state}) := by
  induction count generalizing g with
  | zero => rfl
  | succ count ih => exact drawsCons.mpr ⟨_, _, rfl, ih _, rfl⟩

theorem keepsWithinOrbit (g : PgsNormalIntGen) (lo hi : ℤ) :
    KeepsWithin (fun _ g => some (random g)) g lo hi ↔
      ∀ count, ∀ s ∈ orbit next count g.state,
        lo ≤ (s * g.range).tdiv g.top ∧ (s * g.range).tdiv g.top ≤ hi := by
  refine forall_congr' fun count => ?_
  simp only [drawsOrbit, exists_const, Option.some.injEq, exists_eq_left', List.forall_mem_map]

theorem lastInOrbit {α : Type} (f : α → α) (x : α) (i : ℕ) : f^[i + 1] x ∈ orbit f (i + 1) x := by
  have inside : i < (orbit f (i + 1) x).length := by simp
  rw [← orbitGet f (i + 1) x i inside]
  exact List.getElem_mem inside

theorem topOutside {range seed : ℤ} (positive : 1 ≤ range) {s : ℤ} (sign : seed = 1 ∨ seed = -1)
    (top : s = seed * (argM - 1)) :
    ¬ (0 ≤ (s * range).tdiv (argM - 1) ∧ (s * range).tdiv (argM - 1) ≤ range - 1) := by
  have nonzero : argM - 1 ≠ 0 := by decide
  have value : (s * range).tdiv (argM - 1) = seed * range := by
    rw [top, mul_right_comm, Int.mul_tdiv_cancel _ nonzero]
  rw [value]
  rcases sign with rfl | rfl <;> omega

theorem keepsWithin {range seed : ℤ} (positive : 1 ≤ range) :
    KeepsWithin (fun _ g => some (random g)) (create range seed) 0 (range - 1) ↔ argM ∣ seed := by
  have start : (create range seed).state = next^[10] seed := rfl
  rw [keepsWithinOrbit, start]
  change (∀ count, ∀ s ∈ orbit next count (next^[10] seed),
    0 ≤ (s * range).tdiv (argM - 1) ∧ (s * range).tdiv (argM - 1) ≤ range - 1) ↔ _
  constructor
  · intro keeps
    by_contra free
    have meets : ∀ i, 10 ≤ i → ∀ sign : ℤ, (sign = 1 ∨ sign = -1) →
        next^[i + 1] seed ≠ sign * (argM - 1) := by
      intro i late sign unit same
      obtain ⟨j, rfl⟩ := Nat.exists_eq_add_of_le late
      rw [show 10 + j + 1 = (j + 1) + 10 by omega, Function.iterate_add_apply] at same
      exact topOutside positive unit same (keeps (j + 1) _ (lastInOrbit next _ j))
    rcases lt_trichotomy seed 0 with negative | zero | positiveSeed
    · obtain ⟨i, late, same⟩ := reachesTop (by omega : 0 < -seed) (by simpa using free) 10
      rw [iterateNeg] at same
      exact meets i late (-1) (.inr rfl) (by omega)
    · exact free (zero ▸ dvd_zero argM)
    · obtain ⟨i, late, same⟩ := reachesTop positiveSeed free 10
      exact meets i late 1 (.inl rfl) (by omega)
  · rintro ⟨d, rfl⟩ count s member
    have first : next (argM * d) = 0 := by
      simp only [next, argC, add_zero, mul_assoc, Int.mul_tmod_right]
    have fixed : ∀ i, next^[i] 0 = 0 := Function.iterate_fixed (by decide)
    obtain ⟨i, hi, rfl⟩ := List.mem_iff_getElem.mp member
    rw [orbitGet, ← Function.iterate_add_apply, show i + 1 + 10 = (i + 10) + 1 by omega,
      Function.iterate_succ_apply, first, fixed, zero_mul, Int.zero_tdiv]
    omega

end PgsNormalIntGen

namespace PgsSequentialIntGen

theorem blocksCover {outs : List ℤ} {n blocks : ℕ} (positive : 0 < n)
    (length : outs.length = blocks * n)
    (each : ∀ i < blocks, ((outs.drop (i * n)).take n).Perm (residues n)) :
    ∀ v ∈ outs, v ∈ residues n := by
  intro v member
  obtain ⟨i, inside, rfl⟩ := List.mem_iff_getElem.mp member
  have block : i / n < blocks := Nat.div_lt_of_lt_mul (by rwa [length, Nat.mul_comm] at inside)
  refine (each (i / n) block).mem_iff.mp ?_
  have split : i / n * n + i % n = i := Nat.div_add_mod' i n
  have short : i % n < n := Nat.mod_lt i positive
  refine List.mem_iff_getElem.mpr ⟨i % n, ?_, ?_⟩
  · simp only [List.length_take, List.length_drop]
    omega
  · simp only [List.getElem_take, List.getElem_drop, split]

theorem keepsWithinNonneg {range seed : ℤ} (positive : 1 ≤ range) (hs : 0 ≤ seed) :
    KeepsWithin random (create range seed) 0 (range - 1) := by
  intro count
  obtain ⟨outs, g, drawn, each⟩ := sweepsResidues seed positive count hs
  have cover := blocksCover (by omega : 0 < range.toNat) (drawsLength drawn) each
  have enough : count ≤ count * range.toNat := Nat.le_mul_of_pos_right count (by omega)
  rw [← Nat.add_sub_cancel' enough] at drawn
  obtain ⟨middle, before, _⟩ := drawsSplit drawn
  refine ⟨_, _, before, fun v hv => ?_⟩
  obtain ⟨i, hi, rfl⟩ := List.mem_map.mp (cover v (List.mem_of_mem_take hv))
  have := List.mem_range.mp hi
  simp only [Int.ofNat_eq_natCast]
  omega

theorem randomFirst {range seed other : ℤ} (positive : 1 ≤ range)
    (same : mixed (modulus range) seed = mixed (modulus range) other) (fuel : ℕ) :
    random fuel (create range seed) = random fuel (create range other) := by
  have count : 0 < (min range bufferSize).toNat := by
    have : (0 : ℤ) < bufferSize := by decide
    omega
  have made : refill fuel (create range seed) = refill fuel (create range other) := by
    simp only [refill, nextMixed]
    rw [show (create range seed).accepted = (create range other).accepted from rfl,
      show (create range seed).remainder = range from rfl,
      show (create range other).remainder = range from rfl,
      show (create range seed).state = seed from rfl,
      show (create range other).state = other from rfl, picksFirst count same]
    rfl
  simp only [random, made]
  rfl

theorem keepsWithinFirst {range seed other : ℤ} (positive : 1 ≤ range)
    (same : mixed (modulus range) seed = mixed (modulus range) other)
    (keeps : KeepsWithin random (create range seed) 0 (range - 1)) :
    KeepsWithin random (create range other) 0 (range - 1) := by
  intro count
  cases count with
  | zero => exact ⟨0, _, rfl, by simp⟩
  | succ count =>
    obtain ⟨fuel, out, drawn, within⟩ := keeps (count + 1)
    refine ⟨fuel, out, ?_, within⟩
    rw [draws] at drawn ⊢
    rwa [← randomFirst positive same]

theorem drawsPicks {fuel : ℕ} {range seed : ℤ} {out : List ℤ × PgsSequentialIntGen}
    (positive : 1 ≤ range)
    (drawn : draws (random fuel) (min range bufferSize).toNat (create range seed) = some out) :
    ∃ vs last, out.1.Perm vs ∧ picks (create range seed).next (create range seed).accepted fuel
      (min range bufferSize).toNat seed = some (vs, last) := by
  have nonempty : 0 < (min range bufferSize).toNat := by
    have : (0 : ℤ) < bufferSize := by decide
    omega
  cases made : picks (create range seed).next (create range seed).accepted fuel
      (min range bufferSize).toNat seed with
  | none =>
    have stuck : random fuel (create range seed) = none := by
      simp only [random, refill, create, List.size_toArray, List.length_nil, if_true] at made ⊢
      simp only [made, bind, Option.bind_none]
    obtain ⟨k, hk⟩ : ∃ k, (min range bufferSize).toNat = k + 1 := ⟨_, (Nat.succ_pred_eq_of_pos nonempty).symm⟩
    rw [hk] at drawn
    obtain ⟨first, _, one, _, _⟩ := drawsCons.mp drawn
    rw [stuck] at one
    contradiction
  | some made' =>
    obtain ⟨outs, perm, same⟩ := chunk (g := create range seed) (by simp only [create]; omega)
      rfl nonempty made
    have : draws (random fuel) (min range bufferSize).toNat (create range seed) = _ := same
    rw [this] at drawn
    cases Option.some.inj drawn
    exact ⟨_, _, perm, rfl⟩

theorem negativeFirst {range seed : ℤ} (positive : 1 ≤ range)
    (negative : mixed (modulus range) seed < 0) :
    ¬ KeepsWithin random (create range seed) 0 (range - 1) := by
  intro keeps
  obtain ⟨fuel, out, drawn, within⟩ := keeps (min range bufferSize).toNat
  obtain ⟨vs, last, perm, picked⟩ := drawsPicks positive drawn
  obtain ⟨k, hk⟩ : ∃ k, (min range bufferSize).toNat = k + 1 := by
    have : (0 : ℤ) < bufferSize := by decide
    exact ⟨(min range bufferSize).toNat - 1, by omega⟩
  rw [hk] at picked
  obtain ⟨y, rest, found, _, all⟩ := picksCons.mp picked
  cases all
  have first : y = mixed (modulus range) seed := by
    cases fuel with
    | zero => simp [pick] at found
    | succ fuel =>
      have hit : (create range seed).accepted (mixed (modulus range) seed) = true := by
        simp only [accepted, create]
        exact decide_eq_true (by omega)
      rw [pick, nextMixed, if_pos hit] at found
      exact (Option.some.inj found).symm
  have := within y (perm.mem_iff.mpr (by simp))
  omega

theorem keepsWithin {range seed : ℤ} (positive : 1 ≤ range) :
    KeepsWithin random (create range seed) 0 (range - 1) ↔
      0 ≤ seed ∨ modulus range ∣ seed * 5 + 1 := by
  obtain ⟨k, power, _⟩ := modulusReaches range
  have large : 0 < modulus range := by rw [power]; positivity
  constructor
  · intro keeps
    by_contra outside
    push Not at outside
    have nonzero : mixed (modulus range) seed ≠ 0 := fun zero =>
      outside.2 (Int.dvd_of_tmod_eq_zero zero)
    have sign : mixed (modulus range) seed ≤ 0 := mixedNonpos (by omega)
    exact negativeFirst positive (by omega) keeps
  · rintro (hs | divides)
    · exact keepsWithinNonneg positive hs
    · -- a nonnegative seed with the same first state, 0
      have shifted : modulus range ∣ (seed + modulus range * |seed|) * 5 + 1 := by
        rw [show (seed + modulus range * |seed|) * 5 + 1 =
          seed * 5 + 1 + modulus range * (|seed| * 5) by ring]
        exact divides.add (Dvd.intro _ rfl)
      have other : 0 ≤ seed + modulus range * |seed| := by
        have := neg_abs_le seed
        nlinarith [abs_nonneg seed]
      refine keepsWithinFirst positive ?_ (keepsWithinNonneg positive other)
      rw [mixed, mixed, Int.tmod_eq_zero_of_dvd divides, Int.tmod_eq_zero_of_dvd shifted]

theorem pickEnds {range : ℤ} (positive : 1 ≤ range) (seed state : ℤ) :
    ∃ y, pick (create range seed).next (create range seed).accepted (modulus range).toNat state =
      some y := by
  obtain ⟨k, power, reached⟩ := modulusReaches range
  have fuel : (modulus range).toNat = 2 ^ (k + 1) := by rw [power]; rfl
  rw [nextMixed, fuel, power]
  by_cases negative : state < 0
  · obtain ⟨n, hn⟩ : ∃ n, 2 ^ (k + 1) = n + 1 := ⟨2 ^ (k + 1) - 1, by have := Nat.two_pow_pos (k + 1); omega⟩
    have low : mixed (2 ^ (k + 1)) state ≤ 0 := mixedNonpos negative
    have hit : (create range seed).accepted (mixed (2 ^ (k + 1)) state) = true := by
      simp only [accepted, create]
      exact decide_eq_true (by omega)
    exact ⟨_, by rw [hn, pick, if_pos hit]⟩
  · obtain ⟨ys, last, picked, _⟩ :=
      picksCycle (p := (create range seed).accepted) (mixedCycles (k + 1)) (not_lt.mp negative)
    rw [residuesAccepted seed (by exact_mod_cast reached)] at picked
    simp only [residues, List.length_map, List.length_range] at picked
    obtain ⟨n, hn⟩ : ∃ n, range.toNat = n + 1 := ⟨range.toNat - 1, by omega⟩
    rw [hn] at picked
    obtain ⟨y, _, found, _⟩ := picksCons.mp picked
    exact ⟨y, found⟩

theorem sweepsEnd {range : ℤ} (positive : 1 ≤ range) (seed : ℤ) (blocks : ℕ) (state : ℤ) :
    ∃ out last, draws (random (modulus range).toNat) (blocks * range.toNat)
      ((create range seed).idle state range) = some (out, (create range seed).idle last range) := by
  induction blocks generalizing state with
  | zero => exact ⟨[], state, by simp [draws]⟩
  | succ blocks ih =>
    obtain ⟨vs, picked⟩ := picksEnds (pickEnds positive seed) range.toNat state
    obtain ⟨block, _, first⟩ :=
      sweep (by simp only [create]; omega) range.toNat (by omega) picked
    obtain ⟨rest, last, later⟩ := ih vs.2
    rw [Int.toNat_of_nonneg (by omega)] at first
    exact ⟨block ++ rest, last, by rw [Nat.succ_mul, Nat.add_comm]; exact drawsAppend first later⟩

theorem ends {range : ℤ} (positive : 1 ≤ range) (seed : ℤ) : Ends random (create range seed) := by
  intro count
  obtain ⟨out, last, drawn⟩ := sweepsEnd positive seed count seed
  have enough : count ≤ count * range.toNat := Nat.le_mul_of_pos_right count (by omega)
  rw [← Nat.add_sub_cancel' enough] at drawn
  obtain ⟨middle, before, _⟩ := drawsSplit drawn
  exact ⟨_, _, before⟩

end PgsSequentialIntGen
end PgAdmin.PgsGenerators
