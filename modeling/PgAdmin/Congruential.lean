import Mathlib

/-! Orbits of a step function, rejection sampling along an orbit, and two congruential steps
whose orbits are known: 5x+1 modulo a power of two and a primitive root modulo a prime.
Values are integers with truncated remainder, as a sign-magnitude number library has them. -/
namespace PgAdmin.Congruential

section Draws
variable {σ τ α β : Type}

def draws (next : σ → Option (α × σ)) : ℕ → σ → Option (List α × σ)
  | 0, s => some ([], s)
  | k + 1, s => do
    let first ← next s
    let rest ← draws next k first.2
    some (first.1 :: rest.1, rest.2)

variable {next next' : σ → Option (α × σ)}

theorem drawsCons {k : ℕ} {s : σ} {out : List α × σ} :
    draws next (k + 1) s = some out ↔
      ∃ first rest, next s = some first ∧ draws next k first.2 = some rest ∧
        out = (first.1 :: rest.1, rest.2) := by
  simp only [draws, bind, Option.bind_eq_some_iff, Option.some.injEq]
  constructor
  · rintro ⟨first, hf, rest, hr, rfl⟩
    exact ⟨first, rest, hf, hr, rfl⟩
  · rintro ⟨first, rest, hf, hr, rfl⟩
    exact ⟨first, hf, rest, hr, rfl⟩

theorem drawsRefine (refines : ∀ s out, next s = some out → next' s = some out)
    {k : ℕ} {s : σ} {out : List α × σ} (ok : draws next k s = some out) :
    draws next' k s = some out := by
  induction k generalizing s out with
  | zero => exact ok
  | succ k ih =>
    obtain ⟨first, rest, hf, hr, rfl⟩ := drawsCons.mp ok
    exact drawsCons.mpr ⟨first, rest, refines s first hf, ih hr, rfl⟩

theorem drawsLength {k : ℕ} {s : σ} {out : List α × σ} (ok : draws next k s = some out) :
    out.1.length = k := by
  induction k generalizing s out with
  | zero => cases ok; rfl
  | succ k ih =>
    obtain ⟨first, rest, _, hr, rfl⟩ := drawsCons.mp ok
    simp [ih hr]

theorem drawsAppend {j k : ℕ} {s t u : σ} {xs ys : List α}
    (left : draws next j s = some (xs, t)) (right : draws next k t = some (ys, u)) :
    draws next (j + k) s = some (xs ++ ys, u) := by
  induction j generalizing s xs with
  | zero => cases left; simpa using right
  | succ j ih =>
    obtain ⟨first, rest, hf, hr, last⟩ := drawsCons.mp left
    cases last
    rw [Nat.succ_add]
    exact drawsCons.mpr ⟨first, (rest.1 ++ ys, u), hf, ih hr, rfl⟩

theorem drawsSplit {j k : ℕ} {s u : σ} {xs : List α}
    (ok : draws next (j + k) s = some (xs, u)) :
    ∃ t, draws next j s = some (xs.take j, t) ∧ draws next k t = some (xs.drop j, u) := by
  induction j generalizing s xs with
  | zero => exact ⟨s, rfl, by simpa using ok⟩
  | succ j ih =>
    rw [Nat.succ_add] at ok
    obtain ⟨first, rest, hf, hr, last⟩ := drawsCons.mp ok
    cases last
    obtain ⟨t, before, after⟩ := ih hr
    exact ⟨t, drawsCons.mpr ⟨first, (rest.1.take j, t), hf, before, rfl⟩, after⟩

theorem drawsLift {outer : τ → Option (β × τ)} {wrap : σ → τ} {f : α → β}
    (lift : ∀ s, outer (wrap s) = (next s).map fun o => (f o.1, wrap o.2)) (k : ℕ) (s : σ) :
    draws outer k (wrap s) = (draws next k s).map fun o => (o.1.map f, wrap o.2) := by
  induction k generalizing s with
  | zero => rfl
  | succ k ih =>
    simp only [draws, lift]
    cases next s with
    | none => rfl
    | some first =>
      simp only [Option.map_some, bind, Option.bind_some, ih]
      cases draws next k first.2 <;> rfl

end Draws

section Orbit
variable {α : Type} (f : α → α) (p : α → Bool)

def orbit : ℕ → α → List α
  | 0, _ => []
  | k + 1, x => f x :: orbit k (f x)

/- The loop `do x := f x while (not p x)`; the first argument bounds its turns. -/
def pick : ℕ → α → Option α
  | 0, _ => none
  | fuel + 1, x => if p (f x) then some (f x) else pick fuel (f x)

def picks (fuel : ℕ) : ℕ → α → Option (List α × α) :=
  draws fun x => (pick f p fuel x).map fun y => (y, y)

@[simp] theorem orbitLength (k : ℕ) (x : α) : (orbit f k x).length = k := by
  induction k generalizing x with
  | zero => rfl
  | succ k ih => simp [orbit, ih]

theorem orbitGet (k : ℕ) (x : α) (i : ℕ) (inside : i < (orbit f k x).length) :
    (orbit f k x)[i] = f^[i + 1] x := by
  induction k generalizing x i with
  | zero => simp [orbit] at inside
  | succ k ih =>
    cases i with
    | zero => rfl
    | succ i => exact ih (f x) i (by simpa [orbit] using inside)

variable {f p}

theorem pickMono {fuel more : ℕ} {x y : α} (le : fuel ≤ more)
    (ok : pick f p fuel x = some y) : pick f p more x = some y := by
  induction fuel generalizing more x with
  | zero => simp [pick] at ok
  | succ fuel ih =>
    obtain ⟨more, rfl⟩ : ∃ n, more = n + 1 := ⟨more - 1, by omega⟩
    simp only [pick] at ok ⊢
    split at ok
    · rename_i hit
      rw [if_pos hit, ok]
    · rename_i miss
      rw [if_neg miss, ih (by omega) ok]

theorem picksFirst {fuel k : ℕ} {x y : α} (nonempty : 0 < k) (same : f x = f y) :
    picks f p fuel k x = picks f p fuel k y := by
  obtain ⟨k, rfl⟩ : ∃ n, k = n + 1 := ⟨k - 1, by omega⟩
  have first : pick f p fuel x = pick f p fuel y := by
    cases fuel with
    | zero => rfl
    | succ fuel => simp only [pick, same]
  simp only [picks, draws, first]

theorem picksMono {fuel more k : ℕ} {x : α} {out : List α × α} (le : fuel ≤ more)
    (ok : picks f p fuel k x = some out) : picks f p more k x = some out := by
  refine drawsRefine ?_ ok
  intro y next found
  obtain ⟨z, hz, last⟩ := Option.map_eq_some_iff.mp found
  exact Option.map_eq_some_iff.mpr ⟨z, pickMono le hz, last⟩

theorem picksCons {fuel k : ℕ} {x : α} {out : List α × α} :
    picks f p fuel (k + 1) x = some out ↔
      ∃ y rest, pick f p fuel x = some y ∧ picks f p fuel k y = some rest ∧
        out = (y :: rest.1, rest.2) := by
  simp only [picks, draws, bind, Option.bind_eq_some_iff, Option.map_eq_some_iff]
  constructor
  · rintro ⟨_, ⟨y, hy, rfl⟩, rest, hr, last⟩
    exact ⟨y, rest, hy, hr, (Option.some.inj last).symm⟩
  · rintro ⟨y, rest, hy, hr, rfl⟩
    exact ⟨_, ⟨y, hy, rfl⟩, rest, hr, rfl⟩

theorem picksEnds {fuel : ℕ} (ends : ∀ x, ∃ y, pick f p fuel x = some y) (k : ℕ) (x : α) :
    ∃ out, picks f p fuel k x = some out := by
  induction k generalizing x with
  | zero => exact ⟨_, rfl⟩
  | succ k ih =>
    obtain ⟨y, found⟩ := ends x
    obtain ⟨rest, later⟩ := ih y
    exact ⟨_, picksCons.mpr ⟨y, rest, found, later, rfl⟩⟩

theorem picksLast {fuel k : ℕ} {x : α} {out : List α × α}
    (ok : picks f p fuel (k + 1) x = some out) : out.2 ∈ out.1 := by
  induction k generalizing x out with
  | zero =>
    obtain ⟨y, rest, _, hr, rfl⟩ := picksCons.mp ok
    cases hr
    simp
  | succ k ih =>
    obtain ⟨y, rest, _, hr, rfl⟩ := picksCons.mp ok
    exact List.mem_cons_of_mem _ (ih hr)

/- The picks along the first `k` steps are what the filter keeps of them. -/
theorem picksOrbit {k fuel : ℕ} (enough : k ≤ fuel) (x : α) :
    ∃ z, picks f p fuel ((orbit f k x).filter p).length x = some ((orbit f k x).filter p, z) := by
  induction k generalizing fuel x with
  | zero => exact ⟨x, rfl⟩
  | succ k ih =>
    obtain ⟨fuel, rfl⟩ : ∃ n, fuel = n + 1 := ⟨fuel - 1, by omega⟩
    by_cases hit : p (f x) = true
    · obtain ⟨z, rest⟩ := ih (Nat.le_of_succ_le enough) (f x)
      refine ⟨z, ?_⟩
      simp only [orbit, List.filter_cons_of_pos hit, List.length_cons, picksCons]
      exact ⟨f x, _, by simp [pick, hit], rest, rfl⟩
    · obtain ⟨z, rest⟩ := ih (Nat.le_of_succ_le_succ enough) (f x)
      simp only [orbit, List.filter_cons_of_neg hit]
      generalize (orbit f k (f x)).filter p = ys at rest
      cases ys with
      | nil => exact ⟨x, rfl⟩
      | cons y ys =>
        obtain ⟨w, tail, hw, ht, last⟩ := picksCons.mp rest
        refine ⟨z, picksCons.mpr ⟨w, tail, ?_, picksMono (Nat.le_succ fuel) ht, last⟩⟩
        simpa [pick, hit] using hw

end Orbit

/-! A step runs through a cycle when every window of the cycle's length, from any admissible
start, meets each of its elements once. -/
section Cycle
variable {α : Type} {f : α → α} {p : α → Bool}

def Cycles (f : α → α) (start : α → Prop) (cycle : List α) : Prop :=
  ∀ x, start x → (orbit f cycle.length x).Perm cycle

theorem picksCycle {start : α → Prop} {cycle : List α} (round : Cycles f start cycle)
    {x : α} (ok : start x) :
    ∃ ys z, picks f p cycle.length (cycle.filter p).length x = some (ys, z) ∧
      ys.Perm (cycle.filter p) := by
  have perm := (round x ok).filter p
  obtain ⟨z, found⟩ := picksOrbit (f := f) (p := p) (Nat.le_refl cycle.length) x
  rw [perm.length_eq] at found
  exact ⟨_, z, found, perm⟩

end Cycle

/-! x ↦ 5x+1 modulo 2^k. With y = 4x+1 a step is a multiplication by 5 modulo 2^(k+2), where
5 has order 2^k; so 2^k successive states differ. -/
section Mixed

def mixed (m x : ℤ) : ℤ := (x * 5 + 1).tmod m

theorem mixedEmod {m x : ℤ} (positive : 0 ≤ x) : mixed m x = (x * 5 + 1) % m :=
  Int.tmod_eq_emod_of_nonneg (by omega)

theorem mixedRange {m x : ℤ} (hm : 0 < m) (positive : 0 ≤ x) : 0 ≤ mixed m x ∧ mixed m x < m := by
  rw [mixedEmod positive]
  exact ⟨Int.emod_nonneg _ hm.ne', Int.emod_lt_of_pos _ hm⟩

theorem mixedNonpos {m x : ℤ} (negative : x < 0) : mixed m x ≤ 0 := by
  have flipped : mixed m x = -(-(x * 5 + 1)).tmod m := by rw [Int.neg_tmod, neg_neg, mixed]
  have := Int.tmod_nonneg m (by omega : 0 ≤ -(x * 5 + 1))
  omega

theorem mixedIterateRange {m x : ℤ} (hm : 0 < m) (positive : 0 ≤ x) (i : ℕ) :
    0 ≤ (mixed m)^[i] x := by
  induction i with
  | zero => exact positive
  | succ i ih =>
    rw [Function.iterate_succ_apply']
    exact (mixedRange hm ih).1

theorem mixedPower (k i : ℕ) {x : ℤ} (positive : 0 ≤ x) :
    (4 * ((mixed (2 ^ k))^[i] x : ℤ) + 1 : ZMod (2 ^ (k + 2))) = 5 ^ i * (4 * (x : ℤ) + 1) := by
  induction i with
  | zero => simp
  | succ i ih =>
    have previous := mixedIterateRange (m := 2 ^ k) (by positivity) positive i
    rw [Function.iterate_succ_apply', mixedEmod previous]
    generalize (mixed (2 ^ k))^[i] x = y at ih previous
    -- 4 (r % 2^k) and 4 r differ by a multiple of 4 · 2^k
    have lift : ((4 * ((y * 5 + 1) % 2 ^ k) : ℤ) : ZMod (2 ^ (k + 2))) = (4 * (y * 5 + 1) : ℤ) := by
      rw [ZMod.intCast_eq_intCast_iff]
      push_cast
      rw [show (2 : ℤ) ^ (k + 2) = 4 * 2 ^ k by ring]
      exact (Int.mod_modEq (y * 5 + 1) (2 ^ k)).mul_left' 
    push_cast at lift ⊢
    calc (4 * ((y * 5 + 1) % 2 ^ k : ℤ) + 1 : ZMod (2 ^ (k + 2)))
        = 5 * (4 * (y : ZMod (2 ^ (k + 2))) + 1) := by rw [lift]; ring
      _ = 5 ^ (i + 1) * (4 * (x : ZMod (2 ^ (k + 2))) + 1) := by rw [ih]; ring

theorem fourUnit (k : ℕ) (x : ℤ) : IsUnit (4 * (x : ZMod (2 ^ (k + 2))) + 1) := by
  have odd : IsCoprime (4 * x + 1) ((2 ^ (k + 2) : ℕ) : ℤ) := by
    push_cast
    exact IsCoprime.pow_right ⟨1, -(2 * x), by ring⟩
  have unit := (ZMod.coe_int_isUnit_iff_isCoprime (4 * x + 1) (2 ^ (k + 2))).mpr odd.symm
  simpa using unit

theorem mixedInjective (k : ℕ) {x : ℤ} (positive : 0 ≤ x) {i j : ℕ} (hi : i < 2 ^ k)
    (hj : j < 2 ^ k) (same : (mixed (2 ^ k))^[i + 1] x = (mixed (2 ^ k))^[j + 1] x) : i = j := by
  have left := mixedPower k (i + 1) positive
  rw [same, mixedPower k (j + 1) positive] at left
  have powers := (fourUnit k x).mul_right_cancel left
  have order := ZMod.orderOf_five k
  have shifted : (5 : ZMod (2 ^ (k + 2))) ^ j = 5 ^ i := by
    have five : IsUnit (5 : ZMod (2 ^ (k + 2))) := by
      have unit := fourUnit k 1
      norm_num at unit
      exact unit
    exact five.mul_right_cancel (by simpa only [pow_succ] using powers)
  exact (pow_injOn_Iio_orderOf (x := (5 : ZMod (2 ^ (k + 2)))) (by simpa [order] using hj)
    (by simpa [order] using hi) shifted).symm

def residues (m : ℕ) : List ℤ := (List.range m).map Int.ofNat

theorem mixedCycles (k : ℕ) : Cycles (mixed (2 ^ k)) (0 ≤ ·) (residues (2 ^ k)) := by
  intro x positive
  have length : (residues (2 ^ k)).length = 2 ^ k := by simp [residues]
  rw [length]
  have nodup : (orbit (mixed (2 ^ k)) (2 ^ k) x).Nodup := by
    rw [List.nodup_iff_injective_get]
    rintro ⟨i, hi⟩ ⟨j, hj⟩ same
    simp only [List.get_eq_getElem, orbitGet] at same
    rw [orbitLength] at hi hj
    exact Fin.ext (mixedInjective k positive hi hj same)
  have inside : orbit (mixed (2 ^ k)) (2 ^ k) x ⊆ residues (2 ^ k) := by
    intro y member
    obtain ⟨i, hi, rfl⟩ := List.mem_iff_getElem.mp member
    rw [orbitGet, Function.iterate_succ_apply']
    have bound := mixedRange (m := 2 ^ k) (by positivity)
      (mixedIterateRange (m := 2 ^ k) (by positivity) positive i)
    generalize mixed (2 ^ k) ((mixed (2 ^ k))^[i] x) = y at bound
    refine List.mem_map.mpr ⟨y.toNat, List.mem_range.mpr ?_, Int.toNat_of_nonneg bound.1⟩
    have := bound.2
    zify
    rw [Int.toNat_of_nonneg bound.1]
    exact_mod_cast this
  exact (nodup.subperm inside).perm_of_length_le (by simp [residues])

end Mixed

/-! x ↦ g x modulo a prime p: if g has order p-1, every nonzero residue is met again and again. -/
section Multiplicative
variable {p : ℕ} [Fact p.Prime] {g : ZMod p}

theorem primitivePowers (primitive : orderOf g = p - 1) {t : ZMod p} (nonzero : t ≠ 0) :
    ∃ i, g ^ i = t := by
  have two := (Fact.out : p.Prime).two_le
  have g0 : g ≠ 0 := by
    rintro rfl
    have finite := orderOf_pos_iff.mp (by omega : 0 < orderOf (0 : ZMod p))
    exact not_isUnit_zero (IsOfFinOrder.isUnit finite)
  have unitOrder : orderOf (Units.mk0 g g0) = Nat.card (ZMod p)ˣ := by
    rw [← orderOf_units, Units.val_mk0, primitive, Nat.card_eq_fintype_card, ZMod.card_units]
  have all : Units.mk0 t nonzero ∈ Submonoid.powers (Units.mk0 g g0) := by
    rw [mem_powers_iff_mem_zpowers, Subgroup.eq_top_of_card_eq (Subgroup.zpowers (Units.mk0 g g0))
      (by rw [Nat.card_zpowers, unitOrder])]
    exact Subgroup.mem_top _
  obtain ⟨i, hi⟩ := all
  exact ⟨i, by simpa using congrArg Units.val hi⟩

theorem primitiveReturns (primitive : orderOf g = p - 1) {s t : ZMod p} (hs : s ≠ 0) (ht : t ≠ 0)
    (least : ℕ) : ∃ i, least ≤ i ∧ s * g ^ i = t := by
  obtain ⟨i, hi⟩ := primitivePowers primitive (div_ne_zero ht hs)
  have two := (Fact.out : p.Prime).two_le
  refine ⟨i + (p - 1) * least, ?_, ?_⟩
  · have : least ≤ (p - 1) * least := Nat.le_mul_of_pos_left least (by omega)
    omega
  · rw [pow_add, pow_mul, ← primitive, pow_orderOf_eq_one, one_pow, mul_one, hi, mul_div_cancel₀ _ hs]

end Multiplicative
end PgAdmin.Congruential
