import PgAdmin.PgsGenerators

/-! The sequential randomizer, block by block. A chunk of at most 1000 picks is shuffled and
drained; the remainder counter cuts the picks into sweeps of `range` values, and one sweep of
the rejection loop is one round of the accepted residues. -/
namespace PgAdmin.PgsGenerators.PgsSequentialIntGen
open Congruential

def idle (g : PgsSequentialIntGen) (state remainder : ℤ) : PgsSequentialIntGen :=
  {g with state := state, remainder := remainder, buffer := #[]}

theorem drain (fuel : ℕ) (g : PgsSequentialIntGen) (started : g.remainder ≠ 0) {k : ℕ}
    (size : g.buffer.size = k) :
    draws (random fuel) k g =
      some (g.buffer.toList.reverse, g.idle g.state g.remainder) := by
  induction k generalizing g with
  | zero =>
    have empty : g.buffer = #[] := Array.eq_empty_of_size_eq_zero size
    simp [draws, idle, empty]
    rw [← empty]
  | succ k ih =>
    obtain ⟨rest, x, pushed⟩ := Array.eq_push_of_size_ne_zero (by omega : g.buffer.size ≠ 0)
    have one : random fuel g = some (x, {g with buffer := rest}) := by
      simp [random, restart, started, pushed]
    have short : rest.size = k := by simpa [pushed] using size
    refine drawsCons.mpr ⟨_, _, one, ih {g with buffer := rest} started short, ?_⟩
    simp [idle, pushed]

theorem restartBuffer (g : PgsSequentialIntGen) : (restart g).buffer = g.buffer := by
  unfold restart; split <;> rfl

theorem restartStarted {g : PgsSequentialIntGen} (positive : 0 < g.range) :
    (restart g).remainder ≠ 0 := by
  unfold restart
  split
  · exact positive.ne'
  · assumption

theorem randomRefill {fuel : ℕ} {g full : PgsSequentialIntGen} (empty : g.buffer.size = 0)
    (ok : refill fuel g = some full) (filled : full.buffer.size ≠ 0)
    (positive : 0 < full.range) : random fuel g = random fuel (restart full) := by
  have again : restart (restart full) = restart full :=
    if_neg (restartStarted positive)
  simp only [random, if_pos empty, ok, restartBuffer, if_neg filled, again, bind, Option.bind_some]

theorem chunk {fuel count : ℕ} {g : PgsSequentialIntGen} {state remainder : ℤ}
    {vs : List ℤ} {last : ℤ} (positive : 0 < g.range)
    (size : (min remainder bufferSize).toNat = count) (nonempty : 0 < count)
    (ok : picks g.next g.accepted fuel count state = some (vs, last)) :
    ∃ outs, outs.Perm vs ∧ draws (random fuel) count (g.idle state remainder) =
      some (outs, g.idle last (if remainder - count = 0 then g.range else remainder - count)) := by
  let full : PgsSequentialIntGen :=
    {g with state := last, remainder := remainder - count, buffer := shuffle vs.toArray}
  have length : full.buffer.size = count := by
    have same := (shufflePerm vs.toArray).length_eq
    simpa [drawsLength ok] using same
  have made : refill fuel (g.idle state remainder) = some full := by
    simp only [refill, idle, size]
    change (picks g.next g.accepted fuel count state).bind _ = _
    rw [ok]
    rfl
  have first := randomRefill (g := g.idle state remainder) rfl made (by omega) positive
  have drained := drain fuel (restart full) (restartStarted positive) (k := count)
    (by rw [restartBuffer, length])
  refine ⟨full.buffer.toList.reverse, ?_, ?_⟩
  · exact (List.reverse_perm _).trans (shufflePerm vs.toArray)
  · obtain ⟨count, rfl⟩ : ∃ n, count = n + 1 := ⟨count - 1, by omega⟩
    obtain ⟨one, rest, hone, hrest, all⟩ := drawsCons.mp drained
    refine drawsCons.mpr ⟨one, rest, first.trans hone, hrest, ?_⟩
    rw [← all, restartBuffer]
    simp only [idle, restart, full]
    split <;> rfl

theorem sweep {fuel : ℕ} {g : PgsSequentialIntGen} (positive : 0 < g.range) (count : ℕ)
    (nonempty : 0 < count) {state last : ℤ} {vs : List ℤ}
    (ok : picks g.next g.accepted fuel count state = some (vs, last)) :
    ∃ outs, outs.Perm vs ∧
      draws (random fuel) count (g.idle state count) = some (outs, g.idle last g.range) := by
  induction count using Nat.strong_induction_on generalizing state vs with
  | _ count ih =>
    by_cases small : count ≤ bufferSize
    · obtain ⟨outs, perm, drawn⟩ := chunk positive (by omega : (min (count : ℤ) bufferSize).toNat = count) nonempty ok
      exact ⟨outs, perm, by simpa using drawn⟩
    · have split : count = bufferSize + (count - bufferSize) := by omega
      rw [split] at ok
      obtain ⟨middle, before, after⟩ := drawsSplit ok
      have buffered : 0 < bufferSize := by decide
      obtain ⟨left, permLeft, drawnLeft⟩ :=
        chunk positive (by omega : (min (count : ℤ) bufferSize).toNat = bufferSize) buffered before
      rw [if_neg (by omega), show (count : ℤ) - bufferSize = ((count - bufferSize : ℕ) : ℤ) by omega]
        at drawnLeft
      obtain ⟨right, permRight, drawnRight⟩ :=
        ih (count - bufferSize) (by omega) (by omega) after
      have joined := drawsAppend drawnLeft drawnRight
      rw [← split] at joined
      refine ⟨left ++ right, ?_, joined⟩
      exact (permLeft.append permRight).trans (by rw [List.take_append_drop])

/-! One sweep from a nonnegative state is a permutation of 0 .. range-1. -/

theorem nextMixed (range seed : ℤ) : (create range seed).next = mixed (modulus range) := rfl

theorem filterRange {n m : ℕ} (le : n ≤ m) :
    (List.range m).filter (fun i => decide (i < n)) = List.range n := by
  obtain ⟨d, rfl⟩ := Nat.exists_eq_add_of_le le
  rw [List.range_add, List.filter_append, List.filter_eq_self.mpr, List.filter_eq_nil_iff.mpr,
    List.append_nil]
  · intro i member
    obtain ⟨j, _, rfl⟩ := List.mem_map.mp member
    simp
  · intro i member
    simpa using member

theorem residuesAccepted {range : ℤ} (seed : ℤ) {m : ℕ} (reached : range ≤ m) :
    (residues m).filter (create range seed).accepted = residues range.toNat := by
  have keep : ∀ i : ℕ, (create range seed).accepted (Int.ofNat i) = decide (i < range.toNat) := by
    intro i
    simp only [accepted, create, Int.ofNat_eq_natCast]
    congr 1
    simp only [eq_iff_iff]
    omega
  simp only [residues, List.filter_map, Function.comp_def, keep]
  rw [filterRange (by omega : range.toNat ≤ m)]

theorem sweepResidues {range state : ℤ} (seed : ℤ) (positive : 1 ≤ range) (hs : 0 ≤ state) :
    ∃ outs last, outs.Perm (residues range.toNat) ∧ 0 ≤ last ∧
      draws (random (modulus range).toNat) range.toNat ((create range seed).idle state range) =
        some (outs, (create range seed).idle last range) := by
  obtain ⟨k, power, reached⟩ := modulusReaches range
  have round := mixedCycles (k + 1)
  obtain ⟨ys, last, picked, perm⟩ :=
    picksCycle (p := (create range seed).accepted) round (x := state) hs
  rw [residuesAccepted seed (by exact_mod_cast reached)] at picked perm
  simp only [residues, List.length_map, List.length_range] at picked
  rw [← power, ← nextMixed range seed] at picked
  have fuel : (modulus range).toNat = 2 ^ (k + 1) := by rw [power]; rfl
  rw [fuel]
  obtain ⟨outs, order, drawn⟩ :=
    sweep (g := create range seed) (by simp [create]; omega) range.toNat (by omega) picked
  rw [Int.toNat_of_nonneg (by omega)] at drawn
  refine ⟨outs, last, order.trans perm, ?_, drawn⟩
  obtain ⟨n, hn⟩ : ∃ n, range.toNat = n + 1 := ⟨range.toNat - 1, by omega⟩
  rw [hn] at picked
  have member := perm.mem_iff.mp (picksLast picked)
  obtain ⟨i, _, rfl⟩ := List.mem_map.mp member
  exact Int.natCast_nonneg i

theorem sweepsResidues {range : ℤ} (seed : ℤ) (positive : 1 ≤ range) (blocks : ℕ) {state : ℤ}
    (hs : 0 ≤ state) :
    ∃ outs last, draws (random (modulus range).toNat) (blocks * range.toNat)
        ((create range seed).idle state range) = some (outs, (create range seed).idle last range) ∧
      ∀ i < blocks,
        ((outs.drop (i * range.toNat)).take range.toNat).Perm (residues range.toNat) := by
  induction blocks generalizing state with
  | zero => exact ⟨[], state, by simp [draws], by simp⟩
  | succ blocks ih =>
    obtain ⟨block, middle, perm, hm, first⟩ := sweepResidues seed positive hs
    obtain ⟨rest, last, later, each⟩ := ih hm
    have length := drawsLength first
    refine ⟨block ++ rest, last, ?_, ?_⟩
    · rw [Nat.succ_mul, Nat.add_comm]
      exact drawsAppend first later
    · intro i inside
      cases i with
      | zero => simpa [← length] using perm
      | succ i =>
        have skip : (i + 1) * range.toNat = block.length + i * range.toNat := by
          rw [length, Nat.succ_mul, Nat.add_comm]
        rw [skip, ← List.drop_drop, List.drop_left]
        exact each i (by omega)

/-- Every range from 1 on and every nonnegative seed: no draw hangs in the rejection loop (a
turn for each residue is enough), and each block of `range` values is 0 .. range-1 in some order. -/
theorem sequentialBlocks (range seed : ℤ) (positive : 1 ≤ range) (hs : 0 ≤ seed) (blocks : ℕ) :
    ∃ outs g, draws (random (modulus range).toNat) (blocks * range.toNat) (create range seed) =
        some (outs, g) ∧
      ∀ i < blocks,
        ((outs.drop (i * range.toNat)).take range.toNat).Perm (residues range.toNat) := by
  obtain ⟨outs, last, drawn, each⟩ := sweepsResidues seed positive blocks hs
  exact ⟨outs, _, drawn, each⟩

theorem sequentialBlocksThree : ∃ outs g,
    draws (random (modulus 3).toNat) (2 * 3) (create 3 1700000000) = some (outs, g) ∧
      ∀ i < 2, ((outs.drop (i * 3)).take 3).Perm (residues 3) :=
  sequentialBlocks 3 1700000000 (by decide) (by decide) 2

end PgAdmin.PgsGenerators.PgsSequentialIntGen
