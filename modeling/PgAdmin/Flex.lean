import PgAdmin.Regular

/-! The choice of a rule in a scanner that flex generates: of all rules the one with the longest match, of
several with the same the first. -/
namespace PgAdmin.Flex
open Regular
variable {α A : Type}

def next : List (Regular α × A) → List α → Option (A × ℕ)
  | [], _ => none
  | (r, action) :: rules, s =>
    match r.longest s, next rules s with
    | none, later => later
    | some n, none => some (action, n)
    | some n, some (later, m) => if n < m then some (later, m) else some (action, n)

variable {r : Regular α} {action : A} {rules : List (Regular α × A)} {s : List α} {n : ℕ}

theorem nextFirst (longest : r.longest s = some n) (others : ∀ a m, next rules s = some (a, m) → m ≤ n) :
    next ((r, action) :: rules) s = some (action, n) := by
  rw [next, longest]
  cases later : next rules s with
  | none => rfl
  | some choice =>
    obtain ⟨a, m⟩ := choice
    exact if_neg (Nat.not_lt_of_le (others a m later))

theorem nextLater (none : r.longest s = none) : next ((r, action) :: rules) s = next rules s := by
  rw [next, none]

theorem nextMem (chosen : next rules s = some (action, n)) :
    ∃ r, (r, action) ∈ rules ∧ r.longest s = some n := by
  induction rules generalizing action n with
  | nil => cases chosen
  | cons rule rules ih =>
    obtain ⟨r, first⟩ := rule
    rw [next] at chosen
    split at chosen
    case h_1 =>
      obtain ⟨later, member, longest⟩ := ih chosen
      exact ⟨later, List.mem_cons_of_mem _ member, longest⟩
    case h_2 longest none =>
      cases chosen
      exact ⟨r, List.mem_cons_self, longest⟩
    case h_3 n later m longest found =>
      split at chosen
      · cases chosen
        obtain ⟨other, member, longest⟩ := ih found
        exact ⟨other, List.mem_cons_of_mem _ member, longest⟩
      · cases chosen
        exact ⟨r, List.mem_cons_self, longest⟩

theorem testLongest (p : α → Bool) (c : α) (s : List α) :
    (test p).longest (c :: s) = if p c then some 1 else none := by
  have never : ∀ s : List α, (Regular.never : Regular α).longest s = none := fun s =>
    longestNone.mpr fun _ _ member => member
  by_cases holds : p c
  · have empty : ∀ s : List α, (Regular.empty : Regular α).longest s = some 0 := by
      intro s
      cases s with
      | nil => rfl
      | cons c s => rw [longest, Regular.deriv, never]; rfl
    rw [longest, Regular.deriv, if_pos holds, empty, if_pos holds]
  · rw [longest, Regular.deriv, if_neg holds, never, if_neg holds]
    rfl

end PgAdmin.Flex
