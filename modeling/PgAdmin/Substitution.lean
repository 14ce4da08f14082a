import Mathlib

/-! Replacing every occurrence of a pattern in a list, left to right and without overlaps, as
string libraries do. A pattern of one letter is a substitution letter by letter; a code whose
letters stay apart from the pattern is read back by replacing it. -/
namespace PgAdmin.Substitution

section Replace
variable {α : Type} [DecidableEq α]

def replaceFrom (old new : List α) : ℕ → List α → List α
  | _, [] => []
  | skip + 1, _ :: s => replaceFrom old new skip s
  | 0, c :: s =>
    if old.isPrefixOf (c :: s) then new ++ replaceFrom old new (old.length - 1) s
    else c :: replaceFrom old new 0 s

def replaceAll (old new s : List α) : List α := replaceFrom old new 0 s

@[simp] theorem replaceAllNil (old new : List α) : replaceAll old new [] = [] := rfl

theorem replaceFromSkip (old new s : List α) (skip : ℕ) :
    replaceFrom old new skip s = replaceAll old new (s.drop skip) := by
  induction s generalizing skip with
  | nil => simp [replaceFrom]
  | cons c s ih =>
    cases skip with
    | zero => rfl
    | succ skip => exact ih skip

theorem replaceAllHit {old : List α} (nonempty : old ≠ []) (new s : List α) :
    replaceAll old new (old ++ s) = new ++ replaceAll old new s := by
  obtain ⟨c, rest, rfl⟩ := List.exists_cons_of_ne_nil nonempty
  have here : (c :: rest).isPrefixOf (c :: (rest ++ s)) = true :=
    List.isPrefixOf_iff_prefix.mpr ⟨s, rfl⟩
  rw [replaceAll, List.cons_append, replaceFrom, if_pos here, replaceFromSkip]
  simp

theorem replaceAllMiss {old new s : List α} {c : α} (miss : ¬ old <+: c :: s) :
    replaceAll old new (c :: s) = c :: replaceAll old new s := by
  rw [replaceAll, replaceFrom, if_neg (by rwa [List.isPrefixOf_iff_prefix])]
  rfl

theorem replaceLetter (a : α) (new s : List α) :
    replaceAll [a] new s = s.flatMap fun c => if c = a then new else [c] := by
  induction s with
  | nil => rfl
  | cons c s ih =>
    rw [List.flatMap_cons, ← ih]
    by_cases same : c = a
    · rw [if_pos same, same]
      exact replaceAllHit (List.cons_ne_nil a []) new s
    · rw [if_neg same, replaceAllMiss (by simpa using fun h => same h.symm)]
      rfl

end Replace
end PgAdmin.Substitution
