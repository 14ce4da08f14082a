import Mathlib.Data.List.Count
import Mathlib.Data.List.FinRange
import Mathlib.Data.List.Nodup
import Mathlib.Data.List.Perm.Subperm

/-! Matching the elements of one list with different places of another that have the same element, each with
the first place that is free. A choice is never taken back, and need not be: it succeeds exactly when the
first list is contained in the second as a multiset. -/
namespace FirstFit
variable {κ : Type} [DecidableEq κ]

def find (x : κ) (seen : List ℕ) : ℕ → List κ → Option ℕ
  | _, [] => none
  | j, y :: ys => if j ∉ seen ∧ x = y then some j else find x seen (j + 1) ys

def matchAll (ys : List κ) : List ℕ → List κ → Bool
  | _, [] => true
  | seen, x :: xs =>
    match find x seen 0 ys with
    | some j => matchAll ys (seen ++ [j]) xs
    | none => false

def free (seen : List ℕ) : ℕ → List κ → List κ
  | _, [] => []
  | j, y :: ys => if j ∈ seen then free seen (j + 1) ys else y :: free seen (j + 1) ys

omit [DecidableEq κ] in
theorem freeOutside (seen : List ℕ) {i j : ℕ} (below : i < j) (ys : List κ) :
    free (seen ++ [i]) j ys = free seen j ys := by
  induction ys generalizing j with
  | nil => rfl
  | cons y ys ih =>
    have other : j ≠ i := Nat.ne_of_gt below
    simp only [free, List.mem_append, List.mem_singleton, other, or_false, ih (Nat.lt_succ_of_lt below)]

omit [DecidableEq κ] in
theorem freeAll (j : ℕ) (ys : List κ) : free [] j ys = ys := by
  induction ys generalizing j with
  | nil => rfl
  | cons y ys ih => simp [free, ih]

theorem findLater {x : κ} {seen : List ℕ} {i j : ℕ} {ys : List κ} (found : find x seen j ys = some i) :
    j ≤ i := by
  induction ys generalizing j with
  | nil => cases found
  | cons y ys ih =>
    rw [find] at found
    split at found
    · cases found
      exact Nat.le_refl _
    · exact Nat.le_of_succ_le (ih found)

theorem findNone {x : κ} {seen : List ℕ} {j : ℕ} {ys : List κ} (missing : find x seen j ys = none) :
    x ∉ free seen j ys := by
  induction ys generalizing j with
  | nil => exact List.not_mem_nil
  | cons y ys ih =>
    rw [find] at missing
    split at missing
    · cases missing
    case isFalse other =>
      rw [free]
      split
      · exact ih missing
      case isFalse unseen =>
        refine List.not_mem_cons_of_ne_of_not_mem (fun same => other ⟨unseen, same⟩) (ih missing)

theorem findSome {x : κ} {seen : List ℕ} {i j : ℕ} {ys : List κ} (found : find x seen j ys = some i) :
    (free seen j ys).Perm (x :: free (seen ++ [i]) j ys) := by
  induction ys generalizing j with
  | nil => cases found
  | cons y ys ih =>
    rw [find] at found
    split at found
    case isTrue here =>
      cases found
      obtain ⟨unseen, rfl⟩ := here
      simp [free, unseen, freeOutside seen (Nat.lt_succ_self _)]
    case isFalse other =>
      have rest := ih found
      have apart : j ≠ i := Nat.ne_of_lt (findLater found)
      simp only [free, List.mem_append, List.mem_singleton, apart, or_false]
      split
      · exact rest
      · exact (rest.cons y).trans (.swap x y _)

theorem matchAllFree (ys : List κ) (seen : List ℕ) (xs : List κ) :
    matchAll ys seen xs = true ↔ xs.Subperm (free seen 0 ys) := by
  induction xs generalizing seen with
  | nil => simp [matchAll]
  | cons x xs ih =>
    rw [matchAll]
    cases found : find x seen 0 ys with
    | none =>
      refine ⟨fun no => absurd no Bool.false_ne_true, fun within => absurd ?_ (findNone found)⟩
      exact within.subset List.mem_cons_self
    | some j =>
      dsimp only
      rw [ih, (findSome found).subperm_left, List.subperm_cons]

theorem matchAllIff (ys xs : List κ) : matchAll ys [] xs = true ↔ xs.Subperm ys := by
  rw [matchAllFree, freeAll]

theorem subpermIff (xs ys : List κ) :
    xs.Subperm ys ↔ ∃ places : List ℕ, places.Nodup ∧ places.map (ys[·]?) = xs.map some := by
  constructor
  · intro within
    refine ⟨List.ofFn fun i => (within.idxInj i : ℕ), ?_, ?_⟩
    · exact List.nodup_ofFn.mpr fun i j same => within.idxInj_injective (Fin.ext same)
    · refine List.ext_getElem (by simp) fun i inside inside' => ?_
      have here := within.getElem_idxInj_eq_getElem (i := ⟨i, by simpa using inside'⟩)
      simp only [List.getElem_map, List.getElem_ofFn]
      rw [List.getElem?_eq_getElem (Fin.isLt _)]
      exact congrArg some here
  · rintro ⟨places, once, same⟩
    have inside : places ⊆ List.range ys.length := by
      intro j member
      have here : ys[j]? ∈ xs.map some := same ▸ List.mem_map_of_mem member
      obtain ⟨x, -, at_j⟩ := List.mem_map.mp here
      exact List.mem_range.mpr (List.getElem?_eq_some_iff.mp at_j.symm).1
    obtain ⟨picked, perm, sublist⟩ := List.subperm_of_subset once inside
    have chosen : (places.map (ys[·]?)).Subperm ((List.range ys.length).map (ys[·]?)) :=
      ⟨_, perm.map _, sublist.map _⟩
    have all : (List.range ys.length).map (ys[·]?) = ys.map some := by
      refine List.ext_getElem (by simp) fun i inside inside' => ?_
      simp
    rw [same, all] at chosen
    refine List.subperm_ext_iff.mpr fun x _ => ?_
    have counted := chosen.count_le (some x)
    rwa [List.count_map_of_injective _ _ (Option.some_injective κ),
      List.count_map_of_injective _ _ (Option.some_injective κ)] at counted

end FirstFit
