import Mathlib.Data.List.Count
import Mathlib.Logic.Basic

/-! Handles a program gets, reads and clears. -/
namespace PgAdmin.Handles

inductive Op (H : Type*) where
  | got (h : H)
  | read (h : H)
  | clear (h : H)
  deriving DecidableEq

def Op.handle {H : Type*} : Op H → H
  | .got h => h
  | .read h => h
  | .clear h => h

variable {H : Type*} {ops : List (Op H)}

def Live (ops : List (Op H)) (h : H) : Prop := .got h ∈ ops ∧ .clear h ∉ ops

inductive Proper : List (Op H) → Prop where
  | nil : Proper []
  | got {ops : List (Op H)} {h : H} (before : Proper ops) (fresh : .got h ∉ ops) : Proper (ops ++ [.got h])
  | read {ops : List (Op H)} {h : H} (before : Proper ops) (live : Live ops h) : Proper (ops ++ [.read h])
  | clear {ops : List (Op H)} {h : H} (before : Proper ops) (live : Live ops h) : Proper (ops ++ [.clear h])

theorem Proper.known (proper : Proper ops) : ∀ op ∈ ops, .got op.handle ∈ ops := by
  induction proper with
  | nil => exact fun op none => absurd none List.not_mem_nil
  | got before fresh ih =>
    intro op member
    rcases List.mem_append.mp member with earlier | last
    · exact List.mem_append_left _ (ih op earlier)
    · cases List.mem_singleton.mp last
      exact member
  | read before live ih | clear before live ih =>
    intro op member
    rcases List.mem_append.mp member with earlier | last
    · exact List.mem_append_left _ (ih op earlier)
    · cases List.mem_singleton.mp last
      exact List.mem_append_left _ live.1

theorem Proper.unknown (proper : Proper ops) {h : H} (fresh : .got h ∉ ops) : .clear h ∉ ops :=
  fun cleared => fresh (proper.known _ cleared)

theorem liveGot (proper : Proper ops) {h : H} (fresh : .got h ∉ ops) (g : H) :
    Live (ops ++ [.got h]) g ↔ g = h ∨ Live ops g := by
  have new := proper.unknown fresh
  simp only [Live, List.mem_append, List.mem_singleton, Op.got.injEq, reduceCtorEq, or_false]
  constructor
  · rintro ⟨earlier | rfl, open_⟩
    · exact .inr ⟨earlier, open_⟩
    · exact .inl rfl
  · rintro (rfl | ⟨earlier, open_⟩)
    · exact ⟨.inr rfl, new⟩
    · exact ⟨.inl earlier, open_⟩

theorem liveRead (h g : H) : Live (ops ++ [.read h]) g ↔ Live ops g := by simp [Live]

theorem liveClear (h g : H) : Live (ops ++ [.clear h]) g ↔ g ≠ h ∧ Live ops g := by
  simp only [Live, List.mem_append, List.mem_singleton, Op.clear.injEq, reduceCtorEq, or_false]
  tauto

theorem Proper.after (proper : Proper ops) {before after : List (Op H)} {h : H}
    (split : ops = before ++ .clear h :: after) : ∀ op ∈ after, op.handle ≠ h := by
  induction proper generalizing after with
  | nil => simp at split
  | got earlier fresh ih | read earlier live ih | clear earlier live ih =>
    rcases List.eq_nil_or_concat after with rfl | ⟨after, last, rfl⟩
    · exact fun op none => absurd none List.not_mem_nil
    · rw [List.concat_eq_append, ← List.cons_append, ← List.append_assoc] at split
      obtain ⟨rfl, same⟩ := List.append_inj' split rfl
      cases List.singleton_inj.mp same
      have member : Op.clear h ∈ before ++ .clear h :: after := by simp
      intro op inside
      rw [List.concat_eq_append] at inside
      rcases List.mem_append.mp inside with inner | last
      · exact ih rfl op inner
      · cases List.mem_singleton.mp last
        rintro rfl
        first
          | exact fresh (earlier.known _ member)
          | exact live.2 member

variable [DecidableEq H]

theorem Proper.once (proper : Proper ops) (h : H) : ops.count (.clear h) ≤ 1 := by
  induction proper with
  | nil => exact Nat.zero_le _
  | got before fresh ih | read before live ih => simpa using ih
  | @clear ops g before live ih =>
    rw [List.count_append]
    by_cases same : g = h
    case pos =>
      rw [List.count_eq_zero.mpr (same ▸ live.2), Nat.zero_add]
      exact List.count_le_length
    case neg =>
      rw [List.count_singleton, if_neg (by simpa using same)]
      exact ih

theorem Proper.settled (proper : Proper ops) {owner : Option H} (alive : ∀ h, owner = some h → Live ops h) :
    (∀ h, .got h ∈ ops → ops.count (.clear h) = 1 ∧ owner ≠ some h ∨ ops.count (.clear h) = 0 ∧ owner = some h) ↔
      ∀ h, Live ops h → owner = some h := by
  refine forall_congr' fun h => ⟨fun each live => ?_, fun only got => ?_⟩
  · rcases each live.1 with ⟨cleared, -⟩ | ⟨-, owned⟩
    · rw [List.count_eq_zero.mpr live.2] at cleared
      cases cleared
    · exact owned
  · by_cases cleared : Op.clear h ∈ ops
    case pos =>
      have once := proper.once h
      have some_ := List.count_pos_iff.mpr cleared
      exact .inl ⟨by omega, fun owned => (alive h owned).2 cleared⟩
    case neg => exact .inr ⟨List.count_eq_zero.mpr cleared, only ⟨got, cleared⟩⟩

end PgAdmin.Handles
