import Mathlib.Data.List.Nodup
import Mathlib.Logic.Function.Basic

/-! Links that are listed at the thing they hang on, say at one of their ends. Hanging a link on its thing
and taking it off keep the lists in agreement with the links. -/
namespace LinkLists
variable {E L V : Type}

def Fibre (es : List E) (P : E → Prop) : Prop := es.Nodup ∧ ∀ e, e ∈ es ↔ P e

def Listed (link : E → Option L) (side : L → V) (lists : V → List E) : Prop :=
  ∀ v, Fibre (lists v) fun e => ∃ l, link e = some l ∧ side l = v

variable {es : List E} {P Q : E → Prop}

theorem Fibre.congr (fibre : Fibre es P) (same : ∀ e, P e ↔ Q e) : Fibre es Q :=
  ⟨fibre.1, fun e => (fibre.2 e).trans (same e)⟩

theorem Fibre.append (fibre : Fibre es P) {e : E} (new : ¬ P e) : Fibre (es ++ [e]) fun x => P x ∨ x = e := by
  refine ⟨List.nodup_append'.mpr ⟨fibre.1, List.nodup_singleton e, fun x old same => new ?_⟩, fun x => ?_⟩
  · exact List.mem_singleton.mp same ▸ (fibre.2 x).mp old
  · rw [List.mem_append, fibre.2, List.mem_singleton]

variable [DecidableEq E]

theorem Fibre.erase (fibre : Fibre es P) (e : E) : Fibre (es.erase e) fun x => P x ∧ x ≠ e := by
  refine ⟨fibre.1.erase e, fun x => ?_⟩
  rw [fibre.1.mem_erase_iff, fibre.2, and_comm]

theorem Fibre.count (fibre : Fibre es P) {e : E} (listed : P e) : es.count e = 1 :=
  List.count_eq_one_of_mem fibre.1 ((fibre.2 e).mpr listed)

variable [DecidableEq V] {link : E → Option L} {side : L → V} {lists : V → List E} {e : E}

theorem Listed.linked (listed : Listed link side lists) (new : link e = none) (l : L) :
    Listed (Function.update link e (some l)) side
      (Function.update lists (side l) (lists (side l) ++ [e])) := by
  intro v
  by_cases own : v = side l
  · subst own
    have unlisted : ¬ ∃ l', link e = some l' ∧ side l' = side l := fun ⟨_, here, _⟩ => by
      cases new.symm.trans here
    rw [Function.update_self]
    refine ((listed (side l)).append unlisted).congr fun x => ?_
    by_cases same : x = e
    · subst same
      simp
    · simp [same]
  · rw [Function.update_of_ne own]
    refine (listed v).congr fun x => ?_
    by_cases same : x = e
    · subst same
      simp [new, Ne.symm own]
    · rw [Function.update_of_ne same]

theorem Listed.unlinked (listed : Listed link side lists) {l : L} (here : link e = some l) :
    Listed (Function.update link e none) side
      (Function.update lists (side l) ((lists (side l)).erase e)) := by
  intro v
  by_cases own : v = side l
  · subst own
    rw [Function.update_self]
    refine ((listed (side l)).erase e).congr fun x => ?_
    by_cases same : x = e
    · subst same
      simp
    · simp [same]
  · rw [Function.update_of_ne own]
    refine (listed v).congr fun x => ?_
    by_cases same : x = e
    · subst same
      simp [here, Ne.symm own]
    · rw [Function.update_of_ne same]

end LinkLists
