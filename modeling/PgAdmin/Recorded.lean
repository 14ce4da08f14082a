import Mathlib.Tactic.TypeStar

/-! Computations that record entries as they go, and may stop before they have a result. -/
namespace PgAdmin

structure Recorded (ω ε α : Type) where
  entries : List ω
  result : Except ε α

namespace Recorded
variable {ω ε α β : Type}

instance : Monad (Recorded ω ε) where
  pure a := ⟨[], .ok a⟩
  bind m f :=
    match m.result with
    | .ok a => ⟨m.entries ++ (f a).entries, (f a).result⟩
    | .error e => ⟨m.entries, .error e⟩

def record (w : ω) : Recorded ω ε Unit := ⟨[w], .ok ()⟩

def stop (e : ε) : Recorded ω ε α := ⟨[], .error e⟩

structure Holds (q : ω → Prop) (p : α → Prop) (m : Recorded ω ε α) : Prop where
  entries : ∀ w ∈ m.entries, q w
  result : ∀ a, m.result = .ok a → p a

namespace Holds
variable {q : ω → Prop} {p : α → Prop} {r : β → Prop} {m : Recorded ω ε α} {f : α → Recorded ω ε β}

theorem pure {a : α} (holds : p a) : Holds q p (Pure.pure a : Recorded ω ε α) := by
  refine ⟨fun w member => absurd member List.not_mem_nil, fun b same => ?_⟩
  cases same
  exact holds

theorem stop (e : ε) : Holds q p (stop e : Recorded ω ε α) :=
  ⟨fun _ member => absurd member List.not_mem_nil, fun _ same => by cases same⟩

theorem record {w : ω} (holds : q w) : Holds q (fun _ => True) (record w : Recorded ω ε Unit) := by
  refine ⟨fun v member => ?_, fun _ _ => trivial⟩
  rw [List.mem_singleton.mp member]
  exact holds

theorem bind (first : Holds q p m) (next : ∀ a, p a → Holds q r (f a)) : Holds q r (m >>= f) := by
  obtain ⟨entries, result⟩ := m
  cases result with
  | error e => exact ⟨first.entries, fun _ same => by cases same⟩
  | ok a =>
    have rest := next a (first.result a rfl)
    refine ⟨fun w member => ?_, rest.result⟩
    rcases List.mem_append.mp member with before | after
    · exact first.entries w before
    · exact rest.entries w after

theorem weaken {p' : α → Prop} (first : Holds q p m) (weaker : ∀ a, p a → p' a) : Holds q p' m :=
  ⟨first.entries, fun a same => weaker a (first.result a same)⟩

end Holds
end Recorded
end PgAdmin
