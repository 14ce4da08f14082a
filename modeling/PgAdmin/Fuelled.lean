import Mathlib.Data.Fintype.Card

/-! Recursions with a bound on their steps. One ends when from some bound on it gives the same
answer; it never ends when no bound is enough. -/
namespace PgAdmin.Fuelled

variable {A B X : Type}

def Ends (run : ℕ → Option A) (good : A → Prop) : Prop :=
  ∃ a, good a ∧ ∃ enough, ∀ n, enough ≤ n → run n = some a

def Never (run : ℕ → Option A) : Prop := ∀ n, run n = none

theorem Ends.pure {a : A} {good : A → Prop} (here : good a) : Ends (fun _ => some a) good :=
  ⟨a, here, 0, fun _ _ => rfl⟩

theorem Ends.mono {run : ℕ → Option A} {good better : A → Prop} (ends : Ends run good)
    (more : ∀ a, good a → better a) : Ends run better := by
  obtain ⟨a, here, enough⟩ := ends
  exact ⟨a, more a here, enough⟩

/- What every answer has. -/
theorem Ends.also {run : ℕ → Option A} {good also : A → Prop} (ends : Ends run good)
    (each : ∀ n a, run n = some a → also a) : Ends run fun a => good a ∧ also a := by
  obtain ⟨a, here, enough, ran⟩ := ends
  exact ⟨a, ⟨here, each enough a (ran enough le_rfl)⟩, enough, ran⟩

theorem Ends.congr {run other : ℕ → Option A} {good : A → Prop} (ends : Ends run good)
    (same : ∀ n, other n = run n) : Ends other good := by
  obtain ⟨a, here, enough, ran⟩ := ends
  exact ⟨a, here, enough, fun n large => (same n).trans (ran n large)⟩

theorem Ends.bind {run : ℕ → Option A} {next : A → ℕ → Option B} {good : A → Prop}
    {better : B → Prop} (first : Ends run good) (second : ∀ a, good a → Ends (next a) better) :
    Ends (fun n => (run n).bind fun a => next a n) better := by
  obtain ⟨a, here, enough, ran⟩ := first
  obtain ⟨b, there, enough', ran'⟩ := second a here
  refine ⟨b, there, max enough enough', fun n large => ?_⟩
  simp only [ran n (le_of_max_le_left large), Option.bind_some]
  exact ran' n (le_of_max_le_right large)

theorem Ends.level {run next : ℕ → Option A} {good : A → Prop} (ends : Ends next good)
    (unfolded : ∀ n, run (n + 1) = next n) : Ends run good := by
  obtain ⟨a, here, enough, ran⟩ := ends
  refine ⟨a, here, enough + 1, fun n large => ?_⟩
  obtain ⟨k, rfl⟩ : ∃ k, n = k + 1 := ⟨n - 1, by omega⟩
  rw [unfolded]
  exact ran k (by omega)

theorem Ends.foldlM {step : A → X → ℕ → Option A} {xs : List X} {a : A}
    (good : List X → A → Prop) (start : good [] a)
    (each : ∀ front x back, xs = front ++ x :: back → ∀ a, good front a →
      Ends (step a x) (good (front ++ [x]))) :
    Ends (fun n => xs.foldlM (fun a x => step a x n) a) (good xs) := by
  have rest : ∀ (back front : List X), xs = front ++ back → ∀ a, good front a →
      Ends (fun n => back.foldlM (fun a x => step a x n) a) (good xs) := by
    intro back
    induction back with
    | nil =>
      intro front split a here
      rw [split, List.append_nil]
      exact .pure here
    | cons x back ih =>
      intro front split a here
      exact (each front x back split a here).bind fun b there =>
        ih (front ++ [x]) (by rw [split]; simp) b there
  exact rest xs [] rfl a start

theorem neverFoldlM {step : A → X → Option A} {xs : List X} {x : X} (member : x ∈ xs)
    (never : ∀ a, step a x = none) (a : A) : xs.foldlM step a = none := by
  induction xs generalizing a with
  | nil => exact absurd member List.not_mem_nil
  | cons y xs ih =>
    rw [List.foldlM_cons]
    cases here : step a y with
    | none => rfl
    | some b =>
      rcases List.mem_cons.mp member with rfl | member
      · rw [never a] at here
        exact absurd here (Option.some_ne_none b).symm
      · exact ih member b

theorem keptFoldlM {keeps : A → A → Prop} (refl : ∀ a, keeps a a)
    (trans : ∀ a b c, keeps a b → keeps b c → keeps a c) {step : A → X → Option A} {xs : List X}
    (each : ∀ x ∈ xs, ∀ a b, step a x = some b → keeps a b) {a b : A} (ran : xs.foldlM step a = some b) :
    keeps a b := by
  induction xs generalizing a with
  | nil => exact Option.some.inj ran ▸ refl a
  | cons x xs ih =>
    rw [List.foldlM_cons] at ran
    obtain ⟨c, first, rest⟩ := Option.bind_eq_some_iff.mp ran
    exact trans a c b (each x List.mem_cons_self a c first)
      (ih (fun y member => each y (List.mem_cons_of_mem x member)) rest)

theorem accessible {N : Type} [Finite N] {edge : N → N → Prop} {t : N}
    (free : ∀ u, Relation.ReflTransGen edge t u → ¬ Relation.TransGen edge u u) :
    Acc (fun u v => edge v u) t := by
  let below : N → N → Prop := fun u v =>
    Relation.ReflTransGen edge t v ∧ Relation.TransGen edge v u
  have trans : IsTrans N below := ⟨fun u v w first second =>
    ⟨second.1, second.2.trans first.2⟩⟩
  have irrefl : Std.Irrefl below := ⟨fun u here => free u here.1 here.2⟩
  have wf : WellFounded below := Finite.wellFounded_of_trans_of_irrefl _
  have all : ∀ u, Relation.ReflTransGen edge t u → Acc (fun u v => edge v u) u := by
    intro u
    induction u using wf.induction with
    | _ u ih =>
      intro reached
      refine ⟨u, fun v next => ih v ⟨reached, .single next⟩ (reached.tail next)⟩
  exact all t .refl

theorem cycleFree {N : Type} {edge : N → N → Prop} {t : N} (acc : Acc (fun u v => edge v u) t) :
    ∀ u, Relation.ReflTransGen edge t u → ¬ Relation.TransGen edge u u := by
  induction acc with
  | intro t _ ih =>
    intro u reached cycle
    rcases Relation.ReflTransGen.cases_head reached with rfl | ⟨v, next, rest⟩
    · obtain ⟨v, next, back⟩ := Relation.TransGen.head'_iff.mp cycle
      exact ih v next v .refl (Relation.TransGen.tail' back next)
    · exact ih v next u rest cycle

theorem reachedAccessible {N : Type} {edge : N → N → Prop} {t u : N} (acc : Acc (fun u v => edge v u) t)
    (reached : Relation.ReflTransGen edge t u) : Acc (fun u v => edge v u) u := by
  induction reached with
  | refl => exact acc
  | tail _ next ih => exact ih.inv next

end PgAdmin.Fuelled
