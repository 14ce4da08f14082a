import PgAdmin.ExplainRows

/-! Where a shape hangs. Each shape hangs under the most recent shape of smaller level, unless a
line that gave no shape has moved the climb past it. -/
namespace PgAdmin.ExplainCanvas
open PgsObjects (Text)
open ForestLayout (leaves)

def shapeLevels (steps : List PlanLine) : List ℕ :=
  steps.filterMap fun
    | .shape level _ => some level
    | _ => none

def skippedLevels (steps : List PlanLine) : List ℕ :=
  (steps.reverse.takeWhile fun
    | .shape _ _ => false
    | _ => true).filterMap fun
      | .absent level => some level
      | _ => none

/- The level of the most recent of these shapes that has a smaller one, the root's if there is
none. -/
def smallerLevel (levels : List ℕ) (level : ℕ) : ℕ := (levels.reverse.find? (· < level)).getD 0

/- No line without a shape stands between a shape and the one before unless its level is above the
level of the shape to hang under. -/
def NoneSkipped (steps : List PlanLine) : Prop :=
  ∀ (earlier later : List PlanLine) (level : ℕ) (line : Text),
    steps = earlier ++ .shape level line :: later →
    ∀ m ∈ skippedLevels earlier, smallerLevel (shapeLevels earlier) level < m

def draw (steps : List PlanLine) : Canvas := steps.foldl Canvas.addLine Canvas.root

theorem drawSnoc (steps : List PlanLine) (p : PlanLine) :
    draw (steps ++ [p]) = (draw steps).addLine p := by
  simp [draw]

def Leveled (steps : List PlanLine) : Prop :=
  ∀ p ∈ steps, ∀ level : ℕ, (p = .absent level ∨ ∃ line, p = .shape level line) → 0 < level

theorem Leveled.front {steps : List PlanLine} {p : PlanLine} (leveled : Leveled (steps ++ [p])) :
    Leveled steps := fun q member => leveled q (List.mem_append_left _ member)

theorem Leveled.last {steps : List PlanLine} {p : PlanLine} (leveled : Leveled (steps ++ [p])) :
    ∀ level : ℕ, (p = .absent level ∨ ∃ line, p = .shape level line) → 0 < level :=
  leveled p (by simp)

theorem classifyCases (tmp line : Text) : classify tmp line = .condition line ∨
    classify tmp line = .absent (lineLevel tmp line) ∨
    ∃ l, classify tmp line = .shape (lineLevel tmp line) l := by
  unfold classify
  simp only
  generalize (if lineLevel tmp line ≠ 1 then line.drop 4 else line) = rest
  split
  · exact .inl rfl
  · split
    · exact .inr (.inl rfl)
    · exact .inr (.inr ⟨rest, rfl⟩)

theorem classifyLeveled (tmp line : Text) {level : ℕ}
    (here : classify tmp line = .absent level ∨ ∃ l, classify tmp line = .shape level l) :
    0 < level := by
  have positive : 0 < lineLevel tmp line := Nat.succ_pos _
  rcases classifyCases tmp line with condition | absent | ⟨l, shape⟩
  · simp [condition] at here
  · simp only [absent, PlanLine.absent.injEq, reduceCtorEq, exists_const, or_false] at here
    exact here ▸ positive
  · simp only [shape, reduceCtorEq, PlanLine.shape.injEq, false_or] at here
    obtain ⟨_, same, -⟩ := here
    exact same ▸ positive

theorem planLinesLeveled (lines : List Text) : Leveled (planLines lines) := by
  induction lines using planLines.induct with
  | case1 =>
    unfold planLines
    exact fun p member => absurd member List.not_mem_nil
  | case2 tmp lines joined ih =>
    unfold planLines
    intro p member level here
    rcases List.mem_cons.mp member with rfl | member
    · exact classifyLeveled tmp _ here
    · exact ih p member level here

theorem drawSound {steps : List PlanLine} (leveled : Leveled steps) : (draw steps).Sound := by
  induction steps using List.reverseRecOn with
  | nil => exact .root
  | append_singleton steps p ih =>
    rw [drawSnoc]
    exact (ih leveled.front).addLine leveled.last

namespace Canvas

def Nearest (c : Canvas) (i u : ℕ) : Prop :=
  u < i ∧ c.level u < c.level i ∧ ∀ k, u < k → k < i → c.level i ≤ c.level k

def HungUnderNearest (c : Canvas) : Prop :=
  ∀ i, 0 < i → i < c.shapes.length → ∃ u, c.upper i = some u ∧ c.Nearest i u

theorem climbFromSkips {c : Canvas} {level : ℕ} (hung : c.HungUnderNearest)
    {steps last : ℕ} (inside : last < c.shapes.length) {k : ℕ}
    (after : c.climbFrom level steps last < k) (upTo : k ≤ last) : level ≤ c.level k := by
  induction steps generalizing last with
  | zero =>
    unfold climbFrom at after
    omega
  | succ steps ih =>
    unfold climbFrom at after
    split at after
    · rename_i up
      obtain ⟨u, child, before, -, between⟩ := hung last (Nat.pos_of_ne_zero up.1) inside
      rw [child, Option.getD_some] at after
      rcases le_or_gt k u with low | high
      · exact ih (before.trans inside) after low
      · rcases upTo.eq_or_lt with rfl | less
        · exact up.2
        · exact up.2.trans (between k high less)
    · omega

end Canvas

theorem drawLevels (steps : List PlanLine) :
    (draw steps).shapes.length = (shapeLevels steps).length + 1 ∧
      ∀ i, (draw steps).level i = (0 :: shapeLevels steps).getD i 0 := by
  induction steps using List.reverseRecOn with
  | nil =>
    refine ⟨rfl, fun i => ?_⟩
    cases i <;> simp [draw, Canvas.root, Canvas.level, shapeLevels]
  | append_singleton steps p ih =>
    obtain ⟨length, levels⟩ := ih
    rw [drawSnoc]
    cases p with
    | condition line => simpa [shapeLevels] using ⟨length, levels⟩
    | absent level => simpa [shapeLevels, Canvas.addLine, Canvas.level] using ⟨length, levels⟩
    | shape level line =>
      have more : shapeLevels (steps ++ [.shape level line]) = shapeLevels steps ++ [level] := by
        simp [shapeLevels]
      refine ⟨by simp [length, more], fun i => ?_⟩
      rcases lt_trichotomy i (draw steps).shapes.length with old | rfl | outside
      · rw [Canvas.shape_level_old old, levels, more, ← List.cons_append,
          List.getD_append _ _ _ _ (by simpa [length] using old)]
      · rw [Canvas.shape_level_new, more, length]
        simp
      · rw [Canvas.level_outside (by simpa using outside), more,
          List.getD_eq_default _ _ (by simp; omega)]

theorem Canvas.Nearest.recent {levels : List ℕ} {level u : ℕ}
    (inside : u < levels.length + 1) (below : (0 :: levels).getD u 0 < level)
    (between : ∀ k, u < k → k < levels.length + 1 → level ≤ (0 :: levels).getD k 0) :
    smallerLevel levels level = (0 :: levels).getD u 0 := by
  induction levels using List.reverseRecOn with
  | nil =>
    have first : u = 0 := by simpa using inside
    simp [smallerLevel, first]
  | append_singleton levels x ih =>
    have old : ∀ k, k < levels.length + 1 →
        (0 :: (levels ++ [x])).getD k 0 = (0 :: levels).getD k 0 := fun k less =>
      List.getD_append (0 :: levels) [x] 0 k less
    have new : (0 :: (levels ++ [x])).getD (levels.length + 1) 0 = x := by simp
    rw [List.length_append, List.length_singleton] at inside between
    unfold smallerLevel
    rw [List.reverse_append, List.reverse_singleton, List.singleton_append, List.find?_cons]
    rcases Nat.lt_succ_iff_lt_or_eq.mp inside with less | rfl
    · have more := between (levels.length + 1) less (Nat.lt_succ_self _)
      rw [new] at more
      rw [decide_eq_false (not_lt.mpr more)]
      rw [old u less] at below ⊢
      refine ih less below fun k after within => ?_
      rw [← old k within]
      exact between k after (within.trans (Nat.lt_succ_self _))
    · rw [new] at below ⊢
      rw [decide_eq_true below]
      rfl

theorem nearestExists (levels : List ℕ) {level : ℕ} (positive : 0 < level) :
    ∃ u < levels.length + 1, (0 :: levels).getD u 0 < level ∧
      ∀ k, u < k → k < levels.length + 1 → level ≤ (0 :: levels).getD k 0 := by
  refine ⟨Nat.findGreatest (fun u => (0 :: levels).getD u 0 < level) levels.length,
    Nat.lt_succ_of_le (Nat.findGreatest_le _), ?_, fun k after within => ?_⟩
  · exact Nat.findGreatest_spec (P := fun u => (0 :: levels).getD u 0 < level) (Nat.zero_le _)
      positive
  · exact not_lt.mp (Nat.findGreatest_is_greatest (P := fun u => (0 :: levels).getD u 0 < level)
      after (Nat.le_of_lt_succ within))

/- Where the last shape stands when the earlier ones hang right: behind it every shape has a level
that some skipped line asks to climb over. -/
structure Followed (steps : List PlanLine) : Prop where
  behind : ∀ k, (draw steps).last < k → k < (draw steps).shapes.length →
    ∃ m ∈ skippedLevels steps, m ≤ (draw steps).level k
  above : ∀ m ∈ skippedLevels steps, (draw steps).level (draw steps).last < m

theorem hungFront {steps : List PlanLine} {p : PlanLine}
    (hung : (draw (steps ++ [p])).HungUnderNearest) : (draw steps).HungUnderNearest := by
  rw [drawSnoc] at hung
  cases p with
  | condition line => simpa [Canvas.HungUnderNearest, Canvas.Nearest] using hung
  | absent level => exact hung
  | shape level line =>
    intro i some' inside
    obtain ⟨u, child, before, below, between⟩ := hung i some' (by simp; omega)
    rw [Canvas.shape_upper_old inside] at child
    rw [Canvas.shape_level_old inside] at below between
    rw [Canvas.shape_level_old (before.trans inside)] at below
    refine ⟨u, child, before, below, fun k after less => ?_⟩
    have level' := between k after less
    rwa [Canvas.shape_level_old (less.trans inside)] at level'

theorem skippedSnoc (steps : List PlanLine) (p : PlanLine) : skippedLevels (steps ++ [p]) =
    match p with
    | .condition _ => skippedLevels steps
    | .absent m => m :: skippedLevels steps
    | .shape _ _ => [] := by
  cases p <;> simp [skippedLevels]

theorem followed {steps : List PlanLine} (leveled : Leveled steps)
    (hung : (draw steps).HungUnderNearest) : Followed steps := by
  induction steps using List.reverseRecOn with
  | nil =>
    refine ⟨fun k after within => ?_, fun m member => absurd member List.not_mem_nil⟩
    simp [draw, Canvas.root] at after within
    omega
  | append_singleton steps p ih =>
    have sound := drawSound leveled.front
    have hung' := hungFront hung
    obtain ⟨behind, above⟩ := ih leveled.front hung'
    cases p with
    | condition line =>
      constructor
      · rw [drawSnoc, skippedSnoc]
        simpa using behind
      · rw [drawSnoc, skippedSnoc]
        simpa using above
    | absent level =>
      obtain ⟨place, below, less⟩ := Canvas.climbEnds sound (leveled.last level (.inl rfl))
      constructor
      · rw [drawSnoc]
        intro k after within
        rw [skippedSnoc]
        rcases le_or_gt k (draw steps).last with low | high
        · exact ⟨level, List.mem_cons_self, Canvas.climbFromSkips hung' sound.within after low⟩
        · obtain ⟨m, member, under⟩ := behind k high within
          exact ⟨m, List.mem_cons_of_mem _ member, under⟩
      · rw [drawSnoc, skippedSnoc]
        intro m member
        rcases List.mem_cons.mp member with rfl | member
        · exact below
        · exact less.trans_lt (above m member)
    | shape level line =>
      constructor
      · rw [drawSnoc]
        intro k after within
        rw [Canvas.shape_length] at within
        exact absurd (Nat.lt_of_lt_of_le after (Nat.le_of_lt_succ within)) (lt_irrefl _)
      · rw [skippedSnoc]
        exact fun m member => absurd member List.not_mem_nil

/-- Under shapes that hang right the next one does just when no skipped line has moved the climb
past its place. -/
theorem nextHung {steps : List PlanLine} {level : ℕ} {line : Text} (leveled : Leveled steps)
    (positive : 0 < level) (hung : (draw steps).HungUnderNearest) :
    (draw (steps ++ [.shape level line])).HungUnderNearest ↔
      ∀ m ∈ skippedLevels steps, smallerLevel (shapeLevels steps) level < m := by
  have sound := drawSound leveled
  obtain ⟨behind, above⟩ := followed leveled hung
  obtain ⟨place, below, less⟩ := Canvas.climbEnds sound positive
  obtain ⟨length, levels⟩ := drawLevels steps
  have within := place.trans_lt sound.within
  rw [drawSnoc]
  constructor
  · intro all m member
    obtain ⟨u, child, before, below', between⟩ := all (draw steps).shapes.length
      (Nat.zero_lt_of_lt sound.within) (by simp)
    rw [Canvas.shape_upper_new, Option.some.injEq] at child
    subst child
    rw [Canvas.shape_level_new] at between
    have recent : smallerLevel (shapeLevels steps) level =
        (0 :: shapeLevels steps).getD ((draw steps).climb level) 0 := by
      refine Canvas.Nearest.recent (length ▸ within) (levels _ ▸ below) fun k after inside => ?_
      rw [← length] at inside
      rw [← levels, ← Canvas.shape_level_old inside]
      exact between k after inside
    rw [recent, ← levels]
    exact less.trans_lt (above m member)
  · intro none i some' inside
    rw [Canvas.shape_length] at inside
    rcases Nat.lt_succ_iff_lt_or_eq.mp inside with old | rfl
    · obtain ⟨u, child, before, below', between⟩ := hung i some' old
      refine ⟨u, (Canvas.shape_upper_old old).trans child, before, ?_, fun k after early => ?_⟩
      · rw [Canvas.shape_level_old old, Canvas.shape_level_old (before.trans old)]
        exact below'
      · rw [Canvas.shape_level_old old, Canvas.shape_level_old (early.trans old)]
        exact between k after early
    · refine ⟨_, Canvas.shape_upper_new, within, ?_, fun k after early => ?_⟩
      · rw [Canvas.shape_level_new, Canvas.shape_level_old within]
        exact below
      · rw [Canvas.shape_level_new, Canvas.shape_level_old early]
        rcases le_or_gt k (draw steps).last with low | high
        · exact Canvas.climbFromSkips hung sound.within after low
        -- A shape of smaller level behind the last one has been climbed over by a skipped line.
        · by_contra smaller
          obtain ⟨v, inner, under, beyond⟩ :=
            nearestExists (shapeLevels steps) positive
          have recent := Canvas.Nearest.recent inner under beyond
          rw [length] at early
          have late : k ≤ v := by
            by_contra before
            exact smaller (levels k ▸ beyond k (not_le.mp before) early)
          obtain ⟨m, member, passed⟩ := behind v (high.trans_le late) (length ▸ inner)
          have bound := none m member
          rw [recent, ← levels] at bound
          omega

theorem snocSplits {steps earlier later : List PlanLine} {p q : PlanLine} :
    steps ++ [p] = earlier ++ q :: later ↔
      (later = [] ∧ steps = earlier ∧ p = q) ∨
        ∃ rest, later = rest ++ [p] ∧ steps = earlier ++ q :: rest := by
  rcases List.eq_nil_or_concat later with rfl | ⟨rest, r, rfl⟩
  · simp
  · rw [List.concat_eq_append, ← List.cons_append, ← List.append_assoc]
    constructor
    · intro same
      obtain ⟨front, back⟩ := List.append_inj' same rfl
      obtain rfl := List.singleton_inj.mp back
      exact .inr ⟨rest, by simp, front⟩
    · rintro (⟨empty, -, -⟩ | ⟨rest', same, front⟩)
      · simp at empty
      · obtain ⟨rfl, back⟩ := List.append_inj' same rfl
        rw [front, back]

theorem noneSkippedSnoc (steps : List PlanLine) (p : PlanLine) :
    NoneSkipped (steps ++ [p]) ↔ NoneSkipped steps ∧
      ∀ level line, p = .shape level line →
        ∀ m ∈ skippedLevels steps, smallerLevel (shapeLevels steps) level < m := by
  constructor
  · intro none
    refine ⟨fun earlier later level line split => ?_, fun level line here => ?_⟩
    · exact none earlier (later ++ [p]) level line (by rw [split]; simp)
    · exact none steps [] level line (by rw [here])
  · rintro ⟨front, last⟩ earlier later level line split
    rcases snocSplits.mp split with ⟨-, rfl, here⟩ | ⟨rest, -, inner⟩
    · exact last level line here
    · exact front earlier rest level line inner

theorem hungIff {steps : List PlanLine} (leveled : Leveled steps) :
    (draw steps).HungUnderNearest ↔ NoneSkipped steps := by
  induction steps using List.reverseRecOn with
  | nil =>
    refine iff_of_true (fun i some' inside => ?_) fun earlier later level line split => ?_
    · exact absurd (Nat.lt_one_iff.mp inside) some'.ne'
    · simp at split
  | append_singleton steps p ih =>
    rw [noneSkippedSnoc, ← ih leveled.front]
    constructor
    · intro hung
      have front := hungFront hung
      refine ⟨front, fun level line here => ?_⟩
      subst here
      exact (nextHung leveled.front (leveled.last level (.inr ⟨line, rfl⟩)) front).mp hung
    · rintro ⟨front, last⟩
      cases p with
      | condition line =>
        rw [drawSnoc]
        simpa [Canvas.HungUnderNearest, Canvas.Nearest] using front
      | absent level =>
        rw [drawSnoc]
        exact front
      | shape level line =>
        exact (nextHung leveled.front (leveled.last level (.inr ⟨line, rfl⟩)) front).mpr
          (last level line rfl)

/- What is asked of a drawn plan: every shape hangs right, the rows are those of the leaves, and no
shape hides another. -/
def Canvas.Tree (c : Canvas) : Prop :=
  c.HungUnderNearest ∧ c.totalShapes 0 = (leaves c.shapes.length c.upper).card ∧
    ∀ i j, i < j → j < c.shapes.length → (c.level i, c.row i) ≠ (c.level j, c.row j)

/-- The rows are always right; the tree is just when no skipped line has moved the climb. -/
theorem explainDrawn (str : Text) :
    (SetExplainString str).Tree ↔ NoneSkipped (planLines (Tokenizer.strtok '\n' str)) := by
  have leveled := planLinesLeveled (Tokenizer.strtok '\n' str)
  have sound : (SetExplainString str).Sound := drawSound leveled
  have layout := Canvas.laidOut sound
  rw [← hungIff leveled]
  constructor
  · exact fun tree => tree.1
  · refine fun hung => ⟨hung, ?_, fun i j order inside => ?_⟩
    · exact ForestLayout.rootLeaves sound.forest layout (Nat.zero_lt_of_lt sound.within)
    · exact ForestLayout.placesApart sound.forest layout (fun i _ => sound.deeper i) order inside

def totalBetween : Text := "Scan a\nTotal 1\n      ->  Scan b".toList

theorem totalBetweenLines : planLines (Tokenizer.strtok '\n' totalBetween) =
    [.shape 1 "Scan a".toList, .absent 1, .shape 2 "Scan b".toList] := by
  have lines : Tokenizer.strtok '\n' totalBetween =
      ["Scan a".toList, "Total 1".toList, "      ->  Scan b".toList] := by decide
  have first : joinLines (StripBoth "Scan a".toList) ["Total 1".toList, "      ->  Scan b".toList] =
      ("Scan a".toList, ["Total 1".toList, "      ->  Scan b".toList]) := by decide
  have second : joinLines (StripBoth "Total 1".toList) ["      ->  Scan b".toList] =
      ("Total 1".toList, ["      ->  Scan b".toList]) := by decide
  have third : joinLines (StripBoth "      ->  Scan b".toList) [] =
      ("->  Scan b".toList, []) := by decide
  rw [lines, planLines, first, planLines, second, planLines, third, planLines]
  decide

/-- The second scan hangs under the root and not under the first. -/
theorem hungUnderRoot : ¬ (SetExplainString totalBetween).Tree ∧
    (SetExplainString totalBetween).upper 2 = some 0 ∧
    (SetExplainString totalBetween).level 1 < (SetExplainString totalBetween).level 2 := by
  have drawn : SetExplainString totalBetween =
      draw [.shape 1 "Scan a".toList, .absent 1, .shape 2 "Scan b".toList] := by
    rw [SetExplainString, totalBetweenLines]
    rfl
  rw [drawn]
  refine ⟨fun tree => ?_, by decide, by decide⟩
  obtain ⟨u, child, -, -, between⟩ := tree.1 2 (by decide) (by decide)
  have root : u = 0 := Option.some.inj (child.symm.trans (by decide))
  exact absurd (between 1 (by omega) (by decide)) (by decide)

end PgAdmin.ExplainCanvas
