import PgAdmin.FirstFit
import PgAdmin.PgsRecord

/-! Comparing records: `=`, `<>`, `<`, `>`, `<=`, `>=` and `~=`. Every line of the left record is matched with a
line of the right one that has not been taken yet. Cells are compared by their string values; a generator
draws one each time. -/
namespace PgAdmin.PgsObjects

namespace PgsRecord
variable {σ : Type} (ctype : Ctype) (draw : ℕ → StateM σ Text) (caseSensitive : Bool)

/- string() of both, and then == or CmpNoCase. -/
def textsEqual (lhs rhs : Text) : Bool :=
  if caseSensitive then decide (lhs = rhs) else decide (lhs.map ctype.lower = rhs.map ctype.lower)

def cellsEqual : List (Scalar × Scalar) → StateM σ Bool
  | [] => pure true
  | (lhs, rhs) :: cells => do
    let left ← lhs.value draw
    let right ← rhs.value draw
    if textsEqual ctype caseSensitive left right then cellsEqual cells else pure false

def linesEqual (lhs rhs : List Scalar) : StateM σ Bool :=
  if lhs.length ≠ rhs.length then pure false else cellsEqual ctype draw caseSensitive (lhs.zip rhs)

def unseenLine (seen : List ℕ) (line : List Scalar) : ℕ → List (List Scalar) → StateM σ (Option ℕ)
  | _, [] => pure none
  | j, other :: rest => do
    if j ∈ seen then unseenLine seen line (j + 1) rest
    else if ← linesEqual ctype draw caseSensitive line other then pure (some j)
    else unseenLine seen line (j + 1) rest

def linesMatched (rhs : List (List Scalar)) (seen : List ℕ) : List (List Scalar) → StateM σ Bool
  | [] => pure true
  | line :: lines => do
    match ← unseenLine ctype draw caseSensitive seen line 0 rhs with
    | some j => linesMatched rhs (seen ++ [j]) lines
    | none => pure false

def recordsEqual (lhs rhs : PgsRecord) : StateM σ Bool :=
  if lhs.countColumns ≠ rhs.countColumns then pure false
  else linesMatched ctype draw caseSensitive rhs.lines [] lhs.lines

variable (lhs rhs : PgsRecord)

def equal : StateM σ Bool :=
  if lhs.countLines ≠ rhs.countLines then pure false else recordsEqual ctype draw true lhs rhs

def different : StateM σ Bool := do pure !(← equal ctype draw lhs rhs)

def lower : StateM σ Bool :=
  if rhs.countLines ≤ lhs.countLines then pure false else recordsEqual ctype draw true lhs rhs

def greater : StateM σ Bool := lower ctype draw rhs lhs

def lowerEqual : StateM σ Bool :=
  if rhs.countLines < lhs.countLines then pure false else recordsEqual ctype draw true lhs rhs

def greaterEqual : StateM σ Bool := lowerEqual ctype draw rhs lhs

def almostEqual : StateM σ Bool :=
  if lhs.countLines ≠ rhs.countLines then pure false else recordsEqual ctype draw false lhs rhs

end PgsRecord

def Scalar.text : Scalar → Text
  | .pgsNumber data _ => data
  | .pgsString data => data
  | .pgsGenerator _ _ => []

def Scalar.Fixed : Scalar → Prop
  | .pgsGenerator _ _ => False
  | _ => True

namespace PgsRecord

/- No cell has a new value each time it is used. -/
def Fixed (r : PgsRecord) : Prop := ∀ line ∈ r.lines, ∀ cell ∈ line, cell.Fixed

def folded (ctype : Ctype) (caseSensitive : Bool) (text : Text) : Text :=
  if caseSensitive then text else text.map ctype.lower

def lineKey (ctype : Ctype) (caseSensitive : Bool) (line : List Scalar) : List Text :=
  line.map fun cell => folded ctype caseSensitive cell.text

theorem stateBind {σ α β : Type} {m : StateM σ α} {f : α → StateM σ β} {s s' : σ} {a : α} (ran : m s = (a, s')) :
    (m >>= f) s = f a s' := by
  change f (m s).1 (m s).2 = _
  rw [ran]

section Fixed
variable {σ : Type} {ctype : Ctype} {draw : ℕ → StateM σ Text} {caseSensitive : Bool} {s : σ}

theorem fixedValue {cell : Scalar} (fixed : cell.Fixed) : cell.value draw s = (cell.text, s) := by
  cases cell with
  | pgsNumber data isReal => rfl
  | pgsString data => rfl
  | pgsGenerator type randomizer => exact fixed.elim

theorem textsEqualIff (lhs rhs : Text) : textsEqual ctype caseSensitive lhs rhs =
    decide (folded ctype caseSensitive lhs = folded ctype caseSensitive rhs) := by
  cases caseSensitive <;> rfl

theorem cellsEqualFixed {lhs rhs : List Scalar} (left : ∀ cell ∈ lhs, cell.Fixed)
    (right : ∀ cell ∈ rhs, cell.Fixed) (length : lhs.length = rhs.length) :
    cellsEqual ctype draw caseSensitive (lhs.zip rhs) s =
      (decide (lineKey ctype caseSensitive lhs = lineKey ctype caseSensitive rhs), s) := by
  induction lhs generalizing rhs with
  | nil =>
    cases List.length_eq_zero_iff.mp length.symm
    rfl
  | cons l lhs ih =>
    cases rhs with
    | nil => cases length
    | cons r rhs =>
      have rest := ih (fun cell member => left cell (List.mem_cons_of_mem l member))
        (fun cell member => right cell (List.mem_cons_of_mem r member)) (Nat.succ.inj length)
      rw [List.zip_cons_cons, cellsEqual]
      rw [stateBind (fixedValue (left l List.mem_cons_self)), stateBind (fixedValue (right r List.mem_cons_self)),
        textsEqualIff]
      by_cases same : folded ctype caseSensitive l.text = folded ctype caseSensitive r.text
      · rw [decide_eq_true same, if_pos rfl, rest, lineKey, lineKey, lineKey, lineKey, List.map_cons,
          List.map_cons, same, decide_eq_decide.mpr (List.cons_inj_right _).symm]
      · rw [decide_eq_false same, if_neg Bool.false_ne_true]
        simp only [lineKey, List.map_cons, List.cons.injEq, same, false_and, decide_false]
        rfl

theorem linesEqualFixed {lhs rhs : List Scalar} (left : ∀ cell ∈ lhs, cell.Fixed)
    (right : ∀ cell ∈ rhs, cell.Fixed) : linesEqual ctype draw caseSensitive lhs rhs s =
      (decide (lineKey ctype caseSensitive lhs = lineKey ctype caseSensitive rhs), s) := by
  rw [linesEqual]
  split
  case isTrue differ =>
    have other : lineKey ctype caseSensitive lhs ≠ lineKey ctype caseSensitive rhs := by
      intro same
      have length := congrArg List.length same
      rw [lineKey, lineKey, List.length_map, List.length_map] at length
      exact differ length
    rw [decide_eq_false other]
    rfl
  case isFalse same => exact cellsEqualFixed left right (not_not.mp same)

theorem unseenLineFixed {line : List Scalar} {rest : List (List Scalar)} (left : ∀ cell ∈ line, cell.Fixed)
    (right : ∀ line ∈ rest, ∀ cell ∈ line, cell.Fixed) (seen : List ℕ) (j : ℕ) :
    unseenLine ctype draw caseSensitive seen line j rest s =
      (FirstFit.find (lineKey ctype caseSensitive line) seen j (rest.map (lineKey ctype caseSensitive)), s) := by
  induction rest generalizing j with
  | nil => rfl
  | cons other rest ih =>
    have next := ih (fun line member => right line (List.mem_cons_of_mem other member)) (j + 1)
    rw [unseenLine, List.map_cons, FirstFit.find]
    by_cases taken : j ∈ seen
    · rw [if_pos taken, if_neg fun here => here.1 taken]
      exact next
    · rw [if_neg taken, stateBind (linesEqualFixed left (right other List.mem_cons_self))]
      by_cases same : lineKey ctype caseSensitive line = lineKey ctype caseSensitive other
      · rw [decide_eq_true same, if_pos rfl, if_pos ⟨taken, same⟩]
        rfl
      · rw [decide_eq_false same, if_neg Bool.false_ne_true, if_neg fun here => same here.2]
        exact next

theorem linesMatchedFixed {lhs rhs : List (List Scalar)} (left : ∀ line ∈ lhs, ∀ cell ∈ line, cell.Fixed)
    (right : ∀ line ∈ rhs, ∀ cell ∈ line, cell.Fixed) (seen : List ℕ) :
    linesMatched ctype draw caseSensitive rhs seen lhs s =
      (FirstFit.matchAll (rhs.map (lineKey ctype caseSensitive)) seen (lhs.map (lineKey ctype caseSensitive)),
        s) := by
  induction lhs generalizing seen with
  | nil => rfl
  | cons line lhs ih =>
    have next := ih fun line' member => left line' (List.mem_cons_of_mem line member)
    rw [linesMatched, stateBind (unseenLineFixed (left line List.mem_cons_self) right seen 0), List.map_cons,
      FirstFit.matchAll]
    cases FirstFit.find (lineKey ctype caseSensitive line) seen 0 (rhs.map (lineKey ctype caseSensitive)) with
    | none => rfl
    | some j => exact next (seen ++ [j])

variable {a b c : PgsRecord}

def keys (ctype : Ctype) (caseSensitive : Bool) (r : PgsRecord) : List (List Text) :=
  r.lines.map (lineKey ctype caseSensitive)

theorem countColumnsEq : a.countColumns = b.countColumns ↔ a.columns.length = b.columns.length := by
  rw [← UInt16.toNat_inj, countColumnsNat, countColumnsNat]

theorem countLinesEq : a.countLines = b.countLines ↔ a.lines.length = b.lines.length := by
  rw [← UInt16.toNat_inj, countLinesNat, countLinesNat]

def Within (ctype : Ctype) (caseSensitive : Bool) (a b : PgsRecord) : Prop :=
  a.columns.length = b.columns.length ∧ (keys ctype caseSensitive a).Subperm (keys ctype caseSensitive b)

theorem recordsEqualFixed (left : a.Fixed) (right : b.Fixed) :
    ∃ result, recordsEqual ctype draw caseSensitive a b s = (result, s) ∧
      (result = true ↔ Within ctype caseSensitive a b) := by
  rw [recordsEqual]
  by_cases columns : a.countColumns = b.countColumns
  · rw [if_neg (not_not.mpr columns), linesMatchedFixed left right]
    refine ⟨_, rfl, ?_⟩
    rw [FirstFit.matchAllIff, Within, ← countColumnsEq]
    exact ⟨fun within => ⟨columns, within⟩, And.right⟩
  · rw [if_pos columns]
    refine ⟨false, rfl, fun no => absurd no Bool.false_ne_true, fun within => ?_⟩
    exact absurd (countColumnsEq.mpr within.1) columns

/- Every line of a is matched with a line of b, no two with the same; cells are compared by string value. -/
def Matched (ctype : Ctype) (caseSensitive : Bool) (a b : PgsRecord) : Prop :=
  ∃ places : List ℕ, places.Nodup ∧ List.Forall₂ (fun line j => ∃ other, b.lines[j]? = some other ∧
    List.Forall₂ (fun cell cell' => textsEqual ctype caseSensitive cell.text cell'.text = true) line other)
    a.lines places

theorem lineKeyEq {line other : List Scalar} :
    List.Forall₂ (fun cell cell' => textsEqual ctype caseSensitive cell.text cell'.text = true) line other ↔
      lineKey ctype caseSensitive line = lineKey ctype caseSensitive other := by
  rw [lineKey, lineKey, ← List.forall₂_eq_eq_eq, List.forall₂_map_left_iff, List.forall₂_map_right_iff]
  simp only [textsEqualIff, decide_eq_true_eq]

theorem matchedIff : Matched ctype caseSensitive a b ↔
    (keys ctype caseSensitive a).Subperm (keys ctype caseSensitive b) := by
  rw [FirstFit.subpermIff, Matched]
  refine exists_congr fun places => and_congr_right fun _ => ?_
  rw [keys, keys, List.map_map, ← List.forall₂_eq_eq_eq, List.forall₂_map_left_iff, List.forall₂_map_right_iff]
  refine Iff.trans ?_ ⟨List.Forall₂.flip, List.Forall₂.flip⟩
  refine iff_of_eq (congrArg (fun R => List.Forall₂ R a.lines places) (funext fun line => funext fun j => ?_))
  simp only [lineKeyEq, flip, Function.comp_apply, List.getElem?_map, Option.map_eq_some_iff, eq_iff_iff]
  exact ⟨fun ⟨other, there, same⟩ => ⟨other, there, same.symm⟩, fun ⟨other, there, same⟩ =>
    ⟨other, there, same.symm⟩⟩

def Holds (s : σ) (comparison : StateM σ Bool) : Prop := comparison s = (true, s)

def Decides (s : σ) (comparison : StateM σ Bool) (P : Prop) : Prop :=
  ∃ result, comparison s = (result, s) ∧ (result = true ↔ P)

theorem Decides.holds {comparison : StateM σ Bool} {P : Prop} (decides : Decides s comparison P) :
    Holds s comparison ↔ P := by
  obtain ⟨result, ran, means⟩ := decides
  rw [Holds, ran, ← means, Prod.mk.injEq, and_iff_left rfl]

theorem testedDecides (left : a.Fixed) (right : b.Fixed) {refused : Prop} [Decidable refused] :
    Decides s (if refused then pure false else recordsEqual ctype draw caseSensitive a b)
      (¬ refused ∧ Within ctype caseSensitive a b) := by
  by_cases refuse : refused
  · rw [if_pos refuse]
    exact ⟨false, rfl, fun no => absurd no Bool.false_ne_true, fun both => absurd refuse both.1⟩
  · rw [if_neg refuse]
    obtain ⟨result, ran, means⟩ := @recordsEqualFixed _ ctype draw caseSensitive s _ _ left right
    exact ⟨result, ran, means.trans ⟨fun within => ⟨refuse, within⟩, And.right⟩⟩

theorem withinLines (within : Within ctype caseSensitive a b) : a.lines.length ≤ b.lines.length := by
  have length := within.2.length_le
  rwa [keys, keys, List.length_map, List.length_map] at length

def Same (ctype : Ctype) (caseSensitive : Bool) (a b : PgsRecord) : Prop :=
  a.columns.length = b.columns.length ∧ (keys ctype caseSensitive a).Perm (keys ctype caseSensitive b)

theorem sameIff : Same ctype caseSensitive a b ↔
    ¬ a.countLines ≠ b.countLines ∧ Within ctype caseSensitive a b := by
  rw [not_not, countLinesEq, Same, Within]
  constructor
  · rintro ⟨columns, perm⟩
    have length := perm.length_eq
    rw [keys, keys, List.length_map, List.length_map] at length
    exact ⟨length, columns, perm.subperm⟩
  · rintro ⟨length, columns, within⟩
    refine ⟨columns, within.perm_of_length_le ?_⟩
    rw [keys, keys, List.length_map, List.length_map, length]

theorem equalHolds (left : a.Fixed) (right : b.Fixed) : Holds s (equal ctype draw a b) ↔ Same ctype true a b :=
  (testedDecides left right).holds.trans sameIff.symm

theorem almostEqualHolds (left : a.Fixed) (right : b.Fixed) :
    Holds s (almostEqual ctype draw a b) ↔ Same ctype false a b :=
  (testedDecides left right).holds.trans sameIff.symm

theorem lowerEqualHolds (left : a.Fixed) (right : b.Fixed) :
    Holds s (lowerEqual ctype draw a b) ↔ Within ctype true a b := by
  refine (testedDecides left right).holds.trans ⟨And.right, fun within => ⟨fun below => ?_, within⟩⟩
  have length := withinLines within
  rw [UInt16.lt_iff_toNat_lt, countLinesNat, countLinesNat] at below
  omega

theorem lowerHolds (left : a.Fixed) (right : b.Fixed) :
    Holds s (lower ctype draw a b) ↔ Within ctype true a b ∧ ¬ Same ctype true a b := by
  refine (testedDecides left right).holds.trans ?_
  rw [sameIff, not_not, countLinesEq, UInt16.le_iff_toNat_le, countLinesNat, countLinesNat]
  constructor
  · rintro ⟨fewer, within⟩
    exact ⟨within, fun same => fewer (Nat.le_of_eq same.1.symm)⟩
  · rintro ⟨within, differ⟩
    have length := withinLines within
    exact ⟨fun most => differ ⟨Nat.le_antisymm length most, within⟩, within⟩

theorem differentHolds (left : a.Fixed) (right : b.Fixed) :
    Holds s (different ctype draw a b) ↔ ¬ Holds s (equal ctype draw a b) := by
  have decides : Decides s (equal ctype draw a b) _ := testedDecides left right
  rw [decides.holds]
  obtain ⟨result, ran, means⟩ := decides
  rw [Holds, different, stateBind ran, ← means]
  cases result with
  | true => exact ⟨fun no => (by cases no), fun no => absurd rfl no⟩
  | false => exact ⟨fun _ => Bool.false_ne_true, fun _ => rfl⟩

end Fixed

/- What the comparisons of three records say together. -/
structure ComparisonLaws {σ : Type} (ctype : Ctype) (draw : ℕ → StateM σ Text) (s : σ) (a b c : PgsRecord) :
    Prop where
  included : Holds s (lowerEqual ctype draw a b) ↔ a.columns.length = b.columns.length ∧ Matched ctype true a b
  equalRefl : Holds s (equal ctype draw a a)
  equalSymm : Holds s (equal ctype draw a b) → Holds s (equal ctype draw b a)
  equalTrans : Holds s (equal ctype draw a b) → Holds s (equal ctype draw b c) → Holds s (equal ctype draw a c)
  equalOrder : a.columns.length = b.columns.length → a.lines.Perm b.lines → Holds s (equal ctype draw a b)
  lowerRefl : Holds s (lowerEqual ctype draw a a)
  lowerTrans : Holds s (lowerEqual ctype draw a b) → Holds s (lowerEqual ctype draw b c) →
    Holds s (lowerEqual ctype draw a c)
  lowerBoth : Holds s (lowerEqual ctype draw a b) ∧ Holds s (lowerEqual ctype draw b a) ↔
    Holds s (equal ctype draw a b)
  strict : Holds s (lower ctype draw a b) ↔
    Holds s (lowerEqual ctype draw a b) ∧ ¬ Holds s (equal ctype draw a b)
  opposite : (Holds s (different ctype draw a b) ↔ ¬ Holds s (equal ctype draw a b)) ∧
    (Holds s (greater ctype draw a b) ↔ Holds s (lower ctype draw b a)) ∧
    (Holds s (greaterEqual ctype draw a b) ↔ Holds s (lowerEqual ctype draw b a))
  almostIncluded : Holds s (almostEqual ctype draw a b) ↔ a.columns.length = b.columns.length ∧
    Matched ctype false a b ∧ Matched ctype false b a
  almostRefl : Holds s (almostEqual ctype draw a a)
  almostSymm : Holds s (almostEqual ctype draw a b) → Holds s (almostEqual ctype draw b a)
  almostTrans : Holds s (almostEqual ctype draw a b) → Holds s (almostEqual ctype draw b c) →
    Holds s (almostEqual ctype draw a c)
  almostOrder : a.columns.length = b.columns.length → a.lines.Perm b.lines →
    Holds s (almostEqual ctype draw a b)

section Laws
variable {ctype : Ctype} {caseSensitive : Bool} {a b c : PgsRecord}

theorem sameRefl : Same ctype caseSensitive a a := ⟨rfl, .refl _⟩

theorem sameSymm (same : Same ctype caseSensitive a b) : Same ctype caseSensitive b a :=
  ⟨same.1.symm, same.2.symm⟩

theorem sameTrans (first : Same ctype caseSensitive a b) (next : Same ctype caseSensitive b c) :
    Same ctype caseSensitive a c := ⟨first.1.trans next.1, first.2.trans next.2⟩

theorem sameOrder (columns : a.columns.length = b.columns.length) (lines : a.lines.Perm b.lines) :
    Same ctype caseSensitive a b := ⟨columns, lines.map _⟩

theorem withinTrans (first : Within ctype caseSensitive a b) (next : Within ctype caseSensitive b c) :
    Within ctype caseSensitive a c := ⟨first.1.trans next.1, first.2.trans next.2⟩

theorem withinBoth : Within ctype caseSensitive a b ∧ Within ctype caseSensitive b a ↔
    Same ctype caseSensitive a b :=
  ⟨fun both => ⟨both.1.1, both.1.2.antisymm both.2.2⟩,
    fun same => ⟨⟨same.1, same.2.subperm⟩, same.1.symm, same.2.symm.subperm⟩⟩

end Laws

/-- Records without generators are compared by inclusion of their lines. -/
theorem comparisonLaws {σ : Type} (ctype : Ctype) (draw : ℕ → StateM σ Text) (s : σ) {a b c : PgsRecord}
    (fixedA : a.Fixed) (fixedB : b.Fixed) (fixedC : c.Fixed) : ComparisonLaws ctype draw s a b c where
  included := by
    rw [lowerEqualHolds fixedA fixedB, matchedIff]
    rfl
  equalRefl := (equalHolds fixedA fixedA).mpr sameRefl
  equalSymm same := (equalHolds fixedB fixedA).mpr (sameSymm ((equalHolds fixedA fixedB).mp same))
  equalTrans first next := (equalHolds fixedA fixedC).mpr
    (sameTrans ((equalHolds fixedA fixedB).mp first) ((equalHolds fixedB fixedC).mp next))
  equalOrder columns lines := (equalHolds fixedA fixedB).mpr (sameOrder columns lines)
  lowerRefl := (lowerEqualHolds fixedA fixedA).mpr ⟨rfl, .refl _⟩
  lowerTrans first next := (lowerEqualHolds fixedA fixedC).mpr
    (withinTrans ((lowerEqualHolds fixedA fixedB).mp first) ((lowerEqualHolds fixedB fixedC).mp next))
  lowerBoth := by
    rw [lowerEqualHolds fixedA fixedB, lowerEqualHolds fixedB fixedA, equalHolds fixedA fixedB, withinBoth]
  strict := by
    rw [lowerHolds fixedA fixedB, lowerEqualHolds fixedA fixedB, equalHolds fixedA fixedB]
  opposite := ⟨differentHolds fixedA fixedB, Iff.rfl, Iff.rfl⟩
  almostIncluded := by
    rw [almostEqualHolds fixedA fixedB, ← withinBoth, matchedIff, matchedIff]
    exact ⟨fun both => ⟨both.1.1, both.1.2, both.2.2⟩,
      fun all => ⟨⟨all.1, all.2.1⟩, all.1.symm, all.2.2⟩⟩
  almostRefl := (almostEqualHolds fixedA fixedA).mpr sameRefl
  almostSymm same := (almostEqualHolds fixedB fixedA).mpr (sameSymm ((almostEqualHolds fixedA fixedB).mp same))
  almostTrans first next := (almostEqualHolds fixedA fixedC).mpr
    (sameTrans ((almostEqualHolds fixedA fixedB).mp first) ((almostEqualHolds fixedB fixedC).mp next))
  almostOrder columns lines := (almostEqualHolds fixedA fixedB).mpr (sameOrder columns lines)

theorem oneColumnFits : ([[]] : List Text).length < 65536 := by decide

def oneCell (cell : Scalar) : PgsRecord where
  columns := [[]]
  lines := [[cell]]
  square := by simp
  columnsFit := oneColumnFits
  linesFit := by simp

theorem oneCellLaws : ComparisonLaws .plain (fun _ => pure [] : ℕ → StateM Unit Text) ()
    (oneCell (.pgsString ['a'])) (oneCell (.pgsString ['A'])) (oneCell (.pgsNumber ['1'] false)) := by
  have fixed : ∀ cell : Scalar, cell.Fixed → (oneCell cell).Fixed := by
    intro cell fixed line inLines cell' inLine
    cases List.mem_singleton.mp inLines
    cases List.mem_singleton.mp inLine
    exact fixed
  exact comparisonLaws _ _ _ (fixed _ trivial) (fixed _ trivial) (fixed _ trivial)

/- The generator counts up. -/
theorem generatorDiffers : ¬ ∀ (σ : Type) (ctype : Ctype) (draw : ℕ → StateM σ Text) (s : σ)
    (a b c : PgsRecord), ComparisonLaws ctype draw s a b c := by
  intro all
  have laws := all ℕ .plain (fun _ n => ((toString n).toList, n + 1)) 1 (oneCell (.pgsGenerator .pgsTInt 0))
    (oneCell (.pgsGenerator .pgsTInt 0)) (oneCell (.pgsGenerator .pgsTInt 0))
  exact absurd (congrArg Prod.fst laws.equalRefl) (by decide)

end PgsRecord
end PgAdmin.PgsObjects
