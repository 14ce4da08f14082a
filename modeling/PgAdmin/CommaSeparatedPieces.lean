import PgAdmin.CommaSeparatedList

/-! What getArrayFromCommaSeparatedList makes of any text: the borders of its elements are the commas outside
quotes and round brackets, stated by their positions. -/
namespace PgAdmin.CommaSeparatedPieces
open PgsObjects (Text)
open misc misc.Quoting

def getArrayFromCommaSeparatedList (str : Text) (res : List Text) : Bool × List Text :=
  if str.length = 0 then (true, res)
  else ((cut out [] str).1, res ++ (cut out [] str).2)

/- What is open at a place: round brackets alone, or a quoted text within them. -/
inductive Opened where
  | plain (depth : ℕ)
  | single (depth : ℕ)
  | double (depth : ℕ)
  deriving DecidableEq, Repr

namespace Opened

def next : Opened → Char → Option Opened
  | plain depth, c =>
    if c = '\'' then some (single depth)
    else if c = '"' then some (double depth)
    else if c = '(' then some (plain (depth + 1))
    else if c = ')' then (if depth = 0 then none else some (plain (depth - 1)))
    else some (plain depth)
  | single depth, c => some (if c = '\'' then plain depth else single depth)
  | double depth, c => some (if c = '"' then plain depth else double depth)

def quoting : Opened → Quoting
  | plain depth => ⟨false, false, depth⟩
  | single depth => ⟨true, false, depth⟩
  | double depth => ⟨false, true, depth⟩

end Opened

open Opened

def walk (text : Text) : Option Opened := text.foldlM next (plain 0)

/- No round bracket outside quotes closes before it is opened. -/
def NeverBelow (text : Text) : Prop := walk text ≠ none

/- Everything opened is closed, in the right order. -/
def InBalance (text : Text) : Prop := walk text = some (plain 0)

instance (text : Text) : Decidable (InBalance text) := by unfold InBalance; infer_instance
instance (text : Text) : Decidable (NeverBelow text) := by unfold NeverBelow; infer_instance

def border (str : Text) (i : ℕ) : Bool := decide (str[i]? = some ',' ∧ InBalance (str.take i))

def borders (str : Text) : List ℕ := (List.range str.length).filter (border str)

def between (str : Text) (start : ℕ) : List ℕ → List Text
  | [] => [str.drop start]
  | i :: later => (str.drop start).take (i - start) :: between str (i + 1) later

def pieces (str : Text) : List Text := between str 0 (borders str)

/- What the function is to do. -/
def Exact (str : Text) (res : List Text) : Prop :=
  let got := getArrayFromCommaSeparatedList str res
  (got.1 = true ↔ InBalance str) ∧
    (got.1 = true → got.2 = res ++ (pieces str).map trimBoth ∧
      (pieces str).length = (borders str).length + 1) ∧
    (got.1 = false → got.2 = res)

variable {o o' : Opened} {c : Char}

theorem quotingOut : o.quoting = out ↔ o = plain 0 := by
  cases o <;> simp [quoting, out]

theorem turnNext (step : next o c = some o') : o.quoting.turn c = o'.quoting := by
  cases o with
  | single depth =>
    obtain rfl := Option.some.inj step
    split <;> simp_all [quoting, turn]
  | double depth =>
    obtain rfl := Option.some.inj step
    split <;> simp_all [quoting, turn]
  | plain depth =>
    simp only [next] at step
    split at step
    case isTrue quote => cases step; simp [quoting, turn, quote]
    case isFalse noSingle =>
    split at step
    case isTrue quote => cases step; simp [quoting, turn, quote]
    case isFalse noDouble =>
    split at step
    case isTrue opening => cases step; simp [quoting, turn, opening]
    case isFalse noOpening =>
    split at step
    case isTrue closing =>
      split at step
      · cases step
      case isFalse below =>
        cases step
        have level : ((depth - 1 : ℕ) : ℤ) = (depth : ℤ) - 1 := by omega
        simp [quoting, turn, closing, level]
    case isFalse noClosing =>
      cases step
      simp [quoting, turn, noSingle, noDouble, noOpening, noClosing]

theorem betweenLength (str : Text) (start : ℕ) (at_ : List ℕ) :
    (between str start at_).length = at_.length + 1 := by
  induction at_ generalizing start with
  | nil => rfl
  | cons i later ih => exact congrArg (· + 1) (ih (i + 1))

theorem walkStep (before : Text) (c : Char) :
    walk (before ++ [c]) = (walk before).bind (next · c) := by
  rw [walk, walk, List.foldlM_append]
  cases List.foldlM next (plain 0) before with
  | none => rfl
  | some o => exact bind_pure (o.next c)

theorem bordersFrom {before : Text} (t : Text) (str : Text) (whole : str = before ++ c :: t) :
    (List.range' before.length (t.length + 1)).filter (border str) =
      (if c = ',' ∧ InBalance before then [before.length] else []) ++
        (List.range' (before.length + 1) t.length).filter (border str) := by
  have here : border str before.length = decide (c = ',' ∧ InBalance before) := by
    simp [border, whole]
  rw [List.range'_succ, List.filter_cons, here]
  by_cases cuts : c = ',' ∧ InBalance before
  · simp [cuts]
  · simp [cuts]

theorem cutPieces {before t str : Text} {start : ℕ} (whole : str = before ++ t) (begun : start ≤ before.length)
    (reached : walk before = some o) (ends : walk str = some o') :
    cut o.quoting (before.drop start) t =
      let all := (between str start
        ((List.range' before.length t.length).filter (border str))).map trimBoth
      (decide (o' = plain 0), if o' = plain 0 then all else all.dropLast) := by
  induction t generalizing before start o with
  | nil =>
    obtain rfl : str = before := by simpa using whole
    obtain rfl : o = o' := Option.some.inj (reached.symm.trans ends)
    by_cases shut : o = plain 0
    · simp [cut, shut, quotingOut.mpr rfl, between]
    · simp [cut, shut, mt quotingOut.mp shut, between]
  | cons c t ih =>
    have longer : str = (before ++ [c]) ++ t := by simp [whole]
    have length : (before ++ [c]).length = before.length + 1 := by simp
    have counted : (c :: t).length = t.length + 1 := rfl
    obtain ⟨o₁, step⟩ : ∃ o₁, walk (before ++ [c]) = some o₁ := by
      cases stuck : walk (before ++ [c]) with
      | none =>
        rw [longer, walk, List.foldlM_append, ← walk, stuck] at ends
        cases ends
      | some o₁ => exact ⟨o₁, rfl⟩
    have turned : next o c = some o₁ := by rwa [walkStep, reached] at step
    rw [counted, bordersFrom t str whole, cut]
    have balance : (o.quoting = out ∧ c = ',') ↔ (c = ',' ∧ InBalance before) := by
      rw [quotingOut, InBalance, reached, Option.some.injEq, and_comm]
    by_cases cuts : c = ',' ∧ InBalance before
    · rw [if_pos (balance.mpr cuts), if_pos cuts]
      have stay : o₁ = o := by
        obtain ⟨rfl, inside⟩ := cuts
        obtain rfl := Option.some.inj (reached.symm.trans inside)
        exact (Option.some.inj turned).symm
      subst stay
      have rest := ih longer (show before.length + 1 ≤ (before ++ [c]).length by simp) step
      rw [List.drop_eq_nil_of_le (by simp), length] at rest
      have piece : (str.drop start).take (before.length - start) = before.drop start := by
        rw [whole, List.drop_append_of_le_length begun, List.take_left' (by simp)]
      rw [rest, List.singleton_append, between, piece]
      simp only [List.map_cons, Prod.mk.injEq, true_and]
      split
      · rfl
      · have some_ : (between str (before.length + 1)
            ((List.range' (before.length + 1) t.length).filter (border str))).map trimBoth ≠ [] := by
          rw [← List.length_pos_iff, List.length_map, betweenLength]
          exact Nat.succ_pos _
        rw [List.dropLast_cons_of_ne_nil some_]
    · rw [if_neg (mt balance.mp cuts), if_neg cuts, List.nil_append]
      have rest := ih longer (show start ≤ (before ++ [c]).length by simp; omega) step
      rw [length, List.drop_append_of_le_length begun] at rest
      rw [turnNext turned, rest]

theorem piecesCut {str : Text} (reached : walk str = some o) :
    cut out [] str =
      (decide (o = plain 0), if o = plain 0 then (pieces str).map trimBoth
        else ((pieces str).map trimBoth).dropLast) := by
  have all := cutPieces (show str = [] ++ str from rfl) (Nat.zero_le (List.length [])) rfl reached
  rw [List.length_nil, ← List.range_eq_range'] at all
  exact all

/-- An empty text has no element. Of a text whose round brackets never close before they are opened, the answer
tells whether everything is in balance; the pieces have been added then, and all but the last one otherwise. -/
theorem arrayByBalance (str : Text) (res : List Text) :
    (str = [] → getArrayFromCommaSeparatedList str res = (true, res)) ∧
      (str ≠ [] → NeverBelow str →
        ((getArrayFromCommaSeparatedList str res).1 = true ↔ InBalance str) ∧
        (pieces str).length = (borders str).length + 1 ∧
        (getArrayFromCommaSeparatedList str res).2 = res ++
          if InBalance str then (pieces str).map trimBoth else ((pieces str).map trimBoth).dropLast) := by
  constructor
  · rintro rfl
    rfl
  · intro nonempty never
    obtain ⟨o, reached⟩ := Option.ne_none_iff_exists'.mp never
    have balance : InBalance str ↔ o = plain 0 := by rw [InBalance, reached, Option.some.injEq]
    rw [getArrayFromCommaSeparatedList, if_neg (mt List.length_eq_zero_iff.mp nonempty), piecesCut reached]
    refine ⟨by simp [balance], betweenLength .., ?_⟩
    simp only [balance]

theorem nestedArray :
    (getArrayFromCommaSeparatedList "f(1, 2), 'x,y' ,".toList ["a".toList]).2 =
      ["a".toList, "f(1, 2)".toList, "'x,y'".toList, []] := by
  have got := ((arrayByBalance "f(1, 2), 'x,y' ,".toList ["a".toList]).2 (by decide) (by decide)).2.2
  rw [got]
  decide

/- No element is added for an empty text; the first one of a text left open has been added. -/
theorem emptyAndOpen : ¬ Exact [] [] ∧ ¬ Exact "a,(".toList [] := by
  constructor
  · rintro ⟨-, exact, -⟩
    exact absurd (exact rfl).1 (by decide)
  · rintro ⟨-, -, left⟩
    exact absurd (left (by decide)) (by decide)

end PgAdmin.CommaSeparatedPieces
