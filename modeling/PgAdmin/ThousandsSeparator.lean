import PgAdmin.Substitution
import PgAdmin.WxString

/-! sqlResultTable::GetValue: the text of a cell of the result grid. In a column of numbers the separator of the
thousands goes to every third place in front of the decimal mark. -/
namespace PgAdmin.sqlResultTable
open PgsObjects (Text)
open wxString Substitution

inductive pgTypClass where
  | NUMERIC | BOOL | STRING | DATE | OTHER
  deriving DecidableEq

structure sysSettings where
  GetIndicateNull : Bool
  GetDecimalMark : Text
  GetThousandsSeparator : Text
  GetMaxColSize : ℕ

structure pgSet where
  ColName : ℤ → Text
  ColTypClass : ℤ → pgTypClass
  IsNull : ℕ → ℤ → Bool
  GetVal : ℕ → ℤ → Text

def insert (s : Text) (pos : ℕ) (str : Text) : Text := s.take pos ++ str ++ s.drop pos

def separate (separator : Text) : ℕ → Text → Text
  | pos + 4, s =>
    separate separator (pos + 1)
      (if 1 < pos + 1 ∨ ¬ ['-'].isPrefixOf s then insert s (pos + 1) separator else s)
  | _, s => s

def marked (settings : sysSettings) (s : Text) : Text × Text :=
  if 0 < settings.GetDecimalMark.length then
    (settings.GetDecimalMark, replaceAll ['.'] settings.GetDecimalMark s)
  else (['.'], s)

def markPlace (decimalMark s : Text) : ℕ := if 0 ≤ Find s decimalMark then (Find s decimalMark).toNat else s.length

/- Without data the text is empty. -/
def GetValue (settings : sysSettings) (thread : Option pgSet) (row : ℕ) (col : ℤ) : Text :=
  match thread with
  | none => []
  | some DataSet =>
    if 0 ≤ col then
      if settings.GetIndicateNull && DataSet.IsNull row col then "<NULL>".toList
      else if DataSet.ColTypClass col = .NUMERIC ∧ 0 < settings.GetThousandsSeparator.length then
        let (decimalMark, s) := marked settings (DataSet.GetVal row col)
        separate settings.GetThousandsSeparator (markPlace decimalMark s) s
      else
        let data := DataSet.GetVal row col
        if settings.GetMaxColSize < data.length then data.take settings.GetMaxColSize ++ " (...)".toList else data
    else DataSet.ColName col

def spaced (separator : Text) (places : ℕ → Prop) [DecidablePred places] : ℕ → Text → Text
  | _, [] => []
  | i, c :: s => (if places i then separator else []) ++ c :: spaced separator places (i + 1) s

/- Where the integer part of a value starts and where it ends: the digits in front of the point or, without one, the
first digits there are. -/
def integerPart (value : Text) : ℕ × ℕ :=
  if '.' ∈ value then
    let before := value.takeWhile (· ≠ '.')
    (before.length - (before.reverse.takeWhile Char.isDigit).length, before.length)
  else
    let front := value.takeWhile (!Char.isDigit ·)
    (front.length, front.length + ((value.drop front.length).takeWhile Char.isDigit).length)

def groupPlace (start stop i : ℕ) : Prop := start < i ∧ i < stop ∧ 3 ∣ stop - i

instance (start stop : ℕ) : DecidablePred (groupPlace start stop) := fun _ => inferInstanceAs (Decidable (_ ∧ _ ∧ _))

def loopPlace (minus : Bool) (pos i : ℕ) : Prop := 0 < i ∧ i < pos ∧ 3 ∣ pos - i ∧ ¬ (i = 1 ∧ minus = true)

instance (minus : Bool) (pos : ℕ) : DecidablePred (loopPlace minus pos) :=
  fun _ => inferInstanceAs (Decidable (_ ∧ _ ∧ _ ∧ _))

variable {separator s t : Text} {places others : ℕ → Prop} [DecidablePred places] [DecidablePred others] {i : ℕ}

theorem spacedAppend (separator : Text) (places : ℕ → Prop) [DecidablePred places] (i : ℕ) (s t : Text) :
    spaced separator places i (s ++ t) =
      spaced separator places i s ++ spaced separator places (i + s.length) t := by
  induction s generalizing i with
  | nil => rfl
  | cons c s ih =>
    have shift : i + 1 + s.length = i + (c :: s).length := by
      rw [List.length_cons]
      omega
    rw [List.cons_append, spaced, spaced, ih, shift]
    simp

theorem spacedSame (same : ∀ j, i ≤ j → j < i + s.length → (places j ↔ others j)) :
    spaced separator places i s = spaced separator others i s := by
  induction s generalizing i with
  | nil => rfl
  | cons c s ih =>
    have here := same i (Nat.le_refl i) (by simp)
    have later := @ih (i + 1) fun j after before => same j (by omega) (by rw [List.length_cons]; omega)
    rw [spaced, spaced, later, if_congr here rfl rfl]

theorem spacedNone (none : ∀ j, i ≤ j → j < i + s.length → ¬ places j) : spaced separator places i s = s := by
  induction s generalizing i with
  | nil => rfl
  | cons c s ih =>
    have later := @ih (i + 1) fun j after before => none j (by omega) (by rw [List.length_cons]; omega)
    rw [spaced, later, if_neg (none i (Nat.le_refl i) (by simp))]
    rfl

theorem spacedInjective (some : separator ≠ []) (apart : ∀ c ∈ separator, c ∉ s) :
    spaced separator places i s = spaced separator others i s ↔
      ∀ j, i ≤ j → j < i + s.length → (places j ↔ others j) := by
  refine ⟨?_, spacedSame⟩
  induction s generalizing i with
  | nil =>
    intro _ j after before
    exact absurd before (Nat.not_lt.mpr after)
  | cons c s ih =>
    intro same
    obtain ⟨l, separators, rfl⟩ := List.exists_cons_of_ne_nil some
    have other : l ≠ c := fun first => apart l List.mem_cons_self (first ▸ List.mem_cons_self)
    have step (rest : spaced (l :: separators) places (i + 1) s = spaced (l :: separators) others (i + 1) s)
        (here : places i ↔ others i) (j : ℕ) (after : i ≤ j) (before : j < i + (c :: s).length) :
        places j ↔ others j := by
      rw [List.length_cons] at before
      rcases Nat.eq_or_lt_of_le after with rfl | after
      · exact here
      · exact ih (fun d member inside => apart d member (List.mem_cons_of_mem c inside)) rest j after (by omega)
    rw [spaced, spaced] at same
    by_cases first : places i <;> by_cases second : others i
    · rw [if_pos first, if_pos second] at same
      exact step (List.cons.inj (List.append_cancel_left same)).2 (iff_of_true first second)
    · rw [if_pos first, if_neg second] at same
      exact absurd (List.cons.inj same).1 other
    · rw [if_neg first, if_pos second] at same
      exact absurd (List.cons.inj same).1.symm other
    · rw [if_neg first, if_neg second] at same
      exact step (List.cons.inj same).2 (iff_of_false first second)

theorem spacedRemoved (some : separator ≠ []) (apart : ∀ c ∈ separator, c ∉ s) :
    replaceAll separator [] (spaced separator places i s) = s := by
  induction s generalizing i with
  | nil => rfl
  | cons c s ih =>
    have rest := @ih (i + 1) fun d member inside => apart d member (List.mem_cons_of_mem c inside)
    have kept : replaceAll separator [] (c :: spaced separator places (i + 1) s) = c :: s := by
      rw [replaceAllMiss, rest]
      obtain ⟨l, separators, rfl⟩ := List.exists_cons_of_ne_nil some
      rw [List.cons_prefix_cons]
      exact fun starts => apart l List.mem_cons_self (starts.1 ▸ List.mem_cons_self)
    rw [spaced]
    split
    · rw [replaceAllHit some, kept, List.nil_append]
    · exact kept

theorem separateShort {pos : ℕ} (short : pos ≤ 3) (s : Text) : separate separator pos s = s := by
  rcases pos with _ | _ | _ | _ | pos
  · rfl
  · rfl
  · rfl
  · rfl
  · exact absurd short (by omega)

theorem loopShift {minus : Bool} {place j : ℕ} (before : j < place + 1) :
    loopPlace minus (place + 4) j ↔ loopPlace minus (place + 1) j := by
  have less : j < place + 4 ↔ j < place + 1 := by omega
  have threes : 3 ∣ place + 4 - j ↔ 3 ∣ place + 1 - j := by omega
  rw [loopPlace, loopPlace, less, threes]

theorem loopNext (minus : Bool) (place : ℕ) :
    loopPlace minus (place + 4) (place + 1) ↔ 1 < place + 1 ∨ ¬ minus = true := by
  constructor
  · rintro ⟨-, -, -, skipped⟩
    by_cases first : place = 0
    · exact .inr fun isMinus => skipped ⟨by omega, isMinus⟩
    · exact .inl (by omega)
  · intro either
    refine ⟨by omega, by omega, by omega, ?_⟩
    rintro ⟨first, isMinus⟩
    rcases either with later | plus
    · omega
    · exact plus isMinus

theorem separateSpaced (separator before after : Text) :
    separate separator before.length (before ++ after) =
      spaced separator (loopPlace (['-'].isPrefixOf (before ++ after)) before.length) 0 before ++ after := by
  induction length : before.length using Nat.strong_induction_on generalizing before after with
  | _ pos ih =>
    by_cases short : pos ≤ 3
    · rw [separateShort short, spacedNone]
      rintro j - - ⟨positive, less, threes, -⟩
      omega
    · obtain ⟨place, rfl⟩ : ∃ place, pos = place + 4 := ⟨pos - 4, by omega⟩
      obtain ⟨front, group, rfl, frontLength, groupLength⟩ :
          ∃ front group, before = front ++ group ∧ front.length = place + 1 ∧ group.length = 3 := by
        refine ⟨before.take (place + 1), before.drop (place + 1), (List.take_append_drop _ _).symm, ?_, ?_⟩
        · rw [List.length_take]
          omega
        · rw [List.length_drop]
          omega
      obtain ⟨c, rest, rfl⟩ := List.exists_cons_of_length_eq_add_one frontLength
      have first (tail : Text) : ['-'].isPrefixOf (c :: rest ++ tail) = decide (c = '-') := by
        rw [Bool.eq_iff_iff, List.isPrefixOf_iff_prefix, List.cons_append, List.cons_prefix_cons, decide_eq_true_eq]
        simp [eq_comm]
      have whole (tail : Text) := ih (place + 1) (by omega) (c :: rest) tail frontLength
      have front : spaced separator (loopPlace (decide (c = '-')) (place + 4)) 0 (c :: rest) =
          spaced separator (loopPlace (decide (c = '-')) (place + 1)) 0 (c :: rest) := by
        refine spacedSame fun j _ inside => ?_
        rw [frontLength, Nat.zero_add] at inside
        exact loopShift inside
      have last : spaced separator (loopPlace (decide (c = '-')) (place + 4)) (place + 1) group =
          (if 1 < place + 1 ∨ ¬ decide (c = '-') = true then separator else []) ++ group := by
        obtain ⟨x, y, z, rfl⟩ := List.length_eq_three.mp groupLength
        have second : ¬ loopPlace (decide (c = '-')) (place + 4) (place + 1 + 1) := by
          rintro ⟨_, _, threes, _⟩
          omega
        have third : ¬ loopPlace (decide (c = '-')) (place + 4) (place + 1 + 1 + 1) := by
          rintro ⟨_, _, threes, _⟩
          omega
        have here := loopNext (decide (c = '-')) place
        simp only [spaced, second, third, if_false, List.nil_append, if_congr here rfl rfl]
      rw [List.append_assoc, first, spacedAppend, Nat.zero_add, frontLength, front, last, separate, first]
      split
      · have inserted : insert (c :: rest ++ (group ++ after)) (place + 1) separator =
            c :: rest ++ (separator ++ (group ++ after)) := by
          rw [insert, ← frontLength, List.take_left, List.drop_left, List.append_assoc]
        rw [inserted, whole, first]
        simp
      · rw [whole, first]
        simp

theorem markWithin (decimalMark s : Text) : markPlace decimalMark s ≤ s.length := by
  unfold markPlace
  split
  case isFalse => exact Nat.le_refl _
  case isTrue found =>
    unfold Find at found ⊢
    cases index : s.tails.findIdx? decimalMark.isPrefixOf with
    | none => simp [index] at found
    | some i =>
      obtain ⟨inside, -⟩ := List.findIdx?_eq_some_iff_getElem.mp index
      rw [List.length_tails] at inside
      exact Nat.le_of_lt_succ inside

theorem markedKeeps (settings : sysSettings) (value : Text) :
    value.takeWhile (· ≠ '.') <+: (marked settings value).2 := by
  unfold marked
  split
  · have front : ∀ s : Text, s.takeWhile (· ≠ '.') <+:
        s.flatMap fun c => if c = '.' then settings.GetDecimalMark else [c] := by
      intro s
      induction s with
      | nil => exact List.nil_prefix
      | cons c s ih =>
        by_cases point : c = '.'
        · simp [point]
        · rw [List.takeWhile_cons_of_pos (by simpa using point), List.flatMap_cons, if_neg point]
          exact List.cons_prefix_cons.mpr ⟨rfl, ih⟩
    rw [replaceLetter]
    exact front value
  · exact List.takeWhile_prefix _

theorem markedWhole {settings : sysSettings} {value : Text} (noPoint : '.' ∉ value) :
    (marked settings value).2 = value := by
  have whole : value.takeWhile (· ≠ '.') = value :=
    List.takeWhile_eq_self_iff.mpr fun c member => by simpa using fun same : c = '.' => noPoint (same ▸ member)
  unfold marked
  split
  · rw [replaceLetter]
    have each : ∀ c ∈ value, (if c = '.' then settings.GetDecimalMark else [c]) = [c] := fun c member =>
      if_neg fun same : c = '.' => noPoint (same ▸ member)
    rw [List.flatMap_congr each, List.flatMap_singleton']
  · rfl

structure Within (start stop : ℕ) (s : Text) : Prop where
  ordered : start ≤ stop
  inside : stop ≤ s.length
  minus : ['-'].isPrefixOf s = true → start < stop → 0 < start

theorem integerWithin (settings : sysSettings) (value : Text) :
    Within (integerPart value).1 (integerPart value).2 (marked settings value).2 := by
  unfold integerPart
  split
  case isTrue =>
    have kept := markedKeeps settings value
    refine ⟨Nat.sub_le _ _, kept.length_le, fun minus less => ?_⟩
    obtain ⟨tail, whole⟩ := kept
    obtain ⟨rest, first⟩ := List.isPrefixOf_iff_prefix.mp minus
    generalize value.takeWhile (· ≠ '.') = before at whole less ⊢
    cases before with
    | nil => exact absurd less (Nat.not_lt_zero _)
    | cons c before =>
      obtain rfl : c = '-' := (List.cons.inj (whole.trans first.symm)).1
      have digits : (('-' :: before).reverse.takeWhile Char.isDigit).length < ('-' :: before).reverse.length := by
        refine Nat.lt_of_le_of_ne (List.takeWhile_prefix _).length_le fun all => ?_
        have each := List.takeWhile_eq_self_iff.mp ((List.takeWhile_prefix _).eq_of_length all)
        exact absurd (each '-' (by simp)) (by decide)
      rw [List.length_reverse] at digits
      exact Nat.sub_pos_of_lt digits
  case isFalse noPoint =>
    rw [markedWhole noPoint]
    have front := (List.takeWhile_prefix (l := value) (!Char.isDigit ·)).length_le
    have digits := (List.takeWhile_prefix (l := value.drop (value.takeWhile (!Char.isDigit ·)).length)
      Char.isDigit).length_le
    rw [List.length_drop] at digits
    refine ⟨Nat.le_add_right _ _, ?_, fun minus less => ?_⟩
    · show (value.takeWhile (!Char.isDigit ·)).length + _ ≤ _
      omega
    · obtain ⟨rest, rfl⟩ := List.isPrefixOf_iff_prefix.mp minus
      exact Nat.succ_pos _

theorem placesSame {minus : Bool} {pos start stop length : ℕ} (ordered : start ≤ stop) (inside : stop ≤ length)
    (front : minus = true → start < stop → 0 < start) (place : pos ≤ length) :
    (∀ j, j < length → (loopPlace minus pos j ↔ groupPlace start stop j)) ↔
      (pos = stop ∧ ∀ i, 0 < i → i ≤ start → i < stop → 3 ∣ stop - i → i = 1 ∧ minus = true) ∨
        ((pos ≤ 3 ∨ pos = 4 ∧ minus = true) ∧ stop ≤ start + 3) := by
  have loopNone (few : pos ≤ 3 ∨ pos = 4 ∧ minus = true) (j : ℕ) : ¬ loopPlace minus pos j := by
    rintro ⟨positive, less, threes, skipped⟩
    rcases few with few | ⟨four, isMinus⟩
    · omega
    · exact skipped ⟨by omega, isMinus⟩
  constructor
  · intro same
    by_cases ends : pos = stop
    · refine .inl ⟨ends, fun i positive before less threes => ?_⟩
      by_contra other
      have here : loopPlace minus pos i := ⟨positive, by omega, ends ▸ threes, other⟩
      have group := (same i (by omega)).mp here
      exact absurd group.1 (Nat.not_lt.mpr before)
    · have few : pos ≤ 3 ∨ pos = 4 ∧ minus = true := by
        by_contra many
        push Not at many
        obtain ⟨long, four⟩ := many
        have here : loopPlace minus pos (pos - 3) :=
          ⟨by omega, by omega, by omega, fun skip => four (by omega) skip.2⟩
        obtain ⟨first, second, threes⟩ := (same (pos - 3) (by omega)).mp here
        have last : groupPlace start stop (stop - 3) := ⟨by omega, by omega, by omega⟩
        have again := ((same (stop - 3) (by omega)).mpr last).2.1
        omega
      refine .inr ⟨few, ?_⟩
      by_contra long
      have group : groupPlace start stop (stop - 3) := ⟨by omega, by omega, by omega⟩
      exact loopNone few _ ((same (stop - 3) (by omega)).mpr group)
  · rintro (⟨rfl, none⟩ | ⟨few, short⟩) j less
    · constructor
      · rintro ⟨positive, before, threes, skipped⟩
        refine ⟨?_, before, threes⟩
        by_contra early
        exact skipped (none j positive (by omega) before threes)
      · rintro ⟨after, before, threes⟩
        refine ⟨by omega, before, threes, ?_⟩
        rintro ⟨rfl, isMinus⟩
        have positive := front isMinus (by omega)
        omega
    · refine iff_of_false (loopNone few j) ?_
      rintro ⟨after, before, threes⟩
      omega

def grouped (settings : sysSettings) (value : Text) : Text :=
  spaced settings.GetThousandsSeparator (groupPlace (integerPart value).1 (integerPart value).2) 0
    (marked settings value).2

/- The mark that is found ends the integer part, and no place to its left is taken for one of a group; or neither
the integer part nor what stands in front of the mark found is longer than a group. -/
def Regular (settings : sysSettings) (value : Text) : Prop :=
  let (decimalMark, s) := marked settings value
  let (start, stop) := integerPart value
  let pos := markPlace decimalMark s
  let minus := ['-'].isPrefixOf s
  (pos = stop ∧ ∀ i, 0 < i → i ≤ start → i < stop → 3 ∣ stop - i → i = 1 ∧ minus = true) ∨
    ((pos ≤ 3 ∨ pos = 4 ∧ minus = true) ∧ stop ≤ start + 3)

theorem numericShown {settings : sysSettings} {set : pgSet} {row : ℕ} {col : ℤ} (column : 0 ≤ col)
    (numeric : set.ColTypClass col = .NUMERIC) (value : set.IsNull row col = false)
    (some : settings.GetThousandsSeparator ≠ []) :
    GetValue settings (Option.some set) row col =
      spaced settings.GetThousandsSeparator
        (loopPlace (['-'].isPrefixOf (marked settings (set.GetVal row col)).2)
          (markPlace (marked settings (set.GetVal row col)).1 (marked settings (set.GetVal row col)).2)) 0
        (marked settings (set.GetVal row col)).2 := by
  have present : ¬ (settings.GetIndicateNull && set.IsNull row col) = true := by simp [value]
  have separators : set.ColTypClass col = .NUMERIC ∧ 0 < settings.GetThousandsSeparator.length :=
    ⟨numeric, List.length_pos_iff.mpr some⟩
  simp only [GetValue, if_pos column, if_neg present, if_pos separators]
  generalize marked settings (set.GetVal row col) = shown
  obtain ⟨decimalMark, s⟩ := shown
  have within := markWithin decimalMark s
  generalize markPlace decimalMark s = pos at within ⊢
  have length : (s.take pos).length = pos := List.length_take_of_le within
  have front := separateSpaced settings.GetThousandsSeparator (s.take pos) (s.drop pos)
  rw [length, List.take_append_drop] at front
  rw [front]
  generalize ['-'].isPrefixOf s = minus
  have whole := spacedAppend settings.GetThousandsSeparator (loopPlace minus pos) 0 (s.take pos) (s.drop pos)
  have behind : spaced settings.GetThousandsSeparator (loopPlace minus pos) pos (s.drop pos) = s.drop pos :=
    spacedNone fun j after _ place => absurd place.2.1 (Nat.not_lt.mpr after)
  rw [List.take_append_drop, Nat.zero_add, length, behind] at whole
  exact whole.symm

/-- The cell of a number shows its value with separators, and those between the groups of the integer digits just
when the value is regular. -/
theorem separatorGrouped {settings : sysSettings} {set : pgSet} {row : ℕ} {col : ℤ} (column : 0 ≤ col)
    (numeric : set.ColTypClass col = .NUMERIC) (value : set.IsNull row col = false)
    (some : settings.GetThousandsSeparator ≠ [])
    (apart : ∀ c ∈ settings.GetThousandsSeparator, c ∉ (marked settings (set.GetVal row col)).2) :
    GetValue settings (Option.some set) row col = grouped settings (set.GetVal row col) ∧
        replaceAll settings.GetThousandsSeparator [] (GetValue settings (Option.some set) row col) =
          (marked settings (set.GetVal row col)).2 ↔
      Regular settings (set.GetVal row col) := by
  rw [numericShown column numeric value some, spacedRemoved some apart, grouped, spacedInjective some apart]
  obtain ⟨ordered, inside, minus⟩ := integerWithin settings (set.GetVal row col)
  have same := placesSame ordered inside minus (markWithin (marked settings (set.GetVal row col)).1 _)
  rw [and_iff_left rfl]
  refine Iff.trans ?_ same
  simp

def million : Text := ['-', '1', '2', '3', '4', '5', '6', '7', '.', '5']
def exponent : Text := ['1', 'e', '+', '2', '0']

def oneCell (value : Text) : pgSet where
  ColName _ := []
  ColTypClass _ := .NUMERIC
  IsNull _ _ := false
  GetVal _ _ := value

def apostrophes : sysSettings where
  GetIndicateNull := false
  GetDecimalMark := []
  GetThousandsSeparator := ['\'']
  GetMaxColSize := 256

theorem noApostrophe {s : Text} (free : '\'' ∉ s) : ∀ c ∈ apostrophes.GetThousandsSeparator, c ∉ s := by
  intro c member
  rwa [List.mem_singleton.mp member]

theorem millionGrouped :
    GetValue apostrophes (some (oneCell million)) 0 0 = grouped apostrophes million ∧
        replaceAll apostrophes.GetThousandsSeparator []
          (GetValue apostrophes (some (oneCell million)) 0 0) =
          (marked apostrophes million).2 ↔
      Regular apostrophes million :=
  @separatorGrouped apostrophes (oneCell million) 0 0 (by decide) rfl rfl (List.cons_ne_nil _ _)
    (noApostrophe (by decide))

/- The exponent is counted as digits. -/
theorem exponentSeparated : ¬ ∀ (settings : sysSettings) (set : pgSet) (row : ℕ) (col : ℤ),
    0 ≤ col → set.ColTypClass col = .NUMERIC → set.IsNull row col = false →
      settings.GetThousandsSeparator ≠ [] →
      (∀ c ∈ settings.GetThousandsSeparator, c ∉ (marked settings (set.GetVal row col)).2) →
      GetValue settings (some set) row col = grouped settings (set.GetVal row col) ∧
        replaceAll settings.GetThousandsSeparator [] (GetValue settings (some set) row col) =
          (marked settings (set.GetVal row col)).2 := by
  intro shown
  have cell := shown apostrophes (oneCell exponent) 0 0 (by decide) rfl rfl (List.cons_ne_nil _ _)
    (noApostrophe (by decide))
  exact absurd cell.1 (by decide)

end PgAdmin.sqlResultTable
