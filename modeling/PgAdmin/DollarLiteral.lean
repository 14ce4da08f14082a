import Mathlib.Data.Fintype.Card
import PgAdmin.Identifier
import PgAdmin.SqlLiteral
import PgAdmin.WxString

/-! The literal of a function's body, as qtDbStringDollar writes it and a server reads it. The tag in dollars is looked
for in the body alone; the end of the body and the first dollar of the closing tag can make it too. -/
namespace PgAdmin.DollarLiteral
open PgsObjects (Text)
open Substitution wxString

def delimiter (tag : Text) : Text := '$' :: tag ++ ['$']

def qtDefault : Text := ['B', 'O', 'D', 'Y']

def chooseTag (value : Text) : ℕ → Text → ℕ → Option Text
  | 0, _, _ => none
  | turns + 1, qt, counter =>
    if 0 ≤ Find value (delimiter qt) then
      chooseTag value turns (qtDefault ++ Nat.toDigits 10 counter) (counter + 1)
    else some qt

def qtDbStringDollar (turns : ℕ) (value : Text) : Option Text :=
  if Find value ['\''] < 0 ∧ Find value ['\n'] < 0 ∧ Find value ['\r'] < 0 then
    let ret := replaceAll ['\\'] "\\\\".toList value
    let ret := replaceAll ['\''] "''".toList ret
    some ('\'' :: (ret ++ ['\'']))
  else
    (chooseTag value turns qtDefault 1).map fun qt => delimiter qt ++ value ++ delimiter qt

def isTag : Text → Bool
  | [] => true
  | c :: tag => Identifier.identStart c && tag.all fun l => Identifier.identStart l || l.isDigit

/- To the first place where the delimiter stands: of another one the server puts back the last dollar. -/
def readTo (closing : Text) : Text → Option (Text × Text)
  | [] => none
  | c :: s =>
    if closing.isPrefixOf (c :: s) then some ([], (c :: s).drop closing.length)
    else (readTo closing s).map fun (value, rest) => (c :: value, rest)

/- With standard_conforming_strings on. -/
def read : Text → Option (Text × Text)
  | '\'' :: s => SqlLiteral.readBody false s
  | '$' :: s =>
    let tag := s.takeWhile (· ≠ '$')
    if isTag tag ∧ (s.drop tag.length).head? = some '$' then
      readTo (delimiter tag) (s.drop (tag.length + 1))
    else none
  | _ => none

def tagAt : ℕ → Text
  | 0 => qtDefault
  | k + 1 => qtDefault ++ Nat.toDigits 10 (k + 1)

def occurs (value : Text) (k : ℕ) : Prop := delimiter (tagAt k) <:+: value

def FirstFree (value : Text) (k : ℕ) : Prop := ¬ occurs value k ∧ ∀ j < k, occurs value j

variable {value tag : Text}

theorem tagPlain (k : ℕ) : '$' ∉ tagAt k := by
  cases k with
  | zero => decide
  | succ k =>
    rw [tagAt, List.mem_append, not_or]
    refine ⟨by decide, fun member => ?_⟩
    exact absurd (Nat.isDigit_of_mem_toDigits (by decide) (by decide) member) (by decide)

theorem tagInjective : Function.Injective tagAt := by
  have digits {a b : ℕ} (same : Nat.toDigits 10 a = Nat.toDigits 10 b) : a = b := by
    have back := congrArg (Nat.ofDigitChars 10 · 0) same
    simpa only [Nat.ofDigitChars_ten_toDigits] using back
  intro a b same
  cases a with
  | zero =>
    cases b with
    | zero => rfl
    | succ b => exact absurd (List.self_eq_append_right.mp same) Nat.toDigits_ne_nil
  | succ a =>
    cases b with
    | zero => exact absurd (List.self_eq_append_right.mp same.symm) Nat.toDigits_ne_nil
    | succ b => exact digits (List.append_cancel_left same)

theorem tagIsTag (k : ℕ) : isTag (tagAt k) = true := by
  cases k with
  | zero => decide
  | succ k =>
    have form : tagAt (k + 1) = 'B' :: (['O', 'D', 'Y'] ++ Nat.toDigits 10 (k + 1)) := rfl
    have digits : (Nat.toDigits 10 (k + 1)).all
        (fun l => Identifier.identStart l || l.isDigit) = true := by
      rw [List.all_eq_true]
      intro c member
      simp [Nat.isDigit_of_mem_toDigits (by decide) (by decide) member]
    rw [form, isTag, List.all_append, digits]
    decide

theorem delimiterOne {a b s : Text} (plain : '$' ∉ a) (plain' : '$' ∉ b) (first : delimiter a <+: s)
    (second : delimiter b <+: s) : a = b := by
  obtain ⟨x, rfl⟩ := first
  obtain ⟨y, same⟩ := second
  have bodies : b ++ '$' :: y = a ++ '$' :: x := by simpa [delimiter] using same
  have stops {w z : Text} (free : '$' ∉ w) : (w ++ '$' :: z).takeWhile (· ≠ '$') = w := by
    have all : ∀ c ∈ w, decide (c ≠ '$') = true := fun c member =>
      decide_eq_true fun dollar => free (dollar ▸ member)
    rw [List.takeWhile_append_of_pos all]
    simp
  rw [← @stops a x plain, ← bodies, @stops b y plain']

theorem someFree (value : Text) : ∃ k ≤ value.length, ¬ occurs value k := by
  by_contra all
  push Not at all
  have place (k : Fin (value.length + 1)) : ∃ i : Fin value.length, delimiter (tagAt k) <+: value.drop i := by
    obtain ⟨before, after, whole⟩ := all k (Nat.le_of_lt_succ k.isLt)
    have bound : before.length < value.length := by
      rw [← whole]
      simp [delimiter]
    have reached := congrArg (List.drop before.length) whole
    rw [List.append_assoc, List.drop_left] at reached
    exact ⟨⟨before.length, bound⟩, after, reached⟩
  choose at_ here using place
  have injective : Function.Injective at_ := by
    intro j k same
    have second := here k
    rw [← same] at second
    exact Fin.ext (tagInjective (delimiterOne (tagPlain j) (tagPlain k) (here j) second))
  have counted := Fintype.card_le_of_injective at_ injective
  rw [Fintype.card_fin, Fintype.card_fin] at counted
  omega

theorem firstFree (value : Text) : ∃ k ≤ value.length, FirstFree value k := by
  classical
  obtain ⟨k, bound, free⟩ := someFree value
  have some_ : ∃ k, ¬ occurs value k := ⟨k, free⟩
  refine ⟨Nat.find some_, (Nat.find_min' some_ free).trans bound, Nat.find_spec some_, fun j less => ?_⟩
  exact Classical.not_not.mp (Nat.find_min some_ less)

theorem chooseFirst {k : ℕ} (first : FirstFree value k) (left j : ℕ) (together : j + left = k) {turns : ℕ}
    (enough : left < turns) : chooseTag value turns (tagAt j) (j + 1) = some (tagAt k) := by
  induction left generalizing j turns with
  | zero =>
    obtain rfl : j = k := together
    obtain ⟨turns, rfl⟩ := Nat.exists_eq_succ_of_ne_zero (Nat.ne_of_gt enough)
    rw [chooseTag, if_neg (by rw [findSome]; exact first.1)]
  | succ left ih =>
    obtain ⟨turns, rfl⟩ := Nat.exists_eq_succ_of_ne_zero (Nat.ne_of_gt (Nat.zero_lt_of_lt enough))
    rw [chooseTag, if_pos (by rw [findSome]; exact first.2 j (by omega))]
    exact ih (j + 1) (by omega) (by omega)

theorem readToEnd {closing : Text} (some_ : closing ≠ []) (value : Text) :
    readTo closing (value ++ closing) = some (value, []) ↔
      ∀ before after, value = before ++ after → after ≠ [] → ¬ closing <+: after ++ closing := by
  induction value with
  | nil =>
    obtain ⟨c, s, rfl⟩ := List.exists_cons_of_ne_nil some_
    rw [List.nil_append, readTo, if_pos (List.isPrefixOf_iff_prefix.mpr List.prefix_rfl)]
    constructor
    · intro _ before after none more
      exact absurd (List.append_eq_nil_iff.mp none.symm).2 more
    · intro _
      rw [List.drop_length]
  | cons c value ih =>
    rw [List.cons_append, readTo]
    by_cases here : closing <+: c :: (value ++ closing)
    · rw [if_pos (List.isPrefixOf_iff_prefix.mpr here)]
      constructor
      · intro same
        exact absurd (congrArg Prod.fst (Option.some.inj same)) (by simp)
      · intro all
        exact absurd here (all [] (c :: value) rfl (List.cons_ne_nil _ _))
    · rw [if_neg (mt List.isPrefixOf_iff_prefix.mp here)]
      have inner : (readTo closing (value ++ closing)).map (fun (v, rest) => (c :: v, rest)) =
          some (c :: value, []) ↔ readTo closing (value ++ closing) = some (value, []) := by
        cases readTo closing (value ++ closing) with
        | none => simp
        | some found => simp [Prod.ext_iff]
      rw [inner, ih]
      constructor
      · intro all before after same more
        cases before with
        | nil =>
          obtain rfl : c :: value = after := same
          exact here
        | cons l before => exact all before after (List.cons.inj same).2 more
      · intro all before after same more
        exact all (c :: before) after (congrArg (c :: ·) same) more

theorem overlap (plain : '$' ∉ tag) {after : Text} (more : after ≠ []) :
    delimiter tag <+: after ++ delimiter tag ↔ delimiter tag <+: after ∨ after = '$' :: tag := by
  constructor
  · intro begins
    by_cases long : (delimiter tag).length ≤ after.length
    · exact .inl (List.prefix_of_prefix_length_le begins (List.prefix_append ..) long)
    · refine .inr ?_
      have short : after.length ≤ (delimiter tag).length := by omega
      obtain ⟨behind, whole⟩ := List.prefix_of_prefix_length_le (List.prefix_append after _) begins short
      have again : behind <+: delimiter tag := by
        have both := begins
        nth_rewrite 1 [← whole] at both
        exact (List.prefix_append_right_inj after).mp both
      obtain ⟨l, after, rfl⟩ := List.exists_cons_of_ne_nil more
      have some_ : behind ≠ [] := by
        rintro rfl
        rw [← whole, List.append_nil] at long
        exact long le_rfl
      obtain ⟨d, behind, rfl⟩ := List.exists_cons_of_ne_nil some_
      obtain rfl : d = '$' := (List.cons_prefix_cons.mp again).1
      obtain ⟨rfl, body⟩ : l = '$' ∧ after ++ '$' :: behind = tag ++ ['$'] := by
        simpa [delimiter] using whole
      -- a second dollar before the last letter would be in the tag
      rcases List.eq_nil_or_concat behind with rfl | ⟨front, last, rfl⟩
      · rw [List.append_cancel_right body]
      · have inside : after ++ '$' :: front = tag := by
          have ends : (after ++ '$' :: front) ++ [last] = tag ++ ['$'] := by simpa using body
          exact List.append_inj_left' ends rfl
        exact absurd (by rw [← inside]; simp) plain
  · rintro (inside | rfl)
    · exact inside.trans (List.prefix_append ..)
    · exact ⟨tag ++ ['$'], by simp [delimiter]⟩

theorem readToValue (plain : '$' ∉ tag) (free : ¬ delimiter tag <:+: value) :
    readTo (delimiter tag) (value ++ delimiter tag) = some (value, []) ↔ ¬ ('$' :: tag) <:+ value := by
  have nonempty : delimiter tag ≠ [] := List.cons_ne_nil _ _
  rw [readToEnd nonempty]
  constructor
  · rintro all ⟨before, rfl⟩
    exact all before ('$' :: tag) rfl (List.cons_ne_nil _ _)
      ((overlap plain (List.cons_ne_nil _ _)).mpr (.inr rfl))
  · rintro ends before after rfl more begins
    rcases (overlap plain more).mp begins with inside | rfl
    · exact free (inside.isInfix.trans (List.suffix_append ..).isInfix)
    · exact ends (List.suffix_append ..)

theorem readDollar (plain : '$' ∉ tag) (word : isTag tag = true) (body : Text) :
    read (delimiter tag ++ body) = readTo (delimiter tag) body := by
  have all : ∀ c ∈ tag, decide (c ≠ '$') = true := fun c member =>
    decide_eq_true fun dollar => plain (dollar ▸ member)
  have opening : (tag ++ '$' :: body).takeWhile (· ≠ '$') = tag := by
    rw [List.takeWhile_append_of_pos all]
    simp
  have text : delimiter tag ++ body = '$' :: (tag ++ '$' :: body) := by simp [delimiter]
  rw [text, read, opening]
  simp [word]

/- When a value is read back from its literal. -/
def Sound (value : Text) : Prop :=
  if '\'' ∉ value ∧ '\n' ∉ value ∧ '\r' ∉ value then '\\' ∉ value
  else ∀ k, FirstFree value k → ¬ ('$' :: tagAt k) <:+ value

theorem plainRead {rest : Text} (free : '\'' ∉ value) :
    SqlLiteral.readBody false (value ++ '\'' :: rest) =
      (SqlLiteral.readBody false ('\'' :: rest)).map fun (v, behind) => (value ++ v, behind) := by
  induction value with
  | nil => simp
  | cons c value ih =>
    obtain ⟨here, later⟩ : '\'' ≠ c ∧ '\'' ∉ value := by simpa using free
    have stepped (s : Text) (s_ : s ≠ []) : SqlLiteral.readBody false (c :: s) =
        (SqlLiteral.readBody false s).map fun (v, behind) => (c :: v, behind) := by
      obtain ⟨d, s, rfl⟩ := List.exists_cons_of_ne_nil s_
      by_cases backslash : c = '\\'
      · subst backslash
        simp [SqlLiteral.readBody]
      · simp [SqlLiteral.readBody, backslash, here.symm]
    rw [List.cons_append, stepped _ (by simp), ih later, Option.map_map]
    rfl

theorem findNone (c : Char) : Find value [c] < 0 ↔ c ∉ value := by
  rw [← findLetter, not_le]

theorem shortRead (free : '\'' ∉ value) :
    read ('\'' :: (value.flatMap SqlLiteral.doubled ++ ['\''])) = some (value, []) ↔ '\\' ∉ value := by
  have still : '\'' ∉ value.flatMap SqlLiteral.doubled := by
    intro member
    obtain ⟨c, inside, made⟩ := List.mem_flatMap.mp member
    unfold SqlLiteral.doubled at made
    obtain rfl : '\'' = c := by
      split at made <;> simpa using made
    exact free inside
  have got : read ('\'' :: (value.flatMap SqlLiteral.doubled ++ ['\''])) =
      some (value.flatMap SqlLiteral.doubled, []) := by
    rw [read, plainRead still]
    simp [SqlLiteral.readBody]
  rw [got, Option.some.injEq, Prod.mk.injEq, and_iff_left rfl]
  constructor
  · intro same backslash
    have longer : value.length < (value.flatMap SqlLiteral.doubled).length := by
      clear same still got free
      have most (v : Text) : v.length ≤ (v.flatMap SqlLiteral.doubled).length := by
        induction v with
        | nil => exact le_rfl
        | cons c v ih =>
          rw [List.flatMap_cons, List.length_append, List.length_cons]
          have one : 1 ≤ (SqlLiteral.doubled c).length := by unfold SqlLiteral.doubled; split <;> simp
          omega
      obtain ⟨before, after, rfl⟩ := List.append_of_mem backslash
      have front := most before
      have behind := most after
      rw [List.flatMap_append, List.flatMap_cons, List.length_append, List.length_append, List.length_append,
        List.length_cons, show (SqlLiteral.doubled '\\').length = 2 by rfl]
      omega
    rw [same] at longer
    exact absurd longer (lt_irrefl _)
  · intro none
    have single : ∀ c ∈ value, SqlLiteral.doubled c = [c] := by
      intro c member
      have noBackslash : c ≠ '\\' := fun same => none (same ▸ member)
      have noQuote : c ≠ '\'' := fun same => free (same ▸ member)
      simp [SqlLiteral.doubled, noBackslash, noQuote]
    rw [List.flatMap_congr single]
    simp

/-- The literal is made in few turns. Its short form is read as the value exactly when it has no backslash, the other
one when the value does not end with a dollar and the first free tag. -/
theorem bodyRead (value : Text) {turns : ℕ} (enough : value.length < turns) :
    ∃ literal, qtDbStringDollar turns value = some literal ∧
      (read literal = some (value, []) ↔ Sound value) := by
  by_cases short : '\'' ∉ value ∧ '\n' ∉ value ∧ '\r' ∉ value
  · refine ⟨_, by rw [qtDbStringDollar, if_pos (by simpa only [findNone] using short)], ?_⟩
    rw [SqlLiteral.replacedTwice, shortRead short.1, Sound, if_pos short]
  · obtain ⟨k, bound, first⟩ := firstFree value
    have chosen := chooseFirst first k 0 (Nat.zero_add k) (Nat.lt_of_le_of_lt bound enough)
    refine ⟨delimiter (tagAt k) ++ value ++ delimiter (tagAt k), ?_, ?_⟩
    · rw [qtDbStringDollar, if_neg (by simpa only [findNone] using short)]
      exact congrArg (Option.map _) chosen
    · rw [List.append_assoc, readDollar (tagPlain k) (tagIsTag k), readToValue (tagPlain k) first.1, Sound,
        if_neg short]
      constructor
      · intro ends j other
        rcases Nat.lt_trichotomy j k with less | rfl | more
        · exact absurd (first.2 j less) other.1
        · exact ends
        · exact absurd (other.2 k more) first.1
      · exact fun all => all k first

theorem twoLinesRead : ∃ literal, qtDbStringDollar 4 "a\nb".toList = some literal ∧
    (read literal = some ("a\nb".toList, []) ↔ Sound "a\nb".toList) :=
  bodyRead "a\nb".toList (by decide)

/- A body that ends with a dollar and the tag, and one with a backslash. -/
theorem bodyChanged :
    (¬ ∃ literal, qtDbStringDollar 8 "'$BODY".toList = some literal ∧
      read literal = some ("'$BODY".toList, [])) ∧
    ¬ ∃ literal, qtDbStringDollar 8 "a\\".toList = some literal ∧
      read literal = some ("a\\".toList, []) := by
  constructor
  · rintro ⟨literal, made, got⟩
    have literal_ : qtDbStringDollar 8 "'$BODY".toList = some "$BODY$'$BODY$BODY$".toList := by decide
    obtain rfl := Option.some.inj (literal_.symm.trans made)
    exact absurd got (by decide)
  · rintro ⟨literal, made, got⟩
    have literal_ : qtDbStringDollar 8 "a\\".toList = some "'a\\\\'".toList := by decide
    obtain rfl := Option.some.inj (literal_.symm.trans made)
    exact absurd got (by decide)

end PgAdmin.DollarLiteral
