import PgAdmin.PgsObjects

/-! The functions of wxString that several parts of the program use. -/
namespace PgAdmin.wxString
open PgsObjects (Text)

def Find (str sub : Text) : ℤ := (str.tails.findIdx? sub.isPrefixOf).elim (-1) fun i => i

def isSpace (c : Char) : Bool := c ∈ [' ', '\t', '\n', '\x0b', '\x0c', '\r']

/- Trim() takes white space off the end. -/
def Trim (str : Text) : Text := str.rdropWhile isSpace

def Right (str : Text) (count : ℕ) : Text := str.drop (str.length - count)

def Mid (str : Text) (first count : ℕ) : Text := (str.drop first).take count

def BeforeFirst (str : Text) (c : Char) : Text := str.takeWhile (· ≠ c)

def AfterFirst (str : Text) (c : Char) : Text := (str.dropWhile (· ≠ c)).drop 1

def BeforeLast (str : Text) (c : Char) : Text :=
  ((str.reverse.dropWhile (· ≠ c)).drop 1).reverse

theorem findSome (str sub : Text) : 0 ≤ Find str sub ↔ sub <:+: str := by
  have found : 0 ≤ Find str sub ↔ (str.tails.findIdx? sub.isPrefixOf).isSome := by
    unfold Find
    cases str.tails.findIdx? sub.isPrefixOf with
    | none => simp
    | some i => simp
  rw [found, List.findIdx?_isSome, List.any_eq_true]
  constructor
  · rintro ⟨rest, tail, here⟩
    exact (List.isPrefixOf_iff_prefix.mp here).isInfix.trans ((List.mem_tails _ _).mp tail).isInfix
  · rintro ⟨before, after, rfl⟩
    exact ⟨sub ++ after, (List.mem_tails _ _).mpr ⟨before, (List.append_assoc ..).symm⟩,
      List.isPrefixOf_iff_prefix.mpr ⟨after, rfl⟩⟩

theorem findLetter (str : Text) (c : Char) : 0 ≤ Find str [c] ↔ c ∈ str := by
  rw [findSome]
  exact ⟨fun inside => inside.subset (List.mem_singleton_self c), fun member => by
    obtain ⟨before, after, rfl⟩ := List.append_of_mem member
    exact ⟨before, after, by simp⟩⟩

theorem beforeFirstStop {str : Text} {c : Char} (free : c ∉ str) (rest : Text) :
    BeforeFirst (str ++ c :: rest) c = str := by
  have all : ∀ l ∈ str, decide (l ≠ c) = true := fun l member =>
    decide_eq_true fun same => free (same ▸ member)
  rw [BeforeFirst, List.takeWhile_append_of_pos all]
  simp

theorem afterFirstStop {str : Text} {c : Char} (free : c ∉ str) (rest : Text) :
    AfterFirst (str ++ c :: rest) c = rest := by
  have all : ∀ l ∈ str, decide (l ≠ c) = true := fun l member =>
    decide_eq_true fun same => free (same ▸ member)
  rw [AfterFirst, List.dropWhile_append_of_pos all]
  simp

theorem beforeLastStop (str : Text) {c : Char} {rest : Text} (free : c ∉ rest) :
    BeforeLast (str ++ c :: rest) c = str := by
  have turned : (str ++ c :: rest).reverse = rest.reverse ++ c :: str.reverse := by simp
  have free' : c ∉ rest.reverse := by simpa using free
  have stop := afterFirstStop free' str.reverse
  rw [BeforeLast, turned]
  exact (congrArg List.reverse stop).trans (List.reverse_reverse str)

end PgAdmin.wxString
