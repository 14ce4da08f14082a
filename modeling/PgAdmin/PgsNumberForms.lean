import PgAdmin.PgsRecordLines
import PgAdmin.PgsScannerTokens

/-! Which texts pgsNumber::num_type takes for an integer and which for a real. The tokens that the scanner
returns for numbers are such texts. -/
namespace PgAdmin.PgsObjects.PgsNumber
open Regular

theorem signIff (s : Text) : s ∈ sign.language ↔ s = [] ∨ s = ['+'] ∨ s = ['-'] := by
  constructor
  · rintro (⟨c, either, rfl⟩ | rfl)
    · simp only [Bool.or_eq_true, decide_eq_true_eq] at either
      rcases either with rfl | rfl
      · exact .inr (.inl rfl)
      · exact .inr (.inr rfl)
    · exact .inl rfl
  · rintro (rfl | rfl | rfl)
    · exact .inr rfl
    · exact .inl ⟨'+', rfl, rfl⟩
    · exact .inl ⟨'-', rfl, rfl⟩

theorem unsigned {r : Regular Char} {s : Text} (member : s ∈ r.language) : s ∈ (cat sign r).language :=
  Language.mem_mul.mpr ⟨[], (signIff []).mpr (.inl rfl), s, member, rfl⟩

theorem integerIff (s : Text) : numType s = .pgsTInt ↔ s ∈ integerForm1.language := by
  rw [← acceptsIff, numType]
  by_cases integer : integerForm1.accepts s
  · simp [integer]
  · rw [if_neg integer]
    refine ⟨fun same => ?_, fun no => absurd no integer⟩
    split at same <;> cases same

theorem integerOf {front digits : Text} (signed : front = [] ∨ front = ['+'] ∨ front = ['-'])
    (some : digits ≠ []) (all : ∀ c ∈ digits, c.isDigit) : numType (front ++ digits) = .pgsTInt := by
  rw [integerIff]
  exact Language.mem_mul.mpr ⟨front, (signIff front).mpr signed, digits, (testPlus _ _).mpr ⟨some, all⟩, rfl⟩

theorem integerParts {s : Text} (integer : numType s = .pgsTInt) :
    ∃ front digits, (front = [] ∨ front = ['+'] ∨ front = ['-']) ∧ digits ≠ [] ∧ (∀ c ∈ digits, c.isDigit) ∧
      s = front ++ digits := by
  obtain ⟨front, signed, digits, member, rfl⟩ := Language.mem_mul.mp ((integerIff s).mp integer)
  obtain ⟨some, all⟩ := (testPlus _ _).mp member
  exact ⟨front, digits, (signIff front).mp signed, some, all, rfl⟩

theorem notInteger {s : Text} {c : Char} (inside : c ∈ s) (other : c = '.' ∨ c = 'E' ∨ c = 'e') :
    numType s ≠ .pgsTInt := by
  intro integer
  obtain ⟨front, digits, signed, _, all, rfl⟩ := integerParts integer
  have plain : ¬ c.isDigit ∧ c ≠ '+' ∧ c ≠ '-' := by
    rcases other with rfl | rfl | rfl <;> decide
  rcases List.mem_append.mp inside with before | within
  · rcases signed with rfl | rfl | rfl
    · cases before
    · exact plain.2.1 (List.mem_singleton.mp before)
    · exact plain.2.2 (List.mem_singleton.mp before)
  · exact plain.1 (all c within)

theorem realOf {s : Text}
    (form : s ∈ realForm1.language ∨ s ∈ realForm2.language ∨ s ∈ realForm3.language) :
    numType s = .pgsTReal := by
  have mark : ∃ c ∈ s, c = '.' ∨ c = 'E' ∨ c = 'e' := by
    rcases form with form | form | form
    · obtain ⟨_, _, _, rest, rfl⟩ := Language.mem_mul.mp form
      obtain ⟨_, _, _, power, rfl⟩ := Language.mem_mul.mp rest
      obtain ⟨_, ⟨c, either, rfl⟩, _, _, rfl⟩ := Language.mem_mul.mp power
      exact ⟨c, by simp, .inr (by simpa using either)⟩
    · obtain ⟨_, _, _, rest, rfl⟩ := Language.mem_mul.mp form
      obtain ⟨_, _, _, point, rfl⟩ := Language.mem_mul.mp rest
      obtain ⟨_, ⟨c, same, rfl⟩, _, _, rfl⟩ := Language.mem_mul.mp point
      exact ⟨c, by simp, .inl (of_decide_eq_true same)⟩
    · obtain ⟨_, _, _, rest, rfl⟩ := Language.mem_mul.mp form
      obtain ⟨_, _, _, point, rfl⟩ := Language.mem_mul.mp rest
      obtain ⟨_, ⟨c, same, rfl⟩, _, _, rfl⟩ := Language.mem_mul.mp point
      exact ⟨c, by simp, .inl (of_decide_eq_true same)⟩
  obtain ⟨c, inside, other⟩ := mark
  have no : ¬ integerForm1.accepts s := fun accepted =>
    notInteger inside other ((integerIff s).mpr ((acceptsIff _ _).mp accepted))
  rw [numType, if_neg no, if_pos]
  simpa only [Bool.or_eq_true, acceptsIff, or_assoc] using form

end PgAdmin.PgsObjects.PgsNumber

namespace PgAdmin.PgsScanner
open Regular PgsObjects.PgsNumber

theorem otherActions : ∀ rules ∈ [keywordRules, operatorRules, queryRules, blankRules],
    ∀ action ∈ rules.map Prod.snd, action ≠ valInt ∧ action ≠ valReal := by
  decide +kernel

theorem numberRule {r : Regular Char} {action : InitialAction} (member : (r, action) ∈ initialRules)
    (number : action = valInt ∨ action = valReal) : (r, action) ∈ numberRules := by
  have other : ∀ rules ∈ [keywordRules, operatorRules, queryRules, blankRules], (r, action) ∉ rules := by
    intro rules listed inside
    have apart := otherActions rules listed action (List.mem_map_of_mem inside)
    rcases number with same | same
    · exact apart.1 same
    · exact apart.2 same
  simp only [initialRules, List.mem_append] at member
  simp only [List.forall_mem_cons, List.not_mem_nil, false_implies, implies_true, and_true] at other
  tauto

theorem intToken {s : List Char} {n : ℕ} (scanned : Flex.next initialRules s = some (valInt, n)) :
    numType (s.take n) = .pgsTInt := by
  obtain ⟨r, member, longest⟩ := Flex.nextMem scanned
  have taken := (longestSpec longest).2.1
  have rule := numberRule member (.inl rfl)
  simp only [numberRules, valInt, List.mem_cons, Prod.mk.injEq, InitialAction.token.injEq,
    PgsParser.Symbol.t.injEq, reduceCtorEq, and_true, and_false, List.not_mem_nil, or_false] at rule
  rw [rule] at taken
  exact (integerIff _).mpr (unsigned taken)

theorem realToken {s : List Char} {n : ℕ} (scanned : Flex.next initialRules s = some (valReal, n)) :
    numType (s.take n) = .pgsTReal := by
  obtain ⟨r, member, longest⟩ := Flex.nextMem scanned
  have taken := (longestSpec longest).2.1
  have rule := numberRule member (.inr rfl)
  simp only [numberRules, valReal, List.mem_cons, Prod.mk.injEq, InitialAction.token.injEq,
    PgsParser.Symbol.t.injEq, reduceCtorEq, and_true, and_false, List.not_mem_nil, or_false, false_or] at rule
  rcases rule with rule | rule | rule
  · rw [rule] at taken
    exact realOf (.inr (.inl (unsigned taken)))
  · rw [rule] at taken
    exact realOf (.inl (unsigned taken))
  · rw [rule] at taken
    exact realOf (.inr (.inr (unsigned taken)))

end PgAdmin.PgsScanner
