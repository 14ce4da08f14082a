import PgAdmin.PgsObjects
import PgAdmin.Substitution

/-! Identifiers of SQL: how a server reads one, and the one qtIdent writes for a name. What is
written denotes the name. -/
namespace PgAdmin.Identifier
open PgsObjects (Text)
open Substitution

/- The words of the server's table that cannot stand for a name; ScanKeywordLookup has a copy. -/
variable (keyword : Text → Bool)

def IsNumber : Text → Bool
  | '-' :: value => value.all Char.isDigit
  | '+' :: value => value.all Char.isDigit
  | value => value.all Char.isDigit

/- needsQuoting, with forTypes false. -/
def needsQuoting (value : Text) : Bool :=
  IsNumber value ||
    value.zipIdx.any (fun (c, pos) =>
      !(decide (0 < pos) && c.isDigit) && !c.isLower && c != '_') ||
    keyword value

def qtIdent (value : Text) : Text :=
  if value.length = 0 then value
  else if needsQuoting keyword value then '"' :: replaceAll ['"'] "\"\"".toList value ++ ['"']
  else value

def readQuoted : Text → Option Text
  | [] => none
  | ['"'] => some []
  | '"' :: '"' :: s => (readQuoted s).map ('"' :: ·)
  | c :: s => if c = '"' then none else (readQuoted s).map (c :: ·)

def identStart (c : Char) : Bool := c.isAlpha || c == '_' || decide (128 ≤ c.toNat)
def identCont (c : Char) : Bool := identStart c || c.isDigit || c == '$'

def read : Text → Option Text
  | '"' :: s => (readQuoted s).filter (· ≠ [])
  | [] => none
  | c :: s =>
    let word := (c :: s).map Char.toLower
    if identStart c && s.all identCont && !keyword word then some word else none

def doubled (c : Char) : Text := if c = '"' then ['"', '"'] else [c]

theorem readDoubled (value : Text) :
    readQuoted (value.flatMap doubled ++ ['"']) = some value := by
  induction value with
  | nil => rfl
  | cons c value ih =>
    rw [List.flatMap_cons, List.append_assoc]
    by_cases quote : c = '"'
    · subst quote
      simp [doubled, readQuoted, ih]
    · simp [doubled, readQuoted, ih, quote]

theorem unquotedLetters {value : Text} (bare : needsQuoting keyword value = false) :
    (∀ c ∈ value, c.isLower = true ∨ c = '_' ∨ c.isDigit = true) ∧
      (∀ c ∈ value.head?, c.isLower = true ∨ c = '_') ∧ keyword value = false := by
  obtain ⟨⟨-, letters⟩, word⟩ : (IsNumber value = false ∧ _) ∧ keyword value = false := by
    simpa only [needsQuoting, Bool.or_eq_false_iff] using bare
  rw [List.any_eq_false] at letters
  refine ⟨fun c member => ?_, fun c first => ?_, word⟩
  · obtain ⟨pos, found⟩ := List.getElem?_of_mem member
    have here := letters (c, pos) (List.mem_zipIdx_iff_getElem?.mpr found)
    simp only [Bool.and_eq_true, Bool.not_eq_true', bne_iff_ne] at here
    grind
  · have here := letters (c, 0) (List.mem_zipIdx_iff_getElem?.mpr (by
      rwa [← List.head?_eq_getElem?]))
    simp only [Bool.and_eq_true, Bool.not_eq_true', bne_iff_ne] at here
    grind

theorem smallLower {c : Char} (small : c.isLower = true ∨ c = '_' ∨ c.isDigit = true) :
    c.toLower = c := by
  apply Char.toLower_eq_of_not_isUpper
  rcases small with lower | rfl | digit
  · exact Char.not_isUpper_of_isLower lower
  · decide
  · intro upper
    simp only [Char.isDigit, Char.isUpper, Bool.and_eq_true, decide_eq_true_eq,
      UInt32.le_iff_toNat_le] at digit upper
    exact absurd (upper.1.trans digit.2) (by decide)

theorem smallCont {c : Char} (small : c.isLower = true ∨ c = '_' ∨ c.isDigit = true) :
    identCont c = true := by
  rcases small with lower | rfl | digit
  · simp [identCont, identStart, Char.isAlpha, lower]
  · rfl
  · simp [identCont, digit]

/-- The identifier written for a name is read as the name. -/
theorem readQtIdent {value : Text} (nonempty : value ≠ []) :
    read keyword (qtIdent keyword value) = some value := by
  rw [qtIdent, if_neg (by simpa using nonempty)]
  split
  · rw [replaceLetter]
    change (readQuoted (value.flatMap doubled ++ ['"'])).filter _ = _
    rw [readDoubled]
    simp [nonempty]
  · rename_i bare
    obtain ⟨letters, first, word⟩ := unquotedLetters keyword (by simpa using bare)
    obtain ⟨c, s, rfl⟩ := List.exists_cons_of_ne_nil nonempty
    have low : (c :: s).map Char.toLower = c :: s :=
      (List.map_congr_left fun l member => smallLower (letters l member)).trans (List.map_id _)
    have start : identStart c = true := by
      rcases first c rfl with lower | rfl
      · simp [identStart, Char.isAlpha, lower]
      · rfl
    have cont : s.all identCont = true := List.all_eq_true.mpr fun l member =>
      smallCont (letters l (List.mem_cons_of_mem c member))
    have bare : c ≠ '"' := by
      rintro rfl
      exact absurd start (by decide)
    unfold read
    split
    · rename_i same
      exact absurd (List.cons.inj same).1 bare
    · rename_i same
      exact nomatch same
    · rename_i same
      obtain ⟨rfl, rfl⟩ := List.cons.inj same
      simp only [low, start, cont, word]
      rfl

end PgAdmin.Identifier
