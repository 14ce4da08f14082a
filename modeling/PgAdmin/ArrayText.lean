import PgAdmin.WxString

/-! FillArray: the elements of an array as the server prints it. Both quotes turn one flag, a backslash is dropped
unless it stands before a double quote, and the text behind the last comma is added when it is not empty. -/
namespace PgAdmin.arrayText
open PgsObjects (Text)
open wxString

def fill (quote : Bool) (str : Text) : Text → List Text
  | [] => if str = [] then [] else [str]
  | '\\' :: '"' :: cp => fill quote (str ++ ['"']) cp
  | '\\' :: cp => fill quote str cp
  | c :: cp =>
    if c = '"' ∨ c = '\'' then fill (!quote) str cp
    else if c = ',' ∧ quote = false then str :: fill quote [] cp
    else fill quote (str ++ [c]) cp

def FillArray (array : List Text) (list : Text) : List Text := array ++ fill false [] list

def escaped (c : Char) : Text := if c = '"' ∨ c = '\\' then ['\\', c] else [c]

def special (c : Char) : Bool := c ∈ ['"', '\\', '{', '}', ','] || isSpace c

section Printed

/- Words that are quoted for another reason, as NULL is. -/
variable (word : Text → Bool)

def printed (element : Text) : Text :=
  if element = [] ∨ element.any special ∨ word element then
    '"' :: element.flatMap escaped ++ ['"']
  else element

def array_out (elements : List Text) : Text :=
  '{' :: [','].intercalate (elements.map (printed word)) ++ ['}']

/- What the callers pass: str.Mid(1, str.Length() - 2) -/
def inside (str : Text) : Text := Mid str 1 (str.length - 2)

theorem insideOut (elements : List Text) :
    inside (array_out word elements) = [','].intercalate (elements.map (printed word)) := by
  simp [inside, array_out, Mid]

end Printed

/- Neither an apostrophe nor a backslash. -/
def Plain (element : Text) : Prop := '\'' ∉ element ∧ '\\' ∉ element

variable {quote : Bool} {str : Text} {c : Char} {word : Text → Bool}

theorem fillOther (other : c ≠ '\\') (noQuote : c ≠ '"' ∧ c ≠ '\'') (stays : ¬ (c = ',' ∧ quote = false))
    (rest : Text) : fill quote str (c :: rest) = fill quote (str ++ [c]) rest := by
  rw [fill]
  · rw [if_neg (by simp [noQuote]), if_neg stays]
  · simp [other]
  · simp [other]

theorem fillEscaped {element : Text} (plain : Plain element) (rest : Text) :
    fill true str (element.flatMap escaped ++ rest) = fill true (str ++ element) rest := by
  induction element generalizing str with
  | nil => simp
  | cons c element ih =>
    obtain ⟨noQuote, noEscape⟩ : ('\'' ≠ c ∧ '\'' ∉ element) ∧ ('\\' ≠ c ∧ '\\' ∉ element) := by
      simpa [Plain] using plain
    have next (t : Text) := @ih t ⟨noQuote.2, noEscape.2⟩
    rw [List.flatMap_cons, List.append_assoc]
    by_cases double : c = '"'
    · subst double
      simp [escaped, fill, next]
    · have single : escaped c = [c] := by simp [escaped, double, noEscape.1.symm]
      rw [single, List.singleton_append,
        fillOther noEscape.1.symm ⟨double, noQuote.1.symm⟩ (by simp), next]
      simp

theorem fillBare {element : Text} (plain : Plain element) (ordinary : element.any special = false)
    (rest : Text) : fill false str (element ++ rest) = fill false (str ++ element) rest := by
  induction element generalizing str with
  | nil => simp
  | cons c element ih =>
    obtain ⟨noQuote, noEscape⟩ : ('\'' ≠ c ∧ '\'' ∉ element) ∧ ('\\' ≠ c ∧ '\\' ∉ element) := by
      simpa [Plain] using plain
    obtain ⟨here, later⟩ : special c = false ∧ element.any special = false := by
      simpa only [List.any_cons, Bool.or_eq_false_iff] using ordinary
    have double : c ≠ '"' := by rintro rfl; exact absurd here (by decide)
    have comma : c ≠ ',' := by rintro rfl; exact absurd here (by decide)
    rw [List.cons_append, fillOther noEscape.1.symm ⟨double, noQuote.1.symm⟩ (by simp [comma]),
      ih ⟨noQuote.2, noEscape.2⟩ later]
    simp

theorem fillPrinted {element : Text} (plain : Plain element) (rest : Text) :
    fill false str (printed word element ++ rest) = fill false (str ++ element) rest := by
  rw [printed]
  split
  · have quoted := @fillEscaped str element plain ('"' :: rest)
    simpa [fill] using quoted
  case isFalse bare =>
    push Not at bare
    exact fillBare plain (by simpa using bare.2.1) rest

theorem fillComma (rest : Text) : fill false str (',' :: rest) = str :: fill false [] rest := by
  simp [fill]

theorem fillAll {elements : List Text} (plain : ∀ element ∈ elements, Plain element) :
    fill false [] ([','].intercalate (elements.map (printed word))) =
      if elements.getLast? = some [] then elements.dropLast else elements := by
  induction elements with
  | nil => rfl
  | cons element elements ih =>
    have here := plain element List.mem_cons_self
    have next := ih fun later member => plain later (List.mem_cons_of_mem element member)
    cases elements with
    | nil =>
      have one := @fillPrinted [] word element here []
      rw [List.append_nil, List.nil_append] at one
      simpa [fill] using one
    | cons second elements =>
      rw [List.map_cons, List.map_cons, List.intercalate_cons_cons, List.append_assoc,
        fillPrinted here, List.nil_append, List.singleton_append, fillComma, ← List.map_cons, next]
      split
      case isTrue last => rw [if_pos (by simpa using last), List.dropLast_cons_cons]
      case isFalse last => rw [if_neg (by simpa using last)]

theorem fillPlain (clean : Plain str) (list : Text) : ∀ element ∈ fill quote str list, Plain element := by
  fun_induction fill quote str list with
  | case1 quote => simp
  | case2 quote str some_ => simpa using clean
  | case3 quote str cp ih => exact ih (by simpa [Plain] using clean)
  | case4 quote str cp _ ih => exact ih clean
  | case5 quote str c cp _ _ _ ih => exact ih clean
  | case6 quote str c cp _ _ _ _ ih =>
    rw [List.forall_mem_cons]
    exact ⟨clean, ih (by simp [Plain])⟩
  | case7 quote str c cp _ noEscape noQuote _ ih =>
    refine ih ?_
    push Not at noQuote
    have other : c ≠ '\\' := by simpa using noEscape
    simpa [Plain, noQuote.2.symm, other.symm] using clean

/-- The elements come back exactly when none has an apostrophe or a backslash and the last one is not empty. -/
theorem arrayFilled (word : Text → Bool) (array elements : List Text) :
    FillArray array (inside (array_out word elements)) = array ++ elements ↔
      (∀ element ∈ elements, '\'' ∉ element ∧ '\\' ∉ element) ∧ elements.getLast? ≠ some [] := by
  rw [FillArray, List.append_right_inj, insideOut]
  constructor
  · intro same
    have plain : ∀ element ∈ elements, Plain element := by
      have all := @fillPlain false [] (by simp [Plain])
        ([','].intercalate (elements.map (printed word)))
      rwa [same] at all
    refine ⟨plain, fun last => ?_⟩
    rw [fillAll plain, if_pos last] at same
    have some_ : elements ≠ [] := by rintro rfl; cases last
    have shorter := congrArg List.length same
    rw [List.length_dropLast] at shorter
    have positive := List.length_pos_iff.mpr some_
    omega
  · rintro ⟨plain, last⟩
    rw [fillAll plain, if_neg last]

theorem apostropheLost : ¬ FillArray [] (inside (array_out (fun _ => false) ["it's".toList])) =
    ["it's".toList] := by
  decide

end PgAdmin.arrayText
