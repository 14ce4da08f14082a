import PgAdmin.Regular

/-! Replacing the matches of a regular expression as wxRegEx does: in the replacement, `&` and a backslash with a
number stand for parts of the match, and a backslash makes any other letter an ordinary one. -/
namespace PgAdmin.wxRegEx

section Replacing

def number (digits : List Char) : ℕ := digits.foldl (fun n d => 10 * n + (d.toNat - '0'.toNat)) 0

/- The parts of a match by their number, with no text for a number that is not there. No replacement of the program
ends in a single backslash. -/
def expand (group : ℕ → List Char) : List Char → List Char
  | [] => []
  | ['\\'] => []
  | '\\' :: c :: rest =>
    if c.isDigit then group (number (c :: rest.takeWhile Char.isDigit)) ++ expand group (rest.dropWhile Char.isDigit)
    else c :: expand group rest
  | '&' :: rest => group 0 ++ expand group rest
  | c :: rest => c :: expand group rest
termination_by replacement => replacement.length
decreasing_by
  · have shorter := (List.dropWhile_suffix Char.isDigit (l := rest)).length_le
    simp only [List.length_cons]
    omega
  all_goals simp only [List.length_cons]; omega

def ReplaceFirst (r : Regular Char) (groups : List Char → ℕ → List Char) (replacement text : List Char) : List Char :=
  match r.search text with
  | none => text
  | some (before, found, after) => before ++ expand (groups found) replacement ++ after

def replaceUpTo (r : Regular Char) (groups : List Char → ℕ → List Char) (replacement : List Char) :
    ℕ → List Char → List Char
  | 0, text => text
  | matches_ + 1, text =>
    match r.search text with
    | none => text
    | some (before, found, after) =>
      before ++ expand (groups found) replacement ++ replaceUpTo r groups replacement matches_ after

def ReplaceAll (r : Regular Char) (groups : List Char → ℕ → List Char) (replacement text : List Char) : List Char :=
  replaceUpTo r groups replacement text.length text

end Replacing

section Expanding
variable {group : ℕ → List Char}

theorem expandBackslash (rest : List Char) : expand group ('\\' :: '\\' :: rest) = '\\' :: expand group rest := by
  rw [expand]
  rfl

theorem expandMatch (rest : List Char) : expand group ('&' :: rest) = group 0 ++ expand group rest := by
  rw [expand]

theorem expandLetter {c : Char} (noBackslash : c ≠ '\\') (noMatch : c ≠ '&') (rest : List Char) :
    expand group (c :: rest) = c :: expand group rest := by
  rw [expand]
  · exact fun same _ => noBackslash same
  · exact fun _ _ same _ => noBackslash same
  · exact noMatch

theorem expandPlain {text : List Char} (plain : ∀ c ∈ text, c ≠ '\\' ∧ c ≠ '&') : expand group text = text := by
  induction text with
  | nil => rw [expand]
  | cons c text ih =>
    have here := plain c List.mem_cons_self
    rw [expandLetter here.1 here.2, ih fun d mem => plain d (List.mem_cons_of_mem c mem)]

theorem expandFirst : expand group "\\1".toList = group 1 := by
  change expand group ['\\', '1'] = group 1
  rw [expand, if_pos (by decide)]
  simp [expand, number]

end Expanding

section Searching
variable {r : Regular Char} {groups : List Char → ℕ → List Char} {replacement : List Char}

theorem searchLater {c : Char} {text : List Char} (none_ : r.longest (c :: text) = none) :
    r.search (c :: text) = (r.search text).map fun (before, found, after) => (c :: before, found, after) := by
  rw [Regular.search, none_]

theorem replaceLater {c : Char} {text : List Char} (none_ : r.longest (c :: text) = none) (n : ℕ) :
    replaceUpTo r groups replacement n (c :: text) = c :: replaceUpTo r groups replacement n text := by
  cases n with
  | zero => rfl
  | succ n =>
    simp only [replaceUpTo, searchLater none_]
    cases r.search text with
    | none => rfl
    | some parts => rfl

theorem replaceHere {found after : List Char} (here : r.longest (found ++ after) = some found.length)
    (nonempty : found ≠ []) (n : ℕ) : replaceUpTo r groups replacement (n + 1) (found ++ after) =
      expand (groups found) replacement ++ replaceUpTo r groups replacement n after := by
  have search := Regular.searchOf here nonempty (by simp : ∀ p c s, [] = p ++ c :: s → _)
  rw [replaceUpTo, show r.search (found ++ after) = _ from search]
  rfl

end Searching

end PgAdmin.wxRegEx
