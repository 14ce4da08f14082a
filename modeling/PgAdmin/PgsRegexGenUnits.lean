import PgAdmin.RegexUnits

/-! What the loop of pgsRegexGen writes for the units of a pattern, and what is read back. -/
namespace PgAdmin.PgsRegexGen
open Scan
open PgsObjects (toUShort)

def inside (result : List wxChar) : Scan := ⟨false, false, true, result⟩
def outside (firstRegex : Bool) (result : List wxChar) : Scan := ⟨false, firstRegex, false, result⟩

def escaped (letters : List wxChar) : List wxChar := letters.flatMap espaceXmlChar

@[simp] theorem escapedAppend (a b : List wxChar) : escaped (a ++ b) = escaped a ++ escaped b := by
  simp [escaped]

theorem runCons (before c : wxChar) (rest : List wxChar) (s : Scan) :
    Scan.run before (c :: rest) s = Scan.run c rest (s.turn before c rest.head?) := rfl

section Turns
variable {before c : wxChar} {behind : Option wxChar} {result : List wxChar}

theorem plainInside (free : c ∉ ch '-' :: special) :
    (inside result).turn before c behind = inside (result ++ espaceXmlChar c) := by
  simp only [special, List.mem_cons, List.not_mem_nil, or_false, not_or] at free
  obtain ⟨hyphen, left, right, backslash, braceLeft, braceRight⟩ := free
  simp [Scan.turn, inside, hyphen, left, right, backslash, braceLeft, braceRight, Scan.append]

theorem plainOutside {first : Bool} (free : c ∉ special) :
    (outside first result).turn before c behind = (outside first result).single c := by
  simp only [special, List.mem_cons, List.not_mem_nil, or_false, not_or] at free
  obtain ⟨left, right, backslash, braceLeft, braceRight⟩ := free
  simp [Scan.turn, outside, left, right, backslash, braceLeft, braceRight]

theorem hyphenInside (next : wxChar) :
    (inside result).turn before (ch '-') (some next) = inside (result ++ escaped (between before next)) := rfl

theorem escapedInside (rest : List wxChar) : Scan.run before (ch '\\' :: c :: rest) (inside result) =
    Scan.run c rest (inside (result ++ espaceXmlChar c)) := rfl

theorem escapedOutside {first : Bool} (rest : List wxChar) :
    Scan.run before (ch '\\' :: c :: rest) (outside first result) =
      Scan.run c rest ((outside first result).single c) := rfl

end Turns

theorem letterInside (l : SetLetter) (before : wxChar) (rest result : List wxChar) :
    Scan.run before (l.text ++ rest) (inside result) =
      Scan.run l.char rest (inside (result ++ espaceXmlChar l.char)) := by
  cases l with
  | plain c free => exact (runCons ..).trans (by rw [plainInside free]; rfl)
  | escaped c => exact escapedInside rest

theorem itemInside (i : Item) (before : wxChar) (rest result : List wxChar) :
    Scan.run before (i.text ++ rest) (inside result) =
      Scan.run i.last rest (inside (result ++ escaped i.listed)) := by
  cases i with
  | one l =>
    refine (letterInside l before rest result).trans ?_
    simp [Item.last, Item.listed, escaped]
  | range b e =>
    have next : (e.text ++ rest).head? = some e.raw := by cases e <;> rfl
    rw [Item.text, List.append_assoc, letterInside, List.cons_append, runCons, next, hyphenInside, letterInside]
    simp [Item.last, Item.listed, escaped]

theorem itemsInside (items : List Item) (before : wxChar) (rest result : List wxChar) :
    Scan.run before (items.flatMap Item.text ++ rest) (inside result) =
      Scan.run (items.foldl (fun _ i => i.last) before) rest
        (inside (result ++ escaped (items.flatMap Item.listed))) := by
  induction items generalizing before result with
  | nil => simp [escaped]
  | cons i items ih =>
    rw [List.flatMap_cons, List.append_assoc, itemInside, ih, List.flatMap_cons, escapedAppend, List.append_assoc]
    rfl

def charactersXml (letters : List wxChar) : List wxChar :=
  wxT " <regex>\n  <characters>" ++ escaped letters ++ wxT "</characters>\n"

def separator (firstRegex : Bool) : List wxChar := if firstRegex then [] else wxT " </regex>\n"

theorem behindOpen (s : CharSet) (rest : List wxChar) :
    (s.items.flatMap Item.text ++ (CharSet.hyphen s.trail ++ ch ']' :: rest)).head? = some s.behindLead := by
  rw [CharSet.behindLead]
  cases s.items with
  | nil => cases s.trail <;> rfl
  | cons i items =>
    cases i with
    | one l => cases l <;> rfl
    | range b e => cases b <;> rfl

theorem baseOutside (u : Base) (before : wxChar) (rest : List wxChar) (first : Bool)
    (result : List wxChar) : ∃ last, Scan.run before (u.text ++ rest) (outside first result) =
      Scan.run last rest (outside false (result ++ separator first ++ charactersXml u.listed)) := by
  cases u with
  | single l =>
    refine ⟨l.char, ?_⟩
    have wrote : (outside first result).single l.char =
        outside false (result ++ separator first ++ charactersXml [l.char]) := by
      simp only [Scan.single, Scan.opened, Scan.append, outside, charactersXml, separator, escaped,
        List.flatMap_singleton, List.append_assoc]
      rfl
    cases l with
    | plain c free => exact (runCons ..).trans (by rw [plainOutside free]; exact congrArg _ wrote)
    | escaped c => exact (escapedOutside rest).trans (congrArg _ wrote)
  | set s =>
    refine ⟨ch ']', ?_⟩
    have text : Base.text (.set s) ++ rest = ch '[' :: (CharSet.hyphen s.lead ++
        (s.items.flatMap Item.text ++ (CharSet.hyphen s.trail ++ ch ']' :: rest))) := by
      simp [Base.text, CharSet.text]
    have opened : (outside first result).turn before (ch '[')
        (CharSet.hyphen s.lead ++
          (s.items.flatMap Item.text ++ (CharSet.hyphen s.trail ++ ch ']' :: rest))).head? =
        inside (result ++ separator first ++ wxT " <regex>\n  <characters>") := rfl
    have lead (result : List wxChar) : Scan.run (ch '[') (CharSet.hyphen s.lead ++
        (s.items.flatMap Item.text ++ (CharSet.hyphen s.trail ++ ch ']' :: rest))) (inside result) =
        Scan.run (if s.lead then ch '-' else ch '[')
          (s.items.flatMap Item.text ++ (CharSet.hyphen s.trail ++ ch ']' :: rest))
          (inside (result ++ escaped (if s.lead then between (ch '[') s.behindLead else []))) := by
      cases s.lead with
      | false => simp [CharSet.hyphen, escaped]
      | true =>
        have turned := runCons (ch '[') (ch '-')
          (s.items.flatMap Item.text ++ (CharSet.hyphen s.trail ++ ch ']' :: rest)) (inside result)
        rw [behindOpen, hyphenInside] at turned
        exact turned
    have trail (before : wxChar) (result : List wxChar) : Scan.run before
        (CharSet.hyphen s.trail ++ ch ']' :: rest) (inside result) =
        Scan.run (ch ']') rest (outside false
          (result ++ escaped (if s.trail then between before (ch ']') else []) ++ wxT "</characters>\n")) := by
      cases s.trail with
      | false => simp [CharSet.hyphen, escaped]; rfl
      | true => rfl
    rw [text, runCons, opened, lead, itemsInside, trail]
    simp [charactersXml, Base.listed, CharSet.listed, CharSet.beforeTrail]

def lengthXml : Length → List wxChar
  | .one => []
  | length => wxT "  <range>" ++ length.digits ++ wxT "</range>\n"

theorem digitRange {c : ℕ} (digit : isDigit c = true) : 48 ≤ c ∧ c ≤ 57 := by
  simp only [isDigit, Bool.decide_and, Bool.and_eq_true, decide_eq_true_eq] at digit
  exact digit

theorem digitPlain {c : ℕ} (digit : isDigit c = true) :
    c ∉ ch '-' :: special ∧ espaceXmlChar c = [c] := by
  obtain ⟨low, high⟩ := digitRange digit
  have other : ∀ d : ℕ, d < 48 ∨ 57 < d → c ≠ d := by omega
  refine ⟨?_, ?_⟩
  · have free : ∀ d ∈ ch '-' :: special, d < 48 ∨ 57 < d := by decide
    exact fun member => other c (free c member) rfl
  · rw [espaceXmlChar, if_neg (other _ (by decide)), if_neg (other _ (by decide)), if_neg (other _ (by decide)),
      if_neg (other _ (by decide)), if_neg (other _ (by decide))]

theorem digitsInside {digits : List wxChar}
    (plain : ∀ c ∈ digits, c ∉ ch '-' :: special ∧ espaceXmlChar c = [c]) (before : wxChar)
    (rest result : List wxChar) : ∃ last, Scan.run before (digits ++ rest) (inside result) =
      Scan.run last rest (inside (result ++ digits)) := by
  induction digits generalizing before result with
  | nil => exact ⟨before, by simp⟩
  | cons c digits ih =>
    obtain ⟨free, same⟩ := plain c List.mem_cons_self
    obtain ⟨last, ran⟩ := ih (fun d member => plain d (List.mem_cons_of_mem c member)) c (result ++ [c])
    refine ⟨last, (runCons ..).trans ?_⟩
    rw [plainInside free, same]
    simpa using ran

theorem lengthLetters (length : Length) : ∀ c ∈ length.digits, isDigit c = true ∨ c = ch ',' := by
  intro c member
  cases length with
  | one => cases member
  | exactly m => exact .inl (m.decimal c member)
  | between m n =>
    rcases List.mem_append.mp member with first | second
    · exact .inl (m.decimal c first)
    · rcases List.mem_cons.mp second with comma | second
      · exact .inr comma
      · exact .inl (n.decimal c second)

theorem lengthPlain (length : Length) :
    ∀ c ∈ length.digits, c ∉ ch '-' :: special ∧ espaceXmlChar c = [c] := by
  intro c member
  rcases lengthLetters length c member with digit | rfl
  · exact digitPlain digit
  · exact ⟨by decide, by decide⟩

theorem lengthOutside (length : Length) (before : wxChar) (rest result : List wxChar) :
    ∃ last, Scan.run before (length.text ++ rest) (outside false result) =
      Scan.run last rest (outside false (result ++ lengthXml length)) := by
  by_cases one : length = .one
  · subst one
    exact ⟨before, by simp [Length.text, lengthXml]⟩
  · obtain ⟨last, ran⟩ := digitsInside (lengthPlain length) (ch '{') (ch '}' :: rest)
      (result ++ wxT "  <range>")
    have text : length.text = ch '{' :: (length.digits ++ [ch '}']) := by
      cases length
      case one => exact absurd rfl one
      all_goals rfl
    have xml : lengthXml length = wxT "  <range>" ++ length.digits ++ wxT "</range>\n" := by
      cases length
      case one => exact absurd rfl one
      all_goals rfl
    refine ⟨ch '}', ?_⟩
    have closed (result : List wxChar) : Scan.run last (ch '}' :: rest) (inside result) =
        Scan.run (ch '}') rest (outside false (result ++ wxT "</range>\n")) := rfl
    rw [text, xml, List.cons_append, List.append_assoc, runCons]
    refine ran.trans ((closed _).trans ?_)
    simp only [List.append_assoc]

def unitXml (u : RegexUnit) : List wxChar := charactersXml u.base.listed ++ lengthXml u.length

theorem unitOutside (u : RegexUnit) (before : wxChar) (rest : List wxChar) (first : Bool)
    (result : List wxChar) : ∃ last, Scan.run before (u.text ++ rest) (outside first result) =
      Scan.run last rest (outside false (result ++ separator first ++ unitXml u)) := by
  obtain ⟨last, base⟩ := baseOutside u.base before (u.length.text ++ rest) first result
  obtain ⟨last, length⟩ := lengthOutside u.length last rest
    (result ++ separator first ++ charactersXml u.base.listed)
  refine ⟨last, ?_⟩
  rw [RegexUnit.text, List.append_assoc, base, length, unitXml, List.append_assoc]

theorem unitsOutside (units : List RegexUnit) (before : wxChar) (result : List wxChar) :
    (Scan.run before (regexText units) (outside false result)).result ++ separator false =
      result ++ separator false ++ units.flatMap fun u => unitXml u ++ separator false := by
  induction units generalizing before result with
  | nil => simp [regexText, Scan.run, outside]
  | cons u units ih =>
    obtain ⟨last, ran⟩ := unitOutside u before (regexText units) false result
    have text : regexText (u :: units) = u.text ++ regexText units := rfl
    rw [text, ran, ih, List.flatMap_cons]
    simp

theorem toXmlUnits (units : List RegexUnit) : toXml (regexText units) =
    start ++ (units.flatMap fun u => unitXml u ++ separator false) ++ wxT "</regexpressions>\n" := by
  cases units with
  | nil => rfl
  | cons u units =>
    obtain ⟨last, ran⟩ := unitOutside u 0 (regexText units) true start
    have text : regexText (u :: units) = u.text ++ regexText units := rfl
    have rest := unitsOutside units last (start ++ separator true ++ unitXml u)
    have longer : (Scan.run 0 (regexText (u :: units)) ⟨false, true, false, start⟩).result ≠ start := by
      intro same
      change (Scan.run 0 (u.text ++ regexText units) (outside true start)).result = start at same
      rw [← ran, same] at rest
      have count := congrArg List.length rest
      have opening : 0 < (wxT " <regex>\n  <characters>").length := by decide
      simp [unitXml, charactersXml] at count
      omega
    rw [toXml, if_pos longer, text]
    change (Scan.run 0 _ (outside true start)).result ++ separator false ++ _ = _
    rw [ran, rest, List.flatMap_cons]
    simp [separator]

def charactersNode (letters : List wxChar) : XmlNode :=
  .element (wxT "characters") (if letters = [] then [] else [.text letters])

def lengthNodes : Length → List XmlNode
  | .one => [.text (wxT "\n ")]
  | length => [.text (wxT "\n  "), .element (wxT "range") [.text length.digits], .text (wxT "\n ")]

def unitNode (u : RegexUnit) : XmlNode :=
  .element (wxT "regex") (.text (wxT "\n  ") :: charactersNode u.base.listed :: lengthNodes u.length)

def unitNodes : List RegexUnit → List XmlNode
  | [] => [.text (wxT "\n")]
  | u :: units => .text (wxT "\n ") :: unitNode u :: unitNodes units

def document (units : List RegexUnit) : XmlNode := .element (wxT "regexpressions") (unitNodes units)

theorem escapedPlain {letters : List wxChar} (plain : ∀ c ∈ letters, espaceXmlChar c = [c]) :
    letters.flatMap XmlNode.escape = letters := by
  induction letters with
  | nil => rfl
  | cons c letters ih =>
    rw [List.flatMap_cons, ih fun d member => plain d (List.mem_cons_of_mem c member)]
    exact congrArg (· ++ letters) (plain c List.mem_cons_self)

theorem charactersRender (letters : List wxChar) : (charactersNode letters).render =
    wxT "<characters>" ++ escaped letters ++ wxT "</characters>" := by
  cases letters with
  | nil => rfl
  | cons c letters =>
    rw [charactersNode, if_neg (List.cons_ne_nil c letters), XmlNode.render, XmlNode.renderAll, XmlNode.renderAll,
      XmlNode.render, List.append_nil]
    rfl

theorem lengthRender (length : Length) : XmlNode.renderAll (lengthNodes length) =
    wxT "\n" ++ lengthXml length ++ wxT " " := by
  have shown (digits : List wxChar) (plain : ∀ c ∈ digits, c ∉ ch '-' :: special ∧ espaceXmlChar c = [c]) :
      XmlNode.renderAll [.text (wxT "\n  "), .element (wxT "range") [.text digits], .text (wxT "\n ")] =
        wxT "\n" ++ (wxT "  <range>" ++ digits ++ wxT "</range>\n") ++ wxT " " := by
    have same := escapedPlain fun c member => (plain c member).2
    simp only [XmlNode.renderAll, XmlNode.render, same, List.append_nil, List.append_assoc]
    rfl
  cases length with
  | one => rfl
  | exactly m => exact shown m.digits (lengthPlain (.exactly m))
  | between m n => exact shown (m.digits ++ ch ',' :: n.digits) (lengthPlain (.between m n))

theorem unitRender (u : RegexUnit) : wxT " " ++ (unitNode u).render ++ wxT "\n" =
    unitXml u ++ separator false := by
  rw [unitNode, XmlNode.render, XmlNode.renderAll, XmlNode.renderAll, charactersRender, lengthRender]
  simp only [unitXml, charactersXml, List.append_assoc]
  rfl

theorem unitsRender (units : List RegexUnit) : XmlNode.renderAll (unitNodes units) =
    wxT "\n" ++ units.flatMap fun u => unitXml u ++ separator false := by
  induction units with
  | nil => rfl
  | cons u units ih =>
    rw [unitNodes, XmlNode.renderAll, XmlNode.renderAll, ih, List.flatMap_cons, ← unitRender]
    simp only [List.append_assoc]
    rfl

theorem toXmlRender (units : List RegexUnit) :
    toXml (regexText units) = (document units).render ++ wxT "\n" := by
  rw [toXmlUnits, document, XmlNode.render, unitsRender]
  simp only [List.append_assoc]
  rfl

theorem charactersRead (letters : List wxChar) : (charactersNode letters).asRead =
    .element (wxT "characters") (if letters = [] then [] else [.text (XmlNode.endsOfLines letters)]) := by
  cases letters with
  | nil => rfl
  | cons => rfl

theorem charactersContent (letters : List wxChar) :
    GetNodeContent (if letters = [] then [] else [.text (XmlNode.endsOfLines letters)]) =
      XmlNode.endsOfLines letters := by
  cases letters with
  | nil => rfl
  | cons => rfl

theorem digitsRead (length : Length) : XmlNode.endsOfLines length.digits = length.digits :=
  XmlNode.endsOfLinesSame fun member => absurd (lengthLetters length _ member) (by decide)

theorem matchesOne (m : Count) : Matches m.digits = some (m.digits, []) := by
  rw [Matches, List.takeWhile_eq_self_iff.mpr m.decimal, List.dropWhile_eq_nil_iff.mpr m.decimal]
  exact if_neg m.nonempty

theorem matchesTwo (m n : Count) : Matches (m.digits ++ ch ',' :: n.digits) = some (m.digits, n.digits) := by
  have comma : isDigit (ch ',') = false := by decide
  have all : n.digits.all isDigit = true := List.all_eq_true.mpr n.decimal
  rw [Matches, List.takeWhile_append_of_pos m.decimal, List.dropWhile_append_of_pos m.decimal]
  simp [comma, m.nonempty, n.nonempty, all]

theorem countLong (uninitialised : ℤ) (m : Count) : ToLong uninitialised m.digits = digitsValue m.digits := by
  have fits := m.fits
  exact if_pos (by omega)

theorem toUShortCount {n : ℕ} (fits : n < 65536) : (toUShort n).toNat = n := by
  have narrowed := PgsObjects.toUShortNat n
  omega

theorem lengthsRead (uninitialised : ℤ) (length : Length) (characters : List wxChar) :
    (XmlNode.asReadAll (lengthNodes length)).foldl (readChild uninitialised) ⟨characters, 1, 1⟩ =
      ⟨characters, length.lower, length.upper⟩ := by
  cases length with
  | one => rfl
  | exactly m =>
    have child : readChild uninitialised ⟨characters, 1, 1⟩
        (.element (wxT "range") [.text (XmlNode.endsOfLines m.digits)]) =
        ⟨characters, digitsValue m.digits, digitsValue m.digits⟩ := by
      have same : XmlNode.endsOfLines m.digits = m.digits := digitsRead (.exactly m)
      have content : GetNodeContent [.text m.digits] = m.digits := rfl
      rw [same, readChild, if_neg (by decide), if_pos rfl, content, matchesOne]
      simp [PgsRegex.setFirst, countLong]
    exact child
  | between m n =>
    have child : readChild uninitialised ⟨characters, 1, 1⟩
        (.element (wxT "range") [.text (XmlNode.endsOfLines (m.digits ++ ch ',' :: n.digits))]) =
        ⟨characters, min (digitsValue m.digits : ℤ) (digitsValue n.digits),
          max (digitsValue m.digits : ℤ) (digitsValue n.digits)⟩ := by
      have same : XmlNode.endsOfLines (m.digits ++ ch ',' :: n.digits) = m.digits ++ ch ',' :: n.digits :=
        digitsRead (.between m n)
      have content : GetNodeContent [.text (m.digits ++ ch ',' :: n.digits)] = m.digits ++ ch ',' :: n.digits := rfl
      rw [same, readChild, if_neg (by decide), if_pos rfl, content, matchesTwo]
      simp [PgsRegex.setFirst, PgsRegex.setSecond, countLong, n.nonempty]
    refine child.trans ?_
    simp [Length.lower, Length.upper]

theorem lowerFits (length : Length) : length.lower < 65536 ∧ length.upper < 65536 ∧ length.lower ≤ length.upper := by
  cases length with
  | one => decide
  | exactly m => exact ⟨m.fits, m.fits, le_rfl⟩
  | between m n => exact ⟨min_lt_of_left_lt m.fits, max_lt m.fits n.fits, min_le_max⟩

def unitGen (seed : ℤ) (u : RegexUnit) : PgsStringGen :=
  .create (toUShort u.length.lower) (toUShort u.length.upper) 1 seed (XmlNode.endsOfLines u.base.listed)

theorem unitRead (uninitialised seed : ℤ) (u : RegexUnit) : readRegex uninitialised seed
    (XmlNode.asReadAll (.text (wxT "\n  ") :: charactersNode u.base.listed :: lengthNodes u.length)) =
      unitGen seed u := by
  have child : readChild uninitialised (PgsRegex.setFirst ⟨[], 0, 0⟩ 1) (charactersNode u.base.listed).asRead =
      ⟨XmlNode.endsOfLines u.base.listed, 1, 1⟩ := by
    rw [charactersRead, readChild, if_pos rfl, charactersContent]
    rfl
  have folded : (XmlNode.asReadAll (.text (wxT "\n  ") :: charactersNode u.base.listed :: lengthNodes u.length)).foldl
      (readChild uninitialised) (PgsRegex.setFirst ⟨[], 0, 0⟩ 1) =
      ⟨XmlNode.endsOfLines u.base.listed, u.length.lower, u.length.upper⟩ := by
    have first : readChild uninitialised (PgsRegex.setFirst ⟨[], 0, 0⟩ 1) (XmlNode.text (wxT "\n  ")).asRead =
        PgsRegex.setFirst ⟨[], 0, 0⟩ 1 := rfl
    rw [XmlNode.asReadAll, XmlNode.asReadAll, List.foldl_cons, List.foldl_cons, first, child, lengthsRead]
  rw [readRegex, folded]
  rfl

theorem gensRead (uninitialised seed : ℤ) (units : List RegexUnit) :
    stringGens uninitialised seed (XmlNode.asReadAll (unitNodes units)) = units.map (unitGen seed) := by
  induction units with
  | nil => rfl
  | cons u units ih =>
    rw [unitNodes, XmlNode.asReadAll, XmlNode.asReadAll, List.map_cons, ← ih, ← unitRead uninitialised]
    rfl

end PgAdmin.PgsRegexGen
