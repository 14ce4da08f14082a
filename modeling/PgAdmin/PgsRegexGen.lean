import PgAdmin.PgsGenerators
import PgAdmin.PgsObjects
import PgAdmin.XmlTree

/-! pgsRegexGen: the simplified regular expression is written as an XML document, which is read back and gives
one string generator per unit. Letters are code points; wxXmlDocument::Load is a parameter. -/
namespace PgAdmin.PgsRegexGen
open PgsObjects (USHORT toUShort)
open PgsGenerators (PgsIntegerGen)

abbrev wxChar := ℕ

def wxT (s : String) : List wxChar := codePoints s

abbrev ch (c : Char) : wxChar := c.toNat

def espaceXmlChar (c : wxChar) : List wxChar :=
  if c = ch '<' then wxT "&lt;"
  else if c = ch '&' then wxT "&amp;"
  else if c = ch '>' then wxT "&gt;"
  else if c = ch '"' then wxT "&quot;"
  else if c = ch '\'' then wxT "&apos;"
  else [c]

def between (b c : ℕ) : List ℕ := List.range' (min b c + 1) (max b c - (min b c + 1))

def charRange (b c : wxChar) : List wxChar := (between b c).flatMap espaceXmlChar

structure Scan where
  escape : Bool
  firstRegex : Bool
  list : Bool
  result : List wxChar
  deriving DecidableEq, Repr

namespace Scan
variable (s : Scan)

def opened : Scan := { s with
  firstRegex := false
  result := s.result ++ (if s.firstRegex then [] else wxT " </regex>\n") ++ wxT " <regex>\n  <characters>" }

def append (text : List wxChar) : Scan := { s with result := s.result ++ text }

def single (c : wxChar) : Scan := (s.opened.append (espaceXmlChar c)).append (wxT "</characters>\n")

def turn (before c : wxChar) (behind : Option wxChar) : Scan :=
  if s.escape then
    { (if s.list then s.append (espaceXmlChar c) else s.single c) with escape := false }
  else if s.list ∧ c = ch '-' then
    match behind with
    | some next => s.append (charRange before next)
    | none => s
  else if c = ch '[' then { s.opened with list := true }
  else if c = ch ']' then { s.append (wxT "</characters>\n") with list := false }
  else if c = ch '{' then { s.append (wxT "  <range>") with list := true }
  else if c = ch '}' then { s.append (wxT "</range>\n") with list := false }
  else if c = ch '\\' then { s with escape := true }
  else if s.list then s.append (espaceXmlChar c)
  else s.single c

def run (before : wxChar) : List wxChar → Scan → Scan
  | [], s => s
  | c :: rest, s => run c rest (s.turn before c rest.head?)

end Scan

def start : List wxChar := wxT "<regexpressions>\n"

def toXml (regex : List wxChar) : List wxChar :=
  let s := Scan.run 0 regex ⟨false, true, false, start⟩
  (if s.result ≠ start then s.result ++ wxT " </regex>\n" else s.result) ++ wxT "</regexpressions>\n"

/- pgsRegexGen::pgsRegex -/
structure PgsRegex where
  characters : List wxChar
  first : ℤ
  second : ℤ

namespace PgsRegex

def setFirst (r : PgsRegex) (first : ℤ) : PgsRegex := { r with first := first, second := first }

def setSecond (r : PgsRegex) (second : ℤ) : PgsRegex :=
  { r with first := min r.first second, second := max r.first second }

end PgsRegex

/- The fields of PgsStringGen; without letters it takes the digits and the letters of the alphabet. -/
structure PgsStringGen where
  sizes : PgsIntegerGen
  letters : PgsIntegerGen
  nbWords : UInt8
  characters : List wxChar

def initCharacters (characters : List wxChar) : List wxChar :=
  if characters = [] then
    List.range' (ch '0') 10 ++ List.range' (ch 'A') 26 ++ List.range' (ch 'a') 26
  else characters

def PgsStringGen.create (wSizeMin wSizeMax : USHORT) (nbWords : UInt8) (seed : ℤ)
    (characters : List wxChar) : PgsStringGen :=
  let characters := initCharacters characters
  let lo := min wSizeMin wSizeMax
  let hi := max wSizeMin wSizeMax
  ⟨.create lo.toNat hi.toNat false seed, .create 0 (characters.length - 1) false seed, nbWords, characters⟩

def isDigit (c : wxChar) : Bool := ch '0' ≤ c ∧ c ≤ ch '9'

def digitsValue (digits : List wxChar) : ℕ := digits.foldl (fun n c => 10 * n + (c - ch '0')) 0

/- ToLong of a text of digits leaves the variable as it was when the number is no long. -/
def ToLong (uninitialised : ℤ) (digits : List wxChar) : ℤ :=
  if (digitsValue digits : ℤ) < 2 ^ 63 then digitsValue digits else uninitialised

def Matches (content : List wxChar) : Option (List wxChar × List wxChar) :=
  let first := content.takeWhile isDigit
  if first = [] then none
  else
    match content.dropWhile isDigit with
    | [] => some (first, [])
    | c :: third => if c = ch ',' ∧ third ≠ [] ∧ third.all isDigit then some (first, third) else none

def GetNodeContent (children : List XmlNode) : List wxChar :=
  (children.findSome? fun
    | .text content => some content
    | .element _ _ => none).getD []

def readChild (uninitialised : ℤ) (regex : PgsRegex) : XmlNode → PgsRegex
  | .text _ => regex
  | .element name children =>
    if name = wxT "characters" then
      { regex with characters := regex.characters ++ GetNodeContent children }
    else if name = wxT "range" then
      match Matches (GetNodeContent children) with
      | some (smin, smax) =>
        let regex := regex.setFirst (ToLong uninitialised smin)
        if smax = [] then regex else regex.setSecond (ToLong uninitialised smax)
      | none => regex
    else regex

def readRegex (uninitialised seed : ℤ) (children : List XmlNode) : PgsStringGen :=
  let regex := children.foldl (readChild uninitialised) (PgsRegex.setFirst ⟨[], 0, 0⟩ 1)
  .create (toUShort regex.first) (toUShort regex.second) 1 seed regex.characters

def stringGens (uninitialised seed : ℤ) (nodes : List XmlNode) : List PgsStringGen :=
  nodes.filterMap fun
    | .text _ => none
    | .element name children =>
      if name = wxT "regex" then some (readRegex uninitialised seed children) else none

def create (load : List wxChar → Option XmlNode) (uninitialised : ℤ) (regex : List wxChar) (seed : ℤ) :
    Option (List PgsStringGen) :=
  match load (toXml regex) with
  | some (.element name nodes) =>
    if name = wxT "regexpressions" then some (stringGens uninitialised seed nodes) else none
  | _ => none

end PgAdmin.PgsRegexGen
