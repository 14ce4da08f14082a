import PgAdmin.PgsRegexGen

/-! The simplified regular expressions of the manual: single characters and sets of characters, each with its
length. What a unit denotes is said apart from what the loop of pgsRegexGen lists for it. -/
namespace PgAdmin.PgsRegexGen

def special : List wxChar := [ch '[', ch ']', ch '\\', ch '{', ch '}']

inductive Letter (reserved : List wxChar) where
  | plain (c : wxChar) (free : c ∉ reserved)
  | escaped (c : wxChar)

namespace Letter
variable {reserved : List wxChar}

def char : Letter reserved → wxChar
  | plain c _ => c
  | escaped c => c

def text : Letter reserved → List wxChar
  | plain c _ => [c]
  | escaped c => [ch '\\', c]

def raw : Letter reserved → wxChar
  | plain c _ => c
  | escaped _ => ch '\\'

end Letter

abbrev SetLetter := Letter (ch '-' :: special)

inductive Item where
  | one (l : SetLetter)
  | range (b e : SetLetter)

namespace Item

def text : Item → List wxChar
  | one l => l.text
  | range b e => b.text ++ ch '-' :: e.text

def raw : Item → wxChar
  | one l => l.raw
  | range b _ => b.raw

def last : Item → wxChar
  | one l => l.char
  | range _ e => e.char

def Denotes (c : wxChar) : Item → Prop
  | one l => c = l.char
  | range b e => min b.char e.char ≤ c ∧ c ≤ max b.char e.char

instance (c : wxChar) (i : Item) : Decidable (i.Denotes c) :=
  match i with
  | one l => inferInstanceAs (Decidable (c = l.char))
  | range b e => inferInstanceAs (Decidable (min b.char e.char ≤ c ∧ c ≤ max b.char e.char))

def listed : Item → List wxChar
  | one l => [l.char]
  | range b e => b.char :: (between b.char e.raw ++ [e.char])

end Item

structure CharSet where
  lead : Bool
  items : List Item
  trail : Bool

namespace CharSet
variable (s : CharSet)

def hyphen (there : Bool) : List wxChar := if there then [ch '-'] else []

def text : List wxChar :=
  ch '[' :: (hyphen s.lead ++ s.items.flatMap Item.text ++ hyphen s.trail ++ [ch ']'])

def Denotes (c : wxChar) : Prop := (c = ch '-' ∧ (s.lead ∨ s.trail)) ∨ ∃ i ∈ s.items, i.Denotes c

def behindLead : wxChar :=
  match s.items with
  | i :: _ => i.raw
  | [] => if s.trail then ch '-' else ch ']'

def beforeTrail : wxChar := s.items.foldl (fun _ i => i.last) (if s.lead then ch '-' else ch '[')

def listed : List wxChar :=
  (if s.lead then between (ch '[') s.behindLead else []) ++ s.items.flatMap Item.listed ++
    (if s.trail then between s.beforeTrail (ch ']') else [])

/- No hyphen at an edge and no range with an escaped end adds a letter that does not belong to the set, and what
they leave out is listed all the same. -/
structure HyphensFine : Prop where
  lead : s.lead → ∀ c ∈ between (ch '[') s.behindLead, s.Denotes c
  trail : s.trail → ∀ c ∈ between s.beforeTrail (ch ']'), s.Denotes c
  itself : s.lead ∨ s.trail → ch '-' ∈ s.listed
  escapedEnd : ∀ b c, Item.range b (.escaped c) ∈ s.items →
    (∀ d ∈ between b.char (ch '\\'), s.Denotes d) ∧ ∀ d ∈ between b.char c, d ∈ s.listed

end CharSet

inductive Base where
  | single (l : Letter special)
  | set (s : CharSet)

namespace Base

def text : Base → List wxChar
  | single l => l.text
  | set s => s.text

def Denotes (c : wxChar) : Base → Prop
  | single l => c = l.char
  | set s => s.Denotes c

def listed : Base → List wxChar
  | single l => [l.char]
  | set s => s.listed

def HyphensFine : Base → Prop
  | single _ => True
  | set s => s.HyphensFine

end Base

/- A number in the range of a USHORT. -/
structure Count where
  digits : List wxChar
  nonempty : digits ≠ []
  decimal : ∀ c ∈ digits, isDigit c = true
  fits : digitsValue digits < 65536

inductive Length where
  | one
  | exactly (m : Count)
  | between (m n : Count)

namespace Length

def digits : Length → List wxChar
  | one => []
  | exactly m => m.digits
  | between m n => m.digits ++ ch ',' :: n.digits

def text : Length → List wxChar
  | one => []
  | length => ch '{' :: (length.digits ++ [ch '}'])

def lower : Length → ℕ
  | one => 1
  | exactly m => digitsValue m.digits
  | between m n => min (digitsValue m.digits) (digitsValue n.digits)

def upper : Length → ℕ
  | one => 1
  | exactly m => digitsValue m.digits
  | between m n => max (digitsValue m.digits) (digitsValue n.digits)

end Length

structure RegexUnit where
  base : Base
  length : Length

def RegexUnit.text (u : RegexUnit) : List wxChar := u.base.text ++ u.length.text

def regexText (units : List RegexUnit) : List wxChar := units.flatMap RegexUnit.text

theorem memBetween {b c d : ℕ} : d ∈ between b c ↔ min b c < d ∧ d < max b c := by
  rw [between, List.mem_range'_1]
  rcases le_total b c with le | le
  · rw [min_eq_left le, max_eq_right le]
    omega
  · rw [min_eq_right le, max_eq_left le]
    omega

theorem withEnds {b c d : ℕ} : d = b ∨ d ∈ between b c ∨ d = c ↔ min b c ≤ d ∧ d ≤ max b c := by
  rw [memBetween]
  rcases le_total b c with le | le
  · rw [min_eq_left le, max_eq_right le]
    omega
  · rw [min_eq_right le, max_eq_left le]
    omega

theorem itemListed {i : Item} (plain : ∀ b c, i ≠ .range b (.escaped c)) (d : wxChar) :
    d ∈ i.listed ↔ i.Denotes d := by
  cases i with
  | one l => simp [Item.listed, Item.Denotes]
  | range b e =>
    cases e with
    | plain e free =>
      rw [Item.Denotes, ← withEnds]
      simp [Item.listed, Letter.raw, Letter.char]
    | escaped e => exact absurd rfl (plain b e)

theorem hyphensFine (s : CharSet) : s.HyphensFine ↔ ∀ c, c ∈ s.listed ↔ s.Denotes c := by
  have listedItem {i : Item} (member : i ∈ s.items) {d : wxChar} (inside : d ∈ i.listed) : d ∈ s.listed :=
    List.mem_append_left _ (List.mem_append_right _ (List.mem_flatMap.mpr ⟨i, member, inside⟩))
  constructor
  · intro fine c
    constructor
    · intro inside
      rcases List.mem_append.mp inside with front | inside
      · rcases List.mem_append.mp front with inside | inside
        · split_ifs at inside with there
          · exact fine.lead there c inside
          · cases inside
        · obtain ⟨i, member, inside⟩ := List.mem_flatMap.mp inside
          by_cases plain : ∀ b c, i ≠ .range b (.escaped c)
          · exact .inr ⟨i, member, (itemListed plain c).mp inside⟩
          · push Not at plain
            obtain ⟨b, e, rfl⟩ := plain
            simp only [Item.listed, List.mem_cons, List.mem_append, List.not_mem_nil, or_false] at inside
            rcases inside with rfl | inside | rfl
            · exact .inr ⟨_, member, min_le_left _ _, le_max_left _ _⟩
            · exact (fine.escapedEnd b e member).1 c inside
            · exact .inr ⟨_, member, min_le_right _ _, le_max_right _ _⟩
      · split_ifs at inside with there
        · exact fine.trail there c inside
        · cases inside
    · rintro (⟨rfl, edge⟩ | ⟨i, member, inside⟩)
      · exact fine.itself edge
      · by_cases plain : ∀ b c, i ≠ .range b (.escaped c)
        · exact listedItem member ((itemListed plain c).mpr inside)
        · push Not at plain
          obtain ⟨b, e, rfl⟩ := plain
          rcases (withEnds (b := b.char) (c := e)).mpr inside with rfl | inside | rfl
          · exact listedItem member (by simp [Item.listed])
          · exact (fine.escapedEnd b e member).2 c inside
          · exact listedItem member
              (List.mem_cons_of_mem _ (List.mem_append_right _ (List.mem_singleton_self _)))
  · intro same
    refine ⟨fun there c inside => (same c).mp ?_, fun there c inside => (same c).mp ?_,
      fun edge => (same _).mpr (.inl ⟨rfl, edge⟩), fun b c member => ⟨fun d inside => (same d).mp ?_,
        fun d inside => (same d).mpr (.inr ⟨_, member, ?_⟩)⟩⟩
    · rw [CharSet.listed, if_pos there]
      exact List.mem_append_left _ (List.mem_append_left _ inside)
    · rw [CharSet.listed, if_pos there]
      exact List.mem_append_right _ inside
    · exact listedItem member (List.mem_cons_of_mem _ (List.mem_append_left _ inside))
    · have within := memBetween.mp inside
      exact ⟨within.1.le, within.2.le⟩

end PgAdmin.PgsRegexGen
