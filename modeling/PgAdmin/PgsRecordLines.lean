import PgAdmin.PgsRecordElements

/-! The lines of a record. Each cell is written as an element and read back as a cell of the same
value; the longest match of the line form is the whole line, whatever its cells hold and whatever
follows it. -/
namespace PgAdmin.PgsObjects
open Regular

namespace Scalar

/- Neither a generator nor a number that its constructor would refuse. -/
def Plain : Scalar → Prop
  | pgsNumber data isReal => PgsNumber.isValid data isReal
  | pgsString _ => True
  | pgsGenerator _ _ => False

/- The same value(), and a string for a string. -/
structure Alike (v w : Scalar) : Prop where
  value : ∀ {σ : Type} (draw : ℕ → StateM σ Text) (s : σ), w.value draw s = v.value draw s
  string : v.isString → w.isString

/- What value() writes for a cell. -/
def code : Scalar → Text
  | pgsNumber data _ => data
  | pgsString data => PgsRecord.quote data
  | pgsGenerator _ _ => []

end Scalar

namespace PgsString

theorem wordGraphic {c : Char} (word : wordLetter c) : '!' ≤ c ∧ c ≤ '~' := by
  simp only [wordLetter, Bool.or_eq_true, decide_eq_true_eq] at word
  rcases word with rfl | ((alnum | rfl) | rfl) | rfl
  · decide
  · simp only [Char.isAlphanum, Char.isAlpha, Char.isUpper, Char.isLower, Char.isDigit,
      Bool.or_eq_true, Bool.and_eq_true, decide_eq_true_eq] at alnum
    simp only [Char.le_def, UInt32.le_iff_toNat_le] at alnum ⊢
    grind
  · decide
  · decide
  · decide

theorem wordNoSpace (ctype : Ctype) {c : Char} (word : wordLetter c) : ctype.isSpace c = false :=
  ctype.graphic c (wordGraphic word).1 (wordGraphic word).2

end PgsString

namespace PgsNumber
open PgsString

theorem typeWithin :
    integerForm1.Within (fun c => wordLetter c) ∧ realForm1.Within (fun c => wordLetter c) ∧
      realForm2.Within (fun c => wordLetter c) ∧ realForm3.Within (fun c => wordLetter c) := by
  have digits : ∀ c : Char, c.isDigit → wordLetter c := by
    intro c digit
    simp [wordLetter, Char.isAlphanum, digit]
  have signs : ∀ c, (c = '+' || c = '-') = true → wordLetter c := by
    intro c either
    simp only [Bool.or_eq_true, decide_eq_true_eq] at either
    rcases either with rfl | rfl <;> rfl
  have exponents : ∀ c, (c = 'E' || c = 'e') = true → wordLetter c := by
    intro c either
    simp only [Bool.or_eq_true, decide_eq_true_eq] at either
    rcases either with rfl | rfl <;> rfl
  have points : ∀ c, decide (c = '.') = true → wordLetter c := by
    intro c same
    cases of_decide_eq_true same
    rfl
  simp only [integerForm1, realForm1, realForm2, realForm3, sign, digit, exponent, plus, opt,
    letter, Within]
  and_intros <;> first | exact digits | exact signs | exact exponents | exact points | trivial

theorem validWord {data : Text} {isReal : Bool} (valid : isValid data isReal) :
    data ≠ [] ∧ (∀ c ∈ data, wordLetter c) ∧ numType data ≠ .pgsTString := by
  have typed : numType data ≠ .pgsTString := by
    intro no
    simp [isValid, no] at valid
  obtain ⟨integer, real1, real2, real3⟩ := typeWithin
  have some : integerForm1.accepts data ∨ realForm1.accepts data ∨ realForm2.accepts data ∨
      realForm3.accepts data := by
    by_contra none
    simp only [not_or] at none
    simp [numType, none] at typed
  refine ⟨?_, ?_, typed⟩
  · rintro rfl
    exact absurd some (by decide)
  · rcases some with form | form | form | form
    · exact letters integer ((acceptsIff _ _).mp form)
    · exact letters real1 ((acceptsIff _ _).mp form)
    · exact letters real2 ((acceptsIff _ _).mp form)
    · exact letters real3 ((acceptsIff _ _).mp form)

end PgsNumber

namespace PgsString
open PgsRecord

theorem stripWord (ctype : Ctype) {s : Text} (word : ∀ c ∈ s, wordLetter c) :
    ctype.strip s = s := by
  have same : ∀ s : Text, (∀ c ∈ s, wordLetter c) → s.dropWhile ctype.isSpace = s := by
    intro s word
    cases s with
    | nil => rfl
    | cons c s =>
      have first := wordNoSpace ctype (word c List.mem_cons_self)
      rw [List.dropWhile_cons, first]
      rfl
  rw [Ctype.strip, same s word, same s.reverse fun c m => word c (List.mem_reverse.mp m),
    List.reverse_reverse]

theorem codeElement {v : Scalar} (plain : v.Plain) : v.code ∈ element.language := by
  cases v with
  | pgsNumber data isReal =>
    have word := PgsNumber.validWord plain
    exact (elementIff _).mpr (.inr ⟨word.1, word.2.1⟩)
  | pgsString data =>
    exact (elementIff _).mpr (.inl ⟨_, bodyEscape data, quoteLetters data⟩)
  | pgsGenerator _ _ => exact False.elim plain

theorem cellCode (ctype : Ctype) {v : Scalar} (plain : v.Plain) :
    v.Alike (cell ctype v.code) := by
  cases v with
  | pgsNumber data isReal =>
    obtain ⟨nonempty, word, typed⟩ := PgsNumber.validWord plain
    have bare : ¬ (data.head? = some '"' ∧ data.getLast? = some '"') := fun ⟨first, _⟩ =>
      absurd (word '"' (List.mem_of_mem_head? first)) (by decide)
    have number : ∃ isReal, cell ctype data = .pgsNumber data isReal := by
      rw [cell, if_neg bare, stripWord ctype word]
      cases kind : PgsNumber.numType data with
      | pgsTInt => exact ⟨false, rfl⟩
      | pgsTReal => exact ⟨true, rfl⟩
      | pgsTString => exact absurd kind typed
    obtain ⟨_, same⟩ := number
    rw [Scalar.code, same]
    refine ⟨fun _ _ => rfl, fun string => ?_⟩
    cases isReal <;> exact nomatch string
  | pgsString data =>
    have same : cell ctype (quote data) = .pgsString data := by
      rw [quoteLetters, cell, if_pos ⟨rfl, by rw [← List.cons_append, List.getLast?_concat]⟩]
      simp [unescapeEscape]
    rw [Scalar.code, same]
    exact ⟨fun _ _ => rfl, fun _ => rfl⟩
  | pgsGenerator _ _ => exact False.elim plain

/-! The match of a line. -/

def tailCode (cells : List Text) : Text := cells.flatMap (fun e => ',' :: e) ++ [')']

@[simp] theorem tailNil : tailCode [] = [')'] := rfl

@[simp] theorem tailCons (e : Text) (cells : List Text) :
    tailCode (e :: cells) = ',' :: (e ++ tailCode cells) := by simp [tailCode]

theorem stopsSpaces (ctype : Ctype) {s a : Text} (blank : ∀ c ∈ s, ctype.isSpace c)
    (stops : Stops a) : Stops (s ++ a) := by
  cases s with
  | nil => exact stops
  | cons c s =>
    intro d first
    cases Option.some.inj first
    intro word
    exact absurd (blank c List.mem_cons_self) (by simp [wordNoSpace ctype word])

theorem stopsTail (cells : List Text) (rest : Text) : Stops (tailCode cells ++ rest) := by
  intro c first
  cases cells <;> cases Option.some.inj first <;> decide

theorem noSpaces {ctype : Ctype} {s a b : Text} (blank : ∀ c ∈ s, ctype.isSpace c)
    (same : s ++ a = b) (first : ∀ c ∈ b.head?, ctype.isSpace c = false) : s = [] := by
  cases s with
  | nil => rfl
  | cons c s =>
    have here := first c (by rw [← same]; rfl)
    rw [blank c List.mem_cons_self] at here
    contradiction

theorem elementNoSpace (ctype : Ctype) {e : Text} (member : e ∈ element.language) (a : Text) :
    ∀ c ∈ (e ++ a).head?, ctype.isSpace c = false := by
  obtain ⟨d, rest, rfl, starts⟩ := elementStarts member
  intro c first
  cases Option.some.inj first
  rcases starts with rfl | word
  · exact ctype.graphic '"' (by decide) (by decide)
  · exact wordNoSpace ctype word

theorem tailNoSpace (ctype : Ctype) (cells : List Text) (rest : Text) :
    ∀ c ∈ (tailCode cells ++ rest).head?, ctype.isSpace c = false := by
  intro c first
  cases cells <;> cases Option.some.inj first <;> exact ctype.graphic _ (by decide) (by decide)

theorem nextIff (ctype : Ctype) (u : Text) : u ∈ (nextElement ctype).language ↔
    ∃ s x s', (∀ c ∈ s, ctype.isSpace c) ∧ x ∈ element.language ∧
      (∀ c ∈ s', ctype.isSpace c) ∧ u = ',' :: (s ++ (x ++ s')) := by
  simp only [nextElement, language, Language.mem_mul]
  constructor
  · rintro ⟨_, ⟨c, comma, rfl⟩, _, ⟨s, before, _, ⟨x, member, s', after, rfl⟩, rfl⟩, rfl⟩
    cases of_decide_eq_true comma
    exact ⟨s, x, s', (testStar _ s).mp before, member, (testStar _ s').mp after, rfl⟩
  · rintro ⟨s, x, s', before, member, after, rfl⟩
    exact ⟨[','], ⟨',', by simp, rfl⟩, _, ⟨s, (testStar _ s).mpr before, _,
      ⟨x, member, s', (testStar _ s').mpr after, rfl⟩, rfl⟩, rfl⟩

theorem stopsNext (ctype : Ctype) {u : Text} (member : u ∈ (star (nextElement ctype)).language)
    (rest : Text) : Stops (u ++ ')' :: rest) := by
  intro c first
  cases u with
  | nil =>
    cases Option.some.inj first
    decide
  | cons d u =>
    cases Option.some.inj first
    obtain ⟨v, _, -, here, -⟩ := consStar.mp member
    obtain ⟨_, _, _, -, -, -, same⟩ := (nextIff ctype _).mp here
    cases (List.cons.inj same).1
    decide

theorem tailSame (ctype : Ctype) {cells : List Text} (elements : ∀ e ∈ cells, e ∈ element.language)
    {u : Text} (member : u ∈ (star (nextElement ctype)).language) {a b : Text}
    (same : u ++ ')' :: a = tailCode cells ++ b) : u ++ [')'] = tailCode cells := by
  induction cells generalizing u with
  | nil =>
    cases u with
    | nil => rfl
    | cons d u =>
      obtain ⟨_, _, -, here, -⟩ := consStar.mp member
      obtain ⟨_, _, _, -, -, -, comma⟩ := (nextIff ctype _).mp here
      cases (List.cons.inj comma).1
      exact nomatch (List.cons.inj same).1
  | cons e cells ih =>
    cases u with
    | nil => exact nomatch (List.cons.inj same).1
    | cons d u =>
      obtain ⟨v, w, rfl, here, more⟩ := consStar.mp member
      obtain ⟨s, x, s', before, some, after, comma⟩ := (nextIff ctype _).mp here
      obtain ⟨rfl, rfl⟩ := List.cons.inj comma
      have cell := elements e List.mem_cons_self
      have tails : s ++ (x ++ (s' ++ (w ++ ')' :: a))) = e ++ (tailCode cells ++ b) := by
        simpa using same
      cases noSpaces before tails (elementNoSpace ctype cell _)
      obtain ⟨rfl, others⟩ := elementSame some cell
        (stopsSpaces ctype after (stopsNext ctype more a)) (stopsTail cells b) tails
      cases noSpaces after others (tailNoSpace ctype cells b)
      have rest := ih (fun e m => elements e (List.mem_cons_of_mem _ m)) more others
      simp [← rest]

theorem tailMember (ctype : Ctype) {cells : List Text}
    (elements : ∀ e ∈ cells, e ∈ element.language) :
    cells.flatMap (fun e => ',' :: e) ∈ (star (nextElement ctype)).language := by
  induction cells with
  | nil => exact Language.nil_mem_kstar _
  | cons e cells ih =>
    rw [List.flatMap_cons, List.cons_append, language, consStar]
    have here : ',' :: e ∈ (nextElement ctype).language :=
      (nextIff ctype _).mpr ⟨[], e, [], by simp, elements e List.mem_cons_self, by simp, by simp⟩
    exact ⟨e, _, rfl, here, ih fun e m => elements e (List.mem_cons_of_mem _ m)⟩

theorem lineIff (ctype : Ctype) (w : Text) : w ∈ (lineForm ctype).language ↔
    ∃ s s' x s'' u, (∀ c ∈ s, ctype.isSpace c) ∧ (∀ c ∈ s', ctype.isSpace c) ∧
      x ∈ element.language ∧ (∀ c ∈ s'', ctype.isSpace c) ∧
      u ∈ (star (nextElement ctype)).language ∧
      w = s ++ '(' :: (s' ++ (x ++ (s'' ++ (u ++ [')'])))) := by
  rw [lineForm]
  simp only [language, Language.mem_mul]
  constructor
  · rintro ⟨s, before, _, ⟨_, ⟨c, opens, rfl⟩, _, ⟨s', between, _, ⟨x, member, _,
      ⟨s'', after, _, ⟨u, more, _, ⟨d, closes, rfl⟩, rfl⟩, rfl⟩, rfl⟩, rfl⟩, rfl⟩, rfl⟩
    cases of_decide_eq_true opens
    cases of_decide_eq_true closes
    exact ⟨s, s', x, s'', u, (testStar _ s).mp before, (testStar _ s').mp between, member,
      (testStar _ s'').mp after, more, rfl⟩
  · rintro ⟨s, s', x, s'', u, before, between, member, after, more, rfl⟩
    exact ⟨s, (testStar _ s).mpr before, _, ⟨['('], ⟨'(', by simp, rfl⟩, _,
      ⟨s', (testStar _ s').mpr between, _, ⟨x, member, _, ⟨s'', (testStar _ s'').mpr after, _,
        ⟨u, more, [')'], ⟨')', by simp, rfl⟩, rfl⟩, rfl⟩, rfl⟩, rfl⟩, rfl⟩, rfl⟩

def lineCode (blank e : Text) (cells : List Text) : Text :=
  blank ++ '(' :: (e ++ tailCode cells)

theorem longestLine (ctype : Ctype) {blank e : Text} {cells : List Text}
    (spaces : ∀ c ∈ blank, ctype.isSpace c) (first : e ∈ element.language)
    (elements : ∀ e ∈ cells, e ∈ element.language) (rest : Text) :
    (lineForm ctype).longest (lineCode blank e cells ++ rest) =
      some (lineCode blank e cells).length := by
  refine longestOf ?_ ?_
  · exact (lineIff ctype _).mpr ⟨blank, [], e, [], _, spaces, (fun _ m => nomatch m), first,
      (fun _ m => nomatch m), tailMember ctype elements, by simp [lineCode, tailCode]⟩
  · intro w ⟨t, same⟩ member
    obtain ⟨s, s', x, s'', u, before, between, found, after, more, rfl⟩ :=
      (lineIff ctype w).mp member
    have same : s ++ ('(' :: (s' ++ (x ++ (s'' ++ (u ++ ')' :: t))))) =
        blank ++ ('(' :: (e ++ (tailCode cells ++ rest))) := by
      simpa [lineCode] using same
    have opens : ∀ a : Text, ∀ c ∈ ('(' :: a).head?, ¬ ctype.isSpace c := by
      intro a c here
      cases Option.some.inj here
      simp [ctype.graphic '(' (by decide) (by decide)]
    have starts : s = blank ∧ _ := List.append_inj same
      (le_antisymm (spanLength before (opens _) same) (spanLength spaces (opens _) same.symm))
    obtain ⟨rfl, tails⟩ := starts
    have tails := (List.cons.inj tails).2
    cases noSpaces between tails (elementNoSpace ctype first _)
    obtain ⟨rfl, others⟩ := elementSame found first
      (stopsSpaces ctype after (stopsNext ctype more t)) (stopsTail cells rest) tails
    cases noSpaces after others (tailNoSpace ctype cells rest)
    have ends := tailSame ctype elements more others
    simp [lineCode, ← ends]

end PgsString
end PgAdmin.PgsObjects
