import PgAdmin.Identifier
import PgAdmin.WxString

/-! The ORDER BY clause of the edit grid as a text: the entries it is built of, and how the server reads it. -/
namespace PgAdmin.frmEditGrid
open PgsObjects (Text)
open Identifier wxString

inductive Direction where
  | asc
  | desc
  deriving DecidableEq, Repr

namespace Direction

def word : Direction → Text
  | asc => ['A', 'S', 'C']
  | desc => ['D', 'E', 'S', 'C']

def other : Direction → Direction
  | asc => desc
  | desc => asc

end Direction

open Direction

/- What stands between two entries: that of the default order, of the options dialog, and of a click. -/
inductive Gap where
  | default
  | dialog
  | click
  deriving DecidableEq, Repr

def Gap.text : Gap → Text
  | default => [',']
  | dialog => [',', ' ']
  | click => [' ', ',', ' ']

structure Entry where
  name : Text
  quoted : Bool
  direction : Direction
  gap : Gap
  deriving DecidableEq, Repr

namespace Entry

def label (e : Entry) : Text :=
  if e.quoted then '"' :: e.name.flatMap doubled ++ ['"'] else e.name

def text (e : Entry) : Text := e.label ++ ' ' :: e.direction.word

def later (e : Entry) : Text := e.gap.text ++ e.text

structure Valid (e : Entry) : Prop where
  nonempty : e.name ≠ []
  small : e.quoted = false → ∀ c ∈ e.name, c.isLower = true ∨ c = '_' ∨ c.isDigit = true
  first : e.quoted = false → ∀ c ∈ e.name.head?, c.isLower = true ∨ c = '_'

def meaning (e : Entry) : Text × Direction := (e.name, e.direction)

end Entry

def tail (entries : List Entry) : Text := entries.flatMap Entry.later

def render : List Entry → Text
  | [] => []
  | e :: entries => e.text ++ tail entries

def readQuotedTo : Text → Option (Text × Text)
  | [] => none
  | '"' :: '"' :: s => (readQuotedTo s).map fun (name, rest) => ('"' :: name, rest)
  | '"' :: s => some ([], s)
  | c :: s => (readQuotedTo s).map fun (name, rest) => (c :: name, rest)

def readLabel : Text → Option (Text × Text)
  | '"' :: s => readQuotedTo s
  | s =>
    let word := s.takeWhile identCont
    if (word.head?.map identStart).getD false then some (word.map Char.toLower, s.dropWhile identCont) else none

def readDirection (s : Text) : Option (Direction × Text) :=
  if asc.word.isPrefixOf s then some (asc, s.drop 3)
  else if desc.word.isPrefixOf s then some (desc, s.drop 4)
  else none

def blank (c : Char) : Bool := c = ' '

def readEntries : ℕ → Text → Option (List (Text × Direction))
  | 0, _ => none
  | turns + 1, s => do
    let (name, s) ← readLabel s
    let (direction, s) ← readDirection (s.dropWhile blank)
    match s.dropWhile blank with
    | [] => some [(name, direction)]
    | ',' :: s => (readEntries turns (s.dropWhile blank)).map ((name, direction) :: ·)
    | _ => none

/- No ORDER BY is written for an empty clause. -/
def readClause (s : Text) : Option (List (Text × Direction)) :=
  if s = [] then some [] else readEntries (s.length + 1) s

variable {e : Entry} {entries : List Entry}

theorem readQuotedDoubled (name : Text) {rest : Text} (closes : rest.head? ≠ some '"') :
    readQuotedTo (name.flatMap doubled ++ '"' :: rest) = some (name, rest) := by
  induction name with
  | nil =>
    cases rest with
    | nil => rfl
    | cons c rest =>
      have other : c ≠ '"' := by simpa using closes
      simp [readQuotedTo, other]
  | cons c name ih =>
    rw [List.flatMap_cons, List.append_assoc]
    by_cases quote : c = '"'
    · subst quote
      simp [doubled, readQuotedTo, ih]
    · simp [doubled, readQuotedTo, ih, quote]

theorem readLabelEntry (valid : e.Valid) (rest : Text) :
    readLabel (e.label ++ ' ' :: rest) = some (e.name, ' ' :: rest) := by
  cases quoted : e.quoted with
  | true =>
    have text : e.label ++ ' ' :: rest = '"' :: (e.name.flatMap doubled ++ '"' :: ' ' :: rest) := by
      simp [Entry.label, quoted]
    rw [text]
    exact readQuotedDoubled e.name (by simp)
  | false =>
    have letters := valid.small quoted
    have cont : ∀ c ∈ e.name, identCont c = true := fun c member => smallCont (letters c member)
    have low : e.name.map Char.toLower = e.name :=
      (List.map_congr_left fun c member => smallLower (letters c member)).trans (List.map_id _)
    obtain ⟨c, name, shape⟩ := List.exists_cons_of_ne_nil valid.nonempty
    have start : identStart c = true := by
      rcases valid.first quoted c (by simp [shape]) with lower | rfl
      · simp [identStart, Char.isAlpha, lower]
      · rfl
    have bare : c ≠ '"' := by
      rintro rfl
      exact absurd start (by decide)
    have stop : identCont ' ' = false := by decide
    have word : (e.name ++ ' ' :: rest).takeWhile identCont = e.name := by
      rw [List.takeWhile_append_of_pos cont]
      simp [stop]
    have behind : (e.name ++ ' ' :: rest).dropWhile identCont = ' ' :: rest := by
      rw [List.dropWhile_append_of_pos cont]
      simp [stop]
    have text : e.label ++ ' ' :: rest = e.name ++ ' ' :: rest := by simp [Entry.label, quoted]
    rw [text]
    rw [shape] at word behind low ⊢
    unfold readLabel
    split
    · rename_i same
      exact absurd (List.cons.inj same).1 bare
    · dsimp only
      rw [word, behind, low]
      simp [start]

theorem readDirectionWord (d : Direction) (rest : Text) :
    readDirection (d.word ++ rest) = some (d, rest) := by
  cases d with
  | asc => simp [readDirection, word]
  | desc => simp [readDirection, word]

theorem textHead (valid : e.Valid) : ∃ c s, e.text = c :: s ∧ blank c = false := by
  cases quoted : e.quoted with
  | true =>
    refine ⟨'"', e.name.flatMap doubled ++ '"' :: ' ' :: e.direction.word, ?_, by decide⟩
    simp [Entry.text, Entry.label, quoted]
  | false =>
    obtain ⟨c, name, shape⟩ := List.exists_cons_of_ne_nil valid.nonempty
    refine ⟨c, name ++ ' ' :: e.direction.word, by simp [Entry.text, Entry.label, quoted, shape], ?_⟩
    rcases valid.small quoted c (by simp [shape]) with lower | rfl | digit
    · exact decide_eq_false fun same => absurd (same ▸ lower) (by decide)
    · decide
    · exact decide_eq_false fun same => absurd (same ▸ digit) (by decide)

theorem tailNext (valid : ∀ e ∈ entries, e.Valid) (trail : ℕ) :
    match entries with
    | [] => (tail entries ++ List.replicate trail ' ').dropWhile blank = []
    | next :: later => ∃ s, (tail entries ++ List.replicate trail ' ').dropWhile blank = ',' :: s ∧
        s.dropWhile blank = next.text ++ tail later ++ List.replicate trail ' ' := by
  cases entries with
  | nil =>
    rw [tail, List.flatMap_nil, List.nil_append, List.dropWhile_eq_nil_iff]
    intro c member
    rw [List.eq_of_mem_replicate member]
    rfl
  | cons next later =>
    obtain ⟨c, s, shape, stays⟩ := textHead (valid next List.mem_cons_self)
    have stop (rest : Text) : (next.text ++ rest).dropWhile blank = next.text ++ rest := by
      rw [shape, List.cons_append, List.dropWhile_cons_of_neg (by simp [stays])]
    have text : tail (next :: later) ++ List.replicate trail ' ' =
        next.gap.text ++ (next.text ++ tail later ++ List.replicate trail ' ') := by
      simp [tail, Entry.later]
    rw [text]
    have last := stop (tail later ++ List.replicate trail ' ')
    rw [← List.append_assoc] at last
    cases next.gap with
    | default => exact ⟨_, rfl, last⟩
    | dialog => exact ⟨_, rfl, (List.dropWhile_cons_of_pos rfl).trans last⟩
    | click => exact ⟨_, rfl, (List.dropWhile_cons_of_pos rfl).trans last⟩

theorem readEntriesStep (valid : e.Valid) (rest : Text) (turns : ℕ) :
    readEntries (turns + 1) (e.text ++ rest) =
      match rest.dropWhile blank with
      | [] => some [e.meaning]
      | ',' :: s => (readEntries turns (s.dropWhile blank)).map (e.meaning :: ·)
      | _ => none := by
  have text : e.text ++ rest = e.label ++ ' ' :: (e.direction.word ++ rest) := by simp [Entry.text]
  have stop : (' ' :: (e.direction.word ++ rest)).dropWhile blank = e.direction.word ++ rest := by
    cases e.direction <;> rfl
  rw [text, readEntries, readLabelEntry valid]
  simp only [Option.bind_eq_bind, Option.bind_some, stop, readDirectionWord]
  rfl

theorem readEntriesRender (valid : ∀ x ∈ e :: entries, x.Valid) (trail : ℕ) {turns : ℕ}
    (enough : entries.length < turns) :
    readEntries turns (render (e :: entries) ++ List.replicate trail ' ') =
      some ((e :: entries).map Entry.meaning) := by
  obtain ⟨turns, rfl⟩ := Nat.exists_eq_succ_of_ne_zero (Nat.ne_of_gt (Nat.zero_lt_of_lt enough))
  have next := tailNext (fun x member => valid x (List.mem_cons_of_mem e member)) trail
  rw [render, List.append_assoc, readEntriesStep (valid e List.mem_cons_self)]
  induction entries generalizing e turns with
  | nil => rw [next]; rfl
  | cons second entries ih =>
    obtain ⟨s, comma, begins⟩ := next
    have enough' : entries.length < turns := Nat.lt_of_succ_lt_succ enough
    obtain ⟨turns, rfl⟩ := Nat.exists_eq_succ_of_ne_zero (Nat.ne_of_gt (Nat.zero_lt_of_lt enough'))
    have valid' : ∀ x ∈ second :: entries, x.Valid := fun x member => valid x (List.mem_cons_of_mem e member)
    have rest := ih valid' turns enough'
      (tailNext (fun x member => valid' x (List.mem_cons_of_mem second member)) trail)
    rw [comma]
    simp only [begins, List.append_assoc]
    rw [readEntriesStep (valid' second List.mem_cons_self), rest]
    rfl

/-- The server reads the entries that the clause was built of. -/
theorem readRender (valid : ∀ x ∈ entries, x.Valid) (trail : ℕ) (some_ : entries ≠ []) :
    readClause (render entries ++ List.replicate trail ' ') = some (entries.map Entry.meaning) := by
  obtain ⟨e, entries, rfl⟩ := List.exists_cons_of_ne_nil some_
  obtain ⟨c, s, head, -⟩ := textHead (valid e List.mem_cons_self)
  have long : entries.length ≤ (tail entries).length := by
    rw [tail, List.length_flatMap]
    refine (by simp : entries.length = (entries.map fun _ => 1).sum).trans_le (List.sum_le_sum fun x _ => ?_)
    rw [Entry.later, List.length_append]
    cases x.gap <;> simp [Gap.text] <;> omega
  have written : render (e :: entries) ++ List.replicate trail ' ' ≠ [] := by simp [render, head]
  rw [readClause, if_neg written]
  refine readEntriesRender valid trail ?_
  simp only [render, List.length_append]
  omega

end PgAdmin.frmEditGrid
