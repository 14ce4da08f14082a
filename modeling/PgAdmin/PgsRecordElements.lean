import PgAdmin.PgsStringRecord

/-! The elements of a line. A cell is written as a quoted text or as the digits of a number, and
whatever follows it in a line cannot be taken for a part of it: the match of the element that
starts there is the cell, and read back it is the cell again. -/
namespace PgAdmin.PgsObjects
open Substitution

theorem spanLength {p : Char → Prop} {x e a b : Text} (inside : ∀ c ∈ x, p c)
    (stops : ∀ c ∈ b.head?, ¬ p c) (same : x ++ a = e ++ b) : x.length ≤ e.length := by
  by_contra longer
  obtain ⟨c, rest, tail⟩ : ∃ c rest, x.drop e.length = c :: rest :=
    List.exists_cons_of_ne_nil (by simpa using by omega)
  have dropped := congrArg (List.drop e.length) same
  rw [List.drop_append_of_le_length (by omega), List.drop_left, tail] at dropped
  have inX : c ∈ x := List.mem_of_mem_drop (tail ▸ List.mem_cons_self)
  exact stops c (by rw [← dropped]; rfl) (inside c inX)

namespace PgsRecord

def escapeLetter (c : Char) : Text :=
  if c = '\\' then ['\\', '\\'] else if c = '"' then ['\\', '"'] else [c]

theorem quoteLetters (data : Text) : quote data = '"' :: (data.flatMap escapeLetter ++ ['"']) := by
  have letters : replaceAll ['"'] ['\\', '"'] (replaceAll ['\\'] ['\\', '\\'] data) =
      data.flatMap escapeLetter := by
    rw [replaceLetter, replaceLetter, List.flatMap_assoc]
    congr 1
    funext c
    unfold escapeLetter
    by_cases backslash : c = '\\'
    · simp [backslash]
    · by_cases mark : c = '"' <;> simp [backslash, mark]
  rw [quote, letters]
  rfl

end PgsRecord

namespace PgsString
open Regular PgsRecord

inductive Body : Text → Prop where
  | nil : Body []
  | letter {c : Char} {s : Text} (mark : c ≠ '"') (backslash : c ≠ '\\') (rest : Body s) :
      Body (c :: s)
  | escaped (d : Char) {s : Text} (rest : Body s) : Body ('\\' :: d :: s)

theorem bodyIff (s : Text) : s ∈ (star unit).language ↔ Body s := by
  constructor
  · intro member
    obtain ⟨words, rfl, each⟩ := Language.mem_kstar.mp member
    clear member
    induction words with
    | nil => exact .nil
    | cons word words ih =>
      have rest := ih fun w m => each w (List.mem_cons_of_mem _ m)
      rcases each word List.mem_cons_self with ⟨c, apart, rfl⟩ | pair
      · simp only [Bool.and_eq_true, decide_eq_true_eq] at apart
        exact .letter apart.1 apart.2 rest
      · obtain ⟨_, ⟨c, isBackslash, rfl⟩, _, ⟨d, -, rfl⟩, rfl⟩ := Language.mem_mul.mp pair
        cases of_decide_eq_true isBackslash
        exact .escaped d rest
  · intro body
    induction body with
    | nil => exact Language.nil_mem_kstar _
    | @letter c s mark backslash _ ih =>
      rw [language, consStar]
      exact ⟨[], s, rfl, .inl ⟨c, by simp [mark, backslash], rfl⟩, ih⟩
    | @escaped d s _ ih =>
      rw [language, consStar]
      exact ⟨[d], s, rfl, .inr (Language.append_mem_mul (a := ['\\']) (b := [d])
        ⟨'\\', by simp, rfl⟩ ⟨d, rfl, rfl⟩), ih⟩

theorem Body.append {s u : Text} (body : Body s) (more : Body u) : Body (s ++ u) := by
  induction body with
  | nil => exact more
  | letter mark backslash _ ih => exact .letter mark backslash ih
  | escaped d _ ih => exact .escaped d ih

theorem bodyEscape (data : Text) : Body (data.flatMap escapeLetter) := by
  induction data with
  | nil => exact .nil
  | cons c data ih =>
    refine Body.append (s := escapeLetter c) ?_ ih
    unfold escapeLetter
    split
    · exact .escaped _ .nil
    · split
      · exact .escaped _ .nil
      · rename_i backslash mark
        exact .letter mark backslash .nil

theorem bodyEnds {u v a b : Text} (first : Body u) (second : Body v)
    (same : u ++ '"' :: a = v ++ '"' :: b) : u = v := by
  induction first generalizing v with
  | nil =>
    cases second with
    | nil => rfl
    | letter mark => exact absurd (List.cons.inj same).1.symm mark
    | escaped => exact nomatch (List.cons.inj same).1
  | letter mark backslash _ ih =>
    cases second with
    | nil => exact absurd (List.cons.inj same).1 mark
    | letter _ _ rest =>
      obtain ⟨rfl, tails⟩ := List.cons.inj same
      rw [ih rest tails]
    | escaped => exact absurd (List.cons.inj same).1 backslash
  | escaped d _ ih =>
    cases second with
    | nil => exact nomatch (List.cons.inj same).1
    | letter _ backslash => exact absurd (List.cons.inj same).1.symm backslash
    | escaped _ rest =>
      obtain ⟨rfl, tails⟩ := List.cons.inj (List.cons.inj same).2
      rw [ih rest tails]

theorem elementIff (s : Text) :
    s ∈ element.language ↔ (∃ u, Body u ∧ s = '"' :: (u ++ ['"'])) ∨
      s ≠ [] ∧ ∀ c ∈ s, wordLetter c := by
  have quoted : s ∈ (cat (letter '"') (cat (star unit) (letter '"'))).language ↔
      ∃ u, Body u ∧ s = '"' :: (u ++ ['"']) := by
    constructor
    · intro member
      obtain ⟨_, ⟨c, isMark, rfl⟩, _, rest, rfl⟩ := Language.mem_mul.mp member
      obtain ⟨u, body, _, ⟨d, closes, rfl⟩, rfl⟩ := Language.mem_mul.mp rest
      cases of_decide_eq_true isMark
      cases of_decide_eq_true closes
      exact ⟨u, (bodyIff u).mp body, rfl⟩
    · rintro ⟨u, body, rfl⟩
      exact Language.append_mem_mul (a := ['"']) ⟨'"', by simp, rfl⟩
        (Language.append_mem_mul ((bodyIff u).mpr body) ⟨'"', by simp, rfl⟩)
  have word : s ∈ (plus (test wordLetter)).language ↔ s ≠ [] ∧ ∀ c ∈ s, wordLetter c := by
    constructor
    · intro member
      obtain ⟨_, ⟨c, here, rfl⟩, w, rest, rfl⟩ := Language.mem_mul.mp member
      refine ⟨List.cons_ne_nil c w, fun d m => ?_⟩
      rcases List.mem_cons.mp m with rfl | m
      · exact here
      · exact (testStar _ w).mp rest d m
    · rintro ⟨nonempty, all⟩
      obtain ⟨c, w, rfl⟩ := List.exists_cons_of_ne_nil nonempty
      exact Language.append_mem_mul (a := [c]) ⟨c, all c List.mem_cons_self, rfl⟩
        ((testStar _ w).mpr fun d m => all d (List.mem_cons_of_mem c m))
  rw [element, language, Language.mem_add, quoted, word]

def Starts (c : Char) : Prop := c = '"' ∨ wordLetter c

def Stops (s : Text) : Prop := ∀ c ∈ s.head?, ¬ wordLetter c

theorem elementStarts {s : Text} (member : s ∈ element.language) :
    ∃ c rest, s = c :: rest ∧ Starts c := by
  rcases (elementIff s).mp member with ⟨u, -, rfl⟩ | ⟨nonempty, all⟩
  · exact ⟨'"', _, rfl, .inl rfl⟩
  · obtain ⟨c, rest, rfl⟩ := List.exists_cons_of_ne_nil nonempty
    exact ⟨c, rest, rfl, .inr (all c List.mem_cons_self)⟩

theorem elementMost {x e a b : Text} (some : x ∈ element.language) (cell : e ∈ element.language)
    (stops : Stops b) (same : x ++ a = e ++ b) : x.length ≤ e.length := by
  rcases (elementIff x).mp some with ⟨u, first, rfl⟩ | ⟨nonempty, word⟩
  · rcases (elementIff e).mp cell with ⟨v, second, rfl⟩ | ⟨nonempty, word⟩
    · have closes : u = v := bodyEnds first second (by simpa using same)
      rw [closes]
    · obtain ⟨c, rest, rfl⟩ := List.exists_cons_of_ne_nil nonempty
      cases (List.cons.inj same).1
      exact absurd (word '"' List.mem_cons_self) (by decide)
  · rcases (elementIff e).mp cell with ⟨v, second, rfl⟩ | -
    · obtain ⟨c, rest, rfl⟩ := List.exists_cons_of_ne_nil nonempty
      cases (List.cons.inj same).1
      exact absurd (word '"' List.mem_cons_self) (by decide)
    · exact spanLength word stops same

theorem elementSame {x e a b : Text} (some : x ∈ element.language) (cell : e ∈ element.language)
    (stopsX : Stops a) (stopsE : Stops b) (same : x ++ a = e ++ b) : x = e ∧ a = b :=
  List.append_inj same (le_antisymm (elementMost some cell stopsE same)
    (elementMost cell some stopsX same.symm))

theorem longestCell {e b : Text} (cell : e ∈ element.language) (stops : Stops b) :
    element.longest (e ++ b) = some e.length :=
  longestOf cell fun _ ⟨_, same⟩ member => elementMost member cell stops same

theorem longestSkip {s : Text} (starts : ∀ c ∈ s.head?, ¬ Starts c) : element.longest s = none := by
  rw [longestNone]
  intro w ⟨t, same⟩ member
  obtain ⟨c, rest, rfl, first⟩ := elementStarts member
  exact starts c (by rw [← same]; rfl) first

theorem searchCell {p e b : Text} (skipped : ∀ c ∈ p, ¬ Starts c) (cell : e ∈ element.language)
    (stops : Stops b) : element.search (p ++ e ++ b) = some (p, e, b) := by
  obtain ⟨d, rest, first, -⟩ := elementStarts cell
  refine searchOf (longestCell cell stops) (first ▸ List.cons_ne_nil d rest) ?_
  intro before c s split
  refine longestSkip fun a here => ?_
  cases Option.some.inj here
  exact skipped c (by simp [split])

theorem searchEnd {p : Text} (skipped : ∀ c ∈ p, ¬ Starts c) : element.search p = none := by
  refine searchNone fun before rest split => longestSkip fun c here => ?_
  have inRest := List.mem_of_mem_head? here
  exact skipped c (split ▸ List.mem_append_right before inRest)

/-! A cell read back. -/

theorem escapedStart (s : Text) :
    ¬ ['\\', '"'] <+: '\\' :: s.flatMap escapeLetter := by
  rw [List.cons_prefix_cons]
  rintro ⟨-, t, same⟩
  cases s with
  | nil => exact nomatch same
  | cons c s =>
    rw [List.flatMap_cons] at same
    unfold escapeLetter at same
    split at same
    · exact nomatch (List.cons.inj same).1
    · split at same
      · exact nomatch (List.cons.inj same).1
      · rename_i mark
        exact mark (List.cons.inj same).1.symm

theorem unescapeEscape (data : Text) : unescape (data.flatMap escapeLetter) = data := by
  have marks : ∀ s : Text, replaceAll ['\\', '"'] ['"'] (s.flatMap escapeLetter) =
      s.flatMap fun c => if c = '\\' then ['\\', '\\'] else [c] := by
    intro s
    induction s with
    | nil => rfl
    | cons c s ih =>
      rw [List.flatMap_cons, List.flatMap_cons, ← ih]
      by_cases backslash : c = '\\'
      · rw [if_pos backslash, backslash]
        exact (replaceAllMiss (by simp [List.cons_prefix_cons])).trans
          (congrArg _ (replaceAllMiss (escapedStart s)))
      · rw [if_neg backslash]
        by_cases mark : c = '"'
        · rw [mark]
          exact replaceAllHit (by simp) _ _
        · have plain : escapeLetter c = [c] := by rw [escapeLetter, if_neg backslash, if_neg mark]
          rw [plain]
          exact replaceAllMiss (by simp [List.cons_prefix_cons, Ne.symm backslash])
  have backslashes : ∀ s : Text, replaceAll ['\\', '\\'] ['\\']
      (s.flatMap fun c => if c = '\\' then ['\\', '\\'] else [c]) = s := by
    intro s
    induction s with
    | nil => rfl
    | cons c s ih =>
      rw [List.flatMap_cons]
      split
      · rename_i backslash
        rw [replaceAllHit (by simp), ih, backslash]
        rfl
      · rename_i other
        rw [List.singleton_append, replaceAllMiss (by simp [List.cons_prefix_cons, Ne.symm other]),
          ih]
  rw [unescape, marks, backslashes]

end PgsString
end PgAdmin.PgsObjects
