import PgAdmin.SortClause
import PgAdmin.Substitution

/-! What a replacement of one direction by the other can do to a clause: a direction turns, or a name in quotes that
has the word in it changes; the entries stay apart. -/
namespace PgAdmin.frmEditGrid
open PgsObjects (Text)
open Identifier Direction Substitution

inductive Turned (d : Direction) : ℕ → Text → Text → Prop
  | nil : Turned d 0 [] []
  | keep {k : ℕ} {s t : Text} (c : Char) (rest : Turned d k s t) : Turned d k (c :: s) (c :: t)
  | turn {k : ℕ} {s t : Text} (rest : Turned d k s t) : Turned d (k + 1) (d.other.word ++ s) (d.word ++ t)

variable {d : Direction} {k : ℕ} {s t a b : Text} {c : Char}

theorem Turned.keepAll (front : Text) (rest : Turned d k s t) : Turned d k (front ++ s) (front ++ t) := by
  induction front with
  | nil => exact rest
  | cons c front ih => exact .keep c ih

theorem turnedReplace (d : Direction) (front s : Text) :
    ∃ k, Turned d k s (replaceAll (front ++ d.other.word) (front ++ d.word) s) := by
  induction long : s.length using Nat.strong_induction_on generalizing s with
  | _ n ih =>
    cases s with
    | nil => exact ⟨0, .nil⟩
    | cons c s =>
      have nonempty : front ++ d.other.word ≠ [] := by cases d <;> simp [other, word]
      by_cases hit : front ++ d.other.word <+: c :: s
      · obtain ⟨rest, whole⟩ := hit
        have shorter : rest.length < n := by
          rw [← long, ← whole, List.length_append]
          have := List.length_pos_iff.mpr nonempty
          omega
        obtain ⟨k, turned⟩ := ih rest.length shorter rest rfl
        rw [← whole, replaceAllHit nonempty, List.append_assoc, List.append_assoc]
        exact ⟨k + 1, Turned.keepAll front (.turn turned)⟩
      · obtain ⟨k, turned⟩ := ih s.length (by rw [← long]; exact Nat.lt_succ_self _) s rfl
        rw [replaceAllMiss hit]
        exact ⟨k, .keep c turned⟩

theorem turnedLength (turned : Turned d k s t) :
    t.length + k * d.other.word.length = s.length + k * d.word.length := by
  induction turned with
  | nil => simp
  | keep c rest ih => simp only [List.length_cons]; omega
  | turn rest ih => simp only [List.length_append, Nat.succ_mul]; omega

theorem turnedNone (turned : Turned d 0 s t) : t = s := by
  generalize zero : 0 = k at turned
  induction turned with
  | nil => rfl
  | keep c rest ih => rw [ih zero]
  | turn rest => cases zero

theorem turnedNil (turned : Turned d k [] t) : k = 0 ∧ t = [] := by
  generalize none : ([] : Text) = s at turned
  cases turned with
  | nil => exact ⟨rfl, rfl⟩
  | keep => cases none
  | turn =>
    have := congrArg List.length none
    cases d <;> simp [other, word] at this

theorem turnedEmpty (turned : Turned d k s []) : s = [] := by
  generalize none : ([] : Text) = t at turned
  cases turned with
  | nil => rfl
  | keep => cases none
  | turn =>
    have := congrArg List.length none
    cases d <;> simp [word] at this

theorem turnedAt (outside : c ∉ d.other.word) (turned : Turned d k (a ++ c :: b) t) :
    ∃ k₁ k₂ a' b', k = k₁ + k₂ ∧ t = a' ++ c :: b' ∧ Turned d k₁ a a' ∧ Turned d k₂ b b' := by
  generalize whole : a ++ c :: b = s at turned
  induction turned generalizing a with
  | nil => simp at whole
  | @keep k s t l rest ih =>
    cases a with
    | nil =>
      obtain ⟨rfl, rfl⟩ := List.cons.inj whole
      exact ⟨0, k, [], t, (Nat.zero_add k).symm, rfl, .nil, rest⟩
    | cons x a =>
      obtain ⟨rfl, behind⟩ := List.cons.inj whole
      obtain ⟨k₁, k₂, a', b', rfl, rfl, left, right⟩ := ih behind
      exact ⟨k₁, k₂, x :: a', b', rfl, rfl, .keep x left, right⟩
  | @turn k s t rest ih =>
    rcases List.append_eq_append_iff.mp whole with ⟨front, same, behind⟩ | ⟨behind, rfl, same⟩
    · cases front with
      | nil =>
        have first : (c :: b).head? = s.head? := by rw [behind]; rfl
        have begins : ([] : Text) ++ c :: b = s := by rw [behind]; rfl
        obtain ⟨k₁, k₂, a', b', rfl, rfl, left, right⟩ := ih begins
        obtain ⟨rfl, rfl⟩ := turnedNil left
        refine ⟨1, k₂, d.word, b', by omega, rfl, ?_, right⟩
        have one : Turned d (0 + 1) (d.other.word ++ []) (d.word ++ []) := .turn .nil
        rw [List.append_nil] at same
        simpa [same] using one
      | cons x front =>
        obtain ⟨rfl, -⟩ := List.cons.inj behind
        exact absurd (by rw [same]; simp) outside
    · obtain ⟨k₁, k₂, a', b', rfl, rfl, left, right⟩ := ih same.symm
      exact ⟨k₁ + 1, k₂, d.word ++ a', b', by omega, by simp, .turn left, right⟩

theorem turnedCons (turned : Turned d k (c :: s) t) : (∃ t', t = c :: t' ∧ Turned d k s t') ∨
    ∃ j s' t', k = j + 1 ∧ c :: s = d.other.word ++ s' ∧ t = d.word ++ t' ∧ Turned d j s' t' := by
  generalize whole : c :: s = all at turned
  cases turned with
  | nil => cases whole
  | @keep _ _ t l rest =>
    obtain ⟨rfl, rfl⟩ := List.cons.inj whole
    exact .inl ⟨t, rfl, rest⟩
  | @turn j s' t' rest => exact .inr ⟨j, s', t', rfl, rfl, rfl, rest⟩

theorem turnedFree (free : ∀ c ∈ s, d.other.word.head? ≠ some c) (turned : Turned d k s t) : k = 0 ∧ t = s := by
  induction s generalizing t with
  | nil => exact turnedNil turned
  | cons c s ih =>
    rcases turnedCons turned with ⟨t', rfl, rest⟩ | ⟨j, s', t', rfl, same, -⟩
    · obtain ⟨none, rfl⟩ := ih (fun l member => free l (List.mem_cons_of_mem c member)) rest
      exact ⟨none, rfl⟩
    · have first := congrArg List.head? same
      refine absurd ?_ (free c List.mem_cons_self)
      cases d <;> simpa [other, word, eq_comm] using first

theorem doubledFront {front rest name : Text} (plain : ∀ c ∈ front, c ≠ '"')
    (same : front ++ rest = name.flatMap doubled) :
    ∃ behind, name = front ++ behind ∧ rest = behind.flatMap doubled := by
  induction front generalizing name with
  | nil => exact ⟨name, rfl, same⟩
  | cons c front ih =>
    have letter := plain c List.mem_cons_self
    cases name with
    | nil => cases same
    | cons l name =>
      rw [List.flatMap_cons] at same
      by_cases quote : l = '"'
      · subst quote
        exact absurd (List.cons.inj same).1 letter
      · have single : doubled l = [l] := by simp [doubled, quote]
        rw [single] at same
        obtain ⟨rfl, next⟩ := List.cons.inj same
        obtain ⟨behind, rfl, rest⟩ := ih (fun x member => plain x (List.mem_cons_of_mem c member)) next
        exact ⟨behind, rfl, rest⟩

theorem quoteOutside (d : Direction) : '"' ∉ d.other.word := by cases d <;> decide

theorem turnedDoubled {name : Text} (turned : Turned d k (name.flatMap doubled) t) :
    ∃ name', t = name'.flatMap doubled ∧ Turned d k name name' := by
  induction long : name.length using Nat.strong_induction_on generalizing name k t with
  | _ n ih =>
    cases name with
    | nil =>
      obtain ⟨rfl, rfl⟩ := turnedNil turned
      exact ⟨[], rfl, .nil⟩
    | cons c name =>
      have shorter : name.length < n := by rw [← long]; exact Nat.lt_succ_self _
      by_cases quote : c = '"'
      · subst quote
        have form : ('"' :: name).flatMap doubled = [] ++ '"' :: ([] ++ '"' :: name.flatMap doubled) := rfl
        rw [form] at turned
        obtain ⟨k₁, k₂, a', b', rfl, rfl, left, right⟩ := turnedAt (quoteOutside d) turned
        obtain ⟨rfl, rfl⟩ := turnedNil left
        obtain ⟨k₃, k₄, c', e', rfl, rfl, left', right'⟩ := turnedAt (quoteOutside d) right
        obtain ⟨rfl, rfl⟩ := turnedNil left'
        obtain ⟨name', rfl, inner⟩ := ih name.length shorter right' rfl
        refine ⟨'"' :: name', rfl, ?_⟩
        rw [Nat.zero_add, Nat.zero_add]
        exact .keep '"' inner
      · have form : (c :: name).flatMap doubled = c :: name.flatMap doubled := by
          simp [doubled, quote]
        rw [form] at turned
        rcases turnedCons turned with ⟨t', rfl, rest⟩ | ⟨j, s', t', rfl, same, rfl, rest⟩
        · obtain ⟨name', rfl, inner⟩ := ih name.length shorter rest rfl
          exact ⟨c :: name', by simp [doubled, quote], .keep c inner⟩
        · rw [← form] at same
          obtain ⟨behind, whole, rfl⟩ := doubledFront
            (fun l member quote => quoteOutside d (quote ▸ member)) same.symm
          have less : behind.length < n := by
            rw [← long, whole, List.length_append]
            cases d <;> simp [other, word]
          obtain ⟨name', rfl, inner⟩ := ih behind.length less rest rfl
          refine ⟨d.word ++ name', ?_, whole ▸ .turn inner⟩
          rw [List.flatMap_append]
          cases d <;> rfl

structure EntryTurned (d : Direction) (e e' : Entry) : Prop where
  quoted : e'.quoted = e.quoted
  gap : e'.gap = e.gap
  name : ∃ k, Turned d k e.name e'.name
  direction : e'.direction = e.direction ∨ (e.direction = d.other ∧ e'.direction = d)
  bare : e.quoted = false → e'.name = e.name

theorem EntryTurned.valid {e e' : Entry} (turned : EntryTurned d e e') (valid : e.Valid) : e'.Valid := by
  constructor
  · intro none
    obtain ⟨k, name⟩ := turned.name
    rw [none] at name
    exact valid.nonempty (turnedEmpty name)
  · intro bare
    rw [turned.quoted] at bare
    rw [turned.bare bare]
    exact valid.small bare
  · intro bare
    rw [turned.quoted] at bare
    rw [turned.bare bare]
    exact valid.first bare

variable {e : Entry} {entries : List Entry}

theorem turnedLabel (valid : e.Valid) (turned : Turned d k e.label t) :
    ∃ name', t = ({ e with name := name' } : Entry).label ∧ Turned d k e.name name' ∧
      (e.quoted = false → name' = e.name) := by
  cases quoted : e.quoted with
  | true =>
    have form : e.label = [] ++ '"' :: (e.name.flatMap doubled ++ '"' :: []) := by simp [Entry.label, quoted]
    rw [form] at turned
    obtain ⟨k₁, k₂, a', b', rfl, rfl, left, right⟩ := turnedAt (quoteOutside d) turned
    obtain ⟨rfl, rfl⟩ := turnedNil left
    obtain ⟨k₃, k₄, c', e', rfl, rfl, inner, last⟩ := turnedAt (quoteOutside d) right
    obtain ⟨rfl, rfl⟩ := turnedNil last
    obtain ⟨name', rfl, name⟩ := turnedDoubled inner
    exact ⟨name', by simp [Entry.label], by simpa using name, fun no => by cases no⟩
  | false =>
    have form : e.label = e.name := by simp [Entry.label, quoted]
    rw [form] at turned
    have free : ∀ c ∈ e.name, d.other.word.head? ≠ some c := by
      intro c member same
      rcases valid.small quoted c member with lower | rfl | digit
      · cases d <;> obtain rfl := Option.some.inj same <;> exact absurd lower (by decide)
      · cases d <;> exact absurd (Option.some.inj same) (by decide)
      · cases d <;> obtain rfl := Option.some.inj same <;> exact absurd digit (by decide)
    obtain ⟨rfl, rfl⟩ := turnedFree free turned
    exact ⟨e.name, by simp [Entry.label], turned, fun _ => rfl⟩

theorem turnedWord {old : Direction} (turned : Turned d k old.word t) :
    ∃ new, t = new.word ∧ (new = old ∨ (old = d.other ∧ new = d)) := by
  by_cases same : old = d.other
  · subst same
    have parts : ∃ c s, d.other.word = c :: s ∧ ∀ l ∈ s, d.other.word.head? ≠ some l := by
      cases d
      · exact ⟨'D', ['E', 'S', 'C'], rfl, by simp [other, word]⟩
      · exact ⟨'A', ['S', 'C'], rfl, by simp [other, word]⟩
    obtain ⟨c, s, shape, free⟩ := parts
    have stepped := turned
    rw [shape] at stepped
    rcases turnedCons stepped with ⟨t', rfl, rest⟩ | ⟨j, s', t', rfl, whole, rfl, rest⟩
    · obtain ⟨-, rfl⟩ := turnedFree free rest
      exact ⟨d.other, shape.symm, .inl rfl⟩
    · rw [← shape] at whole
      obtain rfl := List.self_eq_append_right.mp whole
      obtain ⟨rfl, rfl⟩ := turnedNil rest
      exact ⟨d, by simp, .inr ⟨rfl, rfl⟩⟩
  · have free : ∀ c ∈ old.word, d.other.word.head? ≠ some c := by
      cases d <;> cases old <;> simp [other, word] at same ⊢
    obtain ⟨-, rfl⟩ := turnedFree free turned
    exact ⟨old, rfl, .inl rfl⟩

theorem turnedDirection {old : Direction} {behind : Text} (apart : ∀ c ∈ behind.head?, c ∉ d.other.word)
    (turned : Turned d k (old.word ++ behind) t) : ∃ new k' behind', t = new.word ++ behind' ∧
      (new = old ∨ (old = d.other ∧ new = d)) ∧ Turned d k' behind behind' := by
  cases behind with
  | nil =>
    rw [List.append_nil] at turned
    obtain ⟨new, rfl, which⟩ := turnedWord turned
    exact ⟨new, 0, [], by simp, which, .nil⟩
  | cons c behind =>
    have outside : c ∉ d.other.word := apart c rfl
    obtain ⟨k₁, k₂, a', b', rfl, rfl, left, right⟩ := turnedAt outside turned
    obtain ⟨new, rfl, which⟩ := turnedWord left
    exact ⟨new, k₂, c :: b', rfl, which, .keep c right⟩

theorem blankOutside (d : Direction) : ' ' ∉ d.other.word := by cases d <;> decide
theorem commaOutside (d : Direction) : ',' ∉ d.other.word := by cases d <;> decide

theorem tailHead (entries : List Entry) : ∀ c ∈ (tail entries).head?, c ∉ d.other.word := by
  intro c first
  cases entries with
  | nil => cases first
  | cons e entries =>
    cases gap : e.gap <;>
      simp only [tail, List.flatMap_cons, Entry.later, gap, Gap.text, List.cons_append, List.head?_cons,
        Option.mem_def, Option.some.injEq] at first <;> subst first
    · exact commaOutside d
    · exact commaOutside d
    · exact blankOutside d

theorem turnedText (valid : e.Valid) (turned : Turned d k (e.text ++ tail entries) t) :
    ∃ e' k' t', t = e'.text ++ t' ∧ EntryTurned d e e' ∧ Turned d k' (tail entries) t' := by
  have form : e.text ++ tail entries = e.label ++ ' ' :: (e.direction.word ++ tail entries) := by
    simp [Entry.text]
  rw [form] at turned
  obtain ⟨k₁, k₂, a', b', rfl, rfl, left, right⟩ := turnedAt (blankOutside d) turned
  obtain ⟨name', rfl, name, bare⟩ := turnedLabel valid left
  obtain ⟨new, k', behind', rfl, which, rest⟩ := turnedDirection (tailHead entries) right
  refine ⟨{ e with name := name', direction := new }, k', behind', ?_, ⟨rfl, rfl, ⟨k₁, name⟩, which, bare⟩, rest⟩
  simp [Entry.text, Entry.label]

theorem turnedGap (gap : Gap) {behind : Text} (turned : Turned d k (gap.text ++ behind) t) :
    ∃ t', t = gap.text ++ t' ∧ Turned d k behind t' := by
  have step {l : Char} {s u : Text} {j : ℕ} (outside : l ∉ d.other.word) (turned : Turned d j (l :: s) u) :
      ∃ u', u = l :: u' ∧ Turned d j s u' := by
    obtain ⟨k₁, k₂, a', b', rfl, rfl, left, right⟩ := @turnedAt d j u [] s l outside turned
    obtain ⟨rfl, rfl⟩ := turnedNil left
    exact ⟨b', rfl, by rwa [Nat.zero_add]⟩
  cases gap with
  | default =>
    obtain ⟨t', rfl, rest⟩ := step (commaOutside d) turned
    exact ⟨t', rfl, rest⟩
  | dialog =>
    obtain ⟨t₁, rfl, first⟩ := step (commaOutside d) turned
    obtain ⟨t', rfl, rest⟩ := step (blankOutside d) first
    exact ⟨t', rfl, rest⟩
  | click =>
    obtain ⟨t₁, rfl, first⟩ := step (blankOutside d) turned
    obtain ⟨t₂, rfl, second⟩ := step (commaOutside d) first
    obtain ⟨t', rfl, rest⟩ := step (blankOutside d) second
    exact ⟨t', rfl, rest⟩

theorem turnedTail (valid : ∀ e ∈ entries, e.Valid) (turned : Turned d k (tail entries) t) :
    ∃ entries', t = tail entries' ∧ List.Forall₂ (EntryTurned d) entries entries' := by
  induction entries generalizing k t with
  | nil =>
    obtain ⟨-, rfl⟩ := turnedNil turned
    exact ⟨[], rfl, .nil⟩
  | cons e entries ih =>
    have form : tail (e :: entries) = e.gap.text ++ (e.text ++ tail entries) := by simp [tail, Entry.later]
    rw [form] at turned
    obtain ⟨t₁, rfl, behind⟩ := turnedGap e.gap turned
    obtain ⟨e', k', t', rfl, here, rest⟩ := turnedText (valid e List.mem_cons_self) behind
    obtain ⟨entries', rfl, later⟩ := ih (fun x member => valid x (List.mem_cons_of_mem e member)) rest
    refine ⟨e' :: entries', ?_, .cons here later⟩
    simp [tail, Entry.later, here.gap]

/-- A clause in which some words have turned is a clause of entries that have turned. -/
theorem turnedRender (valid : ∀ e ∈ entries, e.Valid) (turned : Turned d k (render entries) t) :
    ∃ entries', t = render entries' ∧ List.Forall₂ (EntryTurned d) entries entries' := by
  cases entries with
  | nil =>
    obtain ⟨-, rfl⟩ := turnedNil turned
    exact ⟨[], rfl, .nil⟩
  | cons e entries =>
    obtain ⟨e', k', t', rfl, here, rest⟩ := turnedText (valid e List.mem_cons_self) turned
    obtain ⟨entries', rfl, later⟩ := turnedTail (fun x member => valid x (List.mem_cons_of_mem e member)) rest
    exact ⟨e' :: entries', rfl, .cons here later⟩

end PgAdmin.frmEditGrid
