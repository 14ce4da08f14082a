import Mathlib.Computability.Language

/-! Regular expressions over tests of letters, as POSIX matches them: of all matches the leftmost,
and of those the longest. The matcher works by derivatives; what it finds is said in terms of the
language of the expression. -/
namespace PgAdmin

inductive Regular (α : Type) where
  | empty
  | never
  | test (p : α → Bool)
  | alt (r q : Regular α)
  | cat (r q : Regular α)
  | star (r : Regular α)

namespace Regular

variable {α : Type}

def language : Regular α → Language α
  | empty => 1
  | never => 0
  | test p => {w | ∃ c, p c ∧ w = [c]}
  | alt r q => r.language + q.language
  | cat r q => r.language * q.language
  | star r => KStar.kstar r.language

def plus (r : Regular α) : Regular α := cat r (star r)
def opt (r : Regular α) : Regular α := alt r empty

def letter [DecidableEq α] (a : α) : Regular α := test fun c => c = a

def nullable : Regular α → Bool
  | empty => true
  | never => false
  | test _ => false
  | alt r q => r.nullable || q.nullable
  | cat r q => r.nullable && q.nullable
  | star _ => true

def deriv (c : α) : Regular α → Regular α
  | empty => never
  | never => never
  | test p => if p c then empty else never
  | alt r q => alt (r.deriv c) (q.deriv c)
  | cat r q => if r.nullable then alt (cat (r.deriv c) q) (q.deriv c) else cat (r.deriv c) q
  | star r => cat (r.deriv c) (star r)

def accepts (r : Regular α) : List α → Bool
  | [] => r.nullable
  | c :: s => (r.deriv c).accepts s

def longest (r : Regular α) : List α → Option ℕ
  | [] => if r.nullable then some 0 else none
  | c :: s =>
    match (r.deriv c).longest s with
    | some n => some (n + 1)
    | none => if r.nullable then some 0 else none

def search (r : Regular α) : List α → Option (List α × List α × List α)
  | [] => (r.longest []).map fun _ => ([], [], [])
  | c :: s =>
    match r.longest (c :: s) with
    | some n => some ([], (c :: s).take n, (c :: s).drop n)
    | none => (r.search s).map fun (before, found, after) => (c :: before, found, after)

theorem nullableIff (r : Regular α) : r.nullable ↔ [] ∈ r.language := by
  induction r with
  | empty => simp [nullable, language]
  | never => simp [nullable, language]
  | test p =>
    refine ⟨(fun no => nomatch no), ?_⟩
    rintro ⟨c, -, same⟩
    exact nomatch same
  | alt r q ihr ihq => simp [nullable, language, ihr, ihq, Language.mem_add]
  | cat r q ihr ihq => simp [nullable, language, ihr, ihq, Language.mem_mul]
  | star r => simp [nullable, language, Language.nil_mem_kstar]

theorem consStar {l : Language α} {c : α} {s : List α} :
    c :: s ∈ KStar.kstar l ↔ ∃ u v, s = u ++ v ∧ c :: u ∈ l ∧ v ∈ KStar.kstar l := by
  constructor
  · intro member
    obtain ⟨words, same, each⟩ := Language.mem_kstar_iff_exists_nonempty.mp member
    cases words with
    | nil => exact nomatch same
    | cons word words =>
      obtain ⟨here, some⟩ := each word List.mem_cons_self
      obtain ⟨a, u, rfl⟩ := List.exists_cons_of_ne_nil some
      cases same
      exact ⟨u, words.flatten, rfl, here,
        Language.join_mem_kstar fun w m => (each w (List.mem_cons_of_mem _ m)).1⟩
  · rintro ⟨u, v, rfl, here, rest⟩
    rw [← Language.one_add_self_mul_kstar_eq_kstar]
    exact .inr (Language.append_mem_mul here rest)

theorem derivIff (r : Regular α) (c : α) (s : List α) :
    s ∈ (r.deriv c).language ↔ c :: s ∈ r.language := by
  induction r generalizing s with
  | empty => simp [deriv, language]
  | never => simp [deriv, language]
  | test p =>
    simp only [deriv, language]
    split
    · rename_i holds
      change s = [] ↔ ∃ a, p a ∧ c :: s = [a]
      constructor
      · rintro rfl
        exact ⟨c, holds, rfl⟩
      · rintro ⟨a, -, same⟩
        exact (List.cons.inj same).2
    · rename_i fails
      refine ⟨False.elim, ?_⟩
      rintro ⟨a, holds, same⟩
      exact fails ((List.cons.inj same).1 ▸ holds)
  | alt r q ihr ihq => simp only [deriv, language, Language.mem_add, ihr, ihq]
  | cat r q ihr ihq =>
    have first : s ∈ (cat (r.deriv c) q).language ↔
        ∃ u v, u ++ v = s ∧ c :: u ∈ r.language ∧ v ∈ q.language := by
      simp only [language, Language.mem_mul, ihr]
      grind
    have whole : c :: s ∈ (cat r q).language ↔
        ([] ∈ r.language ∧ c :: s ∈ q.language) ∨
          ∃ u v, u ++ v = s ∧ c :: u ∈ r.language ∧ v ∈ q.language := by
      simp only [language, Language.mem_mul]
      constructor
      · rintro ⟨a, inR, b, inQ, same⟩
        cases a with
        | nil => exact .inl ⟨inR, same ▸ inQ⟩
        | cons d u =>
          cases same
          exact .inr ⟨u, b, rfl, inR, inQ⟩
      · rintro (⟨inR, inQ⟩ | ⟨u, v, rfl, inR, inQ⟩)
        · exact ⟨[], inR, _, inQ, rfl⟩
        · exact ⟨c :: u, inR, v, inQ, rfl⟩
    rw [whole, ← nullableIff]
    simp only [deriv]
    split
    · rename_i null
      rw [language, Language.mem_add, first, ihq]
      simp only [null, true_and, or_comm]
    · rename_i some
      rw [first]
      simp only [some, Bool.false_eq_true, false_and, false_or]
  | star r ih =>
    rw [deriv, language, Language.mem_mul, language, consStar]
    simp only [ih]
    grind

theorem acceptsIff (r : Regular α) (s : List α) : r.accepts s ↔ s ∈ r.language := by
  induction s generalizing r with
  | nil => exact nullableIff r
  | cons c s ih => exact (ih _).trans (derivIff r c s)

theorem longestNone {r : Regular α} {s : List α} :
    r.longest s = none ↔ ∀ w, w <+: s → w ∉ r.language := by
  induction s generalizing r with
  | nil =>
    rw [longest]
    simp only [List.prefix_nil, forall_eq, ← nullableIff]
    simp
  | cons c s ih =>
    have split : (∀ w, w <+: c :: s → w ∉ r.language) ↔
        [] ∉ r.language ∧ ∀ w, w <+: s → w ∉ (r.deriv c).language := by
      constructor
      · intro all
        refine ⟨all [] List.nil_prefix, fun w before member => ?_⟩
        exact all (c :: w) (List.prefix_cons_inj c |>.mpr before) ((derivIff r c w).mp member)
      · rintro ⟨null, all⟩ w before member
        cases w with
        | nil => exact null member
        | cons d w =>
          obtain ⟨rfl, rest⟩ := List.cons_prefix_cons.mp before
          exact all w rest ((derivIff r d w).mpr member)
    rw [longest, split, ← ih, ← nullableIff]
    cases (r.deriv c).longest s <;> simp

theorem longestSpec {r : Regular α} {s : List α} {n : ℕ} (ok : r.longest s = some n) :
    n ≤ s.length ∧ s.take n ∈ r.language ∧ ∀ w, w <+: s → w ∈ r.language → w.length ≤ n := by
  induction s generalizing r n with
  | nil =>
    rw [longest] at ok
    split at ok
    · rename_i null
      cases Option.some.inj ok
      exact ⟨le_rfl, (nullableIff r).mp null, fun w before _ => before.length_le⟩
    · contradiction
  | cons c s ih =>
    rw [longest] at ok
    split at ok
    · rename_i m further
      cases Option.some.inj ok
      obtain ⟨bound, taken, most⟩ := ih further
      refine ⟨Nat.succ_le_succ bound, (derivIff r c _).mp taken, fun w before member => ?_⟩
      cases w with
      | nil => exact Nat.zero_le _
      | cons d w =>
        obtain ⟨rfl, rest⟩ := List.cons_prefix_cons.mp before
        exact Nat.succ_le_succ (most w rest ((derivIff r d w).mpr member))
    · rename_i no
      split at ok
      · rename_i null
        cases Option.some.inj ok
        refine ⟨Nat.zero_le _, (nullableIff r).mp null, fun w before member => ?_⟩
        cases w with
        | nil => exact le_rfl
        | cons d w =>
          obtain ⟨rfl, rest⟩ := List.cons_prefix_cons.mp before
          exact absurd ((derivIff r d w).mpr member) (longestNone.mp no w rest)
      · contradiction

theorem longestOf {r : Regular α} {u v : List α} (member : u ∈ r.language)
    (most : ∀ w, w <+: u ++ v → w ∈ r.language → w.length ≤ u.length) :
    r.longest (u ++ v) = some u.length := by
  cases found : r.longest (u ++ v) with
  | none => exact absurd member (longestNone.mp found u (List.prefix_append u v))
  | some n =>
    obtain ⟨bound, taken, longer⟩ := longestSpec found
    have most := most _ (List.take_prefix n _) taken
    rw [List.length_take, min_eq_left bound] at most
    exact congrArg some (le_antisymm most (longer u (List.prefix_append u v) member))

theorem searchOf {r : Regular α} {before found after : List α}
    (here : r.longest (found ++ after) = some found.length) (nonempty : found ≠ [])
    (skip : ∀ p c s, before = p ++ c :: s → r.longest (c :: s ++ found ++ after) = none) :
    r.search (before ++ found ++ after) = some (before, found, after) := by
  induction before with
  | nil =>
    obtain ⟨c, rest, rfl⟩ := List.exists_cons_of_ne_nil nonempty
    rw [List.nil_append, List.cons_append, search, ← List.cons_append, here]
    simp
  | cons d before ih =>
    have none := skip [] d before rfl
    simp only [List.cons_append] at none ⊢
    rw [search, none, ih fun p c s same => skip (d :: p) c s (by rw [same]; rfl)]
    rfl

theorem searchNone {r : Regular α} {s : List α}
    (skip : ∀ p q, s = p ++ q → r.longest q = none) : r.search s = none := by
  induction s with
  | nil => rw [search, skip [] [] rfl]; rfl
  | cons c s ih =>
    rw [search, skip [] (c :: s) rfl, ih fun p q same => skip (c :: p) q (by rw [same]; rfl)]
    rfl

def Within (p : α → Prop) : Regular α → Prop
  | empty => True
  | never => True
  | test q => ∀ c, q c → p c
  | alt r q => r.Within p ∧ q.Within p
  | cat r q => r.Within p ∧ q.Within p
  | star r => r.Within p

theorem letters {p : α → Prop} {r : Regular α} (within : r.Within p) {w : List α}
    (member : w ∈ r.language) : ∀ c ∈ w, p c := by
  induction r generalizing w with
  | empty =>
    cases member
    exact fun c m => nomatch m
  | never => exact False.elim member
  | test q =>
    obtain ⟨a, holds, rfl⟩ := member
    exact fun c m => List.mem_singleton.mp m ▸ within a holds
  | alt r q ihr ihq =>
    rcases member with left | right
    · exact ihr within.1 left
    · exact ihq within.2 right
  | cat r q ihr ihq =>
    obtain ⟨u, left, v, right, rfl⟩ := Language.mem_mul.mp member
    intro c m
    rcases List.mem_append.mp m with inLeft | inRight
    · exact ihr within.1 left c inLeft
    · exact ihq within.2 right c inRight
  | star r ih =>
    obtain ⟨words, rfl, each⟩ := Language.mem_kstar.mp member
    intro c m
    obtain ⟨word, inWords, inWord⟩ := List.mem_flatten.mp m
    exact ih within (each word inWords) c inWord

theorem testStar (p : α → Bool) (w : List α) :
    w ∈ (star (test p)).language ↔ ∀ c ∈ w, p c := by
  constructor
  · have within : (star (test p)).Within (fun c => p c) := fun c holds => holds
    exact letters within
  · intro all
    induction w with
    | nil => exact Language.nil_mem_kstar _
    | cons c w ih =>
      rw [language, consStar]
      exact ⟨[], w, rfl, ⟨c, all c List.mem_cons_self, rfl⟩,
        ih fun d m => all d (List.mem_cons_of_mem c m)⟩

theorem testPlus (p : α → Bool) (w : List α) :
    w ∈ (plus (test p)).language ↔ w ≠ [] ∧ ∀ c ∈ w, p c := by
  constructor
  · intro member
    obtain ⟨u, ⟨c, holds, rfl⟩, v, rest, rfl⟩ := Language.mem_mul.mp member
    refine ⟨List.cons_ne_nil c v, fun d m => ?_⟩
    rcases List.mem_cons.mp m with rfl | later
    · exact holds
    · exact (testStar p v).mp rest d later
  · rintro ⟨some, all⟩
    obtain ⟨c, v, rfl⟩ := List.exists_cons_of_ne_nil some
    exact Language.mem_mul.mpr ⟨[c], ⟨c, all c List.mem_cons_self, rfl⟩, v,
      (testStar p v).mpr fun d m => all d (List.mem_cons_of_mem c m), rfl⟩

end Regular

end PgAdmin
