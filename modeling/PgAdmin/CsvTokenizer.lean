import PgAdmin.Identifier
import PgAdmin.WxString

/-! CSVTokenizer: the fields of a line of a CSV file, one with each call. Quotes count only in a field that starts
with one, a newline ends a field only at the end of the string, and a call when there are no more tokens gives an
empty one. -/
namespace PgAdmin.csvfiles
open PgsObjects (Text)
open Substitution wxString Identifier

structure CSVTokenizer where
  m_string : Text
  m_pos : ℕ

namespace CSVTokenizer

def HasMoreTokens (t : CSVTokenizer) : Bool :=
  let rest := t.m_string.drop t.m_pos
  if t.m_string ≠ [] ∧ t.m_string.length ≤ t.m_pos then false
  else if t.m_string ≠ [] ∧ rest.any (· ≠ ',') then true
  else if t.m_string ≠ [] ∧ rest.head? = some '\n' then false
  else decide (t.m_pos = 0 ∧ t.m_string ≠ [])

def quoteAt (quoted_string : Bool) (c : Char) (inquote : Bool) : Bool :=
  if quoted_string ∧ c = '"' then !inquote else inquote

def tokenLoop (quoted_string : Bool) : Bool → Text → ℕ × Bool
  | inquote, [] => (0, inquote)
  | inquote, c :: s =>
    let now := quoteAt quoted_string c inquote
    if now = false ∧ (c = ',' ∨ c = '\n' ∧ s = []) then (0, now)
    else ((tokenLoop quoted_string now s).1 + 1, (tokenLoop quoted_string now s).2)

def GetNextToken (t : CSVTokenizer) : Text × CSVTokenizer :=
  if t.HasMoreTokens then
    let m_pos := t.m_pos + ((t.m_string.drop t.m_pos).takeWhile (· = ' ')).length
    let quoted_string := (t.m_string.drop m_pos).head? = some '"'
    let (pos, inquote) := tokenLoop quoted_string false (t.m_string.drop m_pos)
    let token := if quoted_string ∧ inquote = false then
        replaceAll ['"', '"'] ['"'] (Mid t.m_string (m_pos + 1) (pos - 2))
      else Mid t.m_string m_pos pos
    (token, { t with m_pos := min (m_pos + pos + 1) t.m_string.length })
  else ([], t)

def tokens : ℕ → CSVTokenizer → List Text
  | 0, _ => []
  | calls + 1, t => t.GetNextToken.1 :: t.GetNextToken.2.tokens calls

def after : ℕ → CSVTokenizer → CSVTokenizer
  | 0, t => t
  | calls + 1, t => t.GetNextToken.2.after calls

end CSVTokenizer

inductive Field where
  | quoted (text : Text)
  | plain (text : Text) (letters : ∀ c ∈ text, c ≠ ',' ∧ c ≠ '"' ∧ c ≠ '\n') (start : text.head? ≠ some ' ')

namespace Field

def text : Field → Text
  | quoted text => text
  | plain text _ _ => text

def written : Field → Text
  | quoted text => '"' :: text.flatMap doubled ++ ['"']
  | plain text _ _ => text

end Field

def line (fields : List Field) (newline : Bool) : Text :=
  [','].intercalate (fields.map Field.written) ++ if newline then ['\n'] else []

inductive Behind : Text → Prop where
  | ends : Behind []
  | newline : Behind ['\n']
  | comma (rest : Text) : Behind (',' :: rest)

namespace CSVTokenizer
variable {t : CSVTokenizer} {s rest : Text}

theorem loopStops (behind : Behind rest) (quoted : Bool) : tokenLoop quoted false rest = (0, false) := by
  cases behind with
  | ends => rfl
  | newline => simp [tokenLoop, quoteAt]
  | comma rest => simp [tokenLoop, quoteAt]

theorem loopPlain (letters : ∀ c ∈ s, c ≠ ',' ∧ c ≠ '"' ∧ c ≠ '\n') (behind : Behind rest) :
    tokenLoop false false (s ++ rest) = (s.length, false) := by
  induction s with
  | nil => exact loopStops behind false
  | cons c s ih =>
    obtain ⟨comma, -, newline⟩ := letters c List.mem_cons_self
    have next := ih fun l member => letters l (List.mem_cons_of_mem c member)
    simp [tokenLoop, quoteAt, comma, newline, next]

theorem loopQuoted (s : Text) (behind : Behind rest) :
    tokenLoop true true (s.flatMap doubled ++ '"' :: rest) = ((s.flatMap doubled).length + 1, false) := by
  induction s with
  | nil => simp [tokenLoop, quoteAt, loopStops behind]
  | cons c s ih =>
    rw [List.flatMap_cons, List.append_assoc, List.length_append]
    by_cases quote : c = '"'
    · subst quote
      show tokenLoop true true ('"' :: '"' :: (s.flatMap doubled ++ '"' :: rest)) = _
      simp only [tokenLoop, quoteAt]
      simp [ih, doubled]
      omega
    · have single : doubled c = [c] := if_neg quote
      rw [single]
      simp [tokenLoop, quoteAt, quote, ih, Nat.add_comm]

theorem undoubled (s : Text) : replaceAll ['"', '"'] ['"'] (s.flatMap doubled) = s := by
  induction s with
  | nil => rfl
  | cons c s ih =>
    rw [List.flatMap_cons]
    by_cases quote : c = '"'
    · subst quote
      have hit := replaceAllHit (List.cons_ne_nil '"' ['"']) ['"'] (s.flatMap doubled)
      rw [ih] at hit
      exact hit
    · have single : doubled c = [c] := if_neg quote
      rw [single, List.singleton_append, replaceAllMiss, ih]
      exact fun start => quote (List.cons_prefix_cons.mp start).1.symm

end CSVTokenizer

def tail (fields : List Field) (newline : Bool) : Text :=
  if fields = [] then if newline then ['\n'] else [] else ',' :: line fields newline

variable {f : Field} {fields : List Field} {newline : Bool} {t : CSVTokenizer}

theorem lineCons : line (f :: fields) newline = f.written ++ tail fields newline := by
  cases fields with
  | nil => simp [line, tail]
  | cons g fields => simp [line, tail, List.intercalate_cons_cons]

theorem tailBehind : Behind (tail fields newline) := by
  unfold tail
  split
  · split
    · exact .newline
    · exact .ends
  · exact .comma _

theorem fieldStart (behind : Behind rest) : (f.written ++ rest).takeWhile (· = ' ') = [] ∧
    ((f.written ++ rest).head? = some '"' ↔ ∃ text, f = .quoted text) := by
  cases f with
  | quoted text => simp [Field.written]
  | plain text letters start =>
    cases text with
    | nil => cases behind <;> simp [Field.written]
    | cons c text =>
      have blank : c ≠ ' ' := by simpa using start
      have quote := (letters c List.mem_cons_self).2.1
      simp [Field.written, blank, quote]

namespace CSVTokenizer

theorem nextToken (more : t.HasMoreTokens = true)
    (here : t.m_string.drop t.m_pos = f.written ++ tail fields newline) :
    t.GetNextToken = (f.text,
      { t with m_pos := min (t.m_pos + f.written.length + 1) t.m_string.length }) := by
  obtain ⟨blanks, quote⟩ := fieldStart (f := f) (@tailBehind fields newline)
  have token (first count : ℕ) : Mid t.m_string (t.m_pos + first) count =
      ((f.written ++ tail fields newline).drop first).take count := by
    rw [Mid, ← List.drop_drop, here]
  rw [GetNextToken, if_pos more]
  simp only [here, blanks, List.length_nil, Nat.add_zero]
  cases f with
  | quoted text =>
    have loop : tokenLoop true false ('"' :: text.flatMap doubled ++ ['"'] ++ tail fields newline) =
        ((text.flatMap doubled).length + 2, false) := by
      have inner := loopQuoted text (@tailBehind fields newline)
      rw [List.append_assoc]
      simp only [List.cons_append, List.nil_append, tokenLoop, quoteAt]
      simp [inner]
    have quoted : ('"' :: text.flatMap doubled ++ ['"'] ++ tail fields newline).head? = some '"' := rfl
    have inside : (('"' :: text.flatMap doubled ++ ['"'] ++ tail fields newline).drop 1).take
        (text.flatMap doubled).length = text.flatMap doubled := by simp
    simp only [Field.written] at token ⊢
    simp only [quoted, decide_true, loop, and_self, if_true, Nat.add_sub_cancel, token, inside, undoubled]
    simp [Field.text]
  | plain text letters start =>
    have bare : ((Field.plain text letters start).written ++ tail fields newline).head? ≠ some '"' := by
      intro quoted
      obtain ⟨other, same⟩ := quote.mp quoted
      cases same
    have whole := token 0 text.length
    rw [Nat.add_zero, List.drop_zero, Field.written, List.take_left] at whole
    rw [Field.written] at bare
    simp only [bare, decide_false, Field.written, loopPlain letters tailBehind, false_and, if_false, whole]
    rfl

theorem nextField (more : t.HasMoreTokens = true) (some : fields ≠ [])
    (here : t.m_string.drop t.m_pos = line (f :: fields) newline) :
    t.GetNextToken.1 = f.text ∧ t.GetNextToken.2.m_string.drop t.GetNextToken.2.m_pos = line fields newline := by
  rw [lineCons] at here
  rw [nextToken more here]
  refine ⟨rfl, ?_⟩
  have length := congrArg List.length here
  rw [tail, if_neg some] at here length
  have fits : t.m_pos + f.written.length + 1 ≤ t.m_string.length := by
    simp only [List.length_drop, List.length_append, List.length_cons] at length
    omega
  dsimp only
  rw [Nat.min_eq_left fits, Nat.add_assoc, ← List.drop_drop, here, List.drop_append]
  simp

theorem onlyCommas (none : t.HasMoreTokens = false) : ∀ c ∈ t.m_string.drop t.m_pos, c = ',' := by
  intro c member
  have filled : t.m_string ≠ [] := by
    intro empty
    rw [empty, List.drop_nil] at member
    cases member
  have inside : ¬ t.m_string.length ≤ t.m_pos := by
    intro past
    rw [List.drop_eq_nil_of_le past] at member
    cases member
  by_contra other
  have any : (t.m_string.drop t.m_pos).any (· ≠ ',') = true :=
    List.any_eq_true.mpr ⟨c, member, decide_eq_true other⟩
  rw [HasMoreTokens, if_neg fun both => inside both.2, if_pos ⟨filled, any⟩] at none
  cases none

theorem writtenInside {f : Field} (member : f ∈ fields) : f.written ⊆ line fields newline := by
  induction fields with
  | nil => cases member
  | cons g fields ih =>
    rw [lineCons]
    rcases List.mem_cons.mp member with rfl | later
    · exact List.subset_append_left _ _
    · have behind : tail fields newline = ',' :: line fields newline := if_neg (List.ne_nil_of_mem later)
      rw [behind]
      exact fun c inside => List.mem_append_right _ (List.mem_cons_of_mem _ (ih later inside))

theorem noneLeft (none : t.HasMoreTokens = false) (here : t.m_string.drop t.m_pos = line fields newline) :
    ∀ f ∈ fields, f.text = [] := by
  intro f member
  have commas : ∀ c ∈ f.written, c = ',' := fun c inside =>
    onlyCommas none c (here ▸ writtenInside member inside)
  cases f with
  | quoted text => exact absurd (commas '"' List.mem_cons_self) (by decide)
  | plain text letters start =>
    refine List.eq_nil_iff_forall_not_mem.mpr fun c inside => ?_
    exact (letters c inside).1 (commas c inside)

theorem tokensExhausted (none : t.HasMoreTokens = false) (calls : ℕ) :
    t.tokens calls = List.replicate calls [] := by
  induction calls with
  | zero => rfl
  | succ calls ih =>
    have same : t.GetNextToken = ([], t) := by rw [GetNextToken, none]; rfl
    rw [tokens, same, ih]
    rfl

theorem tokensFields (here : t.m_string.drop t.m_pos = line fields newline) :
    t.tokens fields.length = fields.map Field.text := by
  induction fields generalizing t with
  | nil => rfl
  | cons f fields ih =>
    cases more : t.HasMoreTokens with
    | false =>
      have empty := noneLeft more here
      rw [tokensExhausted more, ← List.map_const', List.map_congr_left fun f member => empty f member]
    | true =>
      by_cases none : fields = []
      · subst none
        rw [lineCons] at here
        simp [tokens, nextToken more here]
      · obtain ⟨text, next⟩ := nextField more none here
        simp [tokens, text, ih next]

theorem nextMoves (within : t.m_pos ≤ t.m_string.length) :
    t.GetNextToken.2.m_pos ≤ t.m_string.length ∧ t.GetNextToken.2.m_string = t.m_string ∧
      (t.m_pos < t.GetNextToken.2.m_pos ∨ t.GetNextToken.2.HasMoreTokens = false) := by
  cases more : t.HasMoreTokens with
  | false =>
    have same : t.GetNextToken = ([], t) := by rw [GetNextToken, more]; rfl
    rw [same]
    exact ⟨within, rfl, .inr more⟩
  | true =>
    have inside : t.m_pos < t.m_string.length := by
      by_contra past
      rw [HasMoreTokens] at more
      by_cases filled : t.m_string = []
      · simp [filled] at more
      · rw [if_pos ⟨filled, Nat.not_lt.mp past⟩] at more
        cases more
    rw [GetNextToken, if_pos more]
    exact ⟨Nat.min_le_right _ _, rfl, .inl (Nat.lt_min.mpr ⟨by omega, inside⟩)⟩

theorem afterWithin (within : t.m_pos ≤ t.m_string.length) (calls : ℕ) :
    (t.after calls).m_string = t.m_string ∧ (t.after calls).m_pos ≤ t.m_string.length := by
  induction calls generalizing t with
  | zero => exact ⟨rfl, within⟩
  | succ calls ih =>
    obtain ⟨bound, string, -⟩ := nextMoves within
    rw [← string] at bound ⊢
    exact ih bound

/-- The calls on a line return the texts of its fields in order, and on any string each call moves on or leaves no
more tokens, and never goes past the end. -/
theorem fieldsInOrder (fields : List Field) (newline : Bool) (s : Text) (calls : ℕ) :
    tokens fields.length ⟨line fields newline, 0⟩ = fields.map Field.text ∧
    let t := after calls ⟨s, 0⟩
    t.GetNextToken.2.m_pos ≤ s.length ∧
      (t.m_pos < t.GetNextToken.2.m_pos ∨ t.GetNextToken.2.HasMoreTokens = false) := by
  obtain ⟨string, within⟩ := afterWithin (t := ⟨s, 0⟩) (Nat.zero_le _) calls
  obtain ⟨bound, -, moves⟩ := nextMoves (t := after calls ⟨s, 0⟩) (string ▸ within)
  rw [string] at bound
  exact ⟨tokensFields rfl, bound, moves⟩

example : tokens 3 ⟨['a', ',', ',', '"', ',', '"', '\n'], 0⟩ = [['a'], [], [',']] := by decide

end CSVTokenizer
end PgAdmin.csvfiles
