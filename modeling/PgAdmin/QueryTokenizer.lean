import Mathlib.Algebra.Group.Nat.Even
import PgAdmin.PgsObjects
import PgAdmin.Tokenizer

/-! The tokenizer that goes on over a delimiter between double quotes. Every double quote counts,
one after a backslash like any other. -/
namespace PgAdmin.queryTokenizer
open PgsObjects (Text)

def foundQuote : Bool → Text → Bool
  | found, [] => found
  | found, c :: s => foundQuote (if c = '"' then !found else found) s

def GetNextToken (delimiter : Char) : Bool → List Text → Text × List Text
  | _, [] => ([], [])
  | found, s :: rest =>
    if foundQuote found s then
      let next := GetNextToken delimiter true rest
      (s ++ delimiter :: next.1, next.2)
    else (s, rest)

theorem restShorter (delimiter : Char) (found : Bool) (pieces : List Text) :
    (GetNextToken delimiter found pieces).2.length ≤ pieces.length - 1 := by
  induction pieces generalizing found with
  | nil => exact Nat.zero_le _
  | cons s rest ih =>
    rw [GetNextToken]
    split
    · exact (ih true).trans (by simp)
    · simp

/- while (HasMoreTokens()) GetNextToken() -/
def allTokens (delimiter : Char) : List Text → List Text
  | [] => []
  | s :: rest =>
    let next := GetNextToken delimiter false (s :: rest)
    next.1 :: allTokens delimiter next.2
termination_by pieces => pieces.length
decreasing_by exact Nat.lt_succ_of_le (restShorter delimiter false (s :: rest))

def tokens (delimiter : Char) (str : Text) : List Text :=
  allTokens delimiter (if str = [] then [] else str.splitOn delimiter)

def closes (delimiter : Char) (found : Bool) (s : Text) : Option Bool :=
  s.foldlM (fun found c =>
    if c = delimiter ∧ found = true then none
    else some (if c = '"' then !found else found)) found

variable {delimiter : Char} {found : Bool} {s : Text}

theorem closesAppend (found : Bool) (s t : Text) :
    closes delimiter found (s ++ t) = (closes delimiter found s).bind (closes delimiter · t) :=
  List.foldlM_append

theorem closesPlain (free : ∀ c ∈ s, c ≠ delimiter ∧ c ≠ '"') :
    closes delimiter found s = some found := by
  induction s with
  | nil => rfl
  | cons c s ih =>
    have here := free c List.mem_cons_self
    rw [closes, List.foldlM_cons, if_neg (fun both => here.1 both.1), if_neg here.2]
    exact ih fun l member => free l (List.mem_cons_of_mem c member)

theorem closesJoined (other : delimiter ≠ '"') {items : List Text}
    (closed : ∀ item ∈ items, closes delimiter false item = some false) :
    closes delimiter false ([delimiter].intercalate items) = some false := by
  have step : closes delimiter false [delimiter] = some false := by simp [closes, other]
  induction items with
  | nil => rfl
  | cons item items ih =>
    have here := closed item List.mem_cons_self
    have rest := ih fun later member => closed later (List.mem_cons_of_mem item member)
    cases items with
    | nil => simpa using here
    | cons next items =>
      rw [List.intercalate_cons_cons, closesAppend, closesAppend, here, Option.bind_some, step,
        Option.bind_some, rest]

theorem quotesClosed (other : delimiter ≠ '"') (closed : closes delimiter found s = some false) :
    foundQuote found (s.splitOn delimiter).head! = false ∧
      ∀ piece ∈ (s.splitOn delimiter).tail, foundQuote false piece = false := by
  induction s generalizing found with
  | nil => simpa [closes, foundQuote] using closed
  | cons c s ih =>
    rw [List.splitOn_cons_eq_if_modifyHead]
    rw [closes, List.foldlM_cons] at closed
    obtain ⟨first, rest, pieces⟩ := List.exists_cons_of_ne_nil (List.splitOn_ne_nil delimiter s)
    rw [pieces] at ih ⊢
    by_cases here : c = delimiter
    · subst here
      cases found with
      | true => simp at closed
      | false =>
        rw [if_neg (by simp), if_neg other] at closed
        obtain ⟨head, tail⟩ := ih closed
        simpa [foundQuote] using ⟨head, tail⟩
    · rw [if_neg (fun both => here both.1)] at closed
      obtain ⟨head, tail⟩ := ih closed
      simpa [foundQuote, here] using ⟨head, tail⟩

theorem allTokensSelf {pieces : List Text}
    (even : ∀ piece ∈ pieces, foundQuote false piece = false) :
    allTokens delimiter pieces = pieces := by
  induction pieces with
  | nil => rw [allTokens]
  | cons s rest ih =>
    rw [allTokens, GetNextToken, if_neg (by simp [even s List.mem_cons_self])]
    rw [ih fun piece member => even piece (List.mem_cons_of_mem s member)]

/-- Where no delimiter stands between quotes, the tokens are those of the plain tokenizer. -/
theorem tokensPlain (other : delimiter ≠ '"') (nonempty : s ≠ [])
    (closed : closes delimiter false s = some false) :
    tokens delimiter s = s.splitOn delimiter := by
  obtain ⟨head, tail⟩ := quotesClosed other closed
  obtain ⟨first, rest, pieces⟩ := List.exists_cons_of_ne_nil (List.splitOn_ne_nil delimiter s)
  rw [pieces] at head tail
  rw [tokens, if_neg nonempty]
  refine allTokensSelf fun piece member => ?_
  rw [pieces] at member
  rcases List.mem_cons.mp member with rfl | member
  · exact head
  · exact tail piece member

end PgAdmin.queryTokenizer

/-! What the tokens of queryTokenizer are to the text: with the delimiters between them they are the text, and each
delimiter stands outside double quotes. -/
namespace PgAdmin.queryTokenizer
open PgsObjects (Text)

def delims (delim : Char) : List Char := if delim = ' ' then [' ', '\n', '\r', '\t'] else [delim]

def queryTokens (narrow : Char → Char) (delim : Char) (str : Text) : List Text :=
  allTokens (narrow delim) (if str = [] then [] else str.splitOnP (· ∈ delims delim))

/- Before this place every double quote is closed. -/
def Outside (before : Text) : Prop := Even (before.count '"')

/- The tokens of the rest of a text, with one delimiter outside quotes between each and the next. -/
inductive CutAt (delims : List Char) : Text → Text → List Text → Prop
  | last (before rest : Text) : CutAt delims before rest [rest]
  | cut {before token : Text} {d : Char} {rest : Text} {tokens : List Text} (delimiter : d ∈ delims)
      (outside : Outside (before ++ token)) (later : CutAt delims (before ++ token ++ [d]) rest tokens) :
      CutAt delims before (token ++ d :: rest) (token :: tokens)

/- What the tokens are to be. -/
def Exact (narrow : Char → Char) (delim : Char) (text : Text) : Prop :=
  (text = [] ∧ queryTokens narrow delim text = []) ∨
    CutAt (delims delim) [] text (queryTokens narrow delim text)

/- The tokens of a rest of the text, letter by letter, with the state of the quotes and the token so far. -/
def glue (delims : List Char) (delimiter : Char) (found : Bool) (since : Text) : Text → List Text
  | [] => [if found then since ++ [delimiter] else since]
  | c :: text =>
    if c ∈ delims then
      if found then glue delims delimiter true (since ++ [delimiter]) text
      else since :: glue delims delimiter false [] text
    else glue delims delimiter (if c = '"' then !found else found) (since ++ [c]) text

variable {ds : List Char} {delimiter : Char} {found : Bool} {before since rest text token : Text}
  {tokens : List Text}

theorem nextCons (found : Bool) (c : Char) (first : Text) (pieces : List Text) :
    GetNextToken delimiter found ((c :: first) :: pieces) =
      let next := GetNextToken delimiter (if c = '"' then !found else found) (first :: pieces)
      (c :: next.1, next.2) := by
  rw [GetNextToken, GetNextToken, foundQuote]
  by_cases open_ : foundQuote (if c = '"' then !found else found) first = true
  · rw [if_pos open_, if_pos open_]
    rfl
  · rw [if_neg open_, if_neg open_]

theorem gluePieces (found : Bool) (since text : Text) :
    glue ds delimiter found since text =
      let next := GetNextToken delimiter found (text.splitOnP (· ∈ ds))
      (since ++ next.1) :: allTokens delimiter next.2 := by
  induction text generalizing found since with
  | nil => cases found <;> simp [glue, List.splitOnP_nil, GetNextToken, foundQuote, allTokens]
  | cons c text ih =>
    rw [glue, List.splitOnP_cons_eq_if_modifyHead]
    obtain ⟨first, pieces, split⟩ :=
      List.exists_cons_of_ne_nil (List.splitOnP_ne_nil (fun c => decide (c ∈ ds)) text)
    simp only [split] at ih ⊢
    by_cases cuts : c ∈ ds
    · rw [if_pos cuts, if_pos (decide_eq_true cuts)]
      cases found with
      | true => simp [GetNextToken, foundQuote, ih true]
      | false => simp [GetNextToken, foundQuote, ih false, allTokens]
    · have stays : decide (c ∈ ds) = false := decide_eq_false cuts
      rw [if_neg cuts, stays, if_neg Bool.false_ne_true, ih, List.modifyHead_cons, nextCons]
      simp

theorem queryTokensGlue (narrow : Char → Char) (delim : Char) (nonempty : text ≠ []) :
    queryTokens narrow delim text = glue (delims delim) (narrow delim) false [] text := by
  rw [gluePieces, queryTokens, if_neg nonempty]
  obtain ⟨first, pieces, split⟩ :=
    List.exists_cons_of_ne_nil (List.splitOnP_ne_nil (fun c => decide (c ∈ delims delim)) text)
  rw [split, allTokens]
  rfl

theorem glueHead (found : Bool) (since text : Text) :
    ∃ token tokens, glue ds delimiter found since text = token :: tokens ∧ since <+: token := by
  refine ⟨_, _, gluePieces found since text, List.prefix_append ..⟩

theorem cutHead (cut : CutAt ds before text (token :: tokens)) : token <+: text := by
  cases cut with
  | last => exact List.prefix_rfl
  | cut => exact List.prefix_append ..

theorem cutLast : CutAt ds before text [token] ↔ token = text := by
  constructor
  · rintro (_ | ⟨-, -, later⟩)
    · rfl
    · cases later
  · rintro rfl
    exact .last before token

theorem cutNext (more : tokens ≠ []) :
    CutAt ds before text (token :: tokens) ↔ ∃ d rest, text = token ++ d :: rest ∧ d ∈ ds ∧
      Outside (before ++ token) ∧ CutAt ds (before ++ token ++ [d]) rest tokens := by
  constructor
  · rintro (_ | ⟨delimiter, outside, later⟩)
    · exact absurd rfl more
    · exact ⟨_, _, rfl, delimiter, outside, later⟩
  · rintro ⟨d, rest, rfl, delimiter, outside, later⟩
    exact .cut delimiter outside later

theorem outsideLetter (before : Text) (c : Char) :
    Outside (before ++ [c]) ↔ if c = '"' then ¬ Outside before else Outside before := by
  rw [Outside, Outside, List.count_append, List.count_singleton]
  by_cases quote : c = '"'
  · rw [if_pos quote, if_pos (by simp [quote]), Nat.even_add_one]
  · rw [if_neg quote, if_neg (by simpa using quote), Nat.add_zero]

/- A delimiter between quotes is the one that is put there again. -/
def PutBack (ds : List Char) (delimiter : Char) (before text : Text) : Prop :=
  ∀ b d a, text = b ++ d :: a → d ∈ ds → ¬ Outside (before ++ b) → d = delimiter

theorem putBackCons {c : Char} : PutBack ds delimiter before (c :: text) ↔
    (c ∈ ds → ¬ Outside before → c = delimiter) ∧ PutBack ds delimiter (before ++ [c]) text := by
  constructor
  · intro all
    refine ⟨fun member inside => all [] c text rfl member (by simpa using inside), ?_⟩
    rintro b d a rfl member inside
    exact all (c :: b) d a rfl member (by simpa using inside)
  · rintro ⟨here, later⟩ b d a same member inside
    cases b with
    | nil =>
      obtain ⟨rfl, rfl⟩ := List.cons.inj same
      exact here member (by simpa using inside)
    | cons l b =>
      obtain ⟨rfl, behind⟩ := List.cons.inj same
      exact later b d a behind member (by simpa using inside)

theorem cutGlue (plain : '"' ∉ ds) (state : found = true ↔ ¬ Outside (before ++ since)) :
    CutAt ds before (since ++ text) (glue ds delimiter found since text) ↔
      Outside (before ++ since ++ text) ∧ PutBack ds delimiter (before ++ since) text := by
  induction text generalizing found before since with
  | nil =>
    have none : PutBack ds delimiter (before ++ since) [] := by
      rintro b d a same
      exact absurd same.symm (by simp)
    rw [glue, cutLast]
    cases found with
    | true => simp [state.mp rfl]
    | false =>
      have outside : Outside (before ++ since) := by simpa using state
      simpa [outside] using none
  | cons c text ih =>
    have whole : since ++ c :: text = (since ++ [c]) ++ text := by simp
    have total : before ++ since ++ c :: text = before ++ (since ++ [c]) ++ text := by simp
    have ahead : before ++ since ++ [c] = before ++ (since ++ [c]) := by simp
    rw [putBackCons, glue]
    by_cases cuts : c ∈ ds
    · have quote : c ≠ '"' := by rintro rfl; exact plain cuts
      have same : Outside (before ++ since ++ [c]) ↔ Outside (before ++ since) := by
        rw [outsideLetter, if_neg quote]
      rw [if_pos cuts]
      cases found with
      | true =>
        rw [if_pos rfl]
        have inside := state.mp rfl
        by_cases again : c = delimiter
        · subst again
          rw [whole, ih (by rw [← ahead, same]; exact state), total, ahead]
          simp
        · constructor
          · intro cut
            obtain ⟨token, tokens, shape, begins⟩ := @glueHead ds delimiter true (since ++ [delimiter]) text
            rw [shape] at cut
            have put := begins.trans (cutHead cut)
            rw [List.prefix_append_right_inj, List.cons_prefix_cons] at put
            exact absurd put.1.symm again
          · rintro ⟨-, here, -⟩
            exact absurd (here cuts inside) again
      | false =>
        have outside : Outside (before ++ since) := by simpa using state
        rw [if_neg Bool.false_ne_true]
        have more : glue ds delimiter false [] text ≠ [] := by
          obtain ⟨token, tokens, shape, -⟩ := @glueHead ds delimiter false [] text
          simp [shape]
        have next := @ih false (before ++ since ++ [c]) [] (by simpa using same.mpr outside)
        rw [List.nil_append, List.append_nil] at next
        rw [cutNext more]
        constructor
        · rintro ⟨d, rest, same, -, -, later⟩
          obtain ⟨rfl, rfl⟩ := List.cons.inj (List.append_cancel_left same)
          obtain ⟨closed, back⟩ := next.mp later
          exact ⟨by simpa using closed, fun _ inside => absurd outside inside, back⟩
        · rintro ⟨closed, -, back⟩
          exact ⟨c, text, rfl, cuts, outside, next.mpr ⟨by simpa using closed, back⟩⟩
    · rw [if_neg cuts, whole, ih, total, ahead]
      · simp [cuts]
      · rw [← ahead, outsideLetter]
        by_cases quote : c = '"'
        · rw [if_pos quote, if_pos quote]
          cases found with
          | true => simpa using state
          | false => simpa using state
        · rw [if_neg quote, if_neg quote]
          exact state

theorem cutQuotes : CutAt ['"'] before (since ++ text) (glue ['"'] delimiter false since text) ↔
    text.count '"' = 0 ∨ (text.count '"' = 1 ∧ Outside (before ++ since)) := by
  induction text generalizing before since with
  | nil => simp [glue, cutLast]
  | cons c text ih =>
    have whole : since ++ c :: text = (since ++ [c]) ++ text := by simp
    have ahead : before ++ since ++ [c] = before ++ (since ++ [c]) := by simp
    rw [glue]
    by_cases quote : c = '"'
    · subst quote
      rw [if_pos (List.mem_singleton_self _), if_neg Bool.false_ne_true, List.count_cons_self]
      have more : glue ['"'] delimiter false [] text ≠ [] := by
        obtain ⟨token, tokens, shape, -⟩ := @glueHead ['"'] delimiter false [] text
        simp [shape]
      have turned : Outside (before ++ since ++ ['"']) ↔ ¬ Outside (before ++ since) := by
        rw [outsideLetter, if_pos rfl]
      have next := @ih (before ++ since ++ ['"']) []
      rw [List.nil_append, List.append_nil, turned] at next
      rw [cutNext more]
      constructor
      · rintro ⟨d, rest, same, -, outside, later⟩
        obtain ⟨rfl, rfl⟩ := List.cons.inj (List.append_cancel_left same)
        refine .inr ⟨?_, outside⟩
        rcases next.mp later with none | ⟨-, inside⟩
        · rw [none]
        · exact absurd outside inside
      · rintro (some_ | ⟨one, outside⟩)
        · exact absurd some_ (Nat.succ_ne_zero _)
        · exact ⟨'"', text, rfl, List.mem_singleton_self _, outside, next.mpr (.inl (by omega))⟩
    · have same : Outside (before ++ since ++ [c]) ↔ Outside (before ++ since) := by
        rw [outsideLetter, if_neg quote]
      rw [if_neg (by simpa using quote), if_neg quote, whole, ih, ← ahead, same,
        List.count_cons_of_ne quote]

/-- The tokens and the delimiters between them are the text, each delimiter outside quotes, exactly when the quotes
are balanced and each delimiter inside them is the one that is put back; with the double quote as the delimiter,
when the text has at most one. -/
theorem tokensExact (narrow : Char → Char) (delim : Char) (text : Text) :
    Exact narrow delim text ↔
      if delim = '"' then text.count '"' ≤ 1
      else Outside text ∧ PutBack (delims delim) (narrow delim) [] text := by
  by_cases empty : text = []
  · subst empty
    have exact : Exact narrow delim [] := .inl ⟨rfl, by rw [queryTokens, if_pos rfl, allTokens]⟩
    have back : PutBack (delims delim) (narrow delim) [] [] := by
      rintro b d a same
      exact absurd same.symm (by simp)
    simp [exact, back, Outside]
  · have cuts : Exact narrow delim text ↔
        CutAt (delims delim) [] ([] ++ text) (glue (delims delim) (narrow delim) false [] text) := by
      rw [Exact, queryTokensGlue narrow delim empty]
      exact or_iff_right fun none => empty none.1
    rw [cuts]
    by_cases quote : delim = '"'
    · subst quote
      have one : Outside [] := Even.zero
      rw [if_pos rfl, show delims '"' = ['"'] by decide, cutQuotes]
      simp only [List.append_nil, one, and_true]
      omega
    · have plain : '"' ∉ delims delim := by
        unfold delims
        split
        · decide
        · simpa using Ne.symm quote
      have state : false = true ↔ ¬ Outside ([] ++ []) := by simp [Outside]
      rw [if_neg quote, cutGlue plain state]
      rfl

theorem unbalancedQuote : ¬ Exact id ',' "\"a,b".toList := by
  rintro (⟨none, -⟩ | cut)
  · exact absurd none (by decide)
  · rw [queryTokensGlue id ',' (by decide)] at cut
    exact absurd (cutLast.mp cut) (by decide)

end PgAdmin.queryTokenizer
