import PgAdmin.Identifier
import PgAdmin.QueryTokenizer

/-! The table of keywords behind needsQuoting, and the two ways an identifier that qtIdent wrote is read again: by the
server, and by the tokenizer that takes a list of identifiers apart at the commas. -/
namespace PgAdmin.ScanKeywords
open PgsObjects (Text)
open Identifier queryTokenizer

inductive Category where
  | UNRESERVED_KEYWORD
  | COL_NAME_KEYWORD
  | TYPE_FUNC_NAME_KEYWORD
  | RESERVED_KEYWORD
  deriving DecidableEq, Repr

structure ScanKeyword where
  name : Text
  category : Category
  deriving DecidableEq, Repr

def NAMEDATALEN : ℕ := 64

def ScanKeywordsExtra : List ScanKeyword :=
  [⟨"connect".toList, .RESERVED_KEYWORD⟩, ⟨"convert".toList, .RESERVED_KEYWORD⟩,
    ⟨"distributed".toList, .UNRESERVED_KEYWORD⟩, ⟨"exec".toList, .RESERVED_KEYWORD⟩,
    ⟨"log".toList, .UNRESERVED_KEYWORD⟩, ⟨"long".toList, .RESERVED_KEYWORD⟩,
    ⟨"minus".toList, .RESERVED_KEYWORD⟩, ⟨"nocache".toList, .RESERVED_KEYWORD⟩,
    ⟨"number".toList, .RESERVED_KEYWORD⟩, ⟨"package".toList, .RESERVED_KEYWORD⟩,
    ⟨"pls_integer".toList, .RESERVED_KEYWORD⟩, ⟨"raw".toList, .RESERVED_KEYWORD⟩,
    ⟨"return".toList, .RESERVED_KEYWORD⟩, ⟨"smalldatetime".toList, .RESERVED_KEYWORD⟩,
    ⟨"smallfloat".toList, .RESERVED_KEYWORD⟩, ⟨"smallmoney".toList, .RESERVED_KEYWORD⟩,
    ⟨"sysdate".toList, .RESERVED_KEYWORD⟩, ⟨"systimestap".toList, .RESERVED_KEYWORD⟩,
    ⟨"tinyint".toList, .RESERVED_KEYWORD⟩, ⟨"tinytext".toList, .RESERVED_KEYWORD⟩,
    ⟨"varchar2".toList, .RESERVED_KEYWORD⟩]

/- The binary search between two places of the table; the second is one behind the last that is left. -/
def search (table : List ScanKeyword) (word : Text) (low high : ℕ) : Option ScanKeyword :=
  if low < high then
    let middle := low + (high - 1 - low) / 2
    match table[middle]? with
    | none => none
    | some sk =>
      if sk.name = word then some sk
      else if sk.name < word then search table word (middle + 1) high
      else search table word low middle
  else none
termination_by high - low

/- The table of the server's own keywords, of which there is a copy for each version, and then the extra ones. -/
def ScanKeywordLookup (table : List ScanKeyword) (text : Text) : Option ScanKeyword :=
  if NAMEDATALEN ≤ text.length then none
  else
    let word := text.map Char.toLower
    (search table word 0 table.length).or (search ScanKeywordsExtra word 0 ScanKeywordsExtra.length)

/- The end of needsQuoting, with forTypes false. -/
def keyword (table : List ScanKeyword) (value : Text) : Bool :=
  match ScanKeywordLookup table value with
  | none => false
  | some sk => decide (sk.category ≠ .UNRESERVED_KEYWORD)

def reserved (server : Text → Option Category) (word : Text) : Bool :=
  decide (∃ category ∈ server word, category ≠ .UNRESERVED_KEYWORD)

variable {table : List ScanKeyword} {word : Text}

theorem searchFinds (sorted : table.Pairwise (·.name < ·.name)) {i : ℕ} {sk : ScanKeyword}
    (here : table[i]? = some sk) {low high : ℕ} (above : low ≤ i) (below : i < high) (inside : high ≤ table.length) :
    search table sk.name low high = some sk := by
  fun_induction search table sk.name low high with
  | case1 low high open_ middle none => simp at none; omega
  | case2 low high open_ middle found at_ same =>
    rw [List.pairwise_iff_getElem] at sorted
    obtain ⟨bound, rfl⟩ := List.getElem?_eq_some_iff.mp here
    obtain ⟨bound', rfl⟩ := List.getElem?_eq_some_iff.mp at_
    rcases Nat.lt_trichotomy i middle with less | rfl | more
    · exact absurd (same ▸ sorted i middle bound bound' less) (lt_irrefl _)
    · rfl
    · exact absurd (same ▸ sorted middle i bound' bound more) (lt_irrefl _)
  | case3 low high open_ middle found at_ other before ih =>
    refine ih ?_ below inside
    rw [List.pairwise_iff_getElem] at sorted
    obtain ⟨bound, rfl⟩ := List.getElem?_eq_some_iff.mp here
    obtain ⟨bound', rfl⟩ := List.getElem?_eq_some_iff.mp at_
    rcases Nat.lt_trichotomy i middle with less | rfl | more
    · exact absurd (sorted i middle bound bound' less) (lt_asymm before)
    · exact absurd rfl other
    · exact more
  | case4 low high open_ middle found at_ other after ih =>
    refine ih above ?_ (by omega)
    rw [List.pairwise_iff_getElem] at sorted
    obtain ⟨bound, rfl⟩ := List.getElem?_eq_some_iff.mp here
    obtain ⟨bound', rfl⟩ := List.getElem?_eq_some_iff.mp at_
    rcases Nat.lt_trichotomy i middle with less | rfl | more
    · exact less
    · exact absurd rfl other
    · exact absurd (sorted middle i bound' bound more) after
  | case5 low high shut => omega

/- The table is sorted and has the server's words, each with its category. -/
structure Complete (table : List ScanKeyword) (server : Text → Option Category) : Prop where
  sorted : table.Pairwise (·.name < ·.name)
  listed : ∀ word category, server word = some category →
    ⟨word, category⟩ ∈ table ∧ word.length < NAMEDATALEN

variable {server : Text → Option Category}

theorem keywordSound (complete : Complete table server) (small : word.map Char.toLower = word)
    (bare : keyword table word = false) : reserved server word = false := by
  cases known : server word with
  | none => simp [reserved, known]
  | some category =>
    obtain ⟨member, short⟩ := complete.listed word category known
    obtain ⟨i, here⟩ := List.getElem?_of_mem member
    have bound := (List.getElem?_eq_some_iff.mp here).1
    have found := searchFinds complete.sorted here (Nat.zero_le i) bound le_rfl
    have category_ : category = .UNRESERVED_KEYWORD := by
      rw [keyword, ScanKeywordLookup, if_neg (by omega)] at bare
      simpa [small, found] using bare
    simp [reserved, known, category_]

theorem readFewer {fewer more : Text → Bool} {text value : Text} (got : Identifier.read more text = some value)
    (allowed : more value = false → fewer value = false) : Identifier.read fewer text = some value := by
  unfold Identifier.read at got ⊢
  split at got
  · exact got
  · cases got
  · rename_i c s _
    dsimp only at got ⊢
    split at got
    case isTrue word =>
      obtain rfl := Option.some.inj got
      simp only [Bool.and_eq_true, Bool.not_eq_true'] at word
      have none := allowed word.2
      rw [none]
      simp [word.1.1, word.1.2]
    case isFalse => cases got

def Passed (form : Text) : Prop := ∀ since text : Text,
  glue [','] ',' false since (form ++ text) = glue [','] ',' false (since ++ form) text

theorem passedBare {form : Text} (free : ∀ c ∈ form, c ≠ ',' ∧ c ≠ '"') : Passed form := by
  intro since text
  induction form generalizing since with
  | nil => simp
  | cons c form ih =>
    have here := free c List.mem_cons_self
    have next := ih fun l member => free l (List.mem_cons_of_mem c member)
    rw [List.cons_append, glue, if_neg (by simpa using here.1), if_neg here.2, next]
    simp

theorem passedDoubled (value since text : Text) :
    glue [','] ',' true since (value.flatMap doubled ++ text) =
      glue [','] ',' true (since ++ value.flatMap doubled) text := by
  induction value generalizing since with
  | nil => simp
  | cons c value ih =>
    rw [List.flatMap_cons, List.append_assoc]
    by_cases quote : c = '"'
    · subst quote
      simp [doubled, glue, ih]
    · have single : doubled c = [c] := by simp [doubled, quote]
      rw [single]
      by_cases comma : c = ','
      · subst comma
        simp [glue, ih]
      · simp [glue, ih, comma, quote]

theorem passedQuoted (value : Text) : Passed ('"' :: value.flatMap doubled ++ ['"']) := by
  intro since text
  have inside := passedDoubled value (since ++ ['"']) ('"' :: text)
  simpa [glue] using inside

theorem passedQtIdent (needs : Text → Bool) {value : Text} (nonempty : value ≠ []) :
    Passed (qtIdent needs value) := by
  rw [qtIdent, if_neg (by simpa using nonempty)]
  split
  · rw [Substitution.replaceLetter]
    exact passedQuoted value
  · rename_i bare
    obtain ⟨letters, -, -⟩ := unquotedLetters needs (by simpa using bare)
    refine passedBare fun c member => ?_
    rcases letters c member with lower | rfl | digit
    · constructor <;> rintro rfl <;> exact absurd lower (by decide)
    · decide
    · constructor <;> rintro rfl <;> exact absurd digit (by decide)

theorem glueList {forms : List Text} {form : Text} (passed : ∀ f ∈ form :: forms, Passed f) :
    glue [','] ',' false [] ([','].intercalate (form :: forms)) = form :: forms := by
  induction forms generalizing form with
  | nil =>
    have here := passed form List.mem_cons_self [] []
    rw [List.append_nil, List.nil_append] at here
    rw [List.intercalate_singleton, here]
    simp [glue]
  | cons next forms ih =>
    rw [List.intercalate_cons_cons, List.append_assoc, passed form List.mem_cons_self, List.nil_append,
      List.singleton_append, glue, if_pos (List.mem_singleton_self _), if_neg Bool.false_ne_true,
      ih fun f member => passed f (List.mem_cons_of_mem form member)]

/-- An identifier is read by the server as the name it was written for, and a list of them, joined with commas, is
taken apart into the same forms. -/
theorem identifierKept (complete : Complete table server) :
    (∀ value : Text, value ≠ [] →
      Identifier.read (reserved server) (qtIdent (keyword table) value) = some value) ∧
      ∀ names : List Text, (∀ value ∈ names, value ≠ []) →
        queryTokens id ',' ([','].intercalate (names.map (qtIdent (keyword table)))) =
          names.map (qtIdent (keyword table)) := by
  constructor
  · intro value nonempty
    have got := readQtIdent (keyword table) nonempty
    by_cases quoted : needsQuoting (keyword table) value = true
    · have form : ∃ body, qtIdent (keyword table) value = '"' :: body := by
        rw [qtIdent, if_neg (by simpa using nonempty), if_pos quoted]
        exact ⟨_, rfl⟩
      obtain ⟨body, form⟩ := form
      rwa [form] at got ⊢
    · obtain ⟨letters, -, -⟩ := unquotedLetters (keyword table) (by simpa using quoted)
      have small : value.map Char.toLower = value :=
        (List.map_congr_left fun l member => smallLower (letters l member)).trans (List.map_id _)
      exact readFewer got (keywordSound complete small)
  · intro names nonempty
    cases names with
    | nil => rw [List.map_nil, List.intercalate_nil, queryTokens, if_pos rfl, allTokens]
    | cons name names =>
      have passed : ∀ f ∈ (name :: names).map (qtIdent (keyword table)), Passed f := by
        intro f member
        obtain ⟨value, inside, rfl⟩ := List.mem_map.mp member
        exact passedQtIdent _ (nonempty value inside)
      rw [List.map_cons] at passed ⊢
      have cut := glueList passed
      by_cases none : [','].intercalate (qtIdent (keyword table) name :: names.map (qtIdent (keyword table))) = []
      · have written : qtIdent (keyword table) name ≠ [] := fun empty => by
          have got := readQtIdent (keyword table) (nonempty name List.mem_cons_self)
          rw [empty] at got
          cases got
        cases names with
        | nil => exact absurd (by simpa using none) written
        | cons next names =>
          rw [List.map_cons, List.intercalate_cons_cons] at none
          exact absurd none (by simp)
      · rw [queryTokensGlue id ',' none]
        exact cut

theorem wordsKept :
    let table : List ScanKeyword := [⟨"select".toList, .RESERVED_KEYWORD⟩, ⟨"zone".toList, .UNRESERVED_KEYWORD⟩]
    let names := ["select".toList, "zone".toList, "a,\"b\"".toList, "12".toList]
    queryTokens id ',' ([','].intercalate (names.map (qtIdent (keyword table)))) =
      names.map (qtIdent (keyword table)) := by
  intro table names
  let server (word : Text) : Option Category :=
    if word = "select".toList then some .RESERVED_KEYWORD
    else if word = "zone".toList then some .UNRESERVED_KEYWORD else none
  have complete : Complete table server := by
    refine ⟨by decide, fun word category known => ?_⟩
    dsimp only [server] at known
    split at known
    · rename_i same
      cases known
      exact ⟨by rw [same]; decide, by rw [same]; decide⟩
    · split at known
      · rename_i same
        cases known
        exact ⟨by rw [same]; decide, by rw [same]; decide⟩
      · cases known
  exact (identifierKept complete).2 names (by decide)

end PgAdmin.ScanKeywords
