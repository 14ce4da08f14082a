import PgAdmin.ConfigScan

/-! frmMainConfig::WriteFile: settings that were edited get new lines, in the place of the old one or at the end of the
file. What the scan makes of a new line. -/
namespace PgAdmin.frmMainConfig
open Cursor (cStr)
open PgsObjects (Text)
open Tokenizer

structure pgConfigLine where
  value : Text := []
  comment : Text := []
  isComment : Bool := false
  deriving DecidableEq, Repr

def DEFAULT_COMMENT_INDEX : Text := "\t\t# ".toList

def Differs (line : pgConfigLine) (orgLine : pgConfigOrgLine) : Bool :=
  line.value ≠ orgLine.value || line.comment ≠ orgLine.comment || line.isComment ≠ orgLine.isComment

def quoteOf (type : pgConfigType) (value : Text) : Text :=
  match type with
  | .PGC_STRING => if value.contains '\'' then ['"'] else ['\'']
  | _ => []

def indentOf (orgLine : Option pgConfigOrgLine) : Text :=
  match orgLine with
  | some line => if line.commentIndent.contains '#' then line.commentIndent else DEFAULT_COMMENT_INDEX
  | none => DEFAULT_COMMENT_INDEX

def pgConfigLine.GetNewText (name : Text) (type : pgConfigType) (orgLine : Option pgConfigOrgLine)
    (line : pgConfigLine) : Text :=
  let quote := quoteOf type line.value
  let newLine := if line.isComment then "# ".toList else []
  let newLine := newLine ++ name ++ " = ".toList ++ quote ++ line.value ++ quote
  if line.comment = [] then newLine else newLine ++ indentOf orgLine ++ line.comment

def Config.orgLine (config : Config) (name : Text) : Option ℕ := (config.find name).bind (·.orgLine)

def Config.line (config : Config) (name : Text) : Option pgConfigOrgLine := (config.orgLine name).bind
    (config.lines[·]?)

def typeOf (item : Option pgSettingItem) : pgConfigType := item.elim .PGC_STRING (·.type)

def Config.newText (config : Config) (name : Text) (line : pgConfigLine) : Text :=
  line.GetNewText name (typeOf (config.find name)) (config.line name)

/- The window: the settings in the order of the list, and those with a new line. -/
structure Session where
  config : Config
  cfgList : List Text
  newLine : Text → Option pgConfigLine

def Session.set (s : Session) (name : Text) (line : Option pgConfigLine) : Session :=
  { s with newLine := fun other => if other = name then line else s.newLine other }

/- The dialog starts from the new line, the old one, or none; without OK it leaves what it started from. -/
def OnEditSetting (s : Session) (name : Text) (ok : Option pgConfigLine) : Session :=
  let orgLine := s.config.line name
  let newLine := ok.getD ((s.newLine name).getD
    (orgLine.elim {} fun line => { value := line.value, comment := line.comment, isComment := line.isComment }))
  s.set name (if orgLine.elim true (Differs newLine) then some newLine else none)

def OnUndo (s : Session) (name : Text) : Session := s.set name none

/- pgConfigOrgLine::GetNewText -/
def Session.GetNewText (s : Session) (line : pgConfigOrgLine) : Text :=
  (line.item.bind fun name => (s.newLine name).map (s.config.newText name)).getD line.text

def Session.added (s : Session) (name : Text) : Text :=
  match s.newLine name with
  | none => []
  | some line => if (s.config.orgLine name).isNone then s.config.newText name line ++ "\n".toList else []

/- The text that WriteFile writes: a setting without a line gets one at the end. -/
def Session.str (s : Session) : Text :=
  s.config.lines.flatMap (fun line => s.GetNewText line ++ "\n".toList) ++ s.cfgList.flatMap s.added

/- pgConfigOrgLine::pgConfigOrgLine, from a new line -/
def pgConfigLine.orgLine (name text : Text) (line : pgConfigLine) : pgConfigOrgLine where
  text := text
  item := some name
  isComment := line.isComment
  value := line.value
  commentIndent := if line.isComment then DEFAULT_COMMENT_INDEX else []
  comment := line.comment

def Config.store (config : Config) (name : Text) (line : pgConfigLine) : Config :=
  let text := config.newText name line
  match config.orgLine name with
  | none =>
    { lines := config.lines ++ [line.orgLine name text]
      options := config.options.map fun other =>
        if other.name = name then { other with orgLine := some config.lines.length } else other }
  | some k =>
    { config with lines := config.lines.modify k fun org =>
        { org with text := text, isComment := line.isComment, value := line.value, comment := line.comment } }

/- The new lines are deleted, each with the line that the setting has by then. -/
def WriteFile (s : Session) (written : Bool) : Session :=
  if written then
    { s with
      config := s.cfgList.foldl (fun config name =>
        match s.newLine name with
        | none => config
        | some line => config.store name line) s.config
      newLine := fun _ => none }
  else s

def behindLead (text : Text) : Pointer := (cStr text).dropWhile lead
def keywordOf (text : Text) : Text := (behindLead text).takeWhile keywordLetter
def commentOf (text : Text) : Bool := ((cStr text).takeWhile lead).contains '#' || (behindLead text).isEmpty
def fieldsOf (text : Text) : Option (Text × Text × Text) := scanValue ((behindLead text).dropWhile keywordLetter)

def Recovers (text : Text) (line : pgConfigLine) : Prop :=
  ∃ indent, fieldsOf text = some (line.value, indent, line.comment)

def indentLetter (c : Char) : Bool := wxStrchr " \t#".toList c

def quoteLetter (c : Char) : Bool := wxStrchr "'\"".toList c

/- Of one line. -/
structure Plain (line : pgConfigLine) : Prop where
  value : ∀ c ∈ line.value, c ≠ '\x00' ∧ c ≠ '\n' ∧ c ≠ '\r'
  comment : ∀ c ∈ line.comment, c ≠ '\x00' ∧ c ≠ '\n' ∧ c ≠ '\r'

/- The name of a setting. -/
structure Named (name : Text) : Prop where
  nonempty : name ≠ []
  letters : ∀ c ∈ name, keywordLetter c = true ∧ c ≠ '\x00' ∧ c ≠ '\n' ∧ c ≠ '\r'

/- A value that a text setting can have, with one kind of quotes at most, or another one, without quotes and blanks;
and no comment on an empty value, nor one that begins like what stands before a comment. -/
structure Writable (type : pgConfigType) (line : pgConfigLine) : Prop where
  text : type = .PGC_STRING → '\'' ∉ line.value ∨ '"' ∉ line.value
  other : type ≠ .PGC_STRING → line.value ≠ [] ∧ (∀ c ∈ line.value, indentLetter c = false) ∧
    ∀ c ∈ line.value.head?, quoteLetter c = false
  comment : line.comment ≠ [] → line.value ≠ [] ∧ ∀ c ∈ line.comment.head?, indentLetter c = false

section Lines
variable {name : Text} {type : pgConfigType} {orgLine : Option pgConfigOrgLine} {line : pgConfigLine}

def pgConfigLine.rest (type : pgConfigType) (orgLine : Option pgConfigOrgLine) (line : pgConfigLine) : Text :=
  quoteOf type line.value ++ line.value ++ quoteOf type line.value ++
    if line.comment = [] then [] else indentOf orgLine ++ line.comment

theorem newTextParts : line.GetNewText name type orgLine =
    (if line.isComment then "# ".toList else []) ++ (name ++ (" = ".toList ++ line.rest type orgLine)) := by
  unfold pgConfigLine.GetNewText pgConfigLine.rest
  split_ifs <;> simp only [List.append_assoc, List.append_nil]

theorem indentLetters (indents : ∀ line ∈ orgLine, ∀ c ∈ line.commentIndent, c = ' ' ∨ c = '\t' ∨ c = '#') :
    ∀ c ∈ indentOf orgLine, c = ' ' ∨ c = '\t' ∨ c = '#' := by
  unfold indentOf
  split
  · rename_i org
    split_ifs
    · exact indents org rfl
    · simp [DEFAULT_COMMENT_INDEX]
  · simp [DEFAULT_COMMENT_INDEX]

theorem indentMarked (orgLine : Option pgConfigOrgLine) : '#' ∈ indentOf orgLine := by
  unfold indentOf
  split
  · split_ifs with marked
    · simpa using marked
    · simp [DEFAULT_COMMENT_INDEX]
  · simp [DEFAULT_COMMENT_INDEX]

theorem newTextPlain (named : Named name) (plain : Plain line)
    (indents : ∀ line ∈ orgLine, ∀ c ∈ line.commentIndent, c = ' ' ∨ c = '\t' ∨ c = '#') :
    ∀ c ∈ line.GetNewText name type orgLine, c ≠ '\x00' ∧ c ≠ '\n' ∧ c ≠ '\r' := by
  have quotes : ∀ c ∈ quoteOf type line.value, c = '\'' ∨ c = '"' := by
    unfold quoteOf
    split
    · split_ifs <;> simp
    · simp
  have letters := indentLetters indents
  intro c mem
  have parts : c ∈ "# ".toList ∨ c ∈ name ∨ c ∈ " = ".toList ∨ c ∈ quoteOf type line.value ∨ c ∈ line.value ∨
      c ∈ indentOf orgLine ∨ c ∈ line.comment := by
    rw [newTextParts, pgConfigLine.rest] at mem
    split_ifs at mem <;> simp only [List.mem_append, List.not_mem_nil] at mem <;> tauto
  rcases parts with mem | mem | mem | mem | mem | mem | mem
  · simp at mem
    rcases mem with rfl | rfl <;> decide
  · exact (named.letters c mem).2
  · simp at mem
    rcases mem with rfl | rfl | rfl <;> decide
  · rcases quotes c mem with rfl | rfl <;> decide
  · exact plain.value c mem
  · rcases letters c mem with rfl | rfl | rfl <;> decide
  · exact plain.comment c mem

theorem leadName (named : Named name) (rest : Text) :
    (name ++ rest).takeWhile lead = [] ∧ (name ++ rest).dropWhile lead = name ++ rest := by
  obtain ⟨c, letters, rfl⟩ := List.exists_cons_of_ne_nil named.nonempty
  obtain ⟨letter, nul, newline, -⟩ := named.letters c List.mem_cons_self
  have other : lead c = false := by
    simp only [keywordLetter, Bool.and_eq_true, decide_eq_true_eq] at letter
    simp [lead, wxStrchr, nul, newline, letter.1.1.1, letter.1.1.2]
  simp [other]

theorem keywordName (named : Named name) (rest : Text) :
    (name ++ (" = ".toList ++ rest)).takeWhile keywordLetter = name ∧
      (name ++ (" = ".toList ++ rest)).dropWhile keywordLetter = " = ".toList ++ rest := by
  have letters : ∀ c ∈ name, keywordLetter c = true := fun c mem => (named.letters c mem).1
  rw [List.takeWhile_append_of_pos letters, List.dropWhile_append_of_pos letters]
  simp [keywordLetter]

theorem newTextScanned (named : Named name) (plain : Plain line)
    (indents : ∀ line ∈ orgLine, ∀ c ∈ line.commentIndent, c = ' ' ∨ c = '\t' ∨ c = '#') :
    keywordOf (line.GetNewText name type orgLine) = name ∧ commentOf (line.GetNewText name type orgLine) =
      line.isComment ∧
      fieldsOf (line.GetNewText name type orgLine) = scanValue (" = ".toList ++ line.rest type orgLine) := by
  have whole : cStr (line.GetNewText name type orgLine) = line.GetNewText name type orgLine :=
    List.takeWhile_eq_self_iff.mpr fun c mem => decide_eq_true (newTextPlain named plain indents c mem).1
  obtain ⟨passed, kept⟩ := leadName named (" = ".toList ++ line.rest type orgLine)
  have some_ : (name ++ (" = ".toList ++ line.rest type orgLine)).isEmpty = false := by
    cases name <;> simp
  have parts : (cStr (line.GetNewText name type orgLine)).takeWhile lead =
    (if line.isComment then "# ".toList else []) ∧
      behindLead (line.GetNewText name type orgLine) = name ++ (" = ".toList ++ line.rest type orgLine) := by
    rw [behindLead, whole, newTextParts]
    split_ifs
    · have blanks : ∀ c ∈ "# ".toList, lead c = true := by simp [lead, wxStrchr]
      rw [List.takeWhile_append_of_pos blanks, List.dropWhile_append_of_pos blanks, passed, kept]
      simp
    · exact ⟨passed, kept⟩
  obtain ⟨name_, behind⟩ := keywordName named (line.rest type orgLine)
  refine ⟨by rw [keywordOf, parts.2, name_], ?_, by rw [fieldsOf, parts.2, behind]⟩
  rw [commentOf, parts.1, parts.2, some_]
  cases line.isComment <;> rfl

theorem scanTextParts (quoteChar : Char) (p2 : Pointer) : scanText quoteChar p2 =
    if p2.takeWhile (valueLetter quoteChar) = [] then some ([], [], []) else
      (if quoteChar = '\x00' then some (p2.dropWhile (valueLetter quoteChar))
        else next (p2.dropWhile (valueLetter quoteChar))).bind fun p3 =>
          some (p2.takeWhile (valueLetter quoteChar), p3.takeWhile indentLetter, p3.dropWhile indentLetter) := by
  by_cases empty : p2.takeWhile (valueLetter quoteChar) = []
  · simp only [scanText, skip, empty, if_true]
  · by_cases bare : quoteChar = '\x00' <;> simp only [scanText, skip, empty, bare, if_true, if_false] <;> rfl

theorem scanTextLetters {quoteChar : Char} {p2 : Pointer} {value indent comment : Text}
    (scans : scanText quoteChar p2 = some (value, indent, comment)) : ∀ c ∈ value, valueLetter quoteChar c = true := by
  rw [scanTextParts] at scans
  split_ifs at scans
  · obtain ⟨rfl, -⟩ := Prod.mk.inj (Option.some.inj scans)
    simp
  all_goals
    obtain ⟨p3, -, last⟩ := Option.bind_eq_some_iff.mp scans
    obtain ⟨rfl, -⟩ := Prod.mk.inj (Option.some.inj last)
    exact fun c mem => List.mem_takeWhile_imp mem

theorem commentScanned (indent : Text) (letters : ∀ c ∈ indent, indentLetter c = true) (comment : Text) :
    (indent ++ comment).dropWhile indentLetter = comment ↔ ∀ c ∈ comment.head?, indentLetter c = false := by
  rw [List.dropWhile_append_of_pos letters]
  cases comment with
  | nil => simp
  | cons c comment =>
    cases letter : indentLetter c with
    | false => simp [letter]
    | true =>
      have shorter := (List.dropWhile_suffix indentLetter (l := comment)).length_le
      simp only [List.dropWhile_cons_of_pos letter, List.head?_cons, Option.mem_some_iff, forall_eq', letter]
      refine iff_of_false (fun same => ?_) (by simp)
      rw [same] at shorter
      simp at shorter

def tailOf (orgLine : Option pgConfigOrgLine) (line : pgConfigLine) : Text :=
  if line.comment = [] then [] else indentOf orgLine ++ line.comment

theorem tailScanned (indents : ∀ line ∈ orgLine, ∀ c ∈ line.commentIndent, c = ' ' ∨ c = '\t' ∨ c = '#') :
    (tailOf orgLine line).dropWhile indentLetter = line.comment ↔
      ∀ c ∈ line.comment.head?, indentLetter c = false := by
  unfold tailOf
  split_ifs with none_
  · simp [none_]
  · refine commentScanned _ (fun c mem => ?_) _
    rcases indentLetters indents c mem with rfl | rfl | rfl <;> simp [indentLetter, wxStrchr]

theorem quotedScanned {quoteChar : Char} (quote : quoteChar ≠ '\x00') {value : Text} (free : quoteChar ∉ value)
    (tail : Text) : scanText quoteChar (value ++ quoteChar :: tail) = if value = [] then some ([], [], []) else
      some (value, tail.takeWhile indentLetter, tail.dropWhile indentLetter) := by
  have letters : valueLetter quoteChar = (· ≠ quoteChar) := by
    funext c
    simp [valueLetter, quote]
  have all : ∀ c ∈ value, decide (c ≠ quoteChar) = true := fun c mem => decide_eq_true fun same => free (same ▸ mem)
  have value_ : (skip (valueLetter quoteChar) (value ++ quoteChar :: tail)).1 = value := by
    rw [skip, letters, List.takeWhile_append_of_pos all]
    simp
  have behind : (skip (valueLetter quoteChar) (value ++ quoteChar :: tail)).2 = quoteChar :: tail := by
    rw [letters]
    exact skipTo free tail
  simp only [scanText, value_, behind, quote, if_false, next, Option.bind_eq_bind, Option.bind_some]
  rfl

theorem equalsScanned (rest : Text) : scanValue (" = ".toList ++ rest) =
    if wxStrchr "'\"".toList (deref (rest.dropWhile blank)) then
      (next (rest.dropWhile blank)).bind (scanText (deref (rest.dropWhile blank)))
    else scanText '\x00' (rest.dropWhile blank) := by
  have start : (skip (· ≠ '=') (" = ".toList ++ rest)).2 = "= ".toList ++ rest := rfl
  have behind : (skip blank (" ".toList ++ rest)).2 = rest.dropWhile blank := rfl
  rw [scanValue, start]
  exact congrArg (fun p2 : Pointer => if wxStrchr "'\"".toList (deref p2) then (next p2).bind (scanText (deref p2))
    else scanText '\x00' p2) behind

theorem stringRecovers (indents : ∀ line ∈ orgLine, ∀ c ∈ line.commentIndent, c = ' ' ∨ c = '\t' ∨ c = '#') :
    (∃ indent, scanValue (" = ".toList ++ line.rest .PGC_STRING orgLine) = some (line.value, indent, line.comment)) ↔
      ('\'' ∉ line.value ∨ '"' ∉ line.value) ∧
        (line.comment ≠ [] → line.value ≠ [] ∧ ∀ c ∈ line.comment.head?, indentLetter c = false) := by
  obtain ⟨q, quoteText, quote, either⟩ : ∃ q, quoteOf .PGC_STRING line.value = [q] ∧ (q = '\'' ∨ q = '"') ∧
      (q ∉ line.value ↔ '\'' ∉ line.value ∨ '"' ∉ line.value) := by
    unfold quoteOf
    by_cases single : '\'' ∈ line.value
    · exact ⟨'"', by simp [single], .inr rfl, by simp [single]⟩
    · exact ⟨'\'', by simp [single], .inl rfl, by simp [single]⟩
  have shape : line.rest .PGC_STRING orgLine = q :: (line.value ++ q :: tailOf orgLine line) := by
    simp [pgConfigLine.rest, quoteText, tailOf]
  have nul : q ≠ '\x00' := by rcases quote with rfl | rfl <;> decide
  have start : (q :: (line.value ++ q :: tailOf orgLine line)).dropWhile blank =
      q :: (line.value ++ q :: tailOf orgLine line) := by
    rcases quote with rfl | rfl <;> rfl
  have opens : wxStrchr "'\"".toList q = true := by rcases quote with rfl | rfl <;> decide
  rw [shape, equalsScanned, start]
  simp only [deref, opens, if_true, next, Option.bind_some]
  rw [← either]
  by_cases free : q ∈ line.value
  · refine iff_of_false ?_ fun writable => writable.1 free
    rintro ⟨indent, scans⟩
    have letter := scanTextLetters scans q free
    simp [valueLetter] at letter
  · rw [quotedScanned nul free]
    by_cases empty : line.value = []
    · rw [if_pos empty, empty]
      refine ⟨?_, fun writable => ⟨[], ?_⟩⟩
      · rintro ⟨indent, same⟩
        have none_ : line.comment = [] := (Prod.mk.inj (Prod.mk.inj (Option.some.inj same)).2).2.symm
        simp [none_]
      · have none_ : line.comment = [] := by_contra fun some_ => (writable.2 some_).1 rfl
        rw [none_]
    · simp only [empty, if_false, Option.some.injEq, Prod.mk.injEq, true_and, free, not_false_iff, ne_eq]
      rw [exists_eq_left', tailScanned indents]
      by_cases none_ : line.comment = [] <;> simp [none_]

theorem valueLetterBare (c : Char) : valueLetter '\x00' c = !indentLetter c := by
  by_cases nul : c = '\x00' <;> simp [valueLetter, indentLetter, wxStrchr, nul]

theorem bareScanned {value tail : Text} (letters : ∀ c ∈ value, indentLetter c = false) (nonempty : value ≠ [])
    (stops : ∀ c ∈ tail.head?, indentLetter c = true) : scanText '\x00' (value ++ tail) =
      some (value, tail.takeWhile indentLetter, tail.dropWhile indentLetter) := by
  have all : ∀ c ∈ value, valueLetter '\x00' c = true := fun c mem => by rw [valueLetterBare, letters c mem]; rfl
  have ends : tail.takeWhile (valueLetter '\x00') = [] ∧ tail.dropWhile (valueLetter '\x00') = tail := by
    cases tail with
    | nil => exact ⟨rfl, rfl⟩
    | cons c tail =>
      have letter : valueLetter '\x00' c = false := by rw [valueLetterBare, stops c rfl]; rfl
      simp [letter]
  rw [scanTextParts, List.takeWhile_append_of_pos all, List.dropWhile_append_of_pos all, ends.1, ends.2,
    List.append_nil,
    if_neg nonempty]
  rfl

theorem tailMarked (line : pgConfigLine) (indents : ∀ line ∈ orgLine, ∀ c ∈ line.commentIndent, c = ' ' ∨ c = '\t' ∨
    c = '#') :
    (tailOf orgLine line = [] ↔ line.comment = []) ∧ (∀ c ∈ (tailOf orgLine line).head?, indentLetter c = true) ∧
      (line.comment ≠ [] → ∃ more, (tailOf orgLine line).dropWhile blank = '#' :: more) := by
  have letters := indentLetters indents
  have marked := indentMarked orgLine
  unfold tailOf
  generalize indentOf orgLine = indent at letters marked
  split_ifs with none_
  · simp [none_]
  · have filled : indent ≠ [] := List.ne_nil_of_mem marked
    refine ⟨by simp [filled, none_], ?_, fun _ => ?_⟩
    · obtain ⟨c, rest, rfl⟩ := List.exists_cons_of_ne_nil filled
      intro c' mem
      obtain rfl : c = c' := by simpa using mem
      rcases letters c List.mem_cons_self with rfl | rfl | rfl <;> simp [indentLetter, wxStrchr]
    · clear filled
      induction indent with
      | nil => simp at marked
      | cons c indent ih =>
        rcases letters c List.mem_cons_self with rfl | rfl | rfl
        · exact ih (fun c mem => letters c (List.mem_cons_of_mem _ mem)) (by simpa using marked)
        · exact ih (fun c mem => letters c (List.mem_cons_of_mem _ mem)) (by simpa using marked)
        · exact ⟨indent ++ line.comment, by simp [blank, wxStrchr]⟩

theorem notBlank {c : Char} (letter : indentLetter c = false) : blank c = false := by
  simp only [indentLetter, blank, wxStrchr, Bool.or_eq_false_iff] at letter ⊢
  refine ⟨letter.1, ?_⟩
  have absent := letter.2
  simp at absent ⊢
  exact ⟨absent.1, absent.2.1⟩

theorem bareStarts (indents : ∀ line ∈ orgLine, ∀ c ∈ line.commentIndent, c = ' ' ∨ c = '\t' ∨ c = '#') {indent : Text}
    (scans : scanValue (" = ".toList ++ (line.value ++ tailOf orgLine line)) = some
    (line.value, indent, line.comment)) :
    line.value ≠ [] ∧ (∀ c ∈ line.value, indentLetter c = false) ∧ ∀ c ∈ line.value.head?, quoteLetter c = false := by
  obtain ⟨none_, -, marked⟩ := tailMarked line indents
  have cut := @List.dropWhile_append Char blank line.value (tailOf orgLine line)
  have hash : wxStrchr "'\"".toList '#' = false := by simp [wxStrchr]
  rw [equalsScanned] at scans
  split_ifs at scans with quoted
  · exfalso
    obtain ⟨p, moved, scans⟩ := Option.bind_eq_some_iff.mp scans
    cases here : (line.value ++ tailOf orgLine line).dropWhile blank with
    | nil =>
      rw [here] at moved
      cases moved
    | cons q p' =>
      rw [here] at scans quoted cut
      have other : q ∉ line.value := fun mem => by
        have letter := scanTextLetters scans q mem
        simp [valueLetter, deref] at letter
      split_ifs at cut with blanks
      · by_cases empty : line.comment = []
        · rw [none_.mpr empty] at cut
          cases cut
        · obtain ⟨more, shape⟩ := marked empty
          rw [shape] at cut
          obtain ⟨rfl, -⟩ := List.cons.inj cut
          exact Bool.false_ne_true (hash.symm.trans quoted)
      · have some_ : line.value.dropWhile blank ≠ [] := fun empty => blanks (List.isEmpty_iff.mpr empty)
        obtain ⟨c, value, shape⟩ := List.exists_cons_of_ne_nil some_
        rw [shape] at cut
        obtain ⟨rfl, -⟩ := List.cons.inj cut
        exact other ((List.dropWhile_suffix blank).subset (shape ▸ List.mem_cons_self))
  · have letters : ∀ c ∈ line.value, indentLetter c = false := fun c mem => by
      simpa [valueLetterBare] using scanTextLetters scans c mem
    have nonempty : line.value ≠ [] := by
      intro empty
      rw [empty, List.nil_append] at scans quoted
      by_cases bare : line.comment = []
      · rw [none_.mpr bare] at quoted
        exact quoted rfl
      · obtain ⟨more, shape⟩ := marked bare
        have stop : ('#' :: more).takeWhile (valueLetter '\x00') = [] := by
          simp [valueLetterBare, indentLetter, wxStrchr]
        rw [shape, scanTextParts, if_pos stop] at scans
        exact bare (Prod.mk.inj (Prod.mk.inj (Option.some.inj scans)).2).2.symm
    refine ⟨nonempty, letters, ?_⟩
    obtain ⟨c, value, whole⟩ := List.exists_cons_of_ne_nil nonempty
    rw [whole] at letters quoted ⊢
    intro c' mem
    obtain rfl : c = c' := by simpa using mem
    have first : blank c = false := notBlank (letters c List.mem_cons_self)
    simpa [first, deref, quoteLetter] using quoted

theorem otherRecovers (other : type ≠ .PGC_STRING)
    (indents : ∀ line ∈ orgLine, ∀ c ∈ line.commentIndent, c = ' ' ∨ c = '\t' ∨ c = '#') :
    (∃ indent, scanValue (" = ".toList ++ line.rest type orgLine) = some (line.value, indent, line.comment)) ↔
      (line.value ≠ [] ∧ (∀ c ∈ line.value, indentLetter c = false) ∧ ∀ c ∈ line.value.head?, quoteLetter c = false) ∧
        (line.comment ≠ [] → line.value ≠ [] ∧ ∀ c ∈ line.comment.head?, indentLetter c = false) := by
  have shape : line.rest type orgLine = line.value ++ tailOf orgLine line := by
    cases type <;> simp_all [pgConfigLine.rest, quoteOf, tailOf]
  obtain ⟨none_, stops, marked⟩ := tailMarked line indents
  have scanned (nonempty : line.value ≠ []) (letters : ∀ c ∈ line.value, indentLetter c = false)
      (quote : ∀ c ∈ line.value.head?, quoteLetter c = false) :
      scanValue (" = ".toList ++ line.rest type orgLine) = some (line.value,
        (tailOf orgLine line).takeWhile indentLetter, (tailOf orgLine line).dropWhile indentLetter) := by
    have start : (line.value ++ tailOf orgLine line).dropWhile blank = line.value ++ tailOf orgLine line ∧
        wxStrchr "'\"".toList (deref (line.value ++ tailOf orgLine line)) = false := by
      obtain ⟨c, value, whole⟩ := List.exists_cons_of_ne_nil nonempty
      rw [whole] at letters quote ⊢
      exact ⟨by simp [notBlank (letters c List.mem_cons_self)], quote c rfl⟩
    rw [shape, equalsScanned, start.1, if_neg (Bool.eq_false_iff.mp start.2)]
    exact bareScanned letters nonempty stops
  constructor
  · rintro ⟨indent, scans⟩
    have bare : scanValue (" = ".toList ++ (line.value ++ tailOf orgLine line)) =
        some (line.value, indent, line.comment) := by rw [← shape, scans]
    obtain ⟨nonempty, letters, quote⟩ := bareStarts indents bare
    refine ⟨⟨nonempty, letters, quote⟩, fun _ => ⟨nonempty, ?_⟩⟩
    have same := (scanned nonempty letters quote).symm.trans scans
    exact (tailScanned indents).mp (Prod.mk.inj (Prod.mk.inj (Option.some.inj same)).2).2
  · rintro ⟨⟨nonempty, letters, quote⟩, comment⟩
    have found : (tailOf orgLine line).dropWhile indentLetter = line.comment := by
      refine (tailScanned indents).mpr fun c mem => ?_
      have some_ : line.comment ≠ [] := by
        rintro empty
        simp [empty] at mem
      exact (comment some_).2 c mem
    exact ⟨_, by rw [scanned nonempty letters quote, found]⟩

theorem newTextRecovers (named : Named name) (plain : Plain line)
    (indents : ∀ line ∈ orgLine, ∀ c ∈ line.commentIndent, c = ' ' ∨ c = '\t' ∨ c = '#') :
    Recovers (line.GetNewText name type orgLine) line ↔ Writable type line := by
  rw [Recovers, (newTextScanned named plain indents).2.2]
  by_cases text : type = .PGC_STRING
  · subst text
    rw [stringRecovers indents]
    exact ⟨fun writable => ⟨fun _ => writable.1, fun other => absurd rfl other, writable.2⟩,
      fun writable => ⟨writable.text rfl, writable.comment⟩⟩
  · rw [otherRecovers text indents]
    exact ⟨fun writable => ⟨fun same => absurd same text, fun _ => writable.1, writable.2⟩,
      fun writable => ⟨writable.other text, writable.comment⟩⟩

end Lines

end PgAdmin.frmMainConfig
