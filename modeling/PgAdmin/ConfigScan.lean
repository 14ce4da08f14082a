import PgAdmin.Cursor
import PgAdmin.LineEnds

/-! frmMainConfig::DisplayFile: the lines of a configuration file are scanned with pointers. A pointer into a line is
what it has before it up to the terminating NUL, and there is none behind the NUL: a scan that moves a pointer there
has no result. -/
namespace PgAdmin.frmMainConfig
open Cursor (cStr cStrNulFree)
open LineEnds (Translate)
open PgsObjects (Text)
open Tokenizer

inductive pgConfigType where
  | PGC_BOOL
  | PGC_INT
  | PGC_REAL
  | PGC_STRING
  deriving DecidableEq, Repr

structure pgConfigOrgLine where
  text : Text
  item : Option Text := none
  isComment : Bool := false
  value : Text := []
  commentIndent : Text := []
  comment : Text := []
  deriving DecidableEq, Repr

structure pgSettingItem where
  name : Text
  type : pgConfigType
  orgLine : Option ℕ := none
  deriving DecidableEq, Repr

structure Config where
  lines : List pgConfigOrgLine
  options : List pgSettingItem
  deriving DecidableEq, Repr

def Config.find (config : Config) (name : Text) : Option pgSettingItem :=
  config.options.find? (·.name = name)

/- item->orgLine is there and no comment. -/
def Config.active (config : Config) (item : pgSettingItem) : Bool :=
  match item.orgLine.bind (config.lines[·]?) with
  | none => false
  | some line => !line.isComment

/- `const wxChar *p = line->text.c_str();` and what the scan moves on from it -/
abbrev Pointer := Text

def deref : Pointer → Char
  | [] => '\x00'
  | c :: _ => c

def next : Pointer → Option Pointer
  | [] => none
  | _ :: p => some p

/- The NUL is found in every set. -/
def wxStrchr (set : Text) (c : Char) : Bool := c = '\x00' || set.contains c

def skip (while_ : Char → Bool) (p : Pointer) : Text × Pointer := (p.takeWhile while_, p.dropWhile while_)

def lead (c : Char) : Bool := wxStrchr "# \n".toList c
def keywordLetter (c : Char) : Bool := c ≠ '#' && c ≠ ' ' && c ≠ '\t' && c ≠ '='
def blank (c : Char) : Bool := wxStrchr " \t".toList c
def valueLetter (quoteChar c : Char) : Bool :=
  !(c = quoteChar || quoteChar = '\x00' && wxStrchr " \t#".toList c)

/- From the value on, with the quote that it begins with: the value, the text up to the comment, and the comment. -/
def scanText (quoteChar : Char) (p2 : Pointer) : Option (Text × Text × Text) := do
  let (value, p3) := skip (valueLetter quoteChar) p2
  if value = [] then some ([], [], [])
  else
    let p3 ← if quoteChar = '\x00' then some p3 else next p3
    let (commentIndent, p4) := skip (wxStrchr " \t#".toList) p3
    some (value, commentIndent, p4)

def scanValue (p2 : Pointer) : Option (Text × Text × Text) := do
  let p2 := (skip (· ≠ '=') p2).2
  let p2 ← next p2
  let p2 := (skip blank p2).2
  if wxStrchr "'\"".toList (deref p2) then
    let value ← next p2
    scanText (deref p2) value
  else scanText '\x00' p2

def Config.assign (config : Config) (keyword : Text) (isComment : Bool) : Config :=
  match config.find keyword with
  | none => config
  | some item =>
    if isComment ∧ config.active item then config
    else
      let here := config.lines.length - 1
      let lines := config.lines.mapIdx fun i line =>
        if i = here then { line with item := some keyword }
        else if item.orgLine = some i then { line with item := none }
        else line
      { lines := lines
        options := config.options.map fun other =>
          if other.name = keyword then { other with orgLine := some here } else other }

def Config.fill (config : Config) (fields : Text × Text × Text) : Config :=
  let here := config.lines.length - 1
  { config with lines := config.lines.mapIdx fun i line =>
      if i = here then
        { line with value := fields.1, commentIndent := fields.2.1, comment := fields.2.2 }
      else line }

/- One turn of the loop over the lines. -/
def DisplayLine (config : Config) (text : Text) : Option Config := do
  let (passed, p) := skip lead (cStr text)
  let isComment := passed.contains '#' || p.isEmpty
  let (keyword, p2) := skip keywordLetter p
  let config := { config with lines := config.lines ++ [{ text, isComment }] }
  if keyword = [] then some config
  else if (config.find keyword).isNone ∧ isComment then some config
  else
    let config :=
      if (config.find keyword).isNone then
        { config with options := config.options ++ [{ name := keyword, type := .PGC_STRING }] }
      else config
    let fields ← scanValue p2
    some ((config.assign keyword isComment).fill fields)

/- From the settings of the server on. -/
def DisplayFile (options : List pgSettingItem) (str : Text) : Option Config :=
  (retEmpty '\n' (if '\r' ∈ str then Translate .unix str else str)).foldlM DisplayLine ⟨[], options⟩

/- There is a '=', something behind it and the blanks, and a quote that begins it with letters behind it is closed. -/
def Formed (p2 : Pointer) : Prop :=
  ∃ before after, p2 = before ++ '=' :: after ∧ '=' ∉ before ∧
    ∃ c s, after.dropWhile blank = c :: s ∧ (c = '\'' ∨ c = '"' → s = [] ∨ c ∈ s)

/- A line that the scan does not leave. -/
def Inside (known : Text → Bool) (text : Text) : Prop :=
  let p := (cStr text).dropWhile lead
  let keyword := p.takeWhile keywordLetter
  keyword = [] ∨ (known keyword = false ∧ '#' ∈ (cStr text).takeWhile lead) ∨
    Formed (p.dropWhile keywordLetter)

variable {p : Pointer} {c : Char}

theorem skipTo (absent : c ∉ p) (rest : Pointer) :
    (skip (· ≠ c) (p ++ c :: rest)).2 = c :: rest := by
  have all : ∀ l ∈ p, decide (l ≠ c) = true := fun l member =>
    decide_eq_true fun same => absent (same ▸ member)
  rw [skip, List.dropWhile_append_of_pos all]
  simp

theorem skipNone (absent : c ∉ p) : (skip (· ≠ c) p).2 = [] := by
  rw [skip, List.dropWhile_eq_nil_iff]
  exact fun l member => decide_eq_true fun same => absent (same ▸ member)

theorem textInside (quoteChar : Char) (p2 : Pointer) :
    (scanText quoteChar p2).isSome ↔ quoteChar = '\x00' ∨ p2 = [] ∨ quoteChar ∈ p2 := by
  by_cases bare : quoteChar = '\x00'
  · simp only [scanText, bare, if_true]
    split <;> simp
  · have letters : valueLetter quoteChar = (· ≠ quoteChar) := by
      funext l
      simp [valueLetter, bare]
    simp only [scanText, letters, bare, if_false, false_or]
    by_cases closed : quoteChar ∈ p2
    · obtain ⟨before, behind, rfl, absent⟩ := List.eq_append_cons_of_mem closed
      have stop := skipTo absent behind
      simp only [stop, next, Option.bind_eq_bind, Option.bind_some]
      split <;> simp
    · have stop := skipNone closed
      simp only [stop, next, Option.bind_eq_bind, Option.bind_none]
      by_cases none : p2 = []
      · subst none
        simp [skip]
      · have value : p2.takeWhile (· ≠ quoteChar) = p2 := by
          rw [List.takeWhile_eq_self_iff]
          exact fun l member => decide_eq_true fun same => closed (same ▸ member)
        simp only [skip, value]
        rw [if_neg none]
        simp [none, closed]

theorem valueInside {after : Pointer} (noNul : '\x00' ∉ after) :
    (scanValue ('=' :: after)).isSome ↔
      ∃ c s, after.dropWhile blank = c :: s ∧ (c = '\'' ∨ c = '"' → s = [] ∨ c ∈ s) := by
  have start : (skip (· ≠ '=') ('=' :: after)).2 = '=' :: after := rfl
  have rest : (skip blank after).2 = after.dropWhile blank := rfl
  simp only [scanValue, start, next, Option.bind_eq_bind, Option.bind_some, rest]
  cases shape : after.dropWhile blank with
  | nil => simp [deref, wxStrchr]
  | cons c s =>
    have inside : c ∈ after := (List.dropWhile_suffix blank).subset (shape ▸ List.mem_cons_self)
    have letter : c ≠ '\x00' := fun same => noNul (same ▸ inside)
    have quoted : wxStrchr "'\"".toList (deref (c :: s)) = true ↔ c = '\'' ∨ c = '"' := by
      simp [wxStrchr, deref, letter]
    by_cases quote : c = '\'' ∨ c = '"'
    · rw [if_pos (quoted.mpr quote), Option.bind_some, textInside]
      simp [deref, letter, quote]
    · rw [if_neg (mt quoted.mp quote), textInside]
      simp [quote]

theorem scanInside {p2 : Pointer} (noNul : '\x00' ∉ p2) : (scanValue p2).isSome ↔ Formed p2 := by
  by_cases equals : '=' ∈ p2
  · obtain ⟨before, after, rfl, absent⟩ := List.eq_append_cons_of_mem equals
    have same : scanValue (before ++ '=' :: after) = scanValue ('=' :: after) := by
      rw [scanValue, scanValue, skipTo absent]
      rfl
    have noNul' : '\x00' ∉ after := fun member => noNul (by simp [member])
    rw [same, valueInside noNul']
    constructor
    · exact fun value => ⟨before, after, rfl, absent, value⟩
    · rintro ⟨before', after', whole, absent', value⟩
      have behind := skipTo absent' after'
      rw [← whole, skipTo absent] at behind
      exact (List.cons.inj behind).2 ▸ value
  · rw [scanValue, skipNone equals]
    constructor
    · intro some_
      cases some_
    · rintro ⟨before, after, rfl, -⟩
      exact absurd (by simp) equals

def knows (config : Config) (keyword : Text) : Bool := (config.find keyword).isSome

theorem displayLineInside (config : Config) (text : Text) :
    (DisplayLine config text).isSome ↔ Inside (knows config) text := by
  have lines (added : List pgConfigOrgLine) (name : Text) :
      ({ config with lines := added } : Config).find name = config.find name := rfl
  have free : '\x00' ∉ ((cStr text).dropWhile lead).dropWhile keywordLetter := fun member =>
    cStrNulFree text ((List.dropWhile_suffix lead).subset ((List.dropWhile_suffix keywordLetter).subset member))
  simp only [DisplayLine, Inside, skip, lines]
  by_cases empty : ((cStr text).dropWhile lead).takeWhile keywordLetter = []
  · simp [empty]
  · have some_ : (cStr text).dropWhile lead ≠ [] := by
      rintro none
      rw [none] at empty
      exact empty rfl
    have unknown : ((config.find (((cStr text).dropWhile lead).takeWhile keywordLetter)).isNone = true ∧
          (((cStr text).takeWhile lead).contains '#' || ((cStr text).dropWhile lead).isEmpty) = true) ↔
        knows config (((cStr text).dropWhile lead).takeWhile keywordLetter) = false ∧
          '#' ∈ (cStr text).takeWhile lead := by
      rw [knows, Option.isSome_eq_false_iff]
      simp [some_]
    by_cases passed : knows config (((cStr text).dropWhile lead).takeWhile keywordLetter) = false ∧
        '#' ∈ (cStr text).takeWhile lead
    · rw [if_neg empty, if_pos (unknown.mpr passed)]
      simp [passed]
    · rw [if_neg empty, if_neg (mt unknown.mp passed), ← scanInside free]
      simp only [empty, passed, false_or]
      cases scanValue _ with
      | none => simp
      | some fields => simp

/-- A file is scanned to its end exactly when each line is, with the settings that the lines before it left. -/
theorem fileInside (options : List pgSettingItem) (lines : List Text) :
    (lines.foldlM DisplayLine ⟨[], options⟩).isSome ↔
      ∀ before line after, lines = before ++ line :: after →
        ∀ config, before.foldlM DisplayLine ⟨[], options⟩ = some config → Inside (knows config) line := by
  generalize (⟨[], options⟩ : Config) = start
  induction lines generalizing start with
  | nil => simp
  | cons text lines ih =>
    rw [List.foldlM_cons]
    constructor
    · rintro done before line after same config reached
      cases stepped : DisplayLine start text with
      | none =>
        rw [stepped] at done
        cases done
      | some later =>
        rw [stepped] at done
        cases before with
        | nil =>
          obtain ⟨rfl, rfl⟩ := List.cons.inj same
          obtain rfl := Option.some.inj reached
          exact (displayLineInside start text).mp (by simp [stepped])
        | cons first before =>
          obtain ⟨rfl, rest⟩ := List.cons.inj same
          rw [List.foldlM_cons, stepped] at reached
          exact (ih later).mp done before line after rest config reached
    · intro all
      obtain ⟨later, stepped⟩ := Option.isSome_iff_exists.mp
        ((displayLineInside start text).mpr (all [] text lines rfl start rfl))
      rw [stepped]
      refine (ih later).mpr fun before line after same config reached => ?_
      refine all (text :: before) line after (congrArg (text :: ·) same) config ?_
      rw [List.foldlM_cons, stepped]
      exact reached

theorem noEquals : ¬ ∀ config text, (DisplayLine config text).isSome = true := by
  intro all
  exact absurd (all ⟨[], []⟩ "port".toList) (by decide)

end PgAdmin.frmMainConfig
