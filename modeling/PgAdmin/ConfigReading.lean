import PgAdmin.ConfigWriting

/-! What the scan of a configuration file leaves, in terms of its lines: which line each setting has, and whether the
scan comes to an end. -/
namespace PgAdmin.frmMainConfig
open Cursor (cStr cStrNulFree)
open PgsObjects (Text)
open Tokenizer

section Choice
variable {α : Type} {p : α → Bool} {items : List α} {k : ℕ}

def lastWhere (p : α → Bool) : List α → Option ℕ
  | [] => none
  | a :: items =>
    match lastWhere p items with
    | some k => some (k + 1)
    | none => if p a then some 0 else none

theorem lastWhereAppend (a : α) : lastWhere p (items ++ [a]) = if p a then some items.length else lastWhere p items :=
    by
  induction items with
  | nil => rfl
  | cons b items ih =>
    rw [List.cons_append, lastWhere, ih]
    cases here : p a <;> simp [lastWhere]

theorem lastWhereNone : lastWhere p items = none ↔ ∀ a ∈ items, p a = false := by
  induction items with
  | nil => simp [lastWhere]
  | cons b items ih =>
    rw [lastWhere, List.forall_mem_cons, ← ih]
    cases lastWhere p items <;> simp

theorem lastWhereSome : lastWhere p items = some k ↔
    (∃ a, items[k]? = some a ∧ p a = true) ∧ ∀ i a, k < i → items[i]? = some a → p a = false := by
  induction items using List.reverseRecOn with
  | nil => simp [lastWhere]
  | append_singleton items b ih =>
    rw [lastWhereAppend]
    split_ifs with here
    · constructor
      · rintro ⟨rfl⟩
        refine ⟨⟨b, by simp, here⟩, fun i a later at_ => ?_⟩
        rw [List.getElem?_eq_none (by simp; omega)] at at_
        cases at_
      · rintro ⟨⟨a, at_, holds⟩, none_⟩
        have inside : k < (items ++ [b]).length := (List.getElem?_eq_some_iff.mp at_).1
        rw [List.length_append, List.length_singleton] at inside
        rcases Nat.lt_succ_iff_lt_or_eq.mp inside with before | rfl
        · have absurd_ := none_ items.length b before (by simp)
          rw [here] at absurd_
          cases absurd_
        · rfl
    · rw [ih]
      have other : p b = false := Bool.eq_false_iff.mpr here
      constructor
      · rintro ⟨⟨a, at_, holds⟩, none_⟩
        have inside : k < items.length := (List.getElem?_eq_some_iff.mp at_).1
        refine ⟨⟨a, by rw [List.getElem?_append_left inside, at_], holds⟩, fun i a later at_ => ?_⟩
        by_cases within : i < items.length
        · exact none_ i a later (by rwa [List.getElem?_append_left within] at at_)
        · rw [List.getElem?_append_right (Nat.le_of_not_lt within)] at at_
          obtain rfl := List.mem_singleton.mp (List.mem_of_getElem? at_)
          exact other
      · rintro ⟨⟨a, at_, holds⟩, none_⟩
        have within : k < items.length := by
          by_contra outside
          rw [List.getElem?_append_right (Nat.le_of_not_lt outside)] at at_
          obtain rfl := List.mem_singleton.mp (List.mem_of_getElem? at_)
          rw [other] at holds
          cases holds
        refine ⟨⟨a, by rwa [List.getElem?_append_left within] at at_, holds⟩, fun i a later at_ => ?_⟩
        exact none_ i a later (by rw [List.getElem?_append_left (List.getElem?_eq_some_iff.mp at_).1, at_])

end Choice

/- Of the lines of a setting, each a comment or not, the last that is active, or the last one of a known setting. -/
def choose (known : Bool) (marks : List (Option Bool)) : Option ℕ :=
  (lastWhere (· == some false) marks).or (if known then lastWhere (· == some true) marks else none)

section Chosen
variable {known : Bool} {marks : List (Option Bool)} {k : ℕ}

theorem chooseOther : choose known (marks ++ [none]) = choose known marks := by
  simp [choose, lastWhereAppend]

theorem chooseActive : choose known (marks ++ [some false]) = some marks.length := by
  simp [choose, lastWhereAppend]

theorem chooseComment (inactive : some false ∉ marks) :
    choose known (marks ++ [some true]) = if known then some marks.length else none := by
  have none_ : lastWhere (· == some false) marks = none :=
    lastWhereNone.mpr fun a mem => beq_eq_false_iff_ne.mpr fun same => inactive (same ▸ mem)
  simp [choose, lastWhereAppend, none_]

theorem chooseKept (active : some false ∈ marks) : choose known (marks ++ [some true]) = choose known marks := by
  have some_ : lastWhere (· == some false) marks ≠ none := fun none_ => by
    simpa using lastWhereNone.mp none_ _ active
  obtain ⟨k, here⟩ := Option.ne_none_iff_exists'.mp some_
  simp [choose, lastWhereAppend, here]

theorem chooseNone (none_ : choose known marks = none) : some false ∉ marks := by
  intro active
  have absent := lastWhereNone.mp (Option.or_eq_none_iff.mp none_).1 _ active
  simp at absent

theorem chosenMark (chosen : choose known marks = some k) : ∃ c, marks[k]? = some (some c) := by
  rcases Option.or_eq_some_iff.mp chosen with here | ⟨-, here⟩
  · obtain ⟨⟨a, at_, holds⟩, -⟩ := lastWhereSome.mp here
    exact ⟨false, by rw [at_, beq_iff_eq.mp holds]⟩
  · split_ifs at here
    obtain ⟨⟨a, at_, holds⟩, -⟩ := lastWhereSome.mp here
    exact ⟨true, by rw [at_, beq_iff_eq.mp holds]⟩

theorem chooseKnown (chosen : choose known marks = some k) (comment : marks[k]? = some (some true)) : known = true := by
  rcases Option.or_eq_some_iff.mp chosen with here | ⟨-, here⟩
  · obtain ⟨⟨a, at_, holds⟩, -⟩ := lastWhereSome.mp here
    obtain rfl := Option.some.inj (at_.symm.trans comment)
    simp at holds
  · split_ifs at here with known_
    exact known_

theorem chosenLast (chosen : choose known marks = some k) {i : ℕ} (later : k < i) : marks[i]? ≠ some (some false) := by
  intro at_
  rcases Option.or_eq_some_iff.mp chosen with here | ⟨none_, -⟩
  · have absent := (lastWhereSome.mp here).2 i _ later at_
    simp at absent
  · have absent := lastWhereNone.mp none_ _ (List.mem_of_getElem? at_)
    simp at absent

theorem setMark {c : Bool} (inside : k < marks.length) (i : ℕ) :
    (marks.set k (some c))[i]? = if i = k then some (some c) else marks[i]? := by
  rw [List.getElem?_set]
  by_cases here : i = k
  · rw [if_pos here.symm, if_pos inside, if_pos here]
  · rw [if_neg (Ne.symm here), if_neg here]

theorem chooseSetActive (chosen : choose known marks = some k) : choose known (marks.set k (some false)) = some k := by
  obtain ⟨c, at_⟩ := chosenMark chosen
  have inside := (List.getElem?_eq_some_iff.mp at_).1
  have here : lastWhere (· == some false) (marks.set k (some false)) = some k := by
    refine lastWhereSome.mpr ⟨⟨some false, by simp [setMark inside], rfl⟩, fun i a later at_ => ?_⟩
    rw [setMark inside, if_neg (Nat.ne_of_gt later)] at at_
    exact beq_eq_false_iff_ne.mpr fun same => chosenLast chosen later (same ▸ at_)
  rw [choose, here]
  rfl

theorem chooseSetComment (inside : k < marks.length) : choose known (marks.set k (some true)) = some k ↔
    known = true ∧ ∀ i, i ≠ k → marks[i]? ≠ some (some false) ∧ (k < i → marks[i]? ≠ some (some true)) := by
  constructor
  · intro chosen
    rcases Option.or_eq_some_iff.mp chosen with here | ⟨none_, here⟩
    · obtain ⟨⟨a, at_, holds⟩, -⟩ := lastWhereSome.mp here
      rw [setMark inside, if_pos rfl] at at_
      cases at_
      simp at holds
    · split_ifs at here with known_
      refine ⟨known_, fun i other => ⟨fun at_ => ?_, fun later at_ => ?_⟩⟩
      · have absent := lastWhereNone.mp none_ (some false) (List.mem_of_getElem? (i := i)
          (by rw [setMark inside, if_neg other, at_]))
        simp at absent
      · have absent := (lastWhereSome.mp here).2 i (some true) later (by rw [setMark inside, if_neg other, at_])
        simp at absent
  · rintro ⟨rfl, others⟩
    have none_ : lastWhere (· == some false) (marks.set k (some true)) = none := by
      refine lastWhereNone.mpr fun a mem => beq_eq_false_iff_ne.mpr ?_
      rintro rfl
      obtain ⟨i, at_⟩ := List.getElem?_of_mem mem
      rw [setMark inside] at at_
      split_ifs at at_ with here
      · cases at_
      · exact (others i here).1 at_
    have here : lastWhere (· == some true) (marks.set k (some true)) = some k := by
      refine lastWhereSome.mpr ⟨⟨some true, by simp [setMark inside], rfl⟩, fun i a later at_ => ?_⟩
      rw [setMark inside, if_neg (Nat.ne_of_gt later)] at at_
      exact beq_eq_false_iff_ne.mpr fun same => (others i (Nat.ne_of_gt later)).2 later (same ▸ at_)
    simp [choose, none_, here]

end Chosen

def mark (name text : Text) : Option Bool :=
  if keywordOf text = name ∧ keywordOf text ≠ [] then some (commentOf text) else none

def Config.texts (config : Config) : List Text := config.lines.map (·.text)

def Config.marks (config : Config) (name : Text) : List (Option Bool) := config.texts.map (mark name)

def knownIn (options : List pgSettingItem) (name : Text) : Bool := (options.find? (·.name = name)).isSome

/- The settings are what the lines say, from the settings of the server on. -/
structure Consistent (options : List pgSettingItem) (config : Config) : Prop where
  unbroken : ∀ text ∈ config.texts, '\n' ∉ text ∧ '\r' ∉ text
  known : ∀ name, (config.find name).isSome = (knownIn options name || (config.marks name).contains (some false))
  type : ∀ name, typeOf (config.find name) = typeOf (options.find? (·.name = name))
  chosen : ∀ name, config.orgLine name = choose (knownIn options name) (config.marks name)
  found : ∀ name k, config.orgLine name = some k → ∃ org, config.lines[k]? = some org ∧ org.item = some name ∧
    org.isComment = commentOf org.text ∧ ∃ indent, fieldsOf org.text = some (org.value, indent, org.comment)
  items : ∀ k org name, config.lines[k]? = some org → org.item = some name → config.orgLine name = some k
  indents : ∀ org ∈ config.lines, ∀ c ∈ org.commentIndent, c = ' ' ∨ c = '\t' ∨ c = '#'

section Scan
variable {options : List pgSettingItem} {config config' : Config} {text name keyword : Text} {isComment : Bool}

theorem displayLineParts : DisplayLine config text =
    let config := { config with lines := config.lines ++ [{ text, isComment := commentOf text }] }
    if keywordOf text = [] then some config
    else if (config.find (keywordOf text)).isNone ∧ commentOf text then some config
    else
      let config :=
        if (config.find (keywordOf text)).isNone then
          { config with options := config.options ++ [{ name := keywordOf text, type := .PGC_STRING }] }
        else config
      (fieldsOf text).bind fun fields => some ((config.assign (keywordOf text) (commentOf text)).fill fields) := rfl

theorem findAdded (config : Config) (name : Text) (item : pgSettingItem) (absent : config.find item.name = none) :
    ({ config with options := config.options ++ [item] } : Config).find name =
      if name = item.name then some item else config.find name := by
  rw [Config.find, List.find?_append]
  split_ifs with same
  · subst same
    rw [Config.find] at absent
    simp [absent]
  · have other : decide (item.name = name) = false := decide_eq_false (Ne.symm same)
    simp [other, Config.find]

theorem findSet (config : Config) (keyword name : Text) (n : ℕ) (lines : List pgConfigOrgLine) :
    ({ lines, options := config.options.map fun other =>
      if other.name = keyword then { other with orgLine := some n } else other } : Config).find name =
      if name = keyword then (config.find keyword).map ({ · with orgLine := some n }) else config.find name := by
  simp only [Config.find]
  induction config.options with
  | nil => simp
  | cons item items ih =>
    rw [List.map_cons, List.find?_cons, ih, List.find?_cons]
    by_cases here : item.name = keyword
    · by_cases same : name = keyword
      · simp [here, same]
      · have other : keyword ≠ name := Ne.symm same
        simp [here, same, other]
    · by_cases same : name = keyword
      · simp [here, same]
      · by_cases found : item.name = name <;> simp [here, same, found]

def released (displaced : Option ℕ) (lines : List pgConfigOrgLine) : List pgConfigOrgLine :=
  lines.mapIdx fun i line => if displaced = some i then { line with item := none } else line

theorem assignFill {lines : List pgConfigOrgLine} {raw : pgConfigOrgLine} (shape : config.lines = lines ++ [raw])
    {item : pgSettingItem} (found : config.find keyword = some item) (fresh : ¬(isComment = true ∧ config.active item))
      (fields : Text × Text × Text) :
    ((config.assign keyword isComment).fill fields).lines = released item.orgLine lines ++
        [{ raw with item := some keyword, value := fields.1, commentIndent := fields.2.1, comment := fields.2.2 }] ∧
      ((config.assign keyword isComment).fill fields).options = config.options.map fun other =>
        if other.name = keyword then { other with orgLine := some lines.length } else other := by
  have here : config.lines.length - 1 = lines.length := by simp [shape]
  simp only [Config.assign, found, fresh, if_false, Config.fill, here, List.length_mapIdx, and_true]
  rw [shape, List.mapIdx_append, List.mapIdx_append]
  congr 1
  · rw [List.mapIdx_mapIdx, released, List.mapIdx_eq_mapIdx_iff]
    intro i bound
    have other : i ≠ lines.length := Nat.ne_of_lt bound
    simp [other]
  · simp

theorem keepFill (config : Config) (isComment : Bool) {lines : List pgConfigOrgLine} {raw : pgConfigOrgLine}
    (shape : config.lines = lines ++ [raw])
    {item : pgSettingItem} (found : config.find keyword = some item) (fresh : isComment = true ∧ config.active item)
    (fields : Text × Text × Text) :
    (config.assign keyword isComment).fill fields = { config with lines := lines ++
      [{ raw with value := fields.1, commentIndent := fields.2.1, comment := fields.2.2 }] } := by
  have here : config.lines.length - 1 = lines.length := by simp [shape]
  simp only [Config.assign, found, fresh, and_self, if_true, Config.fill, here]
  rw [shape, List.mapIdx_append]
  congr 2
  · refine List.mapIdx_eq_iff.mpr fun i => ?_
    cases at_ : lines[i]? with
    | none => rfl
    | some line =>
      have other : i ≠ lines.length := Nat.ne_of_lt (List.getElem?_eq_some_iff.mp at_).1
      simp [other]
  · simp

theorem releasedAt (displaced : Option ℕ) (lines : List pgConfigOrgLine) (i : ℕ) : (released displaced lines)[i]? =
    lines[i]?.map fun line => if displaced = some i then { line with item := none } else line := by
  rw [released, List.getElem?_mapIdx]

theorem releasedTexts (displaced : Option ℕ) (lines : List pgConfigOrgLine) :
    (released displaced lines).map (·.text) = lines.map (·.text) := by
  refine List.ext_getElem? fun i => ?_
  rw [List.getElem?_map, List.getElem?_map, releasedAt, Option.map_map]
  congr 1
  funext line
  simp only [Function.comp_apply]
  split_ifs <;> rfl

structure Added (options : List pgSettingItem) (config config' : Config) (new : pgConfigOrgLine) : Prop where
  lines : config'.lines = released (new.item.bind config.orgLine) config.lines ++ [new]
  finds : ∀ name, new.item ≠ some name → config'.find name = config.find name
  owned : ∀ name, new.item = some name → config'.orgLine name = some config.lines.length ∧
    typeOf (config'.find name) = typeOf (options.find? (·.name = name)) ∧
      new.isComment = commentOf new.text ∧ ∃ indent, fieldsOf new.text = some (new.value, indent, new.comment)
  known : ∀ name, (config'.find name).isSome =
    (knownIn options name || (config.marks name ++ [mark name new.text]).contains (some false))
  chosen : ∀ name, config'.orgLine name = choose (knownIn options name) (config.marks name ++ [mark name new.text])
  indent : ∀ c ∈ new.commentIndent, c = ' ' ∨ c = '\t' ∨ c = '#'
  unbroken : '\n' ∉ new.text ∧ '\r' ∉ new.text

theorem addedTexts {new : pgConfigOrgLine} (added : Added options config config' new) :
    config'.texts = config.texts ++ [new.text] := by
  rw [Config.texts, added.lines, List.map_append, releasedTexts]
  rfl

theorem addedConsistent {new : pgConfigOrgLine} (consistent : Consistent options config)
    (added : Added options config config' new) : Consistent options config' := by
  have texts := addedTexts added
  have marks (name : Text) : config'.marks name = config.marks name ++ [mark name new.text] := by
    rw [Config.marks, texts, List.map_append]
    rfl
  have here : (released (new.item.bind config.orgLine) config.lines).length = config.lines.length := by simp [released]
  have other {name : Text} (differs : new.item ≠ some name) : config'.orgLine name = config.orgLine name := by
    rw [Config.orgLine, added.finds name differs]
    rfl
  refine ⟨?_, ?_, ?_, ?_, ?_, ?_, ?_⟩
  · rw [texts]
    intro text mem
    rcases List.mem_append.mp mem with mem | mem
    · exact consistent.unbroken text mem
    · exact List.mem_singleton.mp mem ▸ added.unbroken
  · intro name
    rw [marks, added.known]
  · intro name
    by_cases owner : new.item = some name
    · exact (added.owned name owner).2.1
    · rw [added.finds name owner, consistent.type]
  · intro name
    rw [marks, added.chosen]
  · intro name k line
    by_cases owner : new.item = some name
    · obtain ⟨own, -, comment, fields⟩ := added.owned name owner
      obtain rfl := Option.some.inj (own.symm.trans line)
      exact ⟨new, by rw [added.lines, List.getElem?_append_right (by rw [here]), here]; simp, owner, comment, fields⟩
    · rw [other owner] at line
      obtain ⟨org, at_, item, rest⟩ := consistent.found name k line
      refine ⟨org, ?_, item, rest⟩
      have inside := (List.getElem?_eq_some_iff.mp at_).1
      have kept : new.item.bind config.orgLine ≠ some k := by
        intro displaced
        obtain ⟨owner', own, displaced⟩ := Option.bind_eq_some_iff.mp displaced
        obtain ⟨org', at', item', -⟩ := consistent.found owner' k displaced
        obtain rfl := Option.some.inj (at_.symm.trans at')
        exact owner (by rw [own, ← item, item'])
      rw [added.lines, List.getElem?_append_left (by rwa [here]), releasedAt, at_, Option.map_some, if_neg kept]
  · intro k org name at_ item
    rw [added.lines] at at_
    by_cases inside : k < config.lines.length
    · rw [List.getElem?_append_left (by rwa [here]), releasedAt] at at_
      obtain ⟨before, was, same⟩ := Option.map_eq_some_iff.mp at_
      split_ifs at same with displaced
      · rw [← same] at item
        cases item
      · rw [← same] at item
        have line := consistent.items k before name was item
        rw [other, line]
        intro owner
        rw [owner] at displaced
        exact displaced line
    · rw [List.getElem?_append_right (by rw [here]; exact Nat.le_of_not_lt inside)] at at_
      have whole := List.getElem?_eq_some_iff.mp at_
      obtain ⟨bound, same⟩ := whole
      have zero : k = config.lines.length := by
        rw [here, List.length_singleton] at bound
        omega
      obtain rfl : new = org := by simpa [zero, here] using same
      rw [(added.owned name item).1, zero]
  · rw [added.lines]
    intro org mem c letter
    rcases List.mem_append.mp mem with mem | mem
    · obtain ⟨i, at_⟩ := List.getElem?_of_mem mem
      rw [releasedAt] at at_
      obtain ⟨before, was, same⟩ := Option.map_eq_some_iff.mp at_
      refine consistent.indents before (List.mem_of_getElem? was) c ?_
      split_ifs at same <;> rw [← same] at letter <;> exact letter
    · obtain rfl := List.mem_singleton.mp mem
      exact added.indent c letter

theorem releasedNone (lines : List pgConfigOrgLine) : released none lines = lines := by
  refine List.ext_getElem? fun i => ?_
  rw [releasedAt]
  simp

theorem markOther (other : keywordOf text ≠ name) : mark name text = none := if_neg fun same => other same.1

theorem markOwn (some_ : keywordOf text ≠ []) : mark (keywordOf text) text = some (commentOf text) := if_pos
    ⟨rfl, some_⟩

theorem nextSuffix {p p' : Pointer} (moved : next p = some p') : p' <:+ p := by
  cases p with
  | nil => cases moved
  | cons c p =>
    obtain rfl := Option.some.inj moved
    exact List.suffix_cons c p

theorem scanTextIndent {quoteChar : Char} {p2 : Pointer} {value indent comment : Text}
    (scans : scanText quoteChar p2 = some (value, indent, comment)) : ∀ c ∈ indent, c ∈ p2 ∧ indentLetter c = true := by
  rw [scanTextParts] at scans
  split_ifs at scans
  · obtain ⟨-, rfl, -⟩ := Prod.mk.inj (Option.some.inj scans)
    simp
  all_goals
    obtain ⟨p3, moved, last⟩ := Option.bind_eq_some_iff.mp scans
    obtain ⟨-, same⟩ := Prod.mk.inj (Option.some.inj last)
    obtain ⟨rfl, -⟩ := Prod.mk.inj same
    intro c mem
    refine ⟨?_, List.mem_takeWhile_imp mem⟩
    have inside := (List.takeWhile_prefix _).subset mem
  · obtain rfl := Option.some.inj moved
    exact (List.dropWhile_suffix _).subset inside
  · exact (List.dropWhile_suffix _).subset ((nextSuffix moved).subset inside)

theorem fieldsIndent {value indent comment : Text} (fields : fieldsOf text = some (value, indent, comment)) :
    ∀ c ∈ indent, c = ' ' ∨ c = '\t' ∨ c = '#' := by
  have letters : ∀ c ∈ indent, c ∈ cStr text ∧ indentLetter c = true := by
    unfold fieldsOf scanValue at fields
    obtain ⟨p2, moved, rest⟩ := Option.bind_eq_some_iff.mp fields
    have within : (skip blank p2).2 <:+ cStr text :=
      (List.dropWhile_suffix _).trans ((nextSuffix moved).trans ((List.dropWhile_suffix _).trans
        ((List.dropWhile_suffix _).trans (List.dropWhile_suffix _))))
    simp only at rest
    split_ifs at rest
    · obtain ⟨value', moved', rest⟩ := Option.bind_eq_some_iff.mp rest
      exact fun c mem => ⟨within.subset ((nextSuffix moved').subset (scanTextIndent rest c mem).1),
        (scanTextIndent rest c mem).2⟩
    · exact fun c mem => ⟨within.subset (scanTextIndent rest c mem).1, (scanTextIndent rest c mem).2⟩
  intro c mem
  obtain ⟨inside, letter⟩ := letters c mem
  have nul : c ≠ '\x00' := fun same => cStrNulFree text (same ▸ inside)
  simpa [indentLetter, wxStrchr, nul] using letter

theorem activeMarks (consistent : Consistent options config) {item : pgSettingItem}
    (found : config.find name = some item) : config.active item = true ↔ some false ∈ config.marks name := by
  have line : config.orgLine name = item.orgLine := by rw [Config.orgLine, found]; rfl
  have chosen := consistent.chosen name
  have own {k : ℕ} (at_ : item.orgLine = some k) : ∃ org, config.lines[k]? = some org ∧
      (config.marks name)[k]? = some (some org.isComment) := by
    obtain ⟨org, here, -, comment, -⟩ := consistent.found name k (line.trans at_)
    obtain ⟨c, marked⟩ := chosenMark (chosen.symm.trans (line.trans at_))
    refine ⟨org, here, ?_⟩
    have text : config.texts[k]? = some org.text := by rw [Config.texts, List.getElem?_map, here]; rfl
    rw [Config.marks, List.getElem?_map, text, Option.map_some] at marked ⊢
    have own : mark name org.text = some c := Option.some.inj marked
    unfold mark at own ⊢
    split_ifs at own ⊢
    rw [comment]
  unfold Config.active
  constructor
  · intro active
    cases at_ : item.orgLine with
    | none => simp [at_] at active
    | some k =>
      obtain ⟨org, here, marked⟩ := own at_
      simp only [at_, Option.bind_some, here, Bool.not_eq_true'] at active
      rw [active] at marked
      exact List.mem_of_getElem? marked
  · intro active
    rw [line] at chosen
    have some_ : lastWhere (· == some false) (config.marks name) ≠ none := fun none_ => by
      simpa using lastWhereNone.mp none_ _ active
    obtain ⟨k, last⟩ := Option.ne_none_iff_exists'.mp some_
    rw [choose, last] at chosen
    obtain ⟨org, here, marked⟩ := own chosen
    obtain ⟨⟨a, at_, holds⟩, -⟩ := lastWhereSome.mp last
    rw [beq_iff_eq.mp holds] at at_
    have comment := Option.some.inj (Option.some.inj (at_.symm.trans marked))
    have reads : item.orgLine = some k := chosen
    simp [reads, here, ← comment]

theorem plainAdded (consistent : Consistent options config) (unbroken : '\n' ∉ text ∧ '\r' ∉ text)
    (plain : keywordOf text = [] ∨ config.find (keywordOf text) = none ∧ commentOf text = true) :
    Added options config { config with lines := config.lines ++ [{ text, isComment := commentOf text }] }
      { text, isComment := commentOf text } where
  lines := by rw [Option.bind_none, releasedNone]
  finds _ _ := rfl
  owned name owner := by cases owner
  known name := by
    have inactive : mark name text ≠ some false := by
      unfold mark
      rcases plain with empty | ⟨-, comment⟩
      · simp [empty]
      · simp [comment]
    have same : (config.marks name ++ [mark name text]).contains (some false) =
        (config.marks name).contains (some false) := by
      simp [inactive.symm]
    rw [same, ← consistent.known]
    rfl
  chosen name := by
    have before := consistent.chosen name
    by_cases own : keywordOf text = name ∧ keywordOf text ≠ []
    · obtain ⟨rfl, some_⟩ := own
      obtain ⟨unknown, comment⟩ := plain.resolve_left some_
      have known := consistent.known (keywordOf text)
      rw [unknown, Option.isSome_none, eq_comm, Bool.or_eq_false_iff] at known
      have inactive : some false ∉ config.marks (keywordOf text) := by simpa using known.2
      rw [markOwn some_, comment, chooseComment inactive, known.1, Config.orgLine]
      exact congrArg (Option.bind · (·.orgLine)) unknown
    · rw [mark, if_neg own, chooseOther, ← before]
      rfl
  indent := by simp
  unbroken := unbroken

def scannedLine (text : Text) (item : Option Text) (fields : Text × Text × Text) : pgConfigOrgLine where
  text := text
  item := item
  isComment := commentOf text
  value := fields.1
  commentIndent := fields.2.1
  comment := fields.2.2

theorem scannedText (item : Option Text) (fields : Text × Text × Text) : (scannedLine text item fields).text = text :=
    rfl

theorem ownAdded (config2 : Config) (item : pgSettingItem) (consistent : Consistent options config)
    (unbroken : '\n' ∉ text ∧ '\r' ∉ text) (some_ : keywordOf text ≠ [])
    (lines : config2.lines = config.lines ++ [{ text, isComment := commentOf text }])
    (others : ∀ name, name ≠ keywordOf text → config2.find name = config.find name)
    (found : config2.find (keywordOf text) = some item) (line : item.orgLine = config.orgLine (keywordOf text))
    (type : typeOf (some item) = typeOf (options.find? (·.name = keywordOf text)))
    (fresh : ¬(commentOf text = true ∧ config2.active item))
    (known : (knownIn options (keywordOf text) || (config.marks (keywordOf text) ++
      [some (commentOf text)]).contains (some false)) = true)
    (chosen : choose (knownIn options (keywordOf text)) (config.marks (keywordOf text) ++ [some (commentOf text)]) =
      some config.lines.length) {fields : Text × Text × Text} (scanned : fieldsOf text = some fields) :
    Added options config ((config2.assign (keywordOf text) (commentOf text)).fill fields)
      (scannedLine text (some (keywordOf text)) fields) := by
  obtain ⟨lines', options'⟩ := assignFill lines found fresh fields
  have find (name : Text) : ((config2.assign (keywordOf text) (commentOf text)).fill fields).find name =
      if name = keywordOf text then some { item with orgLine := some config.lines.length } else config.find name := by
    have set := findSet config2 (keywordOf text) name config.lines.length []
    rw [Config.find, options']
    rw [found, Option.map_some] at set
    refine Eq.trans set ?_
    split_ifs with own
    · rfl
    · exact others name own
  have own (name : Text) (differs : some (keywordOf text) ≠ some name) : name ≠ keywordOf text := fun same =>
    differs (congrArg some same.symm)
  constructor
  · rw [lines', line]
    rfl
  · intro name differs
    rw [find, if_neg (own name differs)]
  · intro name owner
    obtain rfl := Option.some.inj owner
    refine ⟨?_, ?_, rfl, fields.2.1, scanned⟩
    · rw [Config.orgLine, find, if_pos rfl]
      rfl
    · rw [find, if_pos rfl, ← type]
      rfl
  · intro name
    rw [find, scannedText]
    split_ifs with same
    · subst same
      rw [markOwn some_, known]
      rfl
    · rw [markOther (Ne.symm same), consistent.known]
      simp
  · intro name
    rw [Config.orgLine, find, scannedText]
    split_ifs with same
    · subst same
      rw [markOwn some_, chosen]
      rfl
    · rw [markOther (Ne.symm same), chooseOther, ← consistent.chosen]
      rfl
  · exact fieldsIndent scanned
  · exact unbroken

theorem keptAdded (consistent : Consistent options config) (unbroken : '\n' ∉ text ∧ '\r' ∉ text)
    (some_ : keywordOf text ≠ []) (comment : commentOf text = true)
    (active : some false ∈ config.marks (keywordOf text))
    {fields : Text × Text × Text} (scanned : fieldsOf text = some fields) :
    Added options config { config with lines := config.lines ++ [scannedLine text none fields] }
      (scannedLine text none fields) where
  lines := by rw [scannedLine, Option.bind_none, releasedNone]
  finds _ _ := rfl
  owned name owner := by cases owner
  known name := by
    have inactive : mark name text ≠ some false := by
      unfold mark
      simp [comment]
    have same : (config.marks name ++ [mark name text]).contains (some false) =
        (config.marks name).contains (some false) := by
      simp [inactive.symm]
    rw [scannedText, same, ← consistent.known]
    rfl
  chosen name := by
    have before := consistent.chosen name
    by_cases own : keywordOf text = name
    · subst own
      rw [scannedText, markOwn some_, comment, chooseKept active, ← before]
      rfl
    · rw [scannedText, markOther own, chooseOther, ← before]
      rfl
  indent := fieldsIndent scanned
  unbroken := unbroken

theorem activeMore (consistent : Consistent options config) {item : pgSettingItem}
    (found : config.find name = some item)
    (raw : pgConfigOrgLine) : ({ config with lines := config.lines ++ [raw] } : Config).active item =
      config.active item := by
  have line : config.orgLine name = item.orgLine := by rw [Config.orgLine, found]; rfl
  unfold Config.active
  cases at_ : item.orgLine with
  | none => rfl
  | some k =>
    obtain ⟨org, here, -⟩ := consistent.found name k (line.trans at_)
    rw [Option.bind_some, Option.bind_some, List.getElem?_append_left (List.getElem?_eq_some_iff.mp here).1]

theorem displayLineAdded (consistent : Consistent options config) (unbroken : '\n' ∉ text ∧ '\r' ∉ text)
    (displayed : DisplayLine config text = some config') :
    ∃ new : pgConfigOrgLine, new.text = text ∧ Added options config config' new := by
  rw [displayLineParts] at displayed
  simp only at displayed
  have length : (config.marks (keywordOf text)).length = config.lines.length := by simp [Config.marks, Config.texts]
  have known := consistent.known (keywordOf text)
  split_ifs at displayed with empty unknown add
  · obtain rfl := Option.some.inj displayed
    exact ⟨_, rfl, plainAdded consistent unbroken (.inl empty)⟩
  · obtain rfl := Option.some.inj displayed
    exact ⟨_, rfl, plainAdded consistent unbroken (.inr ⟨Option.isNone_iff_eq_none.mp unknown.1, unknown.2⟩)⟩
  · obtain ⟨fields, scanned, last⟩ := Option.bind_eq_some_iff.mp displayed
    obtain rfl := Option.some.inj last
    have absent : config.find (keywordOf text) = none := Option.isNone_iff_eq_none.mp add
    have comment : commentOf text = false := Bool.eq_false_iff.mpr fun comment => unknown ⟨add, comment⟩
    have finds (name : Text) := findAdded { config with lines := config.lines ++
      [{ text, isComment := commentOf text }] } name { name := keywordOf text, type := .PGC_STRING }
      absent
    rw [absent, Option.isSome_none, eq_comm, Bool.or_eq_false_iff] at known
    refine ⟨scannedLine text (some (keywordOf text)) fields, rfl, ownAdded _
      { name := keywordOf text, type := .PGC_STRING }
      consistent unbroken empty rfl (fun name other => ?_) ?_ ?_ ?_ ?_ ?_ ?_ scanned⟩
    · rw [finds, if_neg other]
      rfl
    · rw [finds, if_pos rfl]
    · rw [Config.orgLine, absent]
      rfl
    · have none_ : options.find? (·.name = keywordOf text) = none := by simpa [knownIn] using known.1
      rw [none_]
      rfl
    · simp [comment]
    · simp [comment]
    · rw [comment, chooseActive, length]
  · obtain ⟨fields, scanned, last⟩ := Option.bind_eq_some_iff.mp displayed
    obtain rfl := Option.some.inj last
    obtain ⟨item, found⟩ := Option.ne_none_iff_exists'.mp (fun none_ => add (Option.isNone_iff_eq_none.mpr none_))
    have found' : config.find (keywordOf text) = some item := found
    have line : item.orgLine = config.orgLine (keywordOf text) := by rw [Config.orgLine, found']; rfl
    have active := activeMarks consistent found'
    rw [found', Option.isSome_some] at known
    by_cases keep : commentOf text = true ∧ config.active item = true
    · have kept := keepFill { config with lines := config.lines ++ [{ text, isComment := commentOf text }] }
        (commentOf text) rfl found ⟨keep.1, by rw [activeMore consistent found', keep.2]⟩ fields
      rw [kept]
      exact ⟨scannedLine text none fields, rfl, keptAdded consistent unbroken empty keep.1 (active.mp keep.2) scanned⟩
    · refine ⟨scannedLine text (some (keywordOf text)) fields, rfl, ownAdded { config with lines := config.lines ++
        [{ text, isComment := commentOf text }] } item consistent unbroken empty rfl (fun _ _ => rfl) found line
        ?_ ?_ ?_ ?_ scanned⟩
      · rw [← found', consistent.type]
      · rw [activeMore consistent found']
        exact keep
      · cases commentOf text with
        | false => simp
        | true => simpa using known.symm
      · cases comment : commentOf text with
        | false => rw [chooseActive, length]
        | true =>
          have inactive : some false ∉ config.marks (keywordOf text) := fun mem => keep ⟨comment, active.mpr mem⟩
          have base : knownIn options (keywordOf text) = true := by simpa [inactive] using known.symm
          rw [chooseComment inactive, base, if_pos rfl, length]

theorem displayLineConsistent (consistent : Consistent options config) (unbroken : '\n' ∉ text ∧ '\r' ∉ text)
    (displayed : DisplayLine config text = some config') :
    Consistent options config' ∧ config'.texts = config.texts ++ [text] := by
  obtain ⟨new, rfl, added⟩ := displayLineAdded consistent unbroken displayed
  exact ⟨addedConsistent consistent added, addedTexts added⟩

end Scan

def Scannable (options : List pgSettingItem) (texts : List Text) : Prop :=
  ∀ i text, texts[i]? = some text → keywordOf text ≠ [] →
    (commentOf text = true → knownIn options (keywordOf text) = true ∨
      some false ∈ (texts.take i).map (mark (keywordOf text))) → (fieldsOf text).isSome = true

section Reading
variable {options : List pgSettingItem} {config : Config} {text : Text} {texts : List Text}

theorem displayLineSome : (DisplayLine config text).isSome = true ↔ keywordOf text = [] ∨
    (config.find (keywordOf text) = none ∧ commentOf text = true) ∨ (fieldsOf text).isSome = true := by
  rw [displayLineParts]
  simp only
  split_ifs with empty unknown add
  · exact iff_of_true rfl (.inl empty)
  · exact iff_of_true rfl (.inr (.inl ⟨Option.isNone_iff_eq_none.mp unknown.1, unknown.2⟩))
  all_goals
    have other : ¬(config.find (keywordOf text) = none ∧ commentOf text = true) := fun both =>
      unknown ⟨Option.isNone_iff_eq_none.mpr both.1, both.2⟩
    simp only [empty, other, false_or]
    cases fieldsOf text <;> rfl

theorem scannableMore : Scannable options (texts ++ [text]) ↔ Scannable options texts ∧ (keywordOf text ≠ [] →
    (commentOf text = true → knownIn options (keywordOf text) = true ∨ some false ∈ texts.map (mark (keywordOf text))) →
      (fieldsOf text).isSome = true) := by
  constructor
  · intro all
    refine ⟨fun i text' at_ => ?_, ?_⟩
    · have inside := (List.getElem?_eq_some_iff.mp at_).1
      have more := all i text' (by rw [List.getElem?_append_left inside, at_])
      rwa [List.take_append_of_le_length (Nat.le_of_lt inside)] at more
    · simpa using all texts.length text (by simp)
  · rintro ⟨before, last⟩ i text' at_
    by_cases inside : i < texts.length
    · rw [List.getElem?_append_left inside] at at_
      rw [List.take_append_of_le_length (Nat.le_of_lt inside)]
      exact before i text' at_
    · obtain ⟨bound, same⟩ := List.getElem?_eq_some_iff.mp at_
      have here : i = texts.length := by
        rw [List.length_append, List.length_singleton] at bound
        omega
      subst here
      obtain rfl : text = text' := by simpa using same
      simpa using last

theorem freshConsistent (fresh : ∀ item ∈ options, item.orgLine = none) : Consistent options ⟨[], options⟩ where
  unbroken := by simp [Config.texts]
  known name := by simp [Config.find, knownIn, Config.marks, Config.texts]
  type name := rfl
  chosen name := by
    have none_ : choose (knownIn options name) [] = none := by simp [choose, lastWhere]
    rw [Config.marks, Config.texts, List.map_nil, List.map_nil, none_, Config.orgLine]
    cases found : (⟨[], options⟩ : Config).find name with
    | none => rfl
    | some item => exact fresh item (List.mem_of_find?_eq_some found)
  found name k line := by
    obtain ⟨item, found, at_⟩ := Option.bind_eq_some_iff.mp line
    rw [fresh item (List.mem_of_find?_eq_some found)] at at_
    cases at_
  items := by simp
  indents := by simp

def reads (options : List pgSettingItem) (texts : List Text) : Option Config := texts.foldlM DisplayLine ⟨[], options⟩

variable (fresh : ∀ item ∈ options, item.orgLine = none)
include fresh

theorem readConsistent (unbroken : ∀ text ∈ texts, '\n' ∉ text ∧ '\r' ∉ text)
    (read : reads options texts = some config) :
    Consistent options config ∧ config.texts = texts := by
  induction texts using List.reverseRecOn generalizing config with
  | nil =>
    obtain rfl := Option.some.inj read
    exact ⟨freshConsistent fresh, rfl⟩
  | append_singleton texts text ih =>
    rw [reads, List.foldlM_append] at read
    obtain ⟨before, first, last⟩ := Option.bind_eq_some_iff.mp read
    obtain ⟨consistent, same⟩ := ih (fun text mem => unbroken text (List.mem_append_left _ mem)) first
    have step : DisplayLine before text = some config := by simpa using last
    obtain ⟨consistent', more⟩ := displayLineConsistent consistent (unbroken text (by simp)) step
    exact ⟨consistent', by rw [more, same]⟩

theorem readScannable (unbroken : ∀ text ∈ texts, '\n' ∉ text ∧ '\r' ∉ text) :
    (reads options texts).isSome = true ↔ Scannable options texts := by
  induction texts using List.reverseRecOn with
  | nil => simp [reads, Scannable]
  | append_singleton texts text ih =>
    have before : ∀ text ∈ texts, '\n' ∉ text ∧ '\r' ∉ text := fun text mem => unbroken text
      (List.mem_append_left _ mem)
    rw [scannableMore, ← ih before, reads, List.foldlM_append]
    cases first : reads options texts with
    | none =>
      rw [reads] at first
      simp [first]
    | some config =>
      obtain ⟨consistent, same⟩ := readConsistent fresh before first
      have known := consistent.known (keywordOf text)
      rw [Config.marks, same] at known
      have step : (Option.bind (some config) fun config => [text].foldlM DisplayLine config) =
        DisplayLine config text := by
        simp
      rw [reads] at first
      rw [first, Option.bind_eq_bind, step, displayLineSome]
      by_cases empty : keywordOf text = []
      · simp [empty]
      · have either : knownIn options (keywordOf text) = true ∨ some false ∈ texts.map (mark (keywordOf text)) ↔
            config.find (keywordOf text) ≠ none := by
          rw [← Option.isSome_iff_ne_none, known]
          simp
        rw [either]
        by_cases found : config.find (keywordOf text) = none
        · cases commentOf text <;> simp [found, empty]
        · simp [found, empty]

end Reading

end PgAdmin.frmMainConfig
